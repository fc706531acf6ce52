import AgriFeed.Deployment.Protection
import AgriFeed.Oracle.Perturbation

/-! How much of an error in the submitted prices reaches the farmer. Until it settles an agreement cannot tell two runs
of its oracle apart that differ in prices only, and then the payouts differ by the worth of the error at most. -/
namespace AgriFeed.Deployment
open Foundation Pricefloor

/-- The same joint input, but for the price and the source time of a submission. -/
inductive PerturbedInput (lo hi : Int) : Oracle.Invocation ⊕ Input → Oracle.Invocation ⊕ Input → Prop where
  | oracle {tx tx' : Oracle.Invocation} (perturbed : Oracle.Perturbed lo hi tx tx') :
      PerturbedInput lo hi (.inl tx) (.inl tx')
  | agreement (input : Input) : PerturbedInput lo hi (.inr input) (.inr input)

section Amounts
variable {notional price price' collateral hi : Int}

/-- What is owed is the worth of the shortfall as far as the collateral goes. -/
theorem owed_eq_min (floorPrice : Int) (hc : 0 ≤ collateral) :
    owed floorPrice notional price collateral = min (max (floorPrice - price) 0 * notional) collateral := by
  unfold owed
  split
  · rename_i hm
    rw [max_eq_right (Int.sub_nonpos_of_le hm), Int.zero_mul, min_eq_left hc]
  · rename_i hm
    rw [max_eq_left (Int.sub_nonneg_of_le (Int.not_le.mp hm).le)]

/-- A price that is moved up by at most hi takes at most the worth of hi from what is owed. -/
theorem owed_moved (floorPrice : Int) (hq : 0 ≤ notional) (hc : 0 ≤ collateral) (h : price' ≤ price + max hi 0) :
    owed floorPrice notional price collateral - max hi 0 * notional ≤ owed floorPrice notional price' collateral := by
  have hshortfall : max (floorPrice - price) 0 ≤ max (floorPrice - price') 0 + max hi 0 := by omega
  have hworth := Int.mul_le_mul_of_nonneg_right hshortfall hq
  have hpart : 0 ≤ max hi 0 * notional := Int.mul_nonneg (le_max_right hi 0) hq
  rw [Int.add_mul] at hworth
  rw [owed_eq_min floorPrice hc, owed_eq_min floorPrice hc]
  omega

end Amounts

section Steps
variable {L : Type} {tokens : Tokens L} {self source : Address} {lo hi : Int}

/-- A call that does not settle only asks whether there is a price. -/
private theorem exec_unpriced (tokens : Tokens L) (self : Address) (w : World L) (env : Env) {feed feed' : Feed}
    {call : Call} (hne : call ≠ .settle)
    (h : ∀ oracle asset, (feed oracle asset).isSome = (feed' oracle asset).isSome) :
    (Pricefloor.machine tokens self).exec w (.invoke ⟨env, feed, call⟩) =
      (Pricefloor.machine tokens self).exec w (.invoke ⟨env, feed', call⟩) := by
  cases call with
  | settle => exact absurd rfl hne
  | cancel caller =>
    change (cancel tokens self env feed w caller).map _ = (cancel tokens self env feed' w caller).map _
    simp only [cancel, h]
  | _ => rfl

/-- As long as neither has settled, the states differ in the prices of their oracles only. -/
structure Alike (lo hi : Int) (s t : Oracle.Storage × World L) : Prop where
  coherent : Coherent s.2.storage ∧ Coherent t.2.storage
  unsettled : s.2.storage.settled ≠ some true → t.2.storage.settled ≠ some true →
    Oracle.MovedStorage lo hi s.1 t.1 ∧ t.2 = s.2

private theorem agreement_step (st : Oracle.Storage × World L) (input : Oracle.Invocation ⊕ Input) :
    ((machine tokens self source).step st input).2 = st.2 ∨ ∃ call out,
      Transition tokens self st.2 call out ((machine tokens self source).step st input).2 := by
  obtain ⟨s, w⟩ := st
  cases input with
  | inl tx =>
    rw [machine, Machine.interleave_step_inl]
    exact .inl rfl
  | inr input =>
    rw [machine, Machine.interleave_step_inr]
    cases he : (Pricefloor.machine tokens self).exec w (reading source s input) with
    | error e => exact .inl (Machine.step_rollback _ he)
    | ok out =>
      rw [Machine.step_commit _ he]
      exact .inr ⟨_, _, exec_eq_ok.mp he⟩

private theorem coherent_joint {st : Oracle.Storage × World L} (hc : Coherent st.2.storage)
    (input : Oracle.Invocation ⊕ Input) : Coherent ((machine tokens self source).step st input).2.storage := by
  rcases agreement_step st input with hs | ⟨_, _, ht⟩
  · rwa [hs]
  · exact coherent_step hc ht

private theorem settled_joint {st : Oracle.Storage × World L} (hc : Coherent st.2.storage)
    (hs : st.2.storage.settled = some true) (input : Oracle.Invocation ⊕ Input) :
    ((machine tokens self source).step st input).2.storage.settled = some true := by
  rcases agreement_step st input with hsame | ⟨_, _, ht⟩
  · rwa [hsame]
  · rwa [settled_step hc hs ht]

/-- A settlement attempt leaves the agreement settled or as it was. -/
private theorem settlement_step (w : World L) (env : Env) (feed : Feed) :
    ((Pricefloor.machine tokens self).step w (.invoke ⟨env, feed, .settle⟩)).storage.settled = some true ∨
      (Pricefloor.machine tokens self).step w (.invoke ⟨env, feed, .settle⟩) = w := by
  cases he : (Pricefloor.machine tokens self).exec w (.invoke ⟨env, feed, .settle⟩) with
  | error e => exact .inr (Machine.step_rollback _ he)
  | ok out =>
    rw [Machine.step_commit _ he]
    have ht := exec_eq_ok.mp he
    generalize out.1 = o, out.2 = w' at ht
    cases ht with
    | settle => exact .inl rfl

private theorem isSome_reading {s t : Oracle.Storage} (hm : Oracle.MovedStorage lo hi s t) (source : Address)
    (feed : Feed) (oracle : Address) (asset : Oracle.Asset) :
    (Function.update feed source (Oracle.lastprice s) oracle asset).isSome =
      (Function.update feed source (Oracle.lastprice t) oracle asset).isSome := by
  by_cases ho : oracle = source
  · have hr := hm.lastprice asset
    rw [ho, Function.update_self, Function.update_self]
    generalize Oracle.lastprice s asset = a, Oracle.lastprice t asset = b at hr
    cases hr with
    | none => rfl
    | some _ => rfl
  · rw [Function.update_of_ne ho, Function.update_of_ne ho]

private theorem alike_step {s t : Oracle.Storage × World L} (h : Alike lo hi s t)
    {i j : Oracle.Invocation ⊕ Input} (hq : PerturbedInput lo hi i j) :
    Alike lo hi ((machine tokens self source).step s i) ((machine tokens self source).step t j) := by
  refine ⟨⟨coherent_joint h.coherent.1 i, coherent_joint h.coherent.2 j⟩, fun hs ht => ?_⟩
  have hs₀ : s.2.storage.settled ≠ some true := fun hset => hs (settled_joint h.coherent.1 hset i)
  have ht₀ : t.2.storage.settled ≠ some true := fun hset => ht (settled_joint h.coherent.2 hset j)
  obtain ⟨hmoved, hsame⟩ := h.unsettled hs₀ ht₀
  obtain ⟨s, w⟩ := s
  obtain ⟨t, w'⟩ := t
  cases hsame
  cases hq with
  | oracle hp =>
    rw [machine, Machine.interleave_step_inl, Machine.interleave_step_inl]
    exact ⟨(Oracle.machine.step_related _ hmoved (Oracle.perturbed_agrees hmoved hp)).2, rfl⟩
  | agreement input =>
    rw [machine, Machine.interleave_step_inr] at hs ht
    rw [machine, Machine.interleave_step_inr, Machine.interleave_step_inr]
    refine ⟨hmoved, ?_⟩
    cases input with
    | transfer => rfl
    | invoke tx =>
      by_cases hcall : tx.call = .settle
      · obtain ⟨env, feed, call⟩ := tx
        cases hcall
        have hleft := (settlement_step w env (Function.update feed source (Oracle.lastprice s))).resolve_left hs
        have hright := (settlement_step w env (Function.update feed source (Oracle.lastprice t))).resolve_left ht
        exact hright.trans hleft.symm
      · have he := exec_unpriced tokens self w tx.env hcall (isSome_reading hmoved source tx.feed)
        simp only [Machine.step, reading, he]

end Steps

section Payouts
variable {L : Type} {tokens : Tokens L} {self source : Address} {lo hi : Int}

/-- The records that one settlement reads in two runs are moved as the submissions are, or are one. -/
private theorem quote_moved {s t : Oracle.Storage} (hm : Oracle.MovedStorage lo hi s t) {terms : Terms} {feed : Feed}
    {record record' : Oracle.PriceData}
    (hq : terms.quote (Function.update feed source (Oracle.lastprice s)) = some record)
    (hq' : terms.quote (Function.update feed source (Oracle.lastprice t)) = some record') :
    record'.price.val ≤ record.price.val + max hi 0 ∧ record.price.val ≤ record'.price.val + max (-lo) 0 := by
  by_cases ho : terms.oracle = source
  · rw [quote_reading ho] at hq hq'
    have hr := hm.lastprice (toOracleAsset terms.commodity)
    rw [hq, hq'] at hr
    cases hr with
    | some hrecord =>
      obtain ⟨hlow, hhigh⟩ := hrecord.price
      omega
  · rw [Terms.quote, Function.update_of_ne ho] at hq hq'
    cases hq.symm.trans hq'
    omega

/-- Payouts at two prices that settle the terms are as far apart as the prices are worth. -/
private theorem owed_apart {terms : Terms} {price price' : I128} {collateral : Int} (hc : 0 ≤ collateral)
    (hs : Settleable terms.floorPrice terms.notional price) (hs' : Settleable terms.floorPrice terms.notional price')
    (hhigh : price'.val ≤ price.val + max hi 0) (hlow : price.val ≤ price'.val + max (-lo) 0) :
    owed terms.floorPrice.val terms.notional.val price.val collateral - max hi 0 * max terms.notional.val 0 ≤
        owed terms.floorPrice.val terms.notional.val price'.val collateral ∧
      owed terms.floorPrice.val terms.notional.val price'.val collateral ≤
        owed terms.floorPrice.val terms.notional.val price.val collateral + max (-lo) 0 * max terms.notional.val 0 := by
  by_cases hq : 0 ≤ terms.notional.val
  · have hdown := owed_moved terms.floorPrice.val hq hc hhigh
    have hup := owed_moved terms.floorPrice.val hq hc hlow
    rw [max_eq_left hq]
    omega
  · have hfloor := (SignedInt.le_iff _ _).mp (hs.resolve_right fun h => hq h.1)
    have hfloor' := (SignedInt.le_iff _ _).mp (hs'.resolve_right fun h => hq h.1)
    rw [max_eq_right (not_le.mp hq).le, owed, owed, if_pos hfloor, if_pos hfloor', Int.mul_zero, Int.mul_zero]
    omega

/-- Two settlements of one agreement that read moved records. -/
private theorem payouts_apart (law : tokens.Exact) {s t : Oracle.Storage} {w : World L}
    (hm : Oracle.MovedStorage lo hi s t) (hsolvent : ∀ token, 0 ≤ (tokens.balance w.ledger token self).val)
    {env : Env} {feed : Feed} {payout payout' : I128} {events events' : List Event}
    (hr : (machine tokens self source).result (s, w) (.inr (.invoke ⟨env, feed, .settle⟩)) =
      .ok (.inr (.payout payout, events)))
    (hr' : (machine tokens self source).result (t, w) (.inr (.invoke ⟨env, feed, .settle⟩)) =
      .ok (.inr (.payout payout', events'))) :
    ∃ terms, w.storage.Holds terms ∧ payout.val - max hi 0 * max terms.notional.val 0 ≤ payout'.val ∧
      payout'.val ≤ payout.val + max (-lo) 0 * max terms.notional.val 0 := by
  have ht := exec_eq_ok.mp (Machine.result_eq_ok _ |>.mp (Machine.interleave_result_inr _ _ _ |>.mp hr))
  have ht' := exec_eq_ok.mp (Machine.result_eq_ok _ |>.mp (Machine.interleave_result_inr _ _ _ |>.mp hr'))
  obtain ⟨terms, holds⟩ : ∃ terms, w.storage.Holds terms := by
    generalize (Pricefloor.machine tokens self).step w _ = w' at ht
    cases ht with
    | settle _ _ hh => exact ⟨_, hh⟩
  obtain ⟨record, paid, hq, hsettleable, hout, howed⟩ := ht.settle_owed law holds (hsolvent _)
  obtain ⟨record', paid', hq', hsettleable', hout', howed'⟩ := ht'.settle_owed law holds (hsolvent _)
  cases hout
  cases hout'
  obtain ⟨hhigh, hlow⟩ := quote_moved hm hq hq'
  refine ⟨terms, holds, ?_⟩
  rw [howed, howed']
  exact owed_apart (hsolvent _) hsettleable hsettleable' hhigh hlow

end Payouts

/-- Terms with a floor of 100 and a notional of 2, while one node observes a price. -/
def observedRun (price : Int) : List (Oracle.Invocation ⊕ Input) :=
  (Oracle.opening ⟨0⟩ 60 [⟨3⟩] 1 (.other "MAIZE")).map .inl ++
    [.inr (signing ⟨1⟩ ⟨2⟩ (.literal 100) (.literal 2) ⟨5⟩ 1000 ⟨8⟩), .inr (funding ⟨2⟩ (.literal 9) 1010),
      .inl (Oracle.submission ⟨3⟩ (.other "MAIZE") (.literal price) 1030),
      .inl (Oracle.finalization (.other "MAIZE") 1050)]

end AgriFeed.Deployment
