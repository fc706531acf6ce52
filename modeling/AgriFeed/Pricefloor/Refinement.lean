import AgriFeed.Foundation.Lockstep
import AgriFeed.Pricefloor.Failures
import AgriFeed.Pricefloor.PriceFloor
import AgriFeed.Pricefloor.Settlement

/-! The agreement is the price floor. Apart from the calls that a token refuses, its callers get what the callers of the
price floor get, and all accounts of all tokens are as if the price floor had moved them. -/
namespace AgriFeed.Pricefloor
open Foundation

/-- What the entries stand for: nothing yet, or the deal and what has become of it. -/
inductive Standing (st : Storage) (floor : PriceFloor) : Prop where
  | blank (stored : st = .deployed) (deal : floor.deal = none) (phase : floor.phase = .unfunded)
      (cancelled : floor.cancelled = false)
  | agreed (terms : Terms) (holds : st.Holds terms) (deal : floor.deal = some terms.deal)
      (funded : st.funded = some (decide (floor.phase ≠ .unfunded)))
      (settled : st.settled = some (decide (floor.phase = .settled)))
      (cancelled : st.cancelled.getD false = floor.cancelled)

theorem Standing.withAccounts {st : Storage} {floor : PriceFloor} (h : Standing st floor) (accounts : Accounts) :
    Standing st { floor with accounts := accounts } := by
  cases h with
  | blank stored deal phase cancelled => exact .blank stored deal phase cancelled
  | agreed terms holds deal funded settled cancelled => exact .agreed terms holds deal funded settled cancelled

variable {L : Type} {tokens : Tokens L} {self : Address}

structure Represents (tokens : Tokens L) (w : World L) (floor : PriceFloor) : Prop where
  standing : Standing w.storage floor
  accounts : floor.accounts = balances tokens w.ledger

/-- The callers learn the same and the states correspond again. -/
def Follows (tokens : Tokens L) (x : Output × World L) (y : Reply × PriceFloor) : Prop :=
  x.1.reply = y.1 ∧ Represents tokens x.2 y.2

section Checks
variable {A B C : Type} {R : A → B → Prop} {x : Outcome Error A} {y : Outcome Error B}

theorem agreesUnless_failIf {c d : Prop} [Decidable c] [Decidable d] {e : Error} (hcd : c ↔ d)
    (h : ¬ c → AgreesUnless .callee R x y) :
    AgreesUnless .callee R (failIf c e >>= fun _ => x) (failIf d e >>= fun _ => y) := by
  by_cases hc : c
  · rw [failIf, if_pos hc, failIf, if_pos (hcd.mp hc)]
    exact .error _
  · rw [failIf, if_neg hc, failIf, if_neg fun hd => hc (hcd.mpr hd)]
    exact h hc

/-- A check that can be skipped: what it asks for is known to be there. -/
theorem agreesUnless_passed {c : Prop} [Decidable c] {e : Error} (hc : ¬ c) (h : AgreesUnless .callee R x y) :
    AgreesUnless .callee R (failIf c e >>= fun _ => x) y := by
  rw [failIf, if_neg hc]
  exact h

theorem agreesUnless_stored {o : Option C} {c : C} {e : Error} {f : C → Outcome Error A} (ho : o = some c)
    (h : AgreesUnless .callee R (f c) y) : AgreesUnless .callee R (okOr o e >>= f) y := by
  rw [ho]
  exact h

theorem agreesUnless_known {o : Option C} {c : C} {e : Error} {g : C → Outcome Error B} (ho : o = some c)
    (h : AgreesUnless .callee R x (g c)) : AgreesUnless .callee R x (okOr o e >>= g) := by
  rw [ho]
  exact h

end Checks

section Tokens
variable {l l' : L} {token sender receiver : Address} {amount : I128}

theorem Accounts.move_zero (accounts : Accounts) (token sender receiver : Address) :
    accounts.move token sender receiver 0 = accounts := by
  funext u holder
  by_cases hu : u = token
  · subst hu
    simp [move]
  · rw [move, Function.update_of_ne hu]

theorem balances_transfer (law : tokens.Exact) (h : tokens.transfer l token sender receiver amount = some l') :
    balances tokens l' = (balances tokens l).move token sender receiver amount.val := by
  funext u holder
  by_cases hu : u = token
  · subst hu
    rw [Accounts.move, Function.update_self]
    exact law.moved _ _ _ _ _ _ h holder
  · rw [Accounts.move, Function.update_of_ne hu, balances, law.others _ _ _ _ _ _ h u hu holder, balances]

theorem agreesUnless_transfer {A B : Type} {R : A → B → Prop} {k : L → Outcome Error A} {y : Outcome Error B}
    (law : tokens.Exact)
    (h : ∀ l', balances tokens l' = (balances tokens l).move token sender receiver amount.val →
      AgreesUnless .callee R (k l') y) :
    AgreesUnless .callee R (transfer tokens l token sender receiver amount >>= k) y := by
  cases ht : tokens.transfer l token sender receiver amount with
  | none =>
    rw [transfer, ht]
    exact .inl rfl
  | some l' =>
    rw [transfer, ht]
    exact h l' (balances_transfer law ht)

/-- Nothing is paid when nothing is due. -/
theorem agreesUnless_payOut {A B : Type} {R : A → B → Prop} {k : L → Outcome Error A} {y : Outcome Error B}
    (law : tokens.Exact) (hn : 0 ≤ amount.val)
    (h : ∀ l', balances tokens l' = (balances tokens l).move token self receiver amount.val →
      AgreesUnless .callee R (k l') y) :
    AgreesUnless .callee R (payOut tokens self l token receiver amount >>= k) y := by
  by_cases hpos : 0 < amount
  · rw [payOut, if_pos hpos]
    exact agreesUnless_transfer law h
  · rw [payOut, if_neg hpos]
    have hzero : amount.val = 0 := le_antisymm (not_lt.mp hpos) hn
    exact h l (by rw [hzero, Accounts.move_zero])

/-- More than there is cannot be paid. -/
theorem payOut_overdraft (law : tokens.Exact) (hpos : 0 < amount.val)
    (hover : (tokens.balance l token self).val < amount.val) :
    payOut tokens self l token receiver amount = .error .callee := by
  rw [payOut, if_pos ((SignedInt.lt_iff 0 amount).mpr hpos), transfer]
  cases ht : tokens.transfer l token self receiver amount with
  | none => rfl
  | some l' => exact absurd (law.covered _ _ _ _ _ _ ht).2 (not_le.mpr hover)

end Tokens

section Shares
variable {terms : Terms} {price collateral : I128}

theorem shortfall_at_floor (h : terms.floorPrice ≤ price) : terms.deal.shortfall price.val = 0 :=
  max_eq_right (Int.sub_nonpos_of_le ((SignedInt.le_iff _ _).mp h))

theorem shortfall_below_floor (h : price < terms.floorPrice) :
    terms.deal.shortfall price.val = terms.floorPrice.val - price.val :=
  max_eq_left (Int.sub_nonneg_of_le ((SignedInt.lt_iff _ _).mp h).le)

/-- A collateral that is not negative is divided exactly when the price floor can be paid, and divided alike. -/
theorem settlementShares_iff (hb : 0 ≤ collateral.val) {payout refund : I128} :
    settlementShares terms.floorPrice terms.notional price collateral = .ok (payout, refund) ↔
      terms.deal.Payable price.val collateral.val ∧ payout.val = terms.deal.payoff price.val collateral.val ∧
        refund.val = collateral.val - payout.val := by
  have hrange : InRange 128 collateral.val := collateral.inRange
  by_cases hm : terms.floorPrice ≤ price
  · have hpayoff : terms.deal.payoff price.val collateral.val = 0 := by
      rw [Deal.payoff, shortfall_at_floor hm, Int.zero_mul, min_eq_left hb]
    rw [settlementShares, if_neg (not_lt.mpr hm), Deal.Payable, hpayoff, shortfall_at_floor hm, Int.zero_mul,
      Int.sub_zero]
    constructor
    · intro h
      cases h
      exact ⟨⟨(0 : I128).inRange, (0 : I128).inRange, hrange⟩, rfl, (Int.sub_zero _).symm⟩
    · rintro ⟨_, hp, hr⟩
      have hpayout : payout = 0 := SignedInt.ext hp
      have hrefund : refund = collateral := SignedInt.ext (by rw [hr, hp, Int.sub_zero])
      rw [hpayout, hrefund]
      rfl
  · have hlt := not_le.mp hm
    rw [shares_below_floor hlt, Deal.Payable, Deal.payoff, shortfall_below_floor hlt]
    constructor
    · rintro ⟨hd, hg, hp, hr⟩
      exact ⟨⟨hd, hg, hp ▸ hr ▸ refund.inRange⟩, hp, hr⟩
    · rintro ⟨⟨hd, hg, _⟩, hp, hr⟩
      exact ⟨hd, hg, hp, hr⟩

theorem agreesUnless_shares {A B : Type} {R : A → B → Prop} {k : I128 × I128 → Outcome Error A} {y : Outcome Error B}
    (hb : 0 ≤ collateral.val)
    (h : ∀ payout refund : I128, payout.val = terms.deal.payoff price.val collateral.val →
      refund.val = collateral.val - payout.val → AgreesUnless .callee R (k (payout, refund)) y) :
    AgreesUnless .callee R (settlementShares terms.floorPrice terms.notional price collateral >>= k)
      (failIf (¬ terms.deal.Payable price.val collateral.val) .arithmeticOverflow >>= fun _ => y) := by
  cases hs : settlementShares terms.floorPrice terms.notional price collateral with
  | error e =>
    have hnot : ¬ terms.deal.Payable price.val collateral.val := by
      intro hpay
      have hp : InRange 128 (terms.deal.payoff price.val collateral.val) := by
        have hmin := (min (⟨_, hpay.2.1⟩ : I128) collateral).inRange
        rwa [SignedInt.val_min] at hmin
      have hok : settlementShares terms.floorPrice terms.notional price collateral = .ok (⟨_, hp⟩, ⟨_, hpay.2.2⟩) :=
        (settlementShares_iff hb).mpr ⟨hpay, rfl, rfl⟩
      rw [hs] at hok
      cases hok
    have hfails : FailsAs (· = .contract .arithmeticOverflow)
        (settlementShares terms.floorPrice terms.notional price collateral) := shares_failsAs rfl
    rw [hfails e hs, failIf, if_pos hnot]
    exact .error _
  | ok shares =>
    obtain ⟨hpay, hp, hr⟩ := (settlementShares_iff hb).mp hs
    rw [failIf, if_neg (not_not.mpr hpay)]
    exact h _ _ hp hr

end Shares

section Steps
variable {w : World L} {floor : PriceFloor} {env : Env} {feed : Feed}

theorem Represents.sign (h : Represents tokens w floor) (farmer buyer : Address) (commodity : Asset)
    (floorPrice notional : I128) (settlementToken : Address) (maturityTs : UInt64) (oracle : Address) :
    AgreesUnless .callee (fun r y => Follows tokens r.done y)
      (initializeContract env w farmer buyer commodity floorPrice notional settlementToken maturityTs oracle)
      (floor.sign env ⟨farmer, buyer, commodity, floorPrice.val, notional.val, settlementToken, maturityTs.toNat,
        oracle⟩) := by
  refine .bind_left fun _ _ => .bind_left fun _ _ => agreesUnless_failIf ?_ fun hfresh => ?_
  · cases h.standing with
    | blank hs hd => rw [hs, hd]; exact Iff.rfl
    | agreed terms holds hd => rw [holds.farmer, hd]; exact Iff.rfl
  · cases h.standing with
    | blank hs hd hp hc =>
      have hstored : w.storage.cancelled.getD false = floor.cancelled := by rw [hs, hc]; rfl
      refine .ok ⟨rfl, ?_, h.accounts⟩
      refine .agreed ⟨farmer, buyer, commodity, floorPrice, notional, settlementToken, maturityTs, oracle⟩
        ⟨rfl, rfl, rfl, rfl, rfl, rfl, rfl, rfl⟩ rfl ?_ ?_ hstored
      · change some false = some (decide (floor.phase ≠ .unfunded))
        rw [hp]
        rfl
      · change some false = some (decide (floor.phase = .settled))
        rw [hp]
        rfl
    | agreed terms holds =>
      rw [holds.farmer] at hfresh
      exact absurd rfl hfresh

theorem Represents.fund (h : Represents tokens w floor) (law : tokens.Exact) (buyer : Address) (amount : I128) :
    AgreesUnless .callee (fun r y => Follows tokens r.done y) (fund tokens self env w buyer amount)
      (floor.fund self env buyer amount.val) := by
  refine .bind_left fun _ _ => ?_
  cases h.standing with
  | blank hs hd =>
    rw [hs, hd]
    exact .error _
  | agreed terms holds hd hf hset hc =>
    have hfunded : w.storage.funded.getD false = true ↔ floor.phase ≠ .unfunded := by
      rw [hf]
      exact decide_eq_true_iff
    refine agreesUnless_stored holds.buyer (agreesUnless_known hd (agreesUnless_failIf Iff.rfl fun _ =>
      agreesUnless_failIf Iff.rfl fun _ => agreesUnless_failIf hfunded fun hu => ?_))
    have hphase : floor.phase = .unfunded := by
      by_contra hne
      exact hu (hfunded.mpr hne)
    rw [hphase] at hset
    refine agreesUnless_passed ?_ (agreesUnless_stored holds.settlementToken
      (agreesUnless_transfer law fun ledger hmoved => .ok ⟨rfl, ?_, ?_⟩))
    · rw [hset]
      exact nofun
    · exact .agreed terms { holds with } hd rfl hset hc
    · change floor.accounts.move terms.settlementToken buyer self amount.val = balances tokens ledger
      rw [hmoved, h.accounts]

/-- The price the deal reads is that of the record the terms read. -/
theorem quote_deal (terms : Terms) (feed : Feed) :
    terms.deal.quote (quotes feed) = (terms.quote feed).map (·.price.val) := rfl

theorem Represents.settle (h : Represents tokens w floor) (law : tokens.Exact)
    (hown : ∀ token, 0 ≤ (tokens.balance w.ledger token self).val) :
    AgreesUnless .callee (fun r y => Follows tokens r.paid y) (Pricefloor.settle tokens self env feed w)
      (floor.settle self env (quotes feed)) := by
  cases h.standing with
  | blank hs hd hp =>
    have hphase : ¬ floor.phase = .settled := by
      rw [hp]
      exact nofun
    rw [PriceFloor.settle, hd, failIf, if_neg hphase, Pricefloor.settle, hs]
    exact .error _
  | agreed terms holds hd hf hset hc =>
    have hsettled : w.storage.settled.getD false = true ↔ floor.phase = .settled := by
      rw [hset]
      exact decide_eq_true_iff
    have hunfunded : ¬ w.storage.funded.getD false = true ↔ floor.phase = .unfunded := by
      rw [hf, Option.getD_some, decide_eq_true_iff, not_not]
    refine agreesUnless_failIf hsettled fun _ => agreesUnless_stored holds.maturity (agreesUnless_known hd
      (agreesUnless_failIf UInt64.lt_iff_toNat_lt fun _ => agreesUnless_failIf hunfunded fun hu => ?_))
    refine agreesUnless_stored holds.farmer (agreesUnless_stored holds.buyer (agreesUnless_stored holds.commodity
      (agreesUnless_stored holds.floorPrice (agreesUnless_stored holds.notional (agreesUnless_stored
        holds.settlementToken (agreesUnless_stored holds.oracle ?_))))))
    change AgreesUnless _ _ (okOr (terms.quote feed) _ >>= _) _
    rw [quote_deal]
    cases terms.quote feed with
    | none => exact .error _
    | some record =>
      have hcollateral : floor.accounts terms.deal.settlementToken self =
          (tokens.balance w.ledger terms.settlementToken self).val := by
        rw [h.accounts]
        rfl
      change AgreesUnless _ _ (settlementShares _ _ _ _ >>= _)
        (failIf (¬ terms.deal.Payable _ (floor.accounts _ _)) _ >>= _)
      rw [hcollateral]
      refine agreesUnless_shares (hown _) fun payout refund hp hr => ?_
      by_cases hn : 0 ≤ payout.val
      · have hrest : 0 ≤ refund.val := by
          rw [hr, hp]
          exact Int.sub_nonneg_of_le (min_le_right _ _)
        have hphase : floor.phase ≠ .unfunded := fun hp => hu (hunfunded.mpr hp)
        refine agreesUnless_payOut law hn fun mid hmid => agreesUnless_payOut law hrest fun ledger hlast =>
          .ok ⟨congrArg Reply.paid hp, .agreed terms { holds with } hd ?_ rfl hc, ?_⟩
        · exact hf.trans (by rw [decide_eq_true hphase]; rfl)
        · change _ = balances tokens ledger
          rw [hlast, hmid, hr, hp, h.accounts]
          rfl
      · -- A negative payout is not made, and the refund is more than there is.
        have hfirst : payOut tokens self w.ledger terms.settlementToken terms.farmer payout = .ok w.ledger :=
          if_neg fun hpos => hn hpos.le
        have hover := hown terms.settlementToken
        have hsecond : payOut tokens self w.ledger terms.settlementToken terms.buyer refund = .error .callee :=
          payOut_overdraft law (by omega) (by omega)
        left
        simp only [hfirst, hsecond, ok_bind, error_bind]

theorem Represents.cancel (h : Represents tokens w floor) (law : tokens.Exact)
    (hown : ∀ token, 0 ≤ (tokens.balance w.ledger token self).val) (caller : Address) :
    AgreesUnless .callee (fun r y => Follows tokens r.done y) (Pricefloor.cancel tokens self env feed w caller)
      (floor.cancel self env (quotes feed) caller) := by
  refine .bind_left fun _ _ => ?_
  cases h.standing with
  | blank hs hd hp =>
    rw [hs, hd]
    exact .error _
  | agreed terms holds hd hf hset hc =>
    have hsettled : w.storage.settled.getD false = true ↔ floor.phase = .settled := by
      rw [hset]
      exact decide_eq_true_iff
    refine agreesUnless_stored holds.farmer (agreesUnless_stored holds.buyer (agreesUnless_known hd
      (agreesUnless_failIf Iff.rfl fun _ => agreesUnless_failIf hsettled fun hu =>
        agreesUnless_stored holds.settlementToken ?_)))
    have helapsed : env.timestamp < saturatingAdd terms.maturity settleFailureGrace ↔
        env.timestamp.toNat < terms.deal.graceEnd := by
      rw [UInt64.lt_iff_toNat_lt, saturatingAdd_toNat]
      rfl
    cases hphase : floor.phase with
    | settled => exact absurd (hsettled.mpr hphase) hu
    | unfunded =>
      rw [hphase] at hf hset
      have hfunded : w.storage.funded.getD false = false := by
        rw [hf]
        rfl
      simp only [hfunded]
      refine agreesUnless_stored holds.maturity (agreesUnless_failIf helapsed fun _ => .ok ⟨rfl, ?_, h.accounts⟩)
      exact .agreed terms { holds with } hd hf hset rfl
    | funded =>
      rw [hphase] at hf hset
      have hfunded : w.storage.funded.getD false = true := by
        rw [hf]
        rfl
      have hquote : (feed terms.oracle (toOracleAsset terms.commodity)).isSome = true ↔
          (terms.deal.quote (quotes feed)).isSome = true := by
        rw [quote_deal, Option.isSome_map]
        exact Iff.rfl
      simp only [hfunded]
      refine agreesUnless_stored holds.maturity (agreesUnless_failIf helapsed fun _ => agreesUnless_stored holds.oracle
        (agreesUnless_stored holds.commodity (agreesUnless_failIf hquote fun _ => agreesUnless_payOut law (hown _)
          fun ledger hmoved => .ok ⟨rfl, .agreed terms { holds with } hd rfl hset rfl, ?_⟩)))
      change _ = balances tokens ledger
      rw [hmoved, h.accounts]
      rfl

/-- Every input is the input of the price floor, unless a token refuses it. -/
theorem Represents.step (h : Represents tokens w floor) (law : tokens.Exact)
    (hown : ∀ token, 0 ≤ (tokens.balance w.ledger token self).val) (input : Input) :
    AgreesUnless .callee (Follows tokens) ((machine tokens self).exec w input)
      ((PriceFloor.machine self).exec floor input.request) := by
  have hdone {x : Outcome Error (Receipt L Unit)} {y : Outcome Error (Reply × PriceFloor)}
      (hxy : AgreesUnless .callee (fun r y => Follows tokens r.done y) x y) :
      AgreesUnless .callee (Follows tokens) (x.map Receipt.done) y :=
    .map_left (Q := Follows tokens) (f := Receipt.done) (fun _ _ hf => hf) hxy
  cases input with
  | invoke tx =>
    obtain ⟨env, feed, call⟩ := tx
    cases call with
    | initializeContract farmer buyer commodity floorPrice notional token maturityTs oracle =>
      exact hdone (h.sign farmer buyer commodity floorPrice notional token maturityTs oracle)
    | fund buyer amount => exact hdone (h.fund law buyer amount)
    | settle => exact .map_left (Q := Follows tokens) (f := Receipt.paid) (fun _ _ hf => hf) (h.settle law hown)
    | cancel caller => exact hdone (h.cancel law hown caller)
  | transfer token sender receiver amount =>
    change AgreesUnless _ _ (if sender = self then _ else _) (if sender = self then _ else _)
    by_cases hs : sender = self
    · rw [if_pos hs, if_pos hs]
      exact .error _
    · rw [if_neg hs, if_neg hs]
      cases ht : tokens.transfer w.ledger token sender receiver amount with
      | none =>
        rw [transfer, ht]
        exact .inl rfl
      | some ledger =>
        rw [transfer, ht]
        refine .ok ⟨rfl, h.standing.withAccounts _, ?_⟩
        change floor.accounts.move token sender receiver amount.val = balances tokens ledger
        rw [balances_transfer law ht, h.accounts]

end Steps

/-- No token contract has refused the input. -/
def Accepted (tokens : Tokens L) (self : Address) (w : World L) (input : Input) : Prop :=
  (machine tokens self).result w input ≠ .error .callee

instance (tokens : Tokens L) (self : Address) (w : World L) (input : Input) :
    Decidable (Accepted tokens self w input) :=
  inferInstanceAs (Decidable (_ ≠ _))

theorem represents_blank (ledger : L) : Represents tokens ⟨.deployed, ledger⟩ (.blank (balances tokens ledger)) :=
  ⟨.blank rfl rfl rfl rfl, rfl⟩

/-- Only a transfer that a token has turned down keeps an input from being accepted. -/
theorem along_attributed (w : World L) (inputs : List Input) :
    (machine tokens self).Along (fun w input => Accepted tokens self w input ∨ TurnedDown tokens self w input) w
      inputs :=
  ((machine tokens self).along_iff _ _ _).mpr fun _ _ _ _ =>
    or_iff_not_imp_left.mpr fun h => turnedDown_of_callee (not_not.mp h)

/-- What a token refuses is rolled back. -/
theorem unaccepted_step {w : World L} {input : Input} (h : ¬ Accepted tokens self w input) :
    (machine tokens self).step w input = w := by
  rw [Accepted, not_not, (machine tokens self).result_eq_error] at h
  exact (machine tokens self).step_rollback h

/-- The requests to the price floor that a run makes with all inputs accepted by the tokens. -/
def requests (tokens : Tokens L) (self : Address) (ledger : L) (inputs : List Input) : List Request :=
  ((machine tokens self).kept (Accepted tokens self) ⟨.deployed, ledger⟩ inputs).map Input.request

/-- On tokens that move exact amounts the agreement is the price floor on accounts that refuse nothing: the inputs that
were accepted by the tokens have the same results, with the same errors, the terms and what has become of them are the
same, and so are all accounts of all tokens. An input that was not accepted has asked for a transfer that its token
turned down. -/
theorem agreement_refines_price_floor {L : Type} (tokens : Tokens L) (law : tokens.Exact) (self : Address) (ledger : L)
    (hstart : ∀ token, 0 ≤ (tokens.balance ledger token self).val) (inputs : List Input) :
    ((machine tokens self).keptResults (Accepted tokens self) ⟨.deployed, ledger⟩ inputs).map (·.map Output.reply) =
        (PriceFloor.machine self).results (.blank (balances tokens ledger)) (requests tokens self ledger inputs) ∧
      Represents tokens (after tokens self ledger inputs)
        ((PriceFloor.machine self).run (.blank (balances tokens ledger)) (requests tokens self ledger inputs)) ∧
      (machine tokens self).Along (fun w input => Accepted tokens self w input ∨ TurnedDown tokens self w input)
        ⟨.deployed, ledger⟩ inputs := by
  have halong : (machine tokens self).Along (fun w _ => ∀ token, 0 ≤ (tokens.balance w.ledger token self).val)
      ⟨.deployed, ledger⟩ inputs :=
    ((machine tokens self).along_iff _ _ _).mpr fun pre _ _ _ token => not_overdrawn law (hstart token) pre
  refine and_assoc.mp ⟨(machine tokens self).refines_kept Output.reply (PriceFloor.machine self) Input.request ?_ ?_
    (represents_blank ledger) halong, along_attributed _ inputs⟩
  · intro w floor input hr _ hk
    rwa [unaccepted_step hk]
  · intro w floor input hr hown hk
    exact (hr.step law hown input).resolve_left fun he => hk ((machine tokens self).result_eq_error.mpr he)

/-- A deposit beyond the means of the buyer and one within them, a settlement that comes early and one below the
floor. -/
def eagerRun : List Input :=
  [signing ⟨1⟩ ⟨2⟩ (.literal 100) (.literal 1) ⟨5⟩ 1000 ⟨8⟩, funding ⟨2⟩ (.literal 11) 5, funding ⟨2⟩ (.literal 6) 10,
    settlement (quoting (.literal 97)) 999, settlement (quoting (.literal 97)) 1000]

theorem price_floor_of_eager_run :
    (PriceFloor.machine ⟨9⟩).results (.blank (balances Units.ledger endowment))
        (requests Units.ledger ⟨9⟩ endowment eagerRun) =
      [.ok .done, .ok .done, .error (.contract .notYetMature), .ok (.paid 3)] :=
  (agreement_refines_price_floor Units.ledger Units.ledger_exact ⟨9⟩ endowment (fun _ => Int.natCast_nonneg _)
    eagerRun).1.symm.trans (by decide +kernel)

end AgriFeed.Pricefloor
