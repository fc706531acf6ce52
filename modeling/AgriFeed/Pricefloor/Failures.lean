import AgriFeed.Pricefloor.Payouts

/-! How calls of an agreement fail. In a reachable state a call lacks a signature, returns one of the errors it
documents, or deposits what the token does not accept; a settlement traps only with a negative notional. -/
namespace AgriFeed.Pricefloor
open Foundation

namespace Call

/-- The errors a call documents, but for one of fund that cannot come up: what is settled is still funded. -/
@[simp] def errors : Call → List Error
  | .initializeContract .. => [.alreadyInitialized]
  | .fund .. => [.unauthorized, .invalidAmount, .alreadyFunded]
  | .settle => [.alreadySettled, .notYetMature, .notFunded, .oracleDataUnavailable, .arithmeticOverflow]
  | .cancel _ => [.unauthorized, .alreadySettled, .gracePeriodNotElapsed]

/-- The addresses that have to sign a call. -/
@[simp] def signers : Call → List Address
  | .initializeContract farmer buyer .. => [farmer, buyer]
  | .fund buyer _ => [buyer]
  | .settle => []
  | .cancel caller => [caller]

end Call

variable {L : Type} {tokens : Tokens L} {self : Address}

section Expectations
variable (tokens self)

/-- The token turns the deposit down, or the negative worth of a shortfall would raise the refund above the
collateral. -/
def Refused (w : World L) (tx : Invocation) : Prop :=
  match tx.call with
  | .fund buyer amount =>
    ∃ token, w.storage.settlementToken = some token ∧ tokens.transfer w.ledger token buyer self amount = none
  | .settle =>
    ∃ terms record, w.storage.Holds terms ∧ terms.quote tx.feed = some record ∧ record.price < terms.floorPrice ∧
      terms.notional.val < 0
  | _ => False

/-- A missing signature, a documented error or a refusal. -/
def Expects (w : World L) (tx : Invocation) (e : Fault Error) : Prop :=
  (∃ who ∈ tx.call.signers, who ∉ tx.env.auths ∧ e = .unauthorized who) ∨
    (∃ error ∈ tx.call.errors, e = .contract error) ∨ (e = .callee ∧ Refused tokens self w tx)

end Expectations

section Calls
variable {w : World L} {env : Env} {feed : Feed} {call : Call}

theorem expects_signature {who : Address} (hs : who ∈ call.signers) (hn : who ∉ env.auths) :
    Expects tokens self w ⟨env, feed, call⟩ (.unauthorized who) := .inl ⟨who, hs, hn, rfl⟩

theorem expects_error {error : Error} (h : error ∈ call.errors) :
    Expects tokens self w ⟨env, feed, call⟩ (.contract error) := .inr (.inl ⟨error, h, rfl⟩)

theorem fund_failsAs (hc : Coherent w.storage) (buyer : Address) (amount : I128) :
    FailsAs (Expects tokens self w ⟨env, feed, .fund buyer amount⟩) (fund tokens self env w buyer amount) := by
  refine .signed (expects_signature (by simp)) (.stored (expects_error (by simp)) fun _ _ =>
    .check (expects_error (by simp)) fun _ => .check (expects_error (by simp)) fun _ =>
      .check (expects_error (by simp)) fun hu => ?_)
  have hunsettled : ¬ w.storage.settled.getD false = true := by
    intro hs
    have hsettled : w.storage.settled = some true := by
      cases hset : w.storage.settled with
      | none => rw [hset] at hs; cases hs
      | some settled => rw [hset] at hs; exact congrArg some hs
    rw [(hc.settled_funded hsettled).1] at hu
    exact hu rfl
  rw [failIf, if_neg hunsettled, ok_bind]
  refine .stored (expects_error (by simp)) fun token htoken => .bind ?_ fun _ _ => .ok _
  unfold transfer
  cases ht : tokens.transfer w.ledger token buyer self amount with
  | none => exact .error (.inr (.inr ⟨rfl, token, htoken, ht⟩))
  | some ledger => exact .ok ledger

end Calls

section Shares
variable {floorPrice notional marketPrice funded payout refund : I128} {expected : Fault Error → Prop}

/-- The division fails in one way only. -/
theorem shares_failsAs (h : expected (.contract .arithmeticOverflow)) :
    FailsAs expected (settlementShares floorPrice notional marketPrice funded) := by
  rw [settlementShares]
  split
  · exact .stored h fun _ _ => .stored h fun _ _ => .stored h fun _ _ => .ok _
  · exact .ok _

theorem payout_le (hb : 0 ≤ funded.val)
    (h : settlementShares floorPrice notional marketPrice funded = .ok (payout, refund)) : payout.val ≤ funded.val := by
  by_cases hm : floorPrice ≤ marketPrice
  · rw [shares_at_floor hm] at h
    cases h
    exact hb
  · rw [((shares_below_floor (not_le.mp hm)).mp h).2.2.1]
    exact min_le_right _ _

/-- Only a negative notional makes the payout negative. -/
theorem negative_payout (hb : 0 ≤ funded.val)
    (h : settlementShares floorPrice notional marketPrice funded = .ok (payout, refund)) (hn : payout.val < 0) :
    marketPrice < floorPrice ∧ notional.val < 0 := by
  by_cases hm : floorPrice ≤ marketPrice
  · rw [shares_at_floor hm] at h
    cases h
    exact absurd hn (lt_irrefl 0)
  · have hlt := not_le.mp hm
    have hdiff : 0 < floorPrice.val - marketPrice.val := Int.sub_pos.mpr hlt
    refine ⟨hlt, ?_⟩
    by_contra hq
    have hgross := Int.mul_nonneg hdiff.le (not_lt.mp hq)
    rw [((shares_below_floor hlt).mp h).2.2.1] at hn
    exact absurd hn (not_lt.mpr (le_min hgross hb))

theorem payOut_failsAs {l : L} {token receiver : Address} {amount : I128} (h : expected .callee) :
    FailsAs expected (payOut tokens self l token receiver amount) := by
  rw [payOut]
  split
  · unfold transfer
    split
    · exact .ok _
    · exact .error h
  · exact .ok l

/-- Two shares that the collateral covers one after the other can be paid. -/
theorem payOuts_failAs {l : L} {token farmer buyer : Address} {A : Type} {k : L → Outcome Error A} (law : tokens.Exact)
    (accepts : tokens.Accepts self) (hn : 0 ≤ payout.val) (hle : payout.val ≤ (tokens.balance l token self).val)
    (hsum : payout.val + refund.val = (tokens.balance l token self).val) (hk : ∀ l', FailsAs expected (k l')) :
    FailsAs expected (do
      let mid ← payOut tokens self l token farmer payout
      let l' ← payOut tokens self mid token buyer refund
      k l') := by
  obtain ⟨mid, hfirst⟩ := exists_payOut token farmer accepts hle
  have hleft := (payOut_leaves law hfirst).2
  rw [max_eq_left hn] at hleft
  have hrest : refund.val ≤ (tokens.balance mid token self).val := by omega
  obtain ⟨l', hsecond⟩ := exists_payOut token buyer accepts hrest
  rw [hfirst, ok_bind, hsecond, ok_bind]
  exact hk l'

end Shares

section Calls
variable {w : World L} {env : Env} {feed : Feed} {call : Call}

theorem settle_failsAs (law : tokens.Exact) (accepts : tokens.Accepts self)
    (hown : ∀ token, 0 ≤ (tokens.balance w.ledger token self).val) :
    FailsAs (Expects tokens self w ⟨env, feed, .settle⟩) (settle tokens self env feed w) := by
  refine .check (expects_error (by simp)) fun _ => .stored (expects_error (by simp)) fun maturity hm =>
    .check (expects_error (by simp)) fun _ => .check (expects_error (by simp)) fun _ => ?_
  refine .stored (expects_error (by simp)) fun farmer hf => .stored (expects_error (by simp)) fun buyer hb =>
    .stored (expects_error (by simp)) fun commodity hc => .stored (expects_error (by simp)) fun floorPrice hfl =>
      .stored (expects_error (by simp)) fun notional hn => .stored (expects_error (by simp)) fun token ht =>
        .stored (expects_error (by simp)) fun oracle ho => .stored (expects_error (by simp)) fun record hq => ?_
  refine .bind (shares_failsAs (expects_error (by simp))) fun ⟨payout, refund⟩ hs => ?_
  by_cases hneg : payout.val < 0
  · obtain ⟨hlow, hnotional⟩ := negative_payout (hown token) hs hneg
    have hrefused : Expects tokens self w ⟨env, feed, .settle⟩ .callee :=
      .inr (.inr ⟨rfl, ⟨farmer, buyer, commodity, floorPrice, notional, token, maturity, oracle⟩, record,
        ⟨hf, hb, hc, hfl, hn, ht, hm, ho⟩, hq, hlow, hnotional⟩)
    exact .bind (payOut_failsAs hrefused) fun _ _ => .bind (payOut_failsAs hrefused) fun _ _ => .ok _
  · exact payOuts_failAs law accepts (not_lt.mp hneg) (payout_le (hown token) hs) (shares_sum hs) fun _ => .ok _

theorem cancel_failsAs (accepts : tokens.Accepts self) (caller : Address) :
    FailsAs (Expects tokens self w ⟨env, feed, .cancel caller⟩) (cancel tokens self env feed w caller) := by
  refine .signed (expects_signature (by simp)) (.stored (expects_error (by simp)) fun farmer _ =>
    .stored (expects_error (by simp)) fun buyer _ => .check (expects_error (by simp)) fun _ =>
      .check (expects_error (by simp)) fun _ => .stored (expects_error (by simp)) fun token _ => ?_)
  split
  · refine .stored (expects_error (by simp)) fun _ _ => .check (expects_error (by simp)) fun _ =>
      .stored (expects_error (by simp)) fun _ _ => .stored (expects_error (by simp)) fun _ _ =>
        .check (expects_error (by simp)) fun _ => ?_
    obtain ⟨ledger, hp⟩ := exists_payOut token buyer accepts (le_refl (tokens.balance w.ledger token self).val)
    simp only [hp, ok_bind]
    exact .ok _
  · exact .stored (expects_error (by simp)) fun _ _ => .check (expects_error (by simp)) fun _ => .ok _

end Calls

section Refusals
variable (tokens self)

/-- The token turns down a payment of the contract. -/
def Unpaid (l : L) (token receiver : Address) (amount : I128) : Prop :=
  0 < amount ∧ tokens.transfer l token self receiver amount = none

/-- A token contract turns down a transfer that the input asks it for. -/
def TurnedDown (w : World L) : Input → Prop
  | .invoke ⟨_, _, .initializeContract ..⟩ => False
  | .invoke ⟨_, _, .fund buyer amount⟩ =>
    ∃ token, w.storage.settlementToken = some token ∧ tokens.transfer w.ledger token buyer self amount = none
  | .invoke ⟨_, feed, .settle⟩ =>
    ∃ terms record payout refund, w.storage.Holds terms ∧ terms.quote feed = some record ∧
      settlementShares terms.floorPrice terms.notional record.price
        (tokens.balance w.ledger terms.settlementToken self) = .ok (payout, refund) ∧
      (Unpaid tokens self w.ledger terms.settlementToken terms.farmer payout ∨
        ∃ mid, payOut tokens self w.ledger terms.settlementToken terms.farmer payout = .ok mid ∧
          Unpaid tokens self mid terms.settlementToken terms.buyer refund)
  | .invoke ⟨_, _, .cancel _⟩ =>
    ∃ buyer token, w.storage.buyer = some buyer ∧ w.storage.settlementToken = some token ∧
      Unpaid tokens self w.ledger token buyer (tokens.balance w.ledger token self)
  | .transfer token sender receiver amount => tokens.transfer w.ledger token sender receiver amount = none

end Refusals

section Refusals
variable {w : World L} {env : Env} {feed : Feed} {input : Input}

/-- A failure is no trap of a token unless the reason holds. -/
abbrev Attributed (P : Prop) (e : Fault Error) : Prop := e = .callee → P

section Checks
variable {A B : Type} {P : Prop} {e : Error}

theorem attributed_signed {who : Address} {f : Unit → Outcome Error A} (hf : FailsAs (Attributed P) (f ())) :
    FailsAs (Attributed P) (requireAuth env who >>= f) := .signed (fun _ => nofun) hf

theorem attributed_check {c : Prop} [Decidable c] {f : Unit → Outcome Error A}
    (hf : ¬ c → FailsAs (Attributed P) (f ())) : FailsAs (Attributed P) (failIf c e >>= f) := .check nofun hf

theorem attributed_stored {o : Option A} {f : A → Outcome Error B}
    (hf : ∀ a, o = some a → FailsAs (Attributed P) (f a)) : FailsAs (Attributed P) (okOr o e >>= f) := .stored nofun hf

theorem transfer_attributed {l : L} {token sender receiver : Address} {amount : I128}
    (h : tokens.transfer l token sender receiver amount = none → P) :
    FailsAs (Attributed P) (transfer tokens l token sender receiver amount) := by
  rw [transfer]
  cases ht : tokens.transfer l token sender receiver amount with
  | none => exact .error fun _ => h ht
  | some l' => exact .ok l'

theorem payOut_attributed {l : L} {token receiver : Address} {amount : I128}
    (h : Unpaid tokens self l token receiver amount → P) :
    FailsAs (Attributed P) (payOut tokens self l token receiver amount) := by
  rw [payOut]
  split
  · rename_i hpos
    exact transfer_attributed fun ht => h ⟨hpos, ht⟩
  · exact .ok l

end Checks

theorem settle_attributed :
    FailsAs (Attributed (TurnedDown tokens self w (.invoke ⟨env, feed, .settle⟩))) (settle tokens self env feed w) := by
  refine attributed_check fun _ => attributed_stored fun maturity hm => attributed_check fun _ =>
    attributed_check fun _ => attributed_stored fun farmer hf => attributed_stored fun buyer hb =>
      attributed_stored fun commodity hc => attributed_stored fun floorPrice hfl =>
        attributed_stored fun notional hn => attributed_stored fun token ht =>
          attributed_stored fun oracle ho => attributed_stored fun record hq => ?_
  have holds : w.storage.Holds ⟨farmer, buyer, commodity, floorPrice, notional, token, maturity, oracle⟩ :=
    ⟨hf, hb, hc, hfl, hn, ht, hm, ho⟩
  refine .bind (shares_failsAs nofun) fun ⟨payout, refund⟩ hs => .bind (payOut_attributed fun hfirst => ?_)
    fun mid hp => .bind (payOut_attributed fun hsecond => ?_) fun _ _ => .ok _
  · exact ⟨_, record, payout, refund, holds, hq, hs, .inl hfirst⟩
  · exact ⟨_, record, payout, refund, holds, hq, hs, .inr ⟨mid, hp, hsecond⟩⟩

theorem cancel_attributed (caller : Address) :
    FailsAs (Attributed (TurnedDown tokens self w (.invoke ⟨env, feed, .cancel caller⟩)))
      (cancel tokens self env feed w caller) := by
  refine attributed_signed (attributed_stored fun farmer _ => attributed_stored fun buyer hb =>
    attributed_check fun _ => attributed_check fun _ => attributed_stored fun token ht => ?_)
  split
  · refine attributed_stored fun _ _ => attributed_check fun _ => attributed_stored fun _ _ =>
      attributed_stored fun _ _ => attributed_check fun _ => .bind (payOut_attributed fun hp => ?_) fun _ _ => .ok _
    exact ⟨buyer, token, hb, ht, hp⟩
  · exact attributed_stored fun _ _ => attributed_check fun _ => .ok _

/-- An input traps in a token only where the token has turned down a transfer the input asked for. -/
theorem turnedDown_of_callee (h : (machine tokens self).result w input = .error .callee) :
    TurnedDown tokens self w input := by
  rw [(machine tokens self).result_eq_error] at h
  suffices hfails : FailsAs (Attributed (TurnedDown tokens self w input)) ((machine tokens self).exec w input) from
    hfails _ h rfl
  cases input with
  | transfer token sender receiver amount =>
    change FailsAs _ (if sender = self then _ else _)
    split
    · exact .error nofun
    · exact .map (transfer_attributed id)
  | invoke tx =>
    obtain ⟨env, feed, call⟩ := tx
    cases call with
    | initializeContract => exact .map (attributed_signed (attributed_signed (attributed_check fun _ => .ok _)))
    | fund buyer amount =>
      exact .map (attributed_signed (attributed_stored fun _ _ => attributed_check fun _ => attributed_check fun _ =>
        attributed_check fun _ => attributed_check fun _ => attributed_stored fun token ht =>
          .bind (transfer_attributed fun hn => ⟨token, ht, hn⟩) fun _ _ => .ok _))
    | settle => exact .map settle_attributed
    | cancel caller => exact .map (cancel_attributed caller)

end Refusals

/-- After every run on tokens that move exact amounts and let the agreement send what it has, a call fails only for want
of a signature, with an error documented for it, on a deposit that the token refuses, or when a negative notional is
settled below the floor. -/
theorem agreement_calls_fail_as_documented {L : Type} (tokens : Tokens L) (law : tokens.Exact) (self : Address)
    (accepts : tokens.Accepts self) (ledger : L) (hstart : ∀ token, 0 ≤ (tokens.balance ledger token self).val)
    (inputs : List Input) (tx : Invocation) (e : Fault Error)
    (h : (machine tokens self).result (after tokens self ledger inputs) (.invoke tx) = .error e) :
    Expects tokens self (after tokens self ledger inputs) tx e := by
  have hc : Coherent (after tokens self ledger inputs).storage := coherent ledger inputs
  have hown (token : Address) : 0 ≤ (tokens.balance (after tokens self ledger inputs).ledger token self).val :=
    not_overdrawn law (hstart token) inputs
  rw [(machine tokens self).result_eq_error] at h
  generalize after tokens self ledger inputs = w at h hc hown ⊢
  revert e
  change FailsAs _ (invoke tokens self w tx)
  obtain ⟨env, feed, call⟩ := tx
  cases call with
  | initializeContract farmer buyer commodity floorPrice notional token maturityTs oracle =>
    exact .map (.signed (expects_signature (by simp)) (.signed (expects_signature (by simp))
      (.check (expects_error (by simp)) fun _ => .ok _)))
  | fund buyer amount => exact .map (fund_failsAs hc buyer amount)
  | settle => exact .map (settle_failsAs law accepts hown)
  | cancel caller => exact .map (cancel_failsAs accepts caller)

/-- Terms with a negative notional, funded. -/
def negativeRun : List Input :=
  [signing ⟨1⟩ ⟨2⟩ (.literal 100) (.literal (-1)) ⟨5⟩ 1000 ⟨8⟩, funding ⟨2⟩ (.literal 6) 10]

theorem negative_settlement_refused :
    Expects Units.ledger ⟨9⟩ (after Units.ledger ⟨9⟩ endowment negativeRun)
      ⟨⟨1000, []⟩, quoting (.literal 97), .settle⟩ .callee :=
  agreement_calls_fail_as_documented Units.ledger Units.ledger_exact ⟨9⟩ (Units.ledger_accepts _) endowment
    (fun _ => Int.natCast_nonneg _) negativeRun ⟨⟨1000, []⟩, quoting (.literal 97), .settle⟩ .callee (by decide +kernel)

end AgriFeed.Pricefloor
