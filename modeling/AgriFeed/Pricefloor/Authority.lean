import AgriFeed.Foundation.Lockstep
import AgriFeed.Pricefloor.Invariants

/-! Who can bind an agreement and move its tokens. The ledger of the tokens writes down the transfers it carries
out, which the agreement does not notice, and each of them is traced to a call that was entitled to it. -/
namespace AgriFeed.Pricefloor
open Foundation

abbrev Movement := TokenLedger.Movement Address Address 128

variable {L : Type} {tokens : Tokens L} {self : Address}

section Recording

/-- The world without its record of transfers. -/
def World.unrecorded (w : World (L × List Movement)) : World L := ⟨w.storage, w.ledger.1⟩

theorem transfer_recorded (l : L × List Movement) (token sender receiver : Address) (amount : I128) :
    Agrees (fun a b => a = b.1) (transfer tokens l.1 token sender receiver amount)
      (transfer tokens.recording l token sender receiver amount) := by
  simp only [transfer, TokenLedger.recording]
  cases tokens.transfer l.1 token sender receiver amount with
  | none => exact .error _
  | some l' => exact .ok rfl

theorem payOut_recorded (l : L × List Movement) (token receiver : Address) (amount : I128) :
    Agrees (fun a b => a = b.1) (payOut tokens self l.1 token receiver amount)
      (payOut tokens.recording self l token receiver amount) := by
  rw [payOut, payOut]
  by_cases h : 0 < amount
  · rw [if_pos h, if_pos h]
    exact transfer_recorded l token self receiver amount
  · rw [if_neg h, if_neg h]
    exact .ok rfl

/-- An agreement never notices that its tokens keep a record. -/
theorem recorded_agrees (w : World (L × List Movement)) (input : Input) :
    Agrees (fun x y => x.1 = y.1 ∧ x.2 = y.2.unrecorded) ((machine tokens self).exec w.unrecorded input)
      ((machine tokens.recording self).exec w input) := by
  have hdone (x : Receipt L Unit) (y : Receipt (L × List Movement) Unit)
      (h : x.events = y.events ∧ x.world = y.world.unrecorded) : x.done.1 = y.done.1 ∧ x.done.2 = y.done.2.unrecorded :=
    ⟨Prod.ext rfl h.1, h.2⟩
  cases input with
  | invoke tx =>
    obtain ⟨env, feed, call⟩ := tx
    cases call with
    | initializeContract farmer buyer commodity floorPrice notional settlementToken maturityTs oracle =>
      exact .map hdone (.bind_left fun _ _ => .bind_left fun _ _ => .bind_left fun _ _ => .ok ⟨rfl, rfl⟩)
    | fund buyer amount =>
      refine .map hdone ?_
      refine .bind_left fun _ _ => .bind_left fun _ _ => .bind_left fun _ _ => .bind_left fun _ _ =>
        .bind_left fun _ _ => .bind_left fun _ _ => .bind_left fun token _ => ?_
      refine .bind (transfer_recorded w.ledger token buyer self amount) ?_
      rintro a b rfl
      exact .ok ⟨rfl, rfl⟩
    | settle =>
      refine .map (R := fun x y => x.value = y.value ∧ x.events = y.events ∧ x.world = y.world.unrecorded) ?_ ?_
      · rintro x y ⟨hv, he, hw⟩
        exact ⟨Prod.ext (congrArg Value.payout hv) he, hw⟩
      · refine .bind_left fun _ _ => .bind_left fun _ _ => .bind_left fun _ _ => .bind_left fun _ _ =>
          .bind_left fun farmer _ => .bind_left fun buyer _ => .bind_left fun _ _ => .bind_left fun _ _ =>
          .bind_left fun _ _ => .bind_left fun token _ => .bind_left fun _ _ => .bind_left fun _ _ =>
          .bind_left fun shares _ => ?_
        refine .bind (payOut_recorded w.ledger token farmer shares.1) ?_
        rintro a b rfl
        refine .bind (payOut_recorded b token buyer shares.2) ?_
        rintro a b rfl
        exact .ok ⟨rfl, rfl, rfl⟩
    | cancel caller =>
      refine .map hdone ?_
      refine .bind_left fun _ _ => .bind_left fun _ _ => .bind_left fun buyer _ => .bind_left fun _ _ =>
        .bind_left fun _ _ => .bind_left fun token _ => ?_
      change Agrees _ (if w.storage.funded.getD false = true then _ else _)
        (if w.storage.funded.getD false = true then _ else _)
      by_cases hf : w.storage.funded.getD false = true
      · rw [if_pos hf, if_pos hf]
        refine .bind_left fun _ _ => .bind_left fun _ _ => .bind_left fun _ _ => .bind_left fun _ _ =>
          .bind_left fun _ _ => ?_
        refine .bind (payOut_recorded w.ledger token buyer (tokens.balance w.ledger.1 token self)) ?_
        rintro a b rfl
        exact .ok ⟨rfl, rfl⟩
      · rw [if_neg hf, if_neg hf]
        exact .bind_left fun _ _ => .bind_left fun _ _ => .ok ⟨rfl, rfl⟩
  | transfer token sender receiver amount =>
    change Agrees _ (if sender = self then _ else _) (if sender = self then _ else _)
    by_cases hs : sender = self
    · rw [if_pos hs, if_pos hs]
      exact .error _
    · rw [if_neg hs, if_neg hs]
      refine .map ?_ (transfer_recorded w.ledger token sender receiver amount)
      rintro a b rfl
      exact ⟨rfl, rfl⟩

/-- With and without the record a run gives the same results and moves the same tokens. -/
theorem unrecorded_run (ledger : L) (inputs : List Input) :
    (machine tokens.recording self).results ⟨.deployed, (ledger, [])⟩ inputs =
        (machine tokens self).results ⟨.deployed, ledger⟩ inputs ∧
      (after tokens.recording self (ledger, []) inputs).unrecorded = after tokens self ledger inputs := by
  have hboth (w : World L) (w' : World (L × List Movement)) (i j : Input) (hw : w = w'.unrecorded) (hij : i = j) :
      (machine tokens self).result w i = (machine tokens.recording self).result w' j ∧
        (machine tokens self).step w i = ((machine tokens.recording self).step w' j).unrecorded := by
    subst hw
    subst hij
    exact (machine tokens self).step_agrees (machine tokens.recording self) (R := fun w w' => w = w'.unrecorded) rfl
      (recorded_agrees w' i)
  have hsame : List.Forall₂ (· = ·) inputs inputs := List.forall₂_same.mpr fun _ _ => rfl
  obtain ⟨hresults, hend⟩ := (machine tokens self).lockstep (machine tokens.recording self)
    (R := fun w w' => w = w'.unrecorded) hboth rfl hsame
  exact ⟨hresults.symm, hend.symm⟩

end Recording
section Terms

/-- The terms a committed initialization has stored, and who authorized it. -/
def initialized (_ : World L) (input : Input) (_ : Output) : List (Terms × List Address) :=
  match input with
  | .invoke ⟨env, _, .initializeContract
      farmer buyer commodity floorPrice notional settlementToken maturityTs oracle⟩ =>
    [(⟨farmer, buyer, commodity, floorPrice, notional, settlementToken, maturityTs, oracle⟩, env.auths)]
  | _ => []

/-- Terms once stored are never replaced. -/
theorem holds_step {w w' : World L} {input : Input} {out : Output} {terms : Terms} (holds : w.storage.Holds terms)
    (h : Transition tokens self w input out w') :
    w'.storage.Holds terms ∧ initialized w input out = [] := by
  cases h with
  | initializeContract _ _ hfresh => cases hfresh.symm.trans holds.farmer
  | _ => exact ⟨{ holds with }, rfl⟩

/-- One initialization at most has succeeded. Both of its parties have authorized it, and its terms are stored. -/
inductive Bound (log : List (Terms × List Address)) (st : Storage) : Prop where
  | fresh (none : log = []) (deployed : st = .deployed)
  | signed (terms : Terms) (auths : List Address) (only : log = [(terms, auths)]) (farmer : terms.farmer ∈ auths)
      (buyer : terms.buyer ∈ auths) (holds : st.Holds terms)

theorem bound_step {log : List (Terms × List Address)} {w w' : World L} {input : Input} {out : Output}
    (hb : Bound log w.storage) (h : Transition tokens self w input out w') :
    Bound (log ++ initialized w input out) w'.storage := by
  cases hb with
  | fresh hnone hdeployed =>
    subst hnone
    cases h with
    | initializeContract hf hb => exact .signed _ _ rfl hf hb ⟨rfl, rfl, rfl, rfl, rfl, rfl, rfl, rfl⟩
    | fund _ hb => rw [hdeployed] at hb; cases hb
    | settle _ hf => rw [hdeployed] at hf; cases hf
    | cancelFunded _ hf => rw [hdeployed] at hf; cases hf
    | cancelUnfunded _ hf => rw [hdeployed] at hf; cases hf
    | transfer => exact .fresh rfl hdeployed
  | signed terms auths honly hf hb holds =>
    obtain ⟨hnext, hnone⟩ := holds_step holds h
    exact .signed terms auths (by rw [honly, hnone]; rfl) hf hb hnext

end Terms

section Movements

/-- A transfer that a call of the agreement is entitled to make, or one that it has no part in. -/
inductive Entitled (self : Address) (st : Storage) : Input → Movement → Prop where
  | deposit {env : Env} {feed : Feed} {terms : Terms} {amount : I128} (holds : st.Holds terms)
      (signed : terms.buyer ∈ env.auths) :
      Entitled self st (.invoke ⟨env, feed, .fund terms.buyer amount⟩)
        ⟨terms.settlementToken, terms.buyer, self, amount⟩
  | payout {env : Env} {feed : Feed} {terms : Terms} {amount : I128} (holds : st.Holds terms)
      (mature : terms.maturity.toNat ≤ env.timestamp.toNat) :
      Entitled self st (.invoke ⟨env, feed, .settle⟩) ⟨terms.settlementToken, self, terms.farmer, amount⟩
  | refund {env : Env} {feed : Feed} {terms : Terms} {amount : I128} (holds : st.Holds terms)
      (mature : terms.maturity.toNat ≤ env.timestamp.toNat) :
      Entitled self st (.invoke ⟨env, feed, .settle⟩) ⟨terms.settlementToken, self, terms.buyer, amount⟩
  | cancellation {env : Env} {feed : Feed} {terms : Terms} {caller : Address} {amount : I128} (holds : st.Holds terms)
      (party : caller = terms.farmer ∨ caller = terms.buyer) (signed : caller ∈ env.auths)
      (elapsed : min (terms.maturity.toNat + 172800) (2 ^ 64 - 1) ≤ env.timestamp.toNat)
      (unpriced : terms.quote feed = none) :
      Entitled self st (.invoke ⟨env, feed, .cancel caller⟩) ⟨terms.settlementToken, self, terms.buyer, amount⟩
  | outside {token sender receiver : Address} {amount : I128} (stranger : sender ≠ self) :
      Entitled self st (.transfer token sender receiver amount) ⟨token, sender, receiver, amount⟩

/-- A payment is one transfer at most. -/
theorem payOut_movements {l l' : L × List Movement} {token receiver : Address} {amount : I128}
    (h : payOut tokens.recording self l token receiver amount = .ok l') :
    ∃ moved, l'.2 = l.2 ++ moved ∧ ∀ m ∈ moved, m = ⟨token, self, receiver, amount⟩ := by
  rcases payOut_cases h with ⟨_, ht⟩ | ⟨_, rfl⟩
  · refine ⟨_, TokenLedger.recording_transfer ht, ?_⟩
    intro m hm
    exact List.mem_singleton.mp hm
  · exact ⟨[], (List.append_nil _).symm, fun _ hm => nomatch hm⟩

private theorem holds_of_buyer {st : Storage} (hc : Coherent st) {buyer : Address} (hb : st.buyer = some buyer) :
    ∃ terms, st.Holds terms ∧ terms.buyer = buyer := by
  cases hc with
  | fresh h => rw [h] at hb; cases hb
  | agreed terms holds => exact ⟨terms, holds, Option.some.inj (holds.buyer.symm.trans hb)⟩

/-- Whatever one input has moved it was entitled to. -/
theorem entitled_step {w w' : World (L × List Movement)} {input : Input} {out : Output} (hc : Coherent w.storage)
    (h : Transition tokens.recording self w input out w') :
    ∃ moved, w'.ledger.2 = w.ledger.2 ++ moved ∧ ∀ m ∈ moved, Entitled self w.storage input m := by
  cases h with
  | initializeContract => exact ⟨[], (List.append_nil _).symm, fun _ hm => nomatch hm⟩
  | fund hs hb _ _ _ ht hm =>
    obtain ⟨terms, holds, rfl⟩ := holds_of_buyer hc hb
    cases ht.symm.trans holds.settlementToken
    refine ⟨_, TokenLedger.recording_transfer hm, fun m hmem => ?_⟩
    rw [List.mem_singleton.mp hmem]
    exact .deposit holds hs
  | settle _ _ holds hmature _ _ hfarmer hbuyer =>
    obtain ⟨toFarmer, hfirst, hpaid⟩ := payOut_movements hfarmer
    obtain ⟨toBuyer, hsecond, hrefunded⟩ := payOut_movements hbuyer
    have htime := UInt64.le_iff_toNat_le.mp hmature
    refine ⟨toFarmer ++ toBuyer, by rw [hsecond, hfirst, List.append_assoc], fun m hmem => ?_⟩
    rcases List.mem_append.mp hmem with hmem | hmem
    · rw [hpaid m hmem]
      exact .payout holds htime
    · rw [hrefunded m hmem]
      exact .refund holds htime
  | cancelFunded hs hf hb hp _ ht _ hmaturity helapsed horacle hcommodity hquote hrefund =>
    obtain ⟨terms, holds, rfl⟩ := holds_of_buyer hc hb
    cases hf.symm.trans holds.farmer
    cases ht.symm.trans holds.settlementToken
    cases hmaturity.symm.trans holds.maturity
    cases horacle.symm.trans holds.oracle
    cases hcommodity.symm.trans holds.commodity
    rw [UInt64.le_iff_toNat_le, saturatingAdd_toNat] at helapsed
    obtain ⟨moved, hrecord, hpaid⟩ := payOut_movements hrefund
    refine ⟨moved, hrecord, fun m hmem => ?_⟩
    rw [hpaid m hmem]
    exact .cancellation holds hp hs helapsed hquote
  | cancelUnfunded => exact ⟨[], (List.append_nil _).symm, fun _ hm => nomatch hm⟩
  | transfer hs hm =>
    refine ⟨_, TokenLedger.recording_transfer hm, fun m hmem => ?_⟩
    rw [List.mem_singleton.mp hmem]
    exact .outside hs

end Movements

/-- The terms an agreement holds are those of its one successful initialization, which both parties authorized;
they stay in every later state; and every transfer that any of its calls makes is one the call is entitled to. -/
theorem terms_signed_and_transfers_entitled {L : Type} (tokens : Tokens L) (self : Address) (ledger : L)
    (inputs : List Input) :
    Bound ((machine tokens self).log initialized ⟨.deployed, ledger⟩ inputs) (after tokens self ledger inputs).storage ∧
      (∀ later terms, (after tokens self ledger inputs).storage.Holds terms →
        (after tokens self ledger (inputs ++ later)).storage.Holds terms) ∧
      (after tokens.recording self (ledger, []) inputs).unrecorded = after tokens self ledger inputs ∧
      ∀ input, ∃ moved,
        ((machine tokens.recording self).step (after tokens.recording self (ledger, []) inputs) input).ledger.2 =
            (after tokens.recording self (ledger, []) inputs).ledger.2 ++ moved ∧
          ∀ m ∈ moved, Entitled self (after tokens.recording self (ledger, []) inputs).storage input m := by
  refine ⟨?_, fun later terms holds => ?_, (unrecorded_run ledger inputs).2, fun input => ?_⟩
  · have hstart : Bound [] (⟨.deployed, ledger⟩ : World L).storage := .fresh rfl rfl
    exact (machine tokens self).log_invariant initialized (fun log w => Bound log w.storage)
      (fun _ _ _ _ _ hb _ he => bound_step hb (exec_eq_ok.mp he)) hstart
      ((machine tokens self).along_inputs _ fun _ _ => trivial)
  · rw [after_append]
    exact (machine tokens self).run_invariant (·.storage.Holds terms)
      (fun _ _ _ _ hi he => (holds_step hi (exec_eq_ok.mp he)).1) holds later
  · cases he : (machine tokens.recording self).exec (after tokens.recording self (ledger, []) inputs) input with
    | error e =>
      rw [Machine.step_rollback _ he]
      exact ⟨[], (List.append_nil _).symm, fun _ hm => nomatch hm⟩
    | ok res =>
      obtain ⟨out, w'⟩ := res
      rw [Machine.step_commit _ he]
      exact entitled_step (coherent (ledger, []) inputs) (exec_eq_ok.mp he)

end AgriFeed.Pricefloor
