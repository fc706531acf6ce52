import AgriFeed.Foundation.Fleet
import AgriFeed.Pricefloor.Escrow
import AgriFeed.Pricefloor.Payouts

/-! Any number of agreements at addresses of their own, on the same token contracts. None of them can sign for
another address, so each sees the others only as transfers of strangers and runs as it would alone. -/
namespace AgriFeed.Pricefloor
open Foundation

namespace Input

/-- An input that an agreement gets itself. -/
def IsCall : Input → Prop
  | .invoke _ => True
  | .transfer .. => False

instance : DecidablePred IsCall
  | .invoke _ => isTrue trivial
  | .transfer .. => isFalse id

end Input

variable {L : Type}

def World.parts : World L ≃ Storage × L where
  toFun w := (w.storage, w.ledger)
  invFun p := ⟨p.1, p.2⟩
  left_inv _ := rfl
  right_inv _ := rfl

section
variable (tokens : Tokens L)

/-- One input goes to the agreement at its address, which may not have been initialized yet. -/
def market : Machine ((Address → Storage) × L) (Address × Input) (Fault Error) Output :=
  Machine.fleet World.parts (machine tokens)

/-- The state after a run of fresh contracts, from a given ledger. -/
def marketAfter (ledger : L) (calls : List (Address × Input)) : (Address → Storage) × L :=
  (market tokens).run (fun _ => .deployed, ledger) calls

end

/-- What the agreement at an address works on. -/
def agreementAt (st : (Address → Storage) × L) (place : Address) : World L := ⟨st.1 place, st.2⟩

/-- Inputs go to addresses of agreements, and no agreement authorizes one. -/
def WellSigned (escrows : Finset Address) (place : Address) (input : Input) : Prop :=
  place ∈ escrows ∧ ∀ signer ∈ input.signers, signer ∉ escrows

instance (escrows : Finset Address) (place : Address) (input : Input) : Decidable (WellSigned escrows place input) :=
  inferInstanceAs (Decidable (_ ∧ _))

section Strangers
variable {tokens : Tokens L} {self other : Address}

/-- Transfers of strangers that lead from one ledger to another. -/
def Reaches (tokens : Tokens L) (self : Address) (l l' : L) : Prop :=
  ∃ seen : List Input, (∀ input ∈ seen, ¬ input.IsCall) ∧
    ∀ st, (machine tokens self).run ⟨st, l⟩ seen = ⟨st, l'⟩

theorem Reaches.refl (l : L) : Reaches tokens self l l := ⟨[], (fun _ h => nomatch h), fun _ => rfl⟩

theorem Reaches.trans {l mid l' : L} (h : Reaches tokens self l mid) (h' : Reaches tokens self mid l') :
    Reaches tokens self l l' := by
  obtain ⟨seen, hforeign, hrun⟩ := h
  obtain ⟨seen', hforeign', hrun'⟩ := h'
  refine ⟨seen ++ seen', fun input hm => ?_, fun st => ?_⟩
  · rcases List.mem_append.mp hm with hm | hm
    · exact hforeign input hm
    · exact hforeign' input hm
  · rw [Machine.run_append, hrun, hrun']

theorem Reaches.of_transfer {l l' : L} {token sender receiver : Address} {amount : I128} (hs : sender ≠ self)
    (h : tokens.transfer l token sender receiver amount = some l') : Reaches tokens self l l' := by
  refine ⟨[.transfer token sender receiver amount], fun input hm => ?_, fun st => ?_⟩
  · rw [List.mem_singleton.mp hm]
    exact id
  · rw [Machine.run_cons, Machine.run_nil]
    exact (machine tokens self).step_commit (exec_eq_ok.mpr (.transfer hs h))

theorem Reaches.of_payOut {l l' : L} {token receiver : Address} {amount : I128} (hne : other ≠ self)
    (h : payOut tokens other l token receiver amount = .ok l') : Reaches tokens self l l' := by
  rcases payOut_cases h with ⟨_, ht⟩ | ⟨_, rfl⟩
  · exact .of_transfer hne ht
  · exact .refl _

/-- What another agreement does to the ledger, strangers could have done. -/
theorem Transition.reaches {w w' : World L} {input : Input} {out : Output} (hne : other ≠ self)
    (hs : self ∉ input.signers) (h : Transition tokens other w input out w') :
    Reaches tokens self w.ledger w'.ledger := by
  cases h with
  | initializeContract => exact .refl _
  | fund hsigned _ _ _ _ _ hm =>
    refine .of_transfer ?_ hm
    rintro rfl
    exact hs hsigned
  | settle _ _ _ _ _ _ hfirst hsecond => exact (Reaches.of_payOut hne hfirst).trans (.of_payOut hne hsecond)
  | cancelFunded _ _ _ _ _ _ _ _ _ _ _ _ hrefund => exact .of_payOut hne hrefund
  | cancelUnfunded => exact .refl _
  | transfer _ hm =>
    refine .of_transfer ?_ hm
    rintro rfl
    exact hs (List.mem_singleton.mpr rfl)

theorem relayed {escrows : Finset Address} (hself : self ∈ escrows) :
    Machine.Relayed World.parts (machine tokens) Input.IsCall (WellSigned escrows) self := by
  intro st place input hne hw
  rw [Machine.member_step_other _ _ hne.symm]
  have hreach : Reaches tokens self st.2
      ((machine tokens place).step (Machine.member World.parts place st) input).ledger := by
    cases he : (machine tokens place).exec (Machine.member World.parts place st) input with
    | error e =>
      rw [Machine.step_rollback _ he]
      exact .refl _
    | ok out =>
      rw [Machine.step_commit _ he]
      exact (exec_eq_ok.mp he).reaches hne fun hs => hw.2 self hs hself
  obtain ⟨seen, hforeign, hrun⟩ := hreach
  exact ⟨seen, hforeign, hrun (st.1 self)⟩

end Strangers

/-- The amounts of successful fundings of the agreement at an address, in order. -/
def fundingsAt (place : Address) (_ : (Address → Storage) × L) (call : Address × Input) (_ : Output) : List I128 :=
  if call.1 = place then call.2.deposits.toList else []

section Members
variable {escrows : Finset Address} {calls : List (Address × Input)} {place : Address}

theorem member_after (tokens : Tokens L) (ledger : L) (hsigned : ∀ call ∈ calls, WellSigned escrows call.1 call.2)
    (hplace : place ∈ escrows) :
    ∃ inputs : List Input,
      after tokens place ledger inputs = agreementAt (marketAfter tokens ledger calls) place ∧
      inputs.filter Input.IsCall = Machine.addressed Input.IsCall place calls ∧
      (machine tokens place).keptResults (fun _ input => input.IsCall) ⟨.deployed, ledger⟩ inputs =
        (market tokens).keptResults (fun _ call => call.1 = place ∧ call.2.IsCall) (fun _ => .deployed, ledger)
          calls ∧
      (machine tokens place).log fundings ⟨.deployed, ledger⟩ inputs =
        (market tokens).log (fundingsAt place) (fun _ => .deployed, ledger) calls := by
  obtain ⟨inputs, hrun, hown, hresults, hlog⟩ :=
    Machine.member_run World.parts (machine tokens) (relayed hplace) (fun _ => .deployed, ledger) calls hsigned
  refine ⟨inputs, hrun, hown, hresults, hlog I128 fundings fun w input o hi => ?_⟩
  cases input with
  | invoke tx => exact absurd trivial hi
  | transfer => rfl

/-- An input the agreement gets itself was addressed to it, and it has not signed it. -/
theorem leavesOut_of_addressed {inputs : List Input}
    (hown : inputs.filter Input.IsCall = Machine.addressed Input.IsCall place calls)
    (hsigned : ∀ call ∈ calls, WellSigned escrows call.1 call.2) : ∀ input ∈ inputs, input.LeavesOut place := by
  intro input hm
  cases input with
  | transfer => exact Input.leavesOut_of_parties List.not_mem_nil
  | invoke tx =>
    have hcall : Input.invoke tx ∈ inputs.filter Input.IsCall := List.mem_filter.mpr ⟨hm, decide_eq_true trivial⟩
    rw [hown] at hcall
    obtain ⟨call, hc, he⟩ := List.mem_map.mp hcall
    obtain ⟨hmem, hat⟩ := List.mem_filter.mp hc
    obtain ⟨hplace, hunsigned⟩ := hsigned call hmem
    rw [← he, ← (of_decide_eq_true hat).1]
    exact fun _ hs => hunsigned call.1 hs hplace

end Members

section Undisturbed
variable {tokens : Tokens L} {self : Address} {w w' : World L}

/-- Transfers of strangers leave the storage of an agreement alone and its balances no lower. -/
theorem strangers_run (law : tokens.Exact) (self : Address) (w : World L) (inputs : List Input)
    (h : ∀ input ∈ inputs, ¬ input.IsCall) :
    ((machine tokens self).run w inputs).storage = w.storage ∧
      ∀ token, (tokens.balance w.ledger token self).val ≤
        (tokens.balance ((machine tokens self).run w inputs).ledger token self).val := by
  induction inputs generalizing w with
  | nil => exact ⟨rfl, fun _ => le_rfl⟩
  | cons input inputs ih =>
    have hrest := fun w => ih w fun i hi => h i (List.mem_cons_of_mem input hi)
    rw [Machine.run_cons]
    cases he : (machine tokens self).exec w input with
    | error e =>
      rw [Machine.step_rollback _ he]
      exact hrest w
    | ok res =>
      obtain ⟨out, next⟩ := res
      rw [Machine.step_commit _ he]
      obtain ⟨hstorage, hbalance⟩ := hrest next
      have ht := exec_eq_ok.mp he
      cases input with
      | invoke tx => exact absurd trivial (h _ List.mem_cons_self)
      | transfer =>
        cases ht with
        | transfer hs hm =>
          refine ⟨hstorage, fun token => ?_⟩
          exact (law.not_lowered hm hs.symm token).trans (hbalance token)

theorem owed_mono {floorPrice notional marketPrice collateral collateral' : Int} (h : collateral ≤ collateral') :
    owed floorPrice notional marketPrice collateral ≤ owed floorPrice notional marketPrice collateral' := by
  unfold owed
  split
  · exact le_rfl
  · exact min_le_min_left _ h

/-- An agreement that could be settled still can be when its balance has not fallen, and pays no less. -/
theorem settles_again (law : tokens.Exact) (accepts : tokens.Accepts self) (hstorage : w'.storage = w.storage)
    (hsolvent : ∀ token, 0 ≤ (tokens.balance w.ledger token self).val)
    (hbalance : ∀ token, (tokens.balance w.ledger token self).val ≤ (tokens.balance w'.ledger token self).val)
    {env : Env} {feed : Feed} {payout : I128} {events : List Event}
    (hr : (machine tokens self).result w (.invoke ⟨env, feed, .settle⟩) = .ok (.payout payout, events)) :
    ∃ payout' events',
      (machine tokens self).result w' (.invoke ⟨env, feed, .settle⟩) = .ok (.payout payout', events') ∧
        payout.val ≤ payout'.val ∧
        ((∀ token, tokens.balance w'.ledger token self = tokens.balance w.ledger token self) →
          payout' = payout ∧ events' = events) := by
  have he := (machine tokens self).result_eq_ok.mp hr
  have hcommits := (machine tokens self).commits_of_ok he
  have ht := exec_eq_ok.mp he
  generalize (machine tokens self).step w (.invoke ⟨env, feed, .settle⟩) = next at ht
  cases ht with
  | @settle _ _ terms record _ _ _ _ hs hf hh hm hq hd =>
    have hpos := hsolvent terms.settlementToken
    have hle := hbalance terms.settlementToken
    obtain ⟨stored, hquote, hsettleable⟩ := (settle_commits_iff law accepts hh hf hs hpos hm).mp hcommits
    cases hquote.symm.trans hq
    rw [← hstorage] at hs hf hh
    have hcommits' : (machine tokens self).Commits w' (.invoke ⟨env, feed, .settle⟩) :=
      (settle_commits_iff law accepts hh hf hs (hpos.trans hle) hm).mpr ⟨record, hq, hsettleable⟩
    obtain ⟨out, w'', he'⟩ := (machine tokens self).commits_iff.mp hcommits'
    obtain ⟨record', payout', refund', hq', hd', rfl⟩ := (exec_eq_ok.mp he').settle_terms hh
    cases hq'.symm.trans hq
    obtain ⟨howed, _, _⟩ := shares_owed hsettleable hpos hd
    obtain ⟨howed', _, _⟩ := shares_owed hsettleable (hpos.trans hle) hd'
    refine ⟨payout', [.settled terms.farmer payout' record.price], ?_, ?_, fun heq => ?_⟩
    · rw [(machine tokens self).result_eq_ok, he', (machine tokens self).step_commit he']
    · rw [howed, howed']
      exact owed_mono hle
    · rw [heq terms.settlementToken, ← howed] at howed'
      rw [SignedInt.ext howed']
      exact ⟨rfl, rfl⟩

end Undisturbed

/-- Two agreements on one token are signed and funded. -/
def twoAgreements : List (Address × Input) :=
  [(⟨9⟩, signing ⟨1⟩ ⟨2⟩ (.literal 100) (.literal 1) ⟨5⟩ 1000 ⟨8⟩),
    (⟨10⟩, signing ⟨4⟩ ⟨3⟩ (.literal 100) (.literal 2) ⟨5⟩ 1000 ⟨8⟩), (⟨9⟩, funding ⟨2⟩ (.literal 6) 10),
    (⟨10⟩, funding ⟨3⟩ (.literal 2) 20)]

/-- The second one is settled and its farmer sends a unit of the payout to the first. -/
def secondSettled : List (Address × Input) :=
  [(⟨10⟩, settlement (quoting (.literal 97)) 1000), (⟨10⟩, .transfer ⟨5⟩ ⟨4⟩ ⟨9⟩ (.literal 1))]

/-- In any joint run of agreements each of them is where a run of its own leads, on its own calls in their order and
with the same answers, between which strangers transfer tokens. -/
theorem agreements_run_alone {L : Type} (tokens : Tokens L) (escrows : Finset Address) (ledger : L)
    (calls : List (Address × Input)) (hsigned : ∀ call ∈ calls, WellSigned escrows call.1 call.2) :
    ∀ place ∈ escrows, ∃ inputs : List Input,
      after tokens place ledger inputs = agreementAt (marketAfter tokens ledger calls) place ∧
      inputs.filter Input.IsCall = Machine.addressed Input.IsCall place calls ∧
      (machine tokens place).keptResults (fun _ input => input.IsCall) ⟨.deployed, ledger⟩ inputs =
        (market tokens).keptResults (fun _ call => call.1 = place ∧ call.2.IsCall) (fun _ => .deployed, ledger)
          calls := by
  intro place hplace
  obtain ⟨inputs, hrun, hown, hresults, _⟩ := member_after tokens ledger hsigned hplace
  exact ⟨inputs, hrun, hown, hresults⟩

theorem two_agreements_run_alone :
    ∃ inputs : List Input,
      after Units.ledger ⟨9⟩ endowment inputs = agreementAt (marketAfter Units.ledger endowment twoAgreements) ⟨9⟩ ∧
      inputs.filter Input.IsCall = Machine.addressed Input.IsCall ⟨9⟩ twoAgreements := by
  obtain ⟨inputs, hrun, hown, _⟩ := agreements_run_alone Units.ledger {⟨9⟩, ⟨10⟩} endowment twoAgreements (by decide)
    ⟨9⟩ (by decide)
  exact ⟨inputs, hrun, hown⟩

/-- All agreements are backed at once: whichever of them is funded and not settled holds at least its latest funding,
and whichever is closed next gives its whole balance to its own parties. -/
theorem every_agreement_backed {L : Type} (tokens : Tokens L) (law : tokens.Exact) (escrows : Finset Address)
    (ledger : L) (solvent : ∀ place ∈ escrows, ∀ token, 0 ≤ (tokens.balance ledger token place).val)
    (calls : List (Address × Input)) (hsigned : ∀ call ∈ calls, WellSigned escrows call.1 call.2) :
    ∀ place ∈ escrows, ∀ token,
      Covered tokens place token ((market tokens).log (fundingsAt place) (fun _ => .deployed, ledger) calls)
          (agreementAt (marketAfter tokens ledger calls) place) ∧
        ∀ input, EmptiesEscrow tokens place token (agreementAt (marketAfter tokens ledger calls) place) input := by
  intro place hplace token
  obtain ⟨inputs, hrun, hown, _, hlog⟩ := member_after tokens ledger hsigned hplace
  have houtside := leavesOut_of_addressed hown hsigned
  rw [← hrun, ← hlog]
  refine ⟨covered_run law (solvent place hplace token) houtside, fun input => ?_⟩
  exact empties_of_escrowed law (along_escrowed law (solvent place hplace token) houtside).2

theorem two_agreements_backed :
    Covered Units.ledger ⟨9⟩ ⟨5⟩
      ((market Units.ledger).log (fundingsAt ⟨9⟩) (fun _ => .deployed, endowment) twoAgreements)
      (agreementAt (marketAfter Units.ledger endowment twoAgreements) ⟨9⟩) := by
  have solvent : ∀ place ∈ ({⟨9⟩, ⟨10⟩} : Finset Address), ∀ token,
      0 ≤ (Units.ledger.balance endowment token place).val := fun _ _ _ => Int.natCast_nonneg _
  exact (every_agreement_backed Units.ledger Units.ledger_exact {⟨9⟩, ⟨10⟩} endowment solvent twoAgreements (by decide)
    ⟨9⟩ (by decide) ⟨5⟩).1

/-- Nothing that is done to other agreements harms one: its storage stays, its balances do not fall, and if it could be
settled before it can be settled after, at the same price and for no less; for the same if nothing was sent to it. -/
theorem settlement_unharmed_by_others {L : Type} (tokens : Tokens L) (law : tokens.Exact) (escrows : Finset Address)
    (place : Address) (hplace : place ∈ escrows) (accepts : tokens.Accepts place) (ledger : L)
    (solvent : ∀ token, 0 ≤ (tokens.balance ledger token place).val) (calls others : List (Address × Input))
    (hsigned : ∀ call ∈ calls ++ others, WellSigned escrows call.1 call.2) (hothers : ∀ call ∈ others, call.1 ≠ place) :
    (marketAfter tokens ledger (calls ++ others)).1 place = (marketAfter tokens ledger calls).1 place ∧
      (∀ token, (tokens.balance (marketAfter tokens ledger calls).2 token place).val ≤
        (tokens.balance (marketAfter tokens ledger (calls ++ others)).2 token place).val) ∧
      ∀ env feed payout events,
        (market tokens).result (marketAfter tokens ledger calls) (place, .invoke ⟨env, feed, .settle⟩) =
          .ok (.payout payout, events) →
        ∃ payout' events', (market tokens).result (marketAfter tokens ledger (calls ++ others))
              (place, .invoke ⟨env, feed, .settle⟩) = .ok (.payout payout', events') ∧
          payout.val ≤ payout'.val ∧
          ((∀ token, tokens.balance (marketAfter tokens ledger (calls ++ others)).2 token place =
              tokens.balance (marketAfter tokens ledger calls).2 token place) →
            payout' = payout ∧ events' = events) := by
  have hafter : marketAfter tokens ledger (calls ++ others) =
      (market tokens).run (marketAfter tokens ledger calls) others := (market tokens).run_append _ calls others
  obtain ⟨own, hstart, _⟩ := member_after tokens ledger
    (fun call hc => hsigned call (List.mem_append_left _ hc)) hplace
  obtain ⟨seen, hrun, hown, _⟩ := Machine.member_run World.parts (machine tokens) (relayed hplace)
    (marketAfter tokens ledger calls) others fun call hc => hsigned call (List.mem_append_right _ hc)
  have hnone : Machine.addressed Input.IsCall place others = [] := by
    rw [Machine.addressed, List.filter_eq_nil_iff.mpr fun call hc => by simp [hothers call hc], List.map_nil]
  have hforeign : ∀ input ∈ seen, ¬ input.IsCall := by
    intro input hm hcall
    have hmem : input ∈ seen.filter Input.IsCall := List.mem_filter.mpr ⟨hm, decide_eq_true hcall⟩
    rw [hown, hnone] at hmem
    cases hmem
  have hquiet := strangers_run law place (agreementAt (marketAfter tokens ledger calls) place) seen hforeign
  change (machine tokens place).run (agreementAt (marketAfter tokens ledger calls) place) seen =
    agreementAt ((market tokens).run (marketAfter tokens ledger calls) others) place at hrun
  rw [hrun, ← hafter] at hquiet
  obtain ⟨hstorage, hbalance⟩ := hquiet
  refine ⟨hstorage, hbalance, fun env feed payout events hr => ?_⟩
  rw [market, Machine.fleet_result] at hr ⊢
  refine settles_again law accepts hstorage (fun token => ?_) hbalance hr
  rw [← hstart]
  exact not_overdrawn law (solvent token) own

theorem first_settles_after_second :
    ∃ payout events, (market Units.ledger).result (marketAfter Units.ledger endowment (twoAgreements ++ secondSettled))
        (⟨9⟩, .invoke ⟨⟨1000, []⟩, quoting (.literal 97), .settle⟩) = .ok (.payout payout, events) ∧
      3 ≤ payout.val := by
  have solvent (token : Address) : 0 ≤ (Units.ledger.balance endowment token ⟨9⟩).val := Int.natCast_nonneg _
  obtain ⟨_, _, hsettles⟩ := settlement_unharmed_by_others Units.ledger Units.ledger_exact {⟨9⟩, ⟨10⟩} ⟨9⟩ (by decide)
    (Units.ledger_accepts _) endowment solvent twoAgreements secondSettled (by decide) (by decide)
  obtain ⟨payout, events, hr, hle, _⟩ := hsettles ⟨1000, []⟩ (quoting (.literal 97)) (.literal 3)
    [.settled ⟨1⟩ (.literal 3) (.literal 97)] (by decide +kernel)
  exact ⟨payout, events, hr, hle⟩

end AgriFeed.Pricefloor
