import AgriFeed.Pricefloor.Invariants

/-! The collateral an agreement holds. What enters it is a funding or a donation, what leaves it goes to
the stored parties, and a settlement or a refund leaves nothing behind. -/
namespace AgriFeed.Pricefloor
open Foundation

/-- The stored farmer and buyer, which may be one address. -/
def Storage.parties (st : Storage) : Finset Address := (st.farmer.toList ++ st.buyer.toList).toFinset

@[simp] theorem Storage.mem_parties {st : Storage} {a : Address} :
    a ∈ st.parties ↔ st.farmer = some a ∨ st.buyer = some a := by
  simp [Storage.parties]

section Flows
variable {L : Type} (tokens : Tokens L) (self token : Address)

/-- The amounts of successful fundings, in order. -/
def fundings (_ : World L) (input : Input) (_ : Output) : List I128 := input.deposits.toList

def funded (w : World L) (input : Input) (_ : Output) : Int :=
  match input with
  | .invoke ⟨_, _, .fund _ amount⟩ => if w.storage.settlementToken = some token then amount.val else 0
  | _ => 0

/-- What someone else's transfer brings to the contract. -/
def donated (_ : World L) (input : Input) (_ : Output) : Int :=
  match input with
  | .transfer t _ receiver amount => if t = token ∧ receiver = self then amount.val else 0
  | _ => 0

/-- What the stored parties have more of after a settlement or a cancellation. -/
def paid (w : World L) (input : Input) (_ : Output) : Int :=
  match input with
  | .invoke ⟨_, _, .settle⟩ | .invoke ⟨_, _, .cancel _⟩ =>
    tokens.holding ((machine tokens self).step w input).ledger token w.storage.parties -
      tokens.holding w.ledger token w.storage.parties
  | _ => 0

/-- A settlement, or a cancellation of a funded agreement. -/
def Closes (w : World L) : Input → Prop
  | .invoke ⟨_, _, .settle⟩ => True
  | .invoke ⟨_, _, .cancel _⟩ => w.storage.funded = some true
  | _ => False

/-- Closing leaves nothing of the settlement token, and the parties have all of it. -/
def EmptiesEscrow (w : World L) (input : Input) : Prop :=
  Closes w input → (machine tokens self).Commits w input → w.storage.settlementToken = some token →
    (tokens.balance ((machine tokens self).step w input).ledger token self).val = 0 ∧
      tokens.holding ((machine tokens self).step w input).ledger token w.storage.parties =
        tokens.holding w.ledger token w.storage.parties + (tokens.balance w.ledger token self).val

/-- A call fails and moves nothing. -/
def RefusesCalls (w : World L) (input : Input) : Prop :=
  ∀ tx, input = .invoke tx → ¬ (machine tokens self).Commits w input ∧ (machine tokens self).step w input = w

end Flows

/-- The contract at an address is not one of its parties and owes nothing to a token. -/
structure Escrowed {L : Type} (tokens : Tokens L) (contract token : Address) (w : World L) : Prop where
  coherent : Coherent w.storage
  outside : contract ∉ w.storage.parties
  solvent : 0 ≤ (tokens.balance w.ledger token contract).val

section Steps
variable {L : Type} {tokens : Tokens L} {self token : Address} {w w' : World L} {input : Input} {out : Output}

private theorem buyer_outside {buyer : Address} (ho : self ∉ w.storage.parties) (hb : w.storage.buyer = some buyer) :
    buyer ≠ self := by
  rintro rfl
  exact ho (Storage.mem_parties.mpr (.inr hb))

theorem party_of_holds {terms : Terms} (holds : w.storage.Holds terms) :
    terms.farmer ∈ w.storage.parties ∧ terms.buyer ∈ w.storage.parties :=
  ⟨Storage.mem_parties.mpr (.inl holds.farmer), Storage.mem_parties.mpr (.inr holds.buyer)⟩

/-- Both payments of a settlement together take exactly the collateral. A negative payout would make the
refund exceed it, which the token refuses. -/
private theorem settle_closes (law : tokens.Exact) {l mid ledger : L} {farmer buyer : Address} {group : Finset Address}
    (hf : farmer ∈ group) (hb : buyer ∈ group) (hs : self ∉ group) (hpos : 0 ≤ (tokens.balance l token self).val)
    {floorPrice notional marketPrice payout refund : I128}
    (divided : settlementShares floorPrice notional marketPrice (tokens.balance l token self) = .ok (payout, refund))
    (farmerPaid : payOut tokens self l token farmer payout = .ok mid)
    (buyerPaid : payOut tokens self mid token buyer refund = .ok ledger) :
    (tokens.balance ledger token self).val = 0 ∧
      tokens.holding ledger token group = tokens.holding l token group + (tokens.balance l token self).val := by
  have hsum := shares_sum divided
  obtain ⟨hb₁, hg₁, hc₁⟩ := payOut_exact law farmerPaid hf hs
  obtain ⟨hb₂, hg₂, hc₂⟩ := payOut_exact law buyerPaid hb hs
  omega

private theorem refund_closes (law : tokens.Exact) {l ledger : L} {buyer : Address} {group : Finset Address}
    (hb : buyer ∈ group) (hs : self ∉ group) (hpos : 0 ≤ (tokens.balance l token self).val)
    (refunded : payOut tokens self l token buyer (tokens.balance l token self) = .ok ledger) :
    (tokens.balance ledger token self).val = 0 ∧
      tokens.holding ledger token group = tokens.holding l token group + (tokens.balance l token self).val := by
  obtain ⟨hbal, hg, _⟩ := payOut_exact law refunded hb hs
  omega

/-- Closing moves all of the settlement token and nothing of another one. -/
private theorem closing_moves (law : tokens.Exact) (hi : Escrowed tokens self token w) (hc : Closes w input)
    (ht : Transition tokens self w input out w') :
    (w.storage.settlementToken = some token → (tokens.balance w'.ledger token self).val = 0 ∧
      tokens.holding w'.ledger token w.storage.parties =
        tokens.holding w.ledger token w.storage.parties + (tokens.balance w.ledger token self).val) ∧
    (w.storage.settlementToken ≠ some token → tokens.balance w'.ledger token self = tokens.balance w.ledger token self ∧
      tokens.holding w'.ledger token w.storage.parties = tokens.holding w.ledger token w.storage.parties) := by
  cases ht with
  | initializeContract => cases hc
  | fund => cases hc
  | transfer => cases hc
  | settle hs hf hh _ _ hd hp hb =>
    obtain ⟨hfarmer, hbuyer⟩ := party_of_holds hh
    rw [hh.settlementToken]
    constructor
    · intro htok
      cases htok
      exact settle_closes law hfarmer hbuyer hi.outside hi.solvent hd hp hb
    · intro htok
      have hne : token ≠ _ := fun h => htok (congrArg some h.symm)
      have hfirst := payOut_others law hp hne w.storage.parties self
      have hsecond := payOut_others law hb hne w.storage.parties self
      exact ⟨hsecond.1.trans hfirst.1, hsecond.2.trans hfirst.2⟩
  | cancelFunded _ _ hbu _ _ htoken _ _ _ _ _ _ hr =>
    rw [htoken]
    constructor
    · intro htok
      cases htok
      exact refund_closes law (Storage.mem_parties.mpr (.inr hbu)) hi.outside hi.solvent hr
    · intro htok
      exact payOut_others law hr (fun h => htok (congrArg some h.symm)) w.storage.parties self
  | cancelUnfunded _ _ _ _ _ _ hu =>
    change w.storage.funded = some true at hc
    rw [hc] at hu
    cases hu

private theorem closing_flow (law : tokens.Exact) (hi : Escrowed tokens self token w) (hc : Closes w input)
    (ht : Transition tokens self w input out w') :
    (tokens.balance w.ledger token self).val = (tokens.balance w'.ledger token self).val +
      (tokens.holding w'.ledger token w.storage.parties - tokens.holding w.ledger token w.storage.parties) := by
  obtain ⟨hsame, hother⟩ := closing_moves law hi hc ht
  by_cases htok : w.storage.settlementToken = some token
  · obtain ⟨hb, hg⟩ := hsame htok
    omega
  · obtain ⟨hb, hg⟩ := hother htok
    rw [hb, hg]
    omega

/-- What a transfer of others does to the contract's balance. -/
private theorem transfer_moves (law : tokens.Exact) {l l' : L} {moved t sender receiver : Address} {amount : I128}
    (hs : sender ≠ self) (h : tokens.transfer l moved sender receiver amount = some l') :
    (tokens.balance l' t self).val =
      (tokens.balance l t self).val + if moved = t ∧ receiver = self then amount.val else 0 := by
  by_cases ht : moved = t
  · subst ht
    by_cases hr : receiver = self
    · rw [if_pos ⟨rfl, hr⟩, ← hr, law.received h (fun he => hs (he.trans hr))]
    · rw [if_neg fun hc => hr hc.2, law.untouched h hs.symm (fun he => hr he.symm), Int.add_zero]
  · rw [if_neg fun hc => ht hc.1, law.others _ _ _ _ _ _ h t (fun he => ht he.symm), Int.add_zero]

/-- The flows of one committed input account for the change of the balance. -/
private theorem flow_step (law : tokens.Exact) (hi : Escrowed tokens self token w)
    (ht : Transition tokens self w input out w') :
    (tokens.balance w.ledger token self).val + (funded token w input out + donated self token w input out) =
      (tokens.balance w'.ledger token self).val + paid tokens self token w input out := by
  have hstep : (machine tokens self).step w input = w' := (machine tokens self).step_commit (exec_eq_ok.mpr ht)
  have hclose := fun hc => closing_flow law hi hc ht
  cases ht with
  | initializeContract => simp [funded, donated, paid]
  | fund _ hbu _ _ _ htoken hm =>
    have hmoves := transfer_moves (t := token) law (buyer_outside hi.outside hbu) hm
    simp only [funded, donated, paid, htoken, Option.some.injEq, Int.add_zero]
    simp only [and_true] at hmoves
    exact hmoves.symm
  | settle =>
    simp only [funded, donated, paid, hstep, Int.add_zero]
    exact hclose trivial
  | cancelFunded _ _ _ _ _ _ hf =>
    simp only [funded, donated, paid, hstep, Int.add_zero]
    exact hclose hf
  | cancelUnfunded =>
    simp only [funded, donated, paid, hstep]
    omega
  | transfer hs hm =>
    have hmoves := transfer_moves (t := token) law hs hm
    simp only [funded, donated, paid, Int.add_zero, Int.zero_add]
    exact hmoves.symm

/-- Parties have signed, which the contract has not done. -/
theorem signed_outside (hp : input.LeavesOut self) (ht : Transition tokens self w input out w') :
    self ∉ input.parties := by
  intro hm
  cases ht with
  | initializeContract farmerSigned buyerSigned =>
    refine hp hm ?_
    rcases List.mem_cons.mp hm with rfl | hb
    · exact farmerSigned
    · exact List.mem_singleton.mp hb ▸ buyerSigned
  | _ => cases hm

private theorem escrowed_step (law : tokens.Exact) (hi : Escrowed tokens self token w) (hp : input.LeavesOut self)
    (ht : Transition tokens self w input out w') : Escrowed tokens self token w' := by
  refine ⟨coherent_step hi.coherent ht, ?_, not_overdrawn_step law hi.solvent ht⟩
  have houtside := signed_outside hp ht
  cases ht with
  | @initializeContract _ _ farmer buyer =>
    intro h
    rcases Storage.mem_parties.mp h with h | h <;> cases h
    · exact houtside List.mem_cons_self
    · exact houtside (List.mem_cons_of_mem farmer List.mem_cons_self)
  | _ => exact hi.outside

/-- While an agreement stays funded and unsettled its balance covers the latest funding. -/
private theorem funding_step (law : tokens.Exact) (hi : Escrowed tokens self token w)
    (ht : Transition tokens self w input out w') (hf : w'.storage.funded = some true)
    (hs : w'.storage.settled ≠ some true) (htok : w'.storage.settlementToken = some token) :
    (∃ amount, fundings w input out = [amount] ∧ amount.val ≤ (tokens.balance w'.ledger token self).val) ∨
      (fundings w input out = [] ∧ w'.storage = w.storage ∧
        (tokens.balance w.ledger token self).val ≤ (tokens.balance w'.ledger token self).val) := by
  cases ht with
  | initializeContract => cases hf
  | fund _ hbu _ _ _ htoken hm =>
    cases htoken.symm.trans htok
    refine .inl ⟨_, rfl, ?_⟩
    have hsolvent := hi.solvent
    rw [law.received hm (buyer_outside hi.outside hbu)]
    omega
  | settle => exact absurd rfl hs
  | cancelFunded => cases hf
  | cancelUnfunded _ _ _ _ _ _ hu =>
    change w.storage.funded = some true at hf
    rw [hf] at hu
    cases hu
  | transfer ho hm => exact .inr ⟨rfl, rfl, law.not_lowered hm ho.symm token⟩

end Steps

section Runs
variable {L : Type} {tokens : Tokens L} {self token : Address} {ledger : L} {inputs : List Input}

theorem along_escrowed (law : tokens.Exact) (solvent : 0 ≤ (tokens.balance ledger token self).val)
    (hp : ∀ input ∈ inputs, input.LeavesOut self) :
    (machine tokens self).Along (fun w input => Escrowed tokens self token w ∧ input.LeavesOut self)
        ⟨.deployed, ledger⟩ inputs ∧
      Escrowed tokens self token (after tokens self ledger inputs) := by
  have hstart : Escrowed tokens self token ⟨.deployed, ledger⟩ := ⟨.fresh rfl, by simp [Storage.deployed], solvent⟩
  refine (machine tokens self).along_of_invariant (Escrowed tokens self token) ?_ (fun _ _ hi hp => ⟨hi, hp⟩) hstart
    ((machine tokens self).along_inputs _ hp)
  intro w input out w' hi hp he
  exact escrowed_step law hi hp (exec_eq_ok.mp he)

theorem empties_of_escrowed (law : tokens.Exact) {w : World L} {input : Input}
    (hi : Escrowed tokens self token w) : EmptiesEscrow tokens self token w input := by
  intro hc hcommit htok
  obtain ⟨out, w', he⟩ := (machine tokens self).commits_iff.mp hcommit
  rw [(machine tokens self).step_commit he]
  exact (closing_moves law hi hc (exec_eq_ok.mp he)).1 htok

/-- The latest funding is covered as long as the agreement is funded and unsettled. -/
def Covered (tokens : Tokens L) (contract token : Address) (amounts : List I128) (w : World L) : Prop :=
  w.storage.funded = some true → w.storage.settled ≠ some true → w.storage.settlementToken = some token →
    ∀ amount ∈ amounts.getLast?, amount.val ≤ (tokens.balance w.ledger token contract).val

theorem covered_run (law : tokens.Exact) (solvent : 0 ≤ (tokens.balance ledger token self).val)
    (hp : ∀ input ∈ inputs, input.LeavesOut self) :
    Covered tokens self token ((machine tokens self).log fundings ⟨.deployed, ledger⟩ inputs)
      (after tokens self ledger inputs) := by
  have hstart : Covered tokens self token [] ⟨.deployed, ledger⟩ := fun hf => nomatch hf
  refine (machine tokens self).log_invariant fundings (Covered tokens self token) ?_ hstart
    (along_escrowed law solvent hp).1
  rintro amounts w input out w' hcovered ⟨hi, _⟩ he hf hs htok
  rcases funding_step law hi (exec_eq_ok.mp he) hf hs htok with ⟨amount, hlog, hle⟩ | ⟨hlog, hst, hle⟩
  · rw [hlog, List.getLast?_concat]
    intro _ hm
    cases hm
    exact hle
  · rw [hlog, List.append_nil]
    rw [hst] at hf hs htok
    intro amount hm
    exact (hcovered hf hs htok amount hm).trans hle

/-- What is still due is a positive amount. -/
def AtStake (tokens : Tokens L) (contract token : Address) (w : World L) : Prop :=
  w.storage.funded = some true → w.storage.settled ≠ some true → w.storage.settlementToken = some token →
    0 < (tokens.balance w.ledger token contract).val

theorem stake_run (law : tokens.Exact) (solvent : 0 ≤ (tokens.balance ledger token self).val)
    (hp : ∀ input ∈ inputs, input.LeavesOut self) : AtStake tokens self token (after tokens self ledger inputs) := by
  have hstart : AtStake tokens self token ⟨.deployed, ledger⟩ := fun hf => nomatch hf
  refine ((machine tokens self).along_of_invariant (AtStake tokens self token) ?_ (fun _ _ _ _ => trivial) hstart
    (along_escrowed law solvent hp).1 (Q := fun _ _ => True)).2
  rintro w input out w' hstake ⟨hi, _⟩ he hf hs htok
  have ht := exec_eq_ok.mp he
  rcases funding_step law hi ht hf hs htok with ⟨amount, hlog, hle⟩ | ⟨_, hst, hle⟩
  · have hpos : 0 < amount.val := by
      cases ht with
      | fund _ _ hpos =>
        cases hlog
        exact (SignedInt.lt_iff 0 _).mp hpos
      | _ => cases hlog
    exact hpos.trans_le hle
  · rw [hst] at hf hs htok
    exact (hstake hf hs htok).trans_le hle

private theorem settled_run {w : World L} (hc : Coherent w.storage) (hs : w.storage.settled = some true) :
    (machine tokens self).Along (RefusesCalls tokens self) w inputs := by
  refine ((machine tokens self).along_of_invariant (P := fun _ _ => True)
    (fun w => Coherent w.storage ∧ w.storage.settled = some true) ?_ ?_ ⟨hc, hs⟩
    ((machine tokens self).along_inputs _ fun _ _ => trivial)).1
  · intro w input out w' hi _ he
    rw [settled_step hi.1 hi.2 (exec_eq_ok.mp he)]
    exact hi
  · rintro w _ ⟨hc, hs⟩ _ tx rfl
    have hn : ¬ (machine tokens self).Commits w (.invoke tx) := hc.settled_refuses hs tx
    exact ⟨hn, (machine tokens self).step_of_not_commits hn⟩

end Runs

/-- Over any run of an agreement on a token that moves exact amounts, starting without any of it: fundings and
donations equal payments and the balance; the balance covers the latest funding while it is due; closing
empties the balance into the hands of the parties; and after a settlement every call is refused. -/
theorem collateral_conserved {L : Type} (tokens : Tokens L) (law : tokens.Exact) (self token : Address) (ledger : L)
    (hzero : (tokens.balance ledger token self).val = 0) (inputs : List Input)
    (hparties : ∀ input ∈ inputs, self ∉ input.parties) :
    (machine tokens self).total (funded token) ⟨.deployed, ledger⟩ inputs +
        (machine tokens self).total (donated self token) ⟨.deployed, ledger⟩ inputs =
      (machine tokens self).total (paid tokens self token) ⟨.deployed, ledger⟩ inputs +
        (tokens.balance (after tokens self ledger inputs).ledger token self).val ∧
    Covered tokens self token ((machine tokens self).log fundings ⟨.deployed, ledger⟩ inputs)
      (after tokens self ledger inputs) ∧
    (machine tokens self).Along (EmptiesEscrow tokens self token) ⟨.deployed, ledger⟩ inputs ∧
    ((after tokens self ledger inputs).storage.settled = some true →
      (after tokens self ledger inputs).storage.funded = some true) ∧
    ∀ pre tx post, inputs = pre ++ .invoke tx :: post → tx.call = .settle →
      (machine tokens self).Commits (after tokens self ledger pre) (.invoke tx) →
      (machine tokens self).Along (RefusesCalls tokens self) (after tokens self ledger (pre ++ [.invoke tx])) post := by
  have houtside := fun input hm => Input.leavesOut_of_parties (hparties input hm)
  obtain ⟨halong, _⟩ := along_escrowed law hzero.ge houtside
  refine ⟨?_, covered_run law hzero.ge houtside, ?_, ?_, ?_⟩
  · have hbalance := (machine tokens self).total_balance (fun w => (tokens.balance w.ledger token self).val)
      (fun w i o => funded token w i o + donated self token w i o) (paid tokens self token)
      (fun w i o w' ha he => flow_step law ha.1 (exec_eq_ok.mp he)) halong
    rw [hzero, Int.zero_add, (machine tokens self).total_add] at hbalance
    rw [hbalance, Int.add_comm]
    rfl
  · exact (machine tokens self).along_mono (fun _ _ ha => empties_of_escrowed law ha.1) halong
  · intro hs
    exact ((coherent ledger inputs).settled_funded hs).1
  · intro pre tx post _ hcall hc
    obtain ⟨out, w', he⟩ := (machine tokens self).commits_iff.mp hc
    have hstep : after tokens self ledger (pre ++ [.invoke tx]) = w' := (machine tokens self).run_commit he
    rw [hstep]
    have ht := exec_eq_ok.mp he
    refine settled_run (coherent_step (coherent ledger pre) ht) ?_
    obtain ⟨env, feed, call⟩ := tx
    cases hcall
    cases ht with
    | settle => rfl

/-- An agreement is funded, receives a donation and is settled below its floor. -/
def settledRun : List Input :=
  [signing ⟨1⟩ ⟨2⟩ (.literal 100) (.literal 1) ⟨5⟩ 1000 ⟨8⟩, funding ⟨2⟩ (.literal 6) 10,
    .transfer ⟨5⟩ ⟨3⟩ ⟨9⟩ (.literal 1), settlement (quoting (.literal 97)) 1000]

theorem settled_run_conserves :
    (machine Units.ledger ⟨9⟩).total (funded ⟨5⟩) ⟨.deployed, endowment⟩ settledRun +
        (machine Units.ledger ⟨9⟩).total (donated ⟨9⟩ ⟨5⟩) ⟨.deployed, endowment⟩ settledRun =
      (machine Units.ledger ⟨9⟩).total (paid Units.ledger ⟨9⟩ ⟨5⟩) ⟨.deployed, endowment⟩ settledRun +
        (Units.ledger.balance (after Units.ledger ⟨9⟩ endowment settledRun).ledger ⟨5⟩ ⟨9⟩).val :=
  (collateral_conserved Units.ledger Units.ledger_exact ⟨9⟩ ⟨5⟩ endowment rfl settledRun (by decide)).1

end AgriFeed.Pricefloor
