import AgriFeed.Pricefloor.Transition

/-! What every run of an agreement keeps, and what one payment or settlement does to the ledger of a
token that moves exactly the amounts it is asked to. -/
namespace AgriFeed.Pricefloor
open Foundation

variable {L : Type} {tokens : Tokens L} {self : Address}

section Flags

/-- Either nothing is stored, or the terms and both flags are, and what is settled is still marked as funded. -/
inductive Coherent (st : Storage) : Prop where
  | fresh (deployed : st = .deployed)
  | agreed (terms : Terms) (holds : st.Holds terms) (funded settled : Bool) (fundedStored : st.funded = some funded)
      (settledStored : st.settled = some settled) (settledFunded : settled = true → funded = true)

theorem Coherent.holds {st : Storage} (hc : Coherent st) {funded : Bool} (hf : st.funded = some funded) :
    ∃ terms, st.Holds terms := by
  cases hc with
  | fresh h => rw [h] at hf; cases hf
  | agreed terms holds => exact ⟨terms, holds⟩

theorem coherent_step {w w' : World L} {input : Input} {out : Output} (hc : Coherent w.storage)
    (h : Transition tokens self w input out w') : Coherent w'.storage := by
  cases h with
  | initializeContract =>
    exact .agreed ⟨_, _, _, _, _, _, _, _⟩ ⟨rfl, rfl, rfl, rfl, rfl, rfl, rfl, rfl⟩ false false rfl rfl id
  | fund hs hb hp hu hn ht hm =>
    cases hc with
    | fresh h => rw [h] at hb; cases hb
    | agreed terms holds _ settled _ hset _ => exact .agreed terms { holds with } true settled rfl hset fun _ => rfl
  | settle hs hf hh =>
    cases hc with
    | fresh h => rw [h] at hf; cases hf
    | agreed terms holds => exact .agreed terms { holds with } true true hf rfl id
  | cancelFunded hs hfa hbu hp hn =>
    cases hc with
    | fresh h => rw [h] at hfa; cases hfa
    | agreed terms holds _ settled _ hset _ =>
      rw [hset] at hn
      exact .agreed terms { holds with } false settled rfl hset fun h => hn ▸ h
  | cancelUnfunded hs hfa hbu hp hn =>
    cases hc with
    | fresh h => rw [h] at hfa; cases hfa
    | agreed terms holds funded settled hfund hset himp =>
      exact .agreed terms { holds with } funded settled hfund hset himp
  | transfer => exact hc

theorem coherent (ledger : L) (inputs : List Input) : Coherent (after tokens self ledger inputs).storage :=
  (machine tokens self).run_invariant (fun w => Coherent w.storage)
    (fun _ _ _ _ hc he => coherent_step hc (exec_eq_ok.mp he)) (.fresh rfl) inputs

theorem Coherent.settled_funded {st : Storage} (hc : Coherent st) (hs : st.settled = some true) :
    st.funded = some true ∧ st.farmer.isSome := by
  cases hc with
  | fresh h => rw [h] at hs; cases hs
  | agreed terms holds funded settled hfund hset himp =>
    rw [hset] at hs
    cases hs
    exact ⟨by rw [hfund, himp rfl], by rw [holds.farmer]; rfl⟩

/-- A settled agreement refuses every call; only transfers of others still go through. -/
theorem Coherent.settled_refuses {w : World L} (hc : Coherent w.storage) (hs : w.storage.settled = some true)
    (tx : Invocation) : ¬ (machine tokens self).Commits w (.invoke tx) := by
  intro h
  obtain ⟨hfund, hfarmer⟩ := hc.settled_funded hs
  obtain ⟨out, w', ht⟩ := commits_iff.mp h
  cases ht with
  | initializeContract _ _ hf => rw [hf] at hfarmer; cases hfarmer
  | fund _ _ _ hu => rw [hfund] at hu; cases hu
  | settle hn => rw [hs] at hn; cases hn
  | cancelFunded _ _ _ _ hn => rw [hs] at hn; cases hn
  | cancelUnfunded _ _ _ _ hn => rw [hs] at hn; cases hn

/-- A settled agreement stays settled. -/
theorem settled_step {w w' : World L} {input : Input} {out : Output} (hc : Coherent w.storage)
    (hs : w.storage.settled = some true) (h : Transition tokens self w input out w') : w'.storage = w.storage := by
  cases input with
  | invoke tx => exact absurd (commits_iff.mpr ⟨out, w', h⟩) (hc.settled_refuses hs tx)
  | transfer =>
    cases h with
    | transfer => rfl

end Flags

section Payments
variable {l l' : L} {token receiver : Address} {amount : I128}

/-- A payment is a transfer of a positive amount, or it does nothing. -/
theorem payOut_cases (h : payOut tokens self l token receiver amount = .ok l') :
    (0 < amount.val ∧ tokens.transfer l token self receiver amount = some l') ∨ (amount.val ≤ 0 ∧ l' = l) := by
  unfold payOut at h
  split at h
  · rename_i hpos
    exact .inl ⟨(SignedInt.lt_iff 0 amount).mp hpos, transfer_eq_ok.mp h⟩
  · rename_i hpos
    cases h
    exact .inr ⟨not_lt.mp hpos, rfl⟩

/-- A payment takes its positive part from the contract and gives it to any group with its receiver. -/
theorem payOut_exact (law : tokens.Exact) (h : payOut tokens self l token receiver amount = .ok l')
    {group : Finset Address} (hr : receiver ∈ group) (hs : self ∉ group) :
    (tokens.balance l' token self).val = (tokens.balance l token self).val - max amount.val 0 ∧
      tokens.holding l' token group = tokens.holding l token group + max amount.val 0 ∧
      (0 < amount.val → amount.val ≤ (tokens.balance l token self).val) := by
  rcases payOut_cases h with ⟨hv, ht⟩ | ⟨hv, rfl⟩
  · have hne : self ≠ receiver := fun he => hs (he ▸ hr)
    rw [max_eq_left hv.le]
    exact ⟨law.sent ht hne, law.holding_received ht hs hr, fun _ => (law.covered _ _ _ _ _ _ ht).2⟩
  · rw [max_eq_right hv, Int.sub_zero, Int.add_zero]
    exact ⟨rfl, rfl, fun h => absurd h (not_lt.mpr hv)⟩

/-- Payments in one token leave the others alone. -/
theorem payOut_others (law : tokens.Exact) (h : payOut tokens self l token receiver amount = .ok l') {other : Address}
    (ho : other ≠ token) (group : Finset Address) (holder : Address) :
    tokens.balance l' other holder = tokens.balance l other holder ∧
      tokens.holding l' other group = tokens.holding l other group := by
  rcases payOut_cases h with ⟨_, ht⟩ | ⟨_, rfl⟩
  · exact ⟨law.others _ _ _ _ _ _ ht other ho holder, law.holding_others ht ho group⟩
  · exact ⟨rfl, rfl⟩

theorem payOut_not_overdrawn (law : tokens.Exact) (h : payOut tokens self l token receiver amount = .ok l')
    {other holder : Address} (hn : 0 ≤ (tokens.balance l other holder).val) :
    0 ≤ (tokens.balance l' other holder).val := by
  rcases payOut_cases h with ⟨_, ht⟩ | ⟨_, rfl⟩
  · exact law.not_overdrawn ht hn
  · exact hn

/-- No input overdraws a balance. -/
theorem not_overdrawn_step (law : tokens.Exact) {w w' : World L} {input : Input} {out : Output} {other holder : Address}
    (hn : 0 ≤ (tokens.balance w.ledger other holder).val) (h : Transition tokens self w input out w') :
    0 ≤ (tokens.balance w'.ledger other holder).val := by
  cases h with
  | initializeContract => exact hn
  | fund _ _ _ _ _ _ hm => exact law.not_overdrawn hm hn
  | settle _ _ _ _ _ _ hfirst hsecond => exact payOut_not_overdrawn law hsecond (payOut_not_overdrawn law hfirst hn)
  | cancelFunded _ _ _ _ _ _ _ _ _ _ _ _ hr => exact payOut_not_overdrawn law hr hn
  | cancelUnfunded => exact hn
  | transfer _ hm => exact law.not_overdrawn hm hn

theorem not_overdrawn (law : tokens.Exact) {ledger : L} {other holder : Address}
    (hn : 0 ≤ (tokens.balance ledger other holder).val) (inputs : List Input) :
    0 ≤ (tokens.balance (after tokens self ledger inputs).ledger other holder).val :=
  (machine tokens self).run_invariant (fun w => 0 ≤ (tokens.balance w.ledger other holder).val)
    (fun _ _ _ _ hw he => not_overdrawn_step law hw (exec_eq_ok.mp he)) hn inputs

/-- Whatever the terms and the market price, the two shares add up to the collateral. -/
theorem shares_sum {floorPrice notional marketPrice funded payout refund : I128}
    (h : settlementShares floorPrice notional marketPrice funded = .ok (payout, refund)) :
    payout.val + refund.val = funded.val := by
  unfold settlementShares at h
  split at h
  · simp only [bind_eq_ok, okOr_eq_ok] at h
    obtain ⟨_, _, _, _, _, hr, he⟩ := h
    cases he
    have := SignedInt.ofInt?_eq_some.mp hr
    omega
  · cases h
    exact Int.zero_add _

end Payments
end AgriFeed.Pricefloor
