import AgriFeed.Oracle.Median

/-! How far a minority of submissions can move the median. More than half of the positions bound it from both
sides, whatever stands at the others. -/
namespace AgriFeed.Oracle
open Foundation

section Bounds
variable {pending : List Submission} {group : Finset (Fin pending.length)} {m : I128}

/-- The median lies between the two middle prices, and each of them is within the prices of any majority. -/
theorem median_between (hg : pending.length < 2 * group.card) (hm : median pending = .ok m) :
    (∃ i ∈ group, (pending.get i).price ≤ m) ∧ ∃ i ∈ group, m ≤ (pending.get i).price := by
  obtain ⟨_, _, hv⟩ := median_eq_ok.mp hm
  obtain ⟨hlow, hhigh⟩ := average_between (lowerMiddle_le_upperMiddle (priceValues pending))
  rw [← truncatedMedian, ← hv] at hlow hhigh
  obtain ⟨i, hi, hle⟩ := exists_le_lowerMiddle (·.price.val) pending hg
  obtain ⟨j, hj, hge⟩ := exists_upperMiddle_le (·.price.val) pending hg
  exact ⟨⟨i, hi, (SignedInt.le_iff _ _).mpr (hle.trans hlow)⟩, j, hj, (SignedInt.le_iff _ _).mpr (hhigh.trans hge)⟩

/-- Two middle prices that a majority keeps low have a sum that fits. -/
theorem middlesFit_of_majority (hne : pending ≠ []) (hg : pending.length < 2 * group.card)
    (hpos : ∀ sub ∈ pending, 0 < sub.price.val) (hlow : ∀ i ∈ group, (pending.get i).price.val ≤ 2 ^ 126 - 1) :
    MiddlesFit pending := by
  have horder := lowerMiddle_le_upperMiddle (priceValues pending)
  obtain ⟨j, hj, hge⟩ := exists_upperMiddle_le (·.price.val) pending hg
  have hupper : upperMiddle (priceValues pending) ≤ 2 ^ 126 - 1 := hge.trans (hlow j hj)
  refine (middlesFit_iff hne hpos).mpr (.inr ?_)
  omega

end Bounds

section Intervals
variable {lo hi : I128} {pending : List Submission}

/-- More than half of the submissions are at prices in the interval. -/
def MostlyWithin (lo hi : I128) (pending : List Submission) : Prop :=
  pending.length < 2 * pending.countP fun sub => lo ≤ sub.price ∧ sub.price ≤ hi

instance (lo hi : I128) (pending : List Submission) : Decidable (MostlyWithin lo hi pending) :=
  inferInstanceAs (Decidable (_ < _))

theorem median_within {m : I128} (h : MostlyWithin lo hi pending) (hm : median pending = .ok m) : lo ≤ m ∧ m ≤ hi := by
  rw [MostlyWithin, ← card_positions] at h
  obtain ⟨⟨i, hlow, hle⟩, j, hhigh, hge⟩ := median_between h hm
  have hi' := of_decide_eq_true (Finset.mem_filter.mp hlow).2
  have hj' := of_decide_eq_true (Finset.mem_filter.mp hhigh).2
  exact ⟨hi'.1.trans hle, hge.trans hj'.2⟩

/-- What most submissions agree on is the median, if it is at most half of the largest word. -/
theorem median_of_agreement {price : I128} (hpos : ∀ sub ∈ pending, 0 < sub.price.val)
    (h : MostlyWithin price price pending) (hlow : price.val ≤ 2 ^ 126 - 1) : median pending = .ok price := by
  have hne : pending ≠ [] := by
    rintro rfl
    exact absurd h (Nat.lt_irrefl 0)
  have hgroup := h
  rw [MostlyWithin, ← card_positions] at hgroup
  obtain ⟨m, hm⟩ := exists_median hne (middlesFit_of_majority hne hgroup hpos fun i hi => by
    have hprice := (of_decide_eq_true (Finset.mem_filter.mp hi).2).2
    exact ((SignedInt.le_iff _ _).mp hprice).trans hlow)
  obtain ⟨hle, hge⟩ := median_within h hm
  rw [hm, le_antisymm hge hle]

end Intervals

/-- Positive prices: the median lies between the smallest and the largest price of every majority of the
submissions, and it exists whenever the prices of one such majority stay within half of the positive range. -/
theorem median_robust (pending : List Submission) (hne : pending ≠ []) (hpos : ∀ sub ∈ pending, 0 < sub.price.val)
    (group : Finset (Fin pending.length)) (hg : pending.length < 2 * group.card) :
    (∀ m, median pending = .ok m →
      (∃ i ∈ group, (pending.get i).price ≤ m) ∧ ∃ i ∈ group, m ≤ (pending.get i).price) ∧
    ((∀ i ∈ group, (pending.get i).price.val ≤ 2 ^ 126 - 1) → ∃ m, median pending = .ok m) :=
  ⟨fun _ hm => median_between hg hm, fun hlow => exists_median hne (middlesFit_of_majority hne hg hpos hlow)⟩

/-- Two ordinary prices and one at the upper end of the type. -/
def attackedPending : List Submission :=
  [⟨⟨1⟩, .literal 95, 0, 0⟩, ⟨⟨2⟩, .literal (2 ^ 127 - 1), 0, 0⟩, ⟨⟨3⟩, .literal 105, 0, 0⟩]

theorem median_of_attacked : ∃ m, median attackedPending = .ok m :=
  (median_robust attackedPending (by decide) (by decide +kernel)
    (Finset.univ.filter fun i => (attackedPending.get i).price.val < 1000) (by decide +kernel)).2 (by decide +kernel)

end AgriFeed.Oracle
