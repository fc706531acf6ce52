import AgriFeed.Foundation.OrderStatistics
import AgriFeed.Oracle.Transition
import Mathlib.Data.List.Induction

/-! The insertion sort of pending prices and the median built on it: every access is within
bounds, the loops sort, and only the sum of two middle prices can overflow. -/
namespace AgriFeed.Oracle
open Foundation

/-- Sorting a key into the prices before it. The cell at the loop position holds a value that
was already saved: the key itself, or a price just copied one place to the right. -/
theorem shiftLarger_spec (key hole : I128) (before rest : List I128) :
    ∃ sorted, shiftLarger key before.length (before ++ hole :: rest) = .ok (sorted ++ rest) ∧
      sorted.Perm (key :: before) ∧ (before.Pairwise (· ≤ ·) → sorted.Pairwise (· ≤ ·)) := by
  induction before using List.reverseRecOn generalizing hole rest with
  | nil => exact ⟨[key], by simp [shiftLarger, setAt], .refl _, fun _ => List.pairwise_singleton _ _⟩
  | append_singleton before prev ih =>
    have hget : (getUnchecked (before ++ [prev] ++ hole :: rest) before.length : Outcome Error I128) = .ok prev := by
      rw [getUnchecked_eq_ok]
      simp
    have hset (x : I128) : (setAt (before ++ [prev] ++ hole :: rest) (before.length + 1) x : Outcome Error _) =
        .ok (before ++ [prev] ++ x :: rest) := by
      rw [setAt_of_lt (by simp)]
      simp
    rw [List.length_append, List.length_singleton, shiftLarger, hget]
    change ∃ sorted, (if prev ≤ key then _ else _) = _ ∧ _
    by_cases hle : prev ≤ key
    · refine ⟨before ++ [prev] ++ [key], ?_, ?_, ?_⟩
      · rw [if_pos hle, hset]
        simp
      · exact List.perm_append_singleton key (before ++ [prev])
      · intro hs
        have hall : ∀ x ∈ before ++ [prev], x ≤ key := by
          intro x hx
          rcases List.mem_append.mp hx with hx | hx
          · exact ((List.pairwise_append.mp hs).2.2 x hx prev (by simp)).trans hle
          · exact List.mem_singleton.mp hx ▸ hle
        exact List.pairwise_append.mpr ⟨hs, List.pairwise_singleton _ _, by simpa using hall⟩
    · obtain ⟨sorted, he, hp, hs⟩ := ih prev (prev :: rest)
      have hperm : (sorted ++ [prev]).Perm (key :: (before ++ [prev])) := hp.append_right [prev]
      refine ⟨sorted ++ [prev], ?_, hperm, ?_⟩
      · rw [if_neg hle, hset]
        change shiftLarger key before.length (before ++ [prev] ++ prev :: rest) = _
        simpa using he
      · intro hb
        obtain ⟨hbefore, _, hprev⟩ := List.pairwise_append.mp hb
        refine List.pairwise_append.mpr ⟨hs hbefore, List.pairwise_singleton _ _, ?_⟩
        intro x hx y hy
        rw [List.mem_singleton.mp hy]
        rcases List.mem_cons.mp (hp.mem_iff.mp hx) with rfl | hx
        · exact (not_le.mp hle).le
        · exact hprev x hx prev (by simp)

/-- From a sorted prefix on, the outer loop sorts the whole list. -/
theorem sortFrom_spec (before rest : List I128) (hs : before.Pairwise (· ≤ ·)) :
    ∃ sorted, sortFrom (before ++ rest).length before.length (before ++ rest) = .ok sorted ∧
      sorted.Perm (before ++ rest) ∧ sorted.Pairwise (· ≤ ·) := by
  induction rest generalizing before with
  | nil =>
    refine ⟨before, ?_, by simp, hs⟩
    rw [sortFrom, if_neg (by simp), List.append_nil]
  | cons key rest ih =>
    obtain ⟨sorted, he, hp, ho⟩ := shiftLarger_spec key key before rest
    obtain ⟨final, hf, hfp, hfs⟩ := ih sorted (ho hs)
    have hlen : sorted.length = before.length + 1 := hp.length_eq
    have hget : (getUnchecked (before ++ key :: rest) before.length : Outcome Error I128) = .ok key := by
      rw [getUnchecked_eq_ok]
      simp
    have hperm : (sorted ++ rest).Perm (before ++ key :: rest) :=
      (hp.append_right rest).trans List.perm_middle.symm
    refine ⟨final, ?_, hfp.trans hperm, hfs⟩
    rw [sortFrom, if_pos (by simp), hget, ok_bind, he, ok_bind, ← hlen, ← hperm.length_eq, hf]

/-- The hand-written sort stays within bounds and returns the one sorting of the prices. -/
theorem sortedPrices_eq (pending : List Submission) :
    sortedPrices pending = .ok (ranked (pending.map (·.price))) := by
  rw [sortedPrices]
  cases pending.map (·.price) with
  | nil => rw [sortFrom, if_neg (by simp)]; rfl
  | cons first rest =>
    obtain ⟨sorted, he, hp, hs⟩ := sortFrom_spec [first] rest (List.pairwise_singleton _ _)
    have hr : sorted = ranked (first :: rest) := eq_ranked hp hs
    rw [hr] at he
    exact he

def priceValues (pending : List Submission) : List Int := pending.map (·.price.val)

@[simp] theorem length_priceValues (pending : List Submission) : (priceValues pending).length = pending.length :=
  List.length_map _

/-- What the averaging of an even count needs: the two middle prices have a sum that fits. -/
def MiddlesFit (pending : List Submission) : Prop :=
  pending.length % 2 = 1 ∨ InRange 128 (lowerMiddle (priceValues pending) + upperMiddle (priceValues pending))

instance (pending : List Submission) : Decidable (MiddlesFit pending) := inferInstanceAs (Decidable (_ ∨ _))

theorem priceValues_pos {pending : List Submission} (hpos : ∀ sub ∈ pending, 0 < sub.price.val) :
    ∀ x ∈ priceValues pending, 0 < x := by
  intro x hx
  obtain ⟨sub, hs, rfl⟩ := List.mem_map.mp hx
  exact hpos sub hs

/-- Positive prices can only exceed the upper bound of the sum. -/
theorem middlesFit_iff {pending : List Submission} (hne : pending ≠ [])
    (hpos : ∀ sub ∈ pending, 0 < sub.price.val) :
    MiddlesFit pending ↔ pending.length % 2 = 1 ∨
      lowerMiddle (priceValues pending) + upperMiddle (priceValues pending) < 2 ^ 127 := by
  have hv : priceValues pending ≠ [] := by simpa [priceValues] using hne
  have hl := priceValues_pos hpos _ (lowerMiddle_mem hv)
  have hu := priceValues_pos hpos _ (upperMiddle_mem hv)
  exact or_congr_right (SignedInt.inRange_of_nonneg (Int.add_nonneg hl.le hu.le))

private theorem getUnchecked_ranked {pending : List Submission} {k : Nat} (h : k < pending.length) :
    ∃ x : I128, (getUnchecked (ranked (pending.map (·.price))) k : Outcome Error I128) = .ok x ∧
      x.val = (ranked (priceValues pending)).getD k 0 := by
  have hk : k < (ranked (pending.map (·.price))).length := by simpa using h
  refine ⟨_, getUnchecked_eq_ok.mpr (List.getElem?_eq_getElem hk), ?_⟩
  have hv : ranked (priceValues pending) = (ranked (pending.map (·.price))).map (·.val) := by
    rw [map_ranked _ SignedInt.le_iff, List.map_map]
    rfl
  rw [hv, List.getD_eq_getElem _ _ (by simpa using hk), List.getElem_map]

/-- Averaging fails exactly when the sum does not fit. -/
private theorem average_eq (a b : I128) :
    (do
      let sum ← okOr (a.checkedAdd b) Error.invalidPrice
      okOr (sum.checkedDiv ⟨2, by decide⟩) .invalidPrice) =
    if h : InRange 128 (a.val + b.val) then
      .ok ⟨(a.val + b.val).tdiv 2, SignedInt.inRange_tdiv_two h⟩
    else .error (.contract .invalidPrice) := by
  split
  · rename_i h
    have hadd : a.checkedAdd b = some ⟨_, h⟩ := SignedInt.ofInt?_of_inRange h
    rw [hadd]
    change okOr (SignedInt.checkedDiv _ _) _ = _
    rw [SignedInt.checkedDiv, if_neg (by decide), SignedInt.ofInt?_of_inRange (SignedInt.inRange_tdiv_two h)]
    rfl
  · rename_i h
    have hadd : a.checkedAdd b = none := SignedInt.ofInt?_eq_none.mpr h
    rw [hadd]
    rfl

/-- The median of an odd count is the middle price. -/
private theorem median_of_odd {pending : List Submission} (h : pending.length % 2 = 1) :
    ∃ m : I128, median pending = .ok m ∧ m.val = truncatedMedian (priceValues pending) := by
  obtain ⟨x, hx, hv⟩ := getUnchecked_ranked (show pending.length / 2 < pending.length by omega)
  refine ⟨x, ?_, ?_⟩
  · rw [median, sortedPrices_eq]
    change (if (ranked (pending.map (·.price))).length % 2 = 1 then _ else _) = _
    rw [length_ranked, List.length_map, if_pos h, hx]
  · rw [truncatedMedian_of_odd (by simpa using h), hv, upperMiddle, length_priceValues]

/-- Of an even count only the sum of the middle prices is checked; halving it always fits. -/
private theorem median_of_even {pending : List Submission} (hne : pending ≠ []) (h : pending.length % 2 ≠ 1) :
    ∃ a b : I128, a.val = lowerMiddle (priceValues pending) ∧ b.val = upperMiddle (priceValues pending) ∧
      median pending = (do
        let sum ← okOr (a.checkedAdd b) .invalidPrice
        okOr (sum.checkedDiv ⟨2, by decide⟩) .invalidPrice) := by
  have hpos := List.length_pos_iff.mpr hne
  obtain ⟨a, ha, hva⟩ := getUnchecked_ranked (show pending.length / 2 - 1 < pending.length by omega)
  obtain ⟨b, hb, hvb⟩ := getUnchecked_ranked (show pending.length / 2 < pending.length by omega)
  refine ⟨a, b, ?_, ?_, ?_⟩
  · rw [hva, lowerMiddle, length_priceValues, show (pending.length - 1) / 2 = pending.length / 2 - 1 by omega]
  · rw [hvb, upperMiddle, length_priceValues]
  · rw [median, sortedPrices_eq]
    change (if (ranked (pending.map (·.price))).length % 2 = 1 then _ else _) = _
    rw [length_ranked, List.length_map, if_neg h, ha, ok_bind, hb, ok_bind]

/-- The median exists exactly for a non-empty list whose middle prices have a sum that fits,
and then it is the truncated median of the integer prices. -/
theorem median_eq_ok {pending : List Submission} {m : I128} :
    median pending = .ok m ↔
      pending ≠ [] ∧ MiddlesFit pending ∧ m.val = truncatedMedian (priceValues pending) := by
  by_cases hne : pending = []
  · subst hne
    constructor
    · intro h
      rw [median, sortedPrices_eq] at h
      cases h
    · intro h
      exact absurd rfl h.1
  · by_cases hodd : pending.length % 2 = 1
    · obtain ⟨x, hx, hv⟩ := median_of_odd hodd
      constructor
      · intro h
        cases hx.symm.trans h
        exact ⟨hne, .inl hodd, hv⟩
      · rintro ⟨_, _, hm⟩
        rw [hx, SignedInt.ext (hv.trans hm.symm)]
    · obtain ⟨a, b, ha, hb, he⟩ := median_of_even hne hodd
      rw [he, average_eq, MiddlesFit, truncatedMedian, ← ha, ← hb]
      constructor
      · intro h
        split at h
        · rename_i hfit
          cases h
          exact ⟨hne, .inr hfit, rfl⟩
        · cases h
      · rintro ⟨_, hfit, hm⟩
        have hfit := hfit.resolve_left hodd
        rw [dif_pos hfit]
        exact congrArg Except.ok (SignedInt.ext hm.symm)

theorem exists_median {pending : List Submission} (hne : pending ≠ []) (h : MiddlesFit pending) :
    ∃ m, median pending = .ok m := by
  by_cases hodd : pending.length % 2 = 1
  · obtain ⟨m, hm, _⟩ := median_of_odd hodd
    exact ⟨m, hm⟩
  · obtain ⟨a, b, ha, hb, he⟩ := median_of_even hne hodd
    have hfit : InRange 128 (a.val + b.val) := by
      rw [ha, hb]
      exact h.resolve_left hodd
    exact ⟨_, by rw [he, average_eq, dif_pos hfit]⟩

/-- Otherwise a non-empty list makes the median fail with the typed price error. -/
theorem median_overflow {pending : List Submission} (hne : pending ≠ []) (h : ¬ MiddlesFit pending) :
    median pending = .error (.contract .invalidPrice) := by
  rw [MiddlesFit, not_or] at h
  obtain ⟨a, b, ha, hb, he⟩ := median_of_even hne h.1
  rw [he, average_eq, dif_neg (by rw [ha, hb]; exact h.2)]

/-- The sort returns, without an access outside the list, the one non-decreasing arrangement of the prices. What the
median then reads of a list that is not empty is inside it as well. -/
theorem sortedPrices_sorts_in_bounds (pending : List Submission) :
    (∃ sorted, sortedPrices pending = .ok sorted ∧ sorted.Perm (pending.map (·.price)) ∧ sorted.Pairwise (· ≤ ·)) ∧
    (∀ sorted : List I128, sorted.Perm (pending.map (·.price)) → sorted.Pairwise (· ≤ ·) →
      sortedPrices pending = .ok sorted) ∧
    (pending ≠ [] → median pending ≠ .error .outOfBounds ∧
      ∀ sorted, sortedPrices pending = .ok sorted →
        sorted.length / 2 < sorted.length ∧
          (sorted.length % 2 ≠ 1 → 1 ≤ sorted.length / 2 ∧ sorted.length / 2 - 1 < sorted.length)) := by
  refine ⟨⟨_, sortedPrices_eq pending, ranked_perm _, ranked_pairwise _⟩, ?_, fun hne => ⟨?_, ?_⟩⟩
  · intro sorted hp hs
    rw [sortedPrices_eq, eq_ranked hp hs]
  · by_cases hfit : MiddlesFit pending
    · obtain ⟨m, hm⟩ := exists_median hne hfit
      rw [hm]
      exact fun h => nomatch h
    · rw [median_overflow hne hfit]
      exact fun h => nomatch h
  · intro sorted he
    rw [sortedPrices_eq] at he
    have hlen : sorted.length = pending.length := by
      rw [← Except.ok.inj he, length_ranked, List.length_map]
    have hpos := List.length_pos_iff.mpr hne
    omega

end AgriFeed.Oracle
