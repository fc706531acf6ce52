import Mathlib.Data.List.DropRight

/-! Logs of limited length. An appended item may push out the oldest ones, and only then is the limit of
the moment applied: what is left are the latest items of the whole log. -/
namespace AgriFeed.Foundation
variable {A : Type}

/-- How many items are left after appending one under each of the limits. -/
def retainedLength (limits : List Nat) : Nat := limits.foldl (fun h k => min (h + 1) k) 0

theorem retainedLength_concat (limits : List Nat) (k : Nat) :
    retainedLength (limits ++ [k]) = min (retainedLength limits + 1) k := by
  rw [retainedLength, List.foldl_append]
  rfl

theorem retainedLength_le (limits : List Nat) : retainedLength limits ≤ limits.length := by
  induction limits using List.reverseRecOn with
  | nil => exact le_refl _
  | append_singleton limits k ih =>
    rw [retainedLength_concat, List.length_append, List.length_singleton]
    omega

/-- Limits that are never zero always leave the latest item. -/
theorem retainedLength_pos {limits : List Nat} (hne : limits ≠ []) (hpos : ∀ k ∈ limits, 0 < k) :
    0 < retainedLength limits := by
  induction limits using List.reverseRecOn with
  | nil => exact absurd rfl hne
  | append_singleton limits k ih =>
    have hk := hpos k (by simp)
    rw [retainedLength_concat]
    omega

/-- Each item appended makes the log at most one longer, and one longer as long as the limit leaves room. -/
theorem retainedLength_append_le (limits more : List Nat) :
    retainedLength (limits ++ more) ≤ retainedLength limits + more.length := by
  induction more using List.reverseRecOn with
  | nil => rw [List.append_nil, List.length_nil, Nat.add_zero]
  | append_singleton more k ih =>
    rw [← List.append_assoc, retainedLength_concat, List.length_append, List.length_singleton]
    omega

theorem retainedLength_append_of_room {limits more : List Nat}
    (h : ∀ k ∈ more, retainedLength limits + more.length ≤ k) :
    retainedLength (limits ++ more) = retainedLength limits + more.length := by
  induction more using List.reverseRecOn with
  | nil => rw [List.append_nil, List.length_nil, Nat.add_zero]
  | append_singleton more k ih =>
    rw [List.length_append, List.length_singleton] at h ⊢
    have hlast := h k (List.mem_append_right more (List.mem_singleton_self k))
    have hrest := ih fun j hj => (Nat.le_succ _).trans (h j (List.mem_append_left [k] hj))
    rw [← List.append_assoc, retainedLength_concat, hrest]
    omega

theorem rtake_suffix (items : List A) (h : Nat) : items.rtake h <:+ items := List.drop_suffix _ _

/-- What is known to be the latest part of a mapped log is the image of the latest part of the log. -/
theorem map_rtake_of_suffix {B : Type} {f : A → B} {items : List A} {kept : List B} (h : kept <:+ items.map f) :
    (items.rtake kept.length).map f = kept := by
  rw [List.suffix_iff_eq_drop, List.length_map] at h
  rw [List.rtake, List.map_drop, ← h]

theorem length_rtake (items : List A) (h : Nat) : (items.rtake h).length = min h items.length := by
  rw [List.rtake, List.length_drop]
  omega

theorem rtake_rtake (items : List A) (h k : Nat) : (items.rtake h).rtake k = items.rtake (min k h) := by
  have hlen := length_rtake items h
  rw [List.rtake, hlen, List.rtake, List.drop_drop, List.rtake]
  congr 1
  omega

theorem getLast?_rtake {items : List A} {h : Nat} (hpos : 0 < h) : (items.rtake h).getLast? = items.getLast? := by
  cases items using List.reverseRecOn with
  | nil => rw [List.rtake_nil]
  | append_singleton items last =>
    obtain ⟨h, rfl⟩ := Nat.exists_eq_succ_of_ne_zero hpos.ne'
    rw [List.rtake_concat_succ, List.getLast?_concat, List.getLast?_concat]

/-- Cutting the latest items and a new one to a limit leaves the latest items of the longer log. -/
theorem rtake_concat_rtake (items : List A) (item : A) (h k : Nat) :
    (items.rtake h ++ [item]).rtake k = (items ++ [item]).rtake (min (h + 1) k) := by
  rw [← List.rtake_concat_succ, rtake_rtake, Nat.min_comm]

/-- What is kept of a longer log is of what was kept before and of the items appended since. -/
theorem rtake_append_suffix (items more : List A) {h k : Nat} (hk : k ≤ h + more.length) :
    (items ++ more).rtake k <:+ items.rtake h ++ more := by
  obtain ⟨dropped, hd⟩ := rtake_suffix items h
  refine List.suffix_of_suffix_length_le (rtake_suffix _ _) ⟨dropped, ?_⟩ ?_
  · rw [← List.append_assoc, hd]
  · rw [length_rtake, List.length_append, List.length_append, length_rtake]
    omega

theorem rtake_append_length (items more : List A) {h : Nat} (hh : h ≤ items.length) :
    (items ++ more).rtake (h + more.length) = items.rtake h ++ more := by
  refine (rtake_append_suffix items more (le_refl _)).eq_of_length ?_
  rw [length_rtake, List.length_append, List.length_append, length_rtake]
  omega

end AgriFeed.Foundation
