import Mathlib.Data.List.Sort
import Mathlib.Data.List.GetD
import Mathlib.Data.List.FinRange
import Mathlib.Data.Fintype.Card
import Mathlib.Algebra.Order.Group.Int

/-! Order statistics of integer lists, defined on any sorting of the list and so independent
of how a program sorts. The two middle positions coincide for an odd length. -/
namespace AgriFeed.Foundation

section Ranked
variable {A : Type} [LinearOrder A]

def ranked (xs : List A) : List A := xs.insertionSort (· ≤ ·)

theorem ranked_perm (xs : List A) : (ranked xs).Perm xs := List.perm_insertionSort (· ≤ ·) xs

theorem ranked_pairwise (xs : List A) : (ranked xs).Pairwise (· ≤ ·) := List.pairwise_insertionSort (· ≤ ·) xs

@[simp] theorem length_ranked (xs : List A) : (ranked xs).length = xs.length := (ranked_perm xs).length_eq

/-- There is only one way to sort a list. -/
theorem eq_ranked {xs ys : List A} (hp : ys.Perm xs) (hs : ys.Pairwise (· ≤ ·)) : ys = ranked xs :=
  (hp.trans (ranked_perm xs).symm).eq_of_pairwise' hs (ranked_pairwise xs)

/-- Sorting forgets the order. -/
theorem ranked_congr {xs ys : List A} (hp : xs.Perm ys) : ranked xs = ranked ys :=
  eq_ranked ((ranked_perm xs).trans hp) (ranked_pairwise xs)

theorem map_ranked {B : Type} [LinearOrder B] (f : A → B) (hf : ∀ a b, a ≤ b ↔ f a ≤ f b) (xs : List A) :
    (ranked xs).map f = ranked (xs.map f) :=
  List.map_insertionSort _ _ f xs fun a _ b _ => hf a b

end Ranked

def lowerMiddle (xs : List Int) : Int := (ranked xs).getD ((xs.length - 1) / 2) 0

def upperMiddle (xs : List Int) : Int := (ranked xs).getD (xs.length / 2) 0

/-- The middle value, or the average of the two middle values truncated towards zero. -/
def truncatedMedian (xs : List Int) : Int := (lowerMiddle xs + upperMiddle xs).tdiv 2

private theorem double_tdiv_two (a : Int) : (a + a).tdiv 2 = a := by
  rw [← Int.two_mul, Int.mul_tdiv_cancel_left _ (by decide)]

theorem middles_of_odd {xs : List Int} (h : xs.length % 2 = 1) : lowerMiddle xs = upperMiddle xs := by
  rw [lowerMiddle, upperMiddle, show (xs.length - 1) / 2 = xs.length / 2 by omega]

theorem truncatedMedian_of_odd {xs : List Int} (h : xs.length % 2 = 1) : truncatedMedian xs = upperMiddle xs := by
  rw [truncatedMedian, middles_of_odd h, double_tdiv_two]

private theorem getD_ranked_mem {xs : List Int} {k : Nat} (h : k < xs.length) : (ranked xs).getD k 0 ∈ xs := by
  rw [List.getD_eq_getElem _ _ (by simpa using h)]
  exact (ranked_perm xs).mem_iff.mp (List.getElem_mem _)

theorem lowerMiddle_mem {xs : List Int} (h : xs ≠ []) : lowerMiddle xs ∈ xs := by
  have := List.length_pos_iff.mpr h
  exact getD_ranked_mem (by omega)

theorem upperMiddle_mem {xs : List Int} (h : xs ≠ []) : upperMiddle xs ∈ xs := by
  have := List.length_pos_iff.mpr h
  exact getD_ranked_mem (by omega)

/-- The median of values that are all at least a is at least a. -/
theorem le_truncatedMedian {xs : List Int} {a : Int} (ha : 0 ≤ a) (hne : xs ≠ []) (h : ∀ x ∈ xs, a ≤ x) :
    a ≤ truncatedMedian xs := by
  have hl := h _ (lowerMiddle_mem hne)
  have hu := h _ (upperMiddle_mem hne)
  rw [truncatedMedian, Int.tdiv_eq_ediv_of_nonneg (by omega)]
  omega

theorem lowerMiddle_le_upperMiddle (xs : List Int) : lowerMiddle xs ≤ upperMiddle xs := by
  rcases Nat.lt_or_ge ((xs.length - 1) / 2) (xs.length / 2) with hlt | hge
  · have hu : xs.length / 2 < (ranked xs).length := by
      rw [length_ranked]
      omega
    rw [lowerMiddle, upperMiddle, List.getD_eq_getElem _ _ (hlt.trans hu), List.getD_eq_getElem _ _ hu]
    exact List.pairwise_iff_getElem.mp (ranked_pairwise xs) _ _ _ _ hlt
  · rw [lowerMiddle, upperMiddle, show (xs.length - 1) / 2 = xs.length / 2 by omega]

/-- The truncated average of two values lies between them. -/
theorem average_between {a b : Int} (h : a ≤ b) : a ≤ (a + b).tdiv 2 ∧ (a + b).tdiv 2 ≤ b := by
  constructor
  · calc a = (a + a).tdiv 2 := (double_tdiv_two a).symm
      _ ≤ (a + b).tdiv 2 := Int.tdiv_le_tdiv (by decide) (by omega)
  · calc (a + b).tdiv 2 ≤ (b + b).tdiv 2 := Int.tdiv_le_tdiv (by decide) (by omega)
      _ = b := double_tdiv_two b

section Majority

/-- The k-th value in order has k values and itself at or below it, and all but k values at or above it. -/
theorem countP_ranked {xs : List Int} {k : Nat} (hk : k < xs.length) :
    k < xs.countP (· ≤ (ranked xs).getD k 0) ∧ xs.length ≤ xs.countP ((ranked xs).getD k 0 ≤ ·) + k := by
  have hlen : k < (ranked xs).length := by rwa [length_ranked]
  obtain ⟨before, v, after, hsplit, hbefore⟩ :
      ∃ before v after, ranked xs = before ++ v :: after ∧ before.length = k := by
    refine ⟨(ranked xs).take k, (ranked xs)[k], (ranked xs).drop (k + 1), ?_, List.length_take_of_le hlen.le⟩
    rw [List.cons_getElem_drop_succ, List.take_append_drop]
  have hv : (ranked xs).getD k 0 = v := by
    rw [hsplit, ← hbefore, List.getD_append_right _ _ _ _ (le_refl _), Nat.sub_self]
    rfl
  have hordered := ranked_pairwise xs
  rw [hsplit] at hordered
  obtain ⟨_, hafter, hcross⟩ := List.pairwise_append.mp hordered
  have hbelow : before.countP (· ≤ v) = before.length :=
    List.countP_eq_length.mpr fun a ha => decide_eq_true (hcross a ha v List.mem_cons_self)
  have habove : after.countP (v ≤ ·) = after.length :=
    List.countP_eq_length.mpr fun a ha => decide_eq_true ((List.pairwise_cons.mp hafter).1 a ha)
  have htotal := congrArg List.length hsplit
  rw [length_ranked, List.length_append, List.length_cons] at htotal
  rw [hv, ← (ranked_perm xs).countP_eq, ← (ranked_perm xs).countP_eq, hsplit, List.countP_append, List.countP_append,
    List.countP_cons_of_pos (by simp), List.countP_cons_of_pos (by simp), hbelow, habove]
  omega

/-- Counting the values with a property is counting their positions. -/
theorem card_positions {B : Type} (xs : List B) (p : B → Bool) :
    (Finset.univ.filter fun i => p (xs.get i)).card = xs.countP p := by
  rw [← List.toFinset_finRange, (List.nodup_finRange _).card_eq_countP]
  conv_rhs => rw [← List.map_get_finRange xs, List.countP_map]
  simp only [Bool.decide_eq_true, Function.comp_def]

/-- A property of more values than a group of positions leaves out holds somewhere in the group. -/
theorem exists_mem_of_countP {B : Type} (xs : List B) (p : B → Bool) (group : Finset (Fin xs.length))
    {k : Nat} (hk : k ≤ xs.countP p) (h : xs.length < k + group.card) : ∃ i ∈ group, p (xs.get i) := by
  rw [← card_positions] at hk
  obtain ⟨i, hi⟩ := Finset.inter_nonempty_of_card_lt_card_add_card
    (Finset.filter_subset (fun i => p (xs.get i)) Finset.univ) (Finset.subset_univ group)
    (by rw [Finset.card_fin]; omega)
  obtain ⟨hp, hg⟩ := Finset.mem_inter.mp hi
  exact ⟨i, hg, (Finset.mem_filter.mp hp).2⟩

variable {B : Type} (f : B → Int) (xs : List B) {group : Finset (Fin xs.length)}

/-- More than half of the positions hold a value up to the lower middle, and one from the upper middle on. -/
theorem exists_le_lowerMiddle (h : xs.length < 2 * group.card) :
    ∃ i ∈ group, f (xs.get i) ≤ lowerMiddle (xs.map f) := by
  have hpos : group.card ≤ xs.length := card_finset_fin_le group
  have hrank : (xs.length - 1) / 2 < (xs.map f).length := by
    rw [List.length_map]
    omega
  have hcount := (countP_ranked hrank).1
  rw [List.countP_map] at hcount
  obtain ⟨i, hi, hp⟩ := exists_mem_of_countP xs _ group hcount (by omega)
  refine ⟨i, hi, ?_⟩
  rw [lowerMiddle, List.length_map]
  exact of_decide_eq_true hp

theorem exists_upperMiddle_le (h : xs.length < 2 * group.card) :
    ∃ i ∈ group, upperMiddle (xs.map f) ≤ f (xs.get i) := by
  have hpos : group.card ≤ xs.length := card_finset_fin_le group
  have hrank : xs.length / 2 < (xs.map f).length := by
    rw [List.length_map]
    omega
  have hcount := (countP_ranked hrank).2
  rw [List.countP_map, List.length_map] at hcount
  obtain ⟨i, hi, hp⟩ := exists_mem_of_countP xs _ group (Nat.sub_le_iff_le_add.mpr hcount) (by omega)
  refine ⟨i, hi, ?_⟩
  rw [upperMiddle, List.length_map]
  exact of_decide_eq_true hp

end Majority

section Shifts

/-- The k-th value in order is at most any value that more than k elements do not exceed. -/
theorem getD_ranked_le {xs : List Int} {k : Nat} {v : Int} (h : k < xs.countP (· ≤ v)) : (ranked xs).getD k 0 ≤ v := by
  have habove := (countP_ranked (h.trans_le List.countP_le_length)).2
  by_contra hlt
  have hmono : xs.countP ((ranked xs).getD k 0 ≤ ·) ≤ xs.countP fun x => ¬ x ≤ v := by
    refine List.countP_mono_left fun x _ hx => ?_
    have hle := of_decide_eq_true hx
    exact decide_eq_true (by omega)
  have htotal := List.length_eq_countP_add_countP (fun x => decide (x ≤ v)) (l := xs)
  simp only [Bool.not_eq_true, decide_eq_false_iff_not] at htotal
  omega

/-- Counting in a list whose elements imply the property for those of another. -/
theorem countP_le_of_forall₂ {A B : Type} {R : A → B → Prop} {p : A → Bool} {q : B → Bool}
    (h : ∀ a b, R a b → q b → p a) {xs : List A} {ys : List B} (hr : List.Forall₂ R xs ys) :
    ys.countP q ≤ xs.countP p := by
  induction hr with
  | nil => exact le_rfl
  | @cons a b xs ys hab _ ih =>
    rw [List.countP_cons, List.countP_cons]
    by_cases hq : q b
    · rw [if_pos hq, if_pos (h a b hab hq)]
      exact Nat.succ_le_succ ih
    · rw [if_neg hq]
      exact ih.trans (Nat.le_add_right _ _)

variable {xs ys : List Int} {c : Int}

/-- Where every value has grown by some amount, so has the k-th in order. -/
theorem getD_ranked_shift (h : List.Forall₂ (fun a b => a + c ≤ b) xs ys) {k : Nat} (hk : k < xs.length) :
    (ranked xs).getD k 0 + c ≤ (ranked ys).getD k 0 := by
  have hbelow := (countP_ranked (h.length_eq ▸ hk)).1
  have hcount : ys.countP (· ≤ (ranked ys).getD k 0) ≤ xs.countP (· ≤ (ranked ys).getD k 0 - c) := by
    refine countP_le_of_forall₂ (fun a b hab hb => ?_) h
    have hle := of_decide_eq_true hb
    exact decide_eq_true (by omega)
  have hle := getD_ranked_le (hbelow.trans_le hcount)
  omega

/-- And so has the median, as long as no value is negative. -/
theorem truncatedMedian_shift (h : List.Forall₂ (fun a b => a + c ≤ b) xs ys) (hne : xs ≠ [])
    (hx : ∀ x ∈ xs, 0 ≤ x) (hy : ∀ y ∈ ys, 0 ≤ y) : truncatedMedian xs + c ≤ truncatedMedian ys := by
  have hpos := List.length_pos_iff.mpr hne
  have hne' : ys ≠ [] := List.length_pos_iff.mp (h.length_eq ▸ hpos)
  have hlower : lowerMiddle xs + c ≤ lowerMiddle ys := by
    have hshift := getD_ranked_shift h (k := (xs.length - 1) / 2) (by omega)
    rwa [lowerMiddle, lowerMiddle, ← h.length_eq]
  have hupper : upperMiddle xs + c ≤ upperMiddle ys := by
    have hshift := getD_ranked_shift h (k := xs.length / 2) (by omega)
    rwa [upperMiddle, upperMiddle, ← h.length_eq]
  have hxl := hx _ (lowerMiddle_mem hne)
  have hxu := hx _ (upperMiddle_mem hne)
  have hyl := hy _ (lowerMiddle_mem hne')
  have hyu := hy _ (upperMiddle_mem hne')
  rw [truncatedMedian, truncatedMedian, Int.tdiv_eq_ediv_of_nonneg (by omega), Int.tdiv_eq_ediv_of_nonneg (by omega)]
  omega

end Shifts
end AgriFeed.Foundation
