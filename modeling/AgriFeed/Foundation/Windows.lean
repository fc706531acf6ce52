import Mathlib.Data.Nat.Basic
import Mathlib.Order.Basic

/-! Fixed-width windows of a time line. Window k of width r holds the times t with
r * k ≤ t < r * (k + 1), and a time is rounded down to the start of its window. -/
namespace AgriFeed.Foundation

def windowStart (r t : Nat) : Nat := t / r * r

theorem windowStart_le (r t : Nat) : windowStart r t ≤ t := Nat.div_mul_le_self t r

theorem lt_windowStart_add {r : Nat} (hr : 0 < r) (t : Nat) : t < windowStart r t + r := by
  have h := Nat.lt_div_mul_add hr (a := t)
  exact h

theorem windowStart_mono (r : Nat) {t u : Nat} (h : t ≤ u) : windowStart r t ≤ windowStart r u :=
  Nat.mul_le_mul_right r (Nat.div_le_div_right h)

/-- Rounded times remember exactly the index of their window. -/
theorem windowStart_div {r : Nat} (hr : 0 < r) (t : Nat) : windowStart r t / r = t / r :=
  Nat.mul_div_cancel _ hr

theorem windowStart_idem {r : Nat} (hr : 0 < r) (t : Nat) : windowStart r (windowStart r t) = windowStart r t := by
  rw [windowStart, windowStart_div hr, windowStart]

theorem windowStart_eq_iff {r : Nat} (hr : 0 < r) (t u : Nat) : windowStart r t = windowStart r u ↔ t / r = u / r := by
  rw [windowStart, windowStart, Nat.mul_left_inj hr.ne']

/-- A time lies in the window of t exactly when it lies in that window's interval. -/
theorem same_window_iff {r : Nat} (hr : 0 < r) (t u : Nat) :
    u / r = t / r ↔ windowStart r t ≤ u ∧ u < windowStart r t + r := by
  constructor
  · intro h
    have he : windowStart r u = windowStart r t := by rw [windowStart, windowStart, h]
    exact ⟨he ▸ windowStart_le r u, he ▸ lt_windowStart_add hr u⟩
  · rintro ⟨hl, hu⟩
    apply le_antisymm
    · rw [← Nat.lt_succ_iff, Nat.div_lt_iff_lt_mul hr, Nat.succ_mul]
      exact hu
    · rw [Nat.le_div_iff_mul_le hr]
      exact hl

/-- The window of t is over at u once u passes its interval. -/
theorem window_over_iff {r : Nat} (hr : 0 < r) (t u : Nat) : t / r < u / r ↔ windowStart r t + r ≤ u := by
  rw [Nat.lt_iff_add_one_le, Nat.le_div_iff_mul_le hr, Nat.succ_mul, windowStart]

end AgriFeed.Foundation
