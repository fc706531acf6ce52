import Mathlib.Order.Basic
import Mathlib.Algebra.Group.Nat.Defs
import Mathlib.Algebra.Ring.Int.Defs
import Mathlib.Algebra.Order.Group.Int
import Mathlib.Algebra.Order.Group.Unbundled.Basic

/-! Signed integers of a fixed width with checked arithmetic: a result that does not fit is absent.
Values carry their range, so an out-of-range integer cannot be built. -/
namespace AgriFeed.Foundation

/-- The range of a two's complement word of w bits. -/
def InRange (w : Nat) (x : Int) : Prop := -2 ^ (w - 1) ≤ x ∧ x < 2 ^ (w - 1)

instance (w : Nat) (x : Int) : Decidable (InRange w x) := inferInstanceAs (Decidable (_ ∧ _))

@[ext] structure SignedInt (w : Nat) where
  val : Int
  inRange : InRange w val
  deriving DecidableEq

namespace SignedInt
variable {w : Nat}

theorem val_injective : Function.Injective (val : SignedInt w → Int) := fun _ _ h => SignedInt.ext h

instance : LinearOrder (SignedInt w) := LinearOrder.lift' val val_injective

theorem le_iff (a b : SignedInt w) : a ≤ b ↔ a.val ≤ b.val := Iff.rfl

theorem lt_iff (a b : SignedInt w) : a < b ↔ a.val < b.val := Iff.rfl

theorem val_min (a b : SignedInt w) : (min a b).val = min a.val b.val := by
  rcases le_total a b with h | h
  · rw [min_eq_left h, min_eq_left ((le_iff a b).mp h)]
  · rw [min_eq_right h, min_eq_right ((le_iff b a).mp h)]

theorem bound_pos (w : Nat) : (0 : Int) < 2 ^ (w - 1) := Int.pow_pos (by decide)

instance : Zero (SignedInt w) := ⟨0, neg_nonpos.mpr (bound_pos w).le, bound_pos w⟩

@[simp] theorem val_zero : (0 : SignedInt w).val = 0 := rfl

/-- The word holding x, when x fits. -/
def ofInt? (w : Nat) (x : Int) : Option (SignedInt w) :=
  if h : InRange w x then some ⟨x, h⟩ else none

/-- The word a literal denotes; one out of range denotes zero. -/
def literal (x : Int) : SignedInt w := (ofInt? w x).getD 0

def checkedAdd (a b : SignedInt w) : Option (SignedInt w) := ofInt? w (a.val + b.val)
def checkedSub (a b : SignedInt w) : Option (SignedInt w) := ofInt? w (a.val - b.val)
def checkedMul (a b : SignedInt w) : Option (SignedInt w) := ofInt? w (a.val * b.val)

/-- Division truncates towards zero; a zero divisor and the overflowing quotient are refused. -/
def checkedDiv (a b : SignedInt w) : Option (SignedInt w) :=
  if b.val = 0 then none else ofInt? w (a.val.tdiv b.val)

theorem ofInt?_eq_some {x : Int} {c : SignedInt w} : ofInt? w x = some c ↔ c.val = x := by
  constructor
  · intro h
    simp only [ofInt?] at h
    split at h
    · cases h; rfl
    · cases h
  · rintro rfl
    simp only [ofInt?, c.inRange, dif_pos]

theorem ofInt?_of_inRange {x : Int} (h : InRange w x) : ofInt? w x = some ⟨x, h⟩ :=
  ofInt?_eq_some.mpr rfl

theorem ofInt?_eq_none {x : Int} : ofInt? w x = none ↔ ¬ InRange w x := by
  simp [ofInt?]

/-- A non-negative integer can miss the range only above it. -/
theorem inRange_of_nonneg {x : Int} (h : 0 ≤ x) : InRange w x ↔ x < 2 ^ (w - 1) :=
  ⟨fun hr => hr.2, fun hu => ⟨(neg_nonpos.mpr (bound_pos w).le).trans h, hu⟩⟩

/-- Halving a word that fits never overflows. -/
theorem inRange_tdiv_two {x : Int} (h : InRange w x) : InRange w (x.tdiv 2) := by
  have hp := bound_pos w
  obtain ⟨hl, hu⟩ := h
  rcases Int.le_total 0 x with hx | hx
  · rw [Int.tdiv_eq_ediv_of_nonneg hx]
    constructor <;> omega
  · have he : x.tdiv 2 = -(-x / 2) := by
      rw [← Int.tdiv_eq_ediv_of_nonneg (by omega : 0 ≤ -x), Int.neg_tdiv, Int.neg_neg]
    rw [he]
    constructor <;> omega

end SignedInt
end AgriFeed.Foundation
