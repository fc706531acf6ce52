import Mathlib.Order.Basic
import Mathlib.Logic.Function.Basic

/-! Stored entries that a host keeps up to some ledger only. A renewal moves that ledger further away when it has come
close. How the host does so is a parameter with the laws that its callers rely on. -/
namespace AgriFeed.Foundation

/-- How long an entry can be kept, how long a new one is, and what is left of a lifetime after asking to extend it to a
target if it is below a threshold. -/
structure Tenure where
  longest : Nat
  initial : Nat
  extend : (remaining threshold target : Nat) → Nat

namespace Tenure

/-- Below the threshold the target is reached, above it nothing changes, and at it either may be the case. -/
structure Lawful (host : Tenure) : Prop where
  below : ∀ remaining threshold target, remaining < threshold → remaining ≤ target →
    host.extend remaining threshold target = target
  above : ∀ remaining threshold target, threshold < remaining → host.extend remaining threshold target = remaining
  otherwise : ∀ remaining threshold target,
    host.extend remaining threshold target = remaining ∨ host.extend remaining threshold target = target

/-- The last ledger of an entry after a renewal that is due once half of the longest lifetime is over. -/
def renew (host : Tenure) (now last : Nat) : Nat := now + host.extend (last - now) (host.longest / 2) host.longest

variable {host : Tenure}

private theorem extend_cases (law : host.Lawful) (remaining : Nat) :
    (remaining ≤ host.longest / 2 ∧ host.extend remaining (host.longest / 2) host.longest = host.longest) ∨
      (host.longest / 2 ≤ remaining ∧ host.extend remaining (host.longest / 2) host.longest = remaining) := by
  rcases Nat.lt_trichotomy remaining (host.longest / 2) with h | h | h
  · exact .inl ⟨Nat.le_of_lt h, law.below _ _ _ h (by omega)⟩
  · rcases law.otherwise remaining (host.longest / 2) host.longest with he | he
    · exact .inr ⟨Nat.le_of_eq h.symm, he⟩
    · exact .inl ⟨Nat.le_of_eq h, he⟩
  · exact .inr ⟨Nat.le_of_lt h, law.above _ _ _ h⟩

/-- After a renewal at least half of the longest lifetime is left. -/
theorem half_le_renew (law : host.Lawful) (now last : Nat) : now + host.longest / 2 ≤ host.renew now last := by
  rw [renew]
  rcases extend_cases law (last - now) with ⟨_, he⟩ | ⟨_, he⟩ <;> omega

/-- A renewal takes no ledgers away. -/
theorem le_renew (law : host.Lawful) (now last : Nat) : last ≤ host.renew now last := by
  rw [renew]
  rcases extend_cases law (last - now) with ⟨_, he⟩ | ⟨_, he⟩ <;> omega

theorem renew_le (law : host.Lawful) {now last : Nat} (h : last ≤ now + host.longest) :
    host.renew now last ≤ now + host.longest := by
  rw [renew]
  rcases extend_cases law (last - now) with ⟨_, he⟩ | ⟨_, he⟩ <;> omega

end Tenure

/-- A host that extends at the threshold as well. -/
def ledgerTenure (longest initial : Nat) : Tenure where
  longest := longest
  initial := initial
  extend remaining threshold target := if remaining ≤ threshold ∧ remaining ≤ target then target else remaining

theorem ledgerTenure_lawful (longest initial : Nat) : (ledgerTenure longest initial).Lawful := by
  refine ⟨fun r t e ht he => if_pos ⟨Nat.le_of_lt ht, he⟩, fun r t e ht => if_neg fun h => ?_, fun r t e => ?_⟩
  · exact absurd h.1 (Nat.not_le.mpr ht)
  · rcases ite_eq_or_eq (r ≤ t ∧ r ≤ e) e r with h | h
    · exact .inr h
    · exact .inl h

end AgriFeed.Foundation
