import AgriFeed.Foundation.Machine
import Mathlib.Data.List.Induction

/-! What has held since some input of a run. A fact that some inputs establish and others end is a fact about the
state exactly when the run has an input that established it and none after it that ended it. -/
namespace AgriFeed.Foundation.Machine
variable {S I E O : Type} (M : Machine S I E O)

/-- One input of the run has met Sets where it came, and none of those after it has met Clears. -/
def Since (Sets Clears : S → I → Prop) (s : S) (is : List I) : Prop :=
  ∃ pre i post, is = pre ++ i :: post ∧ Sets (M.run s pre) i ∧
    M.Along (fun s i => ¬ Clears s i) (M.run s (pre ++ [i])) post

variable {Sets Clears : S → I → Prop} {s : S} {i : I} {is : List I}

theorem since_nil : ¬ M.Since Sets Clears s [] := by
  rintro ⟨pre, i, post, hs, _⟩
  exact List.cons_ne_nil _ _ (List.append_eq_nil_iff.mp hs.symm).2

theorem since_cons :
    M.Since Sets Clears s (i :: is) ↔
      (Sets s i ∧ M.Along (fun s i => ¬ Clears s i) (M.step s i) is) ∨ M.Since Sets Clears (M.step s i) is := by
  constructor
  · rintro ⟨pre, j, post, hs, hset, hkept⟩
    rcases List.cons_eq_append_iff.mp hs with ⟨rfl, hs⟩ | ⟨pre, rfl, rfl⟩
    · obtain ⟨rfl, rfl⟩ := List.cons.inj hs
      exact .inl ⟨hset, hkept⟩
    · exact .inr ⟨pre, j, post, rfl, hset, hkept⟩
  · rintro (⟨hset, hkept⟩ | ⟨pre, j, post, rfl, hset, hkept⟩)
    · exact ⟨[], i, is, rfl, hset, hkept⟩
    · exact ⟨i :: pre, j, post, rfl, hset, hkept⟩

/-- The last input has just established the fact, or it was there and the last input has not ended it. -/
theorem since_concat :
    M.Since Sets Clears s (is ++ [i]) ↔
      Sets (M.run s is) i ∨ (M.Since Sets Clears s is ∧ ¬ Clears (M.run s is) i) := by
  induction is generalizing s with
  | nil =>
    rw [List.nil_append, since_cons]
    exact ⟨fun h => .inl (h.elim And.left fun h => absurd h M.since_nil),
      fun h => .inl (h.elim (⟨·, trivial⟩) fun h => absurd h.1 M.since_nil)⟩
  | cons j is ih =>
    rw [List.cons_append, since_cons, ih, since_cons, along_append, run_cons]
    simp only [Along, and_true]
    tauto

instance decidableSince [∀ s i, Decidable (Sets s i)] [∀ s i, Decidable (Clears s i)] :
    ∀ s is, Decidable (M.Since Sets Clears s is)
  | _, [] => isFalse M.since_nil
  | s, i :: is =>
    have := decidableSince (M.step s i) is
    decidable_of_iff _ M.since_cons.symm

/-- Where only committed inputs establish or end the fact, only they need to be looked at. -/
theorem step_iff_of_commit (Holds : S → Prop) (sets : Sets s i → M.Commits s i) (clears : Clears s i → M.Commits s i)
    (commit : ∀ o s', M.exec s i = .ok (o, s') → (Holds s' ↔ Sets s i ∨ (Holds s ∧ ¬ Clears s i))) :
    Holds (M.step s i) ↔ Sets s i ∨ (Holds s ∧ ¬ Clears s i) := by
  cases he : M.exec s i with
  | error e =>
    have hn := M.not_commits he
    rw [M.step_rollback he]
    constructor
    · intro h
      exact .inr ⟨h, fun hc => hn (clears hc)⟩
    · intro h
      exact (h.resolve_left fun hs => hn (sets hs)).1
  | ok out =>
    rw [M.step_commit he]
    exact commit out.1 out.2 he

/-- One step carries the fact to every state of a run that starts without it. -/
theorem holds_iff_since (Holds : S → Prop) {A : S → I → Prop}
    (here : ∀ s i, A s i → (Holds (M.step s i) ↔ Sets s i ∨ (Holds s ∧ ¬ Clears s i)))
    (hn : ¬ Holds s) (ha : M.Along A s is) : Holds (M.run s is) ↔ M.Since Sets Clears s is := by
  induction is using List.reverseRecOn with
  | nil => exact iff_of_false hn M.since_nil
  | append_singleton is i ih =>
    obtain ⟨hbefore, hlast, _⟩ := (M.along_append A s is [i]).mp ha
    rw [M.run_concat, here _ _ hlast, ih hbefore, M.since_concat]

end AgriFeed.Foundation.Machine
