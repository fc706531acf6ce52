import Mathlib.Algebra.Ring.Int.Defs
import Mathlib.Algebra.BigOperators.Group.List.Basic
import Mathlib.Data.List.Basic
import Mathlib.Order.Basic

/-! Deterministic machines whose inputs commit atomically or are rolled back whole.
A run never stops: a failed input leaves the state as it was and the next one is tried. -/
namespace AgriFeed.Foundation

structure Machine (S I E O : Type) where
  exec : S → I → Except E (O × S)

namespace Machine
variable {S I E O B : Type} (M : Machine S I E O)

/-- A committed input moves to its successor, a failed one is rolled back. -/
def step (s : S) (i : I) : S :=
  match M.exec s i with
  | .ok (_, s') => s'
  | .error _ => s

def run (s : S) (is : List I) : S := is.foldl M.step s

/-- What the caller of an input sees: its output, or why it was rolled back. -/
def result (s : S) (i : I) : Except E O := (M.exec s i).map Prod.fst

def Commits (s : S) (i : I) : Prop := (M.result s i).isOk

instance (s : S) (i : I) : Decidable (M.Commits s i) := inferInstanceAs (Decidable (_ = true))

/-- What the committed inputs of a run contribute, in order. -/
def log (f : S → I → O → List B) : S → List I → List B
  | _, [] => []
  | s, i :: is =>
    (match M.exec s i with
      | .ok (o, _) => f s i o
      | .error _ => []) ++ log f (M.step s i) is

/-- Every input of the run meets P in the state it is applied to. -/
def Along (P : S → I → Prop) : S → List I → Prop
  | _, [] => True
  | s, i :: is => P s i ∧ Along P (M.step s i) is

instance decidableAlong (P : S → I → Prop) [∀ s i, Decidable (P s i)] : ∀ s is, Decidable (M.Along P s is)
  | _, [] => isTrue trivial
  | s, i :: is =>
    have := decidableAlong P (M.step s i) is
    inferInstanceAs (Decidable (P s i ∧ M.Along P (M.step s i) is))

theorem step_commit {s s' : S} {i : I} {o : O} (h : M.exec s i = .ok (o, s')) : M.step s i = s' := by
  simp only [step, h]

theorem step_rollback {s : S} {i : I} {e : E} (h : M.exec s i = .error e) : M.step s i = s := by
  simp only [step, h]

/-- A property of a state survives an input if it survives its commit. -/
theorem step_preserves {Inv : S → Prop} {s : S} {i : I} (h : Inv s)
    (commit : ∀ o s', M.exec s i = .ok (o, s') → Inv s') : Inv (M.step s i) := by
  cases he : M.exec s i with
  | error e => rwa [M.step_rollback he]
  | ok out =>
    rw [M.step_commit he]
    exact commit out.1 out.2 he

theorem result_eq_ok {s : S} {i : I} {o : O} : M.result s i = .ok o ↔ M.exec s i = .ok (o, M.step s i) := by
  cases h : M.exec s i with
  | error e => simp [result, h, Except.map]
  | ok out => simp [result, step, h, Except.map, Prod.ext_iff]

theorem result_commit {s s' : S} {i : I} {o : O} (h : M.exec s i = .ok (o, s')) : M.result s i = .ok o :=
  M.result_eq_ok.mpr (by rwa [M.step_commit h])

theorem result_eq_error {s : S} {i : I} {e : E} : M.result s i = .error e ↔ M.exec s i = .error e := by
  cases h : M.exec s i <;> simp [result, h, Except.map]

theorem commits_iff {s : S} {i : I} : M.Commits s i ↔ ∃ o s', M.exec s i = .ok (o, s') := by
  cases h : M.exec s i with
  | error e => simp [Commits, result, h, Except.map, Except.isOk, Except.toBool]
  | ok out =>
    exact ⟨fun _ => ⟨out.1, out.2, rfl⟩, fun _ => by simp [Commits, result, h, Except.map, Except.isOk, Except.toBool]⟩

theorem commits_of_ok {s s' : S} {i : I} {o : O} (h : M.exec s i = .ok (o, s')) : M.Commits s i :=
  M.commits_iff.mpr ⟨o, s', h⟩

theorem not_commits {s : S} {i : I} {e : E} (h : M.exec s i = .error e) : ¬ M.Commits s i := by
  intro hc
  obtain ⟨_, _, hok⟩ := M.commits_iff.mp hc
  cases h.symm.trans hok

theorem step_of_not_commits {s : S} {i : I} (h : ¬ M.Commits s i) : M.step s i = s := by
  cases he : M.exec s i with
  | error e => exact M.step_rollback he
  | ok out => exact absurd (M.commits_of_ok he) h

@[simp] theorem run_nil (s : S) : M.run s [] = s := rfl

@[simp] theorem run_cons (s : S) (i : I) (is : List I) : M.run s (i :: is) = M.run (M.step s i) is := rfl

theorem run_append (s : S) (is js : List I) : M.run s (is ++ js) = M.run (M.run s is) js :=
  List.foldl_append

theorem run_concat (s : S) (is : List I) (i : I) : M.run s (is ++ [i]) = M.step (M.run s is) i :=
  M.run_append s is [i]

theorem run_commit {s s' : S} {is : List I} {i : I} {o : O} (h : M.exec (M.run s is) i = .ok (o, s')) :
    M.run s (is ++ [i]) = s' := by
  rw [run_concat, M.step_commit h]

@[simp] theorem log_nil (f : S → I → O → List B) (s : S) : M.log f s [] = [] := rfl

theorem log_commit (f : S → I → O → List B) {s s' : S} {i : I} {o : O} (h : M.exec s i = .ok (o, s'))
    (is : List I) : M.log f s (i :: is) = f s i o ++ M.log f s' is := by
  simp only [log, h, M.step_commit h]

theorem log_rollback (f : S → I → O → List B) {s : S} {i : I} {e : E} (h : M.exec s i = .error e)
    (is : List I) : M.log f s (i :: is) = M.log f s is := by
  simp only [log, h, M.step_rollback h, List.nil_append]

theorem log_append (f : S → I → O → List B) (s : S) (is js : List I) :
    M.log f s (is ++ js) = M.log f s is ++ M.log f (M.run s is) js := by
  induction is generalizing s with
  | nil => rfl
  | cons i is ih => simp only [List.cons_append, log, ih, run_cons, List.append_assoc]

theorem log_eq_nil (f : S → I → O → List B) {is : List I} (s : S) (h : ∀ i ∈ is, ∀ s o, f s i o = []) :
    M.log f s is = [] := by
  induction is generalizing s with
  | nil => rfl
  | cons i is ih =>
    have htail := ih (M.step s i) fun j hj => h j (List.mem_cons_of_mem i hj)
    cases he : M.exec s i with
    | error e =>
      rw [M.step_rollback he] at htail
      rw [M.log_rollback f he, htail]
    | ok out =>
      rw [M.step_commit he] at htail
      rw [M.log_commit f he, h i List.mem_cons_self, htail, List.append_nil]

/-- A logged item was contributed by one committed input of the run. -/
theorem mem_log (f : S → I → O → List B) (s : S) (is : List I) (b : B) :
    b ∈ M.log f s is ↔ ∃ pre i post o s', is = pre ++ i :: post ∧
      M.exec (M.run s pre) i = .ok (o, s') ∧ b ∈ f (M.run s pre) i o := by
  induction is generalizing s with
  | nil => simp
  | cons j is ih =>
    constructor
    · intro hb
      rcases List.mem_append.mp hb with hb | hb
      · cases he : M.exec s j with
        | error e => simp [he] at hb
        | ok out => exact ⟨[], j, is, out.1, out.2, rfl, he, by simpa [he] using hb⟩
      · obtain ⟨pre, i, post, o, s', rfl, he, hf⟩ := (ih _).mp hb
        exact ⟨j :: pre, i, post, o, s', rfl, he, hf⟩
    · rintro ⟨pre, i, post, o, s', hs, he, hf⟩
      rcases List.cons_eq_append_iff.mp hs with ⟨rfl, hs⟩ | ⟨pre, rfl, rfl⟩
      · obtain ⟨rfl, rfl⟩ := List.cons.inj hs
        rw [run_nil] at he hf
        rw [M.log_commit f he]
        exact List.mem_append_left _ hf
      · exact List.mem_append_right _ ((ih _).mpr ⟨pre, i, post, o, s', rfl, he, hf⟩)

/-- Checking a run input by input is checking it at every split of the run. -/
theorem along_iff (P : S → I → Prop) (s : S) (is : List I) :
    M.Along P s is ↔ ∀ pre i post, is = pre ++ i :: post → P (M.run s pre) i := by
  induction is generalizing s with
  | nil => simp [Along]
  | cons j is ih =>
    constructor
    · rintro ⟨hp, hr⟩ pre i post hs
      rcases List.cons_eq_append_iff.mp hs with ⟨rfl, hs⟩ | ⟨pre, rfl, rfl⟩
      · obtain ⟨rfl, rfl⟩ := List.cons.inj hs
        exact hp
      · exact (ih _).mp hr pre i post rfl
    · intro h
      exact ⟨h [] j is rfl, (ih _).mpr fun pre i post hs => h (j :: pre) i post (by rw [hs]; rfl)⟩

theorem along_append (P : S → I → Prop) (s : S) (is js : List I) :
    M.Along P s (is ++ js) ↔ M.Along P s is ∧ M.Along P (M.run s is) js := by
  induction is generalizing s with
  | nil => simp [Along]
  | cons i is ih => simp only [List.cons_append, Along, ih, run_cons, and_assoc]

theorem along_mono {P Q : S → I → Prop} (h : ∀ s i, P s i → Q s i) {s : S} {is : List I} (hp : M.Along P s is) :
    M.Along Q s is := by
  induction is generalizing s with
  | nil => trivial
  | cons i is ih => exact ⟨h s i hp.1, ih hp.2⟩

/-- A condition on the inputs alone can be checked input by input. -/
theorem along_inputs {P : I → Prop} (s : S) {is : List I} (h : ∀ i ∈ is, P i) : M.Along (fun _ i => P i) s is := by
  induction is generalizing s with
  | nil => trivial
  | cons i is ih => exact ⟨h i List.mem_cons_self, ih _ fun j hj => h j (List.mem_cons_of_mem i hj)⟩

/-- Two conditions that agree wherever a third one holds are met by the same of its runs. -/
theorem along_congr {A P Q : S → I → Prop} (h : ∀ s i, A s i → (P s i ↔ Q s i)) {s : S} {is : List I}
    (ha : M.Along A s is) : M.Along P s is ↔ M.Along Q s is := by
  induction is generalizing s with
  | nil => exact Iff.rfl
  | cons i is ih => exact and_congr (h s i ha.1) (ih ha.2)

section Invariants

/-- One-step preservation by committed inputs carries an invariant through every run. -/
theorem run_invariant (Inv : S → Prop)
    (commit : ∀ s i o s', Inv s → M.exec s i = .ok (o, s') → Inv s')
    {s : S} (h : Inv s) (is : List I) : Inv (M.run s is) := by
  induction is generalizing s with
  | nil => exact h
  | cons i is ih =>
    apply ih
    exact M.step_preserves h (commit s i · · h)

/-- The same rule under a condition P on each step: it also delivers what the
invariant and the condition give at each step. -/
theorem along_of_invariant (Inv : S → Prop) {P Q : S → I → Prop}
    (commit : ∀ s i o s', Inv s → P s i → M.exec s i = .ok (o, s') → Inv s')
    (here : ∀ s i, Inv s → P s i → Q s i)
    {s : S} (h : Inv s) {is : List I} (hp : M.Along P s is) :
    M.Along Q s is ∧ Inv (M.run s is) := by
  induction is generalizing s with
  | nil => exact ⟨trivial, h⟩
  | cons i is ih =>
    obtain ⟨hi, hr⟩ := hp
    have hn : Inv (M.step s i) := M.step_preserves h (commit s i · · h hi)
    exact ⟨⟨here s i h hi, (ih hn hr).1⟩, (ih hn hr).2⟩

variable {T : Type} [Preorder T] (clock : I → T)

/-- The inputs of a run come at non-decreasing times. -/
def Timely (is : List I) : Prop := (is.map clock).Pairwise (· ≤ ·)

instance [DecidableLE T] (is : List I) : Decidable (Timely clock is) := inferInstanceAs (Decidable (List.Pairwise _ _))

theorem timely_append {is js : List I} :
    Timely clock (is ++ js) ↔ Timely clock is ∧ Timely clock js ∧ ∀ i ∈ is, ∀ j ∈ js, clock i ≤ clock j := by
  simp only [Timely, List.map_append, List.pairwise_append, List.forall_mem_map]

/-- Invariants that speak about the current time may be weakened as time passes;
the committed input restores them at its own time. -/
theorem along_timed (Inv : S → T → Prop) (later : ∀ s t t', Inv s t → t ≤ t' → Inv s t')
    (commit : ∀ s i o s', Inv s (clock i) → M.exec s i = .ok (o, s') → Inv s' (clock i))
    {s : S} {t : T} (h : Inv s t) {is : List I} (ordered : Timely clock is) (start : ∀ i ∈ is, t ≤ clock i) :
    M.Along (fun s i => Inv s (clock i)) s is ∧ ∀ u, t ≤ u → (∀ i ∈ is, clock i ≤ u) → Inv (M.run s is) u := by
  induction is generalizing s t with
  | nil => exact ⟨trivial, fun u hu _ => later s t u h hu⟩
  | cons i is ih =>
    have hnow : Inv s (clock i) := later s t _ h (start i List.mem_cons_self)
    have hn : Inv (M.step s i) (clock i) := M.step_preserves hnow (commit s i · · hnow)
    obtain ⟨hfirst, hrest⟩ := List.pairwise_cons.mp ordered
    have htail := ih hn hrest fun j hj => hfirst _ (List.mem_map_of_mem hj)
    exact ⟨⟨hnow, htail.1⟩,
      fun u _ hb => htail.2 u (hb i List.mem_cons_self) fun j hj => hb j (List.mem_cons_of_mem i hj)⟩

/-- The invariant holds in every state the run goes through, its ends included. -/
def Always (Inv : S → Prop) (s : S) (is : List I) : Prop := ∀ pre, pre <+: is → Inv (M.run s pre)

theorem always_nil {Inv : S → Prop} {s : S} : M.Always Inv s [] ↔ Inv s := by
  constructor
  · intro h
    exact h [] (List.prefix_refl _)
  · intro h pre hp
    rwa [List.prefix_nil.mp hp]

theorem always_cons {Inv : S → Prop} {s : S} {i : I} {is : List I} :
    M.Always Inv s (i :: is) ↔ Inv s ∧ M.Always Inv (M.step s i) is := by
  constructor
  · intro h
    exact ⟨h [] List.nil_prefix, fun pre hp => h (i :: pre) (List.cons_prefix_cons.mpr ⟨rfl, hp⟩)⟩
  · intro h pre hp
    cases pre with
    | nil => exact h.1
    | cons j pre =>
      obtain ⟨rfl, htail⟩ := List.cons_prefix_cons.mp hp
      exact h.2 pre htail

theorem Always.start {Inv : S → Prop} {s : S} {is : List I} (h : M.Always Inv s is) : Inv s := h [] List.nil_prefix

/-- When a condition on the next input decides whether an invariant survives it, the invariant
holds throughout a run exactly when each input of the run meets the condition. -/
theorem always_iff_along (Inv : S → Prop) {A P : S → I → Prop}
    (here : ∀ s i, A s i → Inv s → (Inv (M.step s i) ↔ P s i))
    {s : S} (h : Inv s) {is : List I} (ha : M.Along A s is) : M.Always Inv s is ↔ M.Along P s is := by
  induction is generalizing s with
  | nil => exact iff_of_true (M.always_nil.mpr h) trivial
  | cons i is ih =>
    have hi := here s i ha.1 h
    rw [M.always_cons]
    constructor
    · intro hr
      have hn := Always.start M hr.2
      exact ⟨hi.mp hn, (ih hn ha.2).mp hr.2⟩
    · intro hr
      have hn := hi.mpr hr.1
      exact ⟨h, (ih hn ha.2).mpr hr.2⟩

/-- Invariants that relate a state to what was logged on the way to it. -/
theorem log_invariant (f : S → I → O → List B) (Inv : List B → S → Prop) {A : S → I → Prop}
    (commit : ∀ items s i o s', Inv items s → A s i → M.exec s i = .ok (o, s') → Inv (items ++ f s i o) s')
    {items : List B} {s : S} (h : Inv items s) {is : List I} (ha : M.Along A s is) :
    Inv (items ++ M.log f s is) (M.run s is) := by
  induction is generalizing items s with
  | nil => rwa [log_nil, List.append_nil]
  | cons i is ih =>
    have htail := ha.2
    rw [run_cons]
    cases he : M.exec s i with
    | error e =>
      rw [M.step_rollback he] at htail ⊢
      rw [M.log_rollback f he]
      exact ih h htail
    | ok out =>
      rw [M.step_commit he] at htail ⊢
      rw [M.log_commit f he, ← List.append_assoc]
      exact ih (commit items s i out.1 out.2 h ha.1 he) htail

end Invariants

section Conservation

/-- Items enter a run, wait in the state and leave it in the order they came. -/
theorem log_balance (view : S → List B) (entering leaving : S → I → O → List B)
    (commit : ∀ s i o s', M.exec s i = .ok (o, s') → leaving s i o ++ view s' = view s ++ entering s i o)
    (s : S) (is : List I) :
    M.log leaving s is ++ view (M.run s is) = view s ++ M.log entering s is := by
  induction is generalizing s with
  | nil => simp
  | cons i is ih =>
    rw [run_cons]
    cases he : M.exec s i with
    | error e => rw [M.log_rollback _ he, M.log_rollback _ he, M.step_rollback he, ih]
    | ok out =>
      have hc := commit s i out.1 out.2 he
      rw [M.log_commit _ he, M.log_commit _ he, M.step_commit he, List.append_assoc, ih,
        ← List.append_assoc, hc, List.append_assoc]

/-- A view that only drops items from its front keeps the latest of what entered it. -/
theorem log_suffix (view : S → List B) (entering : S → I → O → List B)
    (commit : ∀ s i o s', M.exec s i = .ok (o, s') → view s' <:+ view s ++ entering s i o)
    (s : S) (is : List I) : view (M.run s is) <:+ view s ++ M.log entering s is := by
  induction is generalizing s with
  | nil => simp
  | cons i is ih =>
    rw [run_cons]
    cases he : M.exec s i with
    | error e =>
      rw [M.log_rollback _ he, M.step_rollback he]
      exact ih s
    | ok out =>
      rw [M.log_commit _ he, M.step_commit he]
      obtain ⟨dropped, hd⟩ := commit s i out.1 out.2 he
      apply (ih out.2).trans
      rw [← List.append_assoc, ← hd, List.append_assoc]
      exact List.suffix_append _ _

theorem log_flatMap {C : Type} (f : S → I → O → List B) (g : B → List C) (s : S) (is : List I) :
    M.log (fun s i o => (f s i o).flatMap g) s is = (M.log f s is).flatMap g := by
  induction is generalizing s with
  | nil => rfl
  | cons i is ih =>
    cases he : M.exec s i with
    | error e => rw [M.log_rollback _ he, M.log_rollback _ he, ih]
    | ok out => rw [M.log_commit _ he, M.log_commit _ he, ih, List.flatMap_append]

theorem log_map {C : Type} (f : S → I → O → List B) (g : B → C) (s : S) (is : List I) :
    M.log (fun s i o => (f s i o).map g) s is = (M.log f s is).map g := by
  simp only [List.map_eq_flatMap]
  exact M.log_flatMap f (fun b => [g b]) s is

/-- What the committed inputs of a run amount to. -/
def total (f : S → I → O → Int) (s : S) (is : List I) : Int := (M.log (fun s i o => [f s i o]) s is).sum

theorem total_commit (f : S → I → O → Int) {s s' : S} {i : I} {o : O} (h : M.exec s i = .ok (o, s')) (is : List I) :
    M.total f s (i :: is) = f s i o + M.total f s' is := by
  rw [total, M.log_commit _ h, List.sum_append, List.sum_singleton, total]

theorem total_rollback (f : S → I → O → Int) {s : S} {i : I} {e : E} (h : M.exec s i = .error e) (is : List I) :
    M.total f s (i :: is) = M.total f s is := by
  rw [total, M.log_rollback _ h, total]

theorem total_add (f g : S → I → O → Int) (s : S) (is : List I) :
    M.total (fun s i o => f s i o + g s i o) s is = M.total f s is + M.total g s is := by
  induction is generalizing s with
  | nil => rfl
  | cons i is ih =>
    cases he : M.exec s i with
    | error e => rw [M.total_rollback _ he, M.total_rollback _ he, M.total_rollback _ he, ih]
    | ok out =>
      rw [M.total_commit _ he, M.total_commit _ he, M.total_commit _ he, ih]
      omega

/-- A measure changes by what flows in less what flows out, over any run whose inputs meet a condition
under which one input does. -/
theorem total_balance (measure : S → Int) (inflow outflow : S → I → O → Int) {A : S → I → Prop}
    (commit : ∀ s i o s', A s i → M.exec s i = .ok (o, s') → measure s + inflow s i o = measure s' + outflow s i o)
    {s : S} {is : List I} (ha : M.Along A s is) :
    measure s + M.total inflow s is = measure (M.run s is) + M.total outflow s is := by
  induction is generalizing s with
  | nil => rfl
  | cons i is ih =>
    have htail := ih ha.2
    rw [run_cons]
    cases he : M.exec s i with
    | error e =>
      rw [M.step_rollback he] at htail ⊢
      rw [M.total_rollback _ he, M.total_rollback _ he, htail]
    | ok out =>
      have hc := commit s i out.1 out.2 ha.1 he
      rw [M.step_commit he] at htail ⊢
      rw [M.total_commit _ he, M.total_commit _ he]
      omega

end Conservation

end Machine
end AgriFeed.Foundation
