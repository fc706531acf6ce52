import AgriFeed.Foundation.Lockstep

/-! Two machines side by side. Their inputs come in any order, and each input of the second machine is
read through the state the first one has at that moment. -/
namespace AgriFeed.Foundation.Machine
variable {S I E O T J F P : Type} (M : Machine S I E O) (N : Machine T J F P) (view : S → J → J)

def interleave : Machine (S × T) (I ⊕ J) (E ⊕ F) (O ⊕ P) where
  exec st input :=
    match input with
    | .inl i =>
      match M.exec st.1 i with
      | .ok (o, s) => .ok (.inl o, (s, st.2))
      | .error e => .error (.inl e)
    | .inr j =>
      match N.exec st.2 (view st.1 j) with
      | .ok (p, t) => .ok (.inr p, (st.1, t))
      | .error f => .error (.inr f)

theorem interleave_step_inl (s : S) (t : T) (i : I) :
    (M.interleave N view).step (s, t) (.inl i) = (M.step s i, t) := by
  simp only [step, interleave]
  cases M.exec s i <;> rfl

theorem interleave_step_inr (s : S) (t : T) (j : J) :
    (M.interleave N view).step (s, t) (.inr j) = (s, N.step t (view s j)) := by
  simp only [step, interleave]
  cases N.exec t (view s j) <;> rfl

theorem interleave_commits_inl (s : S) (t : T) (i : I) :
    (M.interleave N view).Commits (s, t) (.inl i) ↔ M.Commits s i := by
  simp only [Commits, result, interleave]
  cases M.exec s i <;> rfl

theorem interleave_commits_inr (s : S) (t : T) (j : J) :
    (M.interleave N view).Commits (s, t) (.inr j) ↔ N.Commits t (view s j) := by
  simp only [Commits, result, interleave]
  cases N.exec t (view s j) <;> rfl

theorem interleave_result_inr {s : S} {t : T} {j : J} {p : P} :
    (M.interleave N view).result (s, t) (.inr j) = .ok (.inr p) ↔ N.result t (view s j) = .ok p := by
  simp only [result, interleave]
  cases N.exec t (view s j) <;> simp [Except.map]

/-- A failure of the second machine comes from an input of its own. -/
theorem interleave_error_inr {s : S} {t : T} {i : I ⊕ J} {f : F}
    (h : (M.interleave N view).result (s, t) i = .error (.inr f)) :
    ∃ j, i = .inr j ∧ N.result t (view s j) = .error f := by
  cases i with
  | inl i =>
    simp only [result, interleave] at h
    cases he : M.exec s i <;> simp [he, Except.map] at h
  | inr j =>
    refine ⟨j, rfl, ?_⟩
    simp only [result, interleave] at h ⊢
    cases he : N.exec t (view s j) <;> simp [he, Except.map] at h ⊢
    exact h

/-- Inputs of the first machine leave the second one alone, and go through if they would in a run of their own. -/
theorem interleave_run_inl (s : S) (t : T) (is : List I) :
    (M.interleave N view).run (s, t) (is.map .inl) = (M.run s is, t) ∧
      ((M.interleave N view).Along (M.interleave N view).Commits (s, t) (is.map .inl) ↔ M.Along M.Commits s is) := by
  induction is generalizing s with
  | nil => exact ⟨rfl, Iff.rfl⟩
  | cons i is ih =>
    obtain ⟨hrun, halong⟩ := ih (M.step s i)
    rw [← interleave_step_inl M N view] at hrun halong
    exact ⟨hrun, and_congr (M.interleave_commits_inl N view s t i) halong⟩

/-- The first machine runs on its own inputs, the second on some readings of its own. -/
theorem interleave_run_inputs (s : S) (t : T) (is : List (I ⊕ J)) :
    ∃ js, (M.interleave N view).run (s, t) is = (M.run s (is.filterMap Sum.getLeft?), N.run t js) ∧
      ∀ j ∈ js, ∃ s', ∃ j' ∈ is.filterMap Sum.getRight?, j = view s' j' := by
  induction is generalizing s t with
  | nil => exact ⟨[], rfl, fun _ hm => (nomatch hm)⟩
  | cons input is ih =>
    cases input with
    | inl i =>
      obtain ⟨js, hr, hjs⟩ := ih (M.step s i) t
      exact ⟨js, by rw [run_cons, interleave_step_inl, hr]; rfl, hjs⟩
    | inr j =>
      obtain ⟨js, hr, hjs⟩ := ih s (N.step t (view s j))
      refine ⟨view s j :: js, by rw [run_cons, interleave_step_inr, hr]; rfl, fun k hm => ?_⟩
      rcases List.mem_cons.mp hm with rfl | hm
      · exact ⟨s, j, List.mem_cons_self, rfl⟩
      · obtain ⟨s', j', hj, he⟩ := hjs k hm
        exact ⟨s', j', List.mem_cons_of_mem _ hj, he⟩

theorem interleave_run (s : S) (t : T) (is : List (I ⊕ J)) :
    ∃ js, (M.interleave N view).run (s, t) is = (M.run s (is.filterMap Sum.getLeft?), N.run t js) := by
  obtain ⟨js, hr, _⟩ := M.interleave_run_inputs N view s t is
  exact ⟨js, hr⟩

/-- What the committed inputs of the first machine contribute to a joint run. -/
def leftLog {B : Type} (f : S → I → O → List B) (st : S × T) (input : I ⊕ J) (out : O ⊕ P) : List B :=
  match input, out with
  | .inl i, .inl o => f st.1 i o
  | _, _ => []

/-- They contribute what they would in a run of their own. -/
theorem interleave_log {B : Type} (f : S → I → O → List B) (s : S) (t : T) (is : List (I ⊕ J)) :
    (M.interleave N view).log (leftLog f) (s, t) is = M.log f s (is.filterMap Sum.getLeft?) := by
  induction is generalizing s t with
  | nil => rfl
  | cons input is ih =>
    cases input with
    | inl i =>
      cases he : M.exec s i with
      | error e =>
        have hj : (M.interleave N view).exec (s, t) (.inl i) = .error (.inl e) := by simp only [interleave, he]
        rw [Machine.log_rollback _ _ hj, ih]
        exact (M.log_rollback f he _).symm
      | ok out =>
        have hj : (M.interleave N view).exec (s, t) (.inl i) = .ok (.inl out.1, (out.2, t)) := by
          simp only [interleave, he]
        rw [Machine.log_commit _ _ hj, ih]
        exact (M.log_commit f he _).symm
    | inr j =>
      have hnext := ih s (N.step t (view s j))
      rw [← interleave_step_inr M N view] at hnext
      cases he : (M.interleave N view).exec (s, t) (.inr j) with
      | error e =>
        rw [Machine.step_rollback _ he] at hnext
        rw [Machine.log_rollback _ _ he]
        exact hnext
      | ok out =>
        rw [Machine.step_commit _ he] at hnext
        rw [Machine.log_commit _ _ he]
        exact hnext

section Abstraction
variable {S' T' J' O' P' : Type} (M' : Machine S' I E O') (N' : Machine T' J' F P') (view' : S' → J' → J')
  {f : O → O'} {g : P → P'} {R : S → S' → Prop} {Q : T → T' → Prop} {s : S} {s' : S'} {t : T} {t' : T'}

/-- What corresponds in a pair: the outputs of either side, and the states of both. -/
def PairFollows (f : O → O') (g : P → P') (R : S → S' → Prop) (Q : T → T' → Prop) (x : (O ⊕ P) × S × T)
    (y : (O' ⊕ P') × S' × T') : Prop :=
  Sum.map f g x.1 = y.1 ∧ R x.2.1 y.2.1 ∧ Q x.2.2 y.2.2

/-- A step on one side follows the step of that side, whatever is on the other. -/
theorem interleave_agrees_inl (hq : Q t t') {i : I}
    (h : Agrees (fun x y => f x.1 = y.1 ∧ R x.2 y.2) (M.exec s i) (M'.exec s' i)) :
    Agrees (PairFollows f g R Q) ((M.interleave N view).exec (s, t) (.inl i))
      ((M'.interleave N' view').exec (s', t') (.inl i)) := by
  simp only [interleave]
  generalize M.exec s i = x at h
  generalize M'.exec s' i = y at h
  cases h with
  | ok hxy => exact .ok ⟨congrArg Sum.inl hxy.1, hxy.2, hq⟩
  | error e => exact .error _

theorem interleave_agrees_inr (hr : R s s') {e : F} {j : J} {j' : J'}
    (h : AgreesUnless e (fun x y => g x.1 = y.1 ∧ Q x.2 y.2) (N.exec t (view s j)) (N'.exec t' (view' s' j'))) :
    AgreesUnless (.inr e) (PairFollows f g R Q) ((M.interleave N view).exec (s, t) (.inr j))
      ((M'.interleave N' view').exec (s', t') (.inr j')) := by
  simp only [interleave]
  generalize N.exec t (view s j) = x at h
  generalize N'.exec t' (view' s' j') = y at h
  rcases h with rfl | h
  · exact .inl rfl
  · cases h with
    | ok hxy => exact .ok ⟨congrArg Sum.inr hxy.1, hr, hxy.2⟩
    | error e => exact .error _

end Abstraction

end AgriFeed.Foundation.Machine
