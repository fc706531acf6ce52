import AgriFeed.Foundation.Machine

/-! Runs compared with runs: input by input, and a run with the same run from which some inputs are left out.
Both comparisons need one step only, of which they prove the rest by induction. -/
namespace AgriFeed.Foundation

/-- Both fail with the same error, or both succeed with related values. -/
inductive Agrees {E A B : Type} (R : A → B → Prop) : Except E A → Except E B → Prop where
  | ok {a : A} {b : B} (related : R a b) : Agrees R (.ok a) (.ok b)
  | error (e : E) : Agrees R (.error e) (.error e)

namespace Agrees
variable {E A B C D : Type} {R : A → B → Prop}

theorem mono {Q : A → B → Prop} (h : ∀ a b, R a b → Q a b) {x : Except E A} {y : Except E B} (ha : Agrees R x y) :
    Agrees Q x y := by
  cases ha with
  | ok hr => exact .ok (h _ _ hr)
  | error e => exact .error e

theorem bind {Q : C → D → Prop} {x : Except E A} {y : Except E B} {f : A → Except E C} {g : B → Except E D}
    (ha : Agrees R x y) (h : ∀ a b, R a b → Agrees Q (f a) (g b)) : Agrees Q (x >>= f) (y >>= g) := by
  cases ha with
  | ok hr => exact h _ _ hr
  | error e => exact .error e

/-- A shared first computation leaves the comparison to what follows it. -/
theorem bind_left {x : Except E C} {f : C → Except E A} {g : C → Except E B}
    (h : ∀ c, x = .ok c → Agrees R (f c) (g c)) :
    Agrees R (x >>= f) (x >>= g) := by
  cases x with
  | error e => exact .error e
  | ok c => exact h c rfl

theorem map {Q : C → D → Prop} {f : A → C} {g : B → D} (h : ∀ a b, R a b → Q (f a) (g b)) {x : Except E A}
    {y : Except E B} (ha : Agrees R x y) : Agrees Q (x.map f) (y.map g) := by
  cases ha with
  | ok hr => exact .ok (h _ _ hr)
  | error e => exact .error e

theorem map_left {Q : C → B → Prop} {f : A → C} (h : ∀ a b, R a b → Q (f a) b) {x : Except E A} {y : Except E B}
    (ha : Agrees R x y) : Agrees Q (x.map f) y := by
  cases ha with
  | ok hr => exact .ok (h _ _ hr)
  | error e => exact .error e

/-- What is known of the first value may be used of it. -/
theorem attach {x : Except E A} {y : Except E B} (ha : Agrees R x y) : Agrees (fun a b => R a b ∧ x = .ok a) x y := by
  cases ha with
  | ok hr => exact .ok ⟨hr, rfl⟩
  | error e => exact .error e

end Agrees

/-- Like agreement, but the first may also fail with an error that the second does not know. -/
def AgreesUnless {E A B : Type} (e : E) (R : A → B → Prop) (x : Except E A) (y : Except E B) : Prop :=
  x = .error e ∨ Agrees R x y

namespace AgreesUnless
variable {E A B C D : Type} {e : E} {R : A → B → Prop}

theorem ok {a : A} {b : B} (related : R a b) : AgreesUnless e R (.ok a) (.ok b) := .inr (.ok related)

theorem error (e' : E) : AgreesUnless e R (.error e') (.error e') := .inr (.error e')

theorem bind {Q : C → D → Prop} {x : Except E A} {y : Except E B} {f : A → Except E C} {g : B → Except E D}
    (ha : AgreesUnless e R x y) (h : ∀ a b, R a b → AgreesUnless e Q (f a) (g b)) :
    AgreesUnless e Q (x >>= f) (y >>= g) := by
  rcases ha with rfl | ha
  · exact .inl rfl
  · cases ha with
    | ok hr => exact h _ _ hr
    | error e' => exact .error e'

theorem bind_left {x : Except E C} {f : C → Except E A} {g : C → Except E B}
    (h : ∀ c, x = .ok c → AgreesUnless e R (f c) (g c)) : AgreesUnless e R (x >>= f) (x >>= g) := by
  cases x with
  | error e' => exact .error e'
  | ok c => exact h c rfl

theorem map_left {Q : C → B → Prop} {f : A → C} (h : ∀ a b, R a b → Q (f a) b) {x : Except E A} {y : Except E B}
    (ha : AgreesUnless e R x y) : AgreesUnless e Q (x.map f) y := by
  rcases ha with rfl | ha
  · exact .inl rfl
  · exact .inr (ha.map_left h)

end AgreesUnless

namespace Machine
variable {S T I J E O : Type} (M : Machine S I E O) (N : Machine T J E O)

/-- What the callers of a run see, in order. -/
def results : S → List I → List (Except E O)
  | _, [] => []
  | s, i :: is => M.result s i :: results (M.step s i) is

theorem results_append (s : S) (is js : List I) :
    M.results s (is ++ js) = M.results s is ++ M.results (M.run s is) js := by
  induction is generalizing s with
  | nil => rfl
  | cons i is ih => simp only [List.cons_append, results, ih, run_cons]

/-- One step of two machines that agree on it: the same result, and again related states. -/
theorem step_agrees {R : S → T → Prop} {s : S} {t : T} {i : I} {j : J} (hr : R s t)
    (h : Agrees (fun x y => x.1 = y.1 ∧ R x.2 y.2) (M.exec s i) (N.exec t j)) :
    M.result s i = N.result t j ∧ R (M.step s i) (N.step t j) := by
  cases hm : M.exec s i with
  | error e =>
    rw [hm] at h
    cases hn : N.exec t j with
    | error e' =>
      rw [hn] at h
      cases h
      rw [M.step_rollback hm, N.step_rollback hn]
      exact ⟨by simp only [result, hm, hn, Except.map], hr⟩
    | ok y =>
      rw [hn] at h
      cases h
  | ok x =>
    rw [hm] at h
    cases hn : N.exec t j with
    | error e' =>
      rw [hn] at h
      cases h
    | ok y =>
      rw [hn] at h
      cases h with
      | ok hxy =>
        rw [M.step_commit hm, N.step_commit hn]
        exact ⟨by simp only [result, hm, hn, Except.map, hxy.1], hxy.2⟩

theorem result_agrees {s : S} {t : T} {i : I} {j : J} (h : Agrees (fun x y => x.1 = y.1) (M.exec s i) (N.exec t j)) :
    M.result s i = N.result t j :=
  (M.step_agrees N (R := fun _ _ => True) trivial (h.mono fun _ _ hxy => ⟨hxy, trivial⟩)).1

/-- Machines that agree on every step agree on every run of matching inputs. -/
theorem lockstep {R : S → T → Prop} {Q : I → J → Prop}
    (both : ∀ s t i j, R s t → Q i j → M.result s i = N.result t j ∧ R (M.step s i) (N.step t j))
    {s : S} {t : T} (hr : R s t) {is : List I} {js : List J} (hq : List.Forall₂ Q is js) :
    M.results s is = N.results t js ∧ R (M.run s is) (N.run t js) := by
  induction hq generalizing s t with
  | nil => exact ⟨rfl, hr⟩
  | cons hij _ ih =>
    obtain ⟨hres, hnext⟩ := both _ _ _ _ hr hij
    obtain ⟨hrest, hend⟩ := ih hnext
    exact ⟨by rw [results, results, hres, hrest], hend⟩

section Relation
variable {P : Type} (L : Machine T J E P) {V : O → P → Prop} {R : S → T → Prop}

/-- One step of two machines that fail alike, or succeed with related outputs and states. -/
theorem step_related {s : S} {t : T} {i : I} {j : J} (hr : R s t)
    (h : Agrees (fun x y => V x.1 y.1 ∧ R x.2 y.2) (M.exec s i) (L.exec t j)) :
    Agrees V (M.result s i) (L.result t j) ∧ R (M.step s i) (L.step t j) := by
  generalize hm : M.exec s i = x at h
  generalize hl : L.exec t j = y at h
  cases h with
  | error e =>
    rw [M.step_rollback hm, L.step_rollback hl, M.result_eq_error.mpr hm, L.result_eq_error.mpr hl]
    exact ⟨.error e, hr⟩
  | @ok a b hab =>
    rw [M.step_commit hm, L.step_commit hl, M.result_commit hm, L.result_commit hl]
    exact ⟨.ok hab.1, hab.2⟩

theorem related_run {Q : I → J → Prop}
    (both : ∀ s t i j, R s t → Q i j → Agrees (fun x y => V x.1 y.1 ∧ R x.2 y.2) (M.exec s i) (L.exec t j))
    {s : S} {t : T} (hr : R s t) {is : List I} {js : List J} (hq : List.Forall₂ Q is js) :
    List.Forall₂ (Agrees V) (M.results s is) (L.results t js) ∧ R (M.run s is) (L.run t js) := by
  induction hq generalizing s t with
  | nil => exact ⟨.nil, hr⟩
  | cons hij _ ih =>
    obtain ⟨hres, hnext⟩ := M.step_related L hr (both _ _ _ _ hr hij)
    obtain ⟨hrest, hend⟩ := ih hnext
    exact ⟨.cons hres hrest, hend⟩

/-- A relation of states that every pair of matching inputs keeps, whether they commit or not. -/
theorem run_related {Q : I → J → Prop} (both : ∀ s t i j, R s t → Q i j → R (M.step s i) (L.step t j))
    {s : S} {t : T} (hr : R s t) {is : List I} {js : List J} (hq : List.Forall₂ Q is js) :
    R (M.run s is) (L.run t js) := by
  induction hq generalizing s t with
  | nil => exact hr
  | cons hij _ ih => exact ih (both _ _ _ _ hr hij)

end Relation

section Abstraction
variable {P : Type} (view : O → P) {R : S → T → Prop}

/-- One step of a machine whose outputs are a view of the other's. -/
theorem refines_step (L : Machine T J E P) {s : S} {t : T} {i : I} {j : J} (hr : R s t)
    (h : Agrees (fun x y => view x.1 = y.1 ∧ R x.2 y.2) (M.exec s i) (L.exec t j)) :
    (M.result s i).map view = L.result t j ∧ R (M.step s i) (L.step t j) := by
  generalize hm : M.exec s i = x at h
  generalize hl : L.exec t j = y at h
  cases h with
  | error e =>
    rw [M.step_rollback hm, L.step_rollback hl]
    exact ⟨by simp only [result, hm, hl, Except.map], hr⟩
  | @ok a b hab =>
    rw [M.step_commit hm, L.step_commit hl]
    exact ⟨by simp only [result, hm, hl, Except.map, hab.1], hab.2⟩

/-- Forward simulation of a whole run, each of whose steps may rely on a condition its run is known to meet. -/
theorem refines_run (L : Machine T I E P) {A : S → I → Prop}
    (one : ∀ s t i, R s t → A s i → Agrees (fun x y => view x.1 = y.1 ∧ R x.2 y.2) (M.exec s i) (L.exec t i))
    {s : S} {t : T} (hr : R s t) {is : List I} (ha : M.Along A s is) :
    (M.results s is).map (·.map view) = L.results t is ∧ R (M.run s is) (L.run t is) := by
  induction is generalizing s t with
  | nil => exact ⟨rfl, hr⟩
  | cons i is ih =>
    obtain ⟨hres, hnext⟩ := M.refines_step view L hr (one s t i hr ha.1)
    obtain ⟨hrest, hend⟩ := ih hnext ha.2
    exact ⟨by rw [results, results, List.map_cons, hres, hrest], hend⟩

end Abstraction

section Omission
variable (K : S → I → Prop) [∀ s i, Decidable (K s i)]

/-- The inputs of a run that meet K where they come. -/
def kept : S → List I → List I
  | _, [] => []
  | s, i :: is => if K s i then i :: kept (M.step s i) is else kept (M.step s i) is

/-- What the callers of those inputs see in the whole run. -/
def keptResults : S → List I → List (Except E O)
  | _, [] => []
  | s, i :: is =>
    if K s i then M.result s i :: keptResults (M.step s i) is else keptResults (M.step s i) is

theorem kept_eq_filter (P : I → Prop) [DecidablePred P] (s : S) (is : List I) :
    M.kept (fun _ i => P i) s is = is.filter P := by
  induction is generalizing s with
  | nil => rfl
  | cons i is ih => simp only [kept, ih, List.filter_cons, decide_eq_true_eq]

theorem keptResults_append (s : S) (is js : List I) :
    M.keptResults K s (is ++ js) = M.keptResults K s is ++ M.keptResults K (M.run s is) js := by
  induction is generalizing s with
  | nil => rfl
  | cons i is ih =>
    rw [List.cons_append, keptResults, keptResults, ih, run_cons]
    split <;> rfl

variable {K}

theorem keptResults_eq_nil {is : List I} (s : S) (h : ∀ i ∈ is, ∀ s, ¬ K s i) : M.keptResults K s is = [] := by
  induction is generalizing s with
  | nil => rfl
  | cons i is ih =>
    rw [keptResults, if_neg (h i List.mem_cons_self s)]
    exact ih _ fun j hj => h j (List.mem_cons_of_mem i hj)

/-- Inputs that leave related states related can be left out of a run: whoever remains sees the same. -/
theorem unwinding {R : S → S → Prop} (omit_one : ∀ s t i, R s t → ¬ K s i → R (M.step s i) t)
    (both : ∀ s t i, R s t → K s i → M.result s i = M.result t i ∧ R (M.step s i) (M.step t i))
    {s t : S} (hr : R s t) (is : List I) :
    M.keptResults K s is = M.results t (M.kept K s is) ∧ R (M.run s is) (M.run t (M.kept K s is)) := by
  induction is generalizing s t with
  | nil => exact ⟨rfl, hr⟩
  | cons i is ih =>
    rw [keptResults, kept, run_cons]
    by_cases hk : K s i
    · obtain ⟨hres, hnext⟩ := both s t i hr hk
      obtain ⟨hrest, hend⟩ := ih hnext
      rw [if_pos hk, if_pos hk]
      exact ⟨by rw [results, hres, hrest], hend⟩
    · rw [if_neg hk, if_neg hk]
      exact ih (omit_one s t i hr hk)

/-- Several parts of a state, each with inputs that touch it and an equivalence of the states in which it is the same.
Two runs that give every part the same inputs in the same order show them the same and leave them the same. -/
theorem parts_determine_run {C : Type} {P : C → I → Prop} [∀ c, DecidablePred (P c)] {R : C → S → S → Prop}
    (equiv : ∀ c, Equivalence (R c)) (foreign : ∀ c s i, ¬ P c i → R c s (M.step s i))
    (own : ∀ c s t i, R c s t → P c i → M.result s i = M.result t i ∧ R c (M.step s i) (M.step t i))
    (s : S) {is js : List I} (h : ∀ c, is.filter (P c) = js.filter (P c)) (c : C) :
    M.keptResults (fun _ => P c) s is = M.keptResults (fun _ => P c) s js ∧ R c (M.run s is) (M.run s js) := by
  have hpart (ks : List I) : M.keptResults (fun _ => P c) s ks = M.results s (ks.filter (P c)) ∧
      R c (M.run s ks) (M.run s (ks.filter (P c))) := by
    rw [← M.kept_eq_filter (P c) s ks]
    exact M.unwinding (fun s t i hr hn => (equiv c).trans ((equiv c).symm (foreign c s i hn)) hr)
      (fun s t i hr hp => own c s t i hr hp) ((equiv c).refl s) ks
  obtain ⟨hi, hri⟩ := hpart is
  obtain ⟨hj, hrj⟩ := hpart js
  rw [h c] at hi hri
  exact ⟨hi.trans hj.symm, (equiv c).trans hri ((equiv c).symm hrj)⟩

/-- Forward simulation of what remains of a run when some inputs are left out, each of which leaves the states
related. -/
theorem refines_kept {P : Type} (view : O → P) (L : Machine T J E P) (recast : I → J) {R : S → T → Prop}
    {A : S → I → Prop}
    (omit_one : ∀ s t i, R s t → A s i → ¬ K s i → R (M.step s i) t)
    (one : ∀ s t i, R s t → A s i → K s i →
      Agrees (fun x y => view x.1 = y.1 ∧ R x.2 y.2) (M.exec s i) (L.exec t (recast i)))
    {s : S} {t : T} (hr : R s t) {is : List I} (ha : M.Along A s is) :
    (M.keptResults K s is).map (·.map view) = L.results t ((M.kept K s is).map recast) ∧
      R (M.run s is) (L.run t ((M.kept K s is).map recast)) := by
  induction is generalizing s t with
  | nil => exact ⟨rfl, hr⟩
  | cons i is ih =>
    rw [keptResults, kept, run_cons]
    by_cases hk : K s i
    · obtain ⟨hres, hnext⟩ := M.refines_step view L hr (one s t i hr ha.1 hk)
      obtain ⟨hrest, hend⟩ := ih hnext ha.2
      rw [if_pos hk, if_pos hk]
      exact ⟨by rw [List.map_cons, List.map_cons, results, hres, hrest], hend⟩
    · rw [if_neg hk, if_neg hk]
      exact ih (omit_one s t i hr ha.1 hk) ha.2

end Omission
end Machine
end AgriFeed.Foundation
