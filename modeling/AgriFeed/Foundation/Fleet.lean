import AgriFeed.Foundation.Lockstep
import Mathlib.Logic.Equiv.Defs
import Mathlib.Logic.Function.Basic

/-! A family of machines that each have a state of their own and all share one more part of the state. A member
sees of the others only what they do to the shared part. Where it could take that for inputs of its own, every
joint run is a run of that member alone. -/
namespace AgriFeed.Foundation.Machine
variable {K W S L I E O : Type} [DecidableEq K] (parts : W ≃ S × L) (M : K → Machine W I E O)

/-- What one member works on: its own state and the shared one. -/
def member (k : K) (st : (K → S) × L) : W := parts.symm (st.1 k, st.2)

def fleet : Machine ((K → S) × L) (K × I) E O where
  exec st call :=
    match (M call.1).exec (member parts call.1 st) call.2 with
    | .ok (o, w) => .ok (o, (Function.update st.1 call.1 (parts w).1, (parts w).2))
    | .error e => .error e

section Steps
variable {st : (K → S) × L} {j k : K} {i : I}

theorem fleet_exec_ok {o : O} {w : W} (h : (M k).exec (member parts k st) i = .ok (o, w)) :
    (fleet parts M).exec st (k, i) = .ok (o, (Function.update st.1 k (parts w).1, (parts w).2)) := by
  simp only [fleet, h]

theorem fleet_exec_error {e : E} (h : (M k).exec (member parts k st) i = .error e) :
    (fleet parts M).exec st (k, i) = .error e := by
  simp only [fleet, h]

theorem fleet_result : (fleet parts M).result st (k, i) = (M k).result (member parts k st) i := by
  cases h : (M k).exec (member parts k st) i with
  | error e => rw [result, result, fleet_exec_error parts M h, h]; rfl
  | ok out => rw [result, result, fleet_exec_ok parts M h, h]; rfl

/-- The member that is called makes its own step. -/
theorem member_step_own :
    member parts k ((fleet parts M).step st (k, i)) = (M k).step (member parts k st) i := by
  cases h : (M k).exec (member parts k st) i with
  | error e => rw [(fleet parts M).step_rollback (fleet_exec_error parts M h), (M k).step_rollback h]
  | ok out =>
    rw [(fleet parts M).step_commit (fleet_exec_ok parts M h), (M k).step_commit h]
    simp only [member, Function.update_self]
    exact parts.symm_apply_apply out.2

/-- Every other member keeps its own state and finds the shared one as the called member has left it. -/
theorem member_step_other (hne : j ≠ k) :
    member parts j ((fleet parts M).step st (k, i)) =
      parts.symm (st.1 j, (parts ((M k).step (member parts k st) i)).2) := by
  cases h : (M k).exec (member parts k st) i with
  | error e =>
    rw [(fleet parts M).step_rollback (fleet_exec_error parts M h), (M k).step_rollback h]
    simp only [member, Equiv.apply_symm_apply]
  | ok out =>
    rw [(fleet parts M).step_commit (fleet_exec_ok parts M h), (M k).step_commit h]
    simp only [member, Function.update_of_ne hne]

end Steps

section Runs
variable (own : I → Prop) [DecidablePred own] (allowed : K → I → Prop)

/-- What the others may do, member j can take for inputs that are not its own. -/
def Relayed (j : K) : Prop :=
  ∀ (st : (K → S) × L) (k : K) (i : I), k ≠ j → allowed k i →
    ∃ seen : List I, (∀ x ∈ seen, ¬ own x) ∧
      (M j).run (member parts j st) seen = member parts j ((fleet parts M).step st (k, i))

/-- The calls that a member gets itself. -/
def addressed (j : K) (calls : List (K × I)) : List I :=
  (calls.filter fun call => call.1 = j ∧ own call.2).map Prod.snd

theorem addressed_cons_own {j : K} {i : I} (hi : own i) (calls : List (K × I)) :
    addressed own j ((j, i) :: calls) = i :: addressed own j calls := by
  simp only [addressed, List.filter_cons, decide_eq_true_eq, hi, and_self, if_true, List.map_cons]

theorem addressed_cons_other {j : K} {call : K × I} (h : ¬ (call.1 = j ∧ own call.2)) (calls : List (K × I)) :
    addressed own j (call :: calls) = addressed own j calls := by
  rw [addressed, List.filter_cons, if_neg (by simpa using h), addressed]

variable {own allowed}

/-- A run of the fleet is a run of each member on its own calls, between which it sees what the others do. The
callers of the member see the same in both. -/
theorem member_run {j : K} (relayed : Relayed parts M own allowed j) (st : (K → S) × L) (calls : List (K × I))
    (h : ∀ call ∈ calls, allowed call.1 call.2) :
    ∃ inputs : List I,
      (M j).run (member parts j st) inputs = member parts j ((fleet parts M).run st calls) ∧
      inputs.filter own = addressed own j calls ∧
      (M j).keptResults (fun _ i => own i) (member parts j st) inputs =
        (fleet parts M).keptResults (fun _ call => call.1 = j ∧ own call.2) st calls ∧
      ∀ (B : Type) (f : W → I → O → List B), (∀ w i o, ¬ own i → f w i o = []) →
        (M j).log f (member parts j st) inputs =
          (fleet parts M).log (fun st call o => if call.1 = j then f (member parts j st) call.2 o else []) st
            calls := by
  induction calls generalizing st with
  | nil => exact ⟨[], rfl, rfl, rfl, fun _ _ _ => rfl⟩
  | cons call calls ih =>
    obtain ⟨k, i⟩ := call
    obtain ⟨inputs, hrun, hown, hresults, hlog⟩ :=
      ih ((fleet parts M).step st (k, i)) fun c hc => h c (List.mem_cons_of_mem _ hc)
    by_cases hk : k = j
    · subst hk
      rw [member_step_own] at hrun hresults
      refine ⟨i :: inputs, hrun, ?_, ?_, fun B f hf => ?_⟩
      · by_cases hi : own i
        · rw [addressed_cons_own own hi, List.filter_cons, if_pos (by simpa using hi), hown]
        · rw [addressed_cons_other own (fun hc => hi hc.2), List.filter_cons, if_neg (by simpa using hi), hown]
      · by_cases hi : own i
        · rw [keptResults, keptResults, if_pos hi, if_pos ⟨rfl, hi⟩, hresults, fleet_result]
        · rw [keptResults, keptResults, if_neg hi, if_neg fun hc => hi hc.2, hresults]
      · have htail := hlog B f hf
        rw [member_step_own] at htail
        cases he : (M k).exec (member parts k st) i with
        | error e =>
          rw [(M k).step_rollback he] at htail
          rw [(M k).log_rollback f he, (fleet parts M).log_rollback _ (fleet_exec_error parts M he), htail,
            (fleet parts M).step_rollback (fleet_exec_error parts M he)]
        | ok out =>
          rw [(M k).step_commit he] at htail
          rw [(M k).log_commit f he, (fleet parts M).log_commit _ (fleet_exec_ok parts M he), htail,
            (fleet parts M).step_commit (fleet_exec_ok parts M he), if_pos rfl]
    · obtain ⟨seen, hforeign, hseen⟩ := relayed st k i hk (h _ List.mem_cons_self)
      rw [← hseen] at hrun hresults
      refine ⟨seen ++ inputs, ?_, ?_, ?_, fun B f hf => ?_⟩
      · rw [run_append]
        exact hrun
      · have hnone : seen.filter own = [] := List.filter_eq_nil_iff.mpr fun x hx => by simpa using hforeign x hx
        rw [List.filter_append, hnone, List.nil_append, hown, addressed_cons_other own fun hc => hk hc.1]
      · rw [keptResults_append, (M j).keptResults_eq_nil _ fun x hx _ => hforeign x hx, List.nil_append, hresults,
          keptResults, if_neg fun hc => hk hc.1]
      · have htail := hlog B f hf
        rw [← hseen] at htail
        rw [log_append, (M j).log_eq_nil f _ fun x hx w o => hf w x o (hforeign x hx), List.nil_append, htail]
        cases he : (fleet parts M).exec st (k, i) with
        | error e =>
          rw [(fleet parts M).log_rollback _ he, (fleet parts M).step_rollback he]
        | ok out =>
          rw [(fleet parts M).log_commit _ he, (fleet parts M).step_commit he, if_neg hk, List.nil_append]

end Runs
end AgriFeed.Foundation.Machine
