import AgriFeed.Oracle.Batches
import AgriFeed.Oracle.Locality

/-! The order in which submissions arrived and the times their sources report are never looked at: states that
differ only there give the same results for ever. -/
namespace AgriFeed.Oracle
open Foundation

/-- A submission without the time its source reports. -/
def Submission.untimed (sub : Submission) : Address × I128 × UInt64 := (sub.node, sub.price, sub.submittedAt)

/-- Invocations that differ at most in the time a source reports. -/
inductive SameButSource : Invocation → Invocation → Prop where
  | same (tx : Invocation) : SameButSource tx tx
  | submission (env : Env) (node : Address) (asset : Asset) (price : I128) (sourceTs sourceTs' : UInt64) :
      SameButSource ⟨env, .submitPrice node asset price sourceTs⟩ ⟨env, .submitPrice node asset price sourceTs'⟩

/-- States that differ at most in the order and the source times of the submissions pending for each asset. -/
structure Reordered (s t : Storage) : Prop where
  elsewhere : t = s.withData t.pending s.history
  pending : ∀ asset, ((readPending s asset).map Submission.untimed).Perm ((readPending t asset).map Submission.untimed)

theorem Reordered.refl (st : Storage) : Reordered st st := ⟨rfl, fun _ => .refl _⟩

section Scans
variable {xs ys : List Submission}

theorem median_congr (h : (xs.map Submission.untimed).Perm (ys.map Submission.untimed)) : median xs = median ys := by
  have hprices := h.map fun sub => sub.2.1
  rw [List.map_map, List.map_map] at hprices
  have hranked : ranked (xs.map (·.price)) = ranked (ys.map (·.price)) := ranked_congr hprices
  rw [median, median, sortedPrices_eq, sortedPrices_eq, hranked]

theorem hasSubmitted_congr (h : (xs.map Submission.untimed).Perm (ys.map Submission.untimed)) (node : Address)
    (start : UInt64) : hasSubmitted xs node start = hasSubmitted ys node start := by
  have hany := h.any_eq (f := fun sub => sub.1 = node && start ≤ sub.2.2)
  rwa [List.any_map, List.any_map] at hany

end Scans

section Steps
variable {s t : Storage}

theorem Reordered.length (h : Reordered s t) (asset : Asset) :
    (readPending t asset).length = (readPending s asset).length := by
  have hlength := (h.pending asset).length_eq
  rwa [List.length_map, List.length_map, eq_comm] at hlength

theorem Reordered.setPending (h : Reordered s t) (asset : Asset) {xs ys : Option (List Submission)}
    (hperm : ((xs.getD []).map Submission.untimed).Perm ((ys.getD []).map Submission.untimed)) :
    Reordered (s.setPending asset xs) (t.setPending asset ys) := by
  refine ⟨?_, fun a => ?_⟩
  · rw [h.elsewhere]
    rfl
  · rw [readPending_setPending, readPending_setPending]
    split
    · exact hperm
    · exact h.pending a

theorem Reordered.setHistory (h : Reordered s t) (asset : Asset) (entry : Option (List PriceData)) :
    Reordered (s.setHistory asset entry) (t.setHistory asset entry) := by
  refine ⟨?_, h.pending⟩
  rw [h.elsewhere]
  rfl

/-- An accepted submission is added to both, whatever time its source reports. -/
theorem Reordered.submitted (h : Reordered s t) (asset : Asset) {sub sub' : Submission}
    (hsub : sub.untimed = sub'.untimed) :
    Reordered (s.setPending asset (some (readPending s asset ++ [sub])))
      (t.setPending asset (some (readPending t asset ++ [sub']))) := by
  refine h.setPending asset ?_
  rw [Option.getD_some, Option.getD_some, List.map_append, List.map_append, List.map_singleton, List.map_singleton,
    hsub]
  exact (h.pending asset).append_right _

/-- The scan, the count and the median cannot tell reordered lists apart, and every other check reads what
both states share. -/
theorem reordered_agrees (h : Reordered s t) {tx tx' : Invocation} (hq : SameButSource tx tx') :
    Agrees (fun x y => x.1 = y.1 ∧ Reordered x.2 y.2) (machine.exec s tx) (machine.exec t tx') := by
  have hscan (node : Address) (asset : Asset) (start : UInt64) :
      hasSubmitted ((t.pending asset).getD []) node start = hasSubmitted (readPending s asset) node start :=
    (hasSubmitted_congr (h.pending asset) node start).symm
  rw [h.elsewhere]
  cases hq with
  | submission env node asset price sourceTs sourceTs' =>
    refine .mono ?_ (submitPrice_agrees price sourceTs sourceTs' (hscan node asset _))
    rintro x y ⟨ho, hx, hy⟩
    rw [hx, hy, ← h.elsewhere]
    exact ⟨ho.symm, h.submitted asset rfl⟩
  | same =>
    obtain ⟨env, call⟩ := tx
    refine agrees_of_local (fun _ => ⟨rfl, h.pending⟩) ?_ ?_
    · intro node asset price sourceTs _
      rw [← h.elsewhere]
      exact ⟨hscan node asset _, h.submitted asset rfl⟩
    · intro asset _
      rw [← h.elsewhere]
      exact ⟨h.length asset, (median_congr (h.pending asset)).symm, rfl,
        fun _ => (h.setHistory asset _).setPending asset (.refl _)⟩

/-- Whatever states two runs started in, if those were reordered and the runs differ in source times only, their
callers see the same. -/
theorem reordered_run (h : Reordered s t) {txs txs' : List Invocation} (hq : List.Forall₂ SameButSource txs txs') :
    machine.results s txs = machine.results t txs' ∧ Reordered (machine.run s txs) (machine.run t txs') :=
  machine.lockstep machine (R := Reordered)
    (fun _ _ _ _ hr hi => machine.step_agrees machine hr (reordered_agrees hr hi)) h hq

theorem Reordered.answer_eq (h : Reordered s t) (query : Query) : answer s query = answer t query := by
  rw [h.elsewhere]
  cases query with
  | _ => rfl

end Steps

section Swaps
variable {tx : Invocation} {node : Address} {asset : Asset}

/-- A submission adds to the pending lists what is accepted of it, and changes nothing else. -/
private theorem submit_step (st : Storage) (hs : (node, asset) ∈ tx.call.submits) :
    machine.step st tx = st.withData (machine.step st tx).pending st.history ∧
      ∀ a, readPending (machine.step st tx) a = readPending st a ++ machine.log (accepted a) st [tx] := by
  obtain ⟨price, sourceTs, hcall⟩ := Call.mem_submits.mp hs
  cases he : machine.exec st tx with
  | error e =>
    rw [machine.step_rollback he]
    refine ⟨rfl, fun a => ?_⟩
    rw [machine.log_rollback _ he, machine.log_nil, List.append_nil]
  | ok out =>
    have ht := exec_eq_ok.mp he
    rw [machine.step_commit he]
    refine ⟨?_, fun a => ?_⟩
    · rw [hcall] at ht
      generalize out.1 = o, out.2 = st' at ht
      cases ht with
      | submitPrice => rfl
    · rw [machine.log_commit _ he, machine.log_nil, List.append_nil]
      rcases ht.pending_cases a with ⟨_, _, _, hown, _, _, _, _, hp⟩ | ⟨hown, _⟩ | ⟨hother, _, hp⟩
      · rw [accepted_submit hown, hp]
      · cases hcall.symm.trans hown
      · rw [accepted_other hother, hp, List.append_nil]

/-- The scan for one node passes over the submissions of another. -/
private theorem submit_unaffected (st : Storage) {tx' : Invocation} {node' : Address} {asset' : Asset}
    (hs : (node, asset) ∈ tx.call.submits) (hs' : (node', asset') ∈ tx'.call.submits) (hne : node ≠ node') :
    machine.result (machine.step st tx) tx' = machine.result st tx' := by
  obtain ⟨hstep, hpending⟩ := submit_step st hs
  obtain ⟨price, sourceTs, hcall⟩ := Call.mem_submits.mp hs'
  obtain ⟨env, call⟩ := tx'
  cases hcall
  have hadded :
      hasSubmitted (machine.log (accepted asset') st [tx]) node' (roundToWindow st env.timestamp) = false := by
    rw [hasSubmitted, List.any_eq_false]
    intro sub hsub
    obtain ⟨pre, i, post, _, _, hsplit, _, hmem⟩ := (machine.mem_log _ _ _ _).mp hsub
    obtain rfl : i = tx := by
      have hi : i ∈ pre ++ i :: post := by simp
      rw [← hsplit] at hi
      exact List.mem_singleton.mp hi
    obtain ⟨_, _, hown⟩ := Call.mem_submits.mp hs
    cases hown.symm.trans (mem_accepted.mp hmem).1
    simp [hne]
  have hscan : hasSubmitted (readPending (machine.step st tx) asset') node' (roundToWindow st env.timestamp) =
      hasSubmitted (readPending st asset') node' (roundToWindow st env.timestamp) := by
    rw [hpending, hasSubmitted, List.any_append, ← hasSubmitted, ← hasSubmitted, hadded, Bool.or_false]
  rw [hstep]
  refine (machine.result_agrees machine ?_).symm
  exact (submitPrice_agrees price sourceTs sourceTs hscan).mono fun _ _ h => h.1.symm

private theorem accepted_congr {s t : Storage} (h : machine.result s tx = machine.result t tx) (a : Asset) :
    machine.log (accepted a) s [tx] = machine.log (accepted a) t [tx] := by
  cases he : machine.exec s tx with
  | error e =>
    rw [machine.result_eq_error.mpr he] at h
    rw [machine.log_rollback _ he, machine.log_rollback _ (machine.result_eq_error.mp h.symm)]
    rfl
  | ok out =>
    have hr := machine.result_eq_ok.mpr (he.trans (by rw [machine.step_commit he]))
    rw [hr] at h
    rw [machine.log_commit _ he, machine.log_commit _ (machine.result_eq_ok.mp h.symm)]
    rfl

private theorem submits_step (st : Storage) {tx' : Invocation} {node' : Address} {asset' : Asset}
    (hs : (node, asset) ∈ tx.call.submits) (hs' : (node', asset') ∈ tx'.call.submits) (hne : node ≠ node') :
    machine.run st [tx, tx'] = st.withData (machine.run st [tx, tx']).pending st.history ∧
      ∀ a, readPending (machine.run st [tx, tx']) a =
        readPending st a ++ machine.log (accepted a) st [tx] ++ machine.log (accepted a) st [tx'] := by
  obtain ⟨hfirst, hpending⟩ := submit_step st hs
  obtain ⟨hsecond, hpending'⟩ := submit_step (machine.step st tx) hs'
  refine ⟨?_, fun a => ?_⟩
  · have hover (pending : Asset → Option (List Submission)) (history : Asset → Option (List PriceData)) :
        (machine.step st tx).withData pending history = st.withData pending history := by
      rw [hfirst]
      rfl
    have hhistory : (machine.step st tx).history = st.history := by
      rw [hfirst]
      rfl
    rw [hover, hhistory] at hsecond
    exact hsecond
  · have hunaffected := accepted_congr (submit_unaffected st hs hs' hne) a
    rw [machine.run_cons, machine.run_cons, machine.run_nil, hpending', hpending, hunaffected]

/-- Neither of two submissions by different nodes notices the other. -/
theorem swap_reordered (st : Storage) {tx' : Invocation} {node' : Address} {asset' : Asset}
    (hs : (node, asset) ∈ tx.call.submits) (hs' : (node', asset') ∈ tx'.call.submits) (hne : node ≠ node') :
    Reordered (machine.run st [tx, tx']) (machine.run st [tx', tx]) := by
  obtain ⟨hleft, hpending⟩ := submits_step st hs hs' hne
  obtain ⟨hright, hpending'⟩ := submits_step st hs' hs hne.symm
  refine ⟨?_, fun a => ?_⟩
  · rw [hright, hleft]
    rfl
  · rw [hpending, hpending', List.append_assoc, List.append_assoc]
    exact (List.perm_append_comm.append_left _).map _

private theorem swap_results (st : Storage) {tx' : Invocation} {node' : Address} {asset' : Asset}
    (hs : (node, asset) ∈ tx.call.submits) (hs' : (node', asset') ∈ tx'.call.submits) (hne : node ≠ node')
    (pre post : List Invocation) :
    machine.results st (pre ++ tx :: tx' :: post) = machine.results st pre ++
      machine.result (machine.run st pre) tx :: machine.result (machine.run st pre) tx' ::
        machine.results (machine.run (machine.run st pre) [tx, tx']) post := by
  rw [machine.results_append, Machine.results, Machine.results, submit_unaffected _ hs hs' hne]
  rfl

end Swaps

/-- From states that differ in the order and the source times of pending submissions only, every call gives the
same result and leads to such states again. So no source time matters to a run, and neither does the
order of two neighbouring submissions by different nodes. -/
theorem submission_order_and_source_time_unseen :
    (∀ s t tx tx', Reordered s t → SameButSource tx tx' →
      machine.result s tx = machine.result t tx' ∧ Reordered (machine.step s tx) (machine.step t tx')) ∧
    (∀ s t query, Reordered s t → answer s query = answer t query) ∧
    (∀ st txs txs', List.Forall₂ SameButSource txs txs' →
      machine.results st txs = machine.results st txs' ∧
        (machine.run st txs).history = (machine.run st txs').history) ∧
    ∀ st pre post tx tx' node node' asset asset', (node, asset) ∈ tx.call.submits →
      (node', asset') ∈ tx'.call.submits → node ≠ node' → tx.env.timestamp = tx'.env.timestamp →
      ∃ r r' rest,
        machine.results st (pre ++ tx :: tx' :: post) = machine.results st pre ++ r :: r' :: rest ∧
        machine.results st (pre ++ tx' :: tx :: post) = machine.results st pre ++ r' :: r :: rest ∧
        (machine.run st (pre ++ tx :: tx' :: post)).history = (machine.run st (pre ++ tx' :: tx :: post)).history := by
  have hhistory {s t : Storage} (h : Reordered s t) : s.history = t.history :=
    (congrArg Storage.history h.elsewhere).symm
  refine ⟨?_, fun s t query h => h.answer_eq query, ?_, ?_⟩
  · intro s t tx tx' h hq
    exact machine.step_agrees machine h (reordered_agrees h hq)
  · intro st txs txs' hq
    obtain ⟨hresults, hend⟩ := reordered_run (.refl st) hq
    exact ⟨hresults, hhistory hend⟩
  · intro st pre post tx tx' node node' asset asset' hs hs' hne _
    have hsame : List.Forall₂ SameButSource post post := List.forall₂_same.mpr fun tx _ => .same tx
    obtain ⟨hrest, hend⟩ := reordered_run (swap_reordered (machine.run st pre) hs hs' hne) hsame
    refine ⟨_, _, _, swap_results st hs hs' hne pre post, ?_, ?_⟩
    · rw [hrest]
      exact swap_results st hs' hs hne.symm pre post
    · rw [machine.run_append, machine.run_append]
      exact hhistory hend

end AgriFeed.Oracle
