import AgriFeed.Foundation.Since
import AgriFeed.Oracle.Invariants

/-! The duplicate rule of submissions. The contract scans the pending list for a submission recorded since the
start of the current window, over a run that is a submission recorded in the current window and not yet
finalized. -/
namespace AgriFeed.Oracle
open Foundation

/-- The invocation has submitted a price of the node for the asset, at a time in the window of now. -/
def SubmittedIn (resolution now : Nat) (node : Address) (asset : Asset) (st : Storage) (tx : Invocation) : Prop :=
  (node, asset) ∈ tx.call.submits ∧ machine.Commits st tx ∧ tx.env.timestamp.toNat / resolution = now / resolution

/-- The invocation has finalized the asset. -/
def Finalized (asset : Asset) (st : Storage) (tx : Invocation) : Prop :=
  asset ∈ tx.call.finalizes ∧ machine.Commits st tx

instance (resolution now : Nat) (node : Address) (asset : Asset) (st : Storage) (tx : Invocation) :
    Decidable (SubmittedIn resolution now node asset st tx) :=
  inferInstanceAs (Decidable (_ ∧ _ ∧ _))

instance (asset : Asset) (st : Storage) (tx : Invocation) : Decidable (Finalized asset st tx) :=
  inferInstanceAs (Decidable (_ ∧ _))

/-- The pending list has a submission of the node from the window of now. -/
def PendingIn (resolution now : Nat) (node : Address) (asset : Asset) (st : Storage) : Prop :=
  ∃ sub ∈ readPending st asset, sub.node = node ∧ sub.submittedAt.toNat / resolution = now / resolution

section Scan
variable {st : Storage} {pending : List Submission} {node : Address} {now : UInt64}

/-- The scan finds every submission of the current window. -/
theorem hasSubmitted_of_window (hc : Configured st) {sub : Submission} (hs : sub ∈ pending) (hn : sub.node = node)
    (hw : sub.submittedAt.toNat / (resolution st).toNat = now.toNat / (resolution st).toNat) :
    hasSubmitted pending node (roundToWindow st now) = true := by
  rw [hasSubmitted, List.any_eq_true]
  refine ⟨sub, hs, ?_⟩
  rw [Bool.and_eq_true, decide_eq_true_iff, decide_eq_true_iff, UInt64.le_iff_toNat_le, hc.roundToWindow_toNat]
  exact ⟨hn, ((same_window_iff hc.resolution_pos _ _).mp hw).1⟩

/-- It finds nothing else, as long as no submission is from the future. -/
theorem window_of_hasSubmitted (hc : Configured st) (hpast : ∀ sub ∈ pending, sub.submittedAt.toNat ≤ now.toNat)
    (h : hasSubmitted pending node (roundToWindow st now) = true) :
    ∃ sub ∈ pending, sub.node = node ∧
      sub.submittedAt.toNat / (resolution st).toNat = now.toNat / (resolution st).toNat := by
  rw [hasSubmitted, List.any_eq_true] at h
  obtain ⟨sub, hs, h⟩ := h
  rw [Bool.and_eq_true, decide_eq_true_iff, decide_eq_true_iff, UInt64.le_iff_toNat_le, hc.roundToWindow_toNat] at h
  have hend := (hpast sub hs).trans_lt (lt_windowStart_add hc.resolution_pos now.toNat)
  exact ⟨sub, hs, h.1, (same_window_iff hc.resolution_pos _ _).mpr ⟨h.2, hend⟩⟩

end Scan

section Steps
variable {st st' : Storage} {tx : Invocation} {out : Output}

/-- A submission of the window is pending after an invocation that has submitted it, or if it was pending and the
invocation has not finalized the asset. -/
private theorem pendingIn_step {resolution now : Nat} {node : Address} {asset : Asset} (st : Storage)
    (tx : Invocation) :
    PendingIn resolution now node asset (machine.step st tx) ↔
      SubmittedIn resolution now node asset st tx ∨
        (PendingIn resolution now node asset st ∧ ¬ Finalized asset st tx) := by
  refine machine.step_iff_of_commit _ (fun h => h.2.1) (fun h => h.2) fun out st' he => ?_
  have hc := machine.commits_of_ok he
  rw [SubmittedIn, Finalized, PendingIn, PendingIn]
  simp only [hc, true_and, and_true, Call.mem_submits, Call.mem_finalizes]
  rcases (exec_eq_ok.mp he).pending_cases asset with ⟨_, _, _, hcall, _, _, _, _, hp⟩ | ⟨hcall, hp⟩ | ⟨hs, hf, hp⟩
  · rw [hcall, hp]
    simp [or_and_right, exists_or, or_comm]
  · rw [hcall, hp]
    simp
  · rw [hp]
    simp [hs, hf]

/-- Submissions of one node that wait for the same asset are from different windows. -/
structure WindowsApart (st : Storage) : Prop where
  configured : st = .deployed ∨ Configured st
  apart : ∀ asset, (readPending st asset).Pairwise fun a b => a.node = b.node →
    a.submittedAt.toNat / (resolution st).toNat ≠ b.submittedAt.toNat / (resolution st).toNat

private theorem windowsApart_step (hi : WindowsApart st) (ht : Transition tx.env st tx.call out st') :
    WindowsApart st' := by
  have hconf := configured_step hi.configured ht
  rcases ht.fresh_or_configured hi.configured with ⟨rfl, _, _, _, _, hcall⟩ | ⟨hc, hres⟩
  · rw [hcall] at ht
    cases ht with
    | initializeContract => exact ⟨.inr hconf, fun _ => .nil⟩
  · have hr : resolution st' = resolution st := congrArg (Option.getD · 0) hres
    refine ⟨.inr hconf, fun asset => ?_⟩
    rw [hr]
    rcases ht.pending_cases asset with ⟨node, price, ts, _, _, _, _, hfresh, hp⟩ | ⟨_, hp⟩ | ⟨_, _, hp⟩
    · rw [hp]
      refine List.pairwise_append.mpr ⟨hi.apart asset, List.pairwise_singleton _ _, ?_⟩
      intro sub hs new hnew hnode hw
      rw [List.mem_singleton.mp hnew] at hnode hw
      rw [hasSubmitted_of_window hc hs hnode hw] at hfresh
      cases hfresh
    · rw [hp]
      exact .nil
    · rw [hp]
      exact hi.apart asset

theorem submit_commits_iff {env : Env} {node : Address} {asset : Asset} {price : I128} {sourceTs : UInt64} :
    machine.Commits st ⟨env, .submitPrice node asset price sourceTs⟩ ↔
      node ∈ env.auths ∧ st.admin.isSome ∧ node ∈ readNodes st ∧ asset ∈ readCommodities st ∧ 0 < price ∧
        hasSubmitted (readPending st asset) node (roundToWindow st env.timestamp) = false := by
  rw [commits_iff]
  constructor
  · rintro ⟨_, _, ht⟩
    cases ht with
    | submitPrice hs hi hn ha hp hf => exact ⟨hs, hi, hn, ha, hp, hf⟩
  · rintro ⟨hs, hi, hn, ha, hp, hf⟩
    exact ⟨_, _, .submitPrice hs hi hn ha hp hf⟩

end Steps

section Runs
variable {txs : List Invocation}

theorem windowsApart (txs : List Invocation) : WindowsApart (after txs) := by
  have hstart : WindowsApart .deployed := ⟨.inl rfl, fun _ => .nil⟩
  exact machine.run_invariant WindowsApart (fun _ _ _ _ hi he => windowsApart_step hi (exec_eq_ok.mp he)) hstart txs

/-- What is pending of a window was submitted in it since the last finalization. -/
theorem pendingIn_iff_since (txs : List Invocation) (resolution now : Nat) (node : Address) (asset : Asset) :
    PendingIn resolution now node asset (after txs) ↔
      machine.Since (SubmittedIn resolution now node asset) (Finalized asset) .deployed txs := by
  have hstart : ¬ PendingIn resolution now node asset .deployed := by
    rintro ⟨_, hs, _⟩
    cases hs
  exact machine.holds_iff_since (A := fun _ _ => True) _ (fun st tx _ => pendingIn_step st tx) hstart
    (machine.along_inputs _ fun _ _ => trivial)

/-- With ordered times the scan decides whether the node has submitted in the current window. -/
theorem hasSubmitted_iff_since {now : UInt64} (ordered : Timely txs) (hnow : ∀ tx ∈ txs, tx.env.timestamp ≤ now)
    (hc : Configured (after txs)) (node : Address) (asset : Asset) :
    hasSubmitted (readPending (after txs) asset) node (roundToWindow (after txs) now) = true ↔
      machine.Since (SubmittedIn (resolution (after txs)).toNat now.toNat node asset) (Finalized asset)
        .deployed txs := by
  have hchron : Chronological (after txs) now.toNat :=
    chronological ordered fun tx htx => UInt64.le_iff_toNat_le.mp (hnow tx htx)
  rw [← pendingIn_iff_since]
  constructor
  · exact window_of_hasSubmitted hc (hchron.submitted asset)
  · rintro ⟨sub, hs, hn, hw⟩
    exact hasSubmitted_of_window hc hs hn hw

end Runs

/-- With ordered times a signed submission is accepted exactly from a listed node, for a tracked asset, at a positive
price, unless one of the node was accepted for the asset in the same window since the last finalization. So
no two pending submissions of a node for an asset are from one window. -/
theorem submission_accepted_iff (txs : List Invocation) (ordered : Timely txs) :
    (∀ (env : Env) node asset price sourceTs, (∀ tx ∈ txs, tx.env.timestamp ≤ env.timestamp) → node ∈ env.auths →
      (machine.Commits (after txs) ⟨env, .submitPrice node asset price sourceTs⟩ ↔
        node ∈ readNodes (after txs) ∧ asset ∈ assets (after txs) ∧ 0 < price ∧
          ¬ machine.Since (SubmittedIn (resolution (after txs)).toNat env.timestamp.toNat node asset)
            (Finalized asset) .deployed txs)) ∧
    ∀ asset, (readPending (after txs) asset).Pairwise fun a b => a.node = b.node →
      a.submittedAt.toNat / (resolution (after txs)).toNat ≠ b.submittedAt.toNat / (resolution (after txs)).toNat := by
  refine ⟨fun env node asset price sourceTs hnow hs => ?_, (windowsApart txs).apart⟩
  rw [submit_commits_iff]
  constructor
  · rintro ⟨_, _, hn, ha, hp, hf⟩
    have hc := configured_of_listed (deployed_or_configured txs) hn
    rw [← hasSubmitted_iff_since ordered hnow hc, hf]
    exact ⟨hn, ha, hp, nofun⟩
  · rintro ⟨hn, ha, hp, hsince⟩
    have hc := configured_of_listed (deployed_or_configured txs) hn
    rw [← hasSubmitted_iff_since ordered hnow hc, Bool.not_eq_true] at hsince
    exact ⟨hs, hc.admin, hn, ha, hp, hsince⟩

/-- A node that has submitted before the end of a window submits again from its end on. -/
def untilWindowEnd : List Invocation :=
  opening ⟨0⟩ 60 [⟨1⟩] 1 (.other "MAIZE") ++ [submission ⟨1⟩ (.other "MAIZE") (.literal 95) 1079]

theorem submission_after_window_end :
    machine.Commits (after untilWindowEnd) (submission ⟨1⟩ (.other "MAIZE") (.literal 105) 1080) :=
  ((submission_accepted_iff untilWindowEnd (by decide +kernel)).1 ⟨1080, [⟨1⟩]⟩ ⟨1⟩ (.other "MAIZE") (.literal 105) 1080
    (by decide +kernel) (by decide)).mpr (by decide +kernel)

end AgriFeed.Oracle
