import AgriFeed.Oracle.Invariants

/-! The ledger of submissions of one asset. An accepted submission waits in the pending list until the
one batch that aggregates it, and each finalized record is the median of its own batch. -/
namespace AgriFeed.Oracle
open Foundation

/-- The submission a committed invocation has accepted for the asset. -/
def accepted (asset : Asset) (_ : Storage) (tx : Invocation) (_ : Output) : List Submission :=
  match tx.call with
  | .submitPrice node a price sourceTs => if a = asset then [⟨node, price, sourceTs, tx.env.timestamp⟩] else []
  | _ => []

/-- What one successful finalization aggregated, under which threshold, and what it recorded. -/
structure Batch where
  submissions : List Submission
  threshold : UInt32
  record : PriceData
  deriving DecidableEq

/-- The batch a committed invocation has aggregated for the asset. -/
def aggregated (asset : Asset) (st : Storage) (tx : Invocation) (out : Output) : List Batch :=
  match tx.call, out.1 with
  | .finalizePrice a, .price record =>
    if a = asset then [⟨readPending st asset, st.threshold.getD 0, record⟩] else []
  | _, _ => []

section Steps
variable {st st' : Storage} {tx : Invocation} {out : Output} {asset : Asset}

theorem accepted_submit {node : Address} {price : I128} {sourceTs : UInt64}
    (h : tx.call = .submitPrice node asset price sourceTs) :
    accepted asset st tx out = [⟨node, price, sourceTs, tx.env.timestamp⟩] := by
  rw [accepted, h]
  exact if_pos rfl

theorem accepted_other (h : ∀ node price sourceTs, tx.call ≠ .submitPrice node asset price sourceTs) :
    accepted asset st tx out = [] := by
  unfold accepted
  split
  · rename_i node a price sourceTs hcall
    refine if_neg fun ha => ?_
    exact h node price sourceTs (ha ▸ hcall)
  · rfl

theorem mem_accepted {sub : Submission} :
    sub ∈ accepted asset st tx out ↔
      tx.call = .submitPrice sub.node asset sub.price sub.sourceTs ∧ tx.env.timestamp = sub.submittedAt := by
  by_cases h : ∃ node price sourceTs, tx.call = .submitPrice node asset price sourceTs
  · obtain ⟨node, price, sourceTs, hcall⟩ := h
    rw [accepted_submit hcall, List.mem_singleton, hcall]
    constructor
    · rintro rfl
      exact ⟨rfl, rfl⟩
    · rintro ⟨hc, ht⟩
      cases hc
      rw [ht]
  · push Not at h
    rw [accepted_other h]
    constructor
    · intro hs
      cases hs
    · rintro ⟨hcall, _⟩
      exact absurd hcall (h _ _ _)

private theorem aggregated_eq : aggregated asset st tx out = atFinalization asset
    (fun st record => Batch.mk (readPending st asset) (st.threshold.getD 0) record) st tx out := rfl

theorem aggregated_other (h : tx.call ≠ .finalizePrice asset) : aggregated asset st tx out = [] := by
  rw [aggregated_eq, atFinalization_other h]

theorem aggregated_finalize (h : tx.call = .finalizePrice asset) {record : PriceData} (ho : out.1 = .price record) :
    aggregated asset st tx out = [⟨readPending st asset, st.threshold.getD 0, record⟩] := by
  rw [aggregated_eq, atFinalization_own h ho]

/-- One committed invocation moves submissions from the list to a batch and adds at most one. -/
theorem batch_step (he : machine.exec st tx = .ok (out, st')) :
    (aggregated asset st tx out).flatMap (·.submissions) ++ readPending st' asset =
      readPending st asset ++ accepted asset st tx out := by
  have ht := exec_eq_ok.mp he
  rcases ht.pending_cases asset with ⟨_, _, _, hcall, _, _, _, _, hp⟩ | ⟨hcall, hp⟩ | ⟨hs, hf, hp⟩
  · rw [accepted_submit hcall, aggregated_other (by simp [hcall]), hp]
    rfl
  · rcases ht.history_cases asset with ⟨_, _, _, ho, _⟩ | ⟨hne, _⟩
    · rw [accepted_other (by simp [hcall]), aggregated_finalize hcall ho, hp]
      simp
    · exact absurd hcall hne
  · rw [accepted_other hs, aggregated_other hf, hp]
    simp

/-- A batch is the whole pending list of a successful finalization, which met its threshold and
returned the median of that list. -/
private theorem batch_median (he : machine.exec st tx = .ok (out, st')) {batch : Batch}
    (hb : batch ∈ aggregated asset st tx out) :
    batch.record.price.val = truncatedMedian (priceValues batch.submissions) ∧
      batch.threshold.toNat ≤ batch.submissions.length ∧ 1 ≤ batch.submissions.length := by
  by_cases hcall : tx.call = .finalizePrice asset
  · have hc := machine.commits_of_ok he
    obtain ⟨hne, _, hmet, price, hm, hr⟩ := finalize_commits (Call.mem_finalizes.mpr hcall) hc
    have ho := machine.result_eq_ok.mpr (he.trans (by rw [machine.step_commit he]))
    cases hr.symm.trans ho
    rw [aggregated_finalize hcall rfl, List.mem_singleton] at hb
    subst hb
    exact ⟨(median_eq_ok.mp hm).2.2, hmet, List.length_pos_iff.mpr hne⟩
  · rw [aggregated_other hcall] at hb
    cases hb

theorem aggregated_median (he : machine.exec st tx = .ok (out, st')) {batch : Batch}
    (hb : batch ∈ aggregated asset st tx out) : median batch.submissions = .ok batch.record.price := by
  rcases (exec_eq_ok.mp he).history_cases asset with ⟨price, hcall, hm, ho, _⟩ | ⟨hne, _⟩
  · rw [aggregated_finalize hcall ho, List.mem_singleton] at hb
    rw [hb]
    exact hm
  · rw [aggregated_other hne] at hb
    cases hb

theorem map_aggregated : (aggregated asset st tx out).map (·.record) =
    atFinalization asset (fun _ record => record) st tx out := by
  rw [aggregated_eq, map_atFinalization]

end Steps

/-- What left in batches and what is pending is what was accepted. -/
theorem accepted_balance (txs : List Invocation) (asset : Asset) :
    (machine.log (aggregated asset) .deployed txs).flatMap (·.submissions) ++ readPending (after txs) asset =
      machine.log (accepted asset) .deployed txs := by
  rw [← machine.log_flatMap]
  exact machine.log_balance (readPending · asset) _ _ (fun _ _ _ _ he => batch_step he) .deployed txs

/-- The batches of a run, in order and followed by what is still pending, are the accepted submissions in
their order; every batch meets its threshold and its record is the median of that batch alone; and
the stored history is the latest of those records. -/
theorem batches_exhaust_accepted (txs : List Invocation) (asset : Asset) :
    (machine.log (aggregated asset) .deployed txs).flatMap (·.submissions) ++ readPending (after txs) asset =
      machine.log (accepted asset) .deployed txs ∧
    (∀ batch ∈ machine.log (aggregated asset) .deployed txs,
      batch.record.price.val = truncatedMedian (priceValues batch.submissions) ∧
        batch.threshold.toNat ≤ batch.submissions.length ∧ 1 ≤ batch.submissions.length) ∧
    readHistory (after txs) asset <:+ (machine.log (aggregated asset) .deployed txs).map (·.record) := by
  refine ⟨accepted_balance txs asset, ?_, ?_⟩
  · intro batch hb
    obtain ⟨pre, tx, _, out, st', _, he, hmem⟩ := (machine.mem_log _ _ _ _).mp hb
    exact batch_median he hmem
  · rw [← machine.log_map]
    simp only [aggregated_eq, map_atFinalization]
    exact readHistory_suffix txs asset

end AgriFeed.Oracle
