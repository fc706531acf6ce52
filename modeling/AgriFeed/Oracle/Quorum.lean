import AgriFeed.Oracle.Invariants
import Mathlib.Data.Finset.Card

/-! Whose submissions a finalization aggregates, and from which window. The threshold counts list
entries, and entries of earlier windows stay in the list until a finalization succeeds. -/
namespace AgriFeed.Oracle
open Foundation

def submitters (pending : List Submission) : Finset Address := (pending.map (·.node)).toFinset

/-- A successful finalization aggregates submissions of at least threshold distinct nodes,
so no smaller group of nodes can have produced its price. -/
def DistinctQuorum (st : Storage) (tx : Invocation) : Prop :=
  ∀ asset ∈ tx.call.finalizes, machine.Commits st tx →
    (st.threshold.getD 0).toNat ≤ (submitters (readPending st asset)).card ∧
    ∀ group : Finset Address, (∀ sub ∈ readPending st asset, sub.node ∈ group) →
      (st.threshold.getD 0).toNat ≤ group.card

/-- No accepted submission comes from a node that still has one pending for the same asset. -/
def NothingCarried (st : Storage) (tx : Invocation) : Prop :=
  ∀ na ∈ tx.call.submits, machine.Commits st tx → ∀ sub ∈ readPending st na.2, sub.node ≠ na.1

instance (st : Storage) (tx : Invocation) : Decidable (NothingCarried st tx) :=
  inferInstanceAs (Decidable (∀ na ∈ tx.call.submits, machine.Commits st tx →
    ∀ sub ∈ readPending st na.2, sub.node ≠ na.1))

/-- Each node has at most one submission in each pending list. -/
def OnePerNode (st : Storage) : Prop := ∀ asset, ((readPending st asset).map (·.node)).Nodup

private theorem onePerNode_step {st st' : Storage} {tx : Invocation} {out : Output}
    (hi : OnePerNode st) (hn : NothingCarried st tx) (he : machine.exec st tx = .ok (out, st')) :
    OnePerNode st' := by
  intro asset
  rcases (exec_eq_ok.mp he).pending_cases asset with ⟨node, price, ts, hcall, _, _, _, _, hp⟩ | ⟨_, hp⟩ | ⟨_, _, hp⟩
  · have hnew := hn (node, asset) (Call.mem_submits.mpr ⟨price, ts, hcall⟩) (machine.commits_of_ok he)
    rw [hp, List.map_append]
    refine List.nodup_append.mpr ⟨hi asset, List.nodup_singleton _, ?_⟩
    intro a ha b hb hab
    obtain ⟨sub, hs, rfl⟩ := List.mem_map.mp ha
    exact hnew sub hs (hab.trans (List.mem_singleton.mp hb))
  · rw [hp]
    exact .nil
  · rw [hp]
    exact hi asset

private theorem submitters_subset {pending : List Submission} {group : Finset Address}
    (h : ∀ sub ∈ pending, sub.node ∈ group) : submitters pending ⊆ group := by
  intro node hn
  obtain ⟨sub, hs, rfl⟩ := List.mem_map.mp (List.mem_toFinset.mp hn)
  exact h sub hs

/-- As long as no node adds a second pending submission, which only the rollover of a window lets it
do, every finalization of the run rests on threshold distinct nodes. -/
theorem distinct_quorum_of_nothing_carried (txs : List Invocation) (h : machine.Along NothingCarried .deployed txs) :
    machine.Along DistinctQuorum .deployed txs := by
  have start : OnePerNode .deployed := fun _ => List.nodup_nil
  refine (machine.along_of_invariant OnePerNode (fun _ _ _ _ hi hn he => onePerNode_step hi hn he) ?_ start h).1
  intro st tx hi _ asset hf hc
  obtain ⟨_, _, hm, _⟩ := finalize_commits hf hc
  have hq : (st.threshold.getD 0).toNat ≤ (submitters (readPending st asset)).card := by
    rwa [submitters, List.toFinset_card_of_nodup (hi asset), List.length_map]
  exact ⟨hq, fun group hg => hq.trans (Finset.card_le_card (submitters_subset hg))⟩

/-- Two nodes submit in one window and the call that finalizes the asset follows in it. -/
def promptRun : List Invocation :=
  opening ⟨0⟩ 60 [⟨1⟩, ⟨2⟩] 2 (.other "MAIZE") ++
    [submission ⟨1⟩ (.other "MAIZE") (.literal 95) 1030, submission ⟨2⟩ (.other "MAIZE") (.literal 105) 1040,
      finalization (.other "MAIZE") 1050]

theorem distinct_quorum_of_prompt_run : machine.Along DistinctQuorum .deployed promptRun :=
  distinct_quorum_of_nothing_carried promptRun (by decide +kernel)

/-- One node of two submits on both sides of the end of a window. -/
def carriedRun : List Invocation :=
  opening ⟨0⟩ 60 [⟨1⟩, ⟨2⟩] 2 (.other "MAIZE") ++
    [submission ⟨1⟩ (.other "MAIZE") (.literal 95) 1030, submission ⟨1⟩ (.other "MAIZE") (.literal 500) 1090]

/-- That node alone then meets a threshold of two. -/
theorem lone_node_meets_threshold :
    ¬ ∀ txs, Timely txs → machine.Along DistinctQuorum .deployed txs := by
  intro h
  have hrun := h (carriedRun ++ [finalization (.other "MAIZE") 1095]) (by decide +kernel)
  have hlast := (machine.along_iff _ _ _).mp hrun carriedRun _ [] rfl
  have hquorum := (hlast (.other "MAIZE") rfl (by decide +kernel)).1
  exact absurd hquorum (by decide +kernel)

section Staleness

/-- The record a successful finalization returns is made of submissions of its own window. -/
def AggregatesOwnWindow (st : Storage) (tx : Invocation) : Prop :=
  ∀ asset ∈ tx.call.finalizes, ∀ record events, machine.result st tx = .ok (.price record, events) →
    ∀ sub ∈ readPending st asset, record.timestamp.toNat ≤ sub.submittedAt.toNat ∧
      sub.submittedAt.toNat < record.timestamp.toNat + (resolution st).toNat

/-- A successful finalization comes in the window in which its oldest submission was recorded. -/
def OldestInWindow (st : Storage) (tx : Invocation) : Prop :=
  ∀ asset ∈ tx.call.finalizes, machine.Commits st tx → ∀ oldest ∈ (readPending st asset).head?,
    oldest.submittedAt.toNat / (resolution st).toNat = tx.env.timestamp.toNat / (resolution st).toNat

instance (st : Storage) (tx : Invocation) : Decidable (OldestInWindow st tx) :=
  inferInstanceAs (Decidable (∀ asset ∈ tx.call.finalizes, machine.Commits st tx →
    ∀ oldest ∈ (readPending st asset).head?, _ = _))

/-- At one call the oldest submission decides for all of them, since they are kept in order of time. -/
private theorem ownWindow_iff_oldest {st : Storage} {tx : Invocation} (hi : Chronological st tx.env.timestamp.toNat) :
    AggregatesOwnWindow st tx ↔ OldestInWindow st tx := by
  refine forall_congr' fun asset => forall_congr' fun hf => ?_
  by_cases hc : machine.Commits st tx
  · obtain ⟨hne, hset, _, price, _, hr⟩ := finalize_commits hf hc
    have hconf : Configured st := hi.configured.resolve_left (by rintro rfl; exact hset rfl)
    have hwin (sub : Submission) := same_window_iff hconf.resolution_pos tx.env.timestamp.toNat sub.submittedAt.toNat
    obtain ⟨oldest, rest, hp⟩ := List.exists_cons_of_ne_nil hne
    constructor
    · intro h _ sub hs
      have hsub := h _ _ hr sub (List.mem_of_mem_head? hs)
      rw [hconf.roundToWindow_toNat] at hsub
      exact (hwin sub).mpr hsub
    · intro h record events he sub hs
      rw [hr] at he
      cases he
      rw [hconf.roundToWindow_toNat]
      apply (hwin sub).mp
      apply le_antisymm
      · exact Nat.div_le_div_right (hi.submitted asset sub hs)
      · rw [← h hc oldest (by rw [hp]; rfl)]
        apply Nat.div_le_div_right
        have hord := hi.inOrder asset
        rw [hp] at hs hord
        rcases List.mem_cons.mp hs with rfl | hs
        · exact le_rfl
        · exact (List.pairwise_cons.mp hord).1 sub hs
  · refine iff_of_true ?_ fun h => absurd h hc
    intro record events he
    exact absurd (machine.commits_iff.mpr ⟨_, _, machine.result_eq_ok.mp he⟩) hc

/-- A run keeps every record to submissions of its own window exactly when each of its finalizations
comes in the window of the oldest pending submission. -/
theorem aggregates_own_window_iff_oldest (txs : List Invocation) (ordered : Timely txs) :
    machine.Along AggregatesOwnWindow .deployed txs ↔ machine.Along OldestInWindow .deployed txs :=
  machine.along_congr (fun _ _ hi => ownWindow_iff_oldest hi) (along_chronological ordered)

theorem own_window_of_prompt_run : machine.Along AggregatesOwnWindow .deployed promptRun :=
  (aggregates_own_window_iff_oldest promptRun (by decide +kernel)).mpr (by decide +kernel)

/-- A submission survives the end of its window and enters the record of the next one. -/
theorem stale_submission_aggregated :
    ¬ ∀ txs, Timely txs → machine.Along AggregatesOwnWindow .deployed txs := by
  intro h
  have hrun := h (carriedRun ++ [finalization (.other "MAIZE") 1095]) (by decide +kernel)
  have hlast := (machine.along_iff _ _ _).mp hrun carriedRun _ [] rfl
  have hwindow := hlast (.other "MAIZE") rfl ⟨.literal 297, 1080⟩
    [.priceFinalized (.other "MAIZE") (.literal 297) 1080] (by decide +kernel)
  exact absurd (hwindow ⟨⟨1⟩, .literal 95, 1030, 1030⟩ (by decide +kernel)).1 (by decide)

end Staleness

end AgriFeed.Oracle
