import AgriFeed.Oracle.Batches

/-! What the node list decides. Membership is checked when a price is submitted, and the threshold is
compared with the list when it is set; a removal looks at neither. -/
namespace AgriFeed.Oracle
open Foundation

section Removal

/-- A successful finalization aggregates submissions of nodes that are listed at that moment. -/
def AggregatesListedNodes (st : Storage) (tx : Invocation) : Prop :=
  ∀ asset ∈ tx.call.finalizes, machine.Commits st tx → ∀ sub ∈ readPending st asset, sub.node ∈ readNodes st

/-- The submission was accepted earlier in the run, at a moment its node was listed. -/
def AcceptedFromListed (txs : List Invocation) (asset : Asset) (sub : Submission) : Prop :=
  ∃ pre tx post, txs = pre ++ tx :: post ∧ tx.call = .submitPrice sub.node asset sub.price sub.sourceTs ∧
    tx.env.timestamp = sub.submittedAt ∧ machine.Commits (after pre) tx ∧ sub.node ∈ readNodes (after pre)

/-- The node is not put back on the list by the next invocation. -/
def NotAdded (node : Address) (st : Storage) (tx : Invocation) : Prop :=
  node ∈ tx.call.adds → ¬ machine.Commits st tx

instance (node : Address) (st : Storage) (tx : Invocation) : Decidable (NotAdded node st tx) :=
  inferInstanceAs (Decidable (node ∈ tx.call.adds → ¬ machine.Commits st tx))

theorem nodes_nodup (txs : List Invocation) : (readNodes (after txs)).Nodup := by
  have start : (readNodes .deployed).Nodup := List.nodup_nil
  refine machine.run_invariant (fun st => (readNodes st).Nodup) ?_ start txs
  intro st tx out st' hd he
  rcases (exec_eq_ok.mp he).nodes_cases with ⟨_, hn⟩ | ⟨_, node, _, hnew, hn⟩ | ⟨_, node, _, _, hn⟩ | hn
  · rw [hn]
    exact List.nodup_nil
  · rw [hn]
    refine List.nodup_append.mpr ⟨hd, List.nodup_singleton _, ?_⟩
    intro a ha b hb hab
    exact hnew (List.mem_singleton.mp hb ▸ hab ▸ ha)
  · rw [hn]
    exact hd.erase node
  · rwa [hn]

/-- Every pending submission can be traced back to its acceptance. -/
theorem acceptedFromListed (txs : List Invocation) (asset : Asset) {sub : Submission}
    (hs : sub ∈ readPending (after txs) asset) : AcceptedFromListed txs asset sub := by
  have hlog : sub ∈ machine.log (accepted asset) .deployed txs := by
    rw [← accepted_balance txs asset]
    exact List.mem_append_right _ hs
  obtain ⟨pre, tx, post, out, st', htxs, he, hmem⟩ := (machine.mem_log _ _ _ _).mp hlog
  obtain ⟨hcall, htime⟩ := mem_accepted.mp hmem
  refine ⟨pre, tx, post, htxs, hcall, htime, machine.commits_of_ok he, ?_⟩
  have ht := exec_eq_ok.mp he
  rw [hcall] at ht
  cases ht with
  | submitPrice hs hi hn => exact hn

/-- An unlisted node stays unlisted and has nothing accepted until it is added again. -/
theorem unlisted_run {node : Address} {st : Storage} (hn : node ∉ readNodes st) (asset : Asset)
    {during : List Invocation} (hd : machine.Along (NotAdded node) st during) :
    node ∉ readNodes (machine.run st during) ∧
      ∀ sub ∈ readPending (machine.run st during) asset, sub.node = node → sub ∈ readPending st asset := by
  refine (machine.along_of_invariant (Q := fun _ _ => True)
    (fun s => node ∉ readNodes s ∧ ∀ sub ∈ readPending s asset, sub.node = node → sub ∈ readPending st asset)
    ?_ (fun _ _ _ _ => trivial) ⟨hn, fun _ hs _ => hs⟩ hd).2
  intro s tx out s' hi hadd he
  have ht := exec_eq_ok.mp he
  constructor
  · rcases ht.nodes_cases with ⟨_, hl⟩ | ⟨admin, m, hcall, _, hl⟩ | ⟨_, _, _, _, hl⟩ | hl
    · rw [hl]
      exact List.not_mem_nil
    · rw [hl, List.mem_append, List.mem_singleton, not_or]
      refine ⟨hi.1, ?_⟩
      rintro rfl
      exact hadd (Call.mem_adds.mpr ⟨admin, hcall⟩) (machine.commits_of_ok he)
    · rw [hl]
      exact fun hm => hi.1 (List.mem_of_mem_erase hm)
    · rw [hl]
      exact hi.1
  · intro sub hs hsub
    rcases ht.mem_pending hs with hs | ⟨hlisted, _⟩
    · exact hi.2 sub hs hsub
    · exact absurd (hsub ▸ hlisted) hi.1

/-- A removal takes the node off the list and touches no pending list. -/
theorem removal_step {node : Address} {st : Storage} {removal : Invocation} (hd : (readNodes st).Nodup)
    (hr : node ∈ removal.call.removes) (hc : machine.Commits st removal) :
    node ∉ readNodes (machine.step st removal) ∧
      ∀ asset, readPending (machine.step st removal) asset = readPending st asset := by
  obtain ⟨out, st', he⟩ := machine.commits_iff.mp hc
  obtain ⟨admin, hcall⟩ := Call.mem_removes.mp hr
  have ht := exec_eq_ok.mp he
  rw [machine.step_commit he]
  rw [hcall] at ht
  cases ht with
  | removeNode hs ha hl => exact ⟨hd.not_mem_erase, fun _ => rfl⟩
  | removeUnlistedNode hs ha hl => exact ⟨hl, fun _ => rfl⟩

private theorem finalization_step {st : Storage} {tx : Invocation} {asset : Asset}
    (hf : tx.call = .finalizePrice asset) (hc : machine.Commits st tx) :
    readPending (machine.step st tx) asset = [] := by
  obtain ⟨out, st', he⟩ := machine.commits_iff.mp hc
  rw [machine.step_commit he]
  rcases (exec_eq_ok.mp he).pending_cases asset with ⟨_, _, _, hcall, _⟩ | ⟨_, hp⟩ | ⟨_, hne, _⟩
  · rw [hf] at hcall
    cases hcall
  · exact hp
  · exact absurd hf hne

/-- Whatever is aggregated was accepted from a listed node. After a removal, and until the node is added
again, only what it had pending at the removal can still be aggregated, once for each asset. -/
theorem removed_node_submits_nothing_new :
    (∀ txs asset, ∀ sub ∈ readPending (after txs) asset, AcceptedFromListed txs asset sub) ∧
    ∀ pre removal during node asset, node ∈ removal.call.removes → machine.Commits (after pre) removal →
      machine.Along (NotAdded node) (after (pre ++ [removal])) during →
      (∀ sub ∈ readPending (after (pre ++ removal :: during)) asset,
        sub.node = node → sub ∈ readPending (after pre) asset) ∧
      ∀ before final rest, during = before ++ final :: rest → final.call = .finalizePrice asset →
        machine.Commits (after (pre ++ removal :: before)) final →
        ∀ sub ∈ readPending (after (pre ++ removal :: during)) asset, sub.node ≠ node := by
  refine ⟨fun txs asset _ hs => acceptedFromListed txs asset hs, ?_⟩
  intro pre removal during node asset hr hc hd
  have hsplit (txs : List Invocation) : after (pre ++ removal :: txs) = machine.run (after (pre ++ [removal])) txs := by
    rw [List.append_cons, after_append]
  obtain ⟨hn, hp⟩ := removal_step (nodes_nodup pre) hr hc
  rw [← after_concat] at hn hp
  constructor
  · intro sub hs hsub
    rw [hsplit] at hs
    rw [← hp]
    exact (unlisted_run hn asset hd).2 sub hs hsub
  · rintro before final rest rfl hf hfc sub hs rfl
    rw [hsplit] at hfc
    have hlist : before ++ final :: rest = before ++ [final] ++ rest := List.append_cons ..
    rw [hlist, machine.along_append] at hd
    rw [hsplit, hlist, machine.run_append] at hs
    have hlate := (unlisted_run (unlisted_run hn asset hd.1).1 asset hd.2).2 sub hs rfl
    rw [machine.run_concat, finalization_step hf hfc] at hlate
    cases hlate

/-- Two nodes have submitted when one of them is removed. -/
def bothPending : List Invocation :=
  opening ⟨0⟩ 60 [⟨1⟩, ⟨2⟩] 2 (.other "MAIZE") ++
    [submission ⟨1⟩ (.other "MAIZE") (.literal 95) 1030, submission ⟨2⟩ (.other "MAIZE") (.literal 105) 1040]

def removal (node : Address) (time : UInt64) : Invocation := ⟨⟨time, [⟨0⟩]⟩, .removeNode ⟨0⟩ node⟩

theorem removed_submission_was_pending :
    (⟨⟨1⟩, .literal 95, 1030, 1030⟩ : Submission) ∈ readPending (after bothPending) (.other "MAIZE") :=
  (removed_node_submits_nothing_new.2 bothPending (removal ⟨1⟩ 1045)
    [submission ⟨1⟩ (.other "MAIZE") (.literal 500) 1090] ⟨1⟩ (.other "MAIZE") rfl (by decide +kernel)
    (by decide +kernel)).1 _ (by decide +kernel) rfl

/-- Its submission is still aggregated, and counted for the threshold, after the removal. -/
theorem removed_node_still_counted : ¬ ∀ txs, machine.Along AggregatesListedNodes .deployed txs := by
  intro h
  have hrun := h (bothPending ++ [removal ⟨1⟩ 1045] ++ [finalization (.other "MAIZE") 1050])
  have hlast := (machine.along_iff _ _ _).mp hrun (bothPending ++ [removal ⟨1⟩ 1045]) _ [] rfl
  have hlisted := hlast (.other "MAIZE") rfl (by decide +kernel) ⟨⟨1⟩, .literal 95, 1030, 1030⟩ (by decide +kernel)
  exact absurd hlisted (by decide +kernel)

end Removal

section Threshold

/-- A threshold has not been set by the next invocation. -/
def NoThresholdSet (st : Storage) (tx : Invocation) : Prop :=
  ∀ admin threshold, tx.call = .setThreshold admin threshold → ¬ machine.Commits st tx

/-- After the run the listed nodes can meet the threshold, which is zero only as long as none was set. -/
structure ThresholdSatisfiable (txs : List Invocation) : Prop where
  bounded : ((after txs).threshold.getD 0).toNat ≤ (readNodes (after txs)).length
  unset : (after txs).threshold.getD 0 = 0 → machine.Along NoThresholdSet .deployed txs

/-- A successful removal of a listed node finds more nodes than the threshold. -/
def RemovalLeavesEnough (st : Storage) (tx : Invocation) : Prop :=
  ∀ node ∈ tx.call.removes, machine.Commits st tx → node ∈ readNodes st →
    (st.threshold.getD 0).toNat < (readNodes st).length

private theorem threshold_of_deployed_or_configured {st : Storage} (hi : st = .deployed ∨ Configured st)
    (hfresh : st.admin = none) : st.threshold.getD 0 = 0 := by
  rcases hi with rfl | hc
  · rfl
  · have := hc.admin
    rw [hfresh] at this
    cases this

/-- A set threshold is never zero again. -/
private theorem unset_run (txs : List Invocation) (hz : (after txs).threshold.getD 0 = 0) :
    machine.Along NoThresholdSet .deployed txs := by
  induction txs using List.reverseRecOn with
  | nil => trivial
  | append_singleton txs tx ih =>
    rw [after_concat] at hz
    apply (machine.along_append _ _ _ _).mpr
    cases he : machine.exec (after txs) tx with
    | error e =>
      rw [machine.step_rollback he] at hz
      exact ⟨ih hz, fun _ _ _ => machine.not_commits he, trivial⟩
    | ok res =>
      obtain ⟨out, st'⟩ := res
      obtain ⟨env, call⟩ := tx
      have ht := exec_eq_ok.mp he
      rw [machine.step_commit he] at hz
      cases ht with
      | setThreshold hs ha hp hb => exact absurd hz hp
      | initializeContract hs hf hp =>
        exact ⟨ih (threshold_of_deployed_or_configured (deployed_or_configured txs) hf),
          fun _ _ h => (nomatch h), trivial⟩
      | _ => exact ⟨ih hz, fun _ _ h => (nomatch h), trivial⟩

/-- Of all invocations only the removal of a listed node can leave too few nodes. -/
private theorem bounded_step (st : Storage) (tx : Invocation)
    (hb : (st.threshold.getD 0).toNat ≤ (readNodes st).length) :
    ((machine.step st tx).threshold.getD 0).toNat ≤ (readNodes (machine.step st tx)).length ↔
      RemovalLeavesEnough st tx := by
  cases he : machine.exec st tx with
  | error e =>
    rw [machine.step_rollback he]
    exact iff_of_true hb fun _ _ hc => absurd hc (machine.not_commits he)
  | ok res =>
    obtain ⟨out, st'⟩ := res
    rw [machine.step_commit he]
    have hc : machine.Commits st tx := machine.commits_of_ok he
    obtain ⟨env, call⟩ := tx
    have ht := exec_eq_ok.mp he
    cases ht with
    | removeNode hs ha hl =>
      have hpos := List.length_pos_of_mem hl
      change (st.threshold.getD 0).toNat ≤ ((readNodes st).erase _).length ↔ _
      rw [List.length_erase_of_mem hl, Nat.le_sub_one_iff_lt hpos]
      constructor
      · intro h node _ _ _
        exact h
      · intro h
        exact h _ rfl hc hl
    | removeUnlistedNode hs ha hl =>
      refine iff_of_true hb fun node hr _ hm => ?_
      obtain ⟨_, hcall⟩ := Call.mem_removes.mp hr
      cases hcall
      exact absurd hm hl
    | initializeContract => exact iff_of_true (Nat.zero_le _) fun _ hr => (nomatch hr)
    | addNode =>
      refine iff_of_true (hb.trans ?_) fun _ hr => (nomatch hr)
      simp [readNodes]
    | setThreshold hs ha hp hbound => exact iff_of_true hbound fun _ hr => (nomatch hr)
    | _ => exact iff_of_true hb fun _ hr => (nomatch hr)

/-- The threshold stays satisfiable throughout a run exactly when every removal of a listed node in it
finds more nodes than the threshold. -/
theorem threshold_satisfiable_iff_removals_leave_enough (txs : List Invocation) :
    (∀ pre, pre <+: txs → ThresholdSatisfiable pre) ↔ machine.Along RemovalLeavesEnough .deployed txs := by
  have hcore := machine.always_iff_along (A := fun _ _ => True)
    (fun st => (st.threshold.getD 0).toNat ≤ (readNodes st).length) (fun st tx _ hb => bounded_step st tx hb)
    (s := .deployed) le_rfl (machine.along_inputs _ fun tx (_ : tx ∈ txs) => trivial)
  rw [← hcore]
  constructor
  · intro h pre hp
    exact (h pre hp).bounded
  · intro h pre hp
    exact ⟨h pre hp, unset_run pre⟩

/-- Removing one of two nodes under a threshold of two leaves it out of reach. -/
theorem removal_breaks_threshold : ¬ ∀ txs, ThresholdSatisfiable txs := by
  intro h
  have hb := (h (opening ⟨0⟩ 60 [⟨1⟩, ⟨2⟩] 2 (.other "MAIZE") ++ [removal ⟨1⟩ 1000])).bounded
  exact absurd hb (by decide +kernel)

end Threshold
end AgriFeed.Oracle
