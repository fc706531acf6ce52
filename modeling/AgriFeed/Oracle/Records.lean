import AgriFeed.Oracle.Invariants

/-! How many records of one window a history holds. A finalization empties the pending list, so the
nodes may submit again in the same window and a second finalization appends a second record. -/
namespace AgriFeed.Oracle
open Foundation

/-- At most one record per window, and a served record is what its own time reads back. -/
structure OnePerWindow (st : Storage) : Prop where
  distinct : ∀ asset, ((readHistory st asset).map fun r => r.timestamp.toNat / (resolution st).toNat).Nodup
  served : ∀ asset k rs, prices st asset k = some rs → ∀ r ∈ rs, price st asset r.timestamp = some r
  latest : ∀ asset r, lastprice st asset = some r → price st asset r.timestamp = some r

/-- A successful finalization comes after the window of the last record, or keeps no record but its own. -/
def LastWindowOver (st : Storage) (tx : Invocation) : Prop :=
  ∀ asset ∈ tx.call.finalizes, machine.Commits st tx →
    st.retention.getD defaultRetention = 1 ∨ ∀ last ∈ (readHistory st asset).getLast?,
      last.timestamp.toNat + (resolution st).toNat ≤ tx.env.timestamp.toNat

instance (st : Storage) (tx : Invocation) : Decidable (LastWindowOver st tx) :=
  inferInstanceAs (Decidable (∀ asset ∈ tx.call.finalizes, machine.Commits st tx →
    _ = _ ∨ ∀ last ∈ (readHistory st asset).getLast?, _ ≤ _))

section Increasing
variable {r now keep : Nat} {history : List PriceData} {record : PriceData}

private def Increasing (r : Nat) (history : List PriceData) : Prop :=
  history.Pairwise fun a b => a.timestamp.toNat / r < b.timestamp.toNat / r

private theorem nodup_windows_iff (hn : history.Pairwise fun a b => a.timestamp.toNat ≤ b.timestamp.toNat) :
    (history.map fun a => a.timestamp.toNat / r).Nodup ↔ Increasing r history := by
  rw [List.Nodup, List.pairwise_map]
  constructor
  · intro h
    refine (h.and hn).imp fun hab => ?_
    exact lt_of_le_of_ne (Nat.div_le_div_right hab.2) hab.1
  · intro h
    exact h.imp fun hab => hab.ne

private theorem le_last (hi : Increasing r history) {last : PriceData} (hl : last ∈ history.getLast?) :
    ∀ a ∈ history, a.timestamp.toNat / r ≤ last.timestamp.toNat / r := by
  intro a ha
  obtain ⟨before, rfl⟩ := List.getLast?_eq_some_iff.mp hl
  rcases List.mem_append.mp ha with ha | ha
  · exact ((List.pairwise_append.mp hi).2.2 a ha last (List.mem_singleton_self _)).le
  · rw [List.mem_singleton.mp ha]

/-- Appending a record and pruning keeps the windows apart exactly when the last window is over
or pruning removes its record at once. -/
private theorem increasing_finalized (hk : 0 < keep) (hr : record.timestamp.toNat / r = now / r)
    (hi : Increasing r history) :
    Increasing r (prune keep (history ++ [record])) ↔
      keep = 1 ∨ ∀ last ∈ history.getLast?, last.timestamp.toNat / r < now / r := by
  rw [prune_eq_drop, List.length_append, List.length_singleton]
  constructor
  · intro h
    by_cases hone : keep = 1
    · exact .inl hone
    · refine .inr fun last hl => ?_
      obtain ⟨before, rfl⟩ := List.getLast?_eq_some_iff.mp hl
      rw [List.append_assoc, List.drop_append_of_le_length (by simp; omega)] at h
      have hpair := (List.pairwise_append.mp h).2.1
      rw [← hr]
      exact (List.pairwise_cons.mp hpair).1 record (List.mem_singleton_self _)
  · rintro (rfl | h)
    · rw [Nat.add_sub_cancel, List.drop_left]
      exact List.pairwise_singleton _ _
    · refine (List.pairwise_append.mpr ⟨hi, List.pairwise_singleton _ _, ?_⟩).drop
      intro a ha b hb
      have hne : history ≠ [] := List.ne_nil_of_mem ha
      have hl := List.getLast?_eq_some_getLast hne
      rw [List.mem_singleton.mp hb, hr]
      exact (le_last hi hl a ha).trans_lt (h _ hl)

end Increasing

section Reads
variable {st : Storage} {now : Nat}

/-- With one record per window the search from the oldest finds the record itself. -/
private theorem price_of_mem (hi : Chronological st now) {asset : Asset} {r : PriceData}
    (hd : Increasing (resolution st).toNat (readHistory st asset)) (hm : r ∈ readHistory st asset) :
    price st asset r.timestamp = some r := by
  have hconf := configured_of_history hi.configured hm
  have hround : roundToWindow st r.timestamp = r.timestamp := by
    rw [← UInt64.toNat_inj, hconf.roundToWindow_toNat, hi.rounded asset r hm]
  rw [price, hround]
  obtain ⟨before, after, hs⟩ := List.append_of_mem hm
  rw [hs] at hd ⊢
  apply List.find?_eq_some_iff_append.mpr
  refine ⟨by simp, before, after, rfl, ?_⟩
  intro a ha
  have hlt := (List.pairwise_append.mp hd).2.2 a ha r List.mem_cons_self
  simp only [Bool.not_eq_true', decide_eq_false_iff_not]
  intro he
  rw [he] at hlt
  exact lt_irrefl _ hlt

private theorem onePerWindow_iff (hi : Chronological st now) :
    OnePerWindow st ↔ ∀ asset, Increasing (resolution st).toNat (readHistory st asset) := by
  constructor
  · intro h asset
    exact (nodup_windows_iff (hi.nondecreasing asset)).mp (h.distinct asset)
  · intro h
    refine ⟨fun asset => (nodup_windows_iff (hi.nondecreasing asset)).mpr (h asset), ?_, ?_⟩
    · intro asset k rs hs r hr
      exact price_of_mem hi (h asset) ((prices_suffix hs).mem hr)
    · intro asset r hl
      exact price_of_mem hi (h asset) (List.mem_of_getLast? hl)

end Reads

section Runs
variable {st : Storage} {tx : Invocation}

/-- The pruned history keeps its windows apart exactly when the last record's window is over. -/
private theorem finalized_iff (hi : Chronological st tx.env.timestamp.toNat) (hconf : Configured st) {asset : Asset}
    (hold : Increasing (resolution st).toNat (readHistory st asset)) (price : I128) :
    Increasing (resolution st).toNat (prune (st.retention.getD defaultRetention).toNat
        (readHistory st asset ++ [⟨price, roundToWindow st tx.env.timestamp⟩])) ↔
      st.retention.getD defaultRetention = 1 ∨ ∀ last ∈ (readHistory st asset).getLast?,
        last.timestamp.toNat + (resolution st).toNat ≤ tx.env.timestamp.toNat := by
  have hpos := hconf.resolution_pos
  have hwin : (roundToWindow st tx.env.timestamp).toNat / (resolution st).toNat =
      tx.env.timestamp.toNat / (resolution st).toNat := by
    rw [hconf.roundToWindow_toNat, windowStart_div hpos]
  rw [increasing_finalized hconf.retention_pos hwin hold, ← UInt32.toNat_inj]
  refine or_congr_right (forall_congr' fun last => forall_congr' fun hl => ?_)
  rw [window_over_iff hpos, hi.rounded asset last (List.mem_of_getLast? hl)]

/-- A committed invocation changes the records of one asset at most, and only by finalizing it. -/
private theorem onePerWindow_commit {st' : Storage} {out : Output} (hi : Chronological st tx.env.timestamp.toNat)
    (ho : OnePerWindow st) (he : machine.exec st tx = .ok (out, st')) : OnePerWindow st' ↔ LastWindowOver st tx := by
  have ht := exec_eq_ok.mp he
  have hold := (onePerWindow_iff hi).mp ho
  rw [onePerWindow_iff (chronological_step hi ht)]
  rcases ht.fresh_or_configured hi.configured with ⟨rfl, _, _, _, _, hcall⟩ | ⟨hconf, hres⟩
  · have hnone (asset : Asset) : tx.call ≠ .finalizePrice asset := by
      rw [hcall]
      exact fun h => nomatch h
    refine iff_of_true ?_ fun asset hf => absurd (Call.mem_finalizes.mp hf) (hnone asset)
    intro asset
    rcases ht.history_cases asset with ⟨_, hf, _⟩ | ⟨_, hh⟩
    · exact absurd hf (hnone asset)
    · rw [hh]
      exact .nil
  · rw [show resolution st' = resolution st from congrArg (Option.getD · 0) hres]
    constructor
    · intro h asset hf _
      have hasset := h asset
      rcases ht.history_cases asset with ⟨price, _, _, _, hh⟩ | ⟨hne, _⟩
      · rw [hh] at hasset
        exact (finalized_iff hi hconf (hold asset) price).mp hasset
      · exact absurd (Call.mem_finalizes.mp hf) hne
    · intro h asset
      rcases ht.history_cases asset with ⟨price, hcall, _, _, hh⟩ | ⟨_, hh⟩
      · rw [hh]
        apply (finalized_iff hi hconf (hold asset) price).mpr
        exact h asset (Call.mem_finalizes.mpr hcall) (machine.commits_of_ok he)
      · rw [hh]
        exact hold asset

private theorem onePerWindow_step (hi : Chronological st tx.env.timestamp.toNat) (ho : OnePerWindow st) :
    OnePerWindow (machine.step st tx) ↔ LastWindowOver st tx := by
  cases he : machine.exec st tx with
  | error e =>
    rw [machine.step_rollback he]
    exact iff_of_true ho fun _ _ hc => absurd hc (machine.not_commits he)
  | ok out =>
    rw [machine.step_commit he]
    exact onePerWindow_commit hi ho he

end Runs

/-- Throughout a run each window has one record and the reads agree exactly when no finalization
succeeds in the window of the last record, unless only one record is retained. -/
theorem one_per_window_iff_last_window_over (txs : List Invocation) (ordered : Timely txs) :
    machine.Always OnePerWindow .deployed txs ↔ machine.Along LastWindowOver .deployed txs := by
  have hstart : OnePerWindow .deployed := (onePerWindow_iff (chronological_deployed 0)).mpr fun _ => .nil
  exact machine.always_iff_along OnePerWindow (fun _ _ hi ho => onePerWindow_step hi ho) hstart
    (along_chronological ordered)

/-- Two rounds of one node with a threshold of one. -/
def twoRounds (first second : UInt64) : List Invocation :=
  opening ⟨0⟩ 60 [⟨1⟩] 1 (.other "MAIZE") ++
    [submission ⟨1⟩ (.other "MAIZE") (.literal 95) first, finalization (.other "MAIZE") first,
      submission ⟨1⟩ (.other "MAIZE") (.literal 105) second, finalization (.other "MAIZE") second]

theorem one_per_window_of_rounds_apart : machine.Always OnePerWindow .deployed (twoRounds 1030 1090) :=
  (one_per_window_iff_last_window_over (twoRounds 1030 1090) (by decide +kernel)).mpr (by decide +kernel)

/-- Two rounds in one window leave two records of it, and the search finds the older one. -/
theorem reads_disagree_within_window :
    ¬ ∀ txs, Timely txs → machine.Always OnePerWindow .deployed txs := by
  intro h
  have hend := h (twoRounds 1030 1040) (by decide +kernel) _ (List.prefix_refl _)
  have hread := hend.latest (.other "MAIZE") ⟨.literal 105, 1020⟩ (by decide +kernel)
  exact absurd hread (by decide +kernel)

end AgriFeed.Oracle
