import AgriFeed.Foundation.Retention
import AgriFeed.Oracle.Invariants

/-! The stored history as the latest part of everything that was ever finalized. -/
namespace AgriFeed.Oracle
open Foundation

/-- The record a committed finalization of the asset has returned, and the retention limit then in force. -/
def finalized (asset : Asset) : Storage → Invocation → Output → List (PriceData × UInt32) :=
  atFinalization asset fun st record => (record, st.retention.getD defaultRetention)

/-- All records a run has finalized for the asset, oldest first. -/
def finalizedRecords (asset : Asset) (txs : List Invocation) : List PriceData :=
  (machine.log (finalized asset) .deployed txs).map (·.1)

/-- The length those finalizations leave: one more record each, up to the limit of the moment. -/
def retainedRecords (asset : Asset) (txs : List Invocation) : Nat :=
  retainedLength ((machine.log (finalized asset) .deployed txs).map (·.2.toNat))

section Steps
variable {st st' : Storage} {tx : Invocation} {out : Output} {asset : Asset}

theorem finalized_other (h : tx.call ≠ .finalizePrice asset) : finalized asset st tx out = [] :=
  atFinalization_other h

theorem finalized_own (h : tx.call = .finalizePrice asset) {record : PriceData} (ho : out.1 = .price record) :
    finalized asset st tx out = [(record, st.retention.getD defaultRetention)] :=
  atFinalization_own h ho

/-- The history is cut from the log of finalizations, and never to nothing. -/
structure Retains (asset : Asset) (log : List (PriceData × UInt32)) (st : Storage) : Prop where
  configured : st = .deployed ∨ Configured st
  history : readHistory st asset = (log.map (·.1)).rtake (retainedLength (log.map (·.2.toNat)))
  limits : ∀ k ∈ log.map (·.2.toNat), 0 < k

theorem retains_step {log : List (PriceData × UInt32)} (hi : Retains asset log st)
    (he : machine.exec st tx = .ok (out, st')) : Retains asset (log ++ finalized asset st tx out) st' := by
  have ht := exec_eq_ok.mp he
  refine ⟨.inr (configured_step hi.configured ht), ?_, ?_⟩
  · rcases ht.history_cases asset with ⟨price, hcall, _, ho, hh⟩ | ⟨hne, hh⟩
    · rw [finalized_own hcall ho, List.map_append, List.map_append, List.map_singleton, List.map_singleton,
        retainedLength_concat, hh, prune_eq_drop, hi.history]
      exact rtake_concat_rtake _ _ _ _
    · rw [finalized_other hne, List.append_nil, hh, hi.history]
  · rcases ht.history_cases asset with ⟨price, hcall, _, ho, hh⟩ | ⟨hne, hh⟩
    · have hconf : Configured st := by
        rw [hcall] at ht
        exact ht.configured_of_finalize hi.configured
      rw [finalized_own hcall ho, List.map_append, List.map_singleton]
      intro k hk
      rcases List.mem_append.mp hk with hk | hk
      · exact hi.limits k hk
      · rw [List.mem_singleton.mp hk]
        exact hconf.retention_pos
    · rw [finalized_other hne, List.append_nil]
      exact hi.limits

end Steps

theorem retains (txs : List Invocation) (asset : Asset) :
    Retains asset (machine.log (finalized asset) .deployed txs) (after txs) := by
  have hstart : Retains asset [] .deployed := ⟨.inl rfl, rfl, fun _ h => (nomatch h)⟩
  exact machine.log_invariant (finalized asset) (Retains asset) (fun _ _ _ _ _ hi _ he => retains_step hi he) hstart
    (machine.along_inputs .deployed fun _ _ => trivial)

section Reads
variable {txs : List Invocation} {asset : Asset}

theorem readHistory_eq_rtake (txs : List Invocation) (asset : Asset) :
    readHistory (after txs) asset = (finalizedRecords asset txs).rtake (retainedRecords asset txs) :=
  (retains txs asset).history

theorem retainedRecords_le (txs : List Invocation) (asset : Asset) :
    retainedRecords asset txs ≤ (finalizedRecords asset txs).length := by
  have h := retainedLength_le ((machine.log (finalized asset) .deployed txs).map (·.2.toNat))
  rw [List.length_map] at h
  rwa [finalizedRecords, List.length_map]

/-- Once a record was finalized the history is never empty again. -/
theorem retainedRecords_pos (h : finalizedRecords asset txs ≠ []) : 0 < retainedRecords asset txs := by
  apply retainedLength_pos
  · intro hn
    rw [List.map_eq_nil_iff] at hn
    exact h (by rw [finalizedRecords, hn, List.map_nil])
  · exact (retains txs asset).limits

theorem lastprice_eq (txs : List Invocation) (asset : Asset) :
    lastprice (after txs) asset = (finalizedRecords asset txs).getLast? := by
  rw [lastprice, readHistory_eq_rtake]
  by_cases hne : finalizedRecords asset txs = []
  · rw [hne, List.rtake_nil]
  · exact getLast?_rtake (retainedRecords_pos hne)

/-- A finalization that has succeeded once leaves a price for ever. -/
theorem lastprice_isSome {pre post : List Invocation} {tx : Invocation} (hf : tx.call = .finalizePrice asset)
    (hc : machine.Commits (after pre) tx) : (lastprice (after (pre ++ tx :: post)) asset).isSome := by
  obtain ⟨out, st', he⟩ := machine.commits_iff.mp hc
  have hout : ∃ record, out.1 = .price record := by
    have ht := exec_eq_ok.mp he
    rw [hf] at ht
    cases ht with
    | finalizePrice => exact ⟨_, rfl⟩
  obtain ⟨record, ho⟩ := hout
  have hlogged : (record, (after pre).retention.getD defaultRetention) ∈
      machine.log (finalized asset) .deployed (pre ++ tx :: post) := by
    refine (machine.mem_log _ _ _ _).mpr ⟨pre, tx, post, out, st', rfl, he, ?_⟩
    rw [finalized_own hf ho]
    exact List.mem_singleton_self _
  have hne : finalizedRecords asset (pre ++ tx :: post) ≠ [] := List.ne_nil_of_mem (List.mem_map_of_mem hlogged)
  rwa [lastprice_eq, List.getLast?_isSome]

/-- The slice from the end that a read takes is the latest part of the stored history. -/
theorem prices_eq_rtake (st : Storage) (asset : Asset) (k : UInt32) :
    prices st asset k = if k = 0 ∨ readHistory st asset = [] then none
      else some ((readHistory st asset).rtake k.toNat) := by
  unfold prices
  by_cases hk : k = 0
  · rw [if_pos hk, if_pos (.inl hk)]
  · by_cases hne : readHistory st asset = []
    · rw [if_neg hk, if_pos (Or.inr hne), hne]
      rfl
    · have htake : (readHistory st asset).length - (if k.toNat < (readHistory st asset).length then k.toNat
          else (readHistory st asset).length) = (readHistory st asset).length - k.toNat := by
        split <;> omega
      rw [if_neg hk, if_neg (not_or.mpr ⟨hk, hne⟩)]
      simp only [List.isEmpty_iff, hne, if_false, htake]
      rfl

theorem prices_eq (txs : List Invocation) (asset : Asset) (k : UInt32) :
    prices (after txs) asset k = if k = 0 ∨ finalizedRecords asset txs = [] then none
      else some ((finalizedRecords asset txs).rtake (min k.toNat (retainedRecords asset txs))) := by
  have hempty : readHistory (after txs) asset = [] ↔ finalizedRecords asset txs = [] := by
    constructor
    · intro h
      by_contra hne
      have hlast := lastprice_eq txs asset
      rw [lastprice, h, List.getLast?_eq_some_getLast hne] at hlast
      cases hlast
    · intro h
      rw [readHistory_eq_rtake, h, List.rtake_nil]
  have hserved : (readHistory (after txs) asset).rtake k.toNat =
      (finalizedRecords asset txs).rtake (min k.toNat (retainedRecords asset txs)) := by
    rw [readHistory_eq_rtake, rtake_rtake]
  simp only [prices_eq_rtake, hempty, hserved]

/-- A successful finalization is the last of the history it has cut to the limit. -/
theorem finalize_retains {env : Env} {record : PriceData} {events : List Event}
    (h : machine.result (after txs) ⟨env, .finalizePrice asset⟩ = .ok (.price record, events)) :
    (readHistory (machine.step (after txs) ⟨env, .finalizePrice asset⟩) asset).length ≤
        ((after txs).retention.getD defaultRetention).toNat ∧
      (readHistory (machine.step (after txs) ⟨env, .finalizePrice asset⟩) asset).getLast? = some record := by
  have ht := exec_eq_ok.mp (machine.result_eq_ok.mp h)
  rcases ht.history_cases asset with ⟨_, _, _, ho, hh⟩ | ⟨hne, _⟩
  · injection ho with ho
    rw [← ho] at hh
    have hconf := ht.configured_of_finalize (deployed_or_configured txs)
    have hcut : readHistory (machine.step (after txs) ⟨env, .finalizePrice asset⟩) asset =
        (readHistory (after txs) asset ++ [record]).rtake
          ((after txs).retention.getD defaultRetention).toNat := by
      rw [hh, prune_eq_drop, List.rtake]
    rw [hcut, length_rtake, getLast?_rtake hconf.retention_pos, List.getLast?_concat]
    exact ⟨Nat.min_le_left _ _, rfl⟩
  · exact absurd rfl hne

end Reads

/-- In every reachable state the history is the latest part, of the retained length, of all records
finalized so far; every finalization leaves its own record last and keeps to the limit; and the reads
serve from that log. -/
theorem history_is_latest_of_finalized (txs : List Invocation) (asset : Asset) :
    (readHistory (after txs) asset <:+ finalizedRecords asset txs ∧
      (readHistory (after txs) asset).length = retainedRecords asset txs) ∧
    (∀ env record events,
      machine.result (after txs) ⟨env, .finalizePrice asset⟩ = .ok (.price record, events) →
      (readHistory (machine.step (after txs) ⟨env, .finalizePrice asset⟩) asset).length ≤
          ((after txs).retention.getD defaultRetention).toNat ∧
        (readHistory (machine.step (after txs) ⟨env, .finalizePrice asset⟩) asset).getLast? = some record) ∧
    (∀ k, prices (after txs) asset k = if k = 0 ∨ finalizedRecords asset txs = [] then none
      else some ((finalizedRecords asset txs).rtake (min k.toNat (retainedRecords asset txs)))) ∧
    lastprice (after txs) asset = (finalizedRecords asset txs).getLast? := by
  refine ⟨⟨?_, ?_⟩, fun _ _ _ h => finalize_retains h, prices_eq txs asset, lastprice_eq txs asset⟩
  · rw [readHistory_eq_rtake]
    exact rtake_suffix _ _
  · rw [readHistory_eq_rtake, length_rtake]
    exact Nat.min_eq_left (retainedRecords_le txs asset)

end AgriFeed.Oracle
