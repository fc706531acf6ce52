import AgriFeed.Foundation.Retention
import AgriFeed.Oracle.Authority
import AgriFeed.Oracle.Invariants
import Mathlib.Data.List.Find

/-! The lookup of a price by its time. The contract searches for a record stamped with the rounded time, which is the
first record whose window covers it, since every record is stamped with the start of the window it was finalized
in. -/
namespace AgriFeed.Oracle
open Foundation

/-- The window of the record, from its stamp on, covers the time. -/
def Covers (st : Storage) (record : PriceData) (timestamp : UInt64) : Prop :=
  record.timestamp.toNat ≤ timestamp.toNat ∧
    timestamp.toNat < record.timestamp.toNat + (resolution st).toNat

instance (st : Storage) (record : PriceData) (timestamp : UInt64) : Decidable (Covers st record timestamp) :=
  inferInstanceAs (Decidable (_ ∧ _))

/-- The record a committed finalization of the asset has returned, and the ledger time of that finalization. -/
def finalizedAt (asset : Asset) (st : Storage) (tx : Invocation) (out : Output) : List (PriceData × UInt64) :=
  atFinalization asset (fun _ record => (record, tx.env.timestamp)) st tx out

/-- The finalizations of a run whose records are retained: as many of the latest as the history has entries. -/
def retainedFinalizations (asset : Asset) (txs : List Invocation) : List (PriceData × UInt64) :=
  (machine.log (finalizedAt asset) .deployed txs).rtake (readHistory (after txs) asset).length

section Steps
variable {st st' : Storage} {tx : Invocation} {out : Output} {asset : Asset}

/-- Every finalization has stamped its record with the start of the window it came in. -/
structure Stamped (log : List (PriceData × UInt64)) (st : Storage) : Prop where
  configured : (st = .deployed ∧ log = []) ∨ Configured st
  stamped : ∀ entry ∈ log, entry.1.timestamp.toNat = windowStart (resolution st).toNat entry.2.toNat

theorem stamped_step {log : List (PriceData × UInt64)} (hi : Stamped log st)
    (he : machine.exec st tx = .ok (out, st')) : Stamped (log ++ finalizedAt asset st tx out) st' := by
  have ht := exec_eq_ok.mp he
  rcases hi.configured with ⟨rfl, rfl⟩ | hc
  · have hnone : finalizedAt asset .deployed tx out = [] := by
      rcases ht.history_cases asset with ⟨_, _, hm, _⟩ | ⟨hne, _⟩
      · exact absurd rfl (median_eq_ok.mp hm).1
      · exact atFinalization_other hne
    rw [hnone]
    exact ⟨.inr (configured_step (.inl rfl) ht), fun _ hm => nomatch hm⟩
  · have hr : resolution st' = resolution st := congrArg (Option.getD · 0) (ht.sameOrigin hc.admin).resolution
    refine ⟨.inr (configured_step (.inr hc) ht), ?_⟩
    rw [hr]
    intro entry hm
    rcases List.mem_append.mp hm with hm | hm
    · exact hi.stamped entry hm
    · rcases ht.history_cases asset with ⟨_, hcall, _, ho, _⟩ | ⟨hne, _⟩
      · rw [finalizedAt, atFinalization_own hcall ho, List.mem_singleton] at hm
        rw [hm]
        exact hc.roundToWindow_toNat tx.env.timestamp
      · rw [finalizedAt, atFinalization_other hne] at hm
        cases hm

theorem stamped (txs : List Invocation) (asset : Asset) :
    Stamped (machine.log (finalizedAt asset) .deployed txs) (after txs) := by
  have hstart : Stamped [] .deployed := ⟨.inl ⟨rfl, rfl⟩, fun _ hm => nomatch hm⟩
  exact machine.log_invariant (finalizedAt asset) Stamped (fun _ _ _ _ _ hi _ he => stamped_step hi he) hstart
    (machine.along_inputs .deployed fun _ _ => trivial)

end Steps

section Reads
variable {txs : List Invocation} {asset : Asset} {timestamp : UInt64}

theorem map_retainedFinalizations (txs : List Invocation) (asset : Asset) :
    (retainedFinalizations asset txs).map (·.1) = readHistory (after txs) asset := by
  apply map_rtake_of_suffix
  rw [← machine.log_map]
  simp only [finalizedAt, map_atFinalization]
  exact readHistory_suffix txs asset

private theorem stamp_eq {entry : PriceData × UInt64} (hm : entry ∈ retainedFinalizations asset txs) :
    entry.1.timestamp.toNat = windowStart (resolution (after txs)).toNat entry.2.toNat :=
  (stamped txs asset).stamped entry ((rtake_suffix _ _).mem hm)

/-- A retained record covers the times of the window it was finalized in. -/
theorem covers_iff {entry : PriceData × UInt64} (hc : Configured (after txs))
    (hm : entry ∈ retainedFinalizations asset txs) :
    Covers (after txs) entry.1 timestamp ↔
      entry.2.toNat / (resolution (after txs)).toNat = timestamp.toNat / (resolution (after txs)).toNat := by
  rw [Covers, stamp_eq hm, eq_comm, same_window_iff hc.resolution_pos]

/-- The rounded time is the stamp of the records that cover the time. -/
theorem stamp_eq_iff {record : PriceData} (hc : Configured (after txs)) (hm : record ∈ readHistory (after txs) asset) :
    record.timestamp = roundToWindow (after txs) timestamp ↔ Covers (after txs) record timestamp := by
  rw [← map_retainedFinalizations] at hm
  obtain ⟨entry, he, rfl⟩ := List.mem_map.mp hm
  rw [covers_iff hc he, ← UInt64.toNat_inj, stamp_eq he, hc.roundToWindow_toNat, windowStart_eq_iff hc.resolution_pos]

/-- Searching for the rounded time is searching for a record that covers the time. -/
theorem price_eq_find (txs : List Invocation) (asset : Asset) (timestamp : UInt64) :
    price (after txs) asset timestamp =
      (readHistory (after txs) asset).find? fun record => Covers (after txs) record timestamp := by
  rcases deployed_or_configured txs with h | hc
  · rw [h]
    rfl
  · apply List.find?_congr
    intro record hm
    exact decide_eq_decide.mpr (stamp_eq_iff hc hm)

theorem price_eq_some_iff (txs : List Invocation) (asset : Asset) (timestamp : UInt64) (record : PriceData) :
    price (after txs) asset timestamp = some record ↔
      (after txs).admin.isSome ∧ ∃ older newer, readHistory (after txs) asset = older ++ record :: newer ∧
        Covers (after txs) record timestamp ∧ ∀ r ∈ older, ¬ Covers (after txs) r timestamp := by
  simp only [price_eq_find, List.find?_eq_some_iff_append, decide_eq_true_iff, Bool.not_eq_true',
    decide_eq_false_iff_not]
  constructor
  · rintro ⟨hcovers, older, newer, hh, holder⟩
    have hm : record ∈ readHistory (after txs) asset := hh ▸ List.mem_append_cons_self
    exact ⟨(configured_of_history (deployed_or_configured txs) hm).admin, older, newer, hh, hcovers, holder⟩
  · rintro ⟨_, older, newer, hh, hcovers, holder⟩
    exact ⟨hcovers, older, newer, hh, holder⟩

/-- All times of one window are rounded alike. -/
theorem price_congr {other : UInt64}
    (h : timestamp.toNat / (resolution (after txs)).toNat = other.toNat / (resolution (after txs)).toNat) :
    price (after txs) asset timestamp = price (after txs) asset other := by
  rcases deployed_or_configured txs with hd | hc
  · rw [hd]
    rfl
  · have hround : roundToWindow (after txs) timestamp = roundToWindow (after txs) other := by
      rw [← UInt64.toNat_inj, hc.roundToWindow_toNat, hc.roundToWindow_toNat, windowStart, windowStart, h]
    rw [price, price, hround]

theorem price_eq_none_iff (txs : List Invocation) (asset : Asset) (timestamp : UInt64) :
    price (after txs) asset timestamp = none ↔ ∀ entry ∈ retainedFinalizations asset txs,
      entry.2.toNat / (resolution (after txs)).toNat ≠ timestamp.toNat / (resolution (after txs)).toNat := by
  rw [price_eq_find, List.find?_eq_none, ← map_retainedFinalizations, List.forall_mem_map]
  refine forall_congr' fun entry => forall_congr' fun hm => ?_
  have hstored : entry.1 ∈ readHistory (after txs) asset :=
    map_retainedFinalizations txs asset ▸ List.mem_map_of_mem hm
  rw [decide_eq_true_iff, covers_iff (configured_of_history (deployed_or_configured txs) hstored) hm]

end Reads

/-- A lookup serves the first retained record, from the oldest, whose window covers the time. It answers alike
throughout a window, and nothing exactly if none of the retained records was finalized in that window. -/
theorem price_is_window_lookup (txs : List Invocation) (asset : Asset) (timestamp : UInt64) :
    (∀ record, price (after txs) asset timestamp = some record ↔
      (after txs).admin.isSome ∧ ∃ older newer, readHistory (after txs) asset = older ++ record :: newer ∧
        Covers (after txs) record timestamp ∧ ∀ r ∈ older, ¬ Covers (after txs) r timestamp) ∧
    (∀ other : UInt64, timestamp.toNat / (resolution (after txs)).toNat = other.toNat / (resolution (after txs)).toNat →
      price (after txs) asset timestamp = price (after txs) asset other) ∧
    (retainedFinalizations asset txs).map (·.1) = readHistory (after txs) asset ∧
    (price (after txs) asset timestamp = none ↔ ∀ finalization ∈ retainedFinalizations asset txs,
      finalization.2.toNat / (resolution (after txs)).toNat ≠ timestamp.toNat / (resolution (after txs)).toNat) :=
  ⟨price_eq_some_iff txs asset timestamp, fun _ => price_congr, map_retainedFinalizations txs asset,
    price_eq_none_iff txs asset timestamp⟩

/-- One price in the window from 1020 to 1079. -/
def oneWindow : List Invocation :=
  opening ⟨0⟩ 60 [⟨1⟩] 1 (.other "MAIZE") ++
    [submission ⟨1⟩ (.other "MAIZE") (.literal 95) 1030, finalization (.other "MAIZE") 1050]

example : price (after oneWindow) (.other "MAIZE") 1079 = some ⟨.literal 95, 1020⟩ ∧
    price (after oneWindow) (.other "MAIZE") 1080 = none := by decide +kernel

end AgriFeed.Oracle
