import AgriFeed.Oracle.History
import AgriFeed.Oracle.Lookup

/-! Once a window is over its prices are never rewritten. Later finalizations only push its records out of the
retained history, the oldest first, so that a consumer who asks again gets the same price, a price that was finalized
after it in the same window, or none. -/
namespace AgriFeed.Oracle
open Foundation

/-- The retained records of the window of a time, oldest first. -/
def windowRecords (asset : Asset) (timestamp : UInt64) (txs : List Invocation) : List PriceData :=
  (readHistory (after txs) asset).filter fun record => Covers (after txs) record timestamp

/-- All invocations come after the end of the window of the time. -/
def WindowOver (st : Storage) (timestamp : UInt64) (later : List Invocation) : Prop :=
  ∀ tx ∈ later, timestamp.toNat / (resolution st).toNat < tx.env.timestamp.toNat / (resolution st).toNat

/-- Every limit under which the asset is finalized leaves room for all records of these invocations beside those
retained before them. -/
def RoomFor (asset : Asset) (st : Storage) (later : List Invocation) : Prop :=
  ∀ limit ∈ (machine.log (finalized asset) st later).map (·.2.toNat),
    (readHistory st asset).length + (machine.log (finalized asset) st later).length ≤ limit

instance (st : Storage) (timestamp : UInt64) (later : List Invocation) : Decidable (WindowOver st timestamp later) :=
  inferInstanceAs (Decidable (∀ tx ∈ later, _))

instance (asset : Asset) (st : Storage) (later : List Invocation) : Decidable (RoomFor asset st later) :=
  inferInstanceAs (Decidable (∀ limit ∈ (machine.log (finalized asset) st later).map (·.2.toNat),
    (readHistory st asset).length + (machine.log (finalized asset) st later).length ≤ limit))

section Continuation
variable {txs later : List Invocation} {asset : Asset} {timestamp : UInt64}

theorem price_eq_head (txs : List Invocation) (asset : Asset) (timestamp : UInt64) :
    price (after txs) asset timestamp = (windowRecords asset timestamp txs).head? := by
  rw [price_eq_find, windowRecords, List.head?_filter]

/-- The records that a continuation finalizes. -/
private abbrev records (asset : Asset) (st : Storage) (later : List Invocation) : List PriceData :=
  (machine.log (finalized asset) st later).map (·.1)

private theorem finalizedRecords_append (txs later : List Invocation) (asset : Asset) :
    finalizedRecords asset (txs ++ later) = finalizedRecords asset txs ++ records asset (after txs) later := by
  rw [finalizedRecords, machine.log_append, List.map_append]
  rfl

private theorem retainedRecords_append (txs later : List Invocation) (asset : Asset) :
    retainedRecords asset (txs ++ later) =
      retainedLength ((machine.log (finalized asset) .deployed txs).map (·.2.toNat) ++
        (machine.log (finalized asset) (after txs) later).map (·.2.toNat)) := by
  rw [retainedRecords, machine.log_append, List.map_append]
  rfl

/-- A history is part of what it was and of what has been finalized since. -/
theorem readHistory_append_suffix (txs later : List Invocation) (asset : Asset) :
    readHistory (after (txs ++ later)) asset <:+ readHistory (after txs) asset ++ records asset (after txs) later := by
  rw [readHistory_eq_rtake, readHistory_eq_rtake, finalizedRecords_append]
  apply rtake_append_suffix
  rw [retainedRecords_append, List.length_map]
  have hlength := retainedLength_append_le ((machine.log (finalized asset) .deployed txs).map (·.2.toNat))
    ((machine.log (finalized asset) (after txs) later).map (·.2.toNat))
  rwa [List.length_map] at hlength

/-- With enough room it is all of that. -/
theorem readHistory_append_of_room (hroom : RoomFor asset (after txs) later) :
    readHistory (after (txs ++ later)) asset = readHistory (after txs) asset ++ records asset (after txs) later := by
  have hretained : retainedRecords asset (txs ++ later) =
      retainedRecords asset txs + (records asset (after txs) later).length := by
    rw [retainedRecords_append, retainedLength_append_of_room, List.length_map, List.length_map]
    · rfl
    · intro limit hl
      have hlimit := hroom limit hl
      rw [readHistory_eq_rtake, length_rtake, Nat.min_eq_left (retainedRecords_le txs asset)] at hlimit
      rwa [List.length_map]
  rw [readHistory_eq_rtake, readHistory_eq_rtake, finalizedRecords_append, hretained]
  exact rtake_append_length _ _ (retainedRecords_le txs asset)

/-- Every later record is stamped with the start of the window of the invocation that finalized it. -/
theorem later_records_stamped (hc : Configured (after txs)) {record : PriceData}
    (hr : record ∈ records asset (after txs) later) :
    ∃ tx ∈ later, record.timestamp.toNat = windowStart (resolution (after txs)).toNat tx.env.timestamp.toNat := by
  obtain ⟨entry, he, rfl⟩ := List.mem_map.mp hr
  obtain ⟨pre, tx, post, out, st', rfl, hexec, hentry⟩ := (machine.mem_log _ _ _ _).mp he
  have ht := exec_eq_ok.mp hexec
  refine ⟨tx, List.mem_append_right _ List.mem_cons_self, ?_⟩
  rcases ht.history_cases asset with ⟨price, hcall, _, ho, _⟩ | ⟨hne, _⟩
  · rw [finalized_own hcall ho, List.mem_singleton] at hentry
    rw [hcall] at ht
    have hready := ht.configured_of_finalize (by rw [← after_append]; exact deployed_or_configured _)
    have hresolution : resolution (machine.run (after txs) pre) = resolution (after txs) :=
      congrArg (Option.getD · 0) (run_sameOrigin hc.admin pre).resolution
    rw [hentry, ← hresolution]
    exact hready.roundToWindow_toNat tx.env.timestamp
  · rw [finalized_other hne] at hentry
    cases hentry

/-- A window that is over gains no record. -/
theorem later_records_elsewhere (hc : Configured (after txs)) (hover : WindowOver (after txs) timestamp later) :
    (records asset (after txs) later).filter (fun record => Covers (after txs) record timestamp) = [] := by
  rw [List.filter_eq_nil_iff]
  intro record hr
  rw [decide_eq_true_iff]
  rintro ⟨hle, _⟩
  obtain ⟨tx, htx, hstamp⟩ := later_records_stamped hc hr
  have hdiv := Nat.div_le_div_right (c := (resolution (after txs)).toNat) hle
  rw [hstamp, windowStart_div hc.resolution_pos] at hdiv
  exact absurd (hover tx htx) (not_lt.mpr hdiv)

/-- A window can only be over if there are windows, from initialization on. -/
private theorem configured_of_windowOver (hover : WindowOver (after txs) timestamp later) (hne : later ≠ []) :
    Configured (after txs) := by
  rcases deployed_or_configured txs with h | hc
  · obtain ⟨tx, htx⟩ := List.exists_mem_of_ne_nil later hne
    have hlt := hover tx htx
    have hzero : (resolution (after txs)).toNat = 0 := by
      rw [h]
      rfl
    rw [hzero, Nat.div_zero, Nat.div_zero] at hlt
    exact absurd hlt (lt_irrefl 0)
  · exact hc

private theorem covers_append (hc : Configured (after txs)) (record : PriceData) :
    Covers (after (txs ++ later)) record timestamp ↔ Covers (after txs) record timestamp := by
  have hresolution : resolution (after (txs ++ later)) = resolution (after txs) := by
    rw [after_append]
    exact congrArg (Option.getD · 0) (run_sameOrigin hc.admin later).resolution
  rw [Covers, Covers, hresolution]

private theorem windowRecords_append (hc : Configured (after txs)) :
    windowRecords asset timestamp (txs ++ later) =
      (readHistory (after (txs ++ later)) asset).filter fun record => Covers (after txs) record timestamp := by
  rw [windowRecords]
  simp only [covers_append hc]

theorem windowRecords_suffix (hover : WindowOver (after txs) timestamp later) :
    windowRecords asset timestamp (txs ++ later) <:+ windowRecords asset timestamp txs := by
  by_cases hne : later = []
  · rw [hne, List.append_nil]
  · have hc := configured_of_windowOver hover hne
    have hsuffix := (readHistory_append_suffix txs later asset).filter
      fun record => decide (Covers (after txs) record timestamp)
    rw [List.filter_append, later_records_elsewhere hc hover, List.append_nil] at hsuffix
    rwa [windowRecords_append hc]

theorem windowRecords_of_room (hover : WindowOver (after txs) timestamp later)
    (hroom : RoomFor asset (after txs) later) :
    windowRecords asset timestamp (txs ++ later) = windowRecords asset timestamp txs := by
  by_cases hne : later = []
  · rw [hne, List.append_nil]
  · have hc := configured_of_windowOver hover hne
    rw [windowRecords_append hc, readHistory_append_of_room hroom, List.filter_append, later_records_elsewhere hc hover,
      List.append_nil, windowRecords]

end Continuation

/-- The price of a time is the first of the retained records of its window. Whatever comes after the window is over,
these are a last part of what they were: no record is added, none is changed, and none is lost while there is room. So a
time without a price never gets one, and a price that is replaced is replaced by a later one of its own window. -/
theorem closed_windows_are_final (txs later : List Invocation) (asset : Asset) (timestamp : UInt64)
    (hover : WindowOver (after txs) timestamp later) :
    price (after txs) asset timestamp = (windowRecords asset timestamp txs).head? ∧
      price (after (txs ++ later)) asset timestamp = (windowRecords asset timestamp (txs ++ later)).head? ∧
      windowRecords asset timestamp (txs ++ later) <:+ windowRecords asset timestamp txs ∧
      (price (after txs) asset timestamp = none → price (after (txs ++ later)) asset timestamp = none) ∧
      (RoomFor asset (after txs) later →
        windowRecords asset timestamp (txs ++ later) = windowRecords asset timestamp txs ∧
          price (after (txs ++ later)) asset timestamp = price (after txs) asset timestamp) := by
  refine ⟨price_eq_head txs asset timestamp, price_eq_head _ asset timestamp, windowRecords_suffix hover, ?_, ?_⟩
  · intro hnone
    rw [price_eq_head, List.head?_eq_none_iff] at hnone ⊢
    have hsuffix : windowRecords asset timestamp (txs ++ later) <:+ windowRecords asset timestamp txs :=
      windowRecords_suffix hover
    rw [hnone] at hsuffix
    exact List.suffix_nil.mp hsuffix
  · intro hroom
    have hsame : windowRecords asset timestamp (txs ++ later) = windowRecords asset timestamp txs :=
      windowRecords_of_room hover hroom
    rw [price_eq_head, price_eq_head, hsame]
    exact ⟨rfl, rfl⟩

/-- A finalization in the next window. -/
def nextWindow : List Invocation :=
  [submission ⟨1⟩ (.other "MAIZE") (.literal 105) 1090, finalization (.other "MAIZE") 1100]

theorem price_outlives_next_window :
    price (after (oneWindow ++ nextWindow)) (.other "MAIZE") 1079 = price (after oneWindow) (.other "MAIZE") 1079 :=
  ((closed_windows_are_final oneWindow nextWindow (.other "MAIZE") 1079 (by decide +kernel)).2.2.2.2
    (by decide +kernel)).2

end AgriFeed.Oracle
