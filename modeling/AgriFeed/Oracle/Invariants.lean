import AgriFeed.Foundation.Windows
import AgriFeed.Oracle.Interface
import AgriFeed.Oracle.Median
import AgriFeed.Oracle.Transition

/-! What every run of the oracle keeps: its configuration is absent or complete, the stored prices
are positive, and stored times are ordered and no later than the ledger time. -/
namespace AgriFeed.Oracle
open Foundation

section Effects
variable {env : Env} {st st' : Storage} {call : Call} {out : Output}

/-- The pending list of one asset grows by the accepted submission, is emptied by its own
finalization, and is left alone by everything else. -/
theorem Transition.pending_cases (h : Transition env st call out st') (asset : Asset) :
    (∃ node price sourceTs, call = .submitPrice node asset price sourceTs ∧ node ∈ readNodes st ∧
      asset ∈ readCommodities st ∧ 0 < price ∧
      hasSubmitted (readPending st asset) node (roundToWindow st env.timestamp) = false ∧
      readPending st' asset = readPending st asset ++ [⟨node, price, sourceTs, env.timestamp⟩]) ∨
    (call = .finalizePrice asset ∧ readPending st' asset = []) ∨
    ((∀ node price sourceTs, call ≠ .submitPrice node asset price sourceTs) ∧ call ≠ .finalizePrice asset ∧
      readPending st' asset = readPending st asset) := by
  cases h with
  | @submitPrice node a price sourceTs hs hi hn ht hp hf =>
    by_cases ha : asset = a
    · subst ha
      exact .inl ⟨node, price, sourceTs, rfl, hn, ht, hp, hf, by simp⟩
    · refine .inr (.inr ⟨?_, by simp, by simp [ha]⟩)
      intro _ _ _ he
      cases he
      exact ha rfl
  | @finalizePrice a price hi hn ht hm hc =>
    by_cases ha : asset = a
    · subst ha
      exact .inr (.inl ⟨rfl, by simp⟩)
    · refine .inr (.inr ⟨by simp, ?_, by simp [ha]⟩)
      intro he
      cases he
      exact ha rfl
  | _ => exact .inr (.inr ⟨by simp, by simp, rfl⟩)

/-- The history of one asset changes only by its own finalization, which appends the median
of the pending prices and prunes from the front. -/
theorem Transition.history_cases (h : Transition env st call out st') (asset : Asset) :
    (∃ price, call = .finalizePrice asset ∧ median (readPending st asset) = .ok price ∧
      out.1 = .price ⟨price, roundToWindow st env.timestamp⟩ ∧
      readHistory st' asset = prune (st.retention.getD defaultRetention).toNat
        (readHistory st asset ++ [⟨price, roundToWindow st env.timestamp⟩])) ∨
    (call ≠ .finalizePrice asset ∧ readHistory st' asset = readHistory st asset) := by
  cases h with
  | submitPrice => exact .inr ⟨by simp, by simp⟩
  | @finalizePrice a price hi hn ht hm hc =>
    by_cases ha : asset = a
    · subst ha
      exact .inl ⟨price, rfl, hc, rfl, by simp⟩
    · refine .inr ⟨?_, by simp [ha]⟩
      intro he
      cases he
      exact ha rfl
  | _ => exact .inr ⟨by simp, rfl⟩

/-- A history gains the record of its own finalization and loses none but its oldest ones. -/
theorem Transition.history_suffix {tx : Invocation} (h : Transition tx.env st tx.call out st') (asset : Asset) :
    readHistory st' asset <:+ readHistory st asset ++ atFinalization asset (fun _ record => record) st tx out := by
  rcases h.history_cases asset with ⟨_, hcall, _, ho, hh⟩ | ⟨hne, hh⟩
  · rw [atFinalization_own hcall ho, hh, prune_eq_drop]
    exact List.drop_suffix _ _
  · rw [atFinalization_other hne, List.append_nil, hh]

/-- A pending submission was pending before, or it has just been accepted. -/
theorem Transition.mem_pending (h : Transition env st call out st') {asset : Asset} {sub : Submission}
    (hs : sub ∈ readPending st' asset) :
    sub ∈ readPending st asset ∨ (sub.node ∈ readNodes st ∧ 0 < sub.price ∧ sub.submittedAt = env.timestamp) := by
  rcases h.pending_cases asset with ⟨_, _, _, _, hn, _, hpos, _, he⟩ | ⟨_, he⟩ | ⟨_, _, he⟩
  · rw [he, List.mem_append, List.mem_singleton] at hs
    rcases hs with hs | rfl
    · exact .inl hs
    · exact .inr ⟨hn, hpos, rfl⟩
  · rw [he] at hs
    cases hs
  · rw [he] at hs
    exact .inl hs

/-- A stored record was stored before, or it is the median just finalized. -/
theorem Transition.mem_history (h : Transition env st call out st') {asset : Asset} {r : PriceData}
    (hr : r ∈ readHistory st' asset) :
    r ∈ readHistory st asset ∨
      (median (readPending st asset) = .ok r.price ∧ r.timestamp = roundToWindow st env.timestamp) := by
  rcases h.history_cases asset with ⟨_, _, hm, _, he⟩ | ⟨_, he⟩
  · rw [he, prune_eq_drop] at hr
    rcases List.mem_append.mp (List.mem_of_mem_drop hr) with hr | hr
    · exact .inl hr
    · rw [List.mem_singleton.mp hr]
      exact .inr ⟨hm, rfl⟩
  · rw [he] at hr
    exact .inl hr

/-- The node list is created empty, gains an unlisted node at its end, or loses a listed one. -/
theorem Transition.nodes_cases (h : Transition env st call out st') :
    (st.admin = none ∧ readNodes st' = []) ∨
    (∃ admin node, call = .addNode admin node ∧ node ∉ readNodes st ∧ readNodes st' = readNodes st ++ [node]) ∨
    (∃ admin node, call = .removeNode admin node ∧ node ∈ readNodes st ∧ readNodes st' = (readNodes st).erase node) ∨
    readNodes st' = readNodes st := by
  cases h with
  | initializeContract hs hf hp => exact .inl ⟨hf, rfl⟩
  | addNode hs ha hn => exact .inr (.inl ⟨_, _, rfl, hn, rfl⟩)
  | removeNode hs ha hm => exact .inr (.inr (.inl ⟨_, _, rfl, hm, rfl⟩))
  | _ => exact .inr (.inr (.inr rfl))

end Effects

/-- The stored history is the latest part of all records finalized so far. -/
theorem readHistory_suffix (txs : List Invocation) (asset : Asset) :
    readHistory (after txs) asset <:+ machine.log (atFinalization asset fun _ record => record) .deployed txs :=
  machine.log_suffix (readHistory · asset) _ (fun _ _ _ _ he => (exec_eq_ok.mp he).history_suffix asset) .deployed txs

/-- Everything an initialized contract has stored. -/
structure Configured (st : Storage) : Prop where
  admin : st.admin.isSome
  nodes : st.nodes.isSome
  threshold : st.threshold.isSome
  decimals : st.decimals.isSome
  baseAsset : st.baseAsset.isSome
  commodities : st.commodities.isSome
  positiveResolution : ∃ r, st.resolution = some r ∧ r ≠ 0
  positiveRetention : ∃ k, st.retention = some k ∧ k ≠ 0

theorem configured_step {env : Env} {st st' : Storage} {call : Call} {out : Output}
    (hi : st = .deployed ∨ Configured st) (h : Transition env st call out st') : Configured st' := by
  rcases hi with rfl | hc
  · cases h with
    | initializeContract hs hf hp => exact ⟨rfl, rfl, rfl, rfl, rfl, rfl, ⟨_, rfl, hp⟩, ⟨_, rfl, by decide⟩⟩
    | submitPrice hs hi => cases hi
    | finalizePrice hi => cases hi
    | extendInstanceTtl hi => cases hi
    | _ hs ha => cases ha
  · cases h with
    | initializeContract hs hf hp => exact ⟨rfl, rfl, rfl, rfl, rfl, rfl, ⟨_, rfl, hp⟩, ⟨_, rfl, by decide⟩⟩
    | addNode => exact { hc with nodes := rfl }
    | removeNode => exact { hc with nodes := rfl }
    | setThreshold => exact { hc with threshold := rfl }
    | setRetention hs ha hp => exact { hc with positiveRetention := ⟨_, rfl, hp⟩ }
    | addCommodity => exact { hc with commodities := rfl }
    | submitPrice => exact { hc with }
    | finalizePrice => exact { hc with }
    | _ => exact hc

/-- A run leaves the contract untouched or completely configured. -/
theorem deployed_or_configured (txs : List Invocation) : after txs = .deployed ∨ Configured (after txs) :=
  machine.run_invariant (fun st => st = .deployed ∨ Configured st)
    (fun _ _ _ _ hi he => .inr (configured_step hi (exec_eq_ok.mp he))) (.inl rfl) txs

/-- Of an untouched contract only the initialization can commit. -/
theorem Transition.fresh_or_configured {env : Env} {st st' : Storage} {call : Call} {out : Output}
    (hi : st = .deployed ∨ Configured st) (h : Transition env st call out st') :
    (st = .deployed ∧ ∃ admin decimals resolution baseAsset,
      call = .initializeContract admin decimals resolution baseAsset) ∨
    (Configured st ∧ st'.resolution = st.resolution) := by
  rcases hi with rfl | hc
  · cases h with
    | initializeContract hs hf hp => exact .inl ⟨rfl, _, _, _, _, rfl⟩
    | submitPrice hs hi => cases hi
    | finalizePrice hi => cases hi
    | extendInstanceTtl hi => cases hi
    | _ hs ha => cases ha
  · refine .inr ⟨hc, ?_⟩
    cases h with
    | initializeContract hs hf hp =>
      have := hc.admin
      rw [hf] at this
      cases this
    | _ => rfl

theorem configured_of_listed {st : Storage} (hi : st = .deployed ∨ Configured st) {node : Address}
    (hn : node ∈ readNodes st) : Configured st := by
  refine hi.resolve_left ?_
  rintro rfl
  cases hn

theorem configured_of_history {st : Storage} (hi : st = .deployed ∨ Configured st) {asset : Asset} {record : PriceData}
    (hm : record ∈ readHistory st asset) : Configured st := by
  refine hi.resolve_left ?_
  rintro rfl
  cases hm

theorem Transition.configured_of_finalize {env : Env} {st st' : Storage} {asset : Asset} {out : Output}
    (hi : st = .deployed ∨ Configured st) (h : Transition env st (.finalizePrice asset) out st') : Configured st := by
  rcases h.fresh_or_configured hi with ⟨_, _, _, _, _, hcall⟩ | ⟨hc, _⟩
  · cases hcall
  · exact hc

section Windows
variable {st : Storage}

theorem Configured.resolution_pos (hc : Configured st) : 0 < (resolution st).toNat := by
  obtain ⟨r, hr, hp⟩ := hc.positiveResolution
  rw [Oracle.resolution, hr, Option.getD_some]
  exact Nat.pos_of_ne_zero fun h => hp (UInt32.toNat_inj.mp h)

theorem Configured.retention_pos (hc : Configured st) : 0 < (st.retention.getD defaultRetention).toNat := by
  obtain ⟨k, hk, hp⟩ := hc.positiveRetention
  rw [hk, Option.getD_some]
  exact Nat.pos_of_ne_zero fun h => hp (UInt32.toNat_inj.mp h)

/-- On an initialized contract rounding is rounding down to the window; it never overflows. -/
theorem Configured.roundToWindow_toNat (hc : Configured st) (ts : UInt64) :
    (roundToWindow st ts).toNat = windowStart (resolution st).toNat ts.toNat := by
  have hp := hc.resolution_pos
  have hne : (st.resolution.getD 0).toUInt64 ≠ 0 := by
    intro h
    have := congrArg UInt64.toNat h
    rw [UInt32.toNat_toUInt64] at this
    exact hp.ne' this
  have hle := windowStart_le (resolution st).toNat ts.toNat
  rw [roundToWindow, if_neg hne, UInt64.toNat_mul, UInt64.toNat_div, UInt32.toNat_toUInt64]
  exact Nat.mod_eq_of_lt (hle.trans_lt ts.toNat_lt)

end Windows

structure PositivePrices (st : Storage) : Prop where
  pending : ∀ asset, ∀ sub ∈ readPending st asset, 0 < sub.price.val
  history : ∀ asset, ∀ r ∈ readHistory st asset, 0 < r.price.val

private theorem median_pos {pending : List Submission} {m : I128} (hp : ∀ sub ∈ pending, 0 < sub.price.val)
    (hm : median pending = .ok m) : 0 < m.val := by
  obtain ⟨hne, _, hv⟩ := median_eq_ok.mp hm
  rw [hv]
  apply le_truncatedMedian (a := 1) (by decide)
  · simpa [priceValues] using hne
  · exact priceValues_pos hp

/-- Submissions are checked to be positive and a median of positive prices is positive. -/
theorem positivePrices_step {env : Env} {st st' : Storage} {call : Call} {out : Output}
    (hp : PositivePrices st) (h : Transition env st call out st') : PositivePrices st' := by
  constructor
  · intro asset sub hs
    rcases h.mem_pending hs with hs | ⟨_, hpos, _⟩
    · exact hp.pending asset sub hs
    · exact hpos
  · intro asset r hr
    rcases h.mem_history hr with hr | ⟨hm, _⟩
    · exact hp.history asset r hr
    · exact median_pos (hp.pending asset) hm

theorem positivePrices_deployed : PositivePrices .deployed := ⟨fun _ _ h => (nomatch h), fun _ _ h => (nomatch h)⟩

theorem positivePrices (txs : List Invocation) : PositivePrices (after txs) :=
  machine.run_invariant PositivePrices (fun _ _ _ _ hp he => positivePrices_step hp (exec_eq_ok.mp he))
    positivePrices_deployed txs

/-- Stored times follow the order in which they were recorded, are no later than the ledger
time, and records are stamped with the start of a window. -/
structure Chronological (st : Storage) (now : Nat) : Prop where
  configured : st = .deployed ∨ Configured st
  submitted : ∀ asset, ∀ sub ∈ readPending st asset, sub.submittedAt.toNat ≤ now
  inOrder : ∀ asset, (readPending st asset).Pairwise fun a b => a.submittedAt.toNat ≤ b.submittedAt.toNat
  finalized : ∀ asset, ∀ r ∈ readHistory st asset, r.timestamp.toNat ≤ now
  rounded : ∀ asset, ∀ r ∈ readHistory st asset,
    windowStart (resolution st).toNat r.timestamp.toNat = r.timestamp.toNat
  nondecreasing : ∀ asset, (readHistory st asset).Pairwise fun a b => a.timestamp.toNat ≤ b.timestamp.toNat

theorem Chronological.later {st : Storage} {now t : Nat} (h : Chronological st now) (ht : now ≤ t) :
    Chronological st t :=
  { h with
    submitted := fun asset sub hs => (h.submitted asset sub hs).trans ht
    finalized := fun asset r hr => (h.finalized asset r hr).trans ht }

theorem chronological_deployed (now : Nat) : Chronological .deployed now :=
  ⟨.inl rfl, fun _ _ h => (nomatch h), fun _ => .nil, fun _ _ h => (nomatch h), fun _ _ h => (nomatch h), fun _ => .nil⟩

/-- Accepted submissions and finalized records are stamped at the time of their own call. -/
theorem chronological_step {env : Env} {st st' : Storage} {call : Call} {out : Output}
    (hi : Chronological st env.timestamp.toNat) (h : Transition env st call out st') :
    Chronological st' env.timestamp.toNat := by
  rcases h.fresh_or_configured hi.configured with ⟨rfl, _, _, _, _, rfl⟩ | ⟨hc, hres⟩
  · cases h with
    | initializeContract hs hf hp =>
      exact { chronological_deployed _ with
        configured := .inr (configured_step (.inl rfl) (.initializeContract hs hf hp))
        rounded := fun _ _ hm => (nomatch hm) }
  · have hr : resolution st' = resolution st := congrArg (Option.getD · 0) hres
    have hstamp := hc.roundToWindow_toNat env.timestamp
    refine ⟨.inr (configured_step hi.configured h), ?_, ?_, ?_, ?_, ?_⟩
    · intro asset sub hs
      rcases h.mem_pending hs with hs | ⟨_, _, htime⟩
      · exact hi.submitted asset sub hs
      · rw [htime]
    · intro asset
      rcases h.pending_cases asset with ⟨_, _, _, _, _, _, _, _, he⟩ | ⟨_, he⟩ | ⟨_, _, he⟩
      · rw [he]
        exact List.pairwise_append.mpr
          ⟨hi.inOrder asset, List.pairwise_singleton _ _, by simpa using hi.submitted asset⟩
      · rw [he]
        exact .nil
      · rw [he]
        exact hi.inOrder asset
    · intro asset r hm
      rcases h.mem_history hm with hm | ⟨_, htime⟩
      · exact hi.finalized asset r hm
      · rw [htime, hstamp]
        exact windowStart_le _ _
    · intro asset r hm
      rw [hr]
      rcases h.mem_history hm with hm | ⟨_, htime⟩
      · exact hi.rounded asset r hm
      · rw [htime, hstamp, windowStart_idem hc.resolution_pos]
    · intro asset
      rcases h.history_cases asset with ⟨_, _, _, _, he⟩ | ⟨_, he⟩
      · rw [he, prune_eq_drop]
        refine (List.pairwise_append.mpr ⟨hi.nondecreasing asset, List.pairwise_singleton _ _, ?_⟩).drop
        intro r hm r' hm'
        rw [List.mem_singleton.mp hm', hstamp, ← hi.rounded asset r hm]
        exact windowStart_mono _ (hi.finalized asset r hm)
      · rw [he]
        exact hi.nondecreasing asset

private theorem chronological_timed {txs : List Invocation} (ordered : Timely txs) :
    machine.Along (fun st tx => Chronological st tx.env.timestamp.toNat) .deployed txs ∧
      ∀ now, 0 ≤ now → (∀ tx ∈ txs, tx.env.timestamp.toNat ≤ now) → Chronological (after txs) now :=
  machine.along_timed _ Chronological (fun _ _ _ h ht => h.later ht)
    (fun _ _ _ _ hi he => chronological_step hi (exec_eq_ok.mp he)) (chronological_deployed 0) ordered
    fun _ _ => Nat.zero_le _

/-- Along a run with ordered times every invocation finds a chronological state. -/
theorem along_chronological {txs : List Invocation} (ordered : Timely txs) :
    machine.Along (fun st tx => Chronological st tx.env.timestamp.toNat) .deployed txs :=
  (chronological_timed ordered).1

/-- And so does anyone who comes after the run. -/
theorem chronological {txs : List Invocation} (ordered : Timely txs) {now : Nat}
    (hnow : ∀ tx ∈ txs, tx.env.timestamp.toNat ≤ now) : Chronological (after txs) now :=
  (chronological_timed ordered).2 now (Nat.zero_le now) hnow

end AgriFeed.Oracle
