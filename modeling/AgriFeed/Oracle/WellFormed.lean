import AgriFeed.Oracle.Invariants

/-! What a consumer may rely on in every record without checking it. -/
namespace AgriFeed.Oracle
open Foundation

/-- Every stored and served record is positive, tracked, rounded, not of the future, and in order. -/
structure WellFormed (st : Storage) (now : UInt64) : Prop where
  tracked : ∀ asset, readPending st asset ≠ [] ∨ readHistory st asset ≠ [] → asset ∈ assets st
  submitted : ∀ asset, ∀ sub ∈ readPending st asset, 1 ≤ sub.price.val
  finalized : ∀ asset, ∀ r ∈ readHistory st asset, 1 ≤ r.price.val
  rounded : ∀ asset, ∀ r ∈ readHistory st asset, (resolution st).toNat ∣ r.timestamp.toNat
  past : ∀ asset, ∀ r ∈ readHistory st asset, r.timestamp ≤ now
  nondecreasing : ∀ asset, (readHistory st asset).Pairwise fun a b => a.timestamp ≤ b.timestamp
  served : ∀ asset k rs, prices st asset k = some rs → rs.Pairwise fun a b => a.timestamp ≤ b.timestamp

section Tracking
variable {env : Env} {st st' : Storage} {call : Call} {out : Output}

/-- Assets with data are tracked. -/
structure Tracked (st : Storage) : Prop where
  configured : st = .deployed ∨ Configured st
  pending : ∀ asset, readPending st asset ≠ [] → asset ∈ readCommodities st
  history : ∀ asset, readHistory st asset ≠ [] → asset ∈ readCommodities st

/-- A tracked asset stays tracked. -/
theorem Transition.commodities_grow (h : Transition env st call out st') (hc : st.admin.isSome) {asset : Asset}
    (hm : asset ∈ readCommodities st) : asset ∈ readCommodities st' := by
  cases h with
  | initializeContract hs hf =>
    rw [hf] at hc
    cases hc
  | addCommodity => exact List.mem_append_left _ hm
  | _ => exact hm

/-- Only tracked assets accept submissions, and only submitted assets are finalized. -/
theorem tracked_step (hi : Tracked st) (h : Transition env st call out st') : Tracked st' := by
  have hconf := configured_step hi.configured h
  rcases h.fresh_or_configured hi.configured with ⟨rfl, _, _, _, _, rfl⟩ | ⟨hc, _⟩
  · cases h with
    | initializeContract => exact ⟨.inr hconf, fun _ hn => absurd rfl hn, fun _ hn => absurd rfl hn⟩
  · refine ⟨.inr hconf, fun asset hn => h.commodities_grow hc.admin ?_, fun asset hn => h.commodities_grow hc.admin ?_⟩
    · rcases h.pending_cases asset with ⟨_, _, _, _, _, ht, _⟩ | ⟨_, he⟩ | ⟨_, _, he⟩
      · exact ht
      · exact absurd he hn
      · rw [he] at hn
        exact hi.pending asset hn
    · rcases h.history_cases asset with ⟨_, _, hm, _⟩ | ⟨_, he⟩
      · exact hi.pending asset (median_eq_ok.mp hm).1
      · rw [he] at hn
        exact hi.history asset hn

theorem tracked (txs : List Invocation) : Tracked (after txs) := by
  have hstart : Tracked .deployed := ⟨.inl rfl, fun _ hn => absurd rfl hn, fun _ hn => absurd rfl hn⟩
  exact machine.run_invariant Tracked (fun _ _ _ _ hi he => tracked_step hi (exec_eq_ok.mp he)) hstart txs

end Tracking

/-- In every state that a run with ordered times reaches, at any later time, all records are well formed. -/
theorem records_well_formed (txs : List Invocation) (ordered : Timely txs) (now : UInt64)
    (hnow : ∀ tx ∈ txs, tx.env.timestamp ≤ now) : WellFormed (after txs) now := by
  have ht := tracked txs
  have hp := positivePrices txs
  have hc : Chronological (after txs) now.toNat :=
    chronological ordered fun tx htx => UInt64.le_iff_toNat_le.mp (hnow tx htx)
  have hordered (asset : Asset) : (readHistory (after txs) asset).Pairwise fun a b => a.timestamp ≤ b.timestamp :=
    (hc.nondecreasing asset).imp UInt64.le_iff_toNat_le.mpr
  refine ⟨?_, hp.pending, hp.history, ?_, ?_, hordered, ?_⟩
  · intro asset h
    exact h.elim (ht.pending asset) (ht.history asset)
  · intro asset r hr
    rw [← hc.rounded asset r hr]
    exact Nat.dvd_mul_left _ _
  · intro asset r hr
    exact UInt64.le_iff_toNat_le.mpr (hc.finalized asset r hr)
  · intro asset k rs hs
    exact (hordered asset).sublist (prices_suffix hs).sublist

/-- Two rounds in neighbouring windows. -/
theorem records_of_two_rounds :
    WellFormed (after (opening ⟨0⟩ 60 [⟨1⟩] 1 (.other "MAIZE") ++
      [submission ⟨1⟩ (.other "MAIZE") (.literal 95) 1030, finalization (.other "MAIZE") 1030,
        submission ⟨1⟩ (.other "MAIZE") (.literal 105) 1090, finalization (.other "MAIZE") 1090])) 1100 :=
  records_well_formed _ (by decide +kernel) 1100 (by decide +kernel)

end AgriFeed.Oracle
