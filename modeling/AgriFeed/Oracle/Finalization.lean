import AgriFeed.Oracle.Invariants

/-! When accepted prices can block the finalization of an asset. Each price is positive and fits,
but the two middle prices of an even count are added before they are halved. -/
namespace AgriFeed.Oracle
open Foundation

section Blocking
variable {st : Storage} {asset : Asset}

/-- Once its guards hold, a finalization fails exactly as the median does. -/
private theorem finalize_error {env : Env} {e : Fault Error} (hready : st.admin.isSome)
    (hne : readPending st asset ≠ []) (hset : st.threshold.getD 0 ≠ 0)
    (hmet : (st.threshold.getD 0).toNat ≤ (readPending st asset).length)
    (hm : median (readPending st asset) = .error e) :
    machine.result st ⟨env, .finalizePrice asset⟩ = .error e := by
  have hi : requireInitialized st = .ok () := requireInitialized_eq_ok.mpr hready
  have hp : (failIf (readPending st asset).isEmpty .noPendingSubmissions : Outcome Error Unit) = .ok () := by
    simpa using hne
  have ht : (failIf (st.threshold.getD 0 = 0 ∨ (readPending st asset).length < (st.threshold.getD 0).toNat)
      .thresholdNotMet : Outcome Error Unit) = .ok () := by
    rw [failIf_eq_ok, not_or, not_lt]
    exact ⟨hset, hmet⟩
  have hf : finalizePrice env st asset = .error e := by
    simp only [finalizePrice, hi, hp, ht, hm, ok_bind, error_bind]
  apply machine.result_eq_error.mpr
  change (finalizePrice env st asset).map Receipt.priced = _
  rw [hf]
  rfl

end Blocking

/-- In a reachable state with enough submissions finalization succeeds exactly for an odd count or
for middle prices whose sum fits; otherwise it returns the price error. -/
theorem finalize_succeeds_iff_middles_fit (txs : List Invocation) (env : Env) (asset : Asset)
    (hset : (after txs).threshold.getD 0 ≠ 0)
    (hmet : ((after txs).threshold.getD 0).toNat ≤ (readPending (after txs) asset).length) :
    (machine.Commits (after txs) ⟨env, .finalizePrice asset⟩ ∧
      machine.result (after txs) ⟨env, .finalizePrice asset⟩ ≠ .error (.contract .invalidPrice)) ↔
    ((readPending (after txs) asset).length % 2 = 1 ∨
      lowerMiddle (priceValues (readPending (after txs) asset)) +
        upperMiddle (priceValues (readPending (after txs) asset)) < 2 ^ 127) := by
  have hne : readPending (after txs) asset ≠ [] := by
    intro h
    rw [h] at hmet
    exact hset (UInt32.toNat_inj.mp (Nat.le_zero.mp hmet))
  have hready : (after txs).admin.isSome := by
    rcases deployed_or_configured txs with h | h
    · rw [h] at hset
      exact absurd rfl hset
    · exact h.admin
  rw [← middlesFit_iff hne ((positivePrices txs).pending asset)]
  constructor
  · rintro ⟨_, hok⟩
    by_contra hover
    exact hok (finalize_error hready hne hset hmet (median_overflow hne hover))
  · intro hfit
    obtain ⟨price, hm⟩ := exists_median hne hfit
    have hc : machine.Commits (after txs) ⟨env, .finalizePrice asset⟩ :=
      commits_iff.mpr ⟨_, _, .finalizePrice hready hne hset hmet hm⟩
    refine ⟨hc, ?_⟩
    obtain ⟨_, _, _, _, _, hr⟩ := finalize_commits (Call.mem_finalizes.mpr rfl) hc
    rw [hr]
    exact fun h => nomatch h

/-- Two nodes submit a price each and meet the threshold. -/
def twoPrices (first second : I128) : List Invocation :=
  opening ⟨0⟩ 60 [⟨1⟩, ⟨2⟩] 2 (.other "MAIZE") ++
    [submission ⟨1⟩ (.other "MAIZE") first 1030, submission ⟨2⟩ (.other "MAIZE") second 1040]

theorem finalize_succeeds_of_ordinary_prices :
    machine.Commits (after (twoPrices (.literal 95) (.literal 105))) (finalization (.other "MAIZE") 1050) ∧
      machine.result (after (twoPrices (.literal 95) (.literal 105))) (finalization (.other "MAIZE") 1050) ≠
        .error (.contract .invalidPrice) :=
  (finalize_succeeds_iff_middles_fit (twoPrices (.literal 95) (.literal 105)) ⟨1050, []⟩ (.other "MAIZE")
    (by decide +kernel) (by decide +kernel)).mpr (.inr (by decide +kernel))

/-- Two accepted prices at the upper end of their type block finalization. -/
theorem ceiling_prices_block_finalization :
    ¬ ∀ (txs : List Invocation) (env : Env) (asset : Asset), (after txs).threshold.getD 0 ≠ 0 →
      ((after txs).threshold.getD 0).toNat ≤ (readPending (after txs) asset).length →
      machine.Commits (after txs) ⟨env, .finalizePrice asset⟩ ∧
        machine.result (after txs) ⟨env, .finalizePrice asset⟩ ≠ .error (.contract .invalidPrice) := by
  intro h
  have hblocked := (h (twoPrices (.literal (2 ^ 127 - 1)) (.literal (2 ^ 127 - 1))) ⟨1050, []⟩ (.other "MAIZE")
    (by decide +kernel) (by decide +kernel)).2
  exact hblocked (by decide +kernel)

end AgriFeed.Oracle
