import AgriFeed.Deployment
import AgriFeed.Oracle.History

/-! The price that an agreement settles with is the last one its oracle has finalized. The oracle never loses
its last price, so a settlement and a cancellation of collateral exclude each other for good. -/
namespace AgriFeed.Deployment
open Foundation Pricefloor

section Joint
variable {L : Type} (tokens : Tokens L) (self source : Address)

/-- The records that successful finalizations of the asset have returned in a joint run, oldest first. -/
def finalizedRecords (asset : Oracle.Asset) (ledger : L) (inputs : List (Oracle.Invocation ⊕ Input)) :
    List Oracle.PriceData :=
  ((machine tokens self source).log (Machine.leftLog (Oracle.finalized asset)) (.deployed, ⟨.deployed, ledger⟩)
    inputs).map (·.1)

theorem after_fst (ledger : L) (inputs : List (Oracle.Invocation ⊕ Input)) :
    (after tokens self source ledger inputs).1 = Oracle.after (inputs.filterMap Sum.getLeft?) := by
  obtain ⟨calls, hr⟩ := Oracle.machine.interleave_run (Pricefloor.machine tokens self) (reading source) .deployed
    ⟨.deployed, ledger⟩ inputs
  exact congrArg Prod.fst hr

/-- What the agreement can read is the last record finalized in the joint run. -/
theorem lastprice_eq (ledger : L) (inputs : List (Oracle.Invocation ⊕ Input)) (asset : Oracle.Asset) :
    Oracle.lastprice (after tokens self source ledger inputs).1 asset =
      (finalizedRecords tokens self source asset ledger inputs).getLast? := by
  rw [after_fst, Oracle.lastprice_eq, finalizedRecords, machine, Machine.interleave_log]
  rfl

theorem lastprice_isSome {asset : Oracle.Asset} (ledger : L) {pre post : List (Oracle.Invocation ⊕ Input)}
    {tx : Oracle.Invocation} (hf : tx.call = .finalizePrice asset)
    (hc : (machine tokens self source).Commits (after tokens self source ledger pre) (.inl tx)) :
    (Oracle.lastprice (after tokens self source ledger (pre ++ .inl tx :: post)).1 asset).isSome := by
  have hcommit : Oracle.machine.Commits (after tokens self source ledger pre).1 tx :=
    (Oracle.machine.interleave_commits_inl (Pricefloor.machine tokens self) (reading source) _ _ tx).mp hc
  rw [after_fst] at hcommit ⊢
  rw [List.filterMap_append]
  exact Oracle.lastprice_isSome hf hcommit

section Calls
variable {s : Oracle.Storage × World L} {terms : Terms} {env : Env} {feed : Feed}

/-- Collateral can only be cancelled while the oracle of the terms has no price. -/
theorem cancel_unpriced (holds : s.2.storage.Holds terms) (ho : terms.oracle = source)
    (hfunded : s.2.storage.funded = some true) {caller : Address}
    (hc : (machine tokens self source).Commits s (.inr (.invoke ⟨env, feed, .cancel caller⟩))) :
    Oracle.lastprice s.1 (toOracleAsset terms.commodity) = none := by
  obtain ⟨_, _, ht⟩ := Pricefloor.commits_iff.mp ((commits_call tokens self source s.1 s.2 _).mp hc)
  rw [← quote_reading ho feed s.1]
  cases ht with
  | cancelFunded _ _ _ _ _ _ _ _ _ horacle hcommodity hquote =>
    cases horacle.symm.trans holds.oracle
    cases hcommodity.symm.trans holds.commodity
    exact hquote
  | cancelUnfunded _ _ _ _ _ _ hu =>
    rw [hfunded] at hu
    cases hu

/-- A settlement divides the collateral at the last price of the oracle of the terms, and reports it. -/
theorem settle_priced (holds : s.2.storage.Holds terms) (ho : terms.oracle = source) {out : Output}
    (hr : (machine tokens self source).result s (.inr (.invoke ⟨env, feed, .settle⟩)) = .ok (.inr out)) :
    ∃ record payout refund, Oracle.lastprice s.1 (toOracleAsset terms.commodity) = some record ∧
      settlementShares terms.floorPrice terms.notional record.price
        (tokens.balance s.2.ledger terms.settlementToken self) = .ok (payout, refund) ∧
      out = (.payout payout, [.settled terms.farmer payout record.price]) := by
  have hown := (Oracle.machine.interleave_result_inr (Pricefloor.machine tokens self) (reading source)).mp hr
  obtain ⟨w', ht⟩ : ∃ w', Transition tokens self s.2 (reading source s.1 (.invoke ⟨env, feed, .settle⟩)) out w' :=
    ⟨_, Pricefloor.exec_eq_ok.mp ((Pricefloor.machine tokens self).result_eq_ok.mp hown)⟩
  rw [← quote_reading ho feed s.1]
  exact ht.settle_terms holds

theorem settle_needs_price (holds : s.2.storage.Holds terms) (ho : terms.oracle = source)
    (hc : (machine tokens self source).Commits s (.inr (.invoke ⟨env, feed, .settle⟩))) :
    (Oracle.lastprice s.1 (toOracleAsset terms.commodity)).isSome := by
  obtain ⟨_, _, ht⟩ := Pricefloor.commits_iff.mp ((commits_call tokens self source s.1 s.2 _).mp hc)
  rw [← quote_reading ho feed s.1]
  obtain ⟨record, _, _, hq, _⟩ := ht.settle_terms holds
  rw [hq, Option.isSome_some]

end Calls
end Joint

/-- After a successful finalization there is a price in every later state, so collateral that depends on it is
never cancelled; every settlement is made at the price finalized last; and at no time would both a
settlement and a cancellation of collateral succeed. -/
theorem settle_and_cancel_never_compete {L : Type} (tokens : Tokens L) (self source : Address) (ledger : L)
    (inputs : List (Oracle.Invocation ⊕ Input)) :
    (∀ asset pre tx post, inputs = pre ++ .inl tx :: post → tx.call = .finalizePrice asset →
      (machine tokens self source).Commits (after tokens self source ledger pre) (.inl tx) →
      (Oracle.lastprice (after tokens self source ledger inputs).1 asset).isSome) ∧
    ∀ terms, (after tokens self source ledger inputs).2.storage.Holds terms → terms.oracle = source →
      (∀ pre tx post, inputs = pre ++ .inl tx :: post → tx.call = .finalizePrice (toOracleAsset terms.commodity) →
        (machine tokens self source).Commits (after tokens self source ledger pre) (.inl tx) →
        (after tokens self source ledger inputs).2.storage.funded = some true → ∀ env feed caller,
          ¬ (machine tokens self source).Commits (after tokens self source ledger inputs)
            (.inr (.invoke ⟨env, feed, .cancel caller⟩))) ∧
      (∀ env feed out, (machine tokens self source).result (after tokens self source ledger inputs)
          (.inr (.invoke ⟨env, feed, .settle⟩)) = .ok (.inr out) →
        ∃ record payout refund,
          (finalizedRecords tokens self source (toOracleAsset terms.commodity) ledger inputs).getLast? = some record ∧
          settlementShares terms.floorPrice terms.notional record.price
            (tokens.balance (after tokens self source ledger inputs).2.ledger terms.settlementToken self) =
              .ok (payout, refund) ∧
          out = (.payout payout, [.settled terms.farmer payout record.price])) ∧
      ∀ settleEnv settleFeed cancelEnv cancelFeed caller,
        (after tokens self source ledger inputs).2.storage.funded = some true →
        ¬ ((machine tokens self source).Commits (after tokens self source ledger inputs)
              (.inr (.invoke ⟨settleEnv, settleFeed, .settle⟩)) ∧
            (machine tokens self source).Commits (after tokens self source ledger inputs)
              (.inr (.invoke ⟨cancelEnv, cancelFeed, .cancel caller⟩))) := by
  have hpriced : ∀ asset pre tx post, inputs = pre ++ .inl tx :: post → tx.call = .finalizePrice asset →
      (machine tokens self source).Commits (after tokens self source ledger pre) (.inl tx) →
      (Oracle.lastprice (after tokens self source ledger inputs).1 asset).isSome := by
    rintro asset pre tx post rfl hf hc
    exact lastprice_isSome tokens self source ledger hf hc
  refine ⟨hpriced, fun terms holds ho => ⟨?_, ?_, ?_⟩⟩
  · intro pre tx post hs hf hc hfunded env feed caller hcancel
    have hsome := hpriced _ pre tx post hs hf hc
    rw [cancel_unpriced tokens self source holds ho hfunded hcancel] at hsome
    cases hsome
  · intro env feed out hr
    obtain ⟨record, payout, refund, hl, hd, hout⟩ := settle_priced tokens self source holds ho hr
    rw [lastprice_eq] at hl
    exact ⟨record, payout, refund, hl, hd, hout⟩
  · rintro settleEnv settleFeed cancelEnv cancelFeed caller hfunded ⟨hsettle, hcancel⟩
    have hsome := settle_needs_price tokens self source holds ho hsettle
    rw [cancel_unpriced tokens self source holds ho hfunded hcancel] at hsome
    cases hsome

end AgriFeed.Deployment
