import AgriFeed.Deployment.Pricing
import AgriFeed.Oracle.Batches
import AgriFeed.Oracle.Robustness
import AgriFeed.Pricefloor.Payouts

/-! What the farmer gets out of oracle and agreement together. A settlement makes up for the market price as far as
the collateral goes, and the price it uses is kept in bounds by any majority of the submissions it came from. -/
namespace AgriFeed.Deployment
open Foundation Pricefloor

section Value
variable {floorPrice notional marketPrice collateral : Int}

/-- The quantity sold at the market and what is owed are the quantity at the floor, unless the collateral runs out. -/
theorem proceeds_eq (h : 0 ≤ collateral) :
    marketPrice * notional + owed floorPrice notional marketPrice collateral =
      min (max floorPrice marketPrice * notional) (marketPrice * notional + collateral) := by
  unfold owed
  split
  · rename_i hm
    rw [max_eq_right hm, Int.add_zero, min_eq_left (Int.le_add_of_nonneg_right h)]
  · rename_i hm
    rw [max_eq_left (Int.not_le.mp hm).le, Int.add_comm, min_add, Int.sub_mul, Int.sub_add_cancel,
      Int.add_comm collateral]

/-- A lower price is never worth less to the farmer. -/
theorem owed_antitone (hq : 0 ≤ notional) (hc : 0 ≤ collateral) {price price' : Int} (h : price ≤ price') :
    owed floorPrice notional price' collateral ≤ owed floorPrice notional price collateral := by
  unfold owed
  by_cases hm : floorPrice ≤ price
  · rw [if_pos hm, if_pos (hm.trans h)]
  · rw [if_neg hm]
    split
    · exact le_min (Int.mul_nonneg (by omega) hq) hc
    · exact min_le_min_right _ (Int.mul_le_mul_of_nonneg_right (by omega) hq)

/-- A settlement pays no less than a higher price would have paid and no more than a lower one, but nothing for a
negative notional. -/
theorem owed_between (hs : floorPrice ≤ marketPrice ∨ 0 ≤ notional) (hc : 0 ≤ collateral) {lo hi : Int}
    (hlow : lo ≤ marketPrice) (hhigh : marketPrice ≤ hi) :
    max (owed floorPrice notional hi collateral) 0 ≤ owed floorPrice notional marketPrice collateral ∧
      owed floorPrice notional marketPrice collateral ≤ max (owed floorPrice notional lo collateral) 0 := by
  by_cases hm : floorPrice ≤ marketPrice
  · have hnone : owed floorPrice notional marketPrice collateral = 0 := if_pos hm
    have hnone' : owed floorPrice notional hi collateral = 0 := if_pos (hm.trans hhigh)
    rw [hnone, hnone', max_self]
    exact ⟨le_rfl, le_max_right _ _⟩
  · have hq := hs.resolve_left hm
    have hnonneg : 0 ≤ owed floorPrice notional marketPrice collateral := by
      rw [owed, if_neg hm]
      exact le_min (Int.mul_nonneg (by omega) hq) hc
    exact ⟨max_le (owed_antitone hq hc hhigh) hnonneg, (owed_antitone hq hc hlow).trans (le_max_left _ _)⟩

end Value

section Joint
variable {L : Type} (tokens : Tokens L) (self source : Address)

/-- The batches that successful finalizations of the asset have aggregated in a joint run, oldest first. -/
def finalizedBatches (asset : Oracle.Asset) (ledger : L) (inputs : List (Oracle.Invocation ⊕ Input)) :
    List Oracle.Batch :=
  (machine tokens self source).log (Machine.leftLog (Oracle.aggregated asset)) (.deployed, ⟨.deployed, ledger⟩) inputs

theorem median_of_finalized {asset : Oracle.Asset} {ledger : L} {inputs : List (Oracle.Invocation ⊕ Input)}
    {batch : Oracle.Batch} (hb : batch ∈ finalizedBatches tokens self source asset ledger inputs) :
    Oracle.median batch.submissions = .ok batch.record.price := by
  rw [finalizedBatches, machine, Machine.interleave_log] at hb
  obtain ⟨_, _, _, _, _, _, he, hmem⟩ := (Oracle.machine.mem_log _ _ _ _).mp hb
  exact Oracle.aggregated_median he hmem

/-- The price an agreement reads is the median of the batch finalized last. -/
theorem lastprice_eq_batch (asset : Oracle.Asset) (ledger : L) (inputs : List (Oracle.Invocation ⊕ Input)) :
    Oracle.lastprice (after tokens self source ledger inputs).1 asset =
      (finalizedBatches tokens self source asset ledger inputs).getLast?.map (·.record) := by
  have hrecords : (Oracle.machine.log (Oracle.finalized asset) .deployed (inputs.filterMap Sum.getLeft?)).map (·.1) =
      (Oracle.machine.log (Oracle.aggregated asset) .deployed (inputs.filterMap Sum.getLeft?)).map (·.record) := by
    rw [← Machine.log_map, ← Machine.log_map]
    simp only [Oracle.map_aggregated, Oracle.finalized, Oracle.map_atFinalization]
  rw [lastprice_eq, finalizedRecords, finalizedBatches, machine, Machine.interleave_log, Machine.interleave_log,
    hrecords, List.getLast?_map]

end Joint

section Agreements
variable {L : Type} {tokens : Tokens L} {self : Address} {w w' : World L} {terms : Terms} {env : Env} {feed : Feed}
  {out : Output}

/-- Any settlement pays the farmer what is owed, and also the rest if the farmer is the buyer. -/
theorem settle_pays (law : tokens.Exact) (holds : w.storage.Holds terms)
    (hbalance : 0 ≤ (tokens.balance w.ledger terms.settlementToken self).val) (hfarmer : terms.farmer ≠ self)
    (h : Transition tokens self w (.invoke ⟨env, feed, .settle⟩) out w') :
    ∃ record payout, terms.quote feed = some record ∧
      Settleable terms.floorPrice terms.notional record.price ∧
      out = (.payout payout, [.settled terms.farmer payout record.price]) ∧
      payout.val = owed terms.floorPrice.val terms.notional.val record.price.val
        (tokens.balance w.ledger terms.settlementToken self).val ∧
      (tokens.balance w'.ledger terms.settlementToken terms.farmer).val =
        (tokens.balance w.ledger terms.settlementToken terms.farmer).val + payout.val +
          if terms.farmer = terms.buyer then (tokens.balance w.ledger terms.settlementToken self).val - payout.val
          else 0 := by
  obtain ⟨record, payout, hprice, hsettleable, hout, howed⟩ := h.settle_owed law holds hbalance
  refine ⟨record, payout, hprice, hsettleable, hout, howed, ?_⟩
  cases h with
  | settle hs hf hh hmature hq hd hp hb =>
    cases hh.unique holds
    cases hq.symm.trans hprice
    cases hout
    obtain ⟨_, hnonneg, hcovered⟩ := shares_owed hsettleable hbalance hd
    have hsum := shares_sum hd
    have hrest := Int.sub_nonneg_of_le hcovered
    have hfirst := payOut_moved law hp terms.farmer
    have hsecond := payOut_moved law hb terms.farmer
    rw [if_neg hfarmer, if_pos rfl, Int.sub_zero, max_eq_left hnonneg] at hfirst
    rw [if_neg hfarmer, Int.sub_zero, hfirst] at hsecond
    rw [← hsum, add_sub_cancel_left] at hrest
    rw [← hsum, add_sub_cancel_left]
    rwa [max_eq_left hrest] at hsecond

end Agreements

/-- Whenever an agreement settles in a joint run, its farmer has received what makes up for the price of the batch
finalized last, as far as the collateral goes, and the whole collateral if one address is both farmer and buyer; and if
most of that batch lies in an interval, neither more nor less is paid out than any price of the interval would have
paid. -/
theorem farmer_is_protected {L : Type} (tokens : Tokens L) (law : tokens.Exact) (self source : Address) (ledger : L)
    (solvent : ∀ token, 0 ≤ (tokens.balance ledger token self).val) (inputs : List (Oracle.Invocation ⊕ Input))
    (terms : Terms)
    (holds : (after tokens self source ledger inputs).2.storage.Holds terms) (ho : terms.oracle = source)
    (hfarmer : terms.farmer ≠ self) (env : Env) (feed : Feed) (out : Output)
    (hr : (machine tokens self source).result (after tokens self source ledger inputs)
      (.inr (.invoke ⟨env, feed, .settle⟩)) = .ok (.inr out)) :
    ∃ batch payout, (finalizedBatches tokens self source (toOracleAsset terms.commodity) ledger inputs).getLast? =
        some batch ∧
      out = (.payout payout, [.settled terms.farmer payout batch.record.price]) ∧
      (tokens.balance ((machine tokens self source).step (after tokens self source ledger inputs)
          (.inr (.invoke ⟨env, feed, .settle⟩))).2.ledger terms.settlementToken terms.farmer).val =
        (tokens.balance (after tokens self source ledger inputs).2.ledger terms.settlementToken terms.farmer).val +
          payout.val + (if terms.farmer = terms.buyer then
            (tokens.balance (after tokens self source ledger inputs).2.ledger terms.settlementToken self).val -
              payout.val
          else 0) ∧
      batch.record.price.val * terms.notional.val + payout.val =
        min (max terms.floorPrice.val batch.record.price.val * terms.notional.val)
          (batch.record.price.val * terms.notional.val +
            (tokens.balance (after tokens self source ledger inputs).2.ledger terms.settlementToken self).val) ∧
      ∀ lo hi, Oracle.MostlyWithin lo hi batch.submissions →
        max (owed terms.floorPrice.val terms.notional.val hi.val
            (tokens.balance (after tokens self source ledger inputs).2.ledger terms.settlementToken self).val) 0 ≤
          payout.val ∧
        payout.val ≤ max (owed terms.floorPrice.val terms.notional.val lo.val
          (tokens.balance (after tokens self source ledger inputs).2.ledger terms.settlementToken self).val) 0 := by
  have hlast := lastprice_eq_batch tokens self source (toOracleAsset terms.commodity) ledger inputs
  have hbalance :
      0 ≤ (tokens.balance (after tokens self source ledger inputs).2.ledger terms.settlementToken self).val := by
    obtain ⟨_, calls, hrun⟩ := after_eq tokens self source ledger inputs
    rw [hrun]
    exact not_overdrawn law (solvent terms.settlementToken) calls
  generalize hs : after tokens self source ledger inputs = s at *
  have hown := (Oracle.machine.interleave_result_inr (Pricefloor.machine tokens self) (reading source)).mp hr
  have ht := Pricefloor.exec_eq_ok.mp ((Pricefloor.machine tokens self).result_eq_ok.mp hown)
  obtain ⟨record, payout, hq, hsettleable, hout, howed, hgain⟩ := settle_pays law holds hbalance hfarmer ht
  rw [quote_reading ho, hlast, Option.map_eq_some_iff] at hq
  obtain ⟨batch, hb, rfl⟩ := hq
  refine ⟨batch, payout, hb, hout, ?_, ?_, fun lo hi hmost => ?_⟩
  · rw [machine, Machine.interleave_step_inr]
    exact hgain
  · rw [howed]
    exact proceeds_eq hbalance
  · have hmedian := median_of_finalized tokens self source (List.mem_of_getLast? hb)
    obtain ⟨hlow, hhigh⟩ := Oracle.median_within hmost hmedian
    have hnotional := hsettleable.imp (SignedInt.le_iff _ _).mp And.left
    rw [howed]
    exact owed_between hnotional hbalance hlow hhigh

/-- Two of three nodes stay close together, the third one is far above the floor. -/
def contestedRun : List (Oracle.Invocation ⊕ Input) :=
  (Oracle.opening ⟨0⟩ 60 [⟨3⟩, ⟨4⟩, ⟨6⟩] 3 (.other "MAIZE")).map .inl ++
    [.inr (signing ⟨1⟩ ⟨2⟩ (.literal 100) (.literal 2) ⟨5⟩ 1000 ⟨8⟩), .inr (funding ⟨2⟩ (.literal 10) 900),
      .inl (Oracle.submission ⟨3⟩ (.other "MAIZE") (.literal 96) 1030),
      .inl (Oracle.submission ⟨4⟩ (.other "MAIZE") (.literal 700) 1031),
      .inl (Oracle.submission ⟨6⟩ (.other "MAIZE") (.literal 98) 1032),
      .inl (Oracle.finalization (.other "MAIZE") 1050)]

theorem farmer_protected_in_contested_run : ∃ payout events,
    (machine Units.ledger ⟨9⟩ ⟨8⟩).result (after Units.ledger ⟨9⟩ ⟨8⟩ endowment contestedRun)
      (.inr (.invoke ⟨⟨1100, []⟩, silent, .settle⟩)) = .ok (.inr (.payout payout, events)) ∧
    4 ≤ payout.val ∧ payout.val ≤ 8 := by
  have holds : (after Units.ledger ⟨9⟩ ⟨8⟩ endowment contestedRun).2.storage.Holds (maizeTerms 2) := by
    constructor <;> decide +kernel
  have solvent (token : Address) : 0 ≤ (Units.ledger.balance endowment token ⟨9⟩).val := Int.natCast_nonneg _
  have hresult : (machine Units.ledger ⟨9⟩ ⟨8⟩).result (after Units.ledger ⟨9⟩ ⟨8⟩ endowment contestedRun)
      (.inr (.invoke ⟨⟨1100, []⟩, silent, .settle⟩)) =
        .ok (.inr (.payout (.literal 4), [.settled ⟨1⟩ (.literal 4) (.literal 98)])) := by decide +kernel
  have hlast : ((finalizedBatches Units.ledger ⟨9⟩ ⟨8⟩ (.other "MAIZE") endowment contestedRun).getLast?).map
      (·.submissions) = some [⟨⟨3⟩, .literal 96, 1030, 1030⟩, ⟨⟨4⟩, .literal 700, 1031, 1031⟩,
        ⟨⟨6⟩, .literal 98, 1032, 1032⟩] := by decide +kernel
  obtain ⟨batch, payout, hb, hout, _, _, hbounds⟩ := farmer_is_protected Units.ledger Units.ledger_exact ⟨9⟩ ⟨8⟩
    endowment solvent contestedRun (maizeTerms 2) holds rfl (by decide) ⟨1100, []⟩ silent _ hresult
  cases (Prod.ext_iff.mp hout).1
  rw [show toOracleAsset (maizeTerms 2).commodity = .other "MAIZE" from rfl] at hb
  rw [hb, Option.map_some, Option.some.injEq] at hlast
  refine ⟨_, _, hresult, ?_⟩
  have hmost : Oracle.MostlyWithin (.literal 96) (.literal 98) batch.submissions := by
    rw [hlast]
    decide +kernel
  have hcollateral : (Units.ledger.balance (after Units.ledger ⟨9⟩ ⟨8⟩ endowment contestedRun).2.ledger ⟨5⟩ ⟨9⟩).val =
      10 := by decide +kernel
  obtain ⟨hlow, hhigh⟩ := hbounds (.literal 96) (.literal 98) hmost
  rw [show (maizeTerms 2).settlementToken = ⟨5⟩ from rfl, hcollateral] at hlow hhigh
  exact ⟨hlow.trans' (by decide +kernel), hhigh.trans (by decide +kernel)⟩

end AgriFeed.Deployment
