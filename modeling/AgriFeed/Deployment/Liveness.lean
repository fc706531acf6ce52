import AgriFeed.Deployment.Pricing
import AgriFeed.Oracle.Reporting
import AgriFeed.Pricefloor.Escrow
import AgriFeed.Pricefloor.Payouts

/-! Collateral is not stuck as long as one listed node is willing. Whatever has happened before, it can bring the
agreement to a settlement at any price that can pay, and nobody else has to sign anything. -/
namespace AgriFeed.Deployment
open Foundation Pricefloor

/-- A node reports a price, and the agreement is settled at it. -/
def settling (node : Address) (asset : Oracle.Asset) (price : I128) (times : List UInt64) (time : UInt64)
    (feed : Feed) : List (Oracle.Invocation ⊕ Input) :=
  (Oracle.reporting node asset price times time).map .inl ++ [.inr (settlement feed time)]

private theorem oracle_settling (node : Address) (asset : Oracle.Asset) (price : I128) (times : List UInt64)
    (time : UInt64) (feed : Feed) :
    (settling node asset price times time feed).filterMap Sum.getLeft? =
      Oracle.reporting node asset price times time := by
  rw [settling, List.filterMap_append, List.filterMap_map]
  exact (List.append_nil _).trans List.filterMap_some

section Settlement
variable {L : Type} {tokens : Tokens L} {self source : Address} {w : World L} {terms : Terms}

/-- With the last price of its oracle at hand a mature agreement is settled, if that price can pay. -/
private theorem settles_at (law : tokens.Exact) (accepts : tokens.Accepts self) (holds : w.storage.Holds terms)
    (ho : terms.oracle = source) (hfunded : w.storage.funded = some true)
    (hunsettled : w.storage.settled.getD false = false) (hfarmer : terms.farmer ≠ self) (hbuyer : terms.buyer ≠ self)
    (hbalance : 0 < (tokens.balance w.ledger terms.settlementToken self).val) {st : Oracle.Storage}
    {record : Oracle.PriceData} (hlast : Oracle.lastprice st (toOracleAsset terms.commodity) = some record)
    (hpos : 0 < record.price.val) (hpays : Payable terms record.price) {time : UInt64} (hmature : terms.maturity ≤ time)
    (feed : Feed) :
    (machine tokens self source).Commits (st, w) (.inr (settlement feed time)) ∧
      ∃ payout, SettledExactly tokens self terms record.price w
        ((machine tokens self source).step (st, w) (.inr (settlement feed time))).2 payout := by
  have hprice : terms.quote (Function.update feed source (Oracle.lastprice st)) = some record := by
    rw [quote_reading ho, hlast]
  have hcommits : (Pricefloor.machine tokens self).Commits w
      (.invoke ⟨⟨time, []⟩, Function.update feed source (Oracle.lastprice st), .settle⟩) :=
    (settle_commits_iff law accepts holds hfunded hunsettled hbalance.le hmature).mpr
      ⟨record, hprice, (settleable_iff hpos).mpr hpays⟩
  refine ⟨(commits_call tokens self source st w _).mpr hcommits, ?_⟩
  obtain ⟨out, w', he⟩ := (Pricefloor.machine tokens self).commits_iff.mp hcommits
  obtain ⟨payout, _, hsettled⟩ := settled_exactly law accepts holds hmature hprice hfarmer hbuyer hbalance
    (Pricefloor.exec_eq_ok.mp he)
  have hstep : (Pricefloor.machine tokens self).step w (reading source st (settlement feed time)) = w' :=
    (Pricefloor.machine tokens self).step_commit he
  refine ⟨payout, ?_⟩
  rwa [machine, Machine.interleave_step_inr, hstep]

/-- The node reports in the windows that follow, and at the horizon the agreement is settled. -/
private theorem settles_at_horizon (law : tokens.Exact) (accepts : tokens.Accepts self)
    (holds : w.storage.Holds terms) (ho : terms.oracle = source) (hfunded : w.storage.funded = some true)
    (hunsettled : w.storage.settled.getD false = false) (hfarmer : terms.farmer ≠ self) (hbuyer : terms.buyer ≠ self)
    (hbalance : 0 < (tokens.balance w.ledger terms.settlementToken self).val) {txs : List Oracle.Invocation}
    {asset : Oracle.Asset} (hasset : toOracleAsset terms.commodity = asset) (ordered : Oracle.Timely txs) {now : Nat}
    (hnow : ∀ tx ∈ txs, tx.env.timestamp.toNat ≤ now) {node : Address}
    (hlisted : node ∈ Oracle.readNodes (Oracle.after txs)) (htracked : asset ∈ Oracle.assets (Oracle.after txs))
    (hset : (Oracle.after txs).threshold.getD 0 ≠ 0)
    (room : Oracle.horizon (Oracle.after txs) asset (max now terms.maturity.toNat) < 2 ^ 64) {price : I128}
    (hpos : 0 < price) (hordinary : price.val ≤ 2 ^ 126 - 1) (hpays : Payable terms price) (feed : Feed) :
    ∃ times time, time.toNat = Oracle.horizon (Oracle.after txs) asset (max now terms.maturity.toNat) ∧
      times.map (fun t => t.toNat / (Oracle.resolution (Oracle.after txs)).toNat) =
        List.range' (max now terms.maturity.toNat / (Oracle.resolution (Oracle.after txs)).toNat + 1)
          (Oracle.reportsNeeded (Oracle.after txs) asset) ∧
      Oracle.Timely (txs ++ Oracle.reporting node asset price times time) ∧
      (machine tokens self source).Along (machine tokens self source).Commits (Oracle.after txs, w)
        (settling node asset price times time feed) ∧
      ∃ payout, SettledExactly tokens self terms price w ((machine tokens self source).run (Oracle.after txs, w)
        (settling node asset price times time feed)).2 payout := by
  obtain ⟨times, time, htime, hwindows, htimely, halong, record, rfl, hlast⟩ := Oracle.price_in_reach ordered hnow
    (le_max_left now terms.maturity.toNat) hlisted htracked hset hpos hordinary room
  have hmature : terms.maturity ≤ time := by
    rw [UInt64.le_iff_toNat_le, htime]
    exact (le_max_right now _).trans (Nat.le_add_right _ _)
  subst hasset
  rw [Oracle.after_append] at hlast
  obtain ⟨hcommits, payout, hsettled⟩ := settles_at law accepts holds ho hfunded hunsettled hfarmer hbuyer hbalance
    hlast ((SignedInt.lt_iff 0 _).mp hpos) hpays hmature feed
  have hreports := Oracle.machine.interleave_run_inl (Pricefloor.machine tokens self) (reading source)
    (Oracle.after txs) w (Oracle.reporting node (toOracleAsset terms.commodity) record.price times time)
  have hrun : (machine tokens self source).run (Oracle.after txs, w)
      ((Oracle.reporting node (toOracleAsset terms.commodity) record.price times time).map .inl) =
        (Oracle.machine.run (Oracle.after txs) (Oracle.reporting node _ record.price times time), w) := hreports.1
  refine ⟨times, time, htime, hwindows, htimely, ?_, payout, ?_⟩
  · refine ((machine tokens self source).along_append _ _ _ _).mpr ⟨hreports.2.mpr halong, ?_, trivial⟩
    rw [hrun]
    exact hcommits
  · rw [settling, Machine.run_append, hrun]
    exact hsettled

end Settlement

section Joint
variable {L : Type} {tokens : Tokens L} {self : Address}

private theorem leavesOut_reading {source : Address} {st : Oracle.Storage} {input : Input} (h : input.LeavesOut self) :
    (reading source st input).LeavesOut self := by
  cases input with
  | transfer => exact h
  | invoke tx =>
    obtain ⟨_, _, call⟩ := tx
    cases call <;> exact h

/-- In a joint run too the agreement stands apart from its parties and has something at stake. -/
private theorem staked (source : Address) (law : tokens.Exact) {ledger : L}
    (solvent : ∀ token, 0 ≤ (tokens.balance ledger token self).val) {inputs : List (Oracle.Invocation ⊕ Input)}
    (hparties : ∀ input ∈ inputs.filterMap Sum.getRight?, input.LeavesOut self) (token : Address) :
    Escrowed tokens self token (after tokens self source ledger inputs).2 ∧
      AtStake tokens self token (after tokens self source ledger inputs).2 := by
  obtain ⟨calls, hrun, hcalls⟩ := Oracle.machine.interleave_run_inputs (Pricefloor.machine tokens self) (reading source)
    .deployed ⟨.deployed, ledger⟩ inputs
  have hp : ∀ call ∈ calls, call.LeavesOut self := by
    intro call hm
    obtain ⟨st, input, hi, rfl⟩ := hcalls call hm
    exact leavesOut_reading (hparties input hi)
  rw [after, machine, hrun]
  exact ⟨(along_escrowed law (solvent token) hp).2, stake_run law (solvent token) hp⟩

end Joint

/-- From every state that a joint run can reach with collateral at stake, a listed node can bring about the settlement
at any ordinary price that can pay, unless the clock ends before. It takes one submission in each of some
windows and then the finalization and the settlement, all of which go through. -/
theorem settlement_stays_in_reach {L : Type} (tokens : Tokens L) (law : tokens.Exact) (self source : Address)
    (accepts : tokens.Accepts self) (ledger : L) (solvent : ∀ token, 0 ≤ (tokens.balance ledger token self).val)
    (inputs : List (Oracle.Invocation ⊕ Input))
    (hparties : ∀ input ∈ inputs.filterMap Sum.getRight?, input.LeavesOut self)
    (ordered : Oracle.Timely (inputs.filterMap Sum.getLeft?)) (now : Nat)
    (hnow : ∀ tx ∈ inputs.filterMap Sum.getLeft?, tx.env.timestamp.toNat ≤ now) (terms : Terms)
    (holds : (after tokens self source ledger inputs).2.storage.Holds terms) (ho : terms.oracle = source)
    (hfunded : (after tokens self source ledger inputs).2.storage.funded = some true)
    (hunsettled : (after tokens self source ledger inputs).2.storage.settled.getD false = false)
    (node : Address) (hlisted : node ∈ Oracle.readNodes (after tokens self source ledger inputs).1)
    (htracked : toOracleAsset terms.commodity ∈ Oracle.assets (after tokens self source ledger inputs).1)
    (hset : (after tokens self source ledger inputs).1.threshold.getD 0 ≠ 0)
    (room : Oracle.horizon (after tokens self source ledger inputs).1 (toOracleAsset terms.commodity)
      (max now terms.maturity.toNat) < 2 ^ 64)
    (price : I128) (hpos : 0 < price) (hordinary : price.val ≤ 2 ^ 126 - 1) (hpays : Payable terms price)
    (feed : Feed) : ∃ times time,
      time.toNat = Oracle.horizon (after tokens self source ledger inputs).1 (toOracleAsset terms.commodity)
        (max now terms.maturity.toNat) ∧
      times.map (fun t => t.toNat / (Oracle.resolution (after tokens self source ledger inputs).1).toNat) =
        List.range' (max now terms.maturity.toNat /
            (Oracle.resolution (after tokens self source ledger inputs).1).toNat + 1)
          (Oracle.reportsNeeded (after tokens self source ledger inputs).1 (toOracleAsset terms.commodity)) ∧
      Oracle.Timely ((inputs ++ settling node (toOracleAsset terms.commodity) price times time feed).filterMap
        Sum.getLeft?) ∧
      (machine tokens self source).Along (machine tokens self source).Commits (after tokens self source ledger inputs)
        (settling node (toOracleAsset terms.commodity) price times time feed) ∧
      ∃ payout, SettledExactly tokens self terms price (after tokens self source ledger inputs).2
        (after tokens self source ledger
          (inputs ++ settling node (toOracleAsset terms.commodity) price times time feed)).2 payout := by
  have hstaked := staked source law solvent hparties terms.settlementToken
  have hparty := party_of_holds holds
  have hfarmer : terms.farmer ≠ self := fun he => hstaked.1.outside (he ▸ hparty.1)
  have hbuyer : terms.buyer ≠ self := fun he => hstaked.1.outside (he ▸ hparty.2)
  have hbalance := hstaked.2 hfunded (fun hs => by rw [hs] at hunsettled; cases hunsettled) holds.settlementToken
  have hfst := after_fst tokens self source ledger inputs
  have hnext (calls : List (Oracle.Invocation ⊕ Input)) : after tokens self source ledger (inputs ++ calls) =
      (machine tokens self source).run (after tokens self source ledger inputs) calls :=
    (machine tokens self source).run_append _ inputs calls
  rw [hfst] at hlisted htracked hset room
  obtain ⟨times, time, htime, hwindows, htimely, hcommits, payout, hsettled⟩ := settles_at_horizon law accepts holds ho
    hfunded hunsettled hfarmer hbuyer hbalance rfl ordered hnow hlisted htracked hset room hpos hordinary hpays feed
  rw [← hfst] at hcommits hsettled htime hwindows
  rw [← oracle_settling node _ price times time feed, ← List.filterMap_append] at htimely
  refine ⟨times, time, htime, hwindows, htimely, hcommits, payout, ?_⟩
  rw [hnext]
  exact hsettled

/-- The collateral that a negative notional has locked below the floor is released by a price that meets the floor. -/
theorem locked_collateral_is_released : ∃ calls,
    (machine Units.ledger ⟨9⟩ ⟨8⟩).Along (machine Units.ledger ⟨9⟩ ⟨8⟩).Commits (maizeState (-1)) calls ∧
      (Units.ledger.balance (after Units.ledger ⟨9⟩ ⟨8⟩ endowment (maizeRun (-1) ++ calls)).2.ledger ⟨5⟩ ⟨9⟩).val =
        0 := by
  have hterms : (maizeState (-1)).2.storage.Holds (maizeTerms (-1)) := by constructor <;> decide +kernel
  have solvent (token : Address) : 0 ≤ (Units.ledger.balance endowment token ⟨9⟩).val := Int.natCast_nonneg _
  obtain ⟨_, _, _, _, _, hcommits, _, hsettled⟩ := settlement_stays_in_reach Units.ledger Units.ledger_exact ⟨9⟩ ⟨8⟩
    (Units.ledger_accepts _) endowment solvent (maizeRun (-1)) (by decide) (by decide +kernel) 1050
    (by decide +kernel) (maizeTerms (-1)) hterms rfl (by decide +kernel) (by decide +kernel) ⟨3⟩ (by decide +kernel)
    (by decide +kernel) (by decide +kernel) (by decide +kernel) (.literal 100) (by decide) (by decide)
    (.inl (by decide)) silent
  obtain ⟨_, _, _, _, hemptied, _⟩ := hsettled
  exact ⟨_, hcommits, hemptied⟩

end AgriFeed.Deployment
