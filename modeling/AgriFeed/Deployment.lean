import AgriFeed.Foundation.Interleaving
import AgriFeed.Oracle.Interface
import AgriFeed.Oracle.Invariants
import AgriFeed.Pricefloor.Settlement

/-! An agreement next to the oracle it reads, their inputs in any order. After the grace period its collateral
can be recovered from every reachable state at which the oracle's price, if there is one, settles it. -/
namespace AgriFeed.Deployment
open Foundation Pricefloor

/-- An input of the agreement as it finds the oracle at the moment of the call. -/
def reading (source : Address) (st : Oracle.Storage) : Input → Input
  | .invoke tx => .invoke { tx with feed := Function.update tx.feed source (Oracle.lastprice st) }
  | .transfer token sender receiver amount => .transfer token sender receiver amount

section Joint
variable {L : Type} (tokens : Tokens L) (self source : Address)

/-- The agreement at one address reads the oracle at another; other oracles answer anything. -/
def machine : Machine (Oracle.Storage × World L) (Oracle.Invocation ⊕ Input) (Fault Oracle.Error ⊕ Fault Error)
    (Oracle.Output ⊕ Output) :=
  Oracle.machine.interleave (Pricefloor.machine tokens self) (reading source)

/-- The state after a joint run on two fresh contracts. -/
def after (ledger : L) (inputs : List (Oracle.Invocation ⊕ Input)) : Oracle.Storage × World L :=
  (machine tokens self source).run (.deployed, ⟨.deployed, ledger⟩) inputs

/-- Each contract runs as it would alone. -/
theorem after_eq (ledger : L) (inputs : List (Oracle.Invocation ⊕ Input)) :
    ∃ txs calls, after tokens self source ledger inputs =
      (Oracle.after txs, Pricefloor.after tokens self ledger calls) := by
  obtain ⟨calls, hr⟩ := Oracle.machine.interleave_run (Pricefloor.machine tokens self) (reading source) .deployed
    ⟨.deployed, ledger⟩ inputs
  exact ⟨_, calls, hr⟩

theorem commits_call (st : Oracle.Storage) (w : World L) (tx : Invocation) :
    (machine tokens self source).Commits (st, w) (.inr (.invoke tx)) ↔
      (Pricefloor.machine tokens self).Commits w
        (.invoke ⟨tx.env, Function.update tx.feed source (Oracle.lastprice st), tx.call⟩) :=
  Oracle.machine.interleave_commits_inr (Pricefloor.machine tokens self) (reading source) st w (.invoke tx)

end Joint

/-- What the terms read at their own oracle is its last price. -/
theorem quote_reading {terms : Terms} {source : Address} (ho : terms.oracle = source) (feed : Feed)
    (st : Oracle.Storage) :
    terms.quote (Function.update feed source (Oracle.lastprice st)) =
      Oracle.lastprice st (toOracleAsset terms.commodity) := by
  rw [Terms.quote, ho, Function.update_self]

theorem lastprice_pos (txs : List Oracle.Invocation) {asset : Oracle.Asset} {record : Oracle.PriceData}
    (h : Oracle.lastprice (Oracle.after txs) asset = some record) : 0 < record.price.val :=
  (Oracle.positivePrices txs).history asset record (List.mem_of_getLast? h)

/-- A price of the oracle settles terms whose floor it meets, and below the floor terms whose notional is not
negative and whose shortfall fits the word. -/
def Payable (terms : Terms) (price : I128) : Prop :=
  terms.floorPrice.val ≤ price.val ∨
    (0 ≤ terms.notional.val ∧ (terms.floorPrice.val - price.val) * terms.notional.val ≤ 2 ^ 127 - 1)

theorem settleable_iff {terms : Terms} {price : I128} (hp : 0 < price.val) :
    Settleable terms.floorPrice terms.notional price ↔ Payable terms price := by
  have hfits : terms.floorPrice.val - price.val < 2 ^ 127 := by
    have hupper := terms.floorPrice.inRange.2
    omega
  unfold Settleable Payable
  rw [SignedInt.le_iff]
  constructor
  · rintro (hm | ⟨hq, _, hg⟩)
    · exact .inl hm
    · exact .inr ⟨hq, Int.le_sub_one_of_lt hg⟩
  · rintro (hm | ⟨hq, hg⟩)
    · exact .inl hm
    · exact .inr ⟨hq, hfits, Int.lt_of_le_sub_one hg⟩

private theorem elapsed_iff {maturity now : UInt64} :
    saturatingAdd maturity settleFailureGrace ≤ now ↔ min (maturity.toNat + 172800) (2 ^ 64 - 1) ≤ now.toNat := by
  rw [UInt64.le_iff_toNat_le, saturatingAdd_toNat]
  rfl

/-- In every reachable state with collateral at stake, once the grace period is over the settlement or the
buyer's cancellation goes through exactly if the oracle has no price or one that can pay. -/
theorem recoverable_iff_payable {L : Type} (tokens : Tokens L) (law : tokens.Exact) (self source : Address)
    (accepts : tokens.Accepts self) (ledger : L) (solvent : ∀ token, 0 ≤ (tokens.balance ledger token self).val)
    (inputs : List (Oracle.Invocation ⊕ Input))
    (hfunded : (after tokens self source ledger inputs).2.storage.funded = some true)
    (hunsettled : (after tokens self source ledger inputs).2.storage.settled.getD false = false) :
    ∃ terms, (after tokens self source ledger inputs).2.storage.Holds terms ∧
      (terms.oracle = source → ∀ (env : Env) (feed : Feed), terms.buyer ∈ env.auths →
        min (terms.maturity.toNat + 172800) (2 ^ 64 - 1) ≤ env.timestamp.toNat →
        ((machine tokens self source).Commits (after tokens self source ledger inputs)
              (.inr (.invoke ⟨env, feed, .settle⟩)) ∨
            (machine tokens self source).Commits (after tokens self source ledger inputs)
              (.inr (.invoke ⟨env, feed, .cancel terms.buyer⟩)) ↔
          ∀ record, Oracle.lastprice (after tokens self source ledger inputs).1 (toOracleAsset terms.commodity) =
            some record → Payable terms record.price)) := by
  obtain ⟨txs, calls, hrun⟩ := after_eq tokens self source ledger inputs
  simp only [hrun] at hfunded hunsettled ⊢
  obtain ⟨terms, holds⟩ := (coherent ledger calls).holds hfunded
  refine ⟨terms, holds, fun ho env feed hsigned helapsed => ?_⟩
  have hbalance :
      0 ≤ (tokens.balance (Pricefloor.after tokens self ledger calls).ledger terms.settlementToken self).val :=
    not_overdrawn law (solvent terms.settlementToken) calls
  have hmature : terms.maturity ≤ env.timestamp := by
    have hword := terms.maturity.toNat_lt
    rw [UInt64.le_iff_toNat_le]
    omega
  rw [commits_call, commits_call, settle_commits_iff law accepts holds hfunded hunsettled hbalance hmature,
    cancel_commits_iff accepts holds hfunded hunsettled hsigned (.inr rfl) (elapsed_iff.mpr helapsed), quote_reading ho]
  cases hq : Oracle.lastprice (Oracle.after txs) (toOracleAsset terms.commodity) with
  | none => exact iff_of_true (.inr rfl) fun _ h => nomatch h
  | some record =>
    have hpays : Settleable terms.floorPrice terms.notional record.price ↔ Payable terms record.price :=
      settleable_iff (lastprice_pos txs hq)
    constructor
    · rintro (⟨_, hr, hs⟩ | hnone)
      · cases hr
        rintro _ ⟨⟩
        exact hpays.mp hs
      · cases hnone
    · intro h
      exact .inl ⟨record, rfl, hpays.mpr (h record rfl)⟩

section Example

/-- Terms with a floor of 100 that mature at time 1000. -/
def maizeTerms (notional : Int) : Terms :=
  ⟨⟨1⟩, ⟨2⟩, .other "MAIZE", .literal 100, .literal notional, ⟨5⟩, 1000, ⟨8⟩⟩

/-- The terms are signed and funded while a node submits the price of 97 that the oracle then finalizes. -/
def maizeRun (notional : Int) : List (Oracle.Invocation ⊕ Input) :=
  (Oracle.opening ⟨0⟩ 60 [⟨3⟩] 1 (.other "MAIZE")).map .inl ++
    [.inr (signing ⟨1⟩ ⟨2⟩ (.literal 100) (.literal notional) ⟨5⟩ 1000 ⟨8⟩),
      .inl (Oracle.submission ⟨3⟩ (.other "MAIZE") (.literal 97) 1030),
      .inr (funding ⟨2⟩ (.literal 6) 1040), .inl (Oracle.finalization (.other "MAIZE") 1050)]

def maizeState (notional : Int) : Oracle.Storage × World (Units Address Address 128) :=
  after Units.ledger ⟨9⟩ ⟨8⟩ endowment (maizeRun notional)

theorem recoverable_of_small_shortfall :
    (machine Units.ledger ⟨9⟩ ⟨8⟩).Commits (maizeState 2) (.inr (.invoke ⟨⟨173800, [⟨2⟩]⟩, silent, .settle⟩)) ∨
      (machine Units.ledger ⟨9⟩ ⟨8⟩).Commits (maizeState 2)
        (.inr (.invoke ⟨⟨173800, [⟨2⟩]⟩, silent, .cancel ⟨2⟩⟩)) := by
  have hterms : (maizeState 2).2.storage.Holds (maizeTerms 2) := by constructor <;> decide +kernel
  have hprice : Oracle.lastprice (maizeState 2).1 (.other "MAIZE") = some ⟨.literal 97, 1020⟩ := by decide +kernel
  have solvent (token : Address) : 0 ≤ (Units.ledger.balance endowment token ⟨9⟩).val := Int.natCast_nonneg _
  obtain ⟨terms, holds, hiff⟩ := recoverable_iff_payable Units.ledger Units.ledger_exact ⟨9⟩ ⟨8⟩
    (Units.ledger_accepts _) endowment solvent (maizeRun 2) (by decide +kernel) (by decide +kernel)
  cases holds.unique hterms
  apply (hiff rfl ⟨173800, [⟨2⟩]⟩ silent (by decide) (by decide)).mpr
  intro record hr
  cases hprice.symm.trans hr
  exact .inr (by decide)

/-- With a notional of minus one the refund would exceed the collateral, and the price blocks cancellation. -/
theorem negative_notional_locks_collateral :
    (maizeState (-1)).2.storage.Holds (maizeTerms (-1)) ∧
      (maizeState (-1)).2.storage.funded = some true ∧ (maizeState (-1)).2.storage.settled = some false ∧
      ¬ (machine Units.ledger ⟨9⟩ ⟨8⟩).Commits (maizeState (-1))
        (.inr (.invoke ⟨⟨173800, [⟨2⟩]⟩, silent, .settle⟩)) ∧
      ¬ (machine Units.ledger ⟨9⟩ ⟨8⟩).Commits (maizeState (-1))
        (.inr (.invoke ⟨⟨173800, [⟨2⟩]⟩, silent, .cancel ⟨2⟩⟩)) := by
  refine ⟨?_, ?_⟩
  · constructor <;> decide +kernel
  · decide +kernel

end Example
end AgriFeed.Deployment
