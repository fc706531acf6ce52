import AgriFeed.Pricefloor.Types

/-! The operations of a price-floor agreement: both parties sign its terms, the buyer deposits the
collateral, and it is settled against the oracle or cancelled when it has stalled. -/
namespace AgriFeed.Pricefloor
open Foundation

variable {L : Type} (tokens : Tokens L) (self : Address)

/-- A call of the token's transfer; a refusal of the token rolls the invocation back. -/
def transfer (ledger : L) (token sender receiver : Address) (amount : I128) : Outcome Error L :=
  match tokens.transfer ledger token sender receiver amount with
  | some ledger => .ok ledger
  | none => .error .callee

/-- The contract sends tokens it holds, and only calls the token for a positive amount. -/
def payOut (ledger : L) (token receiver : Address) (amount : I128) : Outcome Error L :=
  if 0 < amount then transfer tokens ledger token self receiver amount else .ok ledger

def initializeContract (env : Env) (world : World L) (farmer buyer : Address) (commodity : Asset)
    (floorPrice notional : I128) (settlementToken : Address) (maturityTs : UInt64) (oracle : Address) :
    Outcome Error (Receipt L Unit) := do
  requireAuth env farmer
  requireAuth env buyer
  failIf world.storage.farmer.isSome .alreadyInitialized
  let storage := { world.storage with
    farmer := some farmer
    buyer := some buyer
    commodity := some commodity
    floorPrice := some floorPrice
    notional := some notional
    settlementToken := some settlementToken
    maturity := some maturityTs
    oracle := some oracle
    funded := some false
    settled := some false }
  return ⟨(), ⟨storage, world.ledger⟩, [.initialized farmer buyer commodity floorPrice notional maturityTs]⟩

/-- The comparison with the stored buyer doubles as the initialization guard. -/
def fund (env : Env) (world : World L) (buyer : Address) (amount : I128) : Outcome Error (Receipt L Unit) := do
  requireAuth env buyer
  let storedBuyer ← okOr world.storage.buyer .unauthorized
  failIf (storedBuyer ≠ buyer) .unauthorized
  failIf (amount ≤ 0) .invalidAmount
  failIf (world.storage.funded.getD false) .alreadyFunded
  failIf (world.storage.settled.getD false) .alreadySettled
  let settlementToken ← okOr world.storage.settlementToken .unauthorized
  let ledger ← transfer tokens world.ledger settlementToken buyer self amount
  return ⟨(), ⟨{ world.storage with funded := some true }, ledger⟩, [.funded buyer amount]⟩

/-- How the collateral is divided: what goes to the farmer and what goes back to the buyer. -/
def settlementShares (floorPrice notional marketPrice fundedAmount : I128) : Outcome Error (I128 × I128) :=
  if marketPrice < floorPrice then do
    let diff ← okOr (floorPrice.checkedSub marketPrice) .arithmeticOverflow
    let gross ← okOr (diff.checkedMul notional) .arithmeticOverflow
    let payout := min gross fundedAmount
    let refund ← okOr (fundedAmount.checkedSub payout) .arithmeticOverflow
    return (payout, refund)
  else
    return (0, fundedAmount)

/-- The collateral is the live balance of the contract, not a recorded amount. -/
def settle (env : Env) (feed : Feed) (world : World L) : Outcome Error (Receipt L I128) := do
  failIf (world.storage.settled.getD false) .alreadySettled
  let maturity ← okOr world.storage.maturity .notYetMature
  failIf (env.timestamp < maturity) .notYetMature
  failIf (¬ world.storage.funded.getD false) .notFunded
  let farmer ← okOr world.storage.farmer .notFunded
  let buyer ← okOr world.storage.buyer .notFunded
  let commodity ← okOr world.storage.commodity .notFunded
  let floorPrice ← okOr world.storage.floorPrice .notFunded
  let notional ← okOr world.storage.notional .notFunded
  let settlementToken ← okOr world.storage.settlementToken .notFunded
  let oracle ← okOr world.storage.oracle .notFunded
  let record ← okOr (feed oracle (toOracleAsset commodity)) .oracleDataUnavailable
  let fundedAmount := tokens.balance world.ledger settlementToken self
  let (payout, refund) ← settlementShares floorPrice notional record.price fundedAmount
  let ledger ← payOut tokens self world.ledger settlementToken farmer payout
  let ledger ← payOut tokens self ledger settlementToken buyer refund
  return ⟨payout, ⟨{ world.storage with settled := some true }, ledger⟩, [.settled farmer payout record.price]⟩

def cancel (env : Env) (feed : Feed) (world : World L) (caller : Address) : Outcome Error (Receipt L Unit) := do
  requireAuth env caller
  let farmer ← okOr world.storage.farmer .unauthorized
  let buyer ← okOr world.storage.buyer .unauthorized
  failIf (caller ≠ farmer ∧ caller ≠ buyer) .unauthorized
  failIf (world.storage.settled.getD false) .alreadySettled
  let settlementToken ← okOr world.storage.settlementToken .unauthorized
  if world.storage.funded.getD false then
    let maturity ← okOr world.storage.maturity .gracePeriodNotElapsed
    failIf (env.timestamp < saturatingAdd maturity settleFailureGrace) .gracePeriodNotElapsed
    let oracle ← okOr world.storage.oracle .gracePeriodNotElapsed
    let commodity ← okOr world.storage.commodity .gracePeriodNotElapsed
    failIf (feed oracle (toOracleAsset commodity)).isSome .gracePeriodNotElapsed
    let balance := tokens.balance world.ledger settlementToken self
    let ledger ← payOut tokens self world.ledger settlementToken buyer balance
    return ⟨(), ⟨{ world.storage with funded := some false, cancelled := some true }, ledger⟩, [.cancelled caller]⟩
  else
    let maturity ← okOr world.storage.maturity .gracePeriodNotElapsed
    failIf (env.timestamp < saturatingAdd maturity unfundedCancelGrace) .gracePeriodNotElapsed
    return ⟨(), ⟨{ world.storage with cancelled := some true }, world.ledger⟩, [.cancelled caller]⟩

end AgriFeed.Pricefloor
