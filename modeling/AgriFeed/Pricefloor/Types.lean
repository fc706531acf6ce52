import AgriFeed.Foundation.TokenLedger
import AgriFeed.Oracle.Types

/-! The stored data, errors and events of a price-floor agreement, and what it sees of the contracts it
calls: the balances and transfers of token contracts, and the last price of oracle contracts. -/
namespace AgriFeed.Pricefloor
open Foundation

/-- Seconds after maturity during which an unfunded agreement cannot be cancelled. -/
def unfundedCancelGrace : UInt64 := 48 * 60 * 60

/-- Seconds after maturity during which a funded agreement without a price cannot be cancelled. -/
def settleFailureGrace : UInt64 := 48 * 60 * 60

/-- Declared apart from the oracle's own type, with the same variants. -/
inductive Asset where
  | stellar (address : Address)
  | other (symbol : Symbol)
  deriving DecidableEq

def toOracleAsset : Asset → Oracle.Asset
  | .stellar address => .stellar address
  | .other symbol => .other symbol

inductive Error where
  | alreadyInitialized
  | notFunded
  | alreadyFunded
  | alreadySettled
  | notYetMature
  | oracleDataUnavailable
  | gracePeriodNotElapsed
  | unauthorized
  | invalidAmount
  | arithmeticOverflow
  deriving DecidableEq

inductive Event where
  | initialized (farmer buyer : Address) (commodity : Asset) (floorPrice notional : I128) (maturityTs : UInt64)
  | funded (buyer : Address) (amount : I128)
  | settled (farmer : Address) (payout marketPrice : I128)
  | cancelled (caller : Address)
  deriving DecidableEq

/-- The instance entries of an agreement: its terms, then its flags. -/
structure Storage where
  farmer : Option Address
  buyer : Option Address
  commodity : Option Asset
  floorPrice : Option I128
  notional : Option I128
  settlementToken : Option Address
  maturity : Option UInt64
  oracle : Option Address
  funded : Option Bool
  settled : Option Bool
  cancelled : Option Bool

/-- A deployed contract before its initialization. -/
def Storage.deployed : Storage := ⟨none, none, none, none, none, none, none, none, none, none, none⟩

/-- The token contracts, told apart by their address. -/
abbrev Tokens (L : Type) := TokenLedger L Address Address 128

/-- The answers of the oracle contracts to `lastprice` during one invocation. -/
abbrev Feed := Address → Oracle.Asset → Option Oracle.PriceData

/-- The storage of one agreement and the ledger of the token contracts it moves tokens on. -/
structure World (L : Type) where
  storage : Storage
  ledger : L

/-- What a successful invocation returns, leaves behind and publishes. -/
structure Receipt (L A : Type) where
  value : A
  world : World L
  events : List Event

end AgriFeed.Pricefloor
