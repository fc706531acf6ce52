import AgriFeed.Pricefloor.Contract
import AgriFeed.Pricefloor.Transition

/-! What an agreement is for, apart from how it is stored: from the collateral of a buyer it pays a farmer what the
market price lacks to the floor. Amounts and times are plain numbers, and every account holds what was moved to it. -/
namespace AgriFeed.Pricefloor
open Foundation

/-- What the parties agree on. -/
structure Deal where
  farmer : Address
  buyer : Address
  commodity : Asset
  floorPrice : Int
  notional : Int
  settlementToken : Address
  maturity : Nat
  oracle : Address

inductive Phase where
  | unfunded
  | funded
  | settled
  deriving DecidableEq

/-- The accounts of all holders, by token. -/
abbrev Accounts := Address → Address → Int

structure PriceFloor where
  deal : Option Deal
  phase : Phase
  cancelled : Bool
  accounts : Accounts

/-- The prices that oracles quote during a call. -/
abbrev Quotes := Address → Oracle.Asset → Option Int

inductive Request where
  | invoke (env : Env) (quotes : Quotes) (call : Call)
  | transfer (token sender receiver : Address) (amount : I128)

/-- What a caller learns. -/
inductive Reply where
  | done
  | paid (amount : Int)
  deriving DecidableEq

/-- The account of the sender loses what that of the receiver gains. -/
def Accounts.move (accounts : Accounts) (token sender receiver : Address) (amount : Int) : Accounts :=
  Function.update accounts token fun holder =>
    accounts token holder - (if holder = sender then amount else 0) + (if holder = receiver then amount else 0)

namespace Deal

/-- The difference of the market price to the floor, if it is below. -/
def shortfall (deal : Deal) (price : Int) : Int := max (deal.floorPrice - price) 0

/-- The farmer gets the shortfall of the notional, as far as the collateral goes. -/
def payoff (deal : Deal) (price collateral : Int) : Int := min (deal.shortfall price * deal.notional) collateral

/-- The shortfall, its worth and the rest of the collateral have to fit a word of 128 bits. -/
def Payable (deal : Deal) (price collateral : Int) : Prop :=
  InRange 128 (deal.shortfall price) ∧ InRange 128 (deal.shortfall price * deal.notional) ∧
    InRange 128 (collateral - deal.payoff price collateral)

instance (deal : Deal) (price collateral : Int) : Decidable (deal.Payable price collateral) :=
  inferInstanceAs (Decidable (_ ∧ _ ∧ _))

/-- What the oracle of the deal quotes. -/
def quote (deal : Deal) (quotes : Quotes) : Option Int := quotes deal.oracle (toOracleAsset deal.commodity)

/-- A stalled deal can be cancelled two days after maturity, if times go that far. -/
def graceEnd (deal : Deal) : Nat := min (deal.maturity + 2 * 24 * 60 * 60) (2 ^ 64 - 1)

end Deal

namespace PriceFloor

/-- A price floor before its deal, among the accounts as they are. -/
def blank (accounts : Accounts) : PriceFloor := ⟨none, .unfunded, false, accounts⟩

section Calls
variable (self : Address) (floor : PriceFloor) (env : Env)

def sign (deal : Deal) : Outcome Error (Reply × PriceFloor) := do
  requireAuth env deal.farmer
  requireAuth env deal.buyer
  failIf floor.deal.isSome .alreadyInitialized
  return (.done, { floor with deal := some deal })

def fund (buyer : Address) (amount : Int) : Outcome Error (Reply × PriceFloor) := do
  requireAuth env buyer
  let deal ← okOr floor.deal .unauthorized
  failIf (deal.buyer ≠ buyer) .unauthorized
  failIf (amount ≤ 0) .invalidAmount
  failIf (floor.phase ≠ .unfunded) .alreadyFunded
  return (.done, { floor with
    phase := .funded
    accounts := floor.accounts.move deal.settlementToken buyer self amount })

/-- Everything the price floor holds of the token is its collateral. -/
def settle (quotes : Quotes) : Outcome Error (Reply × PriceFloor) := do
  failIf (floor.phase = .settled) .alreadySettled
  let deal ← okOr floor.deal .notYetMature
  failIf (env.timestamp.toNat < deal.maturity) .notYetMature
  failIf (floor.phase = .unfunded) .notFunded
  let price ← okOr (deal.quote quotes) .oracleDataUnavailable
  let collateral := floor.accounts deal.settlementToken self
  failIf (¬ deal.Payable price collateral) .arithmeticOverflow
  let payoff := deal.payoff price collateral
  return (.paid payoff, { floor with
    phase := .settled
    accounts := (floor.accounts.move deal.settlementToken self deal.farmer payoff).move deal.settlementToken self
      deal.buyer (collateral - payoff) })

def cancel (quotes : Quotes) (caller : Address) : Outcome Error (Reply × PriceFloor) := do
  requireAuth env caller
  let deal ← okOr floor.deal .unauthorized
  failIf (caller ≠ deal.farmer ∧ caller ≠ deal.buyer) .unauthorized
  failIf (floor.phase = .settled) .alreadySettled
  failIf (env.timestamp.toNat < deal.graceEnd) .gracePeriodNotElapsed
  match floor.phase with
  | .funded => do
    failIf (deal.quote quotes).isSome .gracePeriodNotElapsed
    return (.done, { floor with
      phase := .unfunded
      cancelled := true
      accounts := floor.accounts.move deal.settlementToken self deal.buyer
        (floor.accounts deal.settlementToken self) })
  | _ => return (.done, { floor with cancelled := true })

end Calls

/-- The price floor of the given address, on tokens that refuse nothing. -/
def machine (self : Address) : Machine PriceFloor Request (Fault Error) Reply where
  exec floor request :=
    match request with
    | .invoke env _
        (.initializeContract farmer buyer commodity floorPrice notional settlementToken maturityTs oracle) =>
      floor.sign env ⟨farmer, buyer, commodity, floorPrice.val, notional.val, settlementToken, maturityTs.toNat, oracle⟩
    | .invoke env _ (.fund buyer amount) => floor.fund self env buyer amount.val
    | .invoke env quotes .settle => floor.settle self env quotes
    | .invoke env quotes (.cancel caller) => floor.cancel self env quotes caller
    | .transfer token sender receiver amount =>
      if sender = self then .error (.unauthorized self)
      else .ok (.done, { floor with accounts := floor.accounts.move token sender receiver amount.val })

end PriceFloor

section Correspondence

/-- The deal of the stored terms. -/
def Terms.deal (terms : Terms) : Deal :=
  ⟨terms.farmer, terms.buyer, terms.commodity, terms.floorPrice.val, terms.notional.val, terms.settlementToken,
    terms.maturity.toNat, terms.oracle⟩

/-- The prices of the records that oracles answer. -/
def quotes (feed : Feed) : Quotes := fun source asset => (feed source asset).map (·.price.val)

def Input.request : Input → Request
  | .invoke tx => .invoke tx.env (quotes tx.feed) tx.call
  | .transfer token sender receiver amount => .transfer token sender receiver amount

def Output.reply (out : Output) : Reply :=
  match out.1 with
  | .unit => .done
  | .payout amount => .paid amount.val

variable {L : Type} (tokens : Tokens L)

/-- The balances of all token contracts, as numbers. -/
def balances (ledger : L) : Accounts := fun token holder => (tokens.balance ledger token holder).val

end Correspondence
end AgriFeed.Pricefloor
