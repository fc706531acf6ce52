import AgriFeed.Foundation.Machine
import AgriFeed.Pricefloor.Agreement

/-! An agreement as a machine. Its inputs are the calls of the contract, each with the oracle answers it
would get, and the token transfers that others make on the same ledger. -/
namespace AgriFeed.Pricefloor
open Foundation

inductive Call where
  | initializeContract (farmer buyer : Address) (commodity : Asset) (floorPrice notional : I128)
      (settlementToken : Address) (maturityTs : UInt64) (oracle : Address)
  | fund (buyer : Address) (amount : I128)
  | settle
  | cancel (caller : Address)
  deriving DecidableEq

structure Invocation where
  env : Env
  feed : Feed
  call : Call

inductive Input where
  | invoke (tx : Invocation)
  | transfer (token sender receiver : Address) (amount : I128)

namespace Input

/-- The amount a call deposits. -/
def deposits : Input → Option I128
  | .invoke ⟨_, _, .fund _ amount⟩ => some amount
  | _ => none

/-- The caller of a cancellation. -/
def cancels : Input → Option Address
  | .invoke ⟨_, _, .cancel caller⟩ => some caller
  | _ => none

/-- The parties an initialization proposes. -/
def parties : Input → List Address
  | .invoke ⟨_, _, .initializeContract farmer buyer ..⟩ => [farmer, buyer]
  | _ => []

/-- The addresses whose authorization an input carries. -/
def signers : Input → List Address
  | .invoke tx => tx.env.auths
  | .transfer _ sender _ _ => [sender]

/-- The contract does not sign an initialization that makes it a party. -/
def LeavesOut (contract : Address) (input : Input) : Prop := contract ∈ input.parties → contract ∉ input.signers

instance (contract : Address) (input : Input) : Decidable (input.LeavesOut contract) :=
  inferInstanceAs (Decidable (_ → _))

theorem leavesOut_of_parties {contract : Address} {input : Input} (h : contract ∉ input.parties) :
    input.LeavesOut contract := fun hm => absurd hm h

end Input

inductive Value where
  | unit
  | payout (amount : I128)
  deriving DecidableEq

abbrev Output := Value × List Event

variable {L : Type} (tokens : Tokens L) (self : Address)

def Receipt.done (r : Receipt L Unit) : Output × World L := ((.unit, r.events), r.world)

def Receipt.paid (r : Receipt L I128) : Output × World L := ((.payout r.value, r.events), r.world)

def invoke (world : World L) (tx : Invocation) : Outcome Error (Output × World L) :=
  match tx.call with
  | .initializeContract farmer buyer commodity floorPrice notional settlementToken maturityTs oracle =>
    (initializeContract tx.env world farmer buyer commodity floorPrice notional settlementToken maturityTs
      oracle).map Receipt.done
  | .fund buyer amount => (fund tokens self tx.env world buyer amount).map Receipt.done
  | .settle => (settle tokens self tx.env tx.feed world).map Receipt.paid
  | .cancel caller => (cancel tokens self tx.env tx.feed world caller).map Receipt.done

/-- Only the contract itself can authorize spending what it holds. -/
def transferOutside (world : World L) (token sender receiver : Address) (amount : I128) :
    Outcome Error (Output × World L) :=
  if sender = self then .error (.unauthorized self)
  else (transfer tokens world.ledger token sender receiver amount).map fun ledger =>
    ((.unit, []), { world with ledger := ledger })

def machine : Machine (World L) Input (Fault Error) Output where
  exec world input :=
    match input with
    | .invoke tx => invoke tokens self world tx
    | .transfer token sender receiver amount => transferOutside tokens self world token sender receiver amount

/-- The state after a run on a fresh contract, from a given ledger. -/
def after (ledger : L) (inputs : List Input) : World L := (machine tokens self).run ⟨.deployed, ledger⟩ inputs

theorem after_append (ledger : L) (pre post : List Input) :
    after tokens self ledger (pre ++ post) = (machine tokens self).run (after tokens self ledger pre) post :=
  (machine tokens self).run_append _ pre post

section Calls

/-- Ten units of the token with the buyer, two with a stranger. -/
def endowment : Units Address Address 128 :=
  .issued ⟨5⟩ (.replicate 10 ⟨2⟩ ++ .replicate 2 ⟨3⟩) (by decide)

/-- Oracles without a price. -/
def silent : Feed := fun _ _ => none

/-- Oracles that all have one price. -/
def quoting (price : I128) : Feed := fun _ _ => some ⟨price, 0⟩

/-- Both parties sign the terms. -/
def signing (farmer buyer : Address) (floorPrice notional : I128) (token : Address) (maturityTs : UInt64)
    (oracle : Address) : Input :=
  .invoke ⟨⟨0, [farmer, buyer]⟩, silent,
    .initializeContract farmer buyer (.other "MAIZE") floorPrice notional token maturityTs oracle⟩

def funding (buyer : Address) (amount : I128) (time : UInt64) : Input :=
  .invoke ⟨⟨time, [buyer]⟩, silent, .fund buyer amount⟩

def settlement (feed : Feed) (time : UInt64) : Input := .invoke ⟨⟨time, []⟩, feed, .settle⟩

def cancellation (feed : Feed) (caller : Address) (time : UInt64) : Input :=
  .invoke ⟨⟨time, [caller]⟩, feed, .cancel caller⟩

end Calls
end AgriFeed.Pricefloor
