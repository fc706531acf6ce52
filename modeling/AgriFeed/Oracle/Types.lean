import AgriFeed.Host
import Mathlib.Logic.Function.Basic

/-! The oracle's stored data, errors and events. Configuration entries are absent until
initialization; pending submissions and finalized history are kept for each asset. -/
namespace AgriFeed.Oracle

def defaultRetention : UInt32 := 90

/-- A finalized price, stamped with the start of its resolution window. -/
structure PriceData where
  price : I128
  timestamp : UInt64
  deriving DecidableEq

inductive Asset where
  | stellar (address : Address)
  | other (symbol : Symbol)
  deriving DecidableEq

structure Submission where
  node : Address
  price : I128
  sourceTs : UInt64
  submittedAt : UInt64
  deriving DecidableEq

inductive Error where
  | alreadyInitialized
  | notInitialized
  | notAdmin
  | notAuthorizedNode
  | unknownCommodity
  | commodityAlreadyExists
  | thresholdNotMet
  | noPendingSubmissions
  | duplicateSubmission
  | invalidPrice
  | invalidThreshold
  deriving DecidableEq

inductive Event where
  | initialized (admin : Address) (baseAsset : Asset) (decimals resolution : UInt32)
  | nodeAdded (node : Address)
  | nodeRemoved (node : Address)
  | thresholdUpdated (threshold : UInt32)
  | retentionUpdated (retention : UInt32)
  | commodityAdded (asset : Asset)
  | priceSubmitted (asset : Asset) (node : Address) (price : I128)
  | priceFinalized (asset : Asset) (price : I128) (timestamp : UInt64)
  deriving DecidableEq

/-- Instance entries, then the persistent entries keyed by asset. -/
structure Storage where
  admin : Option Address
  nodes : Option (List Address)
  threshold : Option UInt32
  decimals : Option UInt32
  resolution : Option UInt32
  baseAsset : Option Asset
  commodities : Option (List Asset)
  retention : Option UInt32
  pending : Asset → Option (List Submission)
  history : Asset → Option (List PriceData)

/-- A deployed contract before its initialization. -/
def Storage.deployed : Storage :=
  ⟨none, none, none, none, none, none, none, none, fun _ => none, fun _ => none⟩

/-- What a successful invocation returns, stores and publishes. -/
structure Receipt (A : Type) where
  value : A
  storage : Storage
  events : List Event

namespace Storage

def setPending (st : Storage) (asset : Asset) (entry : Option (List Submission)) : Storage :=
  { st with pending := Function.update st.pending asset entry }

def setHistory (st : Storage) (asset : Asset) (entry : Option (List PriceData)) : Storage :=
  { st with history := Function.update st.history asset entry }

end Storage
end AgriFeed.Oracle
