import AgriFeed.Foundation.OrderStatistics
import AgriFeed.Foundation.Retention
import AgriFeed.Foundation.Windows
import AgriFeed.Oracle.Contract
import AgriFeed.Oracle.Interface
import Mathlib.Data.Finset.Basic
import Mathlib.Data.List.DropRight
import Mathlib.Data.Multiset.Sort

/-! What the oracle is for, apart from how it is stored: a set of nodes, one vote for each node and window, and
all rounds that were ever finalized, of which consumers see the latest. Prices and times are plain numbers. -/
namespace AgriFeed.Oracle
open Foundation

/-- The price one node has given for one window. -/
structure Vote where
  node : Address
  price : Int
  window : Nat
  deriving DecidableEq

/-- A finalized price and the start of its window. -/
structure Round where
  price : Int
  start : Nat
  deriving DecidableEq

/-- What is decided once and for all. -/
structure Setup where
  admin : Address
  decimals : Nat
  resolution : Nat
  baseAsset : Asset

structure PriceFeed where
  setup : Option Setup
  nodes : Finset Address
  threshold : Nat
  retention : Nat
  commodities : List Asset
  votes : Asset → Multiset Vote
  rounds : Asset → List Round
  shown : Asset → Nat

/-- What a caller of the feed learns. -/
inductive Reply where
  | done
  | round (round : Round)
  deriving DecidableEq

/-- What a consumer of the feed reads. -/
inductive Reading where
  | asset (asset : Asset)
  | assets (assets : List Asset)
  | number (n : Nat)
  | round (round : Option Round)
  | rounds (rounds : Option (List Round))
  deriving DecidableEq

/-- The median of prices given in any order. The two middle prices of an even count must add up to a word. -/
def agreedPrice (prices : Multiset Int) : Option Int :=
  let xs := prices.sort
  if xs.length % 2 = 1 ∨ lowerMiddle xs + upperMiddle xs < 2 ^ 127 then some (truncatedMedian xs) else none

namespace PriceFeed

/-- A feed before its setup. -/
def blank : PriceFeed := ⟨none, ∅, 0, 90, [], fun _ => 0, fun _ => [], fun _ => 0⟩

/-- The rounds that are still shown, oldest first. -/
def visible (feed : PriceFeed) (asset : Asset) : List Round := (feed.rounds asset).rtake (feed.shown asset)

def vote (feed : PriceFeed) (asset : Asset) (ballot : Vote) : PriceFeed :=
  { feed with votes := Function.update feed.votes asset (ballot ::ₘ feed.votes asset) }

/-- A round ends the voting. It is shown with the latest earlier ones, as the retention of the moment allows. -/
def conclude (feed : PriceFeed) (asset : Asset) (round : Round) : PriceFeed :=
  { feed with
    votes := Function.update feed.votes asset 0
    rounds := Function.update feed.rounds asset (feed.rounds asset ++ [round])
    shown := Function.update feed.shown asset (min (feed.shown asset + 1) feed.retention) }

theorem visible_conclude (feed : PriceFeed) (asset a : Asset) (round : Round) :
    (feed.conclude asset round).visible a =
      if a = asset then (feed.visible asset ++ [round]).rtake feed.retention else feed.visible a := by
  by_cases ha : a = asset
  · subst ha
    simp only [visible, conclude, Function.update_self, if_pos, rtake_concat_rtake]
  · simp only [visible, conclude, Function.update_of_ne ha, if_neg ha]

/-- What the administrator alone can do. -/
def administer (env : Env) (feed : PriceFeed) (admin : Address) (act : Outcome Error (Reply × PriceFeed)) :
    Outcome Error (Reply × PriceFeed) := do
  requireAuth env admin
  let setup ← okOr feed.setup .notInitialized
  failIf (setup.admin ≠ admin) .notAdmin
  act

def submit (env : Env) (feed : PriceFeed) (node : Address) (asset : Asset) (price : Int) :
    Outcome Error (Reply × PriceFeed) := do
  requireAuth env node
  let setup ← okOr feed.setup .notInitialized
  failIf (node ∉ feed.nodes) .notAuthorizedNode
  failIf (asset ∉ feed.commodities) .unknownCommodity
  failIf (price ≤ 0) .invalidPrice
  let window := env.timestamp.toNat / setup.resolution
  failIf ((node, window) ∈ (feed.votes asset).map fun vote => (vote.node, vote.window)) .duplicateSubmission
  return (.done, feed.vote asset ⟨node, price, window⟩)

def finalize (env : Env) (feed : PriceFeed) (asset : Asset) : Outcome Error (Reply × PriceFeed) := do
  let setup ← okOr feed.setup .notInitialized
  failIf (feed.votes asset = 0) .noPendingSubmissions
  failIf (feed.threshold = 0 ∨ (feed.votes asset).card < feed.threshold) .thresholdNotMet
  let price ← okOr (agreedPrice ((feed.votes asset).map (·.price))) .invalidPrice
  let round : Round := ⟨price, windowStart setup.resolution env.timestamp.toNat⟩
  return (.round round, feed.conclude asset round)

def call (feed : PriceFeed) (tx : Invocation) : Outcome Error (Reply × PriceFeed) :=
  match tx.call with
  | .initializeContract admin decimals resolution baseAsset => do
    requireAuth tx.env admin
    failIf feed.setup.isSome .alreadyInitialized
    failIf (resolution.toNat = 0) .invalidThreshold
    return (.done, { feed with setup := some ⟨admin, decimals.toNat, resolution.toNat, baseAsset⟩ })
  | .addNode admin node =>
    feed.administer tx.env admin (return (.done, { feed with nodes := insert node feed.nodes }))
  | .removeNode admin node =>
    feed.administer tx.env admin (return (.done, { feed with nodes := feed.nodes.erase node }))
  | .setThreshold admin threshold => feed.administer tx.env admin do
    failIf (threshold.toNat = 0 ∨ feed.nodes.card < threshold.toNat) .invalidThreshold
    return (.done, { feed with threshold := threshold.toNat })
  | .setRetention admin retention => feed.administer tx.env admin do
    failIf (retention.toNat = 0) .invalidThreshold
    return (.done, { feed with retention := retention.toNat })
  | .addCommodity admin asset => feed.administer tx.env admin do
    failIf (asset ∈ feed.commodities) .commodityAlreadyExists
    return (.done, { feed with commodities := feed.commodities ++ [asset] })
  | .submitPrice node asset price _ => feed.submit tx.env node asset price.val
  | .finalizePrice asset => feed.finalize tx.env asset
  | .extendInstanceTtl _ => do
    let _ ← okOr feed.setup .notInitialized
    return (.done, feed)

def machine : Machine PriceFeed Invocation (Fault Error) Reply := ⟨call⟩

def after (txs : List Invocation) : PriceFeed := machine.run blank txs

def read (feed : PriceFeed) : Query → Reading
  | .base => .asset ((feed.setup.map (·.baseAsset)).getD (.other ""))
  | .assets => .assets feed.commodities
  | .decimals => .number ((feed.setup.map (·.decimals)).getD 0)
  | .resolution => .number ((feed.setup.map (·.resolution)).getD 0)
  | .price asset timestamp =>
    .round ((feed.visible asset).find? fun round => round.start ≤ timestamp.toNat ∧
      timestamp.toNat < round.start + (feed.setup.map (·.resolution)).getD 0)
  | .prices asset records =>
    .rounds (if records.toNat = 0 ∨ feed.visible asset = [] then none
      else some ((feed.visible asset).rtake records.toNat))
  | .lastprice asset => .round (feed.rounds asset).getLast?

end PriceFeed

section Correspondence

def PriceData.round (record : PriceData) : Round := ⟨record.price.val, record.timestamp.toNat⟩

/-- What the caller of the contract learns, as numbers. -/
def Output.reply (out : Output) : Reply :=
  match out.1 with
  | .unit => .done
  | .price record => .round record.round

/-- What the consumer of the contract reads, as numbers. -/
def Answer.reading : Answer → Reading
  | .asset a => .asset a
  | .assets list => .assets list
  | .number n => .number n.toNat
  | .record r => .round (r.map PriceData.round)
  | .records rs => .rounds (rs.map (·.map PriceData.round))

end Correspondence
end AgriFeed.Oracle
