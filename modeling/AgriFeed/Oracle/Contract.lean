import AgriFeed.Foundation.Machine
import AgriFeed.Oracle.Ingest

/-! The oracle as a machine: one invocation is one input, and a failed invocation is rolled back whole. -/
namespace AgriFeed.Oracle
open Foundation

inductive Call where
  | initializeContract (admin : Address) (decimals resolution : UInt32) (baseAsset : Asset)
  | addNode (admin node : Address)
  | removeNode (admin node : Address)
  | setThreshold (admin : Address) (threshold : UInt32)
  | setRetention (admin : Address) (retention : UInt32)
  | addCommodity (admin : Address) (asset : Asset)
  | submitPrice (node : Address) (asset : Asset) (price : I128) (sourceTs : UInt64)
  | finalizePrice (asset : Asset)
  | extendInstanceTtl (asset : Asset)
  deriving DecidableEq

namespace Call

/-- The asset a call finalizes. -/
def finalizes : Call → Option Asset
  | .finalizePrice asset => some asset
  | _ => none

/-- The node and asset of a submission. -/
def submits : Call → Option (Address × Asset)
  | .submitPrice node asset _ _ => some (node, asset)
  | _ => none

/-- The node a call adds. -/
def adds : Call → Option Address
  | .addNode _ node => some node
  | _ => none

/-- The node a call removes. -/
def removes : Call → Option Address
  | .removeNode _ node => some node
  | _ => none

theorem mem_finalizes {call : Call} {asset : Asset} : asset ∈ call.finalizes ↔ call = .finalizePrice asset := by
  cases call <;> simp [finalizes]

theorem mem_submits {call : Call} {node : Address} {asset : Asset} :
    (node, asset) ∈ call.submits ↔ ∃ price sourceTs, call = .submitPrice node asset price sourceTs := by
  cases call <;> simp [submits]

theorem mem_adds {call : Call} {node : Address} : node ∈ call.adds ↔ ∃ admin, call = .addNode admin node := by
  cases call <;> simp [adds]

theorem mem_removes {call : Call} {node : Address} : node ∈ call.removes ↔ ∃ admin, call = .removeNode admin node := by
  cases call <;> simp [removes]

end Call

inductive Value where
  | unit
  | price (record : PriceData)
  deriving DecidableEq

structure Invocation where
  env : Env
  call : Call

abbrev Output := Value × List Event

def Receipt.done (r : Receipt Unit) : Output × Storage := ((.unit, r.events), r.storage)

def Receipt.priced (r : Receipt PriceData) : Output × Storage := ((.price r.value, r.events), r.storage)

def invoke (st : Storage) (tx : Invocation) : Outcome Error (Output × Storage) :=
  match tx.call with
  | .initializeContract admin decimals resolution baseAsset =>
    (initializeContract tx.env st admin decimals resolution baseAsset).map Receipt.done
  | .addNode admin node => (addNode tx.env st admin node).map Receipt.done
  | .removeNode admin node => (removeNode tx.env st admin node).map Receipt.done
  | .setThreshold admin threshold => (setThreshold tx.env st admin threshold).map Receipt.done
  | .setRetention admin retention => (setRetention tx.env st admin retention).map Receipt.done
  | .addCommodity admin asset => (addCommodity tx.env st admin asset).map Receipt.done
  | .submitPrice node asset price sourceTs =>
    (submitPrice tx.env st node asset price sourceTs).map Receipt.done
  | .finalizePrice asset => (finalizePrice tx.env st asset).map Receipt.priced
  | .extendInstanceTtl asset => (extendInstanceTtl st asset).map Receipt.done

def machine : Machine Storage Invocation (Fault Error) Output := ⟨invoke⟩

/-- The state after a run of invocations from deployment. -/
def after (txs : List Invocation) : Storage := machine.run .deployed txs

theorem after_append (pre post : List Invocation) : after (pre ++ post) = machine.run (after pre) post :=
  machine.run_append _ pre post

theorem after_concat (pre : List Invocation) (tx : Invocation) : after (pre ++ [tx]) = machine.step (after pre) tx :=
  machine.run_concat _ pre tx

/-- Ledger time never goes back along a run. -/
def Timely (txs : List Invocation) : Prop := Machine.Timely (fun tx : Invocation => tx.env.timestamp.toNat) txs

instance (txs : List Invocation) : Decidable (Timely txs) := inferInstanceAs (Decidable (Machine.Timely _ txs))

/-- The invocations by which an administrator opens a feed for one asset. -/
def opening (admin : Address) (resolution : UInt32) (nodes : List Address) (threshold : UInt32) (asset : Asset) :
    List Invocation :=
  let signed : Env := ⟨0, [admin]⟩
  [⟨signed, .initializeContract admin 7 resolution (.other "USDC")⟩] ++
    nodes.map (fun node => ⟨signed, .addNode admin node⟩) ++
    [⟨signed, .setThreshold admin threshold⟩, ⟨signed, .addCommodity admin asset⟩]

/-- A submission signed by its own node. -/
def submission (node : Address) (asset : Asset) (price : I128) (time : UInt64) : Invocation :=
  ⟨⟨time, [node]⟩, .submitPrice node asset price time⟩

/-- Finalization needs no signature. -/
def finalization (asset : Asset) (time : UInt64) : Invocation := ⟨⟨time, []⟩, .finalizePrice asset⟩

end AgriFeed.Oracle
