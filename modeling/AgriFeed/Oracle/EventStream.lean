import AgriFeed.Oracle.Transition
import Mathlib.Data.List.DropRight

/-! The events of an oracle as its state. An indexer that applies them in the order they were published holds
what the contract stores, apart from the times of pending submissions. -/
namespace AgriFeed.Oracle
open Foundation

/-- What an indexer keeps of an oracle. -/
structure Mirror where
  admin : Option Address
  decimals : Option UInt32
  resolution : Option UInt32
  baseAsset : Option Asset
  nodes : Option (List Address)
  threshold : Option UInt32
  retention : Option UInt32
  commodities : Option (List Asset)
  pending : Asset → List (Address × I128)
  history : Asset → List PriceData

namespace Mirror

/-- Before any event. -/
def blank : Mirror := ⟨none, none, none, none, none, none, none, none, fun _ => [], fun _ => []⟩

def replay (m : Mirror) : Event → Mirror
  | .initialized admin baseAsset decimals resolution => { m with
      admin := some admin
      decimals := some decimals
      resolution := some resolution
      baseAsset := some baseAsset
      nodes := some []
      threshold := some 0
      retention := some 90
      commodities := some [] }
  | .nodeAdded node => { m with nodes := some (m.nodes.getD [] ++ [node]) }
  | .nodeRemoved node => { m with nodes := some ((m.nodes.getD []).erase node) }
  | .thresholdUpdated threshold => { m with threshold := some threshold }
  | .retentionUpdated retention => { m with retention := some retention }
  | .commodityAdded asset => { m with commodities := some (m.commodities.getD [] ++ [asset]) }
  | .priceSubmitted asset node price =>
    { m with pending := Function.update m.pending asset (m.pending asset ++ [(node, price)]) }
  | .priceFinalized asset price timestamp => { m with
      pending := Function.update m.pending asset []
      history := Function.update m.history asset
        (List.rtake (m.history asset ++ [⟨price, timestamp⟩]) (m.retention.getD defaultRetention).toNat) }

/-- The stored state as an indexer sees it. -/
def ofStorage (st : Storage) : Mirror where
  admin := st.admin
  decimals := st.decimals
  resolution := st.resolution
  baseAsset := st.baseAsset
  nodes := st.nodes
  threshold := st.threshold
  retention := st.retention
  commodities := st.commodities
  pending asset := (readPending st asset).map fun sub => (sub.node, sub.price)
  history asset := readHistory st asset

end Mirror

/-- What a committed invocation has published. -/
def published (_ : Storage) (_ : Invocation) (out : Output) : List Event := out.2

section Steps
variable {env : Env} {st st' : Storage} {call : Call} {out : Output}

theorem ofStorage_setPending (st : Storage) (asset : Asset) (entry : Option (List Submission)) :
    Mirror.ofStorage (st.setPending asset entry) = { Mirror.ofStorage st with
      pending := Function.update (Mirror.ofStorage st).pending asset
        ((entry.getD []).map fun sub => (sub.node, sub.price)) } := by
  have hpending : (Mirror.ofStorage (st.setPending asset entry)).pending =
      Function.update (Mirror.ofStorage st).pending asset
        ((entry.getD []).map fun sub => (sub.node, sub.price)) := by
    funext a
    change (readPending (st.setPending asset entry) a).map _ = _
    rw [readPending_setPending]
    by_cases ha : a = asset
    · rw [if_pos ha, ha, Function.update_self]
    · rw [if_neg ha, Function.update_of_ne ha]
      rfl
  rw [← hpending]
  rfl

theorem ofStorage_setHistory (st : Storage) (asset : Asset) (entry : Option (List PriceData)) :
    Mirror.ofStorage (st.setHistory asset entry) = { Mirror.ofStorage st with
      history := Function.update (Mirror.ofStorage st).history asset (entry.getD []) } := by
  have hhistory : (Mirror.ofStorage (st.setHistory asset entry)).history =
      Function.update (Mirror.ofStorage st).history asset (entry.getD []) := by
    funext a
    change readHistory (st.setHistory asset entry) a = _
    rw [readHistory_setHistory]
    by_cases ha : a = asset
    · rw [if_pos ha, ha, Function.update_self]
    · rw [if_neg ha, Function.update_of_ne ha]
      rfl
  rw [← hhistory]
  rfl

/-- The events of a committed call redo its effect, and a call without events had none. -/
theorem replay_step (h : Transition env st call out st') :
    out.2.foldl Mirror.replay (.ofStorage st) = .ofStorage st' := by
  cases h with
  | submitPrice =>
    rw [ofStorage_setPending, Option.getD_some, List.map_append]
    rfl
  | finalizePrice =>
    rw [ofStorage_setPending, ofStorage_setHistory, prune_eq_drop]
    rfl
  | _ => rfl

end Steps

/-- Replaying everything a run has published gives exactly what the run has stored. -/
theorem events_determine_storage (txs : List Invocation) :
    (machine.log published .deployed txs).foldl Mirror.replay .blank = .ofStorage (after txs) := by
  have hstart : [].foldl Mirror.replay .blank = .ofStorage .deployed := rfl
  refine machine.log_invariant published (fun events st => events.foldl Mirror.replay .blank = .ofStorage st)
    (fun events st tx out st' hi _ he => ?_) hstart (machine.along_inputs .deployed fun _ _ => trivial)
  rw [List.foldl_append, hi]
  exact replay_step (exec_eq_ok.mp he)

end AgriFeed.Oracle
