import AgriFeed.Oracle.Isolation

/-! In which order calls come matters for each asset only. Runs with the same administrative calls, in which each asset
has its own calls at the same places among these, cannot be told apart. -/
namespace AgriFeed.Oracle
open Foundation

section Parts

theorem sameFor_equivalence (asset : Asset) : Equivalence (SameFor asset) := ⟨.refl asset, .symm, .trans⟩

/-- What is the same for every asset is the same. -/
theorem eq_of_sameFor {s t : Storage} (h : ∀ asset, SameFor asset s t) : s = t := by
  have hpending : t.pending = s.pending := funext fun asset => (h asset).pending
  have hhistory : t.history = s.history := funext fun asset => (h asset).history
  rw [(h (.other "")).configuration, hpending, hhistory]
  rfl

end Parts

/-- Two runs from one state that agree, for each asset, on the sequence of administrative calls and calls on that asset
leave the same storage, and for each asset give these calls the same results. -/
theorem order_matters_within_assets_only (st : Storage) (txs txs' : List Invocation)
    (h : ∀ asset, txs.filter (Touches asset ·) = txs'.filter (Touches asset ·)) :
    machine.run st txs = machine.run st txs' ∧
      ∀ asset, machine.keptResults (fun _ tx => Touches asset tx) st txs =
        machine.keptResults (fun _ tx => Touches asset tx) st txs' := by
  have hparts := machine.parts_determine_run sameFor_equivalence (fun _ _ _ hf => foreign_step hf)
    (fun _ _ _ _ hs hown => machine.step_agrees machine hs (own_agrees hs hown)) st h
  exact ⟨eq_of_sameFor fun asset => (hparts asset).2, fun asset => (hparts asset).1⟩

/-- Two assets are fed in turn, or one after the other. -/
def fedInTurn : List Invocation :=
  [submission ⟨1⟩ (.other "MAIZE") (.literal 95) 1030, submission ⟨1⟩ (.other "WHEAT") (.literal 210) 1031,
    finalization (.other "MAIZE") 1040, finalization (.other "WHEAT") 1041]

def fedOneByOne : List Invocation :=
  [submission ⟨1⟩ (.other "WHEAT") (.literal 210) 1031, finalization (.other "WHEAT") 1041,
    submission ⟨1⟩ (.other "MAIZE") (.literal 95) 1030, finalization (.other "MAIZE") 1040]

theorem fed_in_any_order (asset : Asset) :
    fedInTurn.filter (Touches asset ·) = fedOneByOne.filter (Touches asset ·) := by
  by_cases hm : asset = .other "MAIZE"
  · subst hm
    rfl
  · by_cases hw : asset = .other "WHEAT"
    · subst hw
      rfl
    · simp [fedInTurn, fedOneByOne, Touches, submission, finalization, Call.subject, eq_comm, hm, hw]

theorem feeding_order_unseen :
    machine.run (after (opening ⟨0⟩ 60 [⟨1⟩] 1 (.other "MAIZE"))) fedInTurn =
      machine.run (after (opening ⟨0⟩ 60 [⟨1⟩] 1 (.other "MAIZE"))) fedOneByOne :=
  (order_matters_within_assets_only _ fedInTurn fedOneByOne fed_in_any_order).1

end AgriFeed.Oracle
