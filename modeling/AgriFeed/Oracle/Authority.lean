import AgriFeed.Foundation.Lockstep
import AgriFeed.Oracle.Transition

/-! Who can change an initialized oracle. A run is determined by the calls its stored administrator and its
listed nodes have signed and by the finalizations; everything else can be left out of it. -/
namespace AgriFeed.Oracle
open Foundation

/-- The administrator a call names. -/
def Call.administrator : Call → Option Address
  | .initializeContract admin _ _ _ => some admin
  | .addNode admin _ => some admin
  | .removeNode admin _ => some admin
  | .setThreshold admin _ => some admin
  | .setRetention admin _ => some admin
  | .addCommodity admin _ => some admin
  | _ => none

/-- A call names the stored administrator or a listed node and is signed by that address, or it finalizes. -/
def Empowered (st : Storage) (tx : Invocation) : Prop :=
  (∃ admin ∈ tx.call.administrator, st.admin = some admin ∧ admin ∈ tx.env.auths) ∨
    (∃ submission ∈ tx.call.submits, submission.1 ∈ tx.env.auths ∧ submission.1 ∈ readNodes st) ∨
    tx.call.finalizes.isSome

instance (st : Storage) (tx : Invocation) : Decidable (Empowered st tx) :=
  inferInstanceAs (Decidable ((∃ admin ∈ tx.call.administrator, _) ∨ (∃ submission ∈ tx.call.submits, _) ∨ _))

section Steps
variable {st st' : Storage} {env : Env} {call : Call} {out : Output}

/-- Without the authority a call needs it leaves an initialized oracle as it is. -/
theorem powerless_step {tx : Invocation} (ready : st.admin.isSome) (hn : ¬ Empowered st tx) :
    machine.step st tx = st := by
  rw [Empowered, not_or, not_or] at hn
  obtain ⟨env, call⟩ := tx
  apply Eq.symm
  refine machine.step_preserves rfl fun out st' he => ?_
  cases exec_eq_ok.mp he with
  | initializeContract hs hf =>
    rw [hf] at ready
    cases ready
  | submitPrice hs hi hl => exact absurd ⟨_, rfl, hs, hl⟩ hn.2.1
  | finalizePrice => exact absurd rfl hn.2.2
  | extendInstanceTtl => rfl
  | _ hs ha => exact absurd ⟨_, rfl, ha, hs⟩ hn.1

/-- What initialization stores once and no call changes. -/
structure SameOrigin (s t : Storage) : Prop where
  admin : t.admin = s.admin
  decimals : t.decimals = s.decimals
  resolution : t.resolution = s.resolution
  baseAsset : t.baseAsset = s.baseAsset

theorem Transition.sameOrigin (h : Transition env st call out st') (ready : st.admin.isSome) : SameOrigin st st' := by
  cases h with
  | initializeContract hs hf =>
    rw [hf] at ready
    cases ready
  | _ => exact ⟨rfl, rfl, rfl, rfl⟩

theorem run_sameOrigin (ready : st.admin.isSome) (txs : List Invocation) : SameOrigin st (machine.run st txs) := by
  have hstart : SameOrigin st st := ⟨rfl, rfl, rfl, rfl⟩
  refine machine.run_invariant (SameOrigin st) (fun s tx out s' hi he => ?_) hstart txs
  have hready : s.admin.isSome := by rwa [hi.admin]
  have hnext := (exec_eq_ok.mp he).sameOrigin hready
  exact ⟨hnext.admin.trans hi.admin, hnext.decimals.trans hi.decimals, hnext.resolution.trans hi.resolution,
    hnext.baseAsset.trans hi.baseAsset⟩

/-- Administration never reaches the submitted or finalized prices. -/
theorem administration_step {tx : Invocation} (ha : tx.call.administrator.isSome) :
    (machine.step st tx).pending = st.pending ∧ (machine.step st tx).history = st.history := by
  cases he : machine.exec st tx with
  | error e =>
    rw [machine.step_rollback he]
    exact ⟨rfl, rfl⟩
  | ok res =>
    obtain ⟨out, st'⟩ := res
    rw [machine.step_commit he]
    obtain ⟨env, call⟩ := tx
    cases exec_eq_ok.mp he with
    | submitPrice => cases ha
    | finalizePrice => cases ha
    | _ => exact ⟨rfl, rfl⟩

end Steps

/-- Deleting the calls without authority changes neither the result of any other call nor what is stored in
the end. What initialization stored stays, and administration leaves all prices alone. -/
theorem unauthorized_calls_have_no_influence (st : Storage) (ready : st.admin.isSome) (txs : List Invocation) :
    machine.keptResults Empowered st txs = machine.results st (machine.kept Empowered st txs) ∧
      machine.run st txs = machine.run st (machine.kept Empowered st txs) ∧
      SameOrigin st (machine.run st txs) ∧
      ∀ tx, tx.call.administrator.isSome →
        (machine.step (machine.run st txs) tx).pending = (machine.run st txs).pending ∧
          (machine.step (machine.run st txs) tx).history = (machine.run st txs).history := by
  have hrun := machine.unwinding (K := Empowered) (R := fun s t => s = t ∧ s.admin.isSome) ?_ ?_ ⟨rfl, ready⟩ txs
  · exact ⟨hrun.1, hrun.2.1, run_sameOrigin ready txs, fun _ => administration_step⟩
  · rintro s t tx ⟨rfl, hready⟩ hn
    rw [powerless_step hready hn]
    exact ⟨rfl, hready⟩
  · rintro s t tx ⟨rfl, hready⟩ _
    refine ⟨rfl, rfl, ?_⟩
    have horigin := run_sameOrigin hready [tx]
    exact horigin.admin ▸ hready

/-- A stranger signs calls of his own while the administrator adds a node that then submits. -/
def contestedRun : List Invocation :=
  [⟨⟨1000, [⟨6⟩]⟩, .addNode ⟨6⟩ ⟨6⟩⟩, ⟨⟨1000, [⟨6⟩]⟩, .setRetention ⟨0⟩ 1⟩, ⟨⟨1010, [⟨0⟩]⟩, .addNode ⟨0⟩ ⟨2⟩⟩,
    submission ⟨6⟩ (.other "MAIZE") (.literal 1) 1020, submission ⟨2⟩ (.other "MAIZE") (.literal 95) 1030,
    finalization (.other "MAIZE") 1040]

def contestedOracle : Storage := after (opening ⟨0⟩ 60 [⟨1⟩] 1 (.other "MAIZE"))

theorem stranger_has_no_influence :
    machine.run contestedOracle contestedRun =
        machine.run contestedOracle (machine.kept Empowered contestedOracle contestedRun) ∧
      (machine.kept Empowered contestedOracle contestedRun).map (·.env.timestamp) = [1010, 1030, 1040] :=
  ⟨(unauthorized_calls_have_no_influence contestedOracle (by decide +kernel) contestedRun).2.1, by decide +kernel⟩

end AgriFeed.Oracle
