import AgriFeed.Pricefloor.Escrow

/-! What the flag of a cancellation says. It records that some cancellation has succeeded and is read by no
operation, so a cancelled agreement can be funded again. -/
namespace AgriFeed.Pricefloor
open Foundation

variable {L : Type}

/-- The callers of successful cancellations, in order. -/
def cancellations (_ : World L) (input : Input) (_ : Output) : List Address := input.cancels.toList

section Conditions
variable (tokens : Tokens L) (self : Address)

/-- No deposit succeeds. -/
def NoFunding (w : World L) (input : Input) : Prop :=
  input.deposits.isSome → ¬ (machine tokens self).Commits w input

instance (w : World L) (input : Input) : Decidable (NoFunding tokens self w input) :=
  inferInstanceAs (Decidable (_ → ¬ _))

/-- No settlement succeeds. -/
def NoSettlement (w : World L) (input : Input) : Prop :=
  ∀ env feed, input = .invoke ⟨env, feed, .settle⟩ → ¬ (machine tokens self).Commits w input

end Conditions

/-- The agreement has terms and is neither funded nor settled. -/
structure Idle (st : Storage) : Prop where
  coherent : Coherent st
  funded : st.funded = some false
  settled : st.settled = some false

section Steps
variable {tokens : Tokens L} {self : Address} {w w' : World L} {input : Input} {out : Output}

/-- Once the terms are stored, a flag that does not hold is stored as such. -/
private theorem idle_of_unset {st : Storage} (hc : Coherent st) (hf : st.farmer.isSome)
    (hu : st.funded.getD false = false) (hs : st.settled.getD false = false) : Idle st := by
  cases hc with
  | fresh h => rw [h] at hf; cases hf
  | agreed terms holds funded settled hfund hset himp =>
    rw [hfund] at hu
    rw [hset] at hs
    cases hu
    cases hs
    exact ⟨.agreed terms holds false false hfund hset himp, hfund, hset⟩

private theorem idle_of_cancel (hc : Coherent w.storage) (hi : input.cancels.isSome)
    (ht : Transition tokens self w input out w') : Idle w'.storage := by
  have hc' := coherent_step hc ht
  cases ht with
  | cancelFunded _ hf _ _ hn => exact idle_of_unset hc' (by simp [hf]) rfl hn
  | cancelUnfunded _ hf _ _ hn _ hu => exact idle_of_unset hc' (by simp [hf]) hu hn
  | _ => cases hi

private theorem idle_step (hi : Idle w.storage) (hn : NoFunding tokens self w input)
    (ht : Transition tokens self w input out w') : Idle w'.storage := by
  have hc' := coherent_step hi.coherent ht
  have hfunded := hi.funded
  have hsettled := hi.settled
  have hcommits := commits_iff.mpr ⟨out, w', ht⟩
  cases ht with
  | initializeContract => exact ⟨hc', rfl, rfl⟩
  | fund => exact absurd hcommits (hn rfl)
  | settle _ hf => rw [hfunded] at hf; cases hf
  | cancelFunded _ _ _ _ _ _ hf => rw [hfunded] at hf; cases hf
  | cancelUnfunded => exact ⟨hc', hfunded, hsettled⟩
  | transfer => exact hi

private theorem noSettlement_of_idle (hi : Idle w.storage) : NoSettlement tokens self w input := by
  rintro env feed rfl hc
  obtain ⟨_, _, ht⟩ := commits_iff.mp hc
  cases ht with
  | settle _ hf => rw [hi.funded] at hf; cases hf

private theorem cancelled_step (ht : Transition tokens self w input out w') :
    (w'.storage.cancelled = some true ↔ w.storage.cancelled = some true ∨ cancellations w input out ≠ []) := by
  cases ht with
  | cancelFunded => simp [cancellations, Input.cancels]
  | cancelUnfunded => simp [cancellations, Input.cancels]
  | _ => simp [cancellations, Input.cancels]

/-- No guard reads the flag. -/
private theorem commits_of_flag (flag : Option Bool) (h : (machine tokens self).Commits w input) :
    (machine tokens self).Commits { w with storage := { w.storage with cancelled := flag } } input := by
  obtain ⟨out, w', ht⟩ := commits_iff.mp h
  apply commits_iff.mpr
  cases ht with
  | initializeContract hf hb hn => exact ⟨_, _, .initializeContract hf hb hn⟩
  | fund hs hb hp hu hn ht hm => exact ⟨_, _, .fund hs hb hp hu hn ht hm⟩
  | settle hs hf hh ht hq hd hp hb => exact ⟨_, _, .settle hs hf { hh with } ht hq hd hp hb⟩
  | cancelFunded hs hfa hbu hp hn hto hf hm ht hor hco hq hr =>
    exact ⟨_, _, .cancelFunded hs hfa hbu hp hn hto hf hm ht hor hco hq hr⟩
  | cancelUnfunded hs hfa hbu hp hn hto hu hm ht => exact ⟨_, _, .cancelUnfunded hs hfa hbu hp hn hto hu hm ht⟩
  | transfer ho hm => exact ⟨_, _, .transfer ho hm⟩

end Steps

/-- The flag is set exactly when a cancellation has succeeded. From there on the agreement is neither funded
nor settled, and cannot be settled, until a deposit succeeds; and no call succeeds or fails by the flag. -/
theorem cancelled_until_funded (tokens : Tokens L) (self : Address) (ledger : L) :
    (∀ inputs, (after tokens self ledger inputs).storage.cancelled = some true ↔
      (machine tokens self).log cancellations ⟨.deployed, ledger⟩ inputs ≠ []) ∧
    (∀ pre cancel post, cancel.cancels.isSome → (machine tokens self).Commits (after tokens self ledger pre) cancel →
      (machine tokens self).Along (NoFunding tokens self) (after tokens self ledger (pre ++ [cancel])) post →
      (after tokens self ledger (pre ++ cancel :: post)).storage.funded = some false ∧
        (after tokens self ledger (pre ++ cancel :: post)).storage.settled = some false ∧
        (machine tokens self).Along (NoSettlement tokens self) (after tokens self ledger (pre ++ [cancel])) post) ∧
    ∀ (w : World L) (input : Input) (flag : Option Bool),
      (machine tokens self).Commits { w with storage := { w.storage with cancelled := flag } } input ↔
        (machine tokens self).Commits w input := by
  refine ⟨?_, ?_, ?_⟩
  · intro inputs
    have hstart : Storage.deployed.cancelled = some true ↔ ([] : List Address) ≠ [] := by simp [Storage.deployed]
    refine (machine tokens self).log_invariant cancellations
      (fun callers w => w.storage.cancelled = some true ↔ callers ≠ []) (s := ⟨.deployed, ledger⟩) ?_ hstart
      ((machine tokens self).along_inputs _ fun _ _ => trivial)
    intro callers w input out w' ih _ he
    rw [cancelled_step (exec_eq_ok.mp he), ih]
    simp only [ne_eq, List.append_eq_nil_iff, not_and_or]
  · intro pre cancel post hi hc hn
    obtain ⟨out, w', he⟩ := (machine tokens self).commits_iff.mp hc
    have hstep : after tokens self ledger (pre ++ [cancel]) = w' := (machine tokens self).run_commit he
    have hend : after tokens self ledger (pre ++ cancel :: post) = (machine tokens self).run w' post := by
      rw [List.append_cons, after_append, hstep]
    rw [hstep] at hn ⊢
    rw [hend]
    have hidle := idle_of_cancel (coherent ledger pre) hi (exec_eq_ok.mp he)
    obtain ⟨halong, hlast⟩ := (machine tokens self).along_of_invariant (fun w => Idle w.storage)
      (fun _ _ _ _ hi hn he => idle_step hi hn (exec_eq_ok.mp he)) (fun _ _ hi _ => noSettlement_of_idle hi) hidle hn
    exact ⟨hlast.funded, hlast.settled, halong⟩
  · intro w input flag
    constructor
    · intro h
      have hback := commits_of_flag w.storage.cancelled h
      exact hback
    · exact commits_of_flag flag

/-- An agreement is funded, finds no price and is cancelled after the grace period. -/
def refundedRun : List Input :=
  [signing ⟨1⟩ ⟨2⟩ (.literal 100) (.literal 1) ⟨5⟩ 1000 ⟨8⟩, funding ⟨2⟩ (.literal 6) 10]

theorem unfunded_after_refund :
    (after Units.ledger ⟨9⟩ endowment (refundedRun ++ [cancellation silent ⟨1⟩ 173800,
      settlement (quoting (.literal 97)) 173900])).storage.funded = some false :=
  ((cancelled_until_funded Units.ledger ⟨9⟩ endowment).2.1 refundedRun (cancellation silent ⟨1⟩ 173800)
    [settlement (quoting (.literal 97)) 173900] rfl (by decide +kernel) (by decide +kernel)).1

/-- The cancelled agreement is funded again and its flag still stands. -/
theorem funded_after_cancellation :
    ¬ ∀ inputs, (after Units.ledger ⟨9⟩ endowment inputs).storage.cancelled = some true →
      (after Units.ledger ⟨9⟩ endowment inputs).storage.funded ≠ some true ∧
        (after Units.ledger ⟨9⟩ endowment inputs).storage.settled ≠ some true := by
  intro h
  have hend := h (refundedRun ++ [cancellation silent ⟨1⟩ 173800, funding ⟨2⟩ (.literal 4) 173900])
    (by decide +kernel)
  exact hend.1 (by decide +kernel)

end AgriFeed.Pricefloor
