import AgriFeed.Oracle.Locality

/-! Commodities do not interfere. What consumers of one asset see, and what is stored for it, is what a run
would leave without the calls on all other assets. -/
namespace AgriFeed.Oracle
open Foundation

/-- The asset whose data or lifetime a call is about. -/
def Call.subject : Call → Option Asset
  | .submitPrice _ asset _ _ => some asset
  | .finalizePrice asset => some asset
  | .extendInstanceTtl asset => some asset
  | _ => none

/-- The asset a consumer asks about. -/
def Query.subject : Query → Option Asset
  | .price asset _ => some asset
  | .prices asset _ => some asset
  | .lastprice asset => some asset
  | _ => none

/-- Every call but those on other assets. -/
def Touches (asset : Asset) (tx : Invocation) : Prop := tx.call.subject = none ∨ tx.call.subject = some asset

instance (asset : Asset) : DecidablePred (Touches asset) := fun tx =>
  inferInstanceAs (Decidable (tx.call.subject = none ∨ tx.call.subject = some asset))

/-- States that share the configuration and the data of one asset. -/
structure SameFor (asset : Asset) (s t : Storage) : Prop where
  configuration : t = s.withData t.pending t.history
  pending : t.pending asset = s.pending asset
  history : t.history asset = s.history asset

section Steps
variable {asset : Asset} {s t u : Storage}

theorem SameFor.refl (asset : Asset) (st : Storage) : SameFor asset st st := ⟨rfl, rfl, rfl⟩

theorem SameFor.symm (h : SameFor asset s t) : SameFor asset t s := by
  refine ⟨?_, h.pending.symm, h.history.symm⟩
  rw [h.configuration]
  rfl

theorem SameFor.trans (h : SameFor asset s t) (h' : SameFor asset t u) : SameFor asset s u := by
  refine ⟨?_, h'.pending.trans h.pending, h'.history.trans h.history⟩
  rw [h'.configuration, h.configuration]
  rfl

/-- The entries of other assets can be set at will. -/
theorem SameFor.setPending_other (st : Storage) {a : Asset} (ha : a ≠ asset) (entry : Option (List Submission)) :
    SameFor asset st (st.setPending a entry) :=
  ⟨rfl, Function.update_of_ne ha.symm _ _, rfl⟩

theorem SameFor.setHistory_other (st : Storage) {a : Asset} (ha : a ≠ asset) (entry : Option (List PriceData)) :
    SameFor asset st (st.setHistory a entry) :=
  ⟨rfl, rfl, Function.update_of_ne ha.symm _ _⟩

theorem SameFor.setPending_own (h : SameFor asset s t) (entry : Option (List Submission)) :
    SameFor asset (s.setPending asset entry) (t.setPending asset entry) := by
  refine ⟨?_, ?_, h.history⟩
  · rw [h.configuration]
    rfl
  · simp only [Storage.setPending, Function.update_self]

theorem SameFor.setHistory_own (h : SameFor asset s t) (entry : Option (List PriceData)) :
    SameFor asset (s.setHistory asset entry) (t.setHistory asset entry) := by
  refine ⟨?_, h.pending, ?_⟩
  · rw [h.configuration]
    rfl
  · simp only [Storage.setHistory, Function.update_self]

/-- A call on another asset leaves the configuration and the data of this one alone. -/
theorem foreign_step {tx : Invocation} (hf : ¬ Touches asset tx) : SameFor asset s (machine.step s tx) := by
  rw [Touches, not_or] at hf
  obtain ⟨env, call⟩ := tx
  refine machine.step_preserves (.refl asset s) fun out st' he => ?_
  have ht := exec_eq_ok.mp he
  cases ht with
  | submitPrice =>
    exact .setPending_other s (fun h => hf.2 (congrArg some h)) _
  | @finalizePrice a =>
    have ha : a ≠ asset := fun h => hf.2 (congrArg some h)
    exact (SameFor.setHistory_other s ha _).trans (.setPending_other _ ha _)
  | extendInstanceTtl => exact .refl asset s
  | _ => exact absurd rfl hf.1

/-- Any other call reads and writes only what the states share. -/
theorem own_agrees (h : SameFor asset s t) {tx : Invocation} (hown : Touches asset tx) :
    Agrees (fun x y => x.1 = y.1 ∧ SameFor asset x.2 y.2) (machine.exec s tx) (machine.exec t tx) := by
  obtain ⟨env, call⟩ := tx
  have hpending : (t.pending asset).getD [] = readPending s asset := congrArg (Option.getD · []) h.pending
  have hhistory : (t.history asset).getD [] = readHistory s asset := congrArg (Option.getD · []) h.history
  rw [h.configuration]
  refine agrees_of_local (fun _ => ⟨rfl, h.pending, h.history⟩) ?_ ?_
  · rintro node a price sourceTs rfl
    obtain rfl : a = asset := Option.some.inj (hown.resolve_left (by simp [Call.subject]))
    rw [← h.configuration, hpending]
    exact ⟨rfl, h.setPending_own _⟩
  · rintro a rfl
    obtain rfl : a = asset := Option.some.inj (hown.resolve_left (by simp [Call.subject]))
    rw [← h.configuration, hpending]
    exact ⟨rfl, rfl, hhistory, fun _ => (h.setHistory_own _).setPending_own _⟩

theorem SameFor.answer_eq (h : SameFor asset s t) {query : Query}
    (hq : query.subject = none ∨ query.subject = some asset) : answer s query = answer t query := by
  have hhistory : readHistory t asset = readHistory s asset := congrArg (Option.getD · []) h.history
  have hown {a : Asset} (ha : some a = none ∨ some a = some asset) : a = asset :=
    Option.some.inj (ha.resolve_left (Option.some_ne_none a))
  cases query with
  | price a timestamp =>
    have hround : roundToWindow t timestamp = roundToWindow s timestamp := by
      rw [h.configuration]
      rfl
    rw [hown hq, answer, answer, price, price, hhistory, hround]
  | prices a records => rw [hown hq, answer, answer, prices, prices, hhistory]
  | lastprice a => rw [hown hq, answer, answer, lastprice, lastprice, hhistory]
  | _ =>
    rw [h.configuration]
    rfl

end Steps

/-- A run without its calls on other assets gives the same results to all remaining calls, and leaves the same
configuration, pending list, history and answers for the asset. -/
theorem commodities_do_not_interfere (st : Storage) (txs : List Invocation) (asset : Asset) :
    machine.keptResults (fun _ tx => Touches asset tx) st txs = machine.results st (txs.filter (Touches asset ·)) ∧
      SameFor asset (machine.run st txs) (machine.run st (txs.filter (Touches asset ·))) ∧
      ∀ query : Query, query.subject = none ∨ query.subject = some asset →
        answer (machine.run st txs) query = answer (machine.run st (txs.filter (Touches asset ·))) query := by
  have hrun := machine.unwinding (K := fun _ tx => Touches asset tx) (R := SameFor asset)
    (fun _ _ _ h hf => (foreign_step hf).symm.trans h)
    (fun _ _ _ h hown => machine.step_agrees machine h (own_agrees h hown)) (.refl asset st) txs
  rw [machine.kept_eq_filter] at hrun
  exact ⟨hrun.1, hrun.2, fun _ hq => hrun.2.answer_eq hq⟩

end AgriFeed.Oracle
