import AgriFeed.Foundation.Lockstep
import AgriFeed.Oracle.Interface
import AgriFeed.Oracle.Transition

/-! Which part of the storage a call depends on. Every call reads the configuration; a submission reads the
pending list of its own asset, and a finalization that list and the history; no other call reads either. -/
namespace AgriFeed.Oracle
open Foundation

/-- The same instance entries next to other persistent entries. -/
def Storage.withData (st : Storage) (pending : Asset → Option (List Submission))
    (history : Asset → Option (List PriceData)) : Storage :=
  { st with pending := pending, history := history }

section Locality
variable {st : Storage} {pending : Asset → Option (List Submission)} {history : Asset → Option (List PriceData)}
  {env : Env}

private theorem guarded_agrees {A B : Type} {R : A → B → Prop} {admin : Address} {f : Outcome Error A}
    {g : Outcome Error B} (h : Agrees R f g) :
    Agrees R (do requireAuth env admin; requireInitialized st; requireAdmin st admin; f)
      (do requireAuth env admin; requireInitialized (st.withData pending history)
          requireAdmin (st.withData pending history) admin; g) :=
  .bind_left fun _ _ => .bind_left fun _ _ => .bind_left fun _ _ => h

/-- A call that neither submits nor finalizes works on the configuration alone. -/
theorem administrative_agrees {call : Call} (hs : call.submits = none) (hf : call.finalizes = none) :
    Agrees (fun x y => y.1 = x.1 ∧ x.2 = x.2.withData st.pending st.history ∧ y.2 = x.2.withData pending history)
      (invoke st ⟨env, call⟩) (invoke (st.withData pending history) ⟨env, call⟩) := by
  have hdone (x y : Receipt Unit) (h : x.storage = x.storage.withData st.pending st.history ∧
      y = { x with storage := x.storage.withData pending history }) :
      y.done.1 = x.done.1 ∧ x.done.2 = x.done.2.withData st.pending st.history ∧
        y.done.2 = x.done.2.withData pending history := by
    obtain ⟨hx, rfl⟩ := h
    exact ⟨rfl, hx, rfl⟩
  cases call with
  | initializeContract admin decimals resolution baseAsset =>
    exact .map hdone (.bind_left fun _ _ => .bind_left fun _ _ => .bind_left fun _ _ => .ok ⟨rfl, rfl⟩)
  | addNode admin node =>
    refine .map hdone (guarded_agrees ?_)
    by_cases hn : node ∈ readNodes st
    · have hn' : node ∈ readNodes (st.withData pending history) := hn
      simp only [if_pos hn, if_pos hn']
      exact .ok ⟨rfl, rfl⟩
    · have hn' : node ∉ readNodes (st.withData pending history) := hn
      simp only [if_neg hn, if_neg hn']
      exact .ok ⟨rfl, rfl⟩
  | removeNode admin node =>
    refine .map hdone (guarded_agrees ?_)
    have hnodes : readNodes (st.withData pending history) = readNodes st := rfl
    simp only [hnodes]
    cases (readNodes st).idxOf? node with
    | none => exact .ok ⟨rfl, rfl⟩
    | some index => exact .ok ⟨rfl, rfl⟩
  | setThreshold admin threshold => exact .map hdone (guarded_agrees (.bind_left fun _ _ => .ok ⟨rfl, rfl⟩))
  | setRetention admin retention => exact .map hdone (guarded_agrees (.bind_left fun _ _ => .ok ⟨rfl, rfl⟩))
  | addCommodity admin asset => exact .map hdone (guarded_agrees (.bind_left fun _ _ => .ok ⟨rfl, rfl⟩))
  | submitPrice node asset price sourceTs => cases hs
  | finalizePrice asset => cases hf
  | extendInstanceTtl asset => exact .map hdone (.bind_left fun _ _ => .ok ⟨rfl, rfl⟩)

variable {asset : Asset}

/-- A submission reads the pending list of its asset, and only scans it for an earlier one of the node. -/
theorem submitPrice_agrees {node : Address} (price : I128) (sourceTs sourceTs' : UInt64)
    (hscan : hasSubmitted ((pending asset).getD []) node (roundToWindow st env.timestamp) =
      hasSubmitted (readPending st asset) node (roundToWindow st env.timestamp)) :
    Agrees (fun x y => y.1 = x.1 ∧
        x.2 = st.setPending asset (some (readPending st asset ++ [⟨node, price, sourceTs, env.timestamp⟩])) ∧
        y.2 = (st.withData pending history).setPending asset
          (some ((pending asset).getD [] ++ [⟨node, price, sourceTs', env.timestamp⟩])))
      (invoke st ⟨env, .submitPrice node asset price sourceTs⟩)
      (invoke (st.withData pending history) ⟨env, .submitPrice node asset price sourceTs'⟩) := by
  have hpending : readPending (st.withData pending history) asset = (pending asset).getD [] := rfl
  have hround : roundToWindow (st.withData pending history) env.timestamp = roundToWindow st env.timestamp := rfl
  refine .map (R := fun x y => y.events = x.events ∧
    x.storage = st.setPending asset (some (readPending st asset ++ [⟨node, price, sourceTs, env.timestamp⟩])) ∧
    y.storage = (st.withData pending history).setPending asset
      (some ((pending asset).getD [] ++ [⟨node, price, sourceTs', env.timestamp⟩]))) ?_ ?_
  · rintro x y ⟨he, hx, hy⟩
    exact ⟨Prod.ext rfl he, hx, hy⟩
  · refine .bind_left fun _ _ => .bind_left fun _ _ => .bind_left fun _ _ => .bind_left fun _ _ =>
      .bind_left fun _ _ => ?_
    simp only [hpending, hround, hscan]
    exact .bind_left fun _ _ => .ok ⟨rfl, rfl, rfl⟩

/-- A finalization reads the history of its asset, and of its pending list the length and the median. -/
theorem finalizePrice_agrees (hlength : ((pending asset).getD []).length = (readPending st asset).length)
    (hmedian : median ((pending asset).getD []) = median (readPending st asset))
    (hhistory : (history asset).getD [] = readHistory st asset) :
    Agrees (fun x y => y.1 = x.1 ∧ ∃ kept, x.2 = (st.setHistory asset (some kept)).setPending asset none ∧
        y.2 = ((st.withData pending history).setHistory asset (some kept)).setPending asset none)
      (invoke st ⟨env, .finalizePrice asset⟩) (invoke (st.withData pending history) ⟨env, .finalizePrice asset⟩) := by
  have hpending : readPending (st.withData pending history) asset = (pending asset).getD [] := rfl
  have hread : readHistory (st.withData pending history) asset = (history asset).getD [] := rfl
  have hround : roundToWindow (st.withData pending history) env.timestamp = roundToWindow st env.timestamp := rfl
  refine .map (R := fun x y => y.value = x.value ∧ y.events = x.events ∧
    ∃ kept, x.storage = (st.setHistory asset (some kept)).setPending asset none ∧
      y.storage = ((st.withData pending history).setHistory asset (some kept)).setPending asset none) ?_ ?_
  · rintro x y ⟨hv, he, kept, hx, hy⟩
    exact ⟨Prod.ext (congrArg Value.price hv) he, kept, hx, hy⟩
  · refine .bind_left fun _ _ => ?_
    have hempty : ((pending asset).getD []).isEmpty = (readPending st asset).isEmpty := by
      rw [Bool.eq_iff_iff, List.isEmpty_iff_length_eq_zero, List.isEmpty_iff_length_eq_zero, hlength]
    simp only [hpending, hread, hround, hlength, hempty, hmedian, hhistory]
    exact .bind_left fun _ _ => .bind_left fun _ _ => .bind_left fun _ _ => .ok ⟨rfl, rfl, _, rfl, rfl⟩

/-- A relation between two storages with one configuration is kept by a call if it survives the one update
that the call makes to the data, and the call cannot tell their data apart. -/
theorem agrees_of_local {R : Storage → Storage → Prop} {call : Call}
    (administration : ∀ x : Storage, R (x.withData st.pending st.history) (x.withData pending history))
    (submission : ∀ node asset price sourceTs, call = .submitPrice node asset price sourceTs →
      hasSubmitted ((pending asset).getD []) node (roundToWindow st env.timestamp) =
          hasSubmitted (readPending st asset) node (roundToWindow st env.timestamp) ∧
        R (st.setPending asset (some (readPending st asset ++ [⟨node, price, sourceTs, env.timestamp⟩])))
          ((st.withData pending history).setPending asset
            (some ((pending asset).getD [] ++ [⟨node, price, sourceTs, env.timestamp⟩]))))
    (finalization : ∀ asset, call = .finalizePrice asset →
      ((pending asset).getD []).length = (readPending st asset).length ∧
        median ((pending asset).getD []) = median (readPending st asset) ∧
        (history asset).getD [] = readHistory st asset ∧
        ∀ kept, R ((st.setHistory asset (some kept)).setPending asset none)
          (((st.withData pending history).setHistory asset (some kept)).setPending asset none)) :
    Agrees (fun x y => x.1 = y.1 ∧ R x.2 y.2) (invoke st ⟨env, call⟩)
      (invoke (st.withData pending history) ⟨env, call⟩) := by
  by_cases hs : call.submits = none
  · by_cases hf : call.finalizes = none
    · refine .mono ?_ (administrative_agrees hs hf)
      rintro x y ⟨ho, hx, hy⟩
      rw [hx, hy]
      exact ⟨ho.symm, administration x.2⟩
    · obtain ⟨asset, hf⟩ := Option.ne_none_iff_exists'.mp hf
      obtain rfl := Call.mem_finalizes.mp hf
      obtain ⟨hlength, hmedian, hhistory, hnext⟩ := finalization asset rfl
      refine .mono ?_ (finalizePrice_agrees hlength hmedian hhistory)
      rintro x y ⟨ho, kept, hx, hy⟩
      rw [hx, hy]
      exact ⟨ho.symm, hnext kept⟩
  · obtain ⟨⟨node, asset⟩, hs⟩ := Option.ne_none_iff_exists'.mp hs
    obtain ⟨price, sourceTs, rfl⟩ := Call.mem_submits.mp hs
    obtain ⟨hscan, hnext⟩ := submission node asset price sourceTs rfl
    refine .mono ?_ (submitPrice_agrees price sourceTs sourceTs hscan)
    rintro x y ⟨ho, hx, hy⟩
    rw [hx, hy]
    exact ⟨ho.symm, hnext⟩

end Locality
end AgriFeed.Oracle
