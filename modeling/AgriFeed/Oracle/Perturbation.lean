import AgriFeed.Oracle.Invariants
import AgriFeed.Oracle.Locality

/-! How much of an error in the submitted prices reaches the consumers of the feed. Two runs that differ in prices only
go through the same calls, and no answer of one is further from that of the other than a submission was. -/
namespace AgriFeed.Oracle
open Foundation

section Relations
variable (lo hi : Int)

/-- The second price is the first one moved by an amount between the bounds. -/
def Moved (a b : I128) : Prop := a.val + lo ≤ b.val ∧ b.val ≤ a.val + hi

/-- A positive price of which a sum of two still fits. -/
def Ordinary (price : I128) : Prop := 0 < price.val ∧ price.val ≤ 2 ^ 126 - 1

instance (a b : I128) : Decidable (Moved lo hi a b) := inferInstanceAs (Decidable (_ ∧ _))

instance (price : I128) : Decidable (Ordinary price) := inferInstanceAs (Decidable (_ ∧ _))

structure MovedSubmission (a b : Submission) : Prop where
  node : a.node = b.node
  submittedAt : a.submittedAt = b.submittedAt
  ordinary : Ordinary a.price ∧ Ordinary b.price
  price : Moved lo hi a.price b.price

structure MovedRecord (a b : PriceData) : Prop where
  timestamp : a.timestamp = b.timestamp
  price : Moved lo hi a.price b.price

/-- States with one configuration, whose prices are moved one by one. -/
structure MovedStorage (s t : Storage) : Prop where
  elsewhere : t = s.withData t.pending t.history
  pending : ∀ asset, List.Forall₂ (MovedSubmission lo hi) (readPending s asset) (readPending t asset)
  history : ∀ asset, List.Forall₂ (MovedRecord lo hi) (readHistory s asset) (readHistory t asset)

/-- The same call, but for the price and the source time of a submission. -/
inductive Perturbed : Invocation → Invocation → Prop where
  | same {tx : Invocation} (other : tx.call.submits = none) : Perturbed tx tx
  | submission {env : Env} {node : Address} {asset : Asset} {price price' : I128} {sourceTs sourceTs' : UInt64}
      (ordinary : Ordinary price ∧ Ordinary price') (moved : Moved lo hi price price') :
      Perturbed ⟨env, .submitPrice node asset price sourceTs⟩ ⟨env, .submitPrice node asset price' sourceTs'⟩
  | refused {env : Env} {node : Address} {asset : Asset} {price price' : I128} {sourceTs sourceTs' : UInt64}
      (unpriced : price ≤ 0 ∧ price' ≤ 0) :
      Perturbed ⟨env, .submitPrice node asset price sourceTs⟩ ⟨env, .submitPrice node asset price' sourceTs'⟩

inductive MovedValue : Value → Value → Prop where
  | unit : MovedValue .unit .unit
  | price {a b : PriceData} (record : MovedRecord lo hi a b) : MovedValue (.price a) (.price b)

/-- The price an event tells. -/
def Event.price : Event → Option I128
  | .priceSubmitted _ _ price => some price
  | .priceFinalized _ price _ => some price
  | _ => none

inductive MovedEvent : Event → Event → Prop where
  | same {event : Event} (unpriced : event.price = none) : MovedEvent event event
  | submitted {asset : Asset} {node : Address} {price price' : I128} (moved : Moved lo hi price price') :
      MovedEvent (.priceSubmitted asset node price) (.priceSubmitted asset node price')
  | finalized {asset : Asset} {price price' : I128} {timestamp : UInt64} (moved : Moved lo hi price price') :
      MovedEvent (.priceFinalized asset price timestamp) (.priceFinalized asset price' timestamp)

def MovedOutput (x y : Output) : Prop := MovedValue lo hi x.1 y.1 ∧ List.Forall₂ (MovedEvent lo hi) x.2 y.2

inductive MovedAnswer : Answer → Answer → Prop where
  | asset (asset : Asset) : MovedAnswer (.asset asset) (.asset asset)
  | assets (assets : List Asset) : MovedAnswer (.assets assets) (.assets assets)
  | number (n : UInt32) : MovedAnswer (.number n) (.number n)
  | record {a b : Option PriceData} (record : Option.Rel (MovedRecord lo hi) a b) :
      MovedAnswer (.record a) (.record b)
  | records {a b : Option (List PriceData)} (records : Option.Rel (List.Forall₂ (MovedRecord lo hi)) a b) :
      MovedAnswer (.records a) (.records b)

end Relations

section Medians
variable {lo hi : Int} {xs ys : List Submission}

private theorem priceValues_moved (h : List.Forall₂ (MovedSubmission lo hi) xs ys) :
    List.Forall₂ (fun a b => a + lo ≤ b) (priceValues xs) (priceValues ys) ∧
      List.Forall₂ (fun a b => a + -hi ≤ b) (priceValues ys) (priceValues xs) := by
  constructor
  · exact List.forall₂_map_left_iff.mpr (List.forall₂_map_right_iff.mpr (h.imp fun _ _ hab => hab.price.1))
  · refine List.forall₂_map_left_iff.mpr (List.forall₂_map_right_iff.mpr (h.flip.imp fun a b hab => ?_))
    have hle := hab.price.2
    omega

private theorem ordinary_of_moved (h : List.Forall₂ (MovedSubmission lo hi) xs ys) :
    (∀ sub ∈ xs, Ordinary sub.price) ∧ ∀ sub ∈ ys, Ordinary sub.price := by
  induction h with
  | nil => exact ⟨fun _ hs => (nomatch hs), fun _ hs => (nomatch hs)⟩
  | cons hab _ ih =>
    exact ⟨List.forall_mem_cons.mpr ⟨hab.ordinary.1, ih.1⟩, List.forall_mem_cons.mpr ⟨hab.ordinary.2, ih.2⟩⟩

/-- Ordinary prices always have a median. -/
private theorem exists_ordinary_median (hne : xs ≠ []) (h : ∀ sub ∈ xs, Ordinary sub.price) :
    ∃ m, median xs = .ok m ∧ m.val = truncatedMedian (priceValues xs) := by
  have hvalues : priceValues xs ≠ [] := by simpa [priceValues] using hne
  have hupper : ∀ x ∈ priceValues xs, x ≤ 2 ^ 126 - 1 := by
    intro x hx
    obtain ⟨sub, hs, rfl⟩ := List.mem_map.mp hx
    exact (h sub hs).2
  have hlow := hupper _ (lowerMiddle_mem hvalues)
  have hhigh := hupper _ (upperMiddle_mem hvalues)
  have hfit : MiddlesFit xs := (middlesFit_iff hne fun sub hs => (h sub hs).1).mpr (.inr (by omega))
  obtain ⟨m, hm⟩ := exists_median hne hfit
  exact ⟨m, hm, (median_eq_ok.mp hm).2.2⟩

/-- Neither median fails, and the second is the first one moved. -/
private theorem median_moved (h : List.Forall₂ (MovedSubmission lo hi) xs ys) (hne : xs ≠ []) :
    ∃ m m', median xs = .ok m ∧ median ys = .ok m' ∧ Moved lo hi m m' := by
  obtain ⟨hx, hy⟩ := ordinary_of_moved h
  obtain ⟨hlow, hhigh⟩ := priceValues_moved h
  have hne' : ys ≠ [] := List.length_pos_iff.mp (h.length_eq ▸ List.length_pos_iff.mpr hne)
  have hvalues : priceValues xs ≠ [] := by simpa [priceValues] using hne
  have hvalues' : priceValues ys ≠ [] := by simpa [priceValues] using hne'
  have hpos : ∀ x ∈ priceValues xs, 0 ≤ x := fun x hm => (priceValues_pos (fun sub hs => (hx sub hs).1) x hm).le
  have hpos' : ∀ y ∈ priceValues ys, 0 ≤ y := fun y hm => (priceValues_pos (fun sub hs => (hy sub hs).1) y hm).le
  obtain ⟨m, hm, hv⟩ := exists_ordinary_median hne hx
  obtain ⟨m', hm', hv'⟩ := exists_ordinary_median hne' hy
  have hle := truncatedMedian_shift hlow hvalues hpos hpos'
  have hge := truncatedMedian_shift hhigh hvalues' hpos' hpos
  refine ⟨m, m', hm, hm', ?_⟩
  rw [Moved, hv, hv']
  exact ⟨hle, by omega⟩

/-- The scan looks at nodes and times only. -/
private theorem hasSubmitted_moved (h : List.Forall₂ (MovedSubmission lo hi) xs ys) (node : Address) (start : UInt64) :
    hasSubmitted ys node start = hasSubmitted xs node start := by
  induction h with
  | nil => rfl
  | @cons a b xs ys hab _ ih =>
    rw [hasSubmitted, hasSubmitted] at ih ⊢
    rw [List.any_cons, List.any_cons, ih, hab.node, hab.submittedAt]

end Medians

section Steps
variable {lo hi : Int} {s t : Storage} {env : Env}

/-- What does not look at the data is the same in both. -/
private theorem MovedStorage.reads {A : Type} (h : MovedStorage lo hi s t) (f : Storage → A)
    (hf : ∀ st pending history, f (st.withData pending history) = f st) : f t = f s := by
  rw [h.elsewhere, hf]

private theorem MovedStorage.setPending (h : MovedStorage lo hi s t) (asset : Asset)
    {xs ys : Option (List Submission)} (hm : List.Forall₂ (MovedSubmission lo hi) (xs.getD []) (ys.getD [])) :
    MovedStorage lo hi (s.setPending asset xs) (t.setPending asset ys) := by
  refine ⟨?_, fun a => ?_, h.history⟩
  · rw [h.elsewhere]
    rfl
  · rw [readPending_setPending, readPending_setPending]
    split
    · exact hm
    · exact h.pending a

private theorem MovedStorage.setHistory (h : MovedStorage lo hi s t) (asset : Asset)
    {xs ys : Option (List PriceData)} (hm : List.Forall₂ (MovedRecord lo hi) (xs.getD []) (ys.getD [])) :
    MovedStorage lo hi (s.setHistory asset xs) (t.setHistory asset ys) := by
  refine ⟨?_, h.pending, fun a => ?_⟩
  · rw [h.elsewhere]
    rfl
  · rw [readHistory_setHistory, readHistory_setHistory]
    split
    · exact hm
    · exact h.history a

private theorem forall₂_concat {A B : Type} {R : A → B → Prop} {xs : List A} {ys : List B} {x : A} {y : B}
    (h : List.Forall₂ R xs ys) (hxy : R x y) : List.Forall₂ R (xs ++ [x]) (ys ++ [y]) :=
  List.rel_append h (.cons hxy .nil)

private theorem prune_moved {xs ys : List PriceData} (h : List.Forall₂ (MovedRecord lo hi) xs ys) (keep : Nat) :
    List.Forall₂ (MovedRecord lo hi) (prune keep xs) (prune keep ys) := by
  rw [prune_eq_drop, prune_eq_drop, h.length_eq]
  exact List.forall₂_drop _ h

/-- Whether a submission is accepted does not depend on its price, as long as it is positive. -/
private theorem submitPrice_moved (h : MovedStorage lo hi s t) {node : Address} {asset : Asset} {price price' : I128}
    {sourceTs sourceTs' : UInt64} (ho : Ordinary price ∧ Ordinary price') (hm : Moved lo hi price price') :
    Agrees (fun x y => MovedOutput lo hi x.1 y.1 ∧ MovedStorage lo hi x.2 y.2)
      (invoke s ⟨env, .submitPrice node asset price sourceTs⟩)
      (invoke t ⟨env, .submitPrice node asset price' sourceTs'⟩) := by
  have hpos : ¬ price ≤ 0 := not_le.mpr ((SignedInt.lt_iff 0 price).mpr ho.1.1)
  have hpos' : ¬ price' ≤ 0 := not_le.mpr ((SignedInt.lt_iff 0 price').mpr ho.2.1)
  have hscan : hasSubmitted (readPending t asset) node (roundToWindow s env.timestamp) =
      hasSubmitted (readPending s asset) node (roundToWindow s env.timestamp) :=
    hasSubmitted_moved (h.pending asset) _ _
  have hround := h.reads (roundToWindow · env.timestamp) fun _ _ _ => rfl
  have hready := h.reads requireInitialized fun _ _ _ => rfl
  have hnodes := h.reads readNodes fun _ _ _ => rfl
  have hassets := h.reads readCommodities fun _ _ _ => rfl
  refine .map (R := fun x y => MovedOutput lo hi (.unit, x.events) (.unit, y.events) ∧
    MovedStorage lo hi x.storage y.storage) (fun _ _ hxy => hxy) ?_
  simp only [submitPrice, hready, hnodes, hassets, hround, hscan, failIf, if_neg hpos, if_neg hpos']
  refine .bind_left fun _ _ => .bind_left fun _ _ => .bind_left fun _ _ => .bind_left fun _ _ =>
    .bind_left fun _ _ => .bind_left fun _ _ => .ok ⟨⟨.unit, .cons (.submitted hm) .nil⟩, ?_⟩
  exact h.setPending asset (forall₂_concat (h.pending asset) ⟨rfl, rfl, ho, hm⟩)

/-- Prices that are not positive are refused alike. -/
private theorem submitPrice_refused (h : MovedStorage lo hi s t) {node : Address} {asset : Asset} {price price' : I128}
    {sourceTs sourceTs' : UInt64} (hn : price ≤ 0 ∧ price' ≤ 0) :
    Agrees (fun x y => MovedOutput lo hi x.1 y.1 ∧ MovedStorage lo hi x.2 y.2)
      (invoke s ⟨env, .submitPrice node asset price sourceTs⟩)
      (invoke t ⟨env, .submitPrice node asset price' sourceTs'⟩) := by
  have hready := h.reads requireInitialized fun _ _ _ => rfl
  have hnodes := h.reads readNodes fun _ _ _ => rfl
  have hassets := h.reads readCommodities fun _ _ _ => rfl
  refine .map (R := fun _ _ => False) (fun _ _ hxy => hxy.elim) ?_
  simp only [submitPrice, hready, hnodes, hassets]
  refine .bind_left fun _ _ => .bind_left fun _ _ => .bind_left fun _ _ => .bind_left fun _ _ => ?_
  simp only [failIf, if_pos hn.1, if_pos hn.2]
  exact .error _

private theorem finalizePrice_moved (h : MovedStorage lo hi s t) (asset : Asset) :
    Agrees (fun x y => MovedOutput lo hi x.1 y.1 ∧ MovedStorage lo hi x.2 y.2)
      (invoke s ⟨env, .finalizePrice asset⟩) (invoke t ⟨env, .finalizePrice asset⟩) := by
  have hpending := h.pending asset
  have hlength : (readPending t asset).length = (readPending s asset).length := hpending.length_eq.symm
  have hempty : (readPending t asset).isEmpty = (readPending s asset).isEmpty := by
    rw [Bool.eq_iff_iff, List.isEmpty_iff_length_eq_zero, List.isEmpty_iff_length_eq_zero, hlength]
  have hround := h.reads (roundToWindow · env.timestamp) fun _ _ _ => rfl
  have hready := h.reads requireInitialized fun _ _ _ => rfl
  have hthreshold := h.reads Storage.threshold fun _ _ _ => rfl
  have hretention := h.reads Storage.retention fun _ _ _ => rfl
  refine .map (R := fun x y => MovedOutput lo hi (.price x.value, x.events) (.price y.value, y.events) ∧
    MovedStorage lo hi x.storage y.storage) (fun _ _ hxy => hxy) ?_
  simp only [finalizePrice, hready, hthreshold, hretention, hround, hlength, hempty]
  refine .bind_left fun _ _ => .bind_left fun _ hf => .bind_left fun _ _ => ?_
  have hne : readPending s asset ≠ [] := by
    rw [failIf_eq_ok] at hf
    simpa using hf
  obtain ⟨m, m', hm, hm', hmoved⟩ := median_moved hpending hne
  rw [hm, hm']
  have hrecord : MovedRecord lo hi ⟨m, roundToWindow s env.timestamp⟩ ⟨m', roundToWindow s env.timestamp⟩ :=
    ⟨rfl, hmoved⟩
  refine .ok ⟨⟨.price hrecord, .cons (.finalized hmoved) .nil⟩, (h.setHistory asset ?_).setPending asset .nil⟩
  exact prune_moved (forall₂_concat (h.history asset) hrecord) _

/-- What an administrative call returns and publishes has no price in it. -/
private theorem unpriced_output {call : Call} {out : Output} {st st' : Storage} (hs : call.submits = none)
    (hf : call.finalizes = none) (ht : Transition env st call out st') : MovedOutput lo hi out out := by
  cases ht with
  | submitPrice => cases hs
  | finalizePrice => cases hf
  | addListedNode => exact ⟨.unit, .nil⟩
  | removeUnlistedNode => exact ⟨.unit, .nil⟩
  | extendInstanceTtl => exact ⟨.unit, .nil⟩
  | _ => exact ⟨.unit, .cons (.same rfl) .nil⟩

private theorem administrative_moved (h : MovedStorage lo hi s t) {call : Call} (hs : call.submits = none)
    (hf : call.finalizes = none) :
    Agrees (fun x y => MovedOutput lo hi x.1 y.1 ∧ MovedStorage lo hi x.2 y.2)
      (invoke s ⟨env, call⟩) (invoke t ⟨env, call⟩) := by
  rw [h.elsewhere]
  refine (administrative_agrees hs hf).attach.mono ?_
  rintro ⟨out, x⟩ y ⟨⟨ho, hx, hy⟩, he⟩
  refine ⟨?_, ?_⟩
  · rw [ho]
    exact unpriced_output hs hf (exec_eq_ok.mp he)
  · rw [hx, hy]
    exact ⟨rfl, h.pending, h.history⟩

theorem perturbed_agrees (h : MovedStorage lo hi s t) {tx tx' : Invocation} (hq : Perturbed lo hi tx tx') :
    Agrees (fun x y => MovedOutput lo hi x.1 y.1 ∧ MovedStorage lo hi x.2 y.2)
      (machine.exec s tx) (machine.exec t tx') := by
  cases hq with
  | submission ho hm => exact submitPrice_moved h ho hm
  | refused hn => exact submitPrice_refused h hn
  | same hs =>
    by_cases hf : tx.call.finalizes = none
    · exact administrative_moved h hs hf
    · obtain ⟨asset, hf⟩ := Option.ne_none_iff_exists'.mp hf
      obtain ⟨env, call⟩ := tx
      obtain rfl := Call.mem_finalizes.mp hf
      exact finalizePrice_moved h asset

end Steps

section Reads
variable {lo hi : Int} {s t : Storage} {xs ys : List PriceData}

private theorem find?_moved (h : List.Forall₂ (MovedRecord lo hi) xs ys) (target : UInt64) :
    Option.Rel (MovedRecord lo hi) (xs.find? fun record => record.timestamp = target)
      (ys.find? fun record => record.timestamp = target) := by
  induction h with
  | nil => exact .none
  | @cons a b xs ys hab _ ih =>
    rw [List.find?_cons, List.find?_cons, hab.timestamp]
    split
    · exact .some hab
    · exact ih

private theorem getLast?_moved (h : List.Forall₂ (MovedRecord lo hi) xs ys) :
    Option.Rel (MovedRecord lo hi) xs.getLast? ys.getLast? := by
  have hr := List.rel_reverse h
  rw [List.getLast?_eq_head?_reverse, List.getLast?_eq_head?_reverse]
  generalize xs.reverse = xs, ys.reverse = ys at hr
  cases hr with
  | nil => exact .none
  | cons hab _ => exact .some hab

theorem MovedStorage.lastprice (h : MovedStorage lo hi s t) (asset : Asset) :
    Option.Rel (MovedRecord lo hi) (lastprice s asset) (lastprice t asset) :=
  getLast?_moved (h.history asset)

private theorem prices_moved (h : MovedStorage lo hi s t) (asset : Asset) (records : UInt32) :
    Option.Rel (List.Forall₂ (MovedRecord lo hi)) (prices s asset records) (prices t asset records) := by
  have hlength := (h.history asset).length_eq
  have hempty : (readHistory s asset).isEmpty = (readHistory t asset).isEmpty := by
    rw [Bool.eq_iff_iff, List.isEmpty_iff_length_eq_zero, List.isEmpty_iff_length_eq_zero, hlength]
  simp only [prices, hempty, hlength]
  by_cases hr : records = 0
  · rw [if_pos hr, if_pos hr]
    exact .none
  · rw [if_neg hr, if_neg hr]
    split
    · exact .none
    · exact .some (List.forall₂_drop _ (h.history asset))

private theorem answer_moved (h : MovedStorage lo hi s t) (query : Query) :
    MovedAnswer lo hi (answer s query) (answer t query) := by
  cases query with
  | base =>
    rw [h.elsewhere]
    exact .asset _
  | assets =>
    rw [h.elsewhere]
    exact .assets _
  | decimals =>
    rw [h.elsewhere]
    exact .number _
  | resolution =>
    rw [h.elsewhere]
    exact .number _
  | price asset timestamp =>
    have hround := h.reads (roundToWindow · timestamp) fun _ _ _ => rfl
    refine .record ?_
    rw [price, price, hround]
    exact find?_moved (h.history asset) _
  | prices asset records => exact .records (prices_moved h asset records)
  | lastprice asset => exact .record (h.lastprice asset)

end Reads

/-- Move every positive price submitted in a run by some amount between two bounds, from one ordinary price to another,
and any other to one that is not positive either. Every call then has the same result and every query the same answer,
but for prices that are moved by amounts between these bounds again. -/
theorem noise_is_not_amplified (lo hi : Int) (txs txs' : List Invocation)
    (h : List.Forall₂ (Perturbed lo hi) txs txs') :
    List.Forall₂ (Agrees (MovedOutput lo hi)) (machine.results .deployed txs) (machine.results .deployed txs') ∧
      ∀ query, MovedAnswer lo hi (answer (after txs) query) (answer (after txs') query) := by
  have hstart : MovedStorage lo hi .deployed .deployed := ⟨rfl, fun _ => .nil, fun _ => .nil⟩
  obtain ⟨hresults, hend⟩ := machine.related_run machine (R := MovedStorage lo hi)
    (fun _ _ _ _ hr hq => perturbed_agrees hr hq) hstart h
  exact ⟨hresults, fun query => answer_moved hend query⟩

/-- A feed whose three nodes see prices of around 100. -/
def observedRun (first second third : Int) : List Invocation :=
  opening ⟨0⟩ 60 [⟨1⟩, ⟨2⟩, ⟨3⟩] 2 (.other "MAIZE") ++
    [submission ⟨1⟩ (.other "MAIZE") (.literal first) 1030, submission ⟨2⟩ (.other "MAIZE") (.literal second) 1040,
      submission ⟨3⟩ (.other "MAIZE") (.literal third) 1050, finalization (.other "MAIZE") 1060]

/-- Errors of up to 2 in each observation move the record by no more, although they change whose price it is. -/
theorem noise_of_observed_run :
    MovedAnswer (-2) 2 (answer (after (observedRun 99 100 101)) (.lastprice (.other "MAIZE")))
      (answer (after (observedRun 101 98 100)) (.lastprice (.other "MAIZE"))) := by
  have hopening : ∀ tx ∈ opening ⟨0⟩ 60 [⟨1⟩, ⟨2⟩, ⟨3⟩] 2 (.other "MAIZE"), tx.call.submits = none := by decide
  exact (noise_is_not_amplified (-2) 2 (observedRun 99 100 101) (observedRun 101 98 100)
    (List.rel_append (List.forall₂_same.mpr fun tx htx => .same (hopening tx htx))
      (.cons (.submission (by decide) (by decide)) (.cons (.submission (by decide) (by decide))
        (.cons (.submission (by decide) (by decide)) (.cons (.same rfl) .nil)))))).2 (.lastprice (.other "MAIZE"))

end AgriFeed.Oracle
