import AgriFeed.Oracle.Batches
import AgriFeed.Oracle.Duplicates
import AgriFeed.Oracle.Finalization
import AgriFeed.Oracle.NodeSet
import AgriFeed.Oracle.Robustness
import AgriFeed.Oracle.WellFormed

/-! Finalization is never out of reach. Whatever is pending, a listed node that goes on submitting one price, window
after window, outweighs it in the end. That is how a blocked asset recovers, and how a single node gets its way. -/
namespace AgriFeed.Oracle
open Foundation

/-- Times in later and later windows. -/
def LaterWindows (resolution : Nat) : Nat → List UInt64 → Prop
  | _, [] => True
  | last, time :: times => last / resolution < time.toNat / resolution ∧ LaterWindows resolution time.toNat times

instance decidableLaterWindows (resolution : Nat) : ∀ last times, Decidable (LaterWindows resolution last times)
  | _, [] => isTrue trivial
  | last, time :: times =>
    have := decidableLaterWindows resolution time.toNat times
    inferInstanceAs (Decidable (last / resolution < time.toNat / resolution ∧ LaterWindows resolution time.toNat times))

/-- They come in order. -/
theorem LaterWindows.ordered {resolution last : Nat} {times : List UInt64} (h : LaterWindows resolution last times) :
    (times.map UInt64.toNat).Pairwise (· ≤ ·) ∧ ∀ time ∈ times, last ≤ time.toNat := by
  induction times generalizing last with
  | nil => exact ⟨.nil, fun _ hm => (nomatch hm)⟩
  | cons time times ih =>
    have hlast : last ≤ time.toNat := (Nat.lt_of_div_lt_div h.1).le
    obtain ⟨hordered, hafter⟩ := ih h.2
    refine ⟨List.pairwise_cons.mpr ⟨fun t ht => ?_, hordered⟩, fun t ht => ?_⟩
    · obtain ⟨later, hm, rfl⟩ := List.mem_map.mp ht
      exact hafter later hm
    · rcases List.mem_cons.mp ht with rfl | hm
      · exact hlast
      · exact hlast.trans (hafter t hm)

/-- The price of a submission. -/
def Call.offers : Call → Option I128
  | .submitPrice _ _ price _ => some price
  | _ => none

/-- A submission for the asset that the node has signed. -/
def OwnSubmission (node : Address) (asset : Asset) (tx : Invocation) : Prop :=
  (node, asset) ∈ tx.call.submits ∧ node ∈ tx.env.auths

instance (node : Address) (asset : Asset) (tx : Invocation) : Decidable (OwnSubmission node asset tx) :=
  inferInstanceAs (Decidable (_ ∧ _))

/-- The times of the submissions of the node for the asset in a run. -/
def ownTimes (node : Address) (asset : Asset) (txs : List Invocation) : List UInt64 :=
  (txs.filter fun tx => OwnSubmission node asset tx).map (·.env.timestamp)

/-- How many submissions of other nodes a run accepts for the asset. -/
def rivals (node : Address) (asset : Asset) (st : Storage) (txs : List Invocation) : Nat :=
  (machine.log (accepted asset) st txs).countP fun sub => sub.node ≠ node

/-- Among any other calls the node submits the price in later and later windows, and before it is done nobody finalizes
the asset or takes the node off the list. -/
structure Persistent (node : Address) (asset : Asset) (price : I128) (last : Nat) (st : Storage)
    (txs : List Invocation) : Prop where
  repeated : ∀ tx ∈ txs, OwnSubmission node asset tx → price ∈ tx.call.offers
  windows : LaterWindows (resolution st).toNat last (ownTimes node asset txs)
  undisturbed : machine.Along (fun st tx => ¬ Finalized asset st tx ∧ ¬ RemovesNode node st tx) st txs

section Persistence
variable {st : Storage} {node : Address} {asset : Asset} {price : I128} {last : Nat} {tx : Invocation}

/-- Nothing that the node needs is lost as long as nobody removes it. -/
private theorem unremoved_step (hc : Configured st) (hlisted : node ∈ readNodes st)
    (htracked : asset ∈ readCommodities st) (hkept : ¬ RemovesNode node st tx) :
    Configured (machine.step st tx) ∧ node ∈ readNodes (machine.step st tx) ∧
      asset ∈ readCommodities (machine.step st tx) ∧ resolution (machine.step st tx) = resolution st := by
  cases he : machine.exec st tx with
  | error e =>
    rw [machine.step_rollback he]
    exact ⟨hc, hlisted, htracked, rfl⟩
  | ok out =>
    rw [machine.step_commit he]
    have ht := exec_eq_ok.mp he
    refine ⟨configured_step (.inr hc) ht, ?_, ht.commodities_grow hc.admin htracked,
      congrArg (Option.getD · 0) (ht.sameOrigin hc.admin).resolution⟩
    rcases ht.nodes_cases with ⟨hf, _⟩ | ⟨_, _, _, _, hn⟩ | ⟨_, removed, hcall, _, hn⟩ | hn
    · exact absurd hf (Option.isSome_iff_ne_none.mp hc.admin)
    · rw [hn]
      exact List.mem_append_left _ hlisted
    · have hne : node ≠ removed := fun h => hkept ⟨by rw [hcall, h]; rfl, machine.commits_of_ok he⟩
      rw [hn]
      exact (List.mem_erase_of_ne hne).mpr hlisted
    · rwa [hn]

/-- Without a finalization all that is accepted stays pending. -/
private theorem pending_step (hkept : ¬ Finalized asset st tx) :
    readPending (machine.step st tx) asset = readPending st asset ++ machine.log (accepted asset) st [tx] := by
  cases he : machine.exec st tx with
  | error e => rw [machine.step_rollback he, machine.log_rollback _ he, Machine.log_nil, List.append_nil]
  | ok out =>
    have hcall : tx.call ≠ .finalizePrice asset :=
      fun h => hkept ⟨Call.mem_finalizes.mpr h, machine.commits_of_ok he⟩
    rw [machine.step_commit he, machine.log_commit _ he, Machine.log_nil, List.append_nil, ← batch_step he,
      aggregated_other hcall]
    rfl

/-- The next submission of the node is accepted: its window is open to the node. -/
private theorem own_step (hc : Configured st) (hlisted : node ∈ readNodes st) (htracked : asset ∈ readCommodities st)
    (hpos : 0 < price) (hown : OwnSubmission node asset tx) (hprice : price ∈ tx.call.offers)
    (hnow : ∀ sub ∈ readPending st asset, sub.submittedAt.toNat ≤ tx.env.timestamp.toNat)
    (hpast : ∀ sub ∈ readPending st asset, sub.node = node → sub.submittedAt.toNat ≤ last)
    (hlater : last / (resolution st).toNat < tx.env.timestamp.toNat / (resolution st).toNat) :
    machine.Commits st tx ∧ ∃ sourceTs,
      machine.log (accepted asset) st [tx] = [⟨node, price, sourceTs, tx.env.timestamp⟩] := by
  have hfresh : hasSubmitted (readPending st asset) node (roundToWindow st tx.env.timestamp) = false := by
    rw [Bool.eq_false_iff]
    intro hf
    obtain ⟨sub, hs, hn, hw⟩ := window_of_hasSubmitted hc hnow hf
    have hle : sub.submittedAt.toNat / (resolution st).toNat ≤ last / (resolution st).toNat :=
      Nat.div_le_div_right (hpast sub hs hn)
    omega
  obtain ⟨env, call⟩ := tx
  obtain ⟨hsubmits, hsigned⟩ := hown
  obtain ⟨_, sourceTs, rfl⟩ := Call.mem_submits.mp hsubmits
  cases hprice
  have he := exec_eq_ok.mpr (.submitPrice hsigned hc.admin hlisted htracked hpos hfresh)
  refine ⟨machine.commits_of_ok he, sourceTs, ?_⟩
  rw [machine.log_commit _ he, accepted_submit rfl, Machine.log_nil, List.append_nil]

/-- Nobody else submits for the node. -/
private theorem other_step (hother : ¬ OwnSubmission node asset tx) :
    ∀ sub ∈ machine.log (accepted asset) st [tx], sub.node ≠ node := by
  rintro sub hs rfl
  cases he : machine.exec st tx with
  | error e =>
    rw [machine.log_rollback _ he] at hs
    cases hs
  | ok result =>
    obtain ⟨out, st'⟩ := result
    rw [machine.log_commit _ he, Machine.log_nil, List.append_nil] at hs
    obtain ⟨hcall, _⟩ := mem_accepted.mp hs
    have ht := exec_eq_ok.mp he
    refine hother ⟨by rw [hcall]; rfl, ?_⟩
    obtain ⟨env, call⟩ := tx
    cases hcall
    cases ht with
    | submitPrice signed => exact signed

private theorem ownTimes_own (h : OwnSubmission node asset tx) (txs : List Invocation) :
    ownTimes node asset (tx :: txs) = tx.env.timestamp :: ownTimes node asset txs := by
  rw [ownTimes, List.filter_cons, if_pos (decide_eq_true h), List.map_cons, ownTimes]

private theorem ownTimes_other (h : ¬ OwnSubmission node asset tx) (txs : List Invocation) :
    ownTimes node asset (tx :: txs) = ownTimes node asset txs := by
  rw [ownTimes, List.filter_cons, if_neg (by simpa using h), ownTimes]

private theorem persistent_tail {txs : List Invocation} (h : Persistent node asset price last st (tx :: txs))
    (hr : resolution (machine.step st tx) = resolution st) :
    (OwnSubmission node asset tx → last / (resolution st).toNat < tx.env.timestamp.toNat / (resolution st).toNat ∧
      Persistent node asset price tx.env.timestamp.toNat (machine.step st tx) txs) ∧
    (¬ OwnSubmission node asset tx → Persistent node asset price last (machine.step st tx) txs) := by
  have hrepeated := fun tx' hm => h.repeated tx' (List.mem_cons_of_mem tx hm)
  have hwindows := h.windows
  constructor
  · intro hown
    rw [ownTimes_own hown] at hwindows
    exact ⟨hwindows.1, hrepeated, hr ▸ hwindows.2, h.undisturbed.2⟩
  · intro hother
    rw [ownTimes_other hother] at hwindows
    exact ⟨hrepeated, hr ▸ hwindows, h.undisturbed.2⟩

/-- All submissions of the node are accepted, and all that are accepted for it offer the price. -/
private theorem persistent_run {txs : List Invocation} (hc : Configured st) (hlisted : node ∈ readNodes st)
    (htracked : asset ∈ readCommodities st) (hpos : 0 < price)
    (hchronological : machine.Along (fun st tx => Chronological st tx.env.timestamp.toNat) st txs)
    (h : Persistent node asset price last st txs)
    (hpast : ∀ sub ∈ readPending st asset, sub.node = node → sub.submittedAt.toNat ≤ last) :
    machine.Along (fun st tx => OwnSubmission node asset tx → machine.Commits st tx) st txs ∧
      readPending (machine.run st txs) asset = readPending st asset ++ machine.log (accepted asset) st txs ∧
      (machine.log (accepted asset) st txs).countP (fun sub => sub.node = node) = (ownTimes node asset txs).length ∧
      ∀ sub ∈ machine.log (accepted asset) st txs, sub.node = node → sub.price = price := by
  induction txs generalizing st last with
  | nil => exact ⟨trivial, (List.append_nil _).symm, rfl, fun _ hs => (nomatch hs)⟩
  | cons tx txs ih =>
    obtain ⟨hc', hlisted', htracked', hr⟩ := unremoved_step hc hlisted htracked h.undisturbed.1.2
    have hpending := pending_step h.undisturbed.1.1
    have hlog := machine.log_append (accepted asset) st [tx] txs
    rw [List.singleton_append, Machine.run_cons, Machine.run_nil] at hlog
    rw [Machine.run_cons, hlog]
    by_cases hm : OwnSubmission node asset tx
    · -- its own submission is the one that is accepted
      obtain ⟨hlater, hrest⟩ := (persistent_tail h hr).1 hm
      obtain ⟨hcommits, sourceTs, hown⟩ := own_step hc hlisted htracked hpos hm (h.repeated tx List.mem_cons_self hm)
        (hchronological.1.submitted asset) hpast hlater
      rw [hown] at hpending ⊢
      have hpast' : ∀ sub ∈ readPending (machine.step st tx) asset, sub.node = node →
          sub.submittedAt.toNat ≤ tx.env.timestamp.toNat := by
        intro sub hs _
        rw [hpending] at hs
        rcases List.mem_append.mp hs with hs | hs
        · exact hchronological.1.submitted asset sub hs
        · rw [List.mem_singleton.mp hs]
      obtain ⟨halong, hrun, hcount, hprices⟩ := ih hc' hlisted' htracked' hchronological.2 hrest hpast'
      refine ⟨⟨fun _ => hcommits, halong⟩, by rw [hrun, hpending, List.append_assoc], ?_, ?_⟩
      · rw [ownTimes_own hm, List.countP_append, hcount, List.length_cons, Nat.add_comm]
        simp
      · intro sub hs hn
        rcases List.mem_append.mp hs with hs | hs
        · rw [List.mem_singleton.mp hs]
        · exact hprices sub hs hn
    · -- another call adds nothing of the node
      have hforeign : ∀ sub ∈ machine.log (accepted asset) st [tx], sub.node ≠ node := other_step hm
      have hpast' : ∀ sub ∈ readPending (machine.step st tx) asset, sub.node = node → sub.submittedAt.toNat ≤ last := by
        intro sub hs hn
        rw [hpending] at hs
        exact (List.mem_append.mp hs).elim (hpast sub · hn) fun hs => absurd hn (hforeign sub hs)
      obtain ⟨halong, hrun, hcount, hprices⟩ :=
        ih hc' hlisted' htracked' hchronological.2 ((persistent_tail h hr).2 hm) hpast'
      refine ⟨⟨fun h => absurd h hm, halong⟩, by rw [hrun, hpending, List.append_assoc], ?_, ?_⟩
      · rw [ownTimes_other hm, List.countP_append, hcount, List.countP_eq_zero.mpr, Nat.zero_add]
        intro sub hs
        simpa using hforeign sub hs
      · intro sub hs hn
        exact (List.mem_append.mp hs).elim (fun hs => absurd hn (hforeign sub hs)) (hprices sub · hn)

end Persistence

section Outvoting
variable {txs later : List Invocation} {node : Address} {asset : Asset} {price : I128} {last : Nat}

/-- When the node has submitted more often than others have, the price is the majority, and a finalization that has the
numbers records it. -/
theorem outvoted (ordered : Timely (txs ++ later)) (hlisted : node ∈ readNodes (after txs))
    (htracked : asset ∈ assets (after txs)) (hpos : 0 < price) (hordinary : price.val ≤ 2 ^ 126 - 1)
    (hpast : ∀ sub ∈ readPending (after txs) asset, sub.node = node → sub.submittedAt.toNat ≤ last)
    (h : Persistent node asset price last (after txs) later)
    (hmore : (readPending (after txs) asset).length + rivals node asset (after txs) later <
      (ownTimes node asset later).length)
    (hset : (after (txs ++ later)).threshold.getD 0 ≠ 0)
    (hmet : ((after (txs ++ later)).threshold.getD 0).toNat ≤ (readPending (after txs) asset).length +
      rivals node asset (after txs) later + (ownTimes node asset later).length) :
    machine.Along (fun st tx => OwnSubmission node asset tx → machine.Commits st tx) (after txs) later ∧
      ∀ env : Env, machine.result (after (txs ++ later)) ⟨env, .finalizePrice asset⟩ =
        .ok (.price ⟨price, roundToWindow (after (txs ++ later)) env.timestamp⟩,
          [.priceFinalized asset price (roundToWindow (after (txs ++ later)) env.timestamp)]) := by
  have hc := configured_of_listed (deployed_or_configured txs) hlisted
  have hchronological := ((machine.along_append _ _ _ _).mp (along_chronological ordered)).2
  obtain ⟨halong, hpending, hown, hprices⟩ := persistent_run hc hlisted htracked hpos hchronological h hpast
  refine ⟨halong, fun env => ?_⟩
  rw [← after_append] at hpending
  have hlength : (machine.log (accepted asset) (after txs) later).length =
      (ownTimes node asset later).length + rivals node asset (after txs) later := by
    rw [← hown, rivals, List.length_eq_countP_add_countP fun sub => sub.node = node]
    simp
  have hsupport : (ownTimes node asset later).length ≤ (machine.log (accepted asset) (after txs) later).countP
      fun sub => price ≤ sub.price ∧ sub.price ≤ price := by
    rw [← hown]
    refine List.countP_mono_left fun sub hs hn => decide_eq_true ?_
    rw [hprices sub hs (of_decide_eq_true hn)]
    exact ⟨le_refl price, le_refl price⟩
  have hmajority : MostlyWithin price price (readPending (after (txs ++ later)) asset) := by
    rw [hpending, MostlyWithin, List.length_append, List.countP_append]
    omega
  have hmedian : median (readPending (after (txs ++ later)) asset) = .ok price :=
    median_of_agreement ((positivePrices (txs ++ later)).pending asset) hmajority hordinary
  have hadmin : (after (txs ++ later)).admin.isSome := by
    rw [after_append, (run_sameOrigin hc.admin later).admin]
    exact hc.admin
  have hreached :
      ((after (txs ++ later)).threshold.getD 0).toNat ≤ (readPending (after (txs ++ later)) asset).length := by
    rw [hpending, List.length_append]
    omega
  have hne : readPending (after (txs ++ later)) asset ≠ [] := (median_eq_ok.mp hmedian).1
  exact machine.result_commit (exec_eq_ok.mpr (.finalizePrice hadmin hne hset hreached hmedian))

end Outvoting

/-- Two prices at the upper end of the type, whose sum does not fit. -/
def blockedRun : List Invocation := twoPrices (.literal (2 ^ 127 - 1)) (.literal (2 ^ 127 - 1))

/-- One of the two nodes submits an ordinary price in each of four later windows. The other one submits the blocking
price once more, and then tries to do so in the name of the first. -/
def persistence : List Invocation :=
  submission ⟨2⟩ (.other "MAIZE") (.literal (2 ^ 127 - 1)) 1090 ::
    ⟨⟨1095, [⟨2⟩]⟩, .submitPrice ⟨1⟩ (.other "MAIZE") (.literal (2 ^ 127 - 1)) 1095⟩ ::
    [1100, 1140, 1200, 1260].map (submission ⟨1⟩ (.other "MAIZE") (.literal 95))

end AgriFeed.Oracle
