import AgriFeed.Oracle.History
import AgriFeed.Oracle.Recovery

/-! A node that reports on its own, once in each of the windows that follow, and then finalizes. So many reports as
outweigh what is pending bring any price into the history. -/
namespace AgriFeed.Oracle
open Foundation

/-- As many times as wanted, one in each window after the start. -/
def followingTimes (resolution : Nat) : Nat → Nat → List UInt64
  | _, 0 => []
  | start, count + 1 => .ofNat (start + resolution) :: followingTimes resolution (start + resolution) count

/-- They are all there while the clock has room for them. -/
theorem followingTimes_later {resolution last start count : Nat} (hr : 0 < resolution) (hstart : last ≤ start)
    (room : start + count * resolution < 2 ^ 64) :
    LaterWindows resolution last (followingTimes resolution start count) ∧
      (∀ time ∈ followingTimes resolution start count, time.toNat ≤ start + count * resolution) ∧
      (followingTimes resolution start count).map (fun time => time.toNat / resolution) =
        List.range' (start / resolution + 1) count := by
  induction count generalizing last start with
  | zero => exact ⟨trivial, fun _ hm => (nomatch hm), rfl⟩
  | succ count ih =>
    rw [Nat.succ_mul] at room ⊢
    have htime : (UInt64.ofNat (start + resolution)).toNat = start + resolution :=
      UInt64.toNat_ofNat_of_lt' (by simp only [UInt64.size]; omega)
    have hwindow : (UInt64.ofNat (start + resolution)).toNat / resolution = start / resolution + 1 := by
      rw [htime, Nat.add_div_right start hr]
    obtain ⟨hlater, hbound, hwindows⟩ := ih (le_refl (start + resolution)) (by omega)
    refine ⟨⟨?_, ?_⟩, fun time hm => ?_, ?_⟩
    · rw [hwindow]
      exact Nat.lt_succ_of_le (Nat.div_le_div_right hstart)
    · rwa [htime]
    · rcases List.mem_cons.mp hm with rfl | hm
      · rw [htime]
        omega
      · have := hbound time hm
        omega
    · rw [followingTimes, List.map_cons, hwindow, hwindows, Nat.add_div_right start hr, List.range'_succ]

/-- A node submits one price at several times, then the price is finalized. -/
def reporting (node : Address) (asset : Asset) (price : I128) (times : List UInt64) (time : UInt64) :
    List Invocation :=
  times.map (submission node asset price) ++ [finalization asset time]

section Alone
variable {node : Address} {asset : Asset} {price : I128} {times : List UInt64}

private theorem reports_own : ∀ tx ∈ times.map (submission node asset price), OwnSubmission node asset tx := by
  intro tx hm
  obtain ⟨time, _, rfl⟩ := List.mem_map.mp hm
  exact ⟨rfl, List.mem_singleton_self node⟩

/-- Reports are persistent, without any rivals. -/
private theorem reports_persistent {st : Storage} {last : Nat}
    (hlater : LaterWindows (resolution st).toNat last times) :
    ownTimes node asset (times.map (submission node asset price)) = times ∧
      rivals node asset st (times.map (submission node asset price)) = 0 ∧
      Persistent node asset price last st (times.map (submission node asset price)) := by
  have hshape : ∀ tx ∈ times.map (submission node asset price), ∃ time, submission node asset price time = tx :=
    fun tx hm => (List.mem_map.mp hm).imp fun _ h => h.2
  have hown : ownTimes node asset (times.map (submission node asset price)) = times := by
    rw [ownTimes, List.filter_eq_self.mpr, List.map_map]
    · exact List.map_id times
    · exact fun tx hm => decide_eq_true (reports_own tx hm)
  refine ⟨hown, List.countP_eq_zero.mpr ?_, ?_, hown.symm ▸ hlater, ?_⟩
  · intro sub hs
    obtain ⟨pre, tx, post, _, _, hsplit, _, haccepted⟩ := (machine.mem_log _ _ _ _).mp hs
    obtain ⟨time, rfl⟩ := hshape tx (by rw [hsplit]; exact List.mem_append_right _ List.mem_cons_self)
    cases (mem_accepted.mp haccepted).1
    simp
  · intro tx hm _
    obtain ⟨time, rfl⟩ := hshape tx hm
    rfl
  · refine machine.along_mono (fun _ _ h => ⟨fun hf => h.1 hf.1, fun hr => h.2 hr.1⟩) (machine.along_inputs st
      (P := fun tx => asset ∉ tx.call.finalizes ∧ node ∉ tx.call.removes) ?_)
    intro tx hm
    obtain ⟨time, rfl⟩ := hshape tx hm
    exact ⟨Option.not_mem_none asset, Option.not_mem_none node⟩

/-- Reports leave the threshold as it is. -/
private theorem reports_threshold (st : Storage) :
    (machine.run st (times.map (submission node asset price))).threshold = st.threshold := by
  induction times generalizing st with
  | nil => rfl
  | cons time times ih =>
    rw [List.map_cons, Machine.run_cons, ih]
    cases he : machine.exec st (submission node asset price time) with
    | error e => rw [machine.step_rollback he]
    | ok result =>
      obtain ⟨out, st'⟩ := result
      rw [machine.step_commit he]
      cases exec_eq_ok.mp he
      rfl

/-- A node that outvotes what is pending has its price finalized. -/
private theorem reporting_succeeds {txs : List Invocation} {time : UInt64}
    (ordered : Timely (txs ++ reporting node asset price times time)) (hlisted : node ∈ readNodes (after txs))
    (htracked : asset ∈ assets (after txs)) (hset : (after txs).threshold.getD 0 ≠ 0) (hpos : 0 < price)
    (hordinary : price.val ≤ 2 ^ 126 - 1) {now : Nat}
    (hpast : ∀ sub ∈ readPending (after txs) asset, sub.submittedAt.toNat ≤ now)
    (hlater : LaterWindows (resolution (after txs)).toNat now times)
    (hmore : (readPending (after txs) asset).length < times.length)
    (hmet : ((after txs).threshold.getD 0).toNat ≤ (readPending (after txs) asset).length + times.length) :
    machine.Along machine.Commits (after txs) (reporting node asset price times time) ∧
      ∃ record, record.price = price ∧
        lastprice (after (txs ++ reporting node asset price times time)) asset = some record := by
  obtain ⟨hown, hrivals, hpersistent⟩ : ownTimes node asset (times.map (submission node asset price)) = times ∧
      rivals node asset (after txs) (times.map (submission node asset price)) = 0 ∧
      Persistent node asset price now (after txs) (times.map (submission node asset price)) :=
    reports_persistent hlater
  have hthreshold : (after (txs ++ times.map (submission node asset price))).threshold = (after txs).threshold := by
    rw [after_append, reports_threshold]
  rw [reporting, ← List.append_assoc] at ordered
  obtain ⟨halong, hfinal⟩ := outvoted ((Machine.timely_append _).mp ordered).1 hlisted htracked hpos hordinary
    (fun sub hs _ => hpast sub hs) hpersistent (by rw [hown, hrivals]; exact hmore) (by rw [hthreshold]; exact hset)
    (by rw [hthreshold, hown, hrivals]; exact hmet)
  constructor
  · refine (machine.along_append _ _ _ _).mpr ⟨?_, ?_, trivial⟩
    · exact (machine.along_congr (A := fun _ tx => OwnSubmission node asset tx) (Q := machine.Commits)
        (fun _ _ h => forall_prop_of_true h) (machine.along_inputs _ reports_own)).mp halong
    · rw [← after_append]
      exact machine.commits_of_ok (machine.result_eq_ok.mp (hfinal ⟨time, []⟩))
  · refine ⟨⟨price, roundToWindow (after (txs ++ times.map (submission node asset price))) time⟩, rfl, ?_⟩
    rw [reporting, ← List.append_assoc, after_concat]
    exact (finalize_retains (hfinal ⟨time, []⟩)).2

/-- Its calls come in order, after what was there before. -/
private theorem reporting_timely {txs : List Invocation} {resolution now : Nat} {time : UInt64}
    (ordered : Timely txs) (hnow : ∀ tx ∈ txs, tx.env.timestamp.toNat ≤ now)
    (hlater : LaterWindows resolution now times) (htime : now ≤ time.toNat)
    (hlast : ∀ t ∈ times, t.toNat ≤ time.toNat) : Timely (txs ++ reporting node asset price times time) := by
  obtain ⟨hordered, hafter⟩ := hlater.ordered
  have hreports : Timely (times.map (submission node asset price)) := by
    rw [Timely, Machine.Timely, List.map_map]
    exact hordered
  refine (Machine.timely_append _).mpr ⟨ordered, (Machine.timely_append _).mpr ⟨hreports, ?_, ?_⟩, ?_⟩
  · exact List.pairwise_singleton _ _
  · intro tx hm tx' hm'
    obtain ⟨t, ht, rfl⟩ := List.mem_map.mp hm
    rw [List.mem_singleton.mp hm']
    exact hlast t ht
  · intro tx hm tx' hm'
    refine (hnow tx hm).trans ?_
    rcases List.mem_append.mp hm' with hm' | hm'
    · obtain ⟨t, ht, rfl⟩ := List.mem_map.mp hm'
      exact hafter t ht
    · rw [List.mem_singleton.mp hm']
      exact htime

end Alone

/-- So many reports outvote what is pending and meet the threshold. -/
def reportsNeeded (st : Storage) (asset : Asset) : Nat :=
  max ((readPending st asset).length + 1) (st.threshold.getD 0).toNat

/-- One report in each window after the start is enough by then. -/
def horizon (st : Storage) (asset : Asset) (start : Nat) : Nat :=
  start + reportsNeeded st asset * (resolution st).toNat

/-- From every reachable state on a listed node can have any ordinary price finalized, unless the clock ends before. -/
theorem price_in_reach {txs : List Invocation} (ordered : Timely txs) {now start : Nat}
    (hnow : ∀ tx ∈ txs, tx.env.timestamp.toNat ≤ now) (hstart : now ≤ start) {node : Address} {asset : Asset}
    {price : I128} (hlisted : node ∈ readNodes (after txs)) (htracked : asset ∈ assets (after txs))
    (hset : (after txs).threshold.getD 0 ≠ 0) (hpos : 0 < price) (hordinary : price.val ≤ 2 ^ 126 - 1)
    (room : horizon (after txs) asset start < 2 ^ 64) :
    ∃ times time, time.toNat = horizon (after txs) asset start ∧
      times.map (fun t => t.toNat / (resolution (after txs)).toNat) =
        List.range' (start / (resolution (after txs)).toNat + 1) (reportsNeeded (after txs) asset) ∧
      Timely (txs ++ reporting node asset price times time) ∧
      machine.Along machine.Commits (after txs) (reporting node asset price times time) ∧
      ∃ record, record.price = price ∧
        lastprice (after (txs ++ reporting node asset price times time)) asset = some record := by
  have hc := configured_of_listed (deployed_or_configured txs) hlisted
  have hpast := (chronological ordered hnow).submitted asset
  obtain ⟨times, hlater, hbound, hwindows⟩ : ∃ times : List UInt64,
      LaterWindows (resolution (after txs)).toNat now times ∧
      (∀ time ∈ times, time.toNat ≤ horizon (after txs) asset start) ∧
      times.map (fun t => t.toNat / (resolution (after txs)).toNat) =
        List.range' (start / (resolution (after txs)).toNat + 1) (reportsNeeded (after txs) asset) :=
    ⟨_, followingTimes_later hc.resolution_pos hstart room⟩
  have hlength : times.length = reportsNeeded (after txs) asset := by
    rw [← List.length_map (f := fun t => t.toNat / (resolution (after txs)).toNat), hwindows, List.length_range']
  have htime : (UInt64.ofNat (horizon (after txs) asset start)).toNat = horizon (after txs) asset start :=
    UInt64.toNat_ofNat_of_lt' room
  have hwhen : now ≤ (UInt64.ofNat (horizon (after txs) asset start)).toNat := by
    rw [htime]
    exact hstart.trans (Nat.le_add_right _ _)
  have hordered : Timely (txs ++ reporting node asset price times (.ofNat (horizon (after txs) asset start))) :=
    reporting_timely ordered hnow hlater hwhen fun t ht => (hbound t ht).trans htime.ge
  rw [reportsNeeded] at hlength
  exact ⟨times, _, htime, hwindows, hordered, reporting_succeeds hordered hlisted htracked hset hpos hordinary hpast
    hlater (by omega) (by omega)⟩

end AgriFeed.Oracle
