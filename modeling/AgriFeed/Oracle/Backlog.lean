import AgriFeed.Oracle.Duplicates
import Mathlib.Data.Finset.Prod
import Mathlib.Order.Interval.Finset.Nat

/-! How long the list of pending submissions of an asset can get. Nothing but a finalization shortens it, and only the
duplicate rule keeps it from growing: a node has one place in it for each window since then. -/
namespace AgriFeed.Oracle
open Foundation

/-- No node from outside the group is put on the list. -/
def AddsOnly (group : Finset Address) (st : Storage) (tx : Invocation) : Prop :=
  ∀ node ∈ tx.call.adds, machine.Commits st tx → node ∈ group

instance (group : Finset Address) (st : Storage) (tx : Invocation) : Decidable (AddsOnly group st tx) :=
  inferInstanceAs (Decidable (∀ node ∈ tx.call.adds, machine.Commits st tx → node ∈ group))

/-- Whoever is listed or has something pending is of the group. -/
structure Within (group : Finset Address) (st : Storage) : Prop where
  listed : ∀ node ∈ readNodes st, node ∈ group
  pending : ∀ asset, ∀ sub ∈ readPending st asset, sub.node ∈ group

section Bound
variable {group : Finset Address} {asset : Asset}

private theorem within_step {st st' : Storage} {tx : Invocation} {out : Output} (hi : Within group st)
    (ha : AddsOnly group st tx) (he : machine.exec st tx = .ok (out, st')) : Within group st' := by
  have ht := exec_eq_ok.mp he
  constructor
  · intro node hn
    rcases ht.nodes_cases with ⟨_, hl⟩ | ⟨admin, added, hcall, _, hl⟩ | ⟨_, removed, _, _, hl⟩ | hl
    · rw [hl] at hn
      cases hn
    · rw [hl] at hn
      rcases List.mem_append.mp hn with hn | hn
      · exact hi.listed node hn
      · rw [List.mem_singleton.mp hn]
        exact ha added (Call.mem_adds.mpr ⟨admin, hcall⟩) (machine.commits_of_ok he)
    · rw [hl] at hn
      exact hi.listed node (List.mem_of_mem_erase hn)
    · rw [hl] at hn
      exact hi.listed node hn
  · intro a sub hs
    rcases ht.mem_pending hs with hs | ⟨hl, _⟩
    · exact hi.pending a sub hs
    · exact hi.listed _ hl

private theorem within_run {txs : List Invocation} (ha : machine.Along (AddsOnly group) .deployed txs) :
    Within group (after txs) := by
  have start : Within group .deployed := ⟨fun _ h => (nomatch h), fun _ _ h => (nomatch h)⟩
  exact (machine.along_of_invariant (Q := fun _ _ => True) (Within group) (fun _ _ _ _ hi hp he => within_step hi hp he)
    (fun _ _ _ _ => trivial) start ha).2

/-- What is pending after a run was so before, or was submitted in the time of the run. -/
private theorem submitted_during {since now : UInt64} {st : Storage} (hp : readPending st asset = [])
    {txs : List Invocation} (ht : ∀ tx ∈ txs, since ≤ tx.env.timestamp ∧ tx.env.timestamp ≤ now) :
    ∀ sub ∈ readPending (machine.run st txs) asset, since ≤ sub.submittedAt ∧ sub.submittedAt ≤ now := by
  have start : ∀ sub ∈ readPending st asset, since ≤ sub.submittedAt ∧ sub.submittedAt ≤ now := by
    rw [hp]
    exact fun _ h => (nomatch h)
  refine (machine.along_of_invariant (Q := fun _ _ => True)
    (fun s => ∀ sub ∈ readPending s asset, since ≤ sub.submittedAt ∧ sub.submittedAt ≤ now)
    ?_ (fun _ _ _ _ => trivial) start (machine.along_inputs st ht)).2
  intro s tx out s' hi hnow he sub hs
  rcases (exec_eq_ok.mp he).mem_pending hs with hs | ⟨_, _, htime⟩
  · exact hi sub hs
  · rw [htime]
    exact hnow

/-- A list without two entries of one node and window is no longer than there are nodes and windows. -/
private theorem length_le_places {pending : List Submission} {r first last : Nat}
    (hn : ∀ sub ∈ pending, sub.node ∈ group)
    (ht : ∀ sub ∈ pending, first ≤ sub.submittedAt.toNat / r ∧ sub.submittedAt.toNat / r ≤ last)
    (hd : pending.Pairwise fun a b => a.node = b.node → a.submittedAt.toNat / r ≠ b.submittedAt.toNat / r) :
    pending.length ≤ group.card * (last + 1 - first) := by
  have hnodup : (pending.map fun sub => (sub.node, sub.submittedAt.toNat / r)).Nodup := by
    refine List.pairwise_map.mpr (hd.imp ?_)
    intro a b hab he
    exact hab (Prod.mk.inj he).1 (Prod.mk.inj he).2
  have hsub : (pending.map fun sub => (sub.node, sub.submittedAt.toNat / r)).toFinset ⊆
      group ×ˢ Finset.Icc first last := by
    intro place hp
    obtain ⟨sub, hs, rfl⟩ := List.mem_map.mp (List.mem_toFinset.mp hp)
    exact Finset.mem_product.mpr ⟨hn sub hs, Finset.mem_Icc.mpr (ht sub hs)⟩
  calc pending.length
      = (pending.map fun sub => (sub.node, sub.submittedAt.toNat / r)).toFinset.card := by
        rw [List.toFinset_card_of_nodup hnodup, List.length_map]
    _ ≤ (group ×ˢ Finset.Icc first last).card := Finset.card_le_card hsub
    _ = group.card * (last + 1 - first) := by rw [Finset.card_product, Nat.card_Icc]

end Bound

section Growth
variable {st : Storage} {asset : Asset} {price : I128}

/-- The second submission comes no earlier, and in a later window if both are of one node. -/
def LaterPlace (r : Nat) (a b : Address × UInt64) : Prop :=
  a.2 ≤ b.2 ∧ (a.1 = b.1 → a.2.toNat / r < b.2.toNat / r)

/-- Who has submitted, and when. -/
def places (pending : List Submission) : List (Address × UInt64) := pending.map fun sub => (sub.node, sub.submittedAt)

/-- Every node submits at each of the times. -/
def rounds (nodes : List Address) (times : List UInt64) : List (Address × UInt64) :=
  times.flatMap fun time => nodes.map fun node => (node, time)

/-- Listed nodes that each keep to one submission in a window all get a place. -/
private theorem submissions_placed (hc : Configured st) (htracked : asset ∈ readCommodities st) (hpos : 0 < price)
    {new : List (Address × UInt64)} (hlisted : ∀ p ∈ new, p.1 ∈ readNodes st)
    (hf : (places (readPending st asset) ++ new).Pairwise (LaterPlace (resolution st).toNat)) :
    places (readPending (machine.run st (new.map fun p => submission p.1 asset price p.2)) asset) =
      places (readPending st asset) ++ new := by
  induction new generalizing st with
  | nil => exact (List.append_nil _).symm
  | cons p new ih =>
    have hold : ∀ sub ∈ readPending st asset, LaterPlace (resolution st).toNat (sub.node, sub.submittedAt) p := by
      intro sub hs
      exact (List.pairwise_append.mp hf).2.2 _ (List.mem_map_of_mem hs) p List.mem_cons_self
    have hfresh : hasSubmitted (readPending st asset) p.1 (roundToWindow st p.2) = false := by
      rw [Bool.eq_false_iff]
      intro hh
      obtain ⟨sub, hs, hn, hw⟩ := window_of_hasSubmitted hc
        (fun sub hs => UInt64.le_iff_toNat_le.mp (hold sub hs).1) hh
      exact absurd hw ((hold sub hs).2 hn).ne
    have he : machine.exec st (submission p.1 asset price p.2) = .ok ((.unit, [.priceSubmitted asset p.1 price]),
        st.setPending asset (some (readPending st asset ++ [⟨p.1, price, p.2, p.2⟩]))) :=
      exec_eq_ok.mpr (.submitPrice List.mem_cons_self hc.admin (hlisted p List.mem_cons_self) htracked hpos hfresh)
    have hp : places (readPending (st.setPending asset
        (some (readPending st asset ++ [⟨p.1, price, p.2, p.2⟩]))) asset) = places (readPending st asset) ++ [p] := by
      rw [readPending_setPending, if_pos rfl, Option.getD_some, places, List.map_append]
      rfl
    rw [List.map_cons, Machine.run_cons, machine.step_commit he]
    have hnext : Configured (st.setPending asset (some (readPending st asset ++ [⟨p.1, price, p.2, p.2⟩]))) :=
      { hc with }
    have htail := ih hnext htracked fun q hq => hlisted q (List.mem_cons_of_mem p hq)
    rw [hp, List.append_assoc] at htail
    exact htail hf

private theorem rounds_apart {r : Nat} {nodes : List Address} {times : List UInt64} (hd : nodes.Nodup)
    (hw : times.Pairwise fun a b => a.toNat / r < b.toNat / r) : (rounds nodes times).Pairwise (LaterPlace r) := by
  refine List.pairwise_flatMap.mpr ⟨fun time _ => ?_, hw.imp fun {a b} hab => ?_⟩
  · refine List.pairwise_map.mpr (hd.imp fun hne => ⟨UInt64.le_refl time, fun he => absurd he hne⟩)
  · intro x hx y hy
    obtain ⟨_, _, rfl⟩ := List.mem_map.mp hx
    obtain ⟨_, _, rfl⟩ := List.mem_map.mp hy
    refine ⟨UInt64.le_iff_toNat_le.mpr ?_, fun _ => hab⟩
    by_contra hlt
    exact absurd hab (not_lt.mpr (Nat.div_le_div_right (not_le.mp hlt).le))

private theorem length_rounds (nodes : List Address) (times : List UInt64) :
    (rounds nodes times).length = nodes.length * times.length := by
  induction times with
  | nil => rfl
  | cons time times ih =>
    rw [rounds, List.flatMap_cons, List.length_append, List.length_map, ← rounds, ih, List.length_cons, Nat.mul_succ,
      Nat.add_comm]

end Growth

/-- A feed with two nodes. -/
def pairFeed : List Invocation := opening ⟨0⟩ 60 [⟨1⟩, ⟨2⟩] 2 (.other "MAIZE")

/-- Both submit in three windows, and nobody finalizes. -/
def unattended : List Invocation :=
  (rounds [⟨1⟩, ⟨2⟩] [1000, 1030, 1090]).map fun p => submission p.1 (.other "MAIZE") (.literal 95) p.2

end AgriFeed.Oracle
