import AgriFeed.Foundation.Tenure
import AgriFeed.Oracle.Authority
import AgriFeed.Oracle.Locality

/-! The lifetimes of the oracle's entries. They are counted in ledgers beside the storage they belong to: no call
reads them, but what is not extended in time is lost to the contract. -/
namespace AgriFeed.Oracle
open Foundation

/-- The keys of the persistent entries. -/
inductive DataKey where
  | pending (asset : Asset)
  | history (asset : Asset)
  deriving DecidableEq

def Storage.has (st : Storage) : DataKey → Bool
  | .pending asset => (st.pending asset).isSome
  | .history asset => (st.history asset).isSome

/-- The last ledgers of the instance, which is one entry, and of the persistent entries. -/
structure Lifetimes where
  instanceEntry : Nat
  persistent : DataKey → Nat

section Extensions
variable (host : Tenure) (now : Nat)

def extendInstance (lt : Lifetimes) : Lifetimes := { lt with instanceEntry := host.renew now lt.instanceEntry }

def extendPersistent (key : DataKey) (lt : Lifetimes) : Lifetimes :=
  { lt with persistent := Function.update lt.persistent key (host.renew now (lt.persistent key)) }

/-- Writing an entry that is absent creates it. -/
def createPersistent (st : Storage) (key : DataKey) (lt : Lifetimes) : Lifetimes :=
  if st.has key then lt else { lt with persistent := Function.update lt.persistent key (now + host.initial) }

def extendExisting (st : Storage) (key : DataKey) (lt : Lifetimes) : Lifetimes :=
  if st.has key then extendPersistent host now key lt else lt

/-- What a successful call does to the lifetimes. -/
def extended (st : Storage) (lt : Lifetimes) : Call → Lifetimes
  | .initializeContract .. => extendInstance host now lt
  | .addNode _ node => if node ∈ readNodes st then lt else extendInstance host now lt
  | .removeNode _ node => if node ∈ readNodes st then extendInstance host now lt else lt
  | .setThreshold .. => extendInstance host now lt
  | .setRetention .. => extendInstance host now lt
  | .addCommodity .. => extendInstance host now lt
  | .submitPrice _ asset _ _ =>
    extendPersistent host now (.pending asset) (createPersistent host now st (.pending asset) lt)
  | .finalizePrice asset =>
    extendPersistent host now (.history asset) (createPersistent host now st (.history asset) lt)
  | .extendInstanceTtl asset =>
    extendExisting host now st (.history asset)
      (extendExisting host now st (.pending asset) (extendInstance host now lt))

end Extensions

/-- The entry of an asset that a successful call writes. -/
def Call.writes : Call → Option DataKey
  | .submitPrice _ asset _ _ => some (.pending asset)
  | .finalizePrice asset => some (.history asset)
  | _ => none

/-- A successful call writes the configuration, be it to what it was. -/
def Call.Configures (st : Storage) : Call → Prop
  | .addNode _ node => node ∉ readNodes st
  | .removeNode _ node => node ∈ readNodes st
  | .submitPrice .. | .finalizePrice _ | .extendInstanceTtl _ => False
  | _ => True

/-- The oracle with its lifetimes. An input is an invocation and the ledger it is in. -/
def ageing (host : Tenure) : Machine (Storage × Lifetimes) (Nat × Invocation) (Fault Error) Output where
  exec st tx := (machine.exec st.1 tx.2).map fun out => (out.1, out.2, extended host tx.1 st.1 st.2 tx.2.call)

section Steps
variable {host : Tenure} {now : Nat} {st st' : Storage} {lt : Lifetimes} {tx : Invocation} {out : Output}

theorem ageing_exec {s s' : Storage × Lifetimes} {call : Nat × Invocation} :
    (ageing host).exec s call = .ok (out, s') ↔
      machine.exec s.1 call.2 = .ok (out, s'.1) ∧ s'.2 = extended host call.1 s.1 s.2 call.2.call := by
  rw [ageing, map_eq_ok]
  constructor
  · rintro ⟨⟨o, st⟩, he, heq⟩
    cases heq
    exact ⟨he, rfl⟩
  · rintro ⟨he, hl⟩
    refine ⟨(out, s'.1), he, ?_⟩
    rw [← hl]

theorem ageing_step (host : Tenure) (s : Storage × Lifetimes) (call : Nat × Invocation) :
    ((ageing host).step s call).1 = machine.step s.1 call.2 := by
  simp only [Machine.step, ageing]
  cases machine.exec s.1 call.2 <;> rfl

/-- Lifetimes change nothing else. -/
theorem ageing_run (host : Tenure) (s : Storage × Lifetimes) (calls : List (Nat × Invocation)) :
    ((ageing host).run s calls).1 = machine.run s.1 (calls.map (·.2)) := by
  induction calls generalizing s with
  | nil => rfl
  | cons call calls ih => rw [List.map_cons, Machine.run_cons, Machine.run_cons, ih, ageing_step]

/-- The entry is as it was. -/
def Kept : DataKey → Storage → Storage → Prop
  | .pending asset, st, st' => st'.pending asset = st.pending asset
  | .history asset, st, st' => st'.history asset = st.history asset

theorem Kept.has {key : DataKey} (h : Kept key st st') : st'.has key = st.has key := by
  cases key with
  | pending asset => exact congrArg Option.isSome h
  | history asset => exact congrArg Option.isSome h

/-- No entry that is there is kept for a shorter time. -/
structure Prolongs (st : Storage) (lt lt' : Lifetimes) : Prop where
  instanceEntry : lt.instanceEntry ≤ lt'.instanceEntry
  persistent : ∀ key, st.has key → lt.persistent key ≤ lt'.persistent key

theorem Prolongs.refl (st : Storage) (lt : Lifetimes) : Prolongs st lt lt := ⟨Nat.le_refl _, fun _ _ => Nat.le_refl _⟩

theorem Prolongs.trans {lt' lt'' : Lifetimes} (h : Prolongs st lt lt') (h' : Prolongs st lt' lt'') :
    Prolongs st lt lt'' :=
  ⟨h.instanceEntry.trans h'.instanceEntry, fun key hk => (h.persistent key hk).trans (h'.persistent key hk)⟩

theorem prolongs_extendInstance (law : host.Lawful) : Prolongs st lt (extendInstance host now lt) :=
  ⟨Tenure.le_renew law _ _, fun _ _ => Nat.le_refl _⟩

theorem prolongs_extendPersistent (law : host.Lawful) (key : DataKey) :
    Prolongs st lt (extendPersistent host now key lt) := by
  refine ⟨Nat.le_refl _, fun k _ => ?_⟩
  by_cases hk : k = key
  · subst hk
    simp only [extendPersistent, Function.update_self]
    exact Tenure.le_renew law _ _
  · simp only [extendPersistent, Function.update_of_ne hk]
    exact Nat.le_refl _

theorem prolongs_extendExisting (law : host.Lawful) (key : DataKey) :
    Prolongs st lt (extendExisting host now st key lt) := by
  rw [extendExisting]
  split
  · exact prolongs_extendPersistent law key
  · exact .refl st lt

theorem prolongs_createPersistent (key : DataKey) : Prolongs st lt (createPersistent host now st key lt) := by
  rw [createPersistent]
  split
  · exact .refl st lt
  · rename_i hno
    refine ⟨Nat.le_refl _, fun k hk => ?_⟩
    have hne : k ≠ key := fun h => hno (h ▸ hk)
    simp only [Function.update_of_ne hne]
    exact Nat.le_refl _

theorem prolongs_extended (law : host.Lawful) (call : Call) : Prolongs st lt (extended host now st lt call) := by
  have hinstance : Prolongs st lt (extendInstance host now lt) := prolongs_extendInstance law
  cases call with
  | addNode _ node =>
    rw [extended]
    split
    · exact .refl st lt
    · exact hinstance
  | removeNode _ node =>
    rw [extended]
    split
    · exact hinstance
    · exact .refl st lt
  | submitPrice => exact (prolongs_createPersistent _).trans (prolongs_extendPersistent law _)
  | finalizePrice => exact (prolongs_createPersistent _).trans (prolongs_extendPersistent law _)
  | extendInstanceTtl =>
    exact (hinstance.trans (prolongs_extendExisting law _)).trans (prolongs_extendExisting law _)
  | _ => exact hinstance

theorem renewed_extendPersistent (law : host.Lawful) (key : DataKey) (lt : Lifetimes) :
    now + host.longest / 2 ≤ (extendPersistent host now key lt).persistent key := by
  simp only [extendPersistent, Function.update_self]
  exact Tenure.half_le_renew law _ _

theorem renewed_extendExisting (law : host.Lawful) {key : DataKey} (hk : st.has key) (lt : Lifetimes) :
    now + host.longest / 2 ≤ (extendExisting host now st key lt).persistent key := by
  rw [extendExisting, if_pos hk]
  exact renewed_extendPersistent law key lt

/-- An entry that has changed and is still there has been written. -/
theorem Transition.writes_of_change {env : Env} {call : Call} (h : Transition env st call out st') {key : DataKey}
    (hw : ¬ Kept key st st') (hk : st'.has key) : key ∈ call.writes := by
  cases h with
  | @submitPrice _ asset =>
    cases key with
    | pending a =>
      by_contra ha
      exact hw (Function.update_of_ne (fun h => ha (congrArg (some ∘ DataKey.pending) h.symm)) _ _)
    | history a => exact absurd rfl hw
  | @finalizePrice asset =>
    cases key with
    | pending a =>
      by_cases ha : a = asset
      · rw [ha] at hk
        simp [Storage.has, Storage.setPending] at hk
      · exact absurd (Function.update_of_ne ha _ _) hw
    | history a =>
      by_contra ha
      exact hw (Function.update_of_ne (fun h => ha (congrArg (some ∘ DataKey.history) h.symm)) _ _)
  | _ => cases key <;> exact absurd rfl hw

/-- What a call writes it extends. -/
theorem extends_written (law : host.Lawful) {call : Call} {key : DataKey} (hw : key ∈ call.writes) :
    now + host.longest / 2 ≤ (extended host now st lt call).persistent key := by
  cases call with
  | submitPrice =>
    cases hw
    exact renewed_extendPersistent law _ _
  | finalizePrice =>
    cases hw
    exact renewed_extendPersistent law _ _
  | _ => cases hw

/-- A configuration that has changed has been written. -/
theorem Transition.configures_of_change {env : Env} {call : Call} (h : Transition env st call out st')
    (hw : st' ≠ st.withData st'.pending st'.history) : call.Configures st := by
  cases h with
  | addNode _ _ hn => exact hn
  | removeNode _ _ hn => exact hn
  | initializeContract => trivial
  | setThreshold => trivial
  | setRetention => trivial
  | addCommodity => trivial
  | _ => exact absurd rfl hw

/-- A call that writes the configuration extends the instance. -/
theorem extends_configured (law : host.Lawful) {call : Call} (hw : call.Configures st) :
    now + host.longest / 2 ≤ (extended host now st lt call).instanceEntry := by
  have hrenewed : now + host.longest / 2 ≤ (extendInstance host now lt).instanceEntry := Tenure.half_le_renew law _ _
  cases call with
  | addNode _ node =>
    have hn : node ∉ readNodes st := hw
    rwa [extended, if_neg hn]
  | removeNode _ node =>
    have hn : node ∈ readNodes st := hw
    rwa [extended, if_pos hn]
  | initializeContract => exact hrenewed
  | setThreshold => exact hrenewed
  | setRetention => exact hrenewed
  | addCommodity => exact hrenewed
  | _ => exact hw.elim

end Steps

section Runs
variable {host : Tenure} {s : Storage × Lifetimes}

/-- The entry is absent or kept up to the ledger. -/
def Lasting (key : DataKey) (last : Nat) (s : Storage × Lifetimes) : Prop := s.1.has key → last ≤ s.2.persistent key

theorem lasting_step (law : host.Lawful) {key : DataKey} {last : Nat} (h : Lasting key last s)
    {call : Nat × Invocation} (soon : last ≤ call.1 + host.longest / 2) :
    Lasting key last ((ageing host).step s call) := by
  refine (ageing host).step_preserves h fun out s' he => ?_
  obtain ⟨hex, hl⟩ := ageing_exec.mp he
  intro hk
  rw [hl]
  by_cases hkept : Kept key s.1 s'.1
  · rw [hkept.has] at hk
    exact (h hk).trans ((prolongs_extended law _).persistent key hk)
  · exact soon.trans (extends_written law ((exec_eq_ok.mp hex).writes_of_change hkept hk))

theorem lasting_run (law : host.Lawful) {key : DataKey} {last : Nat} (h : Lasting key last s)
    {calls : List (Nat × Invocation)} (soon : ∀ call ∈ calls, last ≤ call.1 + host.longest / 2) :
    Lasting key last ((ageing host).run s calls) := by
  induction calls generalizing s with
  | nil => exact h
  | cons call calls ih =>
    apply ih
    · exact lasting_step law h (soon call List.mem_cons_self)
    · intro other hm
      exact soon other (List.mem_cons_of_mem call hm)

theorem instance_run (law : host.Lawful) {last : Nat} (h : last ≤ s.2.instanceEntry)
    (calls : List (Nat × Invocation)) : last ≤ ((ageing host).run s calls).2.instanceEntry := by
  refine (ageing host).run_invariant (fun s => last ≤ s.2.instanceEntry) (fun t call out t' hi he => ?_) h calls
  rw [(ageing_exec.mp he).2]
  exact hi.trans (prolongs_extended law _).instanceEntry

end Runs

/-- Whatever a call has written, be it an entry of an asset or the configuration and be it to what it was, is kept for
half of the longest lifetime from the ledger of that call on, unless a later call removes it. -/
theorem writes_are_extended (host : Tenure) (law : host.Lawful) (start : Storage × Lifetimes)
    (pre : List (Nat × Invocation)) (now : Nat) (tx : Invocation) (post : List (Nat × Invocation))
    (later : ∀ call ∈ post, now ≤ call.1) :
    (∀ key, ¬ Kept key ((ageing host).run start pre).1 ((ageing host).run start (pre ++ [(now, tx)])).1 ∨
        ((ageing host).Commits ((ageing host).run start pre) (now, tx) ∧ key ∈ tx.call.writes) →
      ((ageing host).run start (pre ++ (now, tx) :: post)).1.has key →
      now + host.longest / 2 ≤ ((ageing host).run start (pre ++ (now, tx) :: post)).2.persistent key) ∧
    (((ageing host).run start (pre ++ [(now, tx)])).1 ≠ ((ageing host).run start pre).1.withData
        ((ageing host).run start (pre ++ [(now, tx)])).1.pending
        ((ageing host).run start (pre ++ [(now, tx)])).1.history ∨
        ((ageing host).Commits ((ageing host).run start pre) (now, tx) ∧
          tx.call.Configures ((ageing host).run start pre).1) →
      now + host.longest / 2 ≤ ((ageing host).run start (pre ++ (now, tx) :: post)).2.instanceEntry) := by
  have hsplit : pre ++ (now, tx) :: post = (pre ++ [(now, tx)]) ++ post := by
    rw [List.append_assoc, List.singleton_append]
  rw [hsplit, (ageing host).run_append _ _ post, (ageing host).run_concat]
  generalize (ageing host).run start pre = s
  cases he : (ageing host).exec s (now, tx) with
  | error e =>
    have hno := (ageing host).not_commits he
    rw [(ageing host).step_rollback he]
    refine ⟨fun key hw => hw.elim (fun hw => absurd ?_ hw) fun hw => absurd hw.1 hno,
      fun hw => hw.elim (absurd rfl) fun hw => absurd hw.1 hno⟩
    cases key <;> rfl
  | ok out =>
    obtain ⟨hex, hl⟩ := ageing_exec.mp he
    rw [(ageing host).step_commit he]
    refine ⟨fun key hw => lasting_run law (fun hk => ?_) fun call hm => ?_, fun hw => instance_run law ?_ post⟩
    · rw [hl]
      exact extends_written law (hw.elim (fun hw => (exec_eq_ok.mp hex).writes_of_change hw hk) And.right)
    · exact Nat.add_le_add_right (later call hm) _
    · rw [hl]
      exact extends_configured law (hw.elim (exec_eq_ok.mp hex).configures_of_change And.right)

/-- A node submits a price ten ledgers after the feed was opened. -/
def submittedInTime : List (Nat × Invocation) :=
  (opening ⟨0⟩ 60 [⟨1⟩] 1 (.other "MAIZE")).map (fun tx => (10, tx)) ++
    [(20, submission ⟨1⟩ (.other "MAIZE") (.literal 95) 1030)]

theorem finalized_history_is_kept :
    330 ≤ ((ageing (ledgerTenure 600 50)).run (.deployed, ⟨50, fun _ => 0⟩) (submittedInTime ++
      [(30, finalization (.other "MAIZE") 1050),
        (200, submission ⟨1⟩ (.other "MAIZE") (.literal 99) 1900)])).2.persistent (.history (.other "MAIZE")) :=
  (writes_are_extended (ledgerTenure 600 50) (ledgerTenure_lawful 600 50) (.deployed, ⟨50, fun _ => 0⟩)
    submittedInTime 30 (finalization (.other "MAIZE") 1050)
    [(200, submission ⟨1⟩ (.other "MAIZE") (.literal 99) 1900)] (by decide)).1 (.history (.other "MAIZE"))
    (.inr ⟨by decide +kernel, rfl⟩) (by decide +kernel)

section Tending

/-- No call comes later than the given number of ledgers after the last extension for the asset. -/
def Tended (period : Nat) (asset : Asset) : Nat → List (Nat × Invocation) → Prop
  | _, [] => True
  | since, call :: calls =>
    (since ≤ call.1 ∧ call.1 ≤ since + period) ∧
      Tended period asset (if call.2.call = .extendInstanceTtl asset then call.1 else since) calls

instance decidableTended (period : Nat) (asset : Asset) : ∀ since calls, Decidable (Tended period asset since calls)
  | _, [] => isTrue trivial
  | since, call :: calls =>
    have := decidableTended period asset (if call.2.call = .extendInstanceTtl asset then call.1 else since) calls
    inferInstanceAs (Decidable (_ ∧ Tended period asset _ calls))

/-- The configuration and what is stored for the asset are kept up to the ledger. -/
structure Live (asset : Asset) (last : Nat) (s : Storage × Lifetimes) : Prop where
  instanceEntry : last ≤ s.2.instanceEntry
  pending : Lasting (.pending asset) last s
  history : Lasting (.history asset) last s

variable {host : Tenure} {s : Storage × Lifetimes} {asset : Asset}

theorem Live.earlier {last last' : Nat} (h : Live asset last s) (hle : last' ≤ last) : Live asset last' s :=
  ⟨hle.trans h.instanceEntry, fun hk => hle.trans (h.pending hk), fun hk => hle.trans (h.history hk)⟩

theorem live_step (law : host.Lawful) {last : Nat} (h : Live asset last s) {call : Nat × Invocation}
    (soon : last ≤ call.1 + host.longest / 2) : Live asset last ((ageing host).step s call) :=
  ⟨instance_run law h.instanceEntry [call], lasting_step law h.pending soon, lasting_step law h.history soon⟩

/-- An extension renews all of them, whoever makes it. -/
theorem live_of_extension (law : host.Lawful) (ready : s.1.admin.isSome) (now : Nat) (env : Env) :
    Live asset (now + host.longest / 2) ((ageing host).step s (now, ⟨env, .extendInstanceTtl asset⟩)) := by
  have hex : machine.exec s.1 ⟨env, .extendInstanceTtl asset⟩ = .ok ((.unit, []), s.1) :=
    exec_eq_ok.mpr (.extendInstanceTtl ready)
  have he : (ageing host).exec s (now, ⟨env, .extendInstanceTtl asset⟩) =
      .ok ((.unit, []), s.1, extended host now s.1 s.2 (.extendInstanceTtl asset)) := ageing_exec.mpr ⟨hex, rfl⟩
  rw [(ageing host).step_commit he]
  refine ⟨?_, fun hk => ?_, fun hk => ?_⟩
  · have hrenewed : now + host.longest / 2 ≤ (extendInstance host now s.2).instanceEntry := Tenure.half_le_renew law _ _
    have hentries : Prolongs s.1 (extendInstance host now s.2) (extended host now s.1 s.2 (.extendInstanceTtl asset)) :=
      (prolongs_extendExisting law _).trans (prolongs_extendExisting law _)
    exact hrenewed.trans hentries.instanceEntry
  · exact (renewed_extendExisting law hk _).trans ((prolongs_extendExisting law _).persistent _ hk)
  · exact renewed_extendExisting law hk _

theorem ready_step (host : Tenure) (ready : s.1.admin.isSome) (call : Nat × Invocation) :
    ((ageing host).step s call).1.admin.isSome := by
  have hadmin : (machine.step s.1 call.2).admin = s.1.admin := (run_sameOrigin ready [call.2]).admin
  rwa [ageing_step, hadmin]

/-- Extensions at most half of the longest lifetime apart keep everything live, whatever else is called. -/
theorem live_of_tended (law : host.Lawful) {since : Nat} {calls : List (Nat × Invocation)}
    (ready : s.1.admin.isSome) (h : Live asset (since + host.longest / 2) s)
    (tended : Tended (host.longest / 2) asset since calls) :
    (ageing host).Along (fun s call => Live asset call.1 s) s calls := by
  induction calls generalizing s since with
  | nil => trivial
  | cons call calls ih =>
    obtain ⟨⟨hstart, hend⟩, hrest⟩ := tended
    refine ⟨h.earlier hend, ?_⟩
    have hready := ready_step host ready call
    by_cases hext : call.2.call = .extendInstanceTtl asset
    · rw [if_pos hext] at hrest
      refine ih hready ?_ hrest
      obtain ⟨now, env, _⟩ := call
      cases hext
      exact live_of_extension law ready now env
    · rw [if_neg hext] at hrest
      exact ih hready (live_step law h (by omega)) hrest

/-- Without extensions and administration the instance is kept no longer than it was, however many prices come. -/
theorem instance_unextended {calls : List (Nat × Invocation)}
    (h : ∀ call ∈ calls, call.2.call.submits.isSome ∨ call.2.call.finalizes.isSome) :
    ((ageing host).run s calls).2.instanceEntry = s.2.instanceEntry := by
  induction calls generalizing s with
  | nil => rfl
  | cons call calls ih =>
    have hstep : ((ageing host).step s call).2.instanceEntry = s.2.instanceEntry := by
      cases he : (ageing host).exec s call with
      | error e => rw [(ageing host).step_rollback he]
      | ok out =>
        rw [(ageing host).step_commit he, (ageing_exec.mp he).2]
        obtain ⟨now, env, tx⟩ := call
        have hprice := h _ List.mem_cons_self
        cases tx with
        | submitPrice =>
          simp only [extended, extendPersistent, createPersistent]
          split <;> rfl
        | finalizePrice =>
          simp only [extended, extendPersistent, createPersistent]
          split <;> rfl
        | _ => simp [Call.submits, Call.finalizes] at hprice
    rw [Machine.run_cons, ih fun other hm => h other (List.mem_cons_of_mem call hm), hstep]

end Tending

/-- From a successful extension on, as long as the next one comes within half of the longest lifetime, every call finds
the configuration and the entries of the asset live. Prices alone do not do that: they leave the instance, and with
it the whole configuration, to its end. -/
theorem tended_feed_stays_live (host : Tenure) (law : host.Lawful) (lifetimes : Lifetimes) (asset : Asset)
    (pre : List (Nat × Invocation)) (since : Nat) (env : Env) :
    (∀ post, (ageing host).Commits ((ageing host).run (.deployed, lifetimes) pre)
        (since, ⟨env, .extendInstanceTtl asset⟩) →
      Tended (host.longest / 2) asset since post →
      (ageing host).Along (fun s call => Live asset call.1 s)
        ((ageing host).run (.deployed, lifetimes) (pre ++ [(since, ⟨env, .extendInstanceTtl asset⟩)])) post) ∧
    ∀ post, (∀ call ∈ post, call.2.call.submits.isSome ∨ call.2.call.finalizes.isSome) →
      ((ageing host).run (.deployed, lifetimes) (pre ++ post)).2.instanceEntry =
        ((ageing host).run (.deployed, lifetimes) pre).2.instanceEntry := by
  refine ⟨fun post hc tended => ?_, fun post h => ?_⟩
  · rw [(ageing host).run_concat]
    generalize (ageing host).run (.deployed, lifetimes) pre = s at hc ⊢
    obtain ⟨out, s', he⟩ := (ageing host).commits_iff.mp hc
    have ready : s.1.admin.isSome := by
      have ht := exec_eq_ok.mp (ageing_exec.mp he).1
      generalize s'.1 = st' at ht
      cases ht with
      | extendInstanceTtl ready => exact ready
    exact live_of_tended law (ready_step host ready _) (live_of_extension law ready since env) tended
  · rw [(ageing host).run_append]
    exact instance_unextended h

/-- A relayer extends every 280 ledgers, and the prices come in between. -/
def tendedCalls : List (Nat × Invocation) :=
  [(100, submission ⟨1⟩ (.other "MAIZE") (.literal 95) 1030), (300, ⟨⟨2000, []⟩, .extendInstanceTtl (.other "MAIZE")⟩),
    (580, ⟨⟨3000, []⟩, .extendInstanceTtl (.other "MAIZE")⟩), (860, finalization (.other "MAIZE") 4000)]

theorem tended_calls_find_feed_live :
    (ageing (ledgerTenure 600 50)).Along (fun s call => Live (.other "MAIZE") call.1 s)
      ((ageing (ledgerTenure 600 50)).run (.deployed, ⟨50, fun _ => 0⟩)
        (submittedInTime ++ [(20, ⟨⟨1040, []⟩, .extendInstanceTtl (.other "MAIZE")⟩)])) tendedCalls :=
  (tended_feed_stays_live (ledgerTenure 600 50) (ledgerTenure_lawful 600 50) ⟨50, fun _ => 0⟩ (.other "MAIZE")
    submittedInTime 20 ⟨1040, []⟩).1 tendedCalls (by decide +kernel) (by decide)

end AgriFeed.Oracle
