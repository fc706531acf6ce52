import AgriFeed.Foundation.Tenure
import AgriFeed.Pricefloor.Market

/-! The lifetime of an agreement. All of its state is one entry, which every successful call extends. Between funding
and maturity there is no successful call. -/
namespace AgriFeed.Pricefloor
open Foundation

variable {L : Type} {tokens : Tokens L} {self : Address}

/-- What a successful input does to the last ledger of the instance. The transfers of others do not touch it. -/
def extended (host : Tenure) (now last : Nat) : Input → Nat
  | .invoke _ => host.renew now last
  | .transfer .. => last

/-- The agreement with its lifetime. Every input comes with the ledger it is in. -/
def ageing (host : Tenure) (tokens : Tokens L) (self : Address) :
    Machine (World L × Nat) (Nat × Input) (Fault Error) Output where
  exec st input :=
    ((machine tokens self).exec st.1 input.2).map fun out => (out.1, out.2, extended host input.1 st.2 input.2)

/-- A call before the time, or a transfer. -/
def Input.Before (time : UInt64) : Input → Prop
  | .invoke tx => tx.env.timestamp < time
  | .transfer .. => True

instance (time : UInt64) : DecidablePred (Input.Before time)
  | .invoke tx => inferInstanceAs (Decidable (tx.env.timestamp < time))
  | .transfer .. => isTrue trivial

section Steps
variable {host : Tenure} {s s' : World L × Nat} {input : Nat × Input} {out : Output}

theorem ageing_exec : (ageing host tokens self).exec s input = .ok (out, s') ↔
    (machine tokens self).exec s.1 input.2 = .ok (out, s'.1) ∧ s'.2 = extended host input.1 s.2 input.2 := by
  rw [ageing, map_eq_ok]
  constructor
  · rintro ⟨⟨o, w⟩, he, heq⟩
    cases heq
    exact ⟨he, rfl⟩
  · rintro ⟨he, hl⟩
    refine ⟨(out, s'.1), he, ?_⟩
    rw [← hl]

theorem ageing_step (host : Tenure) (tokens : Tokens L) (self : Address) (s : World L × Nat) (input : Nat × Input) :
    ((ageing host tokens self).step s input).1 = (machine tokens self).step s.1 input.2 := by
  simp only [Machine.step, ageing]
  cases (machine tokens self).exec s.1 input.2 <;> rfl

/-- The lifetime changes nothing else. -/
theorem ageing_run (host : Tenure) (tokens : Tokens L) (self : Address) (s : World L × Nat)
    (inputs : List (Nat × Input)) :
    ((ageing host tokens self).run s inputs).1 = (machine tokens self).run s.1 (inputs.map (·.2)) := by
  induction inputs generalizing s with
  | nil => rfl
  | cons input inputs ih => rw [List.map_cons, Machine.run_cons, Machine.run_cons, ih, ageing_step]

/-- The instance is never kept longer than the host allows. -/
theorem bounded_run (law : host.Lawful) {now : Nat} (h : s.2 ≤ now + host.longest) {inputs : List (Nat × Input)}
    (ordered : Machine.Timely (fun input : Nat × Input => input.1) inputs) (start : ∀ input ∈ inputs, now ≤ input.1)
    {last : Nat} (hlast : now ≤ last) (stop : ∀ input ∈ inputs, input.1 ≤ last) :
    ((ageing host tokens self).run s inputs).2 ≤ last + host.longest := by
  refine ((ageing host tokens self).along_timed (fun input => input.1) (fun s now => s.2 ≤ now + host.longest)
    (fun _ _ _ hs ht => ?_) (fun s input out s' hs he => ?_) h ordered start).2 last hlast stop
  · exact hs.trans (Nat.add_le_add_right ht _)
  · rw [(ageing_exec.mp he).2]
    cases input.2 with
    | invoke => exact Tenure.renew_le law hs
    | transfer => exact hs

/-- Before maturity a funded agreement refuses every call. -/
theorem Transition.early {w w' : World L} {terms : Terms} {tx : Invocation} (holds : w.storage.Holds terms)
    (hfunded : w.storage.funded = some true) (early : tx.env.timestamp < terms.maturity) :
    ¬ Transition tokens self w (.invoke tx) out w' := by
  intro h
  cases h with
  | initializeContract _ _ fresh =>
    rw [holds.farmer] at fresh
    cases fresh
  | fund _ _ _ unfunded =>
    rw [hfunded] at unfunded
    cases unfunded
  | settle _ _ stored mature =>
    cases stored.unique holds
    exact absurd mature (UInt64.not_le.mpr early)
  | cancelFunded _ _ _ _ _ _ _ stored elapsed =>
    cases stored.symm.trans holds.maturity
    exact absurd (UInt64.le_trans (le_saturatingAdd _ _) elapsed) (UInt64.not_le.mpr early)
  | cancelUnfunded _ _ _ _ _ _ unfunded =>
    rw [hfunded] at unfunded
    cases unfunded

/-- Until maturity the inputs of a funded agreement are transfers of others. -/
theorem asleep_run (law : tokens.Exact) (host : Tenure) {terms : Terms} (holds : s.1.storage.Holds terms)
    (hfunded : s.1.storage.funded = some true) {inputs : List (Nat × Input)}
    (early : ∀ input ∈ inputs, input.2.Before terms.maturity) :
    (ageing host tokens self).Along (fun s input => input.2.IsCall → ¬ (ageing host tokens self).Commits s input) s
        inputs ∧
      ((ageing host tokens self).run s inputs).1.storage = s.1.storage ∧
      ((ageing host tokens self).run s inputs).2 = s.2 ∧
      ∀ token, (tokens.balance s.1.ledger token self).val ≤
        (tokens.balance ((ageing host tokens self).run s inputs).1.ledger token self).val := by
  have hrefused : ∀ (t : World L × Nat) (input : Nat × Input), t.1.storage = s.1.storage →
      input.2.Before terms.maturity → input.2.IsCall → ¬ (ageing host tokens self).Commits t input := by
    rintro t ⟨now, input⟩ hstorage hbefore hcall hc
    obtain ⟨out, t', he⟩ := (ageing host tokens self).commits_iff.mp hc
    cases input with
    | transfer => exact hcall
    | invoke tx =>
      exact Transition.early (hstorage ▸ holds) (hstorage ▸ hfunded) hbefore (exec_eq_ok.mp (ageing_exec.mp he).1)
  have hall : (ageing host tokens self).Along (fun _ input => input.2.Before terms.maturity) s inputs :=
    (ageing host tokens self).along_inputs s early
  refine (ageing host tokens self).along_of_invariant
    (fun t => t.1.storage = s.1.storage ∧ t.2 = s.2 ∧ ∀ token, (tokens.balance s.1.ledger token self).val ≤
      (tokens.balance t.1.ledger token self).val) ?_ (fun t input hi hp => hrefused t input hi.1 hp)
    ⟨rfl, rfl, fun _ => le_rfl⟩ hall
  rintro t ⟨now, input⟩ out t' ⟨hstorage, hlast, hbalance⟩ hbefore he
  obtain ⟨hex, hl⟩ := ageing_exec.mp he
  cases input with
  | invoke tx => exact absurd ((ageing host tokens self).commits_of_ok he) (hrefused t _ hstorage hbefore trivial)
  | transfer =>
    have ht := exec_eq_ok.mp hex
    generalize t'.1 = w' at ht
    cases ht with
    | transfer hs hm =>
      exact ⟨hstorage, hl.trans hlast, fun token => (hbalance token).trans (law.not_lowered hm hs.symm token)⟩

end Steps

/-- While an agreement is funded and not mature every call of it fails, its storage stays as it is and its balances do
not fall. So nobody can extend its lifetime by calling it: that ends with the longest one there is from now on. -/
theorem funded_agreement_sleeps (host : Tenure) (lawful : host.Lawful) {L : Type} (tokens : Tokens L)
    (law : tokens.Exact) (self : Address) (ledger : L) (deployed last : Nat) (hlast : last ≤ deployed + host.longest)
    (inputs : List (Nat × Input)) (ordered : Machine.Timely (fun input : Nat × Input => input.1) inputs)
    (start : ∀ input ∈ inputs, deployed ≤ input.1) (now : Nat) (hnow : deployed ≤ now)
    (stop : ∀ input ∈ inputs, input.1 ≤ now)
    (hfunded : ((ageing host tokens self).run (⟨.deployed, ledger⟩, last) inputs).1.storage.funded = some true) :
    ∃ terms, ((ageing host tokens self).run (⟨.deployed, ledger⟩, last) inputs).1.storage.Holds terms ∧
      ∀ post, (∀ input ∈ post, input.2.Before terms.maturity) →
        (ageing host tokens self).Along (fun s input => input.2.IsCall → ¬ (ageing host tokens self).Commits s input)
          ((ageing host tokens self).run (⟨.deployed, ledger⟩, last) inputs) post ∧
        ((ageing host tokens self).run (⟨.deployed, ledger⟩, last) (inputs ++ post)).1.storage =
          ((ageing host tokens self).run (⟨.deployed, ledger⟩, last) inputs).1.storage ∧
        ((ageing host tokens self).run (⟨.deployed, ledger⟩, last) (inputs ++ post)).2 ≤ now + host.longest ∧
        ∀ token,
          (tokens.balance ((ageing host tokens self).run (⟨.deployed, ledger⟩, last) inputs).1.ledger token self).val ≤
            (tokens.balance ((ageing host tokens self).run (⟨.deployed, ledger⟩, last) (inputs ++ post)).1.ledger token
              self).val := by
  have hbound : ((ageing host tokens self).run (⟨.deployed, ledger⟩, last) inputs).2 ≤ now + host.longest :=
    bounded_run lawful hlast ordered start hnow stop
  have hcoherent : Coherent ((ageing host tokens self).run (⟨.deployed, ledger⟩, last) inputs).1.storage := by
    rw [ageing_run]
    exact coherent ledger _
  obtain ⟨terms, holds⟩ := hcoherent.holds hfunded
  refine ⟨terms, holds, fun post early => ?_⟩
  obtain ⟨hrefused, hstorage, hlife, hbalance⟩ := asleep_run law host holds hfunded early
  rw [(ageing host tokens self).run_append]
  exact ⟨hrefused, hstorage, hlife.trans_le hbound, hbalance⟩

/-- Funded in ledger 30 and mature at time 1000. A settlement comes too early, and a stranger sends a unit. -/
theorem early_settlement_changes_nothing :
    ((ageing (ledgerTenure 600 50) Units.ledger ⟨9⟩).run (⟨.deployed, endowment⟩, 50)
      ([(20, signing ⟨1⟩ ⟨2⟩ (.literal 100) (.literal 1) ⟨5⟩ 1000 ⟨8⟩), (30, funding ⟨2⟩ (.literal 6) 10)] ++
        [(400, settlement (quoting (.literal 97)) 999), (410, .transfer ⟨5⟩ ⟨3⟩ ⟨9⟩ (.literal 1))])).2 ≤ 630 := by
  obtain ⟨terms, holds, hsleeps⟩ := funded_agreement_sleeps (ledgerTenure 600 50) (ledgerTenure_lawful 600 50)
    Units.ledger Units.ledger_exact ⟨9⟩ endowment 10 50 (by decide)
    [(20, signing ⟨1⟩ ⟨2⟩ (.literal 100) (.literal 1) ⟨5⟩ 1000 ⟨8⟩), (30, funding ⟨2⟩ (.literal 6) 10)]
    (by decide) (by decide) 30 (by decide) (by decide) (by decide +kernel)
  have hmaturity : terms.maturity = 1000 := Option.some.inj (holds.maturity.symm.trans (by decide +kernel))
  refine (hsleeps _ ?_).2.2.1
  rw [hmaturity]
  decide

end AgriFeed.Pricefloor
