import AgriFeed.Foundation.SignedInt
import Mathlib.Algebra.BigOperators.Group.Finset.Piecewise
import Mathlib.Data.List.Count
import Mathlib.Logic.Function.Basic

/-! Ledgers of fungible tokens behind a balance and a transfer function. Clients reason from the laws;
the ledger of owned units shows that the laws can be met together. -/
namespace AgriFeed.Foundation

/-- A ledger with states L, tokens T and holders H. A refused transfer is absent. -/
structure TokenLedger (L T H : Type) (w : Nat) where
  balance : L → T → H → SignedInt w
  transfer : L → T → H → H → SignedInt w → Option L

namespace TokenLedger
variable {L T H : Type} {w : Nat} [DecidableEq H]

/-- A successful transfer moves exactly its amount, which is not negative and covered by the sender. -/
structure Exact (tokens : TokenLedger L T H w) : Prop where
  covered : ∀ l l' t a b x, tokens.transfer l t a b x = some l' → 0 ≤ x.val ∧ x.val ≤ (tokens.balance l t a).val
  moved : ∀ l l' t a b x, tokens.transfer l t a b x = some l' → ∀ h,
    (tokens.balance l' t h).val =
      (tokens.balance l t h).val - (if h = a then x.val else 0) + (if h = b then x.val else 0)
  others : ∀ l l' t a b x, tokens.transfer l t a b x = some l' → ∀ u, u ≠ t → ∀ h,
    tokens.balance l' u h = tokens.balance l u h

/-- Whatever the holder has it can send. -/
def Accepts (tokens : TokenLedger L T H w) (holder : H) : Prop :=
  ∀ l t b x, 0 ≤ x.val → x.val ≤ (tokens.balance l t holder).val → (tokens.transfer l t holder b x).isSome

/-- What a group of holders has of a token. -/
def holding (tokens : TokenLedger L T H w) (l : L) (t : T) (group : Finset H) : Int :=
  ∑ h ∈ group, (tokens.balance l t h).val

/-- One transfer that was carried out. -/
structure Movement (T H : Type) (w : Nat) where
  token : T
  sender : H
  receiver : H
  amount : SignedInt w

/-- The same ledger, writing down every transfer it carries out. -/
def recording (tokens : TokenLedger L T H w) : TokenLedger (L × List (Movement T H w)) T H w where
  balance l t h := tokens.balance l.1 t h
  transfer l t a b x := (tokens.transfer l.1 t a b x).map fun l' => (l', l.2 ++ [⟨t, a, b, x⟩])

omit [DecidableEq H] in
theorem recording_transfer {tokens : TokenLedger L T H w} {l l' : L × List (Movement T H w)} {t : T} {a b : H}
    {x : SignedInt w} (h : tokens.recording.transfer l t a b x = some l') : l'.2 = l.2 ++ [⟨t, a, b, x⟩] := by
  obtain ⟨_, _, rfl⟩ := Option.map_eq_some_iff.mp h
  rfl

namespace Exact
variable {tokens : TokenLedger L T H w} {l l' : L} {t : T} {a b h : H} {x : SignedInt w}

theorem sent (law : tokens.Exact) (ht : tokens.transfer l t a b x = some l') (hab : a ≠ b) :
    (tokens.balance l' t a).val = (tokens.balance l t a).val - x.val := by
  rw [law.moved l l' t a b x ht, if_pos rfl, if_neg hab, Int.add_zero]

theorem received (law : tokens.Exact) (ht : tokens.transfer l t a b x = some l') (hab : a ≠ b) :
    (tokens.balance l' t b).val = (tokens.balance l t b).val + x.val := by
  rw [law.moved l l' t a b x ht, if_neg hab.symm, if_pos rfl, Int.sub_zero]

theorem untouched (law : tokens.Exact) (ht : tokens.transfer l t a b x = some l') (ha : h ≠ a) (hb : h ≠ b) :
    (tokens.balance l' t h).val = (tokens.balance l t h).val := by
  rw [law.moved l l' t a b x ht, if_neg ha, if_neg hb, Int.sub_zero, Int.add_zero]

/-- No one else's transfer lowers a balance. -/
theorem not_lowered (law : tokens.Exact) (ht : tokens.transfer l t a b x = some l') (ha : h ≠ a) (u : T) :
    (tokens.balance l u h).val ≤ (tokens.balance l' u h).val := by
  classical
  by_cases hu : u = t
  · subst hu
    have hx := (law.covered l l' u a b x ht).1
    rw [law.moved l l' u a b x ht, if_neg ha]
    split <;> omega
  · rw [law.others l l' t a b x ht u hu]

/-- No transfer overdraws a balance. -/
theorem not_overdrawn (law : tokens.Exact) (ht : tokens.transfer l t a b x = some l') {u : T}
    (hn : 0 ≤ (tokens.balance l u h).val) : 0 ≤ (tokens.balance l' u h).val := by
  classical
  by_cases hu : u = t
  · subst hu
    obtain ⟨hpos, hle⟩ := law.covered l l' u a b x ht
    rw [law.moved l l' u a b x ht]
    by_cases ha : h = a
    · subst ha
      rw [if_pos rfl]
      split <;> omega
    · rw [if_neg ha]
      split <;> omega
  · rwa [law.others l l' t a b x ht u hu]

theorem holding_received (law : tokens.Exact) (ht : tokens.transfer l t a b x = some l') {group : Finset H}
    (ha : a ∉ group) (hb : b ∈ group) : tokens.holding l' t group = tokens.holding l t group + x.val := by
  have hsum : tokens.holding l' t group = ∑ h ∈ group, ((tokens.balance l t h).val + if h = b then x.val else 0) := by
    apply Finset.sum_congr rfl
    intro h hg
    rw [law.moved l l' t a b x ht, if_neg (ne_of_mem_of_not_mem hg ha), Int.sub_zero]
  rw [hsum, Finset.sum_add_distrib, Finset.sum_ite_eq', if_pos hb, holding]

theorem holding_others (law : tokens.Exact) (ht : tokens.transfer l t a b x = some l') {u : T} (hu : u ≠ t)
    (group : Finset H) : tokens.holding l' u group = tokens.holding l u group := by
  apply Finset.sum_congr rfl
  intro h _
  rw [law.others l l' t a b x ht u hu]

end Exact
end TokenLedger

/-- Each unit of a token lies with one owner, and there are no more units than a balance can count. -/
structure Units (T H : Type) (w : Nat) where
  owners : T → List H
  bounded : ∀ t, InRange w (owners t).length

namespace Units
variable {T H : Type} {w : Nat} [DecidableEq T] [DecidableEq H]

/-- A ledger on which only one token has been issued. -/
def issued (t : T) (owners : List H) (h : InRange w owners.length) : Units T H w where
  owners u := if u = t then owners else []
  bounded u := by
    by_cases hu : u = t
    · rwa [if_pos hu]
    · rw [if_neg hu]
      exact ⟨neg_nonpos.mpr (SignedInt.bound_pos w).le, SignedInt.bound_pos w⟩

/-- The first n units of one owner go to another. -/
def reassign (a b : H) : Nat → List H → List H
  | 0, owners => owners
  | _ + 1, [] => []
  | n + 1, owner :: owners =>
    if owner = a then b :: reassign a b n owners else owner :: reassign a b (n + 1) owners

theorem length_reassign (a b : H) (n : Nat) (owners : List H) : (reassign a b n owners).length = owners.length := by
  induction owners generalizing n with
  | nil => cases n <;> rfl
  | cons owner owners ih =>
    cases n with
    | zero => rfl
    | succ n =>
      rw [reassign]
      split <;> simp [ih]

theorem count_reassign (a b h : H) (n : Nat) (owners : List H) (hn : n ≤ owners.count a) :
    ((reassign a b n owners).count h : Int) =
      owners.count h - (if h = a then (n : Int) else 0) + (if h = b then (n : Int) else 0) := by
  induction owners generalizing n with
  | nil =>
    obtain rfl : n = 0 := by simpa using hn
    simp [reassign]
  | cons owner owners ih =>
    cases n with
    | zero => simp [reassign]
    | succ n =>
      rw [reassign]
      by_cases ho : owner = a
      · subst ho
        rw [List.count_cons_self] at hn
        rw [if_pos rfl, List.count_cons, List.count_cons, Int.natCast_add, ih n (by omega)]
        simp only [beq_iff_eq, eq_comm (a := h)]
        split <;> split <;> push_cast <;> omega
      · rw [List.count_cons_of_ne ho] at hn
        rw [if_neg ho, List.count_cons, List.count_cons, Int.natCast_add, ih (n + 1) hn]
        push_cast
        omega

/-- A balance counts units; a transfer that the sender covers gives them a new owner. -/
def ledger : TokenLedger (Units T H w) T H w where
  balance l t h := ⟨(l.owners t).count h, by
    obtain ⟨_, hu⟩ := l.bounded t
    have hc := List.count_le_length (a := h) (l := l.owners t)
    have hp := SignedInt.bound_pos w
    constructor <;> omega⟩
  transfer l t a b x :=
    if 0 ≤ x.val ∧ x.val ≤ (l.owners t).count a then
      some ⟨Function.update l.owners t (reassign a b x.val.toNat (l.owners t)), by
        intro u
        by_cases hu : u = t
        · subst hu
          rw [Function.update_self, length_reassign]
          exact l.bounded u
        · rw [Function.update_of_ne hu]
          exact l.bounded u⟩
    else none

private theorem transfer_eq_some {l l' : Units T H w} {t : T} {a b : H} {x : SignedInt w}
    (h : ledger.transfer l t a b x = some l') :
    (0 ≤ x.val ∧ x.val ≤ (l.owners t).count a) ∧
      l'.owners = Function.update l.owners t (reassign a b x.val.toNat (l.owners t)) := by
  simp only [ledger] at h
  split at h
  · rename_i hx
    cases h
    exact ⟨hx, rfl⟩
  · cases h

theorem ledger_exact : (ledger : TokenLedger (Units T H w) T H w).Exact := by
  refine ⟨fun l l' t a b x h => (transfer_eq_some h).1, ?_, ?_⟩
  · intro l l' t a b x h holder
    obtain ⟨⟨hpos, hle⟩, hown⟩ := transfer_eq_some h
    have hn : (x.val.toNat : Int) = x.val := Int.toNat_of_nonneg hpos
    have hcount := count_reassign a b holder x.val.toNat (l.owners t) (by omega)
    rw [hn] at hcount
    change ((l'.owners t).count holder : Int) = _
    rw [hown, Function.update_self, hcount]
    rfl
  · intro l l' t a b x h u hu holder
    apply SignedInt.ext
    change ((l'.owners u).count holder : Int) = (l.owners u).count holder
    rw [(transfer_eq_some h).2, Function.update_of_ne hu]

theorem ledger_accepts (holder : H) : (ledger : TokenLedger (Units T H w) T H w).Accepts holder := by
  intro l t b x hpos hle
  simp only [ledger]
  rw [if_pos ⟨hpos, hle⟩]
  rfl

end Units
end AgriFeed.Foundation
