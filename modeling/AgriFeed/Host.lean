import AgriFeed.Foundation.SignedInt

/-! What both contracts take from their host: addresses, authorizations, the ledger time,
vectors with unchecked access, and the ways an invocation is rolled back. -/
namespace AgriFeed
open Foundation

structure Address where
  id : Nat
  deriving DecidableEq, Repr

abbrev Symbol := String
abbrev I128 := SignedInt 128

/-- The ledger time of an invocation and the addresses whose authorization it carries. -/
structure Env where
  timestamp : UInt64
  auths : List Address

/-- Why an invocation is rolled back: a typed contract error, or a trap of the host. -/
inductive Fault (E : Type) where
  | contract (e : E)
  | unauthorized (who : Address)
  | outOfBounds
  | callee
  deriving DecidableEq

abbrev Outcome (E A : Type) := Except (Fault E) A

variable {E A B : Type}

def requireAuth (env : Env) (who : Address) : Outcome E Unit :=
  if who ∈ env.auths then .ok () else .error (.unauthorized who)

/-- An early return of a typed error. -/
def failIf (c : Prop) [Decidable c] (e : E) : Outcome E Unit :=
  if c then .error (.contract e) else .ok ()

def okOr (o : Option A) (e : E) : Outcome E A :=
  match o with
  | some a => .ok a
  | none => .error (.contract e)

/-- Vector access without a bounds check traps outside the vector. -/
def getUnchecked (xs : List A) (i : Nat) : Outcome E A :=
  match xs[i]? with
  | some a => .ok a
  | none => .error .outOfBounds

def setAt (xs : List A) (i : Nat) (a : A) : Outcome E (List A) :=
  if i < xs.length then .ok (xs.set i a) else .error .outOfBounds

/-- Addition of unsigned words that stays at the largest word instead of wrapping around. -/
def saturatingAdd (a b : UInt64) : UInt64 :=
  if a.toNat + b.toNat < 2 ^ 64 then a + b else UInt64.ofNat (2 ^ 64 - 1)

theorem saturatingAdd_toNat (a b : UInt64) : (saturatingAdd a b).toNat = min (a.toNat + b.toNat) (2 ^ 64 - 1) := by
  unfold saturatingAdd
  split
  · rename_i h
    rw [UInt64.toNat_add, Nat.mod_eq_of_lt h]
    omega
  · rename_i h
    have hmax : (UInt64.ofNat (2 ^ 64 - 1)).toNat = 2 ^ 64 - 1 := rfl
    omega

theorem le_saturatingAdd (a b : UInt64) : a ≤ saturatingAdd a b := by
  have hword := a.toNat_lt
  rw [UInt64.le_iff_toNat_le, saturatingAdd_toNat]
  omega

theorem ok_bind (a : A) (f : A → Outcome E B) : ((.ok a : Outcome E A) >>= f) = f a := rfl

theorem error_bind (e : Fault E) (f : A → Outcome E B) : ((.error e : Outcome E A) >>= f) = .error e := rfl

theorem bind_eq_ok {x : Outcome E A} {f : A → Outcome E B} {b : B} :
    x >>= f = .ok b ↔ ∃ a, x = .ok a ∧ f a = .ok b := by
  cases x with
  | error e =>
    constructor
    · intro h; cases h
    · rintro ⟨_, h, _⟩; cases h
  | ok a =>
    constructor
    · intro h; exact ⟨a, rfl, h⟩
    · rintro ⟨_, ha, hb⟩; cases ha; exact hb

theorem map_eq_ok {x : Outcome E A} {f : A → B} {b : B} : x.map f = .ok b ↔ ∃ a, x = .ok a ∧ f a = b := by
  cases x <;> simp [Except.map]

@[simp] theorem requireAuth_eq_ok {env : Env} {who : Address} {u : Unit} :
    (requireAuth env who : Outcome E Unit) = .ok u ↔ who ∈ env.auths := by
  unfold requireAuth
  split <;> simp_all

@[simp] theorem failIf_eq_ok {c : Prop} [Decidable c] {e : E} {u : Unit} : failIf c e = .ok u ↔ ¬ c := by
  unfold failIf
  split <;> simp_all

@[simp] theorem okOr_eq_ok {o : Option A} {e : E} {a : A} : okOr o e = .ok a ↔ o = some a := by
  cases o <;> simp [okOr]

theorem getUnchecked_eq_ok {xs : List A} {i : Nat} {a : A} :
    (getUnchecked xs i : Outcome E A) = .ok a ↔ xs[i]? = some a := by
  unfold getUnchecked
  cases xs[i]? <;> simp

theorem setAt_of_lt {xs : List A} {i : Nat} (h : i < xs.length) (a : A) :
    (setAt xs i a : Outcome E (List A)) = .ok (xs.set i a) := if_pos h

/-- If the computation fails, it fails in an expected way. -/
def FailsAs (expected : Fault E → Prop) (x : Outcome E A) : Prop := ∀ e, x = .error e → expected e

namespace FailsAs
variable {expected : Fault E → Prop}

theorem ok (a : A) : FailsAs expected (.ok a : Outcome E A) := fun _ h => nomatch h

theorem error {e : Fault E} (h : expected e) : FailsAs expected (.error e : Outcome E A) := by
  intro e' he
  cases he
  exact h

theorem bind {x : Outcome E A} {f : A → Outcome E B} (hx : FailsAs expected x)
    (hf : ∀ a, x = .ok a → FailsAs expected (f a)) : FailsAs expected (x >>= f) := by
  cases x with
  | error e => exact .error (hx e rfl)
  | ok a => exact hf a rfl

theorem map {x : Outcome E A} {f : A → B} (hx : FailsAs expected x) : FailsAs expected (x.map f) := by
  cases x with
  | error e => exact .error (hx e rfl)
  | ok a => exact .ok (f a)

theorem signed {env : Env} {who : Address} {f : Unit → Outcome E A} (h : who ∉ env.auths → expected (.unauthorized who))
    (hf : FailsAs expected (f ())) : FailsAs expected (requireAuth env who >>= f) := by
  unfold requireAuth
  split
  · exact hf
  · rename_i hs
    exact .error (h hs)

theorem check {c : Prop} [Decidable c] {e : E} {f : Unit → Outcome E A} (h : expected (.contract e))
    (hf : ¬ c → FailsAs expected (f ())) : FailsAs expected (failIf c e >>= f) := by
  unfold failIf
  split
  · exact .error h
  · rename_i hc
    exact hf hc

theorem stored {o : Option A} {e : E} {f : A → Outcome E B} (h : expected (.contract e))
    (hf : ∀ a, o = some a → FailsAs expected (f a)) : FailsAs expected (okOr o e >>= f) := by
  cases o with
  | none => exact .error h
  | some a => exact hf a rfl

end FailsAs

end AgriFeed
