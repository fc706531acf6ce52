import AgriFeed.Oracle.Authority
import AgriFeed.Oracle.Median

/-! How calls of the oracle fail. In no state, reachable or not, does a call trap: it lacks its signature, or it returns
one of the errors that it documents. -/
namespace AgriFeed.Oracle
open Foundation

/-- The errors a call documents. -/
@[simp] def Call.errors : Call → List Error
  | .initializeContract .. => [.alreadyInitialized, .invalidThreshold]
  | .addNode .. => [.notInitialized, .notAdmin]
  | .removeNode .. => [.notInitialized, .notAdmin]
  | .setThreshold .. => [.notInitialized, .notAdmin, .invalidThreshold]
  | .setRetention .. => [.notInitialized, .notAdmin, .invalidThreshold]
  | .addCommodity .. => [.notInitialized, .notAdmin, .commodityAlreadyExists]
  | .submitPrice .. => [.notInitialized, .notAuthorizedNode, .unknownCommodity, .invalidPrice, .duplicateSubmission]
  | .finalizePrice _ => [.notInitialized, .noPendingSubmissions, .thresholdNotMet, .invalidPrice]
  | .extendInstanceTtl _ => [.notInitialized]

/-- The address that has to sign a call. -/
def Call.signer : Call → Option Address
  | .submitPrice node _ _ _ => some node
  | call => call.administrator

/-- A missing signature or a documented error. -/
def Invocation.Expects (tx : Invocation) (e : Fault Error) : Prop :=
  (∃ who ∈ tx.call.signer, who ∉ tx.env.auths ∧ e = .unauthorized who) ∨
    ∃ error ∈ tx.call.errors, e = .contract error

section Calls
variable {st : Storage} {env : Env} {call : Call} {A : Type}

theorem expects_signature {who : Address} (hs : call.signer = some who) (hn : who ∉ env.auths) :
    (Invocation.mk env call).Expects (.unauthorized who) := .inl ⟨who, hs, hn, rfl⟩

theorem expects_error {error : Error} (h : error ∈ call.errors) : (Invocation.mk env call).Expects (.contract error) :=
  .inr ⟨error, h, rfl⟩

theorem ready_failsAs {expected : Fault Error → Prop} {x : Unit → Outcome Error A}
    (h : expected (.contract .notInitialized)) (hx : FailsAs expected (x ())) :
    FailsAs expected (requireInitialized st >>= x) := by
  unfold requireInitialized
  split
  · exact hx
  · exact .error h

/-- The checks of an administrative call fail in two documented ways. -/
theorem administrative_failsAs {admin : Address} {x : Outcome Error A} (hs : call.signer = some admin)
    (hready : .notInitialized ∈ call.errors) (hadmin : .notAdmin ∈ call.errors)
    (hx : FailsAs (Invocation.mk env call).Expects x) :
    FailsAs (Invocation.mk env call).Expects
      (do requireAuth env admin; requireInitialized st; requireAdmin st admin; x) := by
  refine .signed (expects_signature hs) (ready_failsAs (expects_error hready) (.bind
    (.stored (expects_error hready) fun stored _ => ?_) fun _ _ => hx))
  split
  · exact .ok ()
  · exact .error (expects_error hadmin)

/-- The median of something overflows or is there. -/
theorem median_failsAs {expected : Fault Error → Prop} {pending : List Submission} (hne : pending ≠ [])
    (h : expected (.contract .invalidPrice)) : FailsAs expected (median pending) := by
  by_cases hfit : MiddlesFit pending
  · obtain ⟨m, hm⟩ := exists_median hne hfit
    rw [hm]
    exact .ok m
  · rw [median_overflow hne hfit]
    exact .error h

theorem submitPrice_failsAs (node : Address) (asset : Asset) (price : I128) (sourceTs : UInt64) :
    FailsAs (Invocation.mk env (.submitPrice node asset price sourceTs)).Expects
      (submitPrice env st node asset price sourceTs) :=
  .signed (expects_signature rfl) (ready_failsAs (expects_error (by simp)) (.check (expects_error (by simp)) fun _ =>
    .check (expects_error (by simp)) fun _ => .check (expects_error (by simp)) fun _ =>
      .check (expects_error (by simp)) fun _ => .ok _))

theorem finalizePrice_failsAs (asset : Asset) :
    FailsAs (Invocation.mk env (.finalizePrice asset)).Expects (finalizePrice env st asset) := by
  refine ready_failsAs (expects_error (by simp)) (.check (expects_error (by simp)) fun hne =>
    .check (expects_error (by simp)) fun _ => .bind (median_failsAs ?_ (expects_error (by simp))) fun _ _ => .ok _)
  rwa [List.isEmpty_iff] at hne

/-- While the sum of the middle prices fits, nothing is wrong with a price: the division does not fail. -/
theorem finalizePrice_divides {asset : Asset} (hfit : MiddlesFit (readPending st asset)) :
    FailsAs (· ≠ .contract .invalidPrice) (finalizePrice env st asset) := by
  refine ready_failsAs (by simp) (.check (by simp) fun hne => .check (by simp) fun _ => .bind ?_ fun _ _ => .ok _)
  rw [List.isEmpty_iff] at hne
  obtain ⟨m, hm⟩ := exists_median hne hfit
  rw [hm]
  exact .ok m

end Calls

theorem invoke_failsAs (st : Storage) (tx : Invocation) : FailsAs tx.Expects (invoke st tx) := by
  obtain ⟨env, call⟩ := tx
  cases call with
  | initializeContract admin decimals resolution baseAsset =>
    exact .map (.signed (expects_signature rfl) (.check (expects_error (by simp)) fun _ =>
      .check (expects_error (by simp)) fun _ => .ok _))
  | addNode admin node =>
    refine .map (administrative_failsAs rfl (by simp) (by simp) ?_)
    dsimp only
    split <;> exact .ok _
  | removeNode admin node =>
    refine .map (administrative_failsAs rfl (by simp) (by simp) ?_)
    dsimp only
    split <;> exact .ok _
  | setThreshold admin threshold =>
    exact .map (administrative_failsAs rfl (by simp) (by simp) (.check (expects_error (by simp)) fun _ => .ok _))
  | setRetention admin retention =>
    exact .map (administrative_failsAs rfl (by simp) (by simp) (.check (expects_error (by simp)) fun _ => .ok _))
  | addCommodity admin asset =>
    exact .map (administrative_failsAs rfl (by simp) (by simp) (.check (expects_error (by simp)) fun _ => .ok _))
  | submitPrice node asset price sourceTs => exact .map (submitPrice_failsAs node asset price sourceTs)
  | finalizePrice asset => exact .map (finalizePrice_failsAs asset)
  | extendInstanceTtl asset => exact .map (ready_failsAs (expects_error (by simp)) (.ok _))

/-- Whatever the state and the call, a failure is a missing signature or an error documented for that call; and a
finalization finds a price invalid only where the sum of the two middle prices overflows, never in a division. -/
theorem calls_fail_as_documented (st : Storage) (tx : Invocation) (e : Fault Error)
    (h : machine.result st tx = .error e) :
    tx.Expects e ∧ ∀ asset, tx.call = .finalizePrice asset → e = .contract .invalidPrice →
      ¬ MiddlesFit (readPending st asset) := by
  rw [machine.result_eq_error] at h
  refine ⟨invoke_failsAs st tx e h, ?_⟩
  rintro asset hcall rfl hfit
  obtain ⟨env, call⟩ := tx
  cases hcall
  exact (FailsAs.map (finalizePrice_divides hfit)) _ h rfl

/-- Nothing was submitted yet. -/
theorem early_finalization_fails_as_documented :
    (finalization (.other "MAIZE") 1000).Expects (.contract .noPendingSubmissions) :=
  (calls_fail_as_documented (after (opening ⟨0⟩ 60 [⟨1⟩] 1 (.other "MAIZE"))) (finalization (.other "MAIZE") 1000)
    (.contract .noPendingSubmissions) (by decide +kernel)).1

end AgriFeed.Oracle
