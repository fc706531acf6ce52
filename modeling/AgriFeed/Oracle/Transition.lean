import AgriFeed.Oracle.Contract
import Mathlib.Data.List.Basic

/-! Every way an invocation of the oracle can commit, with its guards and its effect.
The executable contract commits exactly along these transitions. -/
namespace AgriFeed.Oracle
open Foundation

inductive Transition (env : Env) (st : Storage) : Call → Output → Storage → Prop where
  | initializeContract {admin : Address} {decimals resolution : UInt32} {baseAsset : Asset}
      (signed : admin ∈ env.auths) (fresh : st.admin = none) (positive : resolution ≠ 0) :
      Transition env st (.initializeContract admin decimals resolution baseAsset)
        (.unit, [.initialized admin baseAsset decimals resolution])
        { st with
          admin := some admin
          nodes := some []
          threshold := some 0
          decimals := some decimals
          resolution := some resolution
          baseAsset := some baseAsset
          commodities := some []
          retention := some defaultRetention }
  | addNode {admin node : Address} (signed : admin ∈ env.auths) (stored : st.admin = some admin)
      (new : node ∉ readNodes st) :
      Transition env st (.addNode admin node) (.unit, [.nodeAdded node])
        { st with nodes := some (readNodes st ++ [node]) }
  | addListedNode {admin node : Address} (signed : admin ∈ env.auths) (stored : st.admin = some admin)
      (listed : node ∈ readNodes st) :
      Transition env st (.addNode admin node) (.unit, []) st
  | removeNode {admin node : Address} (signed : admin ∈ env.auths) (stored : st.admin = some admin)
      (listed : node ∈ readNodes st) :
      Transition env st (.removeNode admin node) (.unit, [.nodeRemoved node])
        { st with nodes := some ((readNodes st).erase node) }
  | removeUnlistedNode {admin node : Address} (signed : admin ∈ env.auths) (stored : st.admin = some admin)
      (unlisted : node ∉ readNodes st) :
      Transition env st (.removeNode admin node) (.unit, []) st
  | setThreshold {admin : Address} {threshold : UInt32} (signed : admin ∈ env.auths)
      (stored : st.admin = some admin) (positive : threshold ≠ 0)
      (bounded : threshold.toNat ≤ (readNodes st).length) :
      Transition env st (.setThreshold admin threshold) (.unit, [.thresholdUpdated threshold])
        { st with threshold := some threshold }
  | setRetention {admin : Address} {retention : UInt32} (signed : admin ∈ env.auths)
      (stored : st.admin = some admin) (positive : retention ≠ 0) :
      Transition env st (.setRetention admin retention) (.unit, [.retentionUpdated retention])
        { st with retention := some retention }
  | addCommodity {admin : Address} {asset : Asset} (signed : admin ∈ env.auths)
      (stored : st.admin = some admin) (new : asset ∉ readCommodities st) :
      Transition env st (.addCommodity admin asset) (.unit, [.commodityAdded asset])
        { st with commodities := some (readCommodities st ++ [asset]) }
  | submitPrice {node : Address} {asset : Asset} {price : I128} {sourceTs : UInt64}
      (signed : node ∈ env.auths) (ready : st.admin.isSome) (listed : node ∈ readNodes st)
      (tracked : asset ∈ readCommodities st) (positive : 0 < price)
      (fresh : hasSubmitted (readPending st asset) node (roundToWindow st env.timestamp) = false) :
      Transition env st (.submitPrice node asset price sourceTs) (.unit, [.priceSubmitted asset node price])
        (st.setPending asset (some (readPending st asset ++ [⟨node, price, sourceTs, env.timestamp⟩])))
  | finalizePrice {asset : Asset} {price : I128} (ready : st.admin.isSome)
      (pending : readPending st asset ≠ []) (set : st.threshold.getD 0 ≠ 0)
      (met : (st.threshold.getD 0).toNat ≤ (readPending st asset).length)
      (computed : median (readPending st asset) = .ok price) :
      Transition env st (.finalizePrice asset)
        (.price ⟨price, roundToWindow st env.timestamp⟩,
          [.priceFinalized asset price (roundToWindow st env.timestamp)])
        ((st.setHistory asset (some (prune (st.retention.getD defaultRetention).toNat
          (readHistory st asset ++ [⟨price, roundToWindow st env.timestamp⟩])))).setPending asset none)
  | extendInstanceTtl {asset : Asset} (ready : st.admin.isSome) :
      Transition env st (.extendInstanceTtl asset) (.unit, []) st

section Inversion
variable {env : Env} {st st' : Storage} {admin node : Address} {asset : Asset} {out : Output}

private theorem initialize_commits {decimals resolution : UInt32} {baseAsset : Asset} :
    (initializeContract env st admin decimals resolution baseAsset).map Receipt.done = .ok (out, st') ↔
      Transition env st (.initializeContract admin decimals resolution baseAsset) out st' := by
  simp only [map_eq_ok, initializeContract, bind_eq_ok, requireAuth_eq_ok, failIf_eq_ok]
  constructor
  · rintro ⟨_, ⟨_, hs, _, hf, _, hp, hr⟩, he⟩
    cases hr; cases he
    exact .initializeContract hs (by simpa using hf) hp
  · intro h
    cases h with
    | initializeContract hs hf hp => exact ⟨_, ⟨(), hs, (), by simp [hf], (), hp, rfl⟩, rfl⟩

private theorem addNode_commits :
    (addNode env st admin node).map Receipt.done = .ok (out, st') ↔
      Transition env st (.addNode admin node) out st' := by
  simp only [map_eq_ok, addNode, admin_guard]
  constructor
  · rintro ⟨_, ⟨hs, ha, hr⟩, he⟩
    split at hr
    · rename_i hl
      cases hr; cases he
      exact .addListedNode hs ha hl
    · rename_i hl
      cases hr; cases he
      exact .addNode hs ha hl
  · intro h
    cases h with
    | addNode hs ha hl => exact ⟨_, ⟨hs, ha, if_neg hl⟩, rfl⟩
    | addListedNode hs ha hl => exact ⟨_, ⟨hs, ha, if_pos hl⟩, rfl⟩

private theorem removeNode_commits :
    (removeNode env st admin node).map Receipt.done = .ok (out, st') ↔
      Transition env st (.removeNode admin node) out st' := by
  simp only [map_eq_ok, removeNode, admin_guard]
  constructor
  · rintro ⟨_, ⟨hs, ha, hr⟩, he⟩
    split at hr
    · rename_i hl
      cases hr; cases he
      exact .removeUnlistedNode hs ha (List.idxOf?_eq_none_iff.mp hl)
    · rename_i index hl
      cases hr; cases he
      have hm : node ∈ readNodes st := List.isSome_idxOf?.mp (by rw [hl]; rfl)
      have ht := Transition.removeNode hs ha hm
      rwa [List.erase_eq_eraseIdx, hl] at ht
  · intro h
    cases h with
    | removeNode hs ha hm =>
      obtain ⟨index, hl⟩ := Option.isSome_iff_exists.mp (List.isSome_idxOf?.mpr hm)
      rw [List.erase_eq_eraseIdx, hl]
      exact ⟨_, ⟨hs, ha, rfl⟩, rfl⟩
    | removeUnlistedNode hs ha hm =>
      rw [List.idxOf?_eq_none_iff.mpr hm]
      exact ⟨_, ⟨hs, ha, rfl⟩, rfl⟩

private theorem setThreshold_commits {threshold : UInt32} :
    (setThreshold env st admin threshold).map Receipt.done = .ok (out, st') ↔
      Transition env st (.setThreshold admin threshold) out st' := by
  simp only [map_eq_ok, setThreshold, admin_guard]
  simp only [bind_eq_ok, failIf_eq_ok, not_or, not_lt]
  constructor
  · rintro ⟨_, ⟨hs, ha, _, ⟨hp, hb⟩, hr⟩, he⟩
    cases hr; cases he
    exact .setThreshold hs ha hp hb
  · intro h
    cases h with
    | setThreshold hs ha hp hb => exact ⟨_, ⟨hs, ha, (), ⟨hp, hb⟩, rfl⟩, rfl⟩

private theorem setRetention_commits {retention : UInt32} :
    (setRetention env st admin retention).map Receipt.done = .ok (out, st') ↔
      Transition env st (.setRetention admin retention) out st' := by
  simp only [map_eq_ok, setRetention, admin_guard]
  simp only [bind_eq_ok, failIf_eq_ok]
  constructor
  · rintro ⟨_, ⟨hs, ha, _, hp, hr⟩, he⟩
    cases hr; cases he
    exact .setRetention hs ha hp
  · intro h
    cases h with
    | setRetention hs ha hp => exact ⟨_, ⟨hs, ha, (), hp, rfl⟩, rfl⟩

private theorem addCommodity_commits :
    (addCommodity env st admin asset).map Receipt.done = .ok (out, st') ↔
      Transition env st (.addCommodity admin asset) out st' := by
  simp only [map_eq_ok, addCommodity, admin_guard]
  simp only [bind_eq_ok, failIf_eq_ok]
  constructor
  · rintro ⟨_, ⟨hs, ha, _, hn, hr⟩, he⟩
    cases hr; cases he
    exact .addCommodity hs ha hn
  · intro h
    cases h with
    | addCommodity hs ha hn => exact ⟨_, ⟨hs, ha, (), hn, rfl⟩, rfl⟩

private theorem submitPrice_commits {price : I128} {sourceTs : UInt64} :
    (submitPrice env st node asset price sourceTs).map Receipt.done = .ok (out, st') ↔
      Transition env st (.submitPrice node asset price sourceTs) out st' := by
  simp only [map_eq_ok, submitPrice, bind_eq_ok, requireAuth_eq_ok, requireInitialized_eq_ok, failIf_eq_ok,
    not_not, not_le]
  constructor
  · rintro ⟨_, ⟨_, hs, _, hi, _, hn, _, ht, _, hp, _, hf, hr⟩, he⟩
    cases hr; cases he
    exact .submitPrice hs hi hn ht hp (by simpa using hf)
  · intro h
    cases h with
    | submitPrice hs hi hn ht hp hf =>
      exact ⟨_, ⟨(), hs, (), hi, (), hn, (), ht, (), hp, (), by simp [hf], rfl⟩, rfl⟩

private theorem finalizePrice_commits :
    (finalizePrice env st asset).map Receipt.priced = .ok (out, st') ↔
      Transition env st (.finalizePrice asset) out st' := by
  simp only [map_eq_ok, finalizePrice, bind_eq_ok, requireInitialized_eq_ok, failIf_eq_ok, not_or, not_lt,
    List.isEmpty_iff]
  constructor
  · rintro ⟨_, ⟨_, hi, _, hn, _, ⟨ht, hm⟩, price, hc, hr⟩, he⟩
    cases hr; cases he
    exact .finalizePrice hi hn ht hm hc
  · intro h
    cases h with
    | finalizePrice hi hn ht hm hc => exact ⟨_, ⟨(), hi, (), hn, (), ⟨ht, hm⟩, _, hc, rfl⟩, rfl⟩

private theorem extendInstanceTtl_commits :
    (extendInstanceTtl st asset).map Receipt.done = .ok (out, st') ↔
      Transition env st (.extendInstanceTtl asset) out st' := by
  simp only [map_eq_ok, extendInstanceTtl, bind_eq_ok, requireInitialized_eq_ok]
  constructor
  · rintro ⟨_, ⟨_, hi, hr⟩, he⟩
    cases hr; cases he
    exact .extendInstanceTtl hi
  · intro h
    cases h with
    | extendInstanceTtl hi => exact ⟨_, ⟨(), hi, rfl⟩, rfl⟩

end Inversion

/-- The executable oracle commits exactly along its transitions. -/
theorem exec_eq_ok {st st' : Storage} {tx : Invocation} {out : Output} :
    machine.exec st tx = .ok (out, st') ↔ Transition tx.env st tx.call out st' := by
  obtain ⟨env, call⟩ := tx
  cases call with
  | initializeContract => exact initialize_commits
  | addNode => exact addNode_commits
  | removeNode => exact removeNode_commits
  | setThreshold => exact setThreshold_commits
  | setRetention => exact setRetention_commits
  | addCommodity => exact addCommodity_commits
  | submitPrice => exact submitPrice_commits
  | finalizePrice => exact finalizePrice_commits
  | extendInstanceTtl => exact extendInstanceTtl_commits

theorem commits_iff {st : Storage} {tx : Invocation} :
    machine.Commits st tx ↔ ∃ out st', Transition tx.env st tx.call out st' := by
  simp only [machine.commits_iff, exec_eq_ok]

/-- What a committed finalization of the asset contributes to a log, from the state it was made in and its record. -/
def atFinalization {B : Type} (asset : Asset) (f : Storage → PriceData → B) (st : Storage) (tx : Invocation)
    (out : Output) : List B :=
  match tx.call, out.1 with
  | .finalizePrice a, .price record => if a = asset then [f st record] else []
  | _, _ => []

section Logs
variable {B : Type} {asset : Asset} {f : Storage → PriceData → B} {st : Storage} {tx : Invocation} {out : Output}

theorem atFinalization_other (h : tx.call ≠ .finalizePrice asset) : atFinalization asset f st tx out = [] := by
  unfold atFinalization
  split
  · rename_i a record hcall _
    refine if_neg fun ha => ?_
    exact h (ha ▸ hcall)
  · rfl

theorem atFinalization_own (h : tx.call = .finalizePrice asset) {record : PriceData} (ho : out.1 = .price record) :
    atFinalization asset f st tx out = [f st record] := by
  rw [atFinalization, h, ho]
  exact if_pos rfl

theorem map_atFinalization {C : Type} (g : B → C) :
    (atFinalization asset f st tx out).map g = atFinalization asset (fun st record => g (f st record)) st tx out := by
  unfold atFinalization
  split
  · split <;> rfl
  · rfl

end Logs

/-- What a committed finalization has checked, and what it returns. -/
theorem finalize_commits {st : Storage} {tx : Invocation} {asset : Asset} (hf : asset ∈ tx.call.finalizes)
    (hc : machine.Commits st tx) :
    readPending st asset ≠ [] ∧ st.threshold.getD 0 ≠ 0 ∧
      (st.threshold.getD 0).toNat ≤ (readPending st asset).length ∧
      ∃ price, median (readPending st asset) = .ok price ∧
        machine.result st tx = .ok (.price ⟨price, roundToWindow st tx.env.timestamp⟩,
          [.priceFinalized asset price (roundToWindow st tx.env.timestamp)]) := by
  obtain ⟨out, st', he⟩ := machine.commits_iff.mp hc
  have hr : machine.result st tx = .ok out := machine.result_eq_ok.mpr (by rwa [machine.step_commit he])
  have ht := exec_eq_ok.mp he
  rw [Call.mem_finalizes.mp hf] at ht
  cases ht with
  | finalizePrice hi hp hs hm hq => exact ⟨hp, hs, hm, _, hq, hr⟩

end AgriFeed.Oracle
