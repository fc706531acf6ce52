import AgriFeed.Foundation.Since
import AgriFeed.Oracle.Authority
import AgriFeed.Oracle.Nodes

/-! The node list as a set. It holds every node once, exactly the nodes that were added after they were last
removed, and no other address gets a price accepted. -/
namespace AgriFeed.Oracle
open Foundation

/-- The invocation adds the node, also when it is listed already. -/
def AddsNode (node : Address) (st : Storage) (tx : Invocation) : Prop :=
  node ∈ tx.call.adds ∧ machine.Commits st tx

/-- The invocation removes the node, also when it is not listed. -/
def RemovesNode (node : Address) (st : Storage) (tx : Invocation) : Prop :=
  node ∈ tx.call.removes ∧ machine.Commits st tx

instance (node : Address) (st : Storage) (tx : Invocation) : Decidable (AddsNode node st tx) :=
  inferInstanceAs (Decidable (_ ∧ _))

instance (node : Address) (st : Storage) (tx : Invocation) : Decidable (RemovesNode node st tx) :=
  inferInstanceAs (Decidable (_ ∧ _))

section Steps
variable {st : Storage} {node : Address}

private theorem nodes_of_fresh (hi : st = .deployed ∨ Configured st) (hf : st.admin = none) : readNodes st = [] := by
  apply List.eq_nil_iff_forall_not_mem.mpr
  intro node hn
  have hadmin := (configured_of_listed hi hn).admin
  rw [hf] at hadmin
  cases hadmin

/-- After one invocation a node is listed if that has added it, or was listed and has not been removed by it. -/
private theorem listed_step (hi : st = .deployed ∨ Configured st) (hd : (readNodes st).Nodup) (tx : Invocation) :
    node ∈ readNodes (machine.step st tx) ↔
      AddsNode node st tx ∨ (node ∈ readNodes st ∧ ¬ RemovesNode node st tx) := by
  refine machine.step_iff_of_commit (node ∈ readNodes ·) (fun h => h.2) (fun h => h.2) fun out st' he => ?_
  have hc := machine.commits_of_ok he
  rw [AddsNode, RemovesNode]
  simp only [hc, and_true]
  obtain ⟨env, call⟩ := tx
  -- a call that leaves the list alone added only a listed node and removed only an unlisted one
  have hsame (ha : node ∈ call.adds → node ∈ readNodes st) (hr : node ∈ call.removes → node ∉ readNodes st) :
      node ∈ readNodes st ↔ node ∈ call.adds ∨ (node ∈ readNodes st ∧ ¬ node ∈ call.removes) :=
    ⟨fun hm => .inr ⟨hm, fun h => hr h hm⟩, fun h => h.elim ha And.left⟩
  cases exec_eq_ok.mp he with
  | initializeContract hs hf =>
    rw [nodes_of_fresh hi hf]
    simp [Call.adds, readNodes]
  | @addNode admin added hs ha hnew =>
    change node ∈ readNodes st ++ [added] ↔ _
    rw [List.mem_append, List.mem_singleton]
    simp [Call.adds, Call.removes, eq_comm, or_comm]
  | addListedNode hs ha hl => exact hsame (fun h => Option.some.inj h ▸ hl) (by simp [Call.removes])
  | @removeNode admin removed hs ha hl =>
    change node ∈ (readNodes st).erase removed ↔ _
    rw [hd.mem_erase_iff]
    simp [Call.adds, Call.removes, and_comm, eq_comm]
  | removeUnlistedNode hs ha hl => exact hsame (by simp [Call.adds]) fun h => Option.some.inj h ▸ hl
  | _ => exact hsame (by simp [Call.adds]) (by simp [Call.removes])

/-- A node that is not listed is told so before anything else about its price is looked at. -/
theorem submitPrice_unlisted {env : Env} (hs : node ∈ env.auths) (hready : st.admin.isSome)
    (hn : node ∉ readNodes st) (asset : Asset) (price : I128) (sourceTs : UInt64) :
    machine.result st ⟨env, .submitPrice node asset price sourceTs⟩ = .error (.contract .notAuthorizedNode) := by
  have hauth : (requireAuth env node : Outcome Error Unit) = .ok () := requireAuth_eq_ok.mpr hs
  have hi : requireInitialized st = .ok () := requireInitialized_eq_ok.mpr hready
  have hl : (failIf (node ∉ readNodes st) .notAuthorizedNode : Outcome Error Unit) =
      .error (.contract .notAuthorizedNode) := if_pos hn
  have hf : submitPrice env st node asset price sourceTs = .error (.contract .notAuthorizedNode) := by
    simp only [submitPrice, hauth, hi, hl, ok_bind, error_bind]
  apply machine.result_eq_error.mpr
  change (submitPrice env st node asset price sourceTs).map Receipt.done = _
  rw [hf]
  rfl

end Steps

theorem mem_nodes_iff (txs : List Invocation) (node : Address) :
    node ∈ readNodes (after txs) ↔ machine.Since (AddsNode node) (RemovesNode node) .deployed txs := by
  have hstart : node ∉ readNodes .deployed := List.not_mem_nil
  have hkept : machine.Along (fun st _ => (st = .deployed ∨ Configured st) ∧ (readNodes st).Nodup) .deployed txs := by
    apply (machine.along_iff _ _ _).mpr
    intro pre tx post _
    exact ⟨deployed_or_configured pre, nodes_nodup pre⟩
  exact machine.holds_iff_since (node ∈ readNodes ·) (fun _ tx h => listed_step h.1 h.2 tx) hstart hkept

/-- From a successful removal on, and until the node is added again, nothing is accepted from it. -/
private theorem removed_node_refused {pre during : List Invocation} {removal : Invocation} {node : Address}
    (hr : node ∈ removal.call.removes) (hc : machine.Commits (after pre) removal)
    (hd : machine.Along (NotAdded node) (after (pre ++ [removal])) during) {env : Env} (hs : node ∈ env.auths)
    (asset : Asset) (price : I128) (sourceTs : UInt64) :
    machine.result (after (pre ++ removal :: during)) ⟨env, .submitPrice node asset price sourceTs⟩ =
      .error (.contract .notAuthorizedNode) := by
  obtain ⟨_, _, ht⟩ := commits_iff.mp hc
  rcases ht.fresh_or_configured (deployed_or_configured pre) with ⟨_, _, _, _, _, hcall⟩ | ⟨hconf, _⟩
  · rw [hcall] at hr
    cases hr
  · have hunlisted := (removal_step (nodes_nodup pre) hr hc).1
    rw [← after_concat] at hunlisted
    have hready : (after (pre ++ [removal])).admin.isSome := by
      rw [after_append, (run_sameOrigin hconf.admin [removal]).admin]
      exact hconf.admin
    rw [List.append_cons, after_append]
    apply submitPrice_unlisted hs
    · rw [(run_sameOrigin hready during).admin]
      exact hready
    · exact (unlisted_run hunlisted asset hd).1

/-- The node list of a reachable state has no duplicates and consists of the nodes that were added after they were
last removed. So from a removal on, until the node is added again, every price it submits is refused. -/
theorem node_list_is_set (txs : List Invocation) :
    (readNodes (after txs)).Nodup ∧
    (∀ node, node ∈ readNodes (after txs) ↔ machine.Since (AddsNode node) (RemovesNode node) .deployed txs) ∧
    ∀ pre removal during node, txs = pre ++ removal :: during → node ∈ removal.call.removes →
      machine.Commits (after pre) removal → machine.Along (NotAdded node) (after (pre ++ [removal])) during →
      ∀ (env : Env) asset price sourceTs, node ∈ env.auths →
        machine.result (after txs) ⟨env, .submitPrice node asset price sourceTs⟩ =
          .error (.contract .notAuthorizedNode) := by
  refine ⟨nodes_nodup txs, mem_nodes_iff txs, ?_⟩
  rintro pre removal during node rfl hr hc hd env asset price sourceTs hs
  exact removed_node_refused hr hc hd hs asset price sourceTs

/-- A node that is removed and added again is listed once. -/
def readmission : List Invocation :=
  opening ⟨0⟩ 60 [⟨1⟩, ⟨2⟩] 1 (.other "MAIZE") ++
    [removal ⟨1⟩ 1000, ⟨⟨1010, [⟨0⟩]⟩, .addNode ⟨0⟩ ⟨1⟩⟩, ⟨⟨1020, [⟨0⟩]⟩, .addNode ⟨0⟩ ⟨1⟩⟩]

example : readNodes (after readmission) = [⟨2⟩, ⟨1⟩] := by decide +kernel

example : machine.Since (AddsNode ⟨1⟩) (RemovesNode ⟨1⟩) .deployed readmission := by decide +kernel

end AgriFeed.Oracle
