import AgriFeed.Oracle.Types

/-! Administration of the oracle: one-time setup and the calls reserved to the stored administrator. -/
namespace AgriFeed.Oracle

def requireInitialized (st : Storage) : Outcome Error Unit :=
  if st.admin.isSome then .ok () else .error (.contract .notInitialized)

def readAdmin (st : Storage) : Outcome Error Address := okOr st.admin .notInitialized

/-- Authorizing as some address is not enough: it has to be the stored administrator. -/
def requireAdmin (st : Storage) (admin : Address) : Outcome Error Unit := do
  let stored ← readAdmin st
  if stored = admin then .ok () else .error (.contract .notAdmin)

def readNodes (st : Storage) : List Address := st.nodes.getD []

def readCommodities (st : Storage) : List Asset := st.commodities.getD []

def initializeContract (env : Env) (st : Storage) (admin : Address) (decimals resolution : UInt32) (baseAsset : Asset) :
    Outcome Error (Receipt Unit) := do
  requireAuth env admin
  failIf st.admin.isSome .alreadyInitialized
  failIf (resolution = 0) .invalidThreshold
  return ⟨(), { st with
    admin := some admin
    nodes := some []
    threshold := some 0
    decimals := some decimals
    resolution := some resolution
    baseAsset := some baseAsset
    commodities := some []
    retention := some defaultRetention }, [.initialized admin baseAsset decimals resolution]⟩

def addNode (env : Env) (st : Storage) (admin node : Address) : Outcome Error (Receipt Unit) := do
  requireAuth env admin
  requireInitialized st
  requireAdmin st admin
  let nodes := readNodes st
  if node ∈ nodes then
    return ⟨(), st, []⟩
  else
    return ⟨(), { st with nodes := some (nodes ++ [node]) }, [.nodeAdded node]⟩

/-- Only the first occurrence of the node is taken out of the list. -/
def removeNode (env : Env) (st : Storage) (admin node : Address) : Outcome Error (Receipt Unit) := do
  requireAuth env admin
  requireInitialized st
  requireAdmin st admin
  let nodes := readNodes st
  match nodes.idxOf? node with
  | none => return ⟨(), st, []⟩
  | some index => return ⟨(), { st with nodes := some (nodes.eraseIdx index) }, [.nodeRemoved node]⟩

/-- The bound against the node list is checked here and nowhere else. -/
def setThreshold (env : Env) (st : Storage) (admin : Address) (threshold : UInt32) :
    Outcome Error (Receipt Unit) := do
  requireAuth env admin
  requireInitialized st
  requireAdmin st admin
  let nodes := readNodes st
  failIf (threshold = 0 ∨ nodes.length < threshold.toNat) .invalidThreshold
  return ⟨(), { st with threshold := some threshold }, [.thresholdUpdated threshold]⟩

def setRetention (env : Env) (st : Storage) (admin : Address) (retention : UInt32) :
    Outcome Error (Receipt Unit) := do
  requireAuth env admin
  requireInitialized st
  requireAdmin st admin
  failIf (retention = 0) .invalidThreshold
  return ⟨(), { st with retention := some retention }, [.retentionUpdated retention]⟩

def addCommodity (env : Env) (st : Storage) (admin : Address) (asset : Asset) :
    Outcome Error (Receipt Unit) := do
  requireAuth env admin
  requireInitialized st
  requireAdmin st admin
  let commodities := readCommodities st
  failIf (asset ∈ commodities) .commodityAlreadyExists
  return ⟨(), { st with commodities := some (commodities ++ [asset]) }, [.commodityAdded asset]⟩

section Guards
variable {env : Env} {st : Storage} {admin : Address} {A : Type}

@[simp] theorem requireInitialized_eq_ok {u : Unit} : requireInitialized st = .ok u ↔ st.admin.isSome := by
  unfold requireInitialized
  split <;> simp_all

@[simp] theorem requireAdmin_eq_ok {u : Unit} : requireAdmin st admin = .ok u ↔ st.admin = some admin := by
  simp only [requireAdmin, readAdmin, bind_eq_ok, okOr_eq_ok]
  constructor
  · rintro ⟨stored, hs, he⟩
    split at he
    · rename_i h; rw [hs, h]
    · cases he
  · intro h
    exact ⟨admin, h, if_pos rfl⟩

/-- The three checks every administrative call makes before anything else. -/
theorem admin_guard {k : Outcome Error A} {a : A} :
    (do requireAuth env admin; requireInitialized st; requireAdmin st admin; k) = .ok a ↔
      admin ∈ env.auths ∧ st.admin = some admin ∧ k = .ok a := by
  simp only [bind_eq_ok, requireAuth_eq_ok, requireInitialized_eq_ok, requireAdmin_eq_ok]
  constructor
  · rintro ⟨_, ha, _, _, _, hs, hk⟩
    exact ⟨ha, hs, hk⟩
  · rintro ⟨ha, hs, hk⟩
    exact ⟨(), ha, (), by simp [hs], (), hs, hk⟩

end Guards
end AgriFeed.Oracle
