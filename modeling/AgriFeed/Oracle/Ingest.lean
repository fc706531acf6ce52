import AgriFeed.Oracle.Admin

/-! Price ingestion: submissions of the nodes and permissionless finalization into a median. -/
namespace AgriFeed.Oracle

def readPending (st : Storage) (asset : Asset) : List Submission := (st.pending asset).getD []

def readHistory (st : Storage) (asset : Asset) : List PriceData := (st.history asset).getD []

/-- The inner loop of the insertion sort: prices above the key move one place to the right,
and the key is written where the loop stops. -/
def shiftLarger (key : I128) : Nat → List I128 → Outcome Error (List I128)
  | 0, prices => setAt prices 0 key
  | j + 1, prices => do
    let prev ← getUnchecked prices j
    if prev ≤ key then
      setAt prices (j + 1) key
    else
      let prices ← setAt prices (j + 1) prev
      shiftLarger key j prices

/-- The outer loop, from position i on. -/
def sortFrom (n i : Nat) (prices : List I128) : Outcome Error (List I128) :=
  if i < n then do
    let key ← getUnchecked prices i
    let prices ← shiftLarger key i prices
    sortFrom n (i + 1) prices
  else .ok prices
termination_by n - i

def sortedPrices (pending : List Submission) : Outcome Error (List I128) :=
  let prices := pending.map (·.price)
  sortFrom prices.length 1 prices

/-- The middle price of an odd count, the truncated average of the two middle prices of an
even one. With no prices the first read traps. -/
def median (pending : List Submission) : Outcome Error I128 := do
  let prices ← sortedPrices pending
  let n := prices.length
  if n % 2 = 1 then
    getUnchecked prices (n / 2)
  else
    let mid := n / 2
    let a ← getUnchecked prices (mid - 1)
    let b ← getUnchecked prices mid
    let sum ← okOr (a.checkedAdd b) .invalidPrice
    okOr (sum.checkedDiv ⟨2, by decide⟩) .invalidPrice

/-- Times are left as they are while no resolution is stored. -/
def roundToWindow (st : Storage) (ts : UInt64) : UInt64 :=
  let resolution := (st.resolution.getD 0).toUInt64
  if resolution = 0 then ts else ts / resolution * resolution

/-- The scan for a submission of the node recorded in the current window. -/
def hasSubmitted (pending : List Submission) (node : Address) (windowStart : UInt64) : Bool :=
  pending.any fun sub => sub.node = node && windowStart ≤ sub.submittedAt

def submitPrice (env : Env) (st : Storage) (node : Address) (asset : Asset) (price : I128) (sourceTs : UInt64) :
    Outcome Error (Receipt Unit) := do
  requireAuth env node
  requireInitialized st
  failIf (node ∉ readNodes st) .notAuthorizedNode
  failIf (asset ∉ readCommodities st) .unknownCommodity
  failIf (price ≤ 0) .invalidPrice
  let now := env.timestamp
  let pending := readPending st asset
  failIf (hasSubmitted pending node (roundToWindow st now)) .duplicateSubmission
  return ⟨(), st.setPending asset (some (pending ++ [⟨node, price, sourceTs, now⟩])),
    [.priceSubmitted asset node price]⟩

/-- Drop the oldest records while the history is longer than the retention limit. -/
def prune (retention : Nat) : List PriceData → List PriceData
  | [] => []
  | oldest :: history => if retention < history.length + 1 then prune retention history else oldest :: history

def finalizePrice (env : Env) (st : Storage) (asset : Asset) : Outcome Error (Receipt PriceData) := do
  requireInitialized st
  let threshold := st.threshold.getD 0
  let pending := readPending st asset
  failIf pending.isEmpty .noPendingSubmissions
  failIf (threshold = 0 ∨ pending.length < threshold.toNat) .thresholdNotMet
  let price ← median pending
  let timestamp := roundToWindow st env.timestamp
  let record : PriceData := ⟨price, timestamp⟩
  let history := readHistory st asset ++ [record]
  let retention := st.retention.getD defaultRetention
  return ⟨record, (st.setHistory asset (some (prune retention.toNat history))).setPending asset none,
    [.priceFinalized asset price timestamp]⟩

/-- Lifetimes are kept beside the storage, which extending them leaves as it is. -/
def extendInstanceTtl (st : Storage) (_asset : Asset) : Outcome Error (Receipt Unit) := do
  requireInitialized st
  return ⟨(), st, []⟩

theorem prune_eq_drop (retention : Nat) (history : List PriceData) :
    prune retention history = history.drop (history.length - retention) := by
  induction history with
  | nil => simp [prune]
  | cons oldest history ih =>
    unfold prune
    split
    · rename_i h
      rw [ih, List.length_cons, Nat.succ_sub (by omega), List.drop_succ_cons]
    · rename_i h
      rw [List.length_cons, Nat.sub_eq_zero_of_le (by omega), List.drop_zero]

@[simp] theorem readPending_setPending (st : Storage) (a b : Asset) (entry : Option (List Submission)) :
    readPending (st.setPending a entry) b = if b = a then entry.getD [] else readPending st b := by
  unfold readPending Storage.setPending
  by_cases h : b = a
  · subst h; simp
  · simp [h]

@[simp] theorem readPending_setHistory (st : Storage) (a b : Asset) (entry : Option (List PriceData)) :
    readPending (st.setHistory a entry) b = readPending st b := rfl

@[simp] theorem readHistory_setPending (st : Storage) (a b : Asset) (entry : Option (List Submission)) :
    readHistory (st.setPending a entry) b = readHistory st b := rfl

@[simp] theorem readHistory_setHistory (st : Storage) (a b : Asset) (entry : Option (List PriceData)) :
    readHistory (st.setHistory a entry) b = if b = a then entry.getD [] else readHistory st b := by
  unfold readHistory Storage.setHistory
  by_cases h : b = a
  · subst h; simp
  · simp [h]

end AgriFeed.Oracle
