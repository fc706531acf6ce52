import AgriFeed.Oracle.Ingest

/-! The read functions offered to consumers of the price feed. They never fail. -/
namespace AgriFeed.Oracle

def base (st : Storage) : Asset := st.baseAsset.getD (.other "")

def assets (st : Storage) : List Asset := readCommodities st

def decimals (st : Storage) : UInt32 := st.decimals.getD 0

def resolution (st : Storage) : UInt32 := st.resolution.getD 0

/-- The first retained record, from the oldest, stamped with the queried window. -/
def price (st : Storage) (asset : Asset) (timestamp : UInt64) : Option PriceData :=
  let history := readHistory st asset
  let target := roundToWindow st timestamp
  history.find? fun record => record.timestamp = target

/-- Up to the given number of most recent records, oldest first. -/
def prices (st : Storage) (asset : Asset) (records : UInt32) : Option (List PriceData) :=
  if records = 0 then none
  else
    let history := readHistory st asset
    if history.isEmpty then none
    else
      let take := if records.toNat < history.length then records.toNat else history.length
      some (history.drop (history.length - take))

def lastprice (st : Storage) (asset : Asset) : Option PriceData := (readHistory st asset).getLast?

/-- The calls of a consumer. -/
inductive Query where
  | base
  | assets
  | decimals
  | resolution
  | price (asset : Asset) (timestamp : UInt64)
  | prices (asset : Asset) (records : UInt32)
  | lastprice (asset : Asset)
  deriving DecidableEq

inductive Answer where
  | asset (asset : Asset)
  | assets (assets : List Asset)
  | number (n : UInt32)
  | record (record : Option PriceData)
  | records (records : Option (List PriceData))
  deriving DecidableEq

def answer (st : Storage) : Query → Answer
  | .base => .asset (base st)
  | .assets => .assets (assets st)
  | .decimals => .number (decimals st)
  | .resolution => .number (resolution st)
  | .price asset timestamp => .record (price st asset timestamp)
  | .prices asset records => .records (prices st asset records)
  | .lastprice asset => .record (lastprice st asset)

/-- Whatever is served is a suffix of the history. -/
theorem prices_suffix {st : Storage} {asset : Asset} {records : UInt32} {rs : List PriceData}
    (h : prices st asset records = some rs) : rs <:+ readHistory st asset := by
  unfold prices at h
  split at h
  · cases h
  · simp only at h
    split at h
    · cases h
    · cases h
      exact List.drop_suffix _ _

end AgriFeed.Oracle
