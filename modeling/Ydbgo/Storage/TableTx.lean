import Ydbgo.Lib.SortedMap
import Ydbgo.Storage.PkCodec

/-! # The rows of a table in a transaction

The four backends of a table, as the transaction that a batch of statements shares
sees it. A stored cell is given by the value it encodes. The key-value backends
list a key for every time it became live, also after it is deleted again; the
granule backend takes the cells that a write leaves out from what is committed.
-/

namespace Ydbgo.Storage

/-- The backend of a table. -/
inductive EngineKind where
  | table
  | kv
  | cstore
  | cstore2
  deriving DecidableEq, Repr

/-- `IsColumnarEngine`. -/
def EngineKind.isColumnar : EngineKind → Bool
  | cstore | cstore2 => true
  | table | kv => false

/-- The value in a cell's blob. The empty blob is that of a cell that was not written. -/
abbrev Cell : Type := Option SqlValue

/-- `appendVariant`, which has no byte for a missing value. -/
def encodeVariant (v : SqlValue) : Cell := some { v with missing := false }

/-- `makeReader(cell).Variant()`, which reads zeros off the empty blob. -/
def variant (c : Cell) : SqlValue := c.getD {}

/-- The values of a row's blob. Reading fails when a cell is missing. -/
def decodeCells (cells : List Cell) : Option (List SqlValue) := cells.mapM id

/-- `fillEmptyCells`. -/
def fillCells (dst src : List Cell) : List Cell := dst.mapIdx fun i c => c.or (src[i]?.join)

/-- A table's part of its backend. -/
structure TableStore where
  rows : SortedMap Bytes (List Cell)
  /-- The raw entries of a KV table. -/
  data : SortedMap Bytes Bytes
  /-- The live row count of a columnar table. -/
  count : ℤ

def TableStore.empty : TableStore := ⟨.empty, .empty, 0⟩

/-- The same in a transaction. -/
structure TableTx where
  /-- The rows committed before, if the transaction did not clear the table. -/
  base : SortedMap Bytes (List Cell)
  /-- The rows with the buffered writes. -/
  view : SortedMap Bytes (List Cell)
  /-- `ordered` in the scans of the key-value backends. -/
  listed : List Bytes
  data : SortedMap Bytes Bytes
  count : ℤ

namespace TableTx

def begin_ (s : TableStore) : TableTx := ⟨s.rows, s.rows, s.rows.keys, s.data, s.count⟩

def commit (t : TableTx) : TableStore := ⟨t.view, t.data, t.count⟩

/-- The cells that a write of some cells leaves in the row. -/
def written (kind : EngineKind) (t : TableTx) (key : Bytes) (cells : List Cell) : List Cell :=
  if kind = .cstore2 then fillCells cells ((t.base.get key).getD []) else cells

/-- `rowPutCells`, or `rowPutCellsNoCount` unless `count`. -/
def put (kind : EngineKind) (count : Bool) (t : TableTx) (key : Bytes) (cells : List Cell) :
    TableTx :=
  let live := (t.view.get key).isSome
  { t with
    view := t.view.insert key (t.written kind key cells)
    listed := if live then t.listed else t.listed.orderedInsert (· ≤ ·) key
    count := if kind.isColumnar && count && !live then t.count + 1 else t.count }

/-- `rowDelete`. -/
def delete (kind : EngineKind) (t : TableTx) (key : Bytes) : TableTx :=
  { t with
    view := t.view.erase key
    count := if kind.isColumnar && (t.view.get key).isSome then t.count - 1 else t.count }

/-- `rowDeleteAll`. -/
def deleteAll (kind : EngineKind) (t : TableTx) : TableTx :=
  match kind with
  | .table => { t with view := .empty }
  | .kv | .cstore => t.listed.foldl (delete kind) t
  | .cstore2 => { t with base := .empty, view := .empty, count := 0 }

/-- `rowGet`: the blob of a row. A CSTORE row with a missing cell counts as deleted. -/
def get (kind : EngineKind) (t : TableTx) (key : Bytes) : Option (List Cell) :=
  match kind with
  | .cstore => (t.view.get key).filter fun cells => cells.all Option.isSome
  | _ => t.view.get key

/-- The keys that a walk over the rows or a column meets. -/
def keys (kind : EngineKind) (t : TableTx) : List Bytes :=
  match kind with
  | .kv | .cstore => t.listed
  | .table | .cstore2 => t.view.keys

/-- `rowEach`: the keys and blobs it calls back with, where `none` is the nil blob. -/
def rowEach (kind : EngineKind) (t : TableTx) : List (Bytes × Option (List Cell)) :=
  match kind with
  | .cstore => (t.keys kind).filterMap fun k => (t.get kind k).map fun cells => (k, some cells)
  | _ => (t.keys kind).map fun k => (k, t.get kind k)

/-- The window of a scan. An empty bound is no bound to the CSTORE backend. -/
def inBounds (kind : EngineKind) (lo hi : Option Bytes) (k : Bytes) : Bool :=
  (lo.all fun l => decide (l ≤ k)) &&
    hi.all fun h => decide (k < h) || (decide (kind = .cstore) && h.isEmpty)

/-- `colRowKeysRange`. -/
def keysRange (kind : EngineKind) (t : TableTx) (lo hi : Option Bytes) : List Bytes :=
  (t.keys kind).filter (inBounds kind lo hi)

/-- `colCell`. -/
def colCell (t : TableTx) (col : ℕ) (key : Bytes) : Cell :=
  (t.view.get key).bind fun cells => cells[col]?.join

/-- `colEachRange`: the cells of a column in a range of keys. -/
def colEachRange (kind : EngineKind) (t : TableTx) (col : ℕ) (lo hi : Option Bytes) : List Cell :=
  (t.keysRange kind lo hi).map (t.colCell col)

/-- `updateConstRange` of the granule backend. -/
def updateConstRange (t : TableTx) (cells : List Cell) (lo hi : Option Bytes) : TableTx × ℕ :=
  let pks := t.keysRange .cstore2 lo hi
  (pks.foldl (fun t pk => t.put .cstore2 false pk cells) t, pks.length)

end TableTx

end Ydbgo.Storage
