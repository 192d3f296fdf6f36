import Ydbgo.Lib.Frames
import Ydbgo.Raft.LogStore
import Ydbgo.Storage.Records

/-! # Snapshots of the engine

A snapshot is a stream of framed records: for every table its definition, its rows and, in the
key-value backend, its raw entries. Restoring it clears the rows of the tables there are, applies
the records, and builds the entries of the indexes again from a scan.
-/

namespace Ydbgo.Storage

open Cursor (manyParser)
open Codec (builderStr builderLen recCreateTable recMutate)

/-! ### Writing -/

def recDropTable : UInt8 := 2

def recKVData : UInt8 := 4

def encodeKVData (table key value : Bytes) : Bytes :=
  [recKVData] ++ (builderStr table ++ (builderStr key ++ builderStr value))

/-- The definition of a table as its record has it. -/
def Table.record (name : Bytes) (t : Table) : Codec.TableRecord where
  name := name
  engine := t.engine.name
  cols := t.cols.map fun c => ⟨c.name, c.typ.toByte, c.notNull⟩
  pk := t.pk.map Int64.ofNat
  indexes := fun n => (t.indexes.get n).map fun ix => ix.cols.map Int64.ofNat
  retention := t.retention

/-- `encodeCreateTable`, which goes through the indexes in the order of their names. -/
def encodeTable (name : Bytes) (t : Table) : Bytes :=
  Codec.encodeCreateTable (t.record name)
    (t.indexes.entries.map fun e => (e.1, e.2.cols.map Int64.ofNat))

/-- The map that `decodeRow` makes of a row's blob. -/
def Table.rowMap (t : Table) (blob : Option (List Cell)) : Option (SortedMap Bytes SqlValue) :=
  (blob.bind decodeCells).map fun vs =>
    ((t.cols.map ColInfo.name).zip vs).foldl (fun m e => m.insert e.1 e.2) .empty

/-- The records of one table, unless a row cannot be read. -/
def marshalTable (name : Bytes) (t : Table) (s : TableStore) : Option (List Bytes) := do
  let rows ← ((TableTx.begin_ s).rowEach t.engine).mapM fun e =>
    (t.rowMap e.2).map (Codec.encodeMutate name e.1)
  let data := if t.engine = .kv then s.data.entries.map fun e => encodeKVData name e.1 e.2 else []
  return encodeTable name t :: (rows ++ data)

def marshalRecords (e : Engine) : Option (List Bytes) :=
  (e.tables.entries.mapM fun t => marshalTable t.1 t.2 (e.stores t.2.engine t.1)).map List.flatten

/-- `MarshalState`. -/
def marshalState (e : Engine) : Option Bytes :=
  (marshalRecords e).map (Frames.stream Raft.checksumIEEE)

/-! ### Reading

The readers refuse types and column numbers that no writer writes.
-/

/-- A record of the stream. -/
inductive Record
  | createTable (name engine : Bytes) (cols : List ColInfo) (pk : List ℕ)
      (indexes : SortedMap Bytes (List ℕ)) (retention : Int64)
  | dropTable (name : Bytes)
  | mutate (table key : Bytes) (values : SortedMap Bytes SqlValue) (isPut : Bool)
  | kvData (table key value : Bytes)
  | other

def readNat : RowReader ℕ := do
  let v ← readVar
  if 0 ≤ v.toInt then return v.toInt.toNat else failure

def readNats : RowReader (List ℕ) := do
  let n ← readVar
  manyParser readNat n.toInt.toNat

def readColInfo : RowReader ColInfo := do
  let name ← readStr
  let typ ← readByte
  let notNull ← readBool
  match ColType.ofByte typ with
  | none => failure
  | some typ => return ⟨name, typ, notNull⟩

def readIndex : RowReader (Bytes × List ℕ) := do
  let name ← readStr
  let cols ← readNats
  return (name, cols)

def fillMap {ν : Type} (es : List (Bytes × ν)) : SortedMap Bytes ν :=
  es.foldl (fun m e => m.insert e.1 e.2) .empty

/-- `unmarshalCreateTable`. -/
def readTable : RowReader Record := do
  let name ← readStr
  let engine ← readStr
  let nc ← readVar
  let cols ← manyParser readColInfo nc.toInt.toNat
  let pk ← readNats
  let ni ← readVar
  let indexes ← manyParser readIndex ni.toInt.toNat
  let retention ← readVar
  return .createTable name engine cols pk (fillMap indexes) retention

def readValue : RowReader (Bytes × SqlValue) := do
  let k ← readStr
  let v ← readVariant
  return (k, v)

/-- `unmarshalMutate`. -/
def readMutation : RowReader Record := do
  let table ← readStr
  let op ← readByte
  let key ← readStr
  let n ← readVar
  let values ← manyParser readValue n.toInt.toNat
  return .mutate table key (fillMap values) (op == 0)

/-- `unmarshalKVData`. -/
def readKVData : RowReader Record := do
  let table ← readStr
  let key ← readStr
  let value ← readStr
  return .kvData table key value

def readRecord : RowReader Record := do
  let b ← readByte
  if b = recCreateTable then readTable
  else if b = recDropTable then do
    let name ← readStr
    return .dropTable name
  else if b = recMutate then readMutation
  else if b = recKVData then readKVData
  else return .other

/-! ### Restoring -/

/-- The backend that `newStoreFor` opens. -/
def EngineKind.named (engine : Bytes) : Option EngineKind :=
  if engine = [] ∨ engine = ascii "TABLE" then some .table
  else if engine = ascii "KV" then some .kv
  else if engine = ascii "CSTORE" then some .cstore
  else if engine = ascii "CSTORE2" then some .cstore2
  else none

/-- An operation on the rows of a table, if it is there. -/
def onTable (name : Bytes) (fn : Table → RowM Unit) : Exec Unit := do
  let b ← get
  match b.tables.get name with
  | none => return ()
  | some t => writeTo name t (fn t)

def Record.apply : Record → Exec Unit
  | .createTable name engine cols pk indexes retention =>
    match EngineKind.named engine with
    | none => throw (.msg (ascii "storage: unknown engine " ++ engine))
    | some kind =>
      modify fun b => b.withTable name
        ⟨cols, pk, indexes.map fun cols => ⟨cols, fun _ => []⟩, kind, retention⟩
  | .dropTable name => do
    let b ← get
    match b.tables.get name with
    | none => return ()
    | some _ => Storage.dropTable name
  | .mutate table key values isPut => onTable table fun t =>
      modifyTx fun tx =>
        if isPut then tx.put t.engine true key (t.encodeRowCells values.get)
        else tx.delete t.engine key
  | .kvData table key value => onTable table fun t =>
      if t.engine = .kv then modifyTx fun tx => { tx with data := tx.data.insert key value }
      else return ()
  | .other => return ()

def applyRecord (payload : Bytes) : Exec Unit :=
  if payload = [] then return ()
  else
    match readRecord payload with
    | none => throw shortReader
    | some (r, _) => r.apply

/-- `applyFramed`, for at most as many frames as the first argument says. -/
def applyFramed : ℕ → Bytes → Exec Unit
  | 0, _ => return ()
  | n + 1, data =>
    match Frames.front Raft.checksumIEEE data with
    | .stop => return ()
    | .mismatch => throw (.msg (ascii "snapshot: crc mismatch"))
    | .payload p rest => do
      applyRecord p
      applyFramed n rest

/-- The rows of a scan added to the indexes, up to one that cannot be read. -/
def rebuildRows (t : Table) : List (Bytes × Option (List Cell)) → RowM Unit
  | [] => return ()
  | (k, blob) :: rest =>
    match t.decodeRow blob with
    | none => throw shortReader
    | some vals => do
      modifyIndexes (addRowIndexes t vals k)
      rebuildRows t rest

def rebuildTable (name : Bytes) (t : Table) : Exec Unit :=
  if t.indexes.entries.isEmpty then return ()
  else
    writeTo name t do
      modifyIndexes fun ixs => ixs.map fun ix => ⟨ix.cols, fun _ => []⟩
      let l ← get
      rebuildRows t (l.tx.rowEach t.engine)

def rebuildIndexes : Exec Unit := do
  let b ← get
  b.tables.entries.forM fun e => rebuildTable e.1 e.2

def Batch.clear (b : Batch) (name : Bytes) (t : Table) : Batch :=
  { b with
    defs := fun n => if n = name then none else b.defs n
    txs := fun kind n =>
      if kind = t.engine ∧ n = name then (b.txs kind n).deleteAll kind else b.txs kind n }

/-- The rows and definitions of the tables there are go, and so does the catalog. -/
def clearTables : Exec Unit := do
  let b ← get
  b.tables.entries.forM fun e => modify fun b => b.clear e.1 e.2
  modify fun b => { b with tables := .empty }

/-- `ReplaceState`. -/
def replaceState (data : Bytes) (e : Engine) : Except ExecError Unit × Engine :=
  updateBatch (do
    clearTables
    applyFramed data.length data
    rebuildIndexes) e

end Ydbgo.Storage
