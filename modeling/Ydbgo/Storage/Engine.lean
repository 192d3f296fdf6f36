import Ydbgo.Lib.Prog
import Ydbgo.Storage.PkRange
import Ydbgo.Storage.TableTx

/-! # The storage engine

The catalog with its secondary indexes, and the operations of `ops.go`,
`index.go` and `kvops.go` inside the batch of `UpdateBatch`. An operation that
fails leaves behind what it did so far. The stores keep the persisted table
definitions and, for each backend and table, its rows.
-/

namespace Ydbgo.Storage

open Sql (Value SqlType Time Stdlib PKRange TableSchema ColumnDef)

def fromSQLType : SqlType → ColType
  | .int => .int
  | .float => .float
  | .string | .null | .other _ => .string
  | .bool => .bool
  | .timestamp => .timestamp

def toSQLType : ColType → SqlType
  | .int => .int
  | .float => .float
  | .string => .string
  | .bool => .bool
  | .timestamp => .timestamp

/-- `time.UnixMicro`, in the local zone. -/
def unixMicroTime (lib : Stdlib) (i : Int64) : Time :=
  { nanos := i.toInt * 1000, zone := (lib.unix (Int64.ofInt (i.toInt / 1000000))).zone }

def toSQLValue (lib : Stdlib) (v : SqlValue) : Value :=
  if v.null then Sql.nullValue
  else match v.typ with
    | .int => Sql.intValue v.i
    | .float => Sql.floatValue v.f
    | .string => Sql.strValue v.s
    | .bool => Sql.boolValue v.b
    | .timestamp => Sql.timestampValue (unixMicroTime lib v.i)

/-- The name of a backend. -/
def EngineKind.name : EngineKind → Bytes
  | table => ascii "TABLE"
  | kv => ascii "KV"
  | cstore => ascii "CSTORE"
  | cstore2 => ascii "CSTORE2"

/-- `engineOf`. -/
def EngineKind.ofName (e : Bytes) : EngineKind :=
  if e = ascii "KV" then kv
  else if e = ascii "CSTORE" then cstore
  else if e = ascii "CSTORE2" then cstore2
  else table

structure ColInfo where
  name : Bytes
  typ : ColType
  notNull : Bool
  deriving DecidableEq

/-- A secondary index. Its entries are the keys of the rows with each encoded value. -/
structure Index where
  cols : List ℕ
  entries : Bytes → List Bytes

/-- A table. Its name is its key in the catalog. -/
structure Table where
  cols : List ColInfo
  pk : List ℕ
  indexes : SortedMap Bytes Index
  engine : EngineKind
  retention : Int64

/-- The persisted definition of a table: all but the index entries. -/
structure TableDef where
  engine : EngineKind
  cols : List ColInfo
  pk : List ℕ
  indexes : SortedMap Bytes (List ℕ)
  retention : Int64

/-- `encodeCreateTable`. -/
def Table.def_ (t : Table) : TableDef :=
  ⟨t.engine, t.cols, t.pk, t.indexes.map Index.cols, t.retention⟩

inductive ExecError where
  | msg (text : Bytes)
  | notFound (table : Bytes)
  /-- An index out of range while a statement runs. -/
  | panic
  deriving DecidableEq, Repr

/-- The committed state of the engine. -/
structure Engine where
  defs : Bytes → Option TableDef
  tables : SortedMap Bytes Table
  stores : EngineKind → Bytes → TableStore

/-- The engine while a batch runs. The catalog is the engine's own. -/
structure Batch where
  defs : Bytes → Option TableDef
  tables : SortedMap Bytes Table
  txs : EngineKind → Bytes → TableTx

def Engine.empty : Engine := ⟨fun _ => none, .empty, fun _ _ => .empty⟩

def Engine.begin_ (e : Engine) : Batch :=
  ⟨e.defs, e.tables, fun kind name => .begin_ (e.stores kind name)⟩

def Batch.commit (b : Batch) : Engine :=
  ⟨b.defs, b.tables, fun kind name => (b.txs kind name).commit⟩

abbrev Exec (α : Type) : Type := Prog Batch ExecError α

/-- `UpdateBatch`: one transaction, which a failure rolls back. -/
def updateBatch {α : Type} (fn : Exec α) (e : Engine) : Except ExecError α × Engine :=
  match fn.exec e.begin_ with
  | (.ok a, b) => (.ok a, b.commit)
  | (.error err, b) => (.error err, { e with tables := b.tables })

theorem updateBatch_of_ok {α : Type} {fn : Exec α} {e : Engine} {a : α} {b : Batch}
    (h : fn.exec e.begin_ = (.ok a, b)) : updateBatch fn e = (.ok a, b.commit) := by
  rw [updateBatch, h]

/-- Rows, key-value entries, counts and persisted definitions are rolled back, whatever the batch
did. -/
theorem updateBatch_of_error {α : Type} {fn : Exec α} {e : Engine} {err : ExecError} {b : Batch}
    (h : fn.exec e.begin_ = (.error err, b)) :
    updateBatch fn e = (.error err, { e with tables := b.tables }) := by
  rw [updateBatch, h]

/-! ### The rows of one table -/

/-- A `map[string]sqlValue`. -/
abbrev Vals : Type := Bytes → Option SqlValue

/-- The map that a list of writes to it builds. -/
def Vals.ofList (writes : List (Bytes × SqlValue)) : Vals :=
  fun name => SortedMap.getEntry name writes.reverse

/-- The value of a column, zero if the map has none. -/
def Vals.cell (vals : Vals) (name : Bytes) : SqlValue := (vals name).getD {}

namespace Table

variable (t : Table)

def keyNames : List Bytes := t.pk.filterMap fun p => (t.cols[p]?).map ColInfo.name

/-- `schemaKey`. -/
def schemaKey (vals : Vals) : Bytes := encodeKey (t.keyNames.map vals.cell)

/-- `encodeRowCells`, the cells of `encodeRow`. -/
def encodeRowCells (vals : Vals) : List Cell := t.cols.map fun c => encodeVariant (vals.cell c.name)

/-- `decodeRow`. The nil blob and a blob with a missing cell fail. -/
def decodeRow (blob : Option (List Cell)) : Option Vals :=
  (blob.bind decodeCells).map fun vs => .ofList ((t.cols.map ColInfo.name).zip vs)

/-- The values of a row in the order of the columns. -/
def rowOf (lib : Stdlib) (vals : Vals) : List Value :=
  t.cols.map fun c => toSQLValue lib (vals.cell c.name)

/-- The first column of that name. -/
def colNamed (name : Bytes) : Option ℕ := t.cols.findIdx? fun c => c.name = name

end Table

/-! ### Secondary indexes -/

def indexVal (v : SqlValue) : Bytes :=
  match v.typ with
  | .int | .timestamp => 0 :: sortableInt v.i
  | .float => 1 :: beBytes 8 (mathFloatToSortable v.f).toNat
  | .string => 2 :: (v.s ++ [0])
  | .bool => [3, if v.b then 1 else 0]

/-- `indexValForCols`: no value if a column is not there or null. -/
def indexValForCols (vals : Vals) (t : Table) (ix : Index) : Option Bytes :=
  let encs := ix.cols.mapM fun c =>
    (t.cols[c]?.bind fun col => vals col.name).bind fun v =>
      if v.null then none else some (indexVal v)
  (encs.map List.flatten).filter fun enc => !enc.isEmpty

/-- The keys with the first `pk` overwritten by the last key, which goes. -/
def swapRemove (pk : Bytes) (pks : List Bytes) : List Bytes :=
  match pks.idxOf? pk, pks.getLast? with
  | some i, some last => (pks.set i last).dropLast
  | _, _ => pks

def Index.update (ix : Index) (enc : Bytes) (f : List Bytes → List Bytes) : Index :=
  { ix with entries := fun e => if e = enc then f (ix.entries e) else ix.entries e }

/-- Every index with a change at the value of a row. -/
def Table.updateIndexes (t : Table) (vals : Vals) (f : List Bytes → List Bytes)
    (ixs : SortedMap Bytes Index) : SortedMap Bytes Index :=
  ixs.map fun ix =>
    match indexValForCols vals t ix with
    | none => ix
    | some enc => ix.update enc f

def addRowIndexes (t : Table) (vals : Vals) (pk : Bytes) :
    SortedMap Bytes Index → SortedMap Bytes Index :=
  t.updateIndexes vals fun pks => pks ++ [pk]

def removeRowIndexes (t : Table) (vals : Vals) (pk : Bytes) :
    SortedMap Bytes Index → SortedMap Bytes Index :=
  t.updateIndexes vals (swapRemove pk)

/-! ### Changes of one table -/

/-- What an operation on the rows of a table changes. -/
structure Live where
  indexes : SortedMap Bytes Index
  tx : TableTx

abbrev RowM (α : Type) : Type := Prog Live ExecError α

/-- The error of the row reader on a blob that ends early. -/
def shortReader : ExecError := .msg (ascii "reader: short reader")

def modifyTx (f : TableTx → TableTx) : RowM Unit := modify fun l => { l with tx := f l.tx }

def modifyIndexes (f : SortedMap Bytes Index → SortedMap Bytes Index) : RowM Unit :=
  modify fun l => { l with indexes := f l.indexes }

variable (t : Table)

/-- The entries of the row at a key, if the table has indexes, are removed. -/
def dropOldIndexes (key : Bytes) : RowM (Option Vals) := do
  let l ← get
  if l.indexes.entries.isEmpty then return none
  else match l.tx.get t.engine key with
    | none => return none
    | some old =>
      match t.decodeRow (some old) with
      | none => throw shortReader
      | some ov => do
        modifyIndexes (removeRowIndexes t ov key)
        return some ov

def putRow (vals : Vals) : RowM Unit := do
  let key := t.schemaKey vals
  let _ ← dropOldIndexes t key
  modifyTx fun tx => tx.put t.engine true key (t.encodeRowCells vals)
  modifyIndexes (addRowIndexes t vals key)

/-- The cells of a row of `BatchInsertRows`. -/
def rowCells (row : List Value) : List Cell :=
  t.cols.mapIdx fun i _ =>
    let v := (row[i]?).getD {}
    if v.missing then none else encodeVariant (fromSQLValue v)

/-- The values that the row of `BatchInsertRows` is indexed under. -/
def rowVals (ov : Option Vals) (row : List Value) : Vals :=
  .ofList (t.cols.mapIdx fun i c =>
    let v := (row[i]?).getD {}
    match v.missing, ov with
    | true, some ov => (c.name, ov.cell c.name)
    | _, _ => (c.name, fromSQLValue v))

/-- `encodeKeyInto` of the key columns of a row. -/
def rowKeyOf (row : List Value) : Bytes :=
  encodeKey (t.pk.map fun p => fromSQLValue ((row[p]?).getD {}))

/-- The loop of `BatchInsertRows`. The old row `ov` stays from an earlier turn. -/
def batchInsertRows : Option Vals → List (List Value) → RowM Unit
  | _, [] => return ()
  | ov, row :: rows => do
    let key := rowKeyOf t row
    let old ← dropOldIndexes t key
    let ov := old.or ov
    modifyTx fun tx => tx.put t.engine false key (rowCells t row)
    modifyIndexes (addRowIndexes t (rowVals t ov row) key)
    batchInsertRows ov rows

/-- `Update`, where a row that cannot be read counts as absent. -/
def updateRow (pkKey : Bytes) (set : Vals) : RowM Unit := do
  let l ← get
  match (l.tx.get t.engine pkKey).bind fun old => t.decodeRow (some old) with
  | none => return ()
  | some old => do
    let merged : Vals := fun name => (set name).or (old name)
    let newKey := t.schemaKey merged
    modifyIndexes (removeRowIndexes t old pkKey)
    if newKey ≠ pkKey then modifyTx fun tx => tx.delete t.engine pkKey
    modifyTx fun tx => tx.put t.engine true newKey (t.encodeRowCells merged)
    modifyIndexes (addRowIndexes t merged newKey)

/-- `Delete`. -/
def deleteRow (pkKey : Bytes) : RowM Unit := do
  let _ ← dropOldIndexes t pkKey
  modifyTx fun tx => tx.delete t.engine pkKey

/-- The loop of `DeleteRange`. -/
def deleteRows (pks : List Bytes) : RowM Unit := pks.forM (deleteRow t)

/-- The rows of a scan, up to the first that cannot be read. -/
def scanRows (lib : Stdlib) : List (Bytes × Option (List Cell)) → List (List Value)
  | [] => []
  | (_, blob) :: rest =>
    match t.decodeRow blob with
    | none => []
    | some vals => t.rowOf lib vals :: scanRows lib rest

/-- The entries that the rows of a scan add to an index. -/
def backfill (ix : Index) : List (Bytes × Option (List Cell)) → Option Index
  | [] => some ix
  | (k, blob) :: rest =>
    match t.decodeRow blob with
    | none => none
    | some vals =>
      match indexValForCols vals t ix with
      | none => backfill ix rest
      | some enc => backfill (ix.update enc fun pks => pks ++ [k]) rest

/-- `pointRangeKey`: the bounds are a key and the key with a guard byte. -/
def pointRangeKey (lo hi : Option Bytes) : Option Bytes :=
  match lo, hi with
  | some lo, some hi => if lo ≠ [] ∧ hi = lo ++ [0xff] then some lo else none
  | _, _ => none

/-- A row of `ScanColumns`: the wanted columns of the row at a key, the others null. -/
def columnsOf (tx : TableTx) (need : ℕ → Bool) (cellAt : Cell → Value)
    (key : Bytes) : List Value :=
  t.cols.mapIdx fun i _ => if need i then cellAt (tx.colCell i key) else Sql.nullValue

/-- `ScanColumns` on a columnar table. A range of one key reads the cells at that key, and gives a
row even if none is there. -/
def scanColumns (lib : Stdlib) (tx : TableTx) (need : List ℕ) (r : Option PKRange) :
    List (List Value) :=
  let (lo, hi) := pkRangeBytes r
  match pointRangeKey lo hi with
  | some pk =>
    [columnsOf t tx (· ∈ need) (fun c => (c.map (toSQLValue lib)).getD Sql.nullValue) pk]
  | none =>
    if need.isEmpty then []
    else (tx.keysRange t.engine lo hi).map
      (columnsOf t tx (· ∈ need) fun c => toSQLValue lib (variant c))

/-! ### The operations of the engine -/

/-- `getTable`. -/
def getTable (name : Bytes) : Exec Table := do
  let b ← get
  match b.tables.get name with
  | some t => return t
  | none => throw (.notFound name)

theorem exec_getTable (name : Bytes) (b : Batch) :
    (getTable name).exec b = match b.tables.get name with
      | some t => (.ok t, b)
      | none => (.error (.notFound name), b) := by
  rw [getTable, Prog.exec_bind_ok (Prog.exec_get b)]
  cases b.tables.get name <;> rfl

def Batch.tx (b : Batch) (name : Bytes) (t : Table) : TableTx := b.txs t.engine name

/-- The batch with what an operation on the rows of the table `name` left. -/
def Batch.withLive (b : Batch) (name : Bytes) (t : Table) (l : Live) : Batch :=
  { b with
    tables := b.tables.insert name { t with indexes := l.indexes }
    txs := fun kind n => if kind = t.engine ∧ n = name then l.tx else b.txs kind n }

/-- `writeTo` of the table's own store. -/
def writeTo {α : Type} (name : Bytes) (t : Table) (fn : RowM α) : Exec α := fun b =>
  let (r, l) := fn.exec ⟨t.indexes, b.tx name t⟩
  (r, b.withLive name t l)

/-- `CreateTable` on a schema whose engine has its canonical name. -/
def createTable (name : Bytes) (cols : List ColInfo) (pkNames : List Bytes) (engine : EngineKind)
    (retention : Int64) : Exec Unit := do
  let b ← get
  match b.tables.get name with
  | some _ => throw (.msg (ascii "table " ++ name ++ ascii " already exists"))
  | none =>
    let pk := pkNames.flatMap fun p =>
      (List.range cols.length).filter fun i => (cols[i]?).map ColInfo.name = some p
    let t : Table := ⟨cols, pk, .empty, engine, retention⟩
    modify fun b =>
      { b with
        defs := fun n => if n = name then some t.def_ else b.defs n
        tables := b.tables.insert name t }

/-- `DropTable`. -/
def dropTable (name : Bytes) : Exec Unit := do
  let t ← getTable name
  let clear (tx : TableTx) : TableTx :=
    (if t.engine = .kv then { tx with data := .empty } else tx).deleteAll t.engine
  modify fun b =>
    { defs := fun n => if n = name then none else b.defs n
      tables := b.tables.erase name
      txs := fun kind n =>
        if kind = t.engine ∧ n = name then clear (b.txs kind n) else b.txs kind n }

def Batch.withTable (b : Batch) (name : Bytes) (t : Table) : Batch :=
  { b with
    defs := fun n => if n = name then some t.def_ else b.defs n
    tables := b.tables.insert name t }

/-- `CreateIndex`. -/
def createIndex (lib : Stdlib) (table name : Bytes) (cols : List Bytes) (ifNotExists : Bool) :
    Exec Unit := do
  let t ← getTable table
  match t.indexes.get name, cols with
  | some _, _ =>
    if ifNotExists then return ()
    else throw (.msg (ascii "index " ++ name ++ ascii " already exists on table " ++ table))
  | none, [] => throw (.msg (ascii "index " ++ name ++ ascii " needs at least one column"))
  | none, _ :: _ :: _ =>
    throw (.msg (ascii "index " ++ name ++
      ascii ": composite indexes are not supported yet (use a single column)"))
  | none, [c] =>
    match t.colNamed c with
    | none =>
      throw (.msg (ascii "index column " ++ lib.quote c ++ ascii " not found in table " ++ table))
    | some i =>
      let b ← get
      match backfill t ⟨[i], fun _ => []⟩ ((b.tx table t).rowEach t.engine) with
      | none => throw shortReader
      | some ix =>
        modify fun b => b.withTable table { t with indexes := t.indexes.insert name ix }

/-- `DropIndex`. -/
def dropIndex (table name : Bytes) (ifExists : Bool) : Exec Unit := do
  let t ← getTable table
  match t.indexes.get name with
  | none =>
    if ifExists then return ()
    else throw (.msg (ascii "index " ++ name ++ ascii " not found on table " ++ table))
  | some _ => modify fun b => b.withTable table { t with indexes := t.indexes.erase name }

/-- The schema of a table. The columns have no defaults. -/
def Table.schema (t : Table) (name : Bytes) : TableSchema where
  name := name
  columns := t.cols.mapIdx fun i c =>
    { name := c.name, type := toSQLType c.typ, notNull := c.notNull, default := .nil,
      asPrimary := i ∈ t.pk }
  pk := t.keyNames
  engine := t.engine.name

/-- `GetSchema`. -/
def getSchema (name : Bytes) : Exec TableSchema := do
  let t ← getTable name
  return t.schema name

theorem exec_getSchema (name : Bytes) (b : Batch) :
    (getSchema name).exec b = match b.tables.get name with
      | some t => (.ok (t.schema name), b)
      | none => (.error (.notFound name), b) := by
  rw [getSchema, Prog.exec_bind, exec_getTable]
  cases b.tables.get name <;> rfl

/-- `BatchInsert`. -/
def batchInsert (table : Bytes) (rows : List (List (Bytes × Value))) : Exec ℕ := do
  if rows.isEmpty then return 0
  else
    let t ← getTable table
    writeTo table t (rows.forM fun row =>
      putRow t (.ofList (row.map fun w => (w.1, fromSQLValue w.2))))
    return rows.length

/-- `BatchInsertRows`. -/
def batchInsertAll (table : Bytes) (rows : List (List Value)) : Exec ℕ := do
  if rows.isEmpty then return 0
  else
    let t ← getTable table
    writeTo table t (batchInsertRows t none rows)
    return rows.length

/-- `UpdateColumnConst`, which gives no count for a table it does not handle. -/
def updateColumnConst (table : Bytes) (consts : List (ℕ × Value)) (r : Option PKRange) :
    Exec (Option ℕ) := do
  if consts.isEmpty then return none
  else
    let t ← getTable table
    match t.engine, t.indexes.entries, t.pk with
    | .cstore2, [], [pkCol] =>
      if (t.cols[pkCol]?).map ColInfo.typ ≠ some .int ∨ pkCol ∈ consts.map Prod.fst then
        return none
      else
        let cells : List Cell := t.cols.mapIdx fun i _ =>
          (SortedMap.getEntry i consts.reverse).bind fun v => encodeVariant (fromSQLValue v)
        let (lo, hi) := pkRangeBytes r
        writeTo table t do
          let l ← get
          let (tx, n) := l.tx.updateConstRange cells lo hi
          modifyTx fun _ => tx
          return some n
    | _, _, _ => return none

/-- `Update`. -/
def update (table : Bytes) (pkValues : List Value) (set : List (Bytes × Value)) : Exec Unit := do
  let t ← getTable table
  writeTo table t
    (updateRow t (encodePK pkValues) (.ofList (set.map fun w => (w.1, fromSQLValue w.2))))

/-- `Delete`. -/
def delete (table : Bytes) (pkValues : List Value) : Exec Unit := do
  let t ← getTable table
  writeTo table t (deleteRow t (encodePK pkValues))

/-- `Get`. -/
def getRow (lib : Stdlib) (table : Bytes) (pkValues : List Value) : Exec (Option (List Value)) := do
  let t ← getTable table
  let b ← get
  return (((b.tx table t).get t.engine (encodePK pkValues)).bind fun cells =>
    t.decodeRow (some cells)).map (t.rowOf lib)

/-- `DeleteRange`. -/
def deleteRange (table : Bytes) (r : Option PKRange) : Exec ℕ := do
  let t ← getTable table
  if !t.engine.isColumnar then throw (.msg (ascii "range delete requires a columnar table"))
  else
    let b ← get
    let (lo, hi) := pkRangeBytes r
    let pks := (b.tx table t).keysRange t.engine lo hi
    writeTo table t (deleteRows t pks)
    return pks.length

/-- `Scan`, whose errors end the scan. -/
def scan (lib : Stdlib) (table : Bytes) : Exec (List (List Value)) := do
  let t ← getTable table
  let b ← get
  return scanRows t lib ((b.tx table t).rowEach t.engine)

/-- `ScanColumns`. -/
def scanColumnsOf (lib : Stdlib) (table : Bytes) (need : List ℕ) (r : Option PKRange) :
    Exec (List (List Value)) := do
  let t ← getTable table
  if !t.engine.isColumnar then
    throw (.msg (ascii "table " ++ table ++ ascii " is not a CSTORE table"))
  else
    let b ← get
    return scanColumns t lib (b.tx table t) need r

def modifyData (table : Bytes) (f : SortedMap Bytes Bytes → SortedMap Bytes Bytes) :
    Exec Unit := do
  let t ← getTable table
  if t.engine ≠ .kv then
    throw (.msg (ascii "table " ++ table ++ ascii " is not an ENGINE=KV table"))
  else writeTo table t (modifyTx fun tx => { tx with data := f tx.data })

/-- `KVPut`. -/
def kvPut (table key value : Bytes) : Exec Unit := modifyData table fun m => m.insert key value

/-- `KVDelete`. -/
def kvDelete (table key : Bytes) : Exec Unit := modifyData table fun m => m.erase key

end Ydbgo.Storage
