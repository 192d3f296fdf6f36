import Ydbgo.Storage.RowCodec
import Ydbgo.Storage.Tx

/-! # Tables in the key-value store

All tables of the key-value backend share one key space. The tag of the area,
the name of the table and a NUL each come before the key, so that an area of a
table is a range of keys. A batch of calls buffers its writes in one
transaction, which is applied at the next revision. No call here makes a
secondary index, so the tables have none.
-/

namespace Ydbgo.Storage

open Sql (Value Stdlib)

/-! ### Keys -/

def kvDataTag : UInt8 := 107
def kvRowTag : UInt8 := 114

/-- The tag of an area, a NUL, the table and a NUL. -/
def areaPrefix (tag : UInt8) (table : Bytes) : Bytes := tag :: 0 :: (table ++ [0])

def kvRowPrefix (table : Bytes) : Bytes := areaPrefix kvRowTag table

def kvRowKey (table pk : Bytes) : Bytes := kvRowPrefix table ++ pk

def kvRowBounds (table : Bytes) : Bytes × Bytes :=
  (kvRowPrefix table, CstoreTx.bumpLast (kvRowPrefix table))

def kvDataPrefix (table : Bytes) : Bytes := areaPrefix kvDataTag table

def kvDataKey (table key : Bytes) : Bytes := kvDataPrefix table ++ key

/-- An empty bound is no bound. -/
def kvDataBounds (table start stop : Bytes) : Bytes × Bytes :=
  (if start ≠ [] then kvDataPrefix table ++ start else kvDataPrefix table,
    if stop ≠ [] then kvDataPrefix table ++ stop else CstoreTx.bumpLast (kvDataPrefix table))

/-! ### The transaction -/

namespace KvTx

/-- The own writes first, then the store. -/
def get (t : Tx) (key : Bytes) : Option Bytes :=
  match t.overlay.lookup key with
  | some p => if p.del then none else some p.value
  | none =>
    match t.snap with
    | some snap => snap.get 0 key
    | none => t.store.get 0 key

def rowPut (t : Tx) (table key val : Bytes) : Tx := t.put (kvRowKey table key) val

def rowPutCells (t : Tx) (table key : Bytes) (cells : List Bytes) : Tx :=
  t.put (kvRowKey table key) (joinRow cells)

def rowGet (t : Tx) (table key : Bytes) : Option Bytes := get t (kvRowKey table key)

def rowDelete (t : Tx) (table key : Bytes) : Tx := t.del (kvRowKey table key)

/-- The callbacks of a walk over a range of keys, the prefix cut off. -/
def eachUnder (t : Tx) (pre : Bytes) (bounds : Bytes × Bytes) : List (Bytes × Bytes) :=
  (each t bounds.1 bounds.2).map fun e => (e.1.drop pre.length, e.2)

def rowEach (t : Tx) (table : Bytes) : List (Bytes × Bytes) :=
  eachUnder t (kvRowPrefix table) (kvRowBounds table)

/-- Every key that a walk over the range meets is deleted. -/
def deleteRange (t : Tx) (bounds : Bytes × Bytes) : Tx :=
  ((each t bounds.1 bounds.2).map Prod.fst).foldl Tx.del t

def rowDeleteAll (t : Tx) (table : Bytes) : Tx := deleteRange t (kvRowBounds table)

def dataGet (t : Tx) (table key : Bytes) : Option Bytes := get t (kvDataKey table key)

def dataPut (t : Tx) (table key value : Bytes) : Tx := t.put (kvDataKey table key) value

def dataDelete (t : Tx) (table key : Bytes) : Tx := t.del (kvDataKey table key)

def dataEach (t : Tx) (table start stop : Bytes) : List (Bytes × Bytes) :=
  eachUnder t (kvDataPrefix table) (kvDataBounds table start stop)

def dataDeleteAll (t : Tx) (table : Bytes) : Tx := deleteRange t (kvDataBounds table [] [])

end KvTx

/-! ### The engine -/

/-- The catalog and the key-value store. -/
structure KvEngine where
  tables : SortedMap Bytes Table
  store : Kv.Store

def KvEngine.empty : KvEngine := ⟨.empty, .empty⟩

/-- The same while a batch runs. The catalog is the engine's own. -/
structure KvBatch where
  tables : SortedMap Bytes Table
  tx : Tx

/-- The map that a row of SQL values is given as. -/
def Vals.ofSQL (row : List (Bytes × Value)) : Vals :=
  .ofList (row.map fun w => (w.1, fromSQLValue w.2))

namespace KvBatch

abbrev Exec (α : Type) : Type := Prog KvBatch ExecError α

def getTable (name : Bytes) : Exec Table := do
  let b ← get
  match b.tables.get name with
  | some t => return t
  | none => throw (.notFound name)

/-- `writeTo`. -/
def writeTo (f : Tx → Tx) : Exec Unit := modify fun b => { b with tx := f b.tx }

def createTable (name : Bytes) (cols : List ColInfo) (pkNames : List Bytes) (retention : Int64) :
    Exec Unit := do
  let b ← get
  match b.tables.get name with
  | some _ => throw (.msg (ascii "table " ++ name ++ ascii " already exists"))
  | none =>
    let pk := pkNames.flatMap fun p =>
      (List.range cols.length).filter fun i => (cols[i]?).map ColInfo.name = some p
    modify fun b => { b with tables := b.tables.insert name ⟨cols, pk, .empty, .kv, retention⟩ }

def dropTable (name : Bytes) : Exec Unit := do
  let _ ← getTable name
  writeTo fun tx => KvTx.rowDeleteAll (KvTx.dataDeleteAll tx name) name
  modify fun b => { b with tables := b.tables.erase name }

def notKv (table : Bytes) : ExecError :=
  .msg (ascii "table " ++ table ++ ascii " is not an ENGINE=KV table")

def kvPut (table key value : Bytes) : Exec Unit := do
  let t ← getTable table
  if t.engine ≠ .kv then throw (notKv table)
  else writeTo fun tx => KvTx.dataPut tx table key value

def kvDelete (table key : Bytes) : Exec Unit := do
  let t ← getTable table
  if t.engine ≠ .kv then throw (notKv table)
  else writeTo fun tx => KvTx.dataDelete tx table key

/-- `putRow`. -/
def putRow (name : Bytes) (t : Table) (tx : Tx) (vals : Vals) : Tx :=
  KvTx.rowPutCells tx name (t.schemaKey vals) (t.cellBlobs vals)

/-- `BatchInsert`. -/
def batchInsert (table : Bytes) (rows : List (List (Bytes × Value))) : Exec ℕ := do
  if rows.isEmpty then return 0
  else
    let t ← getTable table
    writeTo fun tx => rows.foldl (fun tx row => putRow table t tx (.ofSQL row)) tx
    return rows.length

/-- The cells of a row of `BatchInsertRows`. -/
def rowBlobs (t : Table) (row : List Value) : List Bytes :=
  t.cols.mapIdx fun i _ =>
    let v := (row[i]?).getD {}
    if v.missing then [] else appendVariant (fromSQLValue v)

/-- `BatchInsertRows`. -/
def batchInsertRows (table : Bytes) (rows : List (List Value)) : Exec ℕ := do
  if rows.isEmpty then return 0
  else
    let t ← getTable table
    writeTo fun tx =>
      rows.foldl (fun tx row => KvTx.rowPutCells tx table (rowKeyOf t row) (rowBlobs t row)) tx
    return rows.length

/-- The row with some values set. -/
def merged (set old : Vals) : Vals := fun name => (set name).or (old name)

/-- `Update`, where a row that cannot be read counts as absent. -/
def updateRow (name : Bytes) (t : Table) (pkKey : Bytes) (set : Vals) (tx : Tx) : Tx :=
  match (KvTx.rowGet tx name pkKey).bind t.decodeBlob with
  | none => tx
  | some old =>
    let newKey := t.schemaKey (merged set old)
    let tx := if newKey ≠ pkKey then KvTx.rowDelete tx name pkKey else tx
    KvTx.rowPut tx name newKey (t.rowBlob (merged set old))

def update (table : Bytes) (pkValues : List Value) (set : List (Bytes × Value)) : Exec Unit := do
  let t ← getTable table
  writeTo (updateRow table t (encodePK pkValues) (.ofSQL set))

def delete (table : Bytes) (pkValues : List Value) : Exec Unit := do
  let _ ← getTable table
  writeTo fun tx => KvTx.rowDelete tx table (encodePK pkValues)

end KvBatch

/-! ### Batches -/

/-- The calls of a batch. -/
inductive KvCall where
  | createTable (name : Bytes) (cols : List ColInfo) (pkNames : List Bytes) (retention : Int64)
  | dropTable (name : Bytes)
  | kvPut (table key value : Bytes)
  | kvDelete (table key : Bytes)
  | batchInsert (table : Bytes) (rows : List (List (Bytes × Value)))
  | batchInsertRows (table : Bytes) (rows : List (List Value))
  | update (table : Bytes) (pkValues : List Value) (set : List (Bytes × Value))
  | delete (table : Bytes) (pkValues : List Value)

/-- The call, without its result. -/
def KvCall.run : KvCall → KvBatch.Exec Unit
  | createTable name cols pkNames retention => KvBatch.createTable name cols pkNames retention
  | dropTable name => KvBatch.dropTable name
  | kvPut table key value => KvBatch.kvPut table key value
  | kvDelete table key => KvBatch.kvDelete table key
  | batchInsert table rows => do
    let _ ← KvBatch.batchInsert table rows
  | batchInsertRows table rows => do
    let _ ← KvBatch.batchInsertRows table rows
  | update table pkValues set => KvBatch.update table pkValues set
  | delete table pkValues => KvBatch.delete table pkValues

/-- The batch after a call, whether or not the call failed. -/
def KvCall.after (call : KvCall) (b : KvBatch) : KvBatch := (call.run.exec b).2

/-- A function given to `UpdateBatch`: the calls it makes, and whether it fails in the end. -/
structure KvUpdate where
  calls : List KvCall
  fails : Bool

def KvEngine.begin_ (e : KvEngine) : KvBatch := ⟨e.tables, Tx.begin e.store⟩

/-- `UpdateBatch`: one transaction, which a failure rolls back. The catalog stays as it is. -/
def KvEngine.updateBatch (e : KvEngine) (u : KvUpdate) : KvEngine :=
  let b := u.calls.foldl (fun b call => call.after b) e.begin_
  if u.fails then { e with tables := b.tables }
  else match b.tx.commit with
    | .ok s => ⟨b.tables, s⟩
    | .error _ => { e with tables := b.tables }

/-! ### Reads between the batches -/

/-- The rows of a scan, up to the first that cannot be read. -/
def scanBlobs (lib : Stdlib) (t : Table) : List (Bytes × Bytes) → List (List Value)
  | [] => []
  | (_, blob) :: rest =>
    match t.decodeBlob blob with
    | none => []
    | some vals => t.rowOf lib vals :: scanBlobs lib t rest

namespace KvEngine

variable (e : KvEngine)

def getTable (name : Bytes) : Except ExecError Table :=
  match e.tables.get name with
  | some t => .ok t
  | none => .error (.notFound name)

/-- A missing key and an empty value read as null. -/
def kvGet (table key : Bytes) : Except ExecError Value := do
  let t ← e.getTable table
  if t.engine ≠ .kv then throw (KvBatch.notKv table)
  else
    let out := (KvTx.dataGet (Tx.begin e.store) table key).getD []
    return if out = [] then Sql.nullValue else Sql.strValue out

def kvScan (table start stop : Bytes) : Except ExecError (List (Bytes × Bytes)) := do
  let t ← e.getTable table
  if t.engine ≠ .kv then throw (KvBatch.notKv table)
  else return KvTx.dataEach (Tx.begin e.store) table start stop

/-- `Scan`. -/
def scan (lib : Stdlib) (table : Bytes) : Except ExecError (List (List Value)) := do
  let t ← e.getTable table
  return scanBlobs lib t (KvTx.rowEach (Tx.begin e.store) table)

end KvEngine

end Ydbgo.Storage
