import Ydbgo.Storage.Engine

/-! # The executor

`Execute` on the statements that go through the log: those that are not reads.
-/

namespace Ydbgo.Sql

open Storage (Exec ExecError EngineKind ColInfo fromSQLType)

structure Result where
  type : Bytes
  affected : ℕ
  deriving DecidableEq, Repr

/-- `isRead`: a statement the leader runs without the log. -/
def Statement.isRead : Statement → Bool
  | .select _ | .kvGet _ _ | .kvScan _ _ _ _ _ => true
  | _ => false

/-- A statement that is shipped through the log. -/
abbrev WriteStmt : Type := { st : Statement // st.isRead = false }

/-- The outcome of an evaluation in a statement. -/
def liftEval {α : Type} (x : Eval α) : Exec α :=
  match x.run with
  | none => throw .panic
  | some (.error e) => throw (.msg e.2)
  | some (.ok a) => return a

/-- `engineOf`. -/
def engineOf (e : Bytes) : Bytes :=
  if e = ascii "kv" then ascii "KV"
  else if e = ascii "cstore" then ascii "CSTORE"
  else if e = ascii "cstore2" then ascii "CSTORE2"
  else ascii "TABLE"

def isColumnarEngine (engine : Bytes) : Bool :=
  engine = ascii "CSTORE" || engine = ascii "CSTORE2"

def pkIndex (schema : TableSchema) : List Bytes :=
  if schema.pk.isEmpty then (schema.columns.filter ColumnDef.asPrimary).map ColumnDef.name
  else schema.pk

def rowContext (schema : TableSchema) (row : List Value) : RowContext :=
  fun name => SortedMap.getEntry name ((schema.columns.map ColumnDef.name).zip row).reverse

/-- The primary key of a row. -/
def pkValues (schema : TableSchema) (ctx : RowContext) : List Value :=
  (pkIndex schema).map (Storage.cell ctx)

def makePrimary (c : ColumnDef) : ColumnDef := { c with asPrimary := true, notNull := true }

/-- The columns with those of the key marked: the named ones, or else the first. -/
def primaryColumns (columns : List ColumnDef) (pk : List Bytes) : List ColumnDef :=
  let cols := columns.map fun c => if c.name ∈ pk then makePrimary c else c
  if cols.any ColumnDef.asPrimary then cols
  else match cols with
    | [] => []
    | c :: cols => makePrimary c :: cols

def execCreateTable (name : Bytes) (columns : List ColumnDef) (pk : List Bytes) (engine : Bytes)
    (retention : Int64) : Exec Result := do
  let cols := primaryColumns columns pk
  Storage.createTable name
    (cols.map fun c => ⟨c.name, fromSQLType c.type, c.notNull⟩)
    ((cols.filter ColumnDef.asPrimary).map ColumnDef.name)
    (EngineKind.ofName (engineOf engine)) retention
  return ⟨ascii "create_table", 1⟩

def isNotFound : ExecError → Bool
  | .notFound _ => true
  | _ => false

def execDropTable (name : Bytes) (ifExists : Bool) : Exec Result :=
  tryCatch
    (do
      Storage.dropTable name
      return ⟨ascii "drop_table", 1⟩)
    fun err =>
      if ifExists && isNotFound err then return ⟨ascii "drop_table", 0⟩ else throw err

/-- The names of the columns an expression refers to. -/
def Expr.idents : Expr → List Bytes
  | .nil | .literal _ => []
  | .ident name => [name]
  | .binary _ left right => left.idents ++ right.idents
  | .unary _ e => e.idents
  | .call _ args => identsOf args
  | .cast e _ => e.idents
where
  identsOf : List Expr → List Bytes
    | [] => []
    | e :: es => e.idents ++ identsOf es

def updateRefColumns (sets : List SetItem) (where_ : Expr) : List Bytes :=
  sets.flatMap (fun item => item.value.idents) ++ where_.idents

variable (lib : Stdlib)

def execInsert (table : Bytes) (columns : List Bytes) (rows : List (List Expr)) :
    Exec Result := do
  let schema ← Storage.getSchema table
  let rows ← liftEval (insertRows lib schema columns rows)
  let affected ← Storage.batchInsert table rows
  return ⟨ascii "insert", affected⟩

/-- The WHERE is true of a row. No WHERE is. -/
def whereTrue (where_ : Expr) (ctx : RowContext) : Eval Bool :=
  if where_ = .nil then return true
  else do
    let v ← check (eval lib ctx where_)
    return boolOf v = some true

/-- The value of an assignment, converted to the type of its column if that has one. -/
def setValue (schema : TableSchema) (ctx : RowContext) (item : SetItem) : Eval Value := do
  let v ← check (eval lib ctx item.value)
  let t := colTypeOf schema item.column
  if t = .null then return v else check (convert lib v t)

def evalSetsCtx (schema : TableSchema) (ctx : RowContext) (sets : List SetItem) :
    Eval (List (Bytes × Value)) :=
  collect (fun item => do
    let v ← setValue lib schema ctx item
    return (item.column, v)) sets

/-- The place of the first column of a name. -/
def colPlace (schema : TableSchema) (name : Bytes) : Option ℕ :=
  schema.columns.findIdx? fun c => c.name = name

def evalSetsIntoRow (schema : TableSchema) (ctx : RowContext) :
    List SetItem → List Value → Eval (List Value)
  | [], row => return row
  | item :: sets, row => do
    let v ← setValue lib schema ctx item
    match colPlace schema item.column with
    | none => evalSetsIntoRow schema ctx sets row
    | some i => evalSetsIntoRow schema ctx sets (row.set i v)

/-- The constant of an assignment: only a literal that converts has one. -/
def constSet (schema : TableSchema) (item : SetItem) : Option (ℕ × Value) :=
  match item.value, colPlace schema item.column with
  | .literal _, some i =>
    match (setValue lib schema (fun _ => none) item).run with
    | some (.ok v) => some (i, v)
    | _ => none
  | _, _ => none

def updateConstSets (schema : TableSchema) (sets : List SetItem) : Option (List (ℕ × Value)) :=
  sets.mapM (constSet lib schema)

def pkEqualBound (a b : PKBound) : Bool :=
  a.pre.length = b.pre.length && (a.pre.zip b.pre).all fun p => p.1.compare lib p.2 == .eq

/-- The key of the point path: the range is exact and both its bounds pin one key. -/
def pointKey : Option PKRange × Bool → Option (List Value)
  | (some ⟨some lo, some up⟩, true) => if pkEqualBound lib lo up then some lo.pre else none
  | _ => none

/-- The loop of `execUpdateScan`. -/
def updateRows (schema : TableSchema) (table : Bytes) (sets : List SetItem) (where_ : Expr) :
    List (List Value) → Exec ℕ
  | [] => return 0
  | row :: rows => do
    let ctx := rowContext schema row
    if ← liftEval (whereTrue lib where_ ctx) then
      let set ← liftEval (evalSetsCtx lib schema ctx sets)
      Storage.update table (pkValues schema ctx) set
      let n ← updateRows schema table sets where_ rows
      return n + 1
    else updateRows schema table sets where_ rows

def execUpdateScan (schema : TableSchema) (table : Bytes) (sets : List SetItem) (where_ : Expr) :
    Exec Result := do
  let rows ← Storage.scan lib table
  let affected ← updateRows lib schema table sets where_ rows
  return ⟨ascii "update", affected⟩

/-- The columns an UPDATE reads: those of the key and those its expressions refer to. -/
def needCols (schema : TableSchema) (sets : List SetItem) (where_ : Expr) : List Bytes :=
  updateRefColumns sets where_ ++ pkIndex schema

/-- A row with what was neither read nor assigned marked as missing. -/
def markMissing (schema : TableSchema) (need : List Bytes) (sets : List SetItem)
    (row : List Value) : List Value :=
  row.mapIdx fun i v =>
    match schema.columns[i]? with
    | some c =>
      if c.name ∈ need ∨ c.name ∈ sets.map SetItem.column then v else missingValue
    | none => v

/-- The loop of `execUpdateColumnar` over the rows it read. -/
def updatedRows (schema : TableSchema) (need : List Bytes) (sets : List SetItem) (where_ : Expr) :
    List (List Value) → Eval (List (List Value))
  | [] => return []
  | row :: rows => do
    let ctx := rowContext schema row
    if ← whereTrue lib where_ ctx then
      let row ← evalSetsIntoRow lib schema ctx sets row
      let rest ← updatedRows schema need sets where_ rows
      return markMissing schema need sets row :: rest
    else updatedRows schema need sets where_ rows

/-- The row-wise part of `execUpdateColumnar`. -/
def rewriteRows (schema : TableSchema) (table : Bytes) (sets : List SetItem) (where_ : Expr)
    (plan : Option PKRange × Bool) : Exec Result := do
  let need := needCols schema sets where_
  let cols := (List.range schema.columns.length).filter fun i =>
    ((schema.columns[i]?).map ColumnDef.name).any (· ∈ need)
  let rows ← Storage.scanColumnsOf lib table cols plan.1
  let updated ←
    liftEval (updatedRows lib schema need sets (if plan.2 then .nil else where_) rows)
  let affected ← Storage.batchInsertAll table updated
  return ⟨ascii "update", affected⟩

def execUpdateColumnar (schema : TableSchema) (table : Bytes) (sets : List SetItem)
    (where_ : Expr) (plan : Option PKRange × Bool) : Exec Result := do
  if sets.any fun item => item.column ∈ pkIndex schema then
    execUpdateScan lib schema table sets where_
  else match plan.2, updateConstSets lib schema sets with
    | true, some consts =>
      match ← Storage.updateColumnConst table consts plan.1 with
      | some n => return ⟨ascii "update", n⟩
      | none => rewriteRows lib schema table sets where_ plan
    | _, _ => rewriteRows lib schema table sets where_ plan

/-- The point path of `execUpdate`. -/
def updatePoint (schema : TableSchema) (table : Bytes) (sets : List SetItem) (pk : List Value) :
    Exec Result := do
  match ← Storage.getRow lib table pk with
  | none => return ⟨ascii "update", 0⟩
  | some row => do
    let set ← liftEval (evalSetsCtx lib schema (rowContext schema row) sets)
    Storage.update table pk set
    return ⟨ascii "update", 1⟩

def execUpdate (table : Bytes) (sets : List SetItem) (where_ : Expr) : Exec Result := do
  let schema ← Storage.getSchema table
  let plan := pkRangeFromWhere lib schema where_
  match pointKey lib plan with
  | some pk => updatePoint lib schema table sets pk
  | none =>
    if isColumnarEngine schema.engine then execUpdateColumnar lib schema table sets where_ plan
    else execUpdateScan lib schema table sets where_

/-- The loop of `execDelete`. -/
def deleteRows (schema : TableSchema) (table : Bytes) (where_ : Expr) :
    List (List Value) → Exec ℕ
  | [] => return 0
  | row :: rows => do
    let ctx := rowContext schema row
    if ← liftEval (whereTrue lib where_ ctx) then
      Storage.delete table (pkValues schema ctx)
      let n ← deleteRows schema table where_ rows
      return n + 1
    else deleteRows schema table where_ rows

def execDeleteScan (schema : TableSchema) (table : Bytes) (where_ : Expr) : Exec Result := do
  let rows ← Storage.scan lib table
  let affected ← deleteRows lib schema table where_ rows
  return ⟨ascii "delete", affected⟩

/-- The range is exact and has a bound. -/
def boundedRange : Option PKRange × Bool → Option PKRange
  | (some r, true) => if r.lower.isSome || r.upper.isSome then some r else none
  | _ => none

def execDelete (table : Bytes) (where_ : Expr) : Exec Result := do
  let schema ← Storage.getSchema table
  match isColumnarEngine schema.engine, boundedRange (pkRangeFromWhere lib schema where_) with
  | true, some r => do
    let affected ← Storage.deleteRange table (some r)
    return ⟨ascii "delete", affected⟩
  | _, _ => execDeleteScan lib schema table where_

/-- `Execute`. -/
def execute (st : WriteStmt) : Exec Result :=
  match st with
  | ⟨.createTable name columns pk _ engine retention, _⟩ =>
    execCreateTable name columns pk engine retention
  | ⟨.dropTable name ifExists, _⟩ => execDropTable name ifExists
  | ⟨.createIndex name table columns ifNotExists, _⟩ => do
    Storage.createIndex lib table name columns ifNotExists
    return ⟨ascii "create_index", 1⟩
  | ⟨.dropIndex name table ifExists, _⟩ => do
    Storage.dropIndex table name ifExists
    return ⟨ascii "drop_index", 1⟩
  | ⟨.insert table columns rows, _⟩ => execInsert lib table columns rows
  | ⟨.update table sets where_, _⟩ => execUpdate lib table sets where_
  | ⟨.delete table where_, _⟩ => execDelete lib table where_
  | ⟨.begin_, _⟩ => return ⟨ascii "begin", 0⟩
  | ⟨.commit, _⟩ => return ⟨ascii "commit", 0⟩
  | ⟨.rollback, _⟩ => return ⟨ascii "rollback", 0⟩
  | ⟨.createDatabase _, _⟩ => return ⟨ascii "create_database", 0⟩
  | ⟨.kvPut table key value, _⟩ => do
    Storage.kvPut table key value
    return ⟨ascii "kv_put", 1⟩
  | ⟨.kvDelete table key, _⟩ => do
    Storage.kvDelete table key
    return ⟨ascii "kv_delete", 1⟩

end Ydbgo.Sql
