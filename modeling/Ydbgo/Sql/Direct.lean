import Ydbgo.Sql.Exec

/-! # The executor outside a batch

INSERT, UPDATE and DELETE over an engine that is reached by single calls. Over
the engine of a batch this is the executor; on the engine itself every call is
a transaction of its own.
-/

namespace Ydbgo.Sql

open Storage (Exec ExecError Engine updateBatch)

/-- A statement that changes rows. -/
inductive RowStmt where
  | insert (table : Bytes) (columns : List Bytes) (rows : List (List Expr))
  | update (table : Bytes) (sets : List SetItem) (where_ : Expr)
  | delete (table : Bytes) (where_ : Expr)

def RowStmt.table : RowStmt → Bytes
  | insert table _ _ | update table _ _ | delete table _ => table

def RowStmt.toStmt : RowStmt → WriteStmt
  | insert table columns rows => ⟨.insert table columns rows, rfl⟩
  | update table sets where_ => ⟨.update table sets where_, rfl⟩
  | delete table where_ => ⟨.delete table where_, rfl⟩

namespace Calls

section

variable {σ : Type} (call : ∀ {α : Type}, Exec α → Prog σ ExecError α)

/-- The outcome of an evaluation in a statement. -/
def liftEval {α : Type} (x : Eval α) : Prog σ ExecError α :=
  match x.run with
  | none => throw .panic
  | some (.error e) => throw (.msg e.2)
  | some (.ok a) => return a

variable (lib : Stdlib)

def execInsert (table : Bytes) (columns : List Bytes) (rows : List (List Expr)) :
    Prog σ ExecError Result := do
  let schema ← call (Storage.getSchema table)
  let rows ← liftEval (insertRows lib schema columns rows)
  let affected ← call (Storage.batchInsert table rows)
  return ⟨ascii "insert", affected⟩

/-- The loop of `execUpdateScan`. -/
def updateRows (schema : TableSchema) (table : Bytes) (sets : List SetItem) (where_ : Expr) :
    List (List Value) → Prog σ ExecError ℕ
  | [] => return 0
  | row :: rows => do
    let ctx := rowContext schema row
    if ← liftEval (whereTrue lib where_ ctx) then
      let set ← liftEval (evalSetsCtx lib schema ctx sets)
      call (Storage.update table (pkValues schema ctx) set)
      let n ← updateRows schema table sets where_ rows
      return n + 1
    else updateRows schema table sets where_ rows

def execUpdateScan (schema : TableSchema) (table : Bytes) (sets : List SetItem) (where_ : Expr) :
    Prog σ ExecError Result := do
  let rows ← call (Storage.scan lib table)
  let affected ← updateRows call lib schema table sets where_ rows
  return ⟨ascii "update", affected⟩

/-- The row-wise part of `execUpdateColumnar`. -/
def rewriteRows (schema : TableSchema) (table : Bytes) (sets : List SetItem) (where_ : Expr)
    (plan : Option PKRange × Bool) : Prog σ ExecError Result := do
  let need := needCols schema sets where_
  let cols := (List.range schema.columns.length).filter fun i =>
    ((schema.columns[i]?).map ColumnDef.name).any (· ∈ need)
  let rows ← call (Storage.scanColumnsOf lib table cols plan.1)
  let updated ←
    liftEval (updatedRows lib schema need sets (if plan.2 then .nil else where_) rows)
  let affected ← call (Storage.batchInsertAll table updated)
  return ⟨ascii "update", affected⟩

def execUpdateColumnar (schema : TableSchema) (table : Bytes) (sets : List SetItem)
    (where_ : Expr) (plan : Option PKRange × Bool) : Prog σ ExecError Result := do
  if sets.any fun item => item.column ∈ pkIndex schema then
    execUpdateScan call lib schema table sets where_
  else match plan.2, updateConstSets lib schema sets with
    | true, some consts =>
      match ← call (Storage.updateColumnConst table consts plan.1) with
      | some n => return ⟨ascii "update", n⟩
      | none => rewriteRows call lib schema table sets where_ plan
    | _, _ => rewriteRows call lib schema table sets where_ plan

/-- The point path of `execUpdate`. -/
def updatePoint (schema : TableSchema) (table : Bytes) (sets : List SetItem) (pk : List Value) :
    Prog σ ExecError Result := do
  match ← call (Storage.getRow lib table pk) with
  | none => return ⟨ascii "update", 0⟩
  | some row => do
    let set ← liftEval (evalSetsCtx lib schema (rowContext schema row) sets)
    call (Storage.update table pk set)
    return ⟨ascii "update", 1⟩

def execUpdate (table : Bytes) (sets : List SetItem) (where_ : Expr) :
    Prog σ ExecError Result := do
  let schema ← call (Storage.getSchema table)
  let plan := pkRangeFromWhere lib schema where_
  match pointKey lib plan with
  | some pk => updatePoint call lib schema table sets pk
  | none =>
    if isColumnarEngine schema.engine then
      execUpdateColumnar call lib schema table sets where_ plan
    else execUpdateScan call lib schema table sets where_

/-- The loop of `execDelete`. -/
def deleteRows (schema : TableSchema) (table : Bytes) (where_ : Expr) :
    List (List Value) → Prog σ ExecError ℕ
  | [] => return 0
  | row :: rows => do
    let ctx := rowContext schema row
    if ← liftEval (whereTrue lib where_ ctx) then
      call (Storage.delete table (pkValues schema ctx))
      let n ← deleteRows schema table where_ rows
      return n + 1
    else deleteRows schema table where_ rows

def execDeleteScan (schema : TableSchema) (table : Bytes) (where_ : Expr) :
    Prog σ ExecError Result := do
  let rows ← call (Storage.scan lib table)
  let affected ← deleteRows call lib schema table where_ rows
  return ⟨ascii "delete", affected⟩

def execDelete (table : Bytes) (where_ : Expr) : Prog σ ExecError Result := do
  let schema ← call (Storage.getSchema table)
  match isColumnarEngine schema.engine, boundedRange (pkRangeFromWhere lib schema where_) with
  | true, some r => do
    let affected ← call (Storage.deleteRange table (some r))
    return ⟨ascii "delete", affected⟩
  | _, _ => execDeleteScan call lib schema table where_

def execute : RowStmt → Prog σ ExecError Result
  | .insert table columns rows => execInsert call lib table columns rows
  | .update table sets where_ => execUpdate call lib table sets where_
  | .delete table where_ => execDelete call lib table where_

end

/-! ### Over the engine of a batch -/

section Batch

variable (lib : Stdlib) (schema : TableSchema) (table : Bytes) (sets : List SetItem)
  (where_ : Expr)

theorem updateRows_batch (rows : List (List Value)) :
    updateRows (fun x => x) lib schema table sets where_ rows =
      Sql.updateRows lib schema table sets where_ rows := by
  induction rows with
  | nil => rfl
  | cons row rows ih =>
    rw [updateRows, Sql.updateRows, ih]
    rfl

theorem deleteRows_batch (rows : List (List Value)) :
    deleteRows (fun x => x) lib schema table where_ rows =
      Sql.deleteRows lib schema table where_ rows := by
  induction rows with
  | nil => rfl
  | cons row rows ih =>
    rw [deleteRows, Sql.deleteRows, ih]
    rfl

theorem execUpdateScan_batch : execUpdateScan (fun x => x) lib schema table sets where_ =
    Sql.execUpdateScan lib schema table sets where_ := by
  simp only [execUpdateScan, updateRows_batch]
  rfl

theorem execUpdateColumnar_batch (plan : Option PKRange × Bool) :
    execUpdateColumnar (fun x => x) lib schema table sets where_ plan =
      Sql.execUpdateColumnar lib schema table sets where_ plan := by
  simp only [execUpdateColumnar, execUpdateScan_batch]
  rfl

/-- The executor of a batch is the one over the engine of the batch. -/
theorem execute_batch (st : RowStmt) :
    execute (fun x => x) lib st = Sql.execute lib st.toStmt := by
  cases st with
  | insert table columns rows => rfl
  | update table sets where_ =>
    simp only [execute, execUpdate, execUpdateColumnar_batch, execUpdateScan_batch]
    rfl
  | delete table where_ =>
    simp only [execute, execDelete, execDeleteScan, deleteRows_batch]
    rfl

end Batch

end Calls

/-! ### On the engine itself -/

/-- `writeTo` and `readFrom` outside a batch: one transaction for the call. -/
def direct {α : Type} (op : Exec α) : Prog Engine ExecError α := fun e => updateBatch op e

/-- A statement of the standalone server. -/
def executeDirect (lib : Stdlib) (st : RowStmt) : Prog Engine ExecError Result :=
  Calls.execute direct lib st

end Ydbgo.Sql
