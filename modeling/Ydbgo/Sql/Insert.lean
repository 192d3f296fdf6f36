import Mathlib.Data.List.Dedup
import Ydbgo.Sql.Eval
import Ydbgo.Storage.PkCodec

/-! # The rows of an INSERT

`execInsert` up to the call of the engine, and the router's `pkKeyForRow`.
-/

namespace Ydbgo.Sql

structure TableSchema where
  name : Bytes
  columns : List ColumnDef
  pk : List Bytes
  engine : Bytes

/-- `colIndex[name]`, in the map that assigns to each name of a list its position: the last one
counts. -/
def colIndexFrom (i : ℕ) : List Bytes → Bytes → Option ℕ
  | [], _ => none
  | c :: cols, name =>
    (colIndexFrom (i + 1) cols name).or (if c = name then some i else none)

def colIndex : List Bytes → Bytes → Option ℕ := colIndexFrom 0

def zeroValue (c : ColumnDef) : Value :=
  match c.type with
  | .int => intValue 0
  | .float => floatValue 0
  | .string => strValue []
  | .bool => boolValue false
  | .null | .timestamp | .other _ => nullValue

def collect {α β : Type} (f : α → Eval β) : List α → Eval (List β)
  | [] => return []
  | a :: as => do
    let b ← f a
    let bs ← collect f as
    return b :: bs

/-- The columns a row's values are for: those of the statement, or else of the schema. -/
def insertColumns (schema : TableSchema) (columns : List Bytes) : List Bytes :=
  if columns.isEmpty then schema.columns.map ColumnDef.name else columns

variable (lib : Stdlib)

def insertCell (cols : List Bytes) (row : List Expr) (c : ColumnDef) : Eval (Bytes × Value) := do
  match colIndex cols c.name with
  | none => return (c.name, zeroValue c)
  | some idx =>
    let e ← index row idx
    let v ← check (eval lib (fun _ => none) e)
    let v ← check (convert lib v c.type)
    if c.notNull ∧ v.null then fail (ascii "column " ++ c.name ++ ascii " is not null")
    else return (c.name, v)

def insertRow (schema : TableSchema) (cols : List Bytes) (row : List Expr) :
    Eval (List (Bytes × Value)) :=
  if row.length < cols.dedup.length then fail (ascii "row has fewer values than columns")
  else collect (insertCell lib cols row) schema.columns

/-- The rows `execInsert` hands to the engine, the writes to each `vals` map in order. -/
def insertRows (schema : TableSchema) (columns : List Bytes) (rows : List (List Expr)) :
    Eval (List (List (Bytes × Value))) :=
  collect (insertRow lib schema (insertColumns schema columns)) rows

def colTypeOf (schema : TableSchema) (name : Bytes) : SqlType :=
  match schema.columns.find? (·.name = name) with
  | some c => c.type
  | none => .null

def zeroForType (t : SqlType) : Value :=
  match t with
  | .int => intValue 0
  | .float => floatValue 0
  | .string => strValue []
  | .bool => boolValue false
  | .timestamp => timestampValue (lib.unix 0)
  | .null | .other _ => nullValue

def pkValue (schema : TableSchema) (cols : List Bytes) (row : List Expr) (p : Bytes) :
    Eval Value := do
  match colIndex cols p with
  | none => return zeroForType lib (colTypeOf schema p)
  | some idx =>
    let e ← index row idx
    let v ← check (eval lib (fun _ => none) e)
    check (convert lib v (colTypeOf schema p))

/-- `pkKeyForRow` with the `colIdx` the router builds. -/
def pkKeyForRow (schema : TableSchema) (columns : List Bytes) (row : List Expr) : Eval Bytes := do
  let pk ← collect (pkValue lib schema (insertColumns schema columns) row) schema.pk
  return Storage.encodePK pk

end Ydbgo.Sql
