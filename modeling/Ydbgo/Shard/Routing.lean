import Ydbgo.Sql.Reference
import Ydbgo.Sql.Clock
import Ydbgo.Sql.PlannerRight

/-! # Where a row is routed

The router computes the key of an INSERT row by itself, and reads the key of an
UPDATE or DELETE off the equalities of its WHERE. The shard that is chosen by the
key evaluates the same expressions again, later and on its own clock.
-/

namespace Ydbgo.Shard

open Sql Storage

/-- A table as a CREATE TABLE describes it. -/
structure CreateTable where
  name : Bytes
  columns : List ColumnDef
  pk : List Bytes
  engine : Bytes
  retention : Int64

/-- `normalizeSchema`. -/
def normalizeSchema (st : CreateTable) : TableSchema where
  name := st.name
  columns := primaryColumns st.columns st.pk
  pk := ((primaryColumns st.columns st.pk).filter ColumnDef.asPrimary).map ColumnDef.name
  engine := engineOf st.engine

/-- The positions of the columns of that name. -/
def positions (names : List Bytes) (p : Bytes) : List ℕ :=
  (List.range names.length).filter fun i => names[i]? = some p

/-- The table of a shard's engine, which `mountShard` creates from the schema. -/
def CreateTable.table (st : CreateTable) : Table where
  cols := (normalizeSchema st).columns.map fun c => ⟨c.name, fromSQLType c.type, c.notNull⟩
  pk := (normalizeSchema st).pk.flatMap (positions ((normalizeSchema st).columns.map ColumnDef.name))
  indexes := .empty
  engine := EngineKind.ofName (engineOf st.engine)
  retention := st.retention

section Where

variable (lib : Stdlib)

/-- One order of the operands of an equality: a column, and an expression that has a value without a
row. -/
def pinOf (left right : Expr) : Eval (Option (Bytes × Value)) :=
  match left with
  | .ident name =>
    tryCatch
      (do
        let v ← eval lib (fun _ => none) right
        return some (name, v))
      fun _ => return none
  | _ => return none

/-- `walk` of `pkKeyFromWhere`, with what it writes into `found` in order. -/
def walk : Expr → Eval (Option (List (Bytes × Value)))
  | .binary .and left right => do
    match ← walk left with
    | none => return none
    | some found => do
      match ← walk right with
      | none => return none
      | some found' => return some (found ++ found')
  | .binary .eq left right => do
    match ← pinOf lib left right with
    | some pin => return some [pin]
    | none => do
      match ← pinOf lib right left with
      | some pin => return some [pin]
      | none => return none
  | _ => return none

/-- The value of a key column, converted to its type. -/
def foundValue (schema : TableSchema) (found : List (Bytes × Value)) (p : Bytes) : Option Value :=
  match SortedMap.getEntry p found.reverse with
  | none => none
  | some v =>
    match (convert lib v (Sql.colTypeOf schema p)).run with
    | some (.ok w) => some w
    | _ => none

def pkKeyFromWhere (schema : TableSchema) (where_ : Expr) : Eval (Option Bytes) :=
  if where_ = .nil ∨ schema.pk.isEmpty then return none
  else do
    match ← walk lib where_ with
    | none => return none
    | some found => return (schema.pk.mapM (foundValue lib schema found)).map encodePK

end Where

end Ydbgo.Shard
