import Ydbgo.Sql.Planner

/-! # Key ranges and column filters

What a planned range and predicate mean to the storage: `PKRangeBytes` and
`matchesFilter`.
-/

namespace Ydbgo.Storage

open Sql (Value PKBound PKRange ColumnFilter TableSchema RowContext)

/-- `pkBoundBytes`: an exclusive lower and an inclusive upper bound get a guard byte. -/
def pkBoundBytes (b : PKBound) (isUpper : Bool) : Bytes :=
  if isUpper = b.incl then encodePK b.pre ++ [0xff] else encodePK b.pre

def pkRangeBytes (r : Option PKRange) : Option Bytes × Option Bytes :=
  match r with
  | none => (none, none)
  | some r => (r.lower.map (pkBoundBytes · false), r.upper.map (pkBoundBytes · true))

/-- The key lies in the range: at its lower bound or after, and before its upper bound. -/
def InRange (r : Option PKRange) (key : Bytes) : Prop :=
  (∀ lo, (pkRangeBytes r).1 = some lo → lo ≤ key) ∧
    ∀ up, (pkRangeBytes r).2 = some up → key < up

/-- `compareSQLValue(a, b) == 0`, and no error. -/
def sameSQLValue (a b : SqlValue) : Bool :=
  a.typ = b.typ && match a.typ with
    | .int | .timestamp => a.i == b.i
    | .float => !Sql.F64.lt a.f b.f && !Sql.F64.lt b.f a.f
    | .string => a.s == b.s
    | .bool => a.b == b.b

/-- `matchesFilter`. -/
def matchesFilter (v : SqlValue) (pred : ColumnFilter) : Bool :=
  if v.null then false
  else match pred.op with
    | .like => v.typ = .string && pred.lit.str.isPrefixOf v.s
    | .eq => sameSQLValue v (fromSQLValue pred.lit)

/-- The value of the named column in a row. -/
def cell (ctx : RowContext) (name : Bytes) : Value := (ctx name).getD {}

/-- The encoded primary key of a row. -/
def rowKey (schema : TableSchema) (ctx : RowContext) : Bytes :=
  encodePK (schema.pk.map (cell ctx))

/-- The row matches the predicate, if there is one. -/
def Matches (schema : TableSchema) (ctx : RowContext) (pred : Option ColumnFilter) : Prop :=
  ∀ p, pred = some p → ∃ c, schema.columns[p.col]? = some c ∧
    matchesFilter (fromSQLValue (cell ctx c.name)) p = true

end Ydbgo.Storage
