import Ydbgo.Lib.Groups
import Ydbgo.Sql.Aggregate
import Ydbgo.Sql.Exec

/-! # Aggregate queries

The part of `execSelect` behind the scan for a SELECT with aggregates: the rows
that pass WHERE are put into groups, and every item is evaluated over each
group. The groups come out of a Go map, so their order means nothing.
-/

namespace Ydbgo.Sql

abbrev Row : Type := List Value

variable (lib : Stdlib)

def isAggregate : Expr → Bool
  | .call name _ => Agg.ofName (lib.toLower name) ≠ .other
  | .binary _ left right => isAggregate left || isAggregate right
  | .cast e _ => isAggregate e
  | _ => false

/-- The type and the printed form of a value. -/
def keyPart (v : Value) : Bytes := v.type.name ++ ascii ":" ++ v.string lib

def groupKey (exprs : List Expr) (ctx : RowContext) : Eval Bytes := do
  let parts ← exprs.mapM fun e =>
    tryCatch (do return keyPart lib (← eval lib ctx e)) fun _ => return ascii "<err>"
  return List.intercalate [0] parts

def rowKeyString (row : Row) : Bytes := List.intercalate [0] (row.map (keyPart lib))

/-- The rows that pass WHERE. -/
def filterWhere (where_ : Expr) : List RowContext → Eval (List RowContext)
  | [] => return []
  | ctx :: contexts => do
    let passes ← whereTrue lib where_ ctx
    let filtered ← filterWhere where_ contexts
    return if passes then ctx :: filtered else filtered

def aggregateRow (items : List SelectItem) (group : List RowContext) : Eval Row :=
  items.mapM fun it => evalSelectItemAgg lib group it.expr

/-- A row for each group. Without GROUP BY there is a row even when no rows pass. -/
def aggregateGroups (s : SelectStmt) (contexts : List RowContext) : Eval (List Row) := do
  let keyed ← contexts.mapM fun ctx => do return (← groupKey lib s.groupBy ctx, ctx)
  let groups := groupsBy Prod.fst keyed
  let out ← groups.mapM fun g => aggregateRow lib s.items (g.2.map Prod.snd)
  if s.groupBy.isEmpty && out.isEmpty then return [← aggregateRow lib s.items []] else return out

/-- The first row of each printed form. -/
def distinctRows (rows : List Row) : List Row :=
  (groupsBy (rowKeyString lib) rows).filterMap fun g => g.2.head?

/-- `execSelect` behind the scan, for items with an aggregate. -/
def selectAggregate (s : SelectStmt) (rows : List RowContext) : Eval (List Row) := do
  let contexts ← filterWhere lib s.where_ rows
  let out ← aggregateGroups lib s contexts
  let out := if s.distinct then distinctRows lib out else out
  if s.hasLimit ∧ s.limit.toInt < out.length then slice out 0 s.limit else return out

end Ydbgo.Sql
