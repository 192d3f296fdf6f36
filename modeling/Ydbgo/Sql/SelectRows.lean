import Ydbgo.Sql.Select

/-! # The row path of SELECT

`execSelect` behind the scan, for a SELECT without ORDER BY. A query without an
aggregate that the code sees projects its rows one by one, whatever its GROUP BY
says.
-/

namespace Ydbgo.Sql

variable (lib : Stdlib)

def hasAggregate (s : SelectStmt) : Bool := s.items.any fun it => isAggregate lib it.expr

def isStar (it : SelectItem) : Bool := it.expr == .ident (ascii "*")

/-- The columns stand at the end, wherever `*` stood. -/
def expandSelectItems (s : SelectStmt) (schema : Option TableSchema) : List SelectItem :=
  match schema with
  | some schema =>
    s.items.filter (fun it => !isStar it) ++
      if s.items.any isStar then
        schema.columns.map fun c => { expr := .ident c.name, alias_ := [] }
      else []
  | none => s.items

/-- The projection of a row; `*` is left in the items only without a FROM, and is NULL then. -/
def projectRow (cols : List SelectItem) (ctx : RowContext) : Eval Row :=
  cols.mapM fun it => eval lib ctx it.expr

/-- The rows before DISTINCT. -/
def outRows (schema : Option TableSchema) (s : SelectStmt) (contexts : List RowContext) :
    Eval (List Row) :=
  if hasAggregate lib s then aggregateGroups lib s contexts
  else contexts.mapM (projectRow lib (expandSelectItems s schema))

def selectRows (schema : Option TableSchema) (s : SelectStmt) (rows : List RowContext) :
    Eval (List Row) := do
  let contexts ← filterWhere lib s.where_ rows
  let out ← outRows lib schema s contexts
  let out := if s.distinct then distinctRows lib out else out
  if s.hasLimit ∧ s.limit.toInt < out.length then slice out 0 s.limit else return out

end Ydbgo.Sql
