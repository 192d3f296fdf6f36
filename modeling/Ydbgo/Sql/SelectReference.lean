import Ydbgo.Sql.SelectRows
import Ydbgo.Sql.ShardAggregates

/-! # What a SELECT means

The rows that WHERE is true of fall into classes with equal values of the GROUP
BY expressions, one class without GROUP BY. A query with aggregates has a row
for each class, and so has a query with GROUP BY; DISTINCT keeps one of equal
rows. Values are equal by their type and what they have for it: floats by their
bits, times by the instant and the zone, and NULL is equal to NULL.
-/

namespace Ydbgo.Sql

/-- The type of a value and what it has for it. -/
def Value.content (v : Value) : Value :=
  match v.type with
  | .null => nullValue
  | .int => intValue v.int
  | .float => floatValue v.flt
  | .string => strValue v.str
  | .bool => boolValue v.bool
  | .timestamp => timestampValue v.tm
  | .other n => { type := .other n }

/-- The value that an evaluation gives. -/
def valueOf (x : Eval Value) : Value :=
  match x.run with
  | some (.ok v) => v
  | _ => nullValue

variable (lib : Stdlib)

/-- An aggregate is reached through operators and casts. -/
def Aggregates : Expr → Bool
  | .call name _ => Agg.ofName (lib.toLower name) ≠ .other
  | .binary _ left right => Aggregates left || Aggregates right
  | .cast e _ => Aggregates e
  | .unary _ e => Aggregates e
  | _ => false

/-- The values of the GROUP BY expressions. -/
def groupTuple (s : SelectStmt) (ctx : RowContext) : List Value :=
  s.groupBy.map fun e => (valueOf (eval lib ctx e)).content

def classes (s : SelectStmt) (kept : List RowContext) : List (List RowContext) :=
  if s.groupBy = [] then [kept] else groups (groupTuple lib s) kept

def classRow (s : SelectStmt) (g : List RowContext) : Row :=
  s.items.map fun it => valueOf (evalSelectItemAgg lib g it.expr)

def plainRow (schema : Option TableSchema) (s : SelectStmt) (ctx : RowContext) : Row :=
  (expandSelectItems s schema).map fun it => valueOf (eval lib ctx it.expr)

/-- The rows that DISTINCT applies to. A class of a query without aggregates shows its first
row. -/
def resultRows (schema : Option TableSchema) (s : SelectStmt) (kept : List RowContext) : List Row :=
  if s.items.any fun it => Aggregates lib it.expr then (classes lib s kept).map (classRow lib s)
  else if s.groupBy = [] then kept.map (plainRow lib schema s)
  else (heads (groupTuple lib s) kept).map (plainRow lib schema s)

def contents (r : Row) : Row := r.map Value.content

def reference (schema : Option TableSchema) (s : SelectStmt) (kept : List RowContext) :
    List Row :=
  let rows := (resultRows lib schema s kept).map contents
  if s.distinct then rows.dedup else rows

/-- The values of an expression in the rows, NULL left out. -/
def argValues (e : Expr) (g : List RowContext) : List Value :=
  (g.map fun ctx => valueOf (eval lib ctx e)).filter fun v => !v.null

/-- COUNT, MIN, MAX and the SUM of whole numbers are those of the rows. -/
structure AggregatesRight (g : List RowContext) : Prop where
  countRows : ∀ fn args, Agg.ofName (lib.toLower fn) = .count →
    args.length ≠ 1 ∨ args = [.ident (ascii "*")] →
    Gives (evalAggregateCall lib fn args g) (intValue (.ofNat g.length))
  count : ∀ fn e, Agg.ofName (lib.toLower fn) = .count → e ≠ .ident (ascii "*") →
    (∀ ctx ∈ g, ∃ v, Gives (eval lib ctx e) v) →
    Gives (evalAggregateCall lib fn [e] g) (intValue (.ofNat (argValues lib e g).length))
  best : ∀ fn e args o, (Agg.ofName (lib.toLower fn)).seeks = some o →
    (∀ ctx ∈ g, ∃ v, Gives (eval lib ctx e) v) →
    ∃ v, Gives (evalAggregateCall lib fn (e :: args) g) v ∧
      (argValues lib e g = [] → v = nullValue) ∧
      (argValues lib e g ≠ [] → OrderedOn (isBetter lib o) (argValues lib e g) →
        Unbeaten (isBetter lib o) (argValues lib e g) v)
  sum : ∀ fn e args, Agg.ofName (lib.toLower fn) = .sum →
    (∀ ctx ∈ g, ∃ v, Gives (eval lib ctx e) v) → OfType .int (argValues lib e g) →
    WithinExact (argValues lib e g) →
    Gives (evalAggregateCall lib fn (e :: args) g)
      (if argValues lib e g = [] then nullValue else intValue (.ofInt (sumInts (argValues lib e g))))

/-- WHERE, GROUP BY and the items have values where they are evaluated. Only over no rows at all an
item may get to the first row, which is not there. -/
structure Succeeds (schema : Option TableSchema) (s : SelectStmt) (rows : List RowContext) :
    Prop where
  where_ : ∀ ctx ∈ rows, Decides lib s.where_ ctx
  groupBy : ∀ ctx ∈ rows.filter (keeps lib s.where_), ∀ e ∈ s.groupBy, ∃ v, Gives (eval lib ctx e) v
  overClasses : hasAggregate lib s → ∀ g ∈ classes lib s (rows.filter (keeps lib s.where_)),
    ∀ it ∈ s.items, (∃ v, Gives (evalSelectItemAgg lib g it.expr) v) ∨
      g = [] ∧ Panics (evalSelectItemAgg lib g it.expr)
  overRows : ¬ hasAggregate lib s → ∀ ctx ∈ rows.filter (keeps lib s.where_),
    ∀ it ∈ expandSelectItems s schema, ∃ v, Gives (eval lib ctx it.expr) v

/-- The row path gives the rows of the reference in some order, with the right aggregates. -/
structure SelectRight (schema : Option TableSchema) (s : SelectStmt) (rows : List RowContext) :
    Prop where
  result : ∃ out, Gives (selectRows lib schema s rows) out ∧
    (out.map contents).Perm (reference lib schema s (rows.filter (keeps lib s.where_)))
  aggregates : ∀ g ∈ classes lib s (rows.filter (keeps lib s.where_)), AggregatesRight lib g

/-- A function that is no aggregate is reached through operators and casts. -/
def CallsFunction : Expr → Bool
  | .call name _ => Agg.ofName (lib.toLower name) = .other
  | .binary _ left right => CallsFunction left || CallsFunction right
  | .cast e _ => CallsFunction e
  | .unary _ e => CallsFunction e
  | _ => false

/-- What the row path relies on. -/
structure Separates (schema : Option TableSchema) (s : SelectStmt) (kept : List RowContext) :
    Prop where
  /-- GROUP BY values that print alike are the same. -/
  keys : hasAggregate lib s → ∀ a ∈ kept, ∀ b ∈ kept,
    groupKey lib s.groupBy a = groupKey lib s.groupBy b → groupTuple lib s a = groupTuple lib s b
  /-- The code sees the aggregate if no rows are left to be one class. -/
  seen : s.groupBy = [] → kept = [] → (∃ it ∈ s.items, Aggregates lib it.expr) → hasAggregate lib s
  /-- Then no function looks for a first row. -/
  noCalls : s.groupBy = [] → kept = [] → hasAggregate lib s →
    ∀ it ∈ s.items, ¬ CallsFunction lib it.expr
  /-- GROUP BY without an aggregate leaves nothing to put together, -/
  single : ¬ hasAggregate lib s → s.groupBy ≠ [] → s.distinct = false →
    (kept.map (groupTuple lib s)).Nodup
  /-- or DISTINCT does it. -/
  alike : ¬ hasAggregate lib s → s.groupBy ≠ [] → s.distinct = true →
    ∀ a ∈ kept, ∃ b ∈ heads (groupTuple lib s) kept,
      contents (plainRow lib schema s a) = contents (plainRow lib schema s b)
  /-- Different rows that DISTINCT compares print differently. -/
  printed : s.distinct = true → ∀ r ∈ resultRows lib schema s kept, ∀ r' ∈ resultRows lib schema s kept,
    rowKeyString lib r = rowKeyString lib r' → contents r = contents r'

end Ydbgo.Sql
