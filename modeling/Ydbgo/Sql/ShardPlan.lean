import Ydbgo.Sql.Select

/-! # Aggregates over shards

A SELECT whose items are all aggregates, or aggregates of groups by one column,
is rewritten for shards: each shard evaluates partial aggregates over its rows,
and the coordinator merges the rows that they answer with.
-/

namespace Ydbgo.Sql

/-- The name of an aggregate, as the plans write it. -/
def Agg.name : Agg → Bytes
  | count => ascii "count"
  | sum => ascii "sum"
  | min => ascii "min"
  | max => ascii "max"
  | avg => ascii "avg"
  | countIf => ascii "count_if"
  | other => []

inductive AggItemKind where
  | plain
  | avg
  deriving DecidableEq, Repr

/-- The partial aggregates that a shard evaluates, each with how it is merged, and the output items
with the indexes of their partial results. -/
structure AggregatePlan where
  partialExprs : List Expr := []
  mergeKinds : List Agg := []
  itemKinds : List AggItemKind := []
  itemSubIdx : List (List ℕ) := []

/-- The group column's output item has no partial results. -/
structure GroupedPlan where
  agg : AggregatePlan
  groupCol : Bytes

/-- The name of the column that `columnIndexOf` finds. -/
def columnOf (schema : TableSchema) (e : Expr) : Option Bytes :=
  match e with
  | .ident name => (schema.columns.find? fun c => c.name = name).map ColumnDef.name
  | _ => none

def aggCallExpr (name : Agg) (col : Bytes) : Expr :=
  if name = .count ∧ col = [] then .call (ascii "count") [.ident (ascii "*")]
  else .call name.name [.ident col]

variable (lib : Stdlib) (schema : TableSchema)

/-- The column that an aggregate is over; `count(*)` is over none. -/
def argColumn (name : Agg) (arg : Expr) : Option Bytes :=
  if name = .count ∧ arg = .ident (ascii "*") then some [] else columnOf schema arg

/-- The plan with one more item, if that is a supported aggregate. -/
def appendAggItem (p : AggregatePlan) (e : Expr) : Option AggregatePlan :=
  match e with
  | .call fn [arg] => do
    let name := Agg.ofName (lib.toLower fn)
    let colName ← argColumn schema name arg
    let n := p.partialExprs.length
    match name with
    | .count | .sum | .min | .max => return {
        partialExprs := p.partialExprs ++ [aggCallExpr name colName]
        mergeKinds := p.mergeKinds ++ [name]
        itemKinds := p.itemKinds ++ [.plain]
        itemSubIdx := p.itemSubIdx ++ [[n]] }
    | .avg => return {
        partialExprs := p.partialExprs ++ [aggCallExpr .sum colName, aggCallExpr .count colName]
        mergeKinds := p.mergeKinds ++ [.sum, .count]
        itemKinds := p.itemKinds ++ [.avg]
        itemSubIdx := p.itemSubIdx ++ [[n, n + 1]] }
    | _ => none
  | _ => none

def planAggregate (s : SelectStmt) : Option AggregatePlan :=
  if s.groupBy ≠ [] ∨ s.orderBy ≠ [] ∨ s.hasLimit ∨ s.distinct then none
  else s.items.foldlM (fun p it => appendAggItem lib schema p it.expr) {}

def planGrouped (s : SelectStmt) : Option GroupedPlan :=
  match s.groupBy with
  | [group] =>
    if s.orderBy ≠ [] ∨ s.hasLimit ∨ s.distinct then none
    else do
      let grpName ← columnOf schema group
      let agg ← s.items.foldlM (fun p it =>
        if it.expr = .ident grpName then some { p with
          itemKinds := p.itemKinds ++ [.plain]
          itemSubIdx := p.itemSubIdx ++ [[]] }
        else appendAggItem lib schema p it.expr) {}
      return ⟨agg, grpName⟩
  | _ => none

/-- The statement of `ShardSQL`. -/
def AggregatePlan.shardStmt (p : AggregatePlan) (s : SelectStmt) : SelectStmt where
  distinct := false
  items := p.partialExprs.map fun e => ⟨e, []⟩
  from_ := s.from_
  where_ := s.where_
  groupBy := []
  orderBy := []
  limit := 0
  hasLimit := false

/-- The group column, and the partial aggregates of each group. -/
def GroupedPlan.shardStmt (g : GroupedPlan) (s : SelectStmt) : SelectStmt :=
  { g.agg.shardStmt s with
    items := ⟨.ident g.groupCol, []⟩ :: g.agg.partialExprs.map fun e => ⟨e, []⟩
    groupBy := [.ident g.groupCol] }

/-! ### Merging -/

def mergeAggSub (kind : Agg) (partials : List Row) (pos : ℕ) : Value :=
  let vs := partials.filterMap fun r => (r[pos]?).filter fun v => !v.null
  match kind with
  | .count => intValue (vs.foldl (fun total v => total + v.int) 0)
  | .sum =>
    let total := vs.foldl (fun total v => lib.add total ((v.asFloat lib).getD 0)) 0
    if vs.isEmpty then nullValue
    else if vs.all (·.type = .int) then intValue (lib.toInt64 total) else floatValue total
  | .min => (vs.foldl (best lib .lt) none).getD nullValue
  | .max => (vs.foldl (best lib .gt) none).getD nullValue
  | _ => nullValue

def mergedAvg (sumV cntV : Value) : Value :=
  if sumV.null ∨ cntV.null ∨ cntV.int = 0 then nullValue
  else floatValue (lib.div ((sumV.asFloat lib).getD 0) (lib.ofInt64 cntV.int))

/-- `mergeAggSub` at the partial result `i`, which stands at the position `off + i` of the rows. -/
def AggregatePlan.mergeSub (p : AggregatePlan) (off : ℕ) (partials : List Row) (i : ℕ) : Value :=
  mergeAggSub lib ((p.mergeKinds[i]?).getD .other) partials (off + i)

/-- An output item from its partial results. -/
def AggregatePlan.mergeItem (p : AggregatePlan) (off : ℕ) (partials : List Row) (kind : AggItemKind)
    (subIdx : List ℕ) : Value :=
  match kind, subIdx with
  | .avg, [sum, count] =>
    mergedAvg lib (p.mergeSub lib off partials sum) (p.mergeSub lib off partials count)
  | _, sub :: _ => p.mergeSub lib off partials sub
  | _, [] => nullValue

/-- `AggregatePlan.Merge`. -/
def AggregatePlan.merge (p : AggregatePlan) (partials : List Row) : Row :=
  (p.itemKinds.zip p.itemSubIdx).map fun it => p.mergeItem lib 0 partials it.1 it.2

/-- `GroupedPlan.Merge`: a row for each printed form of a group value. -/
def GroupedPlan.merge (g : GroupedPlan) (partials : List Row) : List Row :=
  let partials := partials.filter fun r => !r.isEmpty
  (groupsBy (fun r => ((r.head?).getD nullValue).string lib) partials).map fun b =>
    (g.agg.itemKinds.zip g.agg.itemSubIdx).map fun it =>
      if it.2 = [] then ((b.2.head?.bind List.head?).getD nullValue)
      else g.agg.mergeItem lib 1 b.2 it.1 it.2

/-- The merged answers of the shards, in the order in which they come, if the SELECT is one of
those that are rewritten. -/
def mergeShards (s : SelectStmt) (shards : List (List RowContext)) : Option (Eval (List Row)) :=
  match planAggregate lib schema s with
  | some p => some do
    let partials ← shards.mapM (selectAggregate lib (p.shardStmt s))
    return [p.merge lib partials.flatten]
  | none => (planGrouped lib schema s).map fun g => do
    let partials ← shards.mapM (selectAggregate lib (g.shardStmt s))
    return g.merge lib partials.flatten

end Ydbgo.Sql
