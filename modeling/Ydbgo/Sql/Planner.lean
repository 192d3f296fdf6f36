import Ydbgo.Sql.Insert

/-! # The WHERE planner

`PKRangeFromWhere` and `PlanWhere`: the comparisons of a WHERE with literals,
folded into a range of primary keys and at most one predicate on another column.
The map of constraints, keyed by the position in the primary key, is a function.
-/

namespace Ydbgo.Sql

structure PKBound where
  pre : List Value
  incl : Bool
  deriving DecidableEq, Repr

structure PKRange where
  lower : Option PKBound
  upper : Option PKBound
  deriving DecidableEq, Repr

/-- The constraints on one column. A bound comes with its strictness. -/
structure Constraint where
  eq : Option Value := none
  lo : Option (Value × Bool) := none
  up : Option (Value × Bool) := none

structure PlanState where
  cons : ℕ → Option Constraint
  exact : Bool

def PlanState.inexact (st : PlanState) : PlanState := { st with exact := false }

/-- Replace the constraint at `p`, which is made if it is not there. -/
def PlanState.update (st : PlanState) (p : ℕ) (f : Constraint → Constraint) : PlanState :=
  { st with cons := fun q => if q = p then some (f ((st.cons p).getD {})) else st.cons q }

/-- The operator with its operands exchanged. Only the four orders change. -/
def BinOp.flip : BinOp → BinOp
  | .lt => .gt
  | .le => .ge
  | .gt => .lt
  | .ge => .le
  | op => op

/-- A column, a literal and the operator between them, the column's on the left. -/
def operands (op : BinOp) (left right : Expr) : Option (Bytes × Literal × BinOp) :=
  match left, right with
  | .ident name, .literal l => some (name, l, op)
  | .literal l, .ident name => some (name, l, op.flip)
  | _, _ => none

def isWildcard (b : UInt8) : Bool := b == 37 || b == 95

/-- The part of a pattern before its first wildcard, and the rest. -/
def splitPattern (pat : Bytes) : Bytes × Bytes := pat.span fun b => !isWildcard b

/-- The string after all those that start with `s`: the last byte that can be is incremented. -/
def successor (s : Bytes) : Bytes :=
  match s.reverse.dropWhile (· == 0xff) with
  | [] => s ++ [0]
  | b :: rest => ((b + 1) :: rest).reverse

variable (lib : Stdlib) (schema : TableSchema)

/-- `pos[name]` in the primary key. -/
def pkPos (name : Bytes) : Option ℕ := colIndex schema.pk name

/-- The literal as a value of the column's type. -/
def literalFor (l : Literal) (t : SqlType) : Option Value :=
  let v := evalLiteral l
  if v.null then none
  else if t ≠ .null ∧ v.type ≠ t then
    match (convert lib v t).run with
    | some (.ok v) => some v
    | _ => none
  else some v

def tightenLo (v : Value) (strict : Bool) (c : Constraint) : Constraint :=
  match c.lo with
  | none => { c with lo := some (v, strict) }
  | some (w, s) =>
    match v.compare lib w with
    | .gt => { c with lo := some (v, strict) }
    | .eq => { c with lo := some (w, s || strict) }
    | .lt => c

def tightenUp (v : Value) (strict : Bool) (c : Constraint) : Constraint :=
  match c.up with
  | none => { c with up := some (v, strict) }
  | some (w, s) =>
    match v.compare lib w with
    | .lt => { c with up := some (v, strict) }
    | .eq => { c with up := some (w, s || strict) }
    | .gt => c

/-- The `switch` on the operator; any other leaves the constraint as it is. -/
def constrain (op : BinOp) (v : Value) (c : Constraint) : Constraint :=
  match op with
  | .eq => { c with eq := some v }
  | .gt => tightenLo lib v true c
  | .ge => tightenLo lib v false c
  | .lt => tightenUp lib v true c
  | .le => tightenUp lib v false c
  | _ => c

/-- The pattern of a LIKE on a string column. -/
def patternFor (t : SqlType) (l : Literal) : Option Bytes :=
  match t, l with
  | .string, .string pat => some pat
  | _, _ => none

def visitLike (p : ℕ) (t : SqlType) (l : Literal) (st : PlanState) : PlanState :=
  match patternFor t l with
  | none => st.inexact
  | some pat =>
    match splitPattern pat with
    | (_, []) => st.update p fun c => { c with eq := some (strValue pat) }
    | ([], _) => (st.update p id).inexact
    | (pre, rest) =>
      let st := st.update p fun c =>
        { c with lo := some (strValue pre, false), up := some (strValue (successor pre), true) }
      if rest = [37] then st else st.inexact

/-- A leaf of the WHERE. -/
def visitLeaf (op : BinOp) (left right : Expr) (st : PlanState) : PlanState :=
  match operands op left right with
  | none => st.inexact
  | some (name, l, op) =>
    match pkPos schema name with
    | none => st.inexact
    | some p =>
      let t := colTypeOf schema name
      if op = .like then visitLike p t l st
      else match literalFor lib l t with
        | none => st.inexact
        | some v => st.update p (constrain lib op v)

def visit : Expr → PlanState → PlanState
  | .binary .and left right, st => visit right (visit left st)
  | .binary .or _ _, st => st.inexact
  | .binary op left right, st => visitLeaf lib schema op left right st
  | _, st => st.inexact

/-- The loop over the key columns from position `i` on, `n` of them left, after the equalities
`pre`. -/
def buildRange (cons : ℕ → Option Constraint) : ℕ → ℕ → List Value → Bool → Option PKRange × Bool
  | 0, _, _, exact => (none, exact)
  | n + 1, i, pre, exact =>
    let last := (List.range n).all fun j => (cons (i + 1 + j)).isNone
    match cons i with
    | none =>
      if pre.isEmpty then (none, exact && last)
      else (some ⟨some ⟨pre, true⟩, some ⟨pre, true⟩⟩, exact && last)
    | some c =>
      match c.eq with
      | some v =>
        let exact := exact && c.lo.isNone && c.up.isNone
        let pre := pre ++ [v]
        if n = 0 then (some ⟨some ⟨pre, true⟩, some ⟨pre, true⟩⟩, exact)
        else buildRange cons n (i + 1) pre exact
      | none =>
        let lower := c.lo.map fun b => ⟨pre ++ [b.1], !b.2⟩
        let upper := c.up.map fun b => ⟨pre ++ [b.1], !b.2⟩
        (some ⟨lower, upper⟩, exact && last)

/-- `PKRangeFromWhere`. A nil WHERE is no constraint. -/
def pkRangeFromWhere (where_ : Expr) : Option PKRange × Bool :=
  if schema.pk.isEmpty ∨ where_ = .nil then (none, false)
  else
    let st := visit lib schema where_ { cons := fun _ => none, exact := true }
    buildRange st.cons schema.pk.length 0 [] st.exact

/-- The operators of a `ColumnFilter`. -/
inductive FilterOp where
  | eq
  | like
  deriving DecidableEq, Repr

structure ColumnFilter where
  col : ℕ
  op : FilterOp
  lit : Value
  deriving DecidableEq, Repr

structure WherePlan where
  pkLeaves : List Expr
  pred : Option ColumnFilter
  exact : Bool

def WherePlan.inexact (pl : WherePlan) : WherePlan := { pl with exact := false }

/-- The type of the last column of that name. -/
def lastTypeOf (name : Bytes) : SqlType :=
  match schema.columns.reverse.find? (·.name = name) with
  | some c => c.type
  | none => .null

/-- The predicate of a comparison of column `col`, of type `t`, with a literal. -/
def filterFor (col : ℕ) (t : SqlType) (op : BinOp) (l : Literal) : Option ColumnFilter :=
  match literalFor lib l t with
  | none => none
  | some v =>
    match op with
    | .eq => some ⟨col, .eq, v⟩
    | .like =>
      match patternFor t l with
      | none => none
      | some pat =>
        match splitPattern pat with
        | (_, []) => some ⟨col, .eq, strValue pat⟩
        | ([], _) => none
        | (pre, rest) => if rest = [37] then some ⟨col, .like, strValue pre⟩ else none
    | _ => none

/-- The first two operands of a leaf; here the operator is not exchanged. -/
def leafOperands (left right : Expr) : Option (Bytes × Literal) :=
  match left, right with
  | .ident name, .literal l => some (name, l)
  | .literal l, .ident name => some (name, l)
  | _, _ => none

def planLeaf (op : BinOp) (left right : Expr) (pl : WherePlan) : WherePlan :=
  match leafOperands left right with
  | none => pl.inexact
  | some (name, l) =>
    if name ∈ schema.pk then { pl with pkLeaves := pl.pkLeaves ++ [.binary op left right] }
    else match colIndex (schema.columns.map ColumnDef.name) name with
      | none => pl.inexact
      | some ci =>
        match filterFor lib ci (lastTypeOf schema name) op l with
        | none => pl.inexact
        | some p =>
          match pl.pred with
          | some q => if q.col = ci ∧ q.op = p.op then { pl with pred := some p } else pl.inexact
          | none => { pl with pred := some p }

def planVisit : Expr → WherePlan → WherePlan
  | .binary .and left right, pl => planVisit right (planVisit left pl)
  | .binary .or _ _, pl => pl.inexact
  | .binary op left right, pl => planLeaf lib schema op left right pl
  | _, pl => pl.inexact

/-- The left-deep AND of a list of expressions. -/
def andExprs : List Expr → Expr
  | [] => .nil
  | e :: es => es.foldl (fun acc x => .binary .and acc x) e

/-- `PlanWhere`. -/
def planWhere (where_ : Expr) : Option PKRange × Option ColumnFilter × Bool :=
  if schema.pk.isEmpty then (none, none, where_ = .nil)
  else
    let pl := planVisit lib schema where_ { pkLeaves := [], pred := none, exact := true }
    if !pl.exact then (none, none, false)
    else if pl.pkLeaves.isEmpty then (none, pl.pred, true)
    else
      let r := pkRangeFromWhere lib schema (andExprs pl.pkLeaves)
      if r.2 then (r.1, pl.pred, true) else (none, none, false)

end Ydbgo.Sql
