import Ydbgo.Sql.Eval

/-! # Aggregates

`evalSelectItemAgg` and `evalAggregateCall`: a select item evaluated over the
rows of a group.
-/

namespace Ydbgo.Sql

variable (lib : Stdlib)

/-- `evalBinaryOpValues`, which knows no comparison and no null. -/
def evalBinaryOpValues (op : BinOp) (l r : Value) : Eval Value :=
  match op with
  | .and => return evalAnd l r
  | .or => return evalOr l r
  | .add | .sub | .mul | .div =>
    match l.type, r.type with
    | .int, .int =>
      match op with
      | .add => return intValue (l.int + r.int)
      | .sub => return intValue (l.int - r.int)
      | .mul => return intValue (l.int * r.int)
      | _ =>
        if r.int = 0 then fail (ascii "division by zero") else return intValue (l.int / r.int)
    | _, _ =>
      match l.asFloat lib, r.asFloat lib with
      | some lf, some rf =>
        match op with
        | .add => return floatValue (lib.add lf rf)
        | .sub => return floatValue (lib.sub lf rf)
        | .mul => return floatValue (lib.mul lf rf)
        | _ =>
          if F64.eq rf 0 then fail (ascii "division by zero")
          else return floatValue (lib.div lf rf)
      | _, _ => fail (ascii "arithmetic requires numbers")
  | .eq => fail (ascii "unsupported operator " ++ lib.quote (ascii "="))
  | .ne => fail (ascii "unsupported operator " ++ lib.quote (ascii "<>"))
  | .lt => fail (ascii "unsupported operator " ++ lib.quote (ascii "<"))
  | .le => fail (ascii "unsupported operator " ++ lib.quote (ascii "<="))
  | .gt => fail (ascii "unsupported operator " ++ lib.quote (ascii ">"))
  | .ge => fail (ascii "unsupported operator " ++ lib.quote (ascii ">="))
  | .like => fail (ascii "unsupported operator " ++ lib.quote (ascii "LIKE"))
  | .notLike => fail (ascii "unsupported operator " ++ lib.quote (ascii "NOT LIKE"))

/-- The loop of an aggregate: the value of `n.Args[0]` in each row, folded by `f`. -/
def foldArg {σ : Type} (args : List Expr) (f : σ → Value → Eval σ) :
    List RowContext → σ → Eval σ
  | [], s => return s
  | ctx :: rows, s => do
    let e ← index args 0
    let v ← check (eval lib ctx e)
    let s ← f s v
    foldArg args f rows s

/-- The aggregates, and every other name. -/
inductive Agg where
  | count | sum | min | max | avg | countIf | other
  deriving DecidableEq, Repr

def Agg.ofName (name : Bytes) : Agg :=
  if name = ascii "count" then .count
  else if name = ascii "sum" then .sum
  else if name = ascii "min" then .min
  else if name = ascii "max" then .max
  else if name = ascii "avg" then .avg
  else if name = ascii "count_if" then .countIf
  else .other

/-- The total, whether every value was an integer, and the number of values. -/
structure Total where
  total : UInt64 := 0
  isInt : Bool := true
  cnt : ℕ := 0

def Total.add (msg : String) (t : Total) (v : Value) : Eval Total :=
  if v.null then return t
  else match v.asFloat lib with
    | none => fail (ascii msg)
    | some f =>
      return { total := lib.add t.total f, isInt := t.isInt && v.type = .int, cnt := t.cnt + 1 }

def best (better : Ordering) (b : Option Value) (v : Value) : Option Value :=
  if v.null then b
  else match b with
    | none => some v
    | some w => if v.compare lib w = better then some v else some w

def evalAggregateCall (fn : Bytes) (args : List Expr) (rows : List RowContext) : Eval Value :=
  match Agg.ofName (lib.toLower fn) with
  | .count =>
    if args.length = 1 ∧ args ≠ [.ident (ascii "*")] then do
      let cnt ← foldArg lib args (fun (n : ℕ) v => return if v.null then n else n + 1) rows 0
      return intValue (Int64.ofNat cnt)
    else return intValue (Int64.ofNat rows.length)
  | .sum => do
    let t ← foldArg lib args (Total.add lib "sum requires numeric") rows {}
    return if t.cnt = 0 then nullValue
      else if t.isInt then intValue (lib.toInt64 t.total) else floatValue t.total
  | .min => do
    let b ← foldArg lib args (fun b v => return best lib .lt b v) rows none
    return b.getD nullValue
  | .max => do
    let b ← foldArg lib args (fun b v => return best lib .gt b v) rows none
    return b.getD nullValue
  | .avg => do
    let t ← foldArg lib args (Total.add lib "avg requires numeric") rows {}
    return if t.cnt = 0 then nullValue
      else floatValue (lib.div t.total (lib.ofInt64 (Int64.ofNat t.cnt)))
  | .countIf =>
    if args.length ≠ 1 then fail (ascii "count_if requires 1 argument")
    else do
      let cnt ← foldArg lib args
        (fun (n : ℕ) v => return if boolOf v = some true then n + 1 else n) rows 0
      return intValue (Int64.ofNat cnt)
  | .other => do
    let ctx ← index rows 0
    evalCall lib fn (evalArgs lib ctx args)

/-- A minus on a number; every other operator and value is passed over. -/
def aggUnary (op : UnOp) (v : Value) : Value :=
  if op = .neg then
    if v.type = .int then intValue (-v.int)
    else match v.asFloat lib with
      | some f => floatValue (F64.neg f)
      | none => v
  else v

def evalSelectItemAgg (rows : List RowContext) : Expr → Eval Value
  | .nil => fail (ascii "cannot evaluate aggregate <nil>")
  | .call name args => evalAggregateCall lib name args rows
  | .ident name =>
    match rows with
    | [] => return nullValue
    | ctx :: _ => return (ctx name).getD {}
  | .literal l => return evalLiteral l
  | .binary op left right => do
    let l ← check (evalSelectItemAgg rows left)
    let r ← check (evalSelectItemAgg rows right)
    evalBinaryOpValues lib op l r
  | .cast e type => do
    let v ← check (evalSelectItemAgg rows e)
    convert lib v type
  | .unary op e => do
    let v ← check (evalSelectItemAgg rows e)
    return aggUnary lib op v

end Ydbgo.Sql
