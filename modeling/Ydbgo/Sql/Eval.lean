import Ydbgo.Sql.Value

/-! # The expression evaluator

`Eval` and its callees in `value.go`. A row context maps column names to values.
Arguments of a call are evaluated where the code evaluates them, so a call's
arguments are passed as a list of evaluations.
-/

namespace Ydbgo.Sql

abbrev RowContext : Type := Bytes → Option Value

def newline : Rune := 10

/-- `f` accepts what is left after some run of runes that `.` matches. -/
def afterAny (f : List Rune → Bool) : List Rune → Bool
  | [] => f []
  | c :: s => f (c :: s) || (c != newline && afterAny f s)

/-- The match of a LIKE pattern against a string: `%` is `.*` and `_` is `.`. -/
def likeRunes : List Rune → List Rune → Bool
  | [], s => s.isEmpty
  | 37 :: p, s => afterAny (likeRunes p) s
  | 95 :: p, s =>
    match s with
    | [] => false
    | c :: s => c != newline && likeRunes p s
  | r :: p, s =>
    match s with
    | [] => false
    | c :: s => c == r && likeRunes p s

def likeMatch (s pat : Bytes) : Bool := likeRunes (runes pat) (runes s)

/-- A boolean, or an integer read as one. -/
def boolOf (v : Value) : Option Bool :=
  if v.null then none
  else match v.type with
    | .bool => some v.bool
    | .int => some (v.int != 0)
    | _ => none

def evalAnd (l r : Value) : Value :=
  match boolOf l, boolOf r with
  | some false, _ => boolValue false
  | _, some false => boolValue false
  | some lb, some rb => boolValue (lb && rb)
  | _, _ => nullValue

def evalOr (l r : Value) : Value :=
  match boolOf l, boolOf r with
  | some true, _ => boolValue true
  | _, some true => boolValue true
  | some _, some _ => boolValue false
  | _, _ => nullValue

/-- `n` nanoseconds in a second, as a float. -/
def second : UInt64 := 0x41CDCD6500000000
def minute : UInt64 := 0x422BF08EB0000000
def hour : UInt64 := 0x428A3185C5000000
def seven : UInt64 := 0x401C000000000000
def twentyFour : UInt64 := 0x4038000000000000

/-- Where `substr` starts: at the first rune at the earliest. -/
def startOf (start : Value) : Int64 := if start.int < 1 then 1 else start.int

/-- The functions `evalCall` knows. -/
inductive Fn where
  | abs | lower | upper | length | concat | substr | now | unixepoch | timeBucket | unknown
  deriving DecidableEq, Repr

def Fn.ofName (name : Bytes) : Fn :=
  if name = ascii "abs" then .abs
  else if name = ascii "lower" then .lower
  else if name = ascii "upper" then .upper
  else if name = ascii "length" ∨ name = ascii "len" then .length
  else if name = ascii "concat" ∨ name = ascii "concat_ws" then .concat
  else if name = ascii "substr" ∨ name = ascii "substring" then .substr
  else if name = ascii "now" then .now
  else if name = ascii "unixepoch" then .unixepoch
  else if name = ascii "time_bucket" then .timeBucket
  else .unknown

section

variable (lib : Stdlib)

/-- `+ - * /` on numbers, in `value.go`: a float if either is one. -/
def evalArith (op : BinOp) (l r : Value) : Eval Value :=
  if l.null ∨ r.null then return nullValue
  else match l.type, r.type with
    | .int, .int =>
      match op with
      | .add => return intValue (l.int + r.int)
      | .sub => return intValue (l.int - r.int)
      | .mul => return intValue (l.int * r.int)
      | _ =>
        if r.int = 0 then fail (ascii "division by zero") else return intValue (l.int / r.int)
    | _, _ =>
      match l.asFloat lib, r.asFloat lib with
      | some lf, some rf =>
        let res (x : UInt64) : Value :=
          if l.type = .float ∨ r.type = .float then floatValue x
          else intValue (lib.toInt64 (lib.round x))
        match op with
        | .add => return res (lib.add lf rf)
        | .sub => return res (lib.sub lf rf)
        | .mul => return res (lib.mul lf rf)
        | _ =>
          if F64.eq rf 0 then fail (ascii "division by zero") else return res (lib.div lf rf)
      | _, _ =>
        fail (ascii "arithmetic requires numbers, got " ++ l.type.name ++ ascii " and " ++
          r.type.name)

/-- A comparison, given what its operator makes of the order. -/
def evalCompare (l r : Value) (holds : Ordering → Bool) : Value :=
  if l.null ∨ r.null then nullValue else boolValue (holds (l.compare lib r))

/-- `evalBinary` on the values of the operands. -/
def evalBinary (op : BinOp) (l r : Value) : Eval Value :=
  match op with
  | .and => return evalAnd l r
  | .or => return evalOr l r
  | .like => return if l.null ∨ r.null then nullValue else boolValue (likeMatch l.str r.str)
  | .notLike => return if l.null ∨ r.null then nullValue else boolValue (!likeMatch l.str r.str)
  | .eq => return evalCompare lib l r (· == .eq)
  | .ne => return evalCompare lib l r (· != .eq)
  | .lt => return evalCompare lib l r (· == .lt)
  | .le => return evalCompare lib l r (· != .gt)
  | .gt => return evalCompare lib l r (· == .gt)
  | .ge => return evalCompare lib l r (· != .lt)
  | .add | .sub | .mul | .div => evalArith lib op l r

def evalUnary (op : UnOp) (v : Value) : Eval Value :=
  match op with
  | .not =>
    if v.type = .bool then return boolValue (!v.bool)
    else fail (ascii "NOT requires bool, got " ++ v.type.name)
  | .neg =>
    if v.type = .int then return intValue (-v.int)
    else match v.asFloat lib with
      | some f => return floatValue (F64.neg f)
      | none => fail (ascii "cannot negate " ++ v.type.name)
  | .pos => return v

def evalLiteral : Literal → Value
  | .int n => intValue n
  | .float bits => floatValue bits
  | .string s => strValue s
  | .bool b => boolValue b
  | .null | .timestamp _ | .other _ => nullValue

/-- The nanoseconds of one `unit`. -/
def unitOf (num : UInt64) (unit : Bytes) : Option UInt64 :=
  if unit ∈ ["s", "sec", "secs", "second", "seconds"].map ascii then some (lib.mul num second)
  else if unit ∈ ["m", "min", "mins", "minute", "minutes"].map ascii then
    some (lib.mul num minute)
  else if unit ∈ ["h", "hr", "hrs", "hour", "hours"].map ascii then some (lib.mul num hour)
  else if unit ∈ ["d", "day", "days"].map ascii then
    some (lib.mul (lib.mul num twentyFour) hour)
  else if unit ∈ ["w", "week", "weeks"].map ascii then
    some (lib.mul (lib.mul (lib.mul num seven) twentyFour) hour)
  else none

/-- The loop of `parseInterval`, each round of which takes a number and a unit off `s`. -/
def parseUnits (shown : Bytes) : ℕ → Bytes → Int64 → Except Bytes Int64
  | 0, _, total => .ok total
  | _, [], total => .ok total
  | fuel + 1, s, total => do
    let invalid := ascii "invalid interval " ++ lib.quote shown
    let number := s.takeWhile fun b => isDigit b || b == 46
    let s := s.drop number.length
    if number.isEmpty then throw invalid
    match lib.parseFloat number with
    | none => throw invalid
    | some num =>
      let unit := s.takeWhile fun b => decide (97 ≤ b ∧ b ≤ 122)
      if unit.isEmpty then throw (invalid ++ ascii " (missing unit)")
      match unitOf lib num unit with
      | none => throw (ascii "unknown interval unit " ++ lib.quote unit)
      | some nanos => parseUnits shown fuel (s.drop unit.length) (total + lib.toInt64 nanos)

def secondsOf (f : UInt64) : Except Bytes Int64 :=
  if F64.lt 0 f ∨ F64.isNaN f then .ok (lib.toInt64 (lib.mul f second))
  else .error (ascii "interval must be positive seconds")

def parseInterval (v : Value) : Except Bytes Int64 :=
  match v.type with
  | .int => secondsOf lib (lib.ofInt64 v.int)
  | .float => secondsOf lib v.flt
  | _ =>
    let s := lib.toLower (lib.trimSpace (v.string lib))
    if s.isEmpty then .error (ascii "empty interval")
    else match lib.parseFloat s with
      | some n => secondsOf lib n
      | none => parseUnits lib (v.string lib) s.length s 0

/-- `time_bucket` on its two values. -/
def timeBucket (iv ts : Value) : Eval Value :=
  if iv.null ∨ ts.null then return nullValue
  else match parseInterval lib iv with
    | .error msg => fail msg
    | .ok d =>
      if d ≤ 0 then fail (ascii "time_bucket interval must be positive")
      else do
        let t ← check (convert lib ts .timestamp)
        return timestampValue (lib.truncate t.tm d)

/-- The string argument of `substr` cut from `start`, and for `count` runes where there is a third
argument, whose error is ignored. -/
def substr (v start : Value) (count : Option (Eval Value)) : Eval Value :=
  let s := runes (v.string lib)
  let from_ := startOf start
  if (s.length : ℤ) < from_.toInt then return strValue []
  else match count with
    | some count => do
      let cnt ← tryCatch count fun e => pure e.1
      let sum := from_ + cnt.int
      let stop := if (s.length : ℤ) + 1 < sum.toInt then Int64.ofNat (s.length + 1) else sum
      let cut ← slice s (from_ - 1) (stop - 1)
      return strValue (ofRunes cut)
    | none => do
      let cut ← sliceFrom s (from_ - 1)
      return strValue (ofRunes cut)

def concat : List (Eval Value) → Eval Bytes
  | [] => return []
  | a :: args => do
    let v ← check a
    let rest ← concat args
    return if v.null then rest else v.string lib ++ rest

/-- `evalCall`. -/
def evalCall (fn : Bytes) (args : List (Eval Value)) : Eval Value :=
  match Fn.ofName (lib.toLower fn) with
  | .abs => do
    let v ← check (← index args 0)
    if v.type = .int then return intValue (lib.toInt64 (F64.abs (lib.ofInt64 v.int)))
    else match v.asFloat lib with
      | some f => return floatValue (F64.abs f)
      | none => fail (ascii "abs requires number")
  | .lower => do
    let v ← check (← index args 0)
    return if v.null then nullValue else strValue (lib.toLower (v.string lib))
  | .upper => do
    let v ← check (← index args 0)
    return if v.null then nullValue else strValue (lib.toUpper (v.string lib))
  | .length => do
    let v ← check (← index args 0)
    return if v.null then nullValue else intValue (Int64.ofNat (runes (v.string lib)).length)
  | .concat => do
    let s ← concat lib args
    return strValue s
  | .substr =>
    if args.length < 2 then fail (ascii "substr needs at least 2 args")
    else do
      let v ← check (← index args 0)
      let start ← check (← index args 1)
      substr lib v start args[2]?
  | .now => return timestampValue lib.now
  | .unixepoch => return intValue lib.nowUnix
  | .timeBucket =>
    if args.length ≠ 2 then fail (ascii "time_bucket(interval, ts) needs 2 args")
    else do
      let iv ← check (← index args 0)
      let ts ← check (← index args 1)
      timeBucket lib iv ts
  | .unknown => fail (ascii "unknown function " ++ lib.quote fn)

mutual

/-- `Eval`. -/
def eval (ctx : RowContext) : Expr → Eval Value
  | .nil => fail (ascii "cannot evaluate expression <nil>")
  | .literal l => return evalLiteral l
  | .ident name =>
    if name = ascii "*" then return nullValue
    else match ctx name with
      | some v => return v
      | none => fail (ascii "unknown column " ++ lib.quote name)
  | .unary op e => do
    let v ← check (eval ctx e)
    evalUnary lib op v
  | .cast e type => do
    let v ← check (eval ctx e)
    convert lib v type
  | .binary op left right => do
    let l ← check (eval ctx left)
    let r ← check (eval ctx right)
    evalBinary lib op l r
  | .call name args => evalCall lib name (evalArgs ctx args)

def evalArgs (ctx : RowContext) : List Expr → List (Eval Value)
  | [] => []
  | e :: es => eval ctx e :: evalArgs ctx es

end

theorem evalArgs_eq (ctx : RowContext) (es : List Expr) :
    evalArgs lib ctx es = es.map (eval lib ctx) := by
  induction es with
  | nil => rfl
  | cons e es ih => rw [evalArgs, List.map_cons, ih]

end

end Ydbgo.Sql
