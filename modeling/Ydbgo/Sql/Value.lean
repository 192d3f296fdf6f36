import Mathlib.Algebra.Group.Int.Defs
import Ydbgo.Lib.Decimal
import Ydbgo.Lib.Utf8
import Ydbgo.Sql.Ast

/-! # SQL values

`Value` with all its fields, as the evaluator reads some of them without looking
at the type. Floats are IEEE bit patterns; a time is an instant in nanoseconds
with the zone it is displayed in.
-/

namespace Ydbgo.Sql

structure Time where
  nanos : ℤ
  zone : ℤ
  deriving DecidableEq, Repr

/-- The zero `time.Time`, the start of the year 1. -/
def Time.zero : Time := { nanos := -62135596800000000000, zone := 0 }

/-- The parts of Go's standard library the evaluator calls that are tables, formats, floating-point
arithmetic or the clock. -/
structure Stdlib where
  toLower : Bytes → Bytes
  toUpper : Bytes → Bytes
  trimSpace : Bytes → Bytes
  quote : Bytes → Bytes
  formatFloat : UInt64 → Bytes
  parseFloat : Bytes → Option UInt64
  ofInt64 : Int64 → UInt64
  toInt64 : UInt64 → Int64
  add : UInt64 → UInt64 → UInt64
  sub : UInt64 → UInt64 → UInt64
  mul : UInt64 → UInt64 → UInt64
  div : UInt64 → UInt64 → UInt64
  round : UInt64 → UInt64
  formatTime : Time → Bytes
  parseTime : Bytes → Option Time
  unix : Int64 → Time
  now : Time
  nowUnix : Int64
  truncate : Time → Int64 → Time

/-- A library that knows ASCII only and has no floats and no calendar. -/
def Stdlib.plain : Stdlib where
  toLower s := s.map fun b => if 65 ≤ b ∧ b ≤ 90 then b + 32 else b
  toUpper s := s.map fun b => if 97 ≤ b ∧ b ≤ 122 then b - 32 else b
  trimSpace s := ((s.dropWhile (· ≤ 32)).reverse.dropWhile (· ≤ 32)).reverse
  quote s := [34] ++ s ++ [34]
  formatFloat _ := []
  parseFloat _ := none
  ofInt64 _ := 0
  toInt64 _ := 0
  add _ _ := 0
  sub _ _ := 0
  mul _ _ := 0
  div _ _ := 0
  round _ := 0
  formatTime _ := []
  parseTime _ := none
  unix n := { nanos := n.toInt * 10 ^ 9, zone := 0 }
  now := { nanos := 0, zone := 0 }
  nowUnix := 0
  truncate t _ := t

namespace F64

def isNaN (x : UInt64) : Bool := 0x7FF0000000000000 < x &&& 0x7FFFFFFFFFFFFFFF

/-- The place of a number among the others. Both zeros are zero. -/
def rank (x : UInt64) : ℤ :=
  if x < 0x8000000000000000 then x.toNat else -((x &&& 0x7FFFFFFFFFFFFFFF).toNat : ℤ)

def lt (x y : UInt64) : Bool := !isNaN x && !isNaN y && rank x < rank y

def eq (x y : UInt64) : Bool := !isNaN x && !isNaN y && rank x == rank y

def neg (x : UInt64) : UInt64 := x ^^^ 0x8000000000000000

def abs (x : UInt64) : UInt64 := x &&& 0x7FFFFFFFFFFFFFFF

end F64

structure Value where
  type : SqlType := .null
  null : Bool := false
  int : Int64 := 0
  flt : UInt64 := 0
  str : Bytes := []
  bool : Bool := false
  tm : Time := Time.zero
  missing : Bool := false
  deriving DecidableEq, Repr

def nullValue : Value := { type := .null, null := true }
def missingValue : Value := { type := .null, missing := true }
def intValue (n : Int64) : Value := { type := .int, int := n }
def floatValue (x : UInt64) : Value := { type := .float, flt := x }
def strValue (s : Bytes) : Value := { type := .string, str := s }
def boolValue (b : Bool) : Value := { type := .bool, bool := b }
def timestampValue (t : Time) : Value := { type := .timestamp, tm := t }

/-- `Type.String()`. -/
def SqlType.name : SqlType → Bytes
  | .int => ascii "int64"
  | .float => ascii "float64"
  | .string => ascii "string"
  | .bool => ascii "bool"
  | .timestamp => ascii "timestamp"
  | .null | .other _ => ascii "null"

/-- `strconv.FormatInt(n, 10)`. -/
def formatInt (n : Int64) : Bytes := ascii (toString n.toInt)

def isDigit (b : UInt8) : Bool := 48 ≤ b ∧ b ≤ 57

/-- `strconv.ParseInt(s, 10, 64)`. -/
def parseInt (s : Bytes) : Option Int64 :=
  let (neg, digits) := match s with
    | 43 :: s => (false, s)
    | 45 :: s => (true, s)
    | s => (false, s)
  if digits.isEmpty ∨ ¬ digits.all isDigit then none
  else
    let n : ℕ := digits.foldl (fun n b => n * 10 + (b.toNat - 48)) 0
    if neg then if n ≤ 2 ^ 63 then some (Int64.ofInt (-n)) else none
    else if n < 2 ^ 63 then some (Int64.ofInt n) else none

theorem formatInt_of_nonneg {n : Int64} (h : 0 ≤ n.toInt) :
    formatInt n = formatNat n.toInt.toNat := by
  obtain ⟨m, hm⟩ := Int.eq_ofNat_of_zero_le h
  simp only [formatInt, formatNat, hm, Int.toNat_natCast]
  rfl

theorem formatInt_of_neg {n : Int64} (h : n.toInt < 0) :
    formatInt n = 45 :: formatNat n.toInt.natAbs := by
  obtain ⟨m, hm⟩ := Int.eq_negSucc_of_lt_zero h
  simp only [formatInt, formatNat, hm, Int.natAbs_negSucc]
  exact ascii_append "-" (toString (m + 1))

theorem all_isDigit_formatNat (n : ℕ) : (formatNat n).all isDigit := by
  rw [List.all_eq_true]
  rintro b hb
  obtain ⟨h1, h2⟩ := mem_formatNat hb
  simp only [isDigit, UInt8.le_iff_toNat_le, decide_eq_true_eq]
  exact ⟨h1, h2⟩

theorem parseInt_digits {b : UInt8} {s : Bytes} (h : (b :: s).all isDigit) :
    parseInt (b :: s) = if natOfDigits (b :: s) < 2 ^ 63 then
      some (Int64.ofInt (natOfDigits (b :: s))) else none := by
  have hb : isDigit b := List.all_eq_true.mp h b List.mem_cons_self
  unfold parseInt
  split
  next neg digits he =>
    split at he
    · next heq =>
      cases heq
      exact absurd hb (by decide)
    · next heq =>
      cases heq
      exact absurd hb (by decide)
    · obtain ⟨rfl, rfl⟩ := he
      simp [h, natOfDigits]

theorem parseInt_minus {s : Bytes} (hnil : s ≠ []) (h : s.all isDigit) :
    parseInt (45 :: s) = if natOfDigits s ≤ 2 ^ 63 then
      some (Int64.ofInt (-(natOfDigits s : ℤ))) else none := by
  simp [parseInt, hnil, h, natOfDigits]

/-- An integer is read back from its text. -/
theorem parseInt_formatInt (n : Int64) : parseInt (formatInt n) = some n := by
  have hlo := n.le_toInt
  have hhi := n.toInt_lt
  by_cases h : 0 ≤ n.toInt
  · have hnil := formatNat_ne_nil n.toInt.toNat
    have hall := all_isDigit_formatNat n.toInt.toNat
    have hnat := natOfDigits_formatNat n.toInt.toNat
    rw [formatInt_of_nonneg h]
    obtain ⟨b, s, hs⟩ := List.exists_cons_of_ne_nil hnil
    rw [hs] at hall hnat ⊢
    rw [parseInt_digits hall, hnat, if_pos (by omega), Int.toNat_of_nonneg h, Int64.ofInt_toInt]
  · rw [formatInt_of_neg (by omega), parseInt_minus (formatNat_ne_nil _)
      (all_isDigit_formatNat _), natOfDigits_formatNat, if_pos (by omega)]
    rw [show -(n.toInt.natAbs : ℤ) = n.toInt by omega, Int64.ofInt_toInt]

theorem formatInt_ne_nil (n : Int64) : formatInt n ≠ [] := by
  intro h
  have := parseInt_formatInt n
  rw [h] at this
  cases this

/-- The result of an evaluator: `none` is a panic, and an error comes with the value returned
beside it. -/
abbrev Eval : Type → Type := ExceptT (Value × Bytes) Option

/-- An index or slice expression out of range. -/
def panic {α : Type} : Eval α := (none : Option (Except (Value × Bytes) α))

def failWith {α : Type} (v : Value) (msg : Bytes) : Eval α := throw (v, msg)

def fail {α : Type} (msg : Bytes) : Eval α := failWith nullValue msg

/-- `v, err := x; if err != nil { return NullValue, err }`. -/
def check {α : Type} (x : Eval α) : Eval α := tryCatch x fun e => fail e.2

/-- `xs[i]`. -/
def index {α : Type} (xs : List α) (i : ℕ) : Eval α :=
  match xs[i]? with
  | some a => return a
  | none => panic

/-- `xs[lo:hi]`. The largest int is past the end of any slice. -/
def slice {α : Type} (xs : List α) (lo hi : Int64) : Eval (List α) :=
  if 0 ≤ lo.toInt ∧ lo.toInt ≤ hi.toInt ∧ hi.toInt ≤ xs.length ∧ hi.toInt < 2 ^ 63 - 1 then
    return (xs.take hi.toInt.toNat).drop lo.toInt.toNat
  else panic

/-- `xs[lo:]`. -/
def sliceFrom {α : Type} (xs : List α) (lo : Int64) : Eval (List α) :=
  if 0 ≤ lo.toInt ∧ lo.toInt ≤ xs.length then return xs.drop lo.toInt.toNat else panic

variable (lib : Stdlib)

/-- `Value.String()`. -/
def Value.string (v : Value) : Bytes :=
  match v.type with
  | .null => ascii "NULL"
  | .int => formatInt v.int
  | .float => lib.formatFloat v.flt
  | .string => v.str
  | .bool => if v.bool then ascii "true" else ascii "false"
  | .timestamp => lib.formatTime v.tm
  | .other _ => []

def Value.asFloat (v : Value) : Option UInt64 :=
  match v.type with
  | .int => some (lib.ofInt64 v.int)
  | .float => some v.flt
  | _ => none

/-- -1, 0 or 1 from the two strict comparisons. -/
def threeWay (lt gt : Bool) : Ordering := if lt then .lt else if gt then .gt else .eq

def compareTimes (a b : Time) : Ordering :=
  threeWay (a.nanos < b.nanos) (b.nanos < a.nanos)

/-- `strings.Compare`. -/
def compareBytes (a b : Bytes) : Ordering := threeWay (a < b) (b < a)

def compareFloats (a b : UInt64) : Ordering := threeWay (F64.lt a b) (F64.lt b a)

def compareInts (a b : Int64) : Ordering := threeWay (a < b) (b < a)

/-- `Compare`, which never returns an error. -/
def Value.compare (a b : Value) : Ordering :=
  if a.null ∨ b.null then
    if a.null ∧ b.null then .eq else if a.null then .lt else .gt
  else
    let display := compareBytes (a.string lib) (b.string lib)
    match a.type, b.type with
    | .int, .int => compareInts a.int b.int
    | .int, .float => compareFloats (lib.ofInt64 a.int) b.flt
    | .float, .int => compareFloats a.flt (lib.ofInt64 b.int)
    | .float, .float => compareFloats a.flt b.flt
    | .string, .string => compareBytes a.str b.str
    | .bool, .bool => if a.bool = b.bool then .eq else if a.bool then .gt else .lt
    | .timestamp, .timestamp => compareTimes a.tm b.tm
    | .string, .timestamp =>
      match lib.parseTime a.str with
      | some t => compareTimes b.tm t
      | none => display
    | .timestamp, .string =>
      match lib.parseTime b.str with
      | some t => compareTimes a.tm t
      | none => display
    | .timestamp, .int => compareTimes a.tm (lib.unix b.int)
    | .int, .timestamp => compareTimes (lib.unix a.int) b.tm
    | _, _ => display

/-- The error of a conversion that a string's text does not allow. -/
def cannotParse (v : Value) (t : SqlType) : Eval Value :=
  failWith v (ascii "cannot convert " ++ lib.quote v.str ++ ascii " to " ++ t.name)

/-- `Convert`, which returns the value itself beside its errors. -/
def convert (v : Value) (t : SqlType) : Eval Value :=
  if v.null then return nullValue
  else match t, v.type with
    | .int, .int => return v
    | .int, .float => return intValue (lib.toInt64 v.flt)
    | .int, .string =>
      match parseInt (lib.trimSpace v.str) with
      | some n => return intValue n
      | none => cannotParse lib v .int
    | .int, .bool => return intValue (if v.bool then 1 else 0)
    | .float, .float => return v
    | .float, .int => return floatValue (lib.ofInt64 v.int)
    | .float, .string =>
      match lib.parseFloat (lib.trimSpace v.str) with
      | some x => return floatValue x
      | none => cannotParse lib v .float
    | .string, _ => return strValue (v.string lib)
    | .bool, .bool => return v
    | .bool, .int => return boolValue (v.int != 0)
    | .bool, .string =>
      let s := lib.toLower (lib.trimSpace v.str)
      if s = ascii "true" ∨ s = ascii "1" then return boolValue true
      else if s = ascii "false" ∨ s = ascii "0" then return boolValue false
      else cannotParse lib v .bool
    | .timestamp, .timestamp => return v
    | .timestamp, .int => return timestampValue (lib.unix v.int)
    | .timestamp, .string =>
      match lib.parseTime v.str with
      | some t => return timestampValue t
      | none => cannotParse lib v .timestamp
    | t, type => failWith v (ascii "cannot convert " ++ type.name ++ ascii " to " ++ t.name)

end Ydbgo.Sql
