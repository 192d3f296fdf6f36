import Ydbgo.Lib.BigEndian
import Ydbgo.Sql.Value

/-! # The encoding of primary keys

`encodeKey`: each value as its type byte, a guard byte, a payload whose byte
order is the order of the values, and a guard byte.
-/

namespace Ydbgo.Storage

open Sql (Value SqlType)

/-- The storage's `sqlType`. -/
inductive ColType where
  | int
  | float
  | string
  | bool
  | timestamp
  deriving DecidableEq, Repr

def ColType.toByte : ColType → UInt8
  | int => 0
  | float => 1
  | string => 2
  | bool => 3
  | timestamp => 4

/-- The storage's `sqlValue`. -/
structure SqlValue where
  typ : ColType := .int
  null : Bool := false
  missing : Bool := false
  i : Int64 := 0
  f : UInt64 := 0
  s : Bytes := []
  b : Bool := false
  deriving DecidableEq, Repr

/-- `UnixMicro`. -/
def unixMicro (t : Sql.Time) : Int64 := Int64.ofInt (t.nanos / 1000)

def fromSQLValue (v : Value) : SqlValue :=
  if v.missing then { missing := true }
  else match v.type with
    | .int => if v.null then { typ := .int, null := true } else { typ := .int, i := v.int }
    | .float => if v.null then { typ := .float, null := true } else { typ := .float, f := v.flt }
    | .string =>
      if v.null then { typ := .string, null := true } else { typ := .string, s := v.str }
    | .bool => if v.null then { typ := .bool, null := true } else { typ := .bool, b := v.bool }
    | .timestamp =>
      if v.null then { typ := .timestamp, null := true }
      else { typ := .timestamp, i := unixMicro v.tm }
    | .null | .other _ => { typ := .string, null := true }

/-- An integer moved up by 2^63, big-endian. -/
def sortableInt (n : Int64) : Bytes := beBytes 8 (n.toUInt64 + 0x8000000000000000).toNat

def mathFloatToSortable (f : UInt64) : UInt64 :=
  if f &&& 0x8000000000000000 ≠ 0 then ~~~f else f ||| 0x8000000000000000

def keyPayload (v : SqlValue) : Bytes :=
  match v.typ with
  | .int | .timestamp => sortableInt v.i
  | .float => beBytes 8 (mathFloatToSortable v.f).toNat
  | .string => v.s ++ [0]
  | .bool => [if v.b then 2 else 1]

def encodeKeyValue (v : SqlValue) : Bytes := [v.typ.toByte, 0xff] ++ keyPayload v ++ [0xff]

def encodeKey (vals : List SqlValue) : Bytes := vals.flatMap encodeKeyValue

def encodePK (values : List Value) : Bytes := encodeKey (values.map fromSQLValue)

end Ydbgo.Storage
