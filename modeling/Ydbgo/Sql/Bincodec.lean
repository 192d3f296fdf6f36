import Mathlib.Data.List.Basic
import Ydbgo.Lib.Varint
import Ydbgo.Sql.Ast

/-! # The binary statement codec

The encoding of a raft entry's statements, `bincodec.go`. An encoder returns
`none` where the code panics, that is on a nil expression. A decoder threads the
reader, whose first error sticks; `none` is again a panic.
-/

namespace Ydbgo.Sql

def binaryOps : List BinOp :=
  [.add, .sub, .mul, .div, .eq, .lt, .gt, .le, .ge, .ne, .and, .or]

def unaryOps : List UnOp := [.not, .neg, .pos]

/-- `byte(opIndex(list, op) + 1)`: zero for an operator that is not in the list. -/
def opByte {α : Type} [DecidableEq α] (list : List α) (op : α) : UInt8 :=
  match list.idxOf? op with
  | some i => UInt8.ofNat (i + 1)
  | none => 0

/-- `list[op-1]`, where the index is in range. -/
def opAt {α : Type} (list : List α) (op : UInt8) : Option α :=
  if op = 0 then none else list[op.toNat - 1]?

section Encode

def encodeUvarint (n : ℕ) : Bytes := putUvarint (UInt64.ofNat n)

def encodeVarint (n : Int64) : Bytes := putUvarint n.toUInt64

def encodeStr (s : Bytes) : Bytes := encodeUvarint s.length ++ s

def encodeBool (b : Bool) : Bytes := [if b then 1 else 0]

def encodeFloat (bits : UInt64) : Bytes := encodeVarint bits.toInt64

def encodeAll {α : Type} (enc : α → Option Bytes) : List α → Option Bytes
  | [] => some []
  | a :: as => do
    let bs ← enc a
    let cs ← encodeAll enc as
    return bs ++ cs

def encodeStrs (ss : List Bytes) : Option Bytes := encodeAll (fun s => some (encodeStr s)) ss

def encodeLiteral (l : Literal) : Bytes :=
  l.type.toByte :: match l with
  | .int n | .timestamp n => encodeVarint n
  | .float bits => encodeFloat bits
  | .string s => encodeStr s
  | .bool b => encodeBool b
  | .null | .other _ => []

mutual

def encodeExpr : Expr → Option Bytes
  | .nil => none
  | .literal l => some (1 :: encodeLiteral l)
  | .ident name => some (2 :: encodeStr name)
  | .binary op left right => do
    let l ← encodeExpr left
    let r ← encodeExpr right
    return 3 :: opByte binaryOps op :: (l ++ r)
  | .unary op e => do
    let bs ← encodeExpr e
    return 4 :: opByte unaryOps op :: bs
  | .call name args => do
    let bs ← encodeExprs args
    return 5 :: (encodeStr name ++ (encodeUvarint args.length ++ bs))
  | .cast e type => do
    let bs ← encodeExpr e
    return 6 :: (bs ++ [type.toByte])

def encodeExprs : List Expr → Option Bytes
  | [] => some []
  | e :: es => do
    let bs ← encodeExpr e
    let cs ← encodeExprs es
    return bs ++ cs

end

/-- An expression that may be nil, after the flag that says it is there. -/
def encodeOpt : Expr → Option Bytes
  | .nil => some (encodeBool false)
  | e => do
    let bs ← encodeExpr e
    return encodeBool true ++ bs

def encodeColumn (c : ColumnDef) : Option Bytes := do
  let d ← encodeOpt c.default
  return encodeStr c.name ++ ([c.type.toByte] ++ (encodeBool c.notNull ++
    (encodeBool c.asPrimary ++ d)))

def encodeRow (row : List Expr) : Option Bytes := do
  let bs ← encodeExprs row
  return encodeUvarint row.length ++ bs

def encodeSet (it : SetItem) : Option Bytes := do
  let v ← encodeExpr it.value
  return encodeStr it.column ++ v

def encodeItem (it : SelectItem) : Option Bytes := do
  let e ← encodeExpr it.expr
  return e ++ encodeStr it.alias_

def encodeOrder (o : OrderItem) : Option Bytes := do
  let e ← encodeExpr o.expr
  return e ++ encodeBool o.desc

def encodeSelect (s : SelectStmt) : Option Bytes := do
  let items ← encodeAll encodeItem s.items
  let w ← encodeOpt s.where_
  let groups ← encodeExprs s.groupBy
  let orders ← encodeAll encodeOrder s.orderBy
  return encodeBool s.distinct ++ (encodeUvarint s.items.length ++ (items ++ (encodeStr s.from_ ++
    (w ++ (encodeUvarint s.groupBy.length ++ (groups ++ (encodeUvarint s.orderBy.length ++
      (orders ++ (encodeBool s.hasLimit ++ encodeVarint s.limit)))))))))

def encodeStmt : Statement → Option Bytes
  | .createTable name columns pk ifNotExists engine retention => do
    let cs ← encodeAll encodeColumn columns
    let ps ← encodeStrs pk
    return 1 :: (encodeStr name ++ (encodeUvarint columns.length ++ (cs ++
      (encodeUvarint pk.length ++ (ps ++ (encodeBool ifNotExists ++ (encodeStr engine ++
        encodeVarint retention)))))))
  | .dropTable name ifExists => some (2 :: (encodeStr name ++ encodeBool ifExists))
  | .createIndex name table columns ifNotExists => do
    let cs ← encodeStrs columns
    return 3 :: (encodeStr name ++ (encodeStr table ++ (encodeUvarint columns.length ++ (cs ++
      encodeBool ifNotExists))))
  | .dropIndex name table ifExists =>
    some (4 :: (encodeStr name ++ (encodeStr table ++ encodeBool ifExists)))
  | .insert table columns rows => do
    let cs ← encodeStrs columns
    let rs ← encodeAll encodeRow rows
    return 5 :: (encodeStr table ++ (encodeUvarint columns.length ++ (cs ++
      (encodeUvarint rows.length ++ rs))))
  | .update table sets w => do
    let ss ← encodeAll encodeSet sets
    let ws ← encodeOpt w
    return 6 :: (encodeStr table ++ (encodeUvarint sets.length ++ (ss ++ ws)))
  | .delete table w => do
    let ws ← encodeOpt w
    return 7 :: (encodeStr table ++ ws)
  | .begin_ => some [8]
  | .commit => some [9]
  | .rollback => some [10]
  | .createDatabase name => some (11 :: encodeStr name)
  | .select s => do
    let bs ← encodeSelect s
    return 12 :: bs
  | .kvPut table key value => some (13 :: (encodeStr table ++ (encodeStr key ++ encodeStr value)))
  | .kvGet table key => some (14 :: (encodeStr table ++ encodeStr key))
  | .kvDelete table key => some (15 :: (encodeStr table ++ encodeStr key))
  | .kvScan table start stop hasStart hasEnd =>
    some (16 :: (encodeStr table ++ (encodeStr start ++ (encodeStr stop ++
      (encodeBool hasStart ++ encodeBool hasEnd)))))

def encodeStatements (stmts : List Statement) : Option Bytes := do
  let bs ← encodeAll encodeStmt stmts
  return encodeUvarint stmts.length ++ bs

end Encode

/-- The `bReader`. -/
structure Reader where
  buf : Bytes
  pos : ℕ
  err : Option String
  deriving DecidableEq

abbrev Decoder : Type → Type := StateT Reader Option

section Decode

def readUvarint : Decoder UInt64 := fun r =>
  if r.err.isSome then some (0, r)
  else match uvarint (r.buf.drop r.pos) with
    | none => some (0, { r with err := some "sql: bad varint" })
    | some (v, n) => some (v, { r with pos := r.pos + n })

def readVarint : Decoder Int64 := do
  let u ← readUvarint
  return u.toInt64

def readByte : Decoder UInt8 := fun r =>
  match r.err, r.buf[r.pos]? with
  | none, some b => some (b, { r with pos := r.pos + 1 })
  | _, _ => some (0, { r with err := some "sql: short read" })

/-- `r.pos+n` wraps; a sum below `r.pos` that passes the check makes the slice panic. -/
def take (n : Int64) : Decoder Bytes := fun r =>
  let stop := (Int64.ofNat r.pos + n).toInt
  if r.err.isSome ∨ (r.buf.length : ℤ) < stop then
    some ([], { r with err := some "sql: short read" })
  else if stop < r.pos then none
  else some ((r.buf.drop r.pos).take (stop.toNat - r.pos), { r with pos := stop.toNat })

def readBool : Decoder Bool := do
  let b ← readByte
  return b == 1

def readStr : Decoder Bytes := do
  let n ← readUvarint
  take n.toInt64

def takeBytes : Decoder Bytes := do
  let n ← readUvarint
  take n.toInt64

def readFloat : Decoder UInt64 := do
  let n ← readVarint
  return n.toUInt64

def readType : Decoder SqlType := do
  let b ← readByte
  return SqlType.ofByte b

def useErr : Decoder (Option String) := fun r => some (r.err, r)

/-- `make([]T, 0, n)` for a slice of interfaces of two words each. -/
def make (n : Int64) : Decoder Unit := fun r =>
  if n.toInt < 0 ∨ 2 ^ 48 < 16 * n.toInt then none else some ((), r)

/-- `for i := 0; i < n; i++`, collecting. -/
def times {α : Type} : ℕ → Decoder α → Decoder (List α)
  | 0, _ => return []
  | n + 1, d => do
    let a ← d
    let as ← times n d
    return a :: as

/-- The same loop, returning at the first error. -/
def timesOrErr {α : Type} : ℕ → Decoder (Except String α) → Decoder (Except String (List α))
  | 0, _ => return .ok []
  | n + 1, d => do
    match ← d with
    | .error err => return .error err
    | .ok a =>
      match ← timesOrErr n d with
      | .error err => return .error err
      | .ok as => return .ok (a :: as)

def readCount : Decoder ℕ := do
  let n ← readUvarint
  return n.toInt64.toInt.toNat

def readLiteral : Decoder Literal := do
  match ← readType with
  | .int => return .int (← readVarint)
  | .timestamp => return .timestamp (← readVarint)
  | .float => return .float (← readFloat)
  | .string => return .string (← readStr)
  | .bool => return .bool (← readBool)
  | .null => return .null
  | .other k => return .other k

/-- `e, _ := d`: an error comes with a nil expression. -/
def ignoreErr (d : Decoder (Except String Expr)) : Decoder Expr := do
  match ← d with
  | .ok e => return e
  | .error _ => return .nil

/-- The fuel bounds the depth of the nested calls, each of which reads a byte or fails. -/
def decodeExpr : ℕ → Decoder (Except String Expr)
  | 0 => fun _ => none
  | fuel + 1 => do
    let t ← readByte
    match t with
    | 1 => return .ok (.literal (← readLiteral))
    | 2 => return .ok (.ident (← readStr))
    | 3 =>
      let op ← readByte
      let left ← ignoreErr (decodeExpr fuel)
      let right ← ignoreErr (decodeExpr fuel)
      match opAt binaryOps op with
      | none => return .error "sql: bad binary op"
      | some op => return .ok (.binary op left right)
    | 4 =>
      let op ← readByte
      let e ← ignoreErr (decodeExpr fuel)
      match opAt unaryOps op with
      | none => return .error "sql: bad unary op"
      | some op => return .ok (.unary op e)
    | 5 =>
      let name ← readStr
      let na ← readCount
      let args ← times na (ignoreErr (decodeExpr fuel))
      return .ok (.call name args)
    | 6 =>
      let e ← ignoreErr (decodeExpr fuel)
      let type ← readType
      return .ok (.cast e type)
    | t => return .error s!"sql: unknown expr type {t}"

def decodeOpt (fuel : ℕ) : Decoder Expr := do
  if ← readBool then ignoreErr (decodeExpr fuel) else return .nil

def decodeColumn (fuel : ℕ) : Decoder ColumnDef := do
  let name ← readStr
  let type ← readType
  let notNull ← readBool
  let asPrimary ← readBool
  let default ← decodeOpt fuel
  return { name, type, notNull, default, asPrimary }

def decodeRow (fuel : ℕ) : Decoder (Except String (List Expr)) := do
  let n ← readUvarint
  make n.toInt64
  timesOrErr n.toInt64.toInt.toNat (decodeExpr fuel)

def decodeSet (fuel : ℕ) : Decoder SetItem := do
  let column ← readStr
  let value ← ignoreErr (decodeExpr fuel)
  return { column, value }

def decodeItem (fuel : ℕ) : Decoder SelectItem := do
  let expr ← ignoreErr (decodeExpr fuel)
  let alias_ ← readStr
  return { expr, alias_ }

def decodeOrder (fuel : ℕ) : Decoder OrderItem := do
  let expr ← ignoreErr (decodeExpr fuel)
  let desc ← readBool
  return { expr, desc }

def decodeSelect (fuel : ℕ) : Decoder SelectStmt := do
  let distinct ← readBool
  let ni ← readCount
  let items ← times ni (decodeItem fuel)
  let from_ ← readStr
  let where_ ← decodeOpt fuel
  let ng ← readCount
  let groupBy ← times ng (ignoreErr (decodeExpr fuel))
  let no ← readCount
  let orderBy ← times no (decodeOrder fuel)
  let hasLimit ← readBool
  let limit ← readVarint
  return { distinct, items, from_, where_, groupBy, orderBy, limit, hasLimit }

def decodeStmt (fuel : ℕ) : Decoder (Except String Statement) := do
  let t ← readByte
  match t with
  | 1 =>
    let name ← readStr
    let nc ← readCount
    let columns ← times nc (decodeColumn fuel)
    let np ← readCount
    let pk ← times np readStr
    let ifNotExists ← readBool
    let engine ← readStr
    let retention ← readVarint
    return .ok (.createTable name columns pk ifNotExists engine retention)
  | 2 =>
    let name ← readStr
    let ifExists ← readBool
    return .ok (.dropTable name ifExists)
  | 3 =>
    let name ← readStr
    let table ← readStr
    let nc ← readCount
    let columns ← times nc readStr
    let ifNotExists ← readBool
    return .ok (.createIndex name table columns ifNotExists)
  | 4 =>
    let name ← readStr
    let table ← readStr
    let ifExists ← readBool
    return .ok (.dropIndex name table ifExists)
  | 5 =>
    let table ← readStr
    let nc ← readCount
    let columns ← times nc readStr
    let nr ← readCount
    match ← timesOrErr nr (decodeRow fuel) with
    | .error err => return .error err
    | .ok rows => return .ok (.insert table columns rows)
  | 6 =>
    let table ← readStr
    let ns ← readCount
    let sets ← times ns (decodeSet fuel)
    let where_ ← decodeOpt fuel
    return .ok (.update table sets where_)
  | 7 =>
    let table ← readStr
    let where_ ← decodeOpt fuel
    return .ok (.delete table where_)
  | 8 => return .ok .begin_
  | 9 => return .ok .commit
  | 10 => return .ok .rollback
  | 11 => return .ok (.createDatabase (← readStr))
  | 12 => return .ok (.select (← decodeSelect fuel))
  | 13 =>
    let table ← readStr
    let key ← takeBytes
    let value ← takeBytes
    return .ok (.kvPut table key value)
  | 14 =>
    let table ← readStr
    let key ← takeBytes
    return .ok (.kvGet table key)
  | 15 =>
    let table ← readStr
    let key ← takeBytes
    return .ok (.kvDelete table key)
  | 16 =>
    let table ← readStr
    let start ← takeBytes
    let stop ← takeBytes
    let hasStart ← readBool
    let hasEnd ← readBool
    return .ok (.kvScan table start stop hasStart hasEnd)
  | t => return .error s!"sql: unknown statement type {t}"

def decodeStmts (fuel : ℕ) : Decoder (Except String (List Statement)) := do
  let n ← readUvarint
  make n.toInt64
  match ← timesOrErr n.toInt64.toInt.toNat (decodeStmt fuel) with
  | .error err => return .error err
  | .ok stmts =>
    match ← useErr with
    | some err => return .error err
    | none => return .ok stmts

def decodeStatements (data : Bytes) : Option (Except String (List Statement)) :=
  (decodeStmts data.length { buf := data, pos := 0, err := none }).map Prod.fst

end Decode

end Ydbgo.Sql
