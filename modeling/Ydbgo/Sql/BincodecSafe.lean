import Ydbgo.Sql.BincodecRoundTrip
import Ydbgo.Sql.Layout

/-! # The statement decoder on arbitrary bytes

`DecodeStatements` with each index, slice, `make` and loop bound checked. It is
safe exactly on the inputs with sound lengths and counts, and what is left of an
encoding that was cut is refused: the reader's first error sticks, even where
the error of an expression is dropped.
-/

namespace Ydbgo.Sql

variable {α β : Type}

/-! ### The decoder as a layout -/

namespace Checked

def byte : Layout UInt8 := .byte .done

def uvarint : Layout UInt64 := .uvarint .done

def varint : Layout Int64 := do
  let u ← uvarint
  return u.toInt64

def take (n : Int64) : Layout Bytes := .take n .done

def bool : Layout Bool := do
  let b ← byte
  return b == 1

def str : Layout Bytes := do
  let n ← uvarint
  take n.toInt64

def float : Layout UInt64 := do
  let n ← varint
  return n.toUInt64

def typeByte : Layout SqlType := do
  let b ← byte
  return SqlType.ofByte b

/-- The bound of the loop that follows. -/
def count : Layout ℕ := do
  let n ← uvarint
  .loop n.toInt64 (.done n.toInt64.toInt.toNat)

/-- The bound of the loop that follows, after a slice of that size was made. -/
def made : Layout ℕ := do
  let n ← uvarint
  .make n.toInt64 (.done n.toInt64.toInt.toNat)

def times : ℕ → Layout α → Layout (List α)
  | 0, _ => return []
  | n + 1, t => do
    let a ← t
    let as ← times n t
    return a :: as

def timesOrErr : ℕ → Layout (Except String α) → Layout (Except String (List α))
  | 0, _ => return .ok []
  | n + 1, t => do
    match ← t with
    | .error err => return .error err
    | .ok a =>
      match ← timesOrErr n t with
      | .error err => return .error err
      | .ok as => return .ok (a :: as)

def readLiteral : Layout Literal := do
  match ← typeByte with
  | .int => return .int (← varint)
  | .timestamp => return .timestamp (← varint)
  | .float => return .float (← float)
  | .string => return .string (← str)
  | .bool => return .bool (← bool)
  | .null => return .null
  | .other k => return .other k

def ignoreErr (t : Layout (Except String Expr)) : Layout Expr := do
  match ← t with
  | .ok e => return e
  | .error _ => return .nil

section Expr

variable (expr : Layout (Except String Expr))

/-- An expression behind its tag, with the decoder of its parts. -/
def exprOf (t : UInt8) : Layout (Except String Expr) :=
  match t with
  | 1 => return .ok (.literal (← readLiteral))
  | 2 => return .ok (.ident (← str))
  | 3 => do
    let op ← byte
    let left ← ignoreErr expr
    let right ← ignoreErr expr
    match opAt binaryOps op with
    | none => return .error "sql: bad binary op"
    | some op => return .ok (.binary op left right)
  | 4 => do
    let op ← byte
    let e ← ignoreErr expr
    match opAt unaryOps op with
    | none => return .error "sql: bad unary op"
    | some op => return .ok (.unary op e)
  | 5 => do
    let name ← str
    let na ← count
    let args ← times na (ignoreErr expr)
    return .ok (.call name args)
  | 6 => do
    let e ← ignoreErr expr
    let type ← typeByte
    return .ok (.cast e type)
  | t => return .error s!"sql: unknown expr type {t}"

end Expr

def decodeExpr : ℕ → Layout (Except String Expr)
  | 0 => .stuck
  | fuel + 1 => do
    let t ← byte
    exprOf (decodeExpr fuel) t

section Statements

variable (expr : Layout (Except String Expr))

def decodeOpt : Layout Expr := do
  if ← bool then ignoreErr expr else return .nil

def decodeColumn : Layout ColumnDef := do
  let name ← str
  let type ← typeByte
  let notNull ← bool
  let asPrimary ← bool
  let default ← decodeOpt expr
  return { name, type, notNull, default, asPrimary }

def decodeRow : Layout (Except String (List Expr)) := do
  let n ← made
  timesOrErr n expr

def decodeSet : Layout SetItem := do
  let column ← str
  let value ← ignoreErr expr
  return { column, value }

def decodeItem : Layout SelectItem := do
  let expr ← ignoreErr expr
  let alias_ ← str
  return { expr, alias_ }

def decodeOrder : Layout OrderItem := do
  let expr ← ignoreErr expr
  let desc ← bool
  return { expr, desc }

def decodeSelect : Layout SelectStmt := do
  let distinct ← bool
  let ni ← count
  let items ← times ni (decodeItem expr)
  let from_ ← str
  let where_ ← decodeOpt expr
  let ng ← count
  let groupBy ← times ng (ignoreErr expr)
  let no ← count
  let orderBy ← times no (decodeOrder expr)
  let hasLimit ← bool
  let limit ← varint
  return { distinct, items, from_, where_, groupBy, orderBy, limit, hasLimit }

def stmtOf (t : UInt8) : Layout (Except String Statement) :=
  match t with
  | 1 => do
    let name ← str
    let nc ← count
    let columns ← times nc (decodeColumn expr)
    let np ← count
    let pk ← times np str
    let ifNotExists ← bool
    let engine ← str
    let retention ← varint
    return .ok (.createTable name columns pk ifNotExists engine retention)
  | 2 => do
    let name ← str
    let ifExists ← bool
    return .ok (.dropTable name ifExists)
  | 3 => do
    let name ← str
    let table ← str
    let nc ← count
    let columns ← times nc str
    let ifNotExists ← bool
    return .ok (.createIndex name table columns ifNotExists)
  | 4 => do
    let name ← str
    let table ← str
    let ifExists ← bool
    return .ok (.dropIndex name table ifExists)
  | 5 => do
    let table ← str
    let nc ← count
    let columns ← times nc str
    let nr ← count
    match ← timesOrErr nr (decodeRow expr) with
    | .error err => return .error err
    | .ok rows => return .ok (.insert table columns rows)
  | 6 => do
    let table ← str
    let ns ← count
    let sets ← times ns (decodeSet expr)
    let where_ ← decodeOpt expr
    return .ok (.update table sets where_)
  | 7 => do
    let table ← str
    let where_ ← decodeOpt expr
    return .ok (.delete table where_)
  | 8 => return .ok .begin_
  | 9 => return .ok .commit
  | 10 => return .ok .rollback
  | 11 => return .ok (.createDatabase (← str))
  | 12 => return .ok (.select (← decodeSelect expr))
  | 13 => do
    let table ← str
    let key ← str
    let value ← str
    return .ok (.kvPut table key value)
  | 14 => do
    let table ← str
    let key ← str
    return .ok (.kvGet table key)
  | 15 => do
    let table ← str
    let key ← str
    return .ok (.kvDelete table key)
  | 16 => do
    let table ← str
    let start ← str
    let stop ← str
    let hasStart ← bool
    let hasEnd ← bool
    return .ok (.kvScan table start stop hasStart hasEnd)
  | t => return .error s!"sql: unknown statement type {t}"

def decodeStmt : Layout (Except String Statement) := do
  let t ← byte
  stmtOf expr t

def useErr : Layout (Option String) := .useErr .done

/-- The loop over the statements. -/
def stmtsOf (n : ℕ) : Layout (Except String (List Statement)) := do
  match ← timesOrErr n (decodeStmt expr) with
  | .error err => return .error err
  | .ok stmts =>
    match ← useErr with
    | some err => return .error err
    | none => return .ok stmts

def decodeStmts : Layout (Except String (List Statement)) := do
  let n ← made
  stmtsOf expr n

end Statements

end Checked

/-- `DecodeStatements` without a panic and with no count that is negative or above the length of the
input. -/
def Safe (data : Bytes) : Prop :=
  ∃ res, (Checked.decodeStmts (Checked.decodeExpr data.length)).checked
    { buf := data, pos := 0, err := none } = some res

/-- The lengths and the counts are sound, as far as they are read. -/
def SoundStatements (data : Bytes) : Prop :=
  (Checked.decodeStmts (Checked.decodeExpr data.length)).sound data.length data

instance (data : Bytes) : Decidable (SoundStatements data) := inferInstanceAs (Decidable (_ = true))

/-! ### It is the decoder -/

namespace Checked

open Layout

theorem run_bind (t : Layout α) (f : α → Layout β) : (t >>= f).run = t.run >>= fun a => (f a).run :=
  runWith_bind t f

theorem run_pure (a : α) : (pure a : Layout α).run = pure a := rfl

theorem run_done (a : α) : (Layout.done a).run = pure a := rfl

theorem run_make (n : Int64) (t : Layout α) :
    (Layout.make n t).run = Sql.make n >>= fun _ => t.run := rfl

theorem run_byte : byte.run = readByte := bind_pure _

theorem run_uvarint : uvarint.run = readUvarint := bind_pure _

theorem run_take (n : Int64) : (take n).run = Sql.take n := bind_pure _

theorem run_varint : varint.run = readVarint := by
  simp only [varint, readVarint, run_bind, run_uvarint, run_pure]

theorem run_bool : bool.run = readBool := by
  simp only [bool, readBool, run_bind, run_byte, run_pure]

theorem run_str : str.run = readStr := by
  simp only [str, readStr, run_bind, run_uvarint, run_take]

theorem run_float : float.run = readFloat := by
  simp only [float, readFloat, run_bind, run_varint, run_pure]

theorem run_typeByte : typeByte.run = readType := by
  simp only [typeByte, readType, run_bind, run_byte, run_pure]

theorem run_count : count.run = readCount := by
  simp only [count, readCount, run_bind, run_uvarint]
  rfl

theorem run_made (k : ℕ → Decoder β) : made.run >>= k = (do
    let n ← readUvarint
    Sql.make n.toInt64
    k n.toInt64.toInt.toNat) := by
  simp only [made, run_bind, run_uvarint, bind_assoc, run_make, run_done, pure_bind]

theorem run_times (n : ℕ) (t : Layout α) : (times n t).run = Sql.times n t.run := by
  induction n with
  | zero => rfl
  | succ n ih => simp only [times, Sql.times, run_bind, run_pure, ih]

theorem run_timesOrErr (n : ℕ) (t : Layout (Except String α)) :
    (timesOrErr n t).run = Sql.timesOrErr n t.run := by
  induction n with
  | zero => rfl
  | succ n ih =>
    simp only [timesOrErr, Sql.timesOrErr, run_bind]
    congr 1
    funext x
    cases x with
    | error err => rfl
    | ok a =>
      simp only [run_bind, ih]
      congr 1
      funext y
      cases y <;> rfl

theorem run_readLiteral : readLiteral.run = Sql.readLiteral := by
  simp only [readLiteral, Sql.readLiteral, run_bind, run_typeByte]
  congr 1
  funext t
  cases t <;> simp only [run_bind, run_pure, run_varint, run_float, run_str, run_bool]

theorem run_ignoreErr (t : Layout (Except String Expr)) :
    (ignoreErr t).run = Sql.ignoreErr t.run := by
  simp only [ignoreErr, Sql.ignoreErr, run_bind]
  congr 1
  funext x
  cases x <;> rfl

theorem run_decodeExpr (fuel : ℕ) : (decodeExpr fuel).run = Sql.decodeExpr fuel := by
  induction fuel with
  | zero => rfl
  | succ fuel ih =>
    simp only [decodeExpr, Sql.decodeExpr, run_bind, run_byte]
    congr 1
    funext t
    unfold exprOf
    split
    all_goals simp only [run_bind, run_pure, run_readLiteral, run_str, run_byte, run_ignoreErr, ih,
      run_count, run_times, run_typeByte]
    · congr 1
      funext op
      congr 1
      funext left
      congr 1
      funext right
      cases opAt binaryOps op <;> rfl
    · congr 1
      funext op
      congr 1
      funext e
      cases opAt unaryOps op <;> rfl

section Run

variable (fuel : ℕ)

theorem run_decodeOpt : (decodeOpt (decodeExpr fuel)).run = Sql.decodeOpt fuel := by
  simp only [decodeOpt, Sql.decodeOpt, run_bind, run_bool]
  congr 1
  funext b
  cases b with
  | true => simp only [↓reduceIte, run_ignoreErr, run_decodeExpr]
  | false => rfl

theorem run_decodeColumn : (decodeColumn (decodeExpr fuel)).run = Sql.decodeColumn fuel := by
  simp only [decodeColumn, Sql.decodeColumn, run_bind, run_pure, run_str, run_typeByte, run_bool,
    run_decodeOpt]

theorem run_decodeRow : (decodeRow (decodeExpr fuel)).run = Sql.decodeRow fuel := by
  simp only [decodeRow, Sql.decodeRow, run_bind, run_made, run_timesOrErr, run_decodeExpr]

theorem run_decodeSet : (decodeSet (decodeExpr fuel)).run = Sql.decodeSet fuel := by
  simp only [decodeSet, Sql.decodeSet, run_bind, run_pure, run_str, run_ignoreErr, run_decodeExpr]

theorem run_decodeItem : (decodeItem (decodeExpr fuel)).run = Sql.decodeItem fuel := by
  simp only [decodeItem, Sql.decodeItem, run_bind, run_pure, run_str, run_ignoreErr, run_decodeExpr]

theorem run_decodeOrder : (decodeOrder (decodeExpr fuel)).run = Sql.decodeOrder fuel := by
  simp only [decodeOrder, Sql.decodeOrder, run_bind, run_pure, run_bool, run_ignoreErr,
    run_decodeExpr]

theorem run_decodeSelect : (decodeSelect (decodeExpr fuel)).run = Sql.decodeSelect fuel := by
  simp only [decodeSelect, Sql.decodeSelect, run_bind, run_pure, run_bool, run_count, run_times,
    run_decodeItem, run_str, run_decodeOpt, run_ignoreErr, run_decodeExpr, run_decodeOrder,
    run_varint]

theorem run_decodeStmt : (decodeStmt (decodeExpr fuel)).run = Sql.decodeStmt fuel := by
  simp only [decodeStmt, Sql.decodeStmt, run_bind, run_byte]
  congr 1
  funext t
  unfold stmtOf
  split
  all_goals simp only [run_bind, run_pure, run_str, run_bool, run_count, run_times,
    run_timesOrErr, run_decodeColumn, run_decodeRow, run_decodeSet, run_decodeOpt, run_decodeSelect,
    run_varint]
  case h_5 =>
    refine bind_congr fun table => bind_congr fun nc => bind_congr fun columns =>
      bind_congr fun nr => bind_congr ?_
    rintro (err | rows) <;> rfl
  all_goals rfl

theorem run_decodeStmts : (decodeStmts (decodeExpr fuel)).run = Sql.decodeStmts fuel := by
  simp only [decodeStmts, stmtsOf, Sql.decodeStmts, run_bind, run_made, run_timesOrErr, run_decodeStmt]
  apply bind_congr
  rintro n
  apply bind_congr
  rintro -
  apply bind_congr
  rintro (err | stmts)
  · rfl
  · apply bind_congr
    rintro (_ | err) <;> rfl

end Run

/-! ### What holds of the reads and of sequences holds of the decoder -/

/-- A relation that the reads have, and sequences whose parts have it. -/
structure Closed (P : (α : Type) → Layout α → Layout α → Prop) : Prop where
  done : ∀ {α : Type} (a : α), P α (.done a) (.done a)
  bind : ∀ {α β : Type} {t t' : Layout α} {f f' : α → Layout β}, P α t t' →
    (∀ a, P β (f a) (f' a)) → P β (t >>= f) (t' >>= f')
  byte : P UInt8 byte byte
  uvarint : P UInt64 uvarint uvarint
  take : ∀ n, P Bytes (take n) (take n)
  count : P ℕ count count
  made : P ℕ made made
  useErr : P (Option String) useErr useErr

namespace Closed

variable {P : (α : Type) → Layout α → Layout α → Prop} (h : Closed P)
include h

theorem map {t t' : Layout α} (f : α → β) (ht : P α t t') :
    P β (t >>= fun a => pure (f a)) (t' >>= fun a => pure (f a)) :=
  h.bind ht fun a => h.done (f a)

theorem varint : P Int64 varint varint := h.map _ h.uvarint

theorem bool : P Bool bool bool := h.map _ h.byte

theorem str : P Bytes str str := h.bind h.uvarint fun n => h.take n.toInt64

theorem float : P UInt64 float float := h.map _ h.varint

theorem typeByte : P SqlType typeByte typeByte := h.map _ h.byte

theorem times {t t' : Layout α} (ht : P α t t') (n : ℕ) :
    P (List α) (times n t) (times n t') := by
  induction n with
  | zero => exact h.done []
  | succ n ih => exact h.bind ht fun a => h.map _ ih

theorem timesOrErr {t t' : Layout (Except String α)} (ht : P (Except String α) t t') (n : ℕ) :
    P (Except String (List α)) (timesOrErr n t) (timesOrErr n t') := by
  induction n with
  | zero => exact h.done _
  | succ n ih =>
    apply h.bind ht
    rintro (err | a)
    · exact h.done _
    · apply h.bind ih
      rintro (err | as)
      · exact h.done _
      · exact h.done _

theorem readLiteral : P Literal readLiteral readLiteral := by
  apply h.bind h.typeByte
  rintro (_ | _ | _ | _ | _ | _ | k)
  · exact h.done _
  · exact h.map _ h.varint
  · exact h.map _ h.float
  · exact h.map _ h.str
  · exact h.map _ h.bool
  · exact h.map _ h.varint
  · exact h.done _

section Expr

variable {expr expr' : Layout (Except String Expr)} (he : P (Except String Expr) expr expr')
include he

theorem ignoreErr : P Expr (ignoreErr expr) (ignoreErr expr') := by
  apply h.bind he
  rintro (_ | e)
  · exact h.done _
  · exact h.done _

theorem exprOf (t : UInt8) : P (Except String Expr) (exprOf expr t) (exprOf expr' t) := by
  have hpart := h.ignoreErr he
  unfold Checked.exprOf
  split
  · exact h.map _ h.readLiteral
  · exact h.map _ h.str
  · refine h.bind h.byte fun op => h.bind hpart fun left => h.bind hpart fun right => ?_
    cases opAt binaryOps op with
    | none => exact h.done _
    | some op => exact h.done _
  · refine h.bind h.byte fun op => h.bind hpart fun e => ?_
    cases opAt unaryOps op with
    | none => exact h.done _
    | some op => exact h.done _
  · exact h.bind h.str fun name => h.bind h.count fun na => h.map _ (h.times hpart na)
  · exact h.bind hpart fun e => h.map _ h.typeByte
  · exact h.done _

theorem decodeOpt : P Expr (decodeOpt expr) (decodeOpt expr') := by
  apply h.bind h.bool
  rintro (_ | _)
  · exact h.done _
  · exact h.ignoreErr he

theorem decodeColumn : P ColumnDef (decodeColumn expr) (decodeColumn expr') :=
  h.bind h.str fun _ => h.bind h.typeByte fun _ => h.bind h.bool fun _ => h.bind h.bool fun _ =>
    h.map _ (h.decodeOpt he)

theorem decodeRow : P (Except String (List Expr)) (decodeRow expr) (decodeRow expr') :=
  h.bind h.made fun n => h.timesOrErr he n

theorem decodeSet : P SetItem (decodeSet expr) (decodeSet expr') :=
  h.bind h.str fun _ => h.map _ (h.ignoreErr he)

theorem decodeItem : P SelectItem (decodeItem expr) (decodeItem expr') :=
  h.bind (h.ignoreErr he) fun _ => h.map _ h.str

theorem decodeOrder : P OrderItem (decodeOrder expr) (decodeOrder expr') :=
  h.bind (h.ignoreErr he) fun _ => h.map _ h.bool

theorem decodeSelect : P SelectStmt (decodeSelect expr) (decodeSelect expr') :=
  h.bind h.bool fun _ => h.bind h.count fun ni => h.bind (h.times (h.decodeItem he) ni) fun _ =>
    h.bind h.str fun _ => h.bind (h.decodeOpt he) fun _ => h.bind h.count fun ng =>
      h.bind (h.times (h.ignoreErr he) ng) fun _ => h.bind h.count fun no =>
        h.bind (h.times (h.decodeOrder he) no) fun _ => h.bind h.bool fun _ => h.map _ h.varint

theorem stmtOf (t : UInt8) : P (Except String Statement) (stmtOf expr t) (stmtOf expr' t) := by
  unfold Checked.stmtOf
  split
  · exact h.bind h.str fun _ => h.bind h.count fun nc =>
      h.bind (h.times (h.decodeColumn he) nc) fun _ => h.bind h.count fun np =>
        h.bind (h.times h.str np) fun _ => h.bind h.bool fun _ => h.bind h.str fun _ =>
          h.map _ h.varint
  · exact h.bind h.str fun _ => h.map _ h.bool
  · exact h.bind h.str fun _ => h.bind h.str fun _ => h.bind h.count fun nc =>
      h.bind (h.times h.str nc) fun _ => h.map _ h.bool
  · exact h.bind h.str fun _ => h.bind h.str fun _ => h.map _ h.bool
  · refine h.bind h.str fun _ => h.bind h.count fun nc => h.bind (h.times h.str nc) fun _ =>
      h.bind h.count fun nr => h.bind (h.timesOrErr (h.decodeRow he) nr) ?_
    rintro (_ | rows)
    · exact h.done _
    · exact h.done _
  · exact h.bind h.str fun _ => h.bind h.count fun ns =>
      h.bind (h.times (h.decodeSet he) ns) fun _ => h.map _ (h.decodeOpt he)
  · exact h.bind h.str fun _ => h.map _ (h.decodeOpt he)
  · exact h.done _
  · exact h.done _
  · exact h.done _
  · exact h.map _ h.str
  · exact h.map _ (h.decodeSelect he)
  · exact h.bind h.str fun _ => h.bind h.str fun _ => h.map _ h.str
  · exact h.bind h.str fun _ => h.map _ h.str
  · exact h.bind h.str fun _ => h.map _ h.str
  · exact h.bind h.str fun _ => h.bind h.str fun _ => h.bind h.str fun _ => h.bind h.bool fun _ =>
      h.map _ h.bool
  · exact h.done _

theorem stmtsOf (n : ℕ) :
    P (Except String (List Statement)) (stmtsOf expr n) (stmtsOf expr' n) := by
  have hstmt : P (Except String Statement) (decodeStmt expr) (decodeStmt expr') :=
    h.bind h.byte fun t => h.stmtOf he t
  apply h.bind (h.timesOrErr hstmt n)
  rintro (_ | stmts)
  · exact h.done _
  · apply h.bind h.useErr
    rintro (_ | err)
    · exact h.done _
    · exact h.done _

theorem decodeStmts :
    P (Except String (List Statement)) (decodeStmts expr) (decodeStmts expr') :=
  h.bind h.made fun n => h.stmtsOf he n

end Expr

end Closed

/-! ### Fuel -/

theorem closed_below : Closed @Below where
  done := .done
  bind := .bind
  byte := .byte .done
  uvarint := .uvarint .done
  take n := .take n .done
  count := .uvarint fun _ => .loop _ (.done _)
  made := .uvarint fun _ => .make _ (.done _)
  useErr := .useErr .done

/-- The fuel lasts for so many bytes, and nothing is read behind an error. -/
def Lasts (m : ℕ) (α : Type) (t _ : Layout α) : Prop := t.Calm ∧ t.Fueled m

theorem closed_lasts (m : ℕ) : Closed (Lasts m) where
  done _ := ⟨trivial, trivial⟩
  bind ht hf := ⟨ht.1.bind fun a => (hf a).1, ht.2.bind (fun a => (hf a).1) fun a => (hf a).2⟩
  byte := ⟨trivial, trivial, fun _ _ _ => trivial⟩
  uvarint := ⟨trivial, trivial, fun _ _ _ => trivial⟩
  take _ := ⟨trivial, trivial, fun _ _ _ => trivial⟩
  count := ⟨⟨rfl, trivial⟩, ⟨rfl, trivial⟩, fun _ _ _ => trivial⟩
  made := ⟨⟨rfl, trivial⟩, ⟨rfl, trivial⟩, fun _ _ _ => trivial⟩
  useErr := ⟨fun _ => trivial, trivial⟩

theorem below_decodeExpr {fuel fuel' : ℕ} (h : fuel ≤ fuel') :
    Below (decodeExpr fuel) (decodeExpr fuel') := by
  induction fuel generalizing fuel' with
  | zero => exact .stuck _
  | succ fuel ih =>
    obtain ⟨fuel', rfl⟩ : ∃ n, fuel' = n + 1 := ⟨fuel' - 1, by omega⟩
    exact .byte fun t => closed_below.exprOf (ih (Nat.le_of_succ_le_succ h)) t

/-- Each call reads a byte. -/
theorem lasts_decodeExpr {fuel m : ℕ} (h : m < fuel) (t : Layout (Except String Expr)) :
    Lasts m _ (decodeExpr fuel) t := by
  induction fuel generalizing m with
  | zero => omega
  | succ fuel ih =>
    refine ⟨trivial, trivial, fun b k hk => ?_⟩
    have hpart : Lasts k _ (decodeExpr fuel) (decodeExpr fuel) := ih (by omega : k < fuel)
    exact ((closed_lasts k).exprOf hpart b).2

/-- The fuel lasts for all bytes of the input, as the number of statements is the first to be read. -/
theorem fueled_decodeStmts {fuel m : ℕ} (h : m ≤ fuel) :
    (decodeStmts (decodeExpr fuel)).Fueled m := by
  have hnone : (stmtsOf (decodeExpr fuel) 0).Calm := by
    rintro (_ | err) <;> trivial
  refine ⟨⟨rfl, hnone⟩, fun v k hk => ?_⟩
  have hpart : Lasts k _ (decodeExpr fuel) (decodeExpr fuel) := lasts_decodeExpr (by omega) _
  exact ((closed_lasts k).stmtsOf hpart _).2

end Checked

/-! ### Safe inputs -/

theorem before_self (data : Bytes) :
    Layout.before data data = { buf := data, pos := 0, err := none } := by
  rw [Layout.before, Nat.sub_self]

/-- The decoder is safe exactly on sound inputs. -/
theorem safe_iff {data : Bytes} (h : data.length < 2 ^ 63) : Safe data ↔ SoundStatements data := by
  have hsafe := Layout.isSome_checked_iff List.suffix_rfl h
    (Checked.fueled_decodeStmts (le_refl data.length))
  rw [before_self, Option.isSome_iff_exists] at hsafe
  exact hsafe

/-- On a safe input the decoder returns what it returns with the checks. -/
theorem Safe.decodes {data : Bytes} (h : Safe data) : ∃ res, decodeStatements data = some res := by
  obtain ⟨res, hres⟩ := h
  have hrun := Layout.run_of_checked hres
  rw [Checked.run_decodeStmts] at hrun
  exact ⟨res.1, by rw [decodeStatements, hrun]; rfl⟩

end Ydbgo.Sql
