import Ydbgo.Lib.Bytes

/-! # The SQL syntax tree

Names and string literals are byte strings, integers are 64-bit and floats are
IEEE bit patterns. `Expr.nil` is the nil interface: an absent WHERE or DEFAULT,
and the left operand of the AND a HAVING without WHERE builds.
-/

namespace Ydbgo.Sql

/-- A value type. `other k` is the code `6 + k`, which only a decoder meets. -/
inductive SqlType where
  | null
  | int
  | float
  | string
  | bool
  | timestamp
  | other (k : Fin 250)
  deriving DecidableEq, Repr

/-- `byte(t)`. -/
def SqlType.toByte : SqlType → UInt8
  | null => 0
  | int => 1
  | float => 2
  | string => 3
  | bool => 4
  | timestamp => 5
  | other k => UInt8.ofNat (6 + k)

def SqlType.ofByte (b : UInt8) : SqlType :=
  match b.toNat with
  | 0 => null
  | 1 => int
  | 2 => float
  | 3 => string
  | 4 => bool
  | 5 => timestamp
  | n + 6 => if h : n < 250 then other ⟨n, h⟩ else null

/-- A literal, by its type, with the one field that type uses. -/
inductive Literal where
  | null
  | int (n : Int64)
  | float (bits : UInt64)
  | string (s : Bytes)
  | bool (b : Bool)
  | timestamp (n : Int64)
  | other (k : Fin 250)
  deriving DecidableEq, Repr

def Literal.type : Literal → SqlType
  | null => .null
  | int _ => .int
  | float _ => .float
  | string _ => .string
  | bool _ => .bool
  | timestamp _ => .timestamp
  | other k => .other k

inductive BinOp where
  | add | sub | mul | div
  | eq | lt | gt | le | ge | ne
  | and | or
  | like | notLike
  deriving DecidableEq, Repr

inductive UnOp where
  | not | neg | pos
  deriving DecidableEq, Repr

inductive Expr where
  | nil
  | ident (name : Bytes)
  | literal (l : Literal)
  | binary (op : BinOp) (left right : Expr)
  | unary (op : UnOp) (e : Expr)
  | call (name : Bytes) (args : List Expr)
  | cast (e : Expr) (type : SqlType)
  deriving Repr

/-- Induction over an expression, with the hypothesis for every argument of a call. -/
@[induction_eliminator]
theorem Expr.ind {P : Expr → Prop} (nil : P .nil) (ident : ∀ name, P (.ident name))
    (literal : ∀ l, P (.literal l))
    (binary : ∀ op left right, P left → P right → P (.binary op left right))
    (unary : ∀ op e, P e → P (.unary op e))
    (call : ∀ name args, (∀ a ∈ args, P a) → P (.call name args))
    (cast : ∀ e type, P e → P (.cast e type)) (e : Expr) : P e :=
  @Expr.rec P (fun es => ∀ a ∈ es, P a) nil ident literal binary unary call cast (by simp)
    (fun _ _ he hs => List.forall_mem_cons.mpr ⟨he, hs⟩) e

mutual

def Expr.beq : Expr → Expr → Bool
  | .nil, .nil => true
  | .ident a, .ident b => a == b
  | .literal a, .literal b => a == b
  | .binary op l r, .binary op' l' r' => op == op' && l.beq l' && r.beq r'
  | .unary op e, .unary op' e' => op == op' && e.beq e'
  | .call f es, .call f' es' => f == f' && Expr.beqs es es'
  | .cast e t, .cast e' t' => e.beq e' && t == t'
  | _, _ => false

def Expr.beqs : List Expr → List Expr → Bool
  | [], [] => true
  | e :: es, e' :: es' => e.beq e' && Expr.beqs es es'
  | _, _ => false

end

mutual

theorem Expr.beq_iff (a b : Expr) : a.beq b ↔ a = b := by
  cases a with
  | binary op l r =>
    cases b <;> simp [Expr.beq, Expr.beq_iff l, Expr.beq_iff r, and_assoc]
  | unary op e => cases b <;> simp [Expr.beq, Expr.beq_iff e]
  | call f es => cases b <;> simp [Expr.beq, Expr.beqs_iff es]
  | cast e t => cases b <;> simp [Expr.beq, Expr.beq_iff e]
  | _ => cases b <;> simp [Expr.beq]

theorem Expr.beqs_iff (as bs : List Expr) : Expr.beqs as bs ↔ as = bs := by
  cases as with
  | nil => cases bs <;> simp [Expr.beqs]
  | cons a as => cases bs <;> simp [Expr.beqs, Expr.beq_iff a, Expr.beqs_iff as]

end

instance : DecidableEq Expr := fun a b => decidable_of_iff _ (Expr.beq_iff a b)

mutual

/-- `p` holds of the expression and of everything inside it. -/
def Expr.All (p : Expr → Prop) : Expr → Prop
  | .nil => p .nil
  | .ident name => p (.ident name)
  | .literal l => p (.literal l)
  | .binary op left right => p (.binary op left right) ∧ left.All p ∧ right.All p
  | .unary op e => p (.unary op e) ∧ e.All p
  | .call name args => p (.call name args) ∧ Expr.AllOf p args
  | .cast e type => p (.cast e type) ∧ e.All p

def Expr.AllOf (p : Expr → Prop) : List Expr → Prop
  | [] => True
  | e :: es => e.All p ∧ Expr.AllOf p es

end

theorem Expr.allOf_iff {p : Expr → Prop} {es : List Expr} :
    Expr.AllOf p es ↔ ∀ e ∈ es, e.All p := by
  induction es with
  | nil => simp [Expr.AllOf]
  | cons e es ih => simp [Expr.AllOf, ih]

structure ColumnDef where
  name : Bytes
  type : SqlType
  notNull : Bool
  default : Expr
  asPrimary : Bool
  deriving DecidableEq, Repr

structure SetItem where
  column : Bytes
  value : Expr
  deriving DecidableEq, Repr

structure SelectItem where
  expr : Expr
  alias_ : Bytes
  deriving DecidableEq, Repr

structure OrderItem where
  expr : Expr
  desc : Bool
  deriving DecidableEq, Repr

structure SelectStmt where
  distinct : Bool
  items : List SelectItem
  from_ : Bytes
  where_ : Expr
  groupBy : List Expr
  orderBy : List OrderItem
  limit : Int64
  hasLimit : Bool
  deriving DecidableEq, Repr

inductive Statement where
  | createTable (name : Bytes) (columns : List ColumnDef) (pk : List Bytes) (ifNotExists : Bool)
      (engine : Bytes) (retention : Int64)
  | dropTable (name : Bytes) (ifExists : Bool)
  | createIndex (name table : Bytes) (columns : List Bytes) (ifNotExists : Bool)
  | dropIndex (name table : Bytes) (ifExists : Bool)
  | insert (table : Bytes) (columns : List Bytes) (rows : List (List Expr))
  | update (table : Bytes) (sets : List SetItem) (where_ : Expr)
  | delete (table : Bytes) (where_ : Expr)
  | begin_
  | commit
  | rollback
  | createDatabase (name : Bytes)
  | select (s : SelectStmt)
  | kvPut (table key value : Bytes)
  | kvGet (table key : Bytes)
  | kvDelete (table key : Bytes)
  | kvScan (table start stop : Bytes) (hasStart hasEnd : Bool)
  deriving DecidableEq, Repr

/-- The expressions a statement must have. -/
def Statement.required : Statement → List Expr
  | .insert _ _ rows => rows.flatten
  | .update _ sets _ => sets.map SetItem.value
  | .select s => s.items.map SelectItem.expr ++ (s.groupBy ++ s.orderBy.map OrderItem.expr)
  | _ => []

/-- The expressions a statement may have, nil where it does not. -/
def Statement.optional : Statement → List Expr
  | .createTable _ columns _ _ _ _ => columns.map ColumnDef.default
  | .update _ _ where_ => [where_]
  | .delete _ where_ => [where_]
  | .select s => [s.where_]
  | _ => []

end Ydbgo.Sql
