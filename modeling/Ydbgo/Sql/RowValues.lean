import Ydbgo.Sql.Panics
import Ydbgo.Sql.Exec
import Ydbgo.Storage.Effects

/-! # Expressions over a row

An expression has the value that the columns it refers to give it, and from
values the storage gave it makes only values the storage can keep.
-/

namespace Ydbgo.Sql

open Storage (Proper)

section Proper

variable {α : Type} {lib : Stdlib}

/-- What the evaluation gives, if anything, is a proper value. -/
def GivesProper (x : Eval Value) : Prop := ∀ v, Gives x v → Proper v

theorem proper_nullValue : Proper nullValue := ⟨rfl, fun _ => rfl⟩

theorem proper_intValue (n : Int64) : Proper (intValue n) := ⟨rfl, nofun⟩

theorem proper_floatValue (x : UInt64) : Proper (floatValue x) := ⟨rfl, nofun⟩

theorem proper_strValue (s : Bytes) : Proper (strValue s) := ⟨rfl, nofun⟩

theorem proper_boolValue (b : Bool) : Proper (boolValue b) := ⟨rfl, nofun⟩

theorem proper_timestampValue (t : Time) : Proper (timestampValue t) := ⟨rfl, nofun⟩

theorem givesProper_pure {v : Value} (h : Proper v) : GivesProper (pure v) := by
  intro w hw
  obtain rfl := gives_pure.mp hw
  exact h

theorem givesProper_fail (msg : Bytes) : GivesProper (fail msg) := fun _ h => absurd h gives_fail

theorem givesProper_failWith (v : Value) (msg : Bytes) : GivesProper (failWith v msg) :=
  fun _ h => absurd h gives_failWith

theorem givesProper_check {x : Eval Value} (h : GivesProper x) : GivesProper (check x) :=
  fun v hv => h v (gives_check.mp hv)

theorem givesProper_bind {x : Eval α} {f : α → Eval Value} (h : ∀ a, Gives x a → GivesProper (f a)) :
    GivesProper (x >>= f) := by
  intro v hv
  obtain ⟨a, ha, hf⟩ := gives_bind.mp hv
  exact h a ha v hf

theorem givesProper_convert {v : Value} (h : Proper v) (t : SqlType) :
    GivesProper (convert lib v t) := by
  unfold convert
  dsimp only
  repeat' split
  all_goals first
    | exact givesProper_pure h
    | exact givesProper_pure ⟨rfl, fun _ => rfl⟩
    | exact givesProper_pure ⟨rfl, nofun⟩
    | exact givesProper_failWith _ _

theorem proper_evalAnd (l r : Value) : Proper (evalAnd l r) := by
  unfold evalAnd
  split <;> first | exact proper_boolValue _ | exact proper_nullValue

theorem proper_evalOr (l r : Value) : Proper (evalOr l r) := by
  unfold evalOr
  split <;> first | exact proper_boolValue _ | exact proper_nullValue

theorem proper_evalCompare (l r : Value) (holds : Ordering → Bool) :
    Proper (evalCompare lib l r holds) := by
  unfold evalCompare
  split
  · exact proper_nullValue
  · exact proper_boolValue _

theorem givesProper_evalArith (op : BinOp) (l r : Value) : GivesProper (evalArith lib op l r) := by
  unfold evalArith
  repeat' split
  all_goals first
    | exact givesProper_fail _
    | exact givesProper_pure proper_nullValue
    | exact givesProper_pure (proper_intValue _)
    | exact givesProper_pure (proper_floatValue _)

theorem givesProper_evalBinary (op : BinOp) (l r : Value) :
    GivesProper (evalBinary lib op l r) := by
  cases op with
  | and => exact givesProper_pure (proper_evalAnd l r)
  | or => exact givesProper_pure (proper_evalOr l r)
  | like | notLike =>
    refine givesProper_pure ?_
    split
    · exact proper_nullValue
    · exact proper_boolValue _
  | eq | ne | lt | le | gt | ge => exact givesProper_pure (proper_evalCompare l r _)
  | add => exact givesProper_evalArith .add l r
  | sub => exact givesProper_evalArith .sub l r
  | mul => exact givesProper_evalArith .mul l r
  | div => exact givesProper_evalArith .div l r

theorem givesProper_evalUnary (op : UnOp) {v : Value} (h : Proper v) :
    GivesProper (evalUnary lib op v) := by
  unfold evalUnary
  repeat' split
  · exact givesProper_pure (proper_boolValue _)
  · exact givesProper_fail _
  · exact givesProper_pure (proper_intValue _)
  · exact givesProper_pure (proper_floatValue _)
  · exact givesProper_fail _
  · exact givesProper_pure h

theorem proper_evalLiteral (l : Literal) : Proper (evalLiteral l) := by
  cases l with
  | int n => exact proper_intValue n
  | float bits => exact proper_floatValue bits
  | string s => exact proper_strValue s
  | bool b => exact proper_boolValue b
  | null | timestamp _ | other _ => exact proper_nullValue

theorem givesProper_timeBucket (iv ts : Value) : GivesProper (timeBucket lib iv ts) := by
  unfold timeBucket
  repeat' split
  · exact givesProper_pure proper_nullValue
  · exact givesProper_fail _
  · exact givesProper_fail _
  · exact givesProper_bind fun _ _ => givesProper_pure (proper_timestampValue _)

theorem givesProper_substr (v start : Value) (count : Option (Eval Value)) :
    GivesProper (substr lib v start count) := by
  unfold substr
  dsimp only
  split
  · exact givesProper_pure (proper_strValue _)
  · split
    · exact givesProper_bind fun _ _ => givesProper_bind fun _ _ =>
        givesProper_pure (proper_strValue _)
    · exact givesProper_bind fun _ _ => givesProper_pure (proper_strValue _)

theorem givesProper_evalCall (fn : Bytes) (args : List (Eval Value)) :
    GivesProper (evalCall lib fn args) := by
  unfold evalCall
  cases Fn.ofName (lib.toLower fn) with
  | abs =>
    refine givesProper_bind fun x _ => givesProper_bind fun v _ => ?_
    repeat' split
    · exact givesProper_pure (proper_intValue _)
    · exact givesProper_pure (proper_floatValue _)
    · exact givesProper_fail _
  | lower | upper =>
    refine givesProper_bind fun x _ => givesProper_bind fun v _ => givesProper_pure ?_
    split
    · exact proper_nullValue
    · exact proper_strValue _
  | length =>
    refine givesProper_bind fun x _ => givesProper_bind fun v _ => givesProper_pure ?_
    split
    · exact proper_nullValue
    · exact proper_intValue _
  | concat => exact givesProper_bind fun _ _ => givesProper_pure (proper_strValue _)
  | substr =>
    dsimp only
    split
    · exact givesProper_fail _
    · exact givesProper_bind fun _ _ => givesProper_bind fun _ _ => givesProper_bind fun _ _ =>
        givesProper_bind fun _ _ => givesProper_substr _ _ _
  | now => exact givesProper_pure (proper_timestampValue _)
  | unixepoch => exact givesProper_pure (proper_intValue _)
  | timeBucket =>
    dsimp only
    split
    · exact givesProper_fail _
    · exact givesProper_bind fun _ _ => givesProper_bind fun _ _ => givesProper_bind fun _ _ =>
        givesProper_bind fun _ _ => givesProper_timeBucket _ _
  | unknown => exact givesProper_fail _

/-- In a row of proper values every expression has a proper value. -/
theorem givesProper_eval {ctx : RowContext} (hctx : ∀ name v, ctx name = some v → Proper v)
    (e : Expr) : GivesProper (eval lib ctx e) := by
  induction e with
  | nil => exact givesProper_fail _
  | literal l => exact givesProper_pure (proper_evalLiteral l)
  | ident name =>
    rw [eval]
    split
    · exact givesProper_pure proper_nullValue
    · cases hn : ctx name with
      | none => exact givesProper_fail _
      | some v => exact givesProper_pure (hctx name v hn)
  | unary op e ih =>
    rw [eval]
    exact givesProper_bind fun v hv => givesProper_evalUnary op (ih v (gives_check.mp hv))
  | cast e type ih =>
    rw [eval]
    exact givesProper_bind fun v hv => givesProper_convert (ih v (gives_check.mp hv)) type
  | binary op left right ihl ihr =>
    rw [eval]
    exact givesProper_bind fun _ _ => givesProper_bind fun _ _ => givesProper_evalBinary op _ _
  | call name args ih =>
    rw [eval]
    exact givesProper_evalCall name _

end Proper

section Idents

variable {lib : Stdlib} {ctx ctx' : RowContext}

theorem mem_identsOf {n : Bytes} {es : List Expr} :
    n ∈ Expr.idents.identsOf es ↔ ∃ e ∈ es, n ∈ e.idents := by
  induction es with
  | nil => simp [Expr.idents.identsOf]
  | cons e es ih => simp [Expr.idents.identsOf, ih]

/-- An expression sees only the columns it refers to. -/
theorem eval_congr {e : Expr} (h : ∀ n ∈ e.idents, ctx n = ctx' n) :
    eval lib ctx e = eval lib ctx' e := by
  induction e with
  | nil => rfl
  | literal l => rfl
  | ident name =>
    rw [eval, eval, h name (List.mem_singleton.mpr rfl)]
  | unary op e ih => rw [eval, eval, ih h]
  | cast e type ih => rw [eval, eval, ih h]
  | binary op left right ihl ihr =>
    rw [eval, eval, ihl fun n hn => h n (List.mem_append_left _ hn),
      ihr fun n hn => h n (List.mem_append_right _ hn)]
  | call name args ih =>
    have hargs : args.map (eval lib ctx) = args.map (eval lib ctx') :=
      List.map_congr_left fun a ha => ih a ha fun n hn => h n (mem_identsOf.mpr ⟨a, ha, hn⟩)
    rw [eval, eval, evalArgs_eq, evalArgs_eq, hargs]

end Idents

end Ydbgo.Sql
