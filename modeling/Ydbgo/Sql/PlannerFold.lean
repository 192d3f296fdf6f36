import Ydbgo.Sql.Panics
import Ydbgo.Lib.PrefixCode
import Ydbgo.Storage.PkRange

/-! # The leaves of a WHERE

A WHERE is the conjunction of its leaves, and the planner is a fold over them.
Each leaf that compares a key column with a literal is a test of the column's
encoded value.
-/

namespace Ydbgo.Sql

open Storage (encodeKeyValue fromSQLValue encodePK cell)

def leaves : Expr → List Expr
  | .binary .and left right => leaves left ++ leaves right
  | e => [e]

section Truth

variable (lib : Stdlib) (ctx : RowContext)

/-- The expression evaluates to true on the row. -/
def IsTrue (e : Expr) : Prop := ∃ v, Gives (eval lib ctx e) v ∧ boolOf v = some true

theorem boolOf_evalAnd {l r : Value} :
    boolOf (evalAnd l r) = some true ↔ boolOf l = some true ∧ boolOf r = some true := by
  unfold evalAnd
  split <;> simp_all [boolOf, boolValue, nullValue]

theorem isTrue_and {left right : Expr} :
    IsTrue lib ctx (.binary .and left right) ↔ IsTrue lib ctx left ∧ IsTrue lib ctx right := by
  unfold IsTrue
  simp only [eval, gives_bind, gives_check, evalBinary, gives_pure]
  constructor
  · rintro ⟨_, ⟨l, hl, r, hr, rfl⟩, h⟩
    obtain ⟨h₁, h₂⟩ := boolOf_evalAnd.mp h
    exact ⟨⟨l, hl, h₁⟩, r, hr, h₂⟩
  · rintro ⟨⟨l, hl, h₁⟩, r, hr, h₂⟩
    exact ⟨_, ⟨l, hl, r, hr, rfl⟩, boolOf_evalAnd.mpr ⟨h₁, h₂⟩⟩

theorem isTrue_iff_leaves (e : Expr) : IsTrue lib ctx e ↔ ∀ l ∈ leaves e, IsTrue lib ctx l := by
  induction e with
  | binary op left right ihl ihr =>
    cases op with
    | and => rw [isTrue_and, leaves, List.forall_mem_append, ihl, ihr]
    | _ => simp [leaves]
  | _ => simp [leaves]

end Truth

/-- What the planner makes of a comparison with a literal. -/
inductive Test where
  | cmp (op : BinOp) (v : Value)
  | likeEq (pat : Bytes)
  | likePrefix (pre rest : Bytes)
  | likeAny

section Fold

variable (lib : Stdlib) (schema : TableSchema)

def likeTest (pat : Bytes) : Test :=
  match splitPattern pat with
  | (_, []) => .likeEq pat
  | ([], _) => .likeAny
  | (pre, rest) => .likePrefix pre rest

def testFor (t : SqlType) (op : BinOp) (l : Literal) : Option Test :=
  if op = .like then (patternFor t l).map likeTest else (literalFor lib l t).map (.cmp op)

/-- The key column a leaf is about, and its test. -/
def leafTest : Expr → Option (ℕ × Test)
  | .binary op left right =>
    if op = .and ∨ op = .or then none
    else match operands op left right with
      | none => none
      | some (name, l, op) =>
        match pkPos schema name with
        | none => none
        | some p => (testFor lib (colTypeOf schema name) op l).map (p, ·)
  | _ => none

def Test.constrain (t : Test) (c : Constraint) : Constraint :=
  match t with
  | .cmp op v => Sql.constrain lib op v c
  | .likeEq pat => { c with eq := some (strValue pat) }
  | .likePrefix pre _ =>
    { c with lo := some (strValue pre, false), up := some (strValue (successor pre), true) }
  | .likeAny => c

/-- The test leaves nothing to check in a row that passes it. -/
def Test.folds : Test → Bool
  | .likePrefix _ rest => rest == [37]
  | .likeAny => false
  | _ => true

def applyTest (t : Option (ℕ × Test)) (st : PlanState) : PlanState :=
  match t with
  | none => st.inexact
  | some (p, t) =>
    let st := st.update p (t.constrain lib)
    if t.folds then st else st.inexact

theorem visitLike_eq (p : ℕ) (t : SqlType) (l : Literal) (st : PlanState) :
    visitLike p t l st = applyTest lib ((testFor lib t .like l).map (p, ·)) st := by
  unfold visitLike testFor
  cases patternFor t l with
  | none => rfl
  | some pat =>
    simp only [if_true, Option.map_some, applyTest, likeTest]
    rcases splitPattern pat with ⟨_ | ⟨b, pre⟩, _ | ⟨c, rest⟩⟩
    · rfl
    · rfl
    · rfl
    · simp only [Test.folds, beq_iff_eq]
      rfl

theorem visitLeaf_eq {op : BinOp} {left right : Expr} (hand : op ≠ .and) (hor : op ≠ .or)
    (st : PlanState) : visitLeaf lib schema op left right st =
      applyTest lib (leafTest lib schema (.binary op left right)) st := by
  simp only [visitLeaf, leafTest, hand, hor, or_self, if_false]
  cases operands op left right with
  | none => rfl
  | some o =>
    obtain ⟨name, l, op⟩ := o
    dsimp only
    cases pkPos schema name with
    | none => rfl
    | some p =>
      dsimp only
      by_cases hop : op = .like
      · subst hop
        exact visitLike_eq lib p _ l st
      · simp only [hop, if_false, testFor]
        cases literalFor lib l (colTypeOf schema name) <;> rfl

theorem visit_eq_foldl (e : Expr) (st : PlanState) : visit lib schema e st =
    (leaves e).foldl (fun st e => applyTest lib (leafTest lib schema e) st) st := by
  induction e generalizing st with
  | binary op left right ihl ihr =>
    cases op with
    | and => rw [visit, leaves, List.foldl_append, ihl, ihr]
    | or => simp [visit, leaves, leafTest, applyTest]
    | _ => simp [visit, leaves, visitLeaf_eq]
  | _ => simp [visit, leaves, leafTest, applyTest]

end Fold

end Ydbgo.Sql
