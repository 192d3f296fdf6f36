import Ydbgo.Sql.Exec

/-! # Statements and the clock

`now` and `unixepoch` are the only functions that read the clock. A statement
that calls neither runs the same whatever the clock reads.
-/

namespace Ydbgo.Sql

open Storage (Exec)

/-- What a machine's clock reads. -/
structure Clock where
  now : Time
  nowUnix : Int64

/-- The library at a moment. -/
def Stdlib.at (lib : Stdlib) (c : Clock) : Stdlib := { lib with now := c.now, nowUnix := c.nowUnix }

variable (lib : Stdlib)

/-- The function of that name reads the clock. -/
def readsClock (name : Bytes) : Prop :=
  Fn.ofName (lib.toLower name) = .now ∨ Fn.ofName (lib.toLower name) = .unixepoch

/-- The expression is not a call that reads the clock. -/
def NoClockCall : Expr → Prop
  | .call name _ => ¬ readsClock lib name
  | _ => True

def Expr.ClockFree (e : Expr) : Prop := e.All (NoClockCall lib)

/-- The expressions that running a statement evaluates. -/
def Statement.evaluated : Statement → List Expr
  | .insert _ _ rows => rows.flatten
  | .update _ sets where_ => sets.map SetItem.value ++ [where_]
  | .delete _ where_ => [where_]
  | _ => []

def Statement.ClockFree (st : Statement) : Prop := ∀ e ∈ st.evaluated, e.ClockFree lib

variable {lib} {c : Clock}

theorem concat_at (args : List (Eval Value)) : concat (lib.at c) args = concat lib args := by
  induction args with
  | nil => rfl
  | cons a args ih =>
    rw [concat, concat, ih]
    rfl

theorem parseUnits_at (shown : Bytes) (fuel : ℕ) (s : Bytes) (total : Int64) :
    parseUnits (lib.at c) shown fuel s total = parseUnits lib shown fuel s total := by
  induction fuel generalizing s total with
  | zero => rfl
  | succ fuel ih =>
    cases s with
    | nil => rfl
    | cons b s =>
      simp only [parseUnits, ih]
      rfl

theorem parseInterval_at (v : Value) : parseInterval (lib.at c) v = parseInterval lib v := by
  unfold parseInterval
  simp only [parseUnits_at]
  rfl

theorem timeBucket_at (iv ts : Value) : timeBucket (lib.at c) iv ts = timeBucket lib iv ts := by
  unfold timeBucket
  rw [parseInterval_at]
  rfl

theorem evalCall_at {name : Bytes} (h : ¬ readsClock lib name) (args : List (Eval Value)) :
    evalCall (lib.at c) name args = evalCall lib name args := by
  have hlower : (lib.at c).toLower = lib.toLower := rfl
  unfold evalCall
  rw [hlower]
  have h₁ : Fn.ofName (lib.toLower name) ≠ .now := fun he => h (Or.inl he)
  have h₂ : Fn.ofName (lib.toLower name) ≠ .unixepoch := fun he => h (Or.inr he)
  cases hf : Fn.ofName (lib.toLower name) with
  | now => exact absurd hf h₁
  | unixepoch => exact absurd hf h₂
  | concat => simp only [concat_at]
  | timeBucket => simp only [timeBucket_at]
  | _ => rfl

/-- An expression without clock calls has one value. -/
theorem eval_at {e : Expr} (h : e.ClockFree lib) (ctx : RowContext) :
    eval (lib.at c) ctx e = eval lib ctx e := by
  induction e with
  | nil => rfl
  | ident name => rfl
  | literal l => rfl
  | binary op left right ihl ihr =>
    obtain ⟨-, hl, hr⟩ := h
    rw [eval, eval, ihl hl, ihr hr]
    rfl
  | unary op e ih =>
    rw [eval, eval, ih h.2]
    rfl
  | call name args ih =>
    obtain ⟨hn, hargs⟩ := h
    have hmap : args.map (eval (lib.at c) ctx) = args.map (eval lib ctx) :=
      List.map_congr_left fun a ha => ih a ha (Expr.allOf_iff.mp hargs a ha)
    rw [eval, eval, evalArgs_eq, evalArgs_eq, hmap, evalCall_at hn]
  | cast e type ih =>
    rw [eval, eval, ih h.2]
    rfl

/-- A list of steps that agree one by one. -/
theorem collect_congr {α β : Type} {f g : α → Eval β} {as : List α} (h : ∀ a ∈ as, f a = g a) :
    collect f as = collect g as := by
  induction as with
  | nil => rfl
  | cons a as ih =>
    rw [collect, collect, h a List.mem_cons_self, ih fun b hb => h b (List.mem_cons_of_mem _ hb)]

theorem insertRows_at {schema : TableSchema} {columns : List Bytes} {rows : List (List Expr)}
    (h : ∀ e ∈ rows.flatten, e.ClockFree lib) :
    insertRows (lib.at c) schema columns rows = insertRows lib schema columns rows := by
  refine collect_congr fun row hrow => ?_
  unfold insertRow
  split
  · rfl
  · refine collect_congr fun col _ => ?_
    unfold insertCell
    split
    · rfl
    · rename_i idx _
      unfold index
      cases hi : row[idx]? with
      | none => rfl
      | some e =>
        have he : e ∈ rows.flatten := List.mem_flatten.mpr ⟨row, hrow, List.mem_of_getElem? hi⟩
        simp only [pure_bind, eval_at (h e he)]
        rfl

theorem whereTrue_at {where_ : Expr} (h : where_.ClockFree lib) :
    whereTrue (lib.at c) where_ = whereTrue lib where_ := by
  funext ctx
  rw [whereTrue, whereTrue, eval_at h]

theorem setValue_at {schema : TableSchema} {item : SetItem} (h : item.value.ClockFree lib)
    (ctx : RowContext) : setValue (lib.at c) schema ctx item = setValue lib schema ctx item := by
  rw [setValue, setValue, eval_at h]
  rfl

section

variable {schema : TableSchema} {sets : List SetItem} {where_ : Expr}

theorem evalSetsCtx_at (h : ∀ item ∈ sets, item.value.ClockFree lib) (ctx : RowContext) :
    evalSetsCtx (lib.at c) schema ctx sets = evalSetsCtx lib schema ctx sets :=
  collect_congr fun item hi => by rw [setValue_at (h item hi)]

theorem evalSetsIntoRow_at (h : ∀ item ∈ sets, item.value.ClockFree lib) (ctx : RowContext)
    (row : List Value) :
    evalSetsIntoRow (lib.at c) schema ctx sets row = evalSetsIntoRow lib schema ctx sets row := by
  induction sets generalizing row with
  | nil => rfl
  | cons item sets ih =>
    have ih := ih fun i hi => h i (List.mem_cons_of_mem _ hi)
    rw [evalSetsIntoRow, evalSetsIntoRow, setValue_at (h item List.mem_cons_self)]
    simp only [ih]

theorem constSet_at {item : SetItem} (h : item.value.ClockFree lib) :
    constSet (lib.at c) schema item = constSet lib schema item := by
  unfold constSet
  rw [setValue_at h]

theorem updateConstSets_at (h : ∀ item ∈ sets, item.value.ClockFree lib) :
    updateConstSets (lib.at c) schema sets = updateConstSets lib schema sets := by
  unfold updateConstSets
  induction sets with
  | nil => rfl
  | cons item sets ih =>
    rw [List.mapM_cons, List.mapM_cons, constSet_at (h item List.mem_cons_self),
      ih fun i hi => h i (List.mem_cons_of_mem _ hi)]

theorem updatedRows_at (hs : ∀ item ∈ sets, item.value.ClockFree lib) (hw : where_.ClockFree lib)
    (need : List Bytes) (rows : List (List Value)) :
    updatedRows (lib.at c) schema need sets where_ rows =
      updatedRows lib schema need sets where_ rows := by
  induction rows with
  | nil => rfl
  | cons row rows ih =>
    simp only [updatedRows, whereTrue_at hw, evalSetsIntoRow_at hs, ih]

theorem updateRows_at (hs : ∀ item ∈ sets, item.value.ClockFree lib) (hw : where_.ClockFree lib)
    (table : Bytes) (rows : List (List Value)) :
    updateRows (lib.at c) schema table sets where_ rows =
      updateRows lib schema table sets where_ rows := by
  induction rows with
  | nil => rfl
  | cons row rows ih => simp only [updateRows, whereTrue_at hw, evalSetsCtx_at hs, ih]

theorem deleteRows_at (hw : where_.ClockFree lib) (table : Bytes) (rows : List (List Value)) :
    deleteRows (lib.at c) schema table where_ rows = deleteRows lib schema table where_ rows := by
  induction rows with
  | nil => rfl
  | cons row rows ih => simp only [deleteRows, whereTrue_at hw, ih]

end

/-! ### Statements -/

section

variable {table : Bytes} {sets : List SetItem} {where_ : Expr}

theorem scan_at : Storage.scan (lib.at c) table = Storage.scan lib table := by
  have hrows : ∀ (t : Storage.Table) (rows : List (Bytes × Option (List Storage.Cell))),
      Storage.scanRows t (lib.at c) rows = Storage.scanRows t lib rows := by
    intro t rows
    induction rows with
    | nil => rfl
    | cons row rows ih =>
      rw [Storage.scanRows, Storage.scanRows, ih]
      rfl
  simp only [Storage.scan, hrows]

theorem visit_at (schema : TableSchema) (e : Expr) (st : PlanState) :
    visit (lib.at c) schema e st = visit lib schema e st := by
  induction e generalizing st with
  | binary op left right ihl ihr =>
    cases op with
    | and => rw [visit, visit, ihl, ihr]
    | _ => rfl
  | _ => rfl

theorem pkRangeFromWhere_at (schema : TableSchema) :
    pkRangeFromWhere (lib.at c) schema where_ = pkRangeFromWhere lib schema where_ := by
  unfold pkRangeFromWhere
  rw [visit_at]

theorem clockFree_nil : Expr.nil.ClockFree lib := trivial

theorem execUpdateScan_at (hs : ∀ item ∈ sets, item.value.ClockFree lib)
    (hw : where_.ClockFree lib) (schema : TableSchema) :
    execUpdateScan (lib.at c) schema table sets where_ =
      execUpdateScan lib schema table sets where_ := by
  simp only [execUpdateScan, updateRows_at hs hw, scan_at]

theorem rewriteRows_at (hs : ∀ item ∈ sets, item.value.ClockFree lib) (hw : where_.ClockFree lib)
    (schema : TableSchema) (plan : Option PKRange × Bool) :
    rewriteRows (lib.at c) schema table sets where_ plan =
      rewriteRows lib schema table sets where_ plan := by
  have hif : (if plan.2 then Expr.nil else where_).ClockFree lib := by
    split
    · exact clockFree_nil
    · exact hw
  simp only [rewriteRows, updatedRows_at hs hif]
  rfl

theorem execUpdateColumnar_at (hs : ∀ item ∈ sets, item.value.ClockFree lib)
    (hw : where_.ClockFree lib) (schema : TableSchema) (plan : Option PKRange × Bool) :
    execUpdateColumnar (lib.at c) schema table sets where_ plan =
      execUpdateColumnar lib schema table sets where_ plan := by
  simp only [execUpdateColumnar, execUpdateScan_at hs hw, rewriteRows_at hs hw,
    updateConstSets_at hs]

theorem updatePoint_at (hs : ∀ item ∈ sets, item.value.ClockFree lib) (schema : TableSchema)
    (pk : List Value) :
    updatePoint (lib.at c) schema table sets pk = updatePoint lib schema table sets pk := by
  simp only [updatePoint, evalSetsCtx_at hs]
  rfl

theorem execUpdate_at (hs : ∀ item ∈ sets, item.value.ClockFree lib) (hw : where_.ClockFree lib) :
    execUpdate (lib.at c) table sets where_ = execUpdate lib table sets where_ := by
  simp only [execUpdate, pkRangeFromWhere_at, updatePoint_at hs, execUpdateScan_at hs hw,
    execUpdateColumnar_at hs hw]
  rfl

theorem execDelete_at (hw : where_.ClockFree lib) :
    execDelete (lib.at c) table where_ = execDelete lib table where_ := by
  simp only [execDelete, execDeleteScan, pkRangeFromWhere_at, deleteRows_at hw, scan_at]

end

/-- A statement that reads no clock does the same at any moment. -/
theorem execute_at {st : WriteStmt} (h : st.1.ClockFree lib) :
    execute (lib.at c) st = execute lib st := by
  obtain ⟨st, hst⟩ := st
  cases st with
  | insert table columns rows =>
    change execInsert (lib.at c) table columns rows = execInsert lib table columns rows
    simp only [execInsert, insertRows_at h]
  | update table sets where_ =>
    have hs : ∀ item ∈ sets, item.value.ClockFree lib := fun item hi =>
      h _ (List.mem_append_left _ (List.mem_map_of_mem hi))
    exact execUpdate_at hs (h _ (List.mem_append_right _ List.mem_cons_self))
  | delete table where_ => exact execDelete_at (h _ List.mem_cons_self)
  | select s => cases hst
  | kvGet table key => cases hst
  | kvScan table start stop hasStart hasEnd => cases hst
  | _ => rfl

end Ydbgo.Sql
