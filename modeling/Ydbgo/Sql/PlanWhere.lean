import Ydbgo.Sql.PlannerRight

/-! # Plans with a predicate

`PlanWhere` hands the leaves on the key to `PKRangeFromWhere` and keeps the last
predicate on another column. It is right about a row where the range is and the
predicates agree with their leaves.
-/

namespace Ydbgo.Sql

open Storage

section Plan

variable (lib : Stdlib) (schema : TableSchema) (ctx : RowContext)

/-- `PlanWhere` is right about the row. -/
structure PlanRight (where_ : Expr) : Prop where
  sound : IsTrue lib ctx where_ →
    InRange (planWhere lib schema where_).1 (rowKey schema ctx) ∧
      Matches schema ctx (planWhere lib schema where_).2.1
  exact : (planWhere lib schema where_).2.2 = true →
    InRange (planWhere lib schema where_).1 (rowKey schema ctx) →
    Matches schema ctx (planWhere lib schema where_).2.1 → Passes lib ctx where_

/-- The leaf compares a key column with a literal. -/
def isKeyLeaf : Expr → Bool
  | .binary op left right =>
    op ≠ .and ∧ op ≠ .or ∧ (leafOperands left right).any fun o => o.1 ∈ schema.pk
  | _ => false

/-- The predicate of a leaf on another column. -/
def leafFilter : Expr → Option ColumnFilter
  | .binary op left right =>
    if op = .and ∨ op = .or then none
    else match leafOperands left right with
      | none => none
      | some (name, l) =>
        if name ∈ schema.pk then none
        else (colIndex (schema.columns.map ColumnDef.name) name).bind fun ci =>
          filterFor lib ci (lastTypeOf schema name) op l
  | _ => none

def planStep (pl : WherePlan) (e : Expr) : WherePlan :=
  if isKeyLeaf schema e then { pl with pkLeaves := pl.pkLeaves ++ [e] }
  else match leafFilter lib schema e with
    | none => pl.inexact
    | some p =>
      match pl.pred with
      | some q => if q.col = p.col ∧ q.op = p.op then { pl with pred := some p } else pl.inexact
      | none => { pl with pred := some p }

/-- The planner makes a range or a predicate of every leaf. -/
def covered (e : Expr) : Bool := isKeyLeaf schema e || (leafFilter lib schema e).isSome

/-- Leaves on columns outside the key that the planner is right about in this row: each is true
where its predicate matches and, where a predicate replaces one of its kind, it matches in fewer
rows. -/
structure Filterable (ls : List Expr) : Prop where
  agree : ∀ e ∈ ls, ∀ p, leafFilter lib schema e = some p →
    (IsTrue lib ctx e ↔ Matches schema ctx (some p))
  kept : (ls.filterMap (leafFilter lib schema)).Pairwise fun p q => p.col = q.col → p.op = q.op →
    Matches schema ctx (some q) → Matches schema ctx (some p)

variable {lib schema ctx}

theorem matches_none : Matches schema ctx none := nofun

theorem filterFor_col {ci : ℕ} {t : SqlType} {op : BinOp} {l : Literal} {p : ColumnFilter}
    (h : filterFor lib ci t op l = some p) : p.col = ci := by
  unfold filterFor at h
  repeat' split at h
  all_goals cases h
  all_goals rfl

theorem planLeaf_eq {op : BinOp} {left right : Expr} (hand : op ≠ .and) (hor : op ≠ .or)
    (pl : WherePlan) :
    planLeaf lib schema op left right pl = planStep lib schema pl (.binary op left right) := by
  simp only [planLeaf, planStep, isKeyLeaf, leafFilter, hand, hor, or_self, if_false, ne_eq,
    not_false_eq_true, true_and]
  cases leafOperands left right with
  | none => rfl
  | some o =>
    obtain ⟨name, l⟩ := o
    by_cases hpk : name ∈ schema.pk
    · simp [hpk]
    · simp only [hpk, if_false, Option.any_some, decide_false, Bool.false_eq_true]
      cases colIndex (schema.columns.map ColumnDef.name) name with
      | none => rfl
      | some ci =>
        dsimp only [Option.bind_some]
        cases hf : filterFor lib ci (lastTypeOf schema name) op l with
        | none => rfl
        | some p =>
          obtain rfl := filterFor_col hf
          rfl

theorem planVisit_eq_foldl (e : Expr) (pl : WherePlan) :
    planVisit lib schema e pl = (leaves e).foldl (planStep lib schema) pl := by
  induction e generalizing pl with
  | binary op left right ihl ihr =>
    cases op with
    | and => rw [planVisit, leaves, List.foldl_append, ihl, ihr]
    | or => simp [planVisit, leaves, planStep, isKeyLeaf, leafFilter]
    | _ => simp [planVisit, leaves, planLeaf_eq]
  | _ => simp [planVisit, leaves, planStep, isKeyLeaf, leafFilter]

variable (lib schema) in
/-- What a plan that is still exact says about the leaves. -/
structure Planned (ls : List Expr) (pl : WherePlan) : Prop where
  covered : ls.all (covered lib schema) = true
  pkLeaves : pl.pkLeaves = ls.filter (isKeyLeaf schema)
  pred : pl.pred = (ls.filterMap (leafFilter lib schema)).getLast?
  same : ∀ p ∈ ls.filterMap (leafFilter lib schema), ∀ q, pl.pred = some q →
    p.col = q.col ∧ p.op = q.op

variable (lib) in
theorem leafFilter_of_isKeyLeaf {e : Expr} (h : isKeyLeaf schema e = true) :
    leafFilter lib schema e = none := by
  cases e with
  | binary op left right =>
    simp only [isKeyLeaf, Bool.decide_and, Bool.and_eq_true, decide_eq_true_eq] at h
    obtain ⟨hand, hor, hany⟩ := h
    simp only [leafFilter, hand, hor, or_self, if_false]
    cases ho : leafOperands left right with
    | none => rfl
    | some o => simp_all
  | _ => rfl

/-- The plan after the leaves of a WHERE. -/
def planOf (lib : Stdlib) (schema : TableSchema) (ls : List Expr) : WherePlan :=
  ls.foldl (planStep lib schema) ⟨[], none, true⟩

theorem planOf_concat (ls : List Expr) (e : Expr) :
    planOf lib schema (ls ++ [e]) = planStep lib schema (planOf lib schema ls) e := by
  rw [planOf, List.foldl_append]
  rfl

theorem planned_of_exact {ls : List Expr} (h : (planOf lib schema ls).exact = true) :
    Planned lib schema ls (planOf lib schema ls) := by
  induction ls using List.reverseRecOn with
  | nil => exact ⟨rfl, rfl, rfl, by simp⟩
  | append_singleton ls e ih =>
    rw [planOf_concat] at h ⊢
    unfold planStep at h ⊢
    cases hk : isKeyLeaf schema e with
    | true =>
      rw [hk, if_pos rfl] at h
      rw [if_pos rfl]
      obtain ⟨hcov, hleaves, hpred, hsame⟩ := ih h
      have hf := leafFilter_of_isKeyLeaf lib hk
      exact ⟨by simp [hcov, covered, hk], by simp [hleaves, hk], by simp [hpred, hf],
        by simpa [hf] using hsame⟩
    | false =>
      rw [hk, if_neg (by simp)] at h
      rw [if_neg (by simp)]
      cases hf : leafFilter lib schema e with
      | none => simp [hf, WherePlan.inexact] at h
      | some p =>
        simp only [hf] at h ⊢
        cases hp : (planOf lib schema ls).pred with
        | none =>
          simp only [hp] at h ⊢
          obtain ⟨hcov, hleaves, hpred, hsame⟩ := ih h
          rw [hp, eq_comm, List.getLast?_eq_none_iff] at hpred
          exact ⟨by simp [hcov, covered, hf], by simp [hleaves, hk], by simp [hf],
            by simp [hpred, hf]⟩
        | some q =>
          simp only [hp] at h ⊢
          split at h
          · rename_i hq
            rw [if_pos hq]
            obtain ⟨hcov, hleaves, hpred, hsame⟩ := ih h
            refine ⟨by simp [hcov, covered, hf], by simp [hleaves, hk], by simp [hf], ?_⟩
            rintro r hr s hs
            obtain rfl := Option.some.inj hs
            rw [List.filterMap_append, List.mem_append] at hr
            rcases hr with hr | hr
            · obtain ⟨hc, ho⟩ := hsame r hr q hp
              exact ⟨hc.trans hq.1, ho.trans hq.2⟩
            · simp_all
          · simp [WherePlan.inexact] at h

theorem leaves_leaf {e w : Expr} (h : e ∈ leaves w) : leaves e = [e] := by
  induction w with
  | binary op left right ihl ihr =>
    cases op with
    | and =>
      rcases List.mem_append.mp h with h | h
      · exact ihl h
      · exact ihr h
    | _ => simp_all [leaves]
  | _ => simp_all [leaves]

theorem leaves_andExprs {ls : List Expr} (hne : ls ≠ []) (h : ∀ e ∈ ls, leaves e = [e]) :
    leaves (andExprs ls) = ls := by
  obtain _ | ⟨e, es⟩ := ls
  · exact absurd rfl hne
  · have hfold : ∀ (es : List Expr) (acc : Expr), (∀ e ∈ es, leaves e = [e]) →
        leaves (es.foldl (fun acc x => .binary .and acc x) acc) = leaves acc ++ es := by
      intro es
      induction es with
      | nil => simp
      | cons x es ih =>
        intro acc hes
        rw [List.foldl_cons, ih _ fun e he => hes e (List.mem_cons_of_mem _ he), leaves,
          hes x List.mem_cons_self, List.append_assoc]
        rfl
    rw [andExprs, hfold es e fun x hx => h x (List.mem_cons_of_mem _ hx), h e List.mem_cons_self]
    rfl

theorem Filterable.matches_last {ls : List Expr} (h : Filterable lib schema ctx ls)
    (htrue : ∀ e ∈ ls, IsTrue lib ctx e) :
    Matches schema ctx (ls.filterMap (leafFilter lib schema)).getLast? := by
  cases hl : (ls.filterMap (leafFilter lib schema)).getLast? with
  | none => exact matches_none
  | some p =>
    obtain ⟨e, he, hf⟩ := List.mem_filterMap.mp (List.mem_of_getLast? hl)
    exact (h.agree e he p hf).mp (htrue e he)

theorem Filterable.isTrue {ls : List Expr} (h : Filterable lib schema ctx ls) {pl : WherePlan}
    (hpl : Planned lib schema ls pl) (hm : Matches schema ctx pl.pred) {e : Expr} (he : e ∈ ls)
    {p : ColumnFilter} (hf : leafFilter lib schema e = some p) : IsTrue lib ctx e := by
  have hp : p ∈ ls.filterMap (leafFilter lib schema) := List.mem_filterMap.mpr ⟨e, he, hf⟩
  obtain ⟨q, hq⟩ := List.getLast?_isSome.mpr (List.ne_nil_of_mem hp) |> Option.isSome_iff_exists.mp
  have hpred := hpl.pred.trans hq
  obtain ⟨hcol, hop⟩ := hpl.same p hp q hpred
  obtain ⟨init, hinit⟩ := List.getLast?_eq_some_iff.mp hq
  have hkept := h.kept
  rw [hpred] at hm
  rw [hinit] at hkept hp
  refine (h.agree e he p hf).mpr ?_
  rcases List.mem_append.mp hp with hp | hp
  · exact (List.pairwise_append.mp hkept).2.2 p hp q (by simp) hcol hop hm
  · rwa [List.mem_singleton.mp hp]

/-- A row makes the WHERE true where it makes the leaves on the key true and matches the
predicate. -/
theorem Filterable.passes {where_ : Expr} (h : Filterable lib schema ctx (leaves where_))
    {pl : WherePlan} (hpl : Planned lib schema (leaves where_) pl)
    (hkeys : ∀ e ∈ (leaves where_).filter (isKeyLeaf schema), IsTrue lib ctx e)
    (hm : Matches schema ctx pl.pred) : Passes lib ctx where_ := by
  refine .inr ((isTrue_iff_leaves lib ctx where_).mpr fun e he => ?_)
  by_cases hk : isKeyLeaf schema e = true
  · exact hkeys e (List.mem_filter.mpr ⟨he, hk⟩)
  · have hcov := List.all_eq_true.mp hpl.covered e he
    rw [covered, Bool.or_eq_true, or_iff_right hk] at hcov
    obtain ⟨p, hf⟩ := Option.isSome_iff_exists.mp hcov
    exact h.isTrue hpl hm he hf

/-- The AND of leaves on the key has them as its leaves. -/
theorem leaves_keys {where_ : Expr} {ks : List Expr}
    (hks : (leaves where_).filter (isKeyLeaf schema) = ks) (hne : ks ≠ []) :
    leaves (andExprs ks) = ks ∧ andExprs ks ≠ .nil := by
  have hmem : ∀ e ∈ ks, e ∈ leaves where_ ∧ isKeyLeaf schema e = true := fun e he =>
    List.mem_filter.mp (hks ▸ he)
  have hleaves := leaves_andExprs hne fun e he => leaves_leaf (hmem e he).1
  refine ⟨hleaves, fun hnil => ?_⟩
  rw [hnil] at hleaves
  have hkey := (hmem .nil (hleaves ▸ List.mem_singleton_self _)).2
  cases hkey

/-- The plan of a WHERE whose leaves the planner is right about. -/
theorem planRight {where_ : Expr} (hrow : Keyed schema ctx)
    (h : (leaves where_).all (covered lib schema) = true →
      Plannable lib schema ctx ((leaves where_).filter (isKeyLeaf schema)) ∧
        Filterable lib schema ctx (leaves where_)) :
    PlanRight lib schema ctx where_ := by
  have hnone : planWhere lib schema where_ = (none, none, false) →
      PlanRight lib schema ctx where_ := fun heq =>
    ⟨fun _ => heq ▸ ⟨inRange_none _, matches_none⟩, fun h => by simp [heq] at h⟩
  by_cases hpk : schema.pk.isEmpty
  · have heq : planWhere lib schema where_ = (none, none, decide (where_ = .nil)) := if_pos hpk
    exact ⟨fun _ => heq ▸ ⟨inRange_none _, matches_none⟩,
      fun hexact _ _ => .inl (by simpa [heq] using hexact)⟩
  generalize hpl : planOf lib schema (leaves where_) = pl
  have heq : planWhere lib schema where_ =
      if !pl.exact then (none, none, false)
      else if pl.pkLeaves.isEmpty then (none, pl.pred, true)
      else if (pkRangeFromWhere lib schema (andExprs pl.pkLeaves)).2 then
        ((pkRangeFromWhere lib schema (andExprs pl.pkLeaves)).1, pl.pred, true)
      else (none, none, false) := by
    rw [planWhere, if_neg hpk]
    simp only [planVisit_eq_foldl, ← hpl]
    rfl
  cases hex : pl.exact with
  | false => exact hnone (by simpa [hex] using heq)
  | true =>
    rw [hex, Bool.not_true, if_neg Bool.false_ne_true] at heq
    have hplanned := planned_of_exact (hpl ▸ hex)
    rw [hpl] at hplanned
    obtain ⟨hplan, hfilter⟩ := h hplanned.covered
    have hlast (htrue : IsTrue lib ctx where_) : Matches schema ctx pl.pred :=
      hplanned.pred ▸ hfilter.matches_last ((isTrue_iff_leaves lib ctx where_).mp htrue)
    rw [hplanned.pkLeaves] at heq
    generalize hks : (leaves where_).filter (isKeyLeaf schema) = ks at heq hplan
    by_cases hnil : ks = []
    · rw [hnil, List.isEmpty_nil, if_pos rfl] at heq
      refine ⟨fun htrue => heq ▸ ⟨inRange_none _, hlast htrue⟩, fun _ _ hm => ?_⟩
      rw [heq] at hm
      exact hfilter.passes hplanned (by simp [hks, hnil]) hm
    obtain ⟨hleaves, hne⟩ := leaves_keys hks hnil
    have hright : RangeRight lib schema ctx (andExprs ks) :=
      Plannable.rangeRight (hleaves.symm ▸ hplan) hrow
    rw [if_neg (by simpa using hnil)] at heq
    split at heq
    · rename_i hrange
      constructor
      · intro htrue
        rw [heq]
        refine ⟨hright.sound ((isTrue_iff_leaves lib ctx _).mpr fun e he => ?_), hlast htrue⟩
        rw [hleaves, ← hks] at he
        exact (isTrue_iff_leaves lib ctx where_).mp htrue e (List.mem_of_mem_filter he)
      · intro _ hin hm
        rw [heq] at hin hm
        refine hfilter.passes hplanned (fun e he => ?_) hm
        have hand := (hright.exact hrange hin).resolve_left hne
        exact (isTrue_iff_leaves lib ctx _).mp hand e (by rwa [hleaves, ← hks])
    · exact hnone heq

end Plan

section Main

/-- A table with an integer key `a`. -/
def keyTable : TableSchema where
  name := ascii "t"
  columns := [⟨ascii "a", .int, true, .nil, true⟩]
  pk := [ascii "a"]
  engine := []

def keyRow (n : Int64) : RowContext := fun name => if name = ascii "a" then some (intValue n) else none

def keyIs (op : BinOp) (n : Int64) : Expr := .binary op (.ident (ascii "a")) (.literal (.int n))

theorem keyed_keyRow (n : Int64) : Keyed keyTable (keyRow n) := by
  intro name hname
  obtain rfl := List.mem_singleton.mp hname
  exact ⟨intValue n, rfl, rfl, .inl rfl, rfl, rfl, by simp [intValue]⟩

theorem inRange_iff_bounds {r : Option PKRange} {key : Bytes} : InRange r key ↔
    (pkRangeBytes r).1.all (· ≤ key) ∧ (pkRangeBytes r).2.all (key < ·) := by
  simp [InRange, Option.all_eq_true]

end Main

end Ydbgo.Sql
