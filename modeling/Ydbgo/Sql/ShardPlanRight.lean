import Ydbgo.Sql.AggregateValues
import Ydbgo.Sql.Panics

/-! # What the plans for shards describe

The plan of a SELECT has an entry for each item, the group column or an
aggregate, and the partial aggregates that a shard evaluates are those of the
items. Merging the answers of the shards gives each item its merged value.
-/

namespace Ydbgo.Sql

/-- The items that the plans take, with the aggregate that an item stands for. Averages are left
out. -/
inductive Describes (lib : Stdlib) (schema : TableSchema) (group : Option Bytes) :
    Expr → Option (Agg × Bytes) → Prop
  | group {g : Bytes} (hg : group = some g) : Describes lib schema group (.ident g) none
  | star {fn : Bytes} (hfn : Agg.ofName (lib.toLower fn) = .count) :
      Describes lib schema group (.call fn [.ident (ascii "*")]) (some (.count, []))
  | column {fn : Bytes} {col : ColumnDef} {kind : Agg}
      (hfn : Agg.ofName (lib.toLower fn) = kind) (hkind : kind.Merges)
      (hcol : col ∈ schema.columns) :
      Describes lib schema group (.call fn [.ident col.name]) (some (kind, col.name))

/-- The item is no average. -/
def NoAverage (lib : Stdlib) (e : Expr) : Prop :=
  ∀ fn args, e = .call fn args → Agg.ofName (lib.toLower fn) ≠ .avg

/-- The output items from the partial result `n` on. -/
def planItems : ℕ → List (Option (Agg × Bytes)) → List (AggItemKind × List ℕ)
  | _, [] => []
  | n, none :: specs => (.plain, []) :: planItems n specs
  | n, some _ :: specs => (.plain, [n]) :: planItems (n + 1) specs

/-- The plan for items that stand for the aggregates. -/
structure AggregatePlan.For (p : AggregatePlan) (specs : List (Option (Agg × Bytes))) : Prop where
  exprs : p.partialExprs = (specs.filterMap id).map fun a => aggCallExpr a.1 a.2
  kinds : p.mergeKinds = (specs.filterMap id).map Prod.fst
  items : p.itemKinds.zip p.itemSubIdx = planItems 0 specs
  length : p.itemKinds.length = p.itemSubIdx.length

section Plans

variable {lib : Stdlib} {schema : TableSchema} {group : Option Bytes} {p p' : AggregatePlan}
  {specs : List (Option (Agg × Bytes))} {e : Expr}

theorem planItems_append (n : ℕ) (specs : List (Option (Agg × Bytes)))
    (spec : Option (Agg × Bytes)) : planItems n (specs ++ [spec]) =
      planItems n specs ++ planItems (n + (specs.filterMap id).length) [spec] := by
  induction specs generalizing n with
  | nil => rfl
  | cons s specs ih =>
    cases s with
    | none => simp [planItems, ih]
    | some a => simp [planItems, ih, Nat.add_assoc, Nat.add_comm 1]

theorem ne_nil_of_planItems {n : ℕ} (h : ∀ spec ∈ specs, spec.isSome) :
    ∀ it ∈ planItems n specs, it.2 ≠ [] := by
  induction specs generalizing n with
  | nil => nofun
  | cons spec specs ih =>
    obtain ⟨hspec, hrest⟩ := List.forall_mem_cons.mp h
    obtain ⟨a, rfl⟩ := Option.isSome_iff_exists.mp hspec
    exact List.forall_mem_cons.mpr ⟨by simp, ih hrest⟩

/-- The plan with one more aggregate. -/
def AggregatePlan.add (p : AggregatePlan) (a : Agg × Bytes) : AggregatePlan where
  partialExprs := p.partialExprs ++ [aggCallExpr a.1 a.2]
  mergeKinds := p.mergeKinds ++ [a.1]
  itemKinds := p.itemKinds ++ [.plain]
  itemSubIdx := p.itemSubIdx ++ [[p.partialExprs.length]]

theorem AggregatePlan.For.add (h : p.For specs) (a : Agg × Bytes) :
    (p.add a).For (specs ++ [some a]) := by
  constructor
  · simp [AggregatePlan.add, h.exprs]
  · simp [AggregatePlan.add, h.kinds]
  · simp only [AggregatePlan.add]
    rw [List.zip_append h.length, h.items, planItems_append, h.exprs, List.length_map, Nat.zero_add]
    rfl
  · simp [AggregatePlan.add, h.length]

theorem AggregatePlan.For.addGroup (h : p.For specs) :
    ({ p with itemKinds := p.itemKinds ++ [.plain], itemSubIdx := p.itemSubIdx ++ [[]] } :
      AggregatePlan).For (specs ++ [none]) := by
  constructor
  · simp [h.exprs]
  · simp [h.kinds]
  · dsimp only
    rw [List.zip_append h.length, h.items, planItems_append]
    rfl
  · simp [h.length]

theorem columnOf_eq_some {e : Expr} {c : Bytes} (h : columnOf schema e = some c) :
    e = .ident c ∧ ∃ col ∈ schema.columns, col.name = c := by
  unfold columnOf at h
  split at h
  · obtain ⟨col, hcol, rfl⟩ := Option.map_eq_some_iff.mp h
    have hname := List.find?_some hcol
    simp only [decide_eq_true_eq] at hname
    exact ⟨by rw [hname], col, List.mem_of_find?_eq_some hcol, rfl⟩
  · cases h

/-- What a plan takes as an item. -/
theorem appendAggItem_some (havg : NoAverage lib e) (h : appendAggItem lib schema p e = some p') :
    ∃ a, Describes lib schema group e (some a) ∧ p' = p.add a := by
  unfold appendAggItem at h
  split at h
  · rename_i fn arg
    obtain ⟨c, hc, h⟩ := Option.bind_eq_some_iff.mp h
    have hdesc : ∀ kind : Agg, Agg.ofName (lib.toLower fn) = kind → kind.Merges →
        Describes lib schema group (.call fn [arg]) (some (kind, c)) := by
      intro kind hfn hkind
      unfold argColumn at hc
      split at hc
      · rename_i hstar
        obtain rfl := Option.some.inj hc
        obtain ⟨hcount, rfl⟩ := hstar
        obtain rfl := hfn.symm.trans hcount
        exact .star hfn
      · obtain ⟨rfl, col, hcol, rfl⟩ := columnOf_eq_some hc
        exact .column hfn hkind hcol
    have hna := havg fn _ rfl
    cases hk : Agg.ofName (lib.toLower fn) <;> simp only [hk] at h
    case count | sum | min | max =>
      obtain rfl := Option.some.inj h
      exact ⟨_, hdesc _ hk (by simp [Agg.Merges]), rfl⟩
    case avg => exact absurd hk hna
    case countIf | other => cases h
  · cases h

/-- The items of a plan, one after the other. -/
theorem for_foldlM {f : AggregatePlan → SelectItem → Option AggregatePlan} {items : List SelectItem}
    (hf : ∀ it ∈ items, ∀ p p' specs, f p it = some p' → p.For specs →
      ∃ spec, Describes lib schema group it.expr spec ∧ p'.For (specs ++ [spec]))
    (hp : p.For specs) (h : items.foldlM f p = some p') :
    ∃ specs', List.Forall₂ (fun it : SelectItem => Describes lib schema group it.expr) items specs' ∧
      p'.For (specs ++ specs') := by
  induction items generalizing p specs with
  | nil =>
    obtain rfl := Option.some.inj h
    exact ⟨[], .nil, by simpa using hp⟩
  | cons it items ih =>
    rw [List.foldlM_cons] at h
    obtain ⟨q, hq, h⟩ := Option.bind_eq_some_iff.mp h
    obtain ⟨spec, hspec, hfor⟩ := hf it List.mem_cons_self p q specs hq hp
    obtain ⟨specs', hspecs, hfor'⟩ :=
      ih (fun it hit => hf it (List.mem_cons_of_mem _ hit)) hfor h
    exact ⟨spec :: specs', .cons hspec hspecs, by simpa using hfor'⟩

theorem for_nil : ({} : AggregatePlan).For [] := ⟨rfl, rfl, rfl, rfl⟩

/-- A plan for the whole table takes aggregates only. -/
theorem planAggregate_some {s : SelectStmt} (havg : ∀ it ∈ s.items, NoAverage lib it.expr)
    (h : planAggregate lib schema s = some p) :
    s.groupBy = [] ∧ s.hasLimit = false ∧ s.distinct = false ∧
      ∃ specs, List.Forall₂ (fun it : SelectItem => Describes lib schema none it.expr) s.items specs ∧
        p.For specs := by
  unfold planAggregate at h
  split at h
  · cases h
  · rename_i hno
    simp only [not_or, not_not, Bool.not_eq_true] at hno
    obtain ⟨specs, hspecs, hfor⟩ := for_foldlM (fun it hit p p' specs h hp => by
      obtain ⟨a, ha, rfl⟩ := appendAggItem_some (havg it hit) h
      exact ⟨some a, ha, hp.add a⟩) for_nil h
    exact ⟨hno.1, hno.2.2.1, hno.2.2.2, specs, hspecs, hfor⟩

/-- A plan for groups takes the group column and aggregates. -/
theorem planGrouped_some {s : SelectStmt} {g : GroupedPlan}
    (havg : ∀ it ∈ s.items, NoAverage lib it.expr) (h : planGrouped lib schema s = some g) :
    s.groupBy = [.ident g.groupCol] ∧ s.hasLimit = false ∧ s.distinct = false ∧
      (∃ col ∈ schema.columns, col.name = g.groupCol) ∧
      ∃ specs, List.Forall₂
        (fun it : SelectItem => Describes lib schema (some g.groupCol) it.expr) s.items specs ∧
        g.agg.For specs := by
  unfold planGrouped at h
  split at h
  · rename_i e hgroup
    split at h
    · cases h
    · rename_i hno
      simp only [not_or, not_not, Bool.not_eq_true] at hno
      obtain ⟨c, hc, h⟩ := Option.bind_eq_some_iff.mp h
      obtain ⟨agg, hagg, h⟩ := Option.bind_eq_some_iff.mp h
      obtain rfl := Option.some.inj h
      obtain ⟨rfl, hcol⟩ := columnOf_eq_some hc
      have hitem : ∀ it ∈ s.items, ∀ p p' specs, (if it.expr = .ident c then
          some { p with itemKinds := p.itemKinds ++ [.plain], itemSubIdx := p.itemSubIdx ++ [[]] }
          else appendAggItem lib schema p it.expr) = some p' → p.For specs →
          ∃ spec, Describes lib schema (some c) it.expr spec ∧ p'.For (specs ++ [spec]) := by
        intro it hit p p' specs h hp
        split at h
        · rename_i he
          obtain rfl := Option.some.inj h
          exact ⟨none, he ▸ .group rfl, hp.addGroup⟩
        · obtain ⟨a, ha, rfl⟩ := appendAggItem_some (havg it hit) h
          exact ⟨some a, ha, hp.add a⟩
      obtain ⟨specs, hspecs, hfor⟩ := for_foldlM hitem for_nil hagg
      exact ⟨hgroup, hno.2.1, hno.2.2, hcol, specs, hspecs, hfor⟩
  · cases h

/-! ### Merging -/

/-- The merged output items, where each partial result has its merged value. -/
theorem map_planItems {off n : ℕ} {partials : List Row} {gval : Value} {val : Agg × Bytes → Value}
    (h : ∀ j a, (specs.filterMap id)[j]? = some a → p.mergeSub lib off partials (n + j) = val a) :
    (planItems n specs).map (fun it => if it.2 = [] then gval
      else p.mergeItem lib off partials it.1 it.2) =
      specs.map fun spec => (spec.map val).getD gval := by
  induction specs generalizing n with
  | nil => rfl
  | cons spec specs ih =>
    cases spec with
    | none =>
      rw [planItems, List.map_cons, List.map_cons, ih h]
      rfl
    | some a =>
      have ha := h 0 a rfl
      rw [Nat.add_zero] at ha
      rw [planItems, List.map_cons, List.map_cons, ih fun j b hj => by
        rw [Nat.add_assoc, Nat.add_comm 1 j]
        exact h (j + 1) b hj]
      simp [AggregatePlan.mergeItem, ha]

/-- The merged value of a partial result that every shard's row has behind its first columns. -/
theorem mergeSub_map (h : p.For specs) {off : ℕ} {parts : List (List RowContext)}
    (pre : List RowContext → Row) (hpre : ∀ g ∈ parts, (pre g).length = off) {j : ℕ}
    {a : Agg × Bytes} (ha : (specs.filterMap id)[j]? = some a) :
    p.mergeSub lib off (parts.map fun g => pre g ++ (specs.filterMap id).map
      fun a => aggValue lib a g) j = mergedValue lib a parts := by
  have hkind : p.mergeKinds[j]? = some a.1 := by
    rw [h.kinds, List.getElem?_map, ha]
    rfl
  rw [AggregatePlan.mergeSub, hkind, Option.getD_some]
  apply mergeAggSub_map
  intro g hg
  rw [← hpre g hg, List.getElem?_append_right (by omega), Nat.add_sub_cancel_left,
    List.getElem?_map, ha]
  rfl

end Plans

end Ydbgo.Sql
