import Mathlib.Algebra.Order.BigOperators.Group.List
import Ydbgo.Lib.Split
import Ydbgo.Sql.ShardPlanRight

/-! # Merging over shards is aggregating the union

The rows of a table are spread over shards in any way. The merged answers are
those of the whole table, in whatever order the shards answer, exactly if the
group values print apart that are apart and MIN and MAX have one best value in
each group.
-/

namespace Ydbgo.Sql

/-! ### One statement over one list of rows -/

/-- The rows that WHERE is true of. -/
def keeps (lib : Stdlib) (where_ : Expr) (ctx : RowContext) : Bool :=
  match (whereTrue lib where_ ctx).run with
  | some (.ok b) => b
  | _ => false

/-- WHERE has a value in the row. -/
def Decides (lib : Stdlib) (where_ : Expr) (ctx : RowContext) : Prop :=
  ∃ b, Gives (whereTrue lib where_ ctx) b

/-- The group of a row. -/
def keyOf (lib : Stdlib) (group : Option Bytes) (ctx : RowContext) : Bytes :=
  match group with
  | none => []
  | some g => keyPart lib (valueAt g ctx)

def groupExprs (group : Option Bytes) : List Expr := group.toList.map .ident

/-- The groups of a list of rows. -/
def groupsOf (lib : Stdlib) (group : Option Bytes) (rows : List RowContext) :
    List (List RowContext) := groups (keyOf lib group) rows

section Select

variable {lib : Stdlib} {where_ : Expr} {group : Option Bytes} {rows : List RowContext}

theorem pure_of_gives {α : Type} {x : Eval α} {a : α} (h : Gives x a) : x = pure a := h

theorem gives_filterWhere {kept : List RowContext} (h : Gives (filterWhere lib where_ rows) kept) :
    ∀ ctx ∈ rows, Decides lib where_ ctx := by
  induction rows generalizing kept with
  | nil => simp
  | cons ctx rows ih =>
    obtain ⟨b, hb, h⟩ := gives_bind.mp h
    obtain ⟨rest, hrest, -⟩ := gives_bind.mp h
    exact List.forall_mem_cons.mpr ⟨⟨b, hb⟩, ih hrest⟩

theorem filterWhere_eq (h : ∀ ctx ∈ rows, Decides lib where_ ctx) :
    filterWhere lib where_ rows = pure (rows.filter (keeps lib where_)) := by
  induction rows with
  | nil => rfl
  | cons ctx rows ih =>
    obtain ⟨⟨b, hb⟩, h⟩ := List.forall_mem_cons.mp h
    have hkeeps : keeps lib where_ ctx = b := by
      unfold keeps
      rw [hb]
    rw [filterWhere, pure_of_gives hb, pure_bind, ih h, pure_bind, List.filter_cons, hkeeps]

theorem mapM_eq_pure {α β : Type} {f : α → Eval β} {g : α → β} {as : List α}
    (h : ∀ a ∈ as, f a = pure (g a)) : as.mapM f = pure (as.map g) := by
  induction as with
  | nil => rfl
  | cons a as ih =>
    obtain ⟨ha, h⟩ := List.forall_mem_cons.mp h
    rw [List.mapM_cons, ha, pure_bind, ih h, pure_bind]
    rfl

/-- The group column has values in the rows. -/
def HasGroup (group : Option Bytes) (rows : List RowContext) : Prop :=
  ∀ g, group = some g → g ≠ ascii "*" ∧ ∃ t, HasColumn g t rows

theorem HasGroup.of_subset {rows' : List RowContext} (h : HasGroup group rows)
    (hs : ∀ ctx ∈ rows', ctx ∈ rows) : HasGroup group rows' := by
  intro g hg
  obtain ⟨hne, t, hcol⟩ := h g hg
  exact ⟨hne, t, hcol.of_subset hs⟩

theorem groupKey_eq (h : HasGroup group rows) {ctx : RowContext} (hctx : ctx ∈ rows) :
    groupKey lib (groupExprs group) ctx = pure (keyOf lib group ctx) := by
  cases group with
  | none => rfl
  | some g =>
    obtain ⟨hne, t, hcol⟩ := h g rfl
    have heval : eval lib ctx (.ident g) = pure (valueAt g ctx) := by
      rw [eval, if_neg hne, (hcol ctx hctx).1]
    have hjoin : List.intercalate [0] [keyPart lib (valueAt g ctx)] = keyPart lib (valueAt g ctx) := by
      simp [List.intercalate]
    simp only [groupKey, groupExprs, Option.toList_some, List.map_cons, List.map_nil,
      List.mapM_cons, List.mapM_nil, heval]
    change (pure (List.intercalate [0] [keyPart lib (valueAt g ctx)]) : Eval Bytes) = _
    rw [hjoin]
    rfl

/-- Without GROUP BY all rows are one group. -/
theorem groupsOf_none (h : rows ≠ []) : groupsOf lib none rows = [rows] := by
  have hkeys : (firstKeys (keyOf lib none) rows).Perm [[]] := by
    refine (List.perm_ext_iff_of_nodup nodup_firstKeys (List.nodup_singleton _)).mpr fun k => ?_
    obtain ⟨ctx, hctx⟩ := List.exists_mem_of_ne_nil rows h
    rw [mem_firstKeys, List.mem_singleton]
    constructor
    · rintro ⟨_, -, rfl⟩
      rfl
    · rintro rfl
      exact ⟨ctx, hctx, rfl⟩
  rw [groupsOf, groups, List.perm_singleton.mp hkeys]
  simp [keyOf]

/-- The groups of the loop are the filters by the keys. -/
theorem aggregateGroups_eq {s : SelectStmt} {f : List RowContext → Row}
    (hgroup : s.groupBy = groupExprs group) (hcol : HasGroup group rows)
    (hf : ∀ g ∈ groupsOf lib group rows, aggregateRow lib s.items g = pure (f g))
    (hnil : group = none → rows = [] → aggregateRow lib s.items [] = pure (f [])) :
    aggregateGroups lib s rows = pure (if group = none then [f rows]
      else (groupsOf lib group rows).map f) := by
  have hkeyed : (rows.mapM fun ctx => do return (← groupKey lib s.groupBy ctx, ctx)) =
      (pure (rows.map fun ctx => (keyOf lib group ctx, ctx)) :
        Eval (List (Bytes × RowContext))) := by
    refine mapM_eq_pure fun ctx hctx => ?_
    rw [hgroup, groupKey_eq hcol hctx]
    rfl
  have hgroups : ((groupsBy Prod.fst (rows.map fun ctx => (keyOf lib group ctx, ctx))).map
      fun g => g.2.map Prod.snd) = groupsOf lib group rows :=
    groupsBy_keyed rows
  have hout : ((groupsBy Prod.fst (rows.map fun ctx => (keyOf lib group ctx, ctx))).mapM
      fun g => aggregateRow lib s.items (g.2.map Prod.snd)) =
        pure ((groupsOf lib group rows).map f) := by
    rw [← hgroups, List.map_map]
    refine mapM_eq_pure fun g hg => hf _ ?_
    rw [← hgroups]
    exact List.mem_map.mpr ⟨g, hg, rfl⟩
  rw [aggregateGroups, hkeyed, pure_bind]
  dsimp only
  rw [hout, pure_bind, hgroup]
  cases group with
  | some g => simp [groupExprs]
  | none =>
    by_cases hrows : rows = []
    · rw [hrows, hnil rfl hrows]
      rfl
    · rw [groupsOf_none hrows]
      rfl

/-- A SELECT with neither DISTINCT nor LIMIT. -/
theorem selectAggregate_eq {s : SelectStmt} (group : Option Bytes) (f : List RowContext → Row)
    (hgroup : s.groupBy = groupExprs group) (hlimit : s.hasLimit = false)
    (hdistinct : s.distinct = false) (hdec : ∀ ctx ∈ rows, Decides lib s.where_ ctx)
    (hcol : HasGroup group (rows.filter (keeps lib s.where_)))
    (hf : ∀ g ∈ groupsOf lib group (rows.filter (keeps lib s.where_)),
      aggregateRow lib s.items g = pure (f g))
    (hnil : group = none → rows.filter (keeps lib s.where_) = [] →
      aggregateRow lib s.items [] = pure (f [])) :
    selectAggregate lib s rows = pure (if group = none then [f (rows.filter (keeps lib s.where_))]
      else (groupsOf lib group (rows.filter (keeps lib s.where_))).map f) := by
  rw [selectAggregate, filterWhere_eq hdec, pure_bind, aggregateGroups_eq hgroup hcol hf hnil,
    pure_bind]
  simp [hlimit, hdistinct]

theorem decides_of_gives_select {s : SelectStmt} {out : List Row}
    (h : Gives (selectAggregate lib s rows) out) : ∀ ctx ∈ rows, Decides lib s.where_ ctx := by
  obtain ⟨kept, hkept, -⟩ := gives_bind.mp h
  exact gives_filterWhere hkept

end Select

/-! ### The items over one group -/

/-- A plan's aggregate can be evaluated over the rows, and stays exact. -/
structure FitsRows (lib : Stdlib) (a : Agg × Bytes) (rows : List RowContext) : Prop where
  kind : a.1.Merges
  star : a.2 = [] → a.1 = .count
  column : a.2 ≠ [] → a.2 ≠ ascii "*" ∧ ∃ t, HasColumn a.2 t rows ∧
    SumsExactly a.1 t (colValues a.2 rows)

/-- An output item over a group. -/
def specValue (lib : Stdlib) (group : Option Bytes) (rows : List RowContext)
    (spec : Option (Agg × Bytes)) : Value :=
  match spec with
  | none => ((rows.head?).map (valueAt (group.getD []))).getD nullValue
  | some a => aggValue lib a rows

section Items

variable {lib : Stdlib} {schema : TableSchema} {group : Option Bytes} {rows : List RowContext}
  {a : Agg × Bytes} {e : Expr} {spec : Option (Agg × Bytes)}

theorem FitsRows.of_subperm {rows' : List RowContext} (h : FitsRows lib a rows)
    (hs : rows'.Subperm rows) : FitsRows lib a rows' := by
  refine ⟨h.kind, h.star, fun hne => ?_⟩
  obtain ⟨hstar, t, hcol, hsum⟩ := h.column hne
  refine ⟨hstar, t, hcol.of_subset fun ctx hctx => hs.subset hctx, fun hk => ?_⟩
  obtain ⟨ht, hexact⟩ := hsum hk
  obtain ⟨rows'', hperm, hsub⟩ := hs
  refine ⟨ht, le_trans ?_ hexact⟩
  rw [← List.Perm.sum_eq ((colValues_perm hperm a.2).map _)]
  exact (((hsub.map _).filter _).map _).sum_le_sum (fun _ _ => Nat.zero_le _)

theorem mergedValue_of_fits {parts : List (List RowContext)} (hlib : ExactLibrary lib)
    (h : FitsRows lib a parts.flatten) (hone : Settled lib a parts.flatten) :
    mergedValue lib a parts = aggValue lib a parts.flatten := by
  by_cases hne : a.2 = []
  · refine mergedValue_eq (t := .int) hlib h.kind (fun h => absurd hne h) h.star (fun hk => ?_) hone
    rw [h.star hne] at hk
    cases hk
  · obtain ⟨-, t, hcol, hsum⟩ := h.column hne
    exact mergedValue_eq hlib h.kind (fun _ => hcol) h.star hsum hone

theorem evalAggregateCall_of_fits {fn : Bytes} (hlib : ExactLibrary lib) (h : FitsRows lib a rows)
    (hfn : Agg.ofName (lib.toLower fn) = a.1) : evalAggregateCall lib fn
      [.ident (if a.2 = [] then ascii "*" else a.2)] rows = pure (aggValue lib a rows) := by
  obtain ⟨kind, c⟩ := a
  by_cases hne : c = []
  · subst hne
    obtain rfl : kind = .count := h.star rfl
    exact evalAggregateCall_star rfl hfn
  · obtain ⟨hstar, t, hcol, hsum⟩ := h.column hne
    rw [if_neg hne]
    exact evalAggregateCall_column hlib hfn h.kind hstar hne hcol hsum

theorem ofName_name (kind : Agg) : Agg.ofName kind.name = kind := by
  cases kind <;> decide

/-- A partial aggregate, as a shard evaluates it. -/
theorem eval_aggCallExpr (hlib : ExactLibrary lib) (h : FitsRows lib a rows) :
    evalSelectItemAgg lib rows (aggCallExpr a.1 a.2) = pure (aggValue lib a rows) := by
  have hcall : aggCallExpr a.1 a.2 =
      .call a.1.name [.ident (if a.2 = [] then ascii "*" else a.2)] := by
    unfold aggCallExpr
    by_cases hne : a.2 = []
    · rw [if_pos ⟨h.star hne, hne⟩, if_pos hne, h.star hne]
      rfl
    · rw [if_neg (fun hc => hne hc.2), if_neg hne]
  rw [hcall, evalSelectItemAgg]
  apply evalAggregateCall_of_fits hlib h
  rw [hlib.lower, ofName_name]

theorem eval_group (g : Bytes) (rows : List RowContext) :
    evalSelectItemAgg lib rows (.ident g) = pure (specValue lib (some g) rows none) := by
  cases rows <;> rfl

/-- An item of the query, over a group. -/
theorem eval_item (hlib : ExactLibrary lib) (hd : Describes lib schema group e spec)
    (hne : ∀ col ∈ schema.columns, col.name ≠ [])
    (h : ∀ a, spec = some a → FitsRows lib a rows) :
    evalSelectItemAgg lib rows e = pure (specValue lib group rows spec) := by
  cases hd with
  | group hg =>
    subst hg
    exact eval_group _ rows
  | star hfn => exact evalAggregateCall_star rfl hfn
  | @column fn col kind hfn hkind hcol =>
    have heval := evalAggregateCall_of_fits hlib (h _ rfl) hfn
    rwa [if_neg (hne col hcol)] at heval

theorem aggregateRow_eq (hlib : ExactLibrary lib) {items : List SelectItem}
    {specs : List (Option (Agg × Bytes))}
    (hd : List.Forall₂ (fun it : SelectItem => Describes lib schema group it.expr) items specs)
    (hne : ∀ col ∈ schema.columns, col.name ≠ [])
    (h : ∀ a, some a ∈ specs → FitsRows lib a rows) :
    aggregateRow lib items rows = pure (specs.map (specValue lib group rows)) := by
  unfold aggregateRow
  induction hd with
  | nil => rfl
  | @cons it spec items specs hit hd ih =>
    have hitem := eval_item hlib hit hne fun a ha => h a (by simp [ha])
    rw [List.mapM_cons, hitem, pure_bind, ih fun a ha => h a (List.mem_cons_of_mem _ ha), pure_bind]
    rfl

end Items

/-! ### Merging the answers of the shards -/

/-- The row that a shard answers with for a group: its value, and the partial aggregates. -/
def partialRow (lib : Stdlib) (group : Option Bytes) (specs : List (Option (Agg × Bytes)))
    (rows : List RowContext) : Row :=
  (group.toList.map fun _ => specValue lib group rows none) ++
    (specs.filterMap id).map fun a => aggValue lib a rows

/-- The merged row of a group, in the parts that the shards have of it. -/
def mergedRow (lib : Stdlib) (group : Option Bytes) (specs : List (Option (Agg × Bytes)))
    (parts : List (List RowContext)) : Row :=
  specs.map fun spec => (spec.map fun a => mergedValue lib a parts).getD
    ((parts.head?.map fun rows => specValue lib group rows none).getD nullValue)

/-- The printed form of a row's group. -/
def printedOf (lib : Stdlib) (group : Option Bytes) (ctx : RowContext) : Bytes :=
  (valueAt (group.getD []) ctx).string lib

/-- The printed form of the value a part of a group starts with. -/
def headPrinted (lib : Stdlib) (group : Option Bytes) (part : List RowContext) : Bytes :=
  (specValue lib group part none).string lib

/-- The merged rows: the parts are brought together by the printed forms of their groups. -/
def mergedGroups (lib : Stdlib) (group : Option Bytes) (specs : List (Option (Agg × Bytes)))
    (parts : List (List RowContext)) : List Row :=
  (groups (headPrinted lib group) parts).map (mergedRow lib group specs)

section Merge

variable {lib : Stdlib} {schema : TableSchema} {group : Option Bytes} {s : SelectStmt}
  {specs : List (Option (Agg × Bytes))} {rows : List RowContext} {p : AggregatePlan}
  {shards : List (List RowContext)}

/-- The partial aggregates of a plan over a group. -/
theorem aggregateRow_exprs (hlib : ExactLibrary lib) (hp : p.For specs)
    (h : ∀ a, some a ∈ specs → FitsRows lib a rows) :
    aggregateRow lib (p.partialExprs.map fun e => ⟨e, []⟩) rows =
      pure ((specs.filterMap id).map fun a => aggValue lib a rows) := by
  have hmem : ∀ a ∈ specs.filterMap id, FitsRows lib a rows := by
    intro a ha
    obtain ⟨spec, hspec, rfl⟩ := List.mem_filterMap.mp ha
    exact h a hspec
  rw [hp.exprs, aggregateRow, List.map_map]
  generalize specs.filterMap id = as at hmem
  induction as with
  | nil => rfl
  | cons a as ih =>
    obtain ⟨ha, hmem⟩ := List.forall_mem_cons.mp hmem
    rw [List.map_cons, List.mapM_cons, ih hmem]
    change evalSelectItemAgg lib rows (aggCallExpr a.1 a.2) >>= _ = _
    rw [eval_aggCallExpr hlib ha]
    rfl

theorem keeps_of_perm (lib : Stdlib) (hperm : shards.flatten.Perm rows) (where_ : Expr) :
    ((shards.map fun sh => sh.filter (keeps lib where_)).flatten).Perm
      (rows.filter (keeps lib where_)) := by
  rw [← List.filter_flatten]
  exact hperm.filter _

theorem subperm_of_mem {parts : List (List RowContext)} {g : List RowContext} (hg : g ∈ parts)
    (hperm : parts.flatten.Perm rows) : g.Subperm rows :=
  (List.sublist_flatten_of_mem hg).subperm.trans hperm.subperm

/-- The answers of the shards without groups. -/
theorem merge_plain (hlib : ExactLibrary lib) (hp : p.For specs)
    (hsome : ∀ spec ∈ specs, spec.isSome)
    (hdec : ∀ ctx ∈ rows, Decides lib s.where_ ctx) (hperm : shards.flatten.Perm rows)
    (hfit : ∀ a, some a ∈ specs → FitsRows lib a (rows.filter (keeps lib s.where_))) :
    (do let partials ← shards.mapM (selectAggregate lib (p.shardStmt s))
        return [p.merge lib partials.flatten]) =
      (pure [mergedRow lib none specs (shards.map fun sh => sh.filter (keeps lib s.where_))] :
        Eval (List Row)) := by
  have hkept := keeps_of_perm lib hperm s.where_
  have hanswer : ∀ sh ∈ shards, selectAggregate lib (p.shardStmt s) sh =
      pure [partialRow lib none specs (sh.filter (keeps lib s.where_))] := by
    intro sh hsh
    have hsub := subperm_of_mem (List.mem_map.mpr ⟨sh, hsh, rfl⟩) hkept
    have hrow : ∀ g : List RowContext, g.Subperm (rows.filter (keeps lib s.where_)) →
        aggregateRow lib (p.shardStmt s).items g = pure (partialRow lib none specs g) :=
      fun g hg => aggregateRow_exprs hlib hp fun a ha => (hfit a ha).of_subperm hg
    refine selectAggregate_eq none (partialRow lib none specs) rfl rfl rfl
      (fun ctx hctx => hdec ctx (hperm.subset (List.mem_flatten_of_mem hsh hctx))) nofun
      (fun g hg => hrow g ?_) (fun _ _ => hrow [] List.nil_subperm)
    obtain ⟨a, -, rfl⟩ := mem_groups.mp hg
    exact List.filter_sublist.subperm.trans hsub
  rw [mapM_eq_pure hanswer, pure_bind]
  have hflat : (shards.map fun sh => [partialRow lib none specs (sh.filter (keeps lib s.where_))]).flatten =
      (shards.map fun sh => sh.filter (keeps lib s.where_)).map fun g =>
        [] ++ (specs.filterMap id).map fun a => aggValue lib a g := by
    rw [← List.flatMap_def, ← List.map_eq_flatMap, List.map_map]
    rfl
  rw [hflat, AggregatePlan.merge, hp.items]
  generalize shards.map (fun sh => sh.filter (keeps lib s.where_)) = ks
  have hsub : ∀ j a, (specs.filterMap id)[j]? = some a → p.mergeSub lib 0 (ks.map fun g =>
      [] ++ (specs.filterMap id).map fun a => aggValue lib a g) (0 + j) = mergedValue lib a ks := by
    intro j a ha
    rw [Nat.zero_add]
    exact mergeSub_map hp (fun _ => []) (fun _ _ => rfl) ha
  have hrow : mergedRow lib none specs ks =
      specs.map fun spec => (spec.map fun a => mergedValue lib a ks).getD nullValue := by
    refine List.map_congr_left fun spec hspec => ?_
    obtain ⟨a, rfl⟩ := Option.isSome_iff_exists.mp (hsome spec hspec)
    rfl
  rw [hrow, ← map_planItems hsub]
  refine congrArg (fun r : Row => (pure [r] : Eval (List Row))) (List.map_congr_left fun it hit => ?_)
  rw [if_neg (ne_nil_of_planItems hsome it hit)]

/-- The merge of partial rows of groups. -/
theorem merge_partialRows {g : GroupedPlan} (hp : g.agg.For specs)
    (parts : List (List RowContext)) :
    g.merge lib (parts.map (partialRow lib (some g.groupCol) specs)) =
      mergedGroups lib (some g.groupCol) specs parts := by
  have hne : (parts.map (partialRow lib (some g.groupCol) specs)).filter (fun r => !r.isEmpty) =
      parts.map (partialRow lib (some g.groupCol) specs) := by
    refine List.filter_eq_self.mpr fun r hr => ?_
    obtain ⟨part, -, rfl⟩ := List.mem_map.mp hr
    rfl
  have hkeys : firstKeys (fun r : Row => ((r.head?).getD nullValue).string lib)
      (parts.map (partialRow lib (some g.groupCol) specs)) =
        firstKeys (headPrinted lib (some g.groupCol)) parts := by
    rw [firstKeys, List.map_map]
    rfl
  unfold GroupedPlan.merge mergedGroups groups
  dsimp only
  rw [hne, groupsBy_eq, hkeys, List.map_map, List.map_map]
  refine List.map_congr_left fun k _ => ?_
  simp only [Function.comp_apply, List.filter_map]
  change (g.agg.itemKinds.zip g.agg.itemSubIdx).map _ = _
  have hfilter : parts.filter ((fun r : Row => decide (((r.head?).getD nullValue).string lib = k)) ∘
      partialRow lib (some g.groupCol) specs) =
        parts.filter fun part => headPrinted lib (some g.groupCol) part = k := rfl
  rw [hfilter, hp.items]
  generalize parts.filter (fun part => headPrinted lib (some g.groupCol) part = k) = ps
  have hsub : ∀ j a, (specs.filterMap id)[j]? = some a → g.agg.mergeSub lib 1 (ps.map fun part =>
      [specValue lib (some g.groupCol) part none] ++
        (specs.filterMap id).map fun a => aggValue lib a part) (0 + j) = mergedValue lib a ps := by
    intro j a ha
    rw [Nat.zero_add]
    exact mergeSub_map hp (fun part => [specValue lib (some g.groupCol) part none])
      (fun _ _ => rfl) ha
  refine (map_planItems hsub).trans (List.map_congr_left fun spec _ => ?_)
  cases ps <;> rfl

/-- The answers of the shards with groups. -/
theorem merge_grouped (hlib : ExactLibrary lib) {g : GroupedPlan} (hp : g.agg.For specs)
    (hdec : ∀ ctx ∈ rows, Decides lib s.where_ ctx) (hperm : shards.flatten.Perm rows)
    (hcol : HasGroup (some g.groupCol) (rows.filter (keeps lib s.where_)))
    (hfit : ∀ part ∈ groupsOf lib (some g.groupCol) (rows.filter (keeps lib s.where_)),
      ∀ a, some a ∈ specs → FitsRows lib a part) :
    (do let partials ← shards.mapM (selectAggregate lib (g.shardStmt s))
        return g.merge lib partials.flatten) =
      (pure (mergedGroups lib (some g.groupCol) specs
        ((shards.map fun sh => sh.filter (keeps lib s.where_)).flatMap
          (groupsOf lib (some g.groupCol)))) : Eval (List Row)) := by
  have hkept := keeps_of_perm lib hperm s.where_
  have hanswer : ∀ sh ∈ shards, selectAggregate lib (g.shardStmt s) sh =
      pure ((groupsOf lib (some g.groupCol) (sh.filter (keeps lib s.where_))).map
        (partialRow lib (some g.groupCol) specs)) := by
    intro sh hsh
    have hsub := subperm_of_mem (List.mem_map.mpr ⟨sh, hsh, rfl⟩) hkept
    refine (selectAggregate_eq (some g.groupCol) (partialRow lib (some g.groupCol) specs) rfl rfl rfl
      (fun ctx hctx => hdec ctx (hperm.subset (List.mem_flatten_of_mem hsh hctx)))
      (hcol.of_subset fun ctx hctx => hsub.subset hctx)
      (fun part hpart => ?_) nofun)
    change part ∈ groupsOf lib _ (sh.filter (keeps lib s.where_)) at hpart
    obtain ⟨ctx, hctx, rfl⟩ := mem_groups.mp hpart
    have hpart : ∀ a, some a ∈ specs → FitsRows lib a _ := fun a ha =>
      (hfit _ (mem_groups.mpr ⟨ctx, hsub.subset hctx, rfl⟩) a ha).of_subperm (hsub.filter _)
    have hrow := aggregateRow_exprs hlib hp hpart
    unfold aggregateRow at hrow ⊢
    change (⟨.ident g.groupCol, []⟩ :: g.agg.partialExprs.map _ : List SelectItem).mapM _ = _
    rw [List.mapM_cons, eval_group, pure_bind, hrow]
    rfl
  rw [mapM_eq_pure hanswer, pure_bind, ← merge_partialRows hp, List.flatMap_def, List.map_flatten,
    List.map_map, List.map_map]
  rfl

/-! ### Groups that print apart -/

theorem keyPart_inj {v w : Value} (h : keyPart lib v = keyPart lib w) :
    v.type.name = w.type.name ∧ v.string lib = w.string lib := by
  have hcolon : ∀ t : SqlType, 58 ∉ t.name := by
    intro t
    cases t with
    | other k => exact (by decide : (58 : UInt8) ∉ ascii "null")
    | _ => decide
  have hsplit : ∀ v : Value, keyPart lib v = v.type.name ++ 58 :: v.string lib := by
    intro v
    rw [keyPart, List.append_assoc]
    rfl
  rw [hsplit, hsplit] at h
  exact append_cons_inj (hcolon _) (hcolon _) h

theorem keyPart_eq_iff {v w : Value} : keyPart lib v = keyPart lib w ↔
    v.type.name = w.type.name ∧ v.string lib = w.string lib := by
  constructor
  · exact keyPart_inj
  · rintro ⟨hname, hstr⟩
    rw [keyPart, keyPart, hname, hstr]

/-- Group values that print alike are of one type. -/
def PrintedApart (lib : Stdlib) (group : Option Bytes) (rows : List RowContext) : Prop :=
  ∀ a ∈ rows, ∀ b ∈ rows, printedOf lib group a = printedOf lib group b →
    keyOf lib group a = keyOf lib group b

theorem groupsOf_eq {g : Bytes} (h : PrintedApart lib (some g) rows) :
    groupsOf lib (some g) rows = groups (printedOf lib (some g)) rows :=
  groups_congr fun a ha b hb => ⟨fun hk => (keyPart_inj hk).2, h a ha b hb⟩

theorem headPrinted_eq {g : Bytes} {part : List RowContext} (hne : part ≠ []) (k : Bytes) :
    headPrinted lib (some g) part = k ↔ (part.head?).map (printedOf lib (some g)) = some k := by
  obtain ⟨ctx, part, rfl⟩ := List.exists_cons_of_ne_nil hne
  simp [headPrinted, specValue, printedOf]

/-- The parts of one group. -/
def partsOf (lib : Stdlib) (group : Option Bytes) (ks : List (List RowContext)) (k : Bytes) :
    List (List RowContext) :=
  (ks.map fun rows => rows.filter fun ctx => printedOf lib group ctx = k).filter fun g => !g.isEmpty

theorem flatten_partsOf (ks : List (List RowContext)) (k : Bytes) :
    (partsOf lib group ks k).flatten =
      ks.flatten.filter fun ctx => printedOf lib group ctx = k := by
  rw [partsOf, List.flatten_filter_not_isEmpty, List.filter_flatten]

/-- The merged rows are those of the groups, in some order. -/
theorem mergedGroups_perm {g : Bytes} (ks : List (List RowContext)) (h : PrintedApart lib (some g) rows)
    (hperm : ks.flatten.Perm rows) :
    (mergedGroups lib (some g) specs (ks.flatMap (groupsOf lib (some g)))).Perm
      ((firstKeys (printedOf lib (some g)) rows).map fun k =>
        mergedRow lib (some g) specs (partsOf lib (some g) ks k)) := by
  have hgroups : ks.flatMap (groupsOf lib (some g)) =
      ks.flatMap (groups (printedOf lib (some g))) := by
    refine List.flatMap_congr fun k hk => groupsOf_eq fun a ha b hb => ?_
    exact h a (hperm.subset (List.mem_flatten_of_mem hk ha)) b
      (hperm.subset (List.mem_flatten_of_mem hk hb))
  have hne : ∀ part ∈ ks.flatMap (groups (printedOf lib (some g))), part ≠ [] := by
    intro part hpart
    obtain ⟨k, -, hpart⟩ := List.mem_flatMap.mp hpart
    obtain ⟨ctx, hctx, rfl⟩ := mem_groups.mp hpart
    exact List.ne_nil_of_mem (a := ctx) (by simp [hctx])
  have hfilter : ∀ k, ((ks.flatMap (groups (printedOf lib (some g)))).filter
      fun part => headPrinted lib (some g) part = k) = partsOf lib (some g) ks k := by
    intro k
    rw [partsOf, ← filter_flatMap_groups]
    refine List.filter_congr fun part hpart => ?_
    rw [decide_eq_decide, headPrinted_eq (hne part hpart)]
  rw [mergedGroups, hgroups, groups, List.map_map]
  have hrow : (firstKeys (headPrinted lib (some g)) (ks.flatMap (groups (printedOf lib (some g))))).map
      (mergedRow lib (some g) specs ∘ fun k => (ks.flatMap (groups (printedOf lib (some g)))).filter
        fun part => headPrinted lib (some g) part = k) =
      (firstKeys (headPrinted lib (some g)) (ks.flatMap (groups (printedOf lib (some g))))).map
        fun k => mergedRow lib (some g) specs (partsOf lib (some g) ks k) :=
    List.map_congr_left fun k _ => congrArg (mergedRow lib (some g) specs) (hfilter k)
  rw [hrow]
  refine (firstKeys_perm fun k => ?_).map _
  constructor
  · rintro ⟨part, hpart, hk⟩
    obtain ⟨ks', hks', hpart'⟩ := List.mem_flatMap.mp hpart
    obtain ⟨ctx, hctx, rfl⟩ := mem_groups.mp hpart'
    rw [headPrinted_eq (hne _ hpart), head_group hctx, Option.some.injEq] at hk
    exact ⟨ctx, hperm.subset (List.mem_flatten_of_mem hks' hctx), hk⟩
  · rintro ⟨ctx, hctx, rfl⟩
    obtain ⟨ks', hks', hctx⟩ := List.mem_flatten.mp (hperm.symm.subset hctx)
    have hgroup : (ks'.filter fun b => printedOf lib (some g) b = printedOf lib (some g) ctx) ∈
        groups (printedOf lib (some g)) ks' := mem_groups.mpr ⟨ctx, hctx, rfl⟩
    have hpart := List.mem_flatMap.mpr ⟨ks', hks', hgroup⟩
    exact ⟨_, hpart, (headPrinted_eq (hne _ hpart) _).mpr (head_group hctx)⟩

end Merge

end Ydbgo.Sql
