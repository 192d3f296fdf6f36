import Ydbgo.Sql.ShardAggregates

/-! # Shards and the union of their rows

Merging the answers of the shards gives the rows of the same query over all
rows, for every way to spread them, exactly under two conditions: group values
that print alike are the same, and in every group MIN and MAX have one best
value.
-/

namespace Ydbgo.Sql

/-- The evaluations fail both, or give the same rows in some order. -/
def SameRows (x y : Eval (List Row)) : Prop :=
  (∀ a, Gives x a → ∃ b, Gives y b ∧ a.Perm b) ∧ ∀ b, Gives y b → ∃ a, Gives x a ∧ a.Perm b

/-- The column of GROUP BY. -/
def groupOf (s : SelectStmt) : Option Bytes :=
  match s.groupBy with
  | [.ident g] => some g
  | _ => none

/-- A supported aggregate query without averages, over typed rows, whose sums are over columns of
whole numbers and stay exact in every group. -/
structure AggregateQuery (lib : Stdlib) (schema : TableSchema) (s : SelectStmt)
    (rows : List RowContext) : Prop where
  named : ∀ col ∈ schema.columns, col.name ≠ [] ∧ col.name ≠ ascii "*"
  typed : ∀ ctx ∈ rows, TypedRow schema ctx
  planned : (mergeShards lib schema s []).isSome
  aggregate : s.items.any fun it => isAggregate lib it.expr
  noAverage : ∀ it ∈ s.items, NoAverage lib it.expr
  sums : ∀ it ∈ s.items, ∀ fn c, it.expr = .call fn [.ident c] →
    Agg.ofName (lib.toLower fn) = .sum →
    (∀ col ∈ schema.columns, col.name = c → col.type = .int) ∧
      ∀ part ∈ groupsOf lib (groupOf s) (rows.filter (keeps lib s.where_)),
        ExactSum (colValues c part)

/-- Merging is right for every way to spread the rows over shards, and every order of their
answers. -/
def MergesRight (lib : Stdlib) (schema : TableSchema) (s : SelectStmt) (rows : List RowContext) :
    Prop :=
  ∀ shards : List (List RowContext), shards.flatten.Perm rows →
    ∃ merged, mergeShards lib schema s shards = some merged ∧
      SameRows merged (selectAggregate lib s rows)

/-- Group values that print alike are of one type, and the same if they are selected, and MIN and
MAX have one best value in each group. -/
structure Mergeable (lib : Stdlib) (s : SelectStmt) (rows : List RowContext) : Prop where
  printed : PrintedApart lib (groupOf s) rows
  shown : ∀ g, groupOf s = some g → (∃ it ∈ s.items, it.expr = .ident g) → ∀ a ∈ rows, ∀ b ∈ rows,
    printedOf lib (some g) a = printedOf lib (some g) b → valueAt g a = valueAt g b
  settled : ∀ it ∈ s.items, ∀ fn c, it.expr = .call fn [.ident c] →
    ∀ part ∈ groupsOf lib (groupOf s) rows, Settled lib (Agg.ofName (lib.toLower fn), c) part

section Union

variable {lib : Stdlib} {schema : TableSchema} {group : Option Bytes} {s : SelectStmt}
  {specs : List (Option (Agg × Bytes))} {rows : List RowContext}
  {shards : List (List RowContext)} {a : Agg × Bytes}

theorem sameRows_pure {a b : List Row} : SameRows (pure a) (pure b) ↔ a.Perm b := by
  simp [SameRows]

theorem gives_of_mapM {α β : Type} {f : α → Eval β} {as : List α} {bs : List β}
    (h : Gives (as.mapM f) bs) : ∀ a ∈ as, ∃ b, Gives (f a) b := by
  induction as generalizing bs with
  | nil => simp
  | cons a as ih =>
    rw [List.mapM_cons] at h
    obtain ⟨b, hb, h⟩ := gives_bind.mp h
    obtain ⟨bs', hbs, -⟩ := gives_bind.mp h
    exact List.forall_mem_cons.mpr ⟨⟨b, hb⟩, ih hbs⟩

/-- Where WHERE fails on a row, the shards fail and so does the query over all rows. -/
theorem sameRows_of_fails {stmt : SelectStmt} {f : List (List Row) → List Row}
    (hperm : shards.flatten.Perm rows) (hwhere : stmt.where_ = s.where_)
    (hno : ¬ ∀ ctx ∈ rows, Decides lib s.where_ ctx) :
    SameRows (do let partials ← shards.mapM (selectAggregate lib stmt); return f partials)
      (selectAggregate lib s rows) := by
  constructor
  · intro out hout
    obtain ⟨partials, hpartials, -⟩ := gives_bind.mp hout
    refine absurd (fun ctx hctx => ?_) hno
    obtain ⟨sh, hsh, hctx⟩ := List.mem_flatten.mp (hperm.symm.subset hctx)
    obtain ⟨answer, hanswer⟩ := gives_of_mapM hpartials sh hsh
    exact hwhere ▸ decides_of_gives_select hanswer ctx hctx
  · exact fun out hout => absurd (decides_of_gives_select hout) hno

/-! ### One group -/

theorem Settled.of_perm {rows' : List RowContext} (h : Settled lib a rows) (hp : rows.Perm rows') :
    Settled lib a rows' := by
  intro o ho m m' hm hm'
  have hun : ∀ m, Unbeaten (isBetter lib o) (colValues a.2 rows') m →
      Unbeaten (isBetter lib o) (colValues a.2 rows) m := by
    rintro m ⟨hmem, hno⟩
    have hiff := fun v => (colValues_perm hp a.2).mem_iff (a := v)
    exact ⟨(hiff m).mpr hmem, fun u hu => hno u ((hiff u).mp hu)⟩
  exact h o ho m m' (hun m hm) (hun m' hm')

theorem settled_nil : Settled lib a [] := fun _ _ _ _ hm => (by cases hm.1)

/-- The parts of a group give what the group gives. -/
theorem mergedValue_of_perm {parts : List (List RowContext)} (hlib : ExactLibrary lib)
    (h : FitsRows lib a rows) (hone : Settled lib a rows) (hp : parts.flatten.Perm rows) :
    mergedValue lib a parts = aggValue lib a rows := by
  have hfit := h.of_subperm hp.subperm
  rw [mergedValue_of_fits hlib hfit (hone.of_perm hp.symm)]
  by_cases hne : a.2 = []
  · refine aggValue_perm (t := .int) hp (fun hs => ?_) (hone.of_perm hp.symm)
    rw [hfit.star hne] at hs
    cases hs
  · obtain ⟨-, t, hcol, -⟩ := hfit.column hne
    exact aggValue_perm hp (fun _ => hcol) (hone.of_perm hp.symm)

/-- The merged row of a group whose parts hold its rows, where every group value is the same. -/
theorem mergedRow_eq {parts : List (List RowContext)} (hlib : ExactLibrary lib)
    (hfit : ∀ a, some a ∈ specs → FitsRows lib a rows)
    (hone : ∀ a, some a ∈ specs → Settled lib a rows) (hp : parts.flatten.Perm rows)
    (hshown : none ∈ specs → ∀ part ∈ parts.head?,
      specValue lib group part none = specValue lib group rows none)
    (hnil : none ∈ specs → parts ≠ []) :
    mergedRow lib group specs parts = specs.map (specValue lib group rows) := by
  refine List.map_congr_left fun spec hspec => ?_
  cases spec with
  | some a => exact mergedValue_of_perm hlib (hfit a hspec) (hone a hspec) hp
  | none =>
    obtain ⟨part, parts, rfl⟩ := List.exists_cons_of_ne_nil (hnil hspec)
    exact hshown hspec part rfl

/-- If it does not matter which row of a group is answered first, MIN and MAX have one best value,
and the group has one value if that is shown. -/
theorem settled_of_mergedRow (group : Option Bytes) (ps : RowContext → List (List RowContext))
    (hps : ∀ u ∈ rows, ([u] :: ps u).flatten.Perm rows)
    (hfit : ∀ a, some a ∈ specs → FitsRows lib a rows)
    (heq : ∀ u ∈ rows, ∀ v ∈ rows,
      mergedRow lib group specs ([u] :: ps u) = mergedRow lib group specs ([v] :: ps v)) :
    (∀ a, some a ∈ specs → Settled lib a rows) ∧ (none ∈ specs → ∀ u ∈ rows, ∀ v ∈ rows,
      valueAt (group.getD []) u = valueAt (group.getD []) v) := by
  constructor
  · rintro a ha o ho m m' hm hm'
    have hne : a.2 ≠ [] := by
      intro hne
      rw [(hfit a ha).star hne] at ho
      cases ho
    obtain ⟨-, t, hcol, -⟩ := (hfit a ha).column hne
    have hfirst : ∀ m, Unbeaten (isBetter lib o) (colValues a.2 rows) m →
        ∃ u ∈ rows, mergedValue lib a ([u] :: ps u) = m := by
      rintro m ⟨hmem, hno⟩
      obtain ⟨hval, hnull⟩ := List.mem_filter.mp hmem
      obtain ⟨u, hu, rfl⟩ := List.mem_map.mp hval
      have hperm := hps u hu
      have hiff := fun v => (colValues_perm hperm a.2).mem_iff (a := v)
      refine ⟨u, hu, mergedValue_first ho (hcol.of_subset fun ctx hctx => hperm.subset hctx)
        (by simpa using hnull) ⟨(hiff _).mpr hmem, fun w hw => hno w ((hiff w).mp hw)⟩⟩
    obtain ⟨u, hu, rfl⟩ := hfirst m hm
    obtain ⟨v, hv, rfl⟩ := hfirst m' hm'
    exact (List.map_inj_left.mp (heq u hu v hv)) (some a) ha
  · rintro hnone u hu v hv
    exact (List.map_inj_left.mp (heq u hu v hv)) none hnone

/-! ### The items of a query -/

theorem exists_item {items : List SelectItem} {spec : Option (Agg × Bytes)}
    (hd : List.Forall₂ (fun it : SelectItem => Describes lib schema group it.expr) items specs)
    (h : spec ∈ specs) : ∃ it ∈ items, Describes lib schema group it.expr spec := by
  induction hd with
  | nil => cases h
  | @cons it spec' items specs hit _ ih =>
    rcases List.mem_cons.mp h with rfl | h
    · exact ⟨it, List.mem_cons_self, hit⟩
    · obtain ⟨it', hit', hdesc⟩ := ih h
      exact ⟨it', List.mem_cons_of_mem _ hit', hdesc⟩

theorem exists_spec {items : List SelectItem} {it : SelectItem}
    (hd : List.Forall₂ (fun it : SelectItem => Describes lib schema group it.expr) items specs)
    (h : it ∈ items) : ∃ spec ∈ specs, Describes lib schema group it.expr spec := by
  induction hd with
  | nil => cases h
  | @cons it' spec items specs hit _ ih =>
    rcases List.mem_cons.mp h with rfl | h
    · exact ⟨spec, List.mem_cons_self, hit⟩
    · obtain ⟨spec', hspec', hdesc⟩ := ih h
      exact ⟨spec', List.mem_cons_of_mem _ hspec', hdesc⟩

theorem settled_specs_iff {part : List RowContext}
    (hd : List.Forall₂ (fun it : SelectItem => Describes lib schema group it.expr) s.items specs) :
    (∀ a, some a ∈ specs → Settled lib a part) ↔
      ∀ it ∈ s.items, ∀ fn c, it.expr = .call fn [.ident c] →
        Settled lib (Agg.ofName (lib.toLower fn), c) part := by
  constructor
  · rintro h it hit fn c he
    obtain ⟨spec, hspec, hdesc⟩ := exists_spec hd hit
    rw [he] at hdesc
    cases hdesc with
    | star hfn =>
      rintro o ho
      rw [hfn] at ho
      cases ho
    | column hfn _ _ => exact hfn ▸ h _ hspec
  · rintro h a ha
    obtain ⟨it, hit, hdesc⟩ := exists_item hd ha
    generalize he : it.expr = e at hdesc
    cases hdesc with
    | star _ => exact nofun
    | column hfn _ _ => exact hfn ▸ h it hit _ _ he

theorem none_mem_specs_iff
    (hd : List.Forall₂ (fun it : SelectItem => Describes lib schema group it.expr) s.items specs) :
    none ∈ specs ↔ ∃ g, group = some g ∧ ∃ it ∈ s.items, it.expr = .ident g := by
  constructor
  · intro h
    obtain ⟨it, hit, hdesc⟩ := exists_item hd h
    generalize he : it.expr = e at hdesc
    cases hdesc with
    | group hg => exact ⟨_, hg, it, hit, he⟩
  · rintro ⟨g, hg, it, hit, he⟩
    obtain ⟨spec, hspec, hdesc⟩ := exists_spec hd hit
    rw [he] at hdesc
    cases hdesc with
    | group _ => exact hspec

theorem hasColumn_of_typed (h : ∀ ctx ∈ rows, TypedRow schema ctx) {col : ColumnDef}
    (hcol : col ∈ schema.columns) : HasColumn col.name col.type rows := by
  intro ctx hctx
  obtain ⟨v, hv, hcase⟩ := h ctx hctx col hcol
  have hval : valueAt col.name ctx = v := by
    rw [valueAt, hv]
    rfl
  exact ⟨by rw [hval, hv], by rwa [hval]⟩

theorem AggregateQuery.fits (hq : AggregateQuery lib schema s rows)
    (hd : List.Forall₂ (fun it : SelectItem => Describes lib schema group it.expr) s.items specs)
    {part : List RowContext}
    (hpart : part ∈ groupsOf lib (groupOf s) (rows.filter (keeps lib s.where_)) ∨ part = []) :
    ∀ a, some a ∈ specs → FitsRows lib a part := by
  intro a ha
  have hsub : ∀ ctx ∈ part, ctx ∈ rows := by
    rcases hpart with hpart | rfl
    · obtain ⟨_, -, rfl⟩ := mem_groups.mp hpart
      exact fun ctx hctx => (List.mem_filter.mp (List.mem_filter.mp hctx).1).1
    · nofun
  obtain ⟨it, hit, hdesc⟩ := exists_item hd ha
  generalize he : it.expr = e at hdesc
  cases hdesc with
  | star _ => exact ⟨Or.inl rfl, fun _ => rfl, fun h => absurd rfl h⟩
  | @column fn col kind hfn hkind hcol =>
    have hnames := hq.named col hcol
    refine ⟨hkind, fun h => absurd h hnames.1, fun _ => ⟨hnames.2, col.type,
      hasColumn_of_typed (fun ctx hctx => hq.typed ctx (hsub ctx hctx)) hcol, ?_⟩⟩
    rintro rfl
    obtain ⟨hint, hexact⟩ := hq.sums it hit fn col.name he hfn
    refine ⟨hint col hcol rfl, ?_⟩
    rcases hpart with hpart | rfl
    · exact hexact part hpart
    · exact Nat.zero_le _

/-! ### Without GROUP BY -/

theorem kept_split {u : RowContext} (hu : u ∈ rows.filter (keeps lib s.where_)) :
    ∃ rest, (u :: rest).Perm rows ∧
      [u].filter (keeps lib s.where_) = [u] ∧
      (u :: rest.filter (keeps lib s.where_)).Perm (rows.filter (keeps lib s.where_)) ∧
      ∀ p : RowContext → Bool, p u = false →
        (rest.filter (keeps lib s.where_)).filter p = (rows.filter (keeps lib s.where_)).filter p := by
  obtain ⟨hmem, hkeep⟩ := List.mem_filter.mp hu
  obtain ⟨l, r, rfl⟩ := List.append_of_mem hmem
  refine ⟨l ++ r, List.perm_middle.symm, by simp [hkeep], ?_, fun p hp => ?_⟩
  · have hperm : (u :: (l ++ r)).Perm (l ++ u :: r) := List.perm_middle.symm
    have hkeep' := hperm.filter (keeps lib s.where_)
    rwa [List.filter_cons_of_pos hkeep] at hkeep'
  · simp [List.filter_append, hkeep, hp]

theorem mergesRight_plain (hlib : ExactLibrary lib) (hq : AggregateQuery lib schema s rows)
    {p : AggregatePlan} (hplan : planAggregate lib schema s = some p)
    (hdec : ∀ ctx ∈ rows, Decides lib s.where_ ctx) :
    MergesRight lib schema s rows ↔ Mergeable lib s (rows.filter (keeps lib s.where_)) := by
  obtain ⟨hgroup, hlimit, hdistinct, specs, hd, hp⟩ := planAggregate_some hq.noAverage hplan
  have hnone : groupOf s = none := by
    rw [groupOf, hgroup]
  have hparts : ∀ part, part = rows.filter (keeps lib s.where_) →
      part ∈ groupsOf lib (groupOf s) (rows.filter (keeps lib s.where_)) ∨ part = [] := by
    rintro part rfl
    by_cases hnil : rows.filter (keeps lib s.where_) = []
    · exact Or.inr hnil
    · rw [hnone, groupsOf_none hnil]
      exact Or.inl List.mem_cons_self
  have hfit := hq.fits hd (hparts _ rfl)
  have hnospec : none ∉ specs := by
    rw [none_mem_specs_iff hd]
    rintro ⟨g, hg, -⟩
    cases hg
  have hsome : ∀ spec ∈ specs, spec.isSome := by
    intro spec hspec
    cases spec with
    | some a => rfl
    | none => exact absurd hspec hnospec
  have hne : ∀ col ∈ schema.columns, col.name ≠ [] := fun col hcol => (hq.named col hcol).1
  have hsingle : selectAggregate lib s rows =
      pure [specs.map (specValue lib none (rows.filter (keeps lib s.where_)))] :=
    selectAggregate_eq none (fun part => specs.map (specValue lib none part)) hgroup hlimit
      hdistinct hdec nofun
      (fun g hg => aggregateRow_eq hlib hd hne (hq.fits hd (Or.inl (hnone ▸ hg))))
      (fun _ _ => aggregateRow_eq hlib hd hne (hq.fits hd (Or.inr rfl)))
  have hiff : ∀ shards : List (List RowContext), shards.flatten.Perm rows →
      ((∃ merged, mergeShards lib schema s shards = some merged ∧
        SameRows merged (selectAggregate lib s rows)) ↔
      mergedRow lib none specs (shards.map fun sh => sh.filter (keeps lib s.where_)) =
        specs.map (specValue lib none (rows.filter (keeps lib s.where_)))) := by
    intro shards hperm
    simp only [mergeShards, hplan, Option.some.injEq, exists_eq_left']
    rw [merge_plain hlib hp hsome hdec hperm hfit, hsingle, sameRows_pure,
      List.singleton_perm_singleton]
  constructor
  · intro h
    have hkept : ∀ u ∈ rows.filter (keeps lib s.where_), _ := fun u hu => kept_split hu
    choose! rest hrest hself hkeep _ using hkept
    have hrow : ∀ u ∈ rows.filter (keeps lib s.where_), mergedRow lib none specs
        ([u] :: [(rest u).filter (keeps lib s.where_)]) =
          specs.map (specValue lib none (rows.filter (keeps lib s.where_))) := by
      intro u hu
      have hperm : ([[u], rest u]).flatten.Perm rows := by simpa using hrest u hu
      have heq := (hiff _ hperm).mp (h _ hperm)
      rwa [List.map_cons, List.map_singleton, hself u hu] at heq
    have hsettled := (settled_of_mergedRow none (fun u => [(rest u).filter (keeps lib s.where_)])
      (fun u hu => by simpa using hkeep u hu) hfit
      fun u hu v hv => (hrow u hu).trans (hrow v hv).symm).1
    refine ⟨fun _ _ _ _ _ => by rw [hnone]; rfl, fun g hg => (by rw [hnone] at hg; cases hg), ?_⟩
    intro it hit fn c he part hpart
    have hone : part = rows.filter (keeps lib s.where_) := by
      obtain ⟨ctx, hctx, -⟩ := mem_groups.mp hpart
      rw [hnone, groupsOf_none (List.ne_nil_of_mem hctx)] at hpart
      exact List.mem_singleton.mp hpart
    rw [hone]
    exact (settled_specs_iff hd).mp hsettled it hit fn c he
  · intro h shards hperm
    refine (hiff shards hperm).mpr ?_
    refine mergedRow_eq hlib hfit ?_ (keeps_of_perm lib hperm s.where_)
      (fun hno => absurd hno hnospec) fun hno => absurd hno hnospec
    refine (settled_specs_iff hd).mpr fun it hit fn c he => ?_
    rcases hparts _ rfl with hmem | hnil
    · exact h.settled it hit fn c he _ hmem
    · rw [hnil]
      exact settled_nil

/-! ### With GROUP BY -/

theorem headPrinted_group {g : Bytes} {ctx : RowContext} (hctx : ctx ∈ rows) :
    headPrinted lib (some g) (rows.filter fun b => keyOf lib (some g) b = keyOf lib (some g) ctx) =
      printedOf lib (some g) ctx := by
  have hmem : ctx ∈ rows.filter fun b => keyOf lib (some g) b = keyOf lib (some g) ctx := by
    simp [hctx]
  rw [headPrinted_eq (List.ne_nil_of_mem hmem)]
  cases hpart : rows.filter fun b => keyOf lib (some g) b = keyOf lib (some g) ctx with
  | nil =>
    rw [hpart] at hmem
    cases hmem
  | cons b part =>
    have hb : b ∈ rows.filter fun b => keyOf lib (some g) b = keyOf lib (some g) ctx :=
      hpart ▸ List.mem_cons_self
    rw [List.head?_cons, Option.map_some]
    exact congrArg some (keyPart_inj (of_decide_eq_true (List.mem_filter.mp hb).2)).2

theorem specValue_none_eq {g : Bytes} {part : List RowContext} {v : Value} (hne : part ≠ [])
    (h : ∀ ctx ∈ part, valueAt g ctx = v) : specValue lib (some g) part none = v := by
  obtain ⟨ctx, part, rfl⟩ := List.exists_cons_of_ne_nil hne
  exact h ctx List.mem_cons_self

/-- As many rows come out of one shard as there are groups only if the groups print apart. -/
theorem printedApart_of_length {g : Bytes}
    (h : (firstKeys (headPrinted lib (some g)) (groupsOf lib (some g) rows)).length =
      (groupsOf lib (some g) rows).length) : PrintedApart lib (some g) rows := by
  intro a ha b hb hab
  by_contra hne
  refine absurd h (Nat.ne_of_lt (length_firstKeys_lt fun hn => hne ?_))
  rw [groupsOf, groups, List.map_map] at hn
  refine List.inj_on_of_nodup_map hn (mem_firstKeys.mpr ⟨a, ha, rfl⟩)
    (mem_firstKeys.mpr ⟨b, hb, rfl⟩) ?_
  rw [Function.comp_apply, Function.comp_apply, headPrinted_group ha, headPrinted_group hb, hab]

theorem mergesRight_grouped (hlib : ExactLibrary lib) (hq : AggregateQuery lib schema s rows)
    {g : GroupedPlan} (hplain : planAggregate lib schema s = none)
    (hplan : planGrouped lib schema s = some g) (hdec : ∀ ctx ∈ rows, Decides lib s.where_ ctx) :
    MergesRight lib schema s rows ↔ Mergeable lib s (rows.filter (keeps lib s.where_)) := by
  obtain ⟨hgroup, hlimit, hdistinct, ⟨col, hcol, hname⟩, specs, hd, hp⟩ :=
    planGrouped_some hq.noAverage hplan
  have hsome : groupOf s = some g.groupCol := by
    rw [groupOf, hgroup]
  have hfit : ∀ part ∈ groupsOf lib (some g.groupCol) (rows.filter (keeps lib s.where_)),
      ∀ a, some a ∈ specs → FitsRows lib a part :=
    fun part hpart => hq.fits hd (Or.inl (hsome ▸ hpart))
  have hne : ∀ col ∈ schema.columns, col.name ≠ [] := fun col hcol => (hq.named col hcol).1
  have hgroupcol : HasGroup (some g.groupCol) (rows.filter (keeps lib s.where_)) := by
    rintro c ⟨⟩
    refine ⟨hname ▸ (hq.named col hcol).2, col.type, ?_⟩
    exact (hname ▸ hasColumn_of_typed hq.typed hcol : HasColumn g.groupCol col.type rows).of_subset
      fun ctx hctx => (List.mem_filter.mp hctx).1
  have hsingle : selectAggregate lib s rows =
      pure ((groupsOf lib (some g.groupCol) (rows.filter (keeps lib s.where_))).map
        fun part => specs.map (specValue lib (some g.groupCol) part)) :=
    selectAggregate_eq (some g.groupCol) (fun part => specs.map (specValue lib (some g.groupCol) part))
      hgroup hlimit hdistinct hdec hgroupcol
      (fun part hpart => aggregateRow_eq hlib hd hne (hfit part hpart)) nofun
  have hiff : ∀ shards : List (List RowContext), shards.flatten.Perm rows →
      ((∃ merged, mergeShards lib schema s shards = some merged ∧
        SameRows merged (selectAggregate lib s rows)) ↔
      (mergedGroups lib (some g.groupCol) specs
        ((shards.map fun sh => sh.filter (keeps lib s.where_)).flatMap
          (groupsOf lib (some g.groupCol)))).Perm
        ((groupsOf lib (some g.groupCol) (rows.filter (keeps lib s.where_))).map
          fun part => specs.map (specValue lib (some g.groupCol) part))) := by
    intro shards hperm
    simp only [mergeShards, hplain, hplan, Option.map_some, Option.some.injEq, exists_eq_left']
    rw [merge_grouped hlib hp hdec hperm hgroupcol hfit, hsingle, sameRows_pure]
  have hpart : PrintedApart lib (some g.groupCol) (rows.filter (keeps lib s.where_)) →
      ∀ ctx ∈ rows.filter (keeps lib s.where_), (rows.filter (keeps lib s.where_)).filter
        (fun b => printedOf lib (some g.groupCol) b = printedOf lib (some g.groupCol) ctx) ∈
          groupsOf lib (some g.groupCol) (rows.filter (keeps lib s.where_)) := by
    intro happ ctx hctx
    rw [groupsOf_eq happ]
    exact mem_groups.mpr ⟨ctx, hctx, rfl⟩
  generalize hkept : rows.filter (keeps lib s.where_) = kept at *
  constructor
  · intro h
    have happ : PrintedApart lib (some g.groupCol) kept := by
      have hone : [rows].flatten.Perm rows := by simp
      have hlen := ((hiff _ hone).mp (h _ hone)).length_eq
      rw [List.map_singleton, hkept, List.flatMap_singleton, mergedGroups, groups, List.length_map,
        List.length_map, List.length_map] at hlen
      exact printedApart_of_length hlen
    have hsplit : ∀ u ∈ kept, _ := fun u hu => kept_split (hkept ▸ hu)
    choose! rest hrest hself hkeep hother using hsplit
    rw [hkept] at hkeep hother
    -- the merged rows when the row `u` is answered first
    have hrow : ∀ u ∈ kept, ((firstKeys (printedOf lib (some g.groupCol)) kept).map fun k =>
        mergedRow lib (some g.groupCol) specs
          (partsOf lib (some g.groupCol) [[u], (rest u).filter (keeps lib s.where_)] k)).Perm
        ((groupsOf lib (some g.groupCol) kept).map
          fun part => specs.map (specValue lib (some g.groupCol) part)) := by
      intro u hu
      have hperm : ([[u], rest u]).flatten.Perm rows := by simpa using hrest u hu
      have hmerged := (hiff _ hperm).mp (h _ hperm)
      rw [List.map_cons, List.map_singleton, hself u hu] at hmerged
      exact (mergedGroups_perm _ happ (by simpa using hkeep u hu)).symm.trans hmerged
    have hgroup : ∀ ctx ∈ kept, (∀ a, some a ∈ specs → Settled lib a (kept.filter fun b =>
          printedOf lib (some g.groupCol) b = printedOf lib (some g.groupCol) ctx)) ∧
        (none ∈ specs → ∀ u ∈ kept.filter (fun b => printedOf lib (some g.groupCol) b =
            printedOf lib (some g.groupCol) ctx),
          ∀ v ∈ kept.filter (fun b => printedOf lib (some g.groupCol) b =
            printedOf lib (some g.groupCol) ctx),
          valueAt g.groupCol u = valueAt g.groupCol v) := by
      intro ctx hctx
      generalize hk : printedOf lib (some g.groupCol) ctx = k at *
      have hkey : k ∈ firstKeys (printedOf lib (some g.groupCol)) kept :=
        mem_firstKeys.mpr ⟨ctx, hctx, hk⟩
      refine settled_of_mergedRow (some g.groupCol) (fun u => [((rest u).filter (keeps lib s.where_)).filter fun b =>
        printedOf lib (some g.groupCol) b = k].filter fun part => !part.isEmpty) ?_
        (hfit _ (hk ▸ hpart happ ctx hctx)) ?_
      · intro u hu
        obtain ⟨hu, hku⟩ := List.mem_filter.mp hu
        have hperm := (hkeep u hu).filter fun b => printedOf lib (some g.groupCol) b = k
        rw [List.filter_cons_of_pos (p := fun b => decide (printedOf lib (some g.groupCol) b = k))
          hku] at hperm
        rw [List.flatten_cons, List.flatten_filter_not_isEmpty]
        simpa using hperm
      · have hparts : ∀ u ∈ kept.filter (fun b => printedOf lib (some g.groupCol) b = k),
            partsOf lib (some g.groupCol) [[u], (rest u).filter (keeps lib s.where_)] k =
              [u] :: ([((rest u).filter (keeps lib s.where_)).filter fun b =>
                printedOf lib (some g.groupCol) b = k].filter fun part => !part.isEmpty) := by
          intro u hu
          have hku := (List.mem_filter.mp hu).2
          rw [partsOf, List.map_cons, List.map_singleton, List.filter_cons_of_pos
            (p := fun b => decide (printedOf lib (some g.groupCol) b = k)) hku]
          rfl
        have hapart : ∀ u ∈ kept.filter (fun b => printedOf lib (some g.groupCol) b = k),
            ∀ k', k' ≠ k →
              partsOf lib (some g.groupCol) [[u], (rest u).filter (keeps lib s.where_)] k' =
                [kept.filter fun b => printedOf lib (some g.groupCol) b = k'].filter
                  fun part => !part.isEmpty := by
          intro u hu k' hk'
          obtain ⟨hu, hku⟩ := List.mem_filter.mp hu
          have hno : decide (printedOf lib (some g.groupCol) u = k') = false := by
            rw [of_decide_eq_true hku]
            exact decide_eq_false (Ne.symm hk')
          rw [partsOf, List.map_cons, List.map_singleton, hother u hu _ hno,
            List.filter_cons_of_neg (by simp [hno])]
        intro u hu v hv
        rw [← hparts u hu, ← hparts v hv]
        refine eq_of_map_perm nodup_firstKeys hkey (fun k' _ hk' => ?_)
          ((hrow u (List.mem_filter.mp hu).1).trans (hrow v (List.mem_filter.mp hv).1).symm)
        rw [hapart u hu k' hk', hapart v hv k' hk']
    refine ⟨hsome ▸ happ, ?_, ?_⟩
    · intro c hc hitem a ha b hb hab
      obtain rfl := Option.some.inj (hc.symm.trans hsome)
      exact (hgroup a ha).2 ((none_mem_specs_iff hd).mpr ⟨_, rfl, hitem⟩) a (by simp [ha]) b
        (by simp [hb, hab])
    · intro it hit fn c he part hpart'
      rw [hsome, groupsOf_eq happ] at hpart'
      obtain ⟨ctx, hctx, rfl⟩ := mem_groups.mp hpart'
      exact (settled_specs_iff hd).mp (hgroup ctx hctx).1 it hit fn c he
  · intro h shards hperm
    refine (hiff shards hperm).mpr ?_
    have happ : PrintedApart lib (some g.groupCol) kept := hsome ▸ h.printed
    have hkeeps : ((shards.map fun sh => sh.filter (keeps lib s.where_)).flatten).Perm kept :=
      hkept ▸ keeps_of_perm lib hperm s.where_
    refine (mergedGroups_perm _ happ hkeeps).trans (List.Perm.of_eq ?_)
    rw [groupsOf_eq happ, groups, List.map_map]
    refine List.map_congr_left fun k hk => ?_
    obtain ⟨ctx, hctx, rfl⟩ := mem_firstKeys.mp hk
    have hmem := hpart happ ctx hctx
    have hflat : (partsOf lib (some g.groupCol) (shards.map fun sh => sh.filter (keeps lib s.where_))
        (printedOf lib (some g.groupCol) ctx)).flatten = _ := flatten_partsOf _ _
    have hgroupperm := hflat ▸ hkeeps.filter fun b =>
      printedOf lib (some g.groupCol) b = printedOf lib (some g.groupCol) ctx
    refine mergedRow_eq hlib (hfit _ hmem) ((settled_specs_iff hd).mpr fun it hit fn c he =>
      h.settled it hit fn c he _ (hsome ▸ hmem)) hgroupperm ?_ ?_
    · intro hnone part hhead
      obtain ⟨_, ⟨⟩, hitem⟩ := (none_mem_specs_iff hd).mp hnone
      have hvalue : ∀ b ∈ kept.filter (fun b => printedOf lib (some g.groupCol) b =
          printedOf lib (some g.groupCol) ctx), valueAt g.groupCol b = valueAt g.groupCol ctx := by
        intro b hb
        obtain ⟨hb, hk⟩ := List.mem_filter.mp hb
        exact h.shown _ hsome hitem b hb ctx hctx (of_decide_eq_true hk)
      have hin := List.mem_of_mem_head? hhead
      have hpartne : part ≠ [] := by simpa using (List.mem_filter.mp hin).2
      rw [specValue_none_eq hpartne fun b hb =>
          hvalue b (hgroupperm.subset (List.mem_flatten_of_mem hin hb)),
        specValue_none_eq (List.ne_nil_of_mem (a := ctx) (by simp [hctx])) hvalue]
    · rintro - hnil
      rw [hnil] at hgroupperm
      have hnone := hgroupperm.nil_eq
      exact List.ne_nil_of_mem (a := ctx) (by simp [hctx]) hnone.symm

/-- Merging is right exactly if the groups of the rows that pass WHERE are mergeable, or WHERE fails
on a row. -/
theorem mergesRight_iff (hlib : ExactLibrary lib) (hq : AggregateQuery lib schema s rows) :
    MergesRight lib schema s rows ↔ ((∀ ctx ∈ rows, Decides lib s.where_ ctx) →
      Mergeable lib s (rows.filter (keeps lib s.where_))) := by
  by_cases hdec : ∀ ctx ∈ rows, Decides lib s.where_ ctx
  · rw [forall_prop_of_true hdec]
    cases hplain : planAggregate lib schema s with
    | some p => exact mergesRight_plain hlib hq hplain hdec
    | none =>
      have hplanned := hq.planned
      rw [mergeShards, hplain, Option.isSome_map] at hplanned
      obtain ⟨g, hg⟩ := Option.isSome_iff_exists.mp hplanned
      exact mergesRight_grouped hlib hq hplain hg hdec
  · rw [forall_prop_of_false hdec, iff_true]
    intro shards hperm
    have hplanned := hq.planned
    unfold mergeShards at hplanned ⊢
    cases hplain : planAggregate lib schema s with
    | some p =>
      exact ⟨_, rfl, sameRows_of_fails (f := fun partials => [p.merge lib partials.flatten])
        hperm rfl hdec⟩
    | none =>
      rw [hplain, Option.isSome_map] at hplanned
      obtain ⟨g, hg⟩ := Option.isSome_iff_exists.mp hplanned
      rw [hg]
      exact ⟨_, rfl, sameRows_of_fails (f := fun partials => g.merge lib partials.flatten)
        hperm rfl hdec⟩

end Union

/-! ### A library of whole floats -/

/-- The bits of a whole number up to 2^53. -/
def F64.ofInt (n : ℤ) : UInt64 :=
  let m := n.natAbs
  let e := m.log2
  if m = 0 then 0
  else .ofNat ((if n < 0 then 2 ^ 63 else 0) + (1023 + e) * 2 ^ 52 + (m * 2 ^ 52 / 2 ^ e - 2 ^ 52))

/-- The whole number of a float, as far as it is one. -/
def F64.toInt (x : UInt64) : ℤ :=
  if x = 0 then 0
  else
    let m : ℕ := (2 ^ 52 + x.toNat % 2 ^ 52) * 2 ^ (x.toNat / 2 ^ 52 % 2048 - 1023) / 2 ^ 52
    if 2 ^ 63 ≤ x.toNat then -m else m

/-- The mantissa of a whole number, with its leading bit. -/
theorem mantissa {m e : ℕ} (hlo : 2 ^ e ≤ m) (hhi : m < 2 ^ (e + 1)) (hm : m ≤ 2 ^ 53) :
    e ≤ 53 ∧ m * 2 ^ 52 / 2 ^ e * 2 ^ e = m * 2 ^ 52 ∧ 2 ^ 52 ≤ m * 2 ^ 52 / 2 ^ e ∧
      m * 2 ^ 52 / 2 ^ e < 2 ^ 53 := by
  have he : e ≤ 53 := (Nat.pow_le_pow_iff_right (by omega)).mp (hlo.trans hm)
  have hpos : 0 < 2 ^ e := Nat.two_pow_pos e
  have hdvd : 2 ^ e ∣ m * 2 ^ 52 := by
    rcases Nat.lt_or_ge e 53 with hlt | hge
    · exact (Nat.pow_dvd_pow 2 (by omega)).mul_left m
    · obtain rfl : e = 53 := by omega
      obtain rfl : m = 2 ^ 53 := by omega
      exact Nat.dvd_mul_right _ _
  have hexact := Nat.div_mul_cancel hdvd
  refine ⟨he, hexact, ?_, ?_⟩
  · rw [Nat.le_div_iff_mul_le hpos, Nat.mul_comm]
    exact Nat.mul_le_mul_right _ hlo
  · rw [Nat.div_lt_iff_lt_mul hpos]
    have hmul : (2 ^ 53 : ℕ) * 2 ^ e = 2 ^ (e + 1) * 2 ^ 52 := by ring
    rw [hmul]
    exact Nat.mul_lt_mul_of_pos_right hhi (Nat.two_pow_pos 52)

theorem F64.toInt_ofInt {n : ℤ} (h : n.natAbs ≤ 2 ^ 53) : F64.toInt (F64.ofInt n) = n := by
  by_cases hn : n = 0
  · subst hn
    rfl
  have hm : n.natAbs ≠ 0 := by omega
  obtain ⟨he, hexact, hle, hlt⟩ := mantissa (Nat.log2_self_le hm) Nat.lt_log2_self h
  have hof : F64.ofInt n = .ofNat ((if n < 0 then 2 ^ 63 else 0) + (1023 + n.natAbs.log2) * 2 ^ 52 +
      (n.natAbs * 2 ^ 52 / 2 ^ n.natAbs.log2 - 2 ^ 52)) := if_neg hm
  generalize n.natAbs * 2 ^ 52 / 2 ^ n.natAbs.log2 = q at hof hexact hle hlt
  generalize n.natAbs.log2 = e at hof he hexact
  generalize hbits : (if n < 0 then 2 ^ 63 else 0) + (1023 + e) * 2 ^ 52 + (q - 2 ^ 52) = bits at hof
  have hsmall : bits < 2 ^ 64 := by
    split at hbits <;> omega
  have hnat : (UInt64.ofNat bits).toNat = bits := UInt64.toNat_ofNat_of_lt' hsmall
  have hne : UInt64.ofNat bits ≠ 0 := by
    intro hz
    rw [← UInt64.toNat_inj, hnat] at hz
    change bits = 0 at hz
    split at hbits <;> omega
  have hfrac : 2 ^ 52 + bits % 2 ^ 52 = q := by
    split at hbits <;> omega
  have hexp : bits / 2 ^ 52 % 2048 - 1023 = e := by
    split at hbits <;> omega
  have hsign : 2 ^ 63 ≤ bits ↔ n < 0 := by
    split at hbits <;> omega
  rw [hof, F64.toInt, if_neg hne]
  dsimp only
  rw [hnat, hfrac, hexp, hexact, Nat.mul_div_cancel _ (Nat.two_pow_pos 52)]
  split
  · rename_i hs
    have := hsign.mp hs
    omega
  · rename_i hs
    have := mt hsign.mpr hs
    omega

/-- A library whose floats are whole numbers. -/
def Stdlib.whole : Stdlib :=
  { Stdlib.plain with
    ofInt64 := fun n => F64.ofInt n.toInt
    toInt64 := fun x => .ofInt (F64.toInt x)
    add := fun x y => F64.ofInt (F64.toInt x + F64.toInt y) }

theorem exactLibrary_whole : ExactLibrary .whole := by
  have hint : ∀ m : ℤ, m.natAbs ≤ 2 ^ 53 → (Int64.ofInt m).toInt = m :=
    fun m hm => Int64.toInt_ofInt_of_le (by omega) (by omega)
  constructor
  · intro kind
    cases kind <;> decide
  · rfl
  · intro m n hm hn hmn
    change F64.ofInt (F64.toInt (F64.ofInt (Int64.ofInt m).toInt) +
      F64.toInt (F64.ofInt (Int64.ofInt n).toInt)) = F64.ofInt (Int64.ofInt (m + n)).toInt
    rw [hint m hm, hint n hn, hint _ hmn, F64.toInt_ofInt hm, F64.toInt_ofInt hn]
  · intro m hm
    change Int64.ofInt (F64.toInt (F64.ofInt (Int64.ofInt m).toInt)) = _
    rw [hint m hm, F64.toInt_ofInt hm]

/-! ### A table over shards -/

def groupSchema : TableSchema where
  name := ascii "t"
  columns := [⟨ascii "k", .int, true, .nil, false⟩, ⟨ascii "g", .string, false, .nil, false⟩,
    ⟨ascii "v", .int, false, .nil, false⟩]
  pk := [ascii "k"]
  engine := ascii "CSTORE2"

/-- `SELECT g, count(*), sum(v), min(v) FROM t GROUP BY g`. -/
def groupQuery : SelectStmt where
  distinct := false
  items := [⟨.ident (ascii "g"), []⟩, ⟨.call (ascii "count") [.ident (ascii "*")], []⟩,
    ⟨.call (ascii "sum") [.ident (ascii "v")], []⟩, ⟨.call (ascii "min") [.ident (ascii "v")], []⟩]
  from_ := ascii "t"
  where_ := .nil
  groupBy := [.ident (ascii "g")]
  orderBy := []
  limit := 0
  hasLimit := false

def groupRow (k : Int64) (g v : Value) : RowContext :=
  rowContext groupSchema [intValue k, g, v]

instance (vs : List Value) : Decidable (ExactSum vs) := inferInstanceAs (Decidable (_ ≤ _))

instance (schema : TableSchema) (ctx : RowContext) : Decidable (TypedRow schema ctx) :=
  decidable_of_iff ((schema.columns.all fun col => (ctx col.name).any fun v =>
    v = nullValue ∨ v.null = false ∧ v.type = col.type) = true) (by
      simp only [List.all_eq_true, Option.any_eq_true, decide_eq_true_eq]
      rfl)

theorem aggregateQuery_groupQuery {rows : List RowContext}
    (htyped : ∀ ctx ∈ rows, TypedRow groupSchema ctx)
    (hexact : ∀ part ∈ groupsOf .whole (some (ascii "g")) (rows.filter (keeps .whole .nil)),
      ExactSum (colValues (ascii "v") part)) : AggregateQuery .whole groupSchema groupQuery rows := by
  refine ⟨by decide +kernel, htyped, by decide +kernel, by decide +kernel, ?_, ?_⟩
  · rintro it hit fn args he
    simp only [groupQuery, List.mem_cons, List.not_mem_nil, or_false] at hit
    obtain rfl | rfl | rfl | rfl := hit <;> cases he <;> decide
  · rintro it hit fn c he hsum
    simp only [groupQuery, List.mem_cons, List.not_mem_nil, or_false] at hit
    obtain rfl | rfl | rfl | rfl := hit <;> cases he
    · exact absurd hsum (by decide)
    · exact ⟨by decide +kernel, hexact⟩
    · exact absurd hsum (by decide)

theorem mergesRight_iff_groupRows :
    let rows := [groupRow 1 nullValue (intValue 5), groupRow 2 (strValue (ascii "a")) nullValue,
      groupRow 3 nullValue (intValue (-7))]
    MergesRight .whole groupSchema groupQuery rows ↔
      ((∀ ctx ∈ rows, Decides .whole groupQuery.where_ ctx) →
        Mergeable .whole groupQuery (rows.filter (keeps .whole groupQuery.where_))) :=
  mergesRight_iff exactLibrary_whole
    (aggregateQuery_groupQuery (by decide +kernel) (by decide +kernel))

/-- The number of rows that an evaluation gives. -/
def rowCount (x : Eval (List Row)) : Option ℕ :=
  match x.run with
  | some (.ok rows) => some rows.length
  | _ => none

/-- NULL and the text NULL are groups of their own, and one group after the merge. -/
theorem not_mergesRight :
    let rows := [groupRow 1 nullValue (intValue 5),
      groupRow 2 (strValue (ascii "NULL")) (intValue 6)]
    AggregateQuery .whole groupSchema groupQuery rows ∧
      ¬ MergesRight .whole groupSchema groupQuery rows := by
  intro rows
  refine ⟨aggregateQuery_groupQuery (by decide +kernel) (by decide +kernel), fun h => ?_⟩
  obtain ⟨merged, hmerged, hsame, -⟩ := h [rows] (List.Perm.of_eq List.flatten_singleton)
  have hone : (mergeShards .whole groupSchema groupQuery [rows]).map rowCount = some (some 1) := by
    decide +kernel
  have htwo : rowCount (selectAggregate .whole groupQuery rows) = some 2 := by
    decide +kernel
  rw [hmerged, Option.map_some, Option.some.injEq] at hone
  unfold rowCount at hone htwo
  split at hone
  · rename_i out hout
    obtain ⟨out', hout', hperm⟩ := hsame out hout
    rw [hout'] at htwo
    have hlen := hperm.length_eq
    simp only [Option.some.injEq] at hone htwo
    omega
  · cases hone

end Ydbgo.Sql
