import Ydbgo.Sql.SelectReference
import Ydbgo.Sql.ShardUnion

/-! # The row path of SELECT is right

Rows are put together by a printed key. The result is the reference exactly if
keys that print alike are the same, the code sees the aggregates of the query,
and GROUP BY without an aggregate has nothing to put together.
-/

namespace Ydbgo.Sql

section Select

variable {lib : Stdlib} {schema : Option TableSchema} {s : SelectStmt} {rows kept : List RowContext}

/-! ### Printed keys -/

theorem keyPart_content (v : Value) : keyPart lib v.content = keyPart lib v := by
  unfold keyPart Value.content Value.string
  cases v.type <;> rfl

theorem rowKeyString_contents (r : Row) : rowKeyString lib (contents r) = rowKeyString lib r := by
  have hparts : r.map (keyPart lib ∘ Value.content) = r.map (keyPart lib) :=
    List.map_congr_left fun v _ => keyPart_content v
  rw [rowKeyString, contents, List.map_map, hparts, rowKeyString]

theorem rowKeyString_eq : rowKeyString lib = rowKeyString lib ∘ contents :=
  funext fun r => (rowKeyString_contents r).symm

theorem valueOf_gives {x : Eval Value} {v : Value} (h : Gives x v) : valueOf x = v := by
  rw [valueOf, h]

theorem gives_valueOf {x : Eval Value} (h : ∃ v, Gives x v) : Gives x (valueOf x) := by
  obtain ⟨v, hv⟩ := h
  rw [valueOf_gives hv]
  exact hv

/-- The key of a row is the printed form of its GROUP BY values. -/
theorem groupKey_eq_tuple {ctx : RowContext}
    (h : ∀ e ∈ s.groupBy, ∃ v, Gives (eval lib ctx e) v) :
    groupKey lib s.groupBy ctx = pure (rowKeyString lib (groupTuple lib s ctx)) := by
  have hparts : (s.groupBy.mapM fun e =>
      tryCatch (do return keyPart lib (← eval lib ctx e)) fun _ => return ascii "<err>") =
      (pure (s.groupBy.map fun e => keyPart lib (valueOf (eval lib ctx e))) : Eval (List Bytes)) := by
    apply mapM_eq_pure
    rintro e he
    rw [pure_of_gives (gives_valueOf (h e he))]
    rfl
  simp only [groupKey, hparts, pure_bind, rowKeyString, groupTuple, List.map_map]
  congr 2
  exact List.map_congr_left fun e _ => (keyPart_content _).symm

/-- The groups of the loop are those of the printed keys. -/
theorem aggregateGroups_eq_groups
    (h : ∀ ctx ∈ kept, ∀ e ∈ s.groupBy, ∃ v, Gives (eval lib ctx e) v) :
    aggregateGroups lib s kept = (do
      let out ← (groups (rowKeyString lib ∘ groupTuple lib s) kept).mapM (aggregateRow lib s.items)
      if s.groupBy.isEmpty && out.isEmpty then return [← aggregateRow lib s.items []]
      else return out) := by
  have hkeyed : (kept.mapM fun ctx => do return (← groupKey lib s.groupBy ctx, ctx)) =
      (pure (kept.map fun ctx => (rowKeyString lib (groupTuple lib s ctx), ctx)) :
        Eval (List (Bytes × RowContext))) := by
    apply mapM_eq_pure
    rintro ctx hctx
    rw [groupKey_eq_tuple (h ctx hctx)]
    rfl
  rw [aggregateGroups, hkeyed, pure_bind, ← groupsBy_keyed]
  dsimp only
  rw [List.mapM_map]
  rfl

/-! ### Aggregates in the items -/

theorem aggregates_of_isAggregate {e : Expr} (h : isAggregate lib e) : Aggregates lib e := by
  induction e with
  | call name args => exact h
  | binary op left right ihl ihr =>
    simp only [isAggregate, Aggregates, Bool.or_eq_true] at h ⊢
    exact h.imp ihl ihr
  | cast e t ih => exact ih h
  | nil | ident | literal | unary => cases h

theorem any_aggregates (h : hasAggregate lib s) :
    s.items.any (fun it => Aggregates lib it.expr) = true := by
  obtain ⟨it, hit, ha⟩ := List.any_eq_true.mp h
  exact List.any_eq_true.mpr ⟨it, hit, aggregates_of_isAggregate ha⟩

/-- The evaluator knows no aggregates. -/
theorem fn_of_agg {n : Bytes} (h : Agg.ofName n ≠ .other) : Fn.ofName n = .unknown := by
  unfold Agg.ofName at h
  repeat' split at h
  all_goals first | contradiction | (next he => subst he; decide)

theorem not_gives_of_aggregates {ctx : RowContext} {e : Expr} (h : Aggregates lib e) (v : Value) :
    ¬ Gives (eval lib ctx e) v := by
  induction e generalizing v with
  | call name args =>
    have hfn := fn_of_agg (of_decide_eq_true h)
    rw [eval, evalCall, hfn]
    exact gives_fail
  | binary op left right ihl ihr =>
    simp only [Aggregates, Bool.or_eq_true] at h
    simp only [eval, gives_bind, gives_check]
    rintro ⟨l, hl, r, hr, -⟩
    exact h.elim (fun h => ihl h l hl) (fun h => ihr h r hr)
  | cast e t ih =>
    simp only [eval, gives_bind, gives_check]
    rintro ⟨w, hw, -⟩
    exact ih h w hw
  | unary op e ih =>
    simp only [eval, gives_bind, gives_check]
    rintro ⟨w, hw, -⟩
    exact ih h w hw
  | nil | ident | literal => cases h

/-- Over no rows a value comes of expressions that look for no row. -/
theorem not_callsFunction_of_gives {e : Expr} {v : Value}
    (h : Gives (evalSelectItemAgg lib [] e) v) : ¬ CallsFunction lib e := by
  induction e generalizing v with
  | call name args =>
    intro hc
    have hother : Agg.ofName (lib.toLower name) = .other := of_decide_eq_true hc
    simp only [evalSelectItemAgg, evalAggregateCall, hother, gives_bind] at h
    obtain ⟨ctx, hctx, -⟩ := h
    cases gives_index.mp hctx
  | binary op left right ihl ihr =>
    simp only [evalSelectItemAgg, gives_bind, gives_check] at h
    obtain ⟨l, hl, r, hr, -⟩ := h
    simp [CallsFunction, ihl hl, ihr hr]
  | cast e t ih =>
    simp only [evalSelectItemAgg, gives_bind, gives_check] at h
    obtain ⟨w, hw, -⟩ := h
    exact ih hw
  | unary op e ih =>
    simp only [evalSelectItemAgg, gives_bind, gives_check] at h
    obtain ⟨w, hw, -⟩ := h
    exact ih hw
  | nil | ident | literal => simp [CallsFunction]

theorem not_argFaults_nil {ok : Value → Prop} {args : List Expr} :
    ¬ ArgFaults lib ok args [] := by
  rintro ⟨pre, ctx, post, h, -⟩
  simp at h

theorem callsFunction_of_panics {e : Expr} (h : Panics (evalSelectItemAgg lib [] e)) :
    CallsFunction lib e := by
  rw [panics_evalSelectItemAgg_iff] at h
  induction e with
  | call name args =>
    simp only [AggFaults, AggCallFaults] at h
    simp only [CallsFunction, decide_eq_true_eq]
    split at h
    · exact absurd h.2.2 not_argFaults_nil
    · exact absurd h not_argFaults_nil
    · exact absurd h not_argFaults_nil
    · exact absurd h not_argFaults_nil
    · exact absurd h not_argFaults_nil
    · exact absurd h.2 not_argFaults_nil
    · assumption
  | binary op left right ihl ihr =>
    simp only [CallsFunction, Bool.or_eq_true]
    exact h.imp ihl fun h => ihr h.2
  | cast e t ih => exact ih h
  | unary op e ih => exact ih h
  | nil | ident | literal => cases h

/-! ### The rows of the code -/

theorem length_of_mapM {α β : Type} {f : α → Eval β} {as : List α} {bs : List β}
    (h : Gives (as.mapM f) bs) : bs.length = as.length := by
  induction as generalizing bs with
  | nil =>
    obtain rfl := gives_pure.mp h
    rfl
  | cons a as ih =>
    rw [List.mapM_cons] at h
    obtain ⟨b, -, h⟩ := gives_bind.mp h
    obtain ⟨bs', hbs, h⟩ := gives_bind.mp h
    obtain rfl := gives_pure.mp h
    rw [List.length_cons, List.length_cons, ih hbs]

theorem aggregateRow_eq_classRow {g : List RowContext}
    (h : ∀ it ∈ s.items, ∃ v, Gives (evalSelectItemAgg lib g it.expr) v) :
    aggregateRow lib s.items g = pure (classRow lib s g) :=
  mapM_eq_pure fun it hit => gives_valueOf (h it hit)

theorem projectRow_eq_plainRow {ctx : RowContext}
    (h : ∀ it ∈ expandSelectItems s schema, ∃ v, Gives (eval lib ctx it.expr) v) :
    projectRow lib (expandSelectItems s schema) ctx = pure (plainRow lib schema s ctx) :=
  mapM_eq_pure fun it hit => gives_valueOf (h it hit)

/-- Without LIMIT. -/
theorem gives_selectRows (hlimit : s.hasLimit = false)
    (hwhere : ∀ ctx ∈ rows, Decides lib s.where_ ctx) {out : List Row} :
    Gives (selectRows lib schema s rows) out ↔
      ∃ out', Gives (outRows lib schema s (rows.filter (keeps lib s.where_))) out' ∧
        (if s.distinct then distinctRows lib out' else out') = out := by
  simp [selectRows, filterWhere_eq hwhere, hlimit]

theorem distinctRows_eq (out : List Row) :
    distinctRows lib out = heads (rowKeyString lib) out := by
  rw [distinctRows, heads, ← snd_groupsBy, List.filterMap_map]
  rfl

/-- DISTINCT is right exactly if rows that print alike are equal. -/
theorem distinctRows_perm_dedup {out : List Row} :
    ((distinctRows lib out).map contents).Perm (out.map contents).dedup ↔
      ∀ r ∈ out, ∀ r' ∈ out, rowKeyString lib r = rowKeyString lib r' →
        contents r = contents r' := by
  rw [distinctRows_eq, rowKeyString_eq, heads_perm_dedup]
  rfl

/-- The printed forms of equal rows are equal. -/
theorem rowKeyString_congr {r r' : Row} (h : contents r = contents r') :
    rowKeyString lib r = rowKeyString lib r' := by
  rw [← rowKeyString_contents r, h, rowKeyString_contents]

/-- Rows with the same contents up to repetition leave the same rows after DISTINCT. -/
theorem distinctRows_perm_of_mem {out ref : List Row}
    (hmem : ∀ c, c ∈ out.map contents ↔ c ∈ ref.map contents)
    (h : ∀ r ∈ ref, ∀ r' ∈ ref, rowKeyString lib r = rowKeyString lib r' →
      contents r = contents r') :
    ((distinctRows lib out).map contents).Perm (ref.map contents).dedup := by
  have hout : ∀ r ∈ out, ∀ r' ∈ out, rowKeyString lib r = rowKeyString lib r' →
      contents r = contents r' := by
    rintro r hr r' hr' he
    obtain ⟨q, hq, hqr⟩ := List.mem_map.mp ((hmem _).mp (List.mem_map_of_mem hr))
    obtain ⟨q', hq', hqr'⟩ := List.mem_map.mp ((hmem _).mp (List.mem_map_of_mem hr'))
    rw [← hqr, ← hqr']
    exact h q hq q' hq' (by rw [rowKeyString_congr hqr, he, rowKeyString_congr hqr'])
  refine (distinctRows_perm_dedup.mpr hout).trans ?_
  refine (List.perm_ext_iff_of_nodup (List.nodup_dedup _) (List.nodup_dedup _)).mpr fun c => ?_
  rw [List.mem_dedup, List.mem_dedup, hmem]

/-! ### Queries with aggregates -/

theorem groupTuple_of_nil (h : s.groupBy = []) (ctx : RowContext) : groupTuple lib s ctx = [] := by
  rw [groupTuple, h, List.map_nil]

/-- Without GROUP BY all rows are one group, if there are any. -/
theorem groups_of_nil (h : s.groupBy = []) :
    groups (groupTuple lib s) kept = if kept = [] then [] else [kept] := by
  have hkey : groupTuple lib s = fun _ => [] := funext (groupTuple_of_nil h)
  split
  · next hk =>
    rw [hk]
    rfl
  · next hk =>
    obtain ⟨ctx, hctx⟩ := List.exists_mem_of_ne_nil kept hk
    have hfirst : (firstKeys (groupTuple lib s) kept).Perm [[]] := by
      refine (List.perm_ext_iff_of_nodup nodup_firstKeys (List.nodup_singleton _)).mpr fun k => ?_
      rw [mem_firstKeys, List.mem_singleton, hkey]
      exact ⟨fun ⟨_, _, he⟩ => he.symm, fun he => ⟨ctx, hctx, he.symm⟩⟩
    rw [groups, List.perm_singleton.mp hfirst, hkey]
    simp

theorem printed_eq_iff {a b : RowContext} (ha : ∀ e ∈ s.groupBy, ∃ v, Gives (eval lib a e) v)
    (hb : ∀ e ∈ s.groupBy, ∃ v, Gives (eval lib b e) v) :
    groupKey lib s.groupBy a = groupKey lib s.groupBy b ↔
      rowKeyString lib (groupTuple lib s a) = rowKeyString lib (groupTuple lib s b) := by
  rw [groupKey_eq_tuple ha, groupKey_eq_tuple hb]
  constructor
  · exact fun h => gives_pure.mp (h ▸ gives_pure.mpr rfl)
  · exact fun h => by rw [h]

variable (hev : Succeeds lib schema s rows)

include hev

theorem Succeeds.outRows_aggregated (hagg : hasAggregate lib s)
    (hs : Separates lib schema s (rows.filter (keeps lib s.where_))) :
    outRows lib schema s (rows.filter (keeps lib s.where_)) =
      pure (resultRows lib schema s (rows.filter (keeps lib s.where_))) := by
  have hgroupBy := hev.groupBy
  have hclasses := hev.overClasses hagg
  generalize rows.filter (keeps lib s.where_) = kept at *
  have hsame : groups (rowKeyString lib ∘ groupTuple lib s) kept =
      groups (groupTuple lib s) kept :=
    groups_comp fun a ha b hb he =>
      hs.keys hagg a ha b hb ((printed_eq_iff (hgroupBy a ha) (hgroupBy b hb)).mpr he)
  have hrow : ∀ g ∈ classes lib s kept, g ≠ [] →
      aggregateRow lib s.items g = pure (classRow lib s g) := by
    rintro g hg hne
    exact aggregateRow_eq_classRow fun it hit =>
      (hclasses g hg it hit).resolve_right fun h => hne h.1
  rw [outRows, if_pos hagg, aggregateGroups_eq_groups hgroupBy, hsame, resultRows,
    if_pos (any_aggregates hagg)]
  by_cases hnil : s.groupBy = []
  · have hone : classes lib s kept = [kept] := if_pos hnil
    rw [hone] at hrow hclasses
    rw [groups_of_nil hnil, hone, hnil]
    by_cases hk : kept = []
    · have hempty : aggregateRow lib s.items [] = pure (classRow lib s []) := by
        refine aggregateRow_eq_classRow fun it hit => ?_
        have hit' := hclasses kept List.mem_cons_self it hit
        rw [hk] at hit'
        exact hit'.resolve_right fun h =>
          hs.noCalls hnil hk hagg it hit (callsFunction_of_panics h.2)
      rw [if_pos hk, hk, List.mapM_nil, pure_bind, hempty]
      rfl
    · rw [if_neg hk, List.mapM_cons, hrow kept List.mem_cons_self hk]
      rfl
  · have hall : classes lib s kept = groups (groupTuple lib s) kept := if_neg hnil
    rw [hall] at hrow ⊢
    have hmap : (groups (groupTuple lib s) kept).mapM (aggregateRow lib s.items) =
        pure ((groups (groupTuple lib s) kept).map (classRow lib s)) := by
      refine mapM_eq_pure fun g hg => hrow g hg ?_
      obtain ⟨a, ha, rfl⟩ := mem_groups.mp hg
      exact List.ne_nil_of_mem (List.mem_filter.mpr ⟨ha, by simp⟩)
    rw [hmap, pure_bind]
    simp [hnil]

/-- What is left of no rows without GROUP BY calls no function. -/
theorem Succeeds.noCalls_of_gives (hnil : s.groupBy = [])
    (hkept : rows.filter (keeps lib s.where_) = []) (hagg : hasAggregate lib s) {out : List Row}
    (h : Gives (outRows lib schema s (rows.filter (keeps lib s.where_))) out) :
    ∀ it ∈ s.items, ¬ CallsFunction lib it.expr := by
  have hgroupBy := hev.groupBy
  rw [hkept] at h hgroupBy
  rw [outRows, if_pos hagg, aggregateGroups_eq_groups hgroupBy] at h
  have hgroups : groups (rowKeyString lib ∘ groupTuple lib s) [] = [] := rfl
  rw [hgroups, List.mapM_nil, pure_bind, hnil] at h
  have hrow : Gives (do return [← aggregateRow lib s.items []]) out := h
  obtain ⟨row, hrow, -⟩ := gives_bind.mp hrow
  rintro it hit
  obtain ⟨v, hv⟩ := gives_of_mapM hrow it hit
  exact not_callsFunction_of_gives hv

/-- As many rows as there are classes come of keys that tell the classes apart. -/
theorem Succeeds.keys_of_length (hnil : s.groupBy ≠ []) (hagg : hasAggregate lib s)
    {out : List Row} (h : Gives (outRows lib schema s (rows.filter (keeps lib s.where_))) out)
    (hlen : out.length =
      (resultRows lib schema s (rows.filter (keeps lib s.where_))).length) :
    ∀ a ∈ rows.filter (keeps lib s.where_), ∀ b ∈ rows.filter (keeps lib s.where_),
      groupKey lib s.groupBy a = groupKey lib s.groupBy b →
        groupTuple lib s a = groupTuple lib s b := by
  have hgroupBy := hev.groupBy
  generalize rows.filter (keeps lib s.where_) = kept at *
  rw [outRows, if_pos hagg, aggregateGroups_eq_groups hgroupBy] at h
  obtain ⟨out', hout', h⟩ := gives_bind.mp h
  have hout : out' = out := by simpa [hnil] using h
  have hgroups := length_of_mapM hout'
  rw [hout, hlen, resultRows, if_pos (any_aggregates hagg), List.length_map, classes, if_neg hnil,
    groups, groups, List.length_map, List.length_map] at hgroups
  rintro a ha b hb he
  exact injOn_of_length_firstKeys (le_of_eq hgroups) a ha b hb
    ((printed_eq_iff (hgroupBy a ha) (hgroupBy b hb)).mp he)

/-! ### Queries without aggregates -/

theorem Succeeds.outRows_plain (hagg : ¬ hasAggregate lib s) :
    outRows lib schema s (rows.filter (keeps lib s.where_)) =
      pure ((rows.filter (keeps lib s.where_)).map (plainRow lib schema s)) := by
  rw [outRows, if_neg hagg]
  exact mapM_eq_pure fun ctx hctx => projectRow_eq_plainRow (hev.overRows hagg ctx hctx)

omit hev in
theorem mem_expandSelectItems {it : SelectItem} (hit : it ∈ s.items)
    (h : Aggregates lib it.expr) : it ∈ expandSelectItems s schema := by
  cases schema with
  | none => exact hit
  | some schema =>
    refine List.mem_append_left _ (List.mem_filter.mpr ⟨hit, ?_⟩)
    have hstar : it.expr ≠ .ident (ascii "*") := by
      intro he
      rw [he] at h
      cases h
    simp [isStar, hstar]

/-- An aggregate that the code does not see fails in any row. -/
theorem Succeeds.kept_eq_nil (hagg : ¬ hasAggregate lib s)
    (h : s.items.any (fun it => Aggregates lib it.expr) = true) :
    rows.filter (keeps lib s.where_) = [] := by
  obtain ⟨it, hit, ha⟩ := List.any_eq_true.mp h
  refine List.eq_nil_iff_forall_not_mem.mpr fun ctx hctx => ?_
  obtain ⟨v, hv⟩ := hev.overRows hagg ctx hctx it (mem_expandSelectItems hit ha)
  exact not_gives_of_aggregates ha v hv

/-! ### The rows are right -/

omit hev in
theorem length_reference (h : s.distinct = false) :
    (reference lib schema s kept).length = (resultRows lib schema s kept).length := by
  simp [reference, h]

omit hev in
/-- The rows before DISTINCT are those of the reference. -/
theorem perm_reference {out : List Row} (h : out = resultRows lib schema s kept)
    (hprinted : s.distinct = true → ∀ r ∈ resultRows lib schema s kept,
      ∀ r' ∈ resultRows lib schema s kept, rowKeyString lib r = rowKeyString lib r' →
        contents r = contents r') :
    ((if s.distinct then distinctRows lib out else out).map contents).Perm
      (reference lib schema s kept) := by
  rw [h, reference]
  cases hd : s.distinct with
  | false => exact List.Perm.refl _
  | true => exact distinctRows_perm_dedup.mpr (hprinted hd)

theorem Succeeds.result_of_separates (hlimit : s.hasLimit = false)
    (hs : Separates lib schema s (rows.filter (keeps lib s.where_))) :
    ∃ out, Gives (selectRows lib schema s rows) out ∧
      (out.map contents).Perm (reference lib schema s (rows.filter (keeps lib s.where_))) := by
  suffices h : ∃ out', Gives (outRows lib schema s (rows.filter (keeps lib s.where_))) out' ∧
      ((if s.distinct then distinctRows lib out' else out').map contents).Perm
        (reference lib schema s (rows.filter (keeps lib s.where_))) by
    obtain ⟨out', hout', hperm⟩ := h
    exact ⟨_, (gives_selectRows hlimit hev.where_).mpr ⟨out', hout', rfl⟩, hperm⟩
  by_cases hagg : hasAggregate lib s
  · exact ⟨_, hev.outRows_aggregated hagg hs, perm_reference rfl hs.printed⟩
  refine ⟨_, hev.outRows_plain hagg, ?_⟩
  by_cases hany : s.items.any (fun it => Aggregates lib it.expr) = true
  · have hkept := hev.kept_eq_nil hagg hany
    have hgroup : s.groupBy ≠ [] := by
      intro hnil
      obtain ⟨it, hit, ha⟩ := List.any_eq_true.mp hany
      exact hagg (hs.seen hnil hkept ⟨it, hit, ha⟩)
    refine perm_reference ?_ hs.printed
    rw [hkept, resultRows, if_pos hany, classes, if_neg hgroup]
    rfl
  by_cases hnil : s.groupBy = []
  · refine perm_reference ?_ hs.printed
    rw [resultRows, if_neg hany, if_pos hnil]
  have hresult : resultRows lib schema s (rows.filter (keeps lib s.where_)) =
      (heads (groupTuple lib s) (rows.filter (keeps lib s.where_))).map (plainRow lib schema s) := by
    rw [resultRows, if_neg hany, if_neg hnil]
  cases hd : s.distinct with
  | false =>
    rw [← hd]
    refine perm_reference ?_ hs.printed
    rw [hresult, heads_of_nodup (hs.single hagg hnil hd)]
  | true =>
    rw [reference, hd, if_pos rfl, if_pos rfl]
    refine distinctRows_perm_of_mem (fun c => ?_) (hs.printed hd)
    rw [hresult]
    simp only [List.mem_map, exists_exists_and_eq_and]
    constructor
    · rintro ⟨a, ha, rfl⟩
      obtain ⟨b, hb, he⟩ := hs.alike hagg hnil hd a ha
      exact ⟨b, hb, he.symm⟩
    · rintro ⟨b, hb, rfl⟩
      exact ⟨b, mem_of_mem_heads hb, rfl⟩

theorem Succeeds.separates_of_result (hlimit : s.hasLimit = false)
    (hd : s.distinct = false ∨ s.groupBy = [])
    (h : ∃ out, Gives (selectRows lib schema s rows) out ∧
      (out.map contents).Perm (reference lib schema s (rows.filter (keeps lib s.where_)))) :
    Separates lib schema s (rows.filter (keeps lib s.where_)) := by
  obtain ⟨out, hout, hperm⟩ := h
  obtain ⟨out', hout', rfl⟩ := (gives_selectRows hlimit hev.where_).mp hout
  have hlen : s.distinct = false → out'.length =
      (resultRows lib schema s (rows.filter (keeps lib s.where_))).length := by
    intro hdistinct
    rw [hdistinct, if_neg (by decide)] at hperm
    rw [← length_reference hdistinct, ← hperm.length_eq, List.length_map]
  have hplain : ¬ hasAggregate lib s →
      out' = (rows.filter (keeps lib s.where_)).map (plainRow lib schema s) := by
    intro hagg
    rw [hev.outRows_plain hagg] at hout'
    exact (gives_pure.mp hout').symm
  constructor
  · rintro hagg a ha b hb he
    by_cases hnil : s.groupBy = []
    · rw [groupTuple_of_nil hnil, groupTuple_of_nil hnil]
    · exact hev.keys_of_length hnil hagg hout' (hlen (hd.resolve_right hnil)) a ha b hb he
  · rintro hnil hkept ⟨it, hit, ha⟩
    by_contra hagg
    have hany : s.items.any (fun it => Aggregates lib it.expr) = true :=
      List.any_eq_true.mpr ⟨it, hit, ha⟩
    have hone : resultRows lib schema s [] = [classRow lib s []] := by
      rw [resultRows, if_pos hany, classes, if_pos hnil]
      rfl
    rw [hplain hagg, hkept, reference, hone] at hperm
    have hlen := hperm.length_eq
    cases hdist : s.distinct <;> simp [hdist, distinctRows, groupsBy] at hlen
  · rintro hnil hkept hagg
    exact hev.noCalls_of_gives hnil hkept hagg hout'
  · rintro hagg hnil hdistinct
    have hlen := hlen hdistinct
    rw [hplain hagg] at hlen
    by_cases hany : s.items.any (fun it => Aggregates lib it.expr) = true
    · rw [hev.kept_eq_nil hagg hany]
      exact List.nodup_nil
    · rw [resultRows, if_neg hany, if_neg hnil, List.length_map, List.length_map] at hlen
      exact nodup_of_length_heads hlen.symm
  · rintro - hnil hdistinct
    rcases hd with hd | hd
    · rw [hd] at hdistinct
      cases hdistinct
    · exact absurd hd hnil
  · rintro hdistinct r hr r' hr' he
    have hnil := hd.resolve_left (by rw [hdistinct]; decide)
    by_cases hany : s.items.any (fun it => Aggregates lib it.expr) = true
    · rw [resultRows, if_pos hany, classes, if_pos hnil, List.map_singleton,
        List.mem_singleton] at hr hr'
      rw [hr, hr']
    · have hagg : ¬ hasAggregate lib s := fun h => hany (any_aggregates h)
      have hresult : resultRows lib schema s (rows.filter (keeps lib s.where_)) = out' := by
        rw [resultRows, if_neg hany, if_pos hnil, hplain hagg]
      rw [reference, hdistinct, if_pos rfl, hresult, if_pos rfl] at hperm
      rw [hresult] at hr hr'
      exact distinctRows_perm_dedup.mp hperm r hr r' hr' he

end Select

/-! ### Aggregates of a class -/

section Aggregates

variable {lib : Stdlib} {g : List RowContext} {fn : Bytes} {e : Expr} {args : List Expr}

/-- A loop over the values of an argument. -/
theorem foldArg_values {σ : Type} {f : σ → Value → Eval σ} (step : σ → Value → σ)
    (he : ∀ ctx ∈ g, ∃ v, Gives (eval lib ctx e) v)
    (hf : ∀ s, ∀ v ∈ g.map fun ctx => valueOf (eval lib ctx e), f s v = pure (step s v)) (s : σ) :
    foldArg lib (e :: args) f g s =
      pure ((g.map fun ctx => valueOf (eval lib ctx e)).foldl step s) := by
  induction g generalizing s with
  | nil => rfl
  | cons ctx g ih =>
    obtain ⟨hctx, he⟩ := List.forall_mem_cons.mp he
    rw [List.map_cons] at hf
    obtain ⟨v, hv⟩ := hctx
    have hvalue := valueOf_gives hv
    have heval : check (eval lib ctx e) = pure v := by
      rw [pure_of_gives hv]
      rfl
    have hindex : index (e :: args) 0 = pure e := rfl
    rw [foldArg, hindex, pure_bind, heval, pure_bind, ← hvalue, hf s _ List.mem_cons_self,
      pure_bind, ih he fun s v hv => hf s v (List.mem_cons_of_mem _ hv)]
    rfl

theorem gives_count (hfn : Agg.ofName (lib.toLower fn) = .count) (hstar : e ≠ .ident (ascii "*"))
    (he : ∀ ctx ∈ g, ∃ v, Gives (eval lib ctx e) v) :
    Gives (evalAggregateCall lib fn [e] g) (intValue (.ofNat (argValues lib e g).length)) := by
  have hcond : [e].length = 1 ∧ [e] ≠ [.ident (ascii "*")] := ⟨rfl, by simpa using hstar⟩
  simp only [evalAggregateCall, hfn]
  rw [if_pos hcond, foldArg_values (fun n v => if v.null then n else n + 1) he fun _ _ _ => rfl,
    pure_bind, foldl_count, Nat.zero_add]
  exact gives_pure.mpr rfl

theorem gives_best {o : Ordering} (hfn : (Agg.ofName (lib.toLower fn)).seeks = some o)
    (he : ∀ ctx ∈ g, ∃ v, Gives (eval lib ctx e) v) :
    Gives (evalAggregateCall lib fn (e :: args) g)
      ((bestOf (isBetter lib o) (argValues lib e g)).getD nullValue) := by
  have hloop : foldArg lib (e :: args) (fun b v => return best lib o b v) g none =
      pure (bestOf (isBetter lib o) (argValues lib e g)) := by
    rw [foldArg_values (best lib o) he fun _ _ _ => rfl, foldl_best]
    rfl
  cases hkind : Agg.ofName (lib.toLower fn) with
  | min | max =>
    rw [hkind] at hfn
    cases hfn
    simp only [evalAggregateCall, hkind, hloop]
    exact gives_pure.mpr rfl
  | _ =>
    rw [hkind] at hfn
    cases hfn

theorem gives_sum (hlib : ExactLibrary lib) (hfn : Agg.ofName (lib.toLower fn) = .sum)
    (he : ∀ ctx ∈ g, ∃ v, Gives (eval lib ctx e) v) (hint : OfType .int (argValues lib e g))
    (hexact : WithinExact (argValues lib e g)) :
    Gives (evalAggregateCall lib fn (e :: args) g)
      (if argValues lib e g = [] then nullValue
        else intValue (.ofInt (sumInts (argValues lib e g)))) := by
  have htype : ∀ v ∈ g.map (fun ctx => valueOf (eval lib ctx e)), v.null = true ∨ v.type = .int := by
    rintro v hv
    cases hn : v.null with
    | true => exact Or.inl rfl
    | false => exact Or.inr (hint v (List.mem_filter.mpr ⟨hv, by simp [hn]⟩)).2
  have hadd : ∀ t : Total, ∀ v ∈ g.map (fun ctx => valueOf (eval lib ctx e)),
      t.add lib "sum requires numeric" v = pure (addNumber lib t v) := by
    rintro t v hv
    unfold Total.add addNumber
    rcases htype v hv with hn | ht
    · rw [if_pos hn, if_pos hn]
    · simp only [Value.asFloat, ht, Option.getD_some]
      split <;> rfl
  simp only [evalAggregateCall, hfn]
  rw [foldArg_values (addNumber lib) he hadd, pure_bind, foldl_total _ htype]
  change Gives (pure (if 0 + (argValues lib e g).length = 0 then nullValue else
    intValue (lib.toInt64 ((argValues lib e g).foldl
      (fun total v => lib.add total ((v.asFloat lib).getD 0)) 0)))) _
  rw [sum_eq hlib hint hexact]
  simp

theorem aggregatesRight (hlib : ExactLibrary lib) (g : List RowContext) :
    AggregatesRight lib g where
  countRows fn args hfn hargs := by
    have hcond : ¬ (args.length = 1 ∧ args ≠ [.ident (ascii "*")]) := by
      rintro ⟨hlen, hstar⟩
      exact hargs.elim (fun h => h hlen) hstar
    simp only [evalAggregateCall, hfn, if_neg hcond]
    exact gives_pure.mpr rfl
  count fn e hfn hstar he := gives_count hfn hstar he
  best fn e args o hfn he := by
    refine ⟨_, gives_best hfn he, ?_, ?_⟩
    · intro hnil
      simp [hnil, bestOf]
    · intro hne hord
      obtain ⟨v, hv⟩ := Option.ne_none_iff_exists'.mp (mt bestOf_eq_none.mp hne)
      rw [hv, Option.getD_some]
      exact unbeaten_of_bestOf hord hv
  sum fn e args hfn he hint hexact := gives_sum hlib hfn he hint hexact

end Aggregates

/-! ### The row path is right -/

/-- The row path is right where it separates, and only there unless both DISTINCT and GROUP BY are
given: then classes that are put together can leave rows that other classes have as well. -/
theorem select_right_iff {lib : Stdlib} {schema : Option TableSchema} {s : SelectStmt}
    {rows : List RowContext} (hlib : ExactLibrary lib) (hlimit : s.hasLimit = false)
    (hev : Succeeds lib schema s rows) :
    (Separates lib schema s (rows.filter (keeps lib s.where_)) → SelectRight lib schema s rows) ∧
    (s.distinct = false ∨ s.groupBy = [] →
      (SelectRight lib schema s rows ↔
        Separates lib schema s (rows.filter (keeps lib s.where_)))) := by
  have hright : Separates lib schema s (rows.filter (keeps lib s.where_)) →
      SelectRight lib schema s rows := fun hs =>
    ⟨hev.result_of_separates hlimit hs, fun g _ => aggregatesRight hlib g⟩
  exact ⟨hright, fun hd => ⟨fun h => hev.separates_of_result hlimit hd h.result, hright⟩⟩

instance {α : Type} (x : Eval α) : Decidable (∃ a, Gives x a) :=
  decidable_of_iff ((x.run.bind Except.toOption).isSome) (by
    unfold Gives
    rcases x.run with _ | _ | a <;> simp [Except.toOption])

instance {α : Type} (x : Eval α) : Decidable (Panics x) :=
  decidable_of_iff x.run.isNone Option.isNone_iff_eq_none

/-- Three rows, two of them in the class of NULL. -/
def groupRows : List RowContext :=
  [groupRow 1 nullValue (intValue 5), groupRow 2 (strValue (ascii "a")) nullValue,
    groupRow 3 nullValue (intValue (-7))]

theorem select_right_iff_groupRows :
    SelectRight .whole (some groupSchema) groupQuery groupRows := by
  have hkept : groupRows.filter (keeps .whole groupQuery.where_) = groupRows := rfl
  have hagg : hasAggregate .whole groupQuery = true := by decide +kernel
  have hev : Succeeds .whole (some groupSchema) groupQuery groupRows := by
    constructor
    · unfold Decides
      decide +kernel
    · decide +kernel
    · intro _
      decide +kernel
    · exact fun h => absurd hagg h
  refine ((select_right_iff exactLibrary_whole rfl hev).2 (Or.inl rfl)).mpr ?_
  constructor
  · rintro - a ha b hb he
    have hkeys : ∀ a ∈ groupRows, ∀ b ∈ groupRows,
        rowKeyString .whole (groupTuple .whole groupQuery a) =
          rowKeyString .whole (groupTuple .whole groupQuery b) →
        groupTuple .whole groupQuery a = groupTuple .whole groupQuery b := by decide +kernel
    rw [hkept] at ha hb
    refine hkeys a ha b hb ((printed_eq_iff (fun e he => ?_) fun e he => ?_).mp he)
    · exact hev.groupBy a (hkept ▸ ha) e he
    · exact hev.groupBy b (hkept ▸ hb) e he
  · nofun
  · nofun
  · exact fun h => absurd hagg h
  · exact fun h => absurd hagg h
  · nofun

/-- Two columns of strings. -/
def pairSchema : TableSchema where
  name := ascii "t"
  columns := [⟨ascii "x", .string, false, .nil, true⟩, ⟨ascii "y", .string, false, .nil, true⟩]
  pk := [ascii "x", ascii "y"]
  engine := ascii "MSTORE"

/-- `SELECT count(*) FROM t GROUP BY x, y`. -/
def pairQuery : SelectStmt where
  distinct := false
  items := [⟨.call (ascii "count") [.ident (ascii "*")], []⟩]
  from_ := ascii "t"
  where_ := .nil
  groupBy := [.ident (ascii "x"), .ident (ascii "y")]
  orderBy := []
  limit := 0
  hasLimit := false

/-- The end of the first string and the start of the second change places in the printed key. -/
def pairRows : List RowContext :=
  [rowContext pairSchema [strValue [97], strValue ([98, 0] ++ ascii "string:" ++ [99])],
    rowContext pairSchema [strValue ([97, 0] ++ ascii "string:" ++ [98]), strValue [99]]]

/-- Two rows of different groups are counted as one group. -/
theorem not_select_right : ¬ ∀ (lib : Stdlib) (schema : Option TableSchema) (s : SelectStmt)
    (rows : List RowContext), ExactLibrary lib → s.hasLimit = false →
    Succeeds lib schema s rows → SelectRight lib schema s rows := by
  intro h
  have hagg : hasAggregate .whole pairQuery = true := by decide +kernel
  have hev : Succeeds .whole (some pairSchema) pairQuery pairRows := by
    constructor
    · unfold Decides
      decide +kernel
    · decide +kernel
    · intro _
      decide +kernel
    · exact fun h => absurd hagg h
  obtain ⟨out, hout, hperm⟩ :=
    (h .whole (some pairSchema) pairQuery pairRows exactLibrary_whole rfl hev).result
  have hone : rowCount (selectRows .whole (some pairSchema) pairQuery pairRows) = some 1 := by
    decide +kernel
  have htwo : (reference .whole (some pairSchema) pairQuery
      (pairRows.filter (keeps .whole pairQuery.where_))).length = 2 := by decide +kernel
  have hlen := hperm.length_eq
  unfold rowCount at hone
  rw [hout] at hone
  rw [List.length_map, htwo, Option.some.inj hone] at hlen
  cases hlen

end Ydbgo.Sql
