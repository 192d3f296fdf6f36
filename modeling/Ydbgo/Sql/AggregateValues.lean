import Mathlib.Algebra.Order.BigOperators.Group.List
import Ydbgo.Lib.Best
import Ydbgo.Sql.ShardPlan

/-! # The values of aggregates

Over typed rows an aggregate of a column is a count, a best value or, as long
as whole numbers are exact in floats, a sum. The value over a list of rows is
made of the values over its parts.
-/

namespace Ydbgo.Sql

/-- What the Go library does with the names of aggregates and with whole floats. -/
structure ExactLibrary (lib : Stdlib) : Prop where
  lower : ∀ kind : Agg, lib.toLower kind.name = kind.name
  zero : lib.ofInt64 0 = 0
  add : ∀ m n : ℤ, m.natAbs ≤ 2 ^ 53 → n.natAbs ≤ 2 ^ 53 → (m + n).natAbs ≤ 2 ^ 53 →
    lib.add (lib.ofInt64 (.ofInt m)) (lib.ofInt64 (.ofInt n)) = lib.ofInt64 (.ofInt (m + n))
  back : ∀ m : ℤ, m.natAbs ≤ 2 ^ 53 → lib.toInt64 (lib.ofInt64 (.ofInt m)) = .ofInt m

/-- Every column has a value of its type, or NULL. -/
def TypedRow (schema : TableSchema) (ctx : RowContext) : Prop :=
  ∀ col ∈ schema.columns, ∃ v, ctx col.name = some v ∧
    (v = nullValue ∨ v.null = false ∧ v.type = col.type)

/-- The value of a column. -/
def valueAt (c : Bytes) (ctx : RowContext) : Value := (ctx c).getD {}

/-- The values of a column that are not NULL. -/
def colValues (c : Bytes) (group : List RowContext) : List Value :=
  (group.map (valueAt c)).filter fun v => !v.null

/-- The first value comes before the second. -/
def isBetter (lib : Stdlib) (o : Ordering) (v w : Value) : Bool := v.compare lib w = o

/-! ### Comparing values of one type -/

section Compare

variable {lib : Stdlib} {t : SqlType} {vs : List Value}

/-- Values of one type, none of them NULL. -/
def OfType (t : SqlType) (vs : List Value) : Prop := ∀ v ∈ vs, v.null = false ∧ v.type = t

theorem threeWay_eq_lt {lt gt : Bool} : threeWay lt gt = .lt ↔ lt = true := by
  cases lt <;> cases gt <;> decide

theorem threeWay_eq_gt {lt gt : Bool} : threeWay lt gt = .gt ↔ lt = false ∧ gt = true := by
  cases lt <;> cases gt <;> decide

/-- `Compare` on values of one type. -/
def compareOf (lib : Stdlib) (t : SqlType) (u v : Value) : Ordering :=
  match t with
  | .int => compareInts u.int v.int
  | .float => compareFloats u.flt v.flt
  | .string => compareBytes u.str v.str
  | .bool => if u.bool = v.bool then .eq else if u.bool then .gt else .lt
  | .timestamp => compareTimes u.tm v.tm
  | _ => compareBytes (u.string lib) (v.string lib)

theorem compare_of_type {u v : Value} (hu : u.null = false ∧ u.type = t)
    (hv : v.null = false ∧ v.type = t) : u.compare lib v = compareOf lib t u v := by
  obtain ⟨utype, unull, _, _, _, _, _, _⟩ := u
  obtain ⟨vtype, vnull, _, _, _, _, _, _⟩ := v
  obtain ⟨rfl : unull = false, rfl : utype = t⟩ := hu
  obtain ⟨rfl : vnull = false, rfl : vtype = utype⟩ := hv
  unfold Value.compare
  rw [if_neg (by simp)]
  cases vtype <;> rfl

/-- Values of a type have ranks, NaN apart. -/
theorem exists_rank (lib : Stdlib) (t : SqlType) :
    ∃ (β : Type) (_ : LinearOrder β) (rank : Value → Option β), ∀ u v : Value,
      u.null = false ∧ u.type = t → v.null = false ∧ v.type = t →
      (u.compare lib v = .lt ↔ ∃ a ∈ rank u, ∃ b ∈ rank v, a < b) ∧
      (u.compare lib v = .gt ↔ ∃ a ∈ rank u, ∃ b ∈ rank v, b < a) := by
  have htotal : ∀ {β : Type} [LinearOrder β] (rank : Value → β) (u v : Value) {o : Ordering},
      o = threeWay (rank u < rank v) (rank v < rank u) →
      (o = .lt ↔ ∃ a ∈ some (rank u), ∃ b ∈ some (rank v), a < b) ∧
      (o = .gt ↔ ∃ a ∈ some (rank u), ∃ b ∈ some (rank v), b < a) := by
    rintro β _ rank u v o rfl
    simp only [threeWay_eq_lt, threeWay_eq_gt, Option.mem_def, Option.some.injEq,
      decide_eq_true_eq, decide_eq_false_iff_not, exists_eq_left', true_and]
    exact ⟨fun h => h.2, fun h => ⟨lt_asymm h, h⟩⟩
  cases t with
  | int =>
    refine ⟨ℤ, inferInstance, fun v => some v.int.toInt, fun u v hu hv => ?_⟩
    refine htotal (fun v => v.int.toInt) u v ?_
    simp only [compare_of_type hu hv, compareOf, compareInts, Int64.lt_iff_toInt_lt]
  | float =>
    refine ⟨ℤ, inferInstance, fun v => if F64.isNaN v.flt then none else some (F64.rank v.flt),
      fun u v hu hv => ?_⟩
    simp only [compare_of_type hu hv, compareOf, compareFloats, threeWay_eq_lt, threeWay_eq_gt, F64.lt]
    cases F64.isNaN u.flt <;> cases F64.isNaN v.flt <;> simp
    exact fun h => le_of_lt h
  | string =>
    refine ⟨Bytes, inferInstance, fun v => some v.str, fun u v hu hv => ?_⟩
    refine htotal (fun v => v.str) u v ?_
    simp only [compare_of_type hu hv, compareOf, compareBytes]
    congr
  | bool =>
    refine ⟨ℕ, inferInstance, fun v => some v.bool.toNat, fun u v hu hv => ?_⟩
    refine htotal (fun v => v.bool.toNat) u v ?_
    simp only [compare_of_type hu hv, compareOf]
    cases u.bool <;> cases v.bool <;> rfl
  | timestamp =>
    refine ⟨ℤ, inferInstance, fun v => some v.tm.nanos, fun u v hu hv => ?_⟩
    refine htotal (fun v => v.tm.nanos) u v ?_
    rw [compare_of_type hu hv]
    rfl
  | null | other =>
    refine ⟨Bytes, inferInstance, fun v => some (v.string lib), fun u v hu hv => ?_⟩
    refine htotal (fun v => v.string lib) u v ?_
    simp only [compare_of_type hu hv, compareOf, compareBytes]
    congr

theorem orderedOn_of_type (h : OfType t vs) {o : Ordering} (ho : o ≠ .eq) :
    OrderedOn (isBetter lib o) vs := by
  obtain ⟨β, _, rank, hrank⟩ := exists_rank lib t
  cases o with
  | eq => contradiction
  | lt =>
    refine orderedOn_of_rank rank fun u hu v hv => ?_
    simp only [isBetter, decide_eq_true_eq]
    exact (hrank u v (h u hu) (h v hv)).1
  | gt =>
    refine orderedOn_of_rank (β := βᵒᵈ) rank fun u hu v hv => ?_
    simp only [isBetter, decide_eq_true_eq]
    exact (hrank u v (h u hu) (h v hv)).2

/-- The loop of MIN and MAX, NULL left out. -/
theorem foldl_best (o : Ordering) (vs : List Value) (b : Option Value) :
    vs.foldl (best lib o) b =
      (vs.filter fun v => !v.null).foldl (keepBetter (isBetter lib o)) b := by
  induction vs generalizing b with
  | nil => rfl
  | cons v vs ih =>
    rw [List.foldl_cons, ih]
    cases hv : v.null with
    | true => simp [hv, best]
    | false =>
      rw [List.filter_cons_of_pos (by simp [hv]), List.foldl_cons]
      congr 1
      cases b with
      | none => simp [best, keepBetter, hv]
      | some w => simp [best, keepBetter, isBetter, hv]

end Compare

/-! ### Values over a group -/

/-- The sum of whole numbers. -/
def sumInts (vs : List Value) : ℤ := (vs.map fun v => v.int.toInt).sum

/-- However the whole numbers are added up, the totals are exact in floats. -/
def ExactSum (vs : List Value) : Prop := (vs.map fun v => v.int.toInt.natAbs).sum ≤ 2 ^ 53

/-- An aggregate of a column over a group, or the number of its rows. -/
def aggValue (lib : Stdlib) (a : Agg × Bytes) (group : List RowContext) : Value :=
  let vs := colValues a.2 group
  match a.1 with
  | .count => intValue (.ofNat (if a.2 = [] then group.length else vs.length))
  | .sum => if vs.isEmpty then nullValue else intValue (.ofInt (sumInts vs))
  | .min => (bestOf (isBetter lib .lt) vs).getD nullValue
  | .max => (bestOf (isBetter lib .gt) vs).getD nullValue
  | _ => nullValue

/-- Every row of the group has a value of the type, or NULL, in the column. -/
def HasColumn (c : Bytes) (t : SqlType) (group : List RowContext) : Prop :=
  ∀ ctx ∈ group, ctx c = some (valueAt c ctx) ∧
    (valueAt c ctx = nullValue ∨ (valueAt c ctx).null = false ∧ (valueAt c ctx).type = t)

section Values

variable {lib : Stdlib} {t : SqlType} {c fn : Bytes} {group : List RowContext} {vs : List Value}

theorem HasColumn.of_subset {group' : List RowContext} (h : HasColumn c t group)
    (hs : ∀ ctx ∈ group', ctx ∈ group) : HasColumn c t group' := fun ctx hctx => h ctx (hs ctx hctx)

theorem ofType_colValues (h : HasColumn c t group) : OfType t (colValues c group) := by
  intro v hv
  obtain ⟨hv, hnull⟩ := List.mem_filter.mp hv
  obtain ⟨ctx, hctx, rfl⟩ := List.mem_map.mp hv
  rcases (h ctx hctx).2 with h | h
  · rw [h] at hnull
    cases hnull
  · exact h

theorem foldArg_ident {σ : Type} {f : σ → Value → Eval σ} (g : σ → Value → σ)
    (hc : c ≠ ascii "*") (hcol : HasColumn c t group)
    (hf : ∀ s, ∀ ctx ∈ group, f s (valueAt c ctx) = pure (g s (valueAt c ctx))) (s : σ) :
    foldArg lib [.ident c] f group s = pure ((group.map (valueAt c)).foldl g s) := by
  induction group generalizing s with
  | nil => rfl
  | cons ctx group ih =>
    obtain ⟨⟨hctx, -⟩, hcol⟩ := List.forall_mem_cons.mp hcol
    have heval : check (eval lib ctx (.ident c)) = pure (valueAt c ctx) := by
      rw [eval, if_neg hc, hctx]
      rfl
    have hindex : index [Expr.ident c] 0 = pure (.ident c) := rfl
    rw [foldArg, hindex, pure_bind, heval, pure_bind, hf s ctx List.mem_cons_self, pure_bind,
      ih hcol (fun s ctx hctx => hf s ctx (List.mem_cons_of_mem _ hctx))]
    rfl

theorem foldl_count (vs : List Value) (n : ℕ) :
    vs.foldl (fun n v => if v.null then n else n + 1) n =
      n + (vs.filter fun v => !v.null).length := by
  induction vs generalizing n with
  | nil => rfl
  | cons v vs ih =>
    rw [List.foldl_cons, ih]
    cases hv : v.null with
    | true => simp [hv]
    | false =>
      rw [List.filter_cons_of_pos (by simp [hv]), List.length_cons, if_neg (by simp)]
      omega

/-- A turn of the loop of SUM on a number or NULL. -/
def addNumber (lib : Stdlib) (t : Total) (v : Value) : Total :=
  if v.null then t
  else { total := lib.add t.total ((v.asFloat lib).getD 0), isInt := t.isInt && v.type = .int,
         cnt := t.cnt + 1 }

/-- Adding up floats of whole numbers, as long as every total is exact. -/
theorem foldl_add (hlib : ExactLibrary lib) (h : OfType .int vs) {m : ℤ}
    (hv : ∀ v ∈ vs, v.int.toInt.natAbs ≤ 2 ^ 53)
    (hpre : ∀ pre, pre <+: vs → (m + sumInts pre).natAbs ≤ 2 ^ 53) :
    vs.foldl (fun total v => lib.add total ((v.asFloat lib).getD 0)) (lib.ofInt64 (.ofInt m)) =
      lib.ofInt64 (.ofInt (m + sumInts vs)) := by
  induction vs generalizing m with
  | nil => simp [sumInts]
  | cons v vs ih =>
    obtain ⟨hv0, hv⟩ := List.forall_mem_cons.mp hv
    obtain ⟨ht, h⟩ := List.forall_mem_cons.mp h
    have hint : v.int = .ofInt v.int.toInt := (Int64.ofInt_toInt v.int).symm
    have hfloat : (v.asFloat lib).getD 0 = lib.ofInt64 (.ofInt v.int.toInt) := by
      rw [Value.asFloat, ht.2, ← hint]
      rfl
    have hsum : ∀ us, sumInts (v :: us) = v.int.toInt + sumInts us := by simp [sumInts]
    have hm : m.natAbs ≤ 2 ^ 53 := by simpa [sumInts] using hpre [] (List.nil_prefix)
    have hmv : (m + v.int.toInt).natAbs ≤ 2 ^ 53 := by
      simpa [sumInts] using hpre [v] (by simp)
    have hrest : ∀ pre, pre <+: vs → (m + v.int.toInt + sumInts pre).natAbs ≤ 2 ^ 53 := by
      rintro pre hp
      have := hpre (v :: pre) (List.cons_prefix_cons.mpr ⟨rfl, hp⟩)
      rwa [hsum, ← add_assoc] at this
    rw [List.foldl_cons, hfloat, hlib.add m _ hm hv0 hmv, ih h hv hrest, hsum, add_assoc]

theorem natAbs_sumInts_le (vs : List Value) :
    (sumInts vs).natAbs ≤ (vs.map fun v => v.int.toInt.natAbs).sum := by
  induction vs with
  | nil => rfl
  | cons v vs ih =>
    have hadd := Int.natAbs_add_le v.int.toInt (sumInts vs)
    rw [List.map_cons, List.sum_cons]
    change (v.int.toInt + sumInts vs).natAbs ≤ _
    omega

/-- The total and all totals on the way to it are exact in floats. -/
def WithinExact (vs : List Value) : Prop :=
  (∀ v ∈ vs, v.int.toInt.natAbs ≤ 2 ^ 53) ∧ ∀ pre, pre <+: vs → (sumInts pre).natAbs ≤ 2 ^ 53

theorem ExactSum.within (h : ExactSum vs) : WithinExact vs := by
  constructor
  · rintro v hv
    exact (List.single_le_sum (by simp) _ (List.mem_map_of_mem hv)).trans h
  · rintro pre ⟨post, rfl⟩
    have hle := natAbs_sumInts_le pre
    rw [ExactSum, List.map_append, List.sum_append] at h
    omega

theorem sum_eq (hlib : ExactLibrary lib) (h : OfType .int vs) (hexact : WithinExact vs) :
    lib.toInt64 (vs.foldl (fun total v => lib.add total ((v.asFloat lib).getD 0)) 0) =
      .ofInt (sumInts vs) := by
  have hfold := foldl_add hlib h (m := 0) hexact.1 (by simpa using hexact.2)
  have hzero : lib.ofInt64 (.ofInt 0) = 0 := hlib.zero
  rw [hzero, zero_add] at hfold
  rw [hfold, hlib.back _ (hexact.2 vs List.prefix_rfl)]

/-- The loop of SUM over whole numbers. -/
theorem foldl_total (t : Total) (hint : ∀ v ∈ vs, v.null = true ∨ v.type = .int) :
    vs.foldl (addNumber lib) t =
    { total := (vs.filter fun v => !v.null).foldl
        (fun total v => lib.add total ((v.asFloat lib).getD 0)) t.total
      isInt := t.isInt
      cnt := t.cnt + (vs.filter fun v => !v.null).length } := by
  induction vs generalizing t with
  | nil => rfl
  | cons v vs ih =>
    obtain ⟨hv, hint⟩ := List.forall_mem_cons.mp hint
    rw [List.foldl_cons, ih _ hint]
    cases hn : v.null with
    | true => simp [hn, addNumber]
    | false =>
      have ht := hv.resolve_left (by simp [hn])
      simp only [addNumber, hn, Bool.false_eq_true, if_false, Bool.not_false, List.filter_cons_of_pos,
        List.foldl_cons, List.length_cons, ht, decide_true, Bool.and_true, Total.mk.injEq, true_and]
      omega

/-- The aggregates that shards evaluate. -/
def Agg.Merges (kind : Agg) : Prop := kind = .count ∨ kind = .sum ∨ kind = .min ∨ kind = .max

/-- A sum is over a column of whole numbers, and stays exact. -/
def SumsExactly (kind : Agg) (t : SqlType) (vs : List Value) : Prop :=
  kind = .sum → t = .int ∧ ExactSum vs

theorem evalAggregateCall_star {args : List Expr} (hargs : args = [.ident (ascii "*")])
    (hfn : Agg.ofName (lib.toLower fn) = .count) :
    evalAggregateCall lib fn args group = pure (aggValue lib (.count, []) group) := by
  subst hargs
  simp [evalAggregateCall, hfn, aggValue]

theorem evalAggregateCall_column {kind : Agg} (hlib : ExactLibrary lib)
    (hfn : Agg.ofName (lib.toLower fn) = kind) (hkind : kind.Merges) (hc : c ≠ ascii "*")
    (hne : c ≠ []) (hcol : HasColumn c t group)
    (hsum : SumsExactly kind t (colValues c group)) :
    evalAggregateCall lib fn [.ident c] group = pure (aggValue lib (kind, c) group) := by
  have hbest : ∀ o : Ordering, foldArg lib [.ident c] (fun b v => return best lib o b v) group none =
      pure (bestOf (isBetter lib o) (colValues c group)) := by
    intro o
    rw [foldArg_ident (best lib o) hc hcol fun _ _ _ => rfl, foldl_best]
    rfl
  obtain rfl | rfl | rfl | rfl := hkind
  · have hstar : [Expr.ident c] ≠ [.ident (ascii "*")] := by simpa using hc
    simp only [evalAggregateCall, hfn]
    rw [if_pos ⟨rfl, hstar⟩, foldArg_ident (fun n v => if v.null then n else n + 1) hc hcol
      fun _ _ _ => rfl, pure_bind, foldl_count]
    simp [aggValue, hne, colValues]
  · obtain ⟨rfl, hexact⟩ := hsum rfl
    have hadd : ∀ s, ∀ ctx ∈ group, Total.add lib "sum requires numeric" s (valueAt c ctx) =
        pure (addNumber lib s (valueAt c ctx)) := by
      intro s ctx hctx
      unfold Total.add addNumber
      rcases (hcol ctx hctx).2 with hv | ⟨hv, ht⟩
      · rw [hv]
        rfl
      · simp only [hv, Bool.false_eq_true, if_false, Value.asFloat, ht, Option.getD_some]
    have hint : ∀ v ∈ group.map (valueAt c), v.null = true ∨ v.type = .int := by
      intro v hv
      obtain ⟨ctx, hctx, rfl⟩ := List.mem_map.mp hv
      rcases (hcol ctx hctx).2 with hv | ⟨-, ht⟩
      · exact Or.inl (by rw [hv]; rfl)
      · exact Or.inr ht
    have htotal := sum_eq hlib (ofType_colValues hcol) hexact.within
    simp only [evalAggregateCall, hfn]
    rw [foldArg_ident (addNumber lib) hc hcol hadd, pure_bind, foldl_total _ hint]
    change pure (if 0 + (colValues c group).length = 0 then nullValue else
      intValue (lib.toInt64 ((colValues c group).foldl
        (fun total v => lib.add total ((v.asFloat lib).getD 0)) 0))) = _
    rw [htotal]
    simp [aggValue]
  · simp only [evalAggregateCall, hfn, hbest]
    rfl
  · simp only [evalAggregateCall, hfn, hbest]
    rfl

end Values

/-! ### Values over the parts of a group -/

/-- The merged value of an aggregate over the parts of a group. -/
def mergedValue (lib : Stdlib) (a : Agg × Bytes) (parts : List (List RowContext)) : Value :=
  let vs := (parts.map (aggValue lib a)).filter fun v => !v.null
  match a.1 with
  | .count => intValue (vs.foldl (fun total v => total + v.int) 0)
  | .sum =>
    let total := vs.foldl (fun total v => lib.add total ((v.asFloat lib).getD 0)) 0
    if vs.isEmpty then nullValue
    else if vs.all (·.type = .int) then intValue (lib.toInt64 total) else floatValue total
  | .min => (bestOf (isBetter lib .lt) vs).getD nullValue
  | .max => (bestOf (isBetter lib .gt) vs).getD nullValue
  | _ => nullValue

/-- What MIN and MAX look for. -/
def Agg.seeks : Agg → Option Ordering
  | min => some .lt
  | max => some .gt
  | _ => none

/-- Where the aggregate is MIN or MAX, one value is beaten by none. -/
def Settled (lib : Stdlib) (a : Agg × Bytes) (group : List RowContext) : Prop :=
  ∀ o, a.1.seeks = some o → OneBest (isBetter lib o) (colValues a.2 group)

section Parts

variable {lib : Stdlib} {t : SqlType} {a : Agg × Bytes} {group : List RowContext}
  {parts : List (List RowContext)}

theorem mergeAggSub_map {pos : ℕ} (f : List RowContext → Row)
    (hf : ∀ g ∈ parts, (f g)[pos]? = some (aggValue lib a g)) :
    mergeAggSub lib a.1 (parts.map f) pos = mergedValue lib a parts := by
  have hvs : (parts.map f).filterMap (fun r => (r[pos]?).filter fun v => !v.null) =
      (parts.map (aggValue lib a)).filter fun v => !v.null := by
    rw [List.filterMap_map, ← List.filterMap_eq_filter, List.filterMap_map]
    refine List.filterMap_congr fun g hg => ?_
    rw [Function.comp_apply, hf g hg]
    rfl
  unfold mergeAggSub mergedValue
  simp only [hvs, foldl_best, List.filter_filter, Bool.and_self]
  rfl

theorem colValues_flatten (c : Bytes) :
    colValues c parts.flatten = (parts.map (colValues c)).flatten := by
  simp only [colValues, List.map_flatten, List.filter_flatten, List.map_map]
  rfl

/-- What is left of the best values of the parts when NULL is left out. -/
theorem filter_best {o : Ordering} (hcol : HasColumn a.2 t parts.flatten)
    (ho : o ≠ .eq) (hv : ∀ g, aggValue lib a g =
      (bestOf (isBetter lib o) (colValues a.2 g)).getD nullValue) :
    ((parts.map (aggValue lib a)).filter fun v => !v.null) =
      (parts.map (colValues a.2)).filterMap (bestOf (isBetter lib o)) := by
  rw [← List.filterMap_eq_filter, List.filterMap_map, List.filterMap_map]
  refine List.filterMap_congr fun g hg => ?_
  have htyped := ofType_colValues (hcol.of_subset fun ctx h => List.mem_flatten_of_mem hg h)
  simp only [Function.comp_apply, hv]
  cases hb : bestOf (isBetter lib o) (colValues a.2 g) with
  | none => rfl
  | some v =>
    have hnull := (htyped v (unbeaten_of_bestOf (orderedOn_of_type htyped ho) hb).1).1
    simp [Option.guard, hnull]

theorem foldl_counts (ns : List ℕ) (n : ℕ) :
    (ns.map fun n => intValue (.ofNat n)).foldl (fun total v => total + v.int) (.ofNat n) =
      Int64.ofNat (n + ns.sum) := by
  induction ns generalizing n with
  | nil => rfl
  | cons k ns ih =>
    rw [List.map_cons, List.foldl_cons]
    change List.foldl _ (Int64.ofNat n + Int64.ofNat k) _ = _
    rw [← Int64.ofNat_add, ih, List.sum_cons, Nat.add_assoc]

/-- The sums of parts that are not empty, as values. -/
theorem sums_map {ps : List (List Value)} (h : ExactSum ps.flatten) :
    sumInts (ps.map fun q => intValue (.ofInt (sumInts q))) = sumInts ps.flatten ∧
      ((ps.map fun q => intValue (.ofInt (sumInts q))).map fun v => v.int.toInt.natAbs).sum ≤
        (ps.flatten.map fun v => v.int.toInt.natAbs).sum := by
  induction ps with
  | nil => exact ⟨rfl, le_refl _⟩
  | cons q ps ih =>
    unfold ExactSum at h ih
    rw [List.flatten_cons, List.map_append, List.sum_append] at h
    obtain ⟨hsum, hle⟩ := ih (by omega)
    have hq := natAbs_sumInts_le q
    have hint : (intValue (.ofInt (sumInts q))).int.toInt = sumInts q :=
      Int64.toInt_ofInt_of_le (by omega) (by omega)
    constructor
    · simp only [sumInts, List.map_cons, List.sum_cons, List.flatten_cons, List.map_append,
        List.sum_append] at hsum hint ⊢
      rw [hint, hsum]
    · simp only [List.map_cons, List.sum_cons, List.flatten_cons, List.map_append, List.sum_append,
        hint]
      omega

theorem filter_sums (c : Bytes) (parts : List (List RowContext)) :
    ((parts.map (aggValue lib (.sum, c))).filter fun v => !v.null) =
      ((parts.map (colValues c)).filter fun q => !q.isEmpty).map
        fun q => intValue (.ofInt (sumInts q)) := by
  induction parts with
  | nil => rfl
  | cons g parts ih =>
    rw [List.map_cons, List.map_cons, List.filter_cons, ih, List.filter_cons]
    by_cases hg : (colValues c g).isEmpty = true
    · simp [aggValue, hg, nullValue]
    · simp [aggValue, hg, intValue]

/-- Merging gives the value over the whole group. -/
theorem mergedValue_eq (hlib : ExactLibrary lib) (hkind : a.1.Merges)
    (hcol : a.2 ≠ [] → HasColumn a.2 t parts.flatten) (hcount : a.2 = [] → a.1 = .count)
    (hsum : SumsExactly a.1 t (colValues a.2 parts.flatten))
    (hone : Settled lib a parts.flatten) :
    mergedValue lib a parts = aggValue lib a parts.flatten := by
  obtain ⟨kind, c⟩ := a
  have hbest : ∀ o : Ordering, o ≠ .eq → kind ≠ .count → kind.seeks = some o →
      (∀ g, aggValue lib (kind, c) g = (bestOf (isBetter lib o) (colValues c g)).getD nullValue) →
      (bestOf (isBetter lib o) ((parts.map (aggValue lib (kind, c))).filter fun v => !v.null)) =
        bestOf (isBetter lib o) (colValues c parts.flatten) := by
    intro o ho hk hs hv
    have hcol := hcol fun h => hk (hcount h)
    have htyped := ofType_colValues hcol
    rw [filter_best hcol ho hv, colValues_flatten]
    rw [colValues_flatten] at htyped
    have hone := hone o hs
    rw [colValues_flatten] at hone
    exact bestOf_flatten (orderedOn_of_type htyped ho) hone
  obtain rfl | rfl | rfl | rfl := hkind
  · have hvs : ((parts.map (aggValue lib (.count, c))).filter fun v => !v.null) =
        (parts.map fun g => if c = [] then g.length else (colValues c g).length).map
          fun n => intValue (.ofNat n) := by
      rw [List.map_map, List.filter_eq_self.mpr]
      · rfl
      · intro v hv
        obtain ⟨g, -, rfl⟩ := List.mem_map.mp hv
        rfl
    simp only [mergedValue, hvs, aggValue]
    have hzero : (0 : Int64) = .ofNat 0 := rfl
    rw [hzero, foldl_counts, Nat.zero_add]
    split
    · simp [List.length_flatten]
    · rw [colValues_flatten, List.length_flatten, List.map_map]
      rfl
  · obtain ⟨rfl, hexact⟩ := hsum rfl
    have hflat := List.flatten_filter_not_isEmpty (L := parts.map (colValues c))
    simp only [mergedValue, aggValue, filter_sums]
    rw [colValues_flatten, ← hflat] at hexact ⊢
    generalize hps : (parts.map (colValues c)).filter (fun q => !q.isEmpty) = ps at hexact ⊢
    obtain ⟨hsums, hle⟩ := sums_map hexact
    have htyped : OfType .int (ps.map fun q => intValue (.ofInt (sumInts q))) := by
      intro v hv
      obtain ⟨q, -, rfl⟩ := List.mem_map.mp hv
      exact ⟨rfl, rfl⟩
    have hall : (ps.map fun q => intValue (.ofInt (sumInts q))).all (·.type = .int) = true :=
      List.all_eq_true.mpr fun v hv => decide_eq_true (htyped v hv).2
    have hempty : (ps.map fun q => intValue (.ofInt (sumInts q))).isEmpty = ps.flatten.isEmpty := by
      cases hp : ps with
      | nil => rfl
      | cons q ps' =>
        have hq : q ∈ (parts.map (colValues c)).filter fun q => !q.isEmpty := by
          rw [hps, hp]
          exact List.mem_cons_self
        obtain _ | ⟨v, q⟩ := q
        · simp at hq
        · rfl
    have hsum : ExactSum (ps.map fun q => intValue (.ofInt (sumInts q))) := hle.trans hexact
    rw [hall, hempty, sum_eq hlib htyped hsum.within, hsums]
    rfl
  · simp only [mergedValue, aggValue]
    rw [hbest .lt nofun nofun rfl fun _ => rfl]
  · simp only [mergedValue, aggValue]
    rw [hbest .gt nofun nofun rfl fun _ => rfl]

theorem colValues_perm {group' : List RowContext} (h : group.Perm group') (c : Bytes) :
    (colValues c group).Perm (colValues c group') := (h.map _).filter _

/-- The order of the rows does not matter. -/
theorem aggValue_perm {group' : List RowContext} (h : group.Perm group')
    (hcol : a.1.seeks.isSome → HasColumn a.2 t group) (hone : Settled lib a group) :
    aggValue lib a group = aggValue lib a group' := by
  have hvs := colValues_perm h a.2
  have hbest : ∀ o : Ordering, o ≠ .eq → a.1.seeks = some o →
      bestOf (isBetter lib o) (colValues a.2 group) =
        bestOf (isBetter lib o) (colValues a.2 group') := by
    intro o ho hs
    have htyped := ofType_colValues (hcol (by rw [hs]; rfl))
    exact bestOf_congr (orderedOn_of_type htyped ho) (hone o hs) fun v => hvs.mem_iff
  have hempty : (colValues a.2 group).isEmpty = (colValues a.2 group').isEmpty := by
    rw [Bool.eq_iff_iff, List.isEmpty_iff, List.isEmpty_iff]
    constructor
    · intro he
      rw [he] at hvs
      exact hvs.nil_eq.symm
    · intro he
      rw [he] at hvs
      exact hvs.eq_nil
  unfold aggValue
  split
  · simp only [h.length_eq, hvs.length_eq]
  · have hsum : sumInts (colValues a.2 group) = sumInts (colValues a.2 group') :=
      List.Perm.sum_eq (hvs.map _)
    simp only [hempty, hsum]
  · rename_i hk
    simp only [hbest .lt nofun (by rw [hk]; rfl)]
  · rename_i hk
    simp only [hbest .gt nofun (by rw [hk]; rfl)]
  · rfl

/-- A row that comes first with a value beaten by none decides MIN and MAX. -/
theorem mergedValue_first {o : Ordering} {ctx : RowContext} (hs : a.1.seeks = some o)
    (hcol : HasColumn a.2 t ([ctx] :: parts).flatten) (hnull : (valueAt a.2 ctx).null = false)
    (hun : Unbeaten (isBetter lib o) (colValues a.2 ([ctx] :: parts).flatten) (valueAt a.2 ctx)) :
    mergedValue lib a ([ctx] :: parts) = valueAt a.2 ctx := by
  have ho : o ≠ .eq := by
    rintro rfl
    obtain ⟨kind, c⟩ := a
    cases kind <;> cases hs
  have hord : OrderedOn (isBetter lib o) (colValues a.2 ([ctx] :: parts).flatten) :=
    orderedOn_of_type (ofType_colValues hcol) ho
  have hself : bestOf (isBetter lib o) (colValues a.2 [ctx]) = some (valueAt a.2 ctx) := by
    simp [colValues, hnull, bestOf, keepBetter]
  have hbest : ∀ (hv : ∀ g, aggValue lib a g =
      (bestOf (isBetter lib o) (colValues a.2 g)).getD nullValue),
      bestOf (isBetter lib o) ((([ctx] :: parts).map (aggValue lib a)).filter fun v => !v.null) =
        some (valueAt a.2 ctx) := by
    intro hv
    rw [filter_best hcol ho hv, List.map_cons, List.filterMap_cons_some hself]
    refine bestOf_cons_of_unbeaten hord hun fun v hv => ?_
    obtain ⟨p, hp, hb⟩ := List.mem_filterMap.mp hv
    obtain ⟨g, hg, rfl⟩ := List.mem_map.mp hp
    have hsub : ∀ w ∈ colValues a.2 g, w ∈ colValues a.2 ([ctx] :: parts).flatten := by
      rw [colValues_flatten]
      exact fun w hw => List.mem_flatten.mpr
        ⟨_, List.mem_map.mpr ⟨g, List.mem_cons_of_mem _ hg, rfl⟩, hw⟩
    exact hsub v (unbeaten_of_bestOf (hord.of_subset hsub) hb).1
  obtain ⟨kind, c⟩ := a
  cases kind <;> cases hs
  · simp only [mergedValue]
    rw [hbest fun _ => rfl]
    rfl
  · simp only [mergedValue]
    rw [hbest fun _ => rfl]
    rfl

end Parts

end Ydbgo.Sql
