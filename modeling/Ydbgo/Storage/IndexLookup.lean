import Mathlib.Data.Nat.Bitwise
import Ydbgo.Mpart.Merge
import Ydbgo.Storage.IndexRuns
import Ydbgo.Storage.PkOrder

/-! # Lookups in a secondary index

An equality lookup reads the keys that an index lists under the encoding of
the literal. They are the keys of the rows that a full scan would match, if
the index is in step with the rows and equal values of the column are those
encoded alike.
-/

namespace Ydbgo.Storage

open Sql (Value Stdlib PKRange ColumnFilter)

/-- The rows that a scan reads. -/
def scannedRows (t : Table) (tx : TableTx) : List (Bytes × Vals) :=
  tx.view.entries.filterMap fun e => (t.decodeRow (some e.2)).map (Prod.mk e.1)

/-- The keys of the rows of a scan in a range of keys whose column `name` matches a predicate. -/
def scanMatches (t : Table) (tx : TableTx) (name : Bytes) (pred : ColumnFilter)
    (lo hi : Option Bytes) : List Bytes :=
  ((scannedRows t tx).filter fun r =>
    Mpart.inPKRange r.1 lo hi && matchesFilter (r.2.cell name) pred).map Prod.fst

/-- The keys that `indexMatchRange` calls back with for an equality. -/
def indexMatches (ix : Index) (pred : ColumnFilter) (lo hi : Option Bytes) : List Bytes :=
  (ix.entries (indexVal (fromSQLValue pred.lit))).filter fun pk => Mpart.inPKRange pk lo hi

/-! ### Encodings of values -/

theorem sortableInt_injective {m n : Int64} (h : sortableInt m = sortableInt n) : m = n := by
  by_contra hne
  rcases Int64.lt_or_lt_of_ne hne with hlt | hlt
  · have := sortableInt_lt.mpr hlt
    rw [h] at this
    exact lt_irrefl _ this
  · have := sortableInt_lt.mpr hlt
    rw [h] at this
    exact lt_irrefl _ this

theorem and_sign_eq_zero_iff (f : UInt64) : f &&& 0x8000000000000000 = 0 ↔ f.toNat < 2 ^ 63 := by
  have hand : (f &&& 0x8000000000000000).toNat = (f.toNat.testBit 63).toNat * 2 ^ 63 := by
    rw [UInt64.toNat_and, Nat.and_comm, Nat.mul_comm]
    exact Nat.two_pow_and f.toNat 63
  have hlt := f.toNat_lt
  rw [← UInt64.toNat_inj, hand]
  cases hb : f.toNat.testBit 63 with
  | false =>
    constructor
    · intro _
      by_contra hge
      have hbit : f.toNat.testBit 63 = true := by
        rw [Nat.testBit_eq_decide_div_mod_eq]
        simp only [decide_eq_true_eq]
        omega
      rw [hb] at hbit
      cases hbit
    · intro _
      rfl
  | true =>
    have hge := Nat.ge_two_pow_of_testBit hb
    constructor
    · intro h
      simp at h
    · intro h
      omega

theorem toNat_mathFloatToSortable (f : UInt64) : (mathFloatToSortable f).toNat =
    if f.toNat < 2 ^ 63 then f.toNat + 2 ^ 63 else 2 ^ 64 - 1 - f.toNat := by
  unfold mathFloatToSortable
  by_cases h : f.toNat < 2 ^ 63
  · have hz := (and_sign_eq_zero_iff f).mpr h
    rw [if_neg (by simp [hz]), if_pos h, UInt64.toNat_or]
    have hor := Nat.two_pow_add_eq_or_of_lt h 1
    rw [Nat.mul_one] at hor
    change f.toNat ||| 2 ^ 63 = _
    rw [Nat.or_comm, ← hor, Nat.add_comm]
  · have hz : ¬ f &&& 0x8000000000000000 = 0 := fun hz => h ((and_sign_eq_zero_iff f).mp hz)
    rw [if_pos hz, if_neg h]
    simp

theorem mathFloatToSortable_injective {f g : UInt64}
    (h : mathFloatToSortable f = mathFloatToSortable g) : f = g := by
  have hn := congrArg UInt64.toNat h
  rw [toNat_mathFloatToSortable, toNat_mathFloatToSortable] at hn
  have hf := f.toNat_lt
  have hg := g.toNat_lt
  apply UInt64.toNat_inj.mp
  split at hn <;> split at hn <;> omega

/-- Equal values of one type are those encoded alike; a float is equal to the literal only if it has
the bits of the literal. -/
structure ComparesAsEncoded (v lit : SqlValue) : Prop where
  typ : v.typ = lit.typ
  float : v.typ = .float → v.f = lit.f ∨ Sql.F64.lt v.f lit.f = true ∨ Sql.F64.lt lit.f v.f = true

theorem lt_self (x : UInt64) : Sql.F64.lt x x = false := by
  simp [Sql.F64.lt]

theorem sameSQLValue_iff {v lit : SqlValue} (h : ComparesAsEncoded v lit) :
    sameSQLValue v lit = true ↔ indexVal v = indexVal lit := by
  obtain ⟨typ, null, missing, i, f, s, b⟩ := v
  obtain ⟨typ', null', missing', i', f', s', b'⟩ := lit
  obtain ⟨rfl : typ = typ', hf⟩ := h
  cases typ with
  | int | timestamp =>
    simp only [sameSQLValue, indexVal, decide_true, Bool.true_and, beq_iff_eq, List.cons.injEq,
      true_and]
    exact ⟨fun he => he ▸ rfl, sortableInt_injective⟩
  | float =>
    simp only [sameSQLValue, indexVal, decide_true, Bool.true_and, Bool.and_eq_true,
      Bool.not_eq_true', List.cons.injEq, true_and]
    constructor
    · rintro ⟨hlt, hgt⟩
      obtain rfl | h | h := hf rfl
      · rfl
      · rw [hlt] at h
        cases h
      · rw [hgt] at h
        cases h
    · intro he
      have hbits := beBytes_injective (mathFloatToSortable f).toNat_lt
        (mathFloatToSortable f').toNat_lt he
      obtain rfl := mathFloatToSortable_injective (UInt64.toNat_inj.mp hbits)
      exact ⟨lt_self f, lt_self f⟩
  | string =>
    simp [sameSQLValue, indexVal]
  | bool =>
    cases b <;> cases b' <;> simp [sameSQLValue, indexVal]

/-! ### Lookups -/

section Lookups

variable {t : Table} {tx : TableTx} {ix : Index} {i : ℕ} {col : ColInfo} {pred : ColumnFilter}

theorem nodup_scanMatches (lo hi : Option Bytes) :
    (scanMatches t tx col.name pred lo hi).Nodup := by
  have hkeys : (scannedRows t tx).Pairwise fun a b => a.1 ≠ b.1 := by
    refine List.Pairwise.filterMap _ (fun e e' hne r hr r' hr' => ?_) tx.view.ascending
    obtain ⟨v, -, rfl⟩ := Option.map_eq_some_iff.mp hr
    obtain ⟨v', -, rfl⟩ := Option.map_eq_some_iff.mp hr'
    exact ne_of_lt hne
  exact List.pairwise_map.mpr (hkeys.sublist List.filter_sublist)

theorem mem_scannedRows {key : Bytes} {vals : Vals} : (key, vals) ∈ scannedRows t tx ↔
    ∃ cells, tx.view.get key = some cells ∧ t.decodeRow (some cells) = some vals := by
  simp only [scannedRows, List.mem_filterMap, Option.map_eq_some_iff, Prod.mk.injEq,
    SortedMap.get_eq_some]
  constructor
  · rintro ⟨⟨k, cells⟩, hm, v, hdec, rfl, rfl⟩
    exact ⟨cells, hm, hdec⟩
  · rintro ⟨cells, hm, hdec⟩
    exact ⟨(key, cells), hm, vals, hdec, rfl, rfl⟩

theorem indexVal_ne_nil (v : SqlValue) : (indexVal v).isEmpty = false := by
  unfold indexVal
  split <;> rfl

theorem indexValForCols_single (hcols : ix.cols = [i]) (hcol : t.cols[i]? = some col)
    (vals : Vals) : indexValForCols vals t ix =
      (vals col.name).bind fun v => if v.null then none else some (indexVal v) := by
  unfold indexValForCols
  rw [hcols, List.mapM_cons, List.mapM_nil, hcol, Option.bind_some]
  cases hv : vals col.name with
  | none => rfl
  | some v =>
    rw [Option.bind_some]
    cases hnull : v.null with
    | true => rfl
    | false => simp [Option.filter, indexVal_ne_nil]

/-- The rows that match a predicate are those indexed under its literal. -/
theorem matchesFilter_iff (hcols : ix.cols = [i]) (hcol : t.cols[i]? = some col)
    (heq : pred.op = .eq) {vals : Vals} (hval : ∃ v, vals col.name = some v ∧
      (v.null = true ∨ ComparesAsEncoded v (fromSQLValue pred.lit))) :
    matchesFilter (vals.cell col.name) pred = true ↔
      indexValForCols vals t ix = some (indexVal (fromSQLValue pred.lit)) := by
  obtain ⟨v, hv, hval⟩ := hval
  rw [indexValForCols_single hcols hcol, Vals.cell, hv, Option.getD_some, Option.bind_some,
    matchesFilter, heq]
  cases hnull : v.null with
  | true => simp
  | false =>
    rw [hnull] at hval
    simp only [Bool.false_eq_true, if_false, Option.some.injEq]
    exact sameSQLValue_iff (hval.resolve_left Bool.false_ne_true)

/-- An equality lookup finds the keys of the rows that a scan matches. -/
theorem indexMatches_perm (h : ix.Lists t tx.view.get) (hcols : ix.cols = [i])
    (hcol : t.cols[i]? = some col) (heq : pred.op = .eq)
    (hval : ∀ r ∈ scannedRows t tx, ∃ v, r.2 col.name = some v ∧
      (v.null = true ∨ ComparesAsEncoded v (fromSQLValue pred.lit))) (lo hi : Option Bytes) :
    (indexMatches ix pred lo hi).Perm (scanMatches t tx col.name pred lo hi) := by
  unfold indexMatches
  rw [List.perm_ext_iff_of_nodup ((h.nodup _).filter _) (nodup_scanMatches lo hi)]
  intro key
  rw [List.mem_filter, h.mem, scanMatches, List.mem_map]
  constructor
  · rintro ⟨⟨cells, hv, hix⟩, hrange⟩
    obtain ⟨vals, hdec, hval'⟩ := Option.bind_eq_some_iff.mp hix
    have hmem := mem_scannedRows.mpr ⟨cells, hv, hdec⟩
    have hm := (matchesFilter_iff hcols hcol heq (hval _ hmem)).mpr hval'
    exact ⟨(key, vals), List.mem_filter.mpr ⟨hmem, by simp [hrange, hm]⟩, rfl⟩
  · rintro ⟨⟨k, vals⟩, hmem, rfl⟩
    obtain ⟨hmem, hp⟩ := List.mem_filter.mp hmem
    obtain ⟨hrange, hm⟩ := Bool.and_eq_true_iff.mp hp
    obtain ⟨cells, hv, hdec⟩ := mem_scannedRows.mp hmem
    refine ⟨⟨cells, hv, ?_⟩, hrange⟩
    rw [Table.indexValOf, hdec, Option.bind_some]
    exact (matchesFilter_iff hcols hcol heq (hval _ hmem)).mp hm

end Lookups

/-! ### Every reachable state -/

/-- The indexes of the catalog list, under each value, the keys of the rows with it, and an
equality lookup finds the rows that a scan matches. -/
structure IndexesRight (b : Batch) : Prop where
  nodup : ∀ name t, b.tables.get name = some t → ∀ index ix, t.indexes.get index = some ix →
    ∀ enc, (ix.entries enc).Nodup
  mem : ∀ name t, b.tables.get name = some t → ∀ index ix, t.indexes.get index = some ix →
    ∀ enc key, key ∈ ix.entries enc ↔
      ∃ cells, (b.tx name t).view.get key = some cells ∧ t.indexValOf ix cells = some enc
  lookup : ∀ name t, b.tables.get name = some t → ∀ index ix, t.indexes.get index = some ix →
    ∀ (pred : ColumnFilter) (col : ColInfo), ix.cols = [pred.col] → t.cols[pred.col]? = some col →
      pred.op = .eq →
      (∀ r ∈ scannedRows t (b.tx name t), ∃ v, r.2 col.name = some v ∧
        (v.null = true ∨ ComparesAsEncoded v (fromSQLValue pred.lit))) →
      ∀ lo hi, (indexMatches ix pred lo hi).Perm
        (scanMatches t (b.tx name t) col.name pred lo hi)

theorem Batch.Ok.indexesRight {b : Batch} (h : b.Ok) : IndexesRight b := by
  constructor
  · exact fun name t hget index ix hix => (h.inStep name t hget index ix hix).nodup
  · exact fun name t hget index ix hix => (h.inStep name t hget index ix hix).mem
  · exact fun name t hget index ix hix pred col hcols hcol heq hval lo hi =>
      indexMatches_perm (h.inStep name t hget index ix hix) hcols hcol heq hval lo hi

/-- A table with an index on its second column, and two rows in it. -/
def indexedRows : List Step :=
  let t := ascii "t"
  let k := ascii "k"
  let v := ascii "v"
  [.call (.createTable t [⟨k, .int, true⟩, ⟨v, .int, false⟩] [k] .table 0),
    .call (.createIndex t (ascii "byV") [v] false),
    .call (.batchInsert t [[(k, Sql.intValue 1), (v, Sql.intValue 10)],
      [(k, Sql.intValue 2), (v, Sql.intValue 20)]]),
    .commit]

/-- A written row names every indexed column. -/
def namesIndexed (b : Batch) (table : Bytes) (row : List (Bytes × Value)) : Bool :=
  let vals : Vals := .ofList (row.map fun w => (w.1, fromSQLValue w.2))
  (b.tables.get table).all fun t => t.indexes.entries.all fun e => e.2.cols.all fun i =>
    (t.cols[i]?).all fun c : ColInfo => (vals c.name).isSome

theorem fits_batchInsert {b : Batch} {table : Bytes} {rows : List (List (Bytes × Value))}
    (h : ∀ row ∈ rows, namesIndexed b table row = true) :
    (Call.batchInsert table rows).Fits b := by
  intro t ht row hrow
  apply indexedUnder_encodeRowCells
  intro name ix hix i hi c hc
  have hnames := h row hrow
  rw [namesIndexed, ht, Option.all_some, List.all_eq_true] at hnames
  have hcol := List.all_eq_true.mp (hnames (name, ix) (SortedMap.get_eq_some.mp hix)) i hi
  rwa [hc, Option.all_some] at hcol

theorem fits_createIndex_of_empty {b : Batch} {table : Bytes} (index : Bytes) (cols : List Bytes)
    (ifNotExists : Bool)
    (h : (b.tables.get table).all (fun t => ((b.tx table t).rowEach t.engine).isEmpty) = true) :
    (Call.createIndex table index cols ifNotExists).Fits b := by
  intro t ht
  rw [ht, Option.all_some, List.isEmpty_iff] at h
  rw [h]
  exact List.nodup_nil

end Ydbgo.Storage
