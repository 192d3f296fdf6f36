import Ydbgo.Storage.Buffered

/-! # The rows of a table

A row that the storage wrote in full is kept under the encoding of its key
columns, and reading its values and writing them again changes nothing.
-/

namespace Ydbgo.Storage

open Sql (Value SqlType Stdlib PKRange TableSchema)

/-! ### Values -/

/-- Reading the value and storing it again gives the same. -/
def Normal (v : SqlValue) : Prop := ∀ lib, fromSQLValue (toSQLValue lib v) = v

/-- A value that is not marked as missing, and whose NULL has no type. -/
structure Proper (v : Value) : Prop where
  notMissing : v.missing = false
  untyped : v.null = true → v.type = .null

theorem unixMicro_unixMicroTime (lib : Stdlib) (i : Int64) :
    unixMicro (unixMicroTime lib i) = i := by
  rw [unixMicro, unixMicroTime, Int.mul_ediv_cancel _ (by decide)]
  exact Int64.ofInt_toInt i

theorem proper_toSQLValue (lib : Stdlib) (v : SqlValue) : Proper (toSQLValue lib v) := by
  unfold toSQLValue
  split
  · exact ⟨rfl, fun _ => rfl⟩
  · split <;> exact ⟨rfl, nofun⟩

theorem missing_fromSQLValue {v : Value} (h : Proper v) : (fromSQLValue v).missing = false := by
  unfold fromSQLValue
  rw [h.notMissing]
  split
  · contradiction
  · split <;> (try split) <;> rfl

theorem normal_fromSQLValue {v : Value} (h : Proper v) : Normal (fromSQLValue v) := by
  intro lib
  obtain ⟨type, null, int, flt, str, bool, tm, missing⟩ := v
  obtain rfl : missing = false := h.notMissing
  cases null with
  | true =>
    obtain rfl : type = .null := h.untyped rfl
    rfl
  | false =>
    cases type with
    | timestamp =>
      have hi := unixMicro_unixMicroTime lib (unixMicro tm)
      exact congrArg (fun i => ({ typ := .timestamp, i := i } : SqlValue)) hi
    | _ => rfl

theorem Normal.missing {v : SqlValue} (h : Normal v) : v.missing = false := by
  have hv := h .plain
  rw [← hv]
  exact missing_fromSQLValue (proper_toSQLValue _ v)

/-- The value that the storage keeps of a value. -/
theorem encodeVariant_fromSQLValue {v : Value} (h : Proper v) :
    encodeVariant (fromSQLValue v) = some (fromSQLValue v) := by
  rw [encodeVariant, ← missing_fromSQLValue h]

theorem encodeVariant_normal {v : SqlValue} (h : Normal v) : encodeVariant v = some v := by
  rw [encodeVariant, ← h.missing]

/-! ### Rows -/

/-- The cells of a row that was written in full. -/
structure GoodRow (t : Table) (key : Bytes) (cells : List Cell) : Prop where
  length : cells.length = t.cols.length
  normal : ∀ c ∈ cells, ∃ v, c = some v ∧ Normal v
  key : key = encodeKey (t.pk.map fun p => variant cells[p]?.join)

/-- The columns have different names, and some of them are the key. -/
structure GoodTable (t : Table) : Prop where
  names : (t.cols.map ColInfo.name).Nodup
  keyed : t.pk ≠ []
  inside : ∀ p ∈ t.pk, p < t.cols.length

def GoodRows (t : Table) (tx : TableTx) : Prop :=
  ∀ key cells, tx.view.get key = some cells → GoodRow t key cells

theorem GoodRow.withIndexes {t : Table} {key : Bytes} {cells : List Cell}
    (h : GoodRow t key cells) (ixs : SortedMap Bytes Index) :
    GoodRow { t with indexes := ixs } key cells := ⟨h.length, h.normal, h.key⟩

theorem GoodTable.withIndexes {t : Table} (h : GoodTable t) (ixs : SortedMap Bytes Index) :
    GoodTable { t with indexes := ixs } := ⟨h.names, h.keyed, h.inside⟩

/-- The values of a row of cells. -/
def cellValues (lib : Stdlib) (cells : List Cell) : List Value :=
  cells.map fun c => toSQLValue lib (variant c)

/-- The rows of which no cell is missing. -/
def TableTx.rows (lib : Stdlib) (tx : TableTx) : SortedMap Bytes (List Value) :=
  (tx.view.filter fun _ cells => cells.all Option.isSome).map (cellValues lib)

section Rows

variable {t : Table} {key : Bytes} {cells : List Cell}

theorem GoodRow.isSome (h : GoodRow t key cells) {c : Cell} (hc : c ∈ cells) : c.isSome := by
  obtain ⟨v, rfl, -⟩ := h.normal c hc
  rfl

theorem GoodRow.all (h : GoodRow t key cells) : cells.all Option.isSome = true :=
  List.all_eq_true.mpr fun _ => h.isSome

theorem decodeCells_eq (h : ∀ c ∈ cells, c.isSome) :
    decodeCells cells = some (cells.map variant) := by
  unfold decodeCells
  induction cells with
  | nil => rfl
  | cons c cells ih =>
    obtain ⟨v, rfl⟩ := Option.isSome_iff_exists.mp (h c List.mem_cons_self)
    have ih := ih fun c' hc' => h c' (List.mem_cons_of_mem _ hc')
    rw [List.mapM_cons, ih]
    rfl

theorem rows_get (lib : Stdlib) (tx : TableTx) (key : Bytes) :
    (tx.rows lib).get key =
      ((tx.view.get key).filter fun cells => cells.all Option.isSome).map (cellValues lib) := by
  rw [TableTx.rows, SortedMap.get_map, SortedMap.get_filter]

theorem rows_get_of_good {lib : Stdlib} {tx : TableTx} (h : GoodRows t tx) (key : Bytes) :
    (tx.rows lib).get key = (tx.view.get key).map (cellValues lib) := by
  rw [rows_get]
  cases hv : tx.view.get key with
  | none => rfl
  | some cells => rw [Option.filter_some, if_pos (h key cells hv).all]

/-- A row is read as it was written. -/
theorem get_of_good (kind : EngineKind) {tx : TableTx} (hv : tx.view.get key = some cells)
    (h : GoodRow t key cells) : tx.get kind key = some cells := by
  cases kind with
  | cstore =>
    rw [TableTx.get, hv, Option.filter_some, if_pos h.all]
  | _ => exact hv

theorem get_of_none (kind : EngineKind) {tx : TableTx} (hv : tx.view.get key = none) :
    tx.get kind key = none := by
  cases kind with
  | cstore => rw [TableTx.get, hv, Option.filter_none]
  | _ => exact hv

/-- A row read into a map gives each column its value. -/
theorem decodeRow_good (ht : GoodTable t) (h : GoodRow t key cells) :
    ∃ vals, t.decodeRow (some cells) = some vals ∧
      ∀ (i : ℕ) (c : ColInfo), t.cols[i]? = some c →
        vals c.name = some (variant cells[i]?.join) := by
  refine ⟨_, by rw [Table.decodeRow, Option.bind_some, decodeCells_eq fun _ => h.isSome]; rfl, ?_⟩
  intro i c hc
  have hi : i < cells.length := by
    rw [h.length]
    exact (List.getElem?_eq_some_iff.mp hc).1
  have hcell : cells[i]? = some cells[i] := List.getElem?_eq_getElem hi
  refine SortedMap.getEntry_zip ht.names (by rw [List.getElem?_map, hc]; rfl) ?_
  rw [List.getElem?_map, hcell]
  rfl

/-- The key columns by name are the key columns by place. -/
theorem keyNames_map {β : Type} {g : Bytes → β} {f : ℕ → β} (hin : ∀ p ∈ t.pk, p < t.cols.length)
    (h : ∀ p ∈ t.pk, ∀ c : ColInfo, t.cols[p]? = some c → g c.name = f p) :
    t.keyNames.map g = t.pk.map f := by
  unfold Table.keyNames
  generalize t.pk = pk at hin h
  induction pk with
  | nil => rfl
  | cons p pk ih =>
    obtain ⟨hp, hin⟩ := List.forall_mem_cons.mp hin
    obtain ⟨hc, h⟩ := List.forall_mem_cons.mp h
    have hget : t.cols[p]? = some t.cols[p] := List.getElem?_eq_getElem hp
    rw [List.filterMap_cons, hget, Option.map_some]
    simp only [List.map_cons, hc _ hget, ih hin h]

theorem schemaKey_eq {vals : Vals} {f : ℕ → SqlValue} (hin : ∀ p ∈ t.pk, p < t.cols.length)
    (h : ∀ p ∈ t.pk, ∀ c : ColInfo, t.cols[p]? = some c → vals c.name = some (f p)) :
    t.schemaKey vals = encodeKey (t.pk.map f) := by
  rw [Table.schemaKey, keyNames_map hin fun p hp c hc => ?_]
  rw [Vals.cell, h p hp c hc]
  rfl

/-- Every column has a value. -/
theorem GoodRow.getElem? (h : GoodRow t key cells) {i : ℕ} (hi : i < t.cols.length) :
    ∃ v, cells[i]? = some (some v) ∧ Normal v := by
  obtain ⟨v, hv, hn⟩ := h.normal _ (List.getElem_mem (h.length ▸ hi))
  exact ⟨v, by rw [List.getElem?_eq_getElem (h.length ▸ hi), hv], hn⟩

end Rows

end Ydbgo.Storage
