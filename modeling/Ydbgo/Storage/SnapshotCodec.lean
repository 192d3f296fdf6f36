import Ydbgo.Storage.IndexRuns
import Ydbgo.Storage.Snapshot

/-! # The records of a snapshot

Each record is read back as what it was written from. Since a frame holds less than 2³² bytes, so
do the names, the keys and the lists in its record.
-/

namespace Ydbgo.Storage

open Cursor (manyParser)
open Codec (builderStr builderLen recCreateTable recMutate)

/-! ### Lengths -/

theorem appendVar_ne_nil (v : Int64) : appendVar v ≠ [] := by
  unfold appendVar putUvarint putUvarintFrom
  split
  · exact List.cons_ne_nil _ _
  · exact List.cons_ne_nil _ _

theorem length_builderStr (s : Bytes) : s.length ≤ (builderStr s).length := by
  rw [builderStr, List.length_append]
  omega

theorem builderStr_ne_nil (s : Bytes) : builderStr s ≠ [] :=
  List.append_ne_nil_of_left_ne_nil (appendVar_ne_nil _) s

section

variable {α : Type} {f : α → Bytes}

theorem length_le_flatMap (h : ∀ a, f a ≠ []) (as : List α) : as.length ≤ (as.flatMap f).length := by
  induction as with
  | nil => exact Nat.zero_le _
  | cons a as ih =>
    have ha := List.length_pos_iff.mpr (h a)
    rw [List.flatMap_cons, List.length_append, List.length_cons]
    omega

theorem length_le_flatMap_of_mem {a : α} {as : List α} (h : a ∈ as) :
    (f a).length ≤ (as.flatMap f).length := by
  obtain ⟨_, _, rfl⟩ := List.append_of_mem h
  simp only [List.flatMap_append, List.flatMap_cons, List.length_append]
  omega

end

/-! ### Maps -/

section

variable {ν : Type}

theorem get_fillMap (es : List (Bytes × ν)) (k : Bytes) :
    (fillMap es).get k = SortedMap.getEntry k es.reverse := by
  rw [fillMap, SortedMap.get_foldl_insert, SortedMap.get_empty, Option.or_none]

theorem fillMap_entries (m : SortedMap Bytes ν) : fillMap m.entries = m := by
  apply SortedMap.ext_get
  intro k
  rw [get_fillMap, SortedMap.getEntry_reverse (m.ascending.imp fun h => h.ne)]
  rfl

end

/-! ### Readers -/

theorem readsBack_nat {n : ℕ} (h : n < 2 ^ 63) : ReadsBack readNat (appendVar (.ofNat n)) n := by
  let body (v : Int64) : RowReader ℕ := if 0 ≤ v.toInt then return v.toInt.toNat else failure
  have hbody : ReadsBack (body (.ofNat n)) [] n := by
    simp only [body, toInt_ofNat_length h, Int.natCast_nonneg, if_true, Int.toNat_natCast]
    exact readsBack_pure n
  have hnat : ReadsBack readNat _ n := (readsBack_var (.ofNat n)).bind (f := body) hbody
  rwa [List.append_nil] at hnat

theorem readsBack_nats {ns : List ℕ} (hlen : ns.length < 2 ^ 63) (h : ∀ n ∈ ns, n < 2 ^ 63) :
    ReadsBack readNats (Codec.appendInts (ns.map Int64.ofNat)) ns := by
  have hns := Codec.readsBack_manyParser fun n hn => readsBack_nat (h n hn)
  rw [List.map_id'] at hns
  rw [Codec.appendInts, List.length_map, List.flatMap_map]
  apply (readsBack_var _).bind
  rwa [toInt_ofNat_length hlen, Int.toNat_natCast]

def columnBytes (c : ColInfo) : Bytes := Codec.appendColumn ⟨c.name, c.typ.toByte, c.notNull⟩

theorem length_columnBytes (c : ColInfo) : c.name.length ≤ (columnBytes c).length := by
  have h := length_builderStr c.name
  simp only [columnBytes, Codec.appendColumn, List.length_append]
  omega

theorem columnBytes_ne_nil (c : ColInfo) : columnBytes c ≠ [] :=
  List.append_ne_nil_of_left_ne_nil (builderStr_ne_nil c.name) _

/-- What is left of a column once its fields are read. -/
def colInfo (name : Bytes) (typ : UInt8) (notNull : Bool) : RowReader ColInfo :=
  match ColType.ofByte typ with
  | none => failure
  | some typ => return ⟨name, typ, notNull⟩

theorem readsBack_colInfo {c : ColInfo} (h : c.name.length < 2 ^ 63) :
    ReadsBack readColInfo (columnBytes c) c := by
  have hend : ReadsBack (colInfo c.name c.typ.toByte c.notNull) [] c := by
    simp only [colInfo, ofByte_toByte]
    exact readsBack_pure c
  have hcol : ReadsBack readColInfo _ c := (Codec.readsBack_builderStr h).bind
    (f := fun name => readByte >>= fun typ => readBool >>= colInfo name typ)
    ((readsBack_byte c.typ.toByte).bind (f := fun typ => readBool >>= colInfo c.name typ)
      ((readsBack_bool c.notNull).bind hend))
  rwa [List.append_nil] at hcol

def indexBytes (e : Bytes × Index) : Bytes :=
  builderStr e.1 ++ Codec.appendInts (e.2.cols.map Int64.ofNat)

theorem length_appendInts (ns : List ℕ) :
    ns.length ≤ (Codec.appendInts (ns.map Int64.ofNat)).length := by
  have hle := length_le_flatMap appendVar_ne_nil (ns.map Int64.ofNat)
  simp only [Codec.appendInts, List.length_append, List.length_map] at hle ⊢
  omega

theorem indexBytes_ne_nil (e : Bytes × Index) : indexBytes e ≠ [] :=
  List.append_ne_nil_of_left_ne_nil (builderStr_ne_nil e.1) _

theorem readsBack_index {e : Bytes × Index} (hlen : (indexBytes e).length < 2 ^ 32)
    (h : ∀ n ∈ e.2.cols, n < 2 ^ 63) : ReadsBack readIndex (indexBytes e) (e.1, e.2.cols) := by
  have hname := length_builderStr e.1
  have hcols := length_appendInts e.2.cols
  simp only [indexBytes, List.length_append] at hlen
  exact (Codec.readsBack_builderStr (by omega)).bind ((readsBack_nats (by omega) h).map _)

def valueBytes (e : Bytes × SqlValue) : Bytes := builderStr e.1 ++ appendVariant e.2

theorem valueBytes_ne_nil (e : Bytes × SqlValue) : valueBytes e ≠ [] :=
  List.append_ne_nil_of_left_ne_nil (builderStr_ne_nil e.1) _

theorem readsBack_value {e : Bytes × SqlValue} (hlen : (valueBytes e).length < 2 ^ 32)
    (h : e.2.Plain) : ReadsBack readValue (valueBytes e) e := by
  have hname := length_builderStr e.1
  simp only [valueBytes, List.length_append] at hlen
  exact (Codec.readsBack_builderStr (by omega)).bind ((readsBack_variant h).map _)

/-! ### Records -/

section

variable {name key value : Bytes} {t : Table}

/-- The numbers of columns in a definition are `int`s. -/
structure Table.Numbered (t : Table) : Prop where
  pk : ∀ n ∈ t.pk, n < 2 ^ 63
  indexes : ∀ ix ∈ t.indexes.entries, ∀ n ∈ ix.2.cols, n < 2 ^ 63

theorem encodeTable_eq (name : Bytes) (t : Table) :
    encodeTable name t = [recCreateTable] ++ (builderStr name ++ (builderStr t.engine.name ++
      (builderLen t.cols.length ++ (t.cols.flatMap columnBytes ++
        (Codec.appendInts (t.pk.map Int64.ofNat) ++ (builderLen t.indexes.entries.length ++
          (t.indexes.entries.flatMap indexBytes ++ appendVar t.retention))))))) := by
  simp only [encodeTable, Codec.encodeCreateTable, Table.record, List.length_map,
    List.flatMap_map]
  rfl

theorem encodeTable_ne_nil (name : Bytes) (t : Table) : encodeTable name t ≠ [] := by
  rw [encodeTable_eq]
  exact List.append_ne_nil_of_left_ne_nil (List.cons_ne_nil _ _) _

/-- What is left of a definition once its columns and indexes are read. -/
def tableEnd (name engine : Bytes) (cols : List ColInfo) (pk : List ℕ)
    (indexes : List (Bytes × List ℕ)) : RowReader Record := do
  let retention ← readVar
  return .createTable name engine cols pk (fillMap indexes) retention

theorem readsBack_table (h : t.Numbered) (hlen : (encodeTable name t).length < 2 ^ 32) :
    ReadsBack readRecord (encodeTable name t)
      (.createTable name t.engine.name t.cols t.pk (t.indexes.map Index.cols) t.retention) := by
  rw [encodeTable_eq] at hlen ⊢
  simp only [List.length_append] at hlen
  have hname := length_builderStr name
  have hengine := length_builderStr t.engine.name
  have hcols := length_le_flatMap columnBytes_ne_nil t.cols
  have hpk := length_appendInts t.pk
  have hcount := length_le_flatMap indexBytes_ne_nil t.indexes.entries
  have hcolumns : ∀ c ∈ t.cols, ReadsBack readColInfo (columnBytes c) c := by
    intro c hc
    have hmem := length_le_flatMap_of_mem (f := columnBytes) hc
    have hcol := length_columnBytes c
    exact readsBack_colInfo (by omega)
  have hindexes : ∀ e ∈ t.indexes.entries, ReadsBack readIndex (indexBytes e) (e.1, e.2.cols) := by
    intro e he
    have hmem := length_le_flatMap_of_mem (f := indexBytes) he
    exact readsBack_index (by omega) (h.indexes e he)
  have hend : ReadsBack (tableEnd name t.engine.name t.cols t.pk (t.indexes.map Index.cols).entries)
      (appendVar t.retention)
      (.createTable name t.engine.name t.cols t.pk (t.indexes.map Index.cols) t.retention) := by
    have hmap := (readsBack_var t.retention).map fun retention => Record.createTable name
      t.engine.name t.cols t.pk (fillMap (t.indexes.map Index.cols).entries) retention
    rw [fillMap_entries] at hmap
    rw [tableEnd, fillMap_entries]
    exact hmap
  have hlist := Codec.ReadsBack.counted (k := tableEnd name t.engine.name t.cols t.pk)
    (g := fun e : Bytes × Index => (e.1, e.2.cols)) (by omega) hindexes hend
  have hmiddle := Codec.ReadsBack.counted (g := fun c : ColInfo => c)
    (k := fun cols => readNats >>= fun pk => readVar >>= fun ni =>
      manyParser readIndex ni.toInt.toNat >>= tableEnd name t.engine.name cols pk)
    (by omega) hcolumns (by
      rw [List.map_id']
      exact (readsBack_nats (by omega) h.pk).bind hlist)
  exact (readsBack_byte recCreateTable).bind ((Codec.readsBack_builderStr (by omega)).bind
    ((Codec.readsBack_builderStr (by omega)).bind hmiddle))

theorem encodeMutate_eq (table key : Bytes) (values : SortedMap Bytes SqlValue) :
    Codec.encodeMutate table key values = [recMutate] ++ (builderStr table ++ ([0] ++
      (builderStr key ++ (builderLen values.entries.length ++
        (values.entries.flatMap valueBytes ++ []))))) := by
  rw [List.append_nil]
  rfl

theorem encodeMutate_ne_nil (table key : Bytes) (values : SortedMap Bytes SqlValue) :
    Codec.encodeMutate table key values ≠ [] :=
  List.append_ne_nil_of_left_ne_nil (List.cons_ne_nil _ _) _

theorem readsBack_mutation {values : SortedMap Bytes SqlValue}
    (hplain : ∀ e ∈ values.entries, e.2.Plain)
    (hlen : (Codec.encodeMutate name key values).length < 2 ^ 32) :
    ReadsBack readRecord (Codec.encodeMutate name key values) (.mutate name key values true) := by
  rw [encodeMutate_eq] at hlen ⊢
  simp only [List.length_append] at hlen
  have hname := length_builderStr name
  have hkey := length_builderStr key
  have hcount := length_le_flatMap valueBytes_ne_nil values.entries
  have hvalues : ∀ e ∈ values.entries, ReadsBack readValue (valueBytes e) e := by
    intro e he
    have hmem := length_le_flatMap_of_mem (f := valueBytes) he
    exact readsBack_value (by omega) (hplain e he)
  have hcounted := Codec.ReadsBack.counted (g := fun e : Bytes × SqlValue => e)
    (k := fun es => pure (Record.mutate name key (fillMap es) true)) (by omega) hvalues (by
      rw [List.map_id', fillMap_entries]
      exact readsBack_pure _)
  exact (readsBack_byte recMutate).bind ((Codec.readsBack_builderStr (by omega)).bind
    ((readsBack_byte 0).bind ((Codec.readsBack_builderStr (by omega)).bind hcounted)))

theorem encodeKVData_ne_nil (table key value : Bytes) : encodeKVData table key value ≠ [] :=
  List.append_ne_nil_of_left_ne_nil (List.cons_ne_nil _ _) _

theorem readsBack_kvData (hlen : (encodeKVData name key value).length < 2 ^ 32) :
    ReadsBack readRecord (encodeKVData name key value) (.kvData name key value) := by
  have htable := length_builderStr name
  have hkey := length_builderStr key
  have hvalue := length_builderStr value
  simp only [encodeKVData, List.length_append] at hlen
  have hread : ReadsBack readKVData (builderStr name ++ (builderStr key ++ builderStr value))
      (.kvData name key value) := (Codec.readsBack_builderStr (by omega)).bind
    ((Codec.readsBack_builderStr (by omega)).bind ((Codec.readsBack_builderStr (by omega)).map _))
  exact (readsBack_byte recKVData).bind hread

end

/-! ### Rows -/

/-- A row of the table as `encodeRow` writes it. -/
def Table.Writes (t : Table) (cells : List Cell) : Prop :=
  ∃ vals, Codec.PlainRow t vals ∧ cells = t.encodeRowCells vals

theorem SqlValue.Plain.missing {v : SqlValue} (h : v.Plain) : v.missing = false := by
  rw [h.only]
  cases v.typ <;> rfl

theorem getEntry_names {α : Type} (names : List Bytes) (g : Bytes → α) (k : Bytes) :
    SortedMap.getEntry k (names.map fun n => (n, g n)) = if k ∈ names then some (g k) else none := by
  induction names with
  | nil => rfl
  | cons name names ih =>
    rw [List.map_cons, SortedMap.getEntry_cons, ih]
    by_cases hk : name = k
    · subst hk
      simp only [if_true, List.mem_cons_self]
    · simp only [hk, if_false, List.mem_cons, Ne.symm hk, false_or]

section

variable {t : Table} {cells : List Cell}

theorem Table.Writes.isSome (h : t.Writes cells) : ∀ c ∈ cells, c.isSome := by
  rintro c hc
  obtain ⟨vals, -, rfl⟩ := h
  obtain ⟨_, -, rfl⟩ := List.mem_map.mp hc
  rfl

theorem Table.Writes.decodes (h : t.Writes cells) : (t.decodeRow (some cells)).isSome := by
  rw [Table.decodeRow, Option.bind_some, decodeCells_eq h.isSome]
  rfl

/-- A row is written again from the map that was read. -/
theorem Table.Writes.rowMap (h : t.Writes cells) :
    ∃ m, t.rowMap (some cells) = some m ∧ (∀ e ∈ m.entries, e.2.Plain) ∧
      t.encodeRowCells m.get = cells := by
  obtain ⟨vals, hplain, rfl⟩ := h
  have hcells : t.encodeRowCells vals = (t.cols.map ColInfo.name).map fun n => some (vals.cell n) := by
    rw [Table.encodeRowCells, List.map_map]
    apply List.map_congr_left
    intro c hc
    have hmissing := (hplain c hc).missing
    rw [encodeVariant, ← hmissing]
    rfl
  have hdecode : decodeCells (t.encodeRowCells vals) =
      some ((t.cols.map ColInfo.name).map vals.cell) := by
    rw [hcells, decodeCells_eq (by simp), List.map_map]
    rfl
  let m := fillMap ((t.cols.map ColInfo.name).map fun n => (n, vals.cell n))
  have hget (k : Bytes) :
      m.get k = if k ∈ t.cols.map ColInfo.name then some (vals.cell k) else none := by
    rw [get_fillMap, ← List.map_reverse, getEntry_names]
    simp only [List.mem_reverse]
  refine ⟨m, ?_, ?_, ?_⟩
  · rw [Table.rowMap, Option.bind_some, hdecode, Option.map_some, ← List.map_prod_left_eq_zip]
    rfl
  · rintro ⟨k, v⟩ he
    have hk := SortedMap.get_eq_some.mpr he
    rw [hget] at hk
    split at hk
    · rename_i hmem
      obtain ⟨c, hc, rfl⟩ := List.mem_map.mp hmem
      cases hk
      exact hplain c hc
    · cases hk
  · apply List.map_congr_left
    intro c hc
    rw [Vals.cell, hget, if_pos (List.mem_map_of_mem hc)]
    rfl

end

end Ydbgo.Storage
