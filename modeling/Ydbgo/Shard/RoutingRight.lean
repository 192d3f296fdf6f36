import Ydbgo.Shard.Routing
import Ydbgo.Sql.InsertRight

/-! # Routing keys and stored keys

The key of the router and the key of the engine are made column by column. They
agree exactly where every key column is named once, has a value if it is a
timestamp, and has an expression whose value stays what it was.
-/

namespace Ydbgo.Shard

open Sql Storage

/-! ### Columns by their names -/

section Names

variable {α : Type} {names : List Bytes} {p : Bytes}

theorem mem_positions {i : ℕ} : i ∈ positions names p ↔ names[i]? = some p := by
  simp only [positions, List.mem_filter, List.mem_range, decide_eq_true_eq]
  constructor
  · rintro ⟨-, h⟩
    exact h
  · intro h
    exact ⟨(List.getElem?_eq_some_iff.mp h).1, h⟩

theorem length_positions : (positions names p).length = names.count p := by
  induction names using List.reverseRecOn with
  | nil => rfl
  | append_singleton names a ih =>
    have hold : (List.range names.length).filter (fun i => (names ++ [a])[i]? = some p) =
        positions names p := by
      refine List.filter_congr fun i hi => ?_
      rw [List.getElem?_append_left (List.mem_range.mp hi)]
    rw [positions, List.length_append, List.length_singleton, List.range_succ, List.filter_append,
      hold, List.length_append, ih, List.count_append]
    by_cases h : a = p <;> simp [h]

/-- A name that is there once has one position. -/
theorem positions_of_count (h : names.count p = 1) :
    ∃ i, positions names p = [i] ∧ names[i]? = some p := by
  obtain ⟨i, hi⟩ := List.length_eq_one_iff.mp (length_positions.trans h)
  exact ⟨i, hi, mem_positions.mp (hi ▸ List.mem_singleton_self i)⟩

theorem eq_of_count_eq_one {i j : ℕ} (h : names.count p = 1) (hi : names[i]? = some p)
    (hj : names[j]? = some p) : i = j := by
  obtain ⟨k, hk, -⟩ := positions_of_count h
  have hik := mem_positions.mpr hi
  have hjk := mem_positions.mpr hj
  rw [hk, List.mem_singleton] at hik hjk
  exact hik.trans hjk.symm

theorem getEntry_of_unique {l : List (Bytes × α)} {v : α} (hmem : (p, v) ∈ l)
    (h : ∀ w, (p, w) ∈ l → w = v) : SortedMap.getEntry p l = some v := by
  unfold SortedMap.getEntry
  generalize hf : l.find? _ = found
  cases found with
  | none =>
    have := List.find?_eq_none.mp hf _ hmem
    simp at this
  | some e =>
    have hk : e.1 = p := by simpa using List.find?_some hf
    have he := List.mem_of_find?_eq_some hf
    rw [Option.map_some, h e.2 (by rwa [← hk])]

/-- In lists of one length every element has a partner. -/
theorem exists_zip_right {β : Type} {as : List α} {bs : List β} (h : as.length = bs.length) {b : β}
    (hb : b ∈ bs) : ∃ a, (a, b) ∈ as.zip bs := by
  obtain ⟨i, hi⟩ := List.getElem?_of_mem hb
  have hlt := (List.getElem?_eq_some_iff.mp hi).1
  rw [← h] at hlt
  exact ⟨_, List.mem_of_getElem? (List.getElem?_zip_eq_some.mpr ⟨List.getElem?_eq_getElem hlt, hi⟩)⟩

theorem exists_zip_left {β : Type} {as : List α} {bs : List β} (h : as.length = bs.length) {a : α}
    (ha : a ∈ as) : ∃ b, (a, b) ∈ as.zip bs := by
  obtain ⟨i, hi⟩ := List.getElem?_of_mem ha
  have hlt := (List.getElem?_eq_some_iff.mp hi).1
  rw [h] at hlt
  exact ⟨_, List.mem_of_getElem? (List.getElem?_zip_eq_some.mpr ⟨hi, List.getElem?_eq_getElem hlt⟩)⟩

end Names

section Table

variable {st : CreateTable} {p : Bytes}

/-- The names of the columns. -/
def CreateTable.names (st : CreateTable) : List Bytes :=
  (normalizeSchema st).columns.map ColumnDef.name

theorem names_table : st.table.cols.map ColInfo.name = st.names := by
  rw [CreateTable.table, List.map_map]
  rfl

theorem mem_names_of_pk (h : p ∈ (normalizeSchema st).pk) : p ∈ st.names := by
  obtain ⟨c, hc, rfl⟩ := List.mem_map.mp h
  exact List.mem_map_of_mem (List.mem_of_mem_filter hc)

/-- The type that the storage keeps for a column: that of the parser, or strings where the parser
knew none. -/
def storedType (t : SqlType) : SqlType := toSQLType (fromSQLType t)

theorem column_table (name : Bytes) {i : ℕ} {c : ColumnDef}
    (hc : (normalizeSchema st).columns[i]? = some c) :
    ∃ d, (st.table.schema name).columns[i]? = some d ∧ d.name = c.name ∧
      d.type = storedType c.type := by
  simp only [Table.schema, CreateTable.table, List.getElem?_mapIdx, List.getElem?_map, hc,
    Option.map_some]
  exact ⟨_, rfl, rfl, rfl⟩

theorem insertColumns_table (name : Bytes) (columns : List Bytes) :
    insertColumns (st.table.schema name) columns = insertColumns (normalizeSchema st) columns := by
  rw [insertColumns, insertColumns, schema_names, names_table]
  rfl

/-- The engine names a key column as often as the table has columns of that name. -/
theorem keyNames_table : st.table.keyNames =
    (normalizeSchema st).pk.flatMap fun p => List.replicate (st.names.count p) p := by
  have hone (p : Bytes) : (positions st.names p).filterMap (fun i => (st.table.cols[i]?).map
      ColInfo.name) = List.replicate (st.names.count p) p := by
    have hname : ∀ i ∈ positions st.names p, (st.table.cols[i]?).map ColInfo.name = some p := by
      intro i hi
      rw [← List.getElem?_map, names_table]
      exact mem_positions.mp hi
    rw [← length_positions]
    generalize positions st.names p = is at hname
    induction is with
    | nil => rfl
    | cons i is ih =>
      rw [List.filterMap_cons, hname i List.mem_cons_self,
        ih fun j hj => hname j (List.mem_cons_of_mem _ hj), List.length_cons, List.replicate_succ]
  rw [Table.keyNames]
  change ((normalizeSchema st).pk.flatMap (positions st.names)).filterMap _ = _
  rw [List.filterMap_flatMap]
  exact List.flatMap_congr fun p _ => hone p

/-- Mounting a shard gives its engine the table. -/
theorem tables_createTable {b : Batch} (h : b.tables.get st.name = none) :
    (((createTable st.name st.table.cols (normalizeSchema st).pk
      (EngineKind.ofName (normalizeSchema st).engine) st.retention).exec b).2.tables).get st.name =
        some st.table := by
  have hpk : (normalizeSchema st).pk.flatMap (fun p => (List.range st.table.cols.length).filter
      fun i => (st.table.cols[i]?).map ColInfo.name = some p) = st.table.pk := by
    have hlen : st.table.cols.length = st.names.length := by rw [← names_table, List.length_map]
    simp only [hlen, ← List.getElem?_map, names_table]
    rfl
  rw [createTable, Prog.exec_bind]
  simp only [Prog.exec_get, h, hpk]
  exact (SortedMap.get_insert _ _ _ _).trans (if_pos rfl)

end Table

/-! ### The key of an INSERT row -/

section Insert

theorem gives_collect_iff {α β : Type} {f : α → Eval β} {as : List α} {bs : List β} :
    Gives (collect f as) bs ↔ List.Forall₂ (fun a b => Gives (f a) b) as bs := by
  induction as generalizing bs with
  | nil =>
    rw [List.forall₂_nil_left_iff]
    exact gives_pure.trans eq_comm
  | cons a as ih =>
    rw [gives_collect_cons, List.forall₂_cons_left_iff]
    simp only [ih, exists_and_left]

variable {lib : Stdlib} {c c' : Clock} {st : CreateTable} {name p : Bytes}
  {cols columns : List Bytes} {row : List Expr}

/-- What an expression of a row gives a column of that type. -/
def rowValue (lib : Stdlib) (t : SqlType) (e : Expr) : Eval Value := do
  let v ← check (eval lib (fun _ => none) e)
  check (convert lib v t)

/-- What a key column is given in a row is the same for the key at two readings of the clock: a
timestamp is not left out, and an expression keeps its value, as far as the key shows it. -/
structure CellSteady (lib : Stdlib) (c c' : Clock) (schema : TableSchema) (cols : List Bytes)
    (row : List Expr) (p : Bytes) : Prop where
  given : Sql.colTypeOf schema p = .timestamp → (colIndex cols p).isSome
  steady : ∀ idx e v w, colIndex cols p = some idx → row[idx]? = some e →
    Gives (rowValue (lib.at c) (Sql.colTypeOf schema p) e) v →
    Gives (rowValue (lib.at c') (storedType (Sql.colTypeOf schema p)) e) w → enc v = enc w

/-- The row keeps its key, and no other column has the name of a key column. -/
structure InsertSteady (lib : Stdlib) (c c' : Clock) (st : CreateTable) (cols : List Bytes)
    (row : List Expr) : Prop where
  once : ∀ p ∈ (normalizeSchema st).pk, st.names.count p = 1
  cells : ∀ p ∈ (normalizeSchema st).pk, CellSteady lib c c' (normalizeSchema st) cols row p

/-- No expression of the row gives a string with a zero byte. -/
def NulFreeRow (lib : Stdlib) (c c' : Clock) (row : List Expr) : Prop :=
  ∀ e ∈ row, ∀ t v, Gives (rowValue (lib.at c) t e) v ∨ Gives (rowValue (lib.at c') t e) v →
    0 ∉ v.str

/-- What the router takes for a key column. -/
theorem gives_pkValue_iff {schema : TableSchema} {v : Value} :
    Gives (pkValue lib schema cols row p) v ↔
      (colIndex cols p = none ∧ v = zeroForType lib (Sql.colTypeOf schema p)) ∨
      ∃ idx e, colIndex cols p = some idx ∧ row[idx]? = some e ∧
        Gives (rowValue lib (Sql.colTypeOf schema p) e) v := by
  unfold pkValue rowValue
  cases colIndex cols p with
  | none => simp [eq_comm]
  | some idx => simp [gives_bind, gives_index]

/-- What the executor makes of a column. -/
theorem gives_insertCell_cases {d : ColumnDef} {w : Bytes × Value}
    (h : Gives (insertCell lib cols row d) w) : w.1 = d.name ∧
      ((colIndex cols d.name = none ∧ w.2 = zeroValue d) ∨
      ∃ idx e, colIndex cols d.name = some idx ∧ row[idx]? = some e ∧
        Gives (rowValue lib d.type e) w.2) := by
  refine ⟨(gives_insertCell h).1, ?_⟩
  unfold insertCell at h
  split at h
  · rename_i hidx
    obtain rfl := gives_pure.mp h
    exact .inl ⟨hidx, rfl⟩
  · rename_i idx hidx
    obtain ⟨e, he, h⟩ := gives_bind.mp h
    obtain ⟨v, hv, h⟩ := gives_bind.mp h
    obtain ⟨v', hv', h⟩ := gives_bind.mp h
    have hvalue : Gives (rowValue lib d.type e) v' := gives_bind.mpr ⟨v, hv, hv'⟩
    split at h
    · exact absurd h gives_fail
    · obtain rfl := gives_pure.mp h
      exact .inr ⟨idx, e, hidx, gives_index.mp he, hvalue⟩

/-- The zero of the router and the zero of the executor: only the timestamps differ. -/
theorem enc_zero_iff {d : ColumnDef} {t : SqlType} (h : d.type = storedType t) :
    enc (zeroForType lib t) = enc (zeroValue d) ↔ t ≠ .timestamp := by
  unfold zeroForType zeroValue
  rw [h]
  cases t with
  | timestamp =>
    refine iff_of_false (fun he => ?_) (fun hn => hn rfl)
    exact absurd (List.cons.inj he).1
      (show ColType.timestamp.toByte ≠ ColType.string.toByte by decide)
  | _ => exact iff_of_true rfl nofun

variable {vs : List Value} {ws : List (Bytes × Value)}

theorem gives_insertRow_forall₂ {schema : TableSchema}
    (h : Gives (insertRow lib schema cols row) ws) :
    List.Forall₂ (fun d w => Gives (insertCell lib cols row d) w) schema.columns ws := by
  unfold insertRow at h
  split at h
  · exact absurd h gives_fail
  · exact gives_collect_iff.mp h

/-- A column that no other has the name of. -/
theorem column_of_once (hp : p ∈ (normalizeSchema st).pk) (h : st.names.count p = 1) :
    ∃ (i : ℕ) (d : ColumnDef), (normalizeSchema st).columns[i]? = some d ∧ d.name = p ∧
      Sql.colTypeOf (normalizeSchema st) p = d.type := by
  obtain ⟨d, hd, rfl⟩ := List.mem_map.mp (mem_names_of_pk hp)
  obtain ⟨i, hi⟩ := List.getElem?_of_mem hd
  refine ⟨i, d, hi, rfl, ?_⟩
  have hname {j : ℕ} {f : ColumnDef} (hj : (normalizeSchema st).columns[j]? = some f) :
      st.names[j]? = some f.name := by
    rw [CreateTable.names, List.getElem?_map, hj]
    rfl
  unfold Sql.colTypeOf
  generalize hf : (normalizeSchema st).columns.find? _ = found
  cases found with
  | none =>
    have := List.find?_eq_none.mp hf d hd
    simp at this
  | some f =>
    obtain ⟨j, hj⟩ := List.getElem?_of_mem (List.mem_of_find?_eq_some hf)
    have hfn : f.name = d.name := by simpa using List.find?_some hf
    obtain rfl := eq_of_count_eq_one h (hname hi) (hfn ▸ hname hj)
    rw [hi] at hj
    rw [Option.some.inj hj]

/-- The value of the column in the map that the executor hands to the engine. -/
theorem insertVals_of_once (hp : p ∈ (normalizeSchema st).pk) (h : st.names.count p = 1)
    (hws : Gives (insertRow lib (st.table.schema name) cols row) ws) :
    ∃ (d : ColumnDef) (v : Value), d.name = p ∧
      d.type = storedType (Sql.colTypeOf (normalizeSchema st) p) ∧
      Gives (insertCell lib cols row d) (p, v) ∧ insertVals ws p = some (fromSQLValue v) := by
  obtain ⟨i, d, hi, rfl, hcol⟩ := column_of_once hp h
  obtain ⟨d', hi', hname, htype'⟩ := column_table name hi
  have hnames := (gives_insertRow hws).names
  rw [schema_names, names_table] at hnames
  have hcells := gives_insertRow_forall₂ hws
  obtain ⟨w, hw⟩ : ∃ w, ws[i]? = some w := by
    have hlt := (List.getElem?_eq_some_iff.mp hi').1
    rw [hcells.length_eq] at hlt
    exact ⟨_, List.getElem?_eq_getElem hlt⟩
  have hcell := (List.forall₂_iff_zip.mp hcells).2
    (List.mem_of_getElem? (List.getElem?_zip_eq_some.mpr ⟨hi', hw⟩))
  have hfst : w.1 = d.name := (gives_insertCell_cases hcell).1.trans hname
  have hat {j : ℕ} {u : Bytes × Value} (hu : ws[j]? = some u) : st.names[j]? = some u.1 := by
    rw [← hnames, List.getElem?_map, hu]
    rfl
  have hentry : SortedMap.getEntry d.name ws.reverse = some w.2 := by
    refine getEntry_of_unique ?_ fun v hv => ?_
    · rw [← hfst]
      exact List.mem_reverse.mpr (List.mem_of_getElem? hw)
    · obtain ⟨j, hj⟩ := List.getElem?_of_mem (List.mem_reverse.mp hv)
      obtain rfl := eq_of_count_eq_one h (hfst ▸ hat hw) (hat hj)
      rw [hw] at hj
      rw [Option.some.inj hj]
  refine ⟨d', w.2, hname, hcol.symm ▸ htype', ?_, ?_⟩
  · rwa [← hfst]
  · rw [insertVals, ofList_map, hentry]
    rfl

/-- The two parts of a key that one column gives. -/
theorem enc_cell_iff {d : ColumnDef} {v w : Value} (hname : d.name = p)
    (hcol : d.type = storedType (Sql.colTypeOf (normalizeSchema st) p))
    (hv : Gives (pkValue (lib.at c) (normalizeSchema st) cols row p) v)
    (hw : Gives (insertCell (lib.at c') cols row d) (p, w)) :
    enc v = enc w ↔ CellSteady lib c c' (normalizeSchema st) cols row p := by
  subst hname
  rcases gives_pkValue_iff.mp hv with ⟨hnone, rfl⟩ | ⟨idx, e, hidx, he, hv⟩
  · obtain ⟨-, ⟨-, rfl⟩ | ⟨idx, e, hidx, -⟩⟩ := gives_insertCell_cases hw
    · rw [enc_zero_iff hcol]
      constructor
      · intro hne
        exact ⟨fun ht => absurd ht hne, fun idx e v w hidx => by
          rw [hnone] at hidx
          cases hidx⟩
      · rintro ⟨hgiven, -⟩ ht
        have := hgiven ht
        rw [hnone] at this
        cases this
    · rw [hnone] at hidx
      cases hidx
  · obtain ⟨-, ⟨hnone, -⟩ | ⟨idx', e', hidx', he', hw⟩⟩ := gives_insertCell_cases hw
    · rw [hnone] at hidx
      cases hidx
    · obtain rfl := Option.some.inj (hidx.symm.trans hidx')
      obtain rfl := Option.some.inj (he.symm.trans he')
      rw [hcol] at hw
      constructor
      · intro heq
        refine ⟨fun _ => by rw [hidx]; rfl, fun idx₂ e₂ v₂ w₂ hi hr hv₂ hw₂ => ?_⟩
        obtain rfl := Option.some.inj (hidx.symm.trans hi)
        obtain rfl := Option.some.inj (he.symm.trans hr)
        rwa [gives_unique hv₂ hv, gives_unique hw₂ hw]
      · rintro ⟨-, hsteady⟩
        exact hsteady idx e v w hidx he hv hw

theorem keyNames_of_once (h : ∀ p ∈ (normalizeSchema st).pk, st.names.count p = 1) :
    st.table.keyNames = (normalizeSchema st).pk := by
  rw [keyNames_table]
  have hone : ∀ p ∈ (normalizeSchema st).pk, List.replicate (st.names.count p) p = [p] := by
    intro p hp
    rw [h p hp]
    rfl
  rw [List.flatMap_congr hone, List.flatMap_singleton']

/-- Numbers from one on whose sum is their number are all one. -/
theorem eq_one_of_sum_eq {α : Type} {f : α → ℕ} {as : List α} (h : ∀ a ∈ as, 1 ≤ f a) :
    as.length ≤ (as.map f).sum ∧ ((as.map f).sum = as.length → ∀ a ∈ as, f a = 1) := by
  induction as with
  | nil => exact ⟨le_rfl, fun _ => nofun⟩
  | cons a as ih =>
    obtain ⟨ha, has⟩ := List.forall_mem_cons.mp h
    obtain ⟨hle, hone⟩ := ih has
    rw [List.map_cons, List.sum_cons, List.length_cons]
    constructor
    · omega
    · intro hsum
      exact List.forall_mem_cons.mpr ⟨by omega, hone (by omega)⟩

/-- An engine's key with as many parts as the router's has no column twice. -/
theorem once_of_length (h : st.table.keyNames.length = (normalizeSchema st).pk.length) :
    ∀ p ∈ (normalizeSchema st).pk, st.names.count p = 1 := by
  have hpos : ∀ p ∈ (normalizeSchema st).pk, 1 ≤ st.names.count p := fun p hp =>
    List.count_pos_iff.mpr (mem_names_of_pk hp)
  apply (eq_one_of_sum_eq hpos).2
  rw [← h, keyNames_table, List.length_flatMap]
  simp only [List.length_replicate]

theorem nul_fromSQLValue {v : Value} (h : 0 ∉ v.str) : 0 ∉ (fromSQLValue v).s := by
  unfold fromSQLValue
  repeat' split
  all_goals first | exact h | exact List.not_mem_nil

theorem nul_pkValue (h : NulFreeRow lib c c' row) {schema : TableSchema} {v : Value}
    (hv : Gives (pkValue (lib.at c) schema cols row p) v) : 0 ∉ v.str := by
  rcases gives_pkValue_iff.mp hv with ⟨-, rfl⟩ | ⟨idx, e, -, he, hv⟩
  · unfold zeroForType
    split <;> exact List.not_mem_nil
  · exact h e (List.mem_of_getElem? he) _ v (.inl hv)

theorem nul_insertCell (h : NulFreeRow lib c c' row) {d : ColumnDef} {w : Bytes × Value}
    (hw : Gives (insertCell (lib.at c') cols row d) w) : 0 ∉ w.2.str := by
  obtain ⟨-, ⟨-, hz⟩ | ⟨idx, e, -, he, hv⟩⟩ := gives_insertCell_cases hw
  · rw [hz]
    unfold zeroValue
    split <;> exact List.not_mem_nil
  · exact h e (List.mem_of_getElem? he) _ w.2 (.inr hv)

theorem nul_insertVals (h : NulFreeRow lib c c' row) {schema : TableSchema}
    (hws : Gives (insertRow (lib.at c') schema cols row) ws) (n : Bytes) :
    0 ∉ ((insertVals ws).cell n).s := by
  rw [Vals.cell, insertVals, ofList_map]
  cases he : SortedMap.getEntry n ws.reverse with
  | none => exact List.not_mem_nil
  | some v =>
    obtain ⟨d, hd⟩ := exists_zip_right (gives_insertRow_forall₂ hws).length_eq (getEntry_mem he)
    exact nul_fromSQLValue (nul_insertCell h ((List.forall₂_iff_zip.mp
      (gives_insertRow_forall₂ hws)).2 hd))

/-- The router's key is the key under which the engine stores the row, if the row keeps its key; and
only then where no string of the row has a zero byte. -/
theorem insert_key {k : Bytes}
    (hk : Gives (pkKeyForRow (lib.at c) (normalizeSchema st) columns row) k)
    (hws : Gives (insertRow (lib.at c') (st.table.schema name)
      (insertColumns (st.table.schema name) columns) row) ws) :
    (InsertSteady lib c c' st (insertColumns (normalizeSchema st) columns) row →
      k = st.table.schemaKey (insertVals ws)) ∧
    (NulFreeRow lib c c' row → k = st.table.schemaKey (insertVals ws) →
      InsertSteady lib c c' st (insertColumns (normalizeSchema st) columns) row) := by
  rw [insertColumns_table] at hws
  generalize hcols : insertColumns (normalizeSchema st) columns = cols at *
  obtain ⟨vs, hvs, hk⟩ := gives_bind.mp hk
  obtain rfl := gives_pure.mp hk
  rw [hcols, gives_collect_iff] at hvs
  have hrouter : encodePK vs = (vs.map enc).flatten := encodePK_eq vs
  have hengine : st.table.schemaKey (insertVals ws) =
      (st.table.keyNames.map fun n => encodeKeyValue ((insertVals ws).cell n)).flatten := by
    rw [Table.schemaKey, encodeKey, List.flatMap_def, List.map_map]
    rfl
  have hparts (honce : ∀ p ∈ (normalizeSchema st).pk, st.names.count p = 1) {p : Bytes} {v : Value}
      (hpv : (p, v) ∈ (normalizeSchema st).pk.zip vs) :
      ∃ d w, d.name = p ∧ d.type = storedType (Sql.colTypeOf (normalizeSchema st) p) ∧
        Gives (pkValue (lib.at c) (normalizeSchema st) cols row p) v ∧
        Gives (insertCell (lib.at c') cols row d) (p, w) ∧
        encodeKeyValue ((insertVals ws).cell p) = enc w := by
    have hp := (List.of_mem_zip hpv).1
    obtain ⟨d, w, hname, hcol, hw, hval⟩ := insertVals_of_once hp (honce p hp) hws
    refine ⟨d, w, hname, hcol, (List.forall₂_iff_zip.mp hvs).2 hpv, hw, ?_⟩
    rw [Vals.cell, hval]
    rfl
  constructor
  · rintro ⟨honce, hcells⟩
    have hsame : List.Forall₂ (fun p v => encodeKeyValue ((insertVals ws).cell p) = enc v)
        (normalizeSchema st).pk vs := by
      refine List.forall₂_iff_zip.mpr ⟨hvs.length_eq, fun {p v} hpv => ?_⟩
      obtain ⟨d, w, hname, hcol, hv, hw, hcell⟩ := hparts honce hpv
      have hp := (List.of_mem_zip hpv).1
      rw [hcell]
      exact ((enc_cell_iff hname hcol hv hw).mpr (hcells p hp)).symm
    rw [← List.forall₂_map_right_iff, ← List.forall₂_map_left_iff, List.forall₂_eq_eq_eq] at hsame
    rw [hrouter, hengine, keyNames_of_once honce, hsame]
  · rintro hnul heq
    rw [hrouter, hengine] at heq
    have hnvs : ∀ v ∈ vs, 0 ∉ v.str := by
      intro v hv
      obtain ⟨p, hzip⟩ := exists_zip_right hvs.length_eq hv
      exact nul_pkValue hnul ((List.forall₂_iff_zip.mp hvs).2 hzip)
    have hlists := flatten_inj (fun a ha b hb => by
        obtain ⟨v, hv, rfl⟩ := List.mem_map.mp ha
        obtain ⟨n, -, rfl⟩ := List.mem_map.mp hb
        exact apart_encodeKeyValue (nul_fromSQLValue (hnvs v hv)) (nul_insertVals hnul hws n))
      (by simp [enc, encodeKeyValue]) (by simp [encodeKeyValue]) heq
    have honce : ∀ p ∈ (normalizeSchema st).pk, st.names.count p = 1 := by
      apply once_of_length
      have hlen := congrArg List.length hlists
      rw [List.length_map, List.length_map, ← hvs.length_eq] at hlen
      exact hlen.symm
    rw [keyNames_of_once honce, eq_comm, ← List.forall₂_eq_eq_eq, List.forall₂_map_left_iff,
      List.forall₂_map_right_iff] at hlists
    refine ⟨honce, fun p hp => ?_⟩
    obtain ⟨v, hpv⟩ := exists_zip_left hlists.length_eq hp
    obtain ⟨d, w, hname, hcol, hv, hw, hcell⟩ := hparts honce hpv
    exact (enc_cell_iff hname hcol hv hw).mp
      (((List.forall₂_iff_zip.mp hlists).2 hpv).symm.trans hcell)

end Insert

end Ydbgo.Shard
