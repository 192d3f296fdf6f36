import Ydbgo.Sql.RowValues

/-! # What UPDATE and DELETE mean

The rows that a WHERE selects and the values that assignments give them, on the
values of a row and apart from how the engine finds and writes it.
-/

namespace Ydbgo.Sql

open Storage (Table TableTx ColInfo Cell GoodTable GoodRow GoodRows Proper cellValues)

variable (lib : Stdlib) (schema : TableSchema)

/-- The WHERE is true of the row. -/
def selects (where_ : Expr) (row : List Value) : Bool :=
  match (whereTrue lib where_ (rowContext schema row)).run with
  | some (.ok b) => b
  | _ => false

/-- The values that the assignments have in the row. -/
def assigned (sets : List SetItem) (row : List Value) : List (Bytes × Value) :=
  match (evalSetsCtx lib schema (rowContext schema row) sets).run with
  | some (.ok ws) => ws
  | _ => []

/-- The row with the last value given to each column, as the storage keeps it. -/
def assignRow (ws : List (Bytes × Value)) (row : List Value) : List Value :=
  row.mapIdx fun i v =>
    match schema.columns[i]?.bind fun c => SortedMap.getEntry c.name ws.reverse with
    | some w => Storage.toSQLValue lib (Storage.fromSQLValue w)
    | none => v

/-- The rows after an UPDATE. -/
def updateTable (sets : List SetItem) (where_ : Expr) (rows : SortedMap Bytes (List Value)) :
    SortedMap Bytes (List Value) :=
  rows.map fun row =>
    if selects lib schema where_ row then assignRow lib schema (assigned lib schema sets row) row
    else row

/-- The rows after a DELETE. -/
def deleteTable (where_ : Expr) (rows : SortedMap Bytes (List Value)) :
    SortedMap Bytes (List Value) :=
  rows.filter fun _ row => !selects lib schema where_ row

/-- The number of rows that the WHERE selects. -/
def selectedCount (where_ : Expr) (rows : SortedMap Bytes (List Value)) : ℕ :=
  (rows.filter fun _ row => selects lib schema where_ row).entries.length

/-- The WHERE has a value in the row. -/
def WhereEvaluates (where_ : Expr) (row : List Value) : Prop :=
  ∃ b, Gives (whereTrue lib where_ (rowContext schema row)) b

/-- The assignments have values in the row. -/
def SetsEvaluate (sets : List SetItem) (row : List Value) : Prop :=
  ∃ ws, Gives (evalSetsCtx lib schema (rowContext schema row) sets) ws

/-- No key column is assigned. -/
def KeepsKey (sets : List SetItem) : Prop := ∀ item ∈ sets, item.column ∉ pkIndex schema

variable {lib schema}

theorem selects_eq {where_ : Expr} {row : List Value} {b : Bool}
    (h : Gives (whereTrue lib where_ (rowContext schema row)) b) :
    selects lib schema where_ row = b := by
  unfold Gives at h
  rw [selects, h]

theorem WhereEvaluates.gives {where_ : Expr} {row : List Value}
    (h : WhereEvaluates lib schema where_ row) :
    Gives (whereTrue lib where_ (rowContext schema row)) (selects lib schema where_ row) := by
  obtain ⟨b, hb⟩ := h
  rwa [selects_eq hb]

theorem SetsEvaluate.gives {sets : List SetItem} {row : List Value}
    (h : SetsEvaluate lib schema sets row) :
    Gives (evalSetsCtx lib schema (rowContext schema row) sets) (assigned lib schema sets row) := by
  obtain ⟨ws, hws⟩ := h
  have hs : assigned lib schema sets row = ws := by
    unfold Gives at hws
    rw [assigned, hws]
  rwa [hs]

/-! ### The rows of a table -/

section Table

variable {t : Table} {name key : Bytes} {cells : List Cell}

theorem schema_names (t : Table) (name : Bytes) :
    (t.schema name).columns.map ColumnDef.name = t.cols.map ColInfo.name := by
  apply List.ext_getElem?
  intro i
  simp only [Table.schema, List.getElem?_map, List.getElem?_mapIdx, Option.map_map]
  rfl

theorem schema_column (name : Bytes) {i : ℕ} {c : ColInfo} (hc : t.cols[i]? = some c) :
    ∃ d, (t.schema name).columns[i]? = some d ∧ d.name = c.name := by
  simp only [Table.schema, List.getElem?_mapIdx, hc, Option.map_some]
  exact ⟨_, rfl, rfl⟩

theorem pkIndex_schema (name : Bytes) (ht : GoodTable t) : pkIndex (t.schema name) = t.keyNames := by
  unfold pkIndex
  rw [if_neg]
  · rfl
  · intro he
    have hlen := congrArg List.length
      (Storage.keyNames_map (g := fun _ => ()) (f := fun _ => ()) ht.inside fun _ _ _ _ => rfl)
    rw [List.length_map, List.length_map, show t.keyNames = [] from List.isEmpty_iff.mp he] at hlen
    exact ht.keyed (List.eq_nil_of_length_eq_zero hlen.symm)

theorem mem_keyNames {n : Bytes} :
    n ∈ t.keyNames ↔ ∃ p ∈ t.pk, ∃ c, t.cols[p]? = some c ∧ c.name = n := by
  simp only [Table.keyNames, List.mem_filterMap, Option.map_eq_some_iff]

theorem rowContext_good (ht : GoodTable t) (h : GoodRow t key cells) {i : ℕ} {c : ColInfo}
    (hc : t.cols[i]? = some c) :
    rowContext (t.schema name) (cellValues lib cells) c.name =
      some (Storage.toSQLValue lib (Storage.variant cells[i]?.join)) := by
  obtain ⟨v, hv, -⟩ := h.getElem? (List.getElem?_eq_some_iff.mp hc).1
  unfold rowContext
  rw [schema_names]
  refine SortedMap.getEntry_zip ht.names (by rw [List.getElem?_map, hc]; rfl) ?_
  rw [cellValues, List.getElem?_map, hv]
  rfl

theorem proper_rowContext {row : List Value} (h : ∀ v ∈ row, Proper v) {n : Bytes} {v : Value}
    (hv : rowContext schema row n = some v) : Proper v := by
  unfold rowContext SortedMap.getEntry at hv
  obtain ⟨e, he, rfl⟩ := Option.map_eq_some_iff.mp hv
  have hmem := List.mem_of_find?_eq_some he
  rw [List.mem_reverse] at hmem
  exact h _ (List.of_mem_zip hmem).2

theorem proper_cellValues (lib : Stdlib) (cells : List Cell) : ∀ v ∈ cellValues lib cells, Proper v := by
  intro v hv
  obtain ⟨c, -, rfl⟩ := List.mem_map.mp hv
  exact Storage.proper_toSQLValue _ _

/-- The key that the row of values names is the one the row is stored under. -/
theorem encodePK_pkValues (lib : Stdlib) (name : Bytes) (ht : GoodTable t) (h : GoodRow t key cells) :
    Storage.encodePK (pkValues (t.schema name) (rowContext (t.schema name) (cellValues lib cells))) =
      key := by
  rw [h.key, Storage.encodePK, pkValues, pkIndex_schema name ht, List.map_map]
  refine congrArg Storage.encodeKey (Storage.keyNames_map ht.inside fun p hp c hc => ?_)
  obtain ⟨v, hv, hn⟩ := h.getElem? (ht.inside p hp)
  rw [Function.comp_apply, Storage.cell, rowContext_good ht h hc, hv]
  exact hn lib

theorem rowKey_good (lib : Stdlib) (name : Bytes) (ht : GoodTable t) (h : GoodRow t key cells) :
    Storage.rowKey (t.schema name) (rowContext (t.schema name) (cellValues lib cells)) = key := by
  have hk := encodePK_pkValues lib name ht h
  rw [pkValues, pkIndex_schema name ht] at hk
  exact hk

/-! ### Assignments -/

theorem gives_setValue {ctx : RowContext} (hctx : ∀ n v, ctx n = some v → Proper v)
    {item : SetItem} {v : Value} (h : Gives (setValue lib schema ctx item) v) : Proper v := by
  unfold setValue at h
  obtain ⟨w, hw, h⟩ := gives_bind.mp h
  have hp := givesProper_eval hctx item.value w (gives_check.mp hw)
  dsimp only at h
  split at h
  · rwa [← gives_pure.mp h]
  · exact givesProper_convert hp _ v (gives_check.mp h)

theorem gives_collect_cons {α β : Type} {f : α → Eval β} {a : α} {as : List α} {bs : List β} :
    Gives (collect f (a :: as)) bs ↔ ∃ b bs', Gives (f a) b ∧ Gives (collect f as) bs' ∧
      bs = b :: bs' := by
  simp only [collect, gives_bind, gives_pure]
  constructor
  · rintro ⟨b, hb, bs', hbs, rfl⟩
    exact ⟨b, bs', hb, hbs, rfl⟩
  · rintro ⟨b, bs', hb, hbs, rfl⟩
    exact ⟨b, hb, bs', hbs, rfl⟩

theorem gives_evalSetsCtx_cons {ctx : RowContext} {item : SetItem} {sets : List SetItem}
    {ws : List (Bytes × Value)} : Gives (evalSetsCtx lib schema ctx (item :: sets)) ws ↔
      ∃ v ws', Gives (setValue lib schema ctx item) v ∧
        Gives (evalSetsCtx lib schema ctx sets) ws' ∧ ws = (item.column, v) :: ws' := by
  unfold evalSetsCtx
  rw [gives_collect_cons]
  simp only [gives_bind, gives_pure]
  constructor
  · rintro ⟨b, ws', ⟨v, hv, rfl⟩, hws, rfl⟩
    exact ⟨v, ws', hv, hws, rfl⟩
  · rintro ⟨v, ws', hv, hws, rfl⟩
    exact ⟨_, ws', ⟨v, hv, rfl⟩, hws, rfl⟩

theorem columns_evalSetsCtx {ctx : RowContext} {sets : List SetItem} {ws : List (Bytes × Value)}
    (h : Gives (evalSetsCtx lib schema ctx sets) ws) :
    ws.map Prod.fst = sets.map SetItem.column := by
  induction sets generalizing ws with
  | nil =>
    obtain rfl := gives_pure.mp h
    rfl
  | cons item sets ih =>
    obtain ⟨v, ws', -, hws, rfl⟩ := gives_evalSetsCtx_cons.mp h
    rw [List.map_cons, List.map_cons, ih hws]

theorem proper_evalSetsCtx {ctx : RowContext} (hctx : ∀ n v, ctx n = some v → Proper v)
    {sets : List SetItem} {ws : List (Bytes × Value)}
    (h : Gives (evalSetsCtx lib schema ctx sets) ws) : ∀ w ∈ ws, Proper w.2 := by
  induction sets generalizing ws with
  | nil =>
    obtain rfl := gives_pure.mp h
    exact nofun
  | cons item sets ih =>
    obtain ⟨v, ws', hv, hws, rfl⟩ := gives_evalSetsCtx_cons.mp h
    exact List.forall_mem_cons.mpr ⟨gives_setValue hctx hv, ih hws⟩

/-- The values of the assigned cells. -/
theorem ofList_map (ws : List (Bytes × Value)) (n : Bytes) :
    Storage.Vals.ofList (ws.map fun w => (w.1, Storage.fromSQLValue w.2)) n =
      (SortedMap.getEntry n ws.reverse).map Storage.fromSQLValue := by
  rw [Storage.Vals.ofList, ← List.map_reverse]
  exact SortedMap.getEntry_map Storage.fromSQLValue n ws.reverse

theorem toSQLValue_variant_encodeVariant (v : Storage.SqlValue) :
    Storage.toSQLValue lib (Storage.variant (Storage.encodeVariant v)) =
      Storage.toSQLValue lib v := rfl

/-- The row of the assigned cells is the row with the assigned values. -/
theorem cellValues_assignCells (h : GoodRow t key cells) (ws : List (Bytes × Value)) :
    cellValues lib (Storage.assignCells t
        (.ofList (ws.map fun w => (w.1, Storage.fromSQLValue w.2))) cells) =
      assignRow lib (t.schema name) ws (cellValues lib cells) := by
  apply List.ext_getElem?
  intro i
  rw [cellValues, Storage.assignCells, assignRow, List.getElem?_map, List.getElem?_mapIdx,
    List.getElem?_mapIdx, cellValues, List.getElem?_map]
  cases hc : t.cols[i]? with
  | none =>
    rw [List.getElem?_eq_none_iff, ← h.length, ← List.getElem?_eq_none_iff] at hc
    rw [hc]
    rfl
  | some c =>
    obtain ⟨v, hv, -⟩ := h.getElem? (List.getElem?_eq_some_iff.mp hc).1
    obtain ⟨d, hd, hn⟩ := schema_column name hc
    rw [hv, hd, Option.bind_some, hn]
    simp only [Option.map_some, Option.join_some, toSQLValue_variant_encodeVariant, ofList_map]
    cases SortedMap.getEntry c.name ws.reverse <;> rfl

theorem getEntry_mem {n : Bytes} {v : Value} {ws : List (Bytes × Value)}
    (h : SortedMap.getEntry n ws.reverse = some v) : (n, v) ∈ ws :=
  List.mem_reverse.mp (SortedMap.mem_of_getEntry h)

/-- The cells after an assignment of proper values. -/
theorem getElem?_assignCells (h : GoodRow t key cells) {ws : List (Bytes × Value)}
    (hp : ∀ w ∈ ws, Proper w.2) {i : ℕ} {c : ColInfo} (hc : t.cols[i]? = some c) :
    ∃ v, (Storage.assignCells t
      (.ofList (ws.map fun w => (w.1, Storage.fromSQLValue w.2))) cells)[i]? = some (some v) ∧
        Storage.Normal v ∧ (c.name ∉ ws.map Prod.fst → cells[i]? = some (some v)) := by
  obtain ⟨v, hv, hn⟩ := h.getElem? (List.getElem?_eq_some_iff.mp hc).1
  rw [Storage.assignCells, List.getElem?_mapIdx, hc, hv]
  simp only [Option.map_some, ofList_map]
  cases he : SortedMap.getEntry c.name ws.reverse with
  | none => exact ⟨v, congrArg some (Storage.encodeVariant_normal hn), hn, fun _ => rfl⟩
  | some w =>
    have hmem := getEntry_mem he
    exact ⟨_, congrArg some (Storage.encodeVariant_fromSQLValue (hp _ hmem)),
      Storage.normal_fromSQLValue (hp _ hmem),
      fun hno => absurd (List.mem_map_of_mem (f := Prod.fst) hmem) hno⟩

/-- Assigning proper values to columns off the key keeps the row good. -/
theorem goodRow_assignCells (ht : GoodTable t) (h : GoodRow t key cells)
    {ws : List (Bytes × Value)} (hprop : ∀ w ∈ ws, Proper w.2)
    (hk : ∀ w ∈ ws, w.1 ∉ t.keyNames) :
    GoodRow t key (Storage.assignCells t
      (.ofList (ws.map fun w => (w.1, Storage.fromSQLValue w.2))) cells) := by
  constructor
  · rw [Storage.assignCells, List.length_mapIdx]
  · intro c hc
    obtain ⟨i, hi⟩ := List.getElem?_of_mem hc
    have hlt : i < t.cols.length := by
      have := (List.getElem?_eq_some_iff.mp hi).1
      rwa [Storage.assignCells, List.length_mapIdx] at this
    obtain ⟨v, hv, hn, -⟩ := getElem?_assignCells h hprop (List.getElem?_eq_getElem hlt)
    rw [hv] at hi
    exact ⟨v, (Option.some.inj hi).symm, hn⟩
  · rw [h.key]
    refine congrArg Storage.encodeKey (List.map_congr_left fun p hp => ?_)
    have hc := List.getElem?_eq_getElem (ht.inside p hp)
    obtain ⟨v, hv, -, hsame⟩ := getElem?_assignCells h hprop hc
    rw [hv, hsame fun hmem => ?_]
    obtain ⟨w, hw, he⟩ := List.mem_map.mp hmem
    exact hk w hw (he ▸ mem_keyNames.mpr ⟨p, hp, _, hc, rfl⟩)

end Table

end Ydbgo.Sql
