import Ydbgo.Sql.DeleteRight

/-! # The rows an INSERT writes

The values of an INSERT give every column of the table a value. The engine
stores them as complete rows in place of those with the same keys.
-/

namespace Ydbgo.Sql

open Storage (Batch Table TableTx ColInfo Cell EngineKind GoodTable GoodRow GoodRows cellValues Does
  Proper Normal Vals)

/-! ### Values -/

section Values

variable {lib : Stdlib} {schema : TableSchema} {cols : List Bytes} {row : List Expr}

theorem proper_zeroValue (c : ColumnDef) : Proper (zeroValue c) := by
  unfold zeroValue
  split
  · exact proper_intValue 0
  · exact proper_floatValue 0
  · exact proper_strValue []
  · exact proper_boolValue false
  all_goals exact proper_nullValue

/-- A value for the column. -/
theorem gives_insertCell {c : ColumnDef} {w : Bytes × Value}
    (h : Gives (insertCell lib cols row c) w) : w.1 = c.name ∧ Proper w.2 := by
  unfold insertCell at h
  split at h
  · obtain rfl := gives_pure.mp h
    exact ⟨rfl, proper_zeroValue c⟩
  · obtain ⟨e, -, h⟩ := gives_bind.mp h
    obtain ⟨v, hv, h⟩ := gives_bind.mp h
    obtain ⟨v', hv', h⟩ := gives_bind.mp h
    have hp : Proper v := givesProper_eval (fun _ _ hn => by cases hn) e v (gives_check.mp hv)
    have hp' : Proper v' := givesProper_convert hp _ v' (gives_check.mp hv')
    split at h
    · exact absurd h gives_fail
    · obtain rfl := gives_pure.mp h
      exact ⟨rfl, hp'⟩

/-- The row has a value for each column. -/
structure FullRow (names : List Bytes) (ws : List (Bytes × Value)) : Prop where
  names : ws.map Prod.fst = names
  proper : ∀ w ∈ ws, Proper w.2

theorem gives_insertRow {ws : List (Bytes × Value)} (h : Gives (insertRow lib schema cols row) ws) :
    FullRow (schema.columns.map ColumnDef.name) ws := by
  unfold insertRow at h
  split at h
  · exact absurd h gives_fail
  · generalize schema.columns = columns at h
    induction columns generalizing ws with
    | nil =>
      obtain rfl := gives_pure.mp h
      exact ⟨rfl, nofun⟩
    | cons c columns ih =>
      obtain ⟨w, ws, hw, hws, rfl⟩ := gives_collect_cons.mp h
      obtain ⟨hname, hproper⟩ := gives_insertCell hw
      obtain ⟨hnames, hpropers⟩ := ih hws
      exact ⟨by rw [List.map_cons, List.map_cons, hname, hnames],
        List.forall_mem_cons.mpr ⟨hproper, hpropers⟩⟩

theorem gives_insertRows {columns : List Bytes} {rows : List (List Expr)}
    {wss : List (List (Bytes × Value))} (h : Gives (insertRows lib schema columns rows) wss) :
    ∀ ws ∈ wss, FullRow (schema.columns.map ColumnDef.name) ws := by
  unfold insertRows at h
  induction rows generalizing wss with
  | nil =>
    obtain rfl := gives_pure.mp h
    exact nofun
  | cons row rows ih =>
    obtain ⟨ws, wss, hws, hwss, rfl⟩ := gives_collect_cons.mp h
    exact List.forall_mem_cons.mpr ⟨gives_insertRow hws, ih hwss⟩

end Values

/-! ### Rows -/

section Rows

variable {lib : Stdlib} {b : Batch} {name : Bytes} {t : Table} {tx : TableTx}

/-- The map that the engine makes of a row. -/
def insertVals (ws : List (Bytes × Value)) : Vals :=
  .ofList (ws.map fun w => (w.1, Storage.fromSQLValue w.2))

theorem insertVals_normal (ht : GoodTable t) {ws : List (Bytes × Value)}
    (h : FullRow (t.cols.map ColInfo.name) ws) {c : ColInfo} (hc : c ∈ t.cols) :
    ∃ v, insertVals ws c.name = some v ∧ Normal v := by
  obtain ⟨i, hi⟩ := List.getElem?_of_mem hc
  have hname : (ws.map Prod.fst)[i]? = some c.name := by
    rw [h.names, List.getElem?_map, hi]
    rfl
  rw [List.getElem?_map] at hname
  obtain ⟨w, hw, hn⟩ := Option.map_eq_some_iff.mp hname
  refine ⟨_, ?_, Storage.normal_fromSQLValue (h.proper w (List.mem_of_getElem? hw))⟩
  rw [insertVals, ofList_map, SortedMap.getEntry_of_getElem? (i := i) (h.names ▸ ht.names)]
  · rfl
  · rw [hw, ← hn]

theorem goodRow_encodeRowCells (ht : GoodTable t) {vals : Vals}
    (h : ∀ c ∈ t.cols, ∃ v, vals c.name = some v ∧ Normal v) :
    GoodRow t (t.schemaKey vals) (t.encodeRowCells vals) := by
  have hcell : ∀ c ∈ t.cols, ∃ v, vals c.name = some v ∧ Normal v ∧
      Storage.encodeVariant (vals.cell c.name) = some v := by
    intro c hc
    obtain ⟨v, hv, hn⟩ := h c hc
    refine ⟨v, hv, hn, ?_⟩
    rw [Vals.cell, hv, Option.getD_some, Storage.encodeVariant_normal hn]
  constructor
  · rw [Table.encodeRowCells, List.length_map]
  · intro c hc
    obtain ⟨col, hcol, rfl⟩ := List.mem_map.mp hc
    obtain ⟨v, -, hn, he⟩ := hcell col hcol
    exact ⟨v, he, hn⟩
  · refine Storage.schemaKey_eq ht.inside fun p hp c hc => ?_
    obtain ⟨v, hv, -, he⟩ := hcell c (List.mem_of_getElem? hc)
    rw [hv, Table.encodeRowCells, List.getElem?_map, hc, Option.map_some, he]
    rfl

/-- The writes of `BatchInsert`. -/
def insertWrites (t : Table) (rows : List (List (Bytes × Value))) : List (Bytes × List Cell) :=
  rows.map fun ws => (t.schemaKey (insertVals ws), t.encodeRowCells (insertVals ws))

/-- The rows that an INSERT of the values writes, by their keys. -/
def insertedRows (lib : Stdlib) (t : Table) (rows : List (List (Bytes × Value))) :
    List (Bytes × List Value) :=
  (insertWrites t rows).map fun w => (w.1, cellValues lib w.2)

theorem goodRows_put (h : GoodRows t tx) (count : Bool) {key : Bytes} {cells : List Cell}
    (hg : GoodRow t key cells) : GoodRows t (tx.put t.engine count key cells) := by
  have hwritten : tx.written t.engine key cells = cells := by
    unfold TableTx.written
    split
    · exact Storage.fillCells_of_full (fun _ => hg.isSome) _
    · rfl
  intro key' cells' hv
  rw [Storage.view_put, hwritten] at hv
  split at hv
  · rename_i he
    obtain rfl := Option.some.inj hv
    exact he ▸ hg
  · exact h key' cells' hv

theorem rows_put_of_good (h : GoodRows t tx) (count : Bool) {key : Bytes} {cells : List Cell}
    (hg : GoodRow t key cells) (key' : Bytes) :
    ((tx.put t.engine count key cells).rows lib).get key' =
      if key = key' then some (cellValues lib cells) else (tx.rows lib).get key' := by
  have hwritten : tx.written t.engine key cells = cells := by
    unfold TableTx.written
    split
    · exact Storage.fillCells_of_full (fun _ => hg.isSome) _
    · rfl
  rw [Storage.rows_get_of_good (goodRows_put h count hg), Storage.rows_get_of_good h,
    Storage.view_put, hwritten]
  split <;> rfl

/-- Complete rows are written in place of those with the same keys. -/
theorem rows_putEach (lib : Stdlib) (h : GoodRows t tx) (count : Bool) {ws : List (Bytes × List Cell)}
    (hws : ∀ w ∈ ws, GoodRow t w.1 w.2) :
    GoodRows t (tx.putEach t.engine count ws) ∧
      ∀ key, ((tx.putEach t.engine count ws).rows lib).get key =
        (SortedMap.getEntry key (ws.map fun w => (w.1, cellValues lib w.2)).reverse).or
          ((tx.rows lib).get key) := by
  induction ws generalizing tx with
  | nil => exact ⟨h, fun _ => rfl⟩
  | cons w ws ih =>
    obtain ⟨hw, hws⟩ := List.forall_mem_cons.mp hws
    obtain ⟨hgood, hrows⟩ := ih (goodRows_put h count hw) hws
    refine ⟨hgood, fun key => (hrows key).trans ?_⟩
    rw [rows_put_of_good h count hw, List.map_cons, List.reverse_cons, SortedMap.getEntry_append,
      SortedMap.getEntry_cons, Option.or_assoc]
    split <;> rfl

theorem leaves_putRows (ht : GoodTable t) (h : GoodRows t tx)
    {rows : List (List (Bytes × Value))}
    (hrows : ∀ ws ∈ rows, FullRow (t.cols.map ColInfo.name) ws) :
    Storage.Writes t (rows.forM fun ws => Storage.putRow t (insertVals ws)) tx
      (tx.putEach t.engine true (insertWrites t rows)) := by
  induction rows generalizing tx with
  | nil => exact Storage.leaves_pure fun _ => id
  | cons ws rows ih =>
    obtain ⟨hws, hrows⟩ := List.forall_mem_cons.mp hrows
    have hvals := fun c hc => insertVals_normal ht hws (c := c) hc
    refine Storage.leaves_bind (Storage.leaves_putRow ht (h.readable _) fun c hc => ?_) fun _ =>
      ih (goodRows_put h true (goodRow_encodeRowCells ht hvals)) hrows
    obtain ⟨v, hv, -⟩ := hvals c hc
    rw [hv]
    rfl

/-- INSERT writes its rows in place of those with the same keys. -/
theorem does_execInsert (ht : GoodTable t) (h : GoodRows t tx) {columns : List Bytes}
    {rows : List (List Expr)} {wss : List (List (Bytes × Value))}
    (hg : Gives (insertRows lib (t.schema name) columns rows) wss) :
    ∃ tx', Does b name t (execInsert lib name columns rows) tx ⟨ascii "insert", wss.length⟩ tx' ∧
      GoodRows t tx' ∧ tx'.data = tx.data ∧ ∀ key, (tx'.rows lib).get key =
        (SortedMap.getEntry key (insertedRows lib t wss).reverse).or ((tx.rows lib).get key) := by
  have hfull : ∀ ws ∈ wss, FullRow (t.cols.map ColInfo.name) ws := fun ws hws =>
    schema_names t name ▸ gives_insertRows hg ws hws
  have hwrites : ∀ w ∈ insertWrites t wss, GoodRow t w.1 w.2 := by
    intro w hw
    obtain ⟨ws, hws, rfl⟩ := List.mem_map.mp hw
    exact goodRow_encodeRowCells ht fun c hc => insertVals_normal ht (hfull ws hws) hc
  obtain ⟨hgood, hrows⟩ := rows_putEach lib h true hwrites
  refine ⟨_, Storage.does_bind Storage.does_getSchema (Storage.does_bind (does_liftEval hg)
    (Storage.does_bind (a := wss.length) ?_ (Storage.does_pure _))), hgood, ?_, hrows⟩
  · unfold Storage.batchInsert
    split
    · rename_i hempty
      obtain rfl := List.isEmpty_iff.mp hempty
      exact Storage.does_pure _
    · exact Storage.does_writeTo_pure (fun ixs => .of_withIndexes ixs
        (leaves_putRows (t := { t with indexes := ixs }) (ht.withIndexes ixs)
          (fun key cells hv => (h key cells hv).withIndexes ixs) hfull)) _
  · exact Storage.data_putEach _ _ _ _

end Rows

end Ydbgo.Sql
