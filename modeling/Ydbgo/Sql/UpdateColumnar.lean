import Ydbgo.Sql.UpdateRight

/-! # The columnar paths of an UPDATE

The row-wise rewrite reads the columns that the expressions refer to and those of
the key, and leaves the others to the storage. What it writes at a row is then
the row with the assigned values, if the storage takes the cells left out from
that row. The constant path writes the assigned cells only.
-/

namespace Ydbgo.Sql

open Storage (Batch Table TableTx ColInfo Cell EngineKind GoodTable GoodRow GoodRows cellValues Does
  InRange pkRangeBytes Proper)

/-! ### Reading some columns -/

section Read

variable {lib : Stdlib} {name : Bytes} {t : Table} {tx : TableTx} {sets : List SetItem}
  {where_ : Expr} {key : Bytes} {cells : List Cell}

theorem rowContext_at (ht : GoodTable t) {row : List Value} {i : ℕ} {c : ColInfo} {v : Value}
    (hc : t.cols[i]? = some c) (hv : row[i]? = some v) :
    rowContext (t.schema name) row c.name = some v := by
  unfold rowContext
  rw [schema_names]
  exact SortedMap.getEntry_zip ht.names (by rw [List.getElem?_map, hc]; rfl) hv

theorem rowContext_of_not_mem {row : List Value} {n : Bytes}
    (hn : n ∉ t.cols.map ColInfo.name) : rowContext (t.schema name) row n = none := by
  unfold rowContext
  rw [schema_names]
  refine SortedMap.getEntry_eq_none.mpr fun v hv => hn ?_
  exact (List.of_mem_zip (List.mem_reverse.mp hv)).1

/-- The columns at the given places, the others null. -/
def readValues (cols : List ℕ) (row : List Value) : List Value :=
  row.mapIdx fun i v => if i ∈ cols then v else nullValue

/-- The places of the columns of those names. -/
def placesOf (schema : TableSchema) (need : List Bytes) : List ℕ :=
  (List.range schema.columns.length).filter fun i =>
    ((schema.columns[i]?).map ColumnDef.name).any (· ∈ need)

theorem mem_placesOf {need : List Bytes} {i : ℕ} {c : ColInfo} (hc : t.cols[i]? = some c) :
    i ∈ placesOf (t.schema name) need ↔ c.name ∈ need := by
  obtain ⟨d, hd, hn⟩ := schema_column name hc
  obtain ⟨hlt, rfl⟩ := List.getElem?_eq_some_iff.mp hd
  simp [placesOf, List.mem_filter, List.mem_range, hlt, hn]

/-- What is read has the needed columns of the row. -/
theorem rowContext_readValues (ht : GoodTable t) (h : GoodRow t key cells) {need : List Bytes}
    {n : Bytes} (hn : n ∈ need) :
    rowContext (t.schema name) (readValues (placesOf (t.schema name) need) (cellValues lib cells)) n =
      rowContext (t.schema name) (cellValues lib cells) n := by
  by_cases hm : n ∈ t.cols.map ColInfo.name
  · obtain ⟨c, hc, rfl⟩ := List.mem_map.mp hm
    obtain ⟨i, hi⟩ := List.getElem?_of_mem hc
    obtain ⟨v, hv, -⟩ := h.getElem? (List.getElem?_eq_some_iff.mp hi).1
    have hval : (cellValues lib cells)[i]? = some (Storage.toSQLValue lib v) := by
      rw [cellValues, List.getElem?_map, hv]
      rfl
    rw [rowContext_at ht hi hval, rowContext_at ht hi]
    rw [readValues, List.getElem?_mapIdx, hval, Option.map_some, if_pos ((mem_placesOf hi).mpr hn)]
  · rw [rowContext_of_not_mem hm, rowContext_of_not_mem hm]

theorem columnsOf_good (lib : Stdlib) (h : GoodRow t key cells) (hv : tx.view.get key = some cells)
    (cols : List ℕ) {cellAt : Cell → Value}
    (hcell : ∀ v, cellAt (some v) = Storage.toSQLValue lib v) :
    Storage.columnsOf t tx (fun i => decide (i ∈ cols)) cellAt key =
      readValues cols (cellValues lib cells) := by
  apply List.ext_getElem?
  intro i
  rw [Storage.columnsOf, readValues, List.getElem?_mapIdx, List.getElem?_mapIdx, cellValues,
    List.getElem?_map]
  cases hc : t.cols[i]? with
  | none =>
    rw [List.getElem?_eq_none_iff, ← h.length, ← List.getElem?_eq_none_iff] at hc
    rw [hc]
    rfl
  | some c =>
    obtain ⟨v, hcv, -⟩ := h.getElem? (List.getElem?_eq_some_iff.mp hc).1
    have hcol : tx.colCell i key = some v := by
      rw [TableTx.colCell, hv, Option.bind_some, hcv]
      rfl
    rw [hcv, Option.map_some, Option.map_some, Option.map_some, hcol, hcell]
    simp only [decide_eq_true_eq]
    rfl

theorem columnsOf_none (hv : tx.view.get key = none) (cols : List ℕ) {cellAt : Cell → Value}
    (hcell : cellAt none = nullValue) :
    Storage.columnsOf t tx (fun i => decide (i ∈ cols)) cellAt key =
      t.cols.map fun _ => nullValue := by
  apply List.ext_getElem?
  intro i
  rw [Storage.columnsOf, List.getElem?_mapIdx, List.getElem?_map]
  have hcol : tx.colCell i key = none := by rw [TableTx.colCell, hv, Option.bind_none]
  rw [hcol, hcell]
  simp

end Read

/-! ### Expressions over what is read -/

section Congr

variable {lib : Stdlib} {schema : TableSchema} {ctx ctx' : RowContext}

theorem whereTrue_congr {where_ : Expr} (h : ∀ n ∈ where_.idents, ctx n = ctx' n) :
    whereTrue lib where_ ctx = whereTrue lib where_ ctx' := by
  unfold whereTrue
  rw [eval_congr h]

theorem setValue_congr {item : SetItem} (h : ∀ n ∈ item.value.idents, ctx n = ctx' n) :
    setValue lib schema ctx item = setValue lib schema ctx' item := by
  unfold setValue
  rw [eval_congr h]

theorem evalSetsCtx_congr {sets : List SetItem}
    (h : ∀ item ∈ sets, ∀ n ∈ item.value.idents, ctx n = ctx' n) :
    evalSetsCtx lib schema ctx sets = evalSetsCtx lib schema ctx' sets := by
  induction sets with
  | nil => rfl
  | cons item sets ih =>
    obtain ⟨hi, h⟩ := List.forall_mem_cons.mp h
    unfold evalSetsCtx at ih ⊢
    rw [collect, collect, setValue_congr hi, ih h]

end Congr

/-! ### The rewritten rows -/

section Rewrite

variable {lib : Stdlib} {name : Bytes} {t : Table} {tx : TableTx} {sets : List SetItem}
  {where_ : Expr} {key : Bytes} {cells : List Cell}

/-- The row with values put in the places of their columns. -/
def setAll (schema : TableSchema) (ws : List (Bytes × Value)) (row : List Value) : List Value :=
  ws.foldl (fun row w =>
    match colPlace schema w.1 with
    | none => row
    | some i => row.set i w.2) row

theorem gives_evalSetsIntoRow {schema : TableSchema} {ctx : RowContext} {ws : List (Bytes × Value)}
    (h : Gives (evalSetsCtx lib schema ctx sets) ws) (row : List Value) :
    Gives (evalSetsIntoRow lib schema ctx sets row) (setAll schema ws row) := by
  induction sets generalizing ws row with
  | nil =>
    obtain rfl := gives_pure.mp h
    exact gives_pure.mpr rfl
  | cons item sets ih =>
    obtain ⟨v, ws', hv, hws, rfl⟩ := gives_evalSetsCtx_cons.mp h
    rw [evalSetsIntoRow]
    refine gives_bind.mpr ⟨v, hv, ?_⟩
    rw [setAll, List.foldl_cons]
    dsimp only
    cases colPlace schema item.column with
    | none => exact ih hws row
    | some i => exact ih hws (row.set i v)

theorem colPlace_eq (name : Bytes) (ht : GoodTable t) {i : ℕ} {c : ColInfo} (hc : t.cols[i]? = some c) {n : Bytes} :
    colPlace (t.schema name) n = some i ↔ n = c.name := by
  have hplace : colPlace (t.schema name) n = (t.cols.map ColInfo.name).findIdx? fun m => m = n := by
    rw [← schema_names t name, List.findIdx?_map]
    rfl
  have hi : (t.cols.map ColInfo.name)[i]? = some c.name := by rw [List.getElem?_map, hc]; rfl
  obtain ⟨hlt, hget⟩ := List.getElem?_eq_some_iff.mp hi
  rw [hplace, List.findIdx?_eq_some_iff_getElem]
  constructor
  · rintro ⟨_, he, -⟩
    rw [hget] at he
    exact (of_decide_eq_true he).symm
  · rintro rfl
    refine ⟨hlt, decide_eq_true hget, fun j hj he => ?_⟩
    have hinj := (List.Nodup.getElem_inj_iff ht.names).mp ((of_decide_eq_true he).trans hget.symm)
    omega

theorem setAll_getElem? (ht : GoodTable t) {i : ℕ} {c : ColInfo} (hc : t.cols[i]? = some c)
    (ws : List (Bytes × Value)) (row : List Value) :
    (setAll (t.schema name) ws row)[i]? =
      (row[i]?).map fun v => (SortedMap.getEntry c.name ws.reverse).getD v := by
  induction ws using List.reverseRecOn with
  | nil => simp [setAll]
  | append_singleton ws w ih =>
    have hstep : setAll (t.schema name) (ws ++ [w]) row =
        match colPlace (t.schema name) w.1 with
        | none => setAll (t.schema name) ws row
        | some j => (setAll (t.schema name) ws row).set j w.2 := by
      rw [setAll, List.foldl_append, List.foldl_cons, List.foldl_nil]
      rfl
    rw [hstep, List.reverse_append, List.reverse_singleton, List.singleton_append,
      SortedMap.getEntry_cons]
    by_cases hw : w.1 = c.name
    · rw [(colPlace_eq name ht hc).mpr hw, if_pos hw]
      simp only [List.getElem?_set_self', ih]
      cases row[i]? <;> rfl
    · rw [if_neg hw]
      cases hp : colPlace (t.schema name) w.1 with
      | none => exact ih
      | some j =>
        have hne : j ≠ i := by
          rintro rfl
          exact hw ((colPlace_eq name ht hc).mp hp)
        rw [← ih]
        exact List.getElem?_set_ne hne

/-- The row that `execUpdateColumnar` writes back. -/
def rewrittenRow (lib : Stdlib) (schema : TableSchema) (need : List Bytes) (sets : List SetItem)
    (row : List Value) : List Value :=
  markMissing schema need sets
    (setAll schema (assigned lib schema sets row) (readValues (placesOf schema need) row))

theorem rewrittenRow_at (ht : GoodTable t) {i : ℕ} {c : ColInfo} {v : Value} {row : List Value}
    (need : List Bytes) (hc : t.cols[i]? = some c) (hv : row[i]? = some v) :
    (rewrittenRow lib (t.schema name) need sets row)[i]? =
      some (if c.name ∈ need ∨ c.name ∈ sets.map SetItem.column then
        (SortedMap.getEntry c.name (assigned lib (t.schema name) sets row).reverse).getD
          (if c.name ∈ need then v else nullValue)
      else missingValue) := by
  obtain ⟨d, hd, hn⟩ := schema_column name hc
  have hread : (readValues (placesOf (t.schema name) need) row)[i]? =
      some (if c.name ∈ need then v else nullValue) := by
    rw [readValues, List.getElem?_mapIdx, hv, Option.map_some]
    simp only [mem_placesOf hc]
  rw [rewrittenRow, markMissing, List.getElem?_mapIdx, setAll_getElem? ht hc, hread]
  simp only [Option.map_some, hd, hn]

theorem rowKeyOf_rewrittenRow (ht : GoodTable t) (h : GoodRow t key cells)
    (hk : KeepsKey (t.schema name) sets) {need : List Bytes} (hneed : ∀ n ∈ t.keyNames, n ∈ need)
    (hs : SetsEvaluate lib (t.schema name) sets (cellValues lib cells)) :
    Storage.rowKeyOf t (rewrittenRow lib (t.schema name) need sets (cellValues lib cells)) = key := by
  rw [h.key]
  refine congrArg Storage.encodeKey (List.map_congr_left fun p hp => ?_)
  have hlt := ht.inside p hp
  have hc := List.getElem?_eq_getElem hlt
  obtain ⟨v, hv, hn⟩ := h.getElem? hlt
  have hname : t.cols[p].name ∈ t.keyNames := mem_keyNames.mpr ⟨p, hp, _, hc, rfl⟩
  have hval : (cellValues lib cells)[p]? = some (Storage.toSQLValue lib v) := by
    rw [cellValues, List.getElem?_map, hv]
    rfl
  have hentry : SortedMap.getEntry t.cols[p].name
      (assigned lib (t.schema name) sets (cellValues lib cells)).reverse = none :=
    SortedMap.getEntry_eq_none.mpr fun w hw =>
      keepsKey_assigned ht hk hs _ (List.mem_reverse.mp hw) hname
  rw [rewrittenRow_at ht need hc hval, hentry, if_pos (Or.inl (hneed _ hname)), hv]
  simp only [Option.getD_none, if_pos (hneed _ hname), Option.getD_some]
  exact hn lib

theorem setCells_at {i : ℕ} {c : ColInfo} {v : Storage.SqlValue}
    (hc : t.cols[i]? = some c) (hv : cells[i]? = some (some v)) :
    (setCells lib name t sets cells)[i]? = some (Storage.encodeVariant
      (((SortedMap.getEntry c.name (assigned lib (t.schema name) sets
        (cellValues lib cells)).reverse).map Storage.fromSQLValue).getD v)) := by
  rw [setCells, Storage.assignCells, List.getElem?_mapIdx, hc, hv, Option.map_some, ofList_map]
  rfl

/-- A column has a value exactly if it is assigned. -/
theorem getEntry_assigned {row : List Value} (hs : SetsEvaluate lib (t.schema name) sets row)
    {n : Bytes} : SortedMap.getEntry n (assigned lib (t.schema name) sets row).reverse = none ↔
      n ∉ sets.map SetItem.column := by
  rw [SortedMap.getEntry_eq_none, ← columns_evalSetsCtx hs.gives, List.mem_map]
  constructor
  · rintro hnone ⟨w, hw, rfl⟩
    exact hnone w.2 (List.mem_reverse.mpr hw)
  · intro hn w hw
    exact hn ⟨(n, w), List.mem_reverse.mp hw, rfl⟩

/-- The cell that is written: none where the column was neither read nor assigned. -/
theorem rowCells_rewrittenRow (ht : GoodTable t) (h : GoodRow t key cells) (need : List Bytes)
    (hs : SetsEvaluate lib (t.schema name) sets (cellValues lib cells)) {i : ℕ} {c : ColInfo}
    (hc : t.cols[i]? = some c) :
    (Storage.rowCells t (rewrittenRow lib (t.schema name) need sets (cellValues lib cells)))[i]? =
      some (if c.name ∈ need ∨ c.name ∈ sets.map SetItem.column then
        ((setCells lib name t sets cells)[i]?).join else none) := by
  obtain ⟨v, hv, hn⟩ := h.getElem? (List.getElem?_eq_some_iff.mp hc).1
  have hval : (cellValues lib cells)[i]? = some (Storage.toSQLValue lib v) := by
    rw [cellValues, List.getElem?_map, hv]
    rfl
  rw [Storage.rowCells, List.getElem?_mapIdx, hc, Option.map_some,
    rewrittenRow_at ht need hc hval, setCells_at hc hv]
  by_cases hin : c.name ∈ need ∨ c.name ∈ sets.map SetItem.column
  · rw [if_pos hin, if_pos hin]
    cases he : SortedMap.getEntry c.name
        (assigned lib (t.schema name) sets (cellValues lib cells)).reverse with
    | some w =>
      have hp := proper_evalSetsCtx (fun _ _ hw => proper_rowContext (proper_cellValues lib cells) hw)
        hs.gives _ (getEntry_mem he)
      have hmiss : w.missing = false := hp.notMissing
      simp only [Option.getD_some, hmiss, Bool.false_eq_true, if_false, Option.map_some]
      rfl
    | none =>
      have hneed : c.name ∈ need := hin.resolve_right ((getEntry_assigned hs).mp he)
      have hmiss := (Storage.proper_toSQLValue lib v).notMissing
      simp only [Option.getD_none, if_pos hneed, Option.getD_some, hmiss, Bool.false_eq_true,
        if_false, Option.map_none, hn lib]
      rfl
  · rw [if_neg hin, if_neg hin]
    rfl

/-- The columns that were neither read nor assigned are taken from the row itself, or there are
none. -/
def Completes (t : Table) (need : List Bytes) (sets : List SetItem) (tx : TableTx) (key : Bytes)
    (cells : List Cell) : Prop :=
  t.engine = .cstore2 ∧ tx.base.get key = some cells ∨
    ∀ c ∈ t.cols, c.name ∈ need ∨ c.name ∈ sets.map SetItem.column

theorem written_rewrittenRow (ht : GoodTable t) (h : GoodRow t key cells) {need : List Bytes}
    (hs : SetsEvaluate lib (t.schema name) sets (cellValues lib cells))
    (hcomp : Completes t need sets tx key cells) :
    tx.written t.engine key
      (Storage.rowCells t (rewrittenRow lib (t.schema name) need sets (cellValues lib cells))) =
      setCells lib name t sets cells := by
  -- column by column: a cell that is written is the assigned one, a cell left out the old one
  have hfull : (∀ c ∈ t.cols, c.name ∈ need ∨ c.name ∈ sets.map SetItem.column) →
      Storage.rowCells t (rewrittenRow lib (t.schema name) need sets (cellValues lib cells)) =
        setCells lib name t sets cells := by
    intro hall
    apply List.ext_getElem?
    intro i
    cases hc : t.cols[i]? with
    | none => simp [Storage.rowCells, setCells, Storage.assignCells, hc]
    | some c =>
      obtain ⟨v, hv, -⟩ := h.getElem? (List.getElem?_eq_some_iff.mp hc).1
      rw [rowCells_rewrittenRow ht h need hs hc, if_pos (hall c (List.mem_of_getElem? hc)),
        setCells_at hc hv]
      rfl
  rcases hcomp with ⟨hkind, hbase⟩ | hall
  · rw [TableTx.written, if_pos hkind, hbase, Option.getD_some, Storage.fillCells]
    apply List.ext_getElem?
    intro i
    rw [List.getElem?_mapIdx]
    cases hc : t.cols[i]? with
    | none => simp [Storage.rowCells, setCells, Storage.assignCells, hc]
    | some c =>
      obtain ⟨v, hv, hn⟩ := h.getElem? (List.getElem?_eq_some_iff.mp hc).1
      rw [rowCells_rewrittenRow ht h need hs hc, setCells_at hc hv, hv]
      split
      · rfl
      · rename_i hout
        rw [(getEntry_assigned hs).mpr fun hm => hout (Or.inr hm)]
        exact congrArg some (Storage.encodeVariant_normal hn).symm
  · rw [hfull hall, written_setCells]

/-- The indexes get what the written row is read as. -/
theorem indexedAsRead_rewrittenRow (ht : GoodTable t) (h : GoodRow t key cells)
    (hv : tx.view.get key = some cells) (hk : KeepsKey (t.schema name) sets) {need : List Bytes}
    (hneed : ∀ n ∈ t.keyNames, n ∈ need)
    (hs : SetsEvaluate lib (t.schema name) sets (cellValues lib cells))
    (hcomp : Completes t need sets tx key cells) :
    Storage.IndexedAsRead t tx
      (rewrittenRow lib (t.schema name) need sets (cellValues lib cells)) := by
  intro ov ix
  obtain ⟨vals, hdec, hvals⟩ := Storage.decodeRow_good ht h
  have hold : Storage.oldVals t tx key = some vals := by
    rw [Storage.oldVals, hv, Option.bind_some, hdec]
  rw [rowKeyOf_rewrittenRow ht h hk hneed hs, written_rewrittenRow ht h hs hcomp, hold,
    Option.some_or]
  refine Storage.indexValOf_congr ht (by rw [setCells, Storage.assignCells, List.length_mapIdx])
    (fun i c hc => ?_) ix
  obtain ⟨v, hcell, hn⟩ := h.getElem? (List.getElem?_eq_some_iff.mp hc).1
  have hval : (cellValues lib cells)[i]? = some (Storage.toSQLValue lib v) := by
    rw [cellValues, List.getElem?_map, hcell]
    rfl
  have hrow : (rewrittenRow lib (t.schema name) need sets (cellValues lib cells))[i]? = _ :=
    rewrittenRow_at ht need hc hval
  refine ⟨_, _, setCells_at hc hcell, Storage.rowVals_at ht _ _ hc, ?_⟩
  rw [hrow, Option.getD_some]
  by_cases hin : c.name ∈ need ∨ c.name ∈ sets.map SetItem.column
  · rw [if_pos hin]
    cases he : SortedMap.getEntry c.name
        (assigned lib (t.schema name) sets (cellValues lib cells)).reverse with
    | some w =>
      have hp := proper_evalSetsCtx (fun _ _ hw => proper_rowContext (proper_cellValues lib cells) hw)
        hs.gives _ (getEntry_mem he)
      have hmiss : w.missing = false := hp.notMissing
      simp only [Option.getD_some, hmiss, Bool.false_eq_true, if_false, Option.map_some]
      exact ⟨trivial, rfl⟩
    | none =>
      have hneed : c.name ∈ need := hin.resolve_right ((getEntry_assigned hs).mp he)
      have hmiss := (Storage.proper_toSQLValue lib v).notMissing
      simp only [Option.getD_none, if_pos hneed, hmiss, Bool.false_eq_true, if_false,
        Option.map_none, hn lib]
      exact ⟨trivial, rfl⟩
  · have he := (getEntry_assigned hs).mpr fun hm => hin (Or.inr hm)
    rw [if_neg hin, he]
    simp only [missingValue, if_true, Option.map_none, Option.getD_none, Option.map_some,
      Option.getD_some, Storage.Vals.cell, hvals i c hc, hcell, Option.join_some]
    exact ⟨rfl, rfl⟩

/-- The expressions of the statement refer to needed columns. -/
theorem idents_sub_needCols {schema : TableSchema} :
    (∀ item ∈ sets, ∀ n ∈ item.value.idents, n ∈ needCols schema sets where_) ∧
      ∀ n ∈ where_.idents, n ∈ needCols schema sets where_ := by
  constructor
  · intro item hitem n hn
    exact List.mem_append_left _ (List.mem_append_left _ (List.mem_flatMap.mpr ⟨item, hitem, hn⟩))
  · intro n hn
    exact List.mem_append_left _ (List.mem_append_right _ hn)

/-- The loop of `execUpdateColumnar` over what was read of some rows. -/
theorem gives_updatedRows (ht : GoodTable t) {residual : Expr}
    (hres : ∀ n ∈ residual.idents, n ∈ needCols (t.schema name) sets where_)
    (es : List (Bytes × List Cell)) (hes : ∀ e ∈ es, GoodRow t e.1 e.2)
    (hw : ∀ e ∈ es, WhereEvaluates lib (t.schema name) residual (cellValues lib e.2))
    (hs : ∀ e ∈ es, selects lib (t.schema name) residual (cellValues lib e.2) = true →
      SetsEvaluate lib (t.schema name) sets (cellValues lib e.2)) :
    Gives (updatedRows lib (t.schema name) (needCols (t.schema name) sets where_) sets residual
        (es.map fun e => readValues (placesOf (t.schema name)
          (needCols (t.schema name) sets where_)) (cellValues lib e.2)))
      ((es.filter fun e => selects lib (t.schema name) residual (cellValues lib e.2)).map fun e =>
        rewrittenRow lib (t.schema name) (needCols (t.schema name) sets where_) sets
          (cellValues lib e.2)) := by
  induction es with
  | nil => exact gives_pure.mpr rfl
  | cons e es ih =>
    obtain ⟨he, hes⟩ := List.forall_mem_cons.mp hes
    obtain ⟨hwe, hw⟩ := List.forall_mem_cons.mp hw
    obtain ⟨hse, hs⟩ := List.forall_mem_cons.mp hs
    have ih := ih hes hw hs
    have hctx : ∀ n ∈ needCols (t.schema name) sets where_,
        rowContext (t.schema name) (readValues (placesOf (t.schema name)
          (needCols (t.schema name) sets where_)) (cellValues lib e.2)) n =
        rowContext (t.schema name) (cellValues lib e.2) n := fun n hn =>
      rowContext_readValues ht he hn
    have hwhere := hwe.gives
    rw [← whereTrue_congr fun n hn => hctx n (hres n hn)] at hwhere
    rw [List.map_cons, updatedRows]
    refine gives_bind.mpr ⟨_, hwhere, ?_⟩
    rw [List.filter_cons]
    cases hsel : selects lib (t.schema name) residual (cellValues lib e.2) with
    | false => exact ih
    | true =>
      have hsets := (hse hsel).gives
      rw [← evalSetsCtx_congr fun item hitem n hn =>
        hctx n (idents_sub_needCols.1 item hitem n hn)] at hsets
      exact gives_bind.mpr ⟨_, gives_evalSetsIntoRow hsets _, gives_bind.mpr ⟨_, ih,
        gives_pure.mpr rfl⟩⟩

end Rewrite

/-! ### The rewrite -/

section Columnar

variable {lib : Stdlib} {b : Batch} {name : Bytes} {t : Table} {tx tx' : TableTx}
  {sets : List SetItem} {where_ : Expr} {plan : Option PKRange × Bool}

/-- The key lies in the window of the range. -/
def inWindow (kind : EngineKind) (r : Option PKRange) (key : Bytes) : Bool :=
  TableTx.inBounds kind (pkRangeBytes r).1 (pkRangeBytes r).2 key

/-- What is left of the WHERE when the range is exact. -/
def residual (where_ : Expr) (plan : Option PKRange × Bool) : Expr :=
  if plan.2 then .nil else where_

/-- The rows that the columnar paths hit. -/
def columnarHit (lib : Stdlib) (schema : TableSchema) (kind : EngineKind) (where_ : Expr)
    (plan : Option PKRange × Bool) (key : Bytes) (row : List Value) : Bool :=
  inWindow kind plan.1 key && selects lib schema (residual where_ plan) row

/-- What a range of one key reads is right: the row at the key is the only one in the range, and if
it is not there, the WHERE is not true of a row of NULLs. -/
def PointRead (lib : Stdlib) (name : Bytes) (t : Table) (tx : TableTx) (where_ : Expr)
    (plan : Option PKRange × Bool) : Prop :=
  ∀ pk, Storage.pointRangeKey (pkRangeBytes plan.1).1 (pkRangeBytes plan.1).2 = some pk →
    (∀ key, (tx.view.get key).isSome → inWindow t.engine plan.1 key = true → key = pk) ∧
    (tx.view.get pk = none → Gives (whereTrue lib (residual where_ plan)
      (rowContext (t.schema name) (t.cols.map fun _ => nullValue))) false)

theorem inWindow_pointRangeKey {kind : EngineKind} {pk : Bytes}
    (h : Storage.pointRangeKey (pkRangeBytes plan.1).1 (pkRangeBytes plan.1).2 = some pk) :
    inWindow kind plan.1 pk = true := by
  unfold Storage.pointRangeKey at h
  unfold inWindow TableTx.inBounds
  split at h
  · rename_i lo hi hlo hhi
    split at h
    · rename_i hb
      obtain rfl := Option.some.inj h
      have hlt : lo < lo ++ [0xff] := by
        have hnil := (append_lt_append_iff lo [] [0xff]).mpr (List.nil_lt_cons _ _)
        rwa [List.append_nil] at hnil
      rw [hlo, hhi, hb.2]
      simp [hlt]
    · cases h
  · cases h

theorem placesOf_ne_nil (ht : GoodTable t) {need : List Bytes}
    (hneed : ∀ n ∈ t.keyNames, n ∈ need) : placesOf (t.schema name) need ≠ [] := by
  intro he
  obtain ⟨p, hp⟩ := List.exists_mem_of_ne_nil _ ht.keyed
  have hlt := ht.inside p hp
  have hc := List.getElem?_eq_getElem hlt
  have hmem : p ∈ placesOf (t.schema name) need :=
    (mem_placesOf hc).mpr (hneed _ (mem_keyNames.mpr ⟨p, hp, _, hc, rfl⟩))
  rw [he] at hmem
  cases hmem

theorem keyNames_sub_needCols (ht : GoodTable t) :
    ∀ n ∈ t.keyNames, n ∈ needCols (t.schema name) sets where_ := fun _ hn =>
  List.mem_append_right _ (pkIndex_schema name ht ▸ hn)

/-- What the rewrite makes of the rows it reads: the rewritten rows hit. -/
theorem gives_scanned (ht : GoodTable t) (h : GoodRows t tx) (hl : tx.ListsRows t.engine)
    (hpoint : PointRead lib name t tx where_ plan)
    (hw : ∀ e ∈ tx.view.entries, WhereEvaluates lib (t.schema name) where_ (cellValues lib e.2))
    (hs : ∀ e ∈ hitEntries lib (columnarHit lib (t.schema name) t.engine where_ plan) tx,
      SetsEvaluate lib (t.schema name) sets (cellValues lib e.2)) :
    Gives (updatedRows lib (t.schema name) (needCols (t.schema name) sets where_) sets
        (residual where_ plan) (Storage.scanColumns t lib tx
          (placesOf (t.schema name) (needCols (t.schema name) sets where_)) plan.1))
      ((hitEntries lib (columnarHit lib (t.schema name) t.engine where_ plan) tx).map fun e =>
        rewrittenRow lib (t.schema name) (needCols (t.schema name) sets where_) sets
          (cellValues lib e.2)) := by
  have hgood : ∀ e ∈ tx.view.entries, GoodRow t e.1 e.2 := fun e he =>
    h _ _ (SortedMap.get_eq_some.mpr he)
  have hres : ∀ n ∈ (residual where_ plan).idents, n ∈ needCols (t.schema name) sets where_ := by
    unfold residual
    split
    · exact nofun
    · exact idents_sub_needCols.2
  have hwres : ∀ e ∈ tx.view.entries,
      WhereEvaluates lib (t.schema name) (residual where_ plan) (cellValues lib e.2) := by
    intro e he
    unfold residual
    split
    · exact ⟨true, rfl⟩
    · exact hw e he
  have hsplit : hitEntries lib (columnarHit lib (t.schema name) t.engine where_ plan) tx =
      (tx.view.entries.filter fun e => inWindow t.engine plan.1 e.1).filter fun e =>
        selects lib (t.schema name) (residual where_ plan) (cellValues lib e.2) := by
    rw [List.filter_filter]
    exact List.filter_congr fun e _ => Bool.and_comm _ _
  have hrows := gives_updatedRows ht hres
    (tx.view.entries.filter fun e => inWindow t.engine plan.1 e.1)
    (fun e he => hgood e (List.mem_of_mem_filter he))
    (fun e he => hwres e (List.mem_of_mem_filter he))
    fun e he hsel => hs e (hsplit ▸ List.mem_filter.mpr ⟨he, hsel⟩)
  rw [hsplit]
  unfold Storage.scanColumns
  cases hpt : Storage.pointRangeKey (pkRangeBytes plan.1).1 (pkRangeBytes plan.1).2 with
  | none =>
    have hne : (placesOf (t.schema name) (needCols (t.schema name) sets where_)).isEmpty = false :=
      List.isEmpty_eq_false_iff.mpr (placesOf_ne_nil ht (keyNames_sub_needCols ht))
    simp only [hpt, hne, Bool.false_eq_true, if_false, keysRange_eq hl, List.map_map]
    rw [List.map_congr_left fun e he => ?_]
    · exact hrows
    · have hmem := List.mem_of_mem_filter he
      exact columnsOf_good lib (hgood e hmem) (SortedMap.get_eq_some.mpr hmem) _ fun _ => rfl
  | some pk =>
    obtain ⟨honly, hnull⟩ := hpoint pk hpt
    have hone : (tx.view.entries.filter fun e => inWindow t.engine plan.1 e.1) =
        ((tx.view.get pk).map (Prod.mk pk)).toList := by
      rw [← hitEntries_key lib]
      refine List.filter_congr fun e he => ?_
      rw [Bool.eq_iff_iff, decide_eq_true_eq]
      refine ⟨fun hin => honly e.1 ?_ hin, fun hk => hk ▸ inWindow_pointRangeKey hpt⟩
      rw [SortedMap.get_eq_some.mpr he]
      rfl
    simp only [hpt]
    rw [hone] at hrows ⊢
    cases hv : tx.view.get pk with
    | none =>
      rw [columnsOf_none hv _ rfl]
      exact gives_bind.mpr ⟨false, hnull hv, gives_pure.mpr rfl⟩
    | some cells =>
      rw [hv] at hrows
      rw [columnsOf_good lib (h pk cells hv) hv _ fun _ => rfl]
      exact hrows

theorem does_rewriteRows (hc : t.engine.isColumnar = true) (ht : GoodTable t) (h : GoodRows t tx)
    (hl : tx.ListsRows t.engine) (hk : KeepsKey (t.schema name) sets)
    (hpoint : PointRead lib name t tx where_ plan)
    (hw : ∀ e ∈ tx.view.entries, WhereEvaluates lib (t.schema name) where_ (cellValues lib e.2))
    (hs : ∀ e ∈ hitEntries lib (columnarHit lib (t.schema name) t.engine where_ plan) tx,
      SetsEvaluate lib (t.schema name) sets (cellValues lib e.2))
    (hcomp : ∀ e ∈ hitEntries lib (columnarHit lib (t.schema name) t.engine where_ plan) tx,
      Completes t (needCols (t.schema name) sets where_) sets tx e.1 e.2) :
    ∃ n tx', Does b name t (rewriteRows lib (t.schema name) name sets where_ plan) tx
        ⟨ascii "update", n⟩ tx' ∧
      Updated lib t (columnarHit lib (t.schema name) t.engine where_ plan)
        (newRow lib (t.schema name) sets) tx tx' n := by
  have hgood : ∀ e ∈ hitEntries lib (columnarHit lib (t.schema name) t.engine where_ plan) tx,
      GoodRow t e.1 e.2 := fun e he =>
    h _ _ (SortedMap.get_eq_some.mpr (List.mem_of_mem_filter he))
  have hup := updated_putEach ht h hk (columnarHit lib (t.schema name) t.engine where_ plan)
    (fun e => Storage.rowCells t (rewrittenRow lib (t.schema name)
      (needCols (t.schema name) sets where_) sets (cellValues lib e.2))) hs
    (fun e he => written_rewrittenRow ht (hgood e he) (hs e he) (hcomp e he)) false
  have hkeys : ∀ e ∈ hitEntries lib (columnarHit lib (t.schema name) t.engine where_ plan) tx,
      Storage.rowKeyOf t (rewrittenRow lib (t.schema name)
        (needCols (t.schema name) sets where_) sets (cellValues lib e.2)) = e.1 := fun e he =>
    rowKeyOf_rewrittenRow ht (hgood e he) hk (keyNames_sub_needCols ht) (hs e he)
  have hnodup : (((hitEntries lib (columnarHit lib (t.schema name) t.engine where_ plan) tx).map
      fun e => rewrittenRow lib (t.schema name) (needCols (t.schema name) sets where_) sets
        (cellValues lib e.2)).map (Storage.rowKeyOf t)).Nodup := by
    rw [List.map_map]
    exact (List.map_congr_left hkeys).symm ▸
      List.pairwise_map.mpr (hitEntries_pairwise lib _ tx)
  have hins : Does b name t (Storage.batchInsertAll name _) tx _ _ :=
    Storage.does_batchInsertAll (fun row _ => h.readable _) hnodup fun row hr => by
      obtain ⟨e, he, rfl⟩ := List.mem_map.mp hr
      exact indexedAsRead_rewrittenRow ht (hgood e he)
        (SortedMap.get_eq_some.mpr (List.mem_of_mem_filter he)) hk (keyNames_sub_needCols ht)
        (hs e he) (hcomp e he)
  have hwrites : Storage.rowWrites t
      ((hitEntries lib (columnarHit lib (t.schema name) t.engine where_ plan) tx).map fun e =>
        rewrittenRow lib (t.schema name) (needCols (t.schema name) sets where_) sets
          (cellValues lib e.2)) =
      (hitEntries lib (columnarHit lib (t.schema name) t.engine where_ plan) tx).map fun e =>
        (e.1, Storage.rowCells t (rewrittenRow lib (t.schema name)
          (needCols (t.schema name) sets where_) sets (cellValues lib e.2))) := by
    rw [Storage.rowWrites, List.map_map]
    exact List.map_congr_left fun e he => congrArg (·, _) (hkeys e he)
  rw [hwrites, List.length_map] at hins
  refine ⟨_, _, ?_, hup⟩
  exact Storage.does_bind (Storage.does_scanColumnsOf lib hc _ _)
    (Storage.does_bind (does_liftEval (gives_scanned ht h hl hpoint hw hs))
      (Storage.does_bind hins (Storage.does_pure _)))

end Columnar

/-! ### The constant path -/

section Const

variable {lib : Stdlib} {b : Batch} {name : Bytes} {t : Table} {tx tx' : TableTx}
  {sets : List SetItem} {where_ : Expr} {plan : Option PKRange × Bool}
  {consts : List (ℕ × Value)}

/-- A constant is the value of its assignment in every row. -/
theorem constSet_spec {schema : TableSchema} {item : SetItem} {c : ℕ × Value}
    (h : constSet lib schema item = some c) :
    colPlace schema item.column = some c.1 ∧
      ∀ ctx, Gives (setValue lib schema ctx item) c.2 := by
  unfold constSet at h
  split at h
  · rename_i l i hl hi
    split at h
    · rename_i v hv
      obtain rfl := Option.some.inj h
      refine ⟨hi, fun ctx => ?_⟩
      have hctx : setValue lib schema ctx item = setValue lib schema (fun _ => none) item :=
        setValue_congr fun n hn => by
          rw [hl] at hn
          cases hn
      rw [hctx]
      exact hv
    · cases h
  · cases h

/-- The assignment at a place and the one to its column. -/
def SameSet (schema : TableSchema) (w : Bytes × Value) (c : ℕ × Value) : Prop :=
  colPlace schema w.1 = some c.1 ∧ w.2 = c.2

theorem updateConstSets_spec {schema : TableSchema}
    (h : updateConstSets lib schema sets = some consts) :
    ∃ ws, (∀ ctx, Gives (evalSetsCtx lib schema ctx sets) ws) ∧
      List.Forall₂ (SameSet schema) ws consts := by
  induction sets generalizing consts with
  | nil =>
    obtain rfl := Option.some.inj h
    exact ⟨[], fun _ => gives_pure.mpr rfl, .nil⟩
  | cons item sets ih =>
    unfold updateConstSets at h ih
    rw [List.mapM_cons] at h
    obtain ⟨c, hc, h⟩ := Option.bind_eq_some_iff.mp h
    obtain ⟨cs, hcs, h⟩ := Option.bind_eq_some_iff.mp h
    obtain rfl := Option.some.inj h
    obtain ⟨ws, hws, hsame⟩ := ih hcs
    obtain ⟨hplace, hval⟩ := constSet_spec hc
    exact ⟨(item.column, c.2) :: ws,
      fun ctx => gives_evalSetsCtx_cons.mpr ⟨c.2, ws, hval ctx, hws ctx, rfl⟩,
      .cons ⟨hplace, rfl⟩ hsame⟩

theorem getEntry_sameSet (ht : GoodTable t) {ws : List (Bytes × Value)}
    (h : List.Forall₂ (SameSet (t.schema name)) ws consts) {i : ℕ} {c : ColInfo}
    (hc : t.cols[i]? = some c) :
    SortedMap.getEntry i consts = SortedMap.getEntry c.name ws := by
  induction h with
  | nil => rfl
  | @cons w d ws consts hwd _ ih =>
    rw [SortedMap.getEntry_cons, SortedMap.getEntry_cons, ih, hwd.2]
    have hiff : d.1 = i ↔ w.1 = c.name := by
      rw [← colPlace_eq name ht hc, hwd.1, Option.some.injEq]
    by_cases hw : w.1 = c.name
    · rw [if_pos hw, if_pos (hiff.mpr hw)]
    · rw [if_neg hw, if_neg fun hd => hw (hiff.mp hd)]

/-- The cells of the constants. -/
def constCells (t : Table) (consts : List (ℕ × Value)) : List Cell :=
  t.cols.mapIdx fun i _ =>
    (SortedMap.getEntry i consts.reverse).bind fun v => Storage.encodeVariant (Storage.fromSQLValue v)

theorem exec_updateColumnConst (name : Bytes) (t : Table) (tx : TableTx)
    (consts : List (ℕ × Value)) (r : Option PKRange) (ixs : SortedMap Bytes Storage.Index) :
    (Storage.updateColumnConst name consts r).exec (b.withLive name t ⟨ixs, tx⟩) =
        (.ok none, b.withLive name t ⟨ixs, tx⟩) ∨
      t.engine = .cstore2 ∧ ixs.entries = [] ∧
        (Storage.updateColumnConst name consts r).exec (b.withLive name t ⟨ixs, tx⟩) =
          (.ok (some (tx.updateConstRange (constCells t consts) (pkRangeBytes r).1
              (pkRangeBytes r).2).2),
            b.withLive name t ⟨ixs, (tx.updateConstRange (constCells t consts)
              (pkRangeBytes r).1 (pkRangeBytes r).2).1⟩) := by
  unfold Storage.updateColumnConst
  split
  · exact Or.inl rfl
  · rw [Prog.exec_bind_ok (Storage.exec_getTable_withLive _)]
    dsimp only
    split
    · rename_i pkCol hkind hixs hpk
      split
      · exact Or.inl rfl
      · refine Or.inr ⟨hkind, hixs, ?_⟩
        exact Storage.exec_writeTo_withLive ⟨ixs, tx⟩ _
    · exact Or.inl rfl

theorem written_constCells (ht : GoodTable t) {key : Bytes} {cells : List Cell}
    (h : GoodRow t key cells) (hkind : t.engine = .cstore2)
    (hbase : tx.base.get key = some cells)
    (hconst : updateConstSets lib (t.schema name) sets = some consts) :
    tx.written t.engine key (constCells t consts) = setCells lib name t sets cells := by
  obtain ⟨ws, hws, hsame⟩ := updateConstSets_spec hconst
  have hassigned : assigned lib (t.schema name) sets (cellValues lib cells) = ws := by
    have hg := hws (rowContext (t.schema name) (cellValues lib cells))
    unfold Gives at hg
    rw [assigned, hg]
  rw [TableTx.written, if_pos hkind, hbase, Option.getD_some, Storage.fillCells]
  apply List.ext_getElem?
  intro i
  rw [List.getElem?_mapIdx, constCells, List.getElem?_mapIdx]
  cases hc : t.cols[i]? with
  | none => simp [setCells, Storage.assignCells, hc]
  | some c =>
    obtain ⟨v, hv, hn⟩ := h.getElem? (List.getElem?_eq_some_iff.mp hc).1
    rw [setCells_at hc hv, hassigned, hv,
      getEntry_sameSet ht (List.forall₂_reverse_iff.mpr hsame) hc]
    cases SortedMap.getEntry c.name ws.reverse with
    | some w => rfl
    | none => exact congrArg some (Storage.encodeVariant_normal hn).symm

/-- The constant path, where the engine takes it, gives the rows in the range the constants. -/
theorem updated_updateConstRange (ht : GoodTable t) (h : GoodRows t tx)
    (hk : KeepsKey (t.schema name) sets) (hkind : t.engine = .cstore2) (hbase : tx.base = tx.view)
    (hx : plan.2 = true) (hconst : updateConstSets lib (t.schema name) sets = some consts) :
    Updated lib t (columnarHit lib (t.schema name) t.engine where_ plan)
      (newRow lib (t.schema name) sets) tx
      (tx.updateConstRange (constCells t consts) (pkRangeBytes plan.1).1
        (pkRangeBytes plan.1).2).1
      (tx.updateConstRange (constCells t consts) (pkRangeBytes plan.1).1
        (pkRangeBytes plan.1).2).2 := by
  obtain ⟨ws, hws, -⟩ := updateConstSets_spec hconst
  have hentries : hitEntries lib (columnarHit lib (t.schema name) t.engine where_ plan) tx =
      tx.view.entries.filter fun e => inWindow t.engine plan.1 e.1 := by
    refine List.filter_congr fun e _ => ?_
    have hsel : selects lib (t.schema name) (residual where_ plan) (cellValues lib e.2) = true := by
      rw [residual, if_pos hx]
      rfl
    rw [columnarHit, hsel, Bool.and_true]
  have hup := updated_putEach ht h hk (columnarHit lib (t.schema name) t.engine where_ plan)
    (fun _ => constCells t consts) (fun e _ => ⟨ws, hws _⟩)
    (fun e he => by
      have hv := SortedMap.get_eq_some.mpr (List.mem_of_mem_filter he)
      exact written_constCells ht (h _ _ hv) hkind (hbase ▸ hv) hconst) false
  have hpks : tx.keysRange .cstore2 (pkRangeBytes plan.1).1 (pkRangeBytes plan.1).2 =
      (tx.view.entries.filter fun e => inWindow t.engine plan.1 e.1).map Prod.fst := by
    rw [← hkind]
    exact keysRange_eq (fun hl => by rw [hkind] at hl; rcases hl with hl | hl <;> cases hl) _ _
  rw [TableTx.putEach, List.foldl_map, hkind] at hup
  unfold TableTx.updateConstRange
  rw [hpks, ← hentries]
  dsimp only
  rw [List.foldl_map, List.length_map, hkind]
  exact hup

theorem ends_execUpdateColumnar (hc : t.engine.isColumnar = true) (ht : GoodTable t)
    (h : GoodRows t tx) (hl : tx.ListsRows t.engine) (hf : tx.FillsRows t.engine)
    (hk : KeepsKey (t.schema name) sets) (hpoint : PointRead lib name t tx where_ plan)
    (hw : ∀ e ∈ tx.view.entries, WhereEvaluates lib (t.schema name) where_ (cellValues lib e.2))
    (hs : ∀ e ∈ hitEntries lib (columnarHit lib (t.schema name) t.engine where_ plan) tx,
      SetsEvaluate lib (t.schema name) sets (cellValues lib e.2))
    (hcomp : ∀ e ∈ hitEntries lib (columnarHit lib (t.schema name) t.engine where_ plan) tx,
      Completes t (needCols (t.schema name) sets where_) sets tx e.1 e.2) :
    Storage.Ends b name t (execUpdateColumnar lib (t.schema name) name sets where_ plan) tx
      fun r tx' => ∃ n, r = ⟨ascii "update", n⟩ ∧
        Updated lib t (columnarHit lib (t.schema name) t.engine where_ plan)
          (newRow lib (t.schema name) sets) tx tx' n := by
  obtain ⟨n, tx', hd, hup⟩ := does_rewriteRows (b := b) hc ht h hl hk hpoint hw hs hcomp
  have hrewrite := hd.ends (Q := fun r tx' => ∃ n, r = ⟨ascii "update", n⟩ ∧
    Updated lib t (columnarHit lib (t.schema name) t.engine where_ plan)
      (newRow lib (t.schema name) sets) tx tx' n) ⟨n, rfl, hup⟩
  have hany : (sets.any fun item => item.column ∈ pkIndex (t.schema name)) = false := by
    rw [List.any_eq_false]
    intro item hitem
    simpa using hk item hitem
  unfold execUpdateColumnar
  rw [hany, if_neg Bool.false_ne_true]
  split
  · rename_i consts hx hconst
    intro ixs
    rcases exec_updateColumnConst (b := b) name t tx consts plan.1 ixs with he | ⟨hkind, hempty, he⟩
    · rw [Prog.exec_bind_ok he]
      exact hrewrite ixs
    · rw [Prog.exec_bind_ok he]
      refine ⟨_, ixs, _, rfl, ⟨rfl, fun _ => Storage.inStep_of_isEmpty ?_⟩, _, rfl,
        updated_updateConstRange ht h hk hkind (hf hkind) hx hconst⟩
      rw [hempty]
      rfl
  · exact hrewrite

end Const

end Ydbgo.Sql
