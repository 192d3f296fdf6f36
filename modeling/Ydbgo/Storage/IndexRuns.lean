import Ydbgo.Storage.Atomicity
import Ydbgo.Storage.RowOps

/-! # Secondary indexes over whole runs

Calls are made in a transaction, which is committed or rolled back, whether or
not calls failed in it. Every index lists the keys of the rows with each value
over all such runs, as long as rows are indexed under what they are read as,
no update moves a row onto an indexed one, an index is built from a scan that
lists each row once, and no transaction is rolled back that changed an indexed
value.
-/

namespace Ydbgo.Storage

open Sql (Value Stdlib PKRange)

/-! ### What the index sees of a row -/

section Values

variable {t : Table} {ix ix' : Index} {ixs ixs' : SortedMap Bytes Index} {rows : RowMap}
  {key : Bytes} {cells : List Cell} {vals : Vals}

theorem indexValOf_congr_cols (h : ix'.cols = ix.cols) : t.indexValOf ix' = t.indexValOf ix := by
  ext cells : 1
  unfold Table.indexValOf indexValForCols
  rw [h]

theorem indexValForCols_congr_cols (h : ix'.cols = ix.cols) :
    indexValForCols vals t ix' = indexValForCols vals t ix := by
  unfold indexValForCols
  rw [h]

/-- A row is indexed under what its cells are read as. -/
def IndexedUnder (t : Table) (ixs : SortedMap Bytes Index) (vals : Vals) (cells : List Cell) :
    Prop :=
  ∀ name ix, ixs.get name = some ix → t.indexValOf ix cells = indexValForCols vals t ix

/-- No index has a value for a row at the key. -/
def Unlisted (t : Table) (ixs : SortedMap Bytes Index) (rows : RowMap) (key : Bytes) : Prop :=
  ∀ name ix, ixs.get name = some ix → (rows key).bind (t.indexValOf ix) = none

theorem exists_of_cols (h : ixs'.map Index.cols = ixs.map Index.cols) {name : Bytes}
    (hget : ixs'.get name = some ix') : ∃ ix, ixs.get name = some ix ∧ ix'.cols = ix.cols := by
  have hcols := congrArg (fun m => SortedMap.get m name) h
  simp only [SortedMap.get_map, hget, Option.map_some] at hcols
  obtain ⟨ix, hix, he⟩ := Option.map_eq_some_iff.mp hcols.symm
  exact ⟨ix, hix, he.symm⟩

theorem IndexedUnder.of_cols (h : IndexedUnder t ixs vals cells)
    (hcols : ixs'.map Index.cols = ixs.map Index.cols) : IndexedUnder t ixs' vals cells := by
  intro name ix' hget
  obtain ⟨ix, hix, he⟩ := exists_of_cols hcols hget
  rw [indexValOf_congr_cols he, indexValForCols_congr_cols he]
  exact h name ix hix

theorem Unlisted.of_cols (h : Unlisted t ixs rows key)
    (hcols : ixs'.map Index.cols = ixs.map Index.cols) : Unlisted t ixs' rows key := by
  intro name ix' hget
  obtain ⟨ix, hix, he⟩ := exists_of_cols hcols hget
  rw [indexValOf_congr_cols he]
  exact h name ix hix

/-- A row without a value in the index may as well not be there. -/
theorem Index.Lists.update_none (h : ix.Lists t rows)
    (hno : (rows key).bind (t.indexValOf ix) = none) :
    ix.Lists t (Function.update rows key none) := by
  constructor
  · exact h.nodup
  · intro enc k
    rw [h.mem]
    by_cases hk : k = key
    · subst hk
      simp only [Function.update_self, reduceCtorEq, false_and, exists_false, iff_false]
      rintro ⟨cells, hrow, hv⟩
      rw [hrow, Option.bind_some, hv] at hno
      cases hno
    · rw [Function.update_of_ne hk]

theorem inStep_update_none (h : InStep t ixs rows) (hno : Unlisted t ixs rows key) :
    InStep t ixs (Function.update rows key none) :=
  fun name ix hget => (h name ix hget).update_none (hno name ix hget)

theorem inStep_put (h : InStep t ixs (Function.update rows key none))
    (hval : IndexedUnder t ixs vals cells) :
    InStep t (addRowIndexes t vals key ixs) (Function.update rows key (some cells)) := by
  intro name ix' hget
  rw [addRowIndexes, updateIndexes_eq, SortedMap.get_map] at hget
  obtain ⟨ix, hix, rfl⟩ := Option.map_eq_some_iff.mp hget
  have hadd := lists_add (h name ix hix) (Function.update_self key none rows) (hval name ix hix)
  rwa [Function.update_idem] at hadd

/-- The values of a row whose cells are given by the names of their columns. -/
theorem decodeRow_map (t : Table) (g : Bytes → SqlValue) :
    ∃ vals', t.decodeRow (some (t.cols.map fun c => some (g c.name))) = some vals' ∧
      ∀ c ∈ t.cols, vals' c.name = some (g c.name) := by
  have hsome : ∀ c ∈ t.cols.map (fun c => (some (g c.name) : Cell)), c.isSome := by
    intro c hc
    obtain ⟨_, -, rfl⟩ := List.mem_map.mp hc
    rfl
  refine ⟨_, by rw [Table.decodeRow, Option.bind_some, decodeCells_eq hsome]; rfl, fun c hc => ?_⟩
  have hzip : ((t.cols.map ColInfo.name).zip
      ((t.cols.map fun c => (some (g c.name) : Cell)).map variant)).reverse =
      (t.cols.map ColInfo.name).reverse.map fun n => (n, g n) := by
    rw [← List.map_reverse, List.map_map, List.zip_map', List.map_reverse, List.map_reverse,
      List.map_map]
    rfl
  have hmem : c.name ∈ (t.cols.map ColInfo.name).reverse := by
    rw [List.mem_reverse]
    exact List.mem_map_of_mem hc
  simp only [Vals.ofList, hzip]
  generalize (t.cols.map ColInfo.name).reverse = ns at hmem
  induction ns with
  | nil => cases hmem
  | cons n ns ih =>
    rw [List.map_cons, SortedMap.getEntry_cons]
    split
    · rename_i hn
      rw [hn]
    · rename_i hn
      exact ih ((List.mem_cons.mp hmem).resolve_left (Ne.symm hn))

/-- A row written from a map that names the indexed columns is indexed under its cells. -/
theorem indexedUnder_encodeRowCells (h : ∀ name ix, ixs.get name = some ix → ∀ i ∈ ix.cols,
    ∀ c : ColInfo, t.cols[i]? = some c → (vals c.name).isSome) :
    IndexedUnder t ixs vals (t.encodeRowCells vals) := by
  intro name ix hget
  obtain ⟨vals', hdec, hvals⟩ := decodeRow_map t fun n => { vals.cell n with missing := false }
  have hcells : t.encodeRowCells vals =
      t.cols.map fun c => some { vals.cell c.name with missing := false } := rfl
  rw [Table.indexValOf, hcells, hdec, Option.bind_some]
  have hcol : ∀ i ∈ ix.cols, ((t.cols[i]?.bind fun col : ColInfo => vals' col.name).bind fun v =>
      if v.null then none else some (indexVal v)) =
      (t.cols[i]?.bind fun col : ColInfo => vals col.name).bind fun v =>
        if v.null then none else some (indexVal v) := by
    intro i hi
    cases hc : t.cols[i]? with
    | none => rfl
    | some c =>
      obtain ⟨v, hv⟩ := Option.isSome_iff_exists.mp (h name ix hget i hi c hc)
      rw [Option.bind_some, Option.bind_some, hvals c (List.mem_of_getElem? hc), hv, Vals.cell, hv]
      rfl
  have hcongr : ∀ cols : List ℕ, (∀ i ∈ cols, i ∈ ix.cols) →
      (cols.mapM fun i => (t.cols[i]?.bind fun col : ColInfo => vals' col.name).bind fun v =>
        if v.null then none else some (indexVal v)) =
      cols.mapM fun i => (t.cols[i]?.bind fun col : ColInfo => vals col.name).bind fun v =>
        if v.null then none else some (indexVal v) := by
    intro cols hsub
    induction cols with
    | nil => rfl
    | cons i cols ih =>
      obtain ⟨hi, hsub⟩ := List.forall_mem_cons.mp hsub
      rw [List.mapM_cons, List.mapM_cons, hcol i hi, ih hsub]
  unfold indexValForCols
  rw [hcongr ix.cols fun _ => id]

theorem fromSQLValue_with_missing {v : Value} (h : v.missing = false) :
    { fromSQLValue v with missing := false } = fromSQLValue v := by
  unfold fromSQLValue
  rw [h]
  split
  · contradiction
  · split <;> (try split) <;> rfl

/-- A full row of `BatchInsertRows` is indexed under its cells. -/
theorem indexedUnder_rowCells {row : List Value}
    (h : ∀ i < t.cols.length, ((row[i]?).getD {}).missing = false) (ov : Option Vals) :
    IndexedUnder t ixs (rowVals t ov row) (rowCells t row) := by
  rintro name ix -
  have hcells : rowCells t row = t.cols.mapIdx fun i _ =>
      some { fromSQLValue ((row[i]?).getD {}) with missing := false } := by
    apply List.ext_getElem?
    intro i
    rw [rowCells, List.getElem?_mapIdx, List.getElem?_mapIdx]
    cases hc : t.cols[i]? with
    | none => rfl
    | some c => simp [h i (List.getElem?_eq_some_iff.mp hc).1, encodeVariant]
  have hsome : ∀ c ∈ rowCells t row, c.isSome := by
    intro c hc
    rw [hcells] at hc
    obtain ⟨i, hi, rfl⟩ := List.mem_mapIdx.mp hc
    rfl
  have hvals : t.decodeRow (some (rowCells t row)) = some (rowVals t ov row) := by
    rw [Table.decodeRow, Option.bind_some, decodeCells_eq hsome, Option.map_some]
    have hzip : ∀ (cs : List ColInfo) (f : ℕ → SqlValue), (cs.map ColInfo.name).zip
        ((cs.mapIdx fun i _ => some { f i with missing := false }).map variant) =
          cs.mapIdx fun i c => (c.name, { f i with missing := false }) := by
      intro cs
      induction cs with
      | nil => exact fun _ => rfl
      | cons c cs ih =>
        intro f
        rw [List.mapIdx_cons, List.mapIdx_cons, List.map_cons, List.map_cons, List.zip_cons_cons]
        exact congrArg (List.cons _) (ih fun i => f (i + 1))
    have hwrites : (t.cols.mapIdx fun i c =>
        (c.name, { fromSQLValue ((row[i]?).getD {}) with missing := false })) =
          t.cols.mapIdx fun i c => (c.name, if ((row[i]?).getD {}).missing then
              (ov.map fun ov => ov.cell c.name).getD (fromSQLValue ((row[i]?).getD {}))
            else fromSQLValue ((row[i]?).getD {})) := by
      ext i : 1
      rw [List.getElem?_mapIdx, List.getElem?_mapIdx]
      cases hc : t.cols[i]? with
      | none => rfl
      | some c =>
        have hm := h i (List.getElem?_eq_some_iff.mp hc).1
        simp only [Option.map_some, hm, fromSQLValue_with_missing hm, Bool.false_eq_true, if_false]
    rw [hcells, hzip, hwrites, rowVals_eq]
  rw [Table.indexValOf, hvals, Option.bind_some]

end Values

/-! ### Programs on the rows -/

/-- Every live key is among the listed ones. -/
def TableTx.ListsLive (tx : TableTx) : Prop :=
  ∀ key, (tx.view.get key).isSome → key ∈ tx.listed

/-- The indexes are in step with the rows, and every live key is listed. -/
structure Live.Ok (t : Table) (l : Live) : Prop where
  inStep : InStep t l.indexes l.tx.view.get
  lists : l.tx.ListsLive

section Rows

variable {t : Table} {tx : TableTx} {l : Live} {key : Bytes} {cells : List Cell} {vals : Vals}

theorem listsLive_put (h : tx.ListsLive) (kind : EngineKind) (count : Bool) (key : Bytes)
    (cells : List Cell) : (tx.put kind count key cells).ListsLive := by
  intro k hk
  rw [view_put] at hk
  change k ∈ if (tx.view.get key).isSome then tx.listed
    else tx.listed.orderedInsert (· ≤ ·) key
  by_cases hlive : (tx.view.get key).isSome = true
  · rw [if_pos hlive]
    split at hk
    · rename_i he
      exact he ▸ h key hlive
    · exact h k hk
  · rw [if_neg hlive, List.mem_orderedInsert]
    split at hk
    · rename_i he
      exact Or.inl he.symm
    · exact Or.inr (h k hk)

theorem listsLive_of_view {tx' : TableTx} (h : tx.ListsLive) (hlisted : tx'.listed = tx.listed)
    (hview : ∀ key, (tx'.view.get key).isSome → (tx.view.get key).isSome) : tx'.ListsLive := by
  intro key hk
  rw [hlisted]
  exact h key (hview key hk)

theorem listsLive_delete (h : tx.ListsLive) (kind : EngineKind) (key : Bytes) :
    (tx.delete kind key).ListsLive := by
  refine listsLive_of_view h rfl fun k hk => ?_
  simp only [TableTx.delete, SortedMap.get_erase] at hk
  split at hk
  · cases hk
  · exact hk

theorem listsLive_foldl_delete (h : tx.ListsLive) (kind : EngineKind) (keys : List Bytes) :
    (keys.foldl (TableTx.delete kind) tx).ListsLive := by
  induction keys generalizing tx with
  | nil => exact h
  | cons k keys ih => exact ih (listsLive_delete h kind k)

theorem listsLive_begin (s : TableStore) : (TableTx.begin_ s).ListsLive :=
  fun _ hk => SortedMap.mem_keys.mpr hk

/-- What the transaction reads of a row is there. -/
theorem view_of_get {kind : EngineKind} (h : tx.get kind key = some cells) :
    tx.view.get key = some cells := by
  cases kind with
  | cstore => exact (Option.filter_eq_some_iff.mp h).1
  | _ => exact h

theorem isSome_of_decodeCells {vs : List SqlValue} (h : decodeCells cells = some vs) :
    ∀ c ∈ cells, c.isSome := by
  unfold decodeCells at h
  induction cells generalizing vs with
  | nil => simp
  | cons c cells ih =>
    rw [List.mapM_cons] at h
    obtain ⟨v, hv, h⟩ := Option.bind_eq_some_iff.mp h
    obtain ⟨vs', hvs, -⟩ := Option.bind_eq_some_iff.mp h
    exact List.forall_mem_cons.mpr ⟨Option.isSome_iff_exists.mpr ⟨v, hv⟩, ih hvs⟩

/-- A row that the transaction does not read has no value in an index. -/
theorem indexValOf_of_get (h : tx.get t.engine key = none) (ix : Index) :
    (tx.view.get key).bind (t.indexValOf ix) = none := by
  cases hv : tx.view.get key with
  | none => rfl
  | some cells =>
    have hdec : decodeCells cells = none := by
      unfold TableTx.get at h
      split at h
      · rw [hv, Option.filter_some] at h
        split at h
        · cases h
        · rename_i hall
          cases hc : decodeCells cells with
          | none => rfl
          | some vs => exact absurd (List.all_eq_true.mpr (isSome_of_decodeCells hc)) hall
      · rw [hv] at h
        cases h
    rw [Option.bind_some, Table.indexValOf, Table.decodeRow, Option.bind_some, hdec]
    rfl

/-- The old row at a key, if there is one, as far as it can be read. -/
def readOld (t : Table) (tx : TableTx) (key : Bytes) : Option (Option Vals) :=
  (tx.get t.engine key).map fun old => t.decodeRow (some old)

/-- Taking the old row out of the indexes fails and changes nothing, or leaves them in step with
the other rows. -/
theorem dropOldIndexes_cases (t : Table) (key : Bytes)
    (h : InStep t l.indexes l.tx.view.get) :
    (∃ e, (dropOldIndexes t key).exec l = (.error e, l)) ∨
      ∃ ov ixs, (dropOldIndexes t key).exec l = (.ok ov, ⟨ixs, l.tx⟩) ∧
        InStep t ixs (Function.update l.tx.view.get key none) ∧
        ixs.map Index.cols = l.indexes.map Index.cols ∧
        (l.indexes.entries = [] ∨ readOld t l.tx key ≠ some none ∧
          ov = (readOld t l.tx key).join) := by
  unfold dropOldIndexes
  rw [Prog.exec_bind_ok (Prog.exec_get l)]
  split
  · rename_i he
    exact Or.inr ⟨none, l.indexes, rfl, inStep_of_isEmpty he, rfl,
      Or.inl (List.isEmpty_iff.mp he)⟩
  · cases hold : l.tx.get t.engine key with
    | none =>
      exact Or.inr ⟨none, l.indexes, rfl, inStep_update_none h fun _ ix _ => indexValOf_of_get hold ix, rfl,
        Or.inr (by simp [readOld, hold])⟩
    | some old =>
      cases hdec : t.decodeRow (some old) with
      | none =>
        simp only [hdec]
        exact Or.inl ⟨shortReader, rfl⟩
      | some ov =>
        simp only [hdec]
        exact Or.inr ⟨some ov, removeRowIndexes t ov key l.indexes, rfl,
          inStep_removeRowIndexes h (view_of_get hold) hdec, map_cols_updateIndexes _,
          Or.inr (by simp [readOld, hold, hdec])⟩

/-- From a state in order the program ends in one, with indexes on the same columns, whether or
not it fails. -/
def Maintains {α : Type} (t : Table) (x : RowM α) (l : Live) : Prop :=
  l.Ok t → (x.exec l).2.Ok t ∧ (x.exec l).2.indexes.map Index.cols = l.indexes.map Index.cols

/-- The steps of a write after the old row is out of the indexes. -/
theorem ok_put {ixs : SortedMap Bytes Index} (count : Bool)
    (h : InStep t ixs (Function.update tx.view.get key none)) (hl : tx.ListsLive)
    (hval : IndexedUnder t ixs vals (tx.written t.engine key cells)) :
    Live.Ok t ⟨addRowIndexes t vals key ixs, tx.put t.engine count key cells⟩ := by
  constructor
  · rw [rows_put]
    exact inStep_put h hval
  · exact listsLive_put hl _ _ _ _

theorem maintains_putRow
    (hval : IndexedUnder t l.indexes vals (t.encodeRowCells vals)) :
    Maintains t (putRow t vals) l := by
  intro h
  unfold putRow
  obtain ⟨e, he⟩ | ⟨ov, ixs, he, hi, hcols, -⟩ := dropOldIndexes_cases t (t.schemaKey vals) h.inStep
  · rw [Prog.exec_bind_error he]
    exact ⟨h, rfl⟩
  · rw [Prog.exec_bind_ok he]
    refine ⟨ok_put true hi h.lists ?_, (map_cols_updateIndexes _).trans hcols⟩
    rw [written_encodeRowCells]
    exact hval.of_cols hcols

theorem maintains_forM {α : Type} {f : α → RowM Unit} {as : List α}
    (hf : ∀ a ∈ as, ∀ l', l'.indexes.map Index.cols = l.indexes.map Index.cols →
      Maintains t (f a) l') : Maintains t (as.forM f) l := by
  intro h
  induction as generalizing l with
  | nil => exact ⟨h, rfl⟩
  | cons a as ih =>
    change ((f a >>= fun _ => as.forM f).exec l).2.Ok t ∧
      ((f a >>= fun _ => as.forM f).exec l).2.indexes.map Index.cols = _
    obtain ⟨ha, hcols⟩ := hf a List.mem_cons_self l rfl h
    rw [Prog.exec_bind]
    split
    · rename_i u l' he
      rw [he] at ha hcols
      obtain ⟨hok, hcols'⟩ := ih (fun b hb l'' hl'' =>
        hf b (List.mem_cons_of_mem _ hb) l'' (hl''.trans hcols)) ha
      exact ⟨hok, hcols'.trans hcols⟩
    · rename_i e l' he
      rw [he] at ha hcols
      exact ⟨ha, hcols⟩

/-- Each row of `BatchInsertRows` is indexed under what its cells are read as then; `ov` is the old
row of an earlier turn. The loop ends at an old row that cannot be read. -/
def RowsIndexed (t : Table) (ixs : SortedMap Bytes Index) :
    Option Vals → List (List Value) → TableTx → Prop
  | _, [], _ => True
  | ov, row :: rows, tx =>
    let key := rowKeyOf t row
    match readOld t tx key with
    | some none => True
    | old =>
      IndexedUnder t ixs (rowVals t (old.join.or ov) row)
          (tx.written t.engine key (rowCells t row)) ∧
        RowsIndexed t ixs (old.join.or ov) rows (tx.put t.engine false key (rowCells t row))

theorem RowsIndexed.of_cols {ixs ixs' : SortedMap Bytes Index}
    (hcols : ixs'.map Index.cols = ixs.map Index.cols) {ov : Option Vals}
    {rows : List (List Value)} (h : RowsIndexed t ixs ov rows tx) :
    RowsIndexed t ixs' ov rows tx := by
  induction rows generalizing ov tx with
  | nil => trivial
  | cons row rows ih =>
    rw [RowsIndexed] at h ⊢
    split
    · trivial
    · rename_i old hne
      split at h
      · rename_i heq
        exact absurd heq hne
      · exact ⟨h.1.of_cols hcols, ih h.2⟩

theorem maintains_deleteRow (key : Bytes) : Maintains t (deleteRow t key) l := by
  intro h
  unfold deleteRow
  obtain ⟨e, he⟩ | ⟨ov, ixs, he, hi, hcols, -⟩ := dropOldIndexes_cases t key h.inStep
  · rw [Prog.exec_bind_error he]
    exact ⟨h, rfl⟩
  · rw [Prog.exec_bind_ok he]
    refine ⟨⟨?_, listsLive_delete h.lists _ _⟩, hcols⟩
    change InStep t ixs (l.tx.delete t.engine key).view.get
    rw [rows_delete]
    exact hi

/-- The updated row is indexed under its cells, and takes the place of no row with a value in an
index if it moves to another key. -/
def UpdateFits (t : Table) (ixs : SortedMap Bytes Index) (tx : TableTx) (pkKey : Bytes)
    (set : Vals) : Prop :=
  ∀ old, readOld t tx pkKey = some (some old) →
    let merged : Vals := fun name => (set name).or (old name)
    IndexedUnder t ixs merged (t.encodeRowCells merged) ∧
      (t.schemaKey merged = pkKey ∨ Unlisted t ixs tx.view.get (t.schemaKey merged))

theorem rowsIndexed_of_nil {ixs : SortedMap Bytes Index} (h : ixs.entries = [])
    (ov : Option Vals) (rows : List (List Value)) (tx : TableTx) :
    RowsIndexed t ixs ov rows tx := by
  have hnone : ∀ vals cells, IndexedUnder t ixs vals cells := by
    intro vals cells name ix hget
    have hmem := SortedMap.get_eq_some.mp hget
    rw [h] at hmem
    cases hmem
  induction rows generalizing ov tx with
  | nil => trivial
  | cons row rows ih =>
    rw [RowsIndexed]
    split
    · trivial
    · exact ⟨hnone _ _, ih _ _⟩

theorem entries_nil_of_cols {ixs ixs' : SortedMap Bytes Index}
    (hcols : ixs'.map Index.cols = ixs.map Index.cols) (h : ixs.entries = []) :
    ixs'.entries = [] := by
  have he := congrArg SortedMap.entries hcols
  simp only [SortedMap.map, h, List.map_nil, List.map_eq_nil_iff] at he
  exact he

theorem maintains_batchInsertRows {ov : Option Vals} {rows : List (List Value)}
    (hval : RowsIndexed t l.indexes ov rows l.tx) :
    Maintains t (batchInsertRows t ov rows) l := by
  induction rows generalizing ov l with
  | nil => exact fun h => ⟨h, rfl⟩
  | cons row rows ih =>
    intro h
    unfold batchInsertRows
    obtain ⟨e, he⟩ | ⟨old, ixs, he, hi, hcols, hold⟩ :=
      dropOldIndexes_cases t (rowKeyOf t row) h.inStep
    · rw [Prog.exec_bind_error he]
      exact ⟨h, rfl⟩
    · rw [Prog.exec_bind_ok he]
      -- the row is indexed under its cells, and so are the rows after it
      have hrow : IndexedUnder t l.indexes (rowVals t (old.or ov) row)
            (l.tx.written t.engine (rowKeyOf t row) (rowCells t row)) ∧
          RowsIndexed t l.indexes (old.or ov) rows
            (l.tx.put t.engine false (rowKeyOf t row) (rowCells t row)) := by
        rcases hold with hnil | ⟨hne, rfl⟩
        · refine ⟨fun name ix hget => ?_, rowsIndexed_of_nil hnil _ _ _⟩
          have hmem := SortedMap.get_eq_some.mp hget
          rw [hnil] at hmem
          cases hmem
        · rw [RowsIndexed] at hval
          split at hval
          · rename_i heq
            exact absurd heq hne
          · exact hval
      have hcols' : (addRowIndexes t (rowVals t (old.or ov) row) (rowKeyOf t row) ixs).map
          Index.cols = l.indexes.map Index.cols := (map_cols_updateIndexes _).trans hcols
      have hok := ok_put false hi h.lists (hrow.1.of_cols hcols)
      obtain ⟨hok', hcols''⟩ := ih (l := ⟨_, _⟩) (hrow.2.of_cols hcols') hok
      exact ⟨hok', hcols''.trans hcols'⟩

theorem maintains_updateRow {pkKey : Bytes} {set : Vals}
    (hfit : UpdateFits t l.indexes l.tx pkKey set) : Maintains t (updateRow t pkKey set) l := by
  intro h
  unfold updateRow
  rw [Prog.exec_bind_ok (Prog.exec_get _)]
  cases hget : l.tx.get t.engine pkKey with
  | none => exact ⟨h, rfl⟩
  | some cells =>
    cases hdec : t.decodeRow (some cells) with
    | none =>
      simp only [Option.bind_some, hdec]
      exact ⟨h, rfl⟩
    | some old =>
      obtain ⟨hval, hkey⟩ := hfit old (by simp [readOld, hget, hdec])
      simp only [Option.bind_some, hdec]
      generalize (fun name => (set name).or (old name) : Vals) = merged at hval hkey ⊢
      have hcols : (removeRowIndexes t old pkKey l.indexes).map Index.cols =
          l.indexes.map Index.cols := map_cols_updateIndexes _
      have hremoved := inStep_removeRowIndexes h.inStep (view_of_get hget) hdec
      have hwritten : ∀ tx' : TableTx, IndexedUnder t (removeRowIndexes t old pkKey l.indexes) merged
          (tx'.written t.engine (t.schemaKey merged) (t.encodeRowCells merged)) := by
        intro tx'
        rw [written_encodeRowCells]
        exact hval.of_cols hcols
      by_cases hk : t.schemaKey merged = pkKey
      · simp only [hk, ne_eq, not_true_eq_false, if_false]
        rw [← hk] at hremoved ⊢
        have hw := hwritten l.tx
        rw [← hk] at hw
        exact ⟨ok_put true hremoved h.lists hw, (map_cols_updateIndexes _).trans (hk ▸ hcols)⟩
      · simp only [ne_eq, hk, not_false_eq_true, if_true]
        -- the row goes from its old key, and no index sees another one at the new key
        have hfree : InStep t (removeRowIndexes t old pkKey l.indexes)
            (Function.update (l.tx.delete t.engine pkKey).view.get (t.schemaKey merged) none) := by
          rw [rows_delete]
          refine inStep_update_none hremoved fun name ix hix => ?_
          rw [Function.update_of_ne hk]
          exact (hkey.resolve_left hk).of_cols hcols name ix hix
        exact ⟨ok_put true hfree (listsLive_delete h.lists _ _) (hwritten _),
          (map_cols_updateIndexes _).trans hcols⟩

end Rows

/-! ### Calls -/

/-- Every index of the catalog is in step with the rows the transaction shows. -/
structure Batch.Ok (b : Batch) : Prop where
  inStep : ∀ name t, b.tables.get name = some t → InStep t t.indexes (b.tx name t).view.get
  lists : ∀ kind name, (b.txs kind name).ListsLive

/-- What a call needs of the transaction to keep the indexes in step. -/
def Call.Fits (b : Batch) : Call → Prop
  | batchInsert table rows => ∀ t, b.tables.get table = some t → ∀ row ∈ rows,
    let vals : Vals := .ofList (row.map fun w => (w.1, fromSQLValue w.2))
    IndexedUnder t t.indexes vals (t.encodeRowCells vals)
  | batchInsertRows table rows => ∀ t, b.tables.get table = some t →
    RowsIndexed t t.indexes none rows (b.tx table t)
  | update table pkValues set => ∀ t, b.tables.get table = some t →
    UpdateFits t t.indexes (b.tx table t) (encodePK pkValues)
      (.ofList (set.map fun w => (w.1, fromSQLValue w.2)))
  | createIndex table _ _ _ => ∀ t, b.tables.get table = some t →
    (((b.tx table t).rowEach t.engine).map Prod.fst).Nodup
  | createTable _ _ _ _ _ | dropTable _ | dropIndex _ _ _ | updateColumnConst _ _ _
  | delete _ _ | deleteRange _ _ | kvPut _ _ _ | kvDelete _ _ => True

section Calls

variable {b : Batch} {name : Bytes} {t : Table}

theorem Batch.Ok.live (h : b.Ok) (ht : b.tables.get name = some t) :
    Live.Ok t ⟨t.indexes, b.tx name t⟩ := ⟨h.inStep name t ht, h.lists _ _⟩

/-- Other tables do not notice an operation on the rows of one. -/
theorem ok_withLive {l : Live} (h : b.Ok) (hl : l.Ok t) : (b.withLive name t l).Ok := by
  constructor
  · intro name' t' hget
    simp only [Batch.withLive, SortedMap.get_insert] at hget
    split at hget
    · rename_i hname
      subst hname
      obtain rfl := Option.some.inj hget
      simpa [Batch.tx, Batch.withLive, inStep_withIndexes] using hl.inStep
    · rename_i hname
      have hstep := h.inStep name' t' hget
      have htx : (b.withLive name t l).tx name' t' = b.tx name' t' := by
        simp [Batch.tx, Batch.withLive, Ne.symm hname]
      rwa [htx]
  · intro kind name'
    change (if kind = t.engine ∧ name' = name then l.tx else b.txs kind name').ListsLive
    split
    · exact hl.lists
    · exact h.lists kind name'

theorem ok_writeTo {α : Type} {fn : RowM α} (h : b.Ok) (ht : b.tables.get name = some t)
    (hfn : Maintains t fn ⟨t.indexes, b.tx name t⟩) : ((writeTo name t fn).exec b).2.Ok :=
  ok_withLive h (hfn (h.live ht)).1

theorem ok_getTable_bind {α : Type} {f : Table → Exec α} (h : b.Ok)
    (hf : ∀ t, b.tables.get name = some t → ((f t).exec b).2.Ok) :
    ((getTable name >>= f).exec b).2.Ok := by
  rw [Prog.exec_bind, exec_getTable]
  cases hg : b.tables.get name with
  | none => exact h
  | some t => exact hf t hg

theorem ok_batchInsert {rows : List (List (Bytes × Value))} (h : b.Ok)
    (hfit : (Call.batchInsert name rows).Fits b) : ((batchInsert name rows).exec b).2.Ok := by
  unfold batchInsert
  split
  · exact h
  · refine ok_getTable_bind h fun t hg => ?_
    rw [Prog.exec_bind_pure_snd]
    refine ok_writeTo h hg (maintains_forM fun row hrow l' hcols => maintains_putRow ?_)
    exact (hfit t hg row hrow).of_cols hcols

theorem ok_batchInsertAll {rows : List (List Value)} (h : b.Ok)
    (hfit : (Call.batchInsertRows name rows).Fits b) :
    ((batchInsertAll name rows).exec b).2.Ok := by
  unfold batchInsertAll
  split
  · exact h
  · refine ok_getTable_bind h fun t hg => ?_
    rw [Prog.exec_bind_pure_snd]
    exact ok_writeTo h hg (maintains_batchInsertRows (hfit t hg))

theorem ok_deleteRange (h : b.Ok) (r : Option PKRange) : ((deleteRange name r).exec b).2.Ok := by
  refine ok_getTable_bind h fun t hg => ?_
  split
  · exact h
  · rw [Prog.exec_bind_ok (Prog.exec_get b), Prog.exec_bind_pure_snd]
    exact ok_writeTo h hg (maintains_forM fun _ _ _ _ => maintains_deleteRow _)

theorem ok_modifyData (h : b.Ok) (f : SortedMap Bytes Bytes → SortedMap Bytes Bytes) :
    ((modifyData name f).exec b).2.Ok := by
  refine ok_getTable_bind h fun t hg => ?_
  split
  · exact h
  · exact ok_writeTo h hg fun hl => ⟨⟨hl.inStep, hl.lists⟩, rfl⟩

theorem listsLive_updateConstRange {tx : TableTx} (h : tx.ListsLive) (cells : List Cell)
    (lo hi : Option Bytes) : (tx.updateConstRange cells lo hi).1.ListsLive := by
  unfold TableTx.updateConstRange
  generalize tx.keysRange .cstore2 lo hi = pks
  induction pks generalizing tx with
  | nil => exact h
  | cons pk pks ih => exact ih (listsLive_put h _ _ _ _)

theorem ok_updateColumnConst (h : b.Ok) (consts : List (ℕ × Value)) (r : Option PKRange) :
    ((updateColumnConst name consts r).exec b).2.Ok := by
  unfold updateColumnConst
  split
  · exact h
  · refine ok_getTable_bind h fun t hg => ?_
    split
    · rename_i hnil _
      split
      · exact h
      · refine ok_writeTo h hg fun hl => ⟨⟨?_, ?_⟩, rfl⟩
        · exact inStep_of_isEmpty (List.isEmpty_iff.mpr hnil)
        · exact listsLive_updateConstRange hl.lists _ _ _
    · exact h

theorem ok_update {pkValues : List Value} {set : List (Bytes × Value)} (h : b.Ok)
    (hfit : (Call.update name pkValues set).Fits b) :
    ((update name pkValues set).exec b).2.Ok :=
  ok_getTable_bind h fun t hg => ok_writeTo h hg (maintains_updateRow (hfit t hg))

theorem ok_delete (h : b.Ok) (pkValues : List Value) : ((delete name pkValues).exec b).2.Ok :=
  ok_getTable_bind h fun _ hg => ok_writeTo h hg (maintains_deleteRow _)

theorem ok_createTable (h : b.Ok) (cols : List ColInfo) (pkNames : List Bytes)
    (engine : EngineKind) (retention : Int64) :
    ((createTable name cols pkNames engine retention).exec b).2.Ok := by
  unfold createTable
  rw [Prog.exec_bind_ok (Prog.exec_get b)]
  cases b.tables.get name with
  | some t => exact h
  | none =>
    refine ⟨fun name' t' hget => ?_, h.lists⟩
    simp only [Prog.exec_modify, SortedMap.get_insert] at hget
    split at hget
    · obtain rfl := Option.some.inj hget
      exact inStep_of_isEmpty rfl
    · exact h.inStep name' t' hget

theorem listsLive_deleteAll {tx : TableTx} (h : tx.ListsLive) (kind : EngineKind) :
    (tx.deleteAll kind).ListsLive := by
  cases kind with
  | kv | cstore => exact listsLive_foldl_delete h _ _
  | table | cstore2 => exact listsLive_of_view h rfl fun key hk => by cases hk

theorem ok_dropTable (h : b.Ok) : ((dropTable name).exec b).2.Ok := by
  refine ok_getTable_bind h fun t _ => ⟨fun name' t' hget => ?_, fun kind name' => ?_⟩
  · simp only [Prog.exec_modify, SortedMap.get_erase] at hget
    split at hget
    · cases hget
    · rename_i hname
      change InStep t' t'.indexes
        (if t'.engine = t.engine ∧ name' = name then _ else b.txs t'.engine name').view.get
      rw [if_neg fun he => hname he.2.symm]
      exact h.inStep name' t' hget
  · change (if kind = t.engine ∧ name' = name then _ else b.txs kind name').ListsLive
    split
    · split
      · have hdata : ({ b.txs kind name' with data := .empty } : TableTx).ListsLive :=
          h.lists kind name'
        exact listsLive_deleteAll hdata _
      · exact listsLive_deleteAll (h.lists kind name') _
    · exact h.lists kind name'

/-- The transaction with another set of indexes for a table. -/
theorem ok_withTable {ixs : SortedMap Bytes Index} (h : b.Ok)
    (hix : InStep t ixs (b.tx name t).view.get) :
    (b.withTable name { t with indexes := ixs }).Ok := by
  refine ⟨fun name' t' hget => ?_, h.lists⟩
  simp only [Batch.withTable, SortedMap.get_insert] at hget
  split at hget
  · rename_i hname
    subst hname
    obtain rfl := Option.some.inj hget
    exact (inStep_withIndexes ixs).mpr hix
  · exact h.inStep name' t' hget

theorem ok_dropIndex (h : b.Ok) (index : Bytes) (ifExists : Bool) :
    ((dropIndex name index ifExists).exec b).2.Ok := by
  refine ok_getTable_bind h fun t hg => ?_
  split
  · split <;> exact h
  · refine ok_withTable h fun name' ix hget => ?_
    rw [SortedMap.get_erase] at hget
    split at hget
    · cases hget
    · exact h.inStep name t hg name' ix hget

/-- A scan that a new index could be built from. -/
theorem exists_of_backfill {ix ix' : Index} {es : List (Bytes × Option (List Cell))}
    (h : backfill t ix es = some ix') : ∃ es' : List (Bytes × List Cell),
    es = es'.map (fun e => (e.1, some e.2)) ∧
      ∀ e ∈ es', (t.decodeRow (some e.2)).isSome := by
  induction es generalizing ix with
  | nil => exact ⟨[], rfl, by simp⟩
  | cons e es ih =>
    obtain ⟨k, blob⟩ := e
    rw [backfill] at h
    cases hdec : t.decodeRow blob with
    | none => simp [hdec] at h
    | some vals =>
      obtain _ | cells := blob
      · cases hdec
      obtain ⟨es', rfl, hes⟩ : ∃ es' : List (Bytes × List Cell),
          es = es'.map (fun e => (e.1, some e.2)) ∧
            ∀ e ∈ es', (t.decodeRow (some e.2)).isSome := by
        simp only [hdec] at h
        split at h <;> exact ih h
      exact ⟨(k, cells) :: es', rfl, List.forall_mem_cons.mpr ⟨by simp [hdec], hes⟩⟩

/-- The rows of a scan, by their keys. -/
theorem getEntry_rowEach {tx : TableTx} {kind : EngineKind} (hl : tx.ListsLive)
    (hn : ((tx.rowEach kind).map Prod.fst).Nodup) {es : List (Bytes × List Cell)}
    (hes : tx.rowEach kind = es.map fun e => (e.1, some e.2)) (key : Bytes) :
    SortedMap.getEntry key es = tx.get kind key := by
  have hne : es.Pairwise fun a b => a.1 ≠ b.1 := by
    rw [hes, List.map_map] at hn
    exact List.pairwise_map.mp hn
  have hkeys : (tx.view.get key).isSome → key ∈ tx.keys kind := by
    intro hk
    cases kind with
    | kv | cstore => exact hl key hk
    | table | cstore2 => exact SortedMap.mem_keys.mpr hk
  have hmem : ∀ cells, (key, cells) ∈ es ↔ tx.get kind key = some cells := by
    intro cells
    have hmap : (key, cells) ∈ es ↔ (key, some cells) ∈ tx.rowEach kind := by
      rw [hes, List.mem_map]
      constructor
      · exact fun h => ⟨_, h, rfl⟩
      · rintro ⟨⟨k, c⟩, h, he⟩
        obtain ⟨rfl, hc⟩ := Prod.mk.inj he
        obtain rfl := Option.some.inj hc
        exact h
    rw [hmap]
    unfold TableTx.rowEach
    split
    · simp only [List.mem_filterMap, Option.map_eq_some_iff, Prod.mk.injEq, Option.some.injEq]
      constructor
      · rintro ⟨k, -, c, hg, rfl, rfl⟩
        exact hg
      · intro hg
        have hk := hkeys (by rw [view_of_get hg]; rfl)
        exact ⟨key, hk, cells, hg, rfl, rfl⟩
    · simp only [List.mem_map, Prod.mk.injEq]
      constructor
      · rintro ⟨k, -, rfl, hg⟩
        exact hg
      · intro hg
        have hk := hkeys (by rw [view_of_get hg]; rfl)
        exact ⟨key, hk, rfl, hg⟩
  refine Option.ext fun cells => ?_
  rw [SortedMap.getEntry_eq_some_of_ne hne, hmem]

theorem ok_createIndex (lib : Stdlib) {index : Bytes} {cols : List Bytes} {ifNotExists : Bool}
    (h : b.Ok) (hfit : (Call.createIndex name index cols ifNotExists).Fits b) :
    ((createIndex lib name index cols ifNotExists).exec b).2.Ok := by
  refine ok_getTable_bind h fun t hg => ?_
  split
  · split <;> exact h
  · exact h
  · exact h
  · rename_i c hn
    cases t.colNamed c with
    | none => exact h
    | some i =>
      dsimp only
      rw [Prog.exec_bind_ok (Prog.exec_get b)]
      cases hfill : backfill t ⟨[i], fun _ => []⟩ ((b.tx name t).rowEach t.engine) with
      | none => exact h
      | some ix =>
        refine ok_withTable h fun name' ix' hget => ?_
        rw [SortedMap.get_insert] at hget
        split at hget
        · obtain rfl := Option.some.inj hget
          obtain ⟨es, hes, hdec⟩ := exists_of_backfill hfill
          have hnodup := hfit t hg
          have hrows := getEntry_rowEach (h.lists t.engine name) hnodup hes
          have hempty : (⟨[i], fun _ => []⟩ : Index).Lists t fun _ => none := ⟨by simp, by simp⟩
          have hne : es.Pairwise fun a b => a.1 ≠ b.1 := by
            rw [hes, List.map_map] at hnodup
            exact List.pairwise_map.mp hnodup
          obtain ⟨ix', hfill', -, hlists⟩ := backfill_lists hne (by simp) hdec hempty
          rw [hes, hfill'] at hfill
          obtain rfl := Option.some.inj hfill
          refine ⟨hlists.nodup, fun enc key => ?_⟩
          rw [hlists.mem]
          simp only [Option.or_none, hrows key]
          constructor
          · rintro ⟨cells, hget, hv⟩
            exact ⟨cells, view_of_get hget, hv⟩
          · rintro ⟨cells, hview, hv⟩
            cases hget : (b.tx name t).get t.engine key with
            | none =>
              have hno := indexValOf_of_get hget ix'
              rw [hview, Option.bind_some, hv] at hno
              cases hno
            | some cells' =>
              obtain rfl := Option.some.inj ((view_of_get hget).symm.trans hview)
              exact ⟨cells', hget, hv⟩
        · exact h.inStep name t hg name' ix' hget

end Calls

/-! ### Runs -/

/-- The engine and the transaction that is open on it. -/
structure Session where
  engine : Engine
  batch : Batch

def Session.start : Session := ⟨.empty, Engine.empty.begin_⟩

inductive Step where
  | call (call : Call)
  | commit
  | rollback

/-- A rollback leaves the catalog as it is. -/
def Step.take (lib : Stdlib) : Step → Session → Session
  | call c, s => { s with batch := c.after lib s.batch }
  | commit, s => ⟨s.batch.commit, s.batch.commit.begin_⟩
  | rollback, s =>
    let e := { s.engine with tables := s.batch.tables }
    ⟨e, e.begin_⟩

def runSteps (lib : Stdlib) (steps : List Step) (s : Session) : Session :=
  steps.foldl (fun s step => step.take lib s) s

/-- What a step needs to keep the indexes in step. A transaction that is rolled back has changed no
value of an indexed column. -/
def Step.Fits (s : Session) : Step → Prop
  | call c => c.Fits s.batch
  | commit => True
  | rollback => ∀ name t, s.batch.tables.get name = some t →
    ∀ index ix, t.indexes.get index = some ix → ∀ key,
      ((s.batch.tx name t).view.get key).bind (t.indexValOf ix) =
        ((s.engine.stores t.engine name).rows.get key).bind (t.indexValOf ix)

/-- Every step of the run has what it needs where it is taken. -/
def FitsAlong (lib : Stdlib) : List Step → Session → Prop
  | [], _ => True
  | step :: steps, s => step.Fits s ∧ FitsAlong lib steps (step.take lib s)

variable {lib : Stdlib}

theorem ok_call {b : Batch} (h : b.Ok) {c : Call} (hfit : c.Fits b) : (c.after lib b).Ok := by
  unfold Call.after
  cases c with
  | createTable name cols pkNames engine retention => exact ok_createTable h cols _ _ _
  | dropTable name => exact ok_dropTable h
  | createIndex table name cols ifNotExists => exact ok_createIndex lib h hfit
  | dropIndex table name ifExists => exact ok_dropIndex h name ifExists
  | batchInsert table rows =>
    simp only [Call.run, Prog.exec_bind_pure_snd]
    exact ok_batchInsert h hfit
  | batchInsertRows table rows =>
    simp only [Call.run, Prog.exec_bind_pure_snd]
    exact ok_batchInsertAll h hfit
  | updateColumnConst table consts r =>
    simp only [Call.run, Prog.exec_bind_pure_snd]
    exact ok_updateColumnConst h consts r
  | update table pkValues set => exact ok_update h hfit
  | delete table pkValues => exact ok_delete h pkValues
  | deleteRange table r =>
    simp only [Call.run, Prog.exec_bind_pure_snd]
    exact ok_deleteRange h r
  | kvPut table key value => exact ok_modifyData h _
  | kvDelete table key => exact ok_modifyData h _

/-- Indexes in step with the rows are in step with rows of the same indexed values. -/
theorem Index.Lists.of_bind {t : Table} {ix : Index} {rows rows' : RowMap} (h : ix.Lists t rows)
    (he : ∀ key, (rows key).bind (t.indexValOf ix) = (rows' key).bind (t.indexValOf ix)) :
    ix.Lists t rows' := by
  refine ⟨h.nodup, fun enc key => (h.mem enc key).trans ?_⟩
  rw [← Option.bind_eq_some_iff, ← Option.bind_eq_some_iff, he]

theorem ok_step {s : Session} (h : s.batch.Ok) {step : Step} (hfit : step.Fits s) :
    (step.take lib s).batch.Ok := by
  cases step with
  | call c => exact ok_call h hfit
  | commit => exact ⟨h.inStep, fun kind name => listsLive_begin _⟩
  | rollback =>
    refine ⟨fun name t hget index ix hix => ?_, fun kind name => listsLive_begin _⟩
    exact (h.inStep name t hget index ix hix).of_bind (hfit name t hget index ix hix)

theorem ok_runSteps {steps : List Step} {s : Session} (h : s.batch.Ok)
    (hfit : FitsAlong lib steps s) : (runSteps lib steps s).batch.Ok := by
  induction steps generalizing s with
  | nil => exact h
  | cons step steps ih => exact ih (ok_step h hfit.1) hfit.2

theorem ok_start : Session.start.batch.Ok :=
  ⟨fun _ _ hget => (by cases hget), fun _ _ => listsLive_begin _⟩

end Ydbgo.Storage
