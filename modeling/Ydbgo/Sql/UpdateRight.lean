import Ydbgo.Sql.DeleteRight

/-! # The rows an UPDATE changes

Each path of `execUpdate` gives the rows that it hits the values assigned to
them. Where the planned range is right about the rows and the path finds the
rows of the range, these are the rows that the WHERE selects.
-/

namespace Ydbgo.Sql

open Storage (Batch Table TableTx ColInfo Cell EngineKind GoodTable GoodRow GoodRows cellValues Does
  InRange pkRangeBytes Proper)

section Writes

variable {lib : Stdlib} {b : Batch} {name : Bytes} {t : Table} {tx tx' : TableTx}
  {sets : List SetItem} {where_ : Expr}

/-- The values of a row with the assigned ones. -/
def newRow (lib : Stdlib) (schema : TableSchema) (sets : List SetItem) (row : List Value) :
    List Value :=
  assignRow lib schema (assigned lib schema sets row) row

/-- The cells of a row with the assigned ones. -/
def setCells (lib : Stdlib) (name : Bytes) (t : Table) (sets : List SetItem) (cells : List Cell) :
    List Cell :=
  Storage.assignCells t (.ofList ((assigned lib (t.schema name) sets (cellValues lib cells)).map
    fun w => (w.1, Storage.fromSQLValue w.2))) cells

theorem cellValues_setCells {key : Bytes} {cells : List Cell} (h : GoodRow t key cells) :
    cellValues lib (setCells lib name t sets cells) =
      newRow lib (t.schema name) sets (cellValues lib cells) :=
  cellValues_assignCells h _

theorem keepsKey_assigned (ht : GoodTable t) (hk : KeepsKey (t.schema name) sets)
    {row : List Value} (hs : SetsEvaluate lib (t.schema name) sets row) :
    ∀ w ∈ assigned lib (t.schema name) sets row, w.1 ∉ t.keyNames := by
  intro w hw
  have hmem : w.1 ∈ sets.map SetItem.column := by
    rw [← columns_evalSetsCtx hs.gives]
    exact List.mem_map_of_mem hw
  obtain ⟨item, hitem, he⟩ := List.mem_map.mp hmem
  rw [← he, ← pkIndex_schema name ht]
  exact hk item hitem

theorem goodRow_setCells (ht : GoodTable t) (hk : KeepsKey (t.schema name) sets) {key : Bytes}
    {cells : List Cell} (h : GoodRow t key cells)
    (hs : SetsEvaluate lib (t.schema name) sets (cellValues lib cells)) :
    GoodRow t key (setCells lib name t sets cells) :=
  goodRow_assignCells ht h
    (proper_evalSetsCtx (fun _ _ hv => proper_rowContext (proper_cellValues lib cells) hv) hs.gives)
    (keepsKey_assigned ht hk hs)

/-- The rows hit have their new values, the others are as they were, and `n` is their number. -/
structure Updated (lib : Stdlib) (t : Table) (hit : Bytes → List Value → Bool)
    (new : List Value → List Value) (tx tx' : TableTx) (n : ℕ) : Prop where
  good : GoodRows t tx'
  rows : ∀ key, (tx'.rows lib).get key =
    ((tx.rows lib).get key).map fun row => if hit key row then new row else row
  count : n = ((tx.rows lib).filter hit).entries.length
  data : tx'.data = tx.data

/-- The rows hit. -/
def hitEntries (lib : Stdlib) (hit : Bytes → List Value → Bool) (tx : TableTx) :
    List (Bytes × List Cell) :=
  tx.view.entries.filter fun e => hit e.1 (cellValues lib e.2)

theorem hitEntries_pairwise (lib : Stdlib) (hit : Bytes → List Value → Bool) (tx : TableTx) :
    (hitEntries lib hit tx).Pairwise fun a b => a.1 ≠ b.1 :=
  List.Pairwise.imp (fun hlt => ne_of_lt (α := Bytes) hlt)
    (tx.view.ascending.sublist List.filter_sublist)

theorem getEntry_hitEntries (hit : Bytes → List Value → Bool) (f : Bytes × List Cell → List Cell)
    (key : Bytes) :
    SortedMap.getEntry key ((hitEntries lib hit tx).map fun e => (e.1, f e)) =
      ((tx.view.get key).filter fun cells => hit key (cellValues lib cells)).map
        fun cells => f (key, cells) := by
  have hne : ((hitEntries lib hit tx).map fun e => (e.1, f e)).Pairwise fun a b => a.1 ≠ b.1 :=
    List.pairwise_map.mpr (hitEntries_pairwise lib hit tx)
  ext v
  rw [SortedMap.getEntry_eq_some_of_ne hne, Option.map_eq_some_iff]
  simp only [hitEntries, List.mem_map, List.mem_filter, Option.filter_eq_some_iff,
    SortedMap.get_eq_some, Prod.exists, Prod.mk.injEq]
  constructor
  · rintro ⟨_, cells, he, rfl, rfl⟩
    exact ⟨cells, he, rfl⟩
  · rintro ⟨cells, he, rfl⟩
    exact ⟨key, cells, he, rfl, rfl⟩

/-- Writes at the rows hit that leave the assigned cells. -/
theorem updated_putEach (ht : GoodTable t) (h : GoodRows t tx) (hk : KeepsKey (t.schema name) sets)
    (hit : Bytes → List Value → Bool) (f : Bytes × List Cell → List Cell)
    (hs : ∀ e ∈ hitEntries lib hit tx, SetsEvaluate lib (t.schema name) sets (cellValues lib e.2))
    (hf : ∀ e ∈ hitEntries lib hit tx,
      tx.written t.engine e.1 (f e) = setCells lib name t sets e.2) (count : Bool) :
    Updated lib t hit (newRow lib (t.schema name) sets) tx
      (tx.putEach t.engine count ((hitEntries lib hit tx).map fun e => (e.1, f e)))
      (hitEntries lib hit tx).length := by
  have hnodup : (((hitEntries lib hit tx).map fun e => (e.1, f e)).map Prod.fst).Nodup := by
    rw [List.map_map]
    exact List.pairwise_map.mpr (hitEntries_pairwise lib hit tx)
  have hview : ∀ key, (tx.putEach t.engine count
      ((hitEntries lib hit tx).map fun e => (e.1, f e))).view.get key =
      (tx.view.get key).map fun cells =>
        if hit key (cellValues lib cells) then setCells lib name t sets cells else cells := by
    intro key
    rw [Storage.view_putEach _ _ _ hnodup, getEntry_hitEntries]
    cases hv : tx.view.get key with
    | none => rfl
    | some cells =>
      rw [Option.filter_some]
      cases hh : hit key (cellValues lib cells) with
      | false => simp [hh]
      | true =>
        have hmem : (key, cells) ∈ hitEntries lib hit tx :=
          List.mem_filter.mpr ⟨SortedMap.get_eq_some.mp hv, hh⟩
        simp [hf _ hmem, hh]
  have hgood : GoodRows t (tx.putEach t.engine count
      ((hitEntries lib hit tx).map fun e => (e.1, f e))) := by
    intro key cells' hv
    rw [hview] at hv
    obtain ⟨cells, hc, rfl⟩ := Option.map_eq_some_iff.mp hv
    split
    · rename_i hh
      exact goodRow_setCells ht hk (h key cells hc)
        (hs (key, cells) (List.mem_filter.mpr ⟨SortedMap.get_eq_some.mp hc, hh⟩))
    · exact h key cells hc
  refine ⟨hgood, fun key => ?_, ?_, Storage.data_putEach _ _ _ _⟩
  · rw [Storage.rows_get_of_good hgood, Storage.rows_get_of_good h, hview]
    cases hv : tx.view.get key with
    | none => rfl
    | some cells =>
      simp only [Option.map_some]
      split
      · rw [cellValues_setCells (h key cells hv)]
      · rfl
  · have hent : ((tx.rows lib).filter hit).entries =
        (tx.rows lib).entries.filter fun e => hit e.1 e.2 := rfl
    rw [hent, rows_entries h, List.filter_map, List.length_map]
    rfl

/-! ### One row after the other -/

theorem written_setCells (kind : EngineKind) (tx : TableTx) (key : Bytes) (cells : List Cell) :
    tx.written kind key (setCells lib name t sets cells) = setCells lib name t sets cells := by
  unfold TableTx.written
  split
  · refine Storage.fillCells_of_full (fun c hc => ?_) _
    obtain ⟨i, hi⟩ := List.getElem?_of_mem hc
    rw [setCells, Storage.assignCells, List.getElem?_mapIdx] at hi
    obtain ⟨_, -, rfl⟩ := Option.map_eq_some_iff.mp hi
    rfl
  · rfl

/-- `Update` of one row with the assigned values. -/
theorem does_update_assigned (ht : GoodTable t) (hk : KeepsKey (t.schema name) sets)
    {pk : List Value} {cells : List Cell} (hv : tx.view.get (Storage.encodePK pk) = some cells)
    (h : GoodRow t (Storage.encodePK pk) cells)
    (hs : SetsEvaluate lib (t.schema name) sets (cellValues lib cells)) :
    Does b name t
      (Storage.update name pk (assigned lib (t.schema name) sets (cellValues lib cells))) tx ⟨⟩
      (tx.put t.engine true (Storage.encodePK pk) (setCells lib name t sets cells)) := by
  refine Storage.does_update ht hv h fun p hp c hc hmem => ?_
  obtain ⟨w, hw, he⟩ := List.mem_map.mp hmem
  exact keepsKey_assigned ht hk hs w hw (he ▸ mem_keyNames.mpr ⟨p, hp, c, hc, rfl⟩)

theorem does_updateRows (ht : GoodTable t) (hk : KeepsKey (t.schema name) sets)
    {es : List (Bytes × List Cell)} (hes : ∀ e ∈ es, GoodRow t e.1 e.2)
    (hw : ∀ e ∈ es, WhereEvaluates lib (t.schema name) where_ (cellValues lib e.2))
    (hs : ∀ e ∈ es, selects lib (t.schema name) where_ (cellValues lib e.2) = true →
      SetsEvaluate lib (t.schema name) sets (cellValues lib e.2))
    (hne : es.Pairwise fun a b => a.1 ≠ b.1) (hv : ∀ e ∈ es, tx.view.get e.1 = some e.2) :
    Does b name t
      (updateRows lib (t.schema name) name sets where_ (es.map fun e => cellValues lib e.2)) tx
      (es.filter fun e => selects lib (t.schema name) where_ (cellValues lib e.2)).length
      (tx.putEach t.engine true
        ((es.filter fun e => selects lib (t.schema name) where_ (cellValues lib e.2)).map
          fun e => (e.1, setCells lib name t sets e.2))) := by
  induction es generalizing tx with
  | nil => exact Storage.does_pure _
  | cons e es ih =>
    obtain ⟨he, hes⟩ := List.forall_mem_cons.mp hes
    obtain ⟨hwe, hw⟩ := List.forall_mem_cons.mp hw
    obtain ⟨hse, hs⟩ := List.forall_mem_cons.mp hs
    obtain ⟨hve, hv⟩ := List.forall_mem_cons.mp hv
    obtain ⟨hne', hne⟩ := List.pairwise_cons.mp hne
    refine Storage.does_bind (does_liftEval hwe.gives) ?_
    rw [List.filter_cons]
    cases hsel : selects lib (t.schema name) where_ (cellValues lib e.2) with
    | false =>
      simp only [Bool.false_eq_true, if_false]
      exact ih hes hw hs hne hv
    | true =>
      simp only [if_true, List.map_cons, List.length_cons]
      have hkey := encodePK_pkValues lib name ht he
      have hup := does_update_assigned (b := b) ht hk (hkey ▸ hve) (hkey ▸ he) (hse hsel)
      rw [hkey] at hup
      refine Storage.does_bind (does_liftEval (hse hsel).gives) (Storage.does_bind hup ?_)
      refine Storage.does_bind (ih hes hw hs hne fun e' he' => ?_) (Storage.does_pure _)
      rw [Storage.view_put, if_neg (hne' e' he')]
      exact hv e' he'

/-- The full scan of `execUpdate`. -/
theorem does_execUpdateScan (ht : GoodTable t) (h : GoodRows t tx) (hl : tx.ListsRows t.engine)
    (hk : KeepsKey (t.schema name) sets)
    (hw : ∀ key row, (tx.rows lib).get key = some row →
      WhereEvaluates lib (t.schema name) where_ row)
    (hs : ∀ key row, (tx.rows lib).get key = some row →
      selects lib (t.schema name) where_ row = true → SetsEvaluate lib (t.schema name) sets row) :
    ∃ n tx', Does b name t (execUpdateScan lib (t.schema name) name sets where_) tx
        ⟨ascii "update", n⟩ tx' ∧
      Updated lib t (fun _ row => selects lib (t.schema name) where_ row)
        (newRow lib (t.schema name) sets) tx tx' n := by
  have hget : ∀ e ∈ tx.view.entries, (tx.rows lib).get e.1 = some (cellValues lib e.2) :=
    fun e he => by rw [Storage.rows_get_of_good h, SortedMap.get_eq_some.mpr he]; rfl
  refine ⟨_, _, Storage.does_bind (Storage.does_scan lib ht h hl) (Storage.does_bind
    (does_updateRows ht hk (fun e he => h _ _ (SortedMap.get_eq_some.mpr he))
      (fun e he => hw _ _ (hget e he)) (fun e he => hs _ _ (hget e he))
      (List.Pairwise.imp (fun hlt => ne_of_lt (α := Bytes) hlt) tx.view.ascending)
      fun e he => SortedMap.get_eq_some.mpr he) (Storage.does_pure _)), ?_⟩
  exact updated_putEach ht h hk _ _
    (fun e he => hs _ _ (hget e (List.mem_of_mem_filter he)) (List.mem_filter.mp he).2)
    (fun e _ => written_setCells _ _ _ _) true

/-! ### One key -/

theorem hitEntries_key (lib : Stdlib) (k : Bytes) :
    hitEntries lib (fun key _ => decide (key = k)) tx =
      ((tx.view.get k).map (Prod.mk k)).toList :=
  (List.filter_congr fun _ _ => decide_eq_decide.mpr Iff.rfl).trans
    (SortedMap.filter_key k
      (List.Pairwise.imp (fun hlt => ne_of_lt (α := Bytes) hlt) tx.view.ascending))

/-- The point path of `execUpdate` updates the row at its key. -/
theorem does_updatePoint (ht : GoodTable t) (h : GoodRows t tx) (hk : KeepsKey (t.schema name) sets)
    (pk : List Value) (hs : ∀ row, (tx.rows lib).get (Storage.encodePK pk) = some row →
      SetsEvaluate lib (t.schema name) sets row) :
    ∃ n tx', Does b name t (updatePoint lib (t.schema name) name sets pk) tx
        ⟨ascii "update", n⟩ tx' ∧
      Updated lib t (fun key _ => decide (key = Storage.encodePK pk))
        (newRow lib (t.schema name) sets) tx tx' n := by
  have hup : Updated lib t (fun key _ => decide (key = Storage.encodePK pk))
      (newRow lib (t.schema name) sets) tx _ _ :=
    updated_putEach ht h hk _ (fun e => setCells lib name t sets e.2)
      (fun e he => by
        obtain ⟨hmem, hkey⟩ := List.mem_filter.mp he
        refine hs _ ?_
        rw [← of_decide_eq_true hkey, Storage.rows_get_of_good h, SortedMap.get_eq_some.mpr hmem]
        rfl)
      (fun e _ => written_setCells _ _ _ _) true
  rw [hitEntries_key] at hup
  refine ⟨_, _, Storage.does_bind (Storage.does_getRow lib ht h pk) ?_, hup⟩
  rw [Storage.rows_get_of_good h]
  cases hv : tx.view.get (Storage.encodePK pk) with
  | none => exact Storage.does_pure _
  | some cells =>
    have hse := hs (cellValues lib cells) (by rw [Storage.rows_get_of_good h, hv]; rfl)
    exact Storage.does_bind (does_liftEval hse.gives) (Storage.does_bind
      (does_update_assigned ht hk hv (h _ _ hv) hse) (Storage.does_pure _))

end Writes

end Ydbgo.Sql
