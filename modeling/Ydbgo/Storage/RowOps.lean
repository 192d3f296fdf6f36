import Ydbgo.Storage.IndexSync
import Ydbgo.Storage.Rows

/-! # Operations on rows

On rows that were written in full the operations on a table never fail on a row
they read, whatever the indexes hold, and what they leave of the rows depends on
the rows alone. Indexes that are in step with the rows stay in step.
-/

namespace Ydbgo.Storage

open Sql (Value Stdlib)

section Put

variable (kind : EngineKind) (count : Bool) (tx : TableTx) (key : Bytes) (cells : List Cell)

theorem view_put (key' : Bytes) : (tx.put kind count key cells).view.get key' =
    if key = key' then some (tx.written kind key cells) else tx.view.get key' := by
  by_cases h : key = key' <;> simp [TableTx.put, SortedMap.get_insert, h]

theorem rows_put : (tx.put kind count key cells).view.get =
    Function.update tx.view.get key (some (tx.written kind key cells)) := by
  ext key' : 1
  rw [view_put, Function.update_apply]
  simp only [eq_comm]

theorem rows_delete :
    (tx.delete kind key).view.get = Function.update tx.view.get key none := by
  ext key' : 1
  rw [TableTx.delete, SortedMap.get_erase, Function.update_apply]
  by_cases h : key' = key <;> simp [h, Ne.symm]

end Put

/-! ### Programs on the rows of a table -/

/-- Whatever the indexes hold, the program succeeds and leaves the given rows and the indexes on
the same columns. If the indexes are as `I` says, it leaves them as `J` says. -/
def Leaves {α : Type} (x : RowM α) (tx tx' : TableTx) (I : SortedMap Bytes Index → Prop)
    (J : α → SortedMap Bytes Index → Prop) : Prop :=
  ∀ ixs, ∃ a ixs', x.exec ⟨ixs, tx⟩ = (.ok a, ⟨ixs', tx'⟩) ∧
    ixs'.map Index.cols = ixs.map Index.cols ∧ (I ixs → J a ixs')

section Leaves

variable {α β : Type} {t : Table} {tx tx' tx'' : TableTx} {key : Bytes} {cells : List Cell}
  {I : SortedMap Bytes Index → Prop} {J : α → SortedMap Bytes Index → Prop}
  {K : β → SortedMap Bytes Index → Prop}

theorem leaves_pure {a : α} (h : ∀ ixs, I ixs → J a ixs) : Leaves (pure a) tx tx I J :=
  fun ixs => ⟨a, ixs, rfl, rfl, h ixs⟩

theorem leaves_modifyTx (f : TableTx → TableTx) : Leaves (modifyTx f) tx (f tx) I fun _ => I :=
  fun ixs => ⟨⟨⟩, ixs, rfl, rfl, id⟩

theorem leaves_updateIndexes {vals : Vals} {f : List Bytes → List Bytes}
    {L : SortedMap Bytes Index → Prop} (h : ∀ ixs, I ixs → L (t.updateIndexes vals f ixs)) :
    Leaves (modifyIndexes (t.updateIndexes vals f)) tx tx I fun _ => L :=
  fun ixs => ⟨⟨⟩, _, rfl, map_cols_updateIndexes f, h ixs⟩

theorem leaves_bind {x : RowM α} {f : α → RowM β} (hx : Leaves x tx tx' I J)
    (hf : ∀ a, Leaves (f a) tx' tx'' (J a) K) : Leaves (x >>= f) tx tx'' I K := by
  intro ixs
  obtain ⟨a, ixs', ha, hcols, hj⟩ := hx ixs
  obtain ⟨b, ixs'', hb, hcols', hk⟩ := hf a ixs'
  rw [Prog.exec_bind_ok ha]
  exact ⟨b, ixs'', hb, hcols'.trans hcols, fun hi => hk (hj hi)⟩

/-- A program that starts by reading the rows and the indexes. -/
theorem leaves_get_bind {f : Live → RowM β}
    (hf : ∀ ixs, Leaves (f ⟨ixs, tx⟩) tx tx' (fun ixs' => ixs' = ixs ∧ I ixs') K) :
    Leaves (get >>= f) tx tx' I K := by
  intro ixs
  obtain ⟨b, ixs', hb, hcols, hk⟩ := hf ixs ixs
  exact ⟨b, ixs', hb, hcols, fun hi => hk ⟨rfl, hi⟩⟩

/-- The indexes are in step with the rows. -/
def Indexed (t : Table) (tx : TableTx) (ixs : SortedMap Bytes Index) : Prop :=
  InStep t ixs tx.view.get

/-- A row at the key, if there is one, is complete. -/
def Readable (tx : TableTx) (key : Bytes) : Prop :=
  ∀ cells, tx.view.get key = some cells → ∀ c ∈ cells, c.isSome

theorem GoodRows.readable (h : GoodRows t tx) (key : Bytes) : Readable tx key :=
  fun cells hv _ => (h key cells hv).isSome

theorem Readable.get (h : Readable tx key) (kind : EngineKind) :
    tx.get kind key = tx.view.get key := by
  cases kind with
  | cstore =>
    cases hv : tx.view.get key with
    | none => rw [TableTx.get, hv, Option.filter_none]
    | some cells =>
      rw [TableTx.get, hv, Option.filter_some, if_pos (List.all_eq_true.mpr (h cells hv))]
  | _ => rfl

theorem decodeRow_isSome (t : Table) (h : ∀ c ∈ cells, c.isSome) :
    (t.decodeRow (some cells)).isSome := by
  rw [Table.decodeRow, Option.bind_some, decodeCells_eq h]
  rfl

/-- The old row at a key, as `dropOldIndexes` returns it. -/
def oldVals (t : Table) (tx : TableTx) (key : Bytes) : Option Vals :=
  (tx.view.get key).bind fun old => t.decodeRow (some old)

theorem leaves_dropOldIndexes (h : Readable tx key) :
    Leaves (dropOldIndexes t key) tx tx (Indexed t tx) fun ov ixs =>
      InStep t ixs (Function.update tx.view.get key none) ∧
        (ixs.entries.isEmpty = true ∨ ov = oldVals t tx key) := by
  unfold dropOldIndexes
  apply leaves_get_bind
  intro ixs
  split
  · rename_i hempty
    apply leaves_pure
    rintro ixs ⟨rfl, -⟩
    exact ⟨inStep_of_isEmpty hempty, Or.inl hempty⟩
  · simp only [h.get t.engine]
    cases hold : tx.view.get key with
    | none =>
      apply leaves_pure
      rintro ixs ⟨-, hi⟩
      rw [← hold, Function.update_eq_self]
      exact ⟨hi, Or.inr (by rw [oldVals, hold]; rfl)⟩
    | some old =>
      obtain ⟨ov, hov⟩ := Option.isSome_iff_exists.mp (decodeRow_isSome t (h old hold))
      simp only [hov]
      refine leaves_bind (leaves_updateIndexes fun ixs hi =>
        inStep_removeRowIndexes hi.2 hold hov) fun _ => leaves_pure fun ixs hi => ⟨hi, Or.inr ?_⟩
      rw [oldVals, hold, Option.bind_some, hov]

/-- The last steps of a write: the row is put, and the indexes get its values. -/
theorem leaves_put (tx : TableTx) (vals : Vals) (count : Bool)
    (hval : ∀ ix, t.indexValOf ix (tx.written t.engine key cells) = indexValForCols vals t ix) :
    Leaves (do
        modifyTx fun tx => tx.put t.engine count key cells
        modifyIndexes (addRowIndexes t vals key)) tx (tx.put t.engine count key cells)
      (fun ixs => InStep t ixs (Function.update tx.view.get key none))
      fun _ => Indexed t (tx.put t.engine count key cells) := by
  refine leaves_bind (leaves_modifyTx _) fun _ => leaves_updateIndexes fun ixs hi => ?_
  rw [Indexed, rows_put]
  exact inStep_addRowIndexes hi hval

/-! ### Values in the indexes -/

theorem indexValForCols_congr {vals vals' : Vals} (ix : Index)
    (h : ∀ c ∈ t.cols, ((vals c.name).bind fun v => if v.null then none else some (indexVal v)) =
      (vals' c.name).bind fun v => if v.null then none else some (indexVal v)) :
    indexValForCols vals t ix = indexValForCols vals' t ix := by
  unfold indexValForCols
  have hcol : ∀ c : ℕ, ((t.cols[c]?.bind fun col : ColInfo => vals col.name).bind fun v =>
        if v.null then none else some (indexVal v)) =
      (t.cols[c]?.bind fun col : ColInfo => vals' col.name).bind fun v =>
        if v.null then none else some (indexVal v) := by
    intro c
    cases hc : t.cols[c]? with
    | none => rfl
    | some col => exact h col (List.mem_of_getElem? hc)
  simp only [hcol]

/-- A row of cells without gaps is indexed under the values of its columns. -/
theorem indexValOf_congr (ht : GoodTable t) {vals : Vals} (hlen : cells.length = t.cols.length)
    (h : ∀ (i : ℕ) (c : ColInfo), t.cols[i]? = some c →
      ∃ v w, cells[i]? = some (some v) ∧ vals c.name = some w ∧ w.null = v.null ∧
        indexVal w = indexVal v) (ix : Index) :
    t.indexValOf ix cells = indexValForCols vals t ix := by
  have hsome : ∀ c ∈ cells, c.isSome := by
    intro c hc
    obtain ⟨i, hi⟩ := List.getElem?_of_mem hc
    have hlt : i < t.cols.length := hlen ▸ (List.getElem?_eq_some_iff.mp hi).1
    obtain ⟨v, -, hv, -⟩ := h i _ (List.getElem?_eq_getElem hlt)
    rw [hi] at hv
    rw [Option.some.inj hv]
    rfl
  rw [Table.indexValOf, Table.decodeRow, Option.bind_some, decodeCells_eq hsome, Option.map_some,
    Option.bind_some]
  refine indexValForCols_congr ix fun c hc => ?_
  obtain ⟨i, hi⟩ := List.getElem?_of_mem hc
  obtain ⟨v, w, hv, hw, hnull, hval⟩ := h i c hi
  have hget : Vals.ofList ((t.cols.map ColInfo.name).zip (cells.map variant)) c.name = some v :=
    SortedMap.getEntry_zip ht.names (by rw [List.getElem?_map, hi]; rfl)
      (by rw [List.getElem?_map, hv]; rfl)
  rw [hget, hw, Option.bind_some, Option.bind_some, hnull, hval]

theorem indexValOf_encodeRowCells (ht : GoodTable t) {vals : Vals}
    (h : ∀ c ∈ t.cols, (vals c.name).isSome) (ix : Index) :
    t.indexValOf ix (t.encodeRowCells vals) = indexValForCols vals t ix := by
  refine indexValOf_congr ht (by rw [Table.encodeRowCells, List.length_map]) (fun i c hc => ?_) ix
  obtain ⟨v, hv⟩ := Option.isSome_iff_exists.mp (h c (List.mem_of_getElem? hc))
  refine ⟨{ v with missing := false }, v, ?_, hv, rfl, rfl⟩
  rw [Table.encodeRowCells, List.getElem?_map, hc, Option.map_some, Vals.cell, hv]
  rfl

theorem written_encodeRowCells (kind : EngineKind) (tx : TableTx) (key : Bytes) (vals : Vals) :
    tx.written kind key (t.encodeRowCells vals) = t.encodeRowCells vals := by
  unfold TableTx.written
  split
  · refine fillCells_of_full (fun c hc => ?_) _
    obtain ⟨_, -, rfl⟩ := List.mem_map.mp hc
    rfl
  · rfl

/-! ### One row -/

theorem leaves_putRow (ht : GoodTable t) {vals : Vals} (h : Readable tx (t.schemaKey vals))
    (hvals : ∀ c ∈ t.cols, (vals c.name).isSome) :
    Leaves (putRow t vals) tx
      (tx.put t.engine true (t.schemaKey vals) (t.encodeRowCells vals)) (Indexed t tx)
      fun _ => Indexed t (tx.put t.engine true (t.schemaKey vals) (t.encodeRowCells vals)) := by
  refine leaves_bind (leaves_dropOldIndexes h) fun ov ixs => ?_
  obtain ⟨a, ixs', ha, hcols, hput⟩ := leaves_put tx vals true (fun ix =>
    written_encodeRowCells t.engine tx (t.schemaKey vals) vals ▸
      indexValOf_encodeRowCells ht hvals ix) ixs
  exact ⟨a, ixs', ha, hcols, fun hi => hput hi.1⟩

theorem leaves_deleteRow (h : Readable tx key) :
    Leaves (deleteRow t key) tx (tx.delete t.engine key) (Indexed t tx)
      fun _ => Indexed t (tx.delete t.engine key) := by
  refine leaves_bind (leaves_dropOldIndexes h) fun _ ixs => ⟨⟨⟩, ixs, rfl, rfl, fun hi => ?_⟩
  rw [Indexed, rows_delete]
  exact hi.1

/-- The cells of a row with some columns set. -/
def assignCells (t : Table) (set : Vals) (cells : List Cell) : List Cell :=
  t.cols.mapIdx fun i c => encodeVariant ((set c.name).getD (variant cells[i]?.join))

theorem encodeRowCells_or {set vals : Vals} (hvals : ∀ (i : ℕ) (c : ColInfo), t.cols[i]? = some c →
      vals c.name = some (variant cells[i]?.join)) :
    t.encodeRowCells (fun name => (set name).or (vals name)) = assignCells t set cells := by
  apply List.ext_getElem?
  intro i
  rw [Table.encodeRowCells, assignCells, List.getElem?_map, List.getElem?_mapIdx]
  cases hc : t.cols[i]? with
  | none => rfl
  | some c =>
    rw [Option.map_some, Option.map_some, Vals.cell, hvals i c hc]
    cases set c.name <;> rfl

/-- An update that leaves the key columns alone. -/
theorem leaves_updateRow (ht : GoodTable t) (hv : tx.view.get key = some cells)
    (h : GoodRow t key cells) {set : Vals}
    (hset : ∀ p ∈ t.pk, ∀ c : ColInfo, t.cols[p]? = some c → set c.name = none) :
    Leaves (updateRow t key set) tx (tx.put t.engine true key (assignCells t set cells))
      (Indexed t tx) fun _ => Indexed t (tx.put t.engine true key (assignCells t set cells)) := by
  obtain ⟨vals, hdec, hvals⟩ := decodeRow_good ht h
  have hkey : t.schemaKey (fun name => (set name).or (vals name)) = key := by
    rw [h.key]
    refine schemaKey_eq ht.inside fun p hp c hc => ?_
    rw [hset p hp c hc, Option.none_or]
    exact hvals p c hc
  have hcells : t.encodeRowCells (fun name => (set name).or (vals name)) =
      assignCells t set cells := encodeRowCells_or hvals
  have hall : ∀ c ∈ t.cols, ((set c.name).or (vals c.name)).isSome := by
    intro c hc
    obtain ⟨i, hi⟩ := List.getElem?_of_mem hc
    rw [hvals i c hi]
    cases set c.name <;> rfl
  unfold updateRow
  apply leaves_get_bind
  intro ixs
  simp only [get_of_good t.engine hv h, Option.bind_some, hdec, hkey, ne_eq, not_true_eq_false,
    if_false, ← hcells]
  refine leaves_bind (leaves_updateIndexes (L := fun ixs =>
    InStep t ixs (Function.update tx.view.get key none)) fun ixs hi =>
      inStep_removeRowIndexes hi.2 hv hdec) fun _ => ?_
  exact leaves_put tx (fun name => (set name).or (vals name)) true fun ix =>
    (written_encodeRowCells (t := t) t.engine tx key
      fun name => (set name).or (vals name)).symm ▸ indexValOf_encodeRowCells ht hall ix

/-! ### Several rows -/

/-- Writes of cells at keys, one after the other. -/
def TableTx.putEach (kind : EngineKind) (count : Bool) (tx : TableTx)
    (ws : List (Bytes × List Cell)) : TableTx :=
  ws.foldl (fun tx w => tx.put kind count w.1 w.2) tx

theorem view_putEach (kind : EngineKind) (count : Bool) (tx : TableTx)
    {ws : List (Bytes × List Cell)} (h : (ws.map Prod.fst).Nodup) (key : Bytes) :
    (tx.putEach kind count ws).view.get key =
      ((SortedMap.getEntry key ws).map (tx.written kind key)).or (tx.view.get key) := by
  induction ws generalizing tx with
  | nil => rfl
  | cons w ws ih =>
    obtain ⟨hw, hws⟩ := List.nodup_cons.mp h
    rw [TableTx.putEach, List.foldl_cons]
    refine (ih (tx.put kind count w.1 w.2) hws).trans ?_
    rw [view_put, SortedMap.getEntry_cons]
    split
    · rename_i hkey
      subst hkey
      have hnone : SortedMap.getEntry w.1 ws = none :=
        SortedMap.getEntry_eq_none.mpr fun v hv => hw (List.mem_map.mpr ⟨_, hv, rfl⟩)
      rw [hnone]
      rfl
    · rfl

theorem data_putEach (kind : EngineKind) (count : Bool) (tx : TableTx)
    (ws : List (Bytes × List Cell)) : (tx.putEach kind count ws).data = tx.data := by
  induction ws generalizing tx with
  | nil => rfl
  | cons w ws ih => exact ih (tx.put kind count w.1 w.2)

theorem view_foldl_delete (kind : EngineKind) (tx : TableTx) (keys : List Bytes) (key : Bytes) :
    (keys.foldl (TableTx.delete kind) tx).view.get key =
      if key ∈ keys then none else tx.view.get key := by
  induction keys generalizing tx with
  | nil => simp
  | cons k keys ih =>
    rw [List.foldl_cons, ih]
    simp only [TableTx.delete, SortedMap.get_erase, List.mem_cons]
    by_cases hk : key = k <;> by_cases hm : key ∈ keys <;> simp [hk, hm, Ne.symm]

theorem data_foldl_delete (kind : EngineKind) (tx : TableTx) (keys : List Bytes) :
    (keys.foldl (TableTx.delete kind) tx).data = tx.data := by
  induction keys generalizing tx with
  | nil => rfl
  | cons k keys ih => exact ih (tx.delete kind k)

theorem leaves_deleteRows (h : GoodRows t tx) (keys : List Bytes) :
    Leaves (deleteRows t keys) tx (keys.foldl (TableTx.delete t.engine) tx) (Indexed t tx)
      fun _ => Indexed t (keys.foldl (TableTx.delete t.engine) tx) := by
  induction keys generalizing tx with
  | nil => exact leaves_pure fun _ => id
  | cons k keys ih =>
    have hdel : GoodRows t (tx.delete t.engine k) := by
      intro key cells hv
      simp only [TableTx.delete, SortedMap.get_erase] at hv
      split at hv
      · cases hv
      · exact h key cells hv
    exact leaves_bind (leaves_deleteRow (h.readable k)) fun _ => ih hdel

/-- The writes of `BatchInsertRows`. -/
def rowWrites (t : Table) (rows : List (List Value)) : List (Bytes × List Cell) :=
  rows.map fun row => (rowKeyOf t row, rowCells t row)

theorem rowVals_eq (t : Table) (ov : Option Vals) (row : List Value) : rowVals t ov row =
    .ofList (t.cols.mapIdx fun i c => (c.name, if ((row[i]?).getD {}).missing then
      (ov.map fun ov => ov.cell c.name).getD (fromSQLValue ((row[i]?).getD {}))
    else fromSQLValue ((row[i]?).getD {}))) := by
  rw [rowVals]
  congr
  ext i c : 2
  dsimp only
  cases ((row[i]?).getD {}).missing <;> cases ov <;> rfl

/-- The value that a row of `BatchInsertRows` is indexed under. -/
theorem rowVals_at (ht : GoodTable t) (ov : Option Vals) (row : List Value) {i : ℕ} {c : ColInfo}
    (hc : t.cols[i]? = some c) : rowVals t ov row c.name =
      some (if ((row[i]?).getD {}).missing then
        (ov.map fun ov => ov.cell c.name).getD (fromSQLValue ((row[i]?).getD {}))
      else fromSQLValue ((row[i]?).getD {})) := by
  have hnames (f : ℕ → ColInfo → SqlValue) :
      (t.cols.mapIdx fun i c => (c.name, f i c)).map Prod.fst = t.cols.map ColInfo.name := by
    apply List.ext_getElem?
    intro j
    rw [List.getElem?_map, List.getElem?_mapIdx, List.getElem?_map, Option.map_map]
    rfl
  rw [rowVals_eq]
  refine SortedMap.getEntry_of_getElem? ((hnames _).symm ▸ ht.names) (i := i) ?_
  rw [List.getElem?_mapIdx, hc, Option.map_some]

/-- The row is indexed under what its cells are then read as. -/
def IndexedAsRead (t : Table) (tx : TableTx) (row : List Value) : Prop :=
  ∀ ov ix, t.indexValOf ix (tx.written t.engine (rowKeyOf t row) (rowCells t row)) =
    indexValForCols (rowVals t ((oldVals t tx (rowKeyOf t row)).or ov) row) t ix

theorem leaves_batchInsertRows {rows : List (List Value)}
    (h : ∀ row ∈ rows, Readable tx (rowKeyOf t row)) (hn : (rows.map (rowKeyOf t)).Nodup)
    (hix : ∀ row ∈ rows, IndexedAsRead t tx row) (ov : Option Vals) :
    Leaves (batchInsertRows t ov rows) tx (tx.putEach t.engine false (rowWrites t rows))
      (Indexed t tx) fun _ => Indexed t (tx.putEach t.engine false (rowWrites t rows)) := by
  induction rows generalizing tx ov with
  | nil => exact leaves_pure fun _ => id
  | cons row rows ih =>
    obtain ⟨hrow, hrows⟩ := List.forall_mem_cons.mp h
    obtain ⟨hnot, hn⟩ := List.nodup_cons.mp hn
    obtain ⟨hixr, hix⟩ := List.forall_mem_cons.mp hix
    have hne : ∀ row' ∈ rows, rowKeyOf t row' ≠ rowKeyOf t row := fun row' hr he =>
      hnot (he ▸ List.mem_map_of_mem hr)
    have hview : ∀ row' ∈ rows, (tx.put t.engine false (rowKeyOf t row)
        (rowCells t row)).view.get (rowKeyOf t row') = tx.view.get (rowKeyOf t row') := by
      intro row' hr
      rw [view_put, if_neg (hne row' hr).symm]
    refine leaves_bind (leaves_dropOldIndexes hrow) fun old => ?_
    refine leaves_bind (leaves_modifyTx _) fun _ => ?_
    refine leaves_bind (J := fun _ => Indexed t (tx.put t.engine false (rowKeyOf t row)
      (rowCells t row))) (leaves_updateIndexes fun ixs hi => ?_) fun _ =>
        ih (fun row' hr => ?_) hn (fun row' hr => ?_) _
    · obtain ⟨hi, hempty | rfl⟩ := hi
      · exact inStep_of_isEmpty (by
          rw [updateIndexes_eq, SortedMap.map, List.isEmpty_map, hempty])
      · rw [Indexed, rows_put]
        exact inStep_addRowIndexes hi (hixr ov)
    · rw [Readable, hview row' hr]
      exact hrows row' hr
    · intro ov' ix
      rw [oldVals, hview row' hr]
      exact hix row' hr ov' ix

end Leaves

end Ydbgo.Storage
