import Ydbgo.Storage.RowOps

/-! # Operations on one table

What the operations of the engine do to the rows of a table, whatever its
indexes hold. They keep the indexes in step and leave the other tables alone.
-/

namespace Ydbgo.Storage

open Sql (Value Stdlib PKRange TableSchema)

variable {α β : Type} {b : Batch} {name : Bytes} {t : Table}

/-! ### The batch as a table among others -/

theorem insert_insert {κ ν : Type} [LinearOrder κ] (m : SortedMap κ ν) (k : κ) (v w : ν) :
    (m.insert k v).insert k w = m.insert k w := by
  apply SortedMap.ext_get
  intro k'
  simp only [SortedMap.get_insert]
  split <;> rfl

theorem withLive_withLive (l l' : Live) (ixs : SortedMap Bytes Index) :
    (b.withLive name t l).withLive name { t with indexes := ixs } l' = b.withLive name t l' := by
  unfold Batch.withLive
  simp only [insert_insert]
  congr 1
  funext kind n
  split <;> rfl

theorem tx_withLive (l : Live) (ixs : SortedMap Bytes Index) :
    (b.withLive name t l).tx name { t with indexes := ixs } = l.tx := by
  simp [Batch.tx, Batch.withLive]

theorem withLive_self (h : b.tables.get name = some t) :
    b.withLive name t ⟨t.indexes, b.tx name t⟩ = b := by
  unfold Batch.withLive
  rw [SortedMap.insert_eq_self h]
  congr 1
  funext kind n
  split
  · rename_i he
    obtain ⟨rfl, rfl⟩ := he
    rfl
  · rfl

theorem exec_getTable_withLive (l : Live) :
    (getTable name).exec (b.withLive name t l) =
      (.ok { t with indexes := l.indexes }, b.withLive name t l) := by
  rw [exec_getTable]
  simp [Batch.withLive, SortedMap.get_insert]

theorem exec_writeTo_withLive (l : Live) (fn : RowM α) :
    (writeTo name { t with indexes := l.indexes } fn).exec (b.withLive name t l) =
      ((fn.exec l).1, b.withLive name t (fn.exec l).2) := by
  simp only [writeTo, Prog.exec, tx_withLive, withLive_withLive]

/-! ### Effects -/

/-- The indexes are on the same columns, and in step with the rows if they were before. -/
structure Follows (t : Table) (ixs : SortedMap Bytes Index) (tx : TableTx)
    (ixs' : SortedMap Bytes Index) (tx' : TableTx) : Prop where
  cols : ixs'.map Index.cols = ixs.map Index.cols
  indexed : Indexed t tx ixs → Indexed t tx' ixs'

/-- Whatever the indexes of the table hold, the program succeeds with that result and leaves the
given rows. -/
def Does (b : Batch) (name : Bytes) (t : Table) (x : Exec α) (tx : TableTx) (a : α)
    (tx' : TableTx) : Prop :=
  ∀ ixs, ∃ ixs', x.exec (b.withLive name t ⟨ixs, tx⟩) = (.ok a, b.withLive name t ⟨ixs', tx'⟩) ∧
    Follows t ixs tx ixs' tx'

variable {tx tx' tx'' : TableTx} {key : Bytes} {cells : List Cell}
  {ixs ixs' ixs'' : SortedMap Bytes Index}

theorem Follows.rfl : Follows t ixs tx ixs tx := ⟨Eq.refl _, id⟩

theorem Follows.trans (h : Follows t ixs tx ixs' tx') (h' : Follows t ixs' tx' ixs'' tx'') :
    Follows t ixs tx ixs'' tx'' := ⟨h'.cols.trans h.cols, h'.indexed ∘ h.indexed⟩

theorem does_pure (a : α) : Does b name t (pure a) tx a tx := fun ixs => ⟨ixs, rfl, .rfl⟩

theorem does_bind {x : Exec α} {f : α → Exec β} {a : α} {c : β} (hx : Does b name t x tx a tx')
    (hf : Does b name t (f a) tx' c tx'') : Does b name t (x >>= f) tx c tx'' := by
  intro ixs
  obtain ⟨ixs', ha, hfol⟩ := hx ixs
  obtain ⟨ixs'', hc, hfol'⟩ := hf ixs'
  rw [Prog.exec_bind_ok ha]
  exact ⟨ixs'', hc, hfol.trans hfol'⟩

/-- The program on the batch itself. -/
theorem Does.exec {x : Exec α} {a : α} (ht : b.tables.get name = some t)
    (h : Does b name t x (b.tx name t) a tx') :
    ∃ ixs, x.exec b = (.ok a, b.withLive name t ⟨ixs, tx'⟩) ∧
      Follows t t.indexes (b.tx name t) ixs tx' := by
  obtain ⟨ixs, he, hfol⟩ := h t.indexes
  rw [withLive_self ht] at he
  exact ⟨ixs, he, hfol⟩

theorem does_getTable_bind {f : Table → Exec β} {c : β}
    (hf : ∀ ixs, ∃ ixs', (f { t with indexes := ixs }).exec (b.withLive name t ⟨ixs, tx⟩) =
      (.ok c, b.withLive name t ⟨ixs', tx'⟩) ∧ Follows t ixs tx ixs' tx') :
    Does b name t (getTable name >>= f) tx c tx' := by
  intro ixs
  rw [Prog.exec_bind_ok (exec_getTable_withLive _)]
  exact hf ixs

theorem does_getSchema : Does b name t (getSchema name) tx (t.schema name) tx :=
  does_getTable_bind fun ixs => ⟨ixs, rfl, .rfl⟩

/-- The program on the rows of the table leaves them and the indexes as `Does` asks. -/
abbrev Writes (t : Table) (fn : RowM α) (tx tx' : TableTx) : Prop :=
  Leaves fn tx tx' (Indexed t tx) fun _ => Indexed t tx'

theorem Writes.of_withIndexes {fn : RowM α} (ixs : SortedMap Bytes Index)
    (h : Writes { t with indexes := ixs } fn tx tx') : Writes t fn tx tx' := fun ixs' =>
  let ⟨a, ixs'', ha, hcols, hix⟩ := h ixs'
  ⟨a, ixs'', ha, hcols, fun hi => (inStep_withIndexes ixs).mp (hix ((inStep_withIndexes ixs).mpr hi))⟩

theorem exec_writeTo_of_writes (b : Batch) (name : Bytes) (t : Table) {fn : RowM α}
    (h : Writes t fn tx tx') (ixs : SortedMap Bytes Index) :
    ∃ a ixs', (writeTo name { t with indexes := ixs } fn).exec (b.withLive name t ⟨ixs, tx⟩) =
      (.ok a, b.withLive name t ⟨ixs', tx'⟩) ∧ Follows t ixs tx ixs' tx' := by
  obtain ⟨a, ixs', ha, hcols, hix⟩ := h ixs
  refine ⟨a, ixs', ?_, hcols, hix⟩
  rw [exec_writeTo_withLive ⟨ixs, tx⟩, ha]

theorem does_writeTo {fn : Table → RowM Unit}
    (h : ∀ ixs, Writes t (fn { t with indexes := ixs }) tx tx') :
    Does b name t (getTable name >>= fun t => writeTo name t (fn t)) tx ⟨⟩ tx' :=
  does_getTable_bind fun ixs =>
    let ⟨_, ixs', ha, hfol⟩ := exec_writeTo_of_writes b name t (h ixs) ixs
    ⟨ixs', ha, hfol⟩

theorem does_writeTo_pure {fn : Table → RowM Unit}
    (h : ∀ ixs, Writes t (fn { t with indexes := ixs }) tx tx') (a : α) :
    Does b name t (getTable name >>= fun t => writeTo name t (fn t) >>= fun _ => pure a)
      tx a tx' := by
  apply does_getTable_bind
  intro ixs
  obtain ⟨_, ixs', ha, hfol⟩ := exec_writeTo_of_writes b name t (h ixs) ixs
  exact ⟨ixs', by rw [Prog.exec_bind_ok ha]; rfl, hfol⟩

/-- Whatever the indexes of the table hold, the program succeeds, and `Q` holds of its result and
the rows it leaves. -/
def Ends (b : Batch) (name : Bytes) (t : Table) (x : Exec α) (tx : TableTx)
    (Q : α → TableTx → Prop) : Prop :=
  ∀ ixs, ∃ a ixs' tx', x.exec (b.withLive name t ⟨ixs, tx⟩) =
    (.ok a, b.withLive name t ⟨ixs', tx'⟩) ∧ Follows t ixs tx ixs' tx' ∧ Q a tx'

theorem Does.ends {x : Exec α} {a : α} (h : Does b name t x tx a tx') {Q : α → TableTx → Prop}
    (hq : Q a tx') : Ends b name t x tx Q := fun ixs =>
  let ⟨ixs', he, hfol⟩ := h ixs
  ⟨a, ixs', tx', he, hfol, hq⟩

theorem Does.ends_bind {x : Exec α} {f : α → Exec β} {a : α} {Q : β → TableTx → Prop}
    (hx : Does b name t x tx a tx') (hf : Ends b name t (f a) tx' Q) :
    Ends b name t (x >>= f) tx Q := by
  intro ixs
  obtain ⟨ixs', ha, hfol⟩ := hx ixs
  obtain ⟨c, ixs'', tx'', hc, hfol', hq⟩ := hf ixs'
  rw [Prog.exec_bind_ok ha]
  exact ⟨c, ixs'', tx'', hc, hfol.trans hfol', hq⟩

/-- The program on the batch itself. -/
theorem Ends.exec {x : Exec α} {Q : α → TableTx → Prop} (ht : b.tables.get name = some t)
    (h : Ends b name t x (b.tx name t) Q) :
    ∃ a ixs tx', x.exec b = (.ok a, b.withLive name t ⟨ixs, tx'⟩) ∧
      Follows t t.indexes (b.tx name t) ixs tx' ∧ Q a tx' := by
  obtain ⟨a, ixs, tx', he, hfol, hq⟩ := h t.indexes
  rw [withLive_self ht] at he
  exact ⟨a, ixs, tx', he, hfol, hq⟩

/-! ### Reads -/

theorem keys_eq {kind : EngineKind} (h : tx.ListsRows kind) : tx.keys kind = tx.view.keys := by
  cases kind with
  | kv => exact h (Or.inl rfl)
  | cstore => exact h (Or.inr rfl)
  | _ => rfl

theorem rowOf_good (lib : Stdlib) (ht : GoodTable t) (h : GoodRow t key cells) :
    (t.decodeRow (some cells)).map (t.rowOf lib) = some (cellValues lib cells) := by
  obtain ⟨vals, hdec, hvals⟩ := decodeRow_good ht h
  rw [hdec, Option.map_some, Option.some.injEq]
  apply List.ext_getElem?
  intro i
  rw [Table.rowOf, cellValues, List.getElem?_map, List.getElem?_map]
  cases hc : t.cols[i]? with
  | none =>
    rw [List.getElem?_eq_none_iff, ← h.length, ← List.getElem?_eq_none_iff] at hc
    rw [hc]
    rfl
  | some c =>
    obtain ⟨v, hv, -⟩ := h.getElem? (List.getElem?_eq_some_iff.mp hc).1
    have hval := hvals i c hc
    rw [hv] at hval
    rw [hv, Option.map_some, Option.map_some, Vals.cell, hval]
    rfl

/-- Reading one row. -/
theorem does_getRow (lib : Stdlib) (ht : GoodTable t) (h : GoodRows t tx) (pk : List Value) :
    Does b name t (getRow lib name pk) tx ((tx.rows lib).get (encodePK pk)) tx := by
  apply does_getTable_bind
  intro ixs
  refine ⟨ixs, ?_, .rfl⟩
  rw [Prog.exec_bind_ok (Prog.exec_get _), tx_withLive, rows_get_of_good h]
  cases hv : tx.view.get (encodePK pk) with
  | none =>
    have hget : tx.get t.engine (encodePK pk) = none := get_of_none _ hv
    simp only [hget, Option.bind_none, Option.map_none]
    rfl
  | some cells =>
    have hgood := h _ _ hv
    have hget : tx.get t.engine (encodePK pk) = some cells := get_of_good _ hv hgood
    have hrow : (t.decodeRow (some cells)).map (t.rowOf lib) = some (cellValues lib cells) :=
      rowOf_good lib ht hgood
    simp only [hget, Option.bind_some, Option.map_some]
    exact Prod.ext (congrArg Except.ok hrow) rfl

theorem rowEach_good (h : GoodRows t tx) (hl : tx.ListsRows t.engine) :
    tx.rowEach t.engine = tx.view.entries.map fun e => (e.1, some e.2) := by
  have hget : ∀ e ∈ tx.view.entries, tx.get t.engine e.1 = some e.2 := fun e he =>
    have hv := SortedMap.get_eq_some.mpr he
    get_of_good _ hv (h _ _ hv)
  have hmap : (tx.keys t.engine).map (fun k => (k, tx.get t.engine k)) =
      tx.view.entries.map fun e => (e.1, some e.2) := by
    rw [keys_eq hl, SortedMap.keys, List.map_map]
    exact List.map_congr_left fun e he => congrArg (Prod.mk e.1) (hget e he)
  unfold TableTx.rowEach
  split
  · rw [keys_eq hl, SortedMap.keys, List.filterMap_map, ← List.filterMap_eq_map]
    refine List.filterMap_congr fun e he => ?_
    have hrow := hget e he
    simp only [Function.comp_apply, hrow, Option.map_some]
  · exact hmap

theorem scanRows_good (lib : Stdlib) (ht : GoodTable t) {es : List (Bytes × List Cell)}
    (h : ∀ e ∈ es, GoodRow t e.1 e.2) :
    scanRows t lib (es.map fun e => (e.1, some e.2)) = es.map fun e => cellValues lib e.2 := by
  induction es with
  | nil => rfl
  | cons e es ih =>
    obtain ⟨he, hes⟩ := List.forall_mem_cons.mp h
    have hrow := rowOf_good lib ht he
    obtain ⟨vals, hdec, hval⟩ := Option.map_eq_some_iff.mp hrow
    rw [List.map_cons, List.map_cons, scanRows, ih hes]
    simp only [hdec, hval]

/-- Reading all rows. -/
theorem does_scan (lib : Stdlib) (ht : GoodTable t) (h : GoodRows t tx)
    (hl : tx.ListsRows t.engine) :
    Does b name t (scan lib name) tx (tx.view.entries.map fun e => cellValues lib e.2) tx := by
  apply does_getTable_bind
  intro ixs
  refine ⟨ixs, ?_, .rfl⟩
  rw [Prog.exec_bind_ok (Prog.exec_get _), tx_withLive]
  have hrows : scanRows { t with indexes := ixs } lib (tx.rowEach t.engine) =
      tx.view.entries.map fun e => cellValues lib e.2 := by
    rw [rowEach_good h hl]
    exact scanRows_good lib (ht.withIndexes ixs) fun e he =>
      (h _ _ (SortedMap.get_eq_some.mpr he)).withIndexes ixs
  exact Prod.ext (congrArg Except.ok hrows) rfl

/-- Reading some columns of the rows in a range. -/
theorem does_scanColumnsOf (lib : Stdlib) (hc : t.engine.isColumnar = true) (need : List ℕ)
    (r : Option PKRange) :
    Does b name t (scanColumnsOf lib name need r) tx (scanColumns t lib tx need r) tx := by
  apply does_getTable_bind
  intro ixs
  refine ⟨ixs, ?_, .rfl⟩
  simp only [hc, Bool.not_true, Bool.false_eq_true, if_false]
  rw [Prog.exec_bind_ok (Prog.exec_get _), tx_withLive]
  rfl

/-! ### Writes -/

/-- An update of a row that leaves the key columns alone. -/
theorem does_update (ht : GoodTable t) {pk : List Value} {set : List (Bytes × Value)}
    (hv : tx.view.get (encodePK pk) = some cells) (h : GoodRow t (encodePK pk) cells)
    (hset : ∀ p ∈ t.pk, ∀ c : ColInfo, t.cols[p]? = some c → c.name ∉ set.map Prod.fst) :
    Does b name t (update name pk set) tx ⟨⟩
      (tx.put t.engine true (encodePK pk)
        (assignCells t (.ofList (set.map fun w => (w.1, fromSQLValue w.2))) cells)) := by
  refine does_writeTo fun ixs => .of_withIndexes ixs
    (leaves_updateRow (ht.withIndexes ixs) hv (h.withIndexes ixs) fun p hp c hc => ?_)
  refine SortedMap.getEntry_eq_none.mpr fun v hm => hset p hp c hc ?_
  rw [List.mem_reverse, List.mem_map] at hm
  obtain ⟨w, hw, he⟩ := hm
  exact List.mem_map.mpr ⟨w, hw, congrArg Prod.fst he⟩

theorem does_delete (h : GoodRows t tx) (pk : List Value) :
    Does b name t (delete name pk) tx ⟨⟩ (tx.delete t.engine (encodePK pk)) :=
  does_writeTo fun ixs => .of_withIndexes ixs (leaves_deleteRow (h.readable _))

theorem does_deleteRange (h : GoodRows t tx) (hc : t.engine.isColumnar = true)
    (r : Option PKRange) :
    Does b name t (deleteRange name r) tx
      (tx.keysRange t.engine (pkRangeBytes r).1 (pkRangeBytes r).2).length
      ((tx.keysRange t.engine (pkRangeBytes r).1 (pkRangeBytes r).2).foldl
        (TableTx.delete t.engine) tx) := by
  apply does_getTable_bind
  intro ixs
  have hl : Writes t (deleteRows t (tx.keysRange t.engine (pkRangeBytes r).1 (pkRangeBytes r).2))
    tx _ := leaves_deleteRows h _
  obtain ⟨_, ixs', ha, hfol⟩ := exec_writeTo_of_writes b name t hl ixs
  refine ⟨ixs', ?_, hfol⟩
  simp only [hc, Bool.not_true, Bool.false_eq_true, if_false]
  rw [Prog.exec_bind_ok (Prog.exec_get _), tx_withLive]
  exact (Prog.exec_bind_ok ha).trans rfl

theorem does_batchInsertAll {rows : List (List Value)}
    (h : ∀ row ∈ rows, Readable tx (rowKeyOf t row)) (hn : (rows.map (rowKeyOf t)).Nodup)
    (hix : ∀ row ∈ rows, IndexedAsRead t tx row) :
    Does b name t (batchInsertAll name rows) tx rows.length
      (tx.putEach t.engine false (rowWrites t rows)) := by
  unfold batchInsertAll
  split
  · rename_i he
    obtain rfl := List.isEmpty_iff.mp he
    exact does_pure _
  · exact does_writeTo_pure
      (fun ixs => .of_withIndexes ixs
        (leaves_batchInsertRows (t := { t with indexes := ixs }) h hn hix none)) _

end Ydbgo.Storage
