import Ydbgo.Storage.Engine

/-! # Buffered writes that make no difference

A transaction that buffers the writes of earlier statements shows the same rows
as one that starts after they are committed, but may list other keys and may
take the cells that a partial write leaves out from other rows. An operation
that does neither runs the same in both.
-/

namespace Ydbgo.Storage

open Sql (Value Stdlib PKRange TableSchema)

/-- The backend lists the keys its buffered writes touched. -/
def EngineKind.ListsBuffered (kind : EngineKind) : Prop := kind = kv ∨ kind = cstore

/-- The same rows, entries and counts; the same listed keys if `lists`, and the same rows under a
partial write if `fills`. -/
structure TxSim (lists fills : Prop) (kind : EngineKind) (tx tx' : TableTx) : Prop where
  view : tx.view = tx'.view
  data : tx.data = tx'.data
  count : tx.count = tx'.count
  listed : lists → kind.ListsBuffered → tx.listed = tx'.listed
  base : fills → kind = .cstore2 → tx.base = tx'.base

theorem fillCells_of_full {dst : List Cell} (h : ∀ c ∈ dst, c.isSome) (src : List Cell) :
    fillCells dst src = dst := by
  unfold fillCells
  refine List.ext_getElem? fun i => ?_
  rw [List.getElem?_mapIdx]
  cases hc : dst[i]? with
  | none => rfl
  | some c =>
    obtain ⟨v, rfl⟩ := Option.isSome_iff_exists.mp (h c (List.mem_of_getElem? hc))
    rfl

section

variable {lists fills : Prop} {kind : EngineKind} {tx tx' : TableTx}

theorem TxSim.get (h : TxSim lists fills kind tx tx') (key : Bytes) :
    tx.get kind key = tx'.get kind key := by
  unfold TableTx.get
  rw [h.view]

theorem TxSim.colCell (h : TxSim lists fills kind tx tx') (col : ℕ) :
    tx.colCell col = tx'.colCell col := by
  funext key
  rw [TableTx.colCell, TableTx.colCell, h.view]

theorem TxSim.keys (h : TxSim lists fills kind tx tx') (hl : lists) :
    tx.keys kind = tx'.keys kind := by
  cases kind with
  | table => exact congrArg SortedMap.keys h.view
  | kv => exact h.listed hl (Or.inl rfl)
  | cstore => exact h.listed hl (Or.inr rfl)
  | cstore2 => exact congrArg SortedMap.keys h.view

theorem TxSim.keysRange (h : TxSim lists fills kind tx tx') (hl : lists) (lo hi : Option Bytes) :
    tx.keysRange kind lo hi = tx'.keysRange kind lo hi := by
  rw [TableTx.keysRange, TableTx.keysRange, h.keys hl]

theorem TxSim.rowEach (h : TxSim lists fills kind tx tx') (hl : lists) :
    tx.rowEach kind = tx'.rowEach kind := by
  unfold TableTx.rowEach
  rw [h.keys hl]
  simp only [h.get]

theorem TxSim.written (h : TxSim lists fills kind tx tx') {cells : List Cell}
    (hc : fills ∨ ∀ c ∈ cells, c.isSome) (key : Bytes) :
    tx.written kind key cells = tx'.written kind key cells := by
  unfold TableTx.written
  split
  · rename_i hk
    rcases hc with hf | hc
    · rw [h.base hf hk]
    · rw [fillCells_of_full hc, fillCells_of_full hc]
  · rfl

theorem TxSim.put (h : TxSim lists fills kind tx tx') {cells : List Cell}
    (hc : fills ∨ ∀ c ∈ cells, c.isSome) (count : Bool) (key : Bytes) :
    TxSim lists fills kind (tx.put kind count key cells) (tx'.put kind count key cells) where
  view := by rw [TableTx.put, TableTx.put, h.written hc, h.view]
  data := h.data
  count := by rw [TableTx.put, TableTx.put, h.view, h.count]
  listed hl hk := by rw [TableTx.put, TableTx.put, h.view, h.listed hl hk]
  base := h.base

theorem TxSim.delete (h : TxSim lists fills kind tx tx') (key : Bytes) :
    TxSim lists fills kind (tx.delete kind key) (tx'.delete kind key) where
  view := by rw [TableTx.delete, TableTx.delete, h.view]
  data := h.data
  count := by rw [TableTx.delete, TableTx.delete, h.view, h.count]
  listed := h.listed
  base := h.base

theorem TxSim.foldl_delete (h : TxSim lists fills kind tx tx') (keys : List Bytes) :
    TxSim lists fills kind (keys.foldl (TableTx.delete kind) tx)
      (keys.foldl (TableTx.delete kind) tx') := by
  induction keys generalizing tx tx' with
  | nil => exact h
  | cons key keys ih => exact ih (h.delete key)

theorem TxSim.deleteAll (h : TxSim lists fills kind tx tx') (hl : lists) :
    TxSim lists fills kind (tx.deleteAll kind) (tx'.deleteAll kind) := by
  cases kind with
  | table => exact ⟨rfl, h.data, h.count, h.listed, h.base⟩
  | kv =>
    rw [TableTx.deleteAll, TableTx.deleteAll, h.listed hl (Or.inl rfl)]
    exact h.foldl_delete _
  | cstore =>
    rw [TableTx.deleteAll, TableTx.deleteAll, h.listed hl (Or.inr rfl)]
    exact h.foldl_delete _
  | cstore2 => exact ⟨rfl, h.data, rfl, h.listed, fun _ _ => rfl⟩

theorem TxSim.updateConstRange (h : TxSim lists fills .cstore2 tx tx') (hl : lists) (hf : fills)
    (cells : List Cell) (lo hi : Option Bytes) :
    (tx.updateConstRange cells lo hi).2 = (tx'.updateConstRange cells lo hi).2 ∧
      TxSim lists fills .cstore2 (tx.updateConstRange cells lo hi).1
        (tx'.updateConstRange cells lo hi).1 := by
  unfold TableTx.updateConstRange
  rw [h.keysRange hl]
  refine ⟨rfl, ?_⟩
  generalize tx'.keysRange .cstore2 lo hi = pks
  induction pks generalizing tx tx' with
  | nil => exact h
  | cons pk pks ih => exact ih (h.put (Or.inl hf) false pk)

end

/-- The keys that the transaction lists are those of its rows. -/
def TableTx.ListsRows (kind : EngineKind) (tx : TableTx) : Prop :=
  kind.ListsBuffered → tx.listed = tx.view.keys

/-- A partial write takes the missing cells from the row it replaces. -/
def TableTx.FillsRows (kind : EngineKind) (tx : TableTx) : Prop :=
  kind = .cstore2 → tx.base = tx.view

/-- A transaction that starts after the commit. -/
theorem txSim_commit {lists fills : Prop} {kind : EngineKind} {tx : TableTx}
    (hl : lists → tx.ListsRows kind) (hf : fills → tx.FillsRows kind) :
    TxSim lists fills kind tx (.begin_ tx.commit) :=
  ⟨rfl, rfl, rfl, fun h hk => hl h hk, fun h hk => hf h hk⟩

/-! ### The rows of one table -/

structure LiveSim (lists fills : Prop) (kind : EngineKind) (l l' : Live) : Prop where
  indexes : l.indexes = l'.indexes
  tx : TxSim lists fills kind l.tx l'.tx

section

variable {lists fills : Prop} {t : Table}

theorem respects_modifyTx {kind : EngineKind} {f : TableTx → TableTx}
    (h : ∀ tx tx', TxSim lists fills kind tx tx' → TxSim lists fills kind (f tx) (f tx')) :
    Prog.Respects (LiveSim lists fills kind) (modifyTx f) :=
  Prog.respects_modify fun _ _ hl => ⟨hl.indexes, h _ _ hl.tx⟩

theorem respects_modifyIndexes {kind : EngineKind}
    (f : SortedMap Bytes Index → SortedMap Bytes Index) :
    Prog.Respects (LiveSim lists fills kind) (modifyIndexes f) :=
  Prog.respects_modify fun _ _ hl => ⟨congrArg f hl.indexes, hl.tx⟩

theorem respects_dropOldIndexes (key : Bytes) :
    Prog.Respects (LiveSim lists fills t.engine) (dropOldIndexes t key) := by
  refine Prog.respects_get_bind fun l l' hl => ?_
  rw [hl.indexes, hl.tx.get]
  split
  · exact Prog.respects_pure _ l l' hl
  · split
    · exact Prog.respects_pure _ l l' hl
    · split
      · exact Prog.respects_throw _ l l' hl
      · exact Prog.respects_bind (respects_modifyIndexes _) (fun _ => Prog.respects_pure _) l l' hl

theorem encodeRowCells_full (t : Table) (vals : Vals) : ∀ c ∈ t.encodeRowCells vals, c.isSome := by
  intro c hc
  obtain ⟨col, -, rfl⟩ := List.mem_map.mp hc
  rfl

theorem respects_putRow (vals : Vals) :
    Prog.Respects (LiveSim lists fills t.engine) (putRow t vals) := by
  refine Prog.respects_bind (respects_dropOldIndexes _) fun _ => ?_
  refine Prog.respects_bind (respects_modifyTx fun tx tx' h => ?_)
    fun _ => respects_modifyIndexes _
  exact h.put (Or.inr (encodeRowCells_full t vals)) true _

theorem respects_batchInsertRows (hf : fills) (ov : Option Vals) (rows : List (List Value)) :
    Prog.Respects (LiveSim lists fills t.engine) (batchInsertRows t ov rows) := by
  induction rows generalizing ov with
  | nil => exact Prog.respects_pure _
  | cons row rows ih =>
    refine Prog.respects_bind (respects_dropOldIndexes _) fun _ => ?_
    refine Prog.respects_bind (respects_modifyTx fun tx tx' h => ?_) fun _ => ?_
    · exact h.put (Or.inl hf) false _
    · exact Prog.respects_bind (respects_modifyIndexes _) fun _ => ih _

theorem respects_updateRow (pkKey : Bytes) (set : Vals) :
    Prog.Respects (LiveSim lists fills t.engine) (updateRow t pkKey set) := by
  refine Prog.respects_get_bind fun l l' hl => ?_
  rw [hl.tx.get]
  split
  · exact Prog.respects_pure _ l l' hl
  · refine Prog.respects_bind (respects_modifyIndexes _) (fun _ => ?_) l l' hl
    have hput : ∀ (vals : Vals) (key : Bytes), Prog.Respects (LiveSim lists fills t.engine)
        (modifyTx (fun tx => tx.put t.engine true key (t.encodeRowCells vals)) >>= fun _ =>
          modifyIndexes (addRowIndexes t vals key)) := fun vals key =>
      Prog.respects_bind
        (respects_modifyTx fun _ _ h => h.put (Or.inr (encodeRowCells_full t vals)) true key)
        fun _ => respects_modifyIndexes _
    split
    · exact Prog.respects_bind (respects_modifyTx fun _ _ h => h.delete _) fun _ => hput _ _
    · exact hput _ _

theorem respects_deleteRow (pkKey : Bytes) :
    Prog.Respects (LiveSim lists fills t.engine) (deleteRow t pkKey) :=
  Prog.respects_bind (respects_dropOldIndexes _) fun _ =>
    respects_modifyTx fun _ _ h => h.delete _

end

/-! ### The calls -/

/-- The transaction of the table called `table`, in the backend `engine`. -/
def IsTx (engine : EngineKind) (table : Bytes) (kind : EngineKind) (n : Bytes) : Prop :=
  kind = engine ∧ n = table

/-- Batches that show the same, and whose transactions for one table are related as closely as an
operation on it needs. -/
structure BatchSim (lists fills : Prop) (engine : EngineKind) (table : Bytes) (b b' : Batch) :
    Prop where
  defs : b.defs = b'.defs
  tables : b.tables = b'.tables
  ofEngine : lists ∨ fills → ∀ t, b.tables.get table = some t → t.engine = engine
  txs : ∀ kind n, TxSim (lists ∧ IsTx engine table kind n) (fills ∧ IsTx engine table kind n) kind
    (b.txs kind n) (b'.txs kind n)

section

variable {lists fills : Prop} {engine : EngineKind} {table : Bytes}

theorem BatchSim.commit {b b' : Batch} (h : BatchSim lists fills engine table b b') :
    b.commit = b'.commit := by
  unfold Batch.commit
  rw [h.defs, h.tables]
  congr 1
  funext kind n
  have hn := h.txs kind n
  rw [TableTx.commit, TableTx.commit, hn.view, hn.data, hn.count]

/-- The batch that starts after this one is committed. -/
def Batch.fresh (b : Batch) : Batch := b.commit.begin_

theorem batchSim_fresh {b : Batch} {t : Table} (ht : b.tables.get table = some t)
    (hl : lists → (b.tx table t).ListsRows t.engine)
    (hf : fills → (b.tx table t).FillsRows t.engine) :
    BatchSim lists fills t.engine table b b.fresh := by
  refine ⟨rfl, rfl, fun _ t' ht' => ?_, fun kind n => txSim_commit ?_ ?_⟩
  · obtain rfl := Option.some.inj (ht.symm.trans ht')
    rfl
  · rintro ⟨h, rfl, rfl⟩
    exact hl h
  · rintro ⟨h, rfl, rfl⟩
    exact hf h

/-- Where no listing and no row under a partial write matters. -/
theorem batchSim_fresh_weak (engine : EngineKind) (table : Bytes) (b : Batch) :
    BatchSim False False engine table b b.fresh :=
  ⟨rfl, rfl, fun h => h.elim False.elim False.elim,
    fun _ _ => txSim_commit (fun h => h.1.elim) fun h => h.1.elim⟩

/-- A call that starts with the catalog is run on the one entry it finds. -/
theorem respects_getTable_bind {α : Type} {f : Table → Exec α}
    (hf : ∀ t, (lists ∨ fills → t.engine = engine) →
      Prog.Respects (BatchSim lists fills engine table) (f t)) :
    Prog.Respects (BatchSim lists fills engine table) (getTable table >>= f) := by
  intro b b' h
  rw [Prog.exec_bind, Prog.exec_bind, exec_getTable, exec_getTable, ← h.tables]
  cases ht : b.tables.get table with
  | none => exact ⟨rfl, h⟩
  | some t => exact hf t (fun hlf => h.ofEngine hlf t ht) b b' h

theorem TxSim.weaken {lists lists' fills fills' : Prop} {kind : EngineKind} {tx tx' : TableTx}
    (h : TxSim lists fills kind tx tx') (hl : lists' → lists) (hf : fills' → fills) :
    TxSim lists' fills' kind tx tx' :=
  ⟨h.view, h.data, h.count, fun hl' => h.listed (hl hl'), fun hf' => h.base (hf hf')⟩

theorem BatchSim.live {b b' : Batch} (h : BatchSim lists fills engine table b b') {t : Table}
    (he : lists ∨ fills → t.engine = engine) :
    LiveSim lists fills t.engine ⟨t.indexes, b.tx table t⟩ ⟨t.indexes, b'.tx table t⟩ :=
  ⟨rfl, (h.txs t.engine table).weaken (fun hl => ⟨hl, he (Or.inl hl), rfl⟩)
    fun hf => ⟨hf, he (Or.inr hf), rfl⟩⟩

/-- What a program on the rows of the table respects, the call respects. -/
theorem respects_writeTo {α : Type} {t : Table} (he : lists ∨ fills → t.engine = engine)
    {fn : RowM α} (hfn : Prog.Respects (LiveSim lists fills t.engine) fn) :
    Prog.Respects (BatchSim lists fills engine table) (writeTo table t fn) := by
  intro b b' h
  obtain ⟨hr, hl⟩ := hfn _ _ (h.live he)
  refine ⟨hr, h.defs, ?_, fun hlf t' ht' => ?_, fun kind n => ?_⟩
  · change b.tables.insert table { t with indexes := (fn.exec ⟨t.indexes, b.tx table t⟩).2.indexes } =
      b'.tables.insert table { t with indexes := (fn.exec ⟨t.indexes, b'.tx table t⟩).2.indexes }
    rw [h.tables, hl.indexes]
  · have hget := SortedMap.get_insert b.tables table table
      { t with indexes := (fn.exec ⟨t.indexes, b.tx table t⟩).2.indexes }
    rw [if_pos rfl] at hget
    obtain rfl := Option.some.inj (hget.symm.trans ht')
    exact he hlf
  · change TxSim _ _ kind (if _ then _ else _) (if _ then _ else _)
    split
    · rename_i hk
      obtain ⟨rfl, rfl⟩ := hk
      exact hl.tx.weaken (fun hl => hl.1) fun hf => hf.1
    · exact h.txs kind n

theorem respects_createTable (hn : ¬ (lists ∨ fills)) (name : Bytes) (cols : List ColInfo)
    (pkNames : List Bytes) (kind : EngineKind) (retention : Int64) :
    Prog.Respects (BatchSim lists fills engine table)
      (createTable name cols pkNames kind retention) := by
  refine Prog.respects_get_bind fun b b' h => ?_
  rw [h.tables]
  split
  · exact Prog.respects_throw _ b b' h
  · refine Prog.respects_modify (fun b b' h => ?_) b b' h
    exact ⟨by rw [h.defs], by rw [h.tables], fun hlf => absurd hlf hn, h.txs⟩

theorem respects_dropTable (hl : lists) :
    Prog.Respects (BatchSim lists fills engine table) (dropTable table) := by
  refine respects_getTable_bind fun t he => ?_
  refine Prog.respects_modify fun b b' h => ?_
  refine ⟨by rw [h.defs], by rw [h.tables], fun _ t' ht' => ?_, fun kind n => ?_⟩
  · have hget : (b.tables.erase table).get table = some t' := ht'
    rw [SortedMap.get_erase, if_pos rfl] at hget
    cases hget
  · have hk := h.txs kind n
    dsimp only
    split
    · rename_i hkn
      have hflag : lists ∧ IsTx engine table kind n := ⟨hl, hkn.1.trans (he (Or.inl hl)), hkn.2⟩
      rw [← hkn.1]
      split
      · exact TxSim.deleteAll ⟨hk.view, rfl, hk.count, hk.listed, hk.base⟩ hflag
      · exact hk.deleteAll hflag
    · exact hk

theorem respects_withTable {t : Table} (he : lists ∨ fills → t.engine = engine) :
    Prog.Respects (BatchSim lists fills engine table)
      (modify (fun b => b.withTable table t) : Exec Unit) := by
  refine Prog.respects_modify fun b b' h => ?_
  refine ⟨by rw [Batch.withTable, Batch.withTable, h.defs],
    by rw [Batch.withTable, Batch.withTable, h.tables], fun hlf t' ht' => ?_, h.txs⟩
  have hget : (b.tables.insert table t).get table = some t' := ht'
  rw [SortedMap.get_insert, if_pos rfl] at hget
  obtain rfl := Option.some.inj hget
  exact he hlf

theorem respects_createIndex (lib : Stdlib) (hl : lists) (name : Bytes) (cols : List Bytes)
    (ifNotExists : Bool) :
    Prog.Respects (BatchSim lists fills engine table)
      (createIndex lib table name cols ifNotExists) := by
  refine respects_getTable_bind fun t he => ?_
  split
  · split
    · exact Prog.respects_pure _
    · exact Prog.respects_throw _
  · exact Prog.respects_throw _
  · exact Prog.respects_throw _
  · split
    · exact Prog.respects_throw _
    · refine Prog.respects_get_bind fun b b' h => ?_
      rw [(h.live he).tx.rowEach hl]
      cases backfill t _ ((b'.tx table t).rowEach t.engine) with
      | none => exact Prog.respects_throw _ b b' h
      | some ix =>
        exact respects_withTable (t := { t with indexes := t.indexes.insert name ix }) he b b' h

theorem respects_dropIndex (name : Bytes) (ifExists : Bool) :
    Prog.Respects (BatchSim lists fills engine table) (dropIndex table name ifExists) := by
  refine respects_getTable_bind fun t he => ?_
  split
  · split
    · exact Prog.respects_pure _
    · exact Prog.respects_throw _
  · exact respects_withTable he

theorem respects_getSchema :
    Prog.Respects (BatchSim lists fills engine table) (getSchema table) :=
  respects_getTable_bind fun _ _ => Prog.respects_pure _

theorem respects_batchInsert (rows : List (List (Bytes × Value))) :
    Prog.Respects (BatchSim lists fills engine table) (batchInsert table rows) := by
  unfold batchInsert
  split
  · exact Prog.respects_pure _
  · refine respects_getTable_bind fun t he => ?_
    refine Prog.respects_bind (respects_writeTo he ?_) fun _ => Prog.respects_pure _
    exact Prog.respects_forM fun _ _ => respects_putRow _

theorem respects_batchInsertAll (hf : fills) (rows : List (List Value)) :
    Prog.Respects (BatchSim lists fills engine table) (batchInsertAll table rows) := by
  unfold batchInsertAll
  split
  · exact Prog.respects_pure _
  · refine respects_getTable_bind fun t he => ?_
    exact Prog.respects_bind (respects_writeTo he (respects_batchInsertRows hf _ _))
      fun _ => Prog.respects_pure _

theorem respects_updateColumnConst (hl : lists) (hf : fills) (consts : List (ℕ × Value))
    (r : Option PKRange) :
    Prog.Respects (BatchSim lists fills engine table) (updateColumnConst table consts r) := by
  unfold updateColumnConst
  split
  · exact Prog.respects_pure _
  · refine respects_getTable_bind fun t he => ?_
    split
    · split
      · exact Prog.respects_pure _
      · rename_i hk _ _ _
        refine respects_writeTo he (Prog.respects_get_bind fun l l' h => ?_)
        rw [hk] at h
        obtain ⟨hn, htx⟩ := h.tx.updateConstRange hl hf
          (t.cols.mapIdx fun i _ =>
            (SortedMap.getEntry i consts.reverse).bind fun v => encodeVariant (fromSQLValue v))
          (pkRangeBytes r).1 (pkRangeBytes r).2
        refine ⟨congrArg (fun n => Except.ok (some n)) hn, h.indexes, ?_⟩
        rw [hk]
        exact htx
    · exact Prog.respects_pure _

theorem respects_update (pkValues : List Value) (set : List (Bytes × Value)) :
    Prog.Respects (BatchSim lists fills engine table) (update table pkValues set) :=
  respects_getTable_bind fun _ he => respects_writeTo he (respects_updateRow _ _)

theorem respects_delete (pkValues : List Value) :
    Prog.Respects (BatchSim lists fills engine table) (delete table pkValues) :=
  respects_getTable_bind fun _ he => respects_writeTo he (respects_deleteRow _)

theorem respects_getRow (lib : Stdlib) (pkValues : List Value) :
    Prog.Respects (BatchSim lists fills engine table) (getRow lib table pkValues) := by
  refine respects_getTable_bind fun t he => ?_
  refine Prog.respects_get_bind fun b b' h => ?_
  rw [(h.live he).tx.get]
  exact Prog.respects_pure _ b b' h

theorem respects_deleteRange (hl : lists) (r : Option PKRange) :
    Prog.Respects (BatchSim lists fills engine table) (deleteRange table r) := by
  refine respects_getTable_bind fun t he => ?_
  split
  · exact Prog.respects_throw _
  · refine Prog.respects_get_bind fun b b' h => ?_
    dsimp only
    rw [(h.live he).tx.keysRange hl]
    refine Prog.respects_bind (respects_writeTo he ?_) (fun _ => Prog.respects_pure _) b b' h
    exact Prog.respects_forM fun _ _ => respects_deleteRow _

theorem respects_scan (lib : Stdlib) (hl : lists) :
    Prog.Respects (BatchSim lists fills engine table) (scan lib table) := by
  refine respects_getTable_bind fun t he => ?_
  refine Prog.respects_get_bind fun b b' h => ?_
  rw [(h.live he).tx.rowEach hl]
  exact Prog.respects_pure _ b b' h

theorem respects_scanColumnsOf (lib : Stdlib) (hl : lists) (need : List ℕ) (r : Option PKRange) :
    Prog.Respects (BatchSim lists fills engine table) (scanColumnsOf lib table need r) := by
  refine respects_getTable_bind fun t he => ?_
  split
  · exact Prog.respects_throw _
  · refine Prog.respects_get_bind fun b b' h => ?_
    have hs : scanColumns t lib (b.tx table t) need r = scanColumns t lib (b'.tx table t) need r := by
      have htx : TxSim lists fills t.engine (b.tx table t) (b'.tx table t) := (h.live he).tx
      unfold scanColumns columnsOf
      simp only [htx.keysRange hl, htx.colCell]
    rw [hs]
    exact Prog.respects_pure _ b b' h

theorem respects_modifyData (f : SortedMap Bytes Bytes → SortedMap Bytes Bytes) :
    Prog.Respects (BatchSim lists fills engine table) (modifyData table f) := by
  refine respects_getTable_bind fun t he => ?_
  split
  · exact Prog.respects_throw _
  · refine respects_writeTo he (respects_modifyTx fun tx tx' h => ?_)
    exact ⟨h.view, congrArg f h.data, h.count, h.listed, h.base⟩

end

end Ydbgo.Storage
