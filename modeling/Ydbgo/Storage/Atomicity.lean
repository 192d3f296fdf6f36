import Ydbgo.Storage.Engine

/-! # What a failed batch leaves behind

A failing batch rolls its transactions back, so rows, key-value entries, counts
and persisted definitions are as before. The catalog and the entries of the
secondary indexes are changed in place and stay as the batch left them.
-/

namespace Ydbgo.Storage

open Sql (Value Stdlib PKRange)

/-- The calls by which a batch changes the engine. -/
inductive Call where
  | createTable (name : Bytes) (cols : List ColInfo) (pkNames : List Bytes) (engine : EngineKind)
      (retention : Int64)
  | dropTable (name : Bytes)
  | createIndex (table name : Bytes) (cols : List Bytes) (ifNotExists : Bool)
  | dropIndex (table name : Bytes) (ifExists : Bool)
  | batchInsert (table : Bytes) (rows : List (List (Bytes × Value)))
  | batchInsertRows (table : Bytes) (rows : List (List Value))
  | updateColumnConst (table : Bytes) (consts : List (ℕ × Value)) (r : Option PKRange)
  | update (table : Bytes) (pkValues : List Value) (set : List (Bytes × Value))
  | delete (table : Bytes) (pkValues : List Value)
  | deleteRange (table : Bytes) (r : Option PKRange)
  | kvPut (table key value : Bytes)
  | kvDelete (table key : Bytes)

variable (lib : Stdlib)

/-- The call, without its result. -/
def Call.run : Call → Exec Unit
  | createTable name cols pkNames engine retention =>
    Storage.createTable name cols pkNames engine retention
  | dropTable name => Storage.dropTable name
  | createIndex table name cols ifNotExists => Storage.createIndex lib table name cols ifNotExists
  | dropIndex table name ifExists => Storage.dropIndex table name ifExists
  | batchInsert table rows => do
    let _ ← Storage.batchInsert table rows
  | batchInsertRows table rows => do
    let _ ← Storage.batchInsertAll table rows
  | updateColumnConst table consts r => do
    let _ ← Storage.updateColumnConst table consts r
  | update table pkValues set => Storage.update table pkValues set
  | delete table pkValues => Storage.delete table pkValues
  | deleteRange table r => do
    let _ ← Storage.deleteRange table r
  | kvPut table key value => Storage.kvPut table key value
  | kvDelete table key => Storage.kvDelete table key

/-- The batch after a call, whether or not the call failed. -/
def Call.after (call : Call) (b : Batch) : Batch := ((call.run lib).exec b).2

def performAll (calls : List Call) (b : Batch) : Batch := calls.foldl (fun b call => call.after lib b) b

/-- A function that makes the calls, goes on whatever they return, and fails in the end. -/
def failsAfter (calls : List Call) (err : ExecError) : Exec Unit := fun b =>
  (.error err, performAll lib calls b)

/-- The call finds nothing to change in the catalog, and no index on the rows it writes. -/
def Call.Quiet (b : Batch) : Call → Prop
  | createTable name _ _ _ _ => (b.tables.get name).isSome
  | dropTable name => b.tables.get name = none
  | createIndex table name cols _ => ∀ t, b.tables.get table = some t →
    (t.indexes.get name).isSome ∨ ∀ c, cols = [c] → t.colNamed c = none
  | dropIndex table name _ => ∀ t, b.tables.get table = some t → t.indexes.get name = none
  | batchInsert table _ | batchInsertRows table _ | update table _ _ | delete table _
  | deleteRange table _ => ∀ t, b.tables.get table = some t → t.indexes.entries = []
  | updateColumnConst _ _ _ | kvPut _ _ _ | kvDelete _ _ => True

/-- Every call of the run is quiet where it is made. -/
def QuietRun : List Call → Batch → Prop
  | [], _ => True
  | call :: calls, b => call.Quiet b ∧ QuietRun calls (call.after lib b)

/-! ### The rows of a table without indexes -/

/-- No indexes appear or change where there are none. -/
def Unindexed (l l' : Live) : Prop := l.indexes.entries = [] → l'.indexes = l.indexes

instance : IsPreorder Live Unindexed where
  refl _ _ := rfl
  trans _ _ _ h h' hl := by
    have hi := h hl
    rw [h' (hi ▸ hl), hi]

variable {t : Table}

theorem unindexed_modifyTx (f : TableTx → TableTx) : Prog.Moves Unindexed (modifyTx f) :=
  fun _ _ => rfl

theorem updateIndexes_of_nil (vals : Vals) (f : List Bytes → List Bytes)
    {ixs : SortedMap Bytes Index} (h : ixs.entries = []) : t.updateIndexes vals f ixs = ixs := by
  obtain ⟨es, hes⟩ := ixs
  obtain rfl : es = [] := h
  rfl

theorem unindexed_updateIndexes (vals : Vals) (f : List Bytes → List Bytes) :
    Prog.Moves Unindexed (modifyIndexes (t.updateIndexes vals f)) :=
  fun _ h => updateIndexes_of_nil vals f h

theorem unindexed_dropOldIndexes (key : Bytes) :
    Prog.Moves Unindexed (dropOldIndexes t key) := by
  unfold dropOldIndexes
  refine Prog.moves_bind Prog.moves_get fun l => ?_
  split
  · exact Prog.moves_pure _
  · split
    · exact Prog.moves_pure _
    · split
      · exact Prog.moves_throw _
      · exact Prog.moves_bind (unindexed_updateIndexes _ _) fun _ => Prog.moves_pure _

theorem unindexed_putRow (vals : Vals) : Prog.Moves Unindexed (putRow t vals) := by
  refine Prog.moves_bind (unindexed_dropOldIndexes _) fun _ => ?_
  exact Prog.moves_bind (unindexed_modifyTx _) fun _ => unindexed_updateIndexes _ _

theorem unindexed_batchInsertRows (ov : Option Vals) (rows : List (List Value)) :
    Prog.Moves Unindexed (batchInsertRows t ov rows) := by
  induction rows generalizing ov with
  | nil => exact Prog.moves_pure _
  | cons row rows ih =>
    refine Prog.moves_bind (unindexed_dropOldIndexes _) fun _ => ?_
    refine Prog.moves_bind (unindexed_modifyTx _) fun _ => ?_
    exact Prog.moves_bind (unindexed_updateIndexes _ _) fun _ => ih _

theorem unindexed_updateRow (pkKey : Bytes) (set : Vals) :
    Prog.Moves Unindexed (updateRow t pkKey set) := by
  unfold updateRow
  refine Prog.moves_bind Prog.moves_get fun l => ?_
  split
  · exact Prog.moves_pure _
  · refine Prog.moves_bind (unindexed_updateIndexes _ _) fun _ => ?_
    have hput : ∀ (f : TableTx → TableTx) (vals : Vals) (pk : Bytes),
        Prog.Moves Unindexed (modifyTx f >>= fun _ => modifyIndexes (addRowIndexes t vals pk)) :=
      fun f _ _ => Prog.moves_bind (unindexed_modifyTx f) fun _ => unindexed_updateIndexes _ _
    split
    · exact Prog.moves_bind (unindexed_modifyTx _) fun _ => hput _ _ _
    · exact hput _ _ _

theorem unindexed_deleteRow (pkKey : Bytes) : Prog.Moves Unindexed (deleteRow t pkKey) :=
  Prog.moves_bind (unindexed_dropOldIndexes _) fun _ => unindexed_modifyTx _

/-! ### The calls -/

/-- A call on a table that is not there changes nothing. -/
theorem tables_getTable_bind {α : Type} {name : Bytes} {f : Table → Exec α} {b : Batch}
    (h : ∀ t, b.tables.get name = some t → ((f t).exec b).2.tables = b.tables) :
    ((getTable name >>= f).exec b).2.tables = b.tables := by
  rw [Prog.exec_bind, exec_getTable]
  cases hg : b.tables.get name with
  | none => rfl
  | some t => exact h t hg

theorem tables_writeTo {α : Type} {name : Bytes} {fn : RowM α} {b : Batch}
    (hget : b.tables.get name = some t)
    (hfn : (fn.exec ⟨t.indexes, b.tx name t⟩).2.indexes = t.indexes) :
    ((writeTo name t fn).exec b).2.tables = b.tables := by
  change b.tables.insert name { t with indexes := (fn.exec ⟨t.indexes, b.tx name t⟩).2.indexes } = _
  rw [hfn]
  exact SortedMap.insert_eq_self hget

theorem tables_batchInsert {table : Bytes} {b : Batch} (rows : List (List (Bytes × Value)))
    (h : ∀ t, b.tables.get table = some t → t.indexes.entries = []) :
    ((batchInsert table rows).exec b).2.tables = b.tables := by
  unfold batchInsert
  split
  · rfl
  · refine tables_getTable_bind fun t hg => ?_
    rw [Prog.exec_bind_pure_snd]
    exact tables_writeTo hg (Prog.moves_forM (fun _ _ => unindexed_putRow _) _ (h t hg))

theorem tables_batchInsertAll {table : Bytes} {b : Batch} (rows : List (List Value))
    (h : ∀ t, b.tables.get table = some t → t.indexes.entries = []) :
    ((batchInsertAll table rows).exec b).2.tables = b.tables := by
  unfold batchInsertAll
  split
  · rfl
  · refine tables_getTable_bind fun t hg => ?_
    rw [Prog.exec_bind_pure_snd]
    exact tables_writeTo hg (unindexed_batchInsertRows _ _ _ (h t hg))

theorem tables_deleteRange {table : Bytes} {b : Batch} (r : Option PKRange)
    (h : ∀ t, b.tables.get table = some t → t.indexes.entries = []) :
    ((deleteRange table r).exec b).2.tables = b.tables := by
  refine tables_getTable_bind fun t hg => ?_
  split
  · rfl
  · rw [Prog.exec_bind_ok (Prog.exec_get b), Prog.exec_bind_pure_snd]
    exact tables_writeTo hg (Prog.moves_forM (fun _ _ => unindexed_deleteRow _) _ (h t hg))

theorem tables_modifyData (table : Bytes) (f : SortedMap Bytes Bytes → SortedMap Bytes Bytes)
    (b : Batch) : ((modifyData table f).exec b).2.tables = b.tables := by
  refine tables_getTable_bind fun t hg => ?_
  split
  · rfl
  · exact tables_writeTo hg rfl

theorem tables_createIndex {table name : Bytes} {cols : List Bytes} {ifNotExists : Bool}
    {b : Batch} (h : (Call.createIndex table name cols ifNotExists).Quiet b) :
    ((createIndex lib table name cols ifNotExists).exec b).2.tables = b.tables := by
  refine tables_getTable_bind fun t hg => ?_
  have hq := h t hg
  split
  · split <;> rfl
  · rfl
  · rfl
  · rename_i c hn
    rw [hn] at hq
    rw [hq.resolve_left nofun c rfl]
    rfl

theorem tables_updateColumnConst (table : Bytes) (consts : List (ℕ × Value))
    (r : Option PKRange) (b : Batch) :
    ((updateColumnConst table consts r).exec b).2.tables = b.tables := by
  unfold updateColumnConst
  split
  · rfl
  · refine tables_getTable_bind fun t hg => ?_
    split
    · split
      · rfl
      · exact tables_writeTo hg rfl
    · rfl

/-- A quiet call leaves the catalog as it is. -/
theorem tables_after {call : Call} {b : Batch} (h : call.Quiet b) :
    (call.after lib b).tables = b.tables := by
  cases call with
  | createTable name cols pkNames engine retention =>
    obtain ⟨t, ht⟩ := Option.isSome_iff_exists.mp h
    change ((createTable name cols pkNames engine retention).exec b).2.tables = _
    rw [createTable, Prog.exec_bind_ok (Prog.exec_get b)]
    simp only [ht]
    rfl
  | dropTable name =>
    refine tables_getTable_bind fun t hg => ?_
    rw [show b.tables.get name = none from h] at hg
    cases hg
  | createIndex table name cols ifNotExists => exact tables_createIndex lib h
  | dropIndex table name ifExists =>
    refine tables_getTable_bind fun t hg => ?_
    rw [h t hg]
    cases ifExists <;> rfl
  | batchInsert table rows =>
    exact (congrArg Batch.tables (Prog.exec_bind_pure_snd _ _ b)).trans
      (tables_batchInsert rows h)
  | batchInsertRows table rows =>
    exact (congrArg Batch.tables (Prog.exec_bind_pure_snd _ _ b)).trans
      (tables_batchInsertAll rows h)
  | updateColumnConst table consts r =>
    exact (congrArg Batch.tables (Prog.exec_bind_pure_snd _ _ b)).trans
      (tables_updateColumnConst table consts r b)
  | update table pkValues set =>
    refine tables_getTable_bind fun t hg => ?_
    exact tables_writeTo hg (unindexed_updateRow _ _ _ (h t hg))
  | delete table pkValues =>
    refine tables_getTable_bind fun t hg => ?_
    exact tables_writeTo hg (unindexed_deleteRow _ _ (h t hg))
  | deleteRange table r =>
    exact (congrArg Batch.tables (Prog.exec_bind_pure_snd _ _ b)).trans (tables_deleteRange r h)
  | kvPut table key value => exact tables_modifyData table _ b
  | kvDelete table key => exact tables_modifyData table _ b

theorem tables_performAll {calls : List Call} {b : Batch} (h : QuietRun lib calls b) :
    (performAll lib calls b).tables = b.tables := by
  induction calls generalizing b with
  | nil => rfl
  | cons call calls ih => exact (ih h.2).trans (tables_after lib h.1)

/-- A batch of quiet calls that fails leaves the engine as it was. -/
theorem updateBatch_of_quietRun (calls : List Call) (err : ExecError) (e : Engine)
    (h : QuietRun lib calls e.begin_) :
    updateBatch (failsAfter lib calls err) e = (.error err, e) := by
  have hx : (failsAfter lib calls err).exec e.begin_ =
      (.error err, performAll lib calls e.begin_) := rfl
  rw [updateBatch_of_error hx, tables_performAll lib h]
  rfl

/-- An empty table with a key and no indexes. -/
def oneTable : Engine :=
  { Engine.empty with
    tables := .insert .empty [116] ⟨[⟨[107], .int, true⟩], [0], .empty, .cstore2, 0⟩ }

theorem updateBatch_of_quietRun_insert :
    QuietRun .plain [.batchInsert [116] [[([107], Sql.intValue 1)]], .dropTable [117]]
        oneTable.begin_ ∧
      updateBatch
          (failsAfter .plain [.batchInsert [116] [[([107], Sql.intValue 1)]], .dropTable [117]]
            .panic) oneTable = (.error .panic, oneTable) := by
  have h : QuietRun .plain [.batchInsert [116] [[([107], Sql.intValue 1)]], .dropTable [117]]
      oneTable.begin_ := by
    refine ⟨fun t ht => ?_, ?_, trivial⟩
    · cases ht
      rfl
    · rfl
  exact ⟨h, updateBatch_of_quietRun .plain _ _ _ h⟩

/-- A failed batch leaves the table it created in the catalog. -/
theorem not_updateBatch_atomic :
    ¬ ∀ (calls : List Call) (err : ExecError) (e : Engine),
      updateBatch (failsAfter .plain calls err) e = (.error err, e) := by
  intro h
  have he := h [.createTable [116] [⟨[107], .int, true⟩] [[107]] .kv 0] .panic .empty
  have hs := congrArg (fun p => (p.2.tables.get [116]).isSome) he
  revert hs
  decide +kernel

end Ydbgo.Storage
