import Ydbgo.Raft.Fsm
import Ydbgo.Storage.Buffered

/-! # Group commit

The statements of independent callers run in one transaction, and the first that
fails fails them all. A batch whose statements all succeed does what they do one
by one, as long as no statement meets buffered writes that its scans or its
partial writes take for something else.
-/

namespace Ydbgo.Raft

open Sql

open Storage (Exec ExecError Engine Batch BatchSim EngineKind TableTx Table TxSim updateBatch)

section

variable {lists fills : Prop} {engine : EngineKind} {table : Bytes}

theorem respects_liftEval {α : Type} (x : Eval α) :
    Prog.Respects (BatchSim lists fills engine table) (liftEval x) := by
  unfold liftEval
  split
  · exact Prog.respects_throw _
  · exact Prog.respects_throw _
  · exact Prog.respects_pure _

variable (lib : Stdlib)

theorem respects_updateRows (schema : TableSchema) (sets : List SetItem) (where_ : Expr)
    (rows : List (List Value)) :
    Prog.Respects (BatchSim lists fills engine table)
      (updateRows lib schema table sets where_ rows) := by
  induction rows with
  | nil => exact Prog.respects_pure _
  | cons row rows ih =>
    refine Prog.respects_bind (respects_liftEval _) fun c => ?_
    split
    · refine Prog.respects_bind (respects_liftEval _) fun set => ?_
      refine Prog.respects_bind (Storage.respects_update _ _) fun _ => ?_
      exact Prog.respects_bind ih fun _ => Prog.respects_pure _
    · exact ih

theorem respects_execUpdateScan (hl : lists) (schema : TableSchema) (sets : List SetItem)
    (where_ : Expr) :
    Prog.Respects (BatchSim lists fills engine table)
      (execUpdateScan lib schema table sets where_) := by
  refine Prog.respects_bind (Storage.respects_scan lib hl) fun rows => ?_
  exact Prog.respects_bind (respects_updateRows lib _ _ _ _) fun _ => Prog.respects_pure _

theorem respects_rewriteRows (hl : lists) (hf : fills) (schema : TableSchema)
    (sets : List SetItem) (where_ : Expr) (plan : Option PKRange × Bool) :
    Prog.Respects (BatchSim lists fills engine table)
      (rewriteRows lib schema table sets where_ plan) := by
  refine Prog.respects_bind (Storage.respects_scanColumnsOf lib hl _ _) fun rows => ?_
  refine Prog.respects_bind (respects_liftEval _) fun updated => ?_
  exact Prog.respects_bind (Storage.respects_batchInsertAll hf _) fun _ => Prog.respects_pure _

theorem respects_execUpdateColumnar (hl : lists) (hf : fills) (schema : TableSchema)
    (sets : List SetItem) (where_ : Expr) (plan : Option PKRange × Bool) :
    Prog.Respects (BatchSim lists fills engine table)
      (execUpdateColumnar lib schema table sets where_ plan) := by
  unfold execUpdateColumnar
  split
  · exact respects_execUpdateScan lib hl _ _ _
  · split
    · refine Prog.respects_bind (Storage.respects_updateColumnConst hl hf _ _) fun n => ?_
      split
      · exact Prog.respects_pure _
      · exact respects_rewriteRows lib hl hf _ _ _ _
    · exact respects_rewriteRows lib hl hf _ _ _ _

theorem respects_updatePoint (schema : TableSchema) (sets : List SetItem) (pk : List Value) :
    Prog.Respects (BatchSim lists fills engine table)
      (updatePoint lib schema table sets pk) := by
  refine Prog.respects_bind (Storage.respects_getRow lib _) fun row => ?_
  split
  · exact Prog.respects_pure _
  · refine Prog.respects_bind (respects_liftEval _) fun set => ?_
    exact Prog.respects_bind (Storage.respects_update _ _) fun _ => Prog.respects_pure _

theorem respects_deleteRows (schema : TableSchema) (where_ : Expr) (rows : List (List Value)) :
    Prog.Respects (BatchSim lists fills engine table)
      (deleteRows lib schema table where_ rows) := by
  induction rows with
  | nil => exact Prog.respects_pure _
  | cons row rows ih =>
    refine Prog.respects_bind (respects_liftEval _) fun c => ?_
    split
    · refine Prog.respects_bind (Storage.respects_delete _) fun _ => ?_
      exact Prog.respects_bind ih fun _ => Prog.respects_pure _
    · exact ih

theorem respects_execDelete (hl : lists) (where_ : Expr) :
    Prog.Respects (BatchSim lists fills engine table) (execDelete lib table where_) := by
  refine Prog.respects_bind Storage.respects_getSchema fun schema => ?_
  split
  · exact Prog.respects_bind (Storage.respects_deleteRange hl _) fun _ => Prog.respects_pure _
  · refine Prog.respects_bind (Storage.respects_scan lib hl) fun rows => ?_
    exact Prog.respects_bind (respects_deleteRows lib _ _ _) fun _ => Prog.respects_pure _

theorem respects_execInsert (columns : List Bytes) (rows : List (List Expr)) :
    Prog.Respects (BatchSim lists fills engine table) (execInsert lib table columns rows) := by
  refine Prog.respects_bind Storage.respects_getSchema fun schema => ?_
  refine Prog.respects_bind (respects_liftEval _) fun vals => ?_
  exact Prog.respects_bind (Storage.respects_batchInsert _) fun _ => Prog.respects_pure _

end

/-! ### A statement in a batch -/

variable (lib : Stdlib)

/-- What the statement scans in the batch are the rows of its table, and the rows it writes in part
were not written in the batch before. A statement that scans nothing is always settled. -/
def Settled (b : Batch) : Statement → Prop
  | .update table _ where_ => ∀ t, b.tables.get table = some t →
    pointKey lib (pkRangeFromWhere lib (t.schema table) where_) = none →
      (b.tx table t).ListsRows t.engine ∧ (b.tx table t).FillsRows t.engine
  | .delete table _ | .dropTable table _ | .createIndex _ table _ _ =>
    ∀ t, b.tables.get table = some t → (b.tx table t).ListsRows t.engine
  | _ => True

/-- The statement ends the same in the batch and after the batch is committed. -/
def SameFresh (b : Batch) {α : Type} (x : Exec α) : Prop :=
  (x.exec b).1 = (x.exec b.fresh).1 ∧ (x.exec b).2.commit = (x.exec b.fresh).2.commit

variable {lib} {b : Batch}

theorem sameFresh_of_respects {lists fills : Prop} {engine : EngineKind} {table : Bytes}
    (h : BatchSim lists fills engine table b b.fresh) {α : Type} {x : Exec α}
    (hx : Prog.Respects (BatchSim lists fills engine table) x) : SameFresh b x := by
  obtain ⟨hr, hs⟩ := hx b b.fresh h
  exact ⟨hr, hs.commit⟩

theorem sameFresh_of_missing {α β : Type} {table : Bytes} (ht : b.tables.get table = none)
    {x : Exec α} {f : α → Exec β}
    (h : ∀ b' : Batch, b'.tables.get table = none → x.exec b' = (.error (.notFound table), b')) :
    SameFresh b (x >>= f) := by
  unfold SameFresh
  rw [Prog.exec_bind_error (h b ht), Prog.exec_bind_error (h b.fresh ht)]
  exact ⟨rfl, rfl⟩

theorem getTable_missing {table : Bytes} {b' : Batch} (h : b'.tables.get table = none) :
    (Storage.getTable table).exec b' = (.error (.notFound table), b') := by
  rw [Storage.exec_getTable, h]

theorem getSchema_missing {table : Bytes} {b' : Batch} (h : b'.tables.get table = none) :
    (Storage.getSchema table).exec b' = (.error (.notFound table), b') := by
  rw [Storage.exec_getSchema, h]

theorem sameFresh_getSchema {α : Type} {table : Bytes} {t : Table} {f : TableSchema → Exec α}
    (ht : b.tables.get table = some t) (h : SameFresh b (f (t.schema table))) :
    SameFresh b (Storage.getSchema table >>= f) := by
  have hs : ∀ b' : Batch, b'.tables = b.tables →
      (Storage.getSchema table).exec b' = (.ok (t.schema table), b') := by
    intro b' hb
    rw [Storage.exec_getSchema, hb, ht]
  unfold SameFresh
  rw [Prog.exec_bind_ok (hs b rfl), Prog.exec_bind_ok (hs b.fresh rfl)]
  exact h

theorem sameFresh_execUpdate {table : Bytes} {sets : List SetItem} {where_ : Expr}
    (h : Settled lib b (.update table sets where_)) :
    SameFresh b (execUpdate lib table sets where_) := by
  cases ht : b.tables.get table with
  | none => exact sameFresh_of_missing ht fun _ hb => getSchema_missing hb
  | some t =>
    refine sameFresh_getSchema ht ?_
    dsimp only
    split
    · exact sameFresh_of_respects (Storage.batchSim_fresh_weak t.engine table b)
        (respects_updatePoint lib _ _ _)
    · rename_i hp
      obtain ⟨hl, hf⟩ := h t ht hp
      have hsim : BatchSim True True t.engine table b b.fresh :=
        Storage.batchSim_fresh ht (fun _ => hl) fun _ => hf
      split
      · exact sameFresh_of_respects hsim
          (respects_execUpdateColumnar lib trivial trivial _ _ _ _)
      · exact sameFresh_of_respects hsim (respects_execUpdateScan lib trivial _ _ _)

theorem sameFresh_execDelete {table : Bytes} {where_ : Expr}
    (h : Settled lib b (.delete table where_)) : SameFresh b (execDelete lib table where_) := by
  cases ht : b.tables.get table with
  | none => exact sameFresh_of_missing ht fun _ hb => getSchema_missing hb
  | some t =>
    have hsim : BatchSim True False t.engine table b b.fresh :=
      Storage.batchSim_fresh ht (fun _ => h t ht) False.elim
    exact sameFresh_of_respects hsim (respects_execDelete lib trivial _)

theorem sameFresh_createIndex {name table : Bytes} {columns : List Bytes} {ifNotExists : Bool}
    (h : Settled lib b (.createIndex name table columns ifNotExists)) :
    SameFresh b (do
      Storage.createIndex lib table name columns ifNotExists
      return (⟨ascii "create_index", 1⟩ : Result)) := by
  cases ht : b.tables.get table with
  | none =>
    refine sameFresh_of_missing ht fun b' hb => ?_
    exact Prog.exec_bind_error (getTable_missing hb)
  | some t =>
    have hsim : BatchSim True False t.engine table b b.fresh :=
      Storage.batchSim_fresh ht (fun _ => h t ht) False.elim
    exact sameFresh_of_respects hsim
      (Prog.respects_bind (Storage.respects_createIndex lib trivial _ _ _)
        fun _ => Prog.respects_pure _)

theorem sameFresh_execDropTable {table : Bytes} {ifExists : Bool}
    (h : Settled lib b (.dropTable table ifExists)) :
    SameFresh b (execDropTable table ifExists) := by
  cases ht : b.tables.get table with
  | none =>
    have hx : ∀ b' : Batch, b'.tables.get table = none → (do
        Storage.dropTable table
        return (⟨ascii "drop_table", 1⟩ : Result)).exec b' = (.error (.notFound table), b') :=
      fun b' hb => Prog.exec_bind_error (Prog.exec_bind_error (getTable_missing hb))
    unfold SameFresh execDropTable
    rw [Prog.exec_tryCatch, Prog.exec_tryCatch, hx b ht, hx b.fresh ht]
    dsimp only
    split <;> exact ⟨rfl, rfl⟩
  | some t =>
    have hsim : BatchSim True False t.engine table b b.fresh :=
      Storage.batchSim_fresh ht (fun _ => h t ht) False.elim
    refine sameFresh_of_respects hsim (Prog.respects_tryCatch ?_ fun err => ?_)
    · exact Prog.respects_bind (Storage.respects_dropTable trivial) fun _ => Prog.respects_pure _
    · split
      · exact Prog.respects_pure _
      · exact Prog.respects_throw _

/-- A settled statement does in the batch what it does after a commit. -/
theorem sameFresh_execute {st : WriteStmt} (h : Settled lib b st.1) :
    SameFresh b (execute lib st) := by
  obtain ⟨st, hst⟩ := st
  have hweak : ∀ table, BatchSim False False .table table b b.fresh :=
    fun table => Storage.batchSim_fresh_weak .table table b
  cases st with
  | createTable name columns pk ifNotExists engine retention =>
    refine sameFresh_of_respects (hweak name) (Prog.respects_bind ?_ fun _ => Prog.respects_pure _)
    exact Storage.respects_createTable (fun hf => hf.elim id id) _ _ _ _ _
  | dropTable name ifExists => exact sameFresh_execDropTable h
  | createIndex name table columns ifNotExists => exact sameFresh_createIndex h
  | dropIndex name table ifExists =>
    exact sameFresh_of_respects (hweak table)
      (Prog.respects_bind (Storage.respects_dropIndex _ _) fun _ => Prog.respects_pure _)
  | insert table columns rows =>
    exact sameFresh_of_respects (hweak table) (respects_execInsert lib _ _)
  | update table sets where_ => exact sameFresh_execUpdate h
  | delete table where_ => exact sameFresh_execDelete h
  | kvPut table key value =>
    exact sameFresh_of_respects (hweak table)
      (Prog.respects_bind (Storage.respects_modifyData _) fun _ => Prog.respects_pure _)
  | kvDelete table key =>
    exact sameFresh_of_respects (hweak table)
      (Prog.respects_bind (Storage.respects_modifyData _) fun _ => Prog.respects_pure _)
  | begin_ | commit | rollback | createDatabase => exact ⟨rfl, rfl⟩
  | select s => cases hst
  | kvGet table key => cases hst
  | kvScan table start stop hasStart hasEnd => cases hst

/-! ### A batch and its statements one by one -/

variable (lib)

/-- The statements one by one, each in a batch of its own. One that fails has no effect. -/
def oneByOne (clock : ℕ → Clock) : ℕ → Entry → Engine → List (Except ExecError Result) × Engine
  | _, [], e => ([], e)
  | i, st :: stmts, e =>
    match updateBatch (execute (lib.at (clock i)) st) e with
    | (.ok r, e') =>
      let (rs, e'') := oneByOne clock (i + 1) stmts e'
      (.ok r :: rs, e'')
    | (.error err, _) =>
      let (rs, e'') := oneByOne clock (i + 1) stmts e
      (.error err :: rs, e'')

/-- What a caller receives for the outcome of its statement. -/
def replyOf : Except ExecError Result → Reply
  | .ok r => .result (some r)
  | .error err => .error err

/-- Every statement is settled where the batch comes to it. -/
def SettledRun (clock : ℕ → Clock) : ℕ → Entry → Batch → Prop
  | _, [], _ => True
  | i, st :: stmts, b => Settled (lib.at (clock i)) b st.1 ∧
    SettledRun clock (i + 1) stmts ((execute (lib.at (clock i)) st).exec b).2

/-- The outcome of the batch and that of its statements one by one. -/
def Matches (outcomes : List (Except ExecError Result) × Engine) :
    Except ExecError (List Result) × Batch → Prop
  | (.ok rs, b) => outcomes = (rs.map .ok, b.commit)
  | (.error err, _) =>
    ∃ (rs : List Result) (rest : _), outcomes.1 = rs.map .ok ++ .error err :: rest

variable {lib} {clock : ℕ → Clock}

theorem runStmts_matches {i : ℕ} {stmts : Entry} {b : Batch}
    (h : SettledRun lib clock i stmts b) :
    Matches (oneByOne lib clock i stmts b.commit) ((runStmts lib clock i stmts).exec b) := by
  induction stmts generalizing i b with
  | nil => exact rfl
  | cons st stmts ih =>
    obtain ⟨hst, hrest⟩ := h
    obtain ⟨hr, hc⟩ := sameFresh_execute hst
    have ih := ih hrest
    rw [runStmts, Prog.exec_bind, oneByOne]
    cases hx : (execute (lib.at (clock i)) st).exec b with
    | mk r b₁ =>
      cases hy : (execute (lib.at (clock i)) st).exec b.fresh with
      | mk r' b₂ =>
        rw [hx, hy] at hr hc
        rw [hx] at ih
        obtain rfl : r = r' := hr
        have hc : b₁.commit = b₂.commit := hc
        cases r with
        | error err =>
          rw [Storage.updateBatch_of_error hy]
          exact ⟨[], (oneByOne lib clock (i + 1) stmts b.commit).1, rfl⟩
        | ok r =>
          rw [Storage.updateBatch_of_ok hy]
          dsimp only at ih ⊢
          rw [← hc, Prog.exec_bind]
          cases hz : (runStmts lib clock (i + 1) stmts).exec b₁ with
          | mk rs b₃ =>
            rw [hz] at ih
            cases rs with
            | ok rs =>
              have ih : oneByOne lib clock (i + 1) stmts b₁.commit = (rs.map .ok, b₃.commit) := ih
              dsimp only
              rw [ih]
              rfl
            | error err =>
              obtain ⟨rs, rest, ih⟩ := ih
              refine ⟨r :: rs, rest, ?_⟩
              change Except.ok r :: (oneByOne lib clock (i + 1) stmts b₁.commit).1 = _
              rw [ih]
              rfl

/-- The replies to the callers of a batch, given the outcomes of its statements one by one: each
its own when all succeed, and the first error to all otherwise. -/
def groupReplies (outcomes : List (Except ExecError Result)) : List Reply :=
  match outcomes.find? fun r => !r.isOk with
  | some r => outcomes.map fun _ => replyOf r
  | none => outcomes.map replyOf

theorem length_oneByOne (i : ℕ) (stmts : Entry) (e : Engine) :
    (oneByOne lib clock i stmts e).1.length = stmts.length := by
  induction stmts generalizing i e with
  | nil => rfl
  | cons st stmts ih =>
    rw [oneByOne]
    split <;> exact congrArg (· + 1) (ih _ _)

theorem find?_ok_append (rs : List Result) (rest : List (Except ExecError Result)) :
    (rs.map Except.ok ++ rest).find? (fun r => !r.isOk) = rest.find? fun r => !r.isOk := by
  induction rs with
  | nil => rfl
  | cons r rs ih => exact ih

theorem completeApply_results (rs : List Result) :
    completeApply rs.length (.results rs) = (rs.map .ok).map replyOf := by
  refine List.ext_getElem (by simp [completeApply]) fun i hi _ => ?_
  have hi : i < rs.length := by simpa [completeApply] using hi
  simp [completeApply, replyOf, hi]

/-- The rows, key-value entries, counts and persisted definitions are as they were. -/
def SameStores (e e' : Engine) : Prop := e'.defs = e.defs ∧ e'.stores = e.stores

theorem submitAll_matches {stmts : Entry} {e : Engine}
    {outcomes : List (Except ExecError Result) × Engine}
    (hlen : outcomes.1.length = stmts.length)
    (h : Matches outcomes ((runStmts lib clock 0 stmts).exec e.begin_)) :
    (submitAll lib clock stmts e).1 = groupReplies outcomes.1 ∧
      ((∀ r ∈ outcomes.1, r.isOk) → (submitAll lib clock stmts e).2 = outcomes.2) ∧
      ((∃ r ∈ outcomes.1, r.isOk = false) → SameStores e (submitAll lib clock stmts e).2) := by
  cases hx : (runStmts lib clock 0 stmts).exec e.begin_ with
  | mk r b =>
    rw [hx] at h
    cases r with
    | ok rs =>
      obtain rfl : outcomes = (rs.map .ok, b.commit) := h
      rw [List.length_map] at hlen
      have hsub : submitAll lib clock stmts e = ((rs.map .ok).map replyOf, b.commit) := by
        cases stmts with
        | nil =>
          cases hx
          rfl
        | cons st stmts =>
          rw [submitAll, fsmApply, Storage.updateBatch_of_ok hx, ← completeApply_results, hlen]
          rfl
      have hfind := find?_ok_append rs []
      rw [List.append_nil] at hfind
      rw [hsub]
      refine ⟨?_, fun _ => rfl, ?_⟩
      · rw [groupReplies, hfind]
        rfl
      · rintro ⟨r, hr, he⟩
        obtain ⟨r, -, rfl⟩ := List.mem_map.mp hr
        cases he
    | error err =>
      obtain ⟨rs, rest, h⟩ := h
      have hsub : submitAll lib clock stmts e =
          (List.replicate stmts.length (.error err), { e with tables := b.tables }) := by
        cases stmts with
        | nil => cases hx
        | cons st stmts =>
          rw [submitAll, fsmApply, Storage.updateBatch_of_error hx]
          rfl
      rw [hsub]
      refine ⟨?_, fun hall => ?_, fun _ => ⟨rfl, rfl⟩⟩
      · rw [groupReplies, h, find?_ok_append]
        change _ = List.map (fun _ => Reply.error err) _
        rw [List.map_const', ← h, hlen]
      · have herr := hall (.error err) (h ▸ List.mem_append_right _ List.mem_cons_self)
        cases herr

/-- A statement that fails on a missing table. -/
def putMissing : WriteStmt := ⟨.kvPut [117] [] [], rfl⟩

end Ydbgo.Raft
