import Ydbgo.Lib.Touch
import Ydbgo.Sql.Direct
import Ydbgo.Sql.Panics
import Ydbgo.Sql.Reference
import Ydbgo.Storage.Effects

/-! # What a failed statement leaves outside a batch

A statement that makes one writing call, after everything has been evaluated,
changes nothing when it fails. UPDATE and DELETE by a scan write each row in a
transaction of its own while later rows are still to be evaluated: they change
nothing exactly if the rows before the failing one are left as they are.
-/

namespace Ydbgo.Sql

open Storage (Exec ExecError Engine EngineKind Batch Table TableTx Cell Vals GoodTable GoodRow
  GoodRows cellValues updateBatch)

/-! ### Programs that read -/

/-- The rows of a table in every backend. -/
def content (e : Engine) (table : Bytes) : EngineKind → SortedMap Bytes (List Cell) :=
  fun kind => (e.stores kind table).rows

/-- The program changes no store. -/
def ReadOnly {α : Type} (x : Prog Engine ExecError α) : Prop :=
  ∀ e, (x.exec e).2.stores = e.stores

/-- The program changes no store if it fails. -/
def AllOrNothing {α : Type} (x : Prog Engine ExecError α) : Prop :=
  ∀ e err e', x.exec e = (.error err, e') → e'.stores = e.stores

section Rules

variable {α β : Type} {x : Prog Engine ExecError α} {f : α → Prog Engine ExecError β}

theorem readOnly_pure (a : α) : ReadOnly (pure a) := fun _ => rfl

theorem readOnly_liftEval (x : Eval α) : ReadOnly (Calls.liftEval x) := by
  intro e
  unfold Calls.liftEval
  split <;> rfl

theorem ReadOnly.allOrNothing (h : ReadOnly x) : AllOrNothing x := fun e err e' he => by
  have := h e
  rwa [he] at this

/-- A call outside a batch fails as a whole. -/
theorem allOrNothing_direct (op : Exec α) : AllOrNothing (direct op) := by
  intro e err e' he
  change updateBatch op e = _ at he
  unfold updateBatch at he
  split at he
  · cases he
  · cases he
    rfl

theorem stores_commit (e : Engine) : e.begin_.commit = e := rfl

/-- A call that leaves the batch as it is. -/
theorem exec_direct_of_read {op : Exec α} {e : Engine} (h : (op.exec e.begin_).2 = e.begin_) :
    (direct op).exec e = ((op.exec e.begin_).1, e) := by
  change updateBatch op e = _
  unfold updateBatch
  generalize op.exec e.begin_ = r at h ⊢
  obtain ⟨_ | _, b⟩ := r
  · obtain rfl : b = e.begin_ := h
    rfl
  · obtain rfl : b = e.begin_ := h
    rfl

theorem readOnly_direct {op : Exec α} (h : ∀ b : Batch, (op.exec b).2 = b) :
    ReadOnly (direct op) := fun e => by
  rw [exec_direct_of_read (h e.begin_)]

theorem AllOrNothing.bind (hx : ReadOnly x) (hf : ∀ a, AllOrNothing (f a)) :
    AllOrNothing (x >>= f) := by
  intro e err e' he
  have hread := hx e
  rw [Prog.exec_bind] at he
  split at he
  · rename_i a e₁ hx₁
    rw [hx₁] at hread
    exact (hf a e₁ err e' he).trans hread
  · rename_i err₁ e₁ hx₁
    rw [hx₁] at hread
    cases he
    exact hread

theorem AllOrNothing.map (hx : AllOrNothing x) (g : α → β) :
    AllOrNothing (x >>= fun a => pure (g a)) := by
  intro e err e' he
  rw [Prog.exec_bind] at he
  split at he
  · cases he
  · rename_i err₁ e₁ hx₁
    cases he
    exact hx e _ _ hx₁

end Rules

/-! ### Calls that read -/

section Reads

variable (lib : Stdlib) (table : Bytes)

theorem snd_getTable_bind {α : Type} {f : Table → Exec α} {b : Batch}
    (h : ∀ t, b.tables.get table = some t → ((f t).exec b).2 = b) :
    ((Storage.getTable table >>= f).exec b).2 = b := by
  rw [Prog.exec_bind, Storage.exec_getTable]
  cases hg : b.tables.get table with
  | none => rfl
  | some t => exact h t hg

theorem readOnly_getSchema : ReadOnly (direct (Storage.getSchema table)) :=
  readOnly_direct fun _ => snd_getTable_bind table fun _ _ => rfl

theorem readOnly_getRow (pk : List Value) : ReadOnly (direct (Storage.getRow lib table pk)) :=
  readOnly_direct fun _ => snd_getTable_bind table fun _ _ => rfl

theorem readOnly_scan : ReadOnly (direct (Storage.scan lib table)) :=
  readOnly_direct fun _ => snd_getTable_bind table fun _ _ => rfl

theorem readOnly_scanColumnsOf (need : List ℕ) (r : Option PKRange) :
    ReadOnly (direct (Storage.scanColumnsOf lib table need r)) := by
  apply readOnly_direct
  intro b
  refine snd_getTable_bind table fun t _ => ?_
  split <;> rfl

/-- The constant update gives no count only if it did nothing. -/
theorem updateColumnConst_none {consts : List (ℕ × Value)} {r : Option PKRange} {b b' : Batch}
    (h : (Storage.updateColumnConst table consts r).exec b = (.ok none, b')) : b' = b := by
  unfold Storage.updateColumnConst at h
  split at h
  · cases h
    rfl
  · rw [Prog.exec_bind, Storage.exec_getTable] at h
    cases hg : b.tables.get table with
    | none =>
      rw [hg] at h
      cases h
    | some t =>
      rw [hg] at h
      dsimp only at h
      split at h
      · split at h
        · cases h
          rfl
        · cases h
      · cases h
        rfl

theorem stores_updateColumnConst {consts : List (ℕ × Value)} {r : Option PKRange}
    {e e' : Engine}
    (h : (direct (Storage.updateColumnConst table consts r)).exec e = (.ok none, e')) :
    e'.stores = e.stores := by
  change updateBatch _ e = _ at h
  unfold updateBatch at h
  split at h
  · rename_i he
    cases h
    rw [updateColumnConst_none table he]
    rfl
  · cases h

end Reads

/-! ### Statements with one writing call -/

section OneCall

variable (lib : Stdlib) (schema : TableSchema) (table : Bytes) (sets : List SetItem)
  (where_ : Expr)

theorem allOrNothing_execInsert (columns : List Bytes) (rows : List (List Expr)) :
    AllOrNothing (Calls.execInsert direct lib table columns rows) :=
  .bind (readOnly_getSchema table) fun _ => .bind (readOnly_liftEval _) fun _ =>
    (allOrNothing_direct _).map _

theorem allOrNothing_rewriteRows (plan : Option PKRange × Bool) :
    AllOrNothing (Calls.rewriteRows direct lib schema table sets where_ plan) :=
  .bind (readOnly_scanColumnsOf lib table _ _) fun _ => .bind (readOnly_liftEval _) fun _ =>
    (allOrNothing_direct _).map _

theorem allOrNothing_updatePoint (pk : List Value) :
    AllOrNothing (Calls.updatePoint direct lib schema table sets pk) := by
  refine .bind (readOnly_getRow lib table pk) fun row => ?_
  cases row with
  | none => exact (readOnly_pure _).allOrNothing
  | some row => exact .bind (readOnly_liftEval _) fun _ => (allOrNothing_direct _).map _

/-- The columnar update that assigns no key column. -/
theorem allOrNothing_execUpdateColumnar {plan : Option PKRange × Bool}
    (hkey : (sets.any fun item => item.column ∈ pkIndex schema) = false) :
    AllOrNothing (Calls.execUpdateColumnar direct lib schema table sets where_ plan) := by
  have hrewrite := allOrNothing_rewriteRows lib schema table sets where_ plan
  unfold Calls.execUpdateColumnar
  rw [hkey, if_neg Bool.false_ne_true]
  split
  · intro e err e' he
    rw [Prog.exec_bind] at he
    split at he
    · rename_i n e₁ hconst
      cases n with
      | some n => cases he
      | none => exact (hrewrite e₁ err e' he).trans (stores_updateColumnConst table hconst)
    · rename_i hconst
      cases he
      exact allOrNothing_direct _ e _ _ hconst
  · exact hrewrite

end OneCall

/-! ### Writes of one row -/

/-- A row as an update reads it. -/
def storedRow (kind : EngineKind) (rows : SortedMap Bytes (List Cell)) (key : Bytes) :
    Option (List Cell) :=
  match kind with
  | .cstore => (rows.get key).filter fun cells => cells.all Option.isSome
  | _ => rows.get key

/-- The rows after some columns of the row at a key are set. -/
def setRow (t : Table) (rows : SortedMap Bytes (List Cell)) (key : Bytes) (set : Vals) :
    SortedMap Bytes (List Cell) :=
  match (storedRow t.engine rows key).bind fun cells => t.decodeRow (some cells) with
  | none => rows
  | some old =>
    let merged : Vals := fun name => (set name).or (old name)
    let newKey := t.schemaKey merged
    (if newKey ≠ key then rows.erase key else rows).insert newKey (t.encodeRowCells merged)

theorem touches_setRow (t : Table) (rows : SortedMap Bytes (List Cell)) (key : Bytes)
    (set : Vals) : Touches key rows (setRow t rows key set) := by
  unfold setRow
  split
  · exact .stays fun _ _ => rfl
  · rename_i old _
    dsimp only
    split
    · rename_i hne
      refine .takes ?_
      rw [SortedMap.get_insert, if_neg hne, SortedMap.get_erase, if_pos rfl]
    · rename_i hsame
      refine .stays fun k' hk => ?_
      rw [SortedMap.get_insert, if_neg]
      exact fun he => hk (he ▸ not_not.mp hsame)

theorem touches_erase (key : Bytes) (rows : SortedMap Bytes (List Cell)) :
    Touches key rows (rows.erase key) :=
  .takes (by rw [SortedMap.get_erase, if_pos rfl])

section Writes

variable {e₀ e : Engine} {table : Bytes} {t : Table} {rows rows' : SortedMap Bytes (List Cell)}

theorem storedRow_view (kind : EngineKind) (tx : TableTx) (key : Bytes) :
    tx.get kind key = storedRow kind tx.view key := by
  cases kind <;> rfl

theorem setRow_withIndexes (t : Table) (ixs : SortedMap Bytes Storage.Index)
    (rows : SortedMap Bytes (List Cell)) (key : Bytes) (set : Vals) :
    setRow { t with indexes := ixs } rows key set = setRow t rows key set := rfl

theorem exec_updateRow (t : Table) (key : Bytes) (set : Vals) (l : Storage.Live) :
    ∃ l', (Storage.updateRow t key set).exec l = (.ok ⟨⟩, l') ∧
      l'.tx.view = setRow t l.tx.view key set := by
  unfold Storage.updateRow
  rw [Prog.exec_bind_ok (Prog.exec_get l), setRow, ← storedRow_view]
  cases hold : (l.tx.get t.engine key).bind fun cells => t.decodeRow (some cells) with
  | none => exact ⟨l, rfl, rfl⟩
  | some old =>
    have hput : ∀ tx : TableTx, (tx.put t.engine true
        (t.schemaKey fun name => (set name).or (old name))
        (t.encodeRowCells fun name => (set name).or (old name))).view =
        tx.view.insert (t.schemaKey fun name => (set name).or (old name))
          (t.encodeRowCells fun name => (set name).or (old name)) := fun tx => by
      rw [TableTx.put, Storage.written_encodeRowCells]
    dsimp only
    split
    · exact ⟨_, rfl, hput _⟩
    · exact ⟨_, rfl, hput _⟩

/-- An engine that differs from another one in a table, which holds the rows. -/
structure Holding (e₀ : Engine) (table : Bytes) (t : Table) (rows : SortedMap Bytes (List Cell))
    (e : Engine) : Prop where
  listed : ∃ ixs, e.tables.get table = some { t with indexes := ixs }
  rows : (e.stores t.engine table).rows = rows
  others : ∀ kind name, ¬ (kind = t.engine ∧ name = table) → e.stores kind name = e₀.stores kind name

theorem holding_self (h : e.tables.get table = some t) :
    Holding e table t (e.stores t.engine table).rows e :=
  ⟨⟨t.indexes, h⟩, rfl, fun _ _ _ => rfl⟩

theorem Holding.content_eq_iff (h : Holding e₀ table t rows e) :
    content e table = content e₀ table ↔ rows = (e₀.stores t.engine table).rows := by
  rw [← h.rows]
  constructor
  · exact fun he => congrFun he t.engine
  · intro he
    funext kind
    by_cases hk : kind = t.engine
    · rw [hk]
      exact he
    · rw [content, content, h.others kind table fun hc => hk hc.1]

/-- A call that writes the rows of the table. -/
theorem Holding.direct (h : Holding e₀ table t rows e)
    {fn : Table → Storage.RowM Unit}
    (hfn : ∀ ixs tx, tx.view = rows → ∃ l', (fn { t with indexes := ixs }).exec ⟨ixs, tx⟩ =
      (.ok ⟨⟩, l') ∧ l'.tx.view = rows') :
    ∃ e', (direct (Storage.getTable table >>= fun t => Storage.writeTo table t (fn t))).exec e =
      (.ok ⟨⟩, e') ∧ Holding e₀ table t rows' e' := by
  obtain ⟨ixs, htable⟩ := h.listed
  obtain ⟨l', hexec, hview⟩ := hfn ixs (e.begin_.tx table { t with indexes := ixs }) h.rows
  have hrun : (Storage.getTable table >>= fun t => Storage.writeTo table t (fn t)).exec e.begin_ =
      (.ok ⟨⟩, e.begin_.withLive table { t with indexes := ixs } l') := by
    rw [Prog.exec_bind, Storage.exec_getTable, show e.begin_.tables.get table = _ from htable]
    change (Storage.writeTo table _ _) _ = _
    simp only [Storage.writeTo, hexec]
  refine ⟨_, Storage.updateBatch_of_ok hrun, ⟨l'.indexes, ?_⟩, ?_, fun kind name hno => ?_⟩
  · change (SortedMap.insert _ _ _).get table = _
    rw [SortedMap.get_insert, if_pos rfl]
  · change TableTx.view (if t.engine = t.engine ∧ table = table then _ else _) = _
    rw [if_pos ⟨rfl, rfl⟩, hview]
  · change TableTx.commit (if kind = t.engine ∧ name = table then _ else _) = _
    rw [if_neg hno]
    exact h.others kind name hno

theorem Holding.update (h : Holding e₀ table t rows e) (pk : List Value)
    (set : List (Bytes × Value)) :
    ∃ e', (Sql.direct (Storage.update table pk set)).exec e = (.ok ⟨⟩, e') ∧
      Holding e₀ table t (setRow t rows (Storage.encodePK pk)
        (.ofList (set.map fun w => (w.1, Storage.fromSQLValue w.2)))) e' :=
  h.direct fun ixs tx hview => by
    obtain ⟨l', hexec, hv⟩ := exec_updateRow { t with indexes := ixs } (Storage.encodePK pk)
      (.ofList (set.map fun w => (w.1, Storage.fromSQLValue w.2))) ⟨ixs, tx⟩
    exact ⟨l', hexec, by rw [hv, ← hview]; rfl⟩

/-- No row lacks a cell. -/
def Complete (rows : SortedMap Bytes (List Cell)) : Prop :=
  ∀ key cells, rows.get key = some cells → ∀ c ∈ cells, c.isSome

theorem Complete.erase (h : Complete rows) (key : Bytes) : Complete (rows.erase key) := by
  intro k cells hget
  rw [SortedMap.get_erase] at hget
  split at hget
  · cases hget
  · exact h k cells hget

theorem Holding.delete (h : Holding e₀ table t rows e) (hc : Complete rows) (pk : List Value) :
    ∃ e', (Sql.direct (Storage.delete table pk)).exec e = (.ok ⟨⟩, e') ∧
      Holding e₀ table t (rows.erase (Storage.encodePK pk)) e' :=
  h.direct fun ixs tx hview => by
    have hread : Storage.Readable tx (Storage.encodePK pk) := fun cells hv => by
      rw [hview] at hv
      exact hc _ cells hv
    obtain ⟨_, ixs', hexec, -⟩ := Storage.leaves_deleteRow (t := { t with indexes := ixs }) hread ixs
    exact ⟨_, hexec, by rw [← hview]; rfl⟩

end Writes

/-! ### Loops that write each row -/

/-- A loop that finds out what to do with each row and does it. -/
def eachRow {β : Type} (hit : List Value → Eval (Option β))
    (write : List Value → β → Prog Engine ExecError Unit) :
    List (List Value) → Prog Engine ExecError ℕ
  | [] => return 0
  | row :: rows => do
    match ← Calls.liftEval (hit row) with
    | some w => do
      write row w
      let n ← eachRow hit write rows
      return n + 1
    | none => eachRow hit write rows

/-- What the loop does with the rows. -/
def hitsOf {β : Type} (hit : List Value → Eval (Option β)) (rows : List (List Value)) :
    List (List Value × β) :=
  rows.filterMap fun row => match (hit row).run with
    | some (.ok (some w)) => some (row, w)
    | _ => none

theorem mem_hitsOf {β : Type} {hit : List Value → Eval (Option β)} {rows : List (List Value)}
    {row : List Value} {w : β} :
    (row, w) ∈ hitsOf hit rows ↔ row ∈ rows ∧ Gives (hit row) (some w) := by
  simp only [hitsOf, List.mem_filterMap]
  constructor
  · rintro ⟨q, hq, he⟩
    split at he
    · rename_i w' hrun
      cases he
      exact ⟨hq, hrun⟩
    · cases he
  · rintro ⟨hq, hw⟩
    refine ⟨row, hq, ?_⟩
    rw [show (hit row).run = some (.ok (some w)) from hw]

/-- The rows that are hit are some of the rows, in their order. -/
theorem sublist_hitsOf {β : Type} (hit : List Value → Eval (Option β))
    (rows : List (List Value)) : ((hitsOf hit rows).map Prod.fst).Sublist rows := by
  induction rows with
  | nil => exact .slnil
  | cons row rows ih =>
    rw [hitsOf, List.filterMap_cons]
    split
    · exact ih.cons row
    · rename_i p hp
      split at hp
      · cases hp
        exact ih.cons_cons row
      · cases hp

/-- The outcome of an evaluation as one of the statement. -/
def evalError {α : Type} (x : Eval α) : Option ExecError :=
  match x.run with
  | none => some .panic
  | some (.error p) => some (.msg p.2)
  | some (.ok _) => none

theorem evalError_eq_none {α : Type} {x : Eval α} : evalError x = none ↔ ∃ a, Gives x a := by
  unfold evalError Gives
  rcases x.run with - | (p | a)
  · simp
  · simp
  · simp

theorem exec_liftEval {α : Type} (x : Eval α) (e : Engine) :
    (∃ a, Gives x a ∧ (Calls.liftEval x : Prog Engine ExecError α).exec e = (.ok a, e)) ∨
      ∃ err, evalError x = some err ∧ (Calls.liftEval x : Prog Engine ExecError α).exec e =
        (.error err, e) := by
  unfold Calls.liftEval evalError Gives
  rcases x.run with - | (p | a)
  · exact Or.inr ⟨_, rfl, rfl⟩
  · exact Or.inr ⟨_, rfl, rfl⟩
  · exact Or.inl ⟨a, rfl, rfl⟩

theorem exec_liftEval_ok {α : Type} {x : Eval α} {a : α} (h : Gives x a) (e : Engine) :
    (Calls.liftEval x : Prog Engine ExecError α).exec e = (.ok a, e) := by
  unfold Calls.liftEval
  rw [show x.run = some (.ok a) from h]
  rfl

theorem exec_liftEval_error {α : Type} {x : Eval α} {err : ExecError}
    (h : evalError x = some err) (e : Engine) :
    (Calls.liftEval x : Prog Engine ExecError α).exec e = (.error err, e) := by
  rcases exec_liftEval x e with ⟨a, ha, -⟩ | ⟨err', herr, he⟩
  · rw [evalError_eq_none.mpr ⟨a, ha⟩] at h
    cases h
  · rw [h] at herr
    cases herr
    exact he

theorem liftEval_bind {σ α β : Type} (x : Eval α) (f : α → Eval β) :
    (Calls.liftEval (x >>= f) : Prog σ ExecError β) =
      Calls.liftEval x >>= fun a => Calls.liftEval (f a) := by
  have hrun : (x >>= f).run = match x.run with
      | none => none
      | some (.error e) => some (.error e)
      | some (.ok a) => (f a).run := by
    change (x.run >>= ExceptT.bindCont f) = _
    rcases x.run with - | (p | a) <;> rfl
  unfold Calls.liftEval
  rw [hrun]
  rcases x.run with - | (p | a) <;> rfl

/-- Every row evaluates, or there is a first one that does not. -/
theorem firstError {β : Type} (hit : List Value → Eval β) (rows : List (List Value)) :
    (∀ q ∈ rows, ∃ a, Gives (hit q) a) ∨ ∃ pre r post err, rows = pre ++ r :: post ∧
      (∀ q ∈ pre, ∃ a, Gives (hit q) a) ∧ evalError (hit r) = some err := by
  induction rows with
  | nil => exact Or.inl nofun
  | cons r rows ih =>
    cases hr : evalError (hit r) with
    | some err => exact Or.inr ⟨[], r, rows, err, rfl, nofun, hr⟩
    | none =>
      have hok := evalError_eq_none.mp hr
      rcases ih with hall | ⟨pre, r', post, err, rfl, hpre, herr⟩
      · exact Or.inl (List.forall_mem_cons.mpr ⟨hok, hall⟩)
      · exact Or.inr ⟨r :: pre, r', post, err, rfl, List.forall_mem_cons.mpr ⟨hok, hpre⟩, herr⟩

section Loop

variable {β : Type} {hit : List Value → Eval (Option β)}
  {write : List Value → β → Prog Engine ExecError Unit} {e₀ : Engine} {table : Bytes} {t : Table}
  {Inv : SortedMap Bytes (List Cell) → Prop}
  {step : SortedMap Bytes (List Cell) → List Value × β → SortedMap Bytes (List Cell)}

theorem hitsOf_cons_some {row : List Value} {w : β} (h : Gives (hit row) (some w))
    (rows : List (List Value)) : hitsOf hit (row :: rows) = (row, w) :: hitsOf hit rows := by
  rw [hitsOf, List.filterMap_cons, show (hit row).run = some (.ok (some w)) from h]
  rfl

theorem hitsOf_cons_none {row : List Value} (h : Gives (hit row) none)
    (rows : List (List Value)) : hitsOf hit (row :: rows) = hitsOf hit rows := by
  rw [hitsOf, List.filterMap_cons, show (hit row).run = some (.ok none) from h]
  rfl

/-- The loop writes the rows that it hits before the ones that follow. -/
theorem exec_eachRow
    (hwrite : ∀ {rows e}, Inv rows → Holding e₀ table t rows e → ∀ row w, ∃ e',
      (write row w).exec e = (.ok ⟨⟩, e') ∧ Holding e₀ table t (step rows (row, w)) e' ∧
        Inv (step rows (row, w)))
    {pre : List (List Value)} (hpre : ∀ q ∈ pre, ∃ a, Gives (hit q) a)
    (rs : List (List Value)) {rows : SortedMap Bytes (List Cell)} {e : Engine} (hi : Inv rows)
    (h : Holding e₀ table t rows e) :
    ∃ e', Holding e₀ table t ((hitsOf hit pre).foldl step rows) e' ∧ ∃ k,
      (eachRow hit write (pre ++ rs)).exec e =
        ((eachRow hit write rs).exec e').map (Except.map (· + k)) id := by
  induction pre generalizing rows e with
  | nil =>
    refine ⟨e, h, 0, ?_⟩
    rw [List.nil_append]
    rcases (eachRow hit write rs).exec e with ⟨_ | n, e'⟩ <;> rfl
  | cons q pre ih =>
    obtain ⟨⟨a, ha⟩, hpre⟩ := List.forall_mem_cons.mp hpre
    rw [List.cons_append, eachRow, Prog.exec_bind_ok (exec_liftEval_ok ha e)]
    cases a with
    | none =>
      obtain ⟨e', hh, k, he⟩ := ih hpre hi h
      exact ⟨e', by rwa [hitsOf_cons_none ha], k, he⟩
    | some w =>
      obtain ⟨e₁, hexec, hh₁, hi₁⟩ := hwrite hi h q w
      obtain ⟨e', hh, k, he⟩ := ih hpre hi₁ hh₁
      refine ⟨e', by rwa [hitsOf_cons_some ha], k + 1, ?_⟩
      simp only [Prog.exec_bind_ok hexec]
      rw [Prog.exec_bind, he]
      rcases (eachRow hit write rs).exec e' with ⟨_ | n, e''⟩
      · rfl
      · rfl

end Loop

end Ydbgo.Sql
