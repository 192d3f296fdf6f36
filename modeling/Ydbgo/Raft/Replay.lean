import Ydbgo.Raft.Definitions

/-! # Applying log entries again

A restarted replica applies committed entries to an engine that has seen them.
This changes nothing if no statement reads a column that one of them assigns, if
definitions stand in entries of their own, and if the statements find their
tables and succeed.
-/

namespace Ydbgo.Raft

open Sql (Stdlib Clock Value Statement WriteStmt Gives)

open Storage (Batch Engine Table TableTx Cell GoodRows cellValues)

/-! ### Entries -/

section Entries

variable (lib : Stdlib)

/-- The statements are ready one after the other. -/
def RowsReady : Batch → Entry → Prop
  | _, [] => True
  | b, st :: stmts => RowReady lib b st.1 ∧ RowsReady ((Sql.execute lib st).exec b).2 stmts

/-- The entry is one definition, or statements on rows that are ready. -/
def Applies (e : Engine) (stmts : Entry) : Prop :=
  RowsReady lib e.begin_ stmts ∨ ∃ st, stmts = [st] ∧ DefinitionReady e.begin_ st.1

/-- The entry is one statement whose table is not there. -/
def Skips (e : Engine) (stmts : Entry) : Prop :=
  ∃ (st : WriteStmt) (name : Bytes) (f : Table → Content → Content), stmts = [st] ∧
    command lib st.1 = some (name, .change f) ∧ e.tables.get name = none

/-- A property of every entry in a run of the log, at the engine that it is applied to. -/
def Along (clock : ℕ → ℕ → Clock) (P : Engine → Entry → Prop) : ℕ → List Entry → Engine → Prop
  | _, [], _ => True
  | i, stmts :: log, e => P e stmts ∧ Along clock P (i + 1) log (fsmApply lib (clock i) stmts e).2

variable {lib} {b : Batch} {e : Engine} {stmts : Entry}

theorem unwritten_begin (e : Engine) : Unwritten e.begin_ := fun _ _ => rfl

theorem healthy_empty : Healthy Engine.empty.begin_ :=
  ⟨fun _ => rfl, nofun, nofun, nofun, nofun, fun _ _ _ => ⟨rfl, rfl⟩⟩

theorem healthy_commit (h : Healthy b) : Healthy b.commit.begin_ :=
  ⟨h.defs, h.table, h.rows, h.indexed, h.data, h.absent⟩

theorem Stepped.commit {b' : Batch} (h : Stepped lib b stmts b') :
    Stepped lib b stmts b'.commit.begin_ := ⟨healthy_commit h.healthy, h.state⟩

theorem found_of_ready {st : WriteStmt} (h : RowReady lib b st.1) {name : Bytes}
    {f : Table → Content → Content} (hc : command lib st.1 = some (name, .change f)) :
    (stateOf lib b name).isSome := by
  have hsome : ∀ {t}, b.tables.get name = some t → (stateOf lib b name).isSome := fun ht => by
    rw [stateOf_some ht]
    rfl
  obtain ⟨st, hwrite⟩ := st
  cases st with
  | insert | update | delete | kvPut | kvDelete =>
    cases hc
    obtain ⟨t, ht, -⟩ := h
    exact hsome ht
  | createIndex | dropIndex => exact h.elim
  | _ => cases hc

theorem finds_single {st : WriteStmt} {n : Bytes} (h : ∀ f,
    command lib st.1 = some (n, .change f) → (stateOf lib b n).isSome) :
    Command.Finds (commandsOn lib n [st]) (stateOf lib b n) := by
  cases hc : command lib st.1 with
  | none =>
    rw [commandsOn_none hc]
    trivial
  | some p =>
    obtain ⟨name, c⟩ := p
    rw [commandsOn_single hc]
    split
    · rename_i hn
      subst hn
      exact ⟨fun f hf => h f (hf ▸ hc), trivial⟩
    · trivial

/-- Statements on rows that are ready succeed. -/
theorem exec_runStmts (hfree : ∀ st ∈ stmts, st.1.ClockFree lib) (h : Healthy b)
    (hready : RowsReady lib b stmts) (clock : ℕ → Clock) (i : ℕ) :
    ∃ rs b', (runStmts lib clock i stmts).exec b = (.ok rs, b') ∧ Stepped lib b stmts b' ∧
      ∀ n, Command.Finds (commandsOn lib n stmts) (stateOf lib b n) := by
  induction stmts generalizing b i with
  | nil => exact ⟨[], b, rfl, .nil h, fun _ => trivial⟩
  | cons st stmts ih =>
    obtain ⟨hst, hfree⟩ := List.forall_mem_cons.mp hfree
    obtain ⟨hready, hrest⟩ := hready
    obtain ⟨r, b', hexec, hstep⟩ := stepped_execute h hready
    rw [hexec] at hrest
    obtain ⟨rs, b'', hexec', hstep', hfinds⟩ := ih hfree hstep.healthy hrest (i + 1)
    refine ⟨r :: rs, b'', ?_, hstep.trans hstep', fun n => ?_⟩
    · rw [runStmts, Sql.execute_at hst, Prog.exec_bind_ok hexec, Prog.exec_bind_ok hexec']
      rfl
    · have happ : commandsOn lib n (st :: stmts) =
          commandsOn lib n [st] ++ commandsOn lib n stmts := List.filterMap_append (l := [st])
      rw [happ, Command.finds_append, ← hstep.state]
      exact ⟨finds_single fun _ hc => found_of_ready hready hc, hfinds n⟩

/-- A statement in an entry of its own that does what its command says or fails. -/
theorem stepped_single {st : WriteStmt} (hfree : st.1.ClockFree lib) (h : Healthy e.begin_)
    (hdoes : DoesOrFails lib e.begin_ st) (clock : ℕ → Clock) :
    Stepped lib e.begin_ [st] (fsmApply lib clock [st] e).2.begin_ := by
  rcases hdoes with ⟨r, b', hexec, hstep⟩ | ⟨err, hexec, hstep⟩
  · have hrun : (runStmts lib clock 0 [st]).exec e.begin_ = (.ok [r], b') := by
      rw [runStmts, Sql.execute_at hfree, Prog.exec_bind_ok hexec]
      rfl
    have happ : (fsmApply lib clock [st] e).2 = b'.commit := by
      unfold fsmApply
      rw [Storage.updateBatch_of_ok hrun]
      rfl
    rw [happ]
    exact hstep.commit
  · have hrun : (runStmts lib clock 0 [st]).exec e.begin_ = (.error err, e.begin_) := by
      rw [runStmts, Sql.execute_at hfree]
      exact Prog.exec_bind_error hexec
    have happ : (fsmApply lib clock [st] e).2 = e := by
      unfold fsmApply
      rw [Storage.updateBatch_of_error hrun]
      rfl
    rw [happ]
    exact hstep

theorem stepped_fsmApply (hfree : ∀ st ∈ stmts, st.1.ClockFree lib) (h : Healthy e.begin_)
    (happ : Applies lib e stmts ∨ Skips lib e stmts) (clock : ℕ → Clock) :
    Stepped lib e.begin_ stmts (fsmApply lib clock stmts e).2.begin_ := by
  rcases happ with (hrows | ⟨st, rfl, hdef⟩) | ⟨st, name, f, rfl, hc, ht⟩
  · obtain ⟨rs, b', hexec, hstep, -⟩ := exec_runStmts hfree h hrows clock 0
    cases stmts with
    | nil => exact .nil h
    | cons st stmts =>
      have happ : (fsmApply lib clock (st :: stmts) e).2 = b'.commit := by
        unfold fsmApply
        rw [Storage.updateBatch_of_ok hexec]
        rfl
      rw [happ]
      exact hstep.commit
  · exact stepped_single (hfree st List.mem_cons_self) h
      (doesOrFails_definition h (unwritten_begin e) hdef) clock
  · exact stepped_single (hfree st List.mem_cons_self) h (doesOrFails_absent h hc ht) clock

/-- The changes of an entry that is applied find their tables. -/
theorem Applies.finds (hfree : ∀ st ∈ stmts, st.1.ClockFree lib) (h : Healthy e.begin_)
    (happ : Applies lib e stmts) (n : Bytes) :
    Command.Finds (commandsOn lib n stmts) (stateOf lib e.begin_ n) := by
  rcases happ with hrows | ⟨st, rfl, hdef⟩
  · obtain ⟨_, _, -, -, hfinds⟩ := exec_runStmts hfree h hrows (fun _ => ⟨Sql.Time.zero, 0⟩) 0
    exact hfinds n
  · refine finds_single fun f hc => ?_
    obtain ⟨st, hwrite⟩ := st
    cases st with
    | createIndex | dropIndex =>
      cases hc
      rw [stateOf, Option.isSome_map]
      exact hdef
    | createTable | dropTable => cases hc
    | _ => exact hdef.elim

end Entries

/-! ### Logs -/

section Logs

variable {lib : Stdlib} {clock : ℕ → ℕ → Clock} {e : Engine}

theorem applyLog_append (i : ℕ) (log log' : List Entry) (e : Engine) :
    (applyLog lib clock i (log ++ log') e).2 =
      (applyLog lib clock (i + log.length) log' (applyLog lib clock i log e).2).2 := by
  induction log generalizing i e with
  | nil => rfl
  | cons stmts log ih =>
    rw [List.length_cons, Nat.add_comm log.length, ← Nat.add_assoc]
    exact ih (i + 1) _

theorem along_append {P : Engine → Entry → Prop} {i : ℕ} {log log' : List Entry} :
    Along lib clock P i (log ++ log') e ↔ Along lib clock P i log e ∧
      Along lib clock P (i + log.length) log' (applyLog lib clock i log e).2 := by
  induction log generalizing i e with
  | nil => exact (iff_of_eq (true_and _)).symm
  | cons stmts log ih =>
    rw [List.length_cons, Nat.add_comm log.length, ← Nat.add_assoc]
    simp only [List.cons_append, Along, ih, and_assoc]
    rfl

theorem stepped_applyLog {i : ℕ} {log : List Entry}
    (hfree : ∀ stmts ∈ log, ∀ st ∈ stmts, st.1.ClockFree lib) (h : Healthy e.begin_)
    (happ : Along lib clock (fun e stmts => Applies lib e stmts ∨ Skips lib e stmts) i log e) :
    Stepped lib e.begin_ log.flatten (applyLog lib clock i log e).2.begin_ := by
  induction log generalizing i e with
  | nil => exact .nil h
  | cons stmts log ih =>
    obtain ⟨hst, hfree⟩ := List.forall_mem_cons.mp hfree
    have hstep := stepped_fsmApply hst h happ.1 (clock i)
    exact hstep.trans (ih hfree hstep.healthy happ.2)

theorem Along.imp {P Q : Engine → Entry → Prop} (hpq : ∀ e stmts, P e stmts → Q e stmts) {i : ℕ}
    {log : List Entry} (h : Along lib clock P i log e) : Along lib clock Q i log e := by
  induction log generalizing i e with
  | nil => trivial
  | cons stmts log ih => exact ⟨hpq _ _ h.1, ih h.2⟩

theorem finds_applyLog {i : ℕ} {log : List Entry}
    (hfree : ∀ stmts ∈ log, ∀ st ∈ stmts, st.1.ClockFree lib) (h : Healthy e.begin_)
    (happ : Along lib clock (Applies lib) i log e) (n : Bytes) :
    Command.Finds (commandsOn lib n log.flatten) (stateOf lib e.begin_ n) := by
  induction log generalizing i e with
  | nil => trivial
  | cons stmts log ih =>
    obtain ⟨hst, hfree⟩ := List.forall_mem_cons.mp hfree
    have hstep := stepped_fsmApply hst h (Or.inl happ.1) (clock i)
    have hsplit : commandsOn lib n (stmts :: log).flatten =
        commandsOn lib n stmts ++ commandsOn lib n log.flatten := by
      rw [List.flatten_cons]
      exact List.filterMap_append
    rw [hsplit, Command.finds_append, ← hstep.state]
    exact ⟨Applies.finds hst h happ.1 n, ih hfree hstep.healthy happ.2⟩

end Logs

/-! ### The state of the engine -/

/-- The engines have the same tables, rows, key-value entries and indexes, where the order in which
an index lists the keys with a value does not count. -/
structure SameState (lib : Stdlib) (e e' : Engine) : Prop where
  defs : e.defs = e'.defs
  tables : ∀ name, (e.tables.get name).map Table.def_ = (e'.tables.get name).map Table.def_
  rows : ∀ kind name, (TableTx.begin_ (e.stores kind name)).rows lib =
    (TableTx.begin_ (e'.stores kind name)).rows lib
  data : ∀ kind name, (e.stores kind name).data = (e'.stores kind name).data
  indexes : ∀ name t t', e.tables.get name = some t → e'.tables.get name = some t' →
    ∀ n ix ix', t.indexes.get n = some ix → t'.indexes.get n = some ix' →
      ∀ enc, (ix.entries enc).Perm (ix'.entries enc)

section Same

variable {lib : Stdlib}

/-- The cells of complete rows are determined by their values. -/
theorem cells_eq_of_values {t : Table} {key : Bytes} {cells cells' : List Cell}
    (h : Storage.GoodRow t key cells) (h' : Storage.GoodRow t key cells')
    (heq : cellValues lib cells = cellValues lib cells') : cells = cells' := by
  apply List.ext_getElem?
  intro i
  by_cases hi : i < t.cols.length
  · obtain ⟨v, hv, hn⟩ := h.getElem? hi
    obtain ⟨v', hv', hn'⟩ := h'.getElem? hi
    have hval := congrArg (fun row => row[i]?) heq
    simp only [cellValues, List.getElem?_map, hv, hv', Option.map_some, Option.some.injEq] at hval
    have hsame : v = v' := by
      rw [← hn lib, ← hn' lib]
      exact congrArg Storage.fromSQLValue hval
    rw [hv, hv', hsame]
  · rw [List.getElem?_eq_none (h.length ▸ not_lt.mp hi),
      List.getElem?_eq_none (h'.length ▸ not_lt.mp hi)]

theorem sameState {e e' : Engine} (h : Healthy e.begin_) (h' : Healthy e'.begin_)
    (heq : ∀ n, stateOf lib e.begin_ n = stateOf lib e'.begin_ n) : SameState lib e e' := by
  -- the tables of a name are both absent, or alike but for the entries of their indexes
  have hcases : ∀ name, e.tables.get name = none ∧ e'.tables.get name = none ∨
      ∃ t t', e.tables.get name = some t ∧ e'.tables.get name = some t' ∧ bare t = bare t' ∧
        contentOf lib t.indexes (e.begin_.tx name t) =
          contentOf lib t'.indexes (e'.begin_.tx name t') := by
    intro name
    have hn := heq name
    unfold stateOf at hn
    cases ht : e.begin_.tables.get name with
    | none =>
      rw [ht] at hn
      exact Or.inl ⟨ht, Option.map_eq_none_iff.mp hn.symm⟩
    | some t =>
      rw [ht] at hn
      obtain ⟨t', ht', hp⟩ := Option.map_eq_some_iff.mp hn.symm
      exact Or.inr ⟨t, t', ht, ht', (congrArg Prod.fst hp).symm, (congrArg Prod.snd hp).symm⟩
  have hdef : ∀ name, (e.tables.get name).map Table.def_ =
      (e'.tables.get name).map Table.def_ := by
    intro name
    rcases hcases name with ⟨ht, ht'⟩ | ⟨t, t', ht, ht', hbare, hcontent⟩
    · rw [ht, ht']
    · have hixs : t.indexes.map Storage.Index.cols = t'.indexes.map Storage.Index.cols := by
        apply SortedMap.ext_get
        intro n
        rw [SortedMap.get_map, SortedMap.get_map]
        exact congrFun (congrArg (fun c => c.2.2) hcontent) n
      rw [ht, ht', Option.map_some, Option.map_some, Table.def_, Table.def_, hixs]
      have hc := congrArg Table.cols hbare
      have hp := congrArg Table.pk hbare
      have he := congrArg Table.engine hbare
      have hr := congrArg Table.retention hbare
      dsimp only [bare] at hc hp he hr
      rw [hc, hp, he, hr]
  have hstore : ∀ kind name,
      (∀ key, ((e.begin_.txs kind name).rows lib).get key =
        ((e'.begin_.txs kind name).rows lib).get key) ∧
      ∀ key, (e.begin_.txs kind name).data.get key = (e'.begin_.txs kind name).data.get key := by
    intro kind name
    have hnone : (∀ t, e.begin_.tables.get name = some t → t.engine ≠ kind) →
        (∀ t, e'.begin_.tables.get name = some t → t.engine ≠ kind) →
        (∀ key, ((e.begin_.txs kind name).rows lib).get key =
          ((e'.begin_.txs kind name).rows lib).get key) ∧
        ∀ key, (e.begin_.txs kind name).data.get key =
          (e'.begin_.txs kind name).data.get key := by
      intro ha ha'
      obtain ⟨hv, hd⟩ := h.absent name kind ha
      obtain ⟨hv', hd'⟩ := h'.absent name kind ha'
      refine ⟨fun key => ?_, fun key => by rw [hd, hd']⟩
      rw [Storage.rows_get, Storage.rows_get, hv, hv']
    rcases hcases name with ⟨ht, ht'⟩ | ⟨t, t', ht, ht', hbare, hcontent⟩
    · refine hnone (fun t hn => ?_) fun t hn => ?_
      · change e.tables.get name = some t at hn
        rw [ht] at hn
        cases hn
      · change e'.tables.get name = some t at hn
        rw [ht'] at hn
        cases hn
    · have hkind : (bare t).engine = (bare t').engine := congrArg Table.engine hbare
      change t.engine = t'.engine at hkind
      by_cases hk : t.engine = kind
      · subst hk
        have hrows := fun key => congrFun (congrArg Prod.fst hcontent) key
        have hdata := fun key => congrFun (congrArg (fun c => c.2.1) hcontent) key
        unfold contentOf Batch.tx at hrows hdata
        rw [← hkind] at hrows hdata
        exact ⟨hrows, hdata⟩
      · refine hnone (fun t'' hn => ?_) fun t'' hn => ?_
        · exact Option.some.inj (ht.symm.trans hn) ▸ hk
        · exact Option.some.inj (ht'.symm.trans hn) ▸ hkind ▸ hk
  refine ⟨funext fun name => ?_, hdef, fun kind name => SortedMap.ext_get (hstore kind name).1,
    fun kind name => SortedMap.ext_get (hstore kind name).2, ?_⟩
  · exact (h.defs name).trans ((hdef name).trans (h'.defs name).symm)
  · intro name t t' ht ht' n ix ix' hix hix' enc
    have hsame := hcases name
    rw [ht, ht'] at hsame
    rcases hsame with ⟨hnone, -⟩ | ⟨t₁, t₁', h₁, h₁', hbare, hcontent⟩
    · cases hnone
    obtain rfl := Option.some.inj h₁
    obtain rfl := Option.some.inj h₁'
    have hview : (e.begin_.tx name t).view.get = (e'.begin_.tx name t').view.get := by
      ext key : 1
      have hg := h.rows ht
      have hg' := h'.rows ht'
      have hrow := congrFun (congrArg Prod.fst hcontent) key
      unfold contentOf at hrow
      dsimp only at hrow
      rw [Storage.rows_get_of_good hg, Storage.rows_get_of_good hg'] at hrow
      cases hv : (e.begin_.tx name t).view.get key with
      | none =>
        rw [hv] at hrow
        exact (Option.map_eq_none_iff.mp hrow.symm).symm
      | some cells =>
        rw [hv] at hrow
        obtain ⟨cells', hv', hvals⟩ := Option.map_eq_some_iff.mp hrow.symm
        have hgood' := hg' key cells' hv'
        have hcells := cells_eq_of_values (hg key cells hv)
          (t := t) ⟨hgood'.length.trans (congrArg (fun t => t.cols.length) hbare).symm,
            hgood'.normal, hgood'.key.trans (by
              have hpk : (bare t).pk = (bare t').pk := congrArg Table.pk hbare
              change t.pk = t'.pk at hpk
              rw [hpk])⟩ hvals.symm
        rw [hv', hcells]
    have hlists := h.indexed ht n ix hix
    have hlists' : Storage.InStep t t'.indexes (e.begin_.tx name t).view.get := by
      have hin := (Storage.inStep_withIndexes .empty).mpr (h'.indexed ht')
      change Storage.InStep (bare t') _ _ at hin
      rw [← hbare, ← hview] at hin
      exact (Storage.inStep_withIndexes .empty).mp hin
    have hcols : ix'.cols = ix.cols := by
      have hn := congrFun (congrArg (fun c => c.2.2) hcontent) n
      unfold contentOf at hn
      dsimp only at hn
      rw [hix, hix'] at hn
      exact (Option.some.inj hn).symm
    exact hlists.perm (hlists' n ix' hix') hcols enc

end Same

/-! ### Replay -/

/-- `INSERT INTO t VALUES (1)` -/
def insertOne : WriteStmt := insertKey (.literal (.int 1))

/-- `UPDATE t SET k = k + 1` -/
def updateNext : WriteStmt :=
  ⟨.update [116] [⟨[107], .binary .add (.ident [107]) (.literal (.int 1))⟩] .nil, rfl⟩

end Ydbgo.Raft
