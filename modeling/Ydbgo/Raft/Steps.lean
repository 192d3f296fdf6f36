import Ydbgo.Raft.Commands

/-! # Statements run as commands

A statement that meets its conditions in a healthy engine succeeds, changes the
state of its table as its command says and leaves the engine healthy.
-/

namespace Ydbgo.Raft

open Sql (Stdlib Value Expr SetItem Statement WriteStmt ColumnDef Gives WhereEvaluates SetsEvaluate
  KeepsKey PathComplete)

open Storage (Batch Table TableTx TableDef ColInfo EngineKind Index GoodTable GoodRows Indexed
  Follows Does)

/-! ### Healthy engines -/

/-- The persisted definitions are those of the catalog, every table has complete rows and indexes
in step with them, and there is nothing in the store of a table that is not there. -/
structure Healthy (b : Batch) : Prop where
  defs : ∀ name, b.defs name = (b.tables.get name).map Table.def_
  table : ∀ {name t}, b.tables.get name = some t → GoodTable t
  rows : ∀ {name t}, b.tables.get name = some t → GoodRows t (b.tx name t)
  indexed : ∀ {name t}, b.tables.get name = some t → Indexed t (b.tx name t) t.indexes
  data : ∀ {name t}, b.tables.get name = some t → t.engine ≠ .kv → (b.tx name t).data = .empty
  absent : ∀ name kind, (∀ t, b.tables.get name = some t → t.engine ≠ kind) →
    (b.txs kind name).view = .empty ∧ (b.txs kind name).data = .empty

/-- The table without its indexes. -/
def bare (t : Table) : Table := { t with indexes := .empty }

section Batches

variable {lib : Stdlib} {b : Batch} {name : Bytes} {t : Table} {tx : TableTx}
  {ixs : SortedMap Bytes Index}

def contentOf (lib : Stdlib) (ixs : SortedMap Bytes Index) (tx : TableTx) : Content :=
  (fun key => (tx.rows lib).get key, fun key => tx.data.get key,
    fun n => (ixs.get n).map Index.cols)

/-- What a batch holds of a table. -/
def stateOf (lib : Stdlib) (b : Batch) (name : Bytes) : Option (Table × Content) :=
  (b.tables.get name).map fun t => (bare t, contentOf lib t.indexes (b.tx name t))

theorem stateOf_some (ht : b.tables.get name = some t) :
    stateOf lib b name = some (bare t, contentOf lib t.indexes (b.tx name t)) := by
  rw [stateOf, ht]
  rfl

theorem stateOf_none (ht : b.tables.get name = none) : stateOf lib b name = none := by
  rw [stateOf, ht]
  rfl

theorem tables_withLive (n : Bytes) : (b.withLive name t ⟨ixs, tx⟩).tables.get n =
    if name = n then some { t with indexes := ixs } else b.tables.get n := by
  by_cases h : name = n <;> simp [Batch.withLive, SortedMap.get_insert, h]

theorem tx_withLive_of_ne {n : Bytes} (h : name ≠ n) (t' : Table) :
    (b.withLive name t ⟨ixs, tx⟩).tx n t' = b.tx n t' := by
  unfold Batch.tx Batch.withLive
  exact if_neg fun he => h he.2.symm

/-- An operation on a table that keeps its rows complete and its indexes in step. -/
theorem Healthy.withLive (h : Healthy b) (ht : b.tables.get name = some t) (hgood : GoodRows t tx)
    (hfol : Follows t t.indexes (b.tx name t) ixs tx)
    (hdata : t.engine = .kv ∨ tx.data = (b.tx name t).data) :
    Healthy (b.withLive name t ⟨ixs, tx⟩) := by
  constructor
  · intro n
    rw [tables_withLive]
    have hdefs : (b.withLive name t ⟨ixs, tx⟩).defs n = b.defs n := rfl
    rw [hdefs, h.defs n]
    split
    · rename_i hn
      subst hn
      rw [ht, Option.map_some, Option.map_some, Table.def_, Table.def_, hfol.cols]
    · rfl
  · intro n t' hn
    rw [tables_withLive] at hn
    split at hn
    · obtain rfl := Option.some.inj hn
      exact (h.table ht).withIndexes ixs
    · exact h.table hn
  · intro n t' hn
    rw [tables_withLive] at hn
    split at hn
    · rename_i he
      subst he
      obtain rfl := Option.some.inj hn
      rw [Storage.tx_withLive]
      exact fun key cells hv => (hgood key cells hv).withIndexes ixs
    · rename_i he
      rw [tx_withLive_of_ne he]
      exact h.rows hn
  · intro n t' hn
    rw [tables_withLive] at hn
    split at hn
    · rename_i he
      subst he
      obtain rfl := Option.some.inj hn
      rw [Storage.tx_withLive]
      exact (Storage.inStep_withIndexes ixs).mpr (hfol.indexed (h.indexed ht))
    · rename_i he
      rw [tx_withLive_of_ne he]
      exact h.indexed hn
  · intro n t' hn hkind
    rw [tables_withLive] at hn
    split at hn
    · rename_i he
      subst he
      obtain rfl := Option.some.inj hn
      rw [Storage.tx_withLive]
      rcases hdata with hkv | hdata
      · exact absurd hkv hkind
      · exact hdata.trans (h.data ht hkind)
    · rename_i he
      rw [tx_withLive_of_ne he]
      exact h.data hn hkind
  · intro n kind hkind
    have hne : ¬ (kind = t.engine ∧ n = name) := by
      rintro ⟨rfl, rfl⟩
      exact hkind _ ((tables_withLive n).trans (if_pos rfl)) rfl
    have htxs : (b.withLive name t ⟨ixs, tx⟩).txs kind n = b.txs kind n := if_neg hne
    rw [htxs]
    refine h.absent n kind fun t' ht' he => ?_
    by_cases hn : name = n
    · subst hn
      rw [ht] at ht'
      obtain rfl := Option.some.inj ht'
      exact hne ⟨he.symm, rfl⟩
    · exact hkind t' ((tables_withLive n).trans ((if_neg hn).trans ht')) he

theorem stateOf_withLive (hcols : ixs.map Index.cols = t.indexes.map Index.cols) (n : Bytes) :
    stateOf lib (b.withLive name t ⟨ixs, tx⟩) n =
      if name = n then some (bare t, contentOf lib t.indexes tx) else stateOf lib b n := by
  unfold stateOf
  rw [tables_withLive]
  split
  · rename_i hn
    subst hn
    have hget : ∀ n, (ixs.get n).map Index.cols = (t.indexes.get n).map Index.cols := fun n => by
      rw [← SortedMap.get_map, ← SortedMap.get_map, hcols]
    rw [Option.map_some, Storage.tx_withLive]
    unfold contentOf
    simp only [hget]
    rfl
  · rename_i hn
    simp only [tx_withLive_of_ne hn]

end Batches

/-! ### Statements on rows -/

section Rows

variable (lib : Stdlib)

/-- What an UPDATE asks of its table: the transaction lists the rows there are and fills partial
writes from them, no key column is assigned, the WHERE has a value in every row and the assignments
in every row hit, and the path that it takes is complete. -/
structure UpdateReady (name : Bytes) (t : Table) (tx : TableTx) (sets : List SetItem)
    (where_ : Expr) : Prop where
  lists : tx.ListsRows t.engine
  fills : tx.FillsRows t.engine
  keepsKey : KeepsKey (t.schema name) sets
  wheres : ∀ key row, (tx.rows lib).get key = some row →
    WhereEvaluates lib (t.schema name) where_ row
  values : ∀ key row, (tx.rows lib).get key = some row →
    Sql.updateHit lib (t.schema name) t.engine where_ key row = true →
      SetsEvaluate lib (t.schema name) sets row
  path : PathComplete lib name t tx sets where_

/-- The table of the statement is there, and its expressions have values. -/
def RowReady (b : Batch) : Statement → Prop
  | .insert table columns rows => ∃ t, b.tables.get table = some t ∧
    ∃ wss, Gives (Sql.insertRows lib (t.schema table) columns rows) wss
  | .update table sets where_ => ∃ t, b.tables.get table = some t ∧
    UpdateReady lib table t (b.tx table t) sets where_
  | .delete table where_ => ∃ t, b.tables.get table = some t ∧
    (b.tx table t).ListsRows t.engine ∧ ∀ key row, ((b.tx table t).rows lib).get key = some row →
      WhereEvaluates lib (t.schema table) where_ row
  | .kvPut table _ _ | .kvDelete table _ => ∃ t, b.tables.get table = some t ∧ t.engine = .kv
  | .begin_ | .commit | .rollback | .createDatabase _ => True
  | _ => False

/-- The batch after a statement is healthy, and holds what the command of the statement makes of
what was there. -/
structure Stepped (b : Batch) (stmts : Entry) (b' : Batch) : Prop where
  healthy : Healthy b'
  state : ∀ n, stateOf lib b' n = Command.actAll (commandsOn lib n stmts) (stateOf lib b n)

variable {lib} {b : Batch} {name : Bytes} {t : Table} {tx : TableTx}

theorem commandsOn_single {st : WriteStmt} {c : TableCommand}
    (hc : command lib st.1 = some (name, c)) (n : Bytes) :
    commandsOn lib n [st] = if name = n then [c] else [] := by
  unfold commandsOn
  by_cases h : name = n <;> simp [hc, h]

theorem commandsOn_none {st : WriteStmt} (hc : command lib st.1 = none) (n : Bytes) :
    commandsOn lib n [st] = [] := by
  simp [commandsOn, hc]

theorem Stepped.nil (h : Healthy b) : Stepped lib b [] b := ⟨h, fun _ => rfl⟩

theorem Stepped.trans {stmts stmts' : Entry} {b' b'' : Batch} (h : Stepped lib b stmts b')
    (h' : Stepped lib b' stmts' b'') : Stepped lib b (stmts ++ stmts') b'' := by
  refine ⟨h'.healthy, fun n => ?_⟩
  have happ : commandsOn lib n (stmts ++ stmts') =
      commandsOn lib n stmts ++ commandsOn lib n stmts' := List.filterMap_append
  rw [h'.state, h.state, happ, Command.actAll_append]

/-- An operation on the rows or the entries of a table. -/
theorem stepped_withLive {st : WriteStmt} {f : Table → Content → Content} {ixs : SortedMap Bytes Index}
    (h : Healthy b) (ht : b.tables.get name = some t)
    (hc : command lib st.1 = some (name, .change f)) (hgood : GoodRows t tx)
    (hfol : Follows t t.indexes (b.tx name t) ixs tx)
    (hdata : t.engine = .kv ∨ tx.data = (b.tx name t).data)
    (hf : contentOf lib t.indexes tx = f (bare t) (contentOf lib t.indexes (b.tx name t))) :
    Stepped lib b [st] (b.withLive name t ⟨ixs, tx⟩) := by
  refine ⟨h.withLive ht hgood hfol hdata, fun n => ?_⟩
  rw [stateOf_withLive hfol.cols, commandsOn_single hc]
  split
  · rename_i hn
    subst hn
    rw [stateOf_some ht, hf]
    rfl
  · rfl

theorem does_modifyData (hkind : t.engine = .kv) (f : SortedMap Bytes Bytes → SortedMap Bytes Bytes) :
    Does b name t (Storage.modifyData name f) tx ⟨⟩ { tx with data := f tx.data } := by
  apply Storage.does_getTable_bind
  intro ixs
  have hwrites : Storage.Writes t (Storage.modifyTx fun tx => { tx with data := f tx.data }) tx
    { tx with data := f tx.data } := Storage.leaves_modifyTx _
  obtain ⟨_, ixs', he, hfol⟩ := Storage.exec_writeTo_of_writes b name t hwrites ixs
  refine ⟨ixs', ?_, hfol⟩
  dsimp only
  rw [if_neg (not_not_intro hkind)]
  exact he

theorem stepped_kvSet {st : WriteStmt} (h : Healthy b) (ht : b.tables.get name = some t)
    (hkind : t.engine = .kv) {key : Bytes} {value : Option Bytes} {x : Storage.Exec Unit}
    {f : SortedMap Bytes Bytes → SortedMap Bytes Bytes} (hx : x = Storage.modifyData name f)
    (hc : command lib st.1 = some (name, setData (kvSetAt key value)))
    (hf : ∀ m k, (f m).get k = if k = key then value else m.get k) (r : Sql.Result)
    (he : Sql.execute lib st = x >>= fun _ => pure r) :
    ∃ r b', (Sql.execute lib st).exec b = (.ok r, b') ∧ Stepped lib b [st] b' := by
  subst hx
  have hdoes : Does b name t (Storage.modifyData name f >>= fun _ => pure r) (b.tx name t) r _ :=
    Storage.does_bind (does_modifyData hkind f) (Storage.does_pure r)
  obtain ⟨ixs, hexec, hfol⟩ := hdoes.exec ht
  have hgood : GoodRows t { b.tx name t with data := f (b.tx name t).data } := h.rows ht
  refine ⟨r, _, by rw [he]; exact hexec, stepped_withLive h ht hc hgood hfol (Or.inl hkind) ?_⟩
  have hget : ∀ k, (f (b.tx name t).data).get k =
      kvSetAt key value (bare t) k ((b.tx name t).data.get k) := by
    intro k
    have hb : (bare t).engine = .kv := hkind
    rw [hf, kvSetAt]
    simp only [hb, true_and]
  exact Prod.ext rfl (Prod.ext (funext hget) rfl)

theorem insertValues_eq {columns : List Bytes} {rows : List (List Expr)}
    {wss : List (List (Bytes × Value))}
    (h : Gives (Sql.insertRows lib (t.schema name) columns rows) wss) :
    insertValues lib t name columns rows = wss := by
  unfold Gives at h
  rw [insertValues, h]

/-- A statement on rows or entries that is ready. -/
theorem stepped_execute (h : Healthy b) {st : WriteStmt} (hready : RowReady lib b st.1) :
    ∃ r b', (Sql.execute lib st).exec b = (.ok r, b') ∧ Stepped lib b [st] b' := by
  obtain ⟨st, hwrite⟩ := st
  have hskip : ∀ r, command lib st = none → Sql.execute lib ⟨st, hwrite⟩ = pure r →
      ∃ r b', (Sql.execute lib ⟨st, hwrite⟩).exec b = (.ok r, b') ∧
        Stepped lib b [⟨st, hwrite⟩] b' := by
    intro r hc he
    refine ⟨r, b, by rw [he]; rfl, h, fun n => ?_⟩
    rw [commandsOn_none hc]
    rfl
  cases st with
  | insert table columns rows =>
    obtain ⟨t, ht, wss, hg⟩ := hready
    obtain ⟨tx', hdoes, hgood, hdata, hrows⟩ :=
      Sql.does_execInsert (b := b) (h.table ht) (h.rows ht) hg
    obtain ⟨ixs, hexec, hfol⟩ := hdoes.exec ht
    refine ⟨_, _, hexec, stepped_withLive h ht rfl hgood hfol (Or.inr hdata) ?_⟩
    have hvals : insertValues lib (bare t) table columns rows = wss := insertValues_eq hg
    refine Prod.ext (funext fun key => ?_) (Prod.ext (by rw [contentOf, hdata]; rfl) rfl)
    refine (hrows key).trans ?_
    dsimp only
    rw [insertAt, hvals]
    rfl
  | update table sets where_ =>
    obtain ⟨t, ht, hup⟩ := hready
    have hends : Storage.Ends b table t (Sql.execUpdate lib table sets where_) (b.tx table t) _ :=
      Sql.ends_execUpdate ⟨h.table ht, h.rows ht, hup.lists, hup.fills⟩ hup.keepsKey hup.wheres
        hup.values hup.path
    obtain ⟨r, ixs, tx', hexec, hfol, n, rfl, hupd⟩ := hends.exec ht
    refine ⟨_, _, hexec, stepped_withLive h ht rfl hupd.good hfol (Or.inr hupd.data) ?_⟩
    exact Prod.ext (funext fun key => hupd.rows key)
      (Prod.ext (by rw [contentOf, hupd.data]; rfl) rfl)
  | delete table where_ =>
    obtain ⟨t, ht, hlists, hw⟩ := hready
    obtain ⟨n, tx', hdoes, hdel⟩ :=
      Sql.does_execDelete (b := b) (h.table ht) (h.rows ht) hlists hw
    obtain ⟨ixs, hexec, hfol⟩ := hdoes.exec ht
    refine ⟨_, _, hexec, stepped_withLive h ht rfl hdel.good hfol (Or.inr hdel.data) ?_⟩
    exact Prod.ext (funext fun key => hdel.rows key)
      (Prod.ext (by rw [contentOf, hdel.data]; rfl) rfl)
  | kvPut table key value =>
    obtain ⟨t, ht, hkind⟩ := hready
    refine stepped_kvSet h ht hkind (f := fun m => m.insert key value) rfl rfl (fun m k => ?_) _ rfl
    rw [SortedMap.get_insert]
    by_cases hk : key = k <;> simp [hk, Ne.symm]
  | kvDelete table key =>
    obtain ⟨t, ht, hkind⟩ := hready
    refine stepped_kvSet h ht hkind (f := fun m => m.erase key) rfl rfl (fun m k => ?_) _ rfl
    rw [SortedMap.get_erase]
    by_cases hk : key = k <;> simp [hk, Ne.symm]
  | begin_ => exact hskip _ rfl rfl
  | commit => exact hskip _ rfl rfl
  | rollback => exact hskip _ rfl rfl
  | createDatabase => exact hskip _ rfl rfl
  | _ => exact hready.elim

end Rows

end Ydbgo.Raft
