import Ydbgo.Raft.Steps

/-! # Definitions run as commands

A CREATE or DROP statement in an entry of its own either does what its command
says or fails and leaves everything as it was. So does a statement whose table
is not there.
-/

namespace Ydbgo.Raft

open Sql (Stdlib Value Expr Statement WriteStmt ColumnDef)

open Storage (Batch Table TableTx ColInfo EngineKind Index ExecError GoodTable GoodRows Indexed)

/-! ### New tables -/

section NewTable

variable {columns : List ColumnDef} {pk : List Bytes} {engine : Bytes} {retention : Int64}

theorem names_primaryColumns (columns : List ColumnDef) (pk : List Bytes) :
    (Sql.primaryColumns columns pk).map ColumnDef.name = columns.map ColumnDef.name := by
  have hmark : (columns.map fun c => if c.name ∈ pk then Sql.makePrimary c else c).map
      ColumnDef.name = columns.map ColumnDef.name := by
    rw [List.map_map]
    refine List.map_congr_left fun c _ => ?_
    rw [Function.comp_apply]
    split <;> rfl
  rw [← hmark]
  unfold Sql.primaryColumns
  dsimp only
  split
  · rfl
  · cases columns.map fun c => if c.name ∈ pk then Sql.makePrimary c else c <;> rfl

theorem exists_asPrimary (pk : List Bytes) (h : columns ≠ []) :
    ∃ c ∈ Sql.primaryColumns columns pk, c.asPrimary = true := by
  unfold Sql.primaryColumns
  dsimp only
  split
  · rename_i hany
    exact List.any_eq_true.mp hany
  · cases columns with
    | nil => exact absurd rfl h
    | cons c columns => exact ⟨_, List.mem_cons_self, rfl⟩

theorem goodTable_newTable (hne : columns ≠ []) (hnames : (columns.map ColumnDef.name).Nodup) :
    GoodTable (newTable columns pk engine retention) := by
  constructor
  · have hcols : (newTable columns pk engine retention).cols.map ColInfo.name =
        columns.map ColumnDef.name := by
      rw [← names_primaryColumns columns pk, newTable, List.map_map]
      rfl
    rwa [hcols]
  · obtain ⟨c, hc, hprim⟩ := exists_asPrimary pk hne
    obtain ⟨i, hi⟩ := List.getElem?_of_mem hc
    refine List.ne_nil_of_mem (a := i) (List.mem_flatMap.mpr ⟨c.name, ?_, ?_⟩)
    · exact List.mem_map_of_mem (List.mem_filter.mpr ⟨hc, hprim⟩)
    · rw [List.mem_filter, List.mem_range, List.length_map, decide_eq_true_eq, List.getElem?_map,
        hi]
      exact ⟨(List.getElem?_eq_some_iff.mp hi).1, rfl⟩
  · intro p hp
    obtain ⟨_, -, hmem⟩ := List.mem_flatMap.mp hp
    exact List.mem_range.mp (List.mem_of_mem_filter hmem)

end NewTable

/-! ### Definitions -/

section Definitions

variable {lib : Stdlib} {b : Batch} {name : Bytes} {t : Table} {st : WriteStmt}

/-- Nothing is written yet: the transactions list the rows there are. -/
def Unwritten (b : Batch) : Prop :=
  ∀ kind name, (b.txs kind name).listed = (b.txs kind name).view.keys

/-- A table has columns, with different names. An index is one of a table that is there. -/
def DefinitionReady (b : Batch) : Statement → Prop
  | .createTable _ columns _ _ _ _ => columns ≠ [] ∧ (columns.map ColumnDef.name).Nodup
  | .dropTable _ _ => True
  | .createIndex _ table _ _ | .dropIndex _ table _ => (b.tables.get table).isSome
  | _ => False

/-- The statement does what its command says, or fails and changes nothing. -/
def DoesOrFails (lib : Stdlib) (b : Batch) (st : WriteStmt) : Prop :=
  (∃ r b', (Sql.execute lib st).exec b = (.ok r, b') ∧ Stepped lib b [st] b') ∨
    ∃ err, (Sql.execute lib st).exec b = (.error err, b) ∧ Stepped lib b [st] b

theorem Stepped.unchanged {c : TableCommand} (h : Healthy b)
    (hc : command lib st.1 = some (name, c)) (hact : c.act (stateOf lib b name) = stateOf lib b name) :
    Stepped lib b [st] b := by
  refine ⟨h, fun n => ?_⟩
  rw [commandsOn_single hc]
  split
  · rename_i hn
    subst hn
    exact hact.symm
  · rfl

/-! ### The catalog -/

theorem tables_withTable (b : Batch) (name : Bytes) (t : Table) (n : Bytes) :
    (b.withTable name t).tables.get n = if name = n then some t else b.tables.get n := by
  by_cases h : name = n <;> simp [Batch.withTable, SortedMap.get_insert, h]

/-- A table is put in the catalog. -/
theorem Healthy.withTable (h : Healthy b) (htable : GoodTable t) (hrows : GoodRows t (b.tx name t))
    (hixs : Indexed t (b.tx name t) t.indexes)
    (hdata : t.engine ≠ .kv → (b.tx name t).data = .empty)
    (habsent : ∀ kind, t.engine ≠ kind →
      (b.txs kind name).view = .empty ∧ (b.txs kind name).data = .empty) :
    Healthy (b.withTable name t) := by
  have hother : ∀ {n t'}, (b.withTable name t).tables.get n = some t' →
      n = name ∧ t' = t ∨ b.tables.get n = some t' := by
    intro n t' hn
    rw [tables_withTable] at hn
    split at hn
    · rename_i he
      exact Or.inl ⟨he.symm, (Option.some.inj hn).symm⟩
    · exact Or.inr hn
  constructor
  · intro n
    rw [tables_withTable]
    by_cases hn : name = n
    · rw [if_pos hn]
      exact if_pos hn.symm
    · rw [if_neg hn, ← h.defs]
      exact if_neg (Ne.symm hn)
  · intro n t' hn
    rcases hother hn with ⟨rfl, rfl⟩ | hn
    · exact htable
    · exact h.table hn
  · intro n t' hn
    rcases hother hn with ⟨rfl, rfl⟩ | hn
    · exact hrows
    · exact h.rows hn
  · intro n t' hn
    rcases hother hn with ⟨rfl, rfl⟩ | hn
    · exact hixs
    · exact h.indexed hn
  · intro n t' hn hkind
    rcases hother hn with ⟨rfl, rfl⟩ | hn
    · exact hdata hkind
    · exact h.data hn hkind
  · intro n kind hkind
    by_cases hn : name = n
    · subst hn
      exact habsent kind (hkind t ((tables_withTable b name t name).trans (if_pos rfl)))
    · exact h.absent n kind fun t' ht' =>
        hkind t' ((tables_withTable b name t n).trans ((if_neg hn).trans ht'))

theorem stateOf_withTable (n : Bytes) : stateOf lib (b.withTable name t) n =
    if name = n then some (bare t, contentOf lib t.indexes (b.tx name t)) else stateOf lib b n := by
  unfold stateOf
  rw [tables_withTable]
  split
  · rename_i hn
    subst hn
    rfl
  · rfl

theorem stepped_withTable {c : TableCommand} (h : Healthy (b.withTable name t))
    (hc : command lib st.1 = some (name, c))
    (hact : some (bare t, contentOf lib t.indexes (b.tx name t)) = c.act (stateOf lib b name)) :
    Stepped lib b [st] (b.withTable name t) := by
  refine ⟨h, fun n => ?_⟩
  rw [stateOf_withTable, commandsOn_single hc]
  split
  · rename_i hn
    subst hn
    exact hact
  · rfl

theorem doesOrFails_createTable {columns : List ColumnDef} {pk : List Bytes} {ifNotExists : Bool}
    {engine : Bytes} {retention : Int64} (h : Healthy b)
    (hst : st.1 = .createTable name columns pk ifNotExists engine retention)
    (hne : columns ≠ []) (hnames : (columns.map ColumnDef.name).Nodup) : DoesOrFails lib b st := by
  obtain ⟨_, hwrite⟩ := st
  obtain rfl := hst
  cases ht : b.tables.get name with
  | some t =>
    refine Or.inr ⟨.msg (ascii "table " ++ name ++ ascii " already exists"), ?_,
      .unchanged h rfl ?_⟩
    · change (Sql.execCreateTable name columns pk engine retention).exec b = _
      unfold Sql.execCreateTable Storage.createTable
      refine Prog.exec_bind_error ?_
      rw [Prog.exec_bind_ok (Prog.exec_get b), ht]
      rfl
    · rw [stateOf_some ht]
      rfl
  | none =>
    have habsent := fun kind => h.absent name kind fun t ht' => by rw [ht] at ht'; cases ht'
    have hempty := habsent (newTable columns pk engine retention).engine
    have hrows : ∀ key, ((b.tx name (newTable columns pk engine retention)).view).get key =
        none := by
      intro key
      rw [Batch.tx, hempty.1]
      rfl
    refine Or.inl ⟨⟨ascii "create_table", 1⟩,
      b.withTable name (newTable columns pk engine retention), ?_, stepped_withTable ?_ rfl ?_⟩
    · change (Sql.execCreateTable name columns pk engine retention).exec b = _
      unfold Sql.execCreateTable Storage.createTable
      dsimp only
      rw [Prog.exec_bind, Prog.exec_bind_ok (Prog.exec_get b), ht]
      rfl
    · refine h.withTable (goodTable_newTable hne hnames) (fun key cells hv => ?_)
        (Storage.inStep_of_isEmpty rfl) (fun _ => hempty.2) fun kind _ => habsent kind
      rw [hrows] at hv
      cases hv
    · rw [stateOf_none ht]
      have hget : ∀ key, ((b.tx name (newTable columns pk engine retention)).rows lib).get key =
          none := by
        intro key
        rw [Storage.rows_get, hrows]
        rfl
      have hdata : ∀ key, (b.tx name (newTable columns pk engine retention)).data.get key =
          none := by
        intro key
        rw [Batch.tx, hempty.2]
        rfl
      exact congrArg some (Prod.ext rfl (Prod.ext (funext hget) (Prod.ext (funext hdata) rfl)))

theorem view_deleteAll (kind : EngineKind) (tx : TableTx) (h : tx.listed = tx.view.keys) :
    (tx.deleteAll kind).view = .empty ∧ (tx.deleteAll kind).data = tx.data := by
  have hfold : (tx.listed.foldl (TableTx.delete kind) tx).view = .empty := by
    apply SortedMap.ext_get
    intro key
    rw [Storage.view_foldl_delete, h]
    split
    · rfl
    · rename_i hnot
      rw [SortedMap.mem_keys, Option.isSome_iff_ne_none, not_not] at hnot
      rw [hnot]
      rfl
  cases kind with
  | table | cstore2 => exact ⟨rfl, rfl⟩
  | kv | cstore => exact ⟨hfold, Storage.data_foldl_delete _ _ _⟩

/-- A table is taken out of the catalog, and its store is left empty. -/
def dropped (b : Batch) (name : Bytes) (t : Table) (tx : TableTx) : Batch where
  defs := fun n => if n = name then none else b.defs n
  tables := b.tables.erase name
  txs := fun kind n => if kind = t.engine ∧ n = name then tx else b.txs kind n

theorem tables_dropped (b : Batch) (name : Bytes) (t : Table) (tx : TableTx) (n : Bytes) :
    (dropped b name t tx).tables.get n = if name = n then none else b.tables.get n := by
  rw [dropped, SortedMap.get_erase]
  by_cases hn : name = n <;> simp [hn]

theorem Healthy.dropped {tx : TableTx} (h : Healthy b) (ht : b.tables.get name = some t)
    (hview : tx.view = .empty) (hdata : tx.data = .empty) : Healthy (dropped b name t tx) := by
  have hother : ∀ {n t'}, (Raft.dropped b name t tx).tables.get n = some t' →
      b.tables.get n = some t' ∧ ∀ t'', (Raft.dropped b name t tx).tx n t'' = b.tx n t'' := by
    intro n t' hn
    rw [tables_dropped] at hn
    split at hn
    · cases hn
    · rename_i he
      exact ⟨hn, fun t'' => if_neg fun hk => he hk.2.symm⟩
  constructor
  · intro n
    rw [tables_dropped]
    by_cases hn : name = n
    · rw [if_pos hn]
      exact if_pos hn.symm
    · rw [if_neg hn, ← h.defs]
      exact if_neg (Ne.symm hn)
  · exact fun hn => h.table (hother hn).1
  · intro n t' hn
    obtain ⟨hn, htx⟩ := hother hn
    rw [htx]
    exact h.rows hn
  · intro n t' hn
    obtain ⟨hn, htx⟩ := hother hn
    rw [htx]
    exact h.indexed hn
  · intro n t' hn
    obtain ⟨hn, htx⟩ := hother hn
    rw [htx]
    exact h.data hn
  · intro n kind hkind
    by_cases hk : kind = t.engine ∧ n = name
    · have htx : (Raft.dropped b name t tx).txs kind n = tx := if_pos hk
      rw [htx]
      exact ⟨hview, hdata⟩
    · have htx : (Raft.dropped b name t tx).txs kind n = b.txs kind n := if_neg hk
      rw [htx]
      refine h.absent n kind fun t' ht' he => ?_
      by_cases hn : name = n
      · subst hn
        rw [ht] at ht'
        obtain rfl := Option.some.inj ht'
        exact hk ⟨he.symm, rfl⟩
      · exact hkind t' ((tables_dropped b name t tx n).trans ((if_neg hn).trans ht')) he

theorem stateOf_dropped (tx : TableTx) (n : Bytes) :
    stateOf lib (dropped b name t tx) n = if name = n then none else stateOf lib b n := by
  unfold stateOf
  rw [tables_dropped]
  by_cases hn : name = n
  · rw [if_pos hn, if_pos hn]
    rfl
  · have htx : ∀ t', (dropped b name t tx).tx n t' = b.tx n t' :=
      fun t' => if_neg fun hk => hn hk.2.symm
    rw [if_neg hn, if_neg hn]
    simp only [htx]

theorem exec_dropTable (ht : b.tables.get name = some t) :
    (Storage.dropTable name).exec b = (.ok ⟨⟩, dropped b name t
      ((if t.engine = .kv then { b.tx name t with data := .empty } else b.tx name t).deleteAll
        t.engine)) := by
  unfold Storage.dropTable
  rw [Prog.exec_bind_ok (by rw [Storage.exec_getTable, ht])]
  refine Prod.ext rfl (congrArg (Batch.mk _ _) (funext fun kind => funext fun n => ?_))
  split
  · rename_i he
    obtain ⟨rfl, rfl⟩ := he
    rfl
  · rfl

theorem doesOrFails_dropTable {ifExists : Bool} (h : Healthy b) (hfresh : Unwritten b)
    (hst : st.1 = .dropTable name ifExists) : DoesOrFails lib b st := by
  obtain ⟨_, hwrite⟩ := st
  obtain rfl := hst
  cases ht : b.tables.get name with
  | none =>
    have hact : Stepped lib b [⟨.dropTable name ifExists, hwrite⟩] b :=
      .unchanged h rfl (stateOf_none ht).symm
    have hdrop : (Storage.dropTable name).exec b = (.error (.notFound name), b) := by
      unfold Storage.dropTable
      exact Prog.exec_bind_error (by rw [Storage.exec_getTable, ht])
    have hexec : (Sql.execDropTable name ifExists).exec b =
        (if ifExists && Sql.isNotFound (.notFound name) then
          (return ⟨ascii "drop_table", 0⟩ : Storage.Exec Sql.Result)
          else throw (.notFound name)).exec b := by
      unfold Sql.execDropTable
      rw [Prog.exec_tryCatch, Prog.exec_bind_error hdrop]
    cases ifExists with
    | false => exact Or.inr ⟨_, hexec, hact⟩
    | true => exact Or.inl ⟨_, _, hexec, hact⟩
  | some t =>
    have hclear : ((if t.engine = .kv then { b.tx name t with data := .empty } else
        b.tx name t).deleteAll t.engine).view = .empty ∧
        ((if t.engine = .kv then { b.tx name t with data := .empty } else
          b.tx name t).deleteAll t.engine).data = .empty := by
      by_cases hkind : t.engine = .kv
      · rw [if_pos hkind]
        exact view_deleteAll t.engine { b.tx name t with data := .empty } (hfresh t.engine name)
      · rw [if_neg hkind]
        obtain ⟨hview, hdata⟩ := view_deleteAll t.engine (b.tx name t) (hfresh t.engine name)
        exact ⟨hview, hdata.trans (h.data ht hkind)⟩
    refine Or.inl ⟨⟨ascii "drop_table", 1⟩, _, ?_, h.dropped ht hclear.1 hclear.2, fun n => ?_⟩
    · change (Sql.execDropTable name ifExists).exec b = _
      unfold Sql.execDropTable
      rw [Prog.exec_tryCatch, Prog.exec_bind_ok (exec_dropTable ht)]
      rfl
    · rw [stateOf_dropped, commandsOn_single rfl]
      split <;> rfl

/-! ### Indexes -/

theorem stepped_setIndexes {ixs : SortedMap Bytes Index}
    {f : Table → Bytes → Option (List ℕ) → Option (List ℕ)} (h : Healthy b)
    (ht : b.tables.get name = some t) (hc : command lib st.1 = some (name, setIndexes f))
    (hixs : Indexed t (b.tx name t) ixs)
    (hcols : ∀ n, (ixs.get n).map Index.cols = f (bare t) n ((t.indexes.get n).map Index.cols)) :
    Stepped lib b [st] (b.withTable name { t with indexes := ixs }) := by
  have hdata : t.engine ≠ .kv → (b.tx name t).data = .empty := h.data ht
  refine stepped_withTable ?_ hc ?_
  · refine h.withTable ((h.table ht).withIndexes ixs)
      (fun key cells hv => (h.rows ht key cells hv).withIndexes ixs)
      ((Storage.inStep_withIndexes ixs).mpr hixs) hdata fun kind hkind => ?_
    refine h.absent name kind fun t' ht' => ?_
    rw [ht] at ht'
    exact Option.some.inj ht' ▸ hkind
  · rw [stateOf_some ht]
    exact congrArg some (Prod.ext rfl (Prod.ext rfl (Prod.ext rfl (funext hcols))))

theorem unchanged_setIndexes {f : Table → Bytes → Option (List ℕ) → Option (List ℕ)}
    (h : Healthy b) (ht : b.tables.get name = some t)
    (hc : command lib st.1 = some (name, setIndexes f))
    (hcols : ∀ n, f (bare t) n ((t.indexes.get n).map Index.cols) =
      (t.indexes.get n).map Index.cols) : Stepped lib b [st] b := by
  refine .unchanged h hc ?_
  rw [stateOf_some ht]
  exact congrArg some (Prod.ext rfl (Prod.ext rfl (Prod.ext rfl (funext hcols))))

/-- The index that the rows of a healthy table fill. -/
theorem backfill_healthy (h : Healthy b) (hfresh : Unwritten b) (ht : b.tables.get name = some t)
    (i : ℕ) : ∃ ix, Storage.backfill t ⟨[i], fun _ => []⟩ ((b.tx name t).rowEach t.engine) =
      some ix ∧ ix.cols = [i] ∧ ix.Lists t (b.tx name t).view.get := by
  have hempty : Index.Lists ⟨[i], fun _ => []⟩ t fun _ => none :=
    ⟨fun _ => List.nodup_nil, fun enc key => by simp⟩
  obtain ⟨ix, hfill, hcols, hlists⟩ := Storage.backfill_lists
    (List.Pairwise.imp (fun hlt => ne_of_lt (α := Bytes) hlt) (b.tx name t).view.ascending)
    (fun _ _ => rfl) (fun e he => Storage.decodeRow_isSome t fun c hc =>
      (h.rows ht _ _ (SortedMap.get_eq_some.mpr he)).isSome hc) hempty
  refine ⟨ix, ?_, hcols, ?_⟩
  · rw [Storage.rowEach_good (h.rows ht) fun _ => hfresh t.engine name]
    exact hfill
  · simp only [Option.or_none] at hlists
    exact hlists

theorem doesOrFails_createIndex {iname : Bytes} {columns : List Bytes} {ifNotExists : Bool}
    (h : Healthy b) (hfresh : Unwritten b)
    (hst : st.1 = .createIndex iname name columns ifNotExists)
    (ht : b.tables.get name = some t) : DoesOrFails lib b st := by
  obtain ⟨_, hwrite⟩ := st
  obtain rfl := hst
  have hc : command lib (.createIndex iname name columns ifNotExists) =
      some (name, setIndexes (createIndexAt iname columns)) := rfl
  have hget : (Storage.getTable name).exec b = (.ok t, b) := by
    rw [Storage.exec_getTable, ht]
  -- a failed statement leaves the indexes alone, as its command does
  have hfail : ∀ err, (Storage.createIndex lib name iname columns ifNotExists).exec b =
      (.error err, b) → ((t.indexes.get iname).isSome ∨ indexColumns t columns = none) →
        DoesOrFails lib b ⟨.createIndex iname name columns ifNotExists, hwrite⟩ := by
    intro err he hcols
    refine Or.inr ⟨err, Prog.exec_bind_error he, unchanged_setIndexes h ht hc fun n => ?_⟩
    unfold createIndexAt
    split
    · rename_i hn
      subst hn
      rcases hcols with hsome | hnone
      · obtain ⟨ix, hix⟩ := Option.isSome_iff_exists.mp hsome
        rw [hix]
        rfl
      · have hbare : indexColumns (bare t) columns = none := hnone
        rw [hbare, Option.or_none]
    · rfl
  cases hix : t.indexes.get iname with
  | some ix =>
    cases ifNotExists with
    | false =>
      refine hfail (.msg (ascii "index " ++ iname ++ ascii " already exists on table " ++ name)) ?_
        (Or.inl (by rw [hix]; rfl))
      rw [Storage.createIndex, Prog.exec_bind_ok hget, hix]
      rfl
    | true =>
      refine Or.inl ⟨⟨ascii "create_index", 1⟩, b, ?_, unchanged_setIndexes h ht hc fun n => ?_⟩
      · refine Prog.exec_bind_ok (a := ⟨⟩) ?_
        rw [Storage.createIndex, Prog.exec_bind_ok hget, hix]
        rfl
      · unfold createIndexAt
        split
        · rename_i hn
          subst hn
          rw [hix]
          rfl
        · rfl
  | none =>
    match columns with
    | [] =>
      refine hfail (.msg (ascii "index " ++ iname ++ ascii " needs at least one column")) ?_
        (Or.inr rfl)
      rw [Storage.createIndex, Prog.exec_bind_ok hget, hix]
      rfl
    | _ :: _ :: _ =>
      refine hfail (.msg (ascii "index " ++ iname ++
        ascii ": composite indexes are not supported yet (use a single column)")) ?_ (Or.inr rfl)
      rw [Storage.createIndex, Prog.exec_bind_ok hget, hix]
      rfl
    | [c] =>
      cases hcol : t.colNamed c with
      | none =>
        refine hfail (.msg (ascii "index column " ++ lib.quote c ++ ascii " not found in table " ++
          name)) ?_ (Or.inr (by rw [indexColumns, hcol]; rfl))
        rw [Storage.createIndex, Prog.exec_bind_ok hget, hix]
        dsimp only
        rw [hcol]
        rfl
      | some i =>
        obtain ⟨ix, hfill, hcols, hlists⟩ := backfill_healthy h hfresh ht i
        refine Or.inl ⟨⟨ascii "create_index", 1⟩,
          b.withTable name { t with indexes := t.indexes.insert iname ix }, ?_,
          stepped_setIndexes h ht hc (fun n ix' hn => ?_) fun n => ?_⟩
        · refine Prog.exec_bind_ok (a := ⟨⟩) ?_
          rw [Storage.createIndex, Prog.exec_bind_ok hget, hix]
          dsimp only
          rw [hcol]
          dsimp only
          rw [Prog.exec_bind_ok (Prog.exec_get b), hfill]
          rfl
        · rw [SortedMap.get_insert] at hn
          split at hn
          · exact Option.some.inj hn ▸ hlists
          · exact h.indexed ht n ix' hn
        · rw [SortedMap.get_insert, createIndexAt]
          have hbare : indexColumns (bare t) [c] = some [i] := by
            change (t.colNamed c).map (fun i => [i]) = some [i]
            rw [hcol]
            rfl
          by_cases hn : n = iname
          · subst hn
            rw [if_pos rfl, if_pos rfl, hix, hbare, Option.map_some, hcols]
            rfl
          · rw [if_neg hn, if_neg (Ne.symm hn)]

theorem doesOrFails_dropIndex {iname : Bytes} {ifExists : Bool} (h : Healthy b)
    (hst : st.1 = .dropIndex iname name ifExists) (ht : b.tables.get name = some t) :
    DoesOrFails lib b st := by
  obtain ⟨_, hwrite⟩ := st
  obtain rfl := hst
  have hc : command lib (.dropIndex iname name ifExists) =
      some (name, setIndexes (dropIndexAt iname)) := rfl
  have hget : (Storage.getTable name).exec b = (.ok t, b) := by
    rw [Storage.exec_getTable, ht]
  cases hix : t.indexes.get iname with
  | none =>
    have hsame : Stepped lib b [⟨.dropIndex iname name ifExists, hwrite⟩] b :=
      unchanged_setIndexes h ht hc fun n => by
        unfold dropIndexAt
        split
        · rename_i hn
          subst hn
          rw [hix]
          rfl
        · rfl
    cases ifExists with
    | false =>
      refine Or.inr ⟨_, Prog.exec_bind_error (e := .msg (ascii "index " ++ iname ++
        ascii " not found on table " ++ name)) ?_, hsame⟩
      rw [Storage.dropIndex, Prog.exec_bind_ok hget, hix]
      rfl
    | true =>
      refine Or.inl ⟨⟨ascii "drop_index", 1⟩, b, Prog.exec_bind_ok (a := ⟨⟩) ?_, hsame⟩
      rw [Storage.dropIndex, Prog.exec_bind_ok hget, hix]
      rfl
  | some ix =>
    refine Or.inl ⟨⟨ascii "drop_index", 1⟩,
      b.withTable name { t with indexes := t.indexes.erase iname }, ?_,
      stepped_setIndexes h ht hc (fun n ix' hn => ?_) fun n => ?_⟩
    · refine Prog.exec_bind_ok (a := ⟨⟩) ?_
      rw [Storage.dropIndex, Prog.exec_bind_ok hget, hix]
      rfl
    · rw [SortedMap.get_erase] at hn
      split at hn
      · cases hn
      · exact h.indexed ht n ix' hn
    · rw [SortedMap.get_erase, dropIndexAt]
      by_cases hn : n = iname
      · simp [hn]
      · rw [if_neg hn, if_neg (Ne.symm hn)]

/-- A definition does what its command says or fails. -/
theorem doesOrFails_definition (h : Healthy b) (hfresh : Unwritten b)
    (hready : DefinitionReady b st.1) : DoesOrFails lib b st := by
  cases hst : st.1 with
  | createTable name columns pk ifNotExists engine retention =>
    rw [hst] at hready
    exact doesOrFails_createTable h hst hready.1 hready.2
  | dropTable name ifExists => exact doesOrFails_dropTable h hfresh hst
  | createIndex iname name columns ifNotExists =>
    rw [hst] at hready
    obtain ⟨t, ht⟩ := Option.isSome_iff_exists.mp hready
    exact doesOrFails_createIndex h hfresh hst ht
  | dropIndex iname name ifExists =>
    rw [hst] at hready
    obtain ⟨t, ht⟩ := Option.isSome_iff_exists.mp hready
    exact doesOrFails_dropIndex h hst ht
  | _ =>
    rw [hst] at hready
    exact hready.elim

/-- A statement whose table is not there fails. -/
theorem doesOrFails_absent {f : Table → Content → Content} (h : Healthy b)
    (hc : command lib st.1 = some (name, .change f)) (ht : b.tables.get name = none) :
    DoesOrFails lib b st := by
  have hget : (Storage.getTable name).exec b = (.error (.notFound name), b) := by
    rw [Storage.exec_getTable, ht]
  have hschema : (Storage.getSchema name).exec b = (.error (.notFound name), b) :=
    Prog.exec_bind_error hget
  refine Or.inr ⟨.notFound name, ?_, .unchanged h hc (by rw [stateOf_none ht]; rfl)⟩
  obtain ⟨st, hwrite⟩ := st
  cases st with
  | createIndex =>
    cases hc
    exact Prog.exec_bind_error (Prog.exec_bind_error hget)
  | dropIndex =>
    cases hc
    exact Prog.exec_bind_error (Prog.exec_bind_error hget)
  | insert =>
    cases hc
    exact Prog.exec_bind_error hschema
  | update =>
    cases hc
    exact Prog.exec_bind_error hschema
  | delete =>
    cases hc
    exact Prog.exec_bind_error hschema
  | kvPut =>
    cases hc
    exact Prog.exec_bind_error (Prog.exec_bind_error hget)
  | kvDelete =>
    cases hc
    exact Prog.exec_bind_error (Prog.exec_bind_error hget)
  | _ => cases hc

end Definitions

end Ydbgo.Raft
