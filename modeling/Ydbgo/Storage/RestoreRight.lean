import Ydbgo.Storage.Restore

/-! # Restoring a snapshot

A snapshot is restored with its definitions, its rows and its entries, over what the engine held.
The entries of the indexes are built from a scan in the transaction that cleared the tables, which
in the key-value backends still lists the keys of the cleared rows.
-/

namespace Ydbgo.Storage

/-! ### Building the indexes -/

section

variable {t : Table} {es : List (Bytes × Option (List Cell))} {l : Live}

/-- Every row of the scan can be read. -/
def Table.Reads (t : Table) (es : List (Bytes × Option (List Cell))) : Prop :=
  ∀ e ∈ es, (t.decodeRow e.2).isSome

/-- The indexes with the rows of a scan. -/
def Table.indexRows (t : Table) (es : List (Bytes × Option (List Cell)))
    (ixs : SortedMap Bytes Index) : SortedMap Bytes Index :=
  es.foldl (fun ixs e => addRowIndexes t ((t.decodeRow e.2).getD fun _ => none) e.1 ixs) ixs

theorem exec_rebuildRows (h : t.Reads es) (l : Live) :
    (rebuildRows t es).exec l = (.ok (), { l with indexes := t.indexRows es l.indexes }) := by
  induction es generalizing l with
  | nil => rfl
  | cons e es ih =>
    obtain ⟨he, hes⟩ := List.forall_mem_cons.mp h
    obtain ⟨k, blob⟩ := e
    obtain ⟨vals, hvals⟩ := Option.isSome_iff_exists.mp he
    have hvals : t.decodeRow blob = some vals := hvals
    rw [rebuildRows, Table.indexRows, List.foldl_cons]
    simp only [hvals, Option.getD_some]
    exact ih hes { l with indexes := addRowIndexes t vals k l.indexes }

theorem exec_rebuildRows_error (h : ¬ t.Reads es) (l : Live) :
    ∃ ixs, (rebuildRows t es).exec l = (.error shortReader, ⟨ixs, l.tx⟩) ∧
      ixs.map Index.cols = l.indexes.map Index.cols := by
  induction es generalizing l with
  | nil => exact absurd (List.forall_mem_nil _) h
  | cons e es ih =>
    obtain ⟨k, blob⟩ := e
    rw [rebuildRows]
    cases hvals : t.decodeRow blob with
    | none => exact ⟨l.indexes, rfl, rfl⟩
    | some vals =>
      have hes : ¬ t.Reads es := fun hes => h (List.forall_mem_cons.mpr ⟨by simp only [hvals]; rfl, hes⟩)
      obtain ⟨ixs, hexec, hcols⟩ := ih hes { l with indexes := addRowIndexes t vals k l.indexes }
      exact ⟨ixs, hexec, hcols.trans (map_cols_updateIndexes _)⟩

/-- The keys that an index gets under a value, in the order of the scan. -/
def Table.keysOf (t : Table) (ix : Index) (es : List (Bytes × Option (List Cell))) (enc : Bytes) :
    List Bytes :=
  (es.filter fun e => e.2.bind (t.indexValOf ix) = some enc).map Prod.fst

theorem entries_indexRow {vals : Vals} {k : Bytes} {blob : Option (List Cell)} (ix : Index)
    (h : t.decodeRow blob = some vals) (enc : Bytes) :
    (ix.change t vals fun pks => pks ++ [k]).entries enc =
      ix.entries enc ++ t.keysOf ix [(k, blob)] enc := by
  have hval : blob.bind (t.indexValOf ix) = indexValForCols vals t ix := by
    cases blob with
    | none => cases h
    | some cells => rw [Option.bind_some, Table.indexValOf, h, Option.bind_some]
  rw [Index.entries_change, Table.keysOf, List.filter_cons, hval]
  by_cases henc : indexValForCols vals t ix = some enc
  · simp only [henc, if_true, decide_true, List.filter_nil, List.map_cons, List.map_nil]
  · simp only [henc, if_false, decide_false, List.filter_nil, List.map_nil, List.append_nil,
      Bool.false_eq_true]

theorem get_indexRows (h : t.Reads es) (ixs : SortedMap Bytes Index) (name : Bytes) :
    (t.indexRows es ixs).get name = (ixs.get name).map fun ix =>
      { ix with entries := fun enc => ix.entries enc ++ t.keysOf ix es enc } := by
  induction es generalizing ixs with
  | nil =>
    rw [Table.indexRows, List.foldl_nil]
    simp only [Table.keysOf, List.filter_nil, List.map_nil, List.append_nil, Option.map_id']
  | cons e es ih =>
    obtain ⟨he, hes⟩ := List.forall_mem_cons.mp h
    obtain ⟨k, blob⟩ := e
    obtain ⟨vals, hvals⟩ := Option.isSome_iff_exists.mp he
    have hvals : t.decodeRow blob = some vals := hvals
    rw [Table.indexRows, List.foldl_cons, hvals, Option.getD_some]
    change (t.indexRows es (addRowIndexes t vals k ixs)).get name = _
    rw [ih hes, addRowIndexes, updateIndexes_eq, SortedMap.get_map, Option.map_map]
    cases ixs.get name with
    | none => rfl
    | some ix =>
      have hcols := Index.cols_change t vals (fun pks => pks ++ [k]) ix
      have hval := @indexValOf_change t ix vals fun pks => pks ++ [k]
      simp only [Option.map_some, Function.comp_apply, Option.some.injEq, Index.mk.injEq, hcols,
        true_and]
      ext1 enc
      rw [entries_indexRow ix hvals, List.append_assoc, Table.keysOf, Table.keysOf, Table.keysOf,
        hval, ← List.map_append, ← List.filter_append]
      rfl

theorem map_cols_indexRows (t : Table) (es : List (Bytes × Option (List Cell)))
    (ixs : SortedMap Bytes Index) :
    (t.indexRows es ixs).map Index.cols = ixs.map Index.cols := by
  induction es generalizing ixs with
  | nil => rfl
  | cons e es ih => exact (ih _).trans (map_cols_updateIndexes _)

end

/-! ### Building the indexes of every table -/

/-- The scan that the indexes of a table are built from. -/
def Batch.scanned (b : Batch) (e : Bytes × Table) : List (Bytes × Option (List Cell)) :=
  (b.txs e.2.engine e.1).rowEach e.2.engine

/-- The scan of a table that has indexes can be read. -/
def Batch.Rebuilds (b : Batch) (e : Bytes × Table) : Prop :=
  e.2.indexes.entries.isEmpty = false → e.2.Reads (b.scanned e)

/-- The table with its indexes built from a scan. -/
def Table.rebuilt (t : Table) (es : List (Bytes × Option (List Cell))) : Table :=
  { t with indexes := t.indexRows es t.bare.indexes }

def Batch.rebuild (b : Batch) (e : Bytes × Table) : Batch :=
  { b with tables := b.tables.insert e.1 (e.2.rebuilt (b.scanned e)) }

section

variable {b : Batch} {e : Bytes × Table}

theorem def_rebuilt (t : Table) (es : List (Bytes × Option (List Cell))) :
    (t.rebuilt es).def_ = t.def_ := by
  have hcols : (t.rebuilt es).indexes.map Index.cols = t.indexes.map Index.cols := by
    rw [Table.rebuilt, map_cols_indexRows, Table.bare, map_map_indexes]
  simp only [Table.def_, hcols]
  rfl

theorem rebuilt_of_isEmpty {t : Table} (h : t.indexes.entries.isEmpty = true)
    (es : List (Bytes × Option (List Cell))) : t.rebuilt es = t := by
  obtain ⟨cols, pk, ⟨ixs, hixs⟩, engine, retention⟩ := t
  obtain rfl : ixs = [] := List.isEmpty_iff.mp h
  rw [Table.rebuilt]
  congr 1
  apply SortedMap.ext_get
  intro name
  have hcols := congrArg (fun m => m.get name) (map_cols_indexRows
    ⟨cols, pk, ⟨[], hixs⟩, engine, retention⟩ es (Table.bare ⟨cols, pk, ⟨[], hixs⟩, engine, retention⟩).indexes)
  simp only [SortedMap.get_map] at hcols
  exact Option.map_eq_none_iff.mp hcols

theorem tables_rebuild (b : Batch) (e : Bytes × Table) {name : Bytes} (hne : e.1 ≠ name) :
    (b.rebuild e).tables.get name = b.tables.get name := by
  rw [Batch.rebuild, SortedMap.get_insert, if_neg hne]

theorem withLive_tx (b : Batch) (name : Bytes) (t : Table) (ixs : SortedMap Bytes Index) :
    b.withLive name t ⟨ixs, b.tx name t⟩ =
      { b with tables := b.tables.insert name { t with indexes := ixs } } := by
  simp only [Batch.withLive, Batch.mk.injEq, true_and]
  ext k n : 2
  split
  · rename_i hk
    rw [hk.1, hk.2]
    rfl
  · rfl

theorem exec_rebuildTable (he : b.tables.get e.1 = some e.2) (h : b.Rebuilds e) :
    (rebuildTable e.1 e.2).exec b = (.ok (), b.rebuild e) := by
  rw [rebuildTable]
  split
  · rename_i hempty
    rw [Batch.rebuild, rebuilt_of_isEmpty hempty, SortedMap.insert_eq_self he]
    rfl
  · rename_i hempty
    have hread := h (Bool.not_eq_true _ ▸ hempty)
    have hrows := exec_rebuildRows hread ⟨e.2.bare.indexes, b.tx e.1 e.2⟩
    have hexec := congrArg (fun p => (p.1, b.withLive e.1 e.2 p.2)) hrows
    rw [withLive_tx] at hexec
    exact hexec

theorem exec_rebuildTable_error (h : ¬ b.Rebuilds e) : ∃ ixs, (rebuildTable e.1 e.2).exec b =
    (.error shortReader, { b with tables := b.tables.insert e.1 { e.2 with indexes := ixs } }) ∧
      ixs.map Index.cols = e.2.indexes.map Index.cols := by
  obtain ⟨hempty, hread⟩ := Classical.not_imp.mp h
  obtain ⟨ixs, hrows, hcols⟩ := exec_rebuildRows_error hread ⟨e.2.bare.indexes, b.tx e.1 e.2⟩
  refine ⟨ixs, ?_, hcols.trans (map_map_indexes _ _ _)⟩
  have hexec := congrArg (fun p => (p.1, b.withLive e.1 e.2 p.2)) hrows
  rw [withLive_tx] at hexec
  rw [rebuildTable, if_neg (Bool.eq_false_iff.mp hempty)]
  exact hexec

/-- The loop goes on as long as the scans can be read. -/
theorem exec_rebuildAll {es : List (Bytes × Table)} (hne : es.Pairwise fun a b => a.1 ≠ b.1)
    (hes : ∀ e ∈ es, b.tables.get e.1 = some e.2) (h : ∀ e ∈ es, b.Rebuilds e) :
    (es.forM fun e => rebuildTable e.1 e.2).exec b = (.ok (), es.foldl Batch.rebuild b) := by
  induction es generalizing b with
  | nil => rfl
  | cons e es ih =>
    obtain ⟨hnee, hne⟩ := List.pairwise_cons.mp hne
    obtain ⟨hget, hes⟩ := List.forall_mem_cons.mp hes
    obtain ⟨he, h⟩ := List.forall_mem_cons.mp h
    refine (Prog.exec_bind_ok (exec_rebuildTable hget he)).trans (ih hne ?_ h)
    intro e' he'
    rw [tables_rebuild b e (hnee e' he')]
    exact hes e' he'

theorem exec_rebuildAll_error {es : List (Bytes × Table)}
    (hne : es.Pairwise fun a b => a.1 ≠ b.1) (hes : ∀ e ∈ es, b.tables.get e.1 = some e.2)
    (h : ¬ ∀ e ∈ es, b.Rebuilds e) : ∃ tables, (es.forM fun e => rebuildTable e.1 e.2).exec b =
      (.error shortReader, { b with tables := tables }) ∧
        ∀ n, (tables.get n).map Table.def_ = (b.tables.get n).map Table.def_ := by
  induction es generalizing b with
  | nil => exact absurd (List.forall_mem_nil _) h
  | cons e es ih =>
    obtain ⟨hnee, hne⟩ := List.pairwise_cons.mp hne
    obtain ⟨hget, hes⟩ := List.forall_mem_cons.mp hes
    have hdef {t : Table} (ht : t.def_ = e.2.def_) (n : Bytes) :
        ((b.tables.insert e.1 t).get n).map Table.def_ = (b.tables.get n).map Table.def_ := by
      rw [SortedMap.get_insert]
      split
      · rename_i hn
        rw [← hn, hget, Option.map_some, Option.map_some, ht]
      · rfl
    by_cases he : b.Rebuilds e
    · have hrest : ¬ ∀ e ∈ es, b.Rebuilds e := fun hes => h (List.forall_mem_cons.mpr ⟨he, hes⟩)
      obtain ⟨tables, hexec, hdefs⟩ := @ih (b.rebuild e) hne (by
        intro e' he'
        rw [tables_rebuild b e (hnee e' he')]
        exact hes e' he') hrest
      exact ⟨tables, (Prog.exec_bind_ok (exec_rebuildTable hget he)).trans hexec,
        fun n => (hdefs n).trans (hdef (def_rebuilt _ _) n)⟩
    · obtain ⟨ixs, hexec, hcols⟩ := exec_rebuildTable_error he
      refine ⟨_, Prog.exec_bind_error hexec, hdef ?_⟩
      simp only [Table.def_, hcols]

end

def Slot.rebuild (t : Table) (s : Slot) : Slot :=
  { s with table := some (t.rebuilt ((s.txs t.engine).rowEach t.engine)) }

theorem slot_rebuildAll (b : Batch) (n : Bytes) : (b.tables.entries.foldl Batch.rebuild b).slot n =
    (b.tables.get n).elim (b.slot n) fun t => (b.slot n).rebuild t := by
  apply @SortedMap.foldl_entries _ _ _ _ _ Batch.slot _ fun e => Slot.rebuild e.2
  · intro b e
    simp only [Batch.slot, Batch.rebuild, SortedMap.get_insert, if_true]
    rfl
  · intro b e k hk
    simp only [Batch.slot, tables_rebuild b e hk]
    rfl

/-! ### Rows that are cleared and loaded -/

/-- The rows of a backend after the clearing. -/
structure TableTx.Cleared (kind : EngineKind) (s : TableStore) (tx : TableTx) : Prop where
  view : tx.view = .empty
  listed : tx.listed = s.rows.keys
  data : tx.data = s.data
  cstore : kind = .cstore → tx.count = s.count - s.rows.entries.length
  cstore2 : kind = .cstore2 → tx.count = 0

section

variable {kind : EngineKind} {tx : TableTx}

theorem foldl_delete {keys : List Bytes} (hn : keys.Nodup)
    (hlive : ∀ k ∈ keys, (tx.view.get k).isSome) :
    (∀ k, (keys.foldl (TableTx.delete kind) tx).view.get k =
      if k ∈ keys then none else tx.view.get k) ∧
    (keys.foldl (TableTx.delete kind) tx).listed = tx.listed ∧
    (keys.foldl (TableTx.delete kind) tx).data = tx.data ∧
    (kind.isColumnar → (keys.foldl (TableTx.delete kind) tx).count = tx.count - keys.length) := by
  induction keys generalizing tx with
  | nil => exact ⟨fun k => rfl, rfl, rfl, fun _ => (sub_zero tx.count).symm⟩
  | cons key keys ih =>
    obtain ⟨hkey, hn⟩ := List.nodup_cons.mp hn
    obtain ⟨hl, hlive⟩ := List.forall_mem_cons.mp hlive
    have hview (k : Bytes) : (tx.delete kind key).view.get k =
        if key = k then none else tx.view.get k := by
      by_cases hk : key = k
      · simp only [TableTx.delete, SortedMap.get_erase, hk, if_true]
      · simp only [TableTx.delete, SortedMap.get_erase, hk, if_false]
    obtain ⟨hv, hlisted, hdata, hcount⟩ := @ih (tx.delete kind key) hn (by
      intro k hk
      have hne : key ≠ k := fun he => hkey (he ▸ hk)
      rw [hview, if_neg hne]
      exact hlive k hk)
    refine ⟨fun k => ?_, hlisted, hdata, fun hc => ?_⟩
    · rw [List.foldl_cons, hv, hview]
      by_cases hk : k = key
      · simp only [hk, if_true, List.mem_cons_self, ite_self]
      · simp only [Ne.symm hk, if_false, List.mem_cons, hk, false_or]
    · rw [List.foldl_cons, hcount hc, TableTx.delete, List.length_cons]
      simp only [hc, hl, Bool.and_self, if_true]
      push_cast
      ring

theorem cleared_deleteAll (kind : EngineKind) (s : TableStore) :
    ((TableTx.begin_ s).deleteAll kind).Cleared kind s := by
  have hall := @foldl_delete kind (TableTx.begin_ s) s.rows.keys s.rows.nodup_keys fun k hk =>
    SortedMap.mem_keys.mp hk
  obtain ⟨hv, hlisted, hdata, hcount⟩ := hall
  have hempty : (s.rows.keys.foldl (TableTx.delete kind) (TableTx.begin_ s)).view = .empty := by
    apply SortedMap.ext_get
    intro k
    rw [hv, SortedMap.get_empty]
    split
    · rfl
    · rename_i hk
      exact Option.not_isSome_iff_eq_none.mp fun h => hk (SortedMap.mem_keys.mpr h)
  cases kind with
  | table => exact ⟨rfl, rfl, rfl, (fun h => by cases h), fun h => by cases h⟩
  | kv => exact ⟨hempty, hlisted, hdata, (fun h => by cases h), fun h => by cases h⟩
  | cstore =>
    refine ⟨hempty, hlisted, hdata, fun _ => (hcount rfl).trans ?_, fun h => by cases h⟩
    rw [SortedMap.keys, List.length_map]
    rfl
  | cstore2 => exact ⟨rfl, rfl, rfl, (fun h => by cases h), fun _ => rfl⟩

theorem written_of_full {cells : List Cell} (h : ∀ c ∈ cells, c.isSome) (key : Bytes) :
    tx.written kind key cells = cells := by
  rw [TableTx.written, fillCells_of_full h, ite_self]

/-- Rows under new keys. -/
theorem loadRows_spec {es : List (Bytes × List Cell)} (hne : es.Pairwise fun a b => a.1 ≠ b.1)
    (hnew : ∀ e ∈ es, tx.view.get e.1 = none) (hfull : ∀ e ∈ es, ∀ c ∈ e.2, c.isSome) :
    (∀ k, (tx.loadRows kind es).view.get k = (SortedMap.getEntry k es).or (tx.view.get k)) ∧
    (∀ k, (tx.loadRows kind es).listed.count k = tx.listed.count k + (es.map Prod.fst).count k) ∧
    (tx.loadRows kind es).data = tx.data ∧
    (kind.isColumnar → (tx.loadRows kind es).count = tx.count + es.length) := by
  induction es generalizing tx with
  | nil => exact ⟨fun k => rfl, fun k => rfl, rfl, fun _ => (add_zero tx.count).symm⟩
  | cons e es ih =>
    obtain ⟨hnee, hne⟩ := List.pairwise_cons.mp hne
    obtain ⟨hnewe, hnew⟩ := List.forall_mem_cons.mp hnew
    obtain ⟨hfulle, hfull⟩ := List.forall_mem_cons.mp hfull
    have hput : tx.put kind true e.1 e.2 = { tx with
        view := tx.view.insert e.1 e.2
        listed := tx.listed.orderedInsert (· ≤ ·) e.1
        count := if kind.isColumnar then tx.count + 1 else tx.count } := by
      simp only [TableTx.put, hnewe, written_of_full hfulle, Option.isSome_none, Bool.false_eq_true,
        if_false, Bool.and_true, Bool.not_false]
    obtain ⟨hview, hlisted, hdata, hcount⟩ := @ih (tx.put kind true e.1 e.2) hne (by
      intro e' he'
      rw [hput, SortedMap.get_insert, if_neg (hnee e' he')]
      exact hnew e' he') hfull
    rw [hput] at hview hlisted hdata hcount
    have hcons : tx.loadRows kind (e :: es) = (tx.put kind true e.1 e.2).loadRows kind es := rfl
    rw [hcons, hput]
    refine ⟨fun k => ?_, fun k => ?_, hdata, fun hc => ?_⟩
    · rw [hview, SortedMap.get_insert, SortedMap.getEntry_cons]
      by_cases hk : e.1 = k
      · have hnone : SortedMap.getEntry k es = none :=
          SortedMap.getEntry_eq_none.mpr fun v hv => hnee _ hv hk
        simp only [hk, hnone, if_true, Option.none_or, Option.some_or]
      · simp only [hk, if_false]
    · rw [hlisted, (List.perm_orderedInsert _ _ _).count_eq, List.count_cons, List.map_cons,
        List.count_cons]
      omega
    · rw [hcount hc, if_pos hc, List.length_cons]
      push_cast
      ring

theorem loadData_spec (es : List (Bytes × Bytes)) (tx : TableTx) :
    (tx.loadData es) = { tx with data := es.foldl (fun m e => m.insert e.1 e.2) tx.data } := by
  induction es generalizing tx with
  | nil => rfl
  | cons e es ih => exact ih _

/-- The rows of a backend after the loading. -/
structure TableTx.Loaded (kind : EngineKind) (s s' : TableStore) (tx : TableTx) : Prop where
  view : tx.view = s'.rows
  listed : ∀ k, tx.listed.count k = s.rows.keys.count k + s'.rows.keys.count k
  data : ∀ k, tx.data.get k =
    if kind = .kv then (s'.data.get k).or (s.data.get k) else s.data.get k
  cstore : kind = .cstore →
    tx.count - s'.rows.entries.length = s.count - s.rows.entries.length
  cstore2 : kind = .cstore2 → tx.count = s'.rows.entries.length

theorem TableTx.Cleared.load {s s' : TableStore} (h : tx.Cleared kind s)
    (hfull : ∀ key cells, s'.rows.get key = some cells → ∀ c ∈ cells, c.isSome) :
    (TableTx.load kind s' tx).Loaded kind s s' := by
  have hne : s'.rows.entries.Pairwise fun a b => a.1 ≠ b.1 :=
    s'.rows.ascending.imp fun h => h.ne
  obtain ⟨hview, hlisted, hdata, hcount⟩ := @loadRows_spec kind tx s'.rows.entries hne
    (fun e _ => by rw [h.view, SortedMap.get_empty])
    fun e he => hfull e.1 e.2 (SortedMap.get_eq_some.mpr he)
  rw [TableTx.load, loadData_spec]
  refine ⟨?_, fun k => ?_, fun k => ?_, fun hk => ?_, fun hk => ?_⟩
  · apply SortedMap.ext_get
    intro k
    rw [hview, h.view, SortedMap.get_empty, Option.or_none]
    rfl
  · rw [hlisted, h.listed]
    rfl
  · rw [hdata, h.data, SortedMap.get_foldl_insert]
    split
    · rw [SortedMap.getEntry_reverse (s'.data.ascending.imp fun h => h.ne)]
      rfl
    · rfl
  · rw [hcount (by rw [hk]; rfl), h.cstore hk]
    ring
  · rw [hcount (by rw [hk]; rfl), h.cstore2 hk, zero_add]

/-! ### The scan of a loaded table -/

variable {s s' : TableStore} {t : Table}

theorem TableTx.Loaded.rowEach (h : tx.Loaded kind s s')
    (hfull : ∀ key cells, s'.rows.get key = some cells → ∀ c ∈ cells, c.isSome) :
    tx.rowEach kind = (tx.walked kind).map fun k => (k, s'.rows.get k) := by
  have hrow := @rowEach_of_full tx (by rwa [h.view]) kind
  rwa [h.view] at hrow

/-- The scan can be read unless it lists a cleared row. -/
theorem TableTx.Loaded.reads_iff (h : tx.Loaded t.engine s s') (hs : t.Holds s') :
    t.Reads (tx.rowEach t.engine) ↔
      (t.engine = .kv → ∀ k, (s.rows.get k).isSome → (s'.rows.get k).isSome) := by
  have hfull : ∀ key cells, s'.rows.get key = some cells → ∀ c ∈ cells, c.isSome :=
    fun key cells hget => (hs key cells hget).isSome
  have hreads : t.Reads (tx.rowEach t.engine) ↔
      ∀ k ∈ tx.walked t.engine, (s'.rows.get k).isSome := by
    rw [h.rowEach hfull, Table.Reads, List.forall_mem_map]
    apply forall₂_congr
    intro k _
    cases hk : s'.rows.get k with
    | none => exact iff_of_false (by simp [Table.decodeRow]) (by simp)
    | some cells => exact iff_of_true (hs k cells hk).decodes rfl
  have hlisted (k : Bytes) : k ∈ tx.listed ↔ (s.rows.get k).isSome ∨ (s'.rows.get k).isSome := by
    rw [← SortedMap.mem_keys, ← SortedMap.mem_keys, ← List.count_pos_iff, ← List.count_pos_iff,
      ← List.count_pos_iff, h.listed]
    omega
  rw [hreads]
  cases hkind : t.engine with
  | kv =>
    simp only [TableTx.walked, TableTx.keys, List.mem_filter, hlisted, ne_eq, reduceCtorEq,
      not_false_eq_true, true_or, decide_true, and_true, forall_true_left]
    exact ⟨fun hall k hk => hall k (Or.inl hk), fun hall k hk => hk.elim (hall k) id⟩
  | table | cstore2 =>
    refine iff_of_true (fun k hk => ?_) fun h => by cases h
    have hmem := List.mem_of_mem_filter hk
    rw [TableTx.keys, h.view] at hmem
    exact SortedMap.mem_keys.mp hmem
  | cstore =>
    refine iff_of_true (fun k hk => ?_) fun h => by cases h
    have hlive := of_decide_eq_true (List.mem_filter.mp hk).2
    rw [h.view] at hlive
    exact hlive.resolve_left fun hne => hne rfl

theorem count_keys (m : SortedMap Bytes (List Cell)) (key : Bytes) :
    m.keys.count key = if (m.get key).isSome then 1 else 0 := by
  split
  · rename_i h
    exact List.count_eq_one_of_mem m.nodup_keys (SortedMap.mem_keys.mpr h)
  · rename_i h
    exact List.count_eq_zero_of_not_mem (mt SortedMap.mem_keys.mp h)

/-- A key whose row was cleared and loaded again is listed twice. -/
theorem TableTx.Loaded.count_walked (h : tx.Loaded kind s s') {key : Bytes}
    (hlive : (s'.rows.get key).isSome) : (tx.walked kind).count key =
      if (kind = .kv ∨ kind = .cstore) ∧ (s.rows.get key).isSome then 2 else 1 := by
  have hwalked : (tx.walked kind).count key = (tx.keys kind).count key :=
    List.count_filter (decide_eq_true (Or.inr (by rwa [h.view])))
  have hkeys : s'.rows.keys.count key = 1 := by rw [count_keys, if_pos hlive]
  have hlisted : tx.listed.count key = if (s.rows.get key).isSome then 2 else 1 := by
    rw [h.listed, hkeys, count_keys]
    split <;> rfl
  rw [hwalked]
  cases kind with
  | table | cstore2 =>
    rw [TableTx.keys, h.view, hkeys]
    simp only [reduceCtorEq, or_self, false_and, if_false]
  | kv | cstore =>
    rw [TableTx.keys, hlisted]
    simp only [reduceCtorEq, or_false, false_or, true_and]

theorem count_keysOf (ix : Index) (ks : List Bytes) (m : Bytes → Option (List Cell))
    (enc key : Bytes) : (t.keysOf ix (ks.map fun k => (k, m k)) enc).count key =
      if (m key).bind (t.indexValOf ix) = some enc then ks.count key else 0 := by
  have hkeys : t.keysOf ix (ks.map fun k => (k, m k)) enc =
      ks.filter fun k => (m k).bind (t.indexValOf ix) = some enc := by
    rw [Table.keysOf, List.filter_map, List.map_map]
    exact List.map_id _
  rw [hkeys]
  split
  · rename_i hval
    exact List.count_filter (decide_eq_true hval)
  · rename_i hval
    exact List.count_eq_zero_of_not_mem fun hmem =>
      hval (of_decide_eq_true (List.mem_filter.mp hmem).2)

end

/-! ### Restoring -/

/-- The rows, definitions and granule counts that an engine keeps are those of its catalog. -/
structure Engine.Covers (e : Engine) : Prop where
  defs : ∀ name, e.tables.get name = none → e.defs name = none
  rows : ∀ kind name, (∀ t, e.tables.get name = some t → t.engine ≠ kind) →
    (e.stores kind name).rows = .empty
  counts : ∀ name, (∀ t, e.tables.get name = some t → t.engine ≠ .cstore2) →
    (e.stores .cstore2 name).count = 0

/-- No key-value table with an index loses a row of the engine. -/
def Restorable (S T : Engine) : Prop :=
  ∀ name t, S.tables.get name = some t → t.indexes.entries.isEmpty = false → t.engine = .kv →
    ∀ key, ((T.stores .kv name).rows.get key).isSome → ((S.stores .kv name).rows.get key).isSome

/-- The engine `U` is `S` restored over `T`. -/
structure Restored (S T U : Engine) : Prop where
  defs : ∀ name, U.defs name = (S.tables.get name).map Table.def_
  catalog : ∀ name, (U.tables.get name).map Table.def_ = (S.tables.get name).map Table.def_
  rows : ∀ name t, S.tables.get name = some t →
    (U.stores t.engine name).rows = (S.stores t.engine name).rows
  others : ∀ kind name, (∀ t, S.tables.get name = some t → t.engine ≠ kind) →
    (U.stores kind name).rows = .empty
  /-- The entries that the engine had before stay. -/
  data : ∀ name t, S.tables.get name = some t → ∀ key, (U.stores t.engine name).data.get key =
    if t.engine = .kv then ((S.stores .kv name).data.get key).or ((T.stores .kv name).data.get key)
    else (T.stores t.engine name).data.get key
  otherData : ∀ kind name, (∀ t, S.tables.get name = some t → t.engine ≠ kind) →
    (U.stores kind name).data = (T.stores kind name).data
  /-- A count that was wrong before is as wrong after. -/
  cstore : ∀ name, (U.stores .cstore name).count - (U.stores .cstore name).rows.entries.length =
    (T.stores .cstore name).count - (T.stores .cstore name).rows.entries.length
  cstore2 : ∀ name,
    (U.stores .cstore2 name).count = (U.stores .cstore2 name).rows.entries.length
  /-- A key whose row was there before is listed twice. -/
  entries : ∀ name t index ix, U.tables.get name = some t → t.indexes.get index = some ix →
    ∀ enc key, (ix.entries enc).count key =
      if ((U.stores t.engine name).rows.get key).bind (t.indexValOf ix) = some enc then
        if (t.engine = .kv ∨ t.engine = .cstore) ∧ ((T.stores t.engine name).rows.get key).isSome
        then 2 else 1
      else 0

section

variable {S T : Engine}

/-- The batch once the tables are cleared. -/
def Engine.cleared (T : Engine) : Batch :=
  { T.tables.entries.foldl (fun b e => b.clear e.1 e.2) T.begin_ with tables := .empty }

theorem cleared_spec (hT : T.Covers) (name : Bytes) : T.cleared.defs name = none ∧
    ∀ kind, (T.cleared.txs kind name).Cleared kind (T.stores kind name) := by
  have hslot := slot_clearAll T.begin_ name
  have hbegin {kind : EngineKind} (h : ∀ t, T.tables.get name = some t → t.engine ≠ kind) :
      (TableTx.begin_ (T.stores kind name)).Cleared kind (T.stores kind name) := by
    have hrows := hT.rows kind name h
    refine ⟨hrows, rfl, rfl, fun _ => ?_, fun hk => ?_⟩
    · rw [hrows]
      exact (sub_zero _).symm
    · subst hk
      exact hT.counts name h
  have hdefs : T.cleared.defs name = ((T.tables.get name).elim (T.begin_.slot name) fun t =>
      (T.begin_.slot name).clear t).def_ := congrArg Slot.def_ hslot
  have htxs (kind : EngineKind) : T.cleared.txs kind name = ((T.tables.get name).elim
      (T.begin_.slot name) fun t => (T.begin_.slot name).clear t).txs kind :=
    congrArg (fun s => s.txs kind) hslot
  cases ht : T.tables.get name with
  | none =>
    rw [ht] at hdefs
    refine ⟨hdefs.trans (hT.defs name ht), fun kind => ?_⟩
    rw [htxs, ht]
    exact hbegin fun t hget => by rw [ht] at hget; cases hget
  | some t =>
    rw [ht] at hdefs
    refine ⟨hdefs, fun kind => ?_⟩
    rw [htxs, ht]
    change TableTx.Cleared kind _ (if kind = t.engine then _ else _)
    split
    · rename_i hk
      subst hk
      exact cleared_deleteAll t.engine (T.stores t.engine name)
    · rename_i hk
      apply hbegin
      intro t' hget
      rw [ht] at hget
      cases hget
      exact Ne.symm hk

/-- The batch once the records are applied. -/
def Engine.loaded (S T : Engine) : Batch := T.cleared.loadAll S

theorem slot_loaded (name : Bytes) : (S.loaded T).slot name = (S.tables.get name).elim
    (T.cleared.slot name) fun t => (T.cleared.slot name).loadTable S name t := slot_loadAll _ _

theorem defs_loaded (hT : T.Covers) (name : Bytes) :
    (S.loaded T).defs name = (S.tables.get name).map Table.def_ := by
  have hslot := congrArg Slot.def_ (@slot_loaded S T name)
  cases ht : S.tables.get name with
  | none =>
    rw [ht] at hslot
    exact hslot.trans (cleared_spec hT name).1
  | some t =>
    rw [ht] at hslot
    exact hslot

theorem tables_loaded (name : Bytes) :
    (S.loaded T).tables.get name = (S.tables.get name).map Table.bare := by
  have hslot := congrArg Slot.table (@slot_loaded S T name)
  cases ht : S.tables.get name with
  | none =>
    rw [ht] at hslot
    exact hslot
  | some t =>
    rw [ht] at hslot
    exact hslot

theorem cleared_loaded (hT : T.Covers) {kind : EngineKind} {name : Bytes}
    (h : ∀ t, S.tables.get name = some t → t.engine ≠ kind) :
    ((S.loaded T).txs kind name).Cleared kind (T.stores kind name) := by
  have hslot := congrArg (fun s => s.txs kind) (@slot_loaded S T name)
  have hcleared := (cleared_spec hT name).2 kind
  have htxs : (S.loaded T).txs kind name = T.cleared.txs kind name := by
    refine hslot.trans ?_
    cases ht : S.tables.get name with
    | none => rfl
    | some t => exact if_neg (Ne.symm (h t ht))
  rwa [htxs]

theorem loaded_loaded (hS : S.Storable) (hT : T.Covers) {name : Bytes} {t : Table}
    (ht : S.tables.get name = some t) : ((S.loaded T).txs t.engine name).Loaded t.engine
      (T.stores t.engine name) (S.stores t.engine name) := by
  have hslot := congrArg (fun s => s.txs t.engine) (@slot_loaded S T name)
  have htxs : (S.loaded T).txs t.engine name =
      TableTx.load t.engine (S.stores t.engine name) (T.cleared.txs t.engine name) := by
    refine hslot.trans ?_
    rw [ht]
    exact if_pos rfl
  rw [htxs]
  exact ((cleared_spec hT name).2 t.engine).load fun key cells hget =>
    (hS.holds name t ht key cells hget).isSome

/-- The scans can be read if no row of an indexed key-value table is lost. -/
theorem rebuilds_iff (hS : S.Storable) (hT : T.Covers) :
    (∀ e ∈ (S.loaded T).tables.entries, (S.loaded T).Rebuilds e) ↔ Restorable S T := by
  have hentries (P : Bytes → Table → Prop) :
      (∀ e ∈ (S.loaded T).tables.entries, P e.1 e.2) ↔
        ∀ name t, S.tables.get name = some t → P name t.bare := by
    constructor
    · intro h name t ht
      exact h (name, t.bare) (SortedMap.get_eq_some.mp (by rw [tables_loaded, ht]; rfl))
    · rintro h ⟨name, t'⟩ he
      have hget := SortedMap.get_eq_some.mpr he
      rw [tables_loaded] at hget
      obtain ⟨t, ht, rfl⟩ := Option.map_eq_some_iff.mp hget
      exact h name t ht
  refine (hentries fun name t => (S.loaded T).Rebuilds (name, t)).trans ?_
  apply forall_congr'
  intro name
  apply forall₂_congr
  intro t ht
  have hreads := (loaded_loaded hS hT ht).reads_iff (hS.holds name t ht)
  have hempty : t.bare.indexes.entries.isEmpty = t.indexes.entries.isEmpty := List.isEmpty_map
  change (t.bare.indexes.entries.isEmpty = false → _) ↔ _
  rw [hempty]
  apply imp_congr_right
  intro _
  refine hreads.trans ?_
  apply imp_congr_right
  intro hkv
  rw [hkv]

/-- The engine with the indexes built. -/
def Engine.restored (S T : Engine) : Engine :=
  ((S.loaded T).tables.entries.foldl Batch.rebuild (S.loaded T)).commit

theorem stores_restored (kind : EngineKind) (name : Bytes) :
    (S.restored T).stores kind name = ((S.loaded T).txs kind name).commit := by
  have hslot := congrArg (fun s => s.txs kind) (slot_rebuildAll (S.loaded T) name)
  have htxs : ((S.loaded T).tables.entries.foldl Batch.rebuild (S.loaded T)).txs kind name =
      (S.loaded T).txs kind name := by
    refine hslot.trans ?_
    cases (S.loaded T).tables.get name <;> rfl
  exact congrArg TableTx.commit htxs

theorem defs_restored (name : Bytes) : (S.restored T).defs name = (S.loaded T).defs name := by
  have hslot := congrArg Slot.def_ (slot_rebuildAll (S.loaded T) name)
  refine hslot.trans ?_
  cases (S.loaded T).tables.get name <;> rfl

theorem tables_restored (name : Bytes) : (S.restored T).tables.get name =
    (S.tables.get name).map fun t => t.bare.rebuilt
      (((S.loaded T).txs t.engine name).rowEach t.engine) := by
  have hslot := congrArg Slot.table (slot_rebuildAll (S.loaded T) name)
  rw [tables_loaded] at hslot
  refine hslot.trans ?_
  cases ht : S.tables.get name with
  | none =>
    change (S.loaded T).tables.get name = none
    rw [tables_loaded, ht]
    rfl
  | some t => rfl

/-- The index of a restored table lists the keys of the scan. -/
theorem entries_restored (hS : S.Storable) (hT : T.Covers) (h : Restorable S T) {name index : Bytes}
    {t : Table} {ix : Index} (ht : (S.restored T).tables.get name = some t)
    (hix : t.indexes.get index = some ix) (enc key : Bytes) : (ix.entries enc).count key =
      if ((S.stores t.engine name).rows.get key).bind (t.indexValOf ix) = some enc then
        if (t.engine = .kv ∨ t.engine = .cstore) ∧ ((T.stores t.engine name).rows.get key).isSome
        then 2 else 1
      else 0 := by
  rw [tables_restored] at ht
  obtain ⟨t, hget, rfl⟩ := Option.map_eq_some_iff.mp ht
  have hloaded := loaded_loaded hS hT hget
  have hholds := hS.holds name t hget
  have hscan := hloaded.rowEach fun key cells hkey => (hholds key cells hkey).isSome
  have hindexed : t.indexes.entries.isEmpty = false := by
    cases hempty : t.indexes.entries.isEmpty with
    | false => rfl
    | true =>
      have hbare : t.bare.indexes.entries.isEmpty = true := by rw [← hempty]; exact List.isEmpty_map
      rw [rebuilt_of_isEmpty hbare] at hix
      have hmem := SortedMap.get_eq_some.mp hix
      rw [List.isEmpty_iff.mp hbare] at hmem
      cases hmem
  have hreads : t.bare.Reads (((S.loaded T).txs t.engine name).rowEach t.engine) :=
    (hloaded.reads_iff hholds).mpr fun hkv key => by
      rw [hkv]
      exact h name t hget hindexed hkv key
  rw [Table.rebuilt, get_indexRows hreads] at hix
  obtain ⟨ix, hbare, rfl⟩ := Option.map_eq_some_iff.mp hix
  have hnil : ix.entries enc = [] := by
    rw [Table.bare, SortedMap.get_map] at hbare
    obtain ⟨ix, -, rfl⟩ := Option.map_eq_some_iff.mp hbare
    rfl
  change (ix.entries enc ++ t.bare.keysOf ix _ enc).count key =
    if ((S.stores t.engine name).rows.get key).bind (t.indexValOf ix) = some enc then _ else 0
  rw [hnil, List.nil_append, hscan, count_keysOf]
  change (if ((S.stores t.engine name).rows.get key).bind (t.indexValOf ix) = some enc then _
    else 0) = _
  split
  · rename_i hval
    apply hloaded.count_walked
    obtain ⟨cells, hcells, -⟩ := Option.bind_eq_some_iff.mp hval
    rw [hcells]
    rfl
  · rfl

theorem restored_right (hS : S.Storable) (hT : T.Covers) (h : Restorable S T) :
    Restored S T (S.restored T) where
  defs name := (defs_restored name).trans (defs_loaded hT name)
  catalog name := by
    rw [tables_restored, Option.map_map]
    apply congrArg (fun f => (S.tables.get name).map f)
    ext1 t
    exact (def_rebuilt _ _).trans (def_bare t)
  rows name t ht := by
    rw [stores_restored]
    exact (loaded_loaded hS hT ht).view
  others kind name hno := by
    rw [stores_restored]
    exact (cleared_loaded hT hno).view
  data name t ht key := by
    rw [stores_restored]
    refine ((loaded_loaded hS hT ht).data key).trans ?_
    split
    · rename_i hkv
      rw [hkv]
    · rfl
  otherData kind name hno := by
    rw [stores_restored]
    exact (cleared_loaded hT hno).data
  cstore name := by
    rw [stores_restored]
    by_cases ht : ∃ t, S.tables.get name = some t ∧ t.engine = .cstore
    · obtain ⟨t, ht, hkind⟩ := ht
      have hloaded := loaded_loaded (T := T) hS hT ht
      rw [hkind] at hloaded
      refine Eq.trans ?_ (hloaded.cstore rfl)
      rw [← hloaded.view]
      rfl
    · have hcleared := @cleared_loaded S T hT .cstore name fun t hget hkind => ht ⟨t, hget, hkind⟩
      refine Eq.trans ?_ (hcleared.cstore rfl)
      change TableTx.count _ - (TableTx.view _).entries.length = _
      rw [hcleared.view]
      exact sub_zero _
  cstore2 name := by
    rw [stores_restored]
    by_cases ht : ∃ t, S.tables.get name = some t ∧ t.engine = .cstore2
    · obtain ⟨t, ht, hkind⟩ := ht
      have hloaded := loaded_loaded (T := T) hS hT ht
      rw [hkind] at hloaded
      refine (hloaded.cstore2 rfl).trans ?_
      rw [← hloaded.view]
      rfl
    · have hcleared := @cleared_loaded S T hT .cstore2 name fun t hget hkind => ht ⟨t, hget, hkind⟩
      refine (hcleared.cstore2 rfl).trans ?_
      change (0 : ℤ) = (TableTx.view _).entries.length
      rw [hcleared.view]
      rfl
  entries name t index ix ht hix enc key := by
    have hrows : (S.restored T).stores t.engine name = _ := stores_restored t.engine name
    obtain ⟨t', hget, rfl⟩ := Option.map_eq_some_iff.mp (tables_restored (T := T) name ▸ ht)
    have hview := (loaded_loaded (T := T) hS hT hget).view
    have hcount := entries_restored hS hT h ht hix enc key
    rw [hrows]
    change _ = if (((S.loaded T).txs t'.engine name).view.get key).bind _ = some enc then _ else 0
    rw [hview]
    exact hcount

/-! ### From the bytes -/

theorem fits_of_marshalRecords (hS : S.Storable) {rs : List Bytes} (hrs : marshalRecords S = some rs)
    (hlen : ∀ p ∈ rs, p.length < 2 ^ 32) : ∀ p ∈ rs, Frames.Fits p := by
  intro p hp
  rw [marshalRecords_eq hS] at hrs
  cases hrs
  obtain ⟨e, -, hmem⟩ := List.mem_flatMap.mp hp
  exact ⟨records_ne_nil hmem, hlen p hp⟩

/-- The batch is cleared, loaded with the records and indexed again. -/
theorem exec_replaceState (hS : S.Storable) {rs : List Bytes} (hrs : marshalRecords S = some rs)
    (hlen : ∀ p ∈ rs, p.length < 2 ^ 32) : (do
      clearTables
      applyFramed (Frames.stream Raft.checksumIEEE rs).length (Frames.stream Raft.checksumIEEE rs)
      rebuildIndexes : Exec Unit).exec T.begin_ =
        ((S.loaded T).tables.entries.forM fun e => rebuildTable e.1 e.2).exec (S.loaded T) := by
  have hframes : Frames.payloads Raft.checksumIEEE (Frames.stream Raft.checksumIEEE rs).length
      (Frames.stream Raft.checksumIEEE rs) = (rs, false) :=
    Frames.payloads_stream (fits_of_marshalRecords hS hrs hlen) (Frames.length_le_stream rs)
  have hframed := exec_applyFramed (Frames.stream Raft.checksumIEEE rs).length
    (Frames.stream Raft.checksumIEEE rs) T.cleared
  rw [hframes, Prog.exec_bind_ok (exec_marshalRecords hS hrs hlen T.cleared)] at hframed
  exact (Prog.exec_bind_ok (exec_clearTables T.begin_)).trans (Prog.exec_bind_ok hframed)

end

/-- A key-value table with an index. -/
def indexed : Table :=
  ⟨[⟨ascii "a", .int, false⟩], [0], SortedMap.empty.insert (ascii "i") ⟨[0], fun _ => []⟩, .kv, 0⟩

/-- An engine with that table, which has one row. -/
def oneRow (i : Int64) : Engine where
  defs := fun n => if n = ascii "t" then some indexed.def_ else none
  tables := SortedMap.empty.insert (ascii "t") indexed
  stores := fun kind n =>
    if kind = .kv ∧ n = ascii "t" then
      { TableStore.empty with
        rows := SortedMap.empty.insert [i.toUInt64.toUInt8] [some { typ := .int, i := i }] }
    else .empty

theorem get_oneRow (i : Int64) (name : Bytes) :
    (oneRow i).tables.get name = if name = ascii "t" then some indexed else none := by
  by_cases hn : ascii "t" = name
  · simp only [oneRow, SortedMap.get_insert, hn, if_true]
  · simp only [oneRow, SortedMap.get_insert, hn, Ne.symm hn, if_false, SortedMap.get_empty]

theorem storable_oneRow (i : Int64) : (oneRow i).Storable := by
  constructor
  · intro name t h
    rw [get_oneRow] at h
    split at h
    · cases h
      constructor <;> decide +kernel
    · cases h
  · intro name t h key cells hrow
    rw [get_oneRow] at h
    split at h
    · rename_i hn
      cases h
      subst hn
      change (SortedMap.empty.insert _ [some _]).get key = some cells at hrow
      rw [SortedMap.get_insert] at hrow
      split at hrow
      · cases hrow
        refine ⟨fun _ => some { typ := .int, i := i }, fun c _ => ⟨rfl, ?_⟩, rfl⟩
        exact Nat.two_pow_pos 63
      · cases hrow
    · cases h

theorem covers_oneRow (i : Int64) : (oneRow i).Covers := by
  have hstore {kind : EngineKind} {name : Bytes}
      (h : ∀ t, (oneRow i).tables.get name = some t → t.engine ≠ kind) :
      (oneRow i).stores kind name = .empty := by
    apply if_neg
    rintro ⟨rfl, rfl⟩
    exact h indexed ((get_oneRow i _).trans (if_pos rfl)) rfl
  constructor
  · intro name h
    rw [get_oneRow] at h
    split at h
    · cases h
    · rename_i hn
      exact if_neg hn
  · intro kind name h
    rw [hstore h]
    rfl
  · intro name h
    rw [hstore h]
    rfl

end Ydbgo.Storage
