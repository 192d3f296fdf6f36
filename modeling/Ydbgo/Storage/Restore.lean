import Ydbgo.Storage.SnapshotCodec

/-! # What a restore does to a batch

A restore goes through the catalog three times: it clears the tables there are, loads the tables
of the snapshot from their records, and builds their indexes again. Each walk changes, for every
table it meets, what the batch holds under the name of that table.
-/

namespace Ydbgo.Storage

open Codec (builderStr builderLen recCreateTable recMutate)

/-! ### Slots -/

/-- What a batch holds under the name of a table. -/
structure Slot where
  def_ : Option TableDef
  table : Option Table
  txs : EngineKind → TableTx

def Batch.slot (b : Batch) (name : Bytes) : Slot :=
  ⟨b.defs name, b.tables.get name, fun kind => b.txs kind name⟩

/-- The transaction on the rows of a backend changes. -/
def Slot.withTx (s : Slot) (kind : EngineKind) (f : TableTx → TableTx) : Slot :=
  { s with txs := fun k => if k = kind then f (s.txs k) else s.txs k }

def Batch.withTx (b : Batch) (kind : EngineKind) (name : Bytes) (f : TableTx → TableTx) : Batch :=
  { b with txs := fun k n => if k = kind ∧ n = name then f (b.txs k n) else b.txs k n }

section

variable {b : Batch} {name : Bytes} {t : Table}

theorem slot_withTx (b : Batch) (kind : EngineKind) (name : Bytes) (f : TableTx → TableTx)
    (n : Bytes) : (b.withTx kind name f).slot n =
      if name = n then (b.slot n).withTx kind f else b.slot n := by
  by_cases hn : name = n
  · simp only [Batch.slot, Batch.withTx, Slot.withTx, hn, and_true, if_true]
  · simp only [Batch.slot, Batch.withTx, hn, Ne.symm hn, and_false, if_false]

theorem slot_withTable (b : Batch) (name : Bytes) (t : Table) (n : Bytes) :
    (b.withTable name t).slot n =
      if name = n then { b.slot n with def_ := some t.def_, table := some t } else b.slot n := by
  by_cases hn : name = n
  · simp only [Batch.slot, Batch.withTable, SortedMap.get_insert, hn, if_true]
  · simp only [Batch.slot, Batch.withTable, SortedMap.get_insert, hn, Ne.symm hn, if_false]

theorem withTx_withTx (b : Batch) (kind : EngineKind) (name : Bytes) (f g : TableTx → TableTx) :
    (b.withTx kind name f).withTx kind name g = b.withTx kind name fun tx => g (f tx) := by
  simp only [Batch.withTx, Batch.mk.injEq, true_and]
  ext k n : 2
  split <;> rfl

theorem withTx_id (b : Batch) (kind : EngineKind) (name : Bytes) :
    (b.withTx kind name fun tx => tx) = b := by
  simp only [Batch.withTx, ite_self]

theorem exec_onTable {f : Table → TableTx → TableTx} (ht : b.tables.get name = some t) :
    (onTable name fun t => modifyTx (f t)).exec b = (.ok (), b.withTx t.engine name (f t)) := by
  have hlive : b.withLive name t ⟨t.indexes, f t (b.tx name t)⟩ = b.withTx t.engine name (f t) := by
    simp only [Batch.withLive, Batch.withTx, SortedMap.insert_eq_self ht, Batch.mk.injEq, true_and]
    ext k n : 2
    split
    · rename_i hk
      rw [hk.1, hk.2]
      rfl
    · rfl
  rw [onTable, Prog.exec_bind_ok (Prog.exec_get b)]
  simp only [ht]
  exact congrArg (Prod.mk (Except.ok ())) hlive

/-! ### Records -/

theorem exec_applyRecord {payload : Bytes} {r : Record} (h : ReadsBack readRecord payload r)
    (hne : payload ≠ []) (b : Batch) : (applyRecord payload).exec b = r.apply.exec b := by
  have hread := h []
  rw [List.append_nil] at hread
  rw [applyRecord, if_neg hne]
  simp only [hread]

/-- The table as its record restores it. -/
def Table.bare (t : Table) : Table :=
  { t with indexes := t.indexes.map fun ix => ⟨ix.cols, fun _ => []⟩ }

theorem map_map_indexes {μ ν : Type} (m : SortedMap Bytes Index) (f : Index → μ) (g : μ → ν) :
    (m.map f).map g = m.map fun ix => g (f ix) := by
  apply SortedMap.ext_get
  intro k
  simp only [SortedMap.get_map, Option.map_map]
  rfl

theorem def_bare (t : Table) : t.bare.def_ = t.def_ := by
  simp only [Table.def_, Table.bare, map_map_indexes]

theorem named_name (kind : EngineKind) : EngineKind.named kind.name = some kind := by
  cases kind <;> decide +kernel

theorem exec_encodeTable (h : t.Numbered) (hlen : (encodeTable name t).length < 2 ^ 32) :
    (applyRecord (encodeTable name t)).exec b = (.ok (), b.withTable name t.bare) := by
  rw [exec_applyRecord (readsBack_table h hlen) (encodeTable_ne_nil name t), Record.apply]
  simp only [named_name, map_map_indexes]
  rfl

theorem exec_encodeMutate (ht : b.tables.get name = some t) {values : SortedMap Bytes SqlValue}
    {key : Bytes} (hplain : ∀ e ∈ values.entries, e.2.Plain)
    (hlen : (Codec.encodeMutate name key values).length < 2 ^ 32) :
    (applyRecord (Codec.encodeMutate name key values)).exec b =
      (.ok (), b.withTx t.engine name fun tx =>
        tx.put t.engine true key (t.encodeRowCells values.get)) := by
  rw [exec_applyRecord (readsBack_mutation hplain hlen) (encodeMutate_ne_nil name key values),
    Record.apply]
  exact exec_onTable (f := fun t tx => tx.put t.engine true key (t.encodeRowCells values.get)) ht

theorem exec_encodeKVData (ht : b.tables.get name = some t) (hkv : t.engine = .kv)
    {key value : Bytes} (hlen : (encodeKVData name key value).length < 2 ^ 32) :
    (applyRecord (encodeKVData name key value)).exec b =
      (.ok (), b.withTx t.engine name fun tx => { tx with data := tx.data.insert key value }) := by
  have hon := exec_onTable (f := fun _ tx => { tx with data := tx.data.insert key value }) ht
  rw [exec_applyRecord (readsBack_kvData hlen) (encodeKVData_ne_nil name key value),
    Record.apply, ← hon]
  simp only [onTable, Prog.exec_bind_ok (Prog.exec_get b), ht, hkv, if_true]

/-! ### The records of a table -/

def TableTx.loadRows (kind : EngineKind) (es : List (Bytes × List Cell)) (tx : TableTx) : TableTx :=
  es.foldl (fun tx e => tx.put kind true e.1 e.2) tx

def TableTx.loadData (es : List (Bytes × Bytes)) (tx : TableTx) : TableTx :=
  es.foldl (fun tx e => { tx with data := tx.data.insert e.1 e.2 }) tx

/-- What the records of a table put into its backend. -/
def TableTx.load (kind : EngineKind) (s : TableStore) (tx : TableTx) : TableTx :=
  (tx.loadRows kind s.rows.entries).loadData (if kind = .kv then s.data.entries else [])

/-- Records that each change the rows of one table. -/
theorem exec_records {α : Type} {payload : α → Bytes} {g : TableTx → α → TableTx} {as : List α}
    {kind : EngineKind} (h : ∀ a ∈ as, ∀ b : Batch, b.tables.get name = some t →
      (applyRecord (payload a)).exec b = (.ok (), b.withTx kind name fun tx => g tx a))
    (ht : b.tables.get name = some t) : ((as.map payload).forM applyRecord).exec b =
      (.ok (), b.withTx kind name fun tx => as.foldl g tx) := by
  induction as generalizing b with
  | nil => exact congrArg (Prod.mk _) (withTx_id b kind name).symm
  | cons a as ih =>
    obtain ⟨ha, has⟩ := List.forall_mem_cons.mp h
    have hrest := @ih (b.withTx kind name fun tx => g tx a) has ht
    rw [withTx_withTx] at hrest
    exact (Prog.exec_bind_ok (ha b ht)).trans hrest

/-- The rows of the table are as `encodeRow` writes them. -/
def Table.Holds (t : Table) (s : TableStore) : Prop :=
  ∀ key cells, s.rows.get key = some cells → t.Writes cells

theorem mapM_of_forall {α β : Type} {f : α → Option β} {g : α → β} {as : List α}
    (h : ∀ a ∈ as, f a = some (g a)) : as.mapM f = some (as.map g) := by
  induction as with
  | nil => rfl
  | cons a as ih =>
    obtain ⟨ha, has⟩ := List.forall_mem_cons.mp h
    rw [List.mapM_cons, ha, ih has]
    rfl

/-- A transaction reads a row that has all its cells. -/
theorem get_of_full {tx : TableTx} (h : ∀ key cells, tx.view.get key = some cells →
    ∀ c ∈ cells, c.isSome) (kind : EngineKind) (key : Bytes) :
    tx.get kind key = tx.view.get key := by
  cases kind with
  | cstore =>
    cases hv : tx.view.get key with
    | none => rw [TableTx.get, hv, Option.filter_none]
    | some cells => rw [TableTx.get, hv, Option.filter_some, if_pos (List.all_eq_true.mpr (h key cells hv))]
  | _ => rfl

/-- The keys that a walk over the rows calls back with. -/
def TableTx.walked (kind : EngineKind) (tx : TableTx) : List Bytes :=
  (tx.keys kind).filter fun k => kind ≠ .cstore ∨ (tx.view.get k).isSome

theorem rowEach_of_full {tx : TableTx} (h : ∀ key cells, tx.view.get key = some cells →
    ∀ c ∈ cells, c.isSome) (kind : EngineKind) :
    tx.rowEach kind = (tx.walked kind).map fun k => (k, tx.view.get k) := by
  have hget := get_of_full h kind
  unfold TableTx.rowEach TableTx.walked
  split
  · simp only [hget]
    induction tx.keys .cstore with
    | nil => rfl
    | cons k ks ih =>
      rw [List.filterMap_cons, List.filter_cons, ih]
      cases hk : tx.view.get k with
      | none => rfl
      | some cells => simp [hk]
  · rename_i hkind
    have hall : (tx.keys kind).filter (fun k => kind ≠ .cstore ∨ (tx.view.get k).isSome) =
        tx.keys kind := List.filter_eq_self.mpr fun k _ => decide_eq_true (Or.inl hkind)
    rw [hall]
    simp only [hget]

/-- The map of a row that a record carries. -/
def Table.rowValues (t : Table) (cells : List Cell) : SortedMap Bytes SqlValue :=
  (t.rowMap (some cells)).getD .empty

theorem rowEach_begin {s : TableStore} (h : ∀ key cells, s.rows.get key = some cells →
    ∀ c ∈ cells, c.isSome) (kind : EngineKind) :
    (TableTx.begin_ s).rowEach kind = s.rows.entries.map fun e => (e.1, some e.2) := by
  have hkeys : (TableTx.begin_ s).keys kind = s.rows.keys := by cases kind <;> rfl
  have hwalked : (TableTx.begin_ s).walked kind = s.rows.keys := by
    rw [TableTx.walked, hkeys, List.filter_eq_self]
    intro k hk
    exact decide_eq_true (Or.inr (SortedMap.mem_keys.mp hk))
  rw [rowEach_of_full h kind, hwalked, SortedMap.keys, List.map_map]
  apply List.map_congr_left
  intro e he
  exact congrArg (Prod.mk e.1) (SortedMap.get_eq_some.mpr he)

/-- The records of a table whose rows can be read. -/
def Table.records (t : Table) (name : Bytes) (s : TableStore) : List Bytes :=
  encodeTable name t ::
    ((s.rows.entries.map fun e => Codec.encodeMutate name e.1 (t.rowValues e.2)) ++
      if t.engine = .kv then s.data.entries.map fun e => encodeKVData name e.1 e.2 else [])

theorem records_ne_nil {s : TableStore} {p : Bytes} (h : p ∈ t.records name s) : p ≠ [] := by
  rcases List.mem_cons.mp h with rfl | h
  · exact encodeTable_ne_nil name t
  · rcases List.mem_append.mp h with h | h
    · obtain ⟨e, -, rfl⟩ := List.mem_map.mp h
      exact encodeMutate_ne_nil _ _ _
    · split at h
      · obtain ⟨e, -, rfl⟩ := List.mem_map.mp h
        exact encodeKVData_ne_nil _ _ _
      · cases h

theorem marshalTable_eq {s : TableStore} (h : t.Holds s) :
    marshalTable name t s = some (t.records name s) := by
  have hrows : (s.rows.entries.map fun e => (e.1, some e.2)).mapM (fun e =>
      (t.rowMap e.2).map (Codec.encodeMutate name e.1)) = some (s.rows.entries.map fun e =>
        Codec.encodeMutate name e.1 (t.rowValues e.2)) := by
    rw [mapM_of_forall (g := fun e =>
      Codec.encodeMutate name e.1 ((t.rowMap e.2).getD .empty)), List.map_map]
    · rfl
    · intro e he
      obtain ⟨e, hmem, rfl⟩ := List.mem_map.mp he
      obtain ⟨m, hm, -⟩ := (h e.1 e.2 (SortedMap.get_eq_some.mpr hmem)).rowMap
      simp only [hm, Option.map_some, Option.getD_some]
  have hfull : ∀ key cells, s.rows.get key = some cells → ∀ c ∈ cells, c.isSome :=
    fun key cells hget => (h key cells hget).isSome
  rw [marshalTable, rowEach_begin hfull, hrows]
  rfl

/-- The records of a table bring it back with its rows and entries over those there are. -/
theorem exec_marshalTable {s : TableStore} (hn : t.Numbered) (h : t.Holds s) {ps : List Bytes}
    (hps : marshalTable name t s = some ps) (hlen : ∀ p ∈ ps, p.length < 2 ^ 32) (b : Batch) :
    (ps.forM applyRecord).exec b = (.ok (), (b.withTable name t.bare).withTx t.engine name
      (TableTx.load t.engine s)) := by
  rw [marshalTable_eq h] at hps
  cases hps
  obtain ⟨htable, hlen⟩ := List.forall_mem_cons.mp hlen
  obtain ⟨hrows, hdata⟩ := List.forall_mem_append.mp hlen
  have ht : (b.withTable name t.bare).tables.get name = some t.bare := by
    rw [Batch.withTable, SortedMap.get_insert, if_pos rfl]
  have hputs : ((s.rows.entries.map fun e =>
      Codec.encodeMutate name e.1 (t.rowValues e.2)).forM applyRecord).exec
        (b.withTable name t.bare) = (.ok (), (b.withTable name t.bare).withTx t.engine name
          (TableTx.loadRows t.engine s.rows.entries)) := by
    apply exec_records _ ht
    intro e he b hb
    obtain ⟨m, hm, hplain, hcells⟩ := (h e.1 e.2 (SortedMap.get_eq_some.mpr he)).rowMap
    have hvalues : t.rowValues e.2 = m := by rw [Table.rowValues, hm, Option.getD_some]
    have hfits := hrows _ (List.mem_map_of_mem he)
    rw [hvalues] at hfits ⊢
    rw [exec_encodeMutate hb hplain hfits, ← hcells]
    rfl
  have hentries : ∀ b : Batch, b.tables.get name = some t.bare →
      ((if t.engine = .kv then s.data.entries.map fun e => encodeKVData name e.1 e.2
        else []).forM applyRecord).exec b = (.ok (), b.withTx t.engine name
          (TableTx.loadData (if t.engine = .kv then s.data.entries else []))) := by
    intro b hb
    split
    · rename_i hkv
      rw [if_pos hkv] at hdata
      apply exec_records _ hb
      intro e he b hb
      exact exec_encodeKVData hb hkv (hdata _ (List.mem_map_of_mem he))
    · exact congrArg (Prod.mk _) (withTx_id b t.engine name).symm
  have hload := hentries ((b.withTable name t.bare).withTx t.engine name
    (TableTx.loadRows t.engine s.rows.entries)) ht
  rw [withTx_withTx] at hload
  refine (Prog.exec_bind_ok (exec_encodeTable hn htable)).trans ?_
  rw [Prog.exec_forM_append, Prog.exec_bind_ok hputs, hload]
  rfl

end

/-! ### All tables -/

/-- An engine whose snapshot can be written and read. -/
structure Engine.Storable (e : Engine) : Prop where
  numbered : ∀ name t, e.tables.get name = some t → t.Numbered
  holds : ∀ name t, e.tables.get name = some t → t.Holds (e.stores t.engine name)

def Batch.loadTable (S : Engine) (b : Batch) (e : Bytes × Table) : Batch :=
  (b.withTable e.1 e.2.bare).withTx e.2.engine e.1 (TableTx.load e.2.engine (S.stores e.2.engine e.1))

def Batch.loadAll (S : Engine) (b : Batch) : Batch := S.tables.entries.foldl (Batch.loadTable S) b

/-- What a restored table has under its name. -/
def Slot.loadTable (S : Engine) (name : Bytes) (t : Table) (s : Slot) : Slot :=
  { s with def_ := some t.def_, table := some t.bare }.withTx t.engine
    (TableTx.load t.engine (S.stores t.engine name))

section

variable {S : Engine}

theorem marshalRecords_eq (h : S.Storable) : marshalRecords S = some
    (S.tables.entries.flatMap fun e => e.2.records e.1 (S.stores e.2.engine e.1)) := by
  rw [marshalRecords, mapM_of_forall fun e he => marshalTable_eq
    (h.holds e.1 e.2 (SortedMap.get_eq_some.mpr he)), Option.map_some, List.flatMap_def]

theorem exec_marshalRecords (h : S.Storable) {rs : List Bytes} (hrs : marshalRecords S = some rs)
    (hlen : ∀ p ∈ rs, p.length < 2 ^ 32) (b : Batch) :
    (rs.forM applyRecord).exec b = (.ok (), b.loadAll S) := by
  obtain ⟨pss, hpss, rfl⟩ := Option.map_eq_some_iff.mp hrs
  clear hrs
  have hmem : ∀ e ∈ S.tables.entries, S.tables.get e.1 = some e.2 := fun e he =>
    SortedMap.get_eq_some.mpr he
  unfold Batch.loadAll
  generalize S.tables.entries = es at hmem hpss
  induction es generalizing pss b with
  | nil =>
    cases hpss
    rfl
  | cons e es ih =>
    obtain ⟨he, hes⟩ := List.forall_mem_cons.mp hmem
    rw [List.mapM_cons] at hpss
    obtain ⟨ps, hps, hpss⟩ := Option.bind_eq_some_iff.mp hpss
    obtain ⟨pss', hpss', heq⟩ := Option.bind_eq_some_iff.mp hpss
    cases heq
    obtain ⟨hfirst, hrest⟩ := List.forall_mem_append.mp hlen
    have hfirst := exec_marshalTable (h.numbered _ _ he) (h.holds _ _ he) hps hfirst b
    rw [List.flatten_cons, Prog.exec_forM_append, Prog.exec_bind_ok hfirst]
    exact ih _ _ hrest hes hpss'

theorem slot_loadTable (b : Batch) (e : Bytes × Table) (n : Bytes) :
    (b.loadTable S e).slot n = if e.1 = n then (b.slot n).loadTable S e.1 e.2 else b.slot n := by
  rw [Batch.loadTable, slot_withTx, slot_withTable, def_bare]
  split <;> rfl

theorem slot_loadAll (b : Batch) (n : Bytes) : (b.loadAll S).slot n =
    (S.tables.get n).elim (b.slot n) fun t => (b.slot n).loadTable S n t := by
  apply @SortedMap.foldl_entries _ _ _ _ _ Batch.slot _ fun e => Slot.loadTable S e.1 e.2
  · exact fun b e => (slot_loadTable b e e.1).trans (if_pos rfl)
  · exact fun b e n hn => (slot_loadTable b e n).trans (if_neg hn)

end

/-! ### Clearing -/

def Slot.clear (t : Table) (s : Slot) : Slot :=
  { s with def_ := none }.withTx t.engine (TableTx.deleteAll t.engine)

theorem exec_clearTables (b : Batch) : clearTables.exec b =
    (.ok (), { b.tables.entries.foldl (fun b e => b.clear e.1 e.2) b with tables := .empty }) := by
  have hloop : (b.tables.entries.forM fun e =>
      (modify fun b : Batch => b.clear e.1 e.2 : Exec Unit)).exec b =
        (.ok (), b.tables.entries.foldl (fun b e => b.clear e.1 e.2) b) :=
    Prog.exec_forM_ok (P := fun _ => True) (fun _ _ _ _ => ⟨rfl, trivial⟩) trivial
  rw [clearTables, Prog.exec_bind_ok (Prog.exec_get b), Prog.exec_bind_ok hloop]
  rfl

theorem slot_clear (b : Batch) (e : Bytes × Table) (n : Bytes) :
    (b.clear e.1 e.2).slot n = if e.1 = n then (b.slot n).clear e.2 else b.slot n := by
  by_cases hn : e.1 = n
  · simp only [Batch.slot, Batch.clear, Slot.clear, Slot.withTx, hn, and_true, if_true, Slot.mk.injEq,
      true_and]
    ext k : 1
    split
    · rename_i hk
      rw [hk]
    · rfl
  · simp only [Batch.slot, Batch.clear, hn, Ne.symm hn, and_false, if_false]

theorem slot_clearAll (b : Batch) (n : Bytes) :
    (b.tables.entries.foldl (fun b e => b.clear e.1 e.2) b).slot n =
      (b.tables.get n).elim (b.slot n) fun t => (b.slot n).clear t := by
  apply @SortedMap.foldl_entries _ _ _ _ _ Batch.slot _ fun e => Slot.clear e.2
  · exact fun b e => (slot_clear b e e.1).trans (if_pos rfl)
  · exact fun b e n hn => (slot_clear b e n).trans (if_neg hn)

/-! ### Frames -/

def crcMismatch : ExecError := .msg (ascii "snapshot: crc mismatch")

theorem exec_applyFramed (n : ℕ) (data : Bytes) (b : Batch) : (applyFramed n data).exec b =
    ((Frames.payloads Raft.checksumIEEE n data).1.forM applyRecord >>= fun _ =>
      if (Frames.payloads Raft.checksumIEEE n data).2 then throw crcMismatch
      else return ()).exec b := by
  induction n generalizing data b with
  | zero => rfl
  | succ n ih =>
    rw [applyFramed, Frames.payloads]
    cases Frames.front Raft.checksumIEEE data with
    | stop => rfl
    | mismatch => rfl
    | payload p rest =>
      change (applyRecord p >>= fun _ => applyFramed n rest).exec b =
        ((applyRecord p >>= fun _ => (Frames.payloads Raft.checksumIEEE n rest).1.forM applyRecord)
          >>= fun _ => if (Frames.payloads Raft.checksumIEEE n rest).2 then throw crcMismatch
            else pure ()).exec b
      rw [Prog.exec_bind, Prog.exec_bind, Prog.exec_bind]
      obtain ⟨_ | _, b'⟩ := (applyRecord p).exec b
      · rfl
      · exact (ih rest b').trans (Prog.exec_bind _ _ _)

end Ydbgo.Storage
