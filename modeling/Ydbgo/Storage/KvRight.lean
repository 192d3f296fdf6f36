import Ydbgo.Storage.KvMaps

/-! # Key-value tables over whole runs

Every call takes maps that the engine holds to the maps after the call, and so
does every batch, as long as a batch that fails has left the catalog alone. A
scan of raw entries reads the maps if neither of its bounds begins with a
stored key and a NUL.
-/

namespace Ydbgo.Storage

open Sql (Value Stdlib)
open KvBatch (merged)

/-! ### Values of rows -/

section Values

variable {t : Table}

theorem plain_default : ({} : SqlValue).Plain := ⟨rfl, by decide⟩

theorem plain_fromSQLValue {v : Value} (h : Storable v) : (fromSQLValue v).Plain := by
  obtain ⟨hmiss, hlen⟩ := h
  unfold fromSQLValue
  rw [if_neg (by simp [hmiss])]
  split
  iterate 5
    split
    · exact ⟨rfl, by decide⟩
    · exact ⟨rfl, by first | exact hlen | exact Nat.two_pow_pos 63⟩
  all_goals exact ⟨rfl, by decide⟩

theorem storable_getD {row : List Value} (h : ∀ v ∈ row, Storable v) (i : ℕ) :
    Storable ((row[i]?).getD {}) := by
  cases hv : row[i]? with
  | none => exact ⟨rfl, by decide⟩
  | some v => exact h v (List.mem_of_getElem? hv)

/-- A map whose values are plain. -/
def Vals.Plain (vals : Vals) : Prop := ∀ n v, vals n = some v → v.Plain

theorem Vals.Plain.cell {vals : Vals} (h : vals.Plain) (n : Bytes) : (vals.cell n).Plain := by
  rw [Vals.cell]
  cases hv : vals n with
  | none => exact plain_default
  | some v => exact h n v hv

theorem plain_ofList {ws : List (Bytes × SqlValue)} (h : ∀ w ∈ ws, w.2.Plain) :
    (Vals.ofList ws).Plain := fun n v hv => by
  have := SortedMap.mem_of_getEntry hv
  exact h (n, v) (List.mem_reverse.mp this)

theorem plain_ofSQL {row : List (Bytes × Value)} (h : ∀ w ∈ row, Storable w.2) :
    (Vals.ofSQL row).Plain := by
  apply plain_ofList
  intro w hw
  obtain ⟨u, hu, rfl⟩ := List.mem_map.mp hw
  exact plain_fromSQLValue (h u hu)

theorem plain_valsOf {vs : List SqlValue} (h : ∀ v ∈ vs, v.Plain) : (t.valsOf vs).Plain :=
  plain_ofList fun _ hw => h _ (List.of_mem_zip hw).2

theorem plain_merged {set old : Vals} (hset : set.Plain) (hold : old.Plain) :
    (merged set old).Plain := by
  intro n v hv
  rw [merged] at hv
  cases hs : set n with
  | none =>
    rw [hs, Option.none_or] at hv
    exact hold n v hv
  | some w =>
    rw [hs, Option.some_or] at hv
    exact Option.some.inj hv ▸ hset n w hs

theorem plain_valuesOf {vals : Vals} (h : vals.Plain) : ∀ v ∈ t.valuesOf vals, v.Plain := by
  intro v hv
  obtain ⟨c, -, rfl⟩ := List.mem_map.mp hv
  exact h.cell c.name

theorem length_valuesOf (vals : Vals) : (t.valuesOf vals).length = t.cols.length :=
  List.length_map _

theorem rowBlob_eq_joinRow (vals : Vals) :
    t.rowBlob vals = joinRow ((t.valuesOf vals).map appendVariant) := by
  rw [Table.rowBlob_eq, Table.valuesOf, List.map_map]
  rfl

theorem cellBlobs_eq (vals : Vals) : t.cellBlobs vals = (t.valuesOf vals).map appendVariant := by
  rw [Table.valuesOf, List.map_map]
  rfl

theorem rowBlobs_eq {row : List Value} (h : ∀ v ∈ row, Storable v) :
    KvBatch.rowBlobs t row = (t.valuesIn row).map appendVariant := by
  apply List.ext_getElem
  · simp [KvBatch.rowBlobs, Table.valuesIn]
  · intro i _ _
    have hmiss := (storable_getD h i).1
    simp [KvBatch.rowBlobs, Table.valuesIn, hmiss]

theorem plain_valuesIn {row : List Value} (h : ∀ v ∈ row, Storable v) :
    ∀ v ∈ t.valuesIn row, v.Plain := by
  intro v hv
  obtain ⟨i, _, rfl⟩ := List.mem_mapIdx.mp hv
  exact plain_fromSQLValue (storable_getD h i)

end Values

/-! ### Calls on a table -/

/-- A transaction holds the maps of a table, and its keys are plain. -/
structure Holds (name : Bytes) (tx : Tx) (t : MapTable) : Prop where
  coherent : tx.Coherent
  plain : ∀ k ∈ tx.written, PlainKey k
  agrees : TableAgrees name tx.content t

/-- What a call does to a transaction and to the maps of its table. -/
structure Goes (name : Bytes) (tx tx' : Tx) (t t' : MapTable) : Prop where
  store : tx'.store = tx.store
  outside : ∀ k, ¬ InAreas name k → tx'.content k = tx.content k
  schema : t'.schema = t.schema
  holds : Holds name tx' t'

section Steps

variable {name : Bytes} {tx tx' tx'' : Tx} {t t' t'' : MapTable}

theorem Goes.refl (h : Holds name tx t) : Goes name tx tx t t := ⟨rfl, fun _ _ => rfl, rfl, h⟩

theorem Goes.trans (h : Goes name tx tx' t t') (h' : Goes name tx' tx'' t' t'') :
    Goes name tx tx'' t t'' :=
  ⟨h'.store.trans h.store, fun k hk => (h'.outside k hk).trans (h.outside k hk),
    h'.schema.trans h.schema, h'.holds⟩

/-- The separation of the keys of a transaction. -/
theorem Holds.separated (h : Holds name tx t) : Kv.Separated tx.store.keys [] :=
  separated_plain (fun k hk => h.plain k (List.mem_append_left _ hk)) fun _ _ _ => nofun

theorem Holds.plain_put (h : Holds name tx t) {k v : Bytes} (hk : PlainKey k) :
    ∀ k' ∈ (tx.put k v).written, PlainKey k' := by
  rintro k' hk'
  rcases mem_written_put.mp hk' with hk' | rfl
  · exact h.plain k' hk'
  · exact hk

theorem Holds.plain_del (h : Holds name tx t) {k : Bytes} (hk : PlainKey k) :
    ∀ k' ∈ (tx.del k).written, PlainKey k' := by
  rintro k' hk'
  rcases mem_written_del.mp hk' with hk' | rfl
  · exact h.plain k' hk'
  · exact hk

/-- A write of a raw entry, or its deletion. -/
theorem TableAgrees.update_data {content : Bytes → Option Bytes} (h : TableAgrees name content t)
    (key : Bytes) (v : Option Bytes) {data : SortedMap Bytes Bytes}
    (hget : ∀ key', data.get key' = if key = key' then v else t.data.get key')
    (hv : ∀ x, v = some x → x ≠ []) :
    TableAgrees name (Function.update content (kvDataKey name key) v) { t with data := data } := by
  refine ⟨h.plain, fun key' => ?_, fun pk => ?_, fun key' x hx => ?_⟩
  · rw [hget]
    by_cases hk : key = key'
    · subst hk
      simp
    · rw [if_neg hk, Function.update_of_ne (fun he => hk (kvDataKey_inj.mp he).symm), h.data]
  · rw [Function.update_of_ne (kvDataKey_ne_kvRowKey h.plain.1 key pk).symm]
    exact h.rows pk
  · rw [hget] at hx
    split at hx
    · exact hv x hx
    · exact h.values key' x hx

/-- A write of a row, or its deletion. -/
theorem TableAgrees.update_row {content : Bytes → Option Bytes} (h : TableAgrees name content t)
    (pk : Bytes) {blob : Option Bytes} {v : Option Vals} {rows : SortedMap Bytes Vals}
    (hget : ∀ pk', rows.get pk' = if pk = pk' then v else t.rows.get pk')
    (hv : RowAgrees t.schema blob v) :
    TableAgrees name (Function.update content (kvRowKey name pk) blob) { t with rows := rows } := by
  refine ⟨h.plain, fun key => ?_, fun pk' => ?_, h.values⟩
  · rw [Function.update_of_ne (kvDataKey_ne_kvRowKey h.plain.1 key pk)]
    exact h.data key
  · rw [hget]
    by_cases hk : pk = pk'
    · subst hk
      rwa [if_pos rfl, Function.update_self]
    · rw [if_neg hk, Function.update_of_ne (fun he => hk (kvRowKey_inj.mp he).symm)]
      exact h.rows pk'

theorem goes_dataPut (h : Holds name tx t) {key value : Bytes} (hkey : 0 ∉ key)
    (hv : value ≠ []) : Goes name tx (KvTx.dataPut tx name key value) t
      { t with data := t.data.insert key value } := by
  refine ⟨rfl, fun k hk => ?_, rfl, h.coherent.put _ _,
    h.plain_put (.data h.agrees.plain.1 hkey), ?_⟩
  · rw [KvTx.dataPut, content_put, Function.update_of_ne]
    rintro rfl
    exact hk (inAreas_data name key)
  · rw [KvTx.dataPut, content_put]
    refine h.agrees.update_data key (some value) (fun key' => ?_)
      fun x hx => Option.some.inj hx ▸ hv
    rw [SortedMap.get_insert]
    congr

theorem goes_dataDelete (h : Holds name tx t) {key : Bytes} (hkey : 0 ∉ key) :
    Goes name tx (KvTx.dataDelete tx name key) t { t with data := t.data.erase key } := by
  refine ⟨rfl, fun k hk => ?_, rfl, h.coherent.del _, h.plain_del (.data h.agrees.plain.1 hkey), ?_⟩
  · rw [KvTx.dataDelete, content_del, Function.update_of_ne]
    rintro rfl
    exact hk (inAreas_data name key)
  · rw [KvTx.dataDelete, content_del]
    refine h.agrees.update_data key none (fun key' => ?_) nofun
    rw [SortedMap.get_erase]
    congr

theorem goes_rowDelete (h : Holds name tx t) {ks : List SqlValue} (hks : KeyStrings ks) :
    Goes name tx (KvTx.rowDelete tx name (encodeKey ks)) t (t.deleteRow (encodeKey ks)) := by
  refine ⟨rfl, fun k hk => ?_, rfl, h.coherent.del _, h.plain_del (.row h.agrees.plain.1 hks), ?_⟩
  · rw [KvTx.rowDelete, content_del, Function.update_of_ne]
    rintro rfl
    exact hk (inAreas_row name _)
  · rw [KvTx.rowDelete, content_del]
    refine h.agrees.update_row _ (fun pk' => ?_) .none
    rw [SortedMap.get_erase]
    congr

theorem goes_storeRow (h : Holds name tx t) {ks vs : List SqlValue} (hks : KeyStrings ks)
    (hlen : vs.length = t.schema.cols.length) (hvs : ∀ v ∈ vs, v.Plain) :
    Goes name tx (tx.put (kvRowKey name (encodeKey ks)) (joinRow (vs.map appendVariant))) t
      (t.storeRow (encodeKey ks) vs) := by
  refine ⟨rfl, fun k hk => ?_, rfl, h.coherent.put _ _, h.plain_put (.row h.agrees.plain.1 hks), ?_⟩
  · rw [content_put, Function.update_of_ne]
    rintro rfl
    exact hk (inAreas_row name _)
  · rw [content_put]
    refine h.agrees.update_row _ (fun pk' => ?_) (.some hlen hvs)
    rw [SortedMap.get_insert]
    congr

theorem goes_insertRow (h : Holds name tx t) {row : List (Bytes × Value)}
    (hp : t.schema.PlainRow row) :
    Goes name tx (KvBatch.putRow name t.schema tx (.ofSQL row)) t (t.insertRow row) := by
  rw [KvBatch.putRow, KvTx.rowPutCells, cellBlobs_eq]
  exact goes_storeRow h hp.1 (length_valuesOf _) (plain_valuesOf (plain_ofSQL hp.2))

theorem goes_insertValues (h : Holds name tx t) {row : List Value}
    (hp : t.schema.PlainValues row) :
    Goes name tx
      (KvTx.rowPutCells tx name (rowKeyOf t.schema row) (KvBatch.rowBlobs t.schema row)) t
      (t.insertValues row) := by
  rw [KvTx.rowPutCells, rowBlobs_eq hp.2]
  exact goes_storeRow h hp.1 List.length_mapIdx (plain_valuesIn hp.2)

/-- A row of the maps is read back from its blob. -/
theorem Holds.rowGet (h : Holds name tx t) (pk : Bytes) :
    (KvTx.rowGet tx name pk).bind t.schema.decodeBlob = t.rows.get pk ∧
      ∀ old, t.rows.get pk = some old → old.Plain := by
  have hrow := h.agrees.rows pk
  rw [KvTx.rowGet, get_eq_content h.coherent h.separated]
  generalize tx.content (kvRowKey name pk) = blob at hrow
  generalize t.rows.get pk = old at hrow
  cases hrow with
  | none => exact ⟨rfl, nofun⟩
  | some hlen hvs =>
    refine ⟨decodeBlob_joinRow hlen h.agrees.plain.2.2 hvs, ?_⟩
    rintro old ⟨⟩
    exact plain_valsOf hvs

theorem goes_updateRow (h : Holds name tx t) {pk : List SqlValue} {set : Vals}
    (hpk : KeyStrings pk) (hset : set.Plain)
    (hkey : ∀ old, t.rows.get (encodeKey pk) = some old →
      KeyStrings (t.schema.keyNames.map (merged set old).cell)) :
    Goes name tx (KvBatch.updateRow name t.schema (encodeKey pk) set tx) t
      (t.updateRow (encodeKey pk) set) := by
  obtain ⟨hread, hold⟩ := h.rowGet (encodeKey pk)
  rw [KvBatch.updateRow, hread, MapTable.updateRow]
  cases hget : t.rows.get (encodeKey pk) with
  | none => exact .refl h
  | some old =>
    have hvs := plain_valuesOf (t := t.schema) (plain_merged hset (hold old hget))
    have hdel := goes_rowDelete h hpk
    have hput : ∀ {tx' t'}, Goes name tx tx' t t' → Goes name tx
        (KvTx.rowPut tx' name (t.schema.schemaKey (merged set old))
          (t.schema.rowBlob (merged set old))) t
        (t'.storeRow (t.schema.schemaKey (merged set old))
          (t.schema.valuesOf (merged set old))) := by
      intro tx' t' hgo
      have hlen : (t.schema.valuesOf (merged set old)).length = t'.schema.cols.length := by
        rw [hgo.schema, length_valuesOf]
      rw [KvTx.rowPut, rowBlob_eq_joinRow]
      exact hgo.trans (goes_storeRow hgo.holds (hkey old hget) hlen hvs)
    dsimp only
    split
    · exact hput hdel
    · -- the row is overwritten in place
      rename_i hsame
      have hsame := not_not.mp hsame
      have hrows : (t.deleteRow (encodeKey pk)).storeRow (t.schema.schemaKey (merged set old))
          (t.schema.valuesOf (merged set old)) =
          t.storeRow (t.schema.schemaKey (merged set old))
            (t.schema.valuesOf (merged set old)) := by
        simp only [MapTable.storeRow, MapTable.deleteRow, MapTable.mk.injEq, true_and]
        apply SortedMap.ext_get
        intro k
        rw [SortedMap.get_insert, SortedMap.get_insert, SortedMap.get_erase, hsame]
        split <;> rfl
      rw [hrows]
      exact hput (.refl h)

/-- The rows of an insert, one after the other. -/
theorem goes_foldl {α : Type} {f : Table → Tx → α → Tx} {g : MapTable → α → MapTable}
    {P : Table → α → Prop}
    (hstep : ∀ {tx t a}, Holds name tx t → P t.schema a →
      Goes name tx (f t.schema tx a) t (g t a))
    {as : List α} (h : Holds name tx t) (has : ∀ a ∈ as, P t.schema a) :
    Goes name tx (as.foldl (f t.schema) tx) t (as.foldl g t) := by
  induction as generalizing tx t with
  | nil => exact .refl h
  | cons a as ih =>
    have hgo := hstep h (has a List.mem_cons_self)
    have hrest := ih hgo.holds fun b hb => by
      rw [hgo.schema]
      exact has b (List.mem_cons_of_mem a hb)
    rw [hgo.schema] at hrest
    exact hgo.trans hrest

end Steps

/-! ### Calls -/

/-- A batch on a store is where the maps are. -/
structure Mirrors (s : Kv.Store) (b : KvBatch) (m : Maps) : Prop where
  store : b.tx.store = s
  coherent : b.tx.Coherent
  plain : ∀ k ∈ b.tx.written, PlainKey k
  agrees : Agrees b.tables b.tx.content m

section Calls

variable {s : Kv.Store} {b : KvBatch} {m : Maps} {name : Bytes}

theorem exec_getTable_bind {α : Type} (f : Table → KvBatch.Exec α) (b : KvBatch) (name : Bytes) :
    (KvBatch.getTable name >>= f).exec b = match b.tables.get name with
      | some t => (f t).exec b
      | none => (.error (.notFound name), b) := by
  rw [Prog.exec_bind, KvBatch.getTable, Prog.exec_bind_ok (Prog.exec_get b)]
  cases b.tables.get name <;> rfl

/-- A call that changes one table, if it is there. -/
theorem Mirrors.change (h : Mirrors s b m) {α : Type} {f : Table → KvBatch.Exec α}
    {g : MapTable → MapTable}
    (hgo : ∀ t, m.get name = some t → Holds name b.tx t →
      ∃ tx', ((f t.schema).exec b).2 = { b with tx := tx' } ∧ Goes name b.tx tx' t (g t)) :
    Mirrors s ((KvBatch.getTable name >>= f).exec b).2 (m.change name g) := by
  rw [exec_getTable_bind, h.agrees.schemas, Maps.change]
  cases hget : m.get name with
  | none => exact h
  | some t =>
    obtain ⟨tx', he, hgo⟩ := hgo t hget ⟨h.coherent, h.plain, h.agrees.tables name t hget⟩
    simp only [Option.map_some, he]
    exact ⟨hgo.store.trans h.store, hgo.holds.coherent, hgo.holds.plain,
      h.agrees.change hget hgo.outside hgo.schema hgo.holds.agrees⟩

theorem Mirrors.createTable (h : Mirrors s b m) {cols : List ColInfo} (pkNames : List Bytes)
    (retention : Int64) (hn : 0 ∉ name) (hlen : cols.length < 2 ^ 63) :
    Mirrors s ((KvCall.createTable name cols pkNames retention).after b)
      (m.perform (.createTable name cols pkNames retention)) := by
  rw [KvCall.after, KvCall.run, KvBatch.createTable, Prog.exec_bind_ok (Prog.exec_get b),
    h.agrees.schemas, Maps.perform]
  cases hget : m.get name with
  | some t => exact h
  | none => exact ⟨h.store, h.coherent, h.plain, h.agrees.create hget hn rfl hlen⟩

theorem Mirrors.dropTable (h : Mirrors s b m) :
    Mirrors s ((KvCall.dropTable name).after b) (m.perform (.dropTable name)) := by
  rw [KvCall.after, KvCall.run, KvBatch.dropTable, exec_getTable_bind, h.agrees.schemas,
    Maps.perform]
  cases hget : m.get name with
  | none =>
    have hsame : m.erase name = m := by
      apply SortedMap.ext_get
      intro k
      rw [SortedMap.get_erase]
      split
      · rename_i hk
        rw [← hk, hget]
      · rfl
    rw [hsame]
    exact h
  | some t =>
    have hn := (h.agrees.tables name t hget).plain.1
    have hkeys : ∀ k ∈ b.tx.store.keys, PlainKey k := fun k hk =>
      h.plain k (List.mem_append_left _ hk)
    have hdata := cleared_deleteRange h.coherent (kvDataBounds name [] [])
      (separated_area hkeys kvDataTag hn)
    have hrow := cleared_deleteRange hdata.coherent (kvRowBounds name) (by
      rw [hdata.store]
      exact separated_area hkeys kvRowTag hn)
    have hdataIff : ∀ k, ((kvDataBounds name [] []).1 ≤ k ∧ k < (kvDataBounds name [] []).2) ↔
        kvDataPrefix name <+: k := fun k => inArea_iff
    have hrowIff : ∀ k, ((kvRowBounds name).1 ≤ k ∧ k < (kvRowBounds name).2) ↔
        kvRowPrefix name <+: k := fun k => inArea_iff
    refine ⟨hrow.store.trans (hdata.store.trans h.store), hrow.coherent,
      fun k hk => h.plain k (hdata.written (hrow.written hk)), h.agrees.drop hn ?_ ?_⟩
    · intro k hk
      obtain ⟨hd, hr⟩ := not_or.mp hk
      exact (hrow.outside k (mt (hrowIff k).mp hr)).trans (hdata.outside k (mt (hdataIff k).mp hd))
    · rintro k (hd | hr)
      · by_cases hr : kvRowPrefix name <+: k
        · exact hrow.inside k ((hrowIff k).mpr hr)
        · exact (hrow.outside k (mt (hrowIff k).mp hr)).trans
            (hdata.inside k ((hdataIff k).mpr hd))
      · exact hrow.inside k ((hrowIff k).mpr hr)

theorem change_id (m : Maps) (name : Bytes) : m.change name id = m := by
  rw [Maps.change]
  cases hget : m.get name with
  | none => rfl
  | some t => exact SortedMap.insert_eq_self hget

/-- The rows of an insert into a table. -/
theorem Mirrors.insertAll (h : Mirrors s b m) {α : Type} {f : Table → Tx → α → Tx}
    {g : MapTable → α → MapTable} {P : Table → α → Prop}
    (hstep : ∀ {tx t a}, Holds name tx t → P t.schema a →
      Goes name tx (f t.schema tx a) t (g t a))
    {as : List α} (has : ∀ t, m.get name = some t → ∀ a ∈ as, P t.schema a) (n : ℕ) :
    Mirrors s ((do
      let t ← KvBatch.getTable name
      KvBatch.writeTo fun tx => as.foldl (f t) tx
      return n : KvBatch.Exec ℕ).exec b).2 (m.change name fun t => as.foldl g t) :=
  h.change fun t hget hold => ⟨_, rfl, goes_foldl hstep hold (has t hget)⟩

/-- Every call takes the maps to the maps after it. -/
theorem Mirrors.after (h : Mirrors s b m) {call : KvCall} (hp : call.Plain m) :
    Mirrors s (call.after b) (m.perform call) := by
  cases call with
  | createTable name cols pkNames retention => exact h.createTable pkNames retention hp.1 hp.2
  | dropTable name => exact h.dropTable
  | kvPut table key value =>
    refine h.change fun t hget hold => ⟨_, ?_, goes_dataPut hold hp.1 hp.2⟩
    simp [hold.agrees.plain.2.1, KvBatch.writeTo]
  | kvDelete table key =>
    refine h.change fun t hget hold => ⟨_, ?_, goes_dataDelete hold hp⟩
    simp [hold.agrees.plain.2.1, KvBatch.writeTo]
  | batchInsert table rows =>
    change Mirrors s ((KvBatch.batchInsert table rows >>= fun _ => pure ()).exec b).2 _
    rw [Prog.exec_bind_pure_snd, KvBatch.batchInsert, Maps.perform]
    split
    · rename_i hnil
      rw [List.isEmpty_iff.mp hnil]
      exact (change_id m table).symm ▸ h
    · exact h.insertAll (P := Table.PlainRow) (fun hold ha => goes_insertRow hold ha) hp _
  | batchInsertRows table rows =>
    change Mirrors s ((KvBatch.batchInsertRows table rows >>= fun _ => pure ()).exec b).2 _
    rw [Prog.exec_bind_pure_snd, KvBatch.batchInsertRows, Maps.perform]
    split
    · rename_i hnil
      rw [List.isEmpty_iff.mp hnil]
      exact (change_id m table).symm ▸ h
    · exact h.insertAll (P := Table.PlainValues) (fun hold ha => goes_insertValues hold ha) hp _
  | update table pkValues set =>
    exact h.change fun t hget hold => ⟨_, rfl,
      goes_updateRow hold hp.1 (plain_ofSQL hp.2.1) (hp.2.2 t hget)⟩
  | delete table pkValues =>
    exact h.change fun t hget hold => ⟨_, rfl, goes_rowDelete hold hp⟩

end Calls

/-! ### Batches -/

/-- The calls of the batch are plain, a failing batch leaves the catalog as it is, and the store has
a next revision. -/
structure KvUpdate.Fits (s : Kv.Store) (m : Maps) (u : KvUpdate) : Prop where
  plain : PlainCalls u.calls m
  catalog : u.fails = true → ∀ name,
    ((m.performAll u.calls).get name).map MapTable.schema = (m.get name).map MapTable.schema
  revision : s.last + 1 ≠ 0

def KvEngine.run (us : List KvUpdate) (e : KvEngine) : KvEngine := us.foldl KvEngine.updateBatch e

def Maps.run (us : List KvUpdate) (m : Maps) : Maps := us.foldl Maps.update m

/-- Every batch fits where it runs. -/
def KvFitsAlong : List KvUpdate → KvEngine → Maps → Prop
  | [], _, _ => True
  | u :: us, e, m => u.Fits e.store m ∧ KvFitsAlong us (e.updateBatch u) (m.update u)

section Batches

variable {s : Kv.Store} {e : KvEngine} {m : Maps}

theorem Mirrors.performAll {b : KvBatch} (h : Mirrors s b m) {calls : List KvCall}
    (hp : PlainCalls calls m) :
    Mirrors s (calls.foldl (fun b call => call.after b) b) (m.performAll calls) := by
  induction calls generalizing b m with
  | nil => exact h
  | cons call calls ih => exact ih (h.after hp.1) hp.2

theorem mirrors_updateBatch (h : Mirrors e.store e.begin_ m) {u : KvUpdate}
    (hu : u.Fits e.store m) :
    Mirrors (e.updateBatch u).store (e.updateBatch u).begin_ (m.update u) := by
  have hall := h.performAll hu.plain
  rw [KvEngine.updateBatch, Maps.update]
  generalize u.calls.foldl (fun b call => call.after b) e.begin_ = b at hall ⊢
  by_cases hf : u.fails = true
  · rw [if_pos hf, if_pos hf]
    have htables : b.tables = e.tables := SortedMap.ext_get fun name =>
      (hall.agrees.schemas name).trans ((hu.catalog hf name).trans (h.agrees.schemas name).symm)
    rw [htables]
    exact h
  · rw [if_neg hf, if_neg hf]
    obtain ⟨s', hs', hcontent, hkeys⟩ := exists_commit b.tx (by rw [hall.store]; exact hu.revision)
    rw [hs']
    refine ⟨rfl, coherent_begin s', fun k hk => ?_, ?_⟩
    · exact hall.plain k (hkeys (by simpa [KvEngine.begin_] using hk))
    · change Agrees b.tables s'.content _
      rw [hcontent]
      exact hall.agrees

theorem mirrors_empty : Mirrors KvEngine.empty.store KvEngine.empty.begin_ .empty :=
  ⟨rfl, coherent_begin _, nofun,
    ⟨fun _ => rfl, fun _ _ h => (Option.some_ne_none _ h.symm).elim, fun _ _ _ _ => ⟨rfl, rfl⟩⟩⟩

theorem mirrors_run {us : List KvUpdate} (h : Mirrors e.store e.begin_ m)
    (hfit : KvFitsAlong us e m) {us' : List KvUpdate} (hpre : us' <+: us) :
    Mirrors (e.run us').store (e.run us').begin_ (m.run us') := by
  induction us generalizing e m us' with
  | nil =>
    rw [List.prefix_nil.mp hpre]
    exact h
  | cons u us ih =>
    cases us' with
    | nil => exact h
    | cons u' us' =>
      obtain ⟨rfl, htail⟩ := List.cons_prefix_cons.mp hpre
      exact ih (mirrors_updateBatch h hfit.1) hfit.2 htail

end Batches

/-! ### Reads -/

/-- No key ever stored in the table, followed by a NUL, begins a bound of the scan. -/
def KvRead.Fits (s : Kv.Store) : KvRead → Prop
  | .scan table start stop => ∀ key, kvDataKey table key ∈ s.keys →
    ¬ key ++ [0] <+: start ∧ ¬ key ++ [0] <+: stop
  | .get _ _ | .rows _ => True

section Reads

theorem ok_bind {ε α β : Type} (a : α) (f : α → Except ε β) :
    ((Except.ok a : Except ε α) >>= f) = f a := rfl

variable {e : KvEngine} {m : Maps} {name : Bytes} {t : MapTable}

/-- What the store holds of a table between the batches. -/
structure Stores (e : KvEngine) (name : Bytes) (t : MapTable) : Prop where
  keys : ∀ k ∈ e.store.keys, PlainKey k
  agrees : TableAgrees name e.store.content t

theorem Mirrors.stores (h : Mirrors e.store e.begin_ m) (hget : m.get name = some t) :
    e.getTable name = .ok t.schema ∧ Stores e name t := by
  have hschema := h.agrees.schemas name
  rw [hget, Option.map_some] at hschema
  refine ⟨?_, fun k hk => h.plain k (by simpa [KvEngine.begin_] using hk),
    h.agrees.tables name t hget⟩
  rw [KvEngine.getTable, show e.tables.get name = some t.schema from hschema]

theorem Mirrors.getTable_none (h : Mirrors e.store e.begin_ m) (hget : m.get name = none) :
    e.getTable name = .error (.notFound name) := by
  have hschema := h.agrees.schemas name
  rw [hget, Option.map_none] at hschema
  rw [KvEngine.getTable, show e.tables.get name = none from hschema]

theorem Stores.dataGet (h : Stores e name t) (key : Bytes) :
    KvTx.dataGet (Tx.begin e.store) name key = t.data.get key := by
  have hs : Kv.Separated e.store.keys [] := separated_plain h.keys fun _ _ _ => nofun
  rw [KvTx.dataGet, get_eq_content (coherent_begin _) hs]
  exact h.agrees.data key

theorem Stores.dataEach (h : Stores e name t) {start stop : Bytes}
    (hfit : (KvRead.scan name start stop).Fits e.store) :
    KvTx.dataEach (Tx.begin e.store) name start stop =
      (t.data.filter fun k _ =>
        decide (start ≤ k) && (decide (stop = []) || decide (k < stop))).entries := by
  have hn := h.agrees.plain.1
  have hbound : ∀ a ∈ e.store.keys, ∀ x, (∀ key, a = kvDataKey name key → ¬ key ++ [0] <+: x) →
      ¬ a ++ [0] <+: kvDataPrefix name ++ x := by
    intro a ha x hx
    obtain ⟨tag, table, y, ht, rfl⟩ := (h.keys a ha).exists_area
    refine not_prefix_of_areas ht hn fun htag htable => ?_
    subst htag htable
    exact hx y rfl
  have hs : Kv.Separated e.store.keys
      [(kvDataBounds name start stop).1, (kvDataBounds name start stop).2] := by
    refine separated_plain h.keys fun a ha b hb => ?_
    obtain ⟨hlow, hhigh⟩ := (h.keys a ha).not_prefix_bounds kvDataTag hn
    simp only [List.mem_cons, List.not_mem_nil, or_false, kvDataBounds] at hb
    rcases hb with rfl | rfl
    · split
      · exact hbound a ha start fun key he => (hfit key (he ▸ ha)).1
      · exact hlow
    · split
      · exact hbound a ha stop fun key he => (hfit key (he ▸ ha)).2
      · exact hhigh
  have hscan := (scans_each_begin hs List.mem_cons_self
    (List.mem_cons_of_mem _ List.mem_cons_self)).under (kvDataPrefix name)
    fun k hk => prefix_of_dataBounds hk
  have hmap := (t.data.filter fun k _ =>
    decide (start ≤ k) && (decide (stop = []) || decide (k < stop))).scans
  refine hscan.unique ⟨hmap.1, fun k v => ?_⟩
  have hwindow := dataBounds_iff name start stop k
  have hdata := h.agrees.data k
  rw [kvDataKey] at hwindow hdata
  simp only [hmap.2, hwindow, hdata, SortedMap.get_filter, Option.filter_eq_some_iff]
  simp [and_comm]

/-- The blobs of the rows of a table are read as its rows. -/
theorem scanBlobs_eq (lib : Stdlib) {schema : Table} (hcols : schema.cols.length < 2 ^ 63)
    (content : Bytes → Option Bytes) {rows : SortedMap Bytes Vals}
    (hrows : ∀ pk, RowAgrees schema (content pk) (rows.get pk)) {out : List (Bytes × Bytes)}
    (hout : Scans content (fun _ => True) out) :
    scanBlobs lib schema out = rows.entries.map fun e => schema.rowOf lib e.2 := by
  let read (blob : Bytes) : Vals := (schema.decodeBlob blob).getD fun _ => none
  have hread : ∀ pk blob, content pk = some blob →
      schema.decodeBlob blob = some (read blob) ∧ rows.get pk = some (read blob) := by
    intro pk blob hb
    have hrow := hrows pk
    rw [hb] at hrow
    generalize rows.get pk = v at hrow
    cases hrow with
    | some hlen hvs =>
      have hdec := decodeBlob_joinRow hlen hcols hvs
      simp only [read, hdec, Option.getD_some, and_self]
  have hnone : ∀ pk, content pk = none → rows.get pk = none := by
    intro pk hb
    have hrow := hrows pk
    rw [hb] at hrow
    generalize rows.get pk = v at hrow
    cases hrow
    rfl
  have hentries : out.map (fun e => (e.1, read e.2)) = rows.entries := by
    refine Scans.unique ⟨List.pairwise_map.mpr hout.1, fun pk v => ?_⟩ rows.scans
    rw [List.mem_map, true_and]
    constructor
    · rintro ⟨e, he, heq⟩
      obtain ⟨rfl, rfl⟩ := Prod.mk.inj heq
      exact (hread e.1 e.2 ((hout.2 _ _).mp he).2).2
    · intro hv
      cases hb : content pk with
      | none => rw [hnone pk hb] at hv; cases hv
      | some blob =>
        have hv' := (hread pk blob hb).2
        rw [hv] at hv'
        exact ⟨(pk, blob), (hout.2 _ _).mpr ⟨trivial, hb⟩, by rw [Option.some.inj hv']⟩
  have hscan : ∀ es : List (Bytes × Bytes), (∀ e ∈ es, schema.decodeBlob e.2 = some (read e.2)) →
      scanBlobs lib schema es = es.map fun e => schema.rowOf lib (read e.2) := by
    intro es hes
    induction es with
    | nil => rfl
    | cons e es ih =>
      rw [scanBlobs, hes e List.mem_cons_self, List.map_cons,
        ← ih fun e' he' => hes e' (List.mem_cons_of_mem e he')]
  rw [hscan out fun e he => (hread e.1 e.2 ((hout.2 _ _).mp he).2).1, ← hentries, List.map_map]
  rfl

theorem Stores.scan (h : Stores e name t) (lib : Stdlib) :
    scanBlobs lib t.schema (KvTx.rowEach (Tx.begin e.store) name) =
      t.rows.entries.map fun e => t.schema.rowOf lib e.2 := by
  have hs := separated_area h.keys kvRowTag h.agrees.plain.1
  have hscan := (scans_each_begin hs List.mem_cons_self
    (List.mem_cons_of_mem _ List.mem_cons_self)).under (kvRowPrefix name)
    fun k hk => prefix_of_rowBounds hk
  refine scanBlobs_eq lib h.agrees.plain.2.2 (fun pk => e.store.content (kvRowKey name pk))
    h.agrees.rows ⟨hscan.1, fun k v => ?_⟩
  exact (hscan.2 k v).trans (and_congr_left' (iff_true_intro (rowBounds_iff k)))

/-- The engine reads what the maps hold. -/
theorem Mirrors.read (lib : Stdlib) (h : Mirrors e.store e.begin_ m) {r : KvRead}
    (hfit : r.Fits e.store) : e.read lib r = m.read lib r := by
  cases r with
  | get table key =>
    simp only [KvEngine.read, KvEngine.kvGet, Maps.read, Maps.onTable]
    cases hget : m.get table with
    | none =>
      rw [h.getTable_none hget]
      rfl
    | some t =>
      obtain ⟨htable, hst⟩ := h.stores hget
      have hvalue : (if (t.data.get key).getD [] = [] then Sql.nullValue
          else Sql.strValue ((t.data.get key).getD [])) = mapValue (t.data.get key) := by
        cases hv : t.data.get key with
        | none => rfl
        | some v => exact if_neg (hst.agrees.values key v hv)
      rw [htable, ok_bind, if_neg (not_not.mpr hst.agrees.plain.2.1), hst.dataGet, hvalue]
      rfl
  | scan table start stop =>
    simp only [KvEngine.read, KvEngine.kvScan, Maps.read, Maps.onTable]
    cases hget : m.get table with
    | none =>
      rw [h.getTable_none hget]
      rfl
    | some t =>
      obtain ⟨htable, hst⟩ := h.stores hget
      rw [htable, ok_bind, if_neg (not_not.mpr hst.agrees.plain.2.1), hst.dataEach hfit]
      rfl
  | rows table =>
    simp only [KvEngine.read, KvEngine.scan, Maps.read, Maps.onTable]
    cases hget : m.get table with
    | none =>
      rw [h.getTable_none hget]
      rfl
    | some t =>
      obtain ⟨htable, hst⟩ := h.stores hget
      rw [htable, ok_bind, hst.scan]
      rfl

end Reads

/-- After every batch of a run, the engine reads what the maps of the tables hold. -/
theorem reads_kvRun (lib : Stdlib) (us : List KvUpdate)
    (hfit : KvFitsAlong us .empty .empty) (us' : List KvUpdate) (hpre : us' <+: us) (r : KvRead)
    (hr : r.Fits (KvEngine.empty.run us').store) :
    (KvEngine.empty.run us').read lib r = (Maps.run us' .empty).read lib r :=
  (mirrors_run mirrors_empty hfit hpre).read lib hr

/-! ### A run -/

instance (v : SqlValue) : Decidable (KeyString v) := inferInstanceAs (Decidable (_ ∧ _))

instance (v : Value) : Decidable (Storable v) := inferInstanceAs (Decidable (_ ∧ _))

instance (vals : List SqlValue) : Decidable (KeyStrings vals) :=
  inferInstanceAs (Decidable (∀ v ∈ vals, KeyString v))

instance (t : Table) (row : List (Bytes × Value)) : Decidable (t.PlainRow row) :=
  inferInstanceAs (Decidable (_ ∧ ∀ w ∈ row, Storable w.2))

instance (t : Table) (row : List Value) : Decidable (t.PlainValues row) :=
  inferInstanceAs (Decidable (_ ∧ ∀ v ∈ row, Storable v))

instance KvCall.decidablePlain (m : Maps) : (call : KvCall) → Decidable (call.Plain m)
  | createTable _ _ _ _ => inferInstanceAs (Decidable (_ ∧ _))
  | dropTable _ => inferInstanceAs (Decidable True)
  | kvPut _ _ _ => inferInstanceAs (Decidable (_ ∧ _))
  | kvDelete _ key => inferInstanceAs (Decidable (0 ∉ key))
  | batchInsert table rows =>
    inferInstanceAs (Decidable (∀ t ∈ m.get table, ∀ row ∈ rows, t.schema.PlainRow row))
  | batchInsertRows table rows =>
    inferInstanceAs (Decidable (∀ t ∈ m.get table, ∀ row ∈ rows, t.schema.PlainValues row))
  | update table pkValues set =>
    inferInstanceAs (Decidable (KeyStrings (pkValues.map fromSQLValue) ∧
      (∀ w ∈ set, Storable w.2) ∧ ∀ t ∈ m.get table, ∀ old ∈ t.rows.get (encodePK pkValues),
        KeyStrings (t.schema.keyNames.map (merged (.ofSQL set) old).cell)))
  | delete _ pkValues => inferInstanceAs (Decidable (KeyStrings (pkValues.map fromSQLValue)))

instance decidablePlainCalls : (calls : List KvCall) → (m : Maps) → Decidable (PlainCalls calls m)
  | [], _ => inferInstanceAs (Decidable True)
  | call :: calls, m =>
    have := decidablePlainCalls calls (m.perform call)
    inferInstanceAs (Decidable (call.Plain m ∧ PlainCalls calls (m.perform call)))

/-- Two tables with raw entries and rows; one is dropped and created again. -/
def twoKvTables : List KvUpdate :=
  let a := ascii "a"
  let b := ascii "b"
  let k := ascii "k"
  let v := ascii "v"
  let cols : List ColInfo := [⟨k, .string, true⟩, ⟨v, .int, false⟩]
  [⟨[.createTable a cols [k] 0, .createTable b cols [k] 0, .kvPut a k (ascii "1"),
      .kvPut b v (ascii "2"),
      .batchInsert b [[(k, Sql.strValue k), (v, Sql.intValue 3)]],
      .batchInsertRows a [[Sql.strValue v, Sql.intValue 4]]], false⟩,
    ⟨[.dropTable a, .createTable a cols [k] 0, .kvPut a v (ascii "5"),
      .update b [Sql.strValue k] [(k, Sql.strValue v), (v, Sql.intValue 6)],
      .kvDelete b v], false⟩]

theorem kvFitsAlong_twoKvTables : KvFitsAlong twoKvTables .empty .empty :=
  ⟨⟨by decide +kernel, nofun, by decide +kernel⟩, ⟨by decide +kernel, nofun, by decide +kernel⟩,
    trivial⟩

theorem reads_kvRun_twoKvTables :
    (KvEngine.empty.run twoKvTables).read .plain (.scan (ascii "a") [] []) =
        .ok (.entries [(ascii "v", ascii "5")]) ∧
      (KvEngine.empty.run twoKvTables).read .plain (.rows (ascii "b")) =
        .ok (.rows [[Sql.strValue (ascii "v"), Sql.intValue 6]]) := by
  have hread := reads_kvRun .plain twoKvTables kvFitsAlong_twoKvTables twoKvTables List.prefix_rfl
  constructor
  · have hscan : (KvRead.scan (ascii "a") [] []).Fits (KvEngine.empty.run twoKvTables).store :=
      fun key _ => by simp
    exact (hread _ hscan).trans (by decide +kernel)
  · exact (hread (.rows (ascii "b")) trivial).trans (by decide +kernel)

/-- Every call of every batch is plain where it is made. -/
def PlainAlong : List KvUpdate → Maps → Prop
  | [], _ => True
  | u :: us, m => PlainCalls u.calls m ∧ PlainAlong us (m.update u)

/-- A failing batch has dropped the table; and a scan from a stored key and a NUL on shows the entry
of that key. -/
theorem not_reads_kvRun :
    (¬ ∀ us r, PlainAlong us .empty → r.Fits (KvEngine.empty.run us).store →
      (KvEngine.empty.run us).read .plain r = (Maps.run us .empty).read .plain r) ∧
    ¬ ∀ us r, PlainAlong us .empty → (∀ u ∈ us, u.fails = false) →
      (KvEngine.empty.run us).read .plain r = (Maps.run us .empty).read .plain r := by
  let a := ascii "a"
  let create : KvUpdate :=
    ⟨[.createTable a [⟨a, .string, true⟩] [a] 0, .kvPut a a (ascii "1")], false⟩
  constructor
  · intro h
    have := h [create, ⟨[.dropTable a], true⟩] (.get a a)
      ⟨by decide +kernel, by decide +kernel, trivial⟩ trivial
    exact absurd this (by decide +kernel)
  · intro h
    have := h [create] (.scan a (a ++ [0]) []) ⟨by decide +kernel, trivial⟩ (by decide)
    exact absurd this (by decide +kernel)

end Ydbgo.Storage
