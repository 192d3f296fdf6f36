import Ydbgo.Lib.Replay
import Ydbgo.Raft.Fsm
import Ydbgo.Sql.InsertRight
import Ydbgo.Sql.StatementsRight

/-! # Statements as commands

What a statement does to its table: to the rows, key by key, to the key-value
entries and to the list of indexes. Statements whose WHERE and SET read no
column that one of them assigns may be replayed.
-/

namespace Ydbgo.Raft

open Sql (Stdlib Value Expr SetItem Statement ColumnDef TableSchema Gives selects assigned)

open Storage (Table ColInfo EngineKind)

/-- The rows of a table, its key-value entries and the columns of its indexes. -/
abbrev Content : Type :=
  (Bytes → Option (List Value)) × (Bytes → Option Bytes) × (Bytes → Option (List ℕ))

/-- A command on a table, described by its columns, key and backend. -/
abbrev TableCommand : Type := Command Table Content

def setRows (f : Table → Bytes → Option (List Value) → Option (List Value)) : TableCommand :=
  .change fun t c => (fun key => f t key (c.1 key), c.2.1, c.2.2)

def setData (f : Table → Bytes → Option Bytes → Option Bytes) : TableCommand :=
  .change fun t c => (c.1, fun key => f t key (c.2.1 key), c.2.2)

def setIndexes (f : Table → Bytes → Option (List ℕ) → Option (List ℕ)) : TableCommand :=
  .change fun t c => (c.1, c.2.1, fun name => f t name (c.2.2 name))

/-- The table that CREATE TABLE makes. -/
def newTable (columns : List ColumnDef) (pk : List Bytes) (engine : Bytes) (retention : Int64) :
    Table :=
  let cols := (Sql.primaryColumns columns pk).map fun c =>
    (⟨c.name, Storage.fromSQLType c.type, c.notNull⟩ : ColInfo)
  let pkNames := ((Sql.primaryColumns columns pk).filter ColumnDef.asPrimary).map ColumnDef.name
  ⟨cols, pkNames.flatMap fun p =>
      (List.range cols.length).filter fun i => (cols[i]?).map ColInfo.name = some p,
    .empty, EngineKind.ofName (Sql.engineOf engine), retention⟩

/-- The columns of an index that can be created. -/
def indexColumns (t : Table) : List Bytes → Option (List ℕ)
  | [c] => (t.colNamed c).map fun i => [i]
  | _ => none

/-- The columns of an index after CREATE INDEX. -/
def createIndexAt (name : Bytes) (columns : List Bytes) (t : Table) (n : Bytes)
    (cols : Option (List ℕ)) : Option (List ℕ) :=
  if n = name then cols.or (indexColumns t columns) else cols

/-- The columns of an index after DROP INDEX. -/
def dropIndexAt (name : Bytes) (_ : Table) (n : Bytes) (cols : Option (List ℕ)) :
    Option (List ℕ) :=
  if n = name then none else cols

/-- The entry at a key after a KV statement gave its key this value or none. -/
def kvSetAt (key : Bytes) (value : Option Bytes) (t : Table) (k : Bytes) (v : Option Bytes) :
    Option Bytes :=
  if t.engine = .kv ∧ k = key then value else v

variable (lib : Stdlib)

/-- The values that an INSERT evaluates to. -/
def insertValues (t : Table) (name : Bytes) (columns : List Bytes) (rows : List (List Expr)) :
    List (List (Bytes × Value)) :=
  match (Sql.insertRows lib (t.schema name) columns rows).run with
  | some (.ok wss) => wss
  | _ => []

/-- The row at a key after an INSERT. -/
def insertAt (table : Bytes) (columns : List Bytes) (rows : List (List Expr)) (t : Table)
    (key : Bytes) (row : Option (List Value)) : Option (List Value) :=
  (SortedMap.getEntry key
    (Sql.insertedRows lib t (insertValues lib t table columns rows)).reverse).or row

/-- The row at a key after an UPDATE. -/
def updateAt (table : Bytes) (sets : List SetItem) (where_ : Expr) (t : Table) (key : Bytes)
    (row : Option (List Value)) : Option (List Value) :=
  row.map fun row =>
    if Sql.updateHit lib (t.schema table) t.engine where_ key row then
      Sql.newRow lib (t.schema table) sets row
    else row

/-- The row at a key after a DELETE. -/
def deleteAt (table : Bytes) (where_ : Expr) (t : Table) (key : Bytes)
    (row : Option (List Value)) : Option (List Value) :=
  row.filter fun row => !Sql.deleteHit lib (t.schema table) t.engine where_ key row

/-- The table of a statement, and what the statement does to it. -/
def command : Statement → Option (Bytes × TableCommand)
  | .createTable name columns pk _ engine retention =>
    some (name, .create (newTable columns pk engine retention)
      (fun _ => none, fun _ => none, fun _ => none))
  | .dropTable name _ => some (name, .drop)
  | .createIndex name table columns _ =>
    some (table, setIndexes (createIndexAt name columns))
  | .dropIndex name table _ => some (table, setIndexes (dropIndexAt name))
  | .insert table columns rows => some (table, setRows (insertAt lib table columns rows))
  | .update table sets where_ => some (table, setRows (updateAt lib table sets where_))
  | .delete table where_ => some (table, setRows (deleteAt lib table where_))
  | .kvPut table key value => some (table, setData (kvSetAt key (some value)))
  | .kvDelete table key => some (table, setData (kvSetAt key none))
  | _ => none

/-- The commands of a log on one table. -/
def commandsOn (name : Bytes) (stmts : Entry) : List TableCommand :=
  stmts.filterMap fun st => (command lib st.1).bind fun p => if p.1 = name then some p.2 else none

/-- The columns that a statement reads to find rows or to compute values, with their table. -/
def reads : Statement → List (Bytes × Bytes)
  | .update table sets where_ => (Sql.updateRefColumns sets where_).map (Prod.mk table)
  | .delete table where_ => where_.idents.map (Prod.mk table)
  | _ => []

/-- The columns that a statement assigns, with their table. -/
def assigns : Statement → List (Bytes × Bytes)
  | .update table sets _ => sets.map fun item => (table, item.column)
  | _ => []

/-- No statement reads a column that one of them assigns. -/
def ReadsUnassigned (stmts : Entry) : Prop :=
  ∀ st ∈ stmts, ∀ st' ∈ stmts, ∀ p ∈ reads st.1, p ∉ assigns st'.1

/-! ### Rows that agree on some columns -/

section Agree

variable {lib} {schema : TableSchema} {row row' : List Value}

theorem getEntry_zip_congr {n : Bytes} {ks : List Bytes} {vs vs' : List Value}
    (h : ∀ i : ℕ, ks[i]? = some n → vs[i]? = vs'[i]?) :
    SortedMap.getEntry n (ks.zip vs).reverse = SortedMap.getEntry n (ks.zip vs').reverse := by
  induction ks generalizing vs vs' with
  | nil => rfl
  | cons k ks ih =>
    have htail := fun (ws ws' : List Value) (hws : ∀ i : ℕ, vs[i + 1]? = ws[i]?)
        (hws' : ∀ i : ℕ, vs'[i + 1]? = ws'[i]?) => @ih ws ws' fun i hi => by
      rw [← hws, ← hws']
      exact h (i + 1) hi
    have hhead := h 0
    cases vs with
    | nil =>
      cases vs' with
      | nil => rfl
      | cons v' vs' =>
        have hnil := htail [] vs' (fun _ => rfl) fun _ => rfl
        rw [List.zip_cons_cons, List.reverse_cons, SortedMap.getEntry_append, ← hnil,
          SortedMap.getEntry_cons, if_neg fun hk => by simp [hk] at hhead]
        simp
    | cons v vs =>
      cases vs' with
      | nil =>
        have hnil := htail vs [] (fun _ => rfl) fun _ => rfl
        rw [List.zip_cons_cons, List.reverse_cons, SortedMap.getEntry_append, hnil,
          SortedMap.getEntry_cons, if_neg fun hk => by simp [hk] at hhead]
        simp
      | cons v' vs' =>
        rw [List.zip_cons_cons, List.zip_cons_cons, List.reverse_cons, List.reverse_cons,
          SortedMap.getEntry_append, SortedMap.getEntry_append,
          htail vs vs' (fun _ => rfl) (fun _ => rfl), SortedMap.getEntry_cons, SortedMap.getEntry_cons]
        split
        · rename_i hk
          rw [Option.some.inj (hhead (congrArg some hk))]
        · rfl

theorem rowContext_congr {n : Bytes}
    (h : ∀ (i : ℕ) (d : ColumnDef), schema.columns[i]? = some d → d.name = n → row[i]? = row'[i]?) :
    Sql.rowContext schema row n = Sql.rowContext schema row' n := by
  refine getEntry_zip_congr fun i hi => ?_
  rw [List.getElem?_map] at hi
  obtain ⟨d, hd, hn⟩ := Option.map_eq_some_iff.mp hi
  exact h i d hd hn

theorem selects_congr {where_ : Expr} (h : ∀ n ∈ where_.idents,
    Sql.rowContext schema row n = Sql.rowContext schema row' n) :
    selects lib schema where_ row = selects lib schema where_ row' := by
  unfold selects
  rw [Sql.whereTrue_congr h]

theorem assigned_congr {sets : List SetItem} (h : ∀ item ∈ sets, ∀ n ∈ item.value.idents,
    Sql.rowContext schema row n = Sql.rowContext schema row' n) :
    assigned lib schema sets row = assigned lib schema sets row' := by
  unfold assigned
  rw [Sql.evalSetsCtx_congr h]

theorem updateHit_congr {kind : EngineKind} {where_ : Expr} (h : ∀ n ∈ where_.idents,
    Sql.rowContext schema row n = Sql.rowContext schema row' n) (key : Bytes) :
    Sql.updateHit lib schema kind where_ key row =
      Sql.updateHit lib schema kind where_ key row' := by
  unfold Sql.updateHit Sql.columnarHit Sql.residual
  rw [selects_congr h]
  split
  · rfl
  · split
    · split
      · rfl
      · rw [selects_congr h]
    · rfl

theorem deleteHit_congr {kind : EngineKind} {where_ : Expr} (h : ∀ n ∈ where_.idents,
    Sql.rowContext schema row n = Sql.rowContext schema row' n) (key : Bytes) :
    Sql.deleteHit lib schema kind where_ key row =
      Sql.deleteHit lib schema kind where_ key row' := by
  unfold Sql.deleteHit
  rw [selects_congr h]

end Agree

/-! ### Commands that may be replayed -/

section Bands

variable {lib} {P : Bytes → Prop} {t : Table} {name key : Bytes}

/-- The places of the columns whose names are in `P`. -/
def places (P : Bytes → Prop) (t : Table) (i : ℕ) : Prop :=
  ∃ c : ColInfo, t.cols[i]? = some c ∧ P c.name

/-- Changes that write no column outside `P` into a row that is there. -/
def contentBand (P : Bytes → Prop) (t : Table) : Band Content :=
  .prod (.pi Bytes (.rows Value (places P t)))
    (.prod (.pi Bytes (.fill Bytes)) (.pi Bytes (.fill (List ℕ))))

theorem mem_setRows {f : Table → Bytes → Option (List Value) → Option (List Value)}
    (h : ∀ key, (Band.rows Value (places P t)).mem (f t key)) :
    (contentBand P t).mem fun c => (fun key => f t key (c.1 key), c.2.1, c.2.2) :=
  ⟨_, _, ⟨f t, h, fun _ _ => rfl⟩, (Band.prod _ _).id_mem, fun _ => rfl⟩

theorem mem_setData {f : Table → Bytes → Option Bytes → Option Bytes}
    (h : ∀ key, (Band.fill Bytes).mem (f t key)) :
    (contentBand P t).mem fun c => (c.1, fun key => f t key (c.2.1 key), c.2.2) :=
  ⟨_, _, (Band.pi _ _).id_mem, ⟨_, _, ⟨f t, h, fun _ _ => rfl⟩, (Band.pi _ _).id_mem,
    fun _ => rfl⟩, fun _ => rfl⟩

theorem mem_setIndexes {f : Table → Bytes → Option (List ℕ) → Option (List ℕ)}
    (h : ∀ n, (Band.fill (List ℕ)).mem (f t n)) :
    (contentBand P t).mem fun c => (c.1, c.2.1, fun n => f t n (c.2.2 n)) :=
  ⟨_, _, (Band.pi _ _).id_mem, ⟨_, _, (Band.pi _ _).id_mem, ⟨f t, h, fun _ _ => rfl⟩,
    fun _ => rfl⟩, fun _ => rfl⟩

theorem rowContext_agree (hagree : AgreeOff (places P t) row row') {n : Bytes} (hn : ¬ P n) :
    Sql.rowContext (t.schema name) row n = Sql.rowContext (t.schema name) row' n := by
  refine rowContext_congr fun i d hd hname => hagree i ?_
  rintro ⟨c, hc, hp⟩
  obtain ⟨d', hd', hn'⟩ := Sql.schema_column name hc
  rw [hd] at hd'
  obtain rfl := Option.some.inj hd'
  exact hn (hname ▸ hn' ▸ hp)

theorem mem_insertAt (columns : List Bytes) (rows : List (List Expr)) :
    (Band.rows Value (places P t)).mem (insertAt lib name columns rows t key) := by
  unfold insertAt
  cases SortedMap.getEntry key
      (Sql.insertedRows lib t (insertValues lib t name columns rows)).reverse with
  | some row => exact Or.inl ⟨some row, fun _ => rfl⟩
  | none => exact (Band.rows _ _).id_mem

theorem mem_deleteAt {where_ : Expr} (h : ∀ n ∈ where_.idents, ¬ P n) :
    (Band.rows Value (places P t)).mem (deleteAt lib name where_ t key) := by
  refine Or.inr ⟨fun row => if Sql.deleteHit lib (t.schema name) t.engine where_ key row then none
    else some id, fun row row' hagree => ?_, fun row u hu => ?_, fun o => ?_⟩
  · dsimp only
    rw [deleteHit_congr fun n hn => rowContext_agree hagree (h n hn)]
  · dsimp only at hu
    split at hu
    · cases hu
    · exact Option.some.inj hu ▸ (Band.overlay _ _).id_mem
  · cases o with
    | none => rfl
    | some row =>
      rw [deleteAt, Option.filter_some, Option.bind_some]
      dsimp only
      cases Sql.deleteHit lib (t.schema name) t.engine where_ key row <;> rfl

/-- The values of the assignments in a row, by the places of their columns. -/
def assignedAt (lib : Stdlib) (schema : TableSchema) (sets : List SetItem) (row : List Value)
    (i : ℕ) : Option Value :=
  (schema.columns[i]?.bind fun c =>
    SortedMap.getEntry c.name (assigned lib schema sets row).reverse).map fun w =>
      Storage.toSQLValue lib (Storage.fromSQLValue w)

theorem newRow_eq_overlay (sets : List SetItem) (row : List Value) :
    Sql.newRow lib (t.schema name) sets row =
      overlay (assignedAt lib (t.schema name) sets row) row := by
  unfold Sql.newRow Sql.assignRow overlay
  congr 1
  ext i v : 2
  unfold assignedAt
  cases (t.schema name).columns[i]?.bind fun c => SortedMap.getEntry c.name
    (assigned lib (t.schema name) sets row).reverse <;> rfl

theorem assigned_columns {schema : TableSchema} {sets : List SetItem} {row : List Value}
    {w : Bytes × Value} (hw : w ∈ assigned lib schema sets row) :
    w.1 ∈ sets.map SetItem.column := by
  unfold assigned at hw
  split at hw
  · rename_i ws hws
    rw [← Sql.columns_evalSetsCtx hws]
    exact List.mem_map_of_mem hw
  · cases hw

theorem mem_updateAt {sets : List SetItem} {where_ : Expr} (hw : ∀ n ∈ where_.idents, ¬ P n)
    (hr : ∀ item ∈ sets, ∀ n ∈ item.value.idents, ¬ P n) (ha : ∀ item ∈ sets, P item.column) :
    (Band.rows Value (places P t)).mem (updateAt lib name sets where_ t key) := by
  refine Or.inr ⟨fun row => some (if Sql.updateHit lib (t.schema name) t.engine where_ key row then
      overlay (assignedAt lib (t.schema name) sets row)
    else id), fun row row' hagree => ?_, fun row u hu => ?_, fun o => ?_⟩
  · have hctx : ∀ n, ¬ P n → Sql.rowContext (t.schema name) row n =
        Sql.rowContext (t.schema name) row' n := fun _ hn => rowContext_agree hagree hn
    dsimp only
    unfold assignedAt
    rw [updateHit_congr fun n hn => hctx n (hw n hn),
      assigned_congr fun item hitem n hn => hctx n (hr item hitem n hn)]
  · obtain rfl := Option.some.inj hu
    split
    · refine ⟨_, fun i hi => ?_, fun _ => rfl⟩
      rw [assignedAt, Option.map_eq_none_iff, Option.bind_eq_none_iff]
      intro c hc
      refine SortedMap.getEntry_eq_none.mpr fun w hmem => hi ?_
      obtain ⟨item, hitem, he⟩ := List.mem_map.mp (assigned_columns (List.mem_reverse.mp hmem))
      rw [Table.schema, List.getElem?_mapIdx] at hc
      obtain ⟨col, hcol, rfl⟩ := Option.map_eq_some_iff.mp hc
      have hp : P item.column := ha item hitem
      rw [he] at hp
      exact ⟨col, hcol, hp⟩
    · exact (Band.overlay _ _).id_mem
  · cases o with
    | none => rfl
    | some row =>
      simp only [updateAt, Option.map_some, Option.bind_some]
      split
      · rw [newRow_eq_overlay]
      · rfl

theorem mem_createIndexAt (columns : List Bytes) (n : Bytes) :
    (Band.fill (List ℕ)).mem (createIndexAt name columns t n) := by
  unfold createIndexAt
  by_cases h : n = name
  · exact Or.inr ⟨_, fun _ => if_pos h⟩
  · exact Or.inr ⟨none, fun x => (if_neg h).trans Option.or_none.symm⟩

theorem mem_dropIndexAt (n : Bytes) : (Band.fill (List ℕ)).mem (dropIndexAt name t n) := by
  unfold dropIndexAt
  by_cases h : n = name
  · exact Or.inl ⟨none, fun _ => if_pos h⟩
  · exact Or.inr ⟨none, fun x => (if_neg h).trans Option.or_none.symm⟩

theorem mem_kvSetAt (value : Option Bytes) (k : Bytes) :
    (Band.fill Bytes).mem (kvSetAt key value t k) := by
  unfold kvSetAt
  by_cases h : t.engine = .kv ∧ k = key
  · exact Or.inl ⟨value, fun _ => if_pos h⟩
  · exact Or.inr ⟨none, fun x => (if_neg h).trans Option.or_none.symm⟩

/-- The changes of a log that reads no column that it assigns. -/
theorem mem_command {stmts : Entry} (h : ReadsUnassigned stmts) {st : Sql.WriteStmt}
    (hst : st ∈ stmts) {f : Table → Content → Content}
    (hc : command lib st.1 = some (name, .change f)) (t : Table) :
    (contentBand (fun n => ∃ st' ∈ stmts, (name, n) ∈ assigns st'.1) t).mem (f t) := by
  have hread : ∀ n, (name, n) ∈ reads st.1 → ¬ ∃ st' ∈ stmts, (name, n) ∈ assigns st'.1 :=
    fun n hn ⟨st', hst', hm⟩ => h st hst st' hst' _ hn hm
  obtain ⟨st, hwrite⟩ := st
  cases st with
  | createTable | dropTable => cases hc
  | createIndex iname table columns ifNotExists =>
    cases hc
    exact mem_setIndexes fun n => mem_createIndexAt columns n
  | dropIndex iname table ifExists =>
    cases hc
    exact mem_setIndexes fun n => mem_dropIndexAt n
  | insert table columns rows =>
    cases hc
    exact mem_setRows fun key => mem_insertAt columns rows
  | update table sets where_ =>
    cases hc
    refine mem_setRows fun key => mem_updateAt (fun n hn => hread n ?_)
      (fun item hitem n hn => hread n ?_) fun item hitem => ?_
    · exact List.mem_map_of_mem (List.mem_append_right _ hn)
    · exact List.mem_map_of_mem
        (List.mem_append_left _ (List.mem_flatMap.mpr ⟨item, hitem, hn⟩))
    · exact ⟨_, hst, List.mem_map.mpr ⟨item, hitem, rfl⟩⟩
  | delete table where_ =>
    cases hc
    exact mem_setRows fun key => mem_deleteAt fun n hn => hread n (List.mem_map_of_mem hn)
  | kvPut table key value =>
    cases hc
    exact mem_setData fun k => mem_kvSetAt (some value) k
  | kvDelete table key =>
    cases hc
    exact mem_setData fun k => mem_kvSetAt none k
  | _ => cases hc

end Bands

end Ydbgo.Raft
