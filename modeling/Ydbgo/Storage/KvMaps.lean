import Ydbgo.Storage.KvAreas

/-! # Tables as independent maps

What the key-value tables are for: each table is a map of raw entries and a map
of rows, and a batch that fails changes nothing. The engine holds these maps in
its one key space, and every call keeps it so.
-/

namespace Ydbgo.Storage

open Sql (Value Stdlib)
open KvBatch (merged)

/-! ### The maps -/

/-- The maps of one table. The rows are under the encoding of their keys, which keeps the order of
keys of strings. -/
structure MapTable where
  schema : Table
  data : SortedMap Bytes Bytes
  rows : SortedMap Bytes Vals

/-- The values of a row in the order of the columns. -/
def Table.valuesOf (t : Table) (vals : Vals) : List SqlValue :=
  t.cols.map fun c => vals.cell c.name

/-- The values of a row that is given in the order of the columns. -/
def Table.valuesIn (t : Table) (row : List Value) : List SqlValue :=
  t.cols.mapIdx fun i _ => fromSQLValue ((row[i]?).getD {})

namespace MapTable

def create (t : Table) : MapTable := ⟨t, .empty, .empty⟩

def storeRow (t : MapTable) (key : Bytes) (vs : List SqlValue) : MapTable :=
  { t with rows := t.rows.insert key (t.schema.valsOf vs) }

def deleteRow (t : MapTable) (key : Bytes) : MapTable := { t with rows := t.rows.erase key }

def insertRow (t : MapTable) (row : List (Bytes × Value)) : MapTable :=
  t.storeRow (t.schema.schemaKey (.ofSQL row)) (t.schema.valuesOf (.ofSQL row))

def insertValues (t : MapTable) (row : List Value) : MapTable :=
  t.storeRow (rowKeyOf t.schema row) (t.schema.valuesIn row)

def updateRow (t : MapTable) (key : Bytes) (set : Vals) : MapTable :=
  match t.rows.get key with
  | none => t
  | some old =>
    (t.deleteRow key).storeRow (t.schema.schemaKey (merged set old))
      (t.schema.valuesOf (merged set old))

end MapTable

abbrev Maps : Type := SortedMap Bytes MapTable

namespace Maps

/-- A change of one table. -/
def change (m : Maps) (name : Bytes) (f : MapTable → MapTable) : Maps :=
  match m.get name with
  | none => m
  | some t => m.insert name (f t)

def perform (m : Maps) : KvCall → Maps
  | .createTable name cols pkNames retention =>
    match m.get name with
    | some _ => m
    | none =>
      let pk := pkNames.flatMap fun p =>
        (List.range cols.length).filter fun i => (cols[i]?).map ColInfo.name = some p
      m.insert name (.create ⟨cols, pk, .empty, .kv, retention⟩)
  | .dropTable name => m.erase name
  | .kvPut table key value => m.change table fun t => { t with data := t.data.insert key value }
  | .kvDelete table key => m.change table fun t => { t with data := t.data.erase key }
  | .batchInsert table rows => m.change table fun t => rows.foldl MapTable.insertRow t
  | .batchInsertRows table rows => m.change table fun t => rows.foldl MapTable.insertValues t
  | .update table pkValues set =>
    m.change table fun t => t.updateRow (encodePK pkValues) (.ofSQL set)
  | .delete table pkValues => m.change table fun t => t.deleteRow (encodePK pkValues)

def performAll (m : Maps) (calls : List KvCall) : Maps := calls.foldl perform m

/-- A batch that fails has no effect. -/
def update (m : Maps) (u : KvUpdate) : Maps := if u.fails then m else m.performAll u.calls

end Maps

/-! ### Reads -/

inductive KvRead where
  | get (table key : Bytes)
  | scan (table start stop : Bytes)
  | rows (table : Bytes)

inductive KvAnswer where
  | value (v : Value)
  | entries (es : List (Bytes × Bytes))
  | rows (rs : List (List Value))
  deriving DecidableEq

def KvEngine.read (lib : Stdlib) (e : KvEngine) : KvRead → Except ExecError KvAnswer
  | .get table key => (e.kvGet table key).map .value
  | .scan table start stop => (e.kvScan table start stop).map .entries
  | .rows table => (e.scan lib table).map .rows

/-- What a map holds under a key, null for nothing. -/
def mapValue (v : Option Bytes) : Value :=
  match v with
  | none => Sql.nullValue
  | some v => Sql.strValue v

def Maps.onTable (m : Maps) (name : Bytes) (f : MapTable → KvAnswer) :
    Except ExecError KvAnswer :=
  match m.get name with
  | none => .error (.notFound name)
  | some t => .ok (f t)

def Maps.read (lib : Stdlib) (m : Maps) : KvRead → Except ExecError KvAnswer
  | .get table key => m.onTable table fun t => .value (mapValue (t.data.get key))
  | .scan table start stop => m.onTable table fun t =>
    .entries (t.data.filter fun k _ =>
      decide (start ≤ k) && (decide (stop = []) || decide (k < stop))).entries
  | .rows table => m.onTable table fun t =>
    .rows (t.rows.entries.map fun e => t.schema.rowOf lib e.2)

/-! ### Plain calls -/

/-- A value of a row: it is there, and the length of a string is a Go `int`. -/
def Storable (v : Value) : Prop := v.missing = false ∧ v.str.length < 2 ^ 63

def KeyStrings (vals : List SqlValue) : Prop := ∀ v ∈ vals, KeyString v

/-- The key columns of a row are strings without a NUL. -/
def Table.PlainRow (t : Table) (row : List (Bytes × Value)) : Prop :=
  KeyStrings (t.keyNames.map (Vals.ofSQL row).cell) ∧ ∀ w ∈ row, Storable w.2

/-- The same for a row in the order of the columns. -/
def Table.PlainValues (t : Table) (row : List Value) : Prop :=
  KeyStrings (t.pk.map fun p => fromSQLValue ((row[p]?).getD {})) ∧ ∀ v ∈ row, Storable v

/-- The name of a new table and the keys of raw entries have no NUL, raw values are not empty, and
the key columns of the rows named and written are strings without a NUL. -/
def KvCall.Plain (m : Maps) : KvCall → Prop
  | createTable name cols _ _ => 0 ∉ name ∧ cols.length < 2 ^ 63
  | dropTable _ => True
  | kvPut _ key value => 0 ∉ key ∧ value ≠ []
  | kvDelete _ key => 0 ∉ key
  | batchInsert table rows => ∀ t, m.get table = some t → ∀ row ∈ rows, t.schema.PlainRow row
  | batchInsertRows table rows =>
    ∀ t, m.get table = some t → ∀ row ∈ rows, t.schema.PlainValues row
  | update table pkValues set => KeyStrings (pkValues.map fromSQLValue) ∧
    (∀ w ∈ set, Storable w.2) ∧ ∀ t, m.get table = some t → ∀ old,
      t.rows.get (encodePK pkValues) = some old →
      KeyStrings (t.schema.keyNames.map (merged (.ofSQL set) old).cell)
  | delete _ pkValues => KeyStrings (pkValues.map fromSQLValue)

/-- Every call is plain where it is made. -/
def PlainCalls : List KvCall → Maps → Prop
  | [], _ => True
  | call :: calls, m => call.Plain m ∧ PlainCalls calls (m.perform call)

/-! ### The engine holds the maps -/

/-- A blob is what the row was written as. -/
inductive RowAgrees (t : Table) : Option Bytes → Option Vals → Prop
  | none : RowAgrees t none none
  | some {vs : List SqlValue} : vs.length = t.cols.length → (∀ v ∈ vs, v.Plain) →
    RowAgrees t (some (joinRow (vs.map appendVariant))) (some (t.valsOf vs))

/-- The areas of a table hold its maps. -/
structure TableAgrees (name : Bytes) (content : Bytes → Option Bytes) (t : MapTable) : Prop where
  plain : 0 ∉ name ∧ t.schema.engine = .kv ∧ t.schema.cols.length < 2 ^ 63
  data : ∀ key, content (kvDataKey name key) = t.data.get key
  rows : ∀ pk, RowAgrees t.schema (content (kvRowKey name pk)) (t.rows.get pk)
  values : ∀ key v, t.data.get key = some v → v ≠ []

/-- The areas of a name are empty. -/
def ClearAreas (name : Bytes) (content : Bytes → Option Bytes) : Prop :=
  ∀ key, content (kvDataKey name key) = none ∧ content (kvRowKey name key) = none

structure Agrees (tables : SortedMap Bytes Table) (content : Bytes → Option Bytes) (m : Maps) :
    Prop where
  schemas : ∀ name, tables.get name = (m.get name).map MapTable.schema
  tables : ∀ name t, m.get name = some t → TableAgrees name content t
  clear : ∀ name, 0 ∉ name → m.get name = none → ClearAreas name content

def InAreas (name k : Bytes) : Prop := kvDataPrefix name <+: k ∨ kvRowPrefix name <+: k

section Frame

variable {name name' : Bytes} {content content' : Bytes → Option Bytes} {t : MapTable} {m : Maps}
  {tables : SortedMap Bytes Table}

theorem inAreas_data (name key : Bytes) : InAreas name (kvDataKey name key) :=
  Or.inl (List.prefix_append _ _)

theorem inAreas_row (name pk : Bytes) : InAreas name (kvRowKey name pk) :=
  Or.inr (List.prefix_append _ _)

/-- The areas of two tables have no key in common. -/
theorem not_inAreas (h : 0 ∉ name) (h' : 0 ∉ name') (hne : name ≠ name') (key : Bytes) :
    ¬ InAreas name (kvDataKey name' key) ∧ ¬ InAreas name (kvRowKey name' key) := by
  constructor <;>
  · rintro (hp | hp) <;> exact hne ((areaPrefix_prefix_iff h h').mp hp).2

theorem kvDataKey_ne_kvRowKey (h : 0 ∉ name) (key pk : Bytes) :
    kvDataKey name key ≠ kvRowKey name pk := fun heq =>
  absurd (areaKey_inj h h heq).1 (by decide)

theorem kvDataKey_inj {key key' : Bytes} : kvDataKey name key = kvDataKey name key' ↔ key = key' :=
  List.append_right_inj _

theorem kvRowKey_inj {pk pk' : Bytes} : kvRowKey name pk = kvRowKey name pk' ↔ pk = pk' :=
  List.append_right_inj _

theorem TableAgrees.congr (h : TableAgrees name' content t)
    (hout : ∀ k, ¬ InAreas name k → content' k = content k) (hn : 0 ∉ name) (hne : name ≠ name') :
    TableAgrees name' content' t := by
  have hno := not_inAreas hn h.plain.1 hne
  refine ⟨h.plain, fun key => ?_, fun pk => ?_, h.values⟩
  · rw [hout _ (hno key).1, h.data]
  · rw [hout _ (hno pk).2]
    exact h.rows pk

theorem ClearAreas.congr (h : ClearAreas name' content)
    (hout : ∀ k, ¬ InAreas name k → content' k = content k) (hn : 0 ∉ name) (hn' : 0 ∉ name')
    (hne : name ≠ name') : ClearAreas name' content' := fun key => by
  obtain ⟨hd, hr⟩ := not_inAreas hn hn' hne key
  rw [hout _ hd, hout _ hr]
  exact h key

/-- A change of the areas of one table. -/
theorem Agrees.change (h : Agrees tables content m) (hget : m.get name = some t)
    (hout : ∀ k, ¬ InAreas name k → content' k = content k) {t' : MapTable}
    (hschema : t'.schema = t.schema) (ht' : TableAgrees name content' t') :
    Agrees tables content' (m.insert name t') := by
  constructor
  · intro name'
    rw [SortedMap.get_insert, h.schemas]
    split
    · rename_i hname
      rw [← hname, hget, Option.map_some, Option.map_some, hschema]
    · rfl
  · intro name' u hu
    rw [SortedMap.get_insert] at hu
    split at hu
    · rename_i hname
      cases hu
      exact hname ▸ ht'
    · rename_i hne
      exact (h.tables name' u hu).congr hout ht'.plain.1 hne
  · intro name' hn' hnone
    rw [SortedMap.get_insert] at hnone
    split at hnone
    · cases hnone
    · rename_i hne
      exact (h.clear name' hn' hnone).congr hout ht'.plain.1 hn' hne

theorem Agrees.create (h : Agrees tables content m) (hget : m.get name = none) (hn : 0 ∉ name)
    {schema : Table} (hkv : schema.engine = .kv) (hlen : schema.cols.length < 2 ^ 63) :
    Agrees (tables.insert name schema) content (m.insert name (.create schema)) := by
  constructor
  · intro name'
    rw [SortedMap.get_insert, SortedMap.get_insert, h.schemas]
    split <;> rfl
  · intro name' u hu
    rw [SortedMap.get_insert] at hu
    split at hu
    · rename_i hname
      cases hu
      have hclear := h.clear name hn hget
      subst hname
      refine ⟨⟨hn, hkv, hlen⟩, fun key => (hclear key).1, fun pk => ?_, fun key v hv => by cases hv⟩
      rw [(hclear pk).2]
      exact .none
    · exact h.tables name' u hu
  · intro name' hn' hnone
    rw [SortedMap.get_insert] at hnone
    split at hnone
    · cases hnone
    · exact h.clear name' hn' hnone

theorem Agrees.drop (h : Agrees tables content m) (hn : 0 ∉ name)
    (hout : ∀ k, ¬ InAreas name k → content' k = content k)
    (hin : ∀ k, InAreas name k → content' k = none) :
    Agrees (tables.erase name) content' (m.erase name) := by
  constructor
  · intro name'
    rw [SortedMap.get_erase, SortedMap.get_erase, h.schemas]
    split <;> rfl
  · intro name' u hu
    rw [SortedMap.get_erase] at hu
    split at hu
    · cases hu
    · rename_i hne
      exact (h.tables name' u hu).congr hout hn hne
  · intro name' hn' hnone
    by_cases hne : name = name'
    · subst hne
      exact fun key => ⟨hin _ (inAreas_data name key), hin _ (inAreas_row name key)⟩
    · rw [SortedMap.get_erase, if_neg hne] at hnone
      exact (h.clear name' hn' hnone).congr hout hn hn' hne

end Frame

end Ydbgo.Storage
