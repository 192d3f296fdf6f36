import Ydbgo.Lib.Rfc3339
import Ydbgo.Sql.PlannerRight

/-! # Rows on the wire

A shard answers with the display texts of its values, and the coordinator reads
them back by the type of the column. A text does not say whether it stands for
NULL: that is recovered for the types that have no such text of their own.
-/

namespace Ydbgo.Shard
open Sql (Time Stdlib SqlType Value nullValue intValue floatValue strValue boolValue timestampValue
  TableSchema colIndex zeroForType formatInt parseInt)

variable (lib : Stdlib)

/-- `sqlx.Result`. -/
structure QueryResult where
  type : Bytes
  columns : List Bytes
  rows : List (List Value)
  affected : Int64

/-- `proto.ResultPayload` with the fields `payloadOf` sets. -/
structure ResultPayload where
  type : Bytes
  columns : List Bytes
  rows : List (List Bytes)
  affected : Int64

def payloadOf : Option QueryResult → ResultPayload
  | none => { type := ascii "ok", columns := [], rows := [], affected := 0 }
  | some r =>
    if r.columns.isEmpty then
      { type := r.type, columns := [], rows := [], affected := r.affected }
    else
      { type := r.type, columns := r.columns, rows := r.rows.map (List.map (Value.string lib)),
        affected := r.affected }

def valueFromString (t : SqlType) (s : Bytes) : Value :=
  match t with
  | .int => if s = [] then nullValue else ((parseInt s).map intValue).getD nullValue
  | .float => if s = [] then nullValue else ((lib.parseFloat s).map floatValue).getD nullValue
  | .string => strValue s
  | .bool => boolValue (s == ascii "true" || s == ascii "1")
  | .timestamp =>
    ((Rfc3339.parse s).map fun (nanos, zone) => timestampValue { nanos, zone }).getD nullValue
  | .null | .other _ => nullValue

def rowsFromPayload (p : ResultPayload) (schema : TableSchema) : List (List Value) :=
  p.rows.map fun sr => schema.columns.map fun c =>
    match (colIndex p.columns c.name).bind fun ci => sr[ci]? with
    | none => zeroForType lib c.type
    | some s => valueFromString lib c.type s

def rowsFromPayloadTyped (p : ResultPayload) (types : List SqlType) : List (List Value) :=
  p.rows.map fun sr => types.zipIdx.map fun (t, i) =>
    match sr[i]? with
    | none => nullValue
    | some s => valueFromString lib t s

/-! ### One value -/

/-- What a column of a type holds. -/
inductive Fits : SqlType → Value → Prop
  | null (t : SqlType) : Fits t nullValue
  | int (n : Int64) : Fits .int (intValue n)
  | float (x : UInt64) : Fits .float (floatValue x)
  | string (s : Bytes) : Fits .string (strValue s)
  | bool (b : Bool) : Fits .bool (boolValue b)
  | timestamp (t : Time) : Fits .timestamp (timestampValue t)

/-- The printed form of a float reads back to the same value. -/
def FloatRead (v : Value) : Prop :=
  v.type = .float → lib.parseFloat (lib.formatFloat v.flt) = some v.flt

/-- Times are printed as RFC 3339 has it, and the text of NULL and the empty text are no floats. -/
structure Texts : Prop where
  formatTime : ∀ t : Time, lib.formatTime t = Rfc3339.format t.nanos t.zone
  parseFloat_null : lib.parseFloat (ascii "NULL") = none
  parseFloat_nil : lib.parseFloat [] = none

/-- NULL is not in a column of strings or booleans, and a time has a text of its own. -/
def Kept (t : SqlType) (v : Value) : Prop :=
  (v = nullValue → t ≠ .string ∧ t ≠ .bool) ∧
  (v.type = .timestamp → Rfc3339.Printable v.tm.nanos v.tm.zone)

variable {lib}

theorem valueFromString_null (h : Texts lib) (t : SqlType) :
    valueFromString lib t (nullValue.string lib) = nullValue ↔ t ≠ .string ∧ t ≠ .bool := by
  change valueFromString lib t (ascii "NULL") = nullValue ↔ _
  cases t with
  | int =>
    have hp : parseInt (ascii "NULL") = none := by decide
    simp [valueFromString, hp]
  | float => simp [valueFromString, h.parseFloat_null]
  | string => simp [valueFromString, strValue, nullValue]
  | bool => simp [valueFromString, boolValue, nullValue]
  | timestamp =>
    have hp : Rfc3339.parse (ascii "NULL") = none := by decide
    simp [valueFromString, hp]
  | null => simp [valueFromString]
  | other n => simp [valueFromString]

theorem valueFromString_int (n : Int64) :
    valueFromString lib .int ((intValue n).string lib) = intValue n := by
  change valueFromString lib .int (formatInt n) = _
  simp [valueFromString, Sql.formatInt_ne_nil, Sql.parseInt_formatInt]

theorem valueFromString_float (h : Texts lib) {x : UInt64} (hx : FloatRead lib (floatValue x)) :
    valueFromString lib .float ((floatValue x).string lib) = floatValue x := by
  have hp : lib.parseFloat (lib.formatFloat x) = some x := hx rfl
  have hnil : lib.formatFloat x ≠ [] := by
    intro hn
    rw [hn, h.parseFloat_nil] at hp
    cases hp
  change valueFromString lib .float (lib.formatFloat x) = _
  simp [valueFromString, hnil, hp]

theorem valueFromString_bool (b : Bool) :
    valueFromString lib .bool ((boolValue b).string lib) = boolValue b := by
  cases b <;> rfl

theorem valueFromString_timestamp (h : Texts lib) (t : Time) :
    valueFromString lib .timestamp ((timestampValue t).string lib) = timestampValue t ↔
      Rfc3339.Printable t.nanos t.zone := by
  change valueFromString lib .timestamp (lib.formatTime t) = _ ↔ _
  rw [← Rfc3339.parse_format, h.formatTime, valueFromString]
  obtain ⟨nanos, zone⟩ := t
  cases Rfc3339.parse (Rfc3339.format nanos zone) with
  | none => simp [timestampValue, nullValue]
  | some p => simp [timestampValue, Prod.ext_iff]

/-- A value comes back from its text exactly if it is kept. -/
theorem valueFromString_string (h : Texts lib) {t : SqlType} {v : Value} (hv : Fits t v)
    (hf : FloatRead lib v) : valueFromString lib t (v.string lib) = v ↔ Kept t v := by
  cases hv with
  | null =>
    rw [valueFromString_null h]
    simp [Kept, nullValue]
  | int n => exact iff_of_true (valueFromString_int n) (by simp [Kept, intValue])
  | float x => exact iff_of_true (valueFromString_float h hf) (by simp [Kept, floatValue])
  | string s => exact iff_of_true rfl (by simp [Kept, strValue, nullValue])
  | bool b => exact iff_of_true (valueFromString_bool b) (by simp [Kept, boolValue, nullValue])
  | timestamp t =>
    rw [valueFromString_timestamp h]
    simp [Kept, timestampValue]

/-! ### Whole results -/

variable (lib) in
/-- A row given by the names of its columns, at the width of the schema. -/
def widen (schema : TableSchema) (columns : List Bytes) (row : Bytes → Value) : List Value :=
  schema.columns.map fun c => if c.name ∈ columns then row c.name else zeroForType lib c.type

theorem widen_names (schema : TableSchema) (row : Bytes → Value) :
    widen lib schema (schema.columns.map fun c => c.name) row =
      (schema.columns.map fun c => c.name).map row := by
  rw [widen, List.map_map]
  apply List.map_congr_left
  rintro c hc
  rw [if_pos (List.mem_map_of_mem hc), Function.comp_apply]

theorem colIndexFrom_eq_none {i : ℕ} {columns : List Bytes} {name : Bytes} :
    Sql.colIndexFrom i columns name = none ↔ name ∉ columns := by
  induction columns generalizing i with
  | nil => simp [Sql.colIndexFrom]
  | cons c columns ih =>
    rw [Sql.colIndexFrom, Option.or_eq_none_iff, ih, List.mem_cons, not_or, and_comm]
    simp [eq_comm]

/-- The text that a name finds in a row given by names. -/
theorem textOf_colIndex (columns : List Bytes) (row : Bytes → Value) (name : Bytes) :
    ((colIndex columns name).bind fun ci => ((columns.map row).map (Value.string lib))[ci]?) =
      if name ∈ columns then some ((row name).string lib) else none := by
  cases hci : colIndex columns name with
  | none => simp [colIndexFrom_eq_none.mp hci]
  | some ci =>
    obtain ⟨-, hget⟩ := Sql.colIndexFrom_getElem? hci
    rw [Nat.sub_zero] at hget
    simp [hget, List.mem_of_getElem? hget]

variable (lib) in
/-- Rows without columns are not sent. -/
theorem rows_payloadOf (r : QueryResult) :
    (payloadOf lib (some r)).rows =
      if r.columns = [] then [] else r.rows.map (List.map (Value.string lib)) := by
  simp only [payloadOf, List.isEmpty_iff]
  split <;> rfl

/-- A result with rows has columns. -/
def Shown (r : QueryResult) : Prop := r.columns = [] → r.rows = []

/-- A row of texts that has one for each type is read place by place. -/
theorem readTyped_eq {types : List SqlType} {sr : List Bytes} (hlen : types.length = sr.length) :
    (types.zipIdx.map fun (t, i) => match sr[i]? with
      | none => nullValue
      | some s => valueFromString lib t s) = List.zipWith (valueFromString lib) types sr := by
  apply List.ext_getElem
  · simp [hlen]
  · intro i h1 h2
    have hi : i < sr.length := by simp at h2; omega
    simp [hi]

theorem zipWith_valueFromString (h : Texts lib) {types : List SqlType} {row : List Value}
    (hfit : List.Forall₂ Fits types row) (hf : ∀ v ∈ row, FloatRead lib v) :
    List.zipWith (valueFromString lib) types (row.map (Value.string lib)) = row ↔
      List.Forall₂ Kept types row := by
  induction hfit with
  | nil => simp
  | cons hv _ ih =>
    have hf' := List.forall_mem_cons.mp hf
    simp [valueFromString_string h hv hf'.1, ih hf'.2]

theorem rowsFromPayloadTyped_iff (h : Texts lib) {r : QueryResult} {types : List SqlType}
    (hfit : ∀ row ∈ r.rows, List.Forall₂ Fits types row)
    (hf : ∀ row ∈ r.rows, ∀ v ∈ row, FloatRead lib v) :
    rowsFromPayloadTyped lib (payloadOf lib (some r)) types = r.rows ↔
      Shown r ∧ ∀ row ∈ r.rows, List.Forall₂ Kept types row := by
  rw [rowsFromPayloadTyped, rows_payloadOf, Shown]
  by_cases hc : r.columns = []
  · rw [if_pos hc, List.map_nil]
    constructor
    · intro he
      simp [← he]
    · rintro ⟨he, -⟩
      rw [he hc]
  · rw [if_neg hc, List.map_map]
    simp only [hc, false_implies, true_and]
    refine Iff.trans ?_ (forall₂_congr fun row hrow =>
      zipWith_valueFromString h (hfit row hrow) (hf row hrow))
    conv_lhs => rhs; rw [← List.map_id r.rows]
    rw [List.map_inj_left]
    refine forall₂_congr fun row hrow => ?_
    have hlen : types.length = (row.map (Value.string lib)).length := by
      rw [List.length_map, (hfit row hrow).length_eq]
    rw [Function.comp_apply, readTyped_eq hlen, id]

theorem rowsFromPayload_iff (h : Texts lib) {r : QueryResult} {schema : TableSchema}
    {rows : List (Bytes → Value)} (hrows : r.rows = rows.map fun row => r.columns.map row)
    (hfit : ∀ row ∈ rows, ∀ c ∈ schema.columns, c.name ∈ r.columns →
      Fits c.type (row c.name) ∧ FloatRead lib (row c.name)) :
    rowsFromPayload lib (payloadOf lib (some r)) schema =
        rows.map (widen lib schema r.columns) ↔
      Shown r ∧ ∀ row ∈ rows, ∀ c ∈ schema.columns, c.name ∈ r.columns →
        Kept c.type (row c.name) := by
  rw [rowsFromPayload, rows_payloadOf, Shown, hrows, List.map_eq_nil_iff]
  have hcolumns : (payloadOf lib (some r)).columns = r.columns := by
    simp only [payloadOf, List.isEmpty_iff]
    split
    · next hc => rw [hc]
    · rfl
  by_cases hc : r.columns = []
  · rw [if_pos hc, List.map_nil, eq_comm, List.map_eq_nil_iff]
    constructor
    · rintro rfl
      simp
    · rintro ⟨he, -⟩
      exact he hc
  · rw [if_neg hc, List.map_map, List.map_map, hcolumns, List.map_inj_left]
    simp only [hc, false_implies, true_and]
    refine forall₂_congr fun row hrow => ?_
    rw [Function.comp_apply, Function.comp_apply, widen, List.map_inj_left]
    refine forall₂_congr fun c hcol => ?_
    rw [textOf_colIndex]
    by_cases hm : c.name ∈ r.columns
    · obtain ⟨hv, hr⟩ := hfit row hrow c hcol hm
      simp only [hm, if_true, true_implies]
      exact valueFromString_string h hv hr
    · simp [hm]

/-! ### The round trip -/

/-- A library that prints times as RFC 3339 has it, and has no floats. -/
def withTimes : Stdlib :=
  { Stdlib.plain with formatTime := fun t => Rfc3339.format t.nanos t.zone }

theorem texts_withTimes : Texts withTimes where
  formatTime _ := rfl
  parseFloat_null := rfl
  parseFloat_nil := rfl

/-- A result comes back exactly if it has columns for its rows and all values are kept: read by
the types of its columns, read at the schema it is complete for, and read at the schema of which
it has some columns. -/
theorem wire_right_iff (h : Texts lib) :
    (∀ (r : QueryResult) (types : List SqlType), (∀ row ∈ r.rows, List.Forall₂ Fits types row) →
      (∀ row ∈ r.rows, ∀ v ∈ row, FloatRead lib v) →
      (rowsFromPayloadTyped lib (payloadOf lib (some r)) types = r.rows ↔
        Shown r ∧ ∀ row ∈ r.rows, List.Forall₂ Kept types row)) ∧
    ∀ (r : QueryResult) (schema : TableSchema) (rows : List (Bytes → Value)),
      r.rows = (rows.map fun row => r.columns.map row) →
      (∀ row ∈ rows, ∀ c ∈ schema.columns, c.name ∈ r.columns →
        Fits c.type (row c.name) ∧ FloatRead lib (row c.name)) →
      (rowsFromPayload lib (payloadOf lib (some r)) schema =
          rows.map (widen lib schema r.columns) ↔
        Shown r ∧ ∀ row ∈ rows, ∀ c ∈ schema.columns, c.name ∈ r.columns →
          Kept c.type (row c.name)) ∧
      ((r.columns = schema.columns.map fun c => c.name) →
        (rowsFromPayload lib (payloadOf lib (some r)) schema = r.rows ↔
          Shown r ∧ ∀ row ∈ rows, ∀ c ∈ schema.columns, Kept c.type (row c.name))) := by
  refine ⟨fun r types hfit hf => rowsFromPayloadTyped_iff h hfit hf, ?_⟩
  intro r schema rows hrows hfit
  have hiff := rowsFromPayload_iff h hrows hfit
  refine ⟨hiff, fun hnames => ?_⟩
  have hfull : rows.map (widen lib schema r.columns) = r.rows := by
    rw [hrows, hnames]
    exact List.map_congr_left fun row _ => widen_names schema row
  rw [← hfull, hiff]
  refine and_congr_right fun _ => forall₄_congr fun row _ c hc => ?_
  simp [hnames, List.mem_map_of_mem hc]

/-- Two columns, an id and a name. -/
def people : TableSchema where
  name := [112]
  columns := [{ name := [105], type := .int, notNull := true, default := .nil, asPrimary := true },
    { name := [110], type := .string, notNull := false, default := .nil, asPrimary := false }]
  pk := [[105]]
  engine := []

/-- Two people by the names of the columns, one with a name that reads as NULL does. -/
def twoPeople : List (Bytes → Value) :=
  [fun name => if name = [105] then intValue 7 else strValue (ascii "NULL"),
    fun name => if name = [105] then intValue (-1) else strValue []]

def peopleResult (rows : List (Bytes → Value)) : QueryResult where
  type := ascii "select"
  columns := [[105], [110]]
  rows := rows.map fun row => [row [105], row [110]]
  affected := rows.length.toInt64

theorem wire_right_iff_people :
    rowsFromPayloadTyped withTimes (payloadOf withTimes (some (peopleResult twoPeople)))
        [.int, .string] = (peopleResult twoPeople).rows ∧
    rowsFromPayload withTimes (payloadOf withTimes (some (peopleResult twoPeople))) people =
        (peopleResult twoPeople).rows := by
  obtain ⟨htyped, hschema⟩ := wire_right_iff texts_withTimes
  have hrows : (peopleResult twoPeople).rows =
    [[intValue 7, strValue (ascii "NULL")], [intValue (-1), strValue []]] := rfl
  have hint : ∀ n, Fits .int (intValue n) ∧ Kept .int (intValue n) ∧
      FloatRead withTimes (intValue n) := fun n =>
    ⟨.int n, by simp [Kept, intValue, nullValue], by simp [FloatRead, intValue]⟩
  have hstr : ∀ s, Fits .string (strValue s) ∧ Kept .string (strValue s) ∧
      FloatRead withTimes (strValue s) := fun s =>
    ⟨.string s, by simp [Kept, strValue, nullValue], by simp [FloatRead, strValue]⟩
  constructor
  · refine (htyped (peopleResult twoPeople) [.int, .string] ?_ ?_).mpr ⟨by rintro ⟨⟩, ?_⟩ <;>
      simp [hrows, hint, hstr]
  · refine ((hschema (peopleResult twoPeople) people twoPeople rfl ?_).2 rfl).mpr ⟨by rintro ⟨⟩, ?_⟩ <;>
      simp [people, twoPeople, hint, hstr]

/-- A missing name comes back as the text `NULL`. -/
theorem not_wire_right : ¬ ∀ (lib : Stdlib) (r : QueryResult) (types : List SqlType), Texts lib →
    (∀ row ∈ r.rows, List.Forall₂ Fits types row) →
    (∀ row ∈ r.rows, ∀ v ∈ row, FloatRead lib v) → Shown r →
    rowsFromPayloadTyped lib (payloadOf lib (some r)) types = r.rows := by
  intro h
  let noName : List (Bytes → Value) := [fun name => if name = [105] then intValue 7 else nullValue]
  have hnull := h withTimes (peopleResult noName) [.int, .string] texts_withTimes
    (by simp [noName, peopleResult, Fits.int, Fits.null])
    (by simp [noName, peopleResult, FloatRead, intValue, nullValue]) nofun
  exact absurd hnull (by decide +kernel)

end Ydbgo.Shard
