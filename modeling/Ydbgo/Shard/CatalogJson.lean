import Ydbgo.Lib.Base64
import Ydbgo.Lib.Json
import Ydbgo.Shard.Catalog
import Ydbgo.Sql.BincodecRoundTrip

/-! # The catalog as JSON

`json.Marshal` and `json.Unmarshal` of the catalog, and the commands as they are
read from the log. A catalog is read back from its text if its strings are
UTF-8, as those of a catalog are whose commands came out of the log. The DEFAULT
expressions of columns are left out.
-/

namespace Ydbgo.Shard

open Json

/-! ### Numbers -/

theorem isNumber_formatInt (n : Int64) : isNumber (Sql.formatInt n) := by
  by_cases h : 0 ≤ n.toInt
  · rw [Sql.formatInt_of_nonneg h]
    exact isNumber_formatNat _
  · rw [Sql.formatInt_of_neg (by omega)]
    exact isNumber_neg_formatNat _

def encodeInt (n : Int64) : Json := .num ⟨Sql.formatInt n, isNumber_formatInt n⟩

def decodeInt : Json → Option Int64
  | .null => some 0
  | .num n => Sql.parseInt n.text
  | _ => none

def encodeUint (n : UInt64) : Json := .num ⟨formatNat n.toNat, isNumber_formatNat _⟩

/-- `strconv.ParseUint`, for an unsigned number. -/
def decodeUint : Json → Option UInt64
  | .null => some 0
  | .num n =>
    if n.text.all isDecimal ∧ natOfDigits n.text < 2 ^ 64 then some (.ofNat (natOfDigits n.text))
    else none
  | _ => none

def encodeType (t : Sql.SqlType) : Json := encodeInt (.ofNat t.toByte.toNat)

def decodeType (j : Json) : Option Sql.SqlType := do
  let n ← decodeInt j
  if 0 ≤ n.toInt ∧ n.toInt < 256 then some (.ofByte (.ofNat n.toInt.toNat)) else none

theorem decodeInt_encodeInt (n : Int64) : decodeInt (encodeInt n) = some n :=
  Sql.parseInt_formatInt n

theorem decodeUint_encodeUint (n : UInt64) : decodeUint (encodeUint n) = some n := by
  have hall : (formatNat n.toNat).all isDecimal := List.all_eq_true.mpr fun b hb =>
    isDecimal_of_mem_formatNat hb
  have hlt := n.toNat_lt
  simp [decodeUint, encodeUint, hall, natOfDigits_formatNat, hlt]

theorem decodeType_encodeType (t : Sql.SqlType) : decodeType (encodeType t) = some t := by
  have hlt := t.toByte.toNat_lt
  have hint : (Int64.ofNat t.toByte.toNat).toInt = t.toByte.toNat :=
    Int64.toInt_ofNat_of_lt (by omega)
  simp only [decodeType, encodeType, decodeInt_encodeInt, Option.bind_eq_bind, Option.bind_some, hint]
  rw [if_pos (by omega), Int.toNat_natCast, UInt8.ofNat_toNat, Sql.ofByte_toByte]

/-! ### Writing -/

def encodeBytes (s : Bytes) : Json := .str (Base64.encode s)

/-- A field that is left out where it is empty. -/
def omitEmpty (name : Bytes) (s : Bytes) : List (Bytes × Json) :=
  if s = [] then [] else [(name, encodeBytes s)]

def encodeNodeSpec (n : NodeSpec) : Json :=
  .obj [(ascii "id", .str n.id), (ascii "sql_addr", .str n.sqlAddr),
    (ascii "raft_addr", .str n.raftAddr)]

def encodeShardSpec (s : ShardSpec) : Json :=
  .obj ([(ascii "id", .str s.id), (ascii "table", .str s.table)] ++
    omitEmpty (ascii "start") s.start ++ omitEmpty (ascii "end") s.stop ++
    [(ascii "nodes", ofList .str s.nodes), (ascii "size", encodeUint s.size)])

def encodeColumn (c : Sql.ColumnDef) : Json :=
  .obj [(ascii "Name", .str c.name), (ascii "Type", encodeType c.type),
    (ascii "NotNull", .bool c.notNull), (ascii "Default", .null),
    (ascii "AsPrimary", .bool c.asPrimary)]

def encodeSchema (s : Schema) : Json :=
  .obj [(ascii "Name", .str s.name), (ascii "Columns", ofList encodeColumn s.columns),
    (ascii "PK", ofList .str s.pk), (ascii "Engine", .str s.engine),
    (ascii "Retention", encodeInt s.retention)]

def encodeTableSpec (ts : TableSpec) : Json :=
  .obj [(ascii "schema", encodeSchema ts.schema), (ascii "shards", ofList encodeShardSpec ts.shards)]

def encodeCatalog (cat : Catalog) : Json :=
  .obj [(ascii "version", encodeUint cat.version), (ascii "nodes", ofList .str cat.nodes),
    (ascii "specs", ofMap encodeNodeSpec cat.specs), (ascii "tables", ofMap encodeTableSpec cat.tables)]

/-- `json.Marshal`. -/
def marshal (cat : Catalog) : Bytes := print (encodeCatalog cat)

/-! ### Reading -/

def decodeBytes (j : Json) : Option Bytes := (asString j).bind Base64.decode

/-- What a pointer points to, which is not null. -/
def asStruct : Json → Option (List (Bytes × Json))
  | .obj members => some members
  | _ => none

def decodeNodeSpec (j : Json) : Option NodeSpec := do
  let ms ← asStruct j
  return {
    id := ← asString (member ms (ascii "id"))
    sqlAddr := ← asString (member ms (ascii "sql_addr"))
    raftAddr := ← asString (member ms (ascii "raft_addr")) }

def decodeShardSpec (j : Json) : Option ShardSpec := do
  let ms ← asStruct j
  return {
    id := ← asString (member ms (ascii "id"))
    table := ← asString (member ms (ascii "table"))
    start := ← decodeBytes (member ms (ascii "start"))
    stop := ← decodeBytes (member ms (ascii "end"))
    nodes := ← asList asString (member ms (ascii "nodes"))
    size := ← decodeUint (member ms (ascii "size")) }

def decodeColumn (j : Json) : Option Sql.ColumnDef := do
  let ms ← asObject j
  return {
    name := ← asString (member ms (ascii "Name"))
    type := ← decodeType (member ms (ascii "Type"))
    notNull := ← asBool (member ms (ascii "NotNull"))
    default := .nil
    asPrimary := ← asBool (member ms (ascii "AsPrimary")) }

def decodeSchema (j : Json) : Option Schema := do
  let ms ← asStruct j
  return {
    name := ← asString (member ms (ascii "Name"))
    columns := ← asList decodeColumn (member ms (ascii "Columns"))
    pk := ← asList asString (member ms (ascii "PK"))
    engine := ← asString (member ms (ascii "Engine"))
    retention := ← decodeInt (member ms (ascii "Retention")) }

def decodeTableSpec (j : Json) : Option TableSpec := do
  let ms ← asStruct j
  return {
    schema := ← decodeSchema (member ms (ascii "schema"))
    shards := ← asList decodeShardSpec (member ms (ascii "shards")) }

def decodeCatalog (j : Json) : Option Catalog := do
  let ms ← asObject j
  return {
    version := ← decodeUint (member ms (ascii "version"))
    nodes := ← asList asString (member ms (ascii "nodes"))
    specs := ← asMap decodeNodeSpec (member ms (ascii "specs"))
    tables := ← asMap decodeTableSpec (member ms (ascii "tables")) }

/-- `json.Unmarshal`, and an empty map where there is none. -/
def unmarshal (data : Bytes) : Option Catalog := (parse data).bind decodeCatalog

/-- The schema of a command, if it has one. -/
def decodeSchema? : Json → Option (Option Schema)
  | .null => some none
  | j => (decodeSchema j).map some

/-- All fields are read, whatever the command. -/
def decodeCommand (j : Json) : Option MetaCommand := do
  let ms ← asObject j
  let op ← asString (member ms (ascii "op"))
  let id ← asString (member ms (ascii "id"))
  let sqlAddr ← asString (member ms (ascii "sql_addr"))
  let raftAddr ← asString (member ms (ascii "raft_addr"))
  let schema ← decodeSchema? (member ms (ascii "schema"))
  let shards ← asList decodeShardSpec (member ms (ascii "shards"))
  let table ← asString (member ms (ascii "table"))
  let shard ← asString (member ms (ascii "shard"))
  let newShards ← asList decodeShardSpec (member ms (ascii "new_shards"))
  let splitKey ← asString (member ms (ascii "split_key"))
  let nodes ← asList asString (member ms (ascii "nodes"))
  let removeID ← asString (member ms (ascii "remove_id"))
  if op = ascii "register_node" then some (.registerNode id sqlAddr raftAddr)
  else if op = ascii "remove_node" then some (.removeNode removeID)
  else if op = ascii "set_shard_nodes" then some (.setShardNodes table shard nodes)
  else if op = ascii "create_table" then schema.map fun schema => .createTable schema shards
  else if op = ascii "drop_table" then some (.dropTable table)
  else if op = ascii "split_shard" then some (.splitShard table splitKey newShards)
  else some (.other op)

/-- The command in a log entry. One without the schema or the shard that it needs makes the node
panic before the catalog changes; it is no command here. -/
def readCommand (data : Bytes) : Option MetaCommand := (parse data).bind decodeCommand

/-! ### Catalogs that are text -/

def NodeSpec.IsText (n : NodeSpec) : Prop := IsUtf8 n.id ∧ IsUtf8 n.sqlAddr ∧ IsUtf8 n.raftAddr

def ShardSpec.IsText (s : ShardSpec) : Prop :=
  IsUtf8 s.id ∧ IsUtf8 s.table ∧ ∀ n ∈ s.nodes, IsUtf8 n

/-- The schema's strings are UTF-8, and it has no DEFAULT. -/
structure Schema.IsText (s : Schema) : Prop where
  name : IsUtf8 s.name
  columns : ∀ c ∈ s.columns, IsUtf8 c.name ∧ c.default = .nil
  pk : ∀ name ∈ s.pk, IsUtf8 name
  engine : IsUtf8 s.engine

def TableSpec.IsText (ts : TableSpec) : Prop := ts.schema.IsText ∧ ∀ s ∈ ts.shards, s.IsText

structure Catalog.IsText (cat : Catalog) : Prop where
  nodes : ∀ n ∈ cat.nodes, IsUtf8 n
  specs : ∀ e ∈ cat.specs.entries, IsUtf8 e.1 ∧ e.2.IsText
  tables : ∀ e ∈ cat.tables.entries, IsUtf8 e.1 ∧ e.2.IsText

/-- The strings that the command may put into the catalog are UTF-8. -/
def MetaCommand.IsText : MetaCommand → Prop
  | .registerNode id sqlAddr raftAddr => IsUtf8 id ∧ IsUtf8 sqlAddr ∧ IsUtf8 raftAddr
  | .setShardNodes _ _ nodes => ∀ n ∈ nodes, IsUtf8 n
  | .createTable schema shards => schema.IsText ∧ ∀ s ∈ shards, s.IsText
  | .splitShard table _ newShards => IsUtf8 table ∧ ∀ s ∈ newShards, s.IsText
  | .removeNode _ | .dropTable _ | .other _ => True

/-! ### What is written is read back -/

theorem decodeBytes_encodeBytes (s : Bytes) : decodeBytes (encodeBytes s) = some s :=
  Base64.decode_encode s

theorem asList_strings (xs : List Bytes) : asList asString (ofList .str xs) = some xs :=
  asList_ofList fun _ _ => rfl

theorem decodeNodeSpec_encode (n : NodeSpec) : decodeNodeSpec (encodeNodeSpec n) = some n := rfl

/-- The members of a shard, whichever bounds are left out. -/
theorem members_encodeShardSpec (s : ShardSpec) : ∃ ms, encodeShardSpec s = .obj ms ∧
    member ms (ascii "id") = .str s.id ∧ member ms (ascii "table") = .str s.table ∧
    decodeBytes (member ms (ascii "start")) = some s.start ∧
    decodeBytes (member ms (ascii "end")) = some s.stop ∧
    member ms (ascii "nodes") = ofList .str s.nodes ∧
    member ms (ascii "size") = encodeUint s.size := by
  refine ⟨_, rfl, ?_⟩
  unfold omitEmpty
  split
  · next hstart =>
    split
    · next hstop => exact ⟨rfl, rfl, congrArg some hstart.symm, congrArg some hstop.symm, rfl, rfl⟩
    · exact ⟨rfl, rfl, congrArg some hstart.symm, decodeBytes_encodeBytes _, rfl, rfl⟩
  · split
    · next hstop => exact ⟨rfl, rfl, decodeBytes_encodeBytes _, congrArg some hstop.symm, rfl, rfl⟩
    · exact ⟨rfl, rfl, decodeBytes_encodeBytes _, decodeBytes_encodeBytes _, rfl, rfl⟩

theorem decodeShardSpec_encode (s : ShardSpec) : decodeShardSpec (encodeShardSpec s) = some s := by
  obtain ⟨ms, hms, hid, htable, hstart, hstop, hnodes, hsize⟩ := members_encodeShardSpec s
  simp only [decodeShardSpec, hms, asStruct, hid, htable, hstart, hstop, hnodes, hsize, asString,
    asList_strings, decodeUint_encodeUint, Option.bind_eq_bind, Option.bind_some, Option.pure_def]

theorem decodeColumn_encode {c : Sql.ColumnDef} (h : c.default = .nil) :
    decodeColumn (encodeColumn c) = some c := by
  have hmembers : decodeColumn (encodeColumn c) = (decodeType (encodeType c.type)).bind fun type =>
      some { c with type := type, default := .nil } := rfl
  rw [hmembers, decodeType_encodeType, Option.bind_some, ← h]

theorem decodeSchema_encode {s : Schema} (h : s.IsText) : decodeSchema (encodeSchema s) = some s := by
  have hmembers : decodeSchema (encodeSchema s) =
      (asList decodeColumn (ofList encodeColumn s.columns)).bind fun columns =>
      (asList asString (ofList .str s.pk)).bind fun pk =>
      (decodeInt (encodeInt s.retention)).bind fun retention =>
      some { s with columns := columns, pk := pk, retention := retention } := rfl
  rw [hmembers, asList_ofList fun c hc => decodeColumn_encode (h.columns c hc).2, asList_strings,
    decodeInt_encodeInt]
  rfl

theorem decodeTableSpec_encode {ts : TableSpec} (h : ts.IsText) :
    decodeTableSpec (encodeTableSpec ts) = some ts := by
  have hmembers : decodeTableSpec (encodeTableSpec ts) =
      (decodeSchema (encodeSchema ts.schema)).bind fun schema =>
      (asList decodeShardSpec (ofList encodeShardSpec ts.shards)).bind fun shards =>
      some { schema := schema, shards := shards } := rfl
  rw [hmembers, decodeSchema_encode h.1, asList_ofList fun s _ => decodeShardSpec_encode s]
  rfl

theorem decodeCatalog_encode {cat : Catalog} (h : cat.IsText) :
    decodeCatalog (encodeCatalog cat) = some cat := by
  have hmembers : decodeCatalog (encodeCatalog cat) =
      (decodeUint (encodeUint cat.version)).bind fun version =>
      (asList asString (ofList .str cat.nodes)).bind fun nodes =>
      (asMap decodeNodeSpec (ofMap encodeNodeSpec cat.specs)).bind fun specs =>
      (asMap decodeTableSpec (ofMap encodeTableSpec cat.tables)).bind fun tables =>
      some { version := version, nodes := nodes, specs := specs, tables := tables } := rfl
  rw [hmembers, decodeUint_encodeUint, asList_strings,
    asMap_ofMap fun e _ => decodeNodeSpec_encode e.2,
    asMap_ofMap fun e he => decodeTableSpec_encode (h.tables e he).2]
  rfl

/-! ### What is written is text -/

theorem isUtf8_nil : IsUtf8 [] := rfl

theorem isText_omitEmpty {name : Bytes} (hname : IsUtf8 name) (s : Bytes) :
    ∀ m ∈ omitEmpty name s, IsUtf8 m.1 ∧ Json.IsText m.2 := by
  unfold omitEmpty
  split
  · exact nofun
  · rintro m hm
    obtain rfl := List.mem_singleton.mp hm
    exact ⟨hname, isUtf8_ascii (Base64.lt_of_mem_encode s)⟩

theorem isText_encodeNodeSpec {n : NodeSpec} (h : n.IsText) : Json.IsText (encodeNodeSpec n) :=
  ⟨⟨isUtf8_of_all rfl, h.1⟩, ⟨isUtf8_of_all rfl, h.2.1⟩,
    ⟨isUtf8_of_all rfl, h.2.2⟩, trivial⟩

theorem isText_encodeShardSpec {s : ShardSpec} (h : s.IsText) : Json.IsText (encodeShardSpec s) := by
  apply membersText_iff.mpr
  rintro m hm
  simp only [List.mem_append, List.mem_cons, List.not_mem_nil, or_false] at hm
  rcases hm with (((rfl | rfl) | hm) | hm) | rfl | rfl
  · exact ⟨isUtf8_of_all (s := ascii "id") rfl, h.1⟩
  · exact ⟨isUtf8_of_all (s := ascii "table") rfl, h.2.1⟩
  · exact isText_omitEmpty (isUtf8_of_all rfl) _ m hm
  · exact isText_omitEmpty (isUtf8_of_all rfl) _ m hm
  · exact ⟨isUtf8_of_all (s := ascii "nodes") rfl, isText_ofList h.2.2⟩
  · exact ⟨isUtf8_of_all (s := ascii "size") rfl, trivial⟩

theorem isText_encodeColumn {c : Sql.ColumnDef} (h : IsUtf8 c.name) :
    Json.IsText (encodeColumn c) :=
  ⟨⟨isUtf8_of_all rfl, h⟩, ⟨isUtf8_of_all rfl, trivial⟩,
    ⟨isUtf8_of_all rfl, trivial⟩, ⟨isUtf8_of_all rfl, trivial⟩,
    ⟨isUtf8_of_all rfl, trivial⟩, trivial⟩

theorem isText_encodeSchema {s : Schema} (h : s.IsText) : Json.IsText (encodeSchema s) :=
  ⟨⟨isUtf8_of_all rfl, h.name⟩,
    ⟨isUtf8_of_all rfl, isText_ofList fun c hc => isText_encodeColumn (h.columns c hc).1⟩,
    ⟨isUtf8_of_all rfl, isText_ofList h.pk⟩, ⟨isUtf8_of_all rfl, h.engine⟩,
    ⟨isUtf8_of_all rfl, trivial⟩, trivial⟩

theorem isText_encodeTableSpec {ts : TableSpec} (h : ts.IsText) : Json.IsText (encodeTableSpec ts) :=
  ⟨⟨isUtf8_of_all rfl, isText_encodeSchema h.1⟩,
    ⟨isUtf8_of_all rfl, isText_ofList fun s hs => isText_encodeShardSpec (h.2 s hs)⟩, trivial⟩

theorem isText_encodeCatalog {cat : Catalog} (h : cat.IsText) : Json.IsText (encodeCatalog cat) :=
  ⟨⟨isUtf8_of_all rfl, trivial⟩, ⟨isUtf8_of_all rfl, isText_ofList h.nodes⟩,
    ⟨isUtf8_of_all rfl, isText_ofMap fun e he =>
      ⟨(h.specs e he).1, isText_encodeNodeSpec (h.specs e he).2⟩⟩,
    ⟨isUtf8_of_all rfl, isText_ofMap fun e he =>
      ⟨(h.tables e he).1, isText_encodeTableSpec (h.tables e he).2⟩⟩, trivial⟩

/-- A catalog whose strings are UTF-8 is read back from its text. -/
theorem unmarshal_marshal {cat : Catalog} (h : cat.IsText) : unmarshal (marshal cat) = some cat := by
  rw [unmarshal, marshal, parse_print (isText_encodeCatalog h), Option.bind_some,
    decodeCatalog_encode h]

/-! ### What is read is text -/

theorem asObject_of_asStruct {j : Json} {ms : List (Bytes × Json)} (h : asStruct j = some ms) :
    asObject j = some ms := by
  cases j <;> cases h
  rfl

theorem strings_asList {j : Json} {xs : List Bytes} (hj : Json.IsText j)
    (h : asList asString j = some xs) : ∀ x ∈ xs, IsUtf8 x :=
  forall_asList (fun _ _ => isUtf8_asString) hj h

theorem isText_decodeNodeSpec (j : Json) (n : NodeSpec) (hj : Json.IsText j)
    (h : decodeNodeSpec j = some n) : n.IsText := by
  simp only [decodeNodeSpec, Option.bind_eq_bind, Option.bind_eq_some_iff, Option.pure_def,
    Option.some.injEq] at h
  obtain ⟨ms, hms, id, hid, sqlAddr, hsql, raftAddr, hraft, rfl⟩ := h
  have htext := membersText_asObject hj (asObject_of_asStruct hms)
  exact ⟨isUtf8_asString (isText_member htext _) hid, isUtf8_asString (isText_member htext _) hsql,
    isUtf8_asString (isText_member htext _) hraft⟩

theorem isText_decodeShardSpec (j : Json) (s : ShardSpec) (hj : Json.IsText j)
    (h : decodeShardSpec j = some s) : s.IsText := by
  simp only [decodeShardSpec, Option.bind_eq_bind, Option.bind_eq_some_iff, Option.pure_def,
    Option.some.injEq] at h
  obtain ⟨ms, hms, id, hid, table, htable, start, -, stop, -, nodes, hnodes, size, -, rfl⟩ := h
  have htext := membersText_asObject hj (asObject_of_asStruct hms)
  exact ⟨isUtf8_asString (isText_member htext _) hid,
    isUtf8_asString (isText_member htext _) htable, strings_asList (isText_member htext _) hnodes⟩

theorem isText_decodeColumn (j : Json) (c : Sql.ColumnDef) (hj : Json.IsText j)
    (h : decodeColumn j = some c) : IsUtf8 c.name ∧ c.default = .nil := by
  simp only [decodeColumn, Option.bind_eq_bind, Option.bind_eq_some_iff, Option.pure_def,
    Option.some.injEq] at h
  obtain ⟨ms, hms, name, hname, type, -, notNull, -, asPrimary, -, rfl⟩ := h
  have htext := membersText_asObject hj hms
  exact ⟨isUtf8_asString (isText_member htext _) hname, rfl⟩

theorem isText_decodeSchema {j : Json} {s : Schema} (hj : Json.IsText j)
    (h : decodeSchema j = some s) : s.IsText := by
  simp only [decodeSchema, Option.bind_eq_bind, Option.bind_eq_some_iff, Option.pure_def,
    Option.some.injEq] at h
  obtain ⟨ms, hms, name, hname, columns, hcolumns, pk, hpk, engine, hengine, retention, -, rfl⟩ := h
  have htext := membersText_asObject hj (asObject_of_asStruct hms)
  exact {
    name := isUtf8_asString (isText_member htext _) hname
    columns := forall_asList isText_decodeColumn (isText_member htext _) hcolumns
    pk := strings_asList (isText_member htext _) hpk
    engine := isUtf8_asString (isText_member htext _) hengine }

theorem isText_decodeTableSpec (j : Json) (ts : TableSpec) (hj : Json.IsText j)
    (h : decodeTableSpec j = some ts) : ts.IsText := by
  simp only [decodeTableSpec, Option.bind_eq_bind, Option.bind_eq_some_iff, Option.pure_def,
    Option.some.injEq] at h
  obtain ⟨ms, hms, schema, hschema, shards, hshards, rfl⟩ := h
  have htext := membersText_asObject hj (asObject_of_asStruct hms)
  exact ⟨isText_decodeSchema (isText_member htext _) hschema,
    forall_asList isText_decodeShardSpec (isText_member htext _) hshards⟩

theorem isText_unmarshal {data : Bytes} {cat : Catalog} (h : unmarshal data = some cat) :
    cat.IsText := by
  obtain ⟨j, hparse, h⟩ := Option.bind_eq_some_iff.mp h
  have hj := isText_parse hparse
  simp only [decodeCatalog, Option.bind_eq_bind, Option.bind_eq_some_iff, Option.pure_def,
    Option.some.injEq] at h
  obtain ⟨ms, hms, version, -, nodes, hnodes, specs, hspecs, tables, htables, rfl⟩ := h
  have htext := membersText_asObject hj hms
  exact {
    nodes := strings_asList (isText_member htext _) hnodes
    specs := forall_asMap isText_decodeNodeSpec (isText_member htext _) hspecs
    tables := forall_asMap isText_decodeTableSpec (isText_member htext _) htables }

theorem isText_decodeSchema? {j : Json} {schema : Schema} (hj : Json.IsText j)
    (h : decodeSchema? j = some (some schema)) : schema.IsText := by
  unfold decodeSchema? at h
  split at h
  · cases h
  · obtain ⟨s, hs, he⟩ := Option.map_eq_some_iff.mp h
    exact Option.some.inj he ▸ isText_decodeSchema hj hs

/-- The strings of a command out of the log are UTF-8. -/
theorem isText_readCommand {data : Bytes} {cmd : MetaCommand} (h : readCommand data = some cmd) :
    cmd.IsText := by
  obtain ⟨j, hparse, h⟩ := Option.bind_eq_some_iff.mp h
  have hj := isText_parse hparse
  obtain ⟨ms, hms, h⟩ := Option.bind_eq_some_iff.mp h
  obtain ⟨op, -, h⟩ := Option.bind_eq_some_iff.mp h
  obtain ⟨id, hid, h⟩ := Option.bind_eq_some_iff.mp h
  obtain ⟨sqlAddr, hsql, h⟩ := Option.bind_eq_some_iff.mp h
  obtain ⟨raftAddr, hraft, h⟩ := Option.bind_eq_some_iff.mp h
  obtain ⟨schema, hschema, h⟩ := Option.bind_eq_some_iff.mp h
  obtain ⟨shards, hshards, h⟩ := Option.bind_eq_some_iff.mp h
  obtain ⟨table, htable, h⟩ := Option.bind_eq_some_iff.mp h
  obtain ⟨shard, -, h⟩ := Option.bind_eq_some_iff.mp h
  obtain ⟨newShards, hnew, h⟩ := Option.bind_eq_some_iff.mp h
  obtain ⟨splitKey, -, h⟩ := Option.bind_eq_some_iff.mp h
  obtain ⟨nodes, hnodes, h⟩ := Option.bind_eq_some_iff.mp h
  obtain ⟨removeID, -, h⟩ := Option.bind_eq_some_iff.mp h
  have htext := fun name => isText_member (membersText_asObject hj hms) name
  split at h
  · cases h
    exact ⟨isUtf8_asString (htext _) hid, isUtf8_asString (htext _) hsql,
      isUtf8_asString (htext _) hraft⟩
  split at h
  · cases h
    trivial
  split at h
  · cases h
    exact strings_asList (htext _) hnodes
  split at h
  · obtain ⟨s, rfl, he⟩ := Option.map_eq_some_iff.mp h
    cases he
    exact ⟨isText_decodeSchema? (htext _) hschema,
      forall_asList isText_decodeShardSpec (htext _) hshards⟩
  split at h
  · cases h
    trivial
  split at h
  · cases h
    exact ⟨isUtf8_asString (htext _) htable,
      forall_asList isText_decodeShardSpec (htext _) hnew⟩
  · cases h
    trivial

end Ydbgo.Shard
