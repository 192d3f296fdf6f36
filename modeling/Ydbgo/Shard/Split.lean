import Ydbgo.Shard.Catalog
import Ydbgo.Storage.PkCodec

/-! # Splitting shards

A split adds an empty shard that starts at the split key. The key is given by
value or is the median of the shard's rows. A request reads the catalog several
times before its command is proposed, and the command may commit later still.
-/

namespace Ydbgo.Shard
open Sql

inductive SplitError where
  | tableNotFound (table : Bytes)
  | keyCount (got : ℕ) (table : Bytes) (want : ℕ)
  | emptyKey
  | unbalancedParen
  | unbalancedQuote
  | invalidInt (s : Bytes)
  | invalidFloat (s : Bytes)
  | invalidTimestamp (s : Bytes)
  | belowStart (raw shard : Bytes)
  | noNodes
  | mount (err : Bytes)
  deriving DecidableEq, Repr

variable (lib : Stdlib)

def SplitError.message : SplitError → Bytes
  | tableNotFound table => ascii "table " ++ lib.quote table ++ ascii " not found"
  | keyCount got table want => ascii "split key has " ++ formatNat got ++ ascii " value(s), but " ++
      lib.quote table ++ ascii " has a composite primary key of " ++ formatNat want ++
      ascii " column(s)"
  | emptyKey => ascii "empty split key"
  | unbalancedParen => ascii "unbalanced '(' in split key"
  | unbalancedQuote => ascii "unbalanced quote in split key"
  | invalidInt s => ascii "invalid int pk value " ++ lib.quote s
  | invalidFloat s => ascii "invalid float pk value " ++ lib.quote s
  | invalidTimestamp s => ascii "invalid timestamp pk value " ++ lib.quote s
  | belowStart raw shard => ascii "split key " ++ lib.quote raw ++ ascii " is below shard " ++
      shard ++ ascii " start"
  | noNodes => ascii "no nodes available for new shard"
  | mount err => err

/-- `splitCommaQuoted`, from the text read so far. -/
def splitCommaQuoted (cur : Bytes) (inQuote : Bool) (out : List Bytes) :
    Bytes → Except SplitError (List Bytes)
  | [] =>
    if inQuote then .error .unbalancedQuote else .ok (out ++ [lib.trimSpace cur])
  | [c] =>
    if c = 39 then splitCommaQuoted (cur ++ [c]) (!inQuote) out []
    else if c = 44 ∧ ¬ inQuote then splitCommaQuoted [] false (out ++ [lib.trimSpace cur]) []
    else splitCommaQuoted (cur ++ [c]) inQuote out []
  | c :: d :: s =>
    if c = 39 ∧ inQuote ∧ d = 39 then splitCommaQuoted (cur ++ [39]) true out s
    else if c = 39 then splitCommaQuoted (cur ++ [c]) (!inQuote) out (d :: s)
    else if c = 44 ∧ ¬ inQuote then
      splitCommaQuoted [] false (out ++ [lib.trimSpace cur]) (d :: s)
    else splitCommaQuoted (cur ++ [c]) inQuote out (d :: s)

def parsePKSplitSpec (s : Bytes) : Except SplitError (List Bytes) :=
  match lib.trimSpace s with
  | [] => .error .emptyKey
  | c :: s =>
    if c ≠ 40 then .ok [c :: s]
    else if (c :: s).getLast? ≠ some 41 then .error .unbalancedParen
    else splitCommaQuoted lib [] false [] s.dropLast

def unquote (s : Bytes) : Bytes :=
  if 2 ≤ s.length ∧ s.head? = some 39 ∧ s.getLast? = some 39 then s.tail.dropLast else s

def parseValueString (t : SqlType) (s : Bytes) : Except SplitError Value :=
  match t with
  | .int =>
    match parseInt s with
    | none => .error (.invalidInt s)
    | some v => .ok (intValue v)
  | .float =>
    match lib.parseFloat s with
    | none => .error (.invalidFloat s)
    | some v => .ok (floatValue v)
  | .bool => .ok (boolValue (s = ascii "true" ∨ s = ascii "1"))
  | .timestamp =>
    match lib.parseTime s with
    | none => .error (.invalidTimestamp s)
    | some tm => .ok (timestampValue tm)
  | .string | .null | .other _ => .ok (strValue s)

def colTypeOf (schema : TableSchema) (name : Bytes) : SqlType :=
  ((schema.columns.find? fun c => c.name = name).map ColumnDef.type).getD .null

/-- The loop over the primary-key columns. -/
def parsePK (schema : TableSchema) : List Bytes → List Bytes → Except SplitError (List Value)
  | col :: pk, part :: parts => do
    let v ← parseValueString lib (colTypeOf schema col) (unquote part)
    let vs ← parsePK schema pk parts
    return v :: vs
  | _, _ => return []

/-- The catalogs that a request reads one after the other: for the table's schema, for the shard
that holds the key, for the number of shards and for the nodes. -/
structure Reads where
  schema : Catalog
  owner : Catalog
  count : Catalog
  nodes : Catalog

/-- What a node brings to a split beside the catalog: its replication factor, the nodes it holds
for alive, and the mounting of a replica. -/
structure Placing where
  rf : ℤ
  live : List Bytes
  mountShardGroup : ShardSpec → Except Bytes Unit

/-- `splitShardByValue` up to the split itself. -/
def splitTarget (reads : Reads) (table raw : Bytes) : Except SplitError (ShardSpec × Bytes) :=
  match reads.schema.tables.get table with
  | none => .error (.tableNotFound table)
  | some ts => do
    let parts ← parsePKSplitSpec lib raw
    if parts.length ≠ ts.schema.pk.length then
      .error (.keyCount parts.length table ts.schema.pk.length)
    else
      let values ← parsePK lib ts.schema.toTableSchema ts.schema.pk parts
      let key := Storage.encodePK values
      match owningShard reads.owner table key with
      | none => .error (.tableNotFound table)
      | some spec =>
        if spec.start ≠ [] ∧ key ≤ spec.start then .error (.belowStart raw spec.id)
        else .ok (spec, key)

/-- The nodes for a new shard: live ones where some are known, else any of the catalog. -/
def Placing.nodesFor (p : Placing) (all : List Bytes) (id : Bytes) : List Bytes :=
  let rf := if p.rf ≤ 0 then (all.length : ℤ) else p.rf
  let candidates := if p.live = [] then all else p.live
  pickNodes candidates (if candidates.length < rf then candidates.length else rf) (hashOf id)

def splitShard (reads : Reads) (p : Placing) (spec : ShardSpec) (splitKey : Bytes) :
    Except SplitError MetaCommand :=
  match reads.count.tables.get spec.table with
  | none => .error (.tableNotFound spec.table)
  | some ts =>
    let id := spec.id ++ ascii "-" ++ formatNat ts.shards.length
    let newSpec : ShardSpec :=
      { id := id, table := spec.table, start := splitKey, stop := spec.stop
        nodes := p.nodesFor reads.nodes.nodes id }
    if newSpec.nodes = [] then .error .noNodes
    else
      match p.mountShardGroup newSpec with
      | .error err => .error (.mount err)
      | .ok () => .ok (.splitShard spec.table splitKey [newSpec])

def splitShardByValue (reads : Reads) (p : Placing) (table raw : Bytes) :
    Except SplitError MetaCommand := do
  let (spec, key) ← splitTarget lib reads table raw
  splitShard reads p spec key

/-- A shard of which a narrower one with the same end already takes the upper keys. -/
def hasNarrowerSucc (shards : List ShardSpec) (spec : ShardSpec) : Bool :=
  shards.any fun s => s.id ≠ spec.id ∧ s.stop = spec.stop ∧ spec.start < s.start

/-- The encoded key of a scanned row, if all its key columns are there. -/
def pkKeyForRowValues (schema : TableSchema) (row : List Value) : Option Bytes :=
  (schema.pk.mapM fun p => (colIndex (schema.columns.map ColumnDef.name) p).bind (row[·]?)).map
    Storage.encodePK

/-- The median key of the rows scanned from a shard. -/
def splitPointFor (schema : TableSchema) (rows : List (List Value)) (spec : ShardSpec) :
    Option Bytes :=
  let keys := rows.filterMap (pkKeyForRowValues schema)
  if keys.length < 2 then none
  else
    let keys := keys.mergeSort fun a b => decide (a ≤ b)
    keys[keys.length / 2]?.bind fun mid => if mid ≤ spec.start then none else some mid

end Ydbgo.Shard
