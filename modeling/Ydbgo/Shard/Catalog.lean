import Ydbgo.Lib.Best
import Ydbgo.Lib.Decimal
import Ydbgo.Lib.SortedMap
import Ydbgo.Sql.Insert

/-! # The shard catalog

The replicated catalog of nodes, tables and shards, and the commands that change
it. A table's shards are ranges of encoded keys that may overlap after a split;
a key belongs to the one with the largest start among those that hold it.
-/

namespace Ydbgo.Shard

structure NodeSpec where
  id : Bytes
  sqlAddr : Bytes
  raftAddr : Bytes
  deriving DecidableEq, Repr

/-- A range of encoded keys with the nodes that host it. An empty bound is infinite. -/
structure ShardSpec where
  id : Bytes
  table : Bytes := []
  start : Bytes := []
  stop : Bytes := []
  nodes : List Bytes := []
  size : UInt64 := 0
  deriving DecidableEq, Repr

/-- `Owns`. -/
def ShardSpec.owns (s : ShardSpec) (key : Bytes) : Bool :=
  if s.start ≠ [] ∧ key < s.start then false
  else if s.stop ≠ [] ∧ s.stop ≤ key then false
  else true

/-- `StartAfter`. -/
def ShardSpec.startAfter (s o : ShardSpec) : Bool := o.start < s.start

/-- A table's schema with its retention in nanoseconds. -/
structure Schema extends Sql.TableSchema where
  retention : Int64 := 0

structure TableSpec where
  schema : Schema
  shards : List ShardSpec

structure Catalog where
  version : UInt64 := 0
  nodes : List Bytes := []
  specs : SortedMap Bytes NodeSpec := SortedMap.empty
  tables : SortedMap Bytes TableSpec := SortedMap.empty

/-- The commands by their `Op`, each with the fields that it reads. -/
inductive MetaCommand where
  | registerNode (id sqlAddr raftAddr : Bytes)
  | removeNode (removeID : Bytes)
  | setShardNodes (table shard : Bytes) (nodes : List Bytes)
  | createTable (schema : Schema) (shards : List ShardSpec)
  | dropTable (table : Bytes)
  | splitShard (table splitKey : Bytes) (newShards : List ShardSpec)
  | other (op : Bytes)

inductive MetaError where
  | tableNotFound (table : Bytes)
  | shardNotFound (shard : Bytes)
  | unknownOp (op : Bytes)
  deriving DecidableEq, Repr

def MetaError.message (lib : Sql.Stdlib) : MetaError → Bytes
  | tableNotFound table => ascii "table " ++ lib.quote table ++ ascii " not found"
  | shardNotFound shard => ascii "shard " ++ lib.quote shard ++ ascii " not found"
  | unknownOp op => ascii "meta: unknown op " ++ lib.quote op

def shardExists (shards : List ShardSpec) (id : Bytes) : Bool := shards.any fun s => s.id = id

/-- Without its first `v`. -/
def removeString : List Bytes → Bytes → List Bytes
  | [], _ => []
  | x :: xs, v => if x = v then xs else x :: removeString xs v

/-- The shards with other nodes for the first one of that identifier, if there is one. -/
def setNodes (shard : Bytes) (nodes : List Bytes) : List ShardSpec → Option (List ShardSpec)
  | [] => none
  | s :: ss =>
    if s.id = shard then some ({ s with nodes := nodes } :: ss)
    else (setNodes shard nodes ss).map (s :: ·)

/-- The shards with the new ones whose identifiers are not there yet. -/
def addShards (table : Bytes) : List ShardSpec → List ShardSpec → List ShardSpec
  | shards, [] => shards
  | shards, s :: ss =>
    if shardExists shards s.id then addShards table shards ss
    else addShards table (shards ++ [{ s with table := table }]) ss

def applyCommand (cat : Catalog) : MetaCommand → Except MetaError Catalog
  | .registerNode id sqlAddr raftAddr =>
    if (cat.specs.get id).isSome then .ok cat
    else .ok { cat with
      specs := cat.specs.insert id { id := id, sqlAddr := sqlAddr, raftAddr := raftAddr }
      nodes := cat.nodes ++ [id] }
  | .removeNode removeID =>
    if (cat.specs.get removeID).isSome then .ok { cat with
      specs := cat.specs.erase removeID
      nodes := removeString cat.nodes removeID }
    else .ok cat
  | .setShardNodes table shard nodes =>
    match cat.tables.get table with
    | none => .error (.tableNotFound table)
    | some ts =>
      match setNodes shard nodes ts.shards with
      | none => .error (.shardNotFound shard)
      | some shards => .ok { cat with
          tables := cat.tables.insert table { ts with shards := shards } }
  | .createTable schema shards =>
    if (cat.tables.get schema.name).isSome then .ok cat
    else .ok { cat with
      tables := cat.tables.insert schema.name
        { schema := schema, shards := shards.map fun s => { s with table := schema.name } } }
  | .dropTable table => .ok { cat with tables := cat.tables.erase table }
  | .splitShard table _ newShards =>
    match cat.tables.get table with
    | none => .error (.tableNotFound table)
    | some ts => .ok { cat with
        tables := cat.tables.insert table
          { ts with shards := addShards table ts.shards newShards } }
  | .other op => .error (.unknownOp op)

/-- `MetaFSM.Apply`: a command that fails leaves the catalog as it is. -/
def Catalog.apply (cat : Catalog) (cmd : MetaCommand) : Catalog :=
  match applyCommand cat cmd with
  | .ok next => { next with version := next.version + 1 }
  | .error _ => cat

/-! ### What a command does to the tables -/

section Tables

variable (cat : Catalog)

theorem tables_apply_registerNode (id sqlAddr raftAddr : Bytes) :
    (cat.apply (.registerNode id sqlAddr raftAddr)).tables = cat.tables := by
  simp only [Catalog.apply, applyCommand]
  by_cases h : (cat.specs.get id).isSome <;> simp [h]

theorem tables_apply_removeNode (removeID : Bytes) :
    (cat.apply (.removeNode removeID)).tables = cat.tables := by
  simp only [Catalog.apply, applyCommand]
  by_cases h : (cat.specs.get removeID).isSome <;> simp [h]

theorem apply_other (op : Bytes) : cat.apply (.other op) = cat := rfl

theorem get_apply_createTable (schema : Schema) (shards : List ShardSpec) (t : Bytes) :
    (cat.apply (.createTable schema shards)).tables.get t =
      if schema.name = t then some ((cat.tables.get t).getD
        { schema := schema, shards := shards.map fun s => { s with table := schema.name } })
      else cat.tables.get t := by
  simp only [Catalog.apply, applyCommand]
  cases h : cat.tables.get schema.name with
  | none =>
    simp only [Option.isSome_none, Bool.false_eq_true, if_false, SortedMap.get_insert]
    split
    · next ht => rw [← ht, h, Option.getD_none]
    · rfl
  | some ts =>
    simp only [Option.isSome_some, if_true]
    split
    · next ht => rw [← ht, h, Option.getD_some]
    · rfl

theorem get_apply_dropTable (table t : Bytes) :
    (cat.apply (.dropTable table)).tables.get t =
      if table = t then none else cat.tables.get t := by
  simp only [Catalog.apply, applyCommand, SortedMap.get_erase]
  by_cases h : table = t <;> simp [h]

theorem get_apply_setShardNodes (table shard : Bytes) (nodes : List Bytes) (t : Bytes) :
    (cat.apply (.setShardNodes table shard nodes)).tables.get t =
      if table = t then (cat.tables.get table).map fun ts =>
        { ts with shards := (setNodes shard nodes ts.shards).getD ts.shards }
      else cat.tables.get t := by
  simp only [Catalog.apply, applyCommand]
  cases h : cat.tables.get table with
  | none =>
    dsimp only
    split
    · next ht => rw [← ht, h, Option.map_none]
    · rfl
  | some ts =>
    cases hs : setNodes shard nodes ts.shards with
    | none =>
      simp only [Option.map_some, hs, Option.getD_none]
      split
      · next ht => rw [← ht, h]
      · rfl
    | some shards =>
      simp only [Option.map_some, hs, Option.getD_some, SortedMap.get_insert]
      by_cases ht : table = t <;> simp [ht]

theorem get_apply_splitShard (table splitKey : Bytes) (newShards : List ShardSpec) (t : Bytes) :
    (cat.apply (.splitShard table splitKey newShards)).tables.get t =
      if table = t then (cat.tables.get table).map fun ts =>
        { ts with shards := addShards table ts.shards newShards }
      else cat.tables.get t := by
  simp only [Catalog.apply, applyCommand]
  cases h : cat.tables.get table with
  | none =>
    dsimp only
    split
    · next ht => rw [← ht, h, Option.map_none]
    · rfl
  | some ts =>
    simp only [Option.map_some, SortedMap.get_insert]
    by_cases ht : table = t <;> simp [ht]

end Tables

/-! ### Owners -/

/-- The loop of `owningShard` over a table's shards. -/
def ownerOf (shards : List ShardSpec) (key : Bytes) : Option ShardSpec :=
  bestOf ShardSpec.startAfter (shards.filter fun sh => sh.owns key)

def owningShard (cat : Catalog) (table key : Bytes) : Option ShardSpec :=
  (cat.tables.get table).bind fun ts => ownerOf ts.shards key

/-! ### Placement -/

/-- The 64-bit FNV-1a hash. -/
def hashOf (s : Bytes) : UInt64 :=
  s.foldl (fun h b => (h ^^^ b.toUInt64) * 1099511628211) 14695981039346656037

/-- The hash that orders a node for a seed. -/
def nodeHash (seed : UInt64) (id : Bytes) : UInt64 :=
  hashOf (id ++ ascii ":" ++ formatNat seed.toNat)

/-- Up to `n` nodes, in the order of their hashes. -/
def pickNodes (all : List Bytes) (n : ℤ) (seed : UInt64) : List Bytes :=
  ((all.mergeSort fun a b => decide (nodeHash seed a ≤ nodeHash seed b)).take n.toNat)

inductive PlaceError where
  | noNodes
  deriving DecidableEq, Repr

def PlaceError.message : PlaceError → Bytes
  | noNodes => ascii "meta: no nodes registered for shard placement"

/-- The nodes for a table's first shard. -/
def tableNodes (all : List Bytes) (rf : ℤ) (candidates : List Bytes) (id : Bytes) : List Bytes :=
  let candidates := if candidates = [] then all else candidates
  let rf := if rf ≤ 0 ∨ candidates.length < rf then (candidates.length : ℤ) else rf
  pickNodes candidates rf (hashOf id)

/-- A table's first shard holds every key. -/
def createTableOn (cat : Catalog) (schema : Schema) (rf : ℤ) (candidates : List Bytes) :
    Except PlaceError MetaCommand :=
  let id := schema.name ++ ascii "-0"
  let nodes := tableNodes cat.nodes rf candidates id
  if nodes = [] then .error .noNodes
  else .ok (.createTable schema [{ id := id, nodes := nodes }])

end Ydbgo.Shard
