import Ydbgo.Shard.Catalog

/-! # Healing placements

The meta leader probes the registered nodes, and replaces the dead members of a
shard's placement by live nodes. The steps that mount a replica and change the
members of the shard's group are calls to other nodes, which may fail.
-/

namespace Ydbgo.Shard

/-- The node that heals, with its replication factor. -/
structure Manager where
  id : Bytes
  sqlAddr : Bytes
  rf : ℤ

/-- The liveness view: failed probes in a row, and nodes held for dead. -/
structure Liveness where
  probeFail : Bytes → ℕ := fun _ => 0
  dead : Bytes → Bool := fun _ => false

def deadProbeThreshold : ℕ := 2

/-- `nodeReachable`, where `dial` tells which addresses answer. -/
def nodeReachable (dial : Bytes → Bool) (addr : Bytes) : Bool := addr ≠ [] && dial addr

def nodeSQLAddr (cat : Catalog) (nodeID : Bytes) : Bytes :=
  ((cat.specs.get nodeID).map NodeSpec.sqlAddr).getD []

variable (m : Manager) (cat : Catalog) (l : Liveness) (dial : Bytes → Bool)

def answers (id : Bytes) : Bool := id = m.id || nodeReachable dial (nodeSQLAddr cat id)

def probeNodes : Liveness where
  probeFail id :=
    if id ∈ cat.nodes then if answers m cat dial id then 0 else l.probeFail id + 1
    else l.probeFail id
  dead id :=
    id ∈ cat.nodes && !answers m cat dial id && deadProbeThreshold ≤ l.probeFail id + 1

def liveNodes : List Bytes := cat.nodes.filter fun id => !l.dead id

def livePlacementAddr (spec : ShardSpec) : Bytes :=
  let live := spec.nodes.findSome? fun id =>
    if id = m.id then some m.sqlAddr
    else
      let addr := nodeSQLAddr cat id
      if addr = [] ∨ l.dead id then none else some addr
  let reachable := spec.nodes.findSome? fun id =>
    let addr := nodeSQLAddr cat id
    if nodeReachable dial addr then some addr else none
  (live.or reachable).getD []

/-- The first live node that is not used yet, or no name. -/
def pickReplacement (live used : List Bytes) : Bytes :=
  (live.find? fun nid => nid ∉ used).getD []

/-- The loop that adds as many replacements as are missing. -/
def addReplacements (live : List Bytes) : ℕ → List Bytes → List Bytes
  | 0, target => target
  | missing + 1, target =>
    let rep := pickReplacement live target
    if rep = [] then target else addReplacements live missing (target ++ [rep])

/-- The calls to other nodes: the address of a replica mounted on a node, and changes of the group
driven by the node of an address. -/
structure Rpc where
  mountShard : Bytes → List Bytes → Except Bytes Bytes
  addShardVoter : Bytes → Bytes → Bytes → Except Bytes Unit
  removeShardVoter : Bytes → Bytes → Except Bytes Unit

inductive HealError where
  | noQuorum (shard : Bytes) (alive total : ℕ)
  | notRegistered (nid : Bytes)
  | mount (nid shard err : Bytes)
  | noDrive (shard : Bytes)
  | call (err : Bytes)
  deriving DecidableEq, Repr

def HealError.message : HealError → Bytes
  | noQuorum shard alive total => ascii "shard " ++ shard ++ ascii ": " ++ formatNat alive ++
      ascii "/" ++ formatNat total ++ ascii " replicas alive, cannot heal until quorum returns"
  | notRegistered nid => ascii "replacement node " ++ nid ++ ascii " not registered"
  | mount nid shard err => ascii "mount replacement " ++ nid ++ ascii " for " ++ shard ++
      ascii ": " ++ err
  | noDrive shard => ascii "shard " ++ shard ++
      ascii ": no live placement node to drive config change"
  | call err => err

/-- The address of the replica mounted on a spare node. -/
def mountReplicaOn (rpc : Rpc) (nid : Bytes) (spec : ShardSpec) (nodes : List Bytes) :
    Except HealError Bytes :=
  if nodeSQLAddr cat nid = [] then
    .error (.mount nid spec.id (HealError.notRegistered nid).message)
  else
    match rpc.mountShard nid nodes with
    | .error err => .error (.mount nid spec.id err)
    | .ok addr => .ok addr

/-- The calls for a new placement, in the order in which `healShard` makes them. -/
def changeMembers (rpc : Rpc) (spec : ShardSpec) (target new dead : List Bytes) :
    Except HealError Unit := do
  let addrs ← new.mapM fun nid => mountReplicaOn cat rpc nid spec target
  let drive := livePlacementAddr m cat l dial spec
  if drive = [] then throw (.noDrive spec.id)
  (new.zip addrs).forM fun (nid, addr) => (rpc.addShardVoter drive nid addr).mapError .call
  dead.forM fun nid => (rpc.removeShardVoter drive nid).mapError .call

/-- The placement that `healShard` aims at. -/
def healTarget (spec : ShardSpec) : List Bytes :=
  let alive := spec.nodes.filter fun nid => !l.dead nid
  addReplacements (liveNodes cat l) (m.rf - alive.length).toNat alive

/-- The command that `healShard` commits, if there is something to heal. -/
def healShard (rpc : Rpc) (spec : ShardSpec) : Except HealError (Option MetaCommand) :=
  let dead := spec.nodes.filter fun nid => l.dead nid
  let alive := spec.nodes.filter fun nid => !l.dead nid
  if dead = [] then .ok none
  else if alive.length < spec.nodes.length / 2 + 1 then
    .error (.noQuorum spec.id alive.length spec.nodes.length)
  else
    let target := healTarget m cat l spec
    let new := target.filter fun nid => nid ∉ alive
    match changeMembers m cat l dial rpc spec target new dead with
    | .error err => .error err
    | .ok () => .ok (some (.setShardNodes spec.table spec.id target))

end Ydbgo.Shard
