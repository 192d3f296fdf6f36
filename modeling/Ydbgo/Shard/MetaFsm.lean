import Ydbgo.Shard.CatalogReplay

/-! # The state machine of the catalog

`MetaFSM`: log entries are applied to a copy of the catalog, which is written to
a file after each of them. The file, a copy and a snapshot give back the catalog
that they were made from, and the log may be applied again to it.
-/

namespace Ydbgo.Shard

/-- `cloneCatalog`: what cannot be read back is lost. -/
def cloneCatalog (cat : Catalog) : Catalog := (unmarshal (marshal cat)).getD {}

structure MetaFSM where
  cat : Catalog := {}
  /-- There is a directory to write to. -/
  dir : Bool
  /-- `catalog.json`, if there is one. -/
  file : Option Bytes

namespace MetaFSM

def persist (f : MetaFSM) : MetaFSM :=
  if f.dir then { f with file := some (marshal f.cat) } else f

/-- A file that cannot be read is ignored. -/
def load (f : MetaFSM) : MetaFSM :=
  if f.dir then { f with cat := (f.file.bind unmarshal).getD f.cat } else f

/-- `NewMetaFSM`. -/
def new (dir : Bool) (file : Option Bytes) : MetaFSM := load { dir := dir, file := file }

def apply (f : MetaFSM) (data : Bytes) : MetaFSM :=
  match readCommand data with
  | none => f
  | some cmd =>
    match applyCommand (cloneCatalog f.cat) cmd with
    | .error _ => f
    | .ok next => persist { f with cat := { next with version := next.version + 1 } }

def snapshot (f : MetaFSM) : Bytes := marshal f.cat

def restore (f : MetaFSM) (data : Bytes) : MetaFSM :=
  match unmarshal data with
  | none => f
  | some cat => persist { f with cat := cat }

/-- The log is applied. -/
def run (f : MetaFSM) (log : List Bytes) : MetaFSM := log.foldl apply f

/-- A state that a process gets to, from whatever file and whatever log and snapshots. -/
inductive Reachable : MetaFSM → Prop
  | new (dir : Bool) (file : Option Bytes) : Reachable (new dir file)
  | apply {f : MetaFSM} (data : Bytes) : Reachable f → Reachable (f.apply data)
  | restore {f : MetaFSM} (data : Bytes) : Reachable f → Reachable (f.restore data)

end MetaFSM

/-! ### Catalogs stay text -/

section Text

variable {cat : Catalog}

theorem isText_withNodes {shard : Bytes} {nodes : List Bytes} (hn : ∀ n ∈ nodes, IsUtf8 n)
    {shards : List ShardSpec} (h : ∀ s ∈ shards, s.IsText) :
    ∀ s ∈ withNodes shard nodes shards, s.IsText := by
  induction shards with
  | nil => exact nofun
  | cons s ss ih =>
    obtain ⟨⟨hid, htable, hnodes⟩, hss⟩ := List.forall_mem_cons.mp h
    rw [withNodes_cons]
    split
    · exact List.forall_mem_cons.mpr ⟨⟨hid, htable, hn⟩, hss⟩
    · exact List.forall_mem_cons.mpr ⟨⟨hid, htable, hnodes⟩, ih hss⟩

theorem isText_addShards {table : Bytes} (ht : IsUtf8 table) {shards newShards : List ShardSpec}
    (hs : ∀ s ∈ shards, s.IsText) (hn : ∀ s ∈ newShards, s.IsText) :
    ∀ s ∈ addShards table shards newShards, s.IsText := by
  induction newShards generalizing shards with
  | nil => exact hs
  | cons s ss ih =>
    obtain ⟨hfirst, hrest⟩ := List.forall_mem_cons.mp hn
    rw [addShards]
    split
    · exact ih hs hrest
    · refine ih ?_ hrest
      rintro s' hs'
      rcases List.mem_append.mp hs' with hs' | hs'
      · exact hs s' hs'
      · obtain rfl := List.mem_singleton.mp hs'
        exact ⟨hfirst.1, ht, hfirst.2.2⟩

theorem Catalog.IsText.insertTable (h : cat.IsText) {t : Bytes} {ts : TableSpec} (ht : IsUtf8 t)
    (hts : ts.IsText) (version : UInt64) : Catalog.IsText
      { cat with version := version, tables := cat.tables.insert t ts } where
  nodes := h.nodes
  specs := h.specs
  tables := by
    rintro e he
    rcases SortedMap.mem_insert.mp he with rfl | ⟨-, hmem⟩
    · exact ⟨ht, hts⟩
    · exact h.tables e hmem

/-- A command with UTF-8 strings keeps the catalog's strings UTF-8. -/
theorem Catalog.IsText.apply (h : cat.IsText) {cmd : MetaCommand} (hcmd : cmd.IsText) :
    (cat.apply cmd).IsText := by
  cases cmd with
  | registerNode id sqlAddr raftAddr =>
    simp only [Catalog.apply, applyCommand]
    by_cases hsome : (cat.specs.get id).isSome
    · rw [if_pos hsome]
      exact ⟨h.nodes, h.specs, h.tables⟩
    · rw [if_neg hsome]
      refine ⟨?_, ?_, h.tables⟩
      · rintro n hn
        rcases List.mem_append.mp hn with hn | hn
        · exact h.nodes n hn
        · exact List.mem_singleton.mp hn ▸ hcmd.1
      · rintro e he
        rcases SortedMap.mem_insert.mp he with rfl | ⟨-, hmem⟩
        · exact ⟨hcmd.1, hcmd⟩
        · exact h.specs e hmem
  | removeNode removeID =>
    simp only [Catalog.apply, applyCommand]
    by_cases hsome : (cat.specs.get removeID).isSome
    · rw [if_pos hsome]
      refine ⟨?_, fun e he => h.specs e (List.mem_filter.mp he).1, h.tables⟩
      rintro n hn
      exact h.nodes n (List.mem_of_mem_erase (removeString_eq_erase _ _ ▸ hn))
    · rw [if_neg hsome]
      exact ⟨h.nodes, h.specs, h.tables⟩
  | setShardNodes table shard nodes =>
    simp only [Catalog.apply, applyCommand]
    cases hget : cat.tables.get table with
    | none => exact h
    | some ts =>
      obtain ⟨htable, hschema, hshards⟩ := h.tables _ (SortedMap.get_eq_some.mp hget)
      cases hset : setNodes shard nodes ts.shards with
      | none => simpa [hset] using h
      | some shards =>
        have hs := @isText_withNodes shard nodes hcmd _ hshards
        rw [withNodes, hset, Option.getD_some] at hs
        have hts : TableSpec.IsText { ts with shards := shards } := ⟨hschema, hs⟩
        simp only [hset]
        exact h.insertTable htable hts _
  | createTable schema shards =>
    simp only [Catalog.apply, applyCommand]
    by_cases hsome : (cat.tables.get schema.name).isSome
    · rw [if_pos hsome]
      exact ⟨h.nodes, h.specs, h.tables⟩
    · obtain ⟨hschema, hshards⟩ := hcmd
      rw [if_neg hsome]
      refine h.insertTable hschema.name ⟨hschema, ?_⟩ _
      rintro s hs
      obtain ⟨s', hs', rfl⟩ := List.mem_map.mp hs
      exact ⟨(hshards s' hs').1, hschema.name, (hshards s' hs').2.2⟩
  | dropTable table => exact ⟨h.nodes, h.specs, fun e he => h.tables e (List.mem_filter.mp he).1⟩
  | splitShard table splitKey newShards =>
    simp only [Catalog.apply, applyCommand]
    cases hget : cat.tables.get table with
    | none => exact h
    | some ts =>
      obtain ⟨htable, hschema, hshards⟩ := h.tables _ (SortedMap.get_eq_some.mp hget)
      have hts : TableSpec.IsText { ts with shards := addShards table ts.shards newShards } :=
        ⟨hschema, isText_addShards hcmd.1 hshards hcmd.2⟩
      exact h.insertTable htable hts _
  | other op => exact h

theorem isText_empty : Catalog.IsText {} := ⟨nofun, nofun, nofun⟩

end Text

namespace MetaFSM

variable {f : MetaFSM}

theorem cat_persist (f : MetaFSM) : f.persist.cat = f.cat := by
  unfold persist
  split <;> rfl

theorem dir_persist (f : MetaFSM) : f.persist.dir = f.dir := by
  unfold persist
  split <;> rfl

theorem clone_of_isText {cat : Catalog} (h : cat.IsText) : cloneCatalog cat = cat := by
  rw [cloneCatalog, unmarshal_marshal h, Option.getD_some]

/-- Applied to a copy, a command does what it does to the catalog. -/
theorem cat_apply (h : f.cat.IsText) (data : Bytes) : (f.apply data).cat =
    ((readCommand data).map f.cat.apply).getD f.cat := by
  unfold apply
  cases readCommand data with
  | none => rfl
  | some cmd =>
    simp only [clone_of_isText h, Option.map_some, Option.getD_some, Catalog.apply]
    cases applyCommand f.cat cmd with
    | error e => rfl
    | ok next => exact cat_persist _

theorem isText_apply (h : f.cat.IsText) (data : Bytes) : (f.apply data).cat.IsText := by
  rw [cat_apply h]
  cases hread : readCommand data with
  | none => exact h
  | some cmd => exact h.apply (isText_readCommand hread)

theorem isText_new (dir : Bool) (file : Option Bytes) : (new dir file).cat.IsText := by
  unfold new load
  split
  · cases file with
    | none => exact isText_empty
    | some data =>
      cases h : unmarshal data with
      | none => simpa [h] using isText_empty
      | some cat => simpa [h] using isText_unmarshal h
  · exact isText_empty

theorem isText_restore (h : f.cat.IsText) (data : Bytes) : (f.restore data).cat.IsText := by
  unfold restore
  cases hread : unmarshal data with
  | none => exact h
  | some cat =>
    dsimp only
    rw [cat_persist]
    exact isText_unmarshal hread

theorem Reachable.isText (h : Reachable f) : f.cat.IsText := by
  induction h with
  | new dir file => exact isText_new dir file
  | apply data _ ih => exact isText_apply ih data
  | restore data _ ih => exact isText_restore ih data

theorem cat_run (h : f.cat.IsText) (log : List Bytes) :
    (f.run log).cat = f.cat.applyAll (log.filterMap readCommand) := by
  induction log generalizing f with
  | nil => rfl
  | cons data log ih =>
    have hstep : f.run (data :: log) = (f.apply data).run log := rfl
    rw [hstep, ih (isText_apply h data), cat_apply h]
    cases hread : readCommand data with
    | none => simp [hread]
    | some cmd =>
      rw [List.filterMap_cons_some hread]
      rfl

theorem isText_run (h : f.cat.IsText) (log : List Bytes) : (f.run log).cat.IsText := by
  induction log generalizing f with
  | nil => exact h
  | cons data log ih => exact ih (isText_apply h data)

/-! ### The file -/

/-- The file holds the catalog, or nothing was ever written. -/
def Stored (f : MetaFSM) : Prop :=
  f.dir = true ∧ (f.file = some (marshal f.cat) ∨ f.file = none ∧ f.cat = {})

theorem Stored.apply (h : f.Stored) (data : Bytes) : (f.apply data).Stored := by
  unfold MetaFSM.apply
  cases readCommand data with
  | none => exact h
  | some cmd =>
    dsimp only
    cases applyCommand (cloneCatalog f.cat) cmd with
    | error e => exact h
    | ok next => simp [Stored, persist, h.1]

theorem Stored.run (h : f.Stored) (log : List Bytes) : (f.run log).Stored := by
  induction log generalizing f with
  | nil => exact h
  | cons data log ih => exact ih (h.apply data)

/-- A new process finds the catalog in the file. -/
theorem Stored.cat_new (h : f.Stored) (ht : f.cat.IsText) : (new true f.file).cat = f.cat := by
  rcases h.2 with hfile | ⟨hfile, hcat⟩
  · rw [hfile]
    simp [new, load, unmarshal_marshal ht]
  · rw [hfile, hcat]
    rfl

/-! ### Replay and persistence -/

/-- After the log, with the process going on or started again, the log once more leads to the same
catalog up to its version and the order of its nodes. -/
def Replays (log : List Bytes) : Prop :=
  (∀ dir, (((new dir none).run log).run log).cat.SameAs ((new dir none).run log).cat) ∧
    ((new true ((new true none).run log).file).run log).cat.SameAs ((new true none).run log).cat

/-- A copy, the file and a snapshot give the catalog back. -/
structure GivesBack (f : MetaFSM) : Prop where
  clone : cloneCatalog f.cat = f.cat
  load : f.persist.load.cat = f.cat
  started : f.dir = true → (new true f.persist.file).cat = f.cat
  restore : ∀ g : MetaFSM, (g.restore f.snapshot).cat = f.cat

theorem Reachable.givesBack (h : Reachable f) : GivesBack f := by
  have ht := h.isText
  refine ⟨clone_of_isText ht, ?_, ?_, ?_⟩
  · unfold persist load
    cases hd : f.dir <;> simp [hd, unmarshal_marshal ht]
  · intro hd
    simp [persist, hd, MetaFSM.new, load, unmarshal_marshal ht]
  · intro g
    rw [MetaFSM.restore, snapshot, unmarshal_marshal ht]
    exact cat_persist _

theorem replays_of_namesCreated {log : List Bytes}
    (h : NamesCreated [] {} (log.filterMap readCommand)) : Replays log := by
  have hlisted : NodesListed {} :=
    ⟨List.nodup_nil, fun id => ⟨fun hid => absurd hid List.not_mem_nil, nofun⟩⟩
  have hempty : ∀ dir, (new dir none).cat = {} := by
    intro dir
    cases dir <;> rfl
  have hsame := applyAll_again hlisted h
  have hcat : ∀ dir, ((new dir none).run log).cat =
      Catalog.applyAll {} (log.filterMap readCommand) := by
    intro dir
    rw [cat_run (isText_new dir none), hempty]
  have htext : ∀ dir, ((new dir none).run log).cat.IsText := fun dir =>
    isText_run (isText_new dir none) log
  constructor
  · intro dir
    rw [cat_run (htext dir), hcat dir]
    exact hsame
  · have hstored : (new true none).Stored := ⟨rfl, Or.inr ⟨rfl, rfl⟩⟩
    rw [cat_run (isText_new _ _), (hstored.run log).cat_new (htext true), hcat true]
    exact hsame

/-- The log of commands may be applied again to the catalog it led to, and every catalog survives
being copied, stored and sent. -/
theorem catalog_replays {log : List Bytes} (h : NamesCreated [] {} (log.filterMap readCommand)) :
    Replays log ∧ ∀ f, Reachable f → GivesBack f :=
  ⟨replays_of_namesCreated h, fun _ hf => hf.givesBack⟩

theorem readCommand_print {j : Json} (h : Json.IsText j) :
    readCommand (Json.print j) = decodeCommand j := by
  rw [readCommand, Json.parse_print h, Option.bind_some]

/-- A table with one shard. -/
def createEntry : Json :=
  .obj [(ascii "op", .str (ascii "create_table")),
    (ascii "schema", .obj [(ascii "Name", .str (ascii "t"))]),
    (ascii "shards", .arr [.obj [(ascii "id", .str (ascii "t-0"))]])]

/-- Another node for the shard. -/
def setEntry : Json :=
  .obj [(ascii "op", .str (ascii "set_shard_nodes")), (ascii "table", .str (ascii "t")),
    (ascii "shard", .str (ascii "t-0")), (ascii "nodes", .arr [.str (ascii "n")])]

theorem catalog_replays_set : Replays [Json.print createEntry, Json.print setEntry] ∧
    ∀ f, Reachable f → GivesBack f := by
  have hcreate : readCommand (Json.print createEntry) = some (.createTable
      { name := ascii "t", columns := [], pk := [], engine := [] } [{ id := ascii "t-0" }]) :=
    readCommand_print (by
      simp only [createEntry, Json.IsText, Json.MembersText, Json.ItemsText, and_true]
      refine ⟨⟨?_, ?_⟩, ⟨?_, ?_, ?_⟩, ?_, ?_, ?_⟩ <;> exact isUtf8_of_all rfl)
  have hset : readCommand (Json.print setEntry) =
      some (.setShardNodes (ascii "t") (ascii "t-0") [ascii "n"]) :=
    readCommand_print (by
      simp only [setEntry, Json.IsText, Json.MembersText, Json.ItemsText, and_true]
      refine ⟨⟨?_, ?_⟩, ⟨?_, ?_⟩, ⟨?_, ?_⟩, ?_, ?_⟩ <;> exact isUtf8_of_all rfl)
  apply catalog_replays
  rw [List.filterMap_cons_some hcreate, List.filterMap_cons_some hset]
  exact ⟨trivial, ⟨_, List.mem_cons_self, _, rfl, by decide⟩, trivial⟩

end MetaFSM

end Ydbgo.Shard
