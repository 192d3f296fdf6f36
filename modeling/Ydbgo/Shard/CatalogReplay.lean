import Mathlib.Data.List.Induction
import Ydbgo.Lib.Replay
import Ydbgo.Shard.CatalogJson

/-! # The log over a stored catalog

After a restart the whole log is applied again to the catalog that it led to. A
table that is dropped somewhere in the log is the same from there on. One that
is not dropped has been there from its creation on, so that the splits of the
second run find their shards and add none, and of the nodes set for a shard the
last ones count in both runs.
-/

namespace Ydbgo.Shard

/-! ### Changes of a table's shards -/

inductive ShardEdit where
  | set (shard : Bytes) (nodes : List Bytes)
  | add (newShards : List ShardSpec)

/-- `setNodes`, and no change where there is no such shard. -/
def withNodes (shard : Bytes) (nodes : List Bytes) (shards : List ShardSpec) : List ShardSpec :=
  (setNodes shard nodes shards).getD shards

def ShardEdit.act (table : Bytes) : ShardEdit → List ShardSpec → List ShardSpec
  | set shard nodes, shards => withNodes shard nodes shards
  | add newShards, shards => addShards table shards newShards

def editAll (table : Bytes) (es : List ShardEdit) (shards : List ShardSpec) : List ShardSpec :=
  runAll (es.map (ShardEdit.act table)) shards

/-- Nodes are set for shards that are there. -/
def EditsFind (table : Bytes) : List ShardEdit → List ShardSpec → Prop
  | [], _ => True
  | e :: es, shards =>
    (∀ shard nodes, e = .set shard nodes → shardExists shards shard) ∧
      EditsFind table es (e.act table shards)

/-- All shards of the change are there. -/
def ShardEdit.Known (shards : List ShardSpec) : ShardEdit → Prop
  | set shard _ => shardExists shards shard
  | add newShards => ∀ s ∈ newShards, shardExists shards s.id

section Edits

variable {table : Bytes} {es : List ShardEdit}

theorem shardExists_iff_mem {shards : List ShardSpec} {id : Bytes} :
    shardExists shards id ↔ id ∈ shards.map ShardSpec.id := by
  simp [shardExists]

theorem withNodes_cons (shard : Bytes) (nodes : List Bytes) (s : ShardSpec) (ss : List ShardSpec) :
    withNodes shard nodes (s :: ss) =
      if s.id = shard then { s with nodes := nodes } :: ss else s :: withNodes shard nodes ss := by
  unfold withNodes
  rw [setNodes]
  split
  · rfl
  · cases setNodes shard nodes ss <;> rfl

theorem ids_withNodes (shard : Bytes) (nodes : List Bytes) (shards : List ShardSpec) :
    (withNodes shard nodes shards).map ShardSpec.id = shards.map ShardSpec.id := by
  induction shards with
  | nil => rfl
  | cons s ss ih =>
    rw [withNodes_cons]
    split
    · rfl
    · rw [List.map_cons, ih, List.map_cons]

theorem withNodes_withNodes (shard : Bytes) (nodes nodes' : List Bytes) (shards : List ShardSpec) :
    withNodes shard nodes (withNodes shard nodes' shards) = withNodes shard nodes shards := by
  induction shards with
  | nil => rfl
  | cons s ss ih => by_cases h : s.id = shard <;> simp [withNodes_cons, h, ih]

theorem withNodes_comm {shard shard' : Bytes} (h : shard ≠ shard') (nodes nodes' : List Bytes)
    (shards : List ShardSpec) : withNodes shard nodes (withNodes shard' nodes' shards) =
      withNodes shard' nodes' (withNodes shard nodes shards) := by
  induction shards with
  | nil => rfl
  | cons s ss ih =>
    by_cases hs : s.id = shard
    · simp [withNodes_cons, hs, h]
    · by_cases hs' : s.id = shard'
      · simp [withNodes_cons, hs', Ne.symm h]
      · simp [withNodes_cons, hs, hs', ih]

theorem withNodes_append {shard : Bytes} {shards : List ShardSpec} (h : shardExists shards shard)
    (nodes : List Bytes) (others : List ShardSpec) :
    withNodes shard nodes (shards ++ others) = withNodes shard nodes shards ++ others := by
  induction shards with
  | nil => cases h
  | cons s ss ih =>
    rw [List.cons_append, withNodes_cons, withNodes_cons]
    split
    · rfl
    · next hs =>
      have h' : shardExists ss shard := by simpa [shardExists, hs] using h
      rw [ih h', List.cons_append]

theorem addShards_of_exists {shards newShards : List ShardSpec}
    (h : ∀ s ∈ newShards, shardExists shards s.id) : addShards table shards newShards = shards := by
  induction newShards with
  | nil => rfl
  | cons s ss ih =>
    obtain ⟨hs, hss⟩ := List.forall_mem_cons.mp h
    rw [addShards, if_pos hs, ih hss]

theorem shardExists_append {shards : List ShardSpec} {id : Bytes} (h : shardExists shards id)
    (others : List ShardSpec) : shardExists (shards ++ others) id := by
  simp only [shardExists, List.any_append, Bool.or_eq_true] at h ⊢
  exact Or.inl h

/-- A split appends shards, and its own are there then. -/
theorem exists_addShards (newShards shards : List ShardSpec) :
    ∃ others, addShards table shards newShards = shards ++ others ∧
      ∀ s ∈ newShards, shardExists (shards ++ others) s.id := by
  induction newShards generalizing shards with
  | nil => exact ⟨[], (List.append_nil _).symm, nofun⟩
  | cons s ss ih =>
    rw [addShards]
    split
    · next hs =>
      obtain ⟨others, he, hall⟩ := ih shards
      exact ⟨others, he, List.forall_mem_cons.mpr ⟨shardExists_append hs _, hall⟩⟩
    · obtain ⟨others, he, hall⟩ := ih (shards ++ [{ s with table := table }])
      rw [List.append_assoc] at he hall
      have hs : shardExists (shards ++ ([{ s with table := table }] ++ others)) s.id := by
        simp [shardExists]
      exact ⟨_, he, List.forall_mem_cons.mpr ⟨hs, hall⟩⟩

theorem ShardEdit.Known.congr {shards shards' : List ShardSpec}
    (h : shards.map ShardSpec.id = shards'.map ShardSpec.id) {e : ShardEdit} (he : e.Known shards) :
    e.Known shards' := by
  cases e with
  | set shard nodes => exact shardExists_iff_mem.mpr (h ▸ shardExists_iff_mem.mp he)
  | add newShards => exact fun s hs => shardExists_iff_mem.mpr (h ▸ shardExists_iff_mem.mp (he s hs))

theorem ShardEdit.Known.append {shards : List ShardSpec} {e : ShardEdit} (h : e.Known shards)
    (others : List ShardSpec) : e.Known (shards ++ others) := by
  cases e with
  | set shard nodes => exact shardExists_append h others
  | add newShards => exact fun s hs => shardExists_append (h s hs) others

theorem ids_act {shards : List ShardSpec} {e : ShardEdit} (h : e.Known shards) :
    (e.act table shards).map ShardSpec.id = shards.map ShardSpec.id := by
  cases e with
  | set shard nodes => exact ids_withNodes shard nodes shards
  | add newShards => rw [ShardEdit.act, addShards_of_exists h]

theorem act_append {shards : List ShardSpec} {e : ShardEdit} (h : e.Known shards)
    (others : List ShardSpec) : e.act table (shards ++ others) = e.act table shards ++ others := by
  cases e with
  | set shard nodes => exact withNodes_append h nodes others
  | add newShards =>
    have hmore : ∀ s ∈ newShards, shardExists (shards ++ others) s.id := fun s hs =>
      shardExists_append (h s hs) others
    rw [ShardEdit.act, ShardEdit.act, addShards_of_exists h, addShards_of_exists hmore]

theorem editAll_cons (e : ShardEdit) (shards : List ShardSpec) :
    editAll table (e :: es) shards = editAll table es (e.act table shards) := rfl

theorem editAll_snoc (e : ShardEdit) (shards : List ShardSpec) :
    editAll table (es ++ [e]) shards = e.act table (editAll table es shards) := by
  simp [editAll, runAll]

theorem editsFind_snoc {e : ShardEdit} {shards : List ShardSpec} :
    EditsFind table (es ++ [e]) shards ↔ EditsFind table es shards ∧
      ∀ shard nodes, e = .set shard nodes → shardExists (editAll table es shards) shard := by
  induction es generalizing shards with
  | nil => simp [EditsFind, editAll, runAll]
  | cons f fs ih => rw [List.cons_append, EditsFind, ih, editAll_cons, EditsFind, and_assoc]

/-- Shards that no change is about do not get in the way. -/
theorem editAll_append {shards : List ShardSpec} (h : ∀ e ∈ es, e.Known shards)
    (others : List ShardSpec) :
    editAll table es (shards ++ others) = editAll table es shards ++ others := by
  induction es generalizing shards with
  | nil => rfl
  | cons e es ih =>
    obtain ⟨he, hes⟩ := List.forall_mem_cons.mp h
    rw [editAll_cons, editAll_cons, act_append he]
    exact ih fun e' he' => (hes e' he').congr (ids_act he).symm

/-- Nodes that are overwritten in the end do not matter before. -/
theorem withNodes_editAll (shard : Bytes) (nodes nodes' : List Bytes) {shards : List ShardSpec}
    (h : ∀ e ∈ es, e.Known shards) :
    withNodes shard nodes (editAll table es (withNodes shard nodes' shards)) =
      withNodes shard nodes (editAll table es shards) := by
  induction es generalizing shards with
  | nil => exact withNodes_withNodes shard nodes nodes' shards
  | cons e es ih =>
    obtain ⟨he, hes⟩ := List.forall_mem_cons.mp h
    have hes' : ∀ e' ∈ es, e'.Known (e.act table shards) := fun e' he' =>
      (hes e' he').congr (ids_act he).symm
    rw [editAll_cons, editAll_cons]
    cases e with
    | set shard' nodes'' =>
      by_cases hs : shard' = shard
      · rw [hs, ShardEdit.act, withNodes_withNodes, ShardEdit.act]
      · rw [ShardEdit.act, withNodes_comm hs]
        exact ih hes'
    | add newShards =>
      have hknown := ShardEdit.Known.congr (ids_withNodes shard nodes' shards).symm he
      rw [ShardEdit.act, ShardEdit.act, addShards_of_exists he, addShards_of_exists hknown]
      exact ih hes

/-- Changes that are made a second time leave the shards as the first time left them. -/
theorem editAll_editAll {shards : List ShardSpec} (h : EditsFind table es shards) :
    (∀ e ∈ es, e.Known (editAll table es shards)) ∧
      editAll table es (editAll table es shards) = editAll table es shards := by
  induction es using List.reverseRecOn with
  | nil => exact ⟨nofun, rfl⟩
  | append_singleton es e ih =>
    obtain ⟨hes, he⟩ := editsFind_snoc.mp h
    obtain ⟨hknown, hidem⟩ := ih hes
    rw [editAll_snoc, editAll_snoc]
    cases e with
    | set shard nodes =>
      have hids := ids_withNodes shard nodes (editAll table es shards)
      constructor
      · rintro e' he'
        rcases List.mem_append.mp he' with he' | he'
        · exact (hknown e' he').congr hids.symm
        · obtain rfl := List.mem_singleton.mp he'
          exact ShardEdit.Known.congr (e := .set shard nodes) hids.symm (he shard nodes rfl)
      · exact (withNodes_editAll shard nodes nodes hknown).trans (congrArg _ hidem)
    | add newShards =>
      obtain ⟨others, hadd, hnew⟩ := @exists_addShards table newShards (editAll table es shards)
      rw [ShardEdit.act, hadd, editAll_append hknown, hidem]
      constructor
      · rintro e' he'
        rcases List.mem_append.mp he' with he' | he'
        · exact (hknown e' he').append others
        · obtain rfl := List.mem_singleton.mp he'
          exact hnew
      · exact addShards_of_exists hnew

end Edits

/-! ### Runs of commands -/

def Catalog.applyAll (cat : Catalog) (cmds : List MetaCommand) : Catalog :=
  cmds.foldl Catalog.apply cat

/-- The command names a table, and a shard of it, that was there once. -/
def MetaCommand.NamesCreated (past : List Catalog) : MetaCommand → Prop
  | .setShardNodes table shard _ =>
    ∃ cat ∈ past, ∃ ts, cat.tables.get table = some ts ∧ shardExists ts.shards shard
  | .splitShard table _ _ => ∃ cat ∈ past, (cat.tables.get table).isSome
  | _ => True

/-- Each command names only what an earlier one created. -/
def NamesCreated (past : List Catalog) (cat : Catalog) : List MetaCommand → Prop
  | [] => True
  | cmd :: cmds =>
    cmd.NamesCreated (cat :: past) ∧ NamesCreated (cat :: past) (cat.apply cmd) cmds

/-! ### Tables -/

section Tables

open Command

variable {t : Bytes} {cat : Catalog} {cmds : List MetaCommand}

/-- What a command does to the shards of a table. -/
def shardEdit (t : Bytes) : MetaCommand → Option ShardEdit
  | .setShardNodes table shard nodes => if table = t then some (.set shard nodes) else none
  | .splitShard table _ newShards => if table = t then some (.add newShards) else none
  | _ => none

/-- What a command does to a table. -/
def tableCommand (t : Bytes) : MetaCommand → Option (Command Schema (List ShardSpec))
  | .createTable schema shards =>
    if schema.name = t then
      some (create schema (shards.map fun s => { s with table := schema.name }))
    else none
  | .dropTable table => if table = t then some drop else none
  | cmd => (shardEdit t cmd).map fun e => change fun _ => e.act t

def Catalog.table (cat : Catalog) (t : Bytes) : Option (Schema × List ShardSpec) :=
  (cat.tables.get t).map fun ts => (ts.schema, ts.shards)

theorem table_apply (cat : Catalog) (cmd : MetaCommand) (t : Bytes) :
    (cat.apply cmd).table t =
      ((tableCommand t cmd).map fun c => c.act (cat.table t)).getD (cat.table t) := by
  unfold Catalog.table
  cases cmd with
  | registerNode id sqlAddr raftAddr =>
    rw [tables_apply_registerNode]
    rfl
  | removeNode removeID =>
    rw [tables_apply_removeNode]
    rfl
  | other op => rfl
  | setShardNodes table shard nodes =>
    rw [get_apply_setShardNodes]
    by_cases h : table = t
    · simp only [tableCommand, shardEdit, h, if_true, Option.map_some, Option.getD_some, Command.act,
        Option.map_map]
      rfl
    · simp [tableCommand, shardEdit, h]
  | splitShard table splitKey newShards =>
    rw [get_apply_splitShard]
    by_cases h : table = t
    · simp only [tableCommand, shardEdit, h, if_true, Option.map_some, Option.getD_some, Command.act,
        Option.map_map]
      rfl
    · simp [tableCommand, shardEdit, h]
  | dropTable table =>
    rw [get_apply_dropTable]
    by_cases h : table = t <;> simp [tableCommand, h, Command.act]
  | createTable schema shards =>
    rw [get_apply_createTable]
    by_cases h : schema.name = t
    · cases hget : cat.tables.get t <;> simp [tableCommand, h, Command.act]
    · simp [tableCommand, h]

theorem table_applyAll (cat : Catalog) (cmds : List MetaCommand) (t : Bytes) :
    (cat.applyAll cmds).table t = actAll (cmds.filterMap (tableCommand t)) (cat.table t) := by
  induction cmds generalizing cat with
  | nil => rfl
  | cons cmd cmds ih =>
    have hstep : (cat.applyAll (cmd :: cmds)).table t = ((cat.apply cmd).applyAll cmds).table t := rfl
    rw [hstep, ih, table_apply]
    cases h : tableCommand t cmd with
    | none => simp [h]
    | some c =>
      rw [List.filterMap_cons_some h]
      rfl

theorem changes_tableCommand (m : Schema) (cmds : List MetaCommand) :
    changes m (cmds.filterMap (tableCommand t)) =
      (cmds.filterMap (shardEdit t)).map (ShardEdit.act t) := by
  induction cmds with
  | nil => rfl
  | cons cmd cmds ih =>
    unfold changes at ih ⊢
    cases cmd with
    | registerNode id sqlAddr raftAddr => exact ih
    | removeNode removeID => exact ih
    | other op => exact ih
    | setShardNodes table shard nodes => by_cases h : table = t <;> simp [tableCommand, shardEdit, h, ih]
    | splitShard table splitKey newShards =>
      by_cases h : table = t <;> simp [tableCommand, shardEdit, h, ih]
    | dropTable table =>
      rw [List.filterMap_cons_none (f := shardEdit t) rfl]
      by_cases h : table = t <;> simp [tableCommand, h, ih]
    | createTable schema shards =>
      rw [List.filterMap_cons_none (f := shardEdit t) rfl]
      by_cases h : schema.name = t <;> simp [tableCommand, h, ih]

/-- The table and its shards are still there. -/
def Outlives (t : Bytes) (old cat : Catalog) : Prop :=
  ∀ m shards, old.table t = some (m, shards) →
    ∃ m' shards', cat.table t = some (m', shards') ∧
      ∀ s, shardExists shards s → shardExists shards' s

theorem Outlives.refl (t : Bytes) (cat : Catalog) : Outlives t cat cat :=
  fun m shards h => ⟨m, shards, h, fun _ hs => hs⟩

theorem shardExists_act {e : ShardEdit} {shards : List ShardSpec} {s : Bytes}
    (h : shardExists shards s) : shardExists (e.act t shards) s := by
  cases e with
  | set shard nodes =>
    rw [ShardEdit.act]
    exact shardExists_iff_mem.mpr (ids_withNodes shard nodes shards ▸ shardExists_iff_mem.mp h)
  | add newShards =>
    obtain ⟨others, he, -⟩ := @exists_addShards t newShards shards
    rw [ShardEdit.act, he]
    exact shardExists_append h others

/-- A table that is not dropped stays, with its shards. -/
theorem Outlives.apply {old : Catalog} (h : Outlives t old cat) {cmd : MetaCommand}
    (hcmd : tableCommand t cmd ≠ some drop) : Outlives t old (cat.apply cmd) := by
  rintro m shards hold
  obtain ⟨m', shards', hcat, hs⟩ := h m shards hold
  rw [table_apply, hcat]
  cases htc : tableCommand t cmd with
  | none => exact ⟨m', shards', rfl, hs⟩
  | some c =>
    cases c with
    | drop => exact absurd htc hcmd
    | create m'' shards'' => exact ⟨m', shards', rfl, hs⟩
    | change f =>
      obtain ⟨e, rfl⟩ : ∃ e : ShardEdit, f = fun _ => e.act t := by
        unfold tableCommand at htc
        split at htc
        · split at htc <;> cases htc
        · split at htc <;> cases htc
        · obtain ⟨e, -, he⟩ := Option.map_eq_some_iff.mp htc
          cases he
          exact ⟨e, rfl⟩
      exact ⟨m', e.act t shards', rfl, fun s hold => shardExists_act (hs s hold)⟩

/-- In a log that does not drop the table, each change finds the table and each setting of nodes
finds its shard. -/
theorem finds_of_namesCreated {past : List Catalog} (hpast : ∀ old ∈ past, Outlives t old cat)
    (h : NamesCreated past cat cmds) (hdrop : drop ∉ cmds.filterMap (tableCommand t)) :
    Finds (cmds.filterMap (tableCommand t)) (cat.table t) ∧
    ∀ m shards, cat.table t = some (m, shards) ∨ cat.table t = none ∧
      (cmds.filterMap (tableCommand t)).head? = some (create m shards) →
      EditsFind t (cmds.filterMap (shardEdit t)) shards := by
  induction cmds generalizing cat past with
  | nil => exact ⟨trivial, fun _ _ _ => trivial⟩
  | cons cmd cmds ih =>
    obtain ⟨hnames, hrest⟩ := h
    have hnow : ∀ old ∈ cat :: past, Outlives t old cat :=
      List.forall_mem_cons.mpr ⟨.refl t cat, hpast⟩
    have hcmd : tableCommand t cmd ≠ some drop := fun he =>
      hdrop (List.mem_filterMap.mpr ⟨cmd, List.mem_cons_self, he⟩)
    have hdrop' : drop ∉ cmds.filterMap (tableCommand t) := fun he => by
      obtain ⟨cmd', hmem, he⟩ := List.mem_filterMap.mp he
      exact hdrop (List.mem_filterMap.mpr ⟨cmd', List.mem_cons_of_mem _ hmem, he⟩)
    obtain ⟨hfinds, hedits⟩ := ih (fun old hold => (hnow old hold).apply hcmd) hrest hdrop'
    rw [table_apply] at hfinds hedits
    cases htc : tableCommand t cmd with
    | none =>
      have hedit : shardEdit t cmd = none := by
        cases cmd with
        | setShardNodes table shard nodes => simpa [tableCommand] using htc
        | splitShard table splitKey newShards => simpa [tableCommand] using htc
        | _ => rfl
      rw [htc] at hfinds hedits
      rw [List.filterMap_cons_none htc, List.filterMap_cons_none hedit]
      exact ⟨hfinds, hedits⟩
    | some c =>
      rw [htc] at hfinds hedits
      rw [List.filterMap_cons_some htc]
      cases c with
      | drop => exact absurd htc hcmd
      | create m' shards' =>
        have hedit : shardEdit t cmd = none := by
          cases cmd with
          | setShardNodes table shard nodes =>
            obtain ⟨e, -, he⟩ := Option.map_eq_some_iff.mp htc
            cases he
          | splitShard table splitKey newShards =>
            obtain ⟨e, -, he⟩ := Option.map_eq_some_iff.mp htc
            cases he
          | _ => rfl
        rw [List.filterMap_cons_none hedit]
        refine ⟨⟨nofun, hfinds⟩, ?_⟩
        rintro m shards (hcat | ⟨hcat, hhead⟩)
        · exact hedits m shards (Or.inl (by rw [hcat]; rfl))
        · cases hhead
          exact hedits _ _ (Or.inl (by rw [hcat]; rfl))
      | change f =>
        obtain ⟨e, hedit, rfl⟩ : ∃ e : ShardEdit, shardEdit t cmd = some e ∧ f = fun _ => e.act t := by
          unfold tableCommand at htc
          split at htc
          · split at htc <;> cases htc
          · split at htc <;> cases htc
          · obtain ⟨e, he, hf⟩ := Option.map_eq_some_iff.mp htc
            cases hf
            exact ⟨e, he, rfl⟩
        -- the table that the command names is there
        obtain ⟨m', shards', hcat, hset⟩ : ∃ m' shards', cat.table t = some (m', shards') ∧
            ∀ shard nodes, e = .set shard nodes → shardExists shards' shard := by
          cases cmd with
          | setShardNodes table shard nodes =>
            simp only [shardEdit] at hedit
            split at hedit
            · next ht =>
              cases hedit
              obtain ⟨old, hold, ts, hts, hs⟩ := hnames
              have htable : old.table t = some (ts.schema, ts.shards) := by
                rw [Catalog.table, ← ht, hts]
                rfl
              obtain ⟨m', shards', hcat, hsub⟩ := hnow old hold _ _ htable
              refine ⟨m', shards', hcat, ?_⟩
              rintro _ _ he
              cases he
              exact hsub _ hs
            · cases hedit
          | splitShard table splitKey newShards =>
            simp only [shardEdit] at hedit
            split at hedit
            · next ht =>
              cases hedit
              obtain ⟨old, hold, hsome⟩ := hnames
              obtain ⟨ts, hts⟩ := Option.isSome_iff_exists.mp hsome
              have htable : old.table t = some (ts.schema, ts.shards) := by
                rw [Catalog.table, ← ht, hts]
                rfl
              obtain ⟨m', shards', hcat, -⟩ := hnow old hold _ _ htable
              exact ⟨m', shards', hcat, nofun⟩
            · cases hedit
          | _ => cases hedit
        rw [List.filterMap_cons_some hedit]
        refine ⟨⟨fun _ _ => by rw [hcat]; rfl, hfinds⟩, ?_⟩
        rintro m shards (hm | ⟨hnone, -⟩)
        · rw [hcat] at hm
          cases hm
          exact ⟨hset, hedits _ _ (Or.inl (by rw [hcat]; rfl))⟩
        · rw [hcat] at hnone
          cases hnone

/-- Once more over what they led to, the commands change no table. -/
theorem tables_applyAll_again (h : NamesCreated [] cat cmds) :
    ((cat.applyAll cmds).applyAll cmds).tables = (cat.applyAll cmds).tables := by
  apply SortedMap.ext_get
  intro t
  have hview : ((cat.applyAll cmds).applyAll cmds).table t = (cat.applyAll cmds).table t := by
    rw [table_applyAll, table_applyAll]
    by_cases hdrop : drop ∈ cmds.filterMap (tableCommand t)
    · exact actAll_drop hdrop _ _
    have hpast : ∀ old ∈ ([] : List Catalog), Outlives t old cat := nofun
    obtain ⟨hfinds, hedits⟩ := finds_of_namesCreated hpast h hdrop
    apply actAll_again hfinds
    rintro m shards hstart
    rw [changes_tableCommand]
    exact (editAll_editAll (hedits m shards hstart)).2
  have hinj : Function.Injective fun ts : TableSpec => (ts.schema, ts.shards) := by
    rintro ⟨schema, shards⟩ ⟨schema', shards'⟩ he
    cases he
    rfl
  exact Option.map_injective hinj hview

end Tables

/-! ### Nodes -/

section Nodes

variable {cat : Catalog}

/-- What a command does to a node. -/
def specStep (id : Bytes) : MetaCommand → Option NodeSpec → Option NodeSpec
  | .registerNode id' sqlAddr raftAddr, spec =>
    if id' = id then spec.or (some { id := id', sqlAddr := sqlAddr, raftAddr := raftAddr }) else spec
  | .removeNode removeID, spec => if removeID = id then none else spec
  | _, spec => spec

theorem mem_fill_specStep (id : Bytes) (cmd : MetaCommand) :
    (Band.fill NodeSpec).mem (specStep id cmd) := by
  cases cmd with
  | registerNode id' sqlAddr raftAddr =>
    by_cases h : id' = id
    · exact Or.inr ⟨_, fun spec => if_pos h⟩
    · exact Or.inr ⟨none, fun spec => (if_neg h).trans Option.or_none.symm⟩
  | removeNode removeID =>
    by_cases h : removeID = id
    · exact Or.inl ⟨none, fun spec => if_pos h⟩
    · exact Or.inr ⟨none, fun spec => (if_neg h).trans Option.or_none.symm⟩
  | _ => exact (Band.fill NodeSpec).id_mem

theorem get_specs_apply (cat : Catalog) (cmd : MetaCommand) (id : Bytes) :
    (cat.apply cmd).specs.get id = specStep id cmd (cat.specs.get id) := by
  cases cmd with
  | registerNode id' sqlAddr raftAddr =>
    simp only [Catalog.apply, applyCommand, specStep]
    by_cases h : id' = id
    · subst h
      cases hget : cat.specs.get id' <;> simp [hget, SortedMap.get_insert]
    · cases hget : cat.specs.get id' <;> simp [h, SortedMap.get_insert]
  | removeNode removeID =>
    simp only [Catalog.apply, applyCommand, specStep]
    by_cases h : removeID = id
    · subst h
      cases hget : cat.specs.get removeID <;> simp [hget, SortedMap.get_erase]
    · cases hget : cat.specs.get removeID <;> simp [h, SortedMap.get_erase]
  | setShardNodes table shard nodes =>
    simp only [Catalog.apply, applyCommand, specStep]
    cases hget : cat.tables.get table with
    | none => rfl
    | some ts => cases hset : setNodes shard nodes ts.shards <;> simp [hset]
  | createTable schema shards =>
    simp only [Catalog.apply, applyCommand, specStep]
    cases hget : cat.tables.get schema.name <;> rfl
  | dropTable table => rfl
  | splitShard table splitKey newShards =>
    simp only [Catalog.apply, applyCommand, specStep]
    cases hget : cat.tables.get table <;> rfl
  | other op => rfl

theorem get_specs_applyAll (cat : Catalog) (cmds : List MetaCommand) (id : Bytes) :
    (cat.applyAll cmds).specs.get id = runAll (cmds.map (specStep id)) (cat.specs.get id) := by
  induction cmds generalizing cat with
  | nil => rfl
  | cons cmd cmds ih =>
    have hstep : (cat.applyAll (cmd :: cmds)).specs = ((cat.apply cmd).applyAll cmds).specs := rfl
    rw [hstep, ih, get_specs_apply]
    rfl

theorem specs_applyAll_again (cat : Catalog) (cmds : List MetaCommand) :
    ((cat.applyAll cmds).applyAll cmds).specs = (cat.applyAll cmds).specs := by
  apply SortedMap.ext_get
  intro id
  rw [get_specs_applyAll, get_specs_applyAll]
  refine (Band.fill NodeSpec).idem ((Band.fill NodeSpec).mem_runAll ?_) _
  rintro f hf
  obtain ⟨cmd, -, rfl⟩ := List.mem_map.mp hf
  exact mem_fill_specStep id cmd

/-- The node list has each node once. -/
structure NodesListed (cat : Catalog) : Prop where
  nodup : cat.nodes.Nodup
  mem : ∀ id, id ∈ cat.nodes ↔ (cat.specs.get id).isSome

theorem removeString_eq_erase (xs : List Bytes) (v : Bytes) : removeString xs v = xs.erase v := by
  induction xs with
  | nil => rfl
  | cons x xs ih => by_cases h : x = v <;> simp [removeString, h, ih]

theorem nodes_apply (cat : Catalog) (cmd : MetaCommand) : (cat.apply cmd).nodes = match cmd with
    | .registerNode id _ _ => if (cat.specs.get id).isSome then cat.nodes else cat.nodes ++ [id]
    | .removeNode id => if (cat.specs.get id).isSome then cat.nodes.erase id else cat.nodes
    | _ => cat.nodes := by
  cases cmd with
  | registerNode id sqlAddr raftAddr =>
    simp only [Catalog.apply, applyCommand]
    by_cases h : (cat.specs.get id).isSome <;> simp [h]
  | removeNode id =>
    simp only [Catalog.apply, applyCommand]
    by_cases h : (cat.specs.get id).isSome <;> simp [h, removeString_eq_erase]
  | setShardNodes table shard nodes =>
    simp only [Catalog.apply, applyCommand]
    cases hget : cat.tables.get table with
    | none => rfl
    | some ts => cases hset : setNodes shard nodes ts.shards <;> simp [hset]
  | createTable schema shards =>
    simp only [Catalog.apply, applyCommand]
    cases hget : cat.tables.get schema.name <;> rfl
  | dropTable table => rfl
  | splitShard table splitKey newShards =>
    simp only [Catalog.apply, applyCommand]
    cases hget : cat.tables.get table <;> rfl
  | other op => rfl

theorem NodesListed.apply (h : NodesListed cat) (cmd : MetaCommand) : NodesListed (cat.apply cmd) := by
  obtain ⟨hnd, hmem⟩ := h
  constructor
  · rw [nodes_apply]
    cases cmd with
    | registerNode id sqlAddr raftAddr =>
      dsimp only
      split
      · exact hnd
      · next hnone =>
        have hnew : id ∉ cat.nodes := fun hmem' => hnone ((hmem id).mp hmem')
        exact List.nodup_append.mpr ⟨hnd, List.nodup_singleton id, by
          rintro x hx y hy rfl
          exact hnew (List.mem_singleton.mp hy ▸ hx)⟩
    | removeNode id =>
      dsimp only
      split
      · exact hnd.erase id
      · exact hnd
    | _ => exact hnd
  · intro id
    rw [nodes_apply, get_specs_apply]
    cases cmd with
    | registerNode id' sqlAddr raftAddr =>
      by_cases h : id' = id
      · subst h
        cases hget : cat.specs.get id' with
        | none => simp [hget, specStep]
        | some spec => simpa [specStep, hget] using hmem id'
      · by_cases hsome : (cat.specs.get id').isSome <;> simp [hsome, specStep, h, Ne.symm h, hmem]
    | removeNode id' =>
      by_cases h : id' = id
      · subst h
        cases hget : cat.specs.get id' with
        | none => simpa [specStep, hget] using hmem id'
        | some spec => simp [hget, specStep, hnd.mem_erase_iff]
      · by_cases hsome : (cat.specs.get id').isSome <;>
          simp [hsome, specStep, h, Ne.symm h, hmem, hnd.mem_erase_iff]
    | _ => exact hmem id

theorem NodesListed.applyAll (h : NodesListed cat) (cmds : List MetaCommand) :
    NodesListed (cat.applyAll cmds) := by
  induction cmds generalizing cat with
  | nil => exact h
  | cons cmd cmds ih => exact ih (h.apply cmd)

/-- Catalogs of the same nodes have the same node list up to its order. -/
theorem NodesListed.perm (h : NodesListed cat) {cat' : Catalog} (h' : NodesListed cat')
    (hspecs : cat.specs = cat'.specs) : cat.nodes.Perm cat'.nodes := by
  rw [List.perm_ext_iff_of_nodup h.nodup h'.nodup]
  intro id
  rw [h.mem, h'.mem, hspecs]

end Nodes

/-- Equal but for the version and the order of the nodes. -/
structure Catalog.SameAs (cat cat' : Catalog) : Prop where
  nodes : cat.nodes.Perm cat'.nodes
  specs : cat.specs = cat'.specs
  tables : cat.tables = cat'.tables

/-- A log that names what it created may be applied to the catalog that it led to. -/
theorem applyAll_again {cat : Catalog} (hn : NodesListed cat) {cmds : List MetaCommand}
    (h : NamesCreated [] cat cmds) :
    ((cat.applyAll cmds).applyAll cmds).SameAs (cat.applyAll cmds) := by
  have hspecs := specs_applyAll_again cat cmds
  exact {
    nodes := ((hn.applyAll cmds).applyAll cmds).perm (hn.applyAll cmds) hspecs
    specs := hspecs
    tables := tables_applyAll_again h }

end Ydbgo.Shard
