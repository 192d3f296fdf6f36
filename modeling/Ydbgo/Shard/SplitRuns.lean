import Ydbgo.Shard.Ownership

/-! # Runs of the catalog

Commands are proposed from catalogs read at any earlier time and commit in any
order. Tables and shards never go, and every table stays formed.
-/

namespace Ydbgo.Shard
open Sql

/-! ### Requests -/

theorem splitCommaQuoted_ne_nil (lib : Stdlib) {cur : Bytes} {inQuote : Bool}
    {out : List Bytes} {s : Bytes} {parts : List Bytes}
    (h : splitCommaQuoted lib cur inQuote out s = .ok parts) : parts ≠ [] := by
  fun_induction splitCommaQuoted lib cur inQuote out s with
  | case1 => cases h
  | case2 cur inQuote out hq =>
    obtain rfl := Except.ok.inj h
    simp
  | case3 cur inQuote out ih => exact ih h
  | case4 cur inQuote out c hc hn ih => exact ih h
  | case5 cur inQuote out c hc hn ih => exact ih h
  | case6 cur inQuote out c d s hc ih => exact ih h
  | case7 cur inQuote out d s hc ih => exact ih h
  | case8 cur inQuote out c d s hc hn hm ih => exact ih h
  | case9 cur inQuote out c d s hc hn hm ih => exact ih h

theorem parsePKSplitSpec_ne_nil (lib : Stdlib) {s : Bytes} {parts : List Bytes}
    (h : parsePKSplitSpec lib s = .ok parts) : parts ≠ [] := by
  unfold parsePKSplitSpec at h
  split at h
  · cases h
  · split at h
    · obtain rfl := Except.ok.inj h
      simp
    · split at h
      · cases h
      · exact splitCommaQuoted_ne_nil lib h

theorem length_parsePK (lib : Stdlib) (schema : TableSchema) {pk parts : List Bytes}
    {vs : List Value} (h : parsePK lib schema pk parts = .ok vs)
    (hl : parts.length = pk.length) : vs.length = pk.length := by
  induction pk generalizing parts vs with
  | nil =>
    obtain rfl := Except.ok.inj h
    rfl
  | cons col pk ih =>
    cases parts with
    | nil => cases hl
    | cons part parts =>
      simp only [parsePK] at h
      cases hv : parseValueString lib (colTypeOf schema col) (unquote part) with
      | error e =>
        rw [hv] at h
        cases h
      | ok v =>
        cases hvs : parsePK lib schema pk parts with
        | error e =>
          rw [hv, hvs] at h
          cases h
        | ok vs' =>
          rw [hv, hvs] at h
          obtain rfl := Except.ok.inj h
          simp [ih hvs (by simpa using hl)]

theorem encodePK_ne_nil {vs : List Value} (h : vs ≠ []) : Storage.encodePK vs ≠ [] := by
  cases vs with
  | nil => exact absurd rfl h
  | cons v vs => simp [Storage.encodePK, Storage.encodeKey, Storage.encodeKeyValue]

theorem lt_of_ne_nil {start key : Bytes} (hk : key ≠ []) (h : ¬ (start ≠ [] ∧ key ≤ start)) :
    start < key := by
  by_cases hs : start = []
  · subst hs
    exact lt_of_le_of_ne (nil_le key) fun he => hk he.symm
  · exact not_le.mp fun hle => h ⟨hs, hle⟩

/-- A split by value is of the key's owner, above its start. -/
theorem splitTarget_ok (lib : Stdlib) {reads : Reads} {table raw : Bytes} {spec : ShardSpec}
    {key : Bytes} (h : splitTarget lib reads table raw = .ok (spec, key)) :
    owningShard reads.owner table key = some spec ∧ spec.start < key := by
  unfold splitTarget at h
  split at h
  · cases h
  next ts hts =>
    cases hparts : parsePKSplitSpec lib raw with
    | error e =>
      rw [hparts] at h
      cases h
    | ok parts =>
      rw [hparts] at h
      simp only [Except.bind, bind] at h
      split at h
      · cases h
      next hlen =>
        rw [not_not] at hlen
        cases hvs : parsePK lib ts.schema.toTableSchema ts.schema.pk parts with
        | error e =>
          rw [hvs] at h
          cases h
        | ok values =>
          rw [hvs] at h
          dsimp only at h
          cases ho : owningShard reads.owner table (Storage.encodePK values) with
          | none =>
            rw [ho] at h
            cases h
          | some o =>
            rw [ho] at h
            dsimp only at h
            split at h
            · cases h
            next hstart =>
              obtain ⟨rfl, rfl⟩ := Prod.mk.inj (Except.ok.inj h)
              refine ⟨ho, lt_of_ne_nil (encodePK_ne_nil ?_) hstart⟩
              have hl := length_parsePK lib _ hvs hlen
              have hne := List.length_pos_of_ne_nil (parsePKSplitSpec_ne_nil lib hparts)
              exact List.ne_nil_of_length_pos (by omega)

theorem splitPointFor_some {schema : TableSchema} {rows : List (List Value)} {spec : ShardSpec}
    {mid : Bytes} (h : splitPointFor schema rows spec = some mid) : spec.start < mid := by
  unfold splitPointFor at h
  dsimp only at h
  split at h
  · cases h
  · obtain ⟨m, -, hm⟩ := Option.bind_eq_some_iff.mp h
    split at hm
    · cases hm
    next hle => exact Option.some.inj hm ▸ not_le.mp hle

/-- The shard that a split adds. -/
theorem splitShard_ok {reads : Reads} {p : Placing} {spec : ShardSpec} {splitKey : Bytes}
    {cmd : MetaCommand} (h : splitShard reads p spec splitKey = .ok cmd) :
    ∃ ts nodes, reads.count.tables.get spec.table = some ts ∧
      cmd = .splitShard spec.table splitKey
        [{ id := spec.id ++ ascii "-" ++ formatNat ts.shards.length, table := spec.table
           start := splitKey, stop := spec.stop, nodes := nodes }] := by
  unfold splitShard at h
  split at h
  · cases h
  next ts hts =>
    dsimp only at h
    split at h
    · cases h
    · split at h
      · cases h
      · exact ⟨ts, _, hts, (Except.ok.inj h).symm⟩

theorem createTableOn_ok {cat : Catalog} {schema : Schema} {rf : ℤ} {candidates : List Bytes}
    {cmd : MetaCommand} (h : createTableOn cat schema rf candidates = .ok cmd) :
    ∃ nodes, cmd = .createTable schema [{ id := schema.name ++ ascii "-0", nodes := nodes }] := by
  unfold createTableOn at h
  dsimp only at h
  split at h
  · cases h
  · exact ⟨_, (Except.ok.inj h).symm⟩

/-! ### Runs -/

/-- All catalogs of a request were seen before. -/
def Reads.Among (reads : Reads) (seen : List Catalog) : Prop :=
  reads.schema ∈ seen ∧ reads.owner ∈ seen ∧ reads.count ∈ seen ∧ reads.nodes ∈ seen

variable (lib : Stdlib)

/-- What the code proposes after the catalogs that were there so far; for a split, with the shard
that is split. -/
inductive Proposed (seen : List Catalog) : MetaCommand → Option ShardSpec → Prop
  | registerNode (id sqlAddr raftAddr : Bytes) :
    Proposed seen (.registerNode id sqlAddr raftAddr) none
  | createTable {cat : Catalog} {schema : Schema} {rf : ℤ} {candidates : List Bytes}
      {cmd : MetaCommand} (hcat : cat ∈ seen) (h : createTableOn cat schema rf candidates = .ok cmd) :
    Proposed seen cmd none
  | setShardNodes (table shard : Bytes) (nodes : List Bytes) :
    Proposed seen (.setShardNodes table shard nodes) none
  | splitByValue {reads : Reads} {p : Placing} {table raw : Bytes} {spec : ShardSpec} {key : Bytes}
      {cmd : MetaCommand} (hreads : reads.Among seen)
      (htarget : splitTarget lib reads table raw = .ok (spec, key))
      (h : splitShardByValue lib reads p table raw = .ok cmd) :
    Proposed seen cmd (some spec)
  | autoSplit {cat : Catalog} {reads : Reads} {p : Placing} {table : Bytes} {ts ts' : TableSpec}
      {spec : ShardSpec} {rows : List (List Value)} {mid : Bytes} {cmd : MetaCommand}
      (hcat : cat ∈ seen) (hreads : reads.Among seen) (hts : cat.tables.get table = some ts)
      (hspec : spec ∈ ts.shards) (hsucc : hasNarrowerSucc ts.shards spec = false)
      (hts' : reads.schema.tables.get spec.table = some ts')
      (hmid : splitPointFor ts'.schema.toTableSchema rows spec = some mid)
      (h : splitShard reads p spec mid = .ok cmd) :
    Proposed seen cmd (some spec)

/-- A commit: the catalog before it, the command, and the shard that is split. -/
structure Step where
  before : Catalog
  cmd : MetaCommand
  split : Option ShardSpec

def Step.after (s : Step) : Catalog := s.before.apply s.cmd

/-- A run with the catalogs that were there, the latest first, and its commits. -/
inductive Run : List Catalog → List Step → Prop
  | start : Run [{}] []
  | commit {cat : Catalog} {seen : List Catalog} {steps : List Step} {cmd : MetaCommand}
      {split : Option ShardSpec} (hrun : Run (cat :: seen) steps)
      (hcmd : Proposed lib (cat :: seen) cmd split) :
    Run (cat.apply cmd :: cat :: seen) ({ before := cat, cmd := cmd, split := split } :: steps)

/-! ### Tables stay formed -/

def Catalog.Formed (cat : Catalog) : Prop :=
  ∀ t ts, cat.tables.get t = some ts → Shard.Formed t ts.shards

/-- A shard without its nodes. -/
def ShardSpec.bare (s : ShardSpec) : ShardSpec := { s with nodes := [] }

/-- No table and no shard goes, and no shard's range changes. -/
def Catalog.Extends (cat cat' : Catalog) : Prop :=
  ∀ t ts, cat.tables.get t = some ts → ∃ ts', cat'.tables.get t = some ts' ∧
    ∀ s ∈ ts.shards, ∃ s' ∈ ts'.shards, s'.bare = s.bare

theorem Catalog.Extends.refl (cat : Catalog) : cat.Extends cat := fun _ ts hts =>
  ⟨ts, hts, fun s hs => ⟨s, hs, rfl⟩⟩

theorem Catalog.Extends.trans {a b c : Catalog} (hab : a.Extends b) (hbc : b.Extends c) :
    a.Extends c := by
  intro t ts hts
  obtain ⟨ts', hts', hs'⟩ := hab t ts hts
  obtain ⟨ts'', hts'', hs''⟩ := hbc t ts' hts'
  refine ⟨ts'', hts'', fun s hs => ?_⟩
  obtain ⟨s₁, hs₁, he₁⟩ := hs' s hs
  obtain ⟨s₂, hs₂, he₂⟩ := hs'' s₁ hs₁
  exact ⟨s₂, hs₂, he₂.trans he₁⟩

theorem ShardSpec.eq_of_bare {s s' : ShardSpec} (h : s.bare = s'.bare) :
    s.id = s'.id ∧ s.table = s'.table ∧ s.start = s'.start ∧ s.stop = s'.stop := by
  simp only [ShardSpec.bare, ShardSpec.mk.injEq] at h
  exact ⟨h.1, h.2.1, h.2.2.1, h.2.2.2.1⟩

theorem setNodes_bare {shard : Bytes} {nodes : List Bytes} {shards shards' : List ShardSpec}
    (h : setNodes shard nodes shards = some shards') :
    shards'.map ShardSpec.bare = shards.map ShardSpec.bare := by
  induction shards generalizing shards' with
  | nil => cases h
  | cons s ss ih =>
    rw [setNodes] at h
    split at h
    · obtain rfl := Option.some.inj h
      rfl
    · obtain ⟨ss', hss', rfl⟩ := Option.map_eq_some_iff.mp h
      rw [List.map_cons, List.map_cons, ih hss']

theorem bare_getD_setNodes (shard : Bytes) (nodes : List Bytes) (shards : List ShardSpec) :
    ((setNodes shard nodes shards).getD shards).map ShardSpec.bare = shards.map ShardSpec.bare := by
  cases h : setNodes shard nodes shards with
  | none => rfl
  | some shards' => exact setNodes_bare h

theorem Formed.of_bare {t : Bytes} {shards shards' : List ShardSpec} (h : Formed t shards)
    (hb : shards'.map ShardSpec.bare = shards.map ShardSpec.bare) : Formed t shards' := by
  have hback : ∀ s' ∈ shards', ∃ s ∈ shards, s.bare = s'.bare := fun s' hs' =>
    List.mem_map.mp (hb ▸ List.mem_map_of_mem hs')
  have hforth : ∀ s ∈ shards, ∃ s' ∈ shards', s'.bare = s.bare := fun s hs =>
    List.mem_map.mp (hb ▸ List.mem_map_of_mem hs)
  constructor
  · intro s' hs'
    obtain ⟨s, hs, he⟩ := hback s' hs'
    exact (ShardSpec.eq_of_bare he).2.1 ▸ h.named s hs
  · intro s' hs'
    obtain ⟨s, hs, he⟩ := hback s' hs'
    exact (ShardSpec.eq_of_bare he).1 ▸ h.ids s hs
  · have hid : ∀ l : List ShardSpec, l.map ShardSpec.id = (l.map ShardSpec.bare).map ShardSpec.id :=
      fun l => by simp [Function.comp_def, ShardSpec.bare]
    rw [hid, hb, ← hid]
    exact h.distinct
  · intro s' hs'
    obtain ⟨s, hs, he⟩ := hback s' hs'
    exact (ShardSpec.eq_of_bare he).2.2.2 ▸ h.endless s hs
  · obtain ⟨s, hs, hstart⟩ := h.widest
    obtain ⟨s', hs', he⟩ := hforth s hs
    exact ⟨s', hs', (ShardSpec.eq_of_bare he).2.2.1.trans hstart⟩

theorem formed_first (t : Bytes) (nodes : List Bytes) :
    Formed t [{ id := t ++ ascii "-0", table := t, nodes := nodes }] := by
  constructor
  · simp
  · simpa using IsShardId.first
  · simp
  · simp
  · simp

theorem shardExists_iff {shards : List ShardSpec} {id : Bytes} :
    shardExists shards id ↔ ∃ s ∈ shards, s.id = id := by
  simp [shardExists]

theorem addShards_singleton (table : Bytes) (shards : List ShardSpec) (s : ShardSpec) :
    addShards table shards [s] =
      if shardExists shards s.id then shards else shards ++ [{ s with table := table }] := by
  simp only [addShards]

theorem Formed.append {t : Bytes} {shards : List ShardSpec} (h : Formed t shards) {s : ShardSpec}
    (ht : s.table = t) (hid : IsShardId t s.id) (hnew : ¬ shardExists shards s.id)
    (hstop : s.stop = []) : Formed t (shards ++ [s]) := by
  constructor
  · simpa [or_imp, forall_and, ht] using h.named
  · simpa [or_imp, forall_and, hid] using h.ids
  · rw [List.map_append, List.nodup_append]
    refine ⟨h.distinct, by simp, ?_⟩
    rintro _ hid' _ hs rfl
    obtain ⟨s', hs', he⟩ := List.mem_map.mp hid'
    obtain rfl := List.mem_singleton.mp hs
    exact hnew (shardExists_iff.mpr ⟨s', hs', he⟩)
  · simpa [or_imp, forall_and, hstop] using h.endless
  · obtain ⟨s', hs', hstart⟩ := h.widest
    exact ⟨s', List.mem_append_left _ hs', hstart⟩

/-! ### Splits -/

/-- A split as proposed: of a shard of a catalog that was there, above its start. -/
structure SplitOf (seen : List Catalog) (cmd : MetaCommand) (spec : ShardSpec) (key : Bytes)
    (new : ShardSpec) : Prop where
  cmd_eq : cmd = .splitShard spec.table key [new]
  above : spec.start < key
  known : ∃ cat ∈ seen, ∃ t ts, cat.tables.get t = some ts ∧ spec ∈ ts.shards
  new_start : new.start = key
  new_table : new.table = spec.table
  new_stop : new.stop = spec.stop
  new_id : ∃ cat ∈ seen, ∃ ts, cat.tables.get spec.table = some ts ∧
    new.id = spec.id ++ ascii "-" ++ formatNat ts.shards.length

theorem splitOf_of_splitShard {seen : List Catalog} {reads : Reads} {p : Placing} {spec : ShardSpec}
    {key : Bytes} {cmd : MetaCommand} (hreads : reads.Among seen)
    (h : splitShard reads p spec key = .ok cmd) (habove : spec.start < key)
    (hknown : ∃ cat ∈ seen, ∃ t ts, cat.tables.get t = some ts ∧ spec ∈ ts.shards) :
    ∃ new, SplitOf seen cmd spec key new := by
  obtain ⟨ts, nodes, hts, rfl⟩ := splitShard_ok h
  exact ⟨_, rfl, habove, hknown, rfl, rfl, rfl, reads.count, hreads.2.2.1, ts, hts, rfl⟩

variable {lib}

theorem Proposed.splitOf {seen : List Catalog} {cmd : MetaCommand} {spec : ShardSpec}
    (h : Proposed lib seen cmd (some spec)) : ∃ key new, SplitOf seen cmd spec key new := by
  cases h with
  | @splitByValue reads p table raw _ key _ hreads htarget h =>
    obtain ⟨howner, habove⟩ := splitTarget_ok lib htarget
    obtain ⟨ts, hts, ho⟩ := Option.bind_eq_some_iff.mp howner
    simp only [splitShardByValue, htarget, bind, Except.bind] at h
    exact ⟨key, splitOf_of_splitShard hreads h habove
      ⟨reads.owner, hreads.2.1, table, ts, hts, mem_of_ownerOf ho⟩⟩
  | @autoSplit cat reads p table ts ts' _ rows mid _ hcat hreads hts hspec hsucc hts' hmid h =>
    exact ⟨mid, splitOf_of_splitShard hreads h (splitPointFor_some hmid)
      ⟨cat, hcat, table, ts, hts, hspec⟩⟩

/-- The other commands that are proposed. -/
theorem Proposed.of_none {seen : List Catalog} {cmd : MetaCommand} (h : Proposed lib seen cmd none) :
    (∃ id sqlAddr raftAddr, cmd = .registerNode id sqlAddr raftAddr) ∨
    (∃ schema nodes, cmd =
      .createTable schema [{ id := schema.name ++ ascii "-0", nodes := nodes }]) ∨
    ∃ table shard nodes, cmd = .setShardNodes table shard nodes := by
  cases h with
  | registerNode id sqlAddr raftAddr => exact Or.inl ⟨id, sqlAddr, raftAddr, rfl⟩
  | createTable hcat h =>
    obtain ⟨nodes, rfl⟩ := createTableOn_ok h
    exact Or.inr (Or.inl ⟨_, nodes, rfl⟩)
  | setShardNodes table shard nodes => exact Or.inr (Or.inr ⟨table, shard, nodes, rfl⟩)

/-- The catalogs of a run are formed, and the last one extends all. -/
structure SeenRight (seen : List Catalog) (cat : Catalog) : Prop where
  formed : ∀ c ∈ seen, c.Formed
  extended : ∀ c ∈ seen, c.Extends cat

section Split

variable {seen : List Catalog} {cat : Catalog} {cmd : MetaCommand} {spec new : ShardSpec}
  {key : Bytes}

/-- The split shard as it is at the commit. -/
theorem SplitOf.found (h : SplitOf seen cmd spec key new) (hs : SeenRight seen cat) :
    ∃ ts, cat.tables.get spec.table = some ts ∧ ∃ s ∈ ts.shards, s.bare = spec.bare := by
  obtain ⟨c, hc, t, ts, hts, hspec⟩ := h.known
  obtain ⟨ts', hts', hshards⟩ := hs.extended c hc t ts hts
  rw [(hs.formed c hc t ts hts).named spec hspec]
  exact ⟨ts', hts', hshards spec hspec⟩

theorem SplitOf.isShardId (h : SplitOf seen cmd spec key new) (hs : SeenRight seen cat) :
    IsShardId spec.table new.id := by
  obtain ⟨c, hc, t, ts, hts, hspec⟩ := h.known
  have hf := hs.formed c hc t ts hts
  obtain ⟨c', hc', ts', hts', hid⟩ := h.new_id
  obtain ⟨s, hs', -⟩ := (hs.formed c' hc' _ ts' hts').widest
  rw [hid]
  exact IsShardId.split ((hf.named spec hspec).symm ▸ hf.ids spec hspec)
    (List.length_pos_of_mem hs')

theorem SplitOf.stop_eq_nil (h : SplitOf seen cmd spec key new) (hs : SeenRight seen cat) :
    new.stop = [] := by
  obtain ⟨c, hc, t, ts, hts, hspec⟩ := h.known
  rw [h.new_stop, (hs.formed c hc t ts hts).endless spec hspec]

/-- The table after the commit. -/
theorem SplitOf.get_apply (h : SplitOf seen cmd spec key new) {ts : TableSpec}
    (hts : cat.tables.get spec.table = some ts) (t : Bytes) :
    (cat.apply cmd).tables.get t =
      if spec.table = t then some { ts with
        shards := if shardExists ts.shards new.id then ts.shards else ts.shards ++ [new] }
      else cat.tables.get t := by
  rw [h.cmd_eq, get_apply_splitShard, hts, Option.map_some, addShards_singleton, ← h.new_table]

theorem SplitOf.formed (h : SplitOf seen cmd spec key new) (hs : SeenRight seen cat)
    (hcat : cat.Formed) : (cat.apply cmd).Formed := by
  obtain ⟨ts, hts, -⟩ := h.found hs
  intro t ts' hts'
  rw [h.get_apply hts] at hts'
  split at hts'
  · next ht =>
    subst ht
    obtain rfl := Option.some.inj hts'
    dsimp only
    split
    · exact hcat _ ts hts
    · next hnew =>
      exact (hcat _ ts hts).append h.new_table (h.isShardId hs) hnew (h.stop_eq_nil hs)
  · exact hcat t ts' hts'

theorem SplitOf.extends (h : SplitOf seen cmd spec key new) (hs : SeenRight seen cat) :
    cat.Extends (cat.apply cmd) := by
  obtain ⟨ts, hts, -⟩ := h.found hs
  intro t ts' hts'
  rw [h.get_apply hts]
  split
  · next ht =>
    subst ht
    obtain rfl := Option.some.inj (hts.symm.trans hts')
    refine ⟨_, rfl, fun s hs => ⟨s, ?_, rfl⟩⟩
    dsimp only
    split
    · exact hs
    · exact List.mem_append_left _ hs
  · exact ⟨ts', hts', fun s hs => ⟨s, hs, rfl⟩⟩

end Split

/-! ### Other commands -/

/-- What the other commands leave of a table. -/
theorem Proposed.get_of_none {seen : List Catalog} {cmd : MetaCommand}
    (h : Proposed lib seen cmd none) (cat : Catalog) (t : Bytes) :
    (∃ nodes schema, cat.tables.get t = none ∧ (cat.apply cmd).tables.get t =
      some { schema := schema, shards := [{ id := t ++ ascii "-0", table := t, nodes := nodes }] }) ∨
    (cat.tables.get t = none ∧ (cat.apply cmd).tables.get t = none) ∨
    ∃ ts ts', cat.tables.get t = some ts ∧ (cat.apply cmd).tables.get t = some ts' ∧
      ts'.shards.map ShardSpec.bare = ts.shards.map ShardSpec.bare := by
  have hkeep : (cat.apply cmd).tables.get t = cat.tables.get t →
      (cat.tables.get t = none ∧ (cat.apply cmd).tables.get t = none) ∨
      ∃ ts ts', cat.tables.get t = some ts ∧ (cat.apply cmd).tables.get t = some ts' ∧
        ts'.shards.map ShardSpec.bare = ts.shards.map ShardSpec.bare := by
    intro he
    rw [he]
    cases cat.tables.get t with
    | none => exact Or.inl ⟨rfl, rfl⟩
    | some ts => exact Or.inr ⟨ts, ts, rfl, rfl, rfl⟩
  rcases h.of_none with ⟨id, sqlAddr, raftAddr, rfl⟩ | ⟨schema, nodes, rfl⟩ | ⟨table, shard, nodes, rfl⟩
  · exact Or.inr (hkeep (by rw [tables_apply_registerNode]))
  · by_cases ht : schema.name = t
    · subst ht
      cases hts : cat.tables.get schema.name with
      | none =>
        refine Or.inl ⟨nodes, schema, rfl, ?_⟩
        rw [get_apply_createTable, if_pos rfl, hts, Option.getD_none]
        rfl
      | some ts =>
        rw [← hts]
        exact Or.inr (hkeep (by rw [get_apply_createTable, if_pos rfl, hts, Option.getD_some]))
    · exact Or.inr (hkeep (by rw [get_apply_createTable, if_neg ht]))
  · by_cases ht : table = t
    · subst ht
      rw [get_apply_setShardNodes, if_pos rfl]
      cases cat.tables.get table with
      | none => exact Or.inr (Or.inl ⟨rfl, rfl⟩)
      | some ts => exact Or.inr (Or.inr ⟨ts, _, rfl, rfl, bare_getD_setNodes _ _ _⟩)
    · exact Or.inr (hkeep (by rw [get_apply_setShardNodes, if_neg ht]))

theorem map_start_of_bare {shards shards' : List ShardSpec}
    (h : shards'.map ShardSpec.bare = shards.map ShardSpec.bare) :
    shards'.map ShardSpec.start = shards.map ShardSpec.start := by
  have hstart : ∀ l : List ShardSpec,
      l.map ShardSpec.start = (l.map ShardSpec.bare).map ShardSpec.start :=
    fun l => by simp [Function.comp_def, ShardSpec.bare]
  rw [hstart, h, ← hstart]

/-- The starts of every table's shards are distinct. -/
def Catalog.Distinct (cat : Catalog) : Prop :=
  ∀ t ts, cat.tables.get t = some ts → (ts.shards.map ShardSpec.start).Nodup

theorem Proposed.formed_of_none {seen : List Catalog} {cmd : MetaCommand}
    (h : Proposed lib seen cmd none) {cat : Catalog} (hcat : cat.Formed) :
    (cat.apply cmd).Formed := by
  intro t ts hts
  rcases h.get_of_none cat t with ⟨nodes, schema, -, ha⟩ | ⟨-, ha⟩ | ⟨ts₀, ts₁, hb, ha, he⟩
  · obtain rfl := Option.some.inj (ha.symm.trans hts)
    exact formed_first t nodes
  · cases ha.symm.trans hts
  · obtain rfl := Option.some.inj (ha.symm.trans hts)
    exact (hcat t ts₀ hb).of_bare he

theorem Proposed.extends_of_none {seen : List Catalog} {cmd : MetaCommand}
    (h : Proposed lib seen cmd none) (cat : Catalog) : cat.Extends (cat.apply cmd) := by
  intro t ts hts
  rcases h.get_of_none cat t with ⟨nodes, schema, hb, -⟩ | ⟨hb, -⟩ | ⟨ts₀, ts₁, hb, ha, he⟩
  · cases hb.symm.trans hts
  · cases hb.symm.trans hts
  · obtain rfl := Option.some.inj (hb.symm.trans hts)
    exact ⟨ts₁, ha, fun s hs => List.mem_map.mp (he ▸ List.mem_map_of_mem hs)⟩

theorem Proposed.distinct_of_none {seen : List Catalog} {cmd : MetaCommand}
    (h : Proposed lib seen cmd none) {cat : Catalog} (hcat : cat.Distinct) :
    (cat.apply cmd).Distinct := by
  intro t ts hts
  rcases h.get_of_none cat t with ⟨nodes, schema, -, ha⟩ | ⟨-, ha⟩ | ⟨ts₀, ts₁, hb, ha, he⟩
  · obtain rfl := Option.some.inj (ha.symm.trans hts)
    simp
  · cases ha.symm.trans hts
  · obtain rfl := Option.some.inj (ha.symm.trans hts)
    exact map_start_of_bare he ▸ hcat t ts₀ hb

end Ydbgo.Shard
