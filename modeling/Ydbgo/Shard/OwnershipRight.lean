import Ydbgo.Shard.SplitRuns

/-! # Splits and owners

Over a run of the catalog every key has an owner and no two shards share an
identifier. The starts of a table's shards stay distinct, and each split takes
keys from its shard only, exactly if each split commits while its shard still
owns the split key.
-/

namespace Ydbgo.Shard
open Sql

/-! ### What the property is -/

/-- Every key has an owner, whatever the order of the shards, and no two shards share a start or an
identifier. -/
structure Catalog.OwnersRight (cat : Catalog) : Prop where
  owned : ∀ t ts, cat.tables.get t = some ts → ∀ key, ∃ s ∈ ts.shards, s.owns key
  distinct : ∀ t ts, cat.tables.get t = some ts → (ts.shards.map ShardSpec.start).Nodup
  unique : ∀ t ts, cat.tables.get t = some ts → ∀ key, ∃ o ∈ ts.shards, o.owns key ∧
    (∀ s ∈ ts.shards, s.owns key → s ≠ o → s.start < o.start) ∧
    ∀ shards, shards.Perm ts.shards → ownerOf shards key = some o
  ids : ∀ t t' ts ts', cat.tables.get t = some ts → cat.tables.get t' = some ts' →
    ∀ (i j : ℕ) s s', ts.shards[i]? = some s → ts'.shards[j]? = some s' → s.id = s'.id →
      t = t' ∧ i = j

/-- A split changes the owner of upper keys that the split shard owned. -/
def Step.SplitRight (s : Step) : Prop :=
  ∀ spec table splitKey newShards, s.split = some spec →
    s.cmd = .splitShard table splitKey newShards → ∀ t key,
      owningShard s.after t key ≠ owningShard s.before t key →
        t = table ∧ splitKey ≤ key ∧
          ∃ o, owningShard s.before t key = some o ∧ o.id = spec.id

/-- A split that adds a shard commits while the split shard owns the split key. -/
def Step.Timely (s : Step) : Prop :=
  ∀ spec table splitKey newShards ts, s.split = some spec →
    s.cmd = .splitShard table splitKey newShards → s.before.tables.get table = some ts →
      (∀ n ∈ newShards, shardExists ts.shards n.id) ∨
        ∃ o, ownerOf ts.shards splitKey = some o ∧ o.id = spec.id

variable {lib : Stdlib}

/-! ### What a split does to the owners -/

section Owners

variable {shards : List ShardSpec} {new : ShardSpec} {key : Bytes}

/-- The new shard takes the keys from its start on that belonged to shards starting below it. -/
theorem ownerOf_append (he : ∀ s ∈ shards ++ [new], s.stop = [])
    (hd : ((shards ++ [new]).map ShardSpec.start).Nodup) {o : ShardSpec}
    (ho : ownerOf shards key = some o) :
    ownerOf (shards ++ [new]) key =
      if new.start ≤ key ∧ o.start < new.start then some new else some o := by
  have he' : ∀ s ∈ shards, s.stop = [] := fun s hs => he s (List.mem_append_left _ hs)
  obtain ⟨hle, hmax⟩ := ownerOf_spec he' ho
  split
  · next h =>
    refine ownerOf_eq_some he hd (by simp) h.1 fun s hs hsk => ?_
    rcases List.mem_append.mp hs with hs | hs
    · exact (hmax s hs hsk).trans h.2.le
    · rw [List.mem_singleton.mp hs]
  · next h =>
    refine ownerOf_eq_some he hd (List.mem_append_left _ (mem_of_ownerOf ho)) hle
      fun s hs hsk => ?_
    rcases List.mem_append.mp hs with hs | hs
    · exact hmax s hs hsk
    · obtain rfl := List.mem_singleton.mp hs
      exact not_lt.mp fun hlt => h ⟨hsk, hlt⟩

theorem nodup_starts_append (hd : (shards.map ShardSpec.start).Nodup) :
    ((shards ++ [new]).map ShardSpec.start).Nodup ↔ ∀ s ∈ shards, s.start ≠ new.start := by
  rw [List.map_append, List.nodup_append]
  simp [hd]

end Owners

theorem Catalog.Formed.exists_owner {cat : Catalog} (h : cat.Formed) {t : Bytes} {ts : TableSpec}
    (hts : cat.tables.get t = some ts) (key : Bytes) : ∃ o, ownerOf ts.shards key = some o :=
  Shard.exists_owner (h t ts hts) key

theorem owningShard_eq {cat : Catalog} {t : Bytes} {ts : TableSpec}
    (hts : cat.tables.get t = some ts) (key : Bytes) :
    owningShard cat t key = ownerOf ts.shards key := by
  rw [owningShard, hts, Option.bind_some]

section SplitStep

variable {seen : List Catalog} {cat : Catalog} {cmd : MetaCommand} {spec new : ShardSpec}
  {key : Bytes}

/-- A split commits in time if its shard owns the split key, or if it adds nothing. -/
theorem SplitOf.timely_iff (h : SplitOf seen cmd spec key new) {ts : TableSpec}
    (hts : cat.tables.get spec.table = some ts) :
    Step.Timely { before := cat, cmd := cmd, split := some spec } ↔
      shardExists ts.shards new.id ∨ ∃ o, ownerOf ts.shards key = some o ∧ o.id = spec.id := by
  constructor
  · intro ht
    simpa using ht spec spec.table key [new] ts rfl h.cmd_eq hts
  · rintro ht spec' table' key' news ts' hspec hcmd hts'
    obtain rfl := Option.some.inj hspec
    obtain ⟨rfl, rfl, rfl⟩ := MetaCommand.splitShard.inj (h.cmd_eq.symm.trans hcmd)
    obtain rfl := Option.some.inj (hts.symm.trans hts')
    simpa using ht

theorem SplitOf.splitRight_iff (h : SplitOf seen cmd spec key new) :
    Step.SplitRight { before := cat, cmd := cmd, split := some spec } ↔
      ∀ t k, owningShard (cat.apply cmd) t k ≠ owningShard cat t k →
        t = spec.table ∧ key ≤ k ∧ ∃ o, owningShard cat t k = some o ∧ o.id = spec.id := by
  constructor
  · exact fun hr => hr spec spec.table key [new] rfl h.cmd_eq
  · rintro hr spec' table' key' news hspec hcmd
    obtain rfl := Option.some.inj hspec
    obtain ⟨rfl, rfl, rfl⟩ := MetaCommand.splitShard.inj (h.cmd_eq.symm.trans hcmd)
    exact hr

/-- A shard that still owns the split key starts below it. -/
theorem SplitOf.lt_of_owner (h : SplitOf seen cmd spec key new) (hs : SeenRight seen cat)
    (hcat : cat.Formed) {ts : TableSpec} (hts : cat.tables.get spec.table = some ts) {o : ShardSpec}
    (ho : ownerOf ts.shards key = some o) (hid : o.id = spec.id) : o.start < key := by
  obtain ⟨ts', hts', s, hs', hb⟩ := h.found hs
  obtain rfl := Option.some.inj (hts.symm.trans hts')
  obtain ⟨hsid, -, hstart, -⟩ := ShardSpec.eq_of_bare hb
  have heq := eq_of_id_eq (hcat _ ts hts).distinct (mem_of_ownerOf ho) hs' (hid.trans hsid.symm)
  rw [heq, hstart]
  exact h.above

theorem SplitOf.endless (h : SplitOf seen cmd spec key new) (hs : SeenRight seen cat)
    (hcat : cat.Formed) {ts : TableSpec} (hts : cat.tables.get spec.table = some ts) :
    ∀ s ∈ ts.shards ++ [new], s.stop = [] := by
  simpa [or_imp, forall_and, h.stop_eq_nil hs] using (hcat _ ts hts).endless

theorem SplitOf.distinct_of_timely (h : SplitOf seen cmd spec key new) (hs : SeenRight seen cat)
    (hcat : cat.Formed) (hd : cat.Distinct)
    (ht : Step.Timely { before := cat, cmd := cmd, split := some spec }) :
    (cat.apply cmd).Distinct := by
  obtain ⟨ts, hts, -⟩ := h.found hs
  intro t ts' hts'
  rw [h.get_apply hts] at hts'
  split at hts'
  · obtain rfl := Option.some.inj hts'
    dsimp only
    split
    · exact hd _ ts hts
    · next hnew =>
      obtain ⟨o, ho, hid⟩ := ((h.timely_iff hts).mp ht).resolve_left hnew
      have hlt := h.lt_of_owner hs hcat hts ho hid
      have hspec := ownerOf_spec (hcat _ ts hts).endless ho
      apply (nodup_starts_append (hd _ ts hts)).mpr
      intro s hmem he
      rw [h.new_start] at he
      exact absurd (hspec.2 s hmem he.le) (not_le.mpr (he ▸ hlt))
  · exact hd t ts' hts'

theorem SplitOf.splitRight_of_timely (h : SplitOf seen cmd spec key new) (hs : SeenRight seen cat)
    (hcat : cat.Formed) (hd : cat.Distinct)
    (ht : Step.Timely { before := cat, cmd := cmd, split := some spec }) :
    Step.SplitRight { before := cat, cmd := cmd, split := some spec } := by
  obtain ⟨ts, hts, -⟩ := h.found hs
  apply h.splitRight_iff.mpr
  intro t k hne
  have hd' := h.distinct_of_timely hs hcat hd ht
  have hget := h.get_apply hts t
  by_cases htab : spec.table = t
  · subst htab
    rw [if_pos rfl] at hget
    rw [owningShard_eq hget, owningShard_eq hts] at hne
    by_cases hnew : shardExists ts.shards new.id
    · simp [hnew] at hne
    · simp only [hnew, Bool.false_eq_true, if_false] at hne hget
      obtain ⟨o, ho, hid⟩ := ((h.timely_iff hts).mp ht).resolve_left hnew
      obtain ⟨o', ho'⟩ := hcat.exists_owner hts k
      rw [ownerOf_append (h.endless hs hcat hts) (hd' _ _ hget) ho', ho'] at hne
      split at hne
      · next hlt =>
        rw [h.new_start] at hlt
        have hk := ownerOf_spec (hcat _ ts hts).endless ho
        have hk' := ownerOf_spec (hcat _ ts hts).endless ho'
        -- both are the shard with the largest start below the split key
        have hoo : o'.start = o.start := le_antisymm
          (hk.2 o' (mem_of_ownerOf ho') hlt.2.le)
          (hk'.2 o (mem_of_ownerOf ho) (hk.1.trans hlt.1))
        obtain rfl := eq_of_start_eq (hd _ ts hts) (mem_of_ownerOf ho') (mem_of_ownerOf ho) hoo
        exact ⟨rfl, hlt.1, o', (owningShard_eq hts k).trans ho', hid⟩
      · exact absurd rfl hne
  · rw [if_neg htab] at hget
    rw [owningShard, owningShard, hget] at hne
    exact absurd rfl hne

/-- A split that commits too late breaks the starts or takes keys of another shard. -/
theorem SplitOf.timely_of_right (h : SplitOf seen cmd spec key new) (hs : SeenRight seen cat)
    (hcat : cat.Formed) (hd' : (cat.apply cmd).Distinct)
    (hr : Step.SplitRight { before := cat, cmd := cmd, split := some spec }) :
    Step.Timely { before := cat, cmd := cmd, split := some spec } := by
  obtain ⟨ts, hts, -⟩ := h.found hs
  apply (h.timely_iff hts).mpr
  by_cases hnew : shardExists ts.shards new.id
  · exact Or.inl hnew
  obtain ⟨o, ho⟩ := hcat.exists_owner hts key
  have hget := h.get_apply hts spec.table
  simp only [hnew, Bool.false_eq_true, if_false, if_true] at hget
  have hnd := hd' _ _ hget
  dsimp only at hnd
  have hlt : o.start < new.start := by
    apply lt_of_le_of_ne
    · exact h.new_start ▸ (ownerOf_spec (hcat _ ts hts).endless ho).1
    · rw [List.map_append, List.nodup_append] at hnd
      exact hnd.2.2 _ (List.mem_map_of_mem (mem_of_ownerOf ho)) _ (by simp)
  have hafter : owningShard (cat.apply cmd) spec.table key = some new := by
    rw [owningShard_eq hget, ownerOf_append (h.endless hs hcat hts) hnd ho,
      if_pos ⟨h.new_start.le, hlt⟩]
  have hchange : owningShard (cat.apply cmd) spec.table key ≠ owningShard cat spec.table key := by
    rw [hafter, owningShard_eq hts, ho]
    rintro he
    exact absurd (congrArg ShardSpec.start (Option.some.inj he)) hlt.ne'
  obtain ⟨-, -, o', ho', hid⟩ := h.splitRight_iff.mp hr _ _ hchange
  exact Or.inr ⟨o', (owningShard_eq hts key).symm.trans ho', hid⟩

end SplitStep

/-! ### Whole runs -/

theorem Proposed.formed {seen : List Catalog} {cat : Catalog} {cmd : MetaCommand}
    {split : Option ShardSpec} (h : Proposed lib seen cmd split) (hs : SeenRight seen cat)
    (hcat : cat.Formed) : (cat.apply cmd).Formed := by
  cases split with
  | none => exact h.formed_of_none hcat
  | some spec =>
    obtain ⟨key, new, hsplit⟩ := h.splitOf
    exact hsplit.formed hs hcat

theorem Proposed.extends {seen : List Catalog} {cat : Catalog} {cmd : MetaCommand}
    {split : Option ShardSpec} (h : Proposed lib seen cmd split) (hs : SeenRight seen cat) :
    cat.Extends (cat.apply cmd) := by
  cases split with
  | none => exact h.extends_of_none cat
  | some spec =>
    obtain ⟨key, new, hsplit⟩ := h.splitOf
    exact hsplit.extends hs

theorem Run.seenRight {seen : List Catalog} {steps : List Step} (h : Run lib seen steps) :
    ∃ cat rest, seen = cat :: rest ∧ SeenRight seen cat := by
  induction h with
  | start =>
    refine ⟨{}, [], rfl, ?_, ?_⟩
    · rintro c hc t ts hts
      obtain rfl := List.mem_singleton.mp hc
      cases hts
    · rintro c hc
      obtain rfl := List.mem_singleton.mp hc
      exact Catalog.Extends.refl _
  | @commit cat seen steps cmd split hrun hcmd ih =>
    obtain ⟨_, _, he, hs⟩ := ih
    obtain ⟨rfl, rfl⟩ := List.cons.inj he
    refine ⟨_, _, rfl, ?_, ?_⟩
    · rintro c hc
      rcases List.mem_cons.mp hc with rfl | hc
      · exact hcmd.formed hs (hs.formed cat List.mem_cons_self)
      · exact hs.formed c hc
    · rintro c hc
      rcases List.mem_cons.mp hc with rfl | hc
      · exact Catalog.Extends.refl _
      · exact (hs.extended c hc).trans (hcmd.extends hs)

theorem Catalog.Formed.owned {cat : Catalog} (h : cat.Formed) {t : Bytes} {ts : TableSpec}
    (hts : cat.tables.get t = some ts) (key : Bytes) : ∃ s ∈ ts.shards, s.owns key := by
  obtain ⟨o, ho⟩ := h.exists_owner hts key
  have hmem := mem_of_ownerOf ho
  exact ⟨o, hmem, (owns_iff ((h t ts hts).endless o hmem)).mpr
    (ownerOf_spec (h t ts hts).endless ho).1⟩

/-- An identifier names one shard of one table. -/
theorem Catalog.Formed.ids {cat : Catalog} (h : cat.Formed) {t t' : Bytes} {ts ts' : TableSpec}
    (hts : cat.tables.get t = some ts) (hts' : cat.tables.get t' = some ts') {i j : ℕ}
    {s s' : ShardSpec} (hi : ts.shards[i]? = some s) (hj : ts'.shards[j]? = some s')
    (hid : s.id = s'.id) : t = t' ∧ i = j := by
  have hs := (h t ts hts).ids s (List.mem_of_getElem? hi)
  have hs' := (h t' ts' hts').ids s' (List.mem_of_getElem? hj)
  obtain rfl : t = t' := hs.unique (hid ▸ hs')
  obtain rfl := Option.some.inj (hts.symm.trans hts')
  refine ⟨rfl, ?_⟩
  obtain ⟨hlt, -⟩ := List.getElem?_eq_some_iff.mp hi
  exact (List.getElem?_inj (by simpa using hlt) (h t ts hts).distinct).mp
    (by rw [List.getElem?_map, List.getElem?_map, hi, hj, Option.map_some, Option.map_some, hid])

theorem Catalog.Formed.ownersRight_iff {cat : Catalog} (h : cat.Formed) :
    cat.OwnersRight ↔ cat.Distinct := by
  constructor
  · exact fun hr => hr.distinct
  · intro hd
    constructor
    · exact fun t ts hts => h.owned hts
    · exact hd
    · intro t ts hts key
      obtain ⟨o, ho⟩ := h.exists_owner hts key
      have hf := h t ts hts
      obtain ⟨hle, hmax⟩ := ownerOf_spec hf.endless ho
      have hmem := mem_of_ownerOf ho
      refine ⟨o, hmem, (owns_iff (hf.endless o hmem)).mpr hle, ?_, ?_⟩
      · intro s hs howns hne
        apply lt_of_le_of_ne (hmax s hs ((owns_iff (hf.endless s hs)).mp howns))
        exact fun he => hne (eq_of_start_eq (hd t ts hts) hs hmem he)
      · exact fun shards hp => (ownerOf_perm (hd t ts hts) hp).trans ho
    · exact fun t t' ts ts' hts hts' i j s s' hi hj => h.ids hts hts' hi hj

theorem Step.timely_of_none {s : Step} (h : s.split = none) : s.Timely := fun _ _ _ _ _ hs => by
  cases h.symm.trans hs

theorem Step.splitRight_of_none {s : Step} (h : s.split = none) : s.SplitRight :=
  fun _ _ _ _ hs => by cases h.symm.trans hs

theorem Proposed.timely_iff {seen : List Catalog} {cat : Catalog} {cmd : MetaCommand}
    {split : Option ShardSpec} (h : Proposed lib seen cmd split) (hs : SeenRight seen cat)
    (hcat : cat.Formed) (hd : cat.Distinct) :
    (cat.apply cmd).Distinct ∧
        Step.SplitRight { before := cat, cmd := cmd, split := split } ↔
      Step.Timely { before := cat, cmd := cmd, split := split } := by
  cases split with
  | none =>
    exact iff_of_true ⟨h.distinct_of_none hd, Step.splitRight_of_none rfl⟩
      (Step.timely_of_none rfl)
  | some spec =>
    obtain ⟨key, new, hsplit⟩ := h.splitOf
    constructor
    · rintro ⟨hd', hr⟩
      exact hsplit.timely_of_right hs hcat hd' hr
    · intro ht
      exact ⟨hsplit.distinct_of_timely hs hcat hd ht, hsplit.splitRight_of_timely hs hcat hd ht⟩

/-- Owners are right all through a run exactly if every split of it commits in time. -/
theorem owners_right_iff (lib : Stdlib) (seen : List Catalog) (steps : List Step)
    (h : Run lib seen steps) :
    ((∀ cat ∈ seen, cat.OwnersRight) ∧ ∀ s ∈ steps, s.SplitRight) ↔ ∀ s ∈ steps, s.Timely := by
  induction h with
  | start =>
    have hempty : Catalog.OwnersRight {} := by
      apply Catalog.Formed.ownersRight_iff (fun t ts hts => by cases hts) |>.mpr
      rintro t ts hts
      cases hts
    simpa using hempty
  | @commit cat seen steps cmd split hrun hcmd ih =>
    obtain ⟨_, _, he, hs⟩ := hrun.seenRight
    obtain ⟨rfl, rfl⟩ := List.cons.inj he
    have hcat := hs.formed cat List.mem_cons_self
    have hafter := hcmd.formed hs hcat
    simp only [List.forall_mem_cons] at ih ⊢
    constructor
    · rintro ⟨⟨ha, hc, hseen⟩, hr, hsteps⟩
      exact ⟨(hcmd.timely_iff hs hcat hc.distinct).mp ⟨ha.distinct, hr⟩,
        ih.mp ⟨⟨hc, hseen⟩, hsteps⟩⟩
    · rintro ⟨ht, htsteps⟩
      obtain ⟨⟨hc, hseen⟩, hsteps⟩ := ih.mpr htsteps
      obtain ⟨hd', hr⟩ := (hcmd.timely_iff hs hcat hc.distinct).mpr ht
      exact ⟨⟨hafter.ownersRight_iff.mpr hd', hc, hseen⟩, hr, hsteps⟩

/-! ### Two splits at one key -/

/-- A table with an integer key. -/
def keyed : Schema :=
  { name := ascii "t"
    columns := [{ name := ascii "k", type := .int, notNull := true, default := .nil,
                  asPrimary := true }]
    pk := [ascii "k"], engine := [] }

def oneNode : Placing := { rf := 1, live := [ascii "n"], mountShardGroup := fun _ => .ok () }

/-- The catalog of a table that is not split. -/
def unsplit : Catalog :=
  Catalog.apply {} (.createTable keyed [{ id := ascii "t-0", nodes := [ascii "n"] }])

/-- The split at 5, as a shard of the given identifier. -/
def splitAtFive (id : Bytes) : MetaCommand :=
  .splitShard (ascii "t") (Storage.encodePK [intValue 5])
    [{ id := id, table := ascii "t", start := Storage.encodePK [intValue 5], nodes := [ascii "n"] }]

def splitOnce : Catalog := unsplit.apply (splitAtFive (ascii "t-0-1"))

theorem createTableOn_keyed : createTableOn {} keyed 1 [ascii "n"] =
    .ok (.createTable keyed [{ id := ascii "t-0", nodes := [ascii "n"] }]) := by
  have hnodes : tableNodes [] 1 [ascii "n"] (keyed.name ++ ascii "-0") = [ascii "n"] := by
    simp [tableNodes, pickNodes]
  simp only [createTableOn, hnodes]
  rfl

theorem run_unsplit : Run Stdlib.plain [unsplit, {}]
    [{ before := {}, cmd := .createTable keyed [{ id := ascii "t-0", nodes := [ascii "n"] }]
       split := none }] :=
  Run.commit Run.start (Proposed.createTable List.mem_cons_self createTableOn_keyed)

def wholeShard : ShardSpec := { id := ascii "t-0", table := ascii "t", nodes := [ascii "n"] }

theorem splitTarget_five (counted : Catalog) :
    splitTarget Stdlib.plain ⟨unsplit, unsplit, counted, counted⟩ (ascii "t") (ascii "5") =
      .ok (wholeShard, Storage.encodePK [intValue 5]) := by
  have h : splitTarget Stdlib.plain ⟨unsplit, unsplit, {}, {}⟩ (ascii "t") (ascii "5") =
      .ok (wholeShard, Storage.encodePK [intValue 5]) := by decide +kernel
  exact h

/-- A split at 5 that counts the shards of some catalog. -/
theorem splitByValue_five {counted : Catalog} {ts : TableSpec} {id : Bytes}
    (hts : counted.tables.get (ascii "t") = some ts)
    (hid : ascii "t-0" ++ ascii "-" ++ formatNat ts.shards.length = id) :
    splitShardByValue Stdlib.plain ⟨unsplit, unsplit, counted, counted⟩ oneNode (ascii "t")
      (ascii "5") = .ok (splitAtFive id) := by
  have hnodes : ∀ all id, oneNode.nodesFor all id = [ascii "n"] := fun all id => by
    simp [oneNode, Placing.nodesFor, pickNodes]
  subst hid
  simp only [splitShardByValue, splitTarget_five, bind, Except.bind, splitShard, wholeShard, hts,
    hnodes]
  rfl

theorem run_splitOnce : Run Stdlib.plain [splitOnce, unsplit, {}]
    [{ before := unsplit, cmd := splitAtFive (ascii "t-0-1"), split := some wholeShard },
     { before := {}, cmd := .createTable keyed [{ id := ascii "t-0", nodes := [ascii "n"] }]
       split := none }] := by
  have hts : ∃ ts, unsplit.tables.get (ascii "t") = some ts ∧ ts.shards.length = 1 :=
    ⟨_, rfl, rfl⟩
  obtain ⟨ts, hts, hlen⟩ := hts
  apply Run.commit run_unsplit
  apply Proposed.splitByValue _ (splitTarget_five unsplit)
    (splitByValue_five hts (by rw [hlen]; decide))
  simp [Reads.Among]

theorem owners_right_iff_splitOnce :
    ((∀ cat ∈ [splitOnce, unsplit, {}], cat.OwnersRight) ∧
      ∀ s ∈ [({ before := unsplit, cmd := splitAtFive (ascii "t-0-1")
                split := some wholeShard } : Step),
        { before := {}, cmd := .createTable keyed [{ id := ascii "t-0", nodes := [ascii "n"] }]
          split := none }], s.SplitRight) ↔
    ∀ s ∈ [({ before := unsplit, cmd := splitAtFive (ascii "t-0-1")
              split := some wholeShard } : Step),
      { before := {}, cmd := .createTable keyed [{ id := ascii "t-0", nodes := [ascii "n"] }]
        split := none }], s.Timely :=
  owners_right_iff Stdlib.plain _ _ run_splitOnce

/-- A second request finds the owner before the first one commits and counts the shards after it: two
shards start at the split key. -/
theorem not_owners_right : ¬ ∀ (lib : Stdlib) (seen : List Catalog) (steps : List Step),
    Run lib seen steps → (∀ cat ∈ seen, cat.OwnersRight) ∧ ∀ s ∈ steps, s.SplitRight := by
  intro h
  have hts : ∃ ts, splitOnce.tables.get (ascii "t") = some ts ∧ ts.shards.length = 2 :=
    ⟨_, rfl, rfl⟩
  obtain ⟨ts, hts, hlen⟩ := hts
  have hsplit : splitShardByValue Stdlib.plain ⟨unsplit, unsplit, splitOnce, splitOnce⟩ oneNode
      (ascii "t") (ascii "5") = .ok (splitAtFive (ascii "t-0-2")) :=
    splitByValue_five hts (by rw [hlen]; decide)
  have hrun := Run.commit run_splitOnce
    (Proposed.splitByValue (by simp [Reads.Among]) (splitTarget_five splitOnce) hsplit)
  have hd := ((h _ _ _ hrun).1 _ List.mem_cons_self).distinct (ascii "t") _ rfl
  revert hd
  decide +kernel

end Ydbgo.Shard
