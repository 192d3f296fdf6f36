import Ydbgo.Shard.Heal
import Ydbgo.Shard.Placement

/-! # Healing over runs

Nodes die and return, the meta leader probes them and heals shards. A healed
placement is sound. Healing returns at once when no member is dead: then the
shard has as many replicas as the replication factor and the live nodes allow
exactly if no live node is passed over while replicas are missing.
-/

namespace Ydbgo.Shard

/-! ### Replacements -/

section Replacements

variable (live : List Bytes)

variable {live} in
theorem mem_of_pickReplacement {used : List Bytes} (h : pickReplacement live used ≠ []) :
    pickReplacement live used ∈ live ∧ pickReplacement live used ∉ used := by
  unfold pickReplacement at h ⊢
  cases hf : live.find? fun nid => nid ∉ used with
  | none =>
    rw [hf] at h
    exact absurd rfl h
  | some nid =>
    exact ⟨List.mem_of_find?_eq_some hf, by simpa using List.find?_some hf⟩

variable {live} in
theorem pickReplacement_eq_nil {used : List Bytes} (hn : ([] : Bytes) ∉ live) :
    pickReplacement live used = [] ↔ ∀ n ∈ live, n ∈ used := by
  unfold pickReplacement
  cases hf : live.find? fun nid => nid ∉ used with
  | none => simpa using hf
  | some nid =>
    have hm := List.mem_of_find?_eq_some hf
    have hp := List.find?_some hf
    simp only [Option.getD_some]
    constructor
    · rintro rfl
      exact absurd hm hn
    · intro h
      exact absurd (h nid hm) (by simpa using hp)

/-- What is added are live nodes that were not there, each once. -/
theorem addReplacements_spec (n : ℕ) (target : List Bytes) :
    ∃ reps, addReplacements live n target = target ++ reps ∧ reps.Nodup ∧
      (∀ r ∈ reps, r ∈ live ∧ r ∉ target) ∧ reps.length ≤ n := by
  induction n generalizing target with
  | zero => exact ⟨[], by simp [addReplacements]⟩
  | succ n ih =>
    rw [addReplacements]
    split
    · exact ⟨[], by simp⟩
    · next hrep =>
      obtain ⟨hlive, hused⟩ := mem_of_pickReplacement hrep
      obtain ⟨reps, he, hnd, hmem, hlen⟩ := ih (target ++ [pickReplacement live target])
      refine ⟨pickReplacement live target :: reps, by rw [he]; simp, ?_, ?_, by simpa using hlen⟩
      · refine List.nodup_cons.mpr ⟨fun hm => (hmem _ hm).2 (by simp), hnd⟩
      · rintro r hr
        rcases List.mem_cons.mp hr with rfl | hr
        · exact ⟨hlive, hused⟩
        · exact ⟨(hmem r hr).1, fun hm => (hmem r hr).2 (List.mem_append_left _ hm)⟩

variable {live} in
/-- All missing replicas are added, or all live nodes are used. -/
theorem addReplacements_full (hn : ([] : Bytes) ∉ live) (n : ℕ) (target : List Bytes) :
    (addReplacements live n target).length = target.length + n ∨
      ∀ r ∈ live, r ∈ addReplacements live n target := by
  induction n generalizing target with
  | zero => exact Or.inl rfl
  | succ n ih =>
    rw [addReplacements]
    split
    · next hrep => exact Or.inr ((pickReplacement_eq_nil hn).mp hrep)
    · rcases ih (target ++ [pickReplacement live target]) with h | h
      · left
        rw [h, List.length_append, List.length_singleton]
        omega
      · exact Or.inr h

end Replacements

/-! ### One healing -/

section Healing

variable {m : Manager} {cat : Catalog} {l : Liveness} {dial : Bytes → Bool} {rpc : Rpc}
  {spec : ShardSpec}

/-- Healing finds nothing to do, or aims at a new placement. -/
theorem healShard_ok {r : Option MetaCommand} (h : healShard m cat l dial rpc spec = .ok r) :
    ((∀ n ∈ spec.nodes, ¬ l.dead n) ∧ r = none) ∨
    ((∃ n ∈ spec.nodes, l.dead n) ∧
      r = some (.setShardNodes spec.table spec.id (healTarget m cat l spec))) := by
  unfold healShard at h
  dsimp only at h
  split at h
  · next hd =>
    left
    refine ⟨fun n hn hdead => ?_, (Except.ok.inj h).symm⟩
    exact List.not_mem_nil (hd ▸ List.mem_filter.mpr ⟨hn, hdead⟩)
  · next hd =>
    right
    obtain ⟨n, hn⟩ := List.exists_mem_of_ne_nil _ hd
    obtain ⟨hn, hdead⟩ := List.mem_filter.mp hn
    split at h
    · cases h
    · split at h
      · cases h
      · exact ⟨⟨n, hn, hdead⟩, (Except.ok.inj h).symm⟩

theorem mem_liveNodes {n : Bytes} : n ∈ liveNodes cat l ↔ n ∈ cat.nodes ∧ ¬ l.dead n := by
  simp [liveNodes]

theorem nodup_liveNodes (h : cat.nodes.Nodup) : (liveNodes cat l).Nodup := h.filter _

variable (m cat l) in
/-- The members that are alive stay, and the others are live. -/
theorem healTarget_spec (hnd : spec.nodes.Nodup) :
    (healTarget m cat l spec).Nodup ∧ (∀ n ∈ healTarget m cat l spec, ¬ l.dead n) ∧
    (∀ n ∈ spec.nodes, ¬ l.dead n → n ∈ healTarget m cat l spec) ∧
    ∀ n ∈ healTarget m cat l spec, n ∈ spec.nodes ∨ n ∈ cat.nodes := by
  obtain ⟨reps, he, hreps, hmem, -⟩ := addReplacements_spec (liveNodes cat l)
    (m.rf - (spec.nodes.filter fun nid => !l.dead nid).length).toNat
    (spec.nodes.filter fun nid => !l.dead nid)
  rw [show healTarget m cat l spec = _ from he]
  refine ⟨?_, ?_, ?_, ?_⟩
  · refine List.nodup_append.mpr ⟨hnd.filter _, hreps, ?_⟩
    rintro a ha _ hb rfl
    exact (hmem a hb).2 ha
  · rintro n hn
    rcases List.mem_append.mp hn with hn | hn
    · simpa using (List.mem_filter.mp hn).2
    · exact (mem_liveNodes.mp (hmem n hn).1).2
  · exact fun n hn hl => List.mem_append_left _ (List.mem_filter.mpr ⟨hn, by simpa using hl⟩)
  · rintro n hn
    rcases List.mem_append.mp hn with hn | hn
    · exact Or.inl (List.mem_filter.mp hn).1
    · exact Or.inr (mem_liveNodes.mp (hmem n hn).1).1

/-- How many replicas healing aims at. -/
theorem length_healTarget (hnd : spec.nodes.Nodup) (hn : cat.nodes.Nodup)
    (hname : ([] : Bytes) ∉ cat.nodes) (hsub : ∀ n ∈ spec.nodes, n ∈ cat.nodes)
    (hle : (spec.nodes.length : ℤ) ≤ m.rf) :
    ((healTarget m cat l spec).length : ℤ) = min m.rf (liveNodes cat l).length := by
  obtain ⟨hndt, hdead, hkeep, hmem⟩ := healTarget_spec m cat l hnd
  have halive : (spec.nodes.filter fun nid => !l.dead nid).length ≤ spec.nodes.length :=
    List.length_filter_le _ _
  have hlive : ∀ n ∈ healTarget m cat l spec, n ∈ liveNodes cat l := fun n ht =>
    mem_liveNodes.mpr ⟨(hmem n ht).elim (hsub n) id, hdead n ht⟩
  have hup : (healTarget m cat l spec).length ≤ (liveNodes cat l).length :=
    (List.subperm_of_subset hndt hlive).length_le
  have hbound : ((healTarget m cat l spec).length : ℤ) ≤ m.rf := by
    obtain ⟨reps, he, -, -, hlen⟩ := addReplacements_spec (liveNodes cat l)
      (m.rf - (spec.nodes.filter fun nid => !l.dead nid).length).toNat
      (spec.nodes.filter fun nid => !l.dead nid)
    rw [show healTarget m cat l spec = _ from he, List.length_append]
    omega
  have hne : ([] : Bytes) ∉ liveNodes cat l := fun h => hname (mem_liveNodes.mp h).1
  rcases addReplacements_full hne (m.rf - (spec.nodes.filter fun nid => !l.dead nid).length).toNat
    (spec.nodes.filter fun nid => !l.dead nid) with h | h
  · have hlen : (healTarget m cat l spec).length = _ := h
    omega
  · have hall : (liveNodes cat l).length ≤ (healTarget m cat l spec).length :=
      (List.subperm_of_subset (nodup_liveNodes hn) h).length_le
    omega

/-- Without a replication factor only the members that are alive stay. -/
theorem healTarget_of_nonpos (hrf : m.rf ≤ 0) :
    healTarget m cat l spec = spec.nodes.filter fun nid => !l.dead nid := by
  have h : (m.rf - (spec.nodes.filter fun nid => !l.dead nid).length).toNat = 0 := by omega
  rw [healTarget, h, addReplacements]

/-- The live nodes that are no members leave the alive members as many as there are live nodes. -/
theorem length_alive (hnd : spec.nodes.Nodup) (hn : cat.nodes.Nodup)
    (hsub : ∀ n ∈ spec.nodes, n ∈ cat.nodes) :
    (spec.nodes.filter fun nid => !l.dead nid).length ≤ (liveNodes cat l).length ∧
    ((liveNodes cat l).length ≤ (spec.nodes.filter fun nid => !l.dead nid).length ↔
      ∀ n ∈ liveNodes cat l, n ∈ spec.nodes) := by
  have halive : ∀ n, n ∈ (spec.nodes.filter fun nid => !l.dead nid) ↔ n ∈ spec.nodes ∧ ¬ l.dead n := by
    simp
  have hsubl : ∀ n ∈ (spec.nodes.filter fun nid => !l.dead nid), n ∈ liveNodes cat l := fun n hm =>
    mem_liveNodes.mpr ⟨hsub n ((halive n).mp hm).1, ((halive n).mp hm).2⟩
  have hsp := List.subperm_of_subset (hnd.filter fun nid => !l.dead nid) hsubl
  refine ⟨hsp.length_le, ?_, ?_⟩
  · intro hle n hm
    exact ((halive n).mp ((hsp.perm_of_length_le hle).mem_iff.mpr hm)).1
  · intro hall
    apply (List.subperm_of_subset (nodup_liveNodes hn) _).length_le
    exact fun n hm => (halive n).mpr ⟨hall n hm, (mem_liveNodes.mp hm).2⟩

end Healing

/-! ### Runs -/

/-- The catalog with the leader's liveness view and the addresses that answer. -/
structure Cluster where
  cat : Catalog
  liveness : Liveness := {}
  dial : Bytes → Bool

/-- A node dies or returns, the leader probes the nodes, or heals a shard. -/
inductive HealEvent where
  | answer (addr : Bytes) (up : Bool)
  | probe
  | heal (table id : Bytes) (rpc : Rpc)

def findShard (cat : Catalog) (table id : Bytes) : Option ShardSpec :=
  (cat.tables.get table).bind fun ts => ts.shards.find? fun s => s.id = id

/-- A healing that fails commits nothing. -/
def healCommit (m : Manager) (s : Cluster) (rpc : Rpc) (spec : ShardSpec) : Catalog :=
  match healShard m s.cat s.liveness s.dial rpc spec with
  | .ok (some cmd) => s.cat.apply cmd
  | _ => s.cat

def Cluster.step (m : Manager) (s : Cluster) : HealEvent → Cluster
  | .answer addr up => { s with dial := Function.update s.dial addr up }
  | .probe => { s with liveness := probeNodes m s.cat s.liveness s.dial }
  | .heal table id rpc =>
    match findShard s.cat table id with
    | none => s
    | some spec => { s with cat := healCommit m s rpc spec }

def Cluster.run (m : Manager) (s : Cluster) (evs : List HealEvent) : Cluster :=
  evs.foldl (Cluster.step m) s

/-- After a healing that succeeds, the placement has each node once, none that is held for dead and
every member that is alive; and if it is as before, it has as many as there can be. -/
def HealsRight (m : Manager) (s : Cluster) (table id : Bytes) (rpc : Rpc) : Prop :=
  ∀ spec r, findShard s.cat table id = some spec →
    healShard m s.cat s.liveness s.dial rpc spec = .ok r →
      ∃ spec', findShard (s.step m (.heal table id rpc)).cat table id = some spec' ∧
        spec'.nodes.Nodup ∧ (∀ n ∈ spec'.nodes, ¬ s.liveness.dead n) ∧
        (∀ n ∈ spec.nodes, ¬ s.liveness.dead n → n ∈ spec'.nodes) ∧
        (spec'.nodes = spec.nodes → (spec'.nodes.length : ℤ) =
          min (effectiveRF m.rf s.cat) (liveNodes s.cat s.liveness).length)

/-- A live node outside the placement that healing passes over though replicas are missing, as no
member is dead. -/
def PassesOver (m : Manager) (s : Cluster) (spec : ShardSpec) : Prop :=
  (∀ n ∈ spec.nodes, ¬ s.liveness.dead n) ∧
  (spec.nodes.length : ℤ) < effectiveRF m.rf s.cat ∧
  ∃ n ∈ liveNodes s.cat s.liveness, n ∉ spec.nodes

theorem findShard_eq_some {cat : Catalog} {table id : Bytes} {spec : ShardSpec}
    (h : findShard cat table id = some spec) :
    ∃ ts, cat.tables.get table = some ts ∧ spec ∈ ts.shards ∧ spec.id = id := by
  obtain ⟨ts, hts, hf⟩ := Option.bind_eq_some_iff.mp h
  exact ⟨ts, hts, List.mem_of_find?_eq_some hf, by simpa using List.find?_some hf⟩

theorem find?_setNodes (nodes : List Bytes) {id : Bytes} {shards : List ShardSpec} {spec : ShardSpec}
    (h : shards.find? (fun s => s.id = id) = some spec) :
    ∃ shards', setNodes id nodes shards = some shards' ∧
      shards'.find? (fun s => s.id = id) = some { spec with nodes := nodes } := by
  induction shards with
  | nil => cases h
  | cons s ss ih =>
    rw [setNodes]
    by_cases hs : s.id = id
    · rw [List.find?_cons_of_pos (by simpa using hs)] at h
      obtain rfl := Option.some.inj h
      exact ⟨_, if_pos hs, by rw [List.find?_cons_of_pos (by simpa using hs)]⟩
    · rw [List.find?_cons_of_neg (by simpa using hs)] at h
      obtain ⟨ss', he, hf⟩ := ih h
      refine ⟨s :: ss', by rw [if_neg hs, he, Option.map_some], ?_⟩
      rw [List.find?_cons_of_neg (by simpa using hs), hf]

/-- The new placement is committed for the shard. -/
theorem findShard_setShardNodes {cat : Catalog} {table id : Bytes} {spec : ShardSpec}
    (h : findShard cat table id = some spec) (nodes : List Bytes) :
    findShard (cat.apply (.setShardNodes table id nodes)) table id =
      some { spec with nodes := nodes } := by
  obtain ⟨ts, hts, hf⟩ := Option.bind_eq_some_iff.mp h
  obtain ⟨shards', he, hf'⟩ := find?_setNodes nodes hf
  rw [findShard, get_apply_setShardNodes, if_pos rfl, hts, Option.map_some, Option.bind_some, he,
    Option.getD_some]
  exact hf'

theorem nodes_apply_setShardNodes (cat : Catalog) (table id : Bytes) (nodes : List Bytes) :
    (cat.apply (.setShardNodes table id nodes)).nodes = cat.nodes := by
  simp only [Catalog.apply, applyCommand]
  cases cat.tables.get table with
  | none => rfl
  | some ts =>
    dsimp only
    cases setNodes id nodes ts.shards <;> rfl

theorem specs_apply_setShardNodes (cat : Catalog) (table id : Bytes) (nodes : List Bytes) :
    (cat.apply (.setShardNodes table id nodes)).specs = cat.specs := by
  simp only [Catalog.apply, applyCommand]
  cases cat.tables.get table with
  | none => rfl
  | some ts =>
    dsimp only
    cases setNodes id nodes ts.shards <;> rfl

theorem mem_setNodes {id : Bytes} {nodes : List Bytes} {shards shards' : List ShardSpec}
    (h : setNodes id nodes shards = some shards') {s' : ShardSpec} (hs' : s' ∈ shards') :
    s' ∈ shards ∨ ∃ s ∈ shards, s' = { s with nodes := nodes } := by
  induction shards generalizing shards' with
  | nil => cases h
  | cons s ss ih =>
    rw [setNodes] at h
    split at h
    · obtain rfl := Option.some.inj h
      rcases List.mem_cons.mp hs' with rfl | hs'
      · exact Or.inr ⟨s, List.mem_cons_self, rfl⟩
      · exact Or.inl (List.mem_cons_of_mem _ hs')
    · obtain ⟨ss', he, rfl⟩ := Option.map_eq_some_iff.mp h
      rcases List.mem_cons.mp hs' with rfl | hs'
      · exact Or.inl List.mem_cons_self
      · rcases ih he hs' with hm | ⟨s₀, hm, hs₀⟩
        · exact Or.inl (List.mem_cons_of_mem _ hm)
        · exact Or.inr ⟨s₀, List.mem_cons_of_mem _ hm, hs₀⟩

theorem map_id_of_bare {shards shards' : List ShardSpec}
    (h : shards'.map ShardSpec.bare = shards.map ShardSpec.bare) :
    shards'.map ShardSpec.id = shards.map ShardSpec.id := by
  have hid : ∀ l : List ShardSpec, l.map ShardSpec.id = (l.map ShardSpec.bare).map ShardSpec.id :=
    fun l => by simp [Function.comp_def, ShardSpec.bare]
  rw [hid, h, ← hid]

/-- A sound placement may be committed. -/
theorem Placed.setShardNodes {rf : ℤ} {cat : Catalog} (h : Placed rf cat) {table id : Bytes}
    {nodes : List Bytes} (hnd : nodes.Nodup) (hsub : ∀ n ∈ nodes, n ∈ cat.nodes)
    (hlen : (nodes.length : ℤ) ≤ effectiveRF rf cat) :
    Placed rf (cat.apply (.setShardNodes table id nodes)) := by
  have hnodes := nodes_apply_setShardNodes cat table id nodes
  have hrf : effectiveRF rf (cat.apply (.setShardNodes table id nodes)) = effectiveRF rf cat := by
    rw [effectiveRF, effectiveRF, hnodes]
  constructor
  · rw [hnodes]
    exact h.nodup_nodes
  · rw [hnodes]
    exact h.named
  · rw [hnodes, specs_apply_setShardNodes]
    exact h.registered
  · rintro t ts' hts'
    rw [get_apply_setShardNodes] at hts'
    rw [hrf, hnodes]
    by_cases ht : table = t
    · subst ht
      rw [if_pos rfl] at hts'
      obtain ⟨ts, hts, rfl⟩ := Option.map_eq_some_iff.mp hts'
      obtain ⟨hids, hshards⟩ := h.tables _ ts hts
      dsimp only
      refine ⟨by rwa [map_id_of_bare (bare_getD_setNodes id nodes ts.shards)], ?_⟩
      cases hs : setNodes id nodes ts.shards with
      | none => exact hshards
      | some shards' =>
        rintro s' hs'
        rcases mem_setNodes hs hs' with hm | ⟨s, hm, rfl⟩
        · exact hshards s' hm
        · exact ⟨(hshards s hm).1, hnd, hsub, hlen⟩
    · rw [if_neg ht] at hts'
      exact h.tables t ts' hts'

section Steps

variable {m : Manager} {s : Cluster} {table id : Bytes} {rpc : Rpc} {spec : ShardSpec}

theorem Placed.found (h : Placed m.rf s.cat) (hf : findShard s.cat table id = some spec) :
    spec.table = table ∧ spec.id = id ∧ spec.nodes.Nodup ∧ (∀ n ∈ spec.nodes, n ∈ s.cat.nodes) ∧
      (spec.nodes.length : ℤ) ≤ effectiveRF m.rf s.cat := by
  obtain ⟨ts, hts, hmem, hid⟩ := findShard_eq_some hf
  obtain ⟨ht, hrest⟩ := (h.tables table ts hts).2 spec hmem
  exact ⟨ht, hid, hrest⟩

/-- The placement that healing aims at is sound. -/
theorem Placed.healTarget (h : Placed m.rf s.cat) (hf : findShard s.cat table id = some spec) :
    (healTarget m s.cat s.liveness spec).Nodup ∧
    (∀ n ∈ healTarget m s.cat s.liveness spec, n ∈ s.cat.nodes) ∧
    ((Shard.healTarget m s.cat s.liveness spec).length : ℤ) ≤ effectiveRF m.rf s.cat := by
  obtain ⟨-, -, hnd, hsub, hlen⟩ := h.found hf
  obtain ⟨hndt, -, -, hmem⟩ := healTarget_spec m s.cat s.liveness hnd
  refine ⟨hndt, fun n hn => (hmem n hn).elim (hsub n) fun hn => hn, ?_⟩
  by_cases hrf : m.rf ≤ 0
  · rw [healTarget_of_nonpos hrf]
    have := List.length_filter_le (fun nid => !s.liveness.dead nid) spec.nodes
    omega
  · rw [effectiveRF, if_neg hrf] at hlen ⊢
    rw [length_healTarget hnd h.nodup_nodes h.named hsub hlen]
    exact min_le_left _ _

theorem Placed.step (h : Placed m.rf s.cat) (e : HealEvent) : Placed m.rf (s.step m e).cat := by
  cases e with
  | answer addr up => exact h
  | probe => exact h
  | heal table id rpc =>
    simp only [Cluster.step]
    cases hf : findShard s.cat table id with
    | none => exact h
    | some spec =>
      simp only [healCommit]
      split
      · next cmd hok =>
        obtain ⟨hnd, hsub, hlen⟩ := h.healTarget hf
        rcases healShard_ok hok with ⟨-, hr⟩ | ⟨-, hr⟩
        · cases hr
        · obtain rfl := Option.some.inj hr
          exact h.setShardNodes hnd hsub hlen
      · exact h

theorem Placed.run (h : Placed m.rf s.cat) (evs : List HealEvent) :
    Placed m.rf (s.run m evs).cat := by
  induction evs generalizing s with
  | nil => exact h
  | cons e evs ih => exact ih (h.step e)

/-- The placement after a healing that succeeds. -/
theorem findShard_heal (h : Placed m.rf s.cat) (hf : findShard s.cat table id = some spec)
    {r : Option MetaCommand} (hok : healShard m s.cat s.liveness s.dial rpc spec = .ok r) :
    findShard (s.step m (.heal table id rpc)).cat table id = some { spec with
      nodes := if ∀ n ∈ spec.nodes, ¬ s.liveness.dead n then spec.nodes
        else healTarget m s.cat s.liveness spec } := by
  obtain ⟨rfl, rfl, -⟩ := h.found hf
  simp only [Cluster.step, hf, healCommit, hok]
  rcases healShard_ok hok with ⟨hall, rfl⟩ | ⟨⟨n, hn, hdead⟩, rfl⟩
  · rw [if_pos hall]
    exact hf
  · rw [if_neg fun hall => hall n hn hdead]
    exact findShard_setShardNodes hf _

/-- A placement without dead members has as many as there can be exactly if no live spare is passed
over. -/
theorem length_iff_not_passesOver (h : Placed m.rf s.cat)
    (hf : findShard s.cat table id = some spec) (hall : ∀ n ∈ spec.nodes, ¬ s.liveness.dead n) :
    (spec.nodes.length : ℤ) =
      min (effectiveRF m.rf s.cat) (liveNodes s.cat s.liveness).length ↔ ¬ PassesOver m s spec := by
  obtain ⟨-, -, hnd, hsub, hlen⟩ := h.found hf
  have halive : (spec.nodes.filter fun nid => !s.liveness.dead nid) = spec.nodes :=
    List.filter_eq_self.mpr fun n hn => by simpa using hall n hn
  obtain ⟨hup, hfull⟩ := length_alive (l := s.liveness) hnd h.nodup_nodes hsub
  rw [halive] at hup hfull
  have hspare : (∃ n ∈ liveNodes s.cat s.liveness, n ∉ spec.nodes) ↔
      spec.nodes.length < (liveNodes s.cat s.liveness).length := by
    rw [← not_le, hfull]
    push Not
    rfl
  rw [PassesOver, hspare]
  simp only [eq_true hall, true_and]
  omega

/-- A placement that is healed at a given replication factor has as many as there can be. -/
theorem length_healed (h : Placed m.rf s.cat) (hf : findShard s.cat table id = some spec)
    (hrf : 0 < m.rf) : ((healTarget m s.cat s.liveness spec).length : ℤ) =
      min (effectiveRF m.rf s.cat) (liveNodes s.cat s.liveness).length := by
  obtain ⟨-, -, hnd, hsub, hlen⟩ := h.found hf
  rw [effectiveRF, if_neg (not_le.mpr hrf)] at hlen ⊢
  exact length_healTarget hnd h.nodup_nodes h.named hsub hlen

/-- One healing is right exactly if it does not pass over a live spare. -/
theorem healsRight_iff (h : Placed m.rf s.cat) :
    HealsRight m s table id rpc ↔
      ∀ spec, findShard s.cat table id = some spec → ¬ PassesOver m s spec := by
  constructor
  · intro hr spec hf hp
    have hok : healShard m s.cat s.liveness s.dial rpc spec = .ok none := by
      have hnil : (spec.nodes.filter fun nid => s.liveness.dead nid) = [] :=
        List.filter_eq_nil_iff.mpr hp.1
      rw [healShard, if_pos hnil]
    obtain ⟨spec', hf', -, -, -, hlen⟩ := hr spec none hf hok
    obtain rfl := Option.some.inj ((findShard_heal h hf hok).symm.trans hf')
    simp only [if_pos hp.1, forall_const] at hlen
    exact (length_iff_not_passesOver h hf hp.1).mp hlen hp
  · intro hp spec r hf hok
    obtain ⟨-, -, hnd, -⟩ := h.found hf
    obtain ⟨hndt, hdead, hkeep, -⟩ := healTarget_spec m s.cat s.liveness hnd
    refine ⟨_, findShard_heal h hf hok, ?_⟩
    by_cases hall : ∀ n ∈ spec.nodes, ¬ s.liveness.dead n
    · simp only [if_pos hall]
      exact ⟨hnd, hall, fun n hn _ => hn,
        fun _ => (length_iff_not_passesOver h hf hall).mpr (hp spec hf)⟩
    · simp only [if_neg hall]
      refine ⟨hndt, hdead, hkeep, fun he => ?_⟩
      rw [he] at hdead
      exact absurd hdead hall

end Steps

/-- The healings of a run are right exactly if none passes over a live spare while replicas are
missing. -/
theorem heals_right_iff (m : Manager) (s : Cluster) (h : Placed m.rf s.cat)
    (evs : List HealEvent) :
    (∀ before table id rpc after, evs = before ++ .heal table id rpc :: after →
      HealsRight m (s.run m before) table id rpc) ↔
    ∀ before table id rpc after, evs = before ++ .heal table id rpc :: after →
      ∀ spec, findShard (s.run m before).cat table id = some spec →
        ¬ PassesOver m (s.run m before) spec := by
  constructor
  · exact fun hr before table id rpc after he =>
      (healsRight_iff (h.run before)).mp (hr before table id rpc after he)
  · exact fun hp before table id rpc after he =>
      (healsRight_iff (h.run before)).mpr (hp before table id rpc after he)

/-! ### A shard that shrinks -/

/-- Three nodes whose addresses are their names. -/
def threeNodes : Catalog :=
  ((Catalog.apply {} (.registerNode [1] [1] [1])).apply (.registerNode [2] [2] [2])).apply
    (.registerNode [3] [3] [3])

/-- A table with a replica on each of the three nodes. -/
def threeReplicas : Catalog :=
  threeNodes.apply (.createTable { name := [116], columns := [], pk := [], engine := [] }
    [{ id := [48], nodes := [[1], [2], [3]] }])

/-- The node that heals, with a replication factor of three. -/
def healer : Manager := { id := [1], sqlAddr := [1], rf := 3 }

def allAnswer : Cluster := { cat := threeReplicas, dial := fun _ => true }

/-- Calls that all succeed. -/
def Rpc.fine : Rpc where
  mountShard _ _ := .ok []
  addShardVoter _ _ _ := .ok ()
  removeShardVoter _ _ := .ok ()

theorem placed_threeReplicas : Placed 3 threeReplicas := by
  have h : Placed 3 threeNodes :=
    (((placed_empty 3).registerNode (by decide) _ _).registerNode (by decide) _ _).registerNode
      (by decide) _ _
  constructor
  · exact h.nodup_nodes
  · exact h.named
  · exact h.registered
  · rintro t ts hts
    rw [threeReplicas, get_apply_createTable] at hts
    split at hts
    · next ht =>
      subst ht
      obtain rfl := Option.some.inj hts
      constructor
      · decide
      · intro s hs
        obtain rfl := List.mem_singleton.mp hs
        exact ⟨rfl, by decide, by decide, by decide⟩
    · exact h.tables t ts hts

/-- The third node dies, the shard is healed, the node returns, and the shard is healed again. -/
def shrinking : List HealEvent :=
  [.answer [3] false, .probe, .probe, .heal [116] [48] Rpc.fine, .answer [3] true, .probe,
    .heal [116] [48] Rpc.fine]

theorem heals_right_iff_shrinking :
    (∀ before table id rpc after, shrinking = before ++ .heal table id rpc :: after →
      HealsRight healer (allAnswer.run healer before) table id rpc) ↔
    ∀ before table id rpc after, shrinking = before ++ .heal table id rpc :: after →
      ∀ spec, findShard (allAnswer.run healer before).cat table id = some spec →
        ¬ PassesOver healer (allAnswer.run healer before) spec :=
  heals_right_iff healer allAnswer placed_threeReplicas shrinking

/-- The shard keeps two replicas though three nodes are live. -/
theorem not_heals_right : ¬ ∀ (m : Manager) (s : Cluster), Placed m.rf s.cat →
    ∀ evs before table id rpc after, evs = before ++ .heal table id rpc :: after →
      HealsRight m (s.run m before) table id rpc := by
  intro h
  have hr := h healer allAnswer placed_threeReplicas shrinking (shrinking.take 6) [116] [48]
    Rpc.fine [] rfl
  have hspec : ∃ spec, findShard (allAnswer.run healer (shrinking.take 6)).cat [116] [48] = some spec ∧
      spec.nodes = [[1], [2]] := ⟨_, rfl, by decide +kernel⟩
  obtain ⟨spec, hf, hnodes⟩ := hspec
  apply (healsRight_iff (placed_threeReplicas.run _)).mp hr spec hf
  simp only [PassesOver, hnodes]
  decide +kernel

end Ydbgo.Shard
