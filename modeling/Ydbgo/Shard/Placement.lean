import Mathlib.Data.List.Perm.Subperm
import Ydbgo.Shard.SplitRuns

/-! # Placements

The placements of new shards are picked from the live nodes, or from all nodes
if none is known to be live. They have each node once and no more nodes than the
replication factor.
-/

namespace Ydbgo.Shard

/-- The replication factor that placement aims at: all nodes if none is given. -/
def effectiveRF (rf : ℤ) (cat : Catalog) : ℤ := if rf ≤ 0 then cat.nodes.length else rf

/-- Catalogs with placements as the code makes them. -/
structure Placed (rf : ℤ) (cat : Catalog) : Prop where
  nodup_nodes : cat.nodes.Nodup
  named : ([] : Bytes) ∉ cat.nodes
  registered : ∀ n ∈ cat.nodes, (cat.specs.get n).isSome
  tables : ∀ t ts, cat.tables.get t = some ts → (ts.shards.map ShardSpec.id).Nodup ∧
    ∀ s ∈ ts.shards, s.table = t ∧ s.nodes.Nodup ∧ (∀ n ∈ s.nodes, n ∈ cat.nodes) ∧
      (s.nodes.length : ℤ) ≤ effectiveRF rf cat

theorem pickNodes_subperm (all : List Bytes) (n : ℤ) (seed : UInt64) :
    (pickNodes all n seed).Subperm all :=
  (List.take_sublist _ _).subperm.trans (List.mergeSort_perm _ _).subperm

theorem length_pickNodes (all : List Bytes) (n : ℤ) (seed : UInt64) :
    (pickNodes all n seed).length = min n.toNat all.length := by
  rw [pickNodes, List.length_take, (List.mergeSort_perm _ _).length_eq]

/-- Nodes picked for a new shard from candidates among all nodes. -/
theorem pickNodes_sound {rf : ℤ} {cat : Catalog} {candidates : List Bytes} (hnd : candidates.Nodup)
    (hsub : ∀ n ∈ candidates, n ∈ cat.nodes) {n : ℤ} (hn : 0 < rf → n ≤ rf) (seed : UInt64) :
    (pickNodes candidates n seed).Nodup ∧ (∀ x ∈ pickNodes candidates n seed, x ∈ cat.nodes) ∧
      ((pickNodes candidates n seed).length : ℤ) ≤ effectiveRF rf cat := by
  have hsp := pickNodes_subperm candidates n seed
  have hndp : (pickNodes candidates n seed).Nodup := by
    obtain ⟨l, hp, hs⟩ := hsp
    exact hp.nodup_iff.mp (hnd.sublist hs)
  refine ⟨hndp, fun x hx => hsub x (hsp.subset hx), ?_⟩
  have hlen := length_pickNodes candidates n seed
  have hle : candidates.length ≤ cat.nodes.length := (List.subperm_of_subset hnd hsub).length_le
  rw [effectiveRF]
  split <;> omega

theorem tableNodes_sound {rf : ℤ} {cat : Catalog} (h : cat.nodes.Nodup) {live : List Bytes}
    (hnd : live.Nodup) (hsub : ∀ n ∈ live, n ∈ cat.nodes) (id : Bytes) :
    (tableNodes cat.nodes rf live id).Nodup ∧
      (∀ x ∈ tableNodes cat.nodes rf live id, x ∈ cat.nodes) ∧
      ((tableNodes cat.nodes rf live id).length : ℤ) ≤ effectiveRF rf cat := by
  unfold tableNodes
  split
  · apply pickNodes_sound h fun n hn => hn
    split <;> omega
  · apply pickNodes_sound hnd hsub
    split <;> omega

theorem nodesFor_sound {p : Placing} {cat : Catalog} (h : cat.nodes.Nodup)
    (hnd : p.live.Nodup) (hsub : ∀ n ∈ p.live, n ∈ cat.nodes) (id : Bytes) :
    (p.nodesFor cat.nodes id).Nodup ∧ (∀ x ∈ p.nodesFor cat.nodes id, x ∈ cat.nodes) ∧
      ((p.nodesFor cat.nodes id).length : ℤ) ≤ effectiveRF p.rf cat := by
  have hcand : (if p.live = [] then cat.nodes else p.live).Nodup ∧
      ∀ n ∈ (if p.live = [] then cat.nodes else p.live), n ∈ cat.nodes := by
    split
    · exact ⟨h, fun n hn => hn⟩
    · exact ⟨hnd, hsub⟩
  apply pickNodes_sound hcand.1 hcand.2
  intro hrf
  rw [if_neg (not_le.mpr hrf)]
  generalize (if p.live = [] then cat.nodes else p.live).length = k
  split <;> omega

theorem placed_empty (rf : ℤ) : Placed rf {} where
  nodup_nodes := List.nodup_nil
  named := List.not_mem_nil
  registered := fun n hn => absurd hn List.not_mem_nil
  tables := fun t ts hts => by cases hts

/-- A node registers under a name. -/
theorem Placed.registerNode {rf : ℤ} {cat : Catalog} (h : Placed rf cat) {id : Bytes}
    (hid : id ≠ []) (sqlAddr raftAddr : Bytes) :
    Placed rf (cat.apply (.registerNode id sqlAddr raftAddr)) := by
  have htables := tables_apply_registerNode cat id sqlAddr raftAddr
  by_cases hs : (cat.specs.get id).isSome
  · simp only [Catalog.apply, applyCommand, hs, if_true]
    exact ⟨h.nodup_nodes, h.named, h.registered, h.tables⟩
  · have hnew : id ∉ cat.nodes := fun hm => hs (h.registered id hm)
    simp only [Catalog.apply, applyCommand, hs, Bool.false_eq_true, if_false]
    constructor
    · exact List.nodup_append.mpr ⟨h.nodup_nodes, by simp, fun a ha b hb => by
        rintro rfl
        exact hnew (List.mem_singleton.mp hb ▸ ha)⟩
    · simpa [hid.symm] using h.named
    · rintro n hn
      rw [SortedMap.get_insert]
      rcases List.mem_append.mp hn with hn | hn
      · split
        · rfl
        · exact h.registered n hn
      · rw [if_pos (List.mem_singleton.mp hn).symm]
        rfl
    · rintro t ts hts
      obtain ⟨hids, hshards⟩ := h.tables t ts hts
      refine ⟨hids, fun s hs => ?_⟩
      obtain ⟨ht, hnd, hsub, hlen⟩ := hshards s hs
      refine ⟨ht, hnd, fun n hn => List.mem_append_left _ (hsub n hn), hlen.trans ?_⟩
      simp only [effectiveRF, List.length_append]
      split <;> simp

/-- A table is created with a sound placement. -/
theorem Placed.createTable {rf : ℤ} {cat : Catalog} (h : Placed rf cat) {schema : Schema}
    {live : List Bytes} (hnd : live.Nodup) (hsub : ∀ n ∈ live, n ∈ cat.nodes) {cmd : MetaCommand}
    (hcmd : createTableOn cat schema rf live = .ok cmd) : Placed rf (cat.apply cmd) := by
  have hsound := @tableNodes_sound rf cat h.nodup_nodes live hnd hsub (schema.name ++ ascii "-0")
  unfold createTableOn at hcmd
  dsimp only at hcmd
  split at hcmd
  · cases hcmd
  obtain rfl := Except.ok.inj hcmd
  have hnodes : ∀ shards, (cat.apply (.createTable schema shards)).nodes = cat.nodes ∧
      (cat.apply (.createTable schema shards)).specs = cat.specs := by
    intro shards
    simp only [Catalog.apply, applyCommand]
    by_cases ht : (cat.tables.get schema.name).isSome <;> simp [ht]
  have hrf : ∀ shards, effectiveRF rf (cat.apply (.createTable schema shards)) =
      effectiveRF rf cat := fun shards => by rw [effectiveRF, effectiveRF, (hnodes shards).1]
  constructor
  · rw [(hnodes _).1]
    exact h.nodup_nodes
  · rw [(hnodes _).1]
    exact h.named
  · rw [(hnodes _).1, (hnodes _).2]
    exact h.registered
  · rintro t ts hts
    rw [get_apply_createTable] at hts
    rw [hrf, (hnodes _).1]
    split at hts
    · next ht =>
      subst ht
      cases hold : cat.tables.get schema.name with
      | some ts' =>
        rw [hold] at hts
        obtain rfl := Option.some.inj hts
        exact h.tables _ _ hold
      | none =>
        rw [hold] at hts
        obtain rfl := Option.some.inj hts
        simpa using hsound
    · exact h.tables t ts hts

/-- A split adds a shard with a sound placement. -/
theorem Placed.splitShard {cat : Catalog} {p : Placing} (h : Placed p.rf cat) (hnd : p.live.Nodup)
    (hsub : ∀ n ∈ p.live, n ∈ cat.nodes) {spec : ShardSpec} {key : Bytes} {cmd : MetaCommand}
    (hcmd : Shard.splitShard ⟨cat, cat, cat, cat⟩ p spec key = .ok cmd) :
    Placed p.rf (cat.apply cmd) := by
  unfold Shard.splitShard at hcmd
  split at hcmd
  · cases hcmd
  next ts hts =>
  have hsound := nodesFor_sound h.nodup_nodes hnd hsub
    (spec.id ++ ascii "-" ++ formatNat ts.shards.length)
  dsimp only at hcmd
  split at hcmd
  · cases hcmd
  split at hcmd
  · cases hcmd
  obtain rfl := Except.ok.inj hcmd
  have hnodes : ∀ news, (cat.apply (.splitShard spec.table key news)).nodes = cat.nodes ∧
      (cat.apply (.splitShard spec.table key news)).specs = cat.specs := by
    intro news
    simp only [Catalog.apply, applyCommand, hts, and_self]
  have hrf : ∀ news, effectiveRF p.rf (cat.apply (.splitShard spec.table key news)) =
      effectiveRF p.rf cat := fun news => by rw [effectiveRF, effectiveRF, (hnodes news).1]
  constructor
  · rw [(hnodes _).1]
    exact h.nodup_nodes
  · rw [(hnodes _).1]
    exact h.named
  · rw [(hnodes _).1, (hnodes _).2]
    exact h.registered
  · rintro t ts' hts'
    rw [get_apply_splitShard, hts, Option.map_some] at hts'
    rw [hrf, (hnodes _).1]
    split at hts'
    · next ht =>
      subst ht
      obtain rfl := Option.some.inj hts'
      obtain ⟨hids, hshards⟩ := h.tables _ ts hts
      dsimp only
      rw [addShards_singleton]
      split
      · exact ⟨hids, hshards⟩
      · next hnew =>
        constructor
        · rw [List.map_append, List.nodup_append]
          refine ⟨hids, by simp, ?_⟩
          rintro _ ha _ hb rfl
          obtain ⟨s, hs, he⟩ := List.mem_map.mp ha
          obtain rfl := List.mem_singleton.mp hb
          exact hnew (shardExists_iff.mpr ⟨s, hs, he⟩)
        · rintro s hs
          rcases List.mem_append.mp hs with hs | hs
          · exact hshards s hs
          · obtain rfl := List.mem_singleton.mp hs
            exact ⟨rfl, hsound⟩
    · exact h.tables t ts' hts'

end Ydbgo.Shard
