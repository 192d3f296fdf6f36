import Ydbgo.Lib.Split
import Ydbgo.Shard.Split

/-! # Who owns a key

A table starts with a shard that holds every key, and splits add shards with an
infinite end. So every key has an owner, and identifiers never meet, since a
shard's identifier spells out the table and the splits it comes from. The starts
of a table's shards stay distinct exactly as long as a split commits while its
shard still owns the split key.
-/

namespace Ydbgo.Shard
open Sql

/-! ### Identifiers -/

/-- The identifiers of a table's shards, the first one and those split off. -/
inductive IsShardId (table : Bytes) : Bytes → Prop
  | first : IsShardId table (table ++ ascii "-0")
  | split {id : Bytes} {n : ℕ} :
    IsShardId table id → 0 < n → IsShardId table (id ++ ascii "-" ++ formatNat n)

theorem dash_not_mem_formatNat (n : ℕ) : (45 : UInt8) ∉ formatNat n := fun h => by
  have := (mem_formatNat h).1
  revert this
  decide

/-- Texts that end with a number after a dash. -/
theorem append_dash_inj {a b : Bytes} {m n : ℕ}
    (h : a ++ ascii "-" ++ formatNat m = b ++ ascii "-" ++ formatNat n) : a = b ∧ m = n := by
  have hrev : (formatNat m).reverse ++ 45 :: a.reverse
      = (formatNat n).reverse ++ 45 :: b.reverse := by
    simpa [show ascii "-" = [45] from by decide] using congrArg List.reverse h
  obtain ⟨hnum, hid⟩ := append_cons_inj (by simpa using dash_not_mem_formatNat m)
    (by simpa using dash_not_mem_formatNat n) hrev
  exact ⟨List.reverse_injective hid, formatNat_injective (List.reverse_injective hnum)⟩

theorem append_dash_zero (a : Bytes) : a ++ ascii "-0" = a ++ ascii "-" ++ formatNat 0 := by
  rw [List.append_assoc]
  rfl

/-- An identifier belongs to one table only. -/
theorem IsShardId.unique {t t' id : Bytes} (h : IsShardId t id) (h' : IsShardId t' id) :
    t = t' := by
  induction h with
  | first =>
    generalize hid : t ++ ascii "-0" = id at h'
    cases h' with
    | first =>
      rw [append_dash_zero, append_dash_zero] at hid
      exact (append_dash_inj hid).1
    | split _ hn =>
      rw [append_dash_zero] at hid
      exact absurd (append_dash_inj hid).2 (by omega)
  | @split id₁ m hid hm ih =>
    generalize hsp : id₁ ++ ascii "-" ++ formatNat m = id at h'
    cases h' with
    | first =>
      rw [append_dash_zero] at hsp
      exact absurd (append_dash_inj hsp).2 (by omega)
    | split hid' _ =>
      obtain ⟨rfl, -⟩ := append_dash_inj hsp
      exact ih hid'

/-! ### The owner among a table's shards -/

/-- The shards of a table, as far as their ranges go: the first holds every key, and no range has an
end. -/
structure Formed (table : Bytes) (shards : List ShardSpec) : Prop where
  named : ∀ s ∈ shards, s.table = table
  ids : ∀ s ∈ shards, IsShardId table s.id
  distinct : (shards.map ShardSpec.id).Nodup
  endless : ∀ s ∈ shards, s.stop = []
  widest : ∃ s ∈ shards, s.start = []

theorem nil_le (key : Bytes) : [] ≤ key := not_lt.mp (List.not_lt_nil _)

theorem owns_iff {s : ShardSpec} (hs : s.stop = []) {key : Bytes} :
    s.owns key ↔ s.start ≤ key := by
  simp only [ShardSpec.owns, hs]
  by_cases h : s.start = []
  · simpa [h] using nil_le key
  · by_cases hlt : key < s.start
    · simp [h, hlt]
    · simp [h, hlt, not_lt.mp hlt]

theorem orderedOn_startAfter (shards : List ShardSpec) :
    OrderedOn ShardSpec.startAfter shards :=
  orderedOn_of_rank (fun s => some (OrderDual.toDual s.start)) fun u _ v _ => by
    simp [ShardSpec.startAfter]

section Owner

variable {shards : List ShardSpec} {key : Bytes}

theorem eq_of_start_eq (hd : (shards.map ShardSpec.start).Nodup) {s s' : ShardSpec}
    (hs : s ∈ shards) (hs' : s' ∈ shards) (h : s.start = s'.start) : s = s' :=
  List.inj_on_of_nodup_map hd hs hs' h

theorem eq_of_id_eq (hd : (shards.map ShardSpec.id).Nodup) {s s' : ShardSpec}
    (hs : s ∈ shards) (hs' : s' ∈ shards) (h : s.id = s'.id) : s = s' :=
  List.inj_on_of_nodup_map hd hs hs' h

theorem mem_of_ownerOf {o : ShardSpec} (h : ownerOf shards key = some o) : o ∈ shards :=
  List.mem_of_mem_filter (unbeaten_of_bestOf (orderedOn_startAfter _) h).1

/-- The owner has the largest start up to the key. -/
theorem ownerOf_spec (he : ∀ s ∈ shards, s.stop = []) {o : ShardSpec}
    (h : ownerOf shards key = some o) :
    o.start ≤ key ∧ ∀ s ∈ shards, s.start ≤ key → s.start ≤ o.start := by
  obtain ⟨hm, hun⟩ := unbeaten_of_bestOf (orderedOn_startAfter _) h
  obtain ⟨ho, howns⟩ := List.mem_filter.mp hm
  constructor
  · exact (owns_iff (he o ho)).mp howns
  · intro s hs hle
    have := hun s (List.mem_filter.mpr ⟨hs, (owns_iff (he s hs)).mpr hle⟩)
    simpa [ShardSpec.startAfter] using this

theorem oneBest_startAfter (hd : (shards.map ShardSpec.start).Nodup) :
    OneBest ShardSpec.startAfter shards := by
  rintro m m' ⟨hm, hun⟩ ⟨hm', hun'⟩
  have h := hun m' hm'
  have h' := hun' m hm
  simp only [ShardSpec.startAfter, decide_eq_true_eq, not_lt] at h h'
  exact eq_of_start_eq hd hm hm' (le_antisymm h' h)

theorem nodup_starts_filter (hd : (shards.map ShardSpec.start).Nodup) (p : ShardSpec → Bool) :
    ((shards.filter p).map ShardSpec.start).Nodup :=
  hd.sublist (List.filter_sublist.map _)

/-- With distinct starts, the shard with the largest start up to the key is the owner. -/
theorem ownerOf_eq_some (he : ∀ s ∈ shards, s.stop = [])
    (hd : (shards.map ShardSpec.start).Nodup) {o : ShardSpec} (ho : o ∈ shards)
    (hle : o.start ≤ key) (hmax : ∀ s ∈ shards, s.start ≤ key → s.start ≤ o.start) :
    ownerOf shards key = some o := by
  apply bestOf_eq_of_oneBest (orderedOn_startAfter _)
    (oneBest_startAfter (nodup_starts_filter hd _))
  constructor
  · exact List.mem_filter.mpr ⟨ho, (owns_iff (he o ho)).mpr hle⟩
  · intro s hs
    obtain ⟨hs, howns⟩ := List.mem_filter.mp hs
    simpa [ShardSpec.startAfter] using hmax s hs ((owns_iff (he s hs)).mp howns)

theorem exists_owner {table : Bytes} (h : Formed table shards) (key : Bytes) :
    ∃ o, ownerOf shards key = some o := by
  obtain ⟨s, hs, hstart⟩ := h.widest
  apply Option.ne_none_iff_exists'.mp
  intro hnone
  have hnil := bestOf_eq_none.mp hnone
  have hmem : s ∈ shards.filter fun sh => sh.owns key :=
    List.mem_filter.mpr ⟨hs, (owns_iff (h.endless s hs)).mpr (hstart ▸ nil_le key)⟩
  rw [hnil] at hmem
  exact List.not_mem_nil hmem

theorem ownerOf_perm (hd : (shards.map ShardSpec.start).Nodup) {shards' : List ShardSpec}
    (hp : shards'.Perm shards) : ownerOf shards' key = ownerOf shards key := by
  refine (bestOf_congr (orderedOn_startAfter _)
    (oneBest_startAfter (nodup_starts_filter hd _)) ?_).symm
  intro v
  simp [hp.mem_iff]

end Owner

end Ydbgo.Shard
