import Mathlib.Data.List.Induction
import Ydbgo.Lib.Split
import Ydbgo.Raft.StableStore

/-! # Reopening the raft stable store

The stable file holds one NUL for each pair, when keys and values have none,
and reading it back takes two NUL-separated pieces for each key. So no more
than one key survives, and a single pair survives when its value has no NUL.
-/

namespace Ydbgo.Raft

/-! ## The store in memory -/

theorem apply_data (s : FileStableStore) (op : StableOp) :
    (s.apply op).data = s.data.insert op.key op.value := by
  cases op <;> rfl

theorem lookup_foldl_apply (ops : List StableOp) (s : FileStableStore) (m : Bytes → Option StableOp)
    (h : ∀ k, s.data.lookup k = (m k).map StableOp.value) (k : Bytes) :
    (ops.foldl FileStableStore.apply s).data.lookup k =
      (Writes.apply m (ops.map fun op => (op.key, some op)) k).map StableOp.value := by
  induction ops generalizing s m with
  | nil => exact h k
  | cons op ops ih =>
    rw [List.foldl_cons, List.map_cons, Writes.apply_cons]
    refine ih _ _ fun j => ?_
    by_cases hj : j = op.key
    · subst hj
      rw [apply_data, AList.lookup_insert, Function.update_self, Option.map_some]
    · rw [apply_data, AList.lookup_insert_ne hj, Function.update_of_ne hj, h]

theorem lookup_runStable (ops : List StableOp) (k : Bytes) :
    (runStable ops).data.lookup k = (lastWrite ops k).map StableOp.value :=
  lookup_foldl_apply ops _ _ (fun k => AList.lookup_empty k) k

theorem uint64Of_value (op : StableOp) : uint64Of op.value = op.uint64 := by
  cases op with
  | set key val => rfl
  | setUint64 key val =>
    have hl : (beBytes 8 val.toNat).take 8 = beBytes 8 val.toNat :=
      List.take_of_length_le (by simp)
    have hv : val.toNat < 256 ^ 8 := by
      have := val.toNat_lt
      omega
    rw [StableOp.value, uint64Of, if_neg (by simp), hl, beNat_beBytes_of_lt hv, StableOp.uint64,
      UInt64.ofNat_toNat]

/-- The integers read back follow from the bytes read back. -/
theorem stableDurable_iff_get (ops : List StableOp) :
    StableDurable ops ↔ ∀ key, (newFileStableStore (runStable ops).file).get key =
      (lastWrite ops key).map StableOp.value := by
  refine ⟨fun h key => (h key).1, fun h key => ⟨h key, ?_⟩⟩
  rw [FileStableStore.getUint64, h key]
  cases lastWrite ops key with
  | none => rfl
  | some op => exact uint64Of_value op

/-! ## The file -/

/-- The pairs `persist` writes, one after another. -/
def pairs (data : AList fun _ : Bytes => Bytes) (ks : List Bytes) : Bytes :=
  ks.flatMap fun k => k ++ 0 :: (data.lookup k).getD []

theorem file_runStable_append (ops : List StableOp) (op : StableOp) :
    (runStable (ops ++ [op])).file = pairs (runStable (ops ++ [op])).data
      ((runStable (ops ++ [op])).data.keys.insertionSort (· ≤ ·)) := by
  rw [runStable, List.foldl_append]
  cases op <;> rfl

/-- A file of NUL-free keys and values has one NUL for each pair. -/
theorem count_pairs {data : AList fun _ : Bytes => Bytes} {ks : List Bytes}
    (hk : ∀ k ∈ ks, 0 ∉ k) (hv : ∀ k ∈ ks, 0 ∉ (data.lookup k).getD []) :
    (pairs data ks).count 0 = ks.length := by
  induction ks with
  | nil => rfl
  | cons k ks ih =>
    have hi := ih (fun x hx => hk x (by simp [hx])) fun x hx => hv x (by simp [hx])
    rw [pairs, List.flatMap_cons, List.count_append, List.count_append, List.count_cons_self,
      List.count_eq_zero_of_not_mem (hk k (by simp)),
      List.count_eq_zero_of_not_mem (hv k (by simp)), List.length_cons, ← hi, pairs]
    omega

/-! ## Reading the file back -/

theorem mem_of_lookup_loadPairs {entries : List Bytes} {data : AList fun _ : Bytes => Bytes}
    {k v : Bytes} (h : (loadPairs entries data).lookup k = some v) :
    v ∈ entries ∨ data.lookup k = some v := by
  induction entries, data using loadPairs.induct with
  | case1 k' v' entries data ih =>
    rcases ih h with hv | hv
    · simp [hv]
    · by_cases hk : k = k'
      · subst hk
        rw [AList.lookup_insert] at hv
        cases hv
        simp
      · rw [AList.lookup_insert_ne hk] at hv
        exact Or.inr hv
  | case2 entries data hne =>
    rw [loadPairs.eq_2 _ _ hne] at h
    exact Or.inr h

theorem length_keys_insert_le (data : AList fun _ : Bytes => Bytes) (k v : Bytes) :
    (data.insert k v).keys.length ≤ data.keys.length + 1 := by
  rw [AList.keys_insert, List.length_cons]
  exact Nat.succ_le_succ (@List.length_erase_le _ instBEqOfDecidableEq _ _)

theorem length_keys_loadPairs (entries : List Bytes) (data : AList fun _ : Bytes => Bytes) :
    2 * (loadPairs entries data).keys.length ≤ 2 * data.keys.length + entries.length := by
  induction entries, data using loadPairs.induct with
  | case1 k v entries data ih =>
    have hi := length_keys_insert_le data k v
    rw [loadPairs, List.length_cons, List.length_cons]
    omega
  | case2 entries data hne =>
    rw [loadPairs.eq_2 _ _ hne]
    omega

theorem newFileStableStore_pair {k v : Bytes} (hk : 0 ∉ k) (hv : 0 ∉ v) (key : Bytes) :
    (newFileStableStore (k ++ 0 :: v)).get key = if key = k then some v else none := by
  have hs : (k ++ 0 :: v).splitOn 0 = [k, v] := by
    rw [List.splitOn_append_cons_self_of_not_mem hk, List.splitOn_eq_singleton hv]
  rw [FileStableStore.get, newFileStableStore, hs, loadPairs, loadPairs.eq_2 _ _ (by simp)]
  split
  · rename_i h
    rw [h, AList.lookup_insert]
  · rename_i h
    rw [AList.lookup_insert_ne h, AList.lookup_empty]

/-! ## Durability -/

theorem lastWrite_append (ops : List StableOp) (op : StableOp) :
    lastWrite (ops ++ [op]) = Function.update (lastWrite ops) op.key (some op) := by
  rw [lastWrite, List.map_append, Writes.apply_append, ← lastWrite]
  rfl

theorem mem_of_lastWrite {ops : List StableOp} {k : Bytes} {op : StableOp}
    (h : lastWrite ops k = some op) : op ∈ ops ∧ op.key = k := by
  rcases Writes.apply_eq_or_mem (fun _ => none) (ops.map fun op => (op.key, some op)) k with he | he
  · rw [lastWrite, he] at h
    cases h
  · rw [← lastWrite, h] at he
    obtain ⟨o, ho, he⟩ := List.mem_map.mp he
    obtain ⟨rfl, rfl⟩ : o.key = k ∧ o = op := by simpa using he
    exact ⟨ho, rfl⟩

theorem isSome_lastWrite {ops : List StableOp} {op : StableOp} (h : op ∈ ops) :
    (lastWrite ops op.key).isSome := by
  induction ops using List.reverseRecOn with
  | nil => simp at h
  | append_singleton ops o ih =>
    rw [lastWrite_append]
    by_cases hk : op.key = o.key
    · rw [hk, Function.update_self]
      rfl
    · rw [Function.update_of_ne hk]
      rcases List.mem_append.mp h with h | h
      · exact ih h
      · exact absurd (congrArg StableOp.key (List.mem_singleton.mp h)) hk

theorem mem_keys_runStable (ops : List StableOp) (k : Bytes) :
    k ∈ (runStable ops).data.keys ↔ ∃ op ∈ ops, op.key = k := by
  rw [← AList.mem_keys, ← AList.lookup_isSome, lookup_runStable, Option.isSome_map]
  constructor
  · intro h
    obtain ⟨op, hop⟩ := Option.isSome_iff_exists.mp h
    exact ⟨op, mem_of_lastWrite hop⟩
  · rintro ⟨op, hop, rfl⟩
    exact isSome_lastWrite hop

/-- A store that survives reopening holds one key at most. -/
theorem length_keys_of_durable {ops : List StableOp} {last : StableOp}
    (hnul : ∀ op ∈ ops ++ [last], 0 ∉ op.key) (h : StableDurable (ops ++ [last])) :
    (∀ k ∈ (runStable (ops ++ [last])).data.keys,
        0 ∉ ((runStable (ops ++ [last])).data.lookup k).getD []) ∧
      (runStable (ops ++ [last])).data.keys.length ≤ 1 := by
  set data := (runStable (ops ++ [last])).data with hdata
  set loaded := (newFileStableStore (runStable (ops ++ [last])).file).data with hloaded
  have hget : ∀ k, loaded.lookup k = data.lookup k := fun k => by
    rw [hdata, lookup_runStable]
    exact (stableDurable_iff_get _).mp h k
  have hvals : ∀ k ∈ data.keys, 0 ∉ (data.lookup k).getD [] := by
    intro k hk
    obtain ⟨v, hv⟩ := Option.isSome_iff_exists.mp (AList.lookup_isSome.mpr (AList.mem_keys.mpr hk))
    rw [hv]
    have hv' := (hget k).trans hv
    rcases mem_of_lookup_loadPairs hv' with hm | hm
    · exact notMem_of_mem_splitOn hm
    · simp at hm
  refine ⟨hvals, ?_⟩
  have hperm := List.perm_insertionSort (· ≤ ·) data.keys
  have hcount : (runStable (ops ++ [last])).file.count 0 = data.keys.length := by
    rw [file_runStable_append, ← hdata, count_pairs, hperm.length_eq]
    · intro k hk
      obtain ⟨op, hop, rfl⟩ := (mem_keys_runStable _ k).mp (hperm.mem_iff.mp hk)
      exact hnul op hop
    · exact fun k hk => hvals k (hperm.mem_iff.mp hk)
  have hsub : data.keys.length ≤ loaded.keys.length := by
    refine (List.subperm_of_subset data.keys_nodup fun k hk => ?_).length_le
    rw [← AList.mem_keys, ← AList.lookup_isSome] at hk ⊢
    rw [hget]
    exact hk
  have hlen := length_keys_loadPairs ((runStable (ops ++ [last])).file.splitOn 0) ∅
  rw [length_splitOn, hcount, AList.keys_empty, List.length_nil] at hlen
  have : 2 * loaded.keys.length ≤ 2 * 0 + (data.keys.length + 1) := hlen
  omega

/-- A run that writes a single key, and last a value without NUL, survives reopening. -/
theorem durable_of_single_key {ops : List StableOp} {last : StableOp}
    (hk : ∀ op ∈ ops ++ [last], op.key = last.key) (hnul : 0 ∉ last.key) (hv : 0 ∉ last.value) :
    StableDurable (ops ++ [last]) := by
  have hlast : lastWrite (ops ++ [last]) = fun k => if k = last.key then some last else none := by
    funext k
    rw [lastWrite_append]
    split
    · rename_i h
      rw [h, Function.update_self]
    · rename_i h
      rw [Function.update_of_ne h]
      cases hw : lastWrite ops k with
      | none => rfl
      | some op =>
        obtain ⟨hm, rfl⟩ := mem_of_lastWrite hw
        exact absurd (hk op (by simp [hm])) h
  have hkeys : (runStable (ops ++ [last])).data.keys = [last.key] := by
    refine List.perm_singleton.mp
      ((List.perm_ext_iff_of_nodup (AList.keys_nodup _) (List.nodup_singleton _)).mpr fun k => ?_)
    rw [mem_keys_runStable, List.mem_singleton]
    exact ⟨fun ⟨op, hop, he⟩ => he ▸ hk op hop, fun he => ⟨last, by simp, he.symm⟩⟩
  have hfile : (runStable (ops ++ [last])).file = last.key ++ 0 :: last.value := by
    rw [file_runStable_append, hkeys]
    simp [pairs, lookup_runStable, hlast]
  rw [stableDurable_iff_get, hfile]
  intro k
  rw [newFileStableStore_pair hnul hv, hlast]
  by_cases hk : k = last.key
  · simp only [hk, if_true, Option.map_some]
  · simp only [hk, if_false, Option.map_none]

/-- With NUL-free keys, a run of sets survives reopening exactly when it wrote a single key and
the last value written has no NUL. -/
theorem reopen_stable_iff (ops : List StableOp) (h : ∀ op ∈ ops, 0 ∉ op.key) :
    StableDurable ops ↔
      ∀ last ∈ ops.getLast?, (∀ op ∈ ops, op.key = last.key) ∧ 0 ∉ last.value := by
  induction ops using List.reverseRecOn with
  | nil => simp [stableDurable_iff_get, runStable, newFileStableStore, loadPairs,
      FileStableStore.get, lastWrite]
  | append_singleton ops last _ =>
    rw [List.getLast?_concat]
    simp only [Option.mem_def, Option.some.injEq, forall_eq']
    constructor
    · intro hd
      obtain ⟨hvals, hlen⟩ := length_keys_of_durable h hd
      have hmem : ∀ op ∈ ops ++ [last], op.key ∈ (runStable (ops ++ [last])).data.keys :=
        fun op hop => (mem_keys_runStable _ _).mpr ⟨op, hop, rfl⟩
      refine ⟨fun op hop => ?_, ?_⟩
      · have h₁ := hmem op hop
        have h₂ := hmem last (by simp)
        match hks : (runStable (ops ++ [last])).data.keys, hlen with
        | [], _ => simp [hks] at h₁
        | [k], _ =>
          rw [hks, List.mem_singleton] at h₁ h₂
          rw [h₁, h₂]
      · have hv := hvals last.key (hmem last (by simp))
        rwa [lookup_runStable, lastWrite_append, Function.update_self] at hv
    · rintro ⟨hk, hv⟩
      exact durable_of_single_key hk (h last (by simp)) hv

theorem reopen_stable_iff_vote :
    StableDurable [.set (ascii "vote") (ascii "n1"), .set (ascii "vote") (ascii "n2")] ↔
      ∀ last ∈ [StableOp.set (ascii "vote") (ascii "n1"), .set (ascii "vote") (ascii "n2")].getLast?,
        (∀ op ∈ [StableOp.set (ascii "vote") (ascii "n1"), .set (ascii "vote") (ascii "n2")],
          op.key = last.key) ∧ 0 ∉ last.value :=
  reopen_stable_iff _ (by decide)

/-- The current term reads as 0 after a restart: its eight bytes hold NULs. -/
theorem not_stableDurable_currentTerm :
    ¬ StableDurable [.setUint64 (ascii "CurrentTerm") 1] := by
  intro h
  exact absurd (h (ascii "CurrentTerm")).2 (by decide)

end Ydbgo.Raft
