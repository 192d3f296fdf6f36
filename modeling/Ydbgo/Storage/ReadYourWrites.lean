import Ydbgo.Kv.Scan
import Ydbgo.Storage.Tx

/-! # Scans inside a transaction

A scan inside a transaction shows the committed map overridden by the
buffered writes exactly when no buffered delete in its bounds takes away a
live key: such a key stays among the merged keys, and comes back with the nil
slice, or twice once it is written again.
-/

namespace Ydbgo.Storage

open Kv (Op)

variable {lower upper : Bytes} {m : Bytes → Option Bytes}

/-- The part of a map inside the bounds. -/
def inBounds (lower upper : Bytes) (m : Bytes → Option Bytes) (k : Bytes) : Option Bytes :=
  if lower ≤ k ∧ k < upper then m k else none

/-- Some write of the sequence deletes a key of the bounds that is live at that point. -/
def DeletesLive (lower upper : Bytes) : (Bytes → Option Bytes) → List Op → Prop
  | _, [] => False
  | m, op :: ops =>
    (op.delete = true ∧ (inBounds lower upper m op.key).isSome) ∨
      DeletesLive lower upper (Function.update m op.write.1 op.write.2) ops

/-- The values of a merge are those of the map inside the bounds, and their keys are listed. -/
structure Tracks (lower upper : Bytes) (m : Bytes → Option Bytes) (g : Merge) : Prop where
  lookup : ∀ k, g.vals.lookup k = inBounds lower upper m k
  listed : ∀ k, (g.vals.lookup k).isSome → k ∈ g.ordered

/-- Every listed key is listed once and has a value. -/
def Merge.Clean (g : Merge) : Prop :=
  g.ordered.Nodup ∧ ∀ k ∈ g.ordered, (g.vals.lookup k).isSome

/-! ## The committed range -/

theorem foldl_visit (vs : List (Bytes × Bytes × Bool)) (g : Merge) :
    vs.foldl Merge.visit g =
      ⟨g.ordered ++ (Kv.liveVisits vs).map Prod.fst,
        (Kv.liveVisits vs).foldl (fun vals e => vals.insert e.1 e.2) g.vals⟩ := by
  induction vs generalizing g with
  | nil => simp [Kv.liveVisits]
  | cons v vs ih =>
    obtain ⟨k, val, deleted⟩ := v
    rw [List.foldl_cons, ih, Kv.liveVisits_cons]
    cases deleted <;> simp [Merge.visit]

theorem lookup_foldl_insert (es : List (Bytes × Bytes)) (vals : AList fun _ : Bytes => Bytes)
    (k : Bytes) :
    (es.foldl (fun vals e => vals.insert e.1 e.2) vals).lookup k =
      Writes.apply (fun k => vals.lookup k) (es.map fun e => (e.1, some e.2)) k := by
  induction es generalizing vals with
  | nil => rfl
  | cons e es ih =>
    rw [List.foldl_cons, ih, List.map_cons, Writes.apply_cons]
    refine Writes.apply_congr ?_ _
    by_cases hk : k = e.1
    · subst hk
      rw [AList.lookup_insert, Function.update_self]
    · rw [AList.lookup_insert_ne hk, Function.update_of_ne hk]

theorem nodup_keys {es : List (Bytes × Bytes)} (h : Ascending es) : (es.map Prod.fst).Nodup :=
  List.pairwise_map.mpr (List.Pairwise.imp (fun hlt => ne_of_lt hlt) h)

/-- The merge of a scan of the map, before any buffered write. -/
theorem tracks_visits {vs : List (Bytes × Bytes × Bool)}
    (h : Scans m (fun k => lower ≤ k ∧ k < upper) (Kv.liveVisits vs)) :
    Tracks lower upper m (vs.foldl Merge.visit ⟨[], ∅⟩) ∧
      (vs.foldl Merge.visit ⟨[], ∅⟩).Clean := by
  have hnodup := nodup_keys h.1
  have hkeys : ((Kv.liveVisits vs).map fun e => (e.1, some e.2)).map Prod.fst =
      (Kv.liveVisits vs).map Prod.fst := by rw [List.map_map]; rfl
  have hlookup : ∀ k, (vs.foldl Merge.visit ⟨[], ∅⟩).vals.lookup k = inBounds lower upper m k := by
    intro k
    rw [foldl_visit]
    simp only [lookup_foldl_insert]
    cases hk : inBounds lower upper m k with
    | none =>
      rw [Writes.apply_of_notMem]
      · exact AList.lookup_empty k
      · rw [hkeys]
        intro hm
        obtain ⟨⟨k', v⟩, he, rfl⟩ := List.mem_map.mp hm
        obtain ⟨hb, hv⟩ := (h.2 k' v).mp he
        rw [inBounds, if_pos hb, hv] at hk
        cases hk
    | some v =>
      refine Writes.apply_of_mem (by rwa [hkeys]) (List.mem_map.mpr ⟨(k, v), ?_, rfl⟩)
      rw [inBounds] at hk
      split at hk
      · rename_i hb
        exact (h.2 k v).mpr ⟨hb, hk⟩
      · cases hk
  have hmem : ∀ k, k ∈ (vs.foldl Merge.visit ⟨[], ∅⟩).ordered ↔ (inBounds lower upper m k).isSome := by
    intro k
    rw [foldl_visit, List.nil_append, List.mem_map, inBounds]
    constructor
    · rintro ⟨⟨k', v⟩, he, rfl⟩
      obtain ⟨hb, hv⟩ := (h.2 k' v).mp he
      simp [hb, hv]
    · intro hs
      split at hs
      · rename_i hb
        obtain ⟨v, hv⟩ := Option.isSome_iff_exists.mp hs
        exact ⟨(k, v), (h.2 k v).mpr ⟨hb, hv⟩, rfl⟩
      · cases hs
  refine ⟨⟨hlookup, fun k hk => (hmem k).mpr (by rwa [hlookup] at hk)⟩, ?_, fun k hk => ?_⟩
  · rw [foldl_visit]
    simpa using hnodup
  · rw [hlookup]
    exact (hmem k).mp hk

/-! ## Buffered writes -/

theorem inBounds_update (op : Op) (k : Bytes) :
    inBounds lower upper (Function.update m op.write.1 op.write.2) k =
      if k = op.key ∧ lower ≤ k ∧ k < upper then op.write.2 else inBounds lower upper m k := by
  by_cases hk : k = op.write.1
  · subst hk
    by_cases hb : lower ≤ op.write.1 ∧ op.write.1 < upper
    · rw [inBounds, if_pos hb, if_pos ⟨rfl, hb⟩, Function.update_self]
    · rw [inBounds, inBounds, if_neg hb, if_neg hb, if_neg fun h => hb h.2]
  · have hk' : k ≠ op.key := hk
    simp [inBounds, Function.update_of_ne hk, hk']

theorem not_outside_iff (k : Bytes) : ¬ (k < lower ∨ upper ≤ k) ↔ lower ≤ k ∧ k < upper := by
  rw [not_or, not_lt, not_le]

theorem tracks_buffered {g : Merge} (h : Tracks lower upper m g) (op : Op) :
    Tracks lower upper (Function.update m op.write.1 op.write.2) (g.buffered lower upper op) := by
  rw [Merge.buffered]
  split
  · rename_i hout
    have hb : ¬ (lower ≤ op.key ∧ op.key < upper) := fun hb => (not_outside_iff op.key).mpr hb hout
    refine ⟨fun k => ?_, h.listed⟩
    rw [inBounds_update, if_neg, h.lookup]
    rintro ⟨rfl, hk⟩
    exact hb hk
  · rename_i hin
    have hb := (not_outside_iff op.key).mp hin
    cases hd : op.delete with
    | true =>
      refine ⟨fun k => ?_, fun k hk => ?_⟩
      · rw [inBounds_update]
        by_cases hk : k = op.key
        · subst hk
          simp [hb, Op.write, hd, AList.lookup_erase]
        · simp [hk, AList.lookup_erase_ne hk, h.lookup]
      · by_cases hk' : k = op.key
        · subst hk'
          simp [AList.lookup_erase] at hk
        · simp only [if_true, AList.lookup_erase_ne hk'] at hk
          exact h.listed k hk
    | false =>
      refine ⟨fun k => ?_, fun k hk => ?_⟩
      · rw [inBounds_update]
        by_cases hk : k = op.key
        · subst hk
          simp [hb, Op.write, hd, AList.lookup_insert]
        · simp [hk, AList.lookup_insert_ne hk, h.lookup]
      · by_cases hk' : k = op.key
        · subst hk'
          by_cases hm : op.key ∈ g.vals
          · simpa [hm] using h.listed op.key (AList.lookup_isSome.mpr hm)
          · simp [hm]
        · simp only [Bool.false_eq_true, if_false, AList.lookup_insert_ne hk'] at hk
          have := h.listed k hk
          by_cases hm : op.key ∈ g.vals <;> simp [hm, this]

/-- A buffered write keeps a merge clean unless it deletes a live key. -/
theorem clean_buffered_iff {g : Merge} (h : Tracks lower upper m g) (op : Op) :
    (g.buffered lower upper op).Clean ↔
      g.Clean ∧ ¬ (op.delete = true ∧ (inBounds lower upper m op.key).isSome) := by
  rw [Merge.buffered]
  split
  · rename_i hout
    have hb : ¬ (lower ≤ op.key ∧ op.key < upper) := fun hb => (not_outside_iff op.key).mpr hb hout
    simp [inBounds, hb]
  · cases hd : op.delete with
    | true =>
      by_cases hlive : (inBounds lower upper m op.key).isSome
      · simp only [if_true, hlive, and_self, not_true, and_false, iff_false]
        rintro ⟨-, hall⟩
        have hmem := h.listed op.key (by rwa [h.lookup])
        have := hall op.key hmem
        simp [AList.lookup_erase] at this
      · have hnone : g.vals.lookup op.key = none := by
          rw [h.lookup]
          exact Option.not_isSome_iff_eq_none.mp hlive
        have herase : ∀ k, (g.vals.erase op.key).lookup k = g.vals.lookup k := by
          intro k
          by_cases hk : k = op.key
          · subst hk
            rw [AList.lookup_erase, hnone]
          · rw [AList.lookup_erase_ne hk]
        simp [Merge.Clean, hlive, herase]
    | false =>
      simp only [Bool.false_eq_true, if_false, false_and, not_false_eq_true, and_true]
      by_cases hm : op.key ∈ g.vals
      · have hins : ∀ k ∈ g.ordered, ((g.vals.insert op.key op.value).lookup k).isSome =
            (g.vals.lookup k).isSome := by
          intro k _
          by_cases hk : k = op.key
          · subst hk
            rw [AList.lookup_insert, AList.lookup_isSome.mpr hm]
            rfl
          · rw [AList.lookup_insert_ne hk]
        rw [Merge.Clean, Merge.Clean, if_pos hm]
        exact and_congr_right fun _ => forall₂_congr fun k hk => by rw [hins k hk]
      · rw [Merge.Clean, Merge.Clean, if_neg hm]
        have hins : ∀ k, k ≠ op.key →
            (g.vals.insert op.key op.value).lookup k = g.vals.lookup k :=
          fun k hk => AList.lookup_insert_ne hk
        constructor
        · rintro ⟨hnd, hall⟩
          have hnot : op.key ∉ g.ordered := fun hk =>
            (List.nodup_append.mp hnd).2.2 op.key hk op.key (by simp) rfl
          refine ⟨(List.nodup_append.mp hnd).1, fun k hk => ?_⟩
          have := hall k (List.mem_append_left _ hk)
          rwa [hins k fun he => hnot (he ▸ hk)] at this
        · rintro ⟨hnd, hall⟩
          have hnot : op.key ∉ g.ordered := fun hk => hm (AList.lookup_isSome.mp (hall op.key hk))
          refine ⟨List.nodup_append.mpr ⟨hnd, List.nodup_singleton _, ?_⟩, fun k hk => ?_⟩
          · rintro a ha b hb rfl
            exact hnot (List.mem_singleton.mp hb ▸ ha)
          · by_cases hk' : k = op.key
            · subst hk'
              rw [AList.lookup_insert]
              rfl
            · rw [hins k hk']
              exact hall k ((List.mem_append.mp hk).resolve_right fun h =>
                hk' (List.mem_singleton.mp h))

theorem clean_foldl_iff (ops : List Op) {g : Merge} (h : Tracks lower upper m g) :
    Tracks lower upper (Writes.apply m (ops.map Op.write))
        (ops.foldl (Merge.buffered lower upper) g) ∧
      ((ops.foldl (Merge.buffered lower upper) g).Clean ↔
        g.Clean ∧ ¬ DeletesLive lower upper m ops) := by
  induction ops generalizing m g with
  | nil => exact ⟨h, by simp [DeletesLive]⟩
  | cons op ops ih =>
    obtain ⟨ht, hc⟩ := ih (tracks_buffered h op)
    refine ⟨ht, ?_⟩
    rw [List.foldl_cons, hc, clean_buffered_iff h, DeletesLive, not_or, and_assoc]

/-! ## The callbacks -/

theorem length_emit (g : Merge) (keys : List Bytes) : (g.emit keys).length = keys.length :=
  List.length_map _

theorem perm_sortStrings (keys : List Bytes) : (sortStrings keys).Perm keys :=
  List.perm_insertionSort _ keys

theorem map_fst_emit (g : Merge) (keys : List Bytes) : (g.emit keys).map Prod.fst = keys := by
  rw [Merge.emit, List.map_map]
  exact List.map_id' keys

/-- The merged keys are a scan of the overridden map exactly when the merge is clean. -/
theorem scans_emit_iff {g : Merge} (h : Tracks lower upper m g) :
    Scans m (fun k => lower ≤ k ∧ k < upper) (g.emit (sortStrings g.ordered)) ↔ g.Clean := by
  have hperm := perm_sortStrings g.ordered
  constructor
  · intro hs
    have hnd := nodup_keys hs.1
    rw [map_fst_emit] at hnd
    refine ⟨hperm.nodup_iff.mp hnd, fun k hk => ?_⟩
    have hmem : (k, (g.vals.lookup k).getD []) ∈ g.emit (sortStrings g.ordered) :=
      List.mem_map.mpr ⟨k, hperm.mem_iff.mpr hk, rfl⟩
    obtain ⟨hb, hv⟩ := (hs.2 _ _).mp hmem
    rw [h.lookup, inBounds, if_pos hb, hv]
    rfl
  · rintro ⟨hnd, hall⟩
    have hsorted : (sortStrings g.ordered).Pairwise (· ≤ ·) :=
      List.pairwise_insertionSort (· ≤ ·) g.ordered
    refine ⟨List.pairwise_map.mpr ?_, fun k v => ?_⟩
    · exact (hsorted.and (hperm.nodup_iff.mpr hnd)).imp fun hle => lt_of_le_of_ne hle.1 hle.2
    · rw [Merge.emit, List.mem_map]
      constructor
      · rintro ⟨k', hk', he⟩
        obtain ⟨rfl, rfl⟩ := Prod.mk.inj he
        obtain ⟨v, hv⟩ := Option.isSome_iff_exists.mp (hall k' (hperm.mem_iff.mp hk'))
        have hl := (h.lookup k').symm.trans hv
        rw [inBounds] at hl
        split at hl
        · rename_i hb
          rw [hv]
          exact ⟨hb, hl⟩
        · cases hl
      · rintro ⟨hb, hv⟩
        have hl : g.vals.lookup k = some v := by rw [h.lookup, inBounds, if_pos hb, hv]
        exact ⟨k, hperm.mem_iff.mpr (h.listed k (by rw [hl]; rfl)), by rw [hl]; rfl⟩

/-- As many keys are merged as the overridden map has exactly when the merge is clean. -/
theorem length_ordered_iff {g : Merge} (h : Tracks lower upper m g) :
    (∃ out, Scans m (fun k => lower ≤ k ∧ k < upper) out ∧ g.ordered.length = out.length) ↔
      g.Clean := by
  constructor
  · rintro ⟨out, hs, hlen⟩
    have hnd := nodup_keys hs.1
    have hsub : out.map Prod.fst ⊆ g.ordered := by
      intro k hk
      obtain ⟨⟨k', v⟩, he, rfl⟩ := List.mem_map.mp hk
      obtain ⟨hb, hv⟩ := (hs.2 k' v).mp he
      exact h.listed k' (by rw [h.lookup, inBounds, if_pos hb, hv]; rfl)
    have hperm : (out.map Prod.fst).Perm g.ordered :=
      (List.subperm_of_subset hnd hsub).perm_of_length_le (by rw [List.length_map, hlen])
    refine ⟨hperm.nodup_iff.mp hnd, fun k hk => ?_⟩
    obtain ⟨⟨k', v⟩, he, rfl⟩ := List.mem_map.mp (hperm.mem_iff.mpr hk)
    obtain ⟨hb, hv⟩ := (hs.2 k' v).mp he
    rw [h.lookup, inBounds, if_pos hb, hv]
    rfl
  · intro hc
    exact ⟨_, (scans_emit_iff h).mpr hc, by
      rw [length_emit, (perm_sortStrings g.ordered).length_eq]⟩

/-! ## The scans of a transaction -/

/-- The committed map overridden by buffered writes. -/
def view (s : Kv.Store) (ops : List Op) : Bytes → Option Bytes :=
  Writes.apply s.content (ops.map Op.write)

theorem after_eq (s : Kv.Store) (ms : List Mutation) :
    (Tx.after s ms).store = s ∧ (Tx.after s ms).snap = none ∧
      (Tx.after s ms).ops = ms.map Mutation.op := by
  have h : ∀ t : Tx, (ms.foldl Tx.buffer t).store = t.store ∧
      (ms.foldl Tx.buffer t).snap = t.snap ∧
      (ms.foldl Tx.buffer t).ops = t.ops ++ ms.map Mutation.op := by
    induction ms with
    | nil => intro t; simp
    | cons m ms ih =>
      intro t
      obtain ⟨h₁, h₂, h₃⟩ := ih (t.buffer m)
      rw [List.foldl_cons, h₁, h₂, h₃]
      cases m <;> simp [Tx.buffer, Tx.put, Tx.del, Mutation.op]
  simpa [Tx.after, Tx.begin] using h (Tx.begin s)

section Transaction

variable {s : Kv.Store} {ms : List Mutation} {bounds : List Bytes}

/-- The merge every scan of the transaction makes. -/
def mergeOf (s : Kv.Store) (ms : List Mutation) (lower upper : Bytes) : Merge :=
  merge (s.range (some lower) (some upper)) lower upper (ms.map Mutation.op)

variable (ms) in
theorem mergeOf_spec (hs : Kv.Separated s.keys bounds) (hl : lower ∈ bounds) (hu : upper ∈ bounds) :
    Tracks lower upper (view s (ms.map Mutation.op)) (mergeOf s ms lower upper) ∧
      ((mergeOf s ms lower upper).Clean ↔
        ¬ DeletesLive lower upper s.content (ms.map Mutation.op)) := by
  obtain ⟨ht, hc⟩ := tracks_visits (Kv.scans_range hs hl hu)
  obtain ⟨ht', hc'⟩ := clean_foldl_iff (ms.map Mutation.op) ht
  exact ⟨ht', hc'.trans (and_iff_right hc)⟩

/-- What the scans of the transaction call back with. -/
theorem scans_after (s : Kv.Store) (ms : List Mutation) (lower upper : Bytes) :
    let t := Tx.after s ms
    let live := Kv.liveVisits (s.range (some lower) (some upper))
    let g := mergeOf s ms lower upper
    CstoreTx.each t lower upper = (if ms = [] then live else g.emit (sortStrings g.ordered)) ∧
      CstoreTx.eachNoCopy t lower upper = CstoreTx.each t lower upper ∧
      KvTx.each t lower upper = g.emit (sortStrings g.ordered) := by
  obtain ⟨hstore, hsnap, hops⟩ := after_eq s ms
  have hnil : ms.map Mutation.op = [] ↔ ms = [] := List.map_eq_nil_iff
  refine ⟨?_, rfl, ?_⟩
  · simp only [CstoreTx.each, CstoreTx.eachOverlay, hstore, hsnap, hops, hnil]
    rfl
  · simp only [KvTx.each, hstore, hsnap, hops]
    rfl

variable (ms) in
/-- The descending scan calls back as the ascending one, in reverse. -/
theorem eachDesc_after (hs : Kv.Separated s.keys bounds) (hl : lower ∈ bounds)
    (hu : upper ∈ bounds) :
    CstoreTx.eachDesc (Tx.after s ms) lower upper =
      some (CstoreTx.each (Tx.after s ms) lower upper).reverse := by
  obtain ⟨hstore, hsnap, hops⟩ := after_eq s ms
  have hnil : ms.map Mutation.op = [] ↔ ms = [] := List.map_eq_nil_iff
  rw [(scans_after s ms lower upper).1]
  simp only [CstoreTx.eachDesc, hstore, hops, hnil]
  split
  · rw [Kv.rangeDesc_eq hs hl hu, Option.map_some, Kv.liveVisits, List.filterMap_reverse]
    rfl
  · rw [Merge.emit, List.map_reverse]
    rfl

/-- Each scan of the transaction shows the overridden map, once and in order, as does a scan
after its commit. -/
def ReadsOwnWrites (s : Kv.Store) (ms : List Mutation) (lower upper : Bytes) : Prop :=
  let t := Tx.after s ms
  let Shows := Scans (view s (ms.map Mutation.op)) (fun k => lower ≤ k ∧ k < upper)
  Shows (CstoreTx.each t lower upper) ∧ Shows (CstoreTx.eachNoCopy t lower upper) ∧
    (∃ out, CstoreTx.eachDesc t lower upper = some out ∧ Shows out.reverse) ∧
    Shows (KvTx.each t lower upper) ∧
    ∀ s', t.commit = .ok s' →
      CstoreTx.each (Tx.begin s') lower upper = CstoreTx.each t lower upper ∧
      CstoreTx.eachDesc (Tx.begin s') lower upper = CstoreTx.eachDesc t lower upper ∧
      KvTx.each (Tx.begin s') lower upper = KvTx.each t lower upper

/-- The row count of a key range of a table is the number of its rows in the overridden map. -/
def CountsOwnWrites (s : Kv.Store) (ms : List Mutation) (table plLower plUpper : Bytes) : Prop :=
  let bounds := CstoreTx.rowBounds table plLower plUpper
  ∃ out, Scans (view s (ms.map Mutation.op)) (fun k => bounds.1 ≤ k ∧ k < bounds.2) out ∧
    CstoreTx.colRowCountRange (Tx.after s ms) table plLower plUpper = out.length

theorem view_nil (s : Kv.Store) : view s [] = s.content := rfl

theorem scans_each_iff (hs : Kv.Separated s.keys bounds) (hl : lower ∈ bounds)
    (hu : upper ∈ bounds) :
    Scans (view s (ms.map Mutation.op)) (fun k => lower ≤ k ∧ k < upper)
        (CstoreTx.each (Tx.after s ms) lower upper) ↔
      ¬ DeletesLive lower upper s.content (ms.map Mutation.op) := by
  obtain ⟨ht, hc⟩ := mergeOf_spec ms hs hl hu
  rw [(scans_after s ms lower upper).1]
  split
  · rename_i hms
    subst hms
    simp only [List.map_nil, view_nil, DeletesLive, not_false_eq_true, iff_true]
    exact Kv.scans_range hs hl hu
  · rw [scans_emit_iff ht, hc]

theorem scans_kvEach_iff (hs : Kv.Separated s.keys bounds) (hl : lower ∈ bounds)
    (hu : upper ∈ bounds) :
    Scans (view s (ms.map Mutation.op)) (fun k => lower ≤ k ∧ k < upper)
        (KvTx.each (Tx.after s ms) lower upper) ↔
      ¬ DeletesLive lower upper s.content (ms.map Mutation.op) := by
  obtain ⟨ht, hc⟩ := mergeOf_spec ms hs hl hu
  rw [(scans_after s ms lower upper).2.2, scans_emit_iff ht, hc]

/-- The scans of a fresh transaction on the committed store. -/
theorem scans_committed {s' : Kv.Store} (hcommit : (Tx.after s ms).commit = .ok s')
    (hs : Kv.Separated (s.keys ++ ms.map fun m => m.op.key) bounds) (hl : lower ∈ bounds)
    (hu : upper ∈ bounds) :
    Kv.Separated s'.keys bounds ∧
      Scans (view s (ms.map Mutation.op)) (fun k => lower ≤ k ∧ k < upper)
        (CstoreTx.each (Tx.begin s') lower upper) ∧
      Scans (view s (ms.map Mutation.op)) (fun k => lower ≤ k ∧ k < upper)
        (KvTx.each (Tx.begin s') lower upper) := by
  obtain ⟨hstore, -, hops⟩ := after_eq s ms
  rw [Tx.commit, hstore, hops] at hcommit
  have hs' : Kv.Separated s'.keys bounds := hs.mono (fun k hk => by
    simpa [List.map_map] using Kv.keys_apply hcommit hk) (List.Subset.refl _)
  have hview : ∀ k, view s' (([] : List Mutation).map Mutation.op) k =
      view s (ms.map Mutation.op) k := fun k => Kv.content_apply hcommit k
  have hno : ¬ DeletesLive lower upper s'.content (([] : List Mutation).map Mutation.op) := id
  exact ⟨hs', ((scans_each_iff hs' hl hu).mpr hno).congr fun k _ => hview k,
    ((scans_kvEach_iff hs' hl hu).mpr hno).congr fun k _ => hview k⟩

theorem readsOwnWrites_iff (hs : Kv.Separated (s.keys ++ ms.map fun m => m.op.key) bounds)
    (hl : lower ∈ bounds) (hu : upper ∈ bounds) :
    ReadsOwnWrites s ms lower upper ↔
      ¬ DeletesLive lower upper s.content (ms.map Mutation.op) := by
  have hs₀ : Kv.Separated s.keys bounds :=
    hs.mono (List.subset_append_left _ _) (List.Subset.refl _)
  have hdesc := eachDesc_after ms hs₀ hl hu
  constructor
  · rintro ⟨h, -⟩
    exact (scans_each_iff hs₀ hl hu).mp h
  · intro hno
    have heach := (scans_each_iff hs₀ hl hu).mpr hno
    have hkv := (scans_kvEach_iff hs₀ hl hu).mpr hno
    refine ⟨heach, heach, ⟨_, hdesc, by rwa [List.reverse_reverse]⟩, hkv, fun s' hcommit => ?_⟩
    obtain ⟨hs', heach', hkv'⟩ := scans_committed hcommit hs hl hu
    have he := heach'.unique heach
    have hdesc' := eachDesc_after [] hs' hl hu
    refine ⟨he, ?_, hkv'.unique hkv⟩
    rw [hdesc, ← he]
    exact hdesc'

theorem length_emit_sort (g : Merge) :
    (g.emit (sortStrings g.ordered)).length = g.ordered.length := by
  rw [length_emit, (perm_sortStrings g.ordered).length_eq]

theorem rowBounds_inverted (table : Bytes) {plLower plUpper : Bytes}
    (h : plLower ≠ [] ∧ plUpper ≠ [] ∧ plUpper ≤ plLower) (k : Bytes) :
    ¬ ((CstoreTx.rowBounds table plLower plUpper).1 ≤ k ∧
      k < (CstoreTx.rowBounds table plLower plUpper).2) := by
  obtain ⟨hl, hu, hle⟩ := h
  rw [CstoreTx.rowBounds, if_neg hl, if_neg hu]
  rintro ⟨h₁, h₂⟩
  have := lt_of_le_of_lt h₁ h₂
  rw [append_lt_append_iff] at this
  exact absurd this (not_lt.mpr hle)

theorem not_deletesLive_of_empty (h : ∀ k, ¬ (lower ≤ k ∧ k < upper)) (m : Bytes → Option Bytes)
    (ops : List Op) : ¬ DeletesLive lower upper m ops := by
  induction ops generalizing m with
  | nil => exact id
  | cons op ops ih =>
    rintro (⟨-, hlive⟩ | hrest)
    · rw [inBounds, if_neg (h op.key)] at hlive
      cases hlive
    · exact ih _ hrest

theorem countsOwnWrites_iff {table plLower plUpper : Bytes}
    (hs : Kv.Separated s.keys bounds)
    (hl : (CstoreTx.rowBounds table plLower plUpper).1 ∈ bounds)
    (hu : (CstoreTx.rowBounds table plLower plUpper).2 ∈ bounds) :
    CountsOwnWrites s ms table plLower plUpper ↔
      ¬ DeletesLive (CstoreTx.rowBounds table plLower plUpper).1
        (CstoreTx.rowBounds table plLower plUpper).2 s.content (ms.map Mutation.op) := by
  obtain ⟨hstore, hsnap, hops⟩ := after_eq s ms
  have hnil : ms.map Mutation.op = [] ↔ ms = [] := List.map_eq_nil_iff
  rw [CountsOwnWrites]
  simp only [CstoreTx.colRowCountRange, hstore, hsnap, hops, hnil]
  split
  · rename_i hinv
    have hempty := rowBounds_inverted table hinv
    refine iff_of_true ⟨[], ⟨List.Pairwise.nil, fun k v => ?_⟩, rfl⟩
      (not_deletesLive_of_empty hempty _ _)
    simp only [List.not_mem_nil, false_iff]
    exact fun h => hempty k h.1
  · split
    · rename_i hms
      subst hms
      refine iff_of_true ⟨_, Kv.scans_range hs hl hu, Kv.rangeCount_eq s _ _⟩ id
    · rename_i hms
      obtain ⟨ht, hc⟩ := mergeOf_spec ms hs hl hu
      rw [(scans_after s ms _ _).2.1, (scans_after s ms _ _).1, if_neg hms, length_emit_sort,
        length_ordered_iff ht, hc]

end Transaction

/-- A scan of a transaction, and the row count of a range, agree with the overridden map exactly
when no buffered delete in the bounds takes away a key that is live when it is buffered. -/
theorem reads_own_writes_iff (s : Kv.Store) (ms : List Mutation)
    (lower upper table plLower plUpper : Bytes)
    (h : Kv.Separated (s.keys ++ ms.map fun m => m.op.key)
      [lower, upper, (CstoreTx.rowBounds table plLower plUpper).1,
        (CstoreTx.rowBounds table plLower plUpper).2]) :
    (ReadsOwnWrites s ms lower upper ↔
      ¬ DeletesLive lower upper s.content (ms.map Mutation.op)) ∧
    (CountsOwnWrites s ms table plLower plUpper ↔
      ¬ DeletesLive (CstoreTx.rowBounds table plLower plUpper).1
        (CstoreTx.rowBounds table plLower plUpper).2 s.content (ms.map Mutation.op)) := by
  refine ⟨readsOwnWrites_iff h (by simp) (by simp), ?_⟩
  exact countsOwnWrites_iff (h.mono (List.subset_append_left _ _) (List.Subset.refl _))
    (by simp) (by simp)

theorem reads_own_writes_iff_put :
    (ReadsOwnWrites Kv.Store.empty [.put (ascii "b") (ascii "2"), .put (ascii "a") (ascii "1")]
        (ascii "a") (ascii "c") ↔
      ¬ DeletesLive (ascii "a") (ascii "c") Kv.Store.empty.content
        ([.put (ascii "b") (ascii "2"), .put (ascii "a") (ascii "1")].map Mutation.op)) ∧
    (CountsOwnWrites Kv.Store.empty [.put (ascii "b") (ascii "2"), .put (ascii "a") (ascii "1")]
        (ascii "t") [] [] ↔
      ¬ DeletesLive (CstoreTx.rowBounds (ascii "t") [] []).1
        (CstoreTx.rowBounds (ascii "t") [] []).2 Kv.Store.empty.content
        ([.put (ascii "b") (ascii "2"), .put (ascii "a") (ascii "1")].map Mutation.op)) :=
  reads_own_writes_iff _ _ _ _ _ _ _ (by decide)

/-- Deleting the committed key `k` leaves it in the scan, with the nil slice. -/
theorem not_readsOwnWrites_del :
    ∃ s, Kv.Store.empty.apply 0 [.put (ascii "k") (ascii "v")] = .ok s ∧
      CstoreTx.each (Tx.after s [.del (ascii "k")]) (ascii "a") (ascii "z") = [(ascii "k", [])] ∧
      ¬ ReadsOwnWrites s [.del (ascii "k")] (ascii "a") (ascii "z") := by
  refine ⟨_, rfl, by decide, fun h => ?_⟩
  have hmem := (h.1.2 (ascii "k") []).mp (by decide)
  exact absurd hmem.2 (by decide)

end Ydbgo.Storage
