import Ydbgo.Mpart.Reference

/-! # The paths of the walk

The heap, one source, disjoint sources one after the other and the granules of
disjoint parts from the end all merge their sources.
-/

namespace Ydbgo.Mpart

open SortedMap (getEntry getEntry_eq_some_of_ne)

variable {n : ℕ} {rev : Bool} {k : Bytes} {srcs : List (MergeSrc n)}

/-! ### The heap -/

theorem heapLe_total (a b : Bytes × Prio × Row n) : heapLe rev a b = true ∨ heapLe rev b a = true := by
  unfold heapLe
  by_cases h : a.1 = b.1
  · simpa [h] using le_total b.2.1 a.2.1
  · rcases lt_or_gt_of_ne h with hlt | hlt <;> cases rev <;> simp [h, Ne.symm h, hlt]

theorem heapLe_iff {a b : Bytes × Prio × Row n} :
    heapLe rev a b = true ↔ Before rev a.1 b.1 ∨ a.1 = b.1 ∧ b.2.1 ≤ a.2.1 := by
  unfold heapLe
  by_cases h : a.1 = b.1
  · simp [h, Before.irrefl]
  · cases rev <;> simp [h, Before]

theorem heapLe_trans (a b c : Bytes × Prio × Row n) (h : heapLe rev a b = true)
    (h' : heapLe rev b c = true) : heapLe rev a c = true := by
  rw [heapLe_iff] at h h' ⊢
  rcases h with h | ⟨h, hp⟩ <;> rcases h' with h' | ⟨h', hp'⟩
  · exact .inl (h.trans h')
  · exact .inl (h' ▸ h)
  · exact .inl (h ▸ h')
  · exact .inr ⟨h.trans h', hp'.trans hp⟩

/-- The rows of a source as the heap compares them. -/
def MergeSrc.run (s : MergeSrc n) : List (Bytes × Prio × Row n) :=
  s.rows.map fun e => (e.1, s.prio, e.2)

theorem getEntry_run (s : MergeSrc n) (k : Bytes) :
    getEntry k s.run = (getEntry k s.rows).map (s.prio, ·) :=
  SortedMap.getEntry_map _ k s.rows

theorem valuesOf_run {s : MergeSrc n} (h : s.rows.Pairwise fun a b => a.1 ≠ b.1) :
    valuesOf k s.run = ((getEntry k s.rows).map (s.prio, ·)).toList := by
  rw [← getEntry_run]
  exact valuesOf_of_ne (by rwa [MergeSrc.run, List.pairwise_map])

theorem valuesOf_runs (h : Ready rev srcs) :
    valuesOf k (srcs.map MergeSrc.run).flatten = versionsOf srcs k := by
  rw [valuesOf_flatten, List.flatMap_map, versionsOf, List.filterMap_eq_flatMap_toList]
  exact List.flatMap_congr fun s hs => valuesOf_run (keys_of_ordered (h.ordered s hs))

theorem pairwise_run {s : MergeSrc n} (h : s.rows.Pairwise fun a b => Before rev a.1 b.1) :
    s.run.Pairwise (heapLe rev · · = true) := by
  unfold MergeSrc.run
  rw [List.pairwise_map]
  exact h.imp fun hlt => heapLe_iff.mpr (.inl hlt)

theorem merged_walkHeap (h : Ready rev srcs) : Merged rev (versionsOf srcs) (walkHeap rev srcs) := by
  set merged := mergeRuns (heapLe rev) (srcs.map MergeSrc.run) with hmerged
  have hperm : merged.Perm (srcs.map MergeSrc.run).flatten := mergeRuns_perm _
  have hord : merged.Pairwise (heapLe rev · · = true) :=
    mergeRuns_ordered heapLe_total heapLe_trans fun run hrun => by
      obtain ⟨s, hs, rfl⟩ := List.mem_map.mp hrun
      exact pairwise_run (h.ordered s hs)
  have hkeys : merged.Pairwise fun a b => Before rev a.1 b.1 ∨ a.1 = b.1 :=
    hord.imp fun hle => (heapLe_iff.mp hle).imp_right And.left
  have hvalues : ∀ k, (valuesOf k merged).Perm (versionsOf srcs k) := fun k => by
    rw [← valuesOf_runs h]
    exact (hperm.filter _).map _
  have hnewest : ∀ k, newestFirst (versionsOf srcs k) = (valuesOf k merged).map Prod.snd := by
    intro k
    refine newestFirst_eq (hvalues k) ?_ (h.nodup k)
    unfold valuesOf
    rw [List.pairwise_map]
    refine (hord.filter _).imp_of_mem fun {a b} ha hb hle => ?_
    have hab : a.1 = b.1 := by
      rw [of_decide_eq_true (List.mem_filter.mp ha).2, of_decide_eq_true (List.mem_filter.mp hb).2]
    exact ((heapLe_iff.mp hle).resolve_left fun hlt => hlt.ne hab).2
  obtain ⟨hpair, hmem⟩ := groupRuns_spec (fun k => Before.irrefl (a := k))
    (fun _ _ _ => Before.trans) hkeys
  have hwalk : walkHeap rev srcs =
      (groupRuns merged).map fun g => (g.1, resolveAll (g.2.map Prod.snd)) := rfl
  rw [hwalk]
  constructor
  · rw [List.pairwise_map]
    exact hpair
  · intro k r
    have hne : versionsOf srcs k ≠ [] ↔ valuesOf k merged ≠ [] := by
      rw [ne_eq, ne_eq, ← List.length_eq_zero_iff, ← List.length_eq_zero_iff,
        (hvalues k).length_eq]
    rw [hne, hnewest]
    constructor
    · intro hr
      obtain ⟨⟨k', vs⟩, hg, he⟩ := List.mem_map.mp hr
      obtain ⟨rfl, rfl⟩ := Prod.mk.injEq .. ▸ he
      obtain ⟨hvs, rfl⟩ := (hmem k' vs).mp hg
      exact ⟨hvs, rfl⟩
    · rintro ⟨hvs, rfl⟩
      exact List.mem_map.mpr ⟨(k, valuesOf k merged), (hmem k _).mpr ⟨hvs, rfl⟩, rfl⟩

/-! ### One source after the other -/

theorem merged_flatMap {L : List (MergeSrc n)} (hperm : L.Perm srcs) (h : Ready rev srcs)
    (hord : (L.flatMap MergeSrc.rows).Pairwise fun a b => Before rev a.1 b.1) :
    Merged rev (versionsOf srcs) (L.flatMap MergeSrc.rows) := by
  refine ⟨hord, fun k r => ?_⟩
  have hL : Ready rev L :=
    ⟨(hperm.map _).nodup_iff.mpr h.distinct, fun s hs => h.ordered s (hperm.subset hs),
      fun s hs => h.nonempty s (hperm.subset hs)⟩
  set tagged := (L.map MergeSrc.run).flatten with htagged
  have hrows : tagged.map (fun e => (e.1, e.2.2)) = L.flatMap MergeSrc.rows := by
    simp [htagged, List.map_flatten, List.flatMap, MergeSrc.run, Function.comp_def]
  have hkeys : tagged.Pairwise fun a b => a.1 ≠ b.1 := by
    rw [← hrows, List.pairwise_map] at hord
    exact hord.imp fun hlt => hlt.ne
  have hver : versionsOf L k = (getEntry k tagged).toList := by
    rw [← valuesOf_runs hL]
    exact valuesOf_of_ne hkeys
  have hmem : (k, r) ∈ L.flatMap MergeSrc.rows ↔ ∃ p, versionsOf L k = [(p, r)] := by
    simp only [← hrows, List.mem_map, Prod.mk.injEq, Prod.exists, hver, Option.toList_eq_singleton_iff,
      getEntry_eq_some_of_ne hkeys]
    constructor
    · rintro ⟨_, p, _, hp, rfl, rfl⟩
      exact ⟨p, hp⟩
    · rintro ⟨p, hp⟩
      exact ⟨k, p, r, hp, rfl, rfl⟩
  have hperm' : (versionsOf L k).Perm (versionsOf srcs k) := hperm.filterMap _
  have hnil : versionsOf srcs k = [] ↔ versionsOf L k = [] :=
    ⟨fun he => (he ▸ hperm').eq_nil, fun he => (he ▸ hperm').symm.eq_nil⟩
  rw [hmem, ne_eq, hnil, ← newestFirst_perm hperm' (h.nodup k), hver]
  cases getEntry k tagged with
  | none => simp
  | some v =>
    obtain ⟨p, r'⟩ := v
    simp [resolveAll_singleton, eq_comm]

theorem merged_nil : Merged rev (versionsOf ([] : List (MergeSrc n))) [] :=
  ⟨List.Pairwise.nil, fun k r => by simp [versionsOf]⟩

theorem merged_singleton {s : MergeSrc n} (h : Ready rev [s]) : Merged rev (versionsOf [s]) s.rows := by
  have hmerged := merged_flatMap (List.Perm.refl [s]) h
  simp only [List.flatMap_singleton] at hmerged
  exact hmerged (h.ordered s List.mem_cons_self)

/-- Ordered lists whose last keys come before the next first keys are ordered as one. -/
theorem pairwise_flatten {lists : List (List (Bytes × Row n))} (hne : ∀ l ∈ lists, l ≠ [])
    (hord : ∀ l ∈ lists, l.Pairwise fun a b => Before rev a.1 b.1)
    (hchain : lists.IsChain fun l m =>
      Before rev ((l.map Prod.fst).getLastD []) ((m.map Prod.fst).headD [])) :
    lists.flatten.Pairwise fun a b => Before rev a.1 b.1 := by
  induction lists with
  | nil => exact List.Pairwise.nil
  | cons l lists ih =>
    rw [List.forall_mem_cons] at hne hord
    have htail := ih hne.2 hord.2 hchain.tail
    rw [List.flatten_cons, List.pairwise_append]
    refine ⟨hord.1, htail, fun a ha b hb => ?_⟩
    obtain _ | ⟨m, lists⟩ := lists
    · cases hb
    have hlm := (List.isChain_cons_cons.mp hchain).1
    obtain ⟨init, z, rfl⟩ := (List.eq_nil_or_concat' l).resolve_left hne.1
    obtain ⟨y, m, rfl⟩ := List.exists_cons_of_ne_nil (hne.2 m List.mem_cons_self)
    have haz : Before rev a.1 z.1 ∨ a = z := by
      rcases List.mem_append.mp ha with ha | ha
      · exact .inl ((List.pairwise_append.mp hord.1).2.2 a ha z List.mem_cons_self)
      · exact .inr (List.mem_singleton.mp ha)
    have hyb : b = y ∨ Before rev y.1 b.1 := by
      rcases List.mem_cons.mp hb with rfl | hb
      · exact .inl rfl
      · exact .inr ((List.pairwise_cons.mp htail).1 b hb)
    have hzy : Before rev z.1 y.1 := by simpa [List.getLastD_eq_getLast?] using hlm
    have hay : Before rev a.1 y.1 := by
      rcases haz with h | rfl
      · exact h.trans hzy
      · exact hzy
    rcases hyb with rfl | h
    · exact hay
    · exact hay.trans h

theorem disjointInOrder_iff {L : List (MergeSrc n)} :
    disjointInOrder rev L = true ↔ L.IsChain fun s t => Before rev (lastKey s) (firstKey t) := by
  induction L with
  | nil => simp [disjointInOrder]
  | cons s L ih =>
    obtain _ | ⟨t, L⟩ := L
    · simp [disjointInOrder]
    · rw [disjointInOrder, Bool.and_eq_true, ih, List.isChain_cons_cons]
      cases rev <;> simp [Before]

theorem merged_sortDisjointSources {sorted : List (MergeSrc n)} (h : Ready rev srcs)
    (hs : sortDisjointSources rev srcs = some sorted) :
    Merged rev (versionsOf srcs) (sorted.flatMap MergeSrc.rows) := by
  unfold sortDisjointSources at hs
  simp only [Option.ite_none_right_eq_some, Option.some.injEq] at hs
  obtain ⟨hdis, rfl⟩ := hs
  have hperm := List.perm_insertionSort (fun s t : MergeSrc n =>
    if rev then firstKey t ≤ firstKey s else firstKey s ≤ firstKey t) srcs
  refine merged_flatMap hperm h ?_
  rw [List.flatMap]
  refine pairwise_flatten ?_ ?_ ?_
  · rintro l hl
    obtain ⟨s, hs, rfl⟩ := List.mem_map.mp hl
    exact h.nonempty s (hperm.subset hs)
  · rintro l hl
    obtain ⟨s, hs, rfl⟩ := List.mem_map.mp hl
    exact h.ordered s (hperm.subset hs)
  · rw [List.isChain_map]
    exact disjointInOrder_iff.mp hdis

end Ydbgo.Mpart
