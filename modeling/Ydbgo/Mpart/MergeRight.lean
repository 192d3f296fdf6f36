import Ydbgo.Mpart.MergePaths

/-! # The walk and the reference merge

The sources of a view have the versions of the keys of the window. Whatever path
the walk takes, its rows are the reference merge, unless a newest source that does
not cover the others is taken for one that does.
-/

namespace Ydbgo.Mpart

open SortedMap (getEntry)

variable {n : ℕ} {m : Mode n} {rev : Bool} {lo hi : Option Bytes} {k : Bytes}

/-! ### The window of a source -/

theorem inWindow_iff :
    InWindow lo hi k ↔ (lo.all (decide <| · ≤ k) && hi.all (decide <| k < ·)) = true := by
  constructor
  · intro h
    cases lo <;> cases hi <;> simp [h.lower, h.upper]
  · intro h
    constructor <;> rintro b rfl <;> simp_all

instance : Decidable (InWindow lo hi k) := decidable_of_iff _ inWindow_iff.symm

theorem sliceRange_eq {rows : List (Bytes × Row n)} (h : Ascending rows) :
    sliceRange lo hi rows = rows.filter fun e => decide (InWindow lo hi e.1) := by
  have hlo : rows.Pairwise fun a b => (lo.any fun l => decide (b.1 < l)) = true →
      (lo.any fun l => decide (a.1 < l)) = true := by
    refine h.imp fun {a b} hab => ?_
    cases lo with
    | none => simp
    | some l => simpa using fun hb => lt_trans (α := Bytes) hab hb
  have hhi : rows.Pairwise fun a b => (hi.all fun u => decide (b.1 < u)) = true →
      (hi.all fun u => decide (a.1 < u)) = true := by
    refine h.imp fun {a b} hab => ?_
    cases hi with
    | none => simp
    | some u => simpa using fun hb => lt_trans (α := Bytes) hab hb
  rw [sliceRange, dropWhile_eq_filter hlo, takeWhile_eq_filter (hhi.filter _), List.filter_filter]
  refine List.filter_congr fun e _ => ?_
  rw [Bool.eq_iff_iff, decide_eq_true_iff, inWindow_iff]
  cases lo <;> cases hi <;> simp [and_comm]

theorem makeSource_rows {s : MergeSrc m.width} {p : Prio} {rows : List (Bytes × Row n)}
    (h : Ascending rows) (hs : makeSource m rev lo hi p rows = some s) :
    s.prio = p ∧ s.rows ≠ [] ∧ s.rows.Pairwise fun a b => Before rev a.1 b.1 := by
  unfold makeSource at hs
  simp only [Option.ite_none_left_eq_some, Option.some.injEq] at hs
  obtain ⟨hne, rfl⟩ := hs
  have hord : Ascending ((sliceRange lo hi rows).map fun e => (e.1, e.2.project m)) := by
    rw [sliceRange_eq h]
    exact SortedMap.ascending_map _ (h.filter _)
  refine ⟨rfl, ?_, ?_⟩
  · cases rev <;> simpa using hne
  · cases rev
    · exact hord
    · exact List.pairwise_reverse.mpr hord

variable (m rev lo hi) in
theorem makeSource_get (k : Bytes) (p : Prio) {rows : List (Bytes × Row n)} (h : Ascending rows) :
    ((makeSource m rev lo hi p rows).bind fun s => (getEntry k s.rows).map (s.prio, ·)) =
      if InWindow lo hi k then (getEntry k rows).map fun r => (p, r.project m) else none := by
  have hslice : getEntry k ((sliceRange lo hi rows).map fun e => (e.1, e.2.project m)) =
      if InWindow lo hi k then (getEntry k rows).map (Row.project m) else none := by
    rw [SortedMap.getEntry_map, sliceRange_eq h,
      SortedMap.getEntry_filter (fun k => decide (InWindow lo hi k))]
    by_cases hk : InWindow lo hi k <;> simp [hk]
  have hord : Ascending ((sliceRange lo hi rows).map fun e => (e.1, e.2.project m)) := by
    rw [sliceRange_eq h]
    exact SortedMap.ascending_map _ (h.filter _)
  have hget : getEntry k (if rev then
        ((sliceRange lo hi rows).map fun e => (e.1, e.2.project m)).reverse
      else (sliceRange lo hi rows).map fun e => (e.1, e.2.project m)) =
      if InWindow lo hi k then (getEntry k rows).map (Row.project m) else none := by
    cases rev
    · exact hslice
    · exact (SortedMap.getEntry_reverse (hord.imp ne_of_lt)).trans hslice
  unfold makeSource
  by_cases hne : (sliceRange lo hi rows).isEmpty
  · rw [List.isEmpty_iff.mp hne] at hslice
    rw [if_pos hne, Option.bind_none]
    by_cases hk : InWindow lo hi k
    · rw [if_pos hk] at hslice ⊢
      have hnone : getEntry k rows = none := by simpa using hslice.symm
      rw [hnone, Option.map_none]
    · rw [if_neg hk]
  · rw [if_neg hne, Option.bind_some]
    dsimp only
    rw [hget]
    by_cases hk : InWindow lo hi k <;> simp [hk, Function.comp_def]

/-! ### The sources of a view -/

theorem Part.bounds {p : Part n} {r : Row n} (h : p.rows.get k = some r) :
    p.pkMin ≤ k ∧ k ≤ p.pkMax := by
  have hmem : k ∈ p.pks := List.mem_map.mpr ⟨(k, r), SortedMap.get_eq_some.mp h, rfl⟩
  have hord : p.pks.Pairwise (· < ·) := List.pairwise_map.mpr p.rows.ascending
  unfold Part.pkMin Part.pkMax
  generalize p.pks = pks at hmem hord
  constructor
  · obtain _ | ⟨a, pks⟩ := pks
    · cases hmem
    · rcases List.mem_cons.mp hmem with rfl | hmem
      · exact le_refl (α := Bytes) k
      · exact le_of_lt (α := Bytes) ((List.pairwise_cons.mp hord).1 k hmem)
  · rcases List.eq_nil_or_concat' pks with rfl | ⟨init, z, rfl⟩
    · cases hmem
    · have hz : (init ++ [z]).getLastD [] = z := by simp [List.getLastD_eq_getLast?]
      rw [hz]
      rcases List.mem_append.mp hmem with hmem | hmem
      · exact le_of_lt (α := Bytes) ((List.pairwise_append.mp hord).2.2 k hmem z List.mem_cons_self)
      · rw [List.mem_singleton.mp hmem]

theorem Part.inRange_of_get {p : Part n} {r : Row n} (hk : InWindow lo hi k)
    (h : p.rows.get k = some r) : p.inRange lo hi = true := by
  obtain ⟨hmin, hmax⟩ := Part.bounds h
  have hlo : ∀ l, lo = some l → ¬ p.pkMax < l := fun l hl =>
    not_lt_of_ge (α := Bytes) (le_trans (α := Bytes) (hk.lower l hl) hmax)
  have hhi : ∀ u, hi = some u → ¬ u ≤ p.pkMin := fun u hu =>
    not_le_of_gt (α := Bytes) (lt_of_le_of_lt (α := Bytes) hmin (hk.upper u hu))
  unfold Part.inRange
  cases lo <;> cases hi <;> simp_all

theorem versionsOf_append (ss ts : List (MergeSrc n)) (k : Bytes) :
    versionsOf (ss ++ ts) k = versionsOf ss k ++ versionsOf ts k :=
  List.filterMap_append

theorem versionsOf_makeSource (p : Prio) {rows : List (Bytes × Row n)}
    (h : Ascending rows) :
    versionsOf (makeSource m rev lo hi p rows).toList k =
      if InWindow lo hi k then ((getEntry k rows).map fun r => (p, r.project m)).toList else [] := by
  have hsource := makeSource_get m rev lo hi k p h
  have hver : versionsOf (makeSource m rev lo hi p rows).toList k =
      ((makeSource m rev lo hi p rows).bind fun s =>
        (getEntry k s.rows).map (s.prio, ·)).toList := by
    cases makeSource m rev lo hi p rows with
    | none => rfl
    | some s => cases hs : getEntry k s.rows <;> simp [versionsOf, hs]
  rw [hver, hsource]
  split <;> rfl

theorem versionsOf_parts (parts : List (Part n)) :
    versionsOf ((parts.filter fun p => p.inRange lo hi).filterMap fun p =>
        makeSource m rev lo hi (.part p.seq) p.rows.entries) k =
      if InWindow lo hi k then
        parts.filterMap fun p => (p.rows.get k).map fun r => (.part p.seq, r.project m)
      else [] := by
  rw [versionsOf, List.filterMap_filterMap, List.filterMap_filter]
  by_cases hk : InWindow lo hi k
  · rw [if_pos hk]
    refine List.filterMap_congr fun p _ => ?_
    rw [makeSource_get _ _ _ _ k _ p.rows.ascending, if_pos hk]
    cases hget : p.rows.get k with
    | none => simp [show getEntry k p.rows.entries = none from hget]
    | some r =>
      rw [if_pos (Part.inRange_of_get hk hget)]
      exact congrArg (Option.map _) hget
  · rw [if_neg hk, List.filterMap_eq_nil_iff]
    rintro p -
    rw [makeSource_get _ _ _ _ k _ p.rows.ascending, if_neg hk, ite_self]

/-- The sources have the versions of the keys in the window, as the mode sees them. -/
theorem versionsOf_sources (v : View n) (k : Bytes) :
    versionsOf (v.sources m rev lo hi) k =
      if InWindow lo hi k then (v.versions k).map fun e => (e.1, e.2.project m) else [] := by
  have hown : SortedMap.getEntry k (v.ownRows.entries.filter fun e => inPKRange e.1 lo hi) =
      if inPKRange k lo hi then v.ownRows.get k else none :=
    SortedMap.getEntry_filter (fun k => inPKRange k lo hi) k v.ownRows.entries
  have hrange : InWindow lo hi k → inPKRange k lo hi = true := fun hk => by
    have := inWindow_iff.mp hk
    unfold inPKRange
    cases lo <;> cases hi <;> simp_all
  unfold View.sources View.versions
  rw [versionsOf_append, versionsOf_makeSource _ (v.ownRows.ascending.filter _), hown]
  by_cases hk : InWindow lo hi k
  · rw [if_pos hk, if_pos hk, if_pos (hrange hk), List.map_append]
    congr 1
    · cases v.cleared with
      | true => rfl
      | false =>
        rw [if_neg (by simp), if_neg (by simp), versionsOf_append, versionsOf_parts, if_pos hk,
          versionsOf_makeSource _ v.mem.ascending, if_pos hk, List.map_append, List.map_filterMap]
        congr 1
        · simp [Function.comp_def]
        · cases hget : v.mem.get k <;>
            simp [show getEntry k v.mem.entries = _ from hget]
    · cases v.ownRows.get k <;> simp
  · rw [if_neg hk, if_neg hk, List.append_nil]
    cases v.cleared with
    | true => rfl
    | false =>
      rw [if_neg (by simp), versionsOf_append, versionsOf_parts, if_neg hk,
        versionsOf_makeSource _ v.mem.ascending, if_neg hk, List.append_nil]

theorem mem_sources {v : View n} {s : MergeSrc m.width} (h : s ∈ v.sources m rev lo hi) :
    ∃ p rows, Ascending rows ∧ makeSource m rev lo hi p rows = some s := by
  unfold View.sources at h
  rcases List.mem_append.mp h with h | h
  · split at h
    · cases h
    · rcases List.mem_append.mp h with h | h
      · obtain ⟨p, -, hs⟩ := List.mem_filterMap.mp h
        exact ⟨_, _, p.rows.ascending, hs⟩
      · exact ⟨_, _, v.mem.ascending, Option.mem_toList.mp h⟩
  · exact ⟨_, _, v.ownRows.ascending.filter _, Option.mem_toList.mp h⟩

variable (m rev lo hi) in
theorem prio_toList_makeSource (p : Prio) (rows : List (Bytes × Row n)) :
    ((makeSource m rev lo hi p rows).toList.map MergeSrc.prio).Sublist [p] := by
  unfold makeSource
  dsimp only
  split
  · exact List.nil_sublist _
  · exact List.Sublist.refl _

theorem prio_parts (parts : List (Part n)) :
    (((parts.filter fun p => p.inRange lo hi).filterMap fun p =>
      makeSource m rev lo hi (.part p.seq) p.rows.entries).map MergeSrc.prio).Sublist
      (parts.map fun p => .part p.seq) := by
  induction parts with
  | nil => exact List.Sublist.slnil
  | cons p parts ih =>
    rw [List.map_cons, List.filter_cons]
    split
    · rw [List.filterMap_cons]
      have hp := prio_toList_makeSource m rev lo hi (.part p.seq)
        p.rows.entries
      cases hs : makeSource m rev lo hi (.part p.seq) p.rows.entries with
      | none => exact ih.cons _
      | some s =>
        rw [hs] at hp
        exact hp.append ih
    · exact ih.cons _

theorem ready_sources (v : View n) (m : Mode n) (rev : Bool) (lo hi : Option Bytes) :
    Ready rev (v.sources m rev lo hi) := by
  constructor
  · have hsub : ((v.sources m rev lo hi).map MergeSrc.prio).Sublist
        (v.parts.map (fun p => Prio.part p.seq) ++ [.mem] ++ [.overlay]) := by
      unfold View.sources
      rw [List.map_append]
      refine List.Sublist.append ?_ (prio_toList_makeSource _ _ _ _ _ _)
      split
      · exact List.nil_sublist _
      · rw [List.map_append]
        exact (prio_parts _).append (prio_toList_makeSource _ _ _ _ _ _)
    refine List.Nodup.sublist hsub ?_
    have hparts : (v.parts.map fun p => Prio.part p.seq).Nodup := by
      have := v.distinct.map (f := Prio.part) fun _ _ h => Prio.part.inj h
      rwa [List.map_map] at this
    simp [List.nodup_append, hparts]
  · intro s hs
    obtain ⟨p, rows, hrows, hmake⟩ := mem_sources hs
    exact (makeSource_rows hrows hmake).2.2
  · intro s hs
    obtain ⟨p, rows, hrows, hmake⟩ := mem_sources hs
    exact (makeSource_rows hrows hmake).2.1

end Ydbgo.Mpart
