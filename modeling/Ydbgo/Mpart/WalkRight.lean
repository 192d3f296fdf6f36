import Ydbgo.Mpart.MergeRight

/-! # What a walk yields

The walk yields the reference merge of the window exactly when a source taken to
cover the others does.
-/

namespace Ydbgo.Mpart

open SortedMap (getEntry getEntry_eq_some_of_ne)

variable {n : ℕ} {m : Mode n} {rev : Bool} {lo hi : Option Bytes} {k : Bytes}

/-- The rows of a walk that are not tombstones. -/
def liveRows (out : List (Bytes × Row n)) : List (Bytes × Cells n) :=
  out.filterMap fun e =>
    match e.2 with
    | .put cells => some (e.1, cells)
    | .del => none

/-- The live rows are those of `f` in the window, each once, in the order of the walk. -/
structure Yields (rev : Bool) (lo hi : Option Bytes) (f : Bytes → Option (Cells n))
    (out : List (Bytes × Row n)) : Prop where
  ordered : (liveRows out).Pairwise fun a b => Before rev a.1 b.1
  mem : ∀ k cells, (k, cells) ∈ liveRows out ↔ InWindow lo hi k ∧ f k = some cells

/-- The content of a view, as the mode sees it. -/
def View.seen (v : View n) (m : Mode n) (k : Bytes) : Option (Cells m.width) :=
  (v.content k).map (· ∘ m.select)

def WalkRight (v : View n) (m : Mode n) (rev : Bool) (lo hi : Option Bytes) : Prop :=
  ∃ out, walkMergedLocked v m rev lo hi = some out ∧ Yields rev lo hi (v.seen m) out

/-- The sources other than `s` have no live key that `s` does not have, and no cell that a row of
`s` misses. -/
def Covers (srcs : List (MergeSrc n)) (s : MergeSrc n) : Prop :=
  ∀ k cells, contentOf (newestFirst (versionsOf (srcs.filter (·.prio ≠ s.prio)) k)) = some cells →
    ∃ r, getEntry k s.rows = some r ∧ ∀ own, r = .put own → ∀ c, own c = [] → cells c = []

/-- The source that an ascending walk takes alone covers the others, and the test for it does not
panic. -/
def CoverSafe (single : Bool) (srcs : List (MergeSrc n)) (lo hi : Option Bytes) : Prop :=
  ∃ chosen, coveringNewestSource single srcs lo hi = some chosen ∧
    ∀ s, chosen = some s → Covers srcs s

theorem mem_liveRows {out : List (Bytes × Row n)} {cells : Cells n} :
    (k, cells) ∈ liveRows out ↔ (k, .put cells) ∈ out := by
  simp only [liveRows, List.mem_filterMap, Prod.exists]
  constructor
  · rintro ⟨k', _ | _, hmem, he⟩
    · obtain ⟨rfl, rfl⟩ := Prod.mk.inj (Option.some.inj he)
      exact hmem
    · cases he
  · intro hmem
    exact ⟨k, .put cells, hmem, rfl⟩

theorem ordered_liveRows {out : List (Bytes × Row n)}
    (h : out.Pairwise fun a b => Before rev a.1 b.1) :
    (liveRows out).Pairwise fun a b => Before rev a.1 b.1 := by
  refine List.Pairwise.filterMap _ ?_ h
  rintro ⟨k, _ | _⟩ ⟨k', _ | _⟩ hlt e he e' he' <;> cases he <;> cases he'
  exact hlt

/-! ### What a mode sees -/

theorem newestFirst_map {w : ℕ} (f : Row n → Row w) (vs : List (Prio × Row n)) :
    newestFirst (vs.map fun e => (e.1, f e.2)) = (newestFirst vs).map f := by
  have hsort := List.map_insertionSort (fun a b : Prio × Row n => b.1 ≤ a.1)
    (fun a b : Prio × Row w => b.1 ≤ a.1) (fun e => (e.1, f e.2)) vs fun _ _ _ _ => Iff.rfl
  rw [newestFirst, newestFirst, ← hsort, List.map_map, List.map_map]
  rfl

theorem act_project (r : Row n) (x : Option (Cells n)) :
    (r.project m).act (x.map (· ∘ m.select)) = (r.act x).map (· ∘ m.select) := by
  cases r with
  | del => rfl
  | put cells =>
    cases x with
    | none => rfl
    | some old => rfl

theorem contentOf_project (rows : List (Row n)) :
    contentOf (rows.map (Row.project m)) = (contentOf rows).map (· ∘ m.select) := by
  induction rows with
  | nil => rfl
  | cons r rows ih =>
    rw [List.map_cons, contentOf, List.foldr_cons, ← contentOf, ih, act_project]
    rfl

theorem Grounded.project {rows : List (Row n)} (h : Grounded rows) :
    Grounded (rows.map (Row.project m)) := by
  unfold Grounded
  rw [List.isChain_map]
  refine List.IsChain.imp ?_ h
  rintro (cells | _) (older | _) hab cells' hc hfull
  · simp [Row.project]
  · cases hc
    exact absurd rfl (hab cells rfl fun hf => hfull fun c => hf _)
  · simp [Row.project]
  · cases hc

variable (m) in
theorem contentOf_sources (v : View n) (rev : Bool) (hk : InWindow lo hi k) :
    contentOf (newestFirst (versionsOf (v.sources m rev lo hi) k)) = v.seen m k := by
  rw [versionsOf_sources, if_pos hk, newestFirst_map, contentOf_project]
  rfl

theorem Merged.yields {v : View n} {out : List (Bytes × Row m.width)}
    (hv : ∀ k, Grounded (newestFirst (v.versions k)))
    (h : Merged rev (versionsOf (v.sources m rev lo hi)) out) : Yields rev lo hi (v.seen m) out := by
  refine ⟨ordered_liveRows h.ordered, fun k cells => ?_⟩
  rw [mem_liveRows, h.mem]
  by_cases hk : InWindow lo hi k
  · have hg : Grounded (newestFirst (versionsOf (v.sources m rev lo hi) k)) := by
      rw [versionsOf_sources, if_pos hk, newestFirst_map]
      exact (hv k).project
    rw [← contentOf_sources m v rev hk, ← liveCells_eq_contentOf hg, liveCells_eq]
    cases hvs : versionsOf (v.sources m rev lo hi) k with
    | nil => simp [resolveAll]
    | cons e vs =>
      cases resolveAll (newestFirst (e :: vs)) <;> simp [hk, eq_comm]
  · simp [versionsOf_sources, hk]

/-! ### The source taken alone -/

theorem newestSource_eq_some {srcs : List (MergeSrc n)} {s : MergeSrc n}
    (h : newestSource srcs = some s) : s ∈ srcs ∧ ∀ t ∈ srcs, t.prio ≤ s.prio := by
  induction srcs generalizing s with
  | nil => cases h
  | cons t srcs ih =>
    rw [newestSource] at h
    cases hn : newestSource srcs with
    | none =>
      rw [hn] at h
      obtain rfl := Option.some.inj h
      have hnil : srcs = [] := by
        obtain _ | ⟨u, srcs⟩ := srcs
        · rfl
        · rw [newestSource] at hn
          split at hn
          · cases hn
          · split at hn <;> cases hn
      simp [hnil]
    | some u =>
      obtain ⟨hu, hle⟩ := ih hn
      rw [hn] at h
      dsimp only at h
      split at h
      · rename_i hlt
        obtain rfl := Option.some.inj h
        exact ⟨List.mem_cons_of_mem _ hu, List.forall_mem_cons.mpr ⟨hlt.le, hle⟩⟩
      · rename_i hlt
        obtain rfl := Option.some.inj h
        have hut := le_of_not_gt hlt
        exact ⟨List.mem_cons_self, List.forall_mem_cons.mpr ⟨le_rfl, fun a ha =>
          (hle a ha).trans hut⟩⟩

theorem coveringNewestSource_eq_some {single : Bool} {srcs : List (MergeSrc n)} {s : MergeSrc n}
    (h : coveringNewestSource single srcs lo hi = some (some s)) :
    newestSource srcs = some s ∧ 2 ≤ srcs.length := by
  unfold coveringNewestSource at h
  split at h
  · rename_i l u t hn
    split at h
    · cases h
    · rename_i hlen
      split at h
      · cases h
      · split at h
        · cases h
        · simp only [Option.bind_eq_bind, Option.bind_eq_some_iff, Option.pure_def] at h
          obtain ⟨_, -, _, -, _, -, _, -, h⟩ := h
          split at h
          · cases h
          · cases h
            exact ⟨hn, by omega⟩
  · cases h

/-- Below the newest source are the versions of the others. -/
theorem newestFirst_split {srcs : List (MergeSrc n)} {s : MergeSrc n} (h : Ready rev srcs)
    (hs : s ∈ srcs) (hmax : ∀ t ∈ srcs, t.prio ≤ s.prio) (k : Bytes) :
    newestFirst (versionsOf srcs k) = (getEntry k s.rows).toList ++
      newestFirst (versionsOf (srcs.filter (·.prio ≠ s.prio)) k) := by
  set rest := srcs.filter (·.prio ≠ s.prio) with hrest
  have hperm : (s :: rest).Perm srcs := by
    obtain ⟨as, bs, rfl⟩ := List.append_of_mem hs
    have hne : ∀ t ∈ as ++ bs, t.prio ≠ s.prio := by
      have hnd := h.distinct
      rw [List.map_append, List.map_cons, List.nodup_middle, List.nodup_cons, ← List.map_append] at hnd
      exact fun t ht he => hnd.1 (List.mem_map.mpr ⟨t, ht, he⟩)
    have hkeep : rest = as ++ bs := by
      rw [hrest, List.filter_append, List.filter_cons_of_neg (by simp), ← List.filter_append]
      exact List.filter_eq_self.mpr fun t ht => by simpa using hne t ht
    rw [hkeep]
    exact List.perm_middle.symm
  have hsplit : versionsOf (s :: rest) k =
      ((getEntry k s.rows).toList.map (s.prio, ·)) ++ versionsOf rest k := by
    rw [versionsOf, List.filterMap_cons]
    cases getEntry k s.rows <;> rfl
  set sorted := (versionsOf rest k).insertionSort fun a b => b.1 ≤ a.1 with hsorted
  have hsub : ∀ e ∈ sorted, e.1 ≤ s.prio := by
    intro e he
    obtain ⟨t, ht, hp, -⟩ := mem_versionsOf.mp ((List.perm_insertionSort _ _).subset he)
    exact hp ▸ hmax t (List.mem_filter.mp ht).1
  set ws := (getEntry k s.rows).toList.map (s.prio, ·) ++ sorted with hws
  have hnewest : newestFirst (versionsOf srcs k) = ws.map Prod.snd :=
    newestFirst_eq ?_ ?_ (h.nodup k)
  · rw [hnewest, hws, List.map_append, List.map_map]
    congr 1
    exact List.map_id _
  · refine List.Perm.trans ?_ (hperm.filterMap fun s => (getEntry k s.rows).map (s.prio, ·))
    rw [← versionsOf, hsplit]
    exact (List.perm_insertionSort _ _).append_left _
  · rw [List.pairwise_append]
    refine ⟨?_, List.pairwise_insertionSort _ _, fun a ha b hb => ?_⟩
    · cases getEntry k s.rows <;> simp
    · obtain ⟨r, -, rfl⟩ := List.mem_map.mp ha
      exact hsub b hb

theorem mem_liveRows_getEntry {rows : List (Bytes × Row n)} {cells : Cells n}
    (h : rows.Pairwise fun a b => Before rev a.1 b.1) :
    (k, cells) ∈ liveRows rows ↔ getEntry k rows = some (.put cells) := by
  rw [mem_liveRows, getEntry_eq_some_of_ne (keys_of_ordered h)]

/-- A newest source yields the merge of all sources exactly if it covers the others. -/
theorem yields_newest_iff {v : View n} {s : MergeSrc m.width}
    (hs : newestSource (v.sources m rev lo hi) = some s) :
    Yields rev lo hi (v.seen m) s.rows ↔ Covers (v.sources m rev lo hi) s := by
  have hready := ready_sources v m rev lo hi
  obtain ⟨hmem, hmax⟩ := newestSource_eq_some hs
  have hord := hready.ordered s hmem
  have hcontent : ∀ k, contentOf (newestFirst (versionsOf (v.sources m rev lo hi) k)) =
      match getEntry k s.rows with
      | none => contentOf (newestFirst
          (versionsOf ((v.sources m rev lo hi).filter (·.prio ≠ s.prio)) k))
      | some r => r.act (contentOf (newestFirst
          (versionsOf ((v.sources m rev lo hi).filter (·.prio ≠ s.prio)) k))) := by
    intro k
    rw [newestFirst_split hready hmem hmax]
    cases getEntry k s.rows <;> rfl
  have hwindow : ∀ k cells, contentOf (newestFirst (versionsOf (v.sources m rev lo hi) k)) =
      some cells ↔ InWindow lo hi k ∧ v.seen m k = some cells := by
    intro k cells
    by_cases hk : InWindow lo hi k
    · rw [contentOf_sources m v rev hk]
      simp [hk]
    · simp [versionsOf_sources, hk, contentOf]
  constructor
  · intro h k cells hcells
    have hboth := fun own => (mem_liveRows_getEntry hord).symm.trans
      ((h.mem k own).trans (hwindow k own).symm)
    rw [hcontent k, hcells] at hboth
    cases hget : getEntry k s.rows with
    | none =>
      rw [hget] at hboth
      exact absurd ((hboth cells).mpr rfl) (by simp)
    | some r =>
      refine ⟨r, rfl, ?_⟩
      rintro own rfl c hc
      rw [hget] at hboth
      have hfill : fillEmptyCells own cells = own := Option.some.inj ((hboth own).mp rfl)
      have := congrFun hfill c
      rwa [fillEmptyCells, if_pos hc, hc] at this
  · intro hcov
    refine ⟨ordered_liveRows hord, fun k own => ?_⟩
    rw [mem_liveRows_getEntry hord, ← hwindow, hcontent k]
    cases hrest : contentOf (newestFirst
        (versionsOf ((v.sources m rev lo hi).filter (·.prio ≠ s.prio)) k)) with
    | none =>
      rcases getEntry k s.rows with _ | _ | _ <;> simp [Row.act]
    | some cells =>
      obtain ⟨r, hget, hcells⟩ := hcov k cells hrest
      rw [hget]
      cases r with
      | del => simp [Row.act]
      | put own' =>
        have hfill : fillEmptyCells own' cells = own' := by
          ext1 c
          unfold fillEmptyCells
          split
          · rename_i hc
            rw [hcells own' rfl c hc, hc]
          · rfl
        simp [Row.act, hfill]

/-! ### The walk -/

theorem merged_walkSources {single : Bool} {srcs : List (MergeSrc n)} (h : Ready rev srcs)
    (hcov : rev = true ∨ coveringNewestSource single srcs lo hi = some none) :
    ∃ out, walkSources single rev lo hi srcs = some out ∧ Merged rev (versionsOf srcs) out := by
  obtain _ | ⟨s, _ | ⟨t, srcs⟩⟩ := srcs
  · exact ⟨[], rfl, merged_nil⟩
  · exact ⟨s.rows, rfl, merged_singleton h⟩
  · have hchoice : (if rev then some none
        else coveringNewestSource single (s :: t :: srcs) lo hi) = some none := by
      rcases hcov with rfl | hcov
      · rfl
      · rw [hcov, ite_self]
    simp only [walkSources, hchoice]
    cases hd : sortDisjointSources rev (s :: t :: srcs) with
    | some sorted => exact ⟨_, rfl, merged_sortDisjointSources h hd⟩
    | none => exact ⟨_, rfl, merged_walkHeap h⟩

theorem coveringNewestSource_short {single : Bool} {srcs : List (MergeSrc n)}
    (h : srcs.length < 2) : coveringNewestSource single srcs lo hi = some none := by
  unfold coveringNewestSource
  split
  · rw [if_pos (.inl h)]
  · rfl

theorem walkSources_covering {single : Bool} {srcs : List (MergeSrc n)}
    (h : coveringNewestSource single srcs lo hi ≠ some none) :
    walkSources single false lo hi srcs =
      (coveringNewestSource single srcs lo hi).bind fun s => s.map MergeSrc.rows := by
  obtain _ | ⟨s, _ | ⟨t, srcs⟩⟩ := srcs
  · exact absurd (coveringNewestSource_short (by simp)) h
  · exact absurd (coveringNewestSource_short (by simp)) h
  · unfold walkSources
    dsimp only
    rw [if_neg (by simp)]
    cases hc : coveringNewestSource single (s :: t :: srcs) lo hi with
    | none => rfl
    | some chosen =>
      cases chosen with
      | none => exact absurd hc h
      | some u => rfl

/-! ### The granules from the end -/

/-- The source of the keys of a part, from the end. -/
def Part.source (p : Part n) : MergeSrc (Mode.keys : Mode n).width :=
  ⟨.part p.seq, p.pks, (p.rows.entries.map fun e => (e.1, e.2.project .keys)).reverse⟩

theorem makeSource_keys {p : Part n} (h : p.rows.entries ≠ []) :
    makeSource .keys true none none (.part p.seq) p.rows.entries = some p.source := by
  have hall : sliceRange none none p.rows.entries = p.rows.entries := by
    rw [sliceRange_eq p.rows.ascending]
    exact List.filter_eq_self.mpr fun e _ =>
      decide_eq_true ⟨fun _ h => (nomatch h), fun _ h => (nomatch h)⟩
  unfold makeSource
  rw [hall]
  exact if_neg (by simpa using h)

theorem sources_keys {v : View n} (hc : v.cleared = false) (ho : v.overlay = none)
    (hm : v.mem.entries = []) (hne : ∀ p ∈ v.parts, p.rows.entries ≠ []) :
    v.sources .keys true none none = v.parts.map Part.source := by
  unfold View.sources View.ownRows
  rw [hc, ho, hm]
  have hparts : (v.parts.filter fun p => p.inRange none none) = v.parts :=
    List.filter_eq_self.mpr fun p _ => rfl
  rw [hparts, ← List.filterMap_eq_map]
  have hsource : v.parts.filterMap (fun p =>
      makeSource .keys true none none (.part p.seq) p.rows.entries) =
      v.parts.filterMap (some ∘ Part.source) :=
    List.filterMap_congr fun p hp => makeSource_keys (hne p hp)
  rw [hsource]
  exact (List.append_nil _).trans (List.append_nil _)

theorem isChain_of_zip {α : Type} {R : α → α → Bool} {L : List α}
    (h : (L.zip L.tail).all (fun e => R e.1 e.2) = true) : L.IsChain fun a b => R a b = true := by
  induction L with
  | nil => exact List.IsChain.nil
  | cons a L ih =>
    obtain _ | ⟨b, L⟩ := L
    · exact List.IsChain.singleton a
    · rw [List.tail_cons, List.zip_cons_cons, List.all_cons, Bool.and_eq_true] at h
      exact List.isChain_cons_cons.mpr ⟨h.1, ih h.2⟩

theorem merged_walkPksDescGranules {parts : List (Part n)} {rows : List (Bytes × Row n)}
    (hready : Ready true (parts.map Part.source)) (h : walkPksDescGranules parts = some rows) :
    Merged true (versionsOf (parts.map Part.source))
      (rows.map fun e => (e.1, e.2.project (.keys : Mode n))) := by
  unfold walkPksDescGranules at h
  dsimp only at h
  split at h
  · cases h
  · split at h
    · rename_i hzip
      obtain rfl := Option.some.inj h
      set sorted := parts.insertionSort fun p q => p.pkMin ≤ q.pkMin with hsorted
      have hperm : (sorted.reverse.map Part.source).Perm (parts.map Part.source) :=
        ((List.reverse_perm _).trans (List.perm_insertionSort _ _)).map _
      have hrows : ((sorted.reverse.flatMap fun p => p.rows.entries.reverse).map fun e =>
          (e.1, e.2.project (.keys : Mode n))) =
          (sorted.reverse.map Part.source).flatMap MergeSrc.rows := by
        rw [List.map_flatMap, List.flatMap_map]
        exact List.flatMap_congr fun p _ => List.map_reverse
      rw [hrows]
      refine merged_flatMap hperm hready ?_
      rw [List.flatMap]
      refine pairwise_flatten ?_ ?_ ?_
      · rintro l hl
        obtain ⟨s, hs, rfl⟩ := List.mem_map.mp hl
        exact hready.nonempty s (hperm.subset hs)
      · rintro l hl
        obtain ⟨s, hs, rfl⟩ := List.mem_map.mp hl
        exact hready.ordered s (hperm.subset hs)
      · rw [List.isChain_map, List.isChain_map, List.isChain_reverse]
        refine List.IsChain.imp ?_ (isChain_of_zip (R := fun p q => p.pkMax < q.pkMin) hzip)
        intro p q hpq
        simpa [Before, Part.source, Part.pkMax, Part.pkMin, Part.pks, List.getLastD_eq_getLast?,
          List.headD_eq_head?_getD, Function.comp_def] using hpq
    · cases h

/-! ### The whole walk -/

theorem walkSources_right_iff {v : View n} (hv : ∀ k, Grounded (newestFirst (v.versions k))) :
    (∃ out, walkSources m.single rev lo hi (v.sources m rev lo hi) = some out ∧
        Yields rev lo hi (v.seen m) out) ↔
      rev = true ∨ CoverSafe m.single (v.sources m rev lo hi) lo hi := by
  have hready := ready_sources v m rev lo hi
  by_cases hplain : rev = true ∨
      coveringNewestSource m.single (v.sources m rev lo hi) lo hi = some none
  · obtain ⟨out, hout, hmerged⟩ := merged_walkSources hready hplain
    exact iff_of_true ⟨out, hout, hmerged.yields hv⟩
      (hplain.imp_right fun h => ⟨none, h, fun _ he => nomatch he⟩)
  · obtain ⟨hrev, hcov⟩ := not_or.mp hplain
    obtain rfl := Bool.eq_false_iff.mpr hrev
    rw [walkSources_covering hcov, or_iff_right (by simp)]
    unfold CoverSafe
    cases hc : coveringNewestSource m.single (v.sources m false lo hi) lo hi with
    | none => simp
    | some chosen =>
      cases chosen with
      | none => exact absurd hc hcov
      | some s => simp [yields_newest_iff (coveringNewestSource_eq_some hc).1]

theorem sources_eq_nil {v : View n} (h : ∀ k, ¬ InWindow lo hi k) :
    v.sources m rev lo hi = [] := by
  refine List.eq_nil_iff_forall_not_mem.mpr fun s hs => ?_
  have hready := ready_sources v m rev lo hi
  obtain ⟨⟨k, r⟩, rows, hrows⟩ := List.exists_cons_of_ne_nil (hready.nonempty s hs)
  have hget : getEntry k s.rows = some r :=
    (getEntry_eq_some_of_ne (keys_of_ordered (hready.ordered s hs))).mpr (hrows ▸ List.mem_cons_self)
  have hmem := mem_versionsOf.mpr ⟨s, hs, rfl, hget⟩
  rw [versionsOf_sources, if_neg (h k)] at hmem
  cases hmem

/-- The part of one key with these cells. -/
def partOf (seq : ℕ) (key : Bytes) (cells : Cells n) : Part n :=
  ⟨seq, [(key, .put cells)], List.pairwise_singleton _ _⟩

/-- The key of ten bytes with this last byte. -/
def tenBytes (b : UInt8) : Bytes := [0, 0, 0, 0, 0, 0, 0, 0, 0, b]

/-- A full row in a part, and a partial one in a newer part. -/
def updatedView : View 1 where
  parts := [partOf 1 (tenBytes 0) fun _ => [1], partOf 2 (tenBytes 0) fun _ => []]
  distinct := by decide
  mem := .empty
  overlay := none
  cleared := false

theorem grounded_updatedView (k : Bytes) : Grounded (newestFirst (updatedView.versions k)) := by
  have hput : ∀ r ∈ newestFirst (updatedView.versions k), r ≠ .del := by
    rintro r hr rfl
    obtain ⟨⟨p, r⟩, he, rfl⟩ := List.mem_map.mp hr
    have hmem := (List.perm_insertionSort _ _).subset he
    rw [View.versions] at hmem
    by_cases hk : tenBytes 0 = k <;>
      simp [updatedView, partOf, View.ownRows, SortedMap.get, SortedMap.getEntry_cons,
        SortedMap.empty, hk] at hmem
  unfold Grounded
  rw [List.isChain_iff_forall_rel_of_append_cons_cons]
  rintro a b as bs he cells - -
  exact hput b (by simp [he])

end Ydbgo.Mpart
