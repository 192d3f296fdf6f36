import Ydbgo.Mpart.Stacked

/-! # The layers of a table

The parts of a table in the order of their numbers are its layers. A part with a
new number is the last layer, and the parts of a merge are the first ones if no
part was published before their numbers were reserved.
-/

namespace Ydbgo.Mpart

open SortedMap (getEntry)

variable {n : ℕ}

/-! ### What a view shows -/

section View

variable {vs : List (Prio × Row n)} {k : Bytes}

theorem newestFirst_of_ascending (h : vs.Pairwise fun a b => a.1 < b.1) :
    newestFirst vs = (vs.map Prod.snd).reverse := by
  have hord : vs.reverse.Pairwise fun a b => b.1 ≤ a.1 :=
    List.pairwise_reverse.mpr (h.imp fun hlt => hlt.le)
  have hnd : (vs.map Prod.fst).Nodup := List.pairwise_map.mpr (h.imp fun hlt => hlt.ne)
  rw [newestFirst_eq (List.reverse_perm vs) hord hnd, List.map_reverse]

theorem part_lt_part {a b : ℕ} (h : a < b) : Prio.part a < Prio.part b := by
  change toLex (0, a) < toLex (0, b)
  simp [Prod.Lex.toLex_lt_toLex, h]

theorem part_lt_mem (a : ℕ) : Prio.part a < Prio.mem := by
  change toLex (0, a) < toLex (1, 0)
  simp [Prod.Lex.toLex_lt_toLex]

theorem part_lt_overlay (a : ℕ) : Prio.part a < Prio.overlay := by
  change toLex (0, a) < toLex (2, 0)
  simp [Prod.Lex.toLex_lt_toLex]

/-- The rows of a transaction over those of the table, unless it has cleared the table. -/
def rowsSeen (parts : SortedMap ℕ (PartRows n)) (mem : PartRows n) (x : MpartTx n) (k : Bytes) :
    List (Row n) :=
  (x.row k).toList ++ if x.cleared then [] else rowsAt (layersOf parts) mem.get k

theorem newestFirst_versions (v : View n) {parts : SortedMap ℕ (PartRows n)}
    (hparts : v.parts = partList parts) (k : Bytes) :
    newestFirst (v.versions k) = (v.ownRows.get k).toList ++
      if v.cleared then [] else rowsAt (layersOf parts) v.mem.get k := by
  have hpart (r : Prio × Row n)
      (hr : r ∈ (partList parts).filterMap fun p => (p.rows.get k).map (.part p.seq, ·)) :
      ∃ a, r.1 = .part a := by
    obtain ⟨p, -, hp⟩ := List.mem_filterMap.mp hr
    obtain ⟨r', -, rfl⟩ := Option.map_eq_some_iff.mp hp
    exact ⟨p.seq, rfl⟩
  have hmem (r : Prio × Row n) (hr : r ∈ ((v.mem.get k).map (.mem, ·)).toList) : r.1 = .mem := by
    obtain ⟨r', -, rfl⟩ := Option.map_eq_some_iff.mp (Option.mem_toList.mp hr)
    rfl
  have hown (r : Prio × Row n) (hr : r ∈ ((v.ownRows.get k).map (.overlay, ·)).toList) :
      r.1 = .overlay := by
    obtain ⟨r', -, rfl⟩ := Option.map_eq_some_iff.mp (Option.mem_toList.mp hr)
    rfl
  have hlayers : ((partList parts).filterMap fun p => (p.rows.get k).map (Prio.part p.seq, ·)).map
      Prod.snd = (layersOf parts).filterMap (· k) := by
    rw [partList, layersOf, List.filterMap_map, List.filterMap_map, List.map_filterMap]
    refine List.filterMap_congr fun e _ => ?_
    cases h : e.2.get k <;> simp [h]
  have hascending : ((partList parts).filterMap fun p =>
      (p.rows.get k).map (Prio.part p.seq, ·)).Pairwise fun a b => a.1 < b.1 := by
    refine List.Pairwise.filterMap _ ?_
      (List.pairwise_map.mpr (parts.ascending.imp fun h => part_lt_part h) :
        (partList parts).Pairwise fun p q => Prio.part p.seq < Prio.part q.seq)
    intro p q hlt a ha b hb
    obtain ⟨r, -, rfl⟩ := Option.map_eq_some_iff.mp ha
    obtain ⟨r', -, rfl⟩ := Option.map_eq_some_iff.mp hb
    exact hlt
  have hmemOwn (a : Prio × Row n) (ha : a ∈ ((v.mem.get k).map (Prio.mem, ·)).toList) (b : Prio × Row n)
      (hb : b ∈ ((v.ownRows.get k).map (Prio.overlay, ·)).toList) : a.1 < b.1 := by
    rw [hmem a ha, hown b hb]
    decide
  unfold View.versions
  cases v.cleared with
  | true =>
    rw [if_pos rfl, if_pos rfl, List.nil_append, List.append_nil]
    cases v.ownRows.get k <;> rfl
  | false =>
    rw [if_neg Bool.false_ne_true, if_neg Bool.false_ne_true, hparts, newestFirst_of_ascending,
      List.map_append, List.map_append, List.reverse_append, List.reverse_append, hlayers, rowsAt,
      List.filterMap_reverse]
    · cases v.ownRows.get k <;> cases v.mem.get k <;> rfl
    · refine List.pairwise_append.mpr ⟨List.pairwise_append.mpr ⟨hascending, ?_, ?_⟩, ?_, ?_⟩
      · cases v.mem.get k <;> simp
      · intro a ha b hb
        obtain ⟨s, hs⟩ := hpart a ha
        rw [hs, hmem b hb]
        exact part_lt_mem s
      · cases v.ownRows.get k <;> simp
      · intro a ha b hb
        rcases List.mem_append.mp ha with ha | ha
        · obtain ⟨s, hs⟩ := hpart a ha
          rw [hs, hown b hb]
          exact part_lt_overlay s
        · exact hmemOwn a ha b hb

theorem newestFirst_view (t : Table n) (x : MpartTx n) (k : Bytes) :
    newestFirst ((t.view x).versions k) =
      rowsSeen t.parts (t.memRows.map StampedRow.row) x k := by
  have hown : (t.view x).ownRows.get k = x.row k := by
    unfold View.ownRows Table.view MpartTx.row
    cases x.overlay <;> rfl
  rw [newestFirst_versions (t.view x) rfl, hown]
  rfl

end View

/-! ### Parts with new numbers -/

section Parts

variable {parts : SortedMap ℕ (PartRows n)} {id : ℕ} {rows : PartRows n}

theorem layersOf_insert (h : ∀ e ∈ parts.entries, e.1 < id) :
    layersOf (parts.insert id rows) = layersOf parts ++ [rows.get] := by
  have hinsert := @SortedMap.insertEntry_between _ _ _ _ rows _ [] h (fun _ he => by cases he)
  rw [List.append_nil] at hinsert
  have hentries : (parts.insert id rows).entries = parts.entries ++ [(id, rows)] := hinsert
  rw [layersOf, hentries, List.map_append]
  rfl

variable {lim : Limits} {m : Merge n} {start : ℕ}

def chunkLayers (lim : Limits) (rows : PartRows n) : List (Layer n) :=
  (List.range (nchunks lim rows)).map fun i => (chunk lim rows i).get

/-- The parts that are not merged. -/
def keptParts (m : Merge n) (parts : SortedMap ℕ (PartRows n)) : SortedMap ℕ (PartRows n) :=
  parts.filter fun seq _ => (m.oldParts.get seq).isNone

/-- The parts of a merge come before the others if their numbers were reserved first. -/
theorem entries_replaceParts
    (h : ∀ e ∈ (keptParts m parts).entries, start + nchunks lim rows ≤ e.1) :
    (replaceParts lim m start rows parts).entries =
      (List.range (nchunks lim rows)).map (fun i => (start + i, chunk lim rows i)) ++
        (keptParts m parts).entries := by
  have hfold (c : ℕ) (hc : ∀ e ∈ (keptParts m parts).entries, start + c ≤ e.1) :
      ((List.range c).foldl (fun ps i => SortedMap.insert ps (start + i) (chunk lim rows i))
        (keptParts m parts)).entries =
      (List.range c).map (fun i => (start + i, chunk lim rows i)) ++ (keptParts m parts).entries := by
    induction c with
    | zero => rfl
    | succ c ih =>
      rw [List.range_succ, List.foldl_append, List.map_append]
      change SortedMap.insertEntry _ _ _ = _
      rw [ih fun e he => Nat.le_of_succ_le (hc e he), SortedMap.insertEntry_between, List.append_assoc]
      · rfl
      · intro e he
        obtain ⟨i, hi, rfl⟩ := List.mem_map.mp he
        exact Nat.add_lt_add_left (List.mem_range.mp hi) start
      · exact fun e he => Nat.lt_of_succ_le (hc e he)
  exact hfold _ h

theorem layersOf_replaceParts
    (h : ∀ e ∈ (keptParts m parts).entries, start + nchunks lim rows ≤ e.1) :
    layersOf (replaceParts lim m start rows parts) =
      chunkLayers lim rows ++ layersOf (keptParts m parts) := by
  rw [layersOf, entries_replaceParts h, List.map_append, List.map_map]
  rfl

theorem keptParts_insert (hid : (m.oldParts.get id).isNone) :
    keptParts m (parts.insert id rows) = (keptParts m parts).insert id rows := by
  refine SortedMap.ext_get fun k => ?_
  simp only [keptParts, SortedMap.get_filter, SortedMap.get_insert]
  by_cases hk : id = k
  · subst hk
    simp [hid]
  · rw [if_neg hk, if_neg hk]

end Parts

/-! ### The parts of a merge -/

section Merge

variable {lim : Limits} {m : Merge n} {rows : PartRows n} {X : Content n} {k : Bytes}

theorem flatten_chunks (c : ℕ) : ((List.range c).map fun i => (chunk lim rows i).entries).flatten =
    rows.entries.take (c * lim.mergeChunk) := by
  induction c with
  | zero => simp
  | succ c ih =>
    rw [List.range_succ, List.map_append, List.flatten_append, ih, Nat.succ_mul, List.take_add]
    simp [chunk]

theorem flatten_nchunks :
    ((List.range (nchunks lim rows)).map fun i => (chunk lim rows i).entries).flatten =
      rows.entries := by
  rw [flatten_chunks]
  apply List.take_of_length_le
  have hpos := lim.chunk_pos
  have hdiv := Nat.lt_div_mul_add hpos (a := rows.entries.length + lim.mergeChunk - 1)
  unfold nchunks
  omega

/-- In lists that make up one with distinct keys a key is found once. -/
theorem filterMap_getEntry {lists : List (List (Bytes × Row n))}
    (h : lists.flatten.Pairwise fun a b => a.1 ≠ b.1) :
    lists.filterMap (getEntry k) = (getEntry k lists.flatten).toList := by
  induction lists with
  | nil => rfl
  | cons l lists ih =>
    rw [List.flatten_cons] at h ⊢
    obtain ⟨-, hrest, hne⟩ := List.pairwise_append.mp h
    rw [SortedMap.getEntry_append, List.filterMap_cons, ih hrest]
    cases hl : getEntry k l with
    | none => rfl
    | some r =>
      have hnone : getEntry k lists.flatten = none := SortedMap.getEntry_eq_none.mpr fun v hv =>
        hne _ (SortedMap.mem_of_getEntry hl) _ hv rfl
      rw [hnone]
      rfl

theorem rowsAt_chunkLayers (lim : Limits) (rows : PartRows n) (k : Bytes) :
    rowsAt (chunkLayers lim rows) (fun _ => none) k = (rows.get k).toList := by
  have hne : (((List.range (nchunks lim rows)).map fun i => (chunk lim rows i).entries).flatten
      ).Pairwise fun a b => a.1 ≠ b.1 := by
    rw [flatten_nchunks]
    exact rows.ascending.imp fun h => h.ne
  have hfound := filterMap_getEntry (k := k) hne
  rw [flatten_nchunks, List.filterMap_map] at hfound
  have hlayers : (chunkLayers lim rows).filterMap (· k) = (rows.get k).toList := by
    rw [chunkLayers, List.filterMap_map]
    exact hfound
  rw [rowsAt, List.filterMap_reverse, hlayers]
  cases rows.get k <;> rfl

/-- What a merge has read, in order. -/
theorem Merge.walk_right
    (hX : ∀ k, contentOf (rowsAt (layersOf m.oldParts) (m.memRows.map StampedRow.row).get k) = X k)
    (hgrounded : ∀ k, Grounded (rowsAt (layersOf m.oldParts) (m.memRows.map StampedRow.row).get k)) :
    ∃ out : List (Bytes × Row n), walkMergedLocked m.view .full false none none = some out ∧
      Ascending out ∧ ∀ k cells, (k, Row.put cells) ∈ out ↔ X k = some cells := by
  have hversions (k : Bytes) : newestFirst (m.view.versions k) =
      rowsAt (layersOf m.oldParts) (m.memRows.map StampedRow.row).get k :=
    newestFirst_versions m.view rfl k
  obtain ⟨out, hout, hmerged⟩ := @merged_walkSources _ _ none none false _
    (ready_sources m.view .full false none none) (.inr rfl)
  have hyields := hmerged.yields fun k => hversions k ▸ hgrounded k
  refine ⟨out, hout, hmerged.ordered, fun k cells => ?_⟩
  have hseen : m.view.seen .full k = X k := by
    rw [View.seen, View.content, hversions, hX]
    cases X k <;> rfl
  have hwindow : InWindow none none k := by
    constructor
    · rintro _ ⟨⟩
    · rintro _ ⟨⟩
  have hiff := mem_liveRows.symm.trans (hyields.mem k cells)
  rw [hseen, and_iff_right hwindow] at hiff
  exact hiff

/-- The rows of a merge are the live ones of what it has read. -/
theorem Merge.rows_right (hn : 0 < n)
    (hX : ∀ k, contentOf (rowsAt (layersOf m.oldParts) (m.memRows.map StampedRow.row).get k) = X k)
    (hgrounded : ∀ k, Grounded (rowsAt (layersOf m.oldParts) (m.memRows.map StampedRow.row).get k)) :
    ∃ rows, m.rows = some rows ∧ ∀ k, rows.get k = (X k).map Row.put := by
  obtain ⟨out, hout, hascending, hmem⟩ := m.walk_right hX hgrounded
  have hmerged : mergedRows out = out.filter fun e => e.2.isPut && decide (0 < n) := by
    have hfirst : firstOfRuns none out = out :=
      firstOfRuns_of_ascending hascending fun _ _ he => by cases he
    rw [mergedRows, hfirst]
  have hrows : Ascending (mergedRows out) := by
    rw [hmerged]
    exact hascending.filter _
  refine ⟨⟨mergedRows out, hrows⟩, ?_, fun k => ?_⟩
  · rw [Merge.rows, hout]
    exact dif_pos hrows
  · ext r
    rw [SortedMap.get_eq_some, Option.map_eq_some_iff]
    change (k, r) ∈ mergedRows out ↔ _
    rw [hmerged, List.mem_filter]
    constructor
    · rintro ⟨hr, hput⟩
      cases r with
      | put cells => exact ⟨cells, (hmem k cells).mp hr, rfl⟩
      | del => simp [Row.isPut] at hput
    · rintro ⟨cells, hcells, rfl⟩
      exact ⟨(hmem k cells).mpr hcells, by simp [Row.isPut, hn]⟩

end Merge

end Ydbgo.Mpart
