import Mathlib.Data.List.Nodup
import Ydbgo.Storage.Engine

/-! # Secondary indexes in step with the rows

An index is in step with the rows of its table if it lists, under each encoded
value, the keys of the rows with that value. Taking a row out of the indexes
and putting another one in keeps them in step.
-/

namespace Ydbgo.Storage

/-! ### Lists of keys -/

section SwapRemove

variable {pk key : Bytes} {pks : List Bytes}

theorem swapRemove_of_notMem (h : pk ∉ pks) : swapRemove pk pks = pks := by
  rw [swapRemove, List.idxOf?_eq_none_iff.mpr h]

/-- The last key takes the place of the one that goes. -/
theorem swapRemove_append {as bs : List Bytes} {last : Bytes} (h : pk ∉ as) :
    swapRemove pk (as ++ pk :: (bs ++ [last])) = as ++ last :: bs := by
  have hidx : (as ++ pk :: (bs ++ [last])).idxOf? pk = some as.length := by
    rw [List.idxOf?_eq_some_iff]
    refine ⟨by simp, by simp, fun j hj he => h ?_⟩
    rw [List.getElem_append_left hj] at he
    exact he ▸ List.getElem_mem hj
  have hlast : (as ++ pk :: (bs ++ [last])).getLast? = some last := by
    rw [← List.cons_append, ← List.append_assoc, List.getLast?_concat]
  have hset : (as ++ pk :: (bs ++ [last])).set as.length last =
      (as ++ last :: bs) ++ [last] := by
    simp
  rw [swapRemove, hidx, hlast]
  simp only [hset, List.dropLast_concat]

theorem swapRemove_concat {as : List Bytes} (h : pk ∉ as) : swapRemove pk (as ++ [pk]) = as := by
  have hidx : (as ++ [pk]).idxOf? pk = some as.length := by
    rw [List.idxOf?_eq_some_iff]
    refine ⟨by simp, by simp, fun j hj he => h ?_⟩
    rw [List.getElem_append_left hj] at he
    exact he ▸ List.getElem_mem hj
  rw [swapRemove, hidx, List.getLast?_concat]
  simp

theorem perm_swapRemove (pk : Bytes) (pks : List Bytes) :
    (swapRemove pk pks).Perm (pks.erase pk) := by
  by_cases h : pk ∈ pks
  · obtain ⟨as, bs, rfl, has⟩ := List.eq_append_cons_of_mem h
    rw [List.erase_append_right _ has, List.erase_cons_head]
    rcases List.eq_nil_or_concat bs with rfl | ⟨bs, last, rfl⟩
    · rw [swapRemove_concat has, List.append_nil]
    · rw [List.concat_eq_append, swapRemove_append has]
      exact List.Perm.append_left as (List.perm_append_singleton last bs).symm
  · rw [swapRemove_of_notMem h, List.erase_of_not_mem h]

theorem nodup_swapRemove (h : pks.Nodup) : (swapRemove pk pks).Nodup :=
  (perm_swapRemove pk pks).nodup_iff.mpr (h.erase pk)

theorem mem_swapRemove (h : pks.Nodup) : key ∈ swapRemove pk pks ↔ key ≠ pk ∧ key ∈ pks := by
  rw [(perm_swapRemove pk pks).mem_iff, h.mem_erase_iff]

end SwapRemove

/-! ### One index -/

/-- The value that a stored row is indexed under. -/
def Table.indexValOf (t : Table) (ix : Index) (cells : List Cell) : Option Bytes :=
  (t.decodeRow (some cells)).bind fun vals => indexValForCols vals t ix

/-- The change of one index by `updateIndexes`. -/
def Index.change (t : Table) (vals : Vals) (f : List Bytes → List Bytes) (ix : Index) : Index :=
  match indexValForCols vals t ix with
  | none => ix
  | some enc => ix.update enc f

theorem Index.cols_change (t : Table) (vals : Vals) (f : List Bytes → List Bytes) (ix : Index) :
    (ix.change t vals f).cols = ix.cols := by
  unfold Index.change
  split <;> rfl

theorem Index.entries_change (t : Table) (vals : Vals) (f : List Bytes → List Bytes) (ix : Index)
    (enc : Bytes) : (ix.change t vals f).entries enc =
      if indexValForCols vals t ix = some enc then f (ix.entries enc) else ix.entries enc := by
  unfold Index.change
  split
  · rename_i h
    rw [h, if_neg nofun]
  · rename_i enc' h
    simp only [Index.update, h, Option.some.injEq, eq_comm]

/-- The rows of a table as far as the indexes see them. -/
abbrev RowMap : Type := Bytes → Option (List Cell)

/-- The index lists the keys of the rows under their values. -/
structure Index.Lists (ix : Index) (t : Table) (rows : RowMap) : Prop where
  nodup : ∀ enc, (ix.entries enc).Nodup
  mem : ∀ enc key, key ∈ ix.entries enc ↔
    ∃ cells, rows key = some cells ∧ t.indexValOf ix cells = some enc

section Lists

variable {t : Table} {ix : Index} {rows : RowMap} {key : Bytes} {cells : List Cell} {vals : Vals}

theorem indexValOf_change (f : List Bytes → List Bytes) :
    t.indexValOf (ix.change t vals f) = t.indexValOf ix := by
  ext cells : 1
  unfold Table.indexValOf indexValForCols
  rw [Index.cols_change]

theorem lists_remove (h : ix.Lists t rows) (hkey : rows key = some cells)
    (hdec : t.decodeRow (some cells) = some vals) :
    (ix.change t vals (swapRemove key)).Lists t (Function.update rows key none) := by
  have hval : t.indexValOf ix cells = indexValForCols vals t ix := by
    rw [Table.indexValOf, hdec, Option.bind_some]
  constructor
  · intro enc
    rw [Index.entries_change]
    split
    · exact nodup_swapRemove (h.nodup enc)
    · exact h.nodup enc
  · intro enc k
    rw [Index.entries_change, indexValOf_change]
    by_cases hk : k = key
    · subst hk
      simp only [Function.update_self, reduceCtorEq, false_and, exists_false, iff_false]
      split
      · exact fun hm => ((mem_swapRemove (h.nodup enc)).mp hm).1 rfl
      · rename_i hne
        rw [h.mem]
        rintro ⟨cells', hrow, hv⟩
        rw [hkey] at hrow
        obtain rfl := Option.some.inj hrow
        exact hne (hval ▸ hv)
    · rw [Function.update_of_ne hk, ← h.mem]
      split
      · rw [mem_swapRemove (h.nodup enc)]
        exact and_iff_right hk
      · rfl

theorem lists_add (h : ix.Lists t rows) (hkey : rows key = none)
    (hval : t.indexValOf ix cells = indexValForCols vals t ix) :
    (ix.change t vals fun pks => pks ++ [key]).Lists t
      (Function.update rows key (some cells)) := by
  have hnot : ∀ enc, key ∉ ix.entries enc := fun enc hm => by
    obtain ⟨_, hrow, -⟩ := (h.mem enc key).mp hm
    rw [hkey] at hrow
    cases hrow
  constructor
  · intro enc
    rw [Index.entries_change]
    split
    · exact List.nodup_append.mpr ⟨h.nodup enc, List.nodup_singleton key,
        fun a ha b hb he => hnot enc (List.mem_singleton.mp hb ▸ he ▸ ha)⟩
    · exact h.nodup enc
  · intro enc k
    rw [Index.entries_change, indexValOf_change]
    by_cases hk : k = key
    · subst hk
      simp only [Function.update_self, Option.some.injEq, exists_eq_left', hval]
      split
      · rename_i he
        simp [he]
      · rename_i he
        exact iff_of_false (hnot enc) he
    · rw [Function.update_of_ne hk, ← h.mem]
      split
      · simp [hk]
      · rfl

/-- Indexes over the same rows list the same keys. -/
theorem Index.Lists.perm {ix' : Index} (h : ix.Lists t rows) (h' : ix'.Lists t rows)
    (hcols : ix'.cols = ix.cols) (enc : Bytes) : (ix.entries enc).Perm (ix'.entries enc) := by
  have hval : t.indexValOf ix' = t.indexValOf ix := by
    ext cells : 1
    unfold Table.indexValOf indexValForCols
    rw [hcols]
  rw [List.perm_ext_iff_of_nodup (h.nodup enc) (h'.nodup enc)]
  intro key
  rw [h.mem, h'.mem, hval]

end Lists

/-! ### The indexes of a table -/

/-- Every index is in step with the rows. -/
def InStep (t : Table) (ixs : SortedMap Bytes Index) (rows : RowMap) : Prop :=
  ∀ name ix, ixs.get name = some ix → ix.Lists t rows

section InStep

variable {t : Table} {ixs : SortedMap Bytes Index} {rows : RowMap} {key : Bytes}
  {cells : List Cell} {vals : Vals}

theorem updateIndexes_eq (f : List Bytes → List Bytes) :
    t.updateIndexes vals f ixs = ixs.map (Index.change t vals f) := rfl

theorem map_cols_updateIndexes (f : List Bytes → List Bytes) :
    (t.updateIndexes vals f ixs).map Index.cols = ixs.map Index.cols := by
  apply SortedMap.ext_get
  intro name
  rw [updateIndexes_eq, SortedMap.get_map, SortedMap.get_map, SortedMap.get_map, Option.map_map]
  cases ixs.get name with
  | none => rfl
  | some ix => exact congrArg some (Index.cols_change t vals f ix)

theorem inStep_change {rows' : RowMap} {f : List Bytes → List Bytes} (h : InStep t ixs rows)
    (hix : ∀ ix : Index, ix.Lists t rows → (ix.change t vals f).Lists t rows') :
    InStep t (t.updateIndexes vals f ixs) rows' := by
  intro name ix' hget
  rw [updateIndexes_eq, SortedMap.get_map] at hget
  obtain ⟨ix, hix', rfl⟩ := Option.map_eq_some_iff.mp hget
  exact hix ix (h name ix hix')

theorem inStep_removeRowIndexes (h : InStep t ixs rows) (hkey : rows key = some cells)
    (hdec : t.decodeRow (some cells) = some vals) :
    InStep t (removeRowIndexes t vals key ixs) (Function.update rows key none) :=
  inStep_change h fun _ hix => lists_remove hix hkey hdec

theorem inStep_addRowIndexes (h : InStep t ixs (Function.update rows key none))
    (hval : ∀ ix, t.indexValOf ix cells = indexValForCols vals t ix) :
    InStep t (addRowIndexes t vals key ixs) (Function.update rows key (some cells)) := by
  refine inStep_change h fun ix hix => ?_
  have hadd := lists_add hix (Function.update_self key none rows) (hval ix)
  rwa [Function.update_idem] at hadd

/-- The indexes that the table itself holds do not matter. -/
theorem inStep_withIndexes (ixs' : SortedMap Bytes Index) :
    InStep { t with indexes := ixs' } ixs rows ↔ InStep t ixs rows := by
  constructor
  · exact fun h name ix hget => ⟨(h name ix hget).nodup, (h name ix hget).mem⟩
  · exact fun h name ix hget => ⟨(h name ix hget).nodup, (h name ix hget).mem⟩

theorem inStep_of_isEmpty (h : ixs.entries.isEmpty = true) : InStep t ixs rows := by
  intro name ix hget
  have hmem := SortedMap.get_eq_some.mp hget
  rw [List.isEmpty_iff.mp h] at hmem
  cases hmem

end InStep

/-! ### Building an index -/

section Backfill

variable {t : Table} {ix : Index}

/-- The keys are added to an index for the rows that the scan meets. -/
theorem backfill_lists {es : List (Bytes × List Cell)} {rows : RowMap}
    (hne : es.Pairwise fun a b => a.1 ≠ b.1) (hrows : ∀ e ∈ es, rows e.1 = none)
    (hdec : ∀ e ∈ es, (t.decodeRow (some e.2)).isSome) (h : ix.Lists t rows) :
    ∃ ix', backfill t ix (es.map fun e => (e.1, some e.2)) = some ix' ∧ ix'.cols = ix.cols ∧
      ix'.Lists t fun key => (SortedMap.getEntry key es).or (rows key) := by
  induction es generalizing ix rows with
  | nil => exact ⟨ix, rfl, rfl, h⟩
  | cons e es ih =>
    obtain ⟨hdece, hdec⟩ := List.forall_mem_cons.mp hdec
    obtain ⟨hrowe, hrows⟩ := List.forall_mem_cons.mp hrows
    obtain ⟨hnee, hne⟩ := List.pairwise_cons.mp hne
    obtain ⟨vals, hvals⟩ := Option.isSome_iff_exists.mp hdece
    have hval : t.indexValOf ix e.2 = indexValForCols vals t ix := by
      rw [Table.indexValOf, hvals, Option.bind_some]
    have hadd := lists_add h hrowe hval
    obtain ⟨ix', hfill, hcols, hlists⟩ := ih hne
      (fun e' he' => by rw [Function.update_of_ne (hnee e' he').symm]; exact hrows e' he') hdec hadd
    refine ⟨ix', ?_, hcols.trans (Index.cols_change t vals _ ix), ?_⟩
    · rw [List.map_cons, backfill]
      simp only [hvals]
      rw [← hfill, Index.change]
      cases indexValForCols vals t ix <;> rfl
    · have hsame : (fun key => (SortedMap.getEntry key es).or
          (Function.update rows e.1 (some e.2) key)) =
          fun key => (SortedMap.getEntry key (e :: es)).or (rows key) := by
        ext key : 1
        rw [SortedMap.getEntry_cons]
        by_cases hk : e.1 = key
        · subst hk
          have hnone : SortedMap.getEntry e.1 es = none :=
            SortedMap.getEntry_eq_none.mpr fun v hv => hnee _ hv rfl
          rw [hnone, if_pos rfl, Function.update_self]
          rfl
        · rw [if_neg hk, Function.update_of_ne (Ne.symm hk)]
      rwa [hsame] at hlists

end Backfill

end Ydbgo.Storage
