import Mathlib.Data.List.Induction
import Ydbgo.Lib.Search
import Ydbgo.Mpart.PartRight
import Ydbgo.Storage.PkRange

/-! # What a part lets a reader skip

The bloom filter of a part, the index of the granule that can hold a key, and
the zones of the numeric columns of a granule. The filter and the index never
lose a key that was written.
-/

namespace Ydbgo.Mpart

open Storage (ColType SqlValue fromSQLValue)
open Sql (ColumnFilter)

def bloomBit (bits : List UInt64) (i : UInt64) : Bool :=
  bits.getD (i >>> 6).toNat 0 &&& 1 <<< (i &&& 63) != 0

/-- `mpartBloom.mayContain`. -/
def bloomMayContain (bits : List UInt64) (pk : Bytes) : Bool :=
  let h := bloomHashes bits.length pk
  bloomBit bits h.1 && bloomBit bits h.2

/-- The granule whose keys end at the key or behind it; `none` is -1. -/
def SealedPart.granuleFor (p : SealedPart) (pk : Bytes) : Option ℕ :=
  let i := search p.granules.length fun i =>
    decide (pk ≤ ((p.granules[i]?).map MpartGranule.pkMax).getD [])
  if i < p.granules.length then some i else none

/-- `<=` of floats. -/
def floatLe (x y : UInt64) : Bool :=
  !Sql.F64.isNaN x && !Sql.F64.isNaN y && decide (Sql.F64.rank x ≤ Sql.F64.rank y)

/-- Whether the zone of a granule admits the literal of a filter. -/
def SealedPart.granuleZoneHits (p : SealedPart) (g c : ℕ) (pred : ColumnFilter) (typ : ColType) :
    Bool :=
  match (p.granules[g]?).bind fun gr => gr.zones[c]? with
  | none => true
  | some (lo, hi) =>
    let lit := fromSQLValue pred.lit
    if lit.null then false
    else match typ with
      | .float => floatLe lo.toUInt64 lit.f && floatLe lit.f hi.toUInt64
      | .int | .timestamp => decide (lo ≤ lit.i ∧ lit.i ≤ hi)
      | _ => true

variable {lz : Lz4} {crc32 : Bytes → UInt32} {table : Bytes} {rows : List MemRow}

/-! ### The bloom filter -/

section Bloom

variable {bits : List UInt64} {i j : UInt64}

theorem one_shiftLeft_toBitVec (i : UInt64) :
    ((1 : UInt64) <<< (i &&& 63)).toBitVec = 1#64 <<< (i.toNat % 64) := by
  have hmod : i.toNat &&& 63 = i.toNat % 64 := Nat.and_two_pow_sub_one_eq_mod i.toNat 6
  apply BitVec.eq_of_toNat_eq
  simp [hmod]

theorem map_setBloomBit (bits : List UInt64) (i : UInt64) :
    (setBloomBit bits i).map UInt64.toBitVec = setBit (bits.map UInt64.toBitVec) i.toNat := by
  have hword : (i >>> 6).toNat = i.toNat / 64 := by
    simp [UInt64.toNat_shiftRight, Nat.shiftRight_eq_div_pow]
  apply List.ext_getElem?
  intro n
  simp only [setBloomBit, setBit, List.getElem?_map, List.getElem?_modify, hword]
  cases bits[n]? with
  | none => rfl
  | some x =>
    split
    · simp only [Option.map_some, Option.map_eq_map, UInt64.toBitVec_or, one_shiftLeft_toBitVec]
    · rfl

theorem bloomBit_eq (bits : List UInt64) (i : UInt64) :
    bloomBit bits i = testBit (bits.map UInt64.toBitVec) i.toNat := by
  have hword : (i >>> 6).toNat = i.toNat / 64 := by
    simp [UInt64.toNat_shiftRight, Nat.shiftRight_eq_div_pow]
  have hget : ((bits.map UInt64.toBitVec)[i.toNat / 64]?).getD 0 =
      (bits.getD (i.toNat / 64) 0).toBitVec := by
    rw [List.getElem?_map, List.getD_eq_getElem?_getD]
    cases bits[i.toNat / 64]? <;> rfl
  rw [bloomBit, testBit, hget, hword, ← one_shiftLeft_toBitVec, ← UInt64.toBitVec_and,
    Bool.eq_iff_iff, bne_iff_ne, bne_iff_ne, ne_eq, ne_eq, ← UInt64.toBitVec_inj]
  rfl

theorem bloomBit_setBloomBit (hi : i.toNat < bits.length * 64) (j : UInt64) :
    bloomBit (setBloomBit bits i) j = (bloomBit bits j || decide (j = i)) := by
  have hlen : i.toNat < (bits.map UInt64.toBitVec).length * 64 := by rwa [List.length_map]
  rw [bloomBit_eq, bloomBit_eq, map_setBloomBit, testBit_setBit hlen]
  simp only [UInt64.toNat_inj]

end Bloom

/-- The hashes are bits of the filter. -/
theorem bloomHashes_lt {words : ℕ} (hpos : 0 < words) (hwords : words * 64 < 2 ^ 64) (pk : Bytes) :
    (bloomHashes words pk).1.toNat < words * 64 ∧ (bloomHashes words pk).2.toNat < words * 64 := by
  have hm : (UInt64.ofNat (words * 64)).toNat = words * 64 := UInt64.toNat_ofNat_of_lt' hwords
  unfold bloomHashes
  constructor
  · dsimp only
    rw [UInt64.toNat_mod, hm]
    exact Nat.mod_lt _ (by omega)
  · dsimp only
    rw [UInt64.toNat_mod, hm]
    exact Nat.mod_lt _ (by omega)

theorem length_bloomAdd (bits : List UInt64) (pk : Bytes) :
    (bloomAdd bits pk).length = bits.length :=
  (length_setBloomBit _ _).trans (length_setBloomBit _ _)

theorem bloomMayContain_bloomAdd {bits : List UInt64} (hpos : 0 < bits.length)
    (hlen : bits.length * 64 < 2 ^ 64) (pk pk' : Bytes)
    (h : pk' = pk ∨ bloomMayContain bits pk' = true) :
    bloomMayContain (bloomAdd bits pk) pk' = true := by
  obtain ⟨h₁, h₂⟩ := bloomHashes_lt hpos hlen pk
  have h₂' : (bloomHashes bits.length pk).2.toNat <
      (setBloomBit bits (bloomHashes bits.length pk).1).length * 64 := by rwa [length_setBloomBit]
  unfold bloomMayContain at h ⊢
  rw [length_bloomAdd]
  simp only [bloomAdd, bloomBit_setBloomBit h₂', bloomBit_setBloomBit h₁]
  rcases h with rfl | h
  · simp
  · simp only [Bool.and_eq_true] at h
    simp [h.1, h.2]

/-- No key of the rows is rejected. Their number is that of the pointers in a slice. -/
theorem bloomMayContain_bloomOf (hlen : rows.length < 2 ^ 60) {r : MemRow} (hr : r ∈ rows) :
    bloomMayContain (bloomOf rows) r.pk = true := by
  have hfold : ∀ (rows : List MemRow) (bits : List UInt64), 0 < bits.length →
      bits.length * 64 < 2 ^ 64 → ∀ r : MemRow, r ∈ rows ∨ bloomMayContain bits r.pk = true →
      bloomMayContain (rows.foldl (fun bits r => bloomAdd bits r.pk) bits) r.pk = true := by
    intro rows
    induction rows with
    | nil => exact fun bits _ _ r h => h.resolve_left List.not_mem_nil
    | cons r' rows ih =>
      intro bits hpos hbits r h
      rw [List.foldl_cons]
      apply ih
      · rwa [length_bloomAdd]
      · rwa [length_bloomAdd]
      · rcases h with h | h
        · rcases List.mem_cons.mp h with rfl | h
          · exact .inr (bloomMayContain_bloomAdd hpos hbits _ _ (.inl rfl))
          · exact .inl h
        · exact .inr (bloomMayContain_bloomAdd hpos hbits _ _ (.inr h))
  apply hfold
  · rw [List.length_replicate]
    omega
  · rw [List.length_replicate]
    omega
  · exact .inl hr

theorem bloom_writePart : (writePart lz crc32 table rows).2.bloom = bloomOf rows := by
  unfold writePart
  split <;> rfl

/-! ### The sparse index -/

theorem pkMax_writePart {g : ℕ} {rows' : List MemRow}
    (hg : (granules mpartGranuleRows rows)[g]? = some rows') :
    ((writePart lz crc32 table rows).2.granules[g]?).map MpartGranule.pkMax =
      some ((rows'.getLast?.map MemRow.pk).getD []) := by
  have h : rows ≠ [] := by
    rintro rfl
    cases hg
  simp only [writePart, if_neg h, List.getElem?_mapIdx, hg, Option.map_some]

theorem length_granules_writePart' : (writePart lz crc32 table rows).2.granules.length =
    (granules mpartGranuleRows rows).length := by
  by_cases h : rows = []
  · subst h
    rfl
  · exact length_granules_writePart h

/-- Keys of an earlier granule are smaller. -/
theorem pk_lt_of_granules (hsort : rows.Pairwise fun r r' => r.pk < r'.pk) {g g' : ℕ}
    {rows' rows'' : List MemRow} (hg : (granules mpartGranuleRows rows)[g]? = some rows')
    (hg' : (granules mpartGranuleRows rows)[g']? = some rows'') (hlt : g < g') {r r' : MemRow}
    (hr : r ∈ rows') (hr' : r' ∈ rows'') : r.pk < r'.pk := by
  rw [← flatten_granules granuleRows_pos rows, List.pairwise_flatten] at hsort
  obtain ⟨hl, he⟩ := List.getElem?_eq_some_iff.mp hg
  obtain ⟨hl', he'⟩ := List.getElem?_eq_some_iff.mp hg'
  have hpair := List.pairwise_iff_getElem.mp hsort.2 g g' hl hl' hlt
  rw [he, he'] at hpair
  exact hpair r hr r' hr'

theorem pk_le_getLast (hsort : rows.Pairwise fun r r' => r.pk < r'.pk) {r : MemRow}
    (hr : r ∈ rows) : r.pk ≤ (rows.getLast?.map MemRow.pk).getD [] := by
  induction rows using List.reverseRecOn with
  | nil => cases hr
  | append_singleton rows last _ =>
    rw [List.getLast?_concat]
    rcases List.mem_append.mp hr with hr | hr
    · exact le_of_lt ((List.pairwise_append.mp hsort).2.2 r hr last List.mem_cons_self)
    · rw [List.mem_singleton.mp hr]
      exact le_refl last.pk

/-- A key is looked for in the granule that it was written to. -/
theorem granuleFor_writePart (hsort : rows.Pairwise fun r r' => r.pk < r'.pk) {g : ℕ}
    {rows' : List MemRow} (hg : (granules mpartGranuleRows rows)[g]? = some rows') {r : MemRow}
    (hr : r ∈ rows') : (writePart lz crc32 table rows).2.granuleFor r.pk = some g := by
  have hlt := (List.getElem?_eq_some_iff.mp hg).1
  have hget (i : ℕ) (hi : i < (granules mpartGranuleRows rows).length) :
      ∃ rows'' : List MemRow, (granules mpartGranuleRows rows)[i]? = some rows'' ∧
        (((writePart lz crc32 table rows).2.granules[i]?).map MpartGranule.pkMax).getD [] =
          (rows''.getLast?.map MemRow.pk).getD [] := by
    have hi' := List.getElem?_eq_getElem hi
    exact ⟨_, hi', by rw [pkMax_writePart hi', Option.getD_some]⟩
  have hlast (i : ℕ) {rows'' : List MemRow}
      (hi : (granules mpartGranuleRows rows)[i]? = some rows'') :
      ∃ last ∈ rows'', (rows''.getLast?.map MemRow.pk).getD [] = last.pk := by
    have hne := ne_nil_of_mem_granules granuleRows_pos (List.mem_of_getElem? hi)
    have hget := List.getLast?_eq_some_getLast hne
    exact ⟨_, List.mem_of_getLast? hget, by rw [hget]; rfl⟩
  have hsearch : search (writePart lz crc32 table rows).2.granules.length (fun i => decide (r.pk ≤
      (((writePart lz crc32 table rows).2.granules[i]?).map MpartGranule.pkMax).getD [])) = g := by
    rw [length_granules_writePart']
    apply search_eq (le_of_lt hlt)
    · rintro i hi
      obtain ⟨rows'', hi', hmax⟩ := hget i (lt_trans hi hlt)
      obtain ⟨last, hmem, hpk⟩ := hlast i hi'
      rw [hmax, hpk, decide_eq_false_iff_not, not_le]
      exact pk_lt_of_granules hsort hi' hg hi hmem hr
    · rintro i hi hn
      obtain ⟨rows'', hi', hmax⟩ := hget i hn
      rw [hmax, decide_eq_true_iff]
      rcases Nat.eq_or_lt_of_le hi with rfl | hlt'
      · obtain rfl := Option.some.inj (hg.symm.trans hi')
        have hsub : rows'.Sublist rows :=
          getElem?_granules hg ▸ (List.take_sublist _ _).trans (List.drop_sublist _ _)
        have hpair : rows'.Pairwise fun r r' => r.pk < r'.pk := hsort.sublist hsub
        exact pk_le_getLast hpair hr
      · obtain ⟨last, hmem, hpk⟩ := hlast i hi'
        rw [hpk]
        exact le_of_lt (pk_lt_of_granules hsort hg hi' hlt' hr hmem)
  unfold SealedPart.granuleFor
  dsimp only
  rw [hsearch, if_pos (by rwa [length_granules_writePart'])]

end Ydbgo.Mpart
