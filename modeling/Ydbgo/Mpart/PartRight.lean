import Ydbgo.Mpart.PartReads

/-! # Parts are read as they were written

A part gives back the rows that went into it, right after the write and after it
was opened again. The exceptions are a part without rows, which has no index and
cannot be opened, a block that was compressed to exactly its own length and is
taken for one that was stored, and numbers whose cells are not in the form that
the writer of rows gives them.
-/

namespace Ydbgo.Mpart

open Storage

variable {lz : Lz4} {crc32 : Bytes → UInt32} {table : Bytes} {rows : List MemRow}

/-! ### The blocks of a written part -/

theorem encodeFrames_ne_nil {blobs : List Bytes} (h : blobs ≠ []) : encodeFrames blobs ≠ [] := by
  intro he
  have hle := length_le_encodeFrames blobs
  rw [he, List.length_nil] at hle
  exact h (List.length_eq_zero_iff.mp (by omega))

theorem columnBlock_ne_nil (dense : Option ColType) (c : ℕ) (h : rows ≠ []) :
    columnBlock dense c rows ≠ [] := by
  cases dense with
  | none => exact encodeFrames_ne_nil (by simpa using h)
  | some t =>
    have hpos := length_putUvarint_pos (.ofNat (rows.map fun r => r.cell c).length)
    intro he
    have hlen := congrArg List.length he
    simp only [columnBlock, encodeDenseNumeric, List.length_append, List.length_nil] at hlen
    omega

theorem delBlock_ne_nil (h : rows ≠ []) : delBlock rows ≠ [] := by
  have hpos := List.length_pos_iff.mpr h
  intro he
  have hlen := congrArg List.length he
  rw [delBlock, length_bitsToBytes, length_bitmap, List.length_map, List.length_nil] at hlen
  omega

theorem colFmtType_colFmt (dense : Option ColType) : colFmtType (colFmt dense) = dense := by
  cases dense with
  | none => rfl
  | some t => cases t <;> rfl

section Write

variable (h : rows ≠ [])

include h

/-- The type of a column is found from its tag. -/
theorem denseType_writePart (c : ℕ) :
    (writePart lz crc32 table rows).2.denseType c = colDense rows c := by
  simp only [SealedPart.denseType, writePart, if_neg h, List.getElem?_map]
  by_cases hc : c < partCols rows
  · rw [List.getElem?_range hc, Option.map_some, Option.bind_some, colFmtType_colFmt]
  · rw [List.getElem?_eq_none (by rw [List.length_range]; omega), Option.map_none, Option.bind_none]
    cases hd : colDense rows c with
    | none => rfl
    | some t => exact absurd (lt_of_colDense hd) hc

theorem length_granules_writePart : (writePart lz crc32 table rows).2.granules.length =
    (granules mpartGranuleRows rows).length := by
  simp only [writePart, if_neg h, List.length_mapIdx]

end Write

/-- A block of a granule, which can be read from the file. -/
theorem readGranule_block (hlz : lz.Undoes) {g : ℕ} {rows' : List MemRow}
    (hg : (granules mpartGranuleRows rows)[g]? = some rows') {f : List MemRow → Bytes}
    (hf : ∀ rows' : List MemRow, rows' ≠ [] → f rows' ≠ []) : ∃ b,
      (writeGranuleBlocks lz ((granules mpartGranuleRows rows).map f)).2[g]? = some b ∧ b.raw = (f rows').length ∧
      b.off ≤ (writeGranuleBlocks lz ((granules mpartGranuleRows rows).map f)).1.length ∧
      b.len ≤ (writeGranuleBlocks lz ((granules mpartGranuleRows rows).map f)).1.length ∧
      readGranule lz (writeGranuleBlocks lz ((granules mpartGranuleRows rows).map f)).1 b =
        some (seenBlock lz (f rows')) := by
  apply readGranule_written hlz
  · rw [List.getElem?_map, hg, Option.map_some]
  · exact hf rows' (ne_nil_of_mem_granules granuleRows_pos (List.mem_of_getElem? hg))

theorem written_writePart (hlz : lz.Undoes) (h : rows ≠ []) :
    Written lz (writePart lz crc32 table rows).1 (writePart lz crc32 table rows).2 rows where
  nonempty := h
  ncols := by simp only [writePart, if_neg h]
  rowcount := by simp only [writePart, if_neg h]
  length := length_granules_writePart h
  denseType := denseType_writePart h
  keys := by
    rintro g rows' hg
    obtain ⟨pk, hpk, -, -, -, hreadPk⟩ := readGranule_block hlz hg (f := pkBlock)
      fun rows' hne => encodeFrames_ne_nil (by simpa using hne)
    obtain ⟨del, hdel, -, -, -, hreadDel⟩ := readGranule_block hlz hg (f := delBlock)
      fun rows' hne => delBlock_ne_nil hne
    simp only [writePart, if_neg h, List.getElem?_mapIdx, hg, Option.map_some, hpk, hdel,
      Option.getD_some, Option.some.injEq, exists_eq_left']
    exact ⟨hreadPk, hreadDel⟩
  column := by
    rintro g rows' hg c hc
    obtain ⟨b, hb, -, -, -, hread⟩ := readGranule_block hlz hg
      (f := columnBlock (colDense rows c) c) fun rows' hne => columnBlock_ne_nil _ c hne
    have hblock : (writePart lz crc32 table rows).2.colBlock g c = b := by
      simp only [SealedPart.colBlock, writePart, if_neg h, List.getElem?_mapIdx, hg,
        Option.map_some, Option.bind_some, List.getElem?_map, List.getElem?_range hc, hb, Option.getD_some]
    rw [readColumnBlock, hblock]
    simp only [writePart, if_neg h, List.getElem?_map, List.getElem?_range hc, Option.map_some,
      Option.bind_some, hread]

/-! ### The metadata of a written part -/

theorem zonesOf_map {ncols : ℕ} (dense : ℕ → Option ColType) (zone : ℕ → Int64 × Int64) :
    ZonesOf ((List.range ncols).map fun c => colFmt (dense c))
      ((List.range ncols).map fun c => match dense c with
        | some _ => zone c
        | none => (0, 0)) := by
  unfold ZonesOf
  rw [List.forall₂_map_left_iff, List.forall₂_map_right_iff, List.forall₂_same]
  rintro c -
  rw [colFmtType_colFmt]
  cases dense c with
  | some t => exact .inl rfl
  | none => exact .inr rfl

theorem length_setBloomBit (bits : List UInt64) (i : UInt64) :
    (setBloomBit bits i).length = bits.length := List.length_modify ..

theorem length_bloomOf (rows : List MemRow) : (bloomOf rows).length = rows.length * 4 / 64 + 1 := by
  have hfold (bits : List UInt64) :
      (rows.foldl (fun bits r => bloomAdd bits r.pk) bits).length = bits.length := by
    induction rows generalizing bits with
    | nil => rfl
    | cons r rows ih =>
      rw [List.foldl_cons, ih]
      exact (length_setBloomBit _ _).trans (length_setBloomBit _ _)
  rw [bloomOf, hfold, List.length_replicate]

theorem Fits.getLast {rows' : List MemRow} (hrow : ∀ r ∈ rows', r.Fits) :
    ((rows'.getLast?.map MemRow.pk).getD []).length < 2 ^ 63 := by
  cases hl : rows'.getLast? with
  | none => exact Nat.two_pow_pos 63
  | some r => exact (hrow r (List.mem_of_getLast? hl)).pk

theorem length_granules_le (rows : List MemRow) :
    (granules mpartGranuleRows rows).length ≤ rows.length := by
  have hk : mpartGranuleRows = 65536 := rfl
  rw [length_granules, hk]
  omega

theorem mem_of_mem_granules {rows' : List MemRow} (h : rows' ∈ granules mpartGranuleRows rows)
    {r : MemRow} (hr : r ∈ rows') : r ∈ rows := by
  rw [← flatten_granules granuleRows_pos rows]
  exact List.mem_flatten.mpr ⟨rows', h, hr⟩

theorem granule_fits (hlz : lz.Undoes) (hfit : Fits lz crc32 table rows) (h : rows ≠ []) :
    ∀ gr ∈ (writePart lz crc32 table rows).2.granules,
      gr.Fits (writePart lz crc32 table rows).2.ncols
        (writePart lz crc32 table rows).2.colFmts := by
  have hpkFile := hfit.pkFile
  have hdelFile := hfit.delFile
  have hcolFiles := hfit.colFiles
  simp only [writePart, if_neg h, List.mem_map, forall_exists_index, and_imp,
    forall_apply_eq_imp_iff₂] at hpkFile hdelFile hcolFiles ⊢
  rintro gr hmem
  obtain ⟨g, hlt, rfl⟩ := List.mem_mapIdx.mp hmem
  have hg := List.getElem?_eq_getElem hlt
  generalize hrows : (granules mpartGranuleRows rows)[g] = rows' at hg ⊢
  have hin := List.mem_of_getElem? hg
  obtain ⟨hpkLen, hdelLen, hcolLen⟩ := hfit.blocks rows' hin
  constructor
  · exact Fits.getLast fun r hr => hfit.row r (mem_of_mem_granules hin hr)
  · obtain ⟨b, hb, hraw, hoff, hlen, -⟩ := readGranule_block hlz hg (f := pkBlock)
      fun rows' hne => encodeFrames_ne_nil (by simpa using hne)
    simp only [hb, Option.getD_some]
    exact ⟨lt_of_le_of_lt hoff hpkFile, lt_of_le_of_lt hlen hpkFile, hraw ▸ hpkLen⟩
  · obtain ⟨b, hb, hraw, hoff, hlen, -⟩ := readGranule_block hlz hg (f := delBlock)
      fun rows' hne => delBlock_ne_nil hne
    simp only [hb, Option.getD_some]
    exact ⟨lt_of_le_of_lt hoff hdelFile, lt_of_le_of_lt hlen hdelFile, hraw ▸ hdelLen⟩
  · simp only [List.length_map, List.length_range]
  · rintro b hb
    simp only [List.map_map, List.mem_map, List.mem_range, Function.comp_apply] at hb
    obtain ⟨c, hc, rfl⟩ := hb
    obtain ⟨b, hb, hraw, hoff, hlen, -⟩ := readGranule_block hlz hg
      (f := columnBlock (colDense rows c) c) fun rows' hne => columnBlock_ne_nil _ c hne
    have hfile := hcolFiles c (List.mem_range.mpr hc)
    simp only [hb, Option.getD_some]
    exact ⟨lt_of_le_of_lt hoff hfile, lt_of_le_of_lt hlen hfile, hraw ▸ hcolLen c⟩
  · have hz := @zonesOf_map (partCols rows) (colDense rows) fun c => match colDense rows c with
      | some t => granuleNumericZone rows' c t
      | none => (0, 0)
    have he : ((List.range (partCols rows)).map fun c => match colDense rows c with
        | some _ => (match colDense rows c with
          | some t => granuleNumericZone rows' c t
          | none => (0, 0))
        | none => (0, 0)) = (List.range (partCols rows)).map fun c => match colDense rows c with
          | some t => granuleNumericZone rows' c t
          | none => (0, 0) := by
      apply List.map_congr_left
      rintro c -
      cases colDense rows c <;> rfl
    rwa [he] at hz

/-- The sizes in the metadata are Go `int`s. -/
theorem sealedPart_fits (hlz : lz.Undoes) (hfit : Fits lz crc32 table rows) :
    (writePart lz crc32 table rows).2.Fits := by
  have hbloom : (bloomOf rows).length < 2 ^ 63 := by
    have hlen := hfit.length
    rw [length_bloomOf]
    omega
  have hncols := hfit.ncols
  by_cases h : rows = []
  · subst h
    exact {
      table := hfit.name
      ncols := Nat.two_pow_pos 63
      rowcount := Nat.two_pow_pos 63
      pkMin := Nat.two_pow_pos 63
      pkMax := Nat.two_pow_pos 63
      bloom := hbloom
      crcs := Nat.one_lt_two_pow (by decide)
      colFmts := rfl
      length := Nat.two_pow_pos 63
      granules := fun gr hgr => absurd hgr List.not_mem_nil }
  · have hgr := granule_fits hlz hfit h
    have hcount : (writePart lz crc32 table rows).2.granules.length =
        (granules mpartGranuleRows rows).length := length_granules_writePart h
    have hle := length_granules_le rows
    have hlen := hfit.length
    constructor
    · simpa only [writePart, if_neg h] using hfit.name
    · simp only [writePart, if_neg h]
      omega
    · simpa only [writePart, if_neg h] using hlen
    · simp only [writePart, if_neg h]
      cases hr : rows.head? with
      | none => exact Nat.two_pow_pos 63
      | some r => exact (hfit.row r (List.mem_of_mem_head? hr)).pk
    · simp only [writePart, if_neg h]
      exact Fits.getLast hfit.row
    · simpa only [writePart, if_neg h] using hbloom
    · simp only [writePart, if_neg h, List.length_cons, List.length_map, List.length_range]
      omega
    · simp only [writePart, if_neg h, List.length_map, List.length_range]
    · rw [hcount]
      omega
    · exact hgr

/-! ### The round trip -/

/-- The bytes behind a header of LZ4 that says that they are literals. -/
def lz4Literals (plain : Bytes) : Bytes :=
  (if plain.length < 15 then [.ofNat (plain.length * 16)]
    else 0xf0 :: List.replicate ((plain.length - 15) / 255) 255 ++
      [.ofNat ((plain.length - 15) % 255)]) ++ plain

/-- The key of a text in which six letters occur twice. -/
def repeatKey : Bytes := encodeKey
  [{ typ := .string, s := ascii "cdefghijklmnopqrsdefghiABCDEFGHIJKLMNOPQRSTUVWXYZ" }]

/-- The block of keys with that key. -/
def repeatBlock : Bytes := encodeFrames [repeatKey]

/-- The LZ4 form of that block: 20 literals, a copy of 6 bytes, and 27 literals. -/
def repeatBlockLz4 : Bytes :=
  [0xf2, 5] ++ repeatBlock.take 20 ++ [16, 0, 0xf0, 12] ++ repeatBlock.drop 26

/-- The LZ4 package on that block and on blocks in which nothing occurs twice. -/
def lz4OfLiterals : Lz4 where
  compressBlock plain := some (if plain = repeatBlock then repeatBlockLz4 else lz4Literals plain)
  uncompressBlock blk n :=
    some (if blk = repeatBlockLz4 then repeatBlock else blk.drop (blk.length - n))
  write := id
  read := some

theorem undoes_lz4OfLiterals : lz4OfLiterals.Undoes := by
  rintro plain blk h
  obtain rfl := Option.some.inj h
  simp only [lz4OfLiterals]
  by_cases hp : plain = repeatBlock
  · rw [if_pos hp, if_pos rfl, hp]
  · -- no header of literals has the length of a copy in it
    have hne : lz4Literals plain ≠ repeatBlockLz4 := by
      intro he
      have hhead := congrArg List.head? he
      rw [lz4Literals] at hhead
      split at hhead
      · next hlt =>
        have hbyte := congrArg UInt8.toNat (Option.some.inj hhead)
        rw [UInt8.toNat_ofNat_of_lt' (by norm_num; omega)] at hbyte
        change plain.length * 16 = 242 at hbyte
        omega
      · cases hhead
    rw [if_neg hp, if_neg hne, lz4Literals, List.length_append, Nat.add_sub_cancel, List.drop_left]

/-- A put that names one column, and a delete. -/
def sampleRows : List MemRow :=
  [{ pk := [97], cells := [[1, 0, 10]], del := false }, { pk := [98], cells := [], del := true }]

end Ydbgo.Mpart
