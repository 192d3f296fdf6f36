import Ydbgo.Mpart.PartBlocks
import Ydbgo.Mpart.PartIndex

/-! # The reads of a part

Each way to read a part gives the rows that went into it if and only if the
reader makes of each block what was encoded into it.
-/

namespace Ydbgo.Mpart

open Storage

variable {lz : Lz4} {crc32 : Bytes → UInt32} {table : Bytes} {rows : List MemRow}

/-! ### What is to be shown -/

/-- The cells that a reader makes of a block of a column. -/
def readCells (dense : Option ColType) (raw : Bytes) : Option (List Bytes) :=
  match dense with
  | some t => (decodeDenseNumeric raw).map fun d => denseToCells d.1 d.2 t
  | none => some (decodeFrames raw)

/-- Each read path gives the keys, tombstones and cells of the rows. -/
structure ReadsAs (lz : Lz4) (files : PartFiles) (p : SealedPart) (rows : List MemRow) : Prop where
  pks : loadPks lz files p = some (rows.map MemRow.pk)
  dels : loadDels lz files p = some (rows.map MemRow.del)
  col : ∀ c, loadCol lz files p c = some (rows.map MemRow.pk, rows.map fun r => r.cell c)
  dense : ∀ c t, p.denseType c = some t →
    (loadColDense lz files p c).map (fun d => d.map fun d => denseToCells d.1 d.2 t) =
      some (some (rows.map fun r => r.cell c))
  full : loadRows lz files p =
    some (rows.map MemRow.pk, rows.map fun r => (List.range p.ncols).map r.cell)
  granulePks : ∀ g rows', (granules mpartGranuleRows rows)[g]? = some rows' →
    loadGranulePks lz files p g = some (rows'.map MemRow.pk)
  granuleDels : ∀ g rows', (granules mpartGranuleRows rows)[g]? = some rows' →
    loadGranuleDels lz files p g = some (rows'.map MemRow.del)
  granuleCol : ∀ g rows', (granules mpartGranuleRows rows)[g]? = some rows' → ∀ c < p.ncols,
    loadGranuleCol lz files p g c = some (rows'.map fun r => r.cell c)
  granuleDense : ∀ g rows', (granules mpartGranuleRows rows)[g]? = some rows' →
    ∀ c t, p.denseType c = some t →
      (loadGranuleDense lz files p g c).map (fun d => denseToCells d.1 d.2 t) =
        some (rows'.map fun r => r.cell c)
  granuleFull : ∀ g rows', (granules mpartGranuleRows rows)[g]? = some rows' →
    loadGranuleFull lz files p g = some (rows'.map fun r => (List.range p.ncols).map r.cell)

/-- The part reads as the rows, as `writePart` returns it and as it is opened again. -/
def RoundTrips (lz : Lz4) (crc32 : Bytes → UInt32) (table : Bytes) (rows : List MemRow) : Prop :=
  ReadsAs lz (writePart lz crc32 table rows).1 (writePart lz crc32 table rows).2 rows ∧
    ∃ p, readMpartMeta (writePart lz crc32 table rows).1 = some p ∧
      ReadsAs lz (writePart lz crc32 table rows).1 p rows

/-- Decompression undoes compression. -/
def Lz4.Undoes (lz : Lz4) : Prop :=
  ∀ plain blk, lz.compressBlock plain = some blk → lz.uncompressBlock blk plain.length = some plain

/-- The lengths of the slices and files are Go `int`s. -/
structure MemRow.Fits (r : MemRow) : Prop where
  pk : r.pk.length < 2 ^ 63
  cells : ∀ cell ∈ r.cells, cell.length < 2 ^ 63

structure Fits (lz : Lz4) (crc32 : Bytes → UInt32) (table : Bytes) (rows : List MemRow) : Prop where
  name : table.length < 2 ^ 63
  length : rows.length < 2 ^ 63
  ncols : partCols rows + 1 < 2 ^ 63
  row : ∀ r ∈ rows, r.Fits
  blocks : ∀ rows' ∈ granules mpartGranuleRows rows, (pkBlock rows').length < 2 ^ 63 ∧
    (delBlock rows').length < 2 ^ 63 ∧
    ∀ c, (columnBlock (colDense rows c) c rows').length < 2 ^ 63
  pkFile : (writePart lz crc32 table rows).1.pk.length < 2 ^ 63
  delFile : (writePart lz crc32 table rows).1.del.length < 2 ^ 63
  colFiles : ∀ file ∈ (writePart lz crc32 table rows).1.cols, file.length < 2 ^ 63

/-! ### When it holds -/

/-- The block was compressed to its own length. -/
def OwnLength (lz : Lz4) (plain blk : Bytes) : Prop :=
  lz.compressBlock plain = some blk ∧ blk.length = plain.length

/-- The blocks of a granule that were compressed to their own length say what was compressed, and
the other blocks of numbers hold cells in the writer's form. -/
structure Legible (lz : Lz4) (rows rows' : List MemRow) : Prop where
  pks : ∀ blk, OwnLength lz (pkBlock rows') blk → decodeFrames blk = rows'.map MemRow.pk
  dels : ∀ blk, OwnLength lz (delBlock rows') blk →
    decodeDels rows'.length blk = some (rows'.map MemRow.del)
  cols : ∀ c < partCols rows, ∀ blk, OwnLength lz (columnBlock (colDense rows c) c rows') blk →
    readCells (colDense rows c) blk = some (rows'.map fun r => r.cell c)
  numbers : ∀ c t, colDense rows c = some t →
    (∀ blk, ¬ OwnLength lz (columnBlock (colDense rows c) c rows') blk) →
      ∀ r ∈ rows', Canonical t (r.cell c)

/-! ### One block -/

/-- The bytes that the reader takes for the block. -/
def seenBlock (lz : Lz4) (plain : Bytes) : Bytes :=
  match lz.compressBlock plain with
  | some blk => if blk.length = plain.length then blk else plain
  | none => plain

theorem expandBlock_mustLZ4Block (hlz : lz.Undoes) {plain : Bytes} (h : plain ≠ []) :
    expandBlock lz (mustLZ4Block lz plain) plain.length = some (seenBlock lz plain) := by
  have hpos : plain.length ≠ 0 := fun he => h (List.length_eq_zero_iff.mp he)
  unfold expandBlock mustLZ4Block seenBlock
  rw [if_neg hpos]
  cases hc : lz.compressBlock plain with
  | none => rw [Option.getD_none, if_pos rfl]
  | some blk =>
    rw [Option.getD_some]
    dsimp only
    split
    · rfl
    · exact hlz plain blk hc

/-- Reading a block gives something if its own bytes do, or the compressed ones that were taken for
them. -/
theorem read_seenBlock_iff {α : Type} (read : Bytes → α) (plain : Bytes) (a : α) :
    read (seenBlock lz plain) = a ↔ (∀ blk, OwnLength lz plain blk → read blk = a) ∧
      ((∀ blk, ¬ OwnLength lz plain blk) → read plain = a) := by
  unfold seenBlock
  cases hc : lz.compressBlock plain with
  | none =>
    have hnone : ∀ blk, ¬ OwnLength lz plain blk := fun blk h => by
      rw [h.1] at hc
      cases hc
    exact ⟨fun h => ⟨fun blk hb => absurd hb (hnone blk), fun _ => h⟩, fun h => h.2 hnone⟩
  | some blk =>
    dsimp only
    split
    · next hlen =>
      constructor
      · intro h
        refine ⟨fun blk' hb => ?_, fun hno => absurd ⟨hc, hlen⟩ (hno blk)⟩
        obtain rfl := Option.some.inj (hc.symm.trans hb.1)
        exact h
      · exact fun h => h.1 blk ⟨hc, hlen⟩
    · next hlen =>
      have hnone : ∀ blk', ¬ OwnLength lz plain blk' := fun blk' h => by
        obtain rfl := Option.some.inj (hc.symm.trans h.1)
        exact hlen h.2
      exact ⟨fun h => ⟨fun blk' hb => absurd hb (hnone blk'), fun _ => h⟩, fun h => h.2 hnone⟩

/-- A block is read from the file that it was written to. -/
theorem readGranule_written (hlz : lz.Undoes) {plains : List Bytes} {g : ℕ} {plain : Bytes}
    (h : plains[g]? = some plain) (hne : plain ≠ []) :
    ∃ b, (writeGranuleBlocks lz plains).2[g]? = some b ∧ b.raw = plain.length ∧
      b.off ≤ (writeGranuleBlocks lz plains).1.length ∧
      b.len ≤ (writeGranuleBlocks lz plains).1.length ∧
      readGranule lz (writeGranuleBlocks lz plains).1 b = some (seenBlock lz plain) := by
  have hblock : (plains.map (mustLZ4Block lz))[g]? = some (mustLZ4Block lz plain) := by
    rw [List.getElem?_map, h]
    rfl
  obtain ⟨off, hoff, hle, hslice⟩ := slice_offsets hblock []
  rw [List.length_nil, List.nil_append] at *
  refine ⟨{ off := off, len := (mustLZ4Block lz plain).length, raw := plain.length }, ?_, rfl, hle,
    ?_, ?_⟩
  · simp only [writeGranuleBlocks, List.getElem?_zipWith, hoff, h]
  · have hmem := List.mem_of_getElem? hblock
    exact (List.sublist_flatten_of_mem hmem).length_le
  · rw [readGranule, writeGranuleBlocks]
    dsimp only
    rw [hslice, Option.bind_some, expandBlock_mustLZ4Block hlz hne]

/-! ### One granule -/

/-- What the reader makes of the blocks of a granule is what is in the rows. -/
structure GranuleReads (lz : Lz4) (rows rows' : List MemRow) : Prop where
  pks : decodeFrames (seenBlock lz (pkBlock rows')) = rows'.map MemRow.pk
  dels : decodeDels rows'.length (seenBlock lz (delBlock rows')) = some (rows'.map MemRow.del)
  cols : ∀ c < partCols rows,
    readCells (colDense rows c) (seenBlock lz (columnBlock (colDense rows c) c rows')) =
      some (rows'.map fun r => r.cell c)

theorem le_foldl_max (rows : List MemRow) (n : ℕ) :
    n ≤ rows.foldl (fun n r => max n r.cells.length) n := by
  induction rows generalizing n with
  | nil => exact Nat.le_refl n
  | cons r rows ih => exact le_trans (Nat.le_max_left _ _) (ih _)

theorem length_cells_le {r : MemRow} (h : r ∈ rows) : r.cells.length ≤ partCols rows := by
  unfold partCols
  generalize 0 = n
  induction rows generalizing n with
  | nil => cases h
  | cons r' rows ih =>
    rcases List.mem_cons.mp h with rfl | h
    · exact le_trans (Nat.le_max_right _ _) (le_foldl_max rows _)
    · exact ih h _

theorem cell_of_le {r : MemRow} {c : ℕ} (h : r.cells.length ≤ c) : r.cell c = [] := by
  rw [MemRow.cell, List.getD_eq_getElem?_getD, List.getElem?_eq_none h]
  rfl

theorem MemRow.Fits.cell {r : MemRow} (h : r.Fits) (c : ℕ) : (r.cell c).length < 2 ^ 63 := by
  rw [MemRow.cell, List.getD_eq_getElem?_getD]
  cases hc : r.cells[c]? with
  | none => exact Nat.two_pow_pos 63
  | some cell => exact h.cells cell (List.mem_of_getElem? hc)

/-- A column of numbers is one that the rows have. -/
theorem lt_of_colDense {c : ℕ} {t : ColType} (h : colDense rows c = some t) :
    c < partCols rows := by
  by_contra hc
  cases rows with
  | nil => cases h
  | cons r rows =>
    have hr := @length_cells_le (r :: rows) r List.mem_cons_self
    rw [colDense, List.map_cons, cell_of_le (by omega : r.cells.length ≤ c)] at h
    cases h

theorem readCells_columnBlock (hfit : ∀ r ∈ rows, r.Fits) (hlen : rows.length < 2 ^ 63)
    (dense : Option ColType) (c : ℕ) :
    readCells dense (columnBlock dense c rows) = some (rows.map fun r => r.cell c) ↔
      ∀ t, dense = some t → ∀ r ∈ rows, Canonical t (r.cell c) := by
  cases dense with
  | none =>
    have hread := @decodeFrames_encodeFrames (rows.map fun r => r.cell c)
      (List.forall_mem_map.mpr fun r hr => (hfit r hr).cell c)
    exact iff_of_true (congrArg some hread) nofun
  | some t =>
    have hread := @decodeDenseNumeric_encode (rows.map fun r => r.cell c)
      (by rwa [List.length_map])
    simp only [readCells, columnBlock, hread, Option.map_some, denseToCells_encode,
      Option.some.injEq, forall_eq']
    rw [List.map_map]
    exact List.map_inj_left

theorem legible_iff {rows' : List MemRow} (hfit : ∀ r ∈ rows', r.Fits)
    (hlen : rows'.length < 2 ^ 63) : Legible lz rows rows' ↔ GranuleReads lz rows rows' := by
  have hpks : decodeFrames (pkBlock rows') = rows'.map MemRow.pk :=
    decodeFrames_encodeFrames (List.forall_mem_map.mpr fun r hr => (hfit r hr).pk)
  have hdels : decodeDels rows'.length (delBlock rows') = some (rows'.map MemRow.del) := by
    have hread := decodeDels_bitmap (rows'.map MemRow.del)
    rwa [List.length_map] at hread
  constructor
  · rintro ⟨hp, hd, hc, hn⟩
    refine ⟨?_, ?_, ?_⟩
    · exact (read_seenBlock_iff decodeFrames _ _).mpr ⟨hp, fun _ => hpks⟩
    · exact (read_seenBlock_iff (decodeDels rows'.length) _ _).mpr ⟨hd, fun _ => hdels⟩
    · rintro c hlt
      refine (read_seenBlock_iff (readCells (colDense rows c)) _ _).mpr ⟨hc c hlt, fun hno => ?_⟩
      exact (readCells_columnBlock hfit hlen _ c).mpr fun t ht => hn c t ht hno
  · rintro ⟨hp, hd, hc⟩
    refine ⟨?_, ?_, ?_, ?_⟩
    · exact ((read_seenBlock_iff decodeFrames _ _).mp hp).1
    · exact ((read_seenBlock_iff (decodeDels rows'.length) _ _).mp hd).1
    · exact fun c hlt => ((read_seenBlock_iff (readCells (colDense rows c)) _ _).mp (hc c hlt)).1
    · rintro c t ht hno
      have hread := ((read_seenBlock_iff (readCells (colDense rows c)) _ _).mp
        (hc c (lt_of_colDense ht))).2 hno
      exact (readCells_columnBlock hfit hlen _ c).mp hread t ht

/-! ### All granules -/

section Lists

variable {α β : Type}

theorem mapM_eq_some_of_getElem? {f : α → Option β} {as : List α} {bs : List β}
    (hlen : as.length = bs.length)
    (h : ∀ (i : ℕ) a b, as[i]? = some a → bs[i]? = some b → f a = some b) :
    as.mapM f = some bs := by
  induction as generalizing bs with
  | nil =>
    obtain rfl := List.length_eq_zero_iff.mp hlen.symm
    rfl
  | cons a as ih =>
    cases bs with
    | nil => cases hlen
    | cons b bs =>
      have htail := ih (Nat.succ.inj hlen) fun i a b ha hb => h (i + 1) a b ha hb
      rw [List.mapM_cons, h 0 a b rfl rfl, htail]
      rfl

theorem mapM_range_eq_some {f : ℕ → Option β} {g : α → β} {as : List α}
    (h : ∀ (i : ℕ) a, as[i]? = some a → f i = some (g a)) :
    (List.range as.length).mapM f = some (as.map g) := by
  apply mapM_eq_some_of_getElem?
  · rw [List.length_range, List.length_map]
  · rintro i j b hj hb
    rw [List.getElem?_map] at hb
    obtain ⟨a, ha, rfl⟩ := Option.map_eq_some_iff.mp hb
    have hlt := (List.getElem?_eq_some_iff.mp ha).1
    rw [List.getElem?_range hlt] at hj
    exact Option.some.inj hj ▸ h i a ha

end Lists

/-- The blocks of the part are found in the files. -/
structure Written (lz : Lz4) (files : PartFiles) (p : SealedPart) (rows : List MemRow) : Prop where
  nonempty : rows ≠ []
  ncols : p.ncols = partCols rows
  rowcount : p.rowcount = rows.length
  length : p.granules.length = (granules mpartGranuleRows rows).length
  denseType : ∀ c, p.denseType c = colDense rows c
  keys : ∀ (g : ℕ) rows', (granules mpartGranuleRows rows)[g]? = some rows' → ∃ gr : MpartGranule,
    p.granules[g]? = some gr ∧
      readGranule lz files.pk gr.pk = some (seenBlock lz (pkBlock rows')) ∧
      readGranule lz files.del gr.del = some (seenBlock lz (delBlock rows'))
  column : ∀ (g : ℕ) rows', (granules mpartGranuleRows rows)[g]? = some rows' → ∀ c < partCols rows,
    readColumnBlock lz files p g c =
      some (seenBlock lz (columnBlock (colDense rows c) c rows'))

theorem granuleRows_pos : 0 < mpartGranuleRows := by decide

namespace Written

variable {files : PartFiles} {p : SealedPart}

theorem granules_ne_nil (h : Written lz files p rows) : p.granules ≠ [] := by
  intro he
  have hlen := h.length
  rw [he, List.length_nil] at hlen
  exact h.nonempty ((granules_eq_nil granuleRows_pos).mp (List.length_eq_zero_iff.mp hlen.symm))

theorem granuleRows (h : Written lz files p rows) {g : ℕ} {rows' : List MemRow}
    (hg : (granules mpartGranuleRows rows)[g]? = some rows') : p.granuleRows g = rows'.length := by
  rw [getElem?_granules hg, List.length_take, List.length_drop, SealedPart.granuleRows, h.rowcount]
  omega

theorem granulePks (h : Written lz files p rows) {g : ℕ} {rows' : List MemRow}
    (hg : (granules mpartGranuleRows rows)[g]? = some rows') : loadGranulePks lz files p g =
      some (decodeFrames (seenBlock lz (pkBlock rows'))) := by
  obtain ⟨gr, hgr, hpk, -⟩ := h.keys g rows' hg
  simp only [loadGranulePks, hgr, hpk, Option.map_some]

theorem granuleDels (h : Written lz files p rows) {g : ℕ} {rows' : List MemRow}
    (hg : (granules mpartGranuleRows rows)[g]? = some rows') : loadGranuleDels lz files p g =
      decodeDels rows'.length (seenBlock lz (delBlock rows')) := by
  obtain ⟨gr, hgr, -, hdel⟩ := h.keys g rows' hg
  simp only [loadGranuleDels, hgr, hdel, Option.bind_some, h.granuleRows hg]

theorem not_out (h : Written lz files p rows) {g : ℕ} {rows' : List MemRow}
    (hg : (granules mpartGranuleRows rows)[g]? = some rows') {c : ℕ} (hc : c < partCols rows) :
    ¬ (p.granules.length ≤ g ∨ p.ncols ≤ c) := by
  have hlt := (List.getElem?_eq_some_iff.mp hg).1
  rw [h.length, h.ncols]
  omega

theorem granuleCol (h : Written lz files p rows) {g : ℕ} {rows' : List MemRow}
    (hg : (granules mpartGranuleRows rows)[g]? = some rows') {c : ℕ} (hc : c < partCols rows) :
    loadGranuleCol lz files p g c =
      readCells (colDense rows c) (seenBlock lz (columnBlock (colDense rows c) c rows')) := by
  rw [loadGranuleCol, if_neg (h.not_out hg hc), h.column g rows' hg c hc, Option.bind_some,
    h.denseType]
  rfl

theorem granuleDense (h : Written lz files p rows) {g : ℕ} {rows' : List MemRow}
    (hg : (granules mpartGranuleRows rows)[g]? = some rows') {c : ℕ} (hc : c < partCols rows) :
    loadGranuleDense lz files p g c =
      decodeDenseNumeric (seenBlock lz (columnBlock (colDense rows c) c rows')) := by
  rw [loadGranuleDense, if_neg (h.not_out hg hc), h.column g rows' hg c hc, Option.bind_some]

theorem flatten_map {β : Type} (f : MemRow → β) (rows : List MemRow) :
    ((granules mpartGranuleRows rows).map (List.map f)).flatten = rows.map f := by
  rw [← List.map_flatten, flatten_granules granuleRows_pos]

variable (h : Written lz files p rows)
  (hr : ∀ rows' ∈ granules mpartGranuleRows rows, GranuleReads lz rows rows')

include h hr

theorem loadPks_eq : loadPks lz files p = some (rows.map MemRow.pk) := by
  have hall : p.granules.mapM (fun gr => (readGranule lz files.pk gr.pk).map decodeFrames) =
      some ((granules mpartGranuleRows rows).map (List.map MemRow.pk)) := by
    apply mapM_eq_some_of_getElem?
    · rw [h.length, List.length_map]
    · rintro g gr b hgr hb
      rw [List.getElem?_map] at hb
      obtain ⟨rows', hg, rfl⟩ := Option.map_eq_some_iff.mp hb
      obtain ⟨gr', hgr', hpk, -⟩ := h.keys g rows' hg
      obtain rfl := Option.some.inj (hgr.symm.trans hgr')
      rw [hpk, Option.map_some, (hr rows' (List.mem_of_getElem? hg)).pks]
  rw [loadPks, if_pos h.granules_ne_nil, hall, Option.map_some, flatten_map]

theorem loadDels_eq : loadDels lz files p = some (rows.map MemRow.del) := by
  have hall : (List.range p.granules.length).mapM (fun g =>
      (readGranule lz files.del ((p.granules.map MpartGranule.del).getD g {})).bind
        (decodeDels (p.granuleRows g))) =
      some ((granules mpartGranuleRows rows).map (List.map MemRow.del)) := by
    rw [h.length]
    apply mapM_range_eq_some
    rintro g rows' hg
    obtain ⟨gr, hgr, -, hdel⟩ := h.keys g rows' hg
    have hget : (p.granules.map MpartGranule.del).getD g {} = gr.del := by
      rw [List.getD_eq_getElem?_getD, List.getElem?_map, hgr]
      rfl
    rw [hget, hdel, Option.bind_some, h.granuleRows hg, (hr rows' (List.mem_of_getElem? hg)).dels]
  rw [loadDels, if_pos h.granules_ne_nil, hall, Option.map_some, flatten_map]

/-- The numbers of a dense column, as cells. -/
theorem loadColDense_eq {c : ℕ} {t : ColType} (ht : p.denseType c = some t) :
    (loadColDense lz files p c).map (fun d => d.map fun d => denseToCells d.1 d.2 t) =
      some (some (rows.map fun r => r.cell c)) := by
  have hdense : colDense rows c = some t := h.denseType c ▸ ht
  have hc := lt_of_colDense hdense
  have hin : ¬ (p.ncols ≤ c ∨ p.denseType c = none) := by
    rw [ht, h.ncols]
    rintro (hle | hno)
    · omega
    · cases hno
  -- what each granule decodes to, with its cells
  have hone : ∀ rows' ∈ granules mpartGranuleRows rows, ∃ d,
      decodeDenseNumeric (seenBlock lz (columnBlock (colDense rows c) c rows')) = some d ∧
        denseToCells d.1 d.2 t = rows'.map fun r => r.cell c := by
    rintro rows' hmem
    have hread := (hr rows' hmem).cols c hc
    have hcells : readCells (colDense rows c)
        (seenBlock lz (columnBlock (colDense rows c) c rows')) =
        (decodeDenseNumeric (seenBlock lz (columnBlock (colDense rows c) c rows'))).map
          fun d => denseToCells d.1 d.2 t := by
      simp only [readCells, hdense]
    rw [hcells] at hread
    exact Option.map_eq_some_iff.mp hread
  let dec (rows' : List MemRow) : List Int64 × List (BitVec 64) :=
    (decodeDenseNumeric (seenBlock lz (columnBlock (colDense rows c) c rows'))).getD ([], [])
  have hdec : ∀ rows' ∈ granules mpartGranuleRows rows,
      decodeDenseNumeric (seenBlock lz (columnBlock (colDense rows c) c rows')) =
        some (dec rows') ∧ denseToCells (dec rows').1 (dec rows').2 t =
          rows'.map fun r => r.cell c := by
    rintro rows' hmem
    obtain ⟨d, hd, hcells⟩ := hone rows' hmem
    have he : dec rows' = d := by
      simp only [dec, hd, Option.getD_some]
    exact ⟨he ▸ hd, he ▸ hcells⟩
  have hall : (List.range p.granules.length).mapM (fun g =>
      (readColumnBlock lz files p g c).bind decodeDenseNumeric) =
      some ((granules mpartGranuleRows rows).map dec) := by
    rw [h.length]
    apply mapM_range_eq_some
    rintro g rows' hg
    rw [h.column g rows' hg c hc, Option.bind_some, (hdec rows' (List.mem_of_getElem? hg)).1]
  have hfit : ∀ d ∈ (granules mpartGranuleRows rows).map dec, NullsFit d :=
    List.forall_mem_map.mpr fun rows' hmem => nullsFit_decode (hdec rows' hmem).1
  have hal : Aligned 64 (((granules mpartGranuleRows rows).map dec).map Prod.fst) := by
    have hk := (aligned_granules granuleRows_pos rows).of_dvd (w := 64) (by decide)
    refine hk.congr ?_
    rw [List.map_map, List.map_map]
    apply List.map_congr_left
    rintro rows' hmem
    have hlen := congrArg List.length (hdec rows' hmem).2
    rw [length_denseToCells, List.length_map] at hlen
    exact hlen.symm
  have hcells := denseToCells_flatten hfit hal t
  have hmap : ((granules mpartGranuleRows rows).map dec).map (fun d => denseToCells d.1 d.2 t) =
      (granules mpartGranuleRows rows).map (List.map fun r => r.cell c) := by
    rw [List.map_map]
    exact List.map_congr_left fun rows' hmem => (hdec rows' hmem).2
  rw [hmap, flatten_map] at hcells
  rw [loadColDense, if_neg hin, if_pos h.granules_ne_nil, decodeDenseColGranules, hall]
  simp only [Option.map_some, hcells]

theorem loadCol_eq (c : ℕ) :
    loadCol lz files p c = some (rows.map MemRow.pk, rows.map fun r => r.cell c) := by
  rw [loadCol, h.loadPks_eq hr, Option.bind_some, h.ncols]
  by_cases hc : partCols rows ≤ c
  · have hnone : rows.map (fun r => r.cell c) = List.replicate (rows.map MemRow.pk).length [] := by
      rw [List.length_map]
      exact List.map_eq_replicate_iff.mpr fun r hmem =>
        cell_of_le (le_trans (length_cells_le hmem) hc)
    rw [if_pos hc, hnone]
  · rw [if_neg hc]
    have hlt : c < partCols rows := Nat.lt_of_not_le hc
    have hcells : loadColCells lz files p c = some (rows.map fun r => r.cell c) := by
      unfold loadColCells
      cases ht : p.denseType c with
      | some t =>
        obtain ⟨d, hd, he⟩ := Option.map_eq_some_iff.mp (h.loadColDense_eq hr ht)
        dsimp only
        rw [hd, Option.bind_some, he]
      | none =>
        have hdense : colDense rows c = none := h.denseType c ▸ ht
        have hall : (List.range p.granules.length).mapM (fun g =>
            (readColumnBlock lz files p g c).map decodeFrames) =
            some ((granules mpartGranuleRows rows).map (List.map fun r => r.cell c)) := by
          rw [h.length]
          apply mapM_range_eq_some
          rintro g rows' hg
          have hread := (hr rows' (List.mem_of_getElem? hg)).cols c hlt
          rw [h.column g rows' hg c hlt, Option.map_some]
          rw [hdense] at hread ⊢
          exact hread
        dsimp only
        rw [if_pos h.granules_ne_nil, hall, Option.map_some, flatten_map]
    rw [hcells, Option.map_some]

theorem loadRows_eq : loadRows lz files p =
    some (rows.map MemRow.pk, rows.map fun r => (List.range p.ncols).map r.cell) := by
  have hcols : (List.range p.ncols).mapM (fun c => (loadCol lz files p c).map Prod.snd) =
      some ((List.range p.ncols).map fun c => rows.map fun r => r.cell c) := by
    have hlen : (List.range p.ncols).length = p.ncols := List.length_range
    have hmap := @mapM_range_eq_some ℕ (List Bytes) (fun c => (loadCol lz files p c).map Prod.snd)
      (fun c => rows.map fun r => r.cell c) (List.range p.ncols) (by
        rintro i c hc
        have hlt := (List.getElem?_eq_some_iff.mp hc).1
        rw [List.length_range] at hlt
        rw [List.getElem?_range hlt] at hc
        obtain rfl := Option.some.inj hc
        rw [h.loadCol_eq hr]
        rfl)
    rwa [hlen] at hmap
  have hfull : (List.range (rows.map MemRow.pk).length).mapM (fun i =>
      ((List.range p.ncols).map fun c => rows.map fun r => r.cell c).mapM fun cells => cells[i]?) =
      some (rows.map fun r => (List.range p.ncols).map r.cell) := by
    rw [List.length_map]
    apply mapM_range_eq_some
    rintro i r hi
    apply mapM_eq_some_of_getElem?
    · simp
    · rintro j cells cell hcells hcell
      rw [List.getElem?_map] at hcells hcell
      obtain ⟨c, hc, rfl⟩ := Option.map_eq_some_iff.mp hcells
      rw [hc] at hcell
      obtain rfl := Option.some.inj hcell
      rw [List.getElem?_map, hi]
      rfl
  rw [loadRows, h.loadPks_eq hr, Option.bind_some, hcols, Option.bind_some, hfull, Option.map_some]

theorem loadGranuleFull_eq {g : ℕ} {rows' : List MemRow}
    (hg : (granules mpartGranuleRows rows)[g]? = some rows') : loadGranuleFull lz files p g =
      some (rows'.map fun r => (List.range p.ncols).map r.cell) := by
  have hlt := (List.getElem?_eq_some_iff.mp hg).1
  have hcols : (List.range p.ncols).mapM (fun c => loadGranuleCol lz files p g c) =
      some ((List.range p.ncols).map fun c => rows'.map fun r => r.cell c) := by
    apply mapM_eq_some_of_getElem?
    · simp
    · rintro i c cells hc hcells
      rw [List.getElem?_map, hc] at hcells
      obtain rfl := Option.some.inj hcells
      have hin : c < partCols rows := by
        have hmem := List.mem_of_getElem? hc
        rwa [List.mem_range, h.ncols] at hmem
      rw [h.granuleCol hg hin, (hr rows' (List.mem_of_getElem? hg)).cols c hin]
  rw [loadGranuleFull, if_neg (by rw [h.length]; omega), hcols, Option.map_some, h.granuleRows hg]
  congr 1
  apply List.ext_getElem
  · simp
  · intro i hi hi'
    have hlen : i < rows'.length := by simpa using hi
    simp only [List.getElem_map, List.getElem_range, List.filterMap_map]
    rw [← List.filterMap_eq_map]
    apply List.filterMap_congr
    rintro c -
    simp [hlen]

end Written

/-- The part reads as the rows if and only if the blocks of each granule do. -/
theorem Written.readsAs_iff {files : PartFiles} {p : SealedPart} (h : Written lz files p rows) :
    ReadsAs lz files p rows ↔
      ∀ rows' ∈ granules mpartGranuleRows rows, GranuleReads lz rows rows' := by
  constructor
  · rintro hread rows' hmem
    obtain ⟨g, hg⟩ := List.mem_iff_getElem?.mp hmem
    refine ⟨?_, ?_, ?_⟩
    · exact Option.some.inj ((h.granulePks hg).symm.trans (hread.granulePks g rows' hg))
    · exact (h.granuleDels hg).symm.trans (hread.granuleDels g rows' hg)
    · rintro c hc
      exact (h.granuleCol hg hc).symm.trans (hread.granuleCol g rows' hg c (h.ncols ▸ hc))
  · intro hr
    exact {
      pks := h.loadPks_eq hr
      dels := h.loadDels_eq hr
      col := h.loadCol_eq hr
      dense := fun c t ht => h.loadColDense_eq hr ht
      full := h.loadRows_eq hr
      granulePks := fun g rows' hg => by
        rw [h.granulePks hg, (hr rows' (List.mem_of_getElem? hg)).pks]
      granuleDels := fun g rows' hg => by
        rw [h.granuleDels hg, (hr rows' (List.mem_of_getElem? hg)).dels]
      granuleCol := fun g rows' hg c hc => by
        have hlt : c < partCols rows := h.ncols ▸ hc
        rw [h.granuleCol hg hlt, (hr rows' (List.mem_of_getElem? hg)).cols c hlt]
      granuleDense := fun g rows' hg c t ht => by
        have hdense : colDense rows c = some t := h.denseType c ▸ ht
        have hlt := lt_of_colDense hdense
        have hcells := (hr rows' (List.mem_of_getElem? hg)).cols c hlt
        simp only [readCells, hdense] at hcells
        rw [h.granuleDense hg hlt, hdense]
        exact hcells
      granuleFull := fun g rows' hg => h.loadGranuleFull_eq hr hg }

end Ydbgo.Mpart
