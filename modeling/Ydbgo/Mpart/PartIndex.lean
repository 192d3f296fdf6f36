import Ydbgo.Mpart.PartFile

/-! # The metadata of a part

`decodeGranuleIndex` and `readMpartMeta`, for the versions that they accept, and
what they make of what `writePart` wrote: the very part it returned.
-/

namespace Ydbgo.Mpart

open Storage

/-! ### Reading -/

/-- A length or an offset. -/
def readSize : RowReader ℕ := fun bs =>
  (readVar bs).bind fun p => if 0 ≤ p.1.toInt then some (p.1.toInt.toNat, p.2) else none

/-- A size that only some versions have. -/
def readSizeIf (has : Bool) : RowReader ℕ := if has then readSize else pure 0

def readMany {α : Type} (r : RowReader α) : ℕ → RowReader (List α)
  | 0 => pure []
  | n + 1 => do
    let a ← r
    let as ← readMany r n
    pure (a :: as)

def readBlockOff (has : Bool) : RowReader BlockOff := do
  let off ← readSize
  let len ← readSize
  let raw ← readSizeIf has
  pure { off := off, len := len, raw := raw }

def readZone : RowReader (Int64 × Int64) := do
  let lo ← readVar
  let hi ← readVar
  pure (lo, hi)

/-- The zones of the columns of these formats, of which only dense ones have one. -/
def readZones : Bytes → RowReader (List (Int64 × Int64))
  | [] => pure []
  | f :: fs => do
    let z ← (if (colFmtType f).isSome then readZone else pure (0, 0))
    let zs ← readZones fs
    pure (z :: zs)

def readZonesIf (has : Bool) (colFmts : Bytes) : RowReader (List (Int64 × Int64)) :=
  if has then readZones colFmts else pure []

def readGranuleEntry (ver : Int64) (ncols : ℕ) (colFmts : Bytes) : RowReader MpartGranule := do
  let pkMax ← readStr
  let pk ← readBlockOff (2 ≤ ver)
  let del ← readBlockOff (2 ≤ ver)
  let cols ← readMany (readBlockOff (2 ≤ ver)) ncols
  let zones ← readZonesIf (3 ≤ ver) (colFmts.take ncols)
  pure { pkMax := pkMax, pk := pk, del := del, cols := cols, zones := zones }

def expect {α : Type} [DecidableEq α] (as : List α) (r : RowReader α) : RowReader α := fun bs =>
  (r bs).bind fun p => if p.1 ∈ as then some p else none

/-- `decodeGranuleIndex`. -/
def readGranuleIndex (ncols : ℕ) (colFmts : Bytes) : RowReader (List MpartGranule) := do
  let _ ← expect [mpartIdxMagic] readStr
  let ver ← expect [1, 2, 3] readVar
  let _ ← expect [ncols] readSize
  let ng ← readSize
  readMany (readGranuleEntry ver ncols colFmts) ng

def readLittleEndian (w : ℕ) : RowReader ℕ := fun bs =>
  (readTake (.ofNat w) bs).map fun p => (beNat p.1.reverse, p.2)

/-- The formats of the columns, of which there is one for each column at least. -/
def readColFmts (ver : Int64) (ncols : ℕ) : RowReader Bytes := fun bs =>
  if 3 ≤ ver then
    (readSize bs).bind fun p => (readTake (.ofNat p.1) p.2).bind fun q =>
      if ncols ≤ q.1.length then some q else none
  else some ([], bs)

/-- The file of metadata, with the version of the part. -/
def readMeta : RowReader (Int64 × SealedPart) := do
  let _ ← expect [mpartMagic] readStr
  let ver ← expect [2, 3, 4] readVar
  let table ← readStr
  let ncols ← readSize
  let rowcount ← readSize
  let pkMin ← readStr
  let pkMax ← readStr
  let nw ← readSize
  let bloom ← readMany (readLittleEndian 8) nw
  let nc ← readSize
  let crcs ← readMany (readLittleEndian 4) nc
  let colFmts ← readColFmts ver ncols
  pure (ver, {
    table := table, ncols := ncols, rowcount := rowcount, pkMin := pkMin, pkMax := pkMax
    bloom := bloom.map UInt64.ofNat, crcs := crcs.map UInt32.ofNat, colFmts := colFmts
    granules := [] })

/-- `readMpartMeta`: a part of version 4 has an index. -/
def readMpartMeta (files : PartFiles) : Option SealedPart :=
  (readMeta files.metadata).bind fun p =>
    if 4 ≤ p.1.1 then
      files.idx.bind fun idx =>
        (readGranuleIndex p.1.2.ncols p.1.2.colFmts idx).map fun gs =>
          { p.1.2 with granules := gs.1 }
    else some p.1.2

/-! ### What is written is read back -/

section Rules

variable {α : Type} {r : RowReader α}

theorem readsBack_expect [DecidableEq α] {as : List α} {bs : Bytes} {a : α} (h : ReadsBack r bs a)
    (ha : a ∈ as) : ReadsBack (expect as r) bs a := by
  rintro rest
  rw [expect, h rest, Option.bind_some, if_pos ha]

theorem readsBack_many {f : α → Bytes} {as : List α} (h : ∀ a ∈ as, ReadsBack r (f a) a) :
    ReadsBack (readMany r as.length) (as.flatMap f) as := by
  induction as with
  | nil => exact readsBack_pure []
  | cons a as ih =>
    obtain ⟨ha, has⟩ := List.forall_mem_cons.mp h
    exact ha.bind ((ih has).map fun as => a :: as)

end Rules

theorem readsBack_size {n : ℕ} (h : n < 2 ^ 63) : ReadsBack readSize (appendSize n) n := by
  rintro rest
  have hint := toInt_ofNat_length h
  rw [readSize, appendSize, readsBack_var, Option.bind_some, hint, if_pos (Int.natCast_nonneg n),
    Int.toNat_natCast]

structure BlockOff.Fits (b : BlockOff) : Prop where
  off : b.off < 2 ^ 63
  len : b.len < 2 ^ 63
  raw : b.raw < 2 ^ 63

theorem readsBack_blockOff {b : BlockOff} (h : b.Fits) :
    ReadsBack (readBlockOff true) (appendBlockOff b) b :=
  (readsBack_size h.off).bind ((readsBack_size h.len).bind ((readsBack_size h.raw).map _))

/-- Only dense columns have values in a zone. -/
def ZonesOf (colFmts : Bytes) (zones : List (Int64 × Int64)) : Prop :=
  List.Forall₂ (fun f z => (colFmtType f).isSome ∨ z = (0, 0)) colFmts zones

theorem readsBack_zones {colFmts : Bytes} {zones : List (Int64 × Int64)}
    (h : ZonesOf colFmts zones) : ReadsBack (readZones colFmts) (appendZones colFmts zones) zones := by
  induction h with
  | nil => exact readsBack_pure []
  | @cons f z fs zs hz _ ih =>
    have hfirst : ReadsBack (if (colFmtType f).isSome then readZone else pure (0, 0))
        (if (colFmtType f).isSome then appendVar z.1 ++ appendVar z.2 else []) z := by
      split
      · exact (readsBack_var z.1).bind ((readsBack_var z.2).map _)
      · next hf =>
        obtain rfl := hz.resolve_left hf
        exact readsBack_pure (0, 0)
    exact hfirst.bind (ih.map fun zs => z :: zs)

structure MpartGranule.Fits (ncols : ℕ) (colFmts : Bytes) (g : MpartGranule) : Prop where
  pkMax : g.pkMax.length < 2 ^ 63
  pk : g.pk.Fits
  del : g.del.Fits
  length : g.cols.length = ncols
  cols : ∀ b ∈ g.cols, b.Fits
  zones : ZonesOf colFmts g.zones

theorem readsBack_granule {ncols : ℕ} {colFmts : Bytes} (hfmts : colFmts.length = ncols)
    {g : MpartGranule} (h : g.Fits ncols colFmts) :
    ReadsBack (readGranuleEntry 3 ncols colFmts) (appendGranule colFmts g) g := by
  have hcols := readsBack_many fun b hb => readsBack_blockOff (h.cols b hb)
  have hzones := readsBack_zones h.zones
  rw [h.length] at hcols
  have htake : colFmts.take ncols = colFmts := List.take_of_length_le (le_of_eq hfmts)
  rw [← htake] at hzones
  have hzones' : ReadsBack (readZonesIf true (colFmts.take ncols))
      (appendZones colFmts g.zones) g.zones := by
    rw [htake] at hzones ⊢
    exact hzones
  exact (readsBack_str h.pkMax).bind ((readsBack_blockOff h.pk).bind
    ((readsBack_blockOff h.del).bind (hcols.bind (hzones'.map _))))

theorem readsBack_granuleIndex {ncols : ℕ} {colFmts : Bytes} (hfmts : colFmts.length = ncols)
    (hn : ncols < 2 ^ 63) {gs : List MpartGranule} (hlen : gs.length < 2 ^ 63)
    (h : ∀ g ∈ gs, g.Fits ncols colFmts) : ReadsBack (readGranuleIndex ncols colFmts)
      (encodeGranuleIndex gs ncols colFmts) gs := by
  have hmagic : ReadsBack (expect [mpartIdxMagic] readStr) (appendStr mpartIdxMagic) mpartIdxMagic :=
    readsBack_expect (readsBack_str (by decide)) List.mem_cons_self
  have hver : ReadsBack (expect [1, 2, 3] readVar) (appendVar 3) 3 :=
    readsBack_expect (readsBack_var 3) (by decide)
  have hncols : ReadsBack (expect [ncols] readSize) (appendSize ncols) ncols :=
    readsBack_expect (readsBack_size hn) List.mem_cons_self
  have hgs := readsBack_many fun g hg => readsBack_granule hfmts (h g hg)
  exact hmagic.bind (hver.bind (hncols.bind ((readsBack_size hlen).bind hgs)))

theorem readsBack_littleEndian {w n : ℕ} (hw : w < 2 ^ 63) (h : n < 256 ^ w) :
    ReadsBack (readLittleEndian w) (littleEndian w n) n := by
  have hlen : (littleEndian w n).length = w := by rw [littleEndian, List.length_reverse,
    length_beBytes]
  have htake := readsBack_take (s := littleEndian w n) (by rwa [hlen])
  rintro rest
  rw [hlen] at htake
  rw [readLittleEndian, htake, Option.map_some, littleEndian, List.reverse_reverse,
    beNat_beBytes_of_lt h]

structure SealedPart.Fits (p : SealedPart) : Prop where
  table : p.table.length < 2 ^ 63
  ncols : p.ncols < 2 ^ 63
  rowcount : p.rowcount < 2 ^ 63
  pkMin : p.pkMin.length < 2 ^ 63
  pkMax : p.pkMax.length < 2 ^ 63
  bloom : p.bloom.length < 2 ^ 63
  crcs : p.crcs.length < 2 ^ 63
  colFmts : p.colFmts.length = p.ncols
  length : p.granules.length < 2 ^ 63
  granules : ∀ g ∈ p.granules, g.Fits p.ncols p.colFmts

theorem readsBack_meta {p : SealedPart} (h : p.Fits) :
    ReadsBack readMeta p.encodeMeta (4, { p with granules := [] }) := by
  have hmagic : ReadsBack (expect [mpartMagic] readStr) (appendStr mpartMagic) mpartMagic :=
    readsBack_expect (readsBack_str (by decide)) List.mem_cons_self
  have hver : ReadsBack (expect [2, 3, 4] readVar) (appendVar 4) 4 :=
    readsBack_expect (readsBack_var 4) (by decide)
  have hbloom : ReadsBack (readMany (readLittleEndian 8) p.bloom.length)
      (p.bloom.flatMap fun w => littleEndian 8 w.toNat) (p.bloom.map UInt64.toNat) := by
    have hmany := @readsBack_many ℕ (readLittleEndian 8) (littleEndian 8) (p.bloom.map UInt64.toNat)
      (List.forall_mem_map.mpr fun w _ => readsBack_littleEndian (by decide)
        (lt_of_lt_of_eq w.toNat_lt (by norm_num)))
    rwa [List.length_map, List.flatMap_map] at hmany
  have hcrcs : ReadsBack (readMany (readLittleEndian 4) p.crcs.length)
      (p.crcs.flatMap fun c => littleEndian 4 c.toNat) (p.crcs.map UInt32.toNat) := by
    have hmany := @readsBack_many ℕ (readLittleEndian 4) (littleEndian 4) (p.crcs.map UInt32.toNat)
      (List.forall_mem_map.mpr fun c _ => readsBack_littleEndian (by decide)
        (lt_of_lt_of_eq c.toNat_lt (by norm_num)))
    rwa [List.length_map, List.flatMap_map] at hmany
  have hfmts : ReadsBack (readColFmts 4 p.ncols) (appendSize p.colFmts.length ++ p.colFmts)
      p.colFmts := by
    have hlen : p.colFmts.length < 2 ^ 63 := h.colFmts ▸ h.ncols
    rintro rest
    rw [readColFmts, if_pos (by decide), List.append_assoc, readsBack_size hlen, Option.bind_some]
    dsimp only
    rw [readsBack_take hlen, Option.bind_some, if_pos (le_of_eq h.colFmts.symm)]
  have hresult : (4, { p with granules := [] }) = ((4 : Int64), ({
      table := p.table, ncols := p.ncols, rowcount := p.rowcount, pkMin := p.pkMin, pkMax := p.pkMax
      bloom := (p.bloom.map UInt64.toNat).map UInt64.ofNat
      crcs := (p.crcs.map UInt32.toNat).map UInt32.ofNat, colFmts := p.colFmts
      granules := [] } : SealedPart)) := by
    simp [List.map_map, Function.comp_def]
  rw [hresult]
  exact hmagic.bind (hver.bind ((readsBack_str h.table).bind ((readsBack_size h.ncols).bind
    ((readsBack_size h.rowcount).bind ((readsBack_str h.pkMin).bind ((readsBack_str h.pkMax).bind
    ((readsBack_size h.bloom).bind (hbloom.bind ((readsBack_size h.crcs).bind (hcrcs.bind
    (hfmts.map _)))))))))))

/-- A part with an index is read back as it was. -/
theorem readMpartMeta_eq {files : PartFiles} {p : SealedPart} (h : p.Fits)
    (hmeta : files.metadata = p.encodeMeta)
    (hidx : files.idx = some (encodeGranuleIndex p.granules p.ncols p.colFmts)) :
    readMpartMeta files = some p := by
  have hread := readsBack_meta h []
  have hgs := readsBack_granuleIndex h.colFmts h.ncols h.length h.granules []
  rw [List.append_nil] at hread hgs
  have hver : (4 : Int64) ≤ 4 := by decide
  rw [readMpartMeta, hmeta, hread, Option.bind_some, if_pos hver, hidx, Option.bind_some]
  dsimp only
  rw [hgs]
  rfl

/-- A part without an index is not read. -/
theorem readMpartMeta_eq_none {files : PartFiles} {p : SealedPart} (h : p.Fits)
    (hmeta : files.metadata = p.encodeMeta) (hidx : files.idx = none) :
    readMpartMeta files = none := by
  have hread := readsBack_meta h []
  rw [List.append_nil] at hread
  have hver : (4 : Int64) ≤ 4 := by decide
  rw [readMpartMeta, hmeta, hread, Option.bind_some, if_pos hver, hidx]
  rfl

end Ydbgo.Mpart
