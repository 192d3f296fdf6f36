import Ydbgo.Lib.BigEndian
import Ydbgo.Lib.Bitmap
import Ydbgo.Lib.Granules
import Ydbgo.Storage.RowCodec

/-! # Parts on disk

`writePart` and the loads of `mpart.go`. A part has a file of keys, a file of
tombstone bits and a file for every column, each cut into blocks of one granule
of rows; a sparse index with the offsets of the blocks; and a file of metadata.
A column of numbers of one type is packed into integers of fixed width, any
other column is a sequence of blobs.
-/

namespace Ydbgo.Mpart

open Storage (ColType SqlValue appendVar appendVariant unzigzag)

/-- The LZ4 package: a block is not compressed where `CompressBlock` returns 0, and `UncompressBlock`
fills a buffer of the given length. -/
structure Lz4 where
  compressBlock : Bytes → Option Bytes
  uncompressBlock : Bytes → ℕ → Option Bytes
  write : Bytes → Bytes
  read : Bytes → Option Bytes

/-- A buffered row: one blob a column, and fewer or empty ones where the write left columns out. -/
structure MemRow where
  pk : Bytes
  cells : List Bytes
  del : Bool
  deriving DecidableEq, Repr

/-- The cell of a column, empty if it is missing. -/
def MemRow.cell (r : MemRow) (c : ℕ) : Bytes := r.cells.getD c []

def mpartGranuleRows : ℕ := 65536

/-! ### Blobs -/

def encodeFrames (blobs : List Bytes) : Bytes :=
  blobs.flatMap fun b => putUvarint (.ofNat b.length) ++ b

/-- The loop over the rest of the bytes, with as many rounds left as bytes at the start. -/
def decodeFramesFrom : ℕ → Bytes → List Bytes
  | 0, _ => []
  | fuel + 1, raw =>
    match uvarint raw with
    | none => []
    | some (l, n) =>
      if raw.length - n < l.toNat then []
      else (raw.drop n).take l.toNat :: decodeFramesFrom fuel (raw.drop (n + l.toNat))

def decodeFrames (raw : Bytes) : List Bytes := decodeFramesFrom raw.length raw

/-! ### Numbers -/

/-- The type of a cell that is a well-formed number or a null of a numeric type. -/
def numericType : Bytes → Option ColType
  | b :: null :: rest =>
    ([ColType.int, .float, .timestamp].find? fun t => t.toByte = b).bind fun t =>
      if null ≠ 0 ∨ (uvarint rest).isSome then some t else none
  | _ => none

/-- The type of a column, if all of its cells are numbers of one type. -/
def denseColumnType : List Bytes → Option ColType
  | [] => none
  | cell :: cells =>
    (numericType cell).bind fun t =>
      if cells.all fun cell => numericType cell = some t then some t else none

def isNullCell (cell : Bytes) : Bool := (cell.drop 1).head? != some 0

/-- The integer of a cell, or the bits of its float. A null has 0. -/
def denseValue (cell : Bytes) : Int64 :=
  if isNullCell cell then 0 else ((uvarint (cell.drop 2)).map fun p => unzigzag p.1).getD 0

def bitsToBytes (ws : List (BitVec 8)) : Bytes := ws.map UInt8.ofBitVec

def bytesToBits (s : Bytes) : List (BitVec 8) := s.map UInt8.toBitVec

def bigEndian64 (n : Int64) : Bytes := beBytes 8 n.toUInt64.toNat

def encodeDenseNumeric (cells : List Bytes) : Bytes :=
  putUvarint (.ofNat cells.length) ++ bitsToBytes (bitmap 8 (cells.map isNullCell)) ++
    cells.flatMap fun cell => bigEndian64 (denseValue cell)

def decodeDenseNumeric (raw : Bytes) : Option (List Int64 × List (BitVec 64)) :=
  (uvarint raw).bind fun p =>
    let raw := raw.drop p.2
    let n := p.1.toNat
    let bits := (n + 7) / 8
    if raw.length < bits + n * 8 then none
    else some ((List.range n).map fun i =>
        (UInt64.ofNat (beNat ((raw.drop (bits + i * 8)).take 8))).toInt64,
      bitmap 64 ((List.range n).map (testBit (bytesToBits raw))))

/-- The cell of a value, as the writer of rows encodes it. -/
def denseCell (t : ColType) (null : Bool) (val : Int64) : Bytes :=
  appendVariant (match t with
    | .float => { typ := t, null := null, f := val.toUInt64 }
    | _ => { typ := t, null := null, i := val })

def denseToCells (vals : List Int64) (nulls : List (BitVec 64)) (t : ColType) : List Bytes :=
  vals.mapIdx fun i val => denseCell t (testBit nulls i) val

/-! ### The metadata of a part -/

/-- A block's place in its file, and its uncompressed size; 0 is a frame. -/
structure BlockOff where
  off : ℕ := 0
  len : ℕ := 0
  raw : ℕ := 0
  deriving DecidableEq, Repr

structure MpartGranule where
  pkMax : Bytes
  pk : BlockOff
  del : BlockOff
  cols : List BlockOff
  /-- The least and the greatest value of each dense column. -/
  zones : List (Int64 × Int64)
  deriving DecidableEq, Repr

structure SealedPart where
  table : Bytes
  ncols : ℕ
  rowcount : ℕ
  pkMin : Bytes
  pkMax : Bytes
  bloom : List UInt64
  crcs : List UInt32
  colFmts : Bytes
  granules : List MpartGranule
  deriving DecidableEq, Repr

structure PartFiles where
  pk : Bytes
  cols : List Bytes
  del : Bytes
  idx : Option Bytes
  metadata : Bytes

def colFmtDense (t : ColType) : UInt8 := 1 + t.toByte

/-- The type of a dense column's tag. -/
def colFmtType (f : UInt8) : Option ColType :=
  if 1 ≤ f then ColType.ofByte (f - 1) else none

def SealedPart.denseType (p : SealedPart) (c : ℕ) : Option ColType := (p.colFmts[c]?).bind colFmtType

/-! ### Bloom filter -/

def bloomHashes (words : ℕ) (pk : Bytes) : UInt64 × UInt64 :=
  let h := pk.foldl (fun h c => ((h.1 ^^^ c.toUInt64) * 1099511628211,
    (h.2 ^^^ c.toUInt64) * 1469598103934665603)) (1469598103934665603, 1099511628211)
  let m := UInt64.ofNat (words * 64)
  (h.1 % m, h.2 % m)

def setBloomBit (bits : List UInt64) (i : UInt64) : List UInt64 :=
  bits.modify (i >>> 6).toNat fun x => x ||| 1 <<< (i &&& 63)

/-- `mpartBloom.add`. -/
def bloomAdd (bits : List UInt64) (pk : Bytes) : List UInt64 :=
  let h := bloomHashes bits.length pk
  setBloomBit (setBloomBit bits h.1) h.2

/-- `newMpartBloom` with the keys of the rows. -/
def bloomOf (rows : List MemRow) : List UInt64 :=
  rows.foldl (fun bits r => bloomAdd bits r.pk) (List.replicate (rows.length * 4 / 64 + 1) 0)

/-! ### Writing -/

section Write

variable (lz : Lz4)

/-- A block that cannot be compressed is stored as it is. -/
def mustLZ4Block (plain : Bytes) : Bytes := (lz.compressBlock plain).getD plain

/-- The file of the blocks and their places. -/
def writeGranuleBlocks (plains : List Bytes) : Bytes × List BlockOff :=
  let blocks := plains.map (mustLZ4Block lz)
  (blocks.flatten, List.zipWith (fun off (plain : Bytes) =>
    { off := off, len := (mustLZ4Block lz plain).length, raw := plain.length })
    (offsets 0 blocks) plains)

/-- A value of `decodeNumericCell` that is no null. -/
def zoneValue (t : ColType) (cell : Bytes) : Option Int64 :=
  match cell with
  | b :: null :: rest =>
    if t = .float ∧ b ≠ ColType.float.toByte ∨ null = 1 then none
    else (uvarint rest).map fun p => unzigzag p.1
  | _ => none

def granuleNumericZone (rows : List MemRow) (c : ℕ) (t : ColType) : Int64 × Int64 :=
  match rows.filterMap fun r => zoneValue t (r.cell c) with
  | [] => (0, 0)
  | v :: vs => (vs.foldl (fun m v => if v < m then v else m) v,
    vs.foldl (fun m v => if m < v then v else m) v)

def pkBlock (rows : List MemRow) : Bytes := encodeFrames (rows.map MemRow.pk)

def delBlock (rows : List MemRow) : Bytes := bitsToBytes (bitmap 8 (rows.map MemRow.del))

def columnBlock (dense : Option ColType) (c : ℕ) (rows : List MemRow) : Bytes :=
  let blobs := rows.map fun r => r.cell c
  match dense with
  | some _ => encodeDenseNumeric blobs
  | none => encodeFrames blobs

def partCols (rows : List MemRow) : ℕ := rows.foldl (fun n r => max n r.cells.length) 0

/-- Decided for the whole part. -/
def colDense (rows : List MemRow) (c : ℕ) : Option ColType :=
  denseColumnType (rows.map fun r => r.cell c)

def colFmt (dense : Option ColType) : UInt8 :=
  match dense with
  | some t => colFmtDense t
  | none => 0

def appendStr (s : Bytes) : Bytes := appendVar (.ofNat s.length) ++ s

def appendSize (n : ℕ) : Bytes := appendVar (.ofNat n)

def appendBlockOff (b : BlockOff) : Bytes := appendSize b.off ++ (appendSize b.len ++ appendSize b.raw)

def appendZones (colFmts : Bytes) (zones : List (Int64 × Int64)) : Bytes :=
  (List.zip colFmts zones).flatMap fun z =>
    if (colFmtType z.1).isSome then appendVar z.2.1 ++ appendVar z.2.2 else []

def appendGranule (colFmts : Bytes) (g : MpartGranule) : Bytes :=
  appendStr g.pkMax ++ (appendBlockOff g.pk ++ (appendBlockOff g.del ++
    (g.cols.flatMap appendBlockOff ++ appendZones colFmts g.zones)))

def mpartIdxMagic : Bytes := ascii "MPIDX1"

def encodeGranuleIndex (gs : List MpartGranule) (ncols : ℕ) (colFmts : Bytes) : Bytes :=
  appendStr mpartIdxMagic ++ (appendVar 3 ++ (appendSize ncols ++ (appendSize gs.length ++
    gs.flatMap (appendGranule colFmts))))

def littleEndian (w n : ℕ) : Bytes := (beBytes w n).reverse

def mpartMagic : Bytes := ascii "MPART1"

def SealedPart.encodeMeta (p : SealedPart) : Bytes :=
  appendStr mpartMagic ++ (appendVar 4 ++ (appendStr p.table ++ (appendSize p.ncols ++
    (appendSize p.rowcount ++ (appendStr p.pkMin ++ (appendStr p.pkMax ++
    (appendSize p.bloom.length ++ ((p.bloom.flatMap fun w => littleEndian 8 w.toNat) ++
    (appendSize p.crcs.length ++ ((p.crcs.flatMap fun c => littleEndian 4 c.toNat) ++
    (appendSize p.colFmts.length ++ p.colFmts)))))))))))

variable (crc32 : Bytes → UInt32)

/-- `writePart` for a table. A part without rows has no index. -/
def writePart (table : Bytes) (rows : List MemRow) : PartFiles × SealedPart :=
  let ncols := partCols rows
  let colFmts := (List.range ncols).map fun c => colFmt (colDense rows c)
  if rows = [] then
    let p : SealedPart := {
      table := table, ncols := ncols, rowcount := 0, pkMin := [], pkMax := [], bloom := bloomOf rows
      crcs := [crc32 (encodeFrames [])], colFmts := colFmts, granules := [] }
    ({ pk := lz.write (encodeFrames []), cols := [], del := lz.write [], idx := none
       metadata := p.encodeMeta }, p)
  else
    let gs := granules mpartGranuleRows rows
    let pks := writeGranuleBlocks lz (gs.map pkBlock)
    let cols := (List.range ncols).map fun c =>
      writeGranuleBlocks lz (gs.map (columnBlock (colDense rows c) c))
    let dels := writeGranuleBlocks lz (gs.map delBlock)
    let p : SealedPart := {
      table := table, ncols := ncols, rowcount := rows.length
      pkMin := (rows.head?.map MemRow.pk).getD [], pkMax := (rows.getLast?.map MemRow.pk).getD []
      bloom := bloomOf rows
      crcs := crc32 pks.1 :: cols.map fun col => crc32 col.1
      colFmts := colFmts
      granules := gs.mapIdx fun g rows' => {
        pkMax := (rows'.getLast?.map MemRow.pk).getD []
        pk := (pks.2[g]?).getD {}
        del := (dels.2[g]?).getD {}
        cols := cols.map fun col => (col.2[g]?).getD {}
        zones := (List.range ncols).map fun c =>
          match colDense rows c with
          | some t => granuleNumericZone rows' c t
          | none => (0, 0) } }
    ({ pk := pks.1, cols := cols.map Prod.fst, del := dels.1
       idx := some (encodeGranuleIndex p.granules ncols colFmts), metadata := p.encodeMeta }, p)

end Write

/-! ### Reading -/

section Read

variable (lz : Lz4)

/-- `expandBlock`: a frame, a block that was stored, or a compressed block. -/
def expandBlock (blk : Bytes) (raw : ℕ) : Option Bytes :=
  if raw = 0 then lz.read blk
  else if blk.length = raw then some blk
  else lz.uncompressBlock blk raw

def readGranule (file : Bytes) (b : BlockOff) : Option Bytes :=
  (slice file b.off b.len).bind fun blk => expandBlock lz blk b.raw

/-- The bits of a tombstone block for `n` rows. -/
def decodeDels (n : ℕ) (dec : Bytes) : Option (List Bool) :=
  if dec.length < (n + 7) / 8 then none
  else some ((List.range n).map (testBit (bytesToBits dec)))

variable (files : PartFiles) (p : SealedPart)

/-- The number of rows of a granule. -/
def SealedPart.granuleRows (g : ℕ) : ℕ :=
  min (g * mpartGranuleRows + mpartGranuleRows) p.rowcount - g * mpartGranuleRows

def SealedPart.colBlock (g c : ℕ) : BlockOff :=
  ((p.granules[g]?).bind fun gr => gr.cols[c]?).getD {}

def loadGranulePks (g : ℕ) : Option (List Bytes) :=
  match p.granules[g]? with
  | none => some []
  | some gr => (readGranule lz files.pk gr.pk).map decodeFrames

def loadGranuleDels (g : ℕ) : Option (List Bool) :=
  match p.granules[g]? with
  | none => some []
  | some gr => (readGranule lz files.del gr.del).bind (decodeDels (p.granuleRows g))

/-- A column's block of a granule. -/
def readColumnBlock (g c : ℕ) : Option Bytes :=
  (files.cols[c]?).bind fun file => readGranule lz file (p.colBlock g c)

def loadGranuleDense (g c : ℕ) : Option (List Int64 × List (BitVec 64)) :=
  if p.granules.length ≤ g ∨ p.ncols ≤ c then some ([], [])
  else (readColumnBlock lz files p g c).bind decodeDenseNumeric

def loadGranuleCol (g c : ℕ) : Option (List Bytes) :=
  if p.granules.length ≤ g ∨ p.ncols ≤ c then some []
  else (readColumnBlock lz files p g c).bind fun raw =>
    match p.denseType c with
    | some t => (decodeDenseNumeric raw).map fun d => denseToCells d.1 d.2 t
    | none => some (decodeFrames raw)

def loadGranuleFull (g : ℕ) : Option (List (List Bytes)) :=
  if p.granules.length ≤ g then some []
  else ((List.range p.ncols).mapM fun c => loadGranuleCol lz files p g c).map fun cols =>
    (List.range (p.granuleRows g)).map fun i => cols.filterMap fun cells => cells[i]?

def loadPks : Option (List Bytes) :=
  if p.granules ≠ [] then
    (p.granules.mapM fun gr => (readGranule lz files.pk gr.pk).map decodeFrames).map List.flatten
  else (lz.read files.pk).map decodeFrames

def loadDels : Option (List Bool) :=
  if p.granules ≠ [] then
    ((List.range p.granules.length).mapM fun g =>
      (readGranule lz files.del ((p.granules.map MpartGranule.del).getD g {})).bind
        (decodeDels (p.granuleRows g))).map List.flatten
  else (lz.read files.del).bind (decodeDels p.rowcount)

/-- `decodeDenseColGranules`. -/
def decodeDenseColGranules (c : ℕ) : Option (List Int64 × List (BitVec 64)) :=
  ((List.range p.granules.length).mapM fun g =>
    (readColumnBlock lz files p g c).bind decodeDenseNumeric).map fun ds =>
      ((ds.map Prod.fst).flatten, (ds.map Prod.snd).flatten)

/-- The values and nulls of a dense column; `none` inside for another column. -/
def loadColDense (c : ℕ) : Option (Option (List Int64 × List (BitVec 64))) :=
  if p.ncols ≤ c ∨ p.denseType c = none then some none
  else if p.granules ≠ [] then (decodeDenseColGranules lz files p c).map some
  else (((files.cols[c]?).bind lz.read).bind decodeDenseNumeric).map some

/-- The cells of a column; a part has missing cells for a column that it does not know. -/
def loadColCells (c : ℕ) : Option (List Bytes) :=
  match p.denseType c with
  | some t => (loadColDense lz files p c).bind fun d => d.map fun d => denseToCells d.1 d.2 t
  | none =>
    if p.granules ≠ [] then
      ((List.range p.granules.length).mapM fun g =>
        (readColumnBlock lz files p g c).map decodeFrames).map List.flatten
    else ((files.cols[c]?).bind lz.read).map decodeFrames

def loadCol (c : ℕ) : Option (List Bytes × List Bytes) :=
  (loadPks lz files p).bind fun pks =>
    if p.ncols ≤ c then some (pks, List.replicate pks.length [])
    else (loadColCells lz files p c).map fun cells => (pks, cells)

def loadRows : Option (List Bytes × List (List Bytes)) :=
  (loadPks lz files p).bind fun pks =>
    ((List.range p.ncols).mapM fun c => (loadCol lz files p c).map Prod.snd).bind fun cols =>
      ((List.range pks.length).mapM fun i => cols.mapM fun cells => cells[i]?).map fun full =>
        (pks, full)

end Read

end Ydbgo.Mpart
