import Ydbgo.Mpart.PartIndex
import Ydbgo.Storage.Reader

/-! # Opening parts

`readMpartMeta` with the panics of its index and slice expressions, on the files
of a part that may have been cut. The words of the bloom filter and the checksums
are taken out of the slice that `Take` returns without a look at its length.
-/

namespace Ydbgo.Mpart.Recovery

open Storage Cursor

/-! ### The reader -/

/-- A length or an offset. A negative one, which no writer writes, stands for 0. -/
def size : Decode ℕ := do
  let n ← Reader.var
  return n.toInt.toNat

/-- `make` of a slice with elements of so many bytes. -/
def makeSlice (bytes : ℕ) (n : Int64) : Decode Unit :=
  if 0 ≤ n.toInt ∧ bytes * n.toInt ≤ 2 ^ 48 then pure () else throw .panic

def require (p : Prop) [Decidable p] (e : CodecError) : Decode Unit :=
  if p then pure () else throw (.error e)

/-- The loop over `raw[i*w:]`. -/
def wordsOf (w : ℕ) : ℕ → Bytes → Decode (List ℕ)
  | 0, _ => pure []
  | n + 1, raw =>
    if raw.length < w then throw .panic
    else do
      let ws ← wordsOf w n (raw.drop w)
      return beNat (raw.take w).reverse :: ws

/-- A count and as many words of `w` bytes. -/
def words (w : ℕ) : Decode (List ℕ) := do
  let n ← Reader.var
  makeSlice w n
  let raw ← Reader.take (n * .ofNat w)
  wordsOf w n.toInt.toNat raw

def sizeIf (has : Bool) : Decode ℕ := if has then size else pure 0

def blockOff (ver : Int64) : Decode BlockOff := do
  let off ← size
  let len ← size
  let raw ← sizeIf (2 ≤ ver)
  return { off := off, len := len, raw := raw }

def zone : Decode (Int64 × Int64) := do
  let lo ← Reader.var
  let hi ← Reader.var
  return (lo, hi)

def zoneIf (has : Bool) : Decode (Int64 × Int64) := if has then zone else pure (0, 0)

/-- The loop over the columns, which looks up the format of each. -/
def zones : ℕ → Bytes → Decode (List (Int64 × Int64))
  | 0, _ => pure []
  | _ + 1, [] => throw .panic
  | n + 1, f :: fs => do
    let z ← zoneIf (colFmtType f).isSome
    let zs ← zones n fs
    return z :: zs

def granuleZones (ver ncols : Int64) (colFmts : Bytes) : Decode (List (Int64 × Int64)) :=
  if 3 ≤ ver then do
    makeSlice 8 ncols
    makeSlice 8 ncols
    zones ncols.toInt.toNat colFmts
  else pure []

def granuleEntry (ver ncols : Int64) (colFmts : Bytes) : Decode MpartGranule := do
  let pkMax ← Reader.bytes
  let pk ← blockOff ver
  let del ← blockOff ver
  let cols ← many (blockOff ver) ncols.toInt.toNat
  let zs ← granuleZones ver ncols colFmts
  return { pkMax := pkMax, pk := pk, del := del, cols := cols, zones := zs }

/-- The version and the number of columns. -/
def indexPrefix : Decode (Int64 × Int64) := do
  let magic ← Reader.str
  require (magic = mpartIdxMagic) .badIdxMagic
  let ver ← Reader.var
  require (ver = 1 ∨ ver = 2 ∨ ver = 3) .badIdxVersion
  let n ← Reader.var
  return (ver, n)

/-- The version and the number of granules. -/
def indexHead (ncols : Int64) : Decode (Int64 × Int64) := do
  let h ← indexPrefix
  require (h.2 = ncols) .idxNcolsMismatch
  let ng ← Reader.var
  return (h.1, ng)

def indexEntries (ncols : Int64) (colFmts : Bytes) (ver ng : Int64) : Decode (List MpartGranule) := do
  makeSlice 192 ng
  many (granuleEntry ver ncols colFmts) ng.toInt.toNat

def indexRest (ncols : Int64) (colFmts : Bytes) (h : Int64 × Int64) : Decode (List MpartGranule) :=
  if h.2.toInt < 0 then pure []
  else do
    let gs ← indexEntries ncols colFmts h.1 h.2
    check
    return gs

def granuleIndex (ncols : Int64) (colFmts : Bytes) : Decode (List MpartGranule) := do
  let h ← indexHead ncols
  check
  indexRest ncols colFmts h

def decodeGranuleIndex (raw : Bytes) (ncols : Int64) (colFmts : Bytes) :
    Except (Stop CodecError) (List MpartGranule) :=
  ((granuleIndex ncols colFmts).exec (makeReader raw)).1

structure MetaHead where
  ver : Int64
  table : Bytes
  ncols : Int64
  rowcount : Int64
  pkMin : Bytes
  pkMax : Bytes

def metaHead : Decode MetaHead := do
  let magic ← Reader.str
  require (magic = mpartMagic) .badMagic
  let ver ← Reader.var
  require (ver = 2 ∨ ver = 3 ∨ ver = 4) .unsupportedVersion
  let table ← Reader.str
  let ncols ← Reader.var
  let rowcount ← Reader.var
  let pkMin ← Reader.bytes
  let pkMax ← Reader.bytes
  return { ver := ver, table := table, ncols := ncols, rowcount := rowcount, pkMin := pkMin
           pkMax := pkMax }

def colFmts (ver ncols : Int64) : Decode Bytes :=
  if 3 ≤ ver then do
    let nf ← Reader.var
    let fmts ← Reader.take nf
    require (ncols.toInt ≤ fmts.length) .shortColFmts
    return fmts
  else pure []

/-- The index is in a file of its own. -/
def granulesOf (idx : Option Bytes) (ver ncols : Int64) (fmts : Bytes) : Decode (List MpartGranule) :=
  if 4 ≤ ver then
    match idx with
    | none => throw (.error .noSuchFile)
    | some raw =>
      match decodeGranuleIndex raw ncols fmts with
      | .ok gs => pure gs
      | .error e => throw e
  else pure []

def metaTail (idx : Option Bytes) (h : MetaHead) (bloom crcs : List ℕ) : Decode SealedPart := do
  let fmts ← colFmts h.ver h.ncols
  let gs ← granulesOf idx h.ver h.ncols fmts
  return {
    table := h.table, ncols := h.ncols.toInt.toNat, rowcount := h.rowcount.toInt.toNat
    pkMin := h.pkMin, pkMax := h.pkMax, bloom := bloom.map UInt64.ofNat
    crcs := crcs.map UInt32.ofNat, colFmts := fmts, granules := gs }

def metadata (idx : Option Bytes) : Decode SealedPart := do
  let h ← metaHead
  let bloom ← words 8
  let crcs ← words 4
  metaTail idx h bloom crcs

/-- `readMpartMeta`. -/
def readPart (files : PartFiles) : Except (Stop CodecError) SealedPart :=
  ((do
    let p ← metadata files.idx
    check
    return p : Decode SealedPart).exec (makeReader files.metadata)).1

/-! ### What is written is taken -/

theorem takes_require {p : Prop} [Decidable p] (h : p) (e : CodecError) : Takes (require p e) [] () := by
  rw [require, if_pos h]
  exact takes_pure ()

theorem Takes.required {α : Type} {p : Prop} [Decidable p] {m : Decode α} {bs : Bytes} {a : α}
    (h : Takes m bs a) (hp : p) (e : CodecError) : Takes (require p e >>= fun _ => m) bs a :=
  (takes_require hp e).bind h

theorem takes_magic {s : Bytes} (h : s.length < 2 ^ 63) : Takes Reader.str (appendStr s) s :=
  takes_str h .stringOutOfRange

theorem takes_bytes {s : Bytes} (h : s.length < 2 ^ 63) : Takes Reader.bytes (appendStr s) s :=
  takes_str h .bytesOutOfRange

theorem takes_count (n : ℕ) : Takes Reader.var (appendSize n) (.ofNat n) := takes_var _

theorem cuts_require (p : Prop) [Decidable p] (e : CodecError) : Cuts (require p e) :=
  .ite (fun _ => cuts_pure ()) fun _ => cuts_throw e

theorem takes_makeSlice {bytes : ℕ} {n : ℕ} (h : bytes * n ≤ 2 ^ 48) (hn : n < 2 ^ 63) :
    Takes (makeSlice bytes (.ofNat n)) [] () := by
  have hint := toInt_ofNat_length hn
  rw [makeSlice, if_pos ⟨by omega, by rw [hint]; exact_mod_cast h⟩]
  exact takes_pure ()

theorem cutsOk_makeSlice (bytes : ℕ) (n : Int64) : CutsOk (makeSlice bytes n) := by
  unfold makeSlice
  split
  · exact (cuts_pure ()).toCutsOk
  · exact cutsOk_throw _

/-- The slice that was written can be made again. -/
theorem cuts_makeSlice {bytes : ℕ} {n : ℕ} (h : bytes * n ≤ 2 ^ 48) (hn : n < 2 ^ 63) :
    Cuts (makeSlice bytes (.ofNat n)) := by
  have hint := toInt_ofNat_length hn
  rw [makeSlice, if_pos ⟨by omega, by rw [hint]; exact_mod_cast h⟩]
  exact cuts_pure ()

theorem takes_size {n : ℕ} (h : n < 2 ^ 63) : Takes size (appendSize n) n := by
  have hsize := (takes_var (.ofNat n)).map fun n : Int64 => n.toInt.toNat
  rwa [toInt_ofNat_length h, Int.toNat_natCast] at hsize

theorem cuts_size : Cuts size := cuts_var.map _

theorem takes_blockOff {b : BlockOff} (h : b.Fits) : Takes (blockOff 3) (appendBlockOff b) b :=
  (takes_size h.off).bind ((takes_size h.len).bind ((takes_size h.raw).map _))

theorem cuts_blockOff (ver : Int64) : Cuts (blockOff ver) :=
  cuts_size.bind fun _ => cuts_size.bind fun _ =>
    (Cuts.ite (fun _ => cuts_size) fun _ => cuts_pure 0).map _

theorem cuts_zone : Cuts zone := cuts_var.bind fun _ => cuts_var.map _

theorem takes_zones {fmts : Bytes} {zs : List (Int64 × Int64)} (h : ZonesOf fmts zs) :
    Takes (zones fmts.length fmts) (appendZones fmts zs) zs := by
  induction h with
  | nil => exact takes_pure []
  | @cons f z fs zs hz _ ih =>
    have hfirst : Takes (zoneIf (colFmtType f).isSome)
        (if (colFmtType f).isSome then appendVar z.1 ++ appendVar z.2 else []) z := by
      unfold zoneIf
      split
      · exact (takes_var z.1).bind ((takes_var z.2).map _)
      · next hf =>
        obtain rfl := hz.resolve_left hf
        exact takes_pure (0, 0)
    exact hfirst.bind (ih.map fun zs => z :: zs)

theorem cuts_zones {n : ℕ} {fmts : Bytes} (h : n ≤ fmts.length) : Cuts (zones n fmts) := by
  induction n generalizing fmts with
  | zero => exact cuts_pure []
  | succ n ih =>
    cases fmts with
    | nil => cases h
    | cons f fs =>
      exact (Cuts.ite (fun _ => cuts_zone) fun _ => cuts_pure (0, 0)).bind fun z =>
        (ih (Nat.le_of_succ_le_succ h)).map fun zs => z :: zs

/-- The slices with an element for each column, granule, word or checksum were made by the writer. -/
structure Makes (p : SealedPart) : Prop where
  ncols : 8 * p.ncols ≤ 2 ^ 48
  bloom : 8 * p.bloom.length ≤ 2 ^ 48
  crcs : 4 * p.crcs.length ≤ 2 ^ 48
  granules : 192 * p.granules.length ≤ 2 ^ 48

variable {p : SealedPart}

theorem takes_granule (h : p.Fits) (hm : Makes p) {g : MpartGranule} (hg : g ∈ p.granules) :
    Takes (granuleEntry 3 (.ofNat p.ncols) p.colFmts) (appendGranule p.colFmts g) g := by
  have hfit := h.granules g hg
  have hint := toInt_ofNat_length h.ncols
  have hcols : Takes (many (blockOff 3) (Int64.ofNat p.ncols).toInt.toNat)
      (g.cols.flatMap appendBlockOff) g.cols := by
    have hmany := takes_many fun b hb => takes_blockOff (hfit.cols b hb)
    rw [List.map_id'] at hmany
    rwa [hint, Int.toNat_natCast, ← hfit.length]
  have hzones : Takes (granuleZones 3 (.ofNat p.ncols) p.colFmts) (appendZones p.colFmts g.zones)
      g.zones := by
    have htakes := takes_zones hfit.zones
    rw [granuleZones, if_pos (by decide), hint, Int.toNat_natCast, ← h.colFmts]
    have hmake := takes_makeSlice hm.ncols h.ncols
    rw [← h.colFmts] at hmake
    exact hmake.bind (hmake.bind htakes)
  exact (takes_str hfit.pkMax .bytesOutOfRange).bind ((takes_blockOff hfit.pk).bind
    ((takes_blockOff hfit.del).bind (hcols.bind (hzones.map _))))

theorem cuts_granule (h : p.Fits) (hm : Makes p) :
    Cuts (granuleEntry 3 (.ofNat p.ncols) p.colFmts) := by
  have hint := toInt_ofNat_length h.ncols
  have hmake := cuts_makeSlice hm.ncols h.ncols
  have hzones : Cuts (granuleZones 3 (.ofNat p.ncols) p.colFmts) := by
    rw [granuleZones, if_pos (by decide), hint, Int.toNat_natCast]
    exact hmake.bind fun _ => hmake.bind fun _ => cuts_zones (le_of_eq h.colFmts.symm)
  exact cuts_bytes.bind fun _ => (cuts_blockOff 3).bind fun _ => (cuts_blockOff 3).bind fun _ =>
    ((cuts_blockOff 3).many _).bind fun _ => hzones.map _

/-! ### The index -/

/-- The bytes in front of the granules. -/
def indexBytes (p : SealedPart) : Bytes :=
  appendStr mpartIdxMagic ++ (appendVar 3 ++ (appendSize p.ncols ++ appendSize p.granules.length))

def granuleBytes (p : SealedPart) : Bytes := p.granules.flatMap (appendGranule p.colFmts)

/-- The index that the writer makes. -/
def idxOf (p : SealedPart) : Bytes := encodeGranuleIndex p.granules p.ncols p.colFmts

theorem idxOf_eq (p : SealedPart) :
    idxOf p = indexBytes p ++ granuleBytes p := by
  simp only [idxOf, encodeGranuleIndex, indexBytes, granuleBytes, List.append_assoc]

theorem takes_indexPrefix (p : SealedPart) : Takes indexPrefix
    (appendStr mpartIdxMagic ++ (appendVar 3 ++ appendSize p.ncols)) (3, .ofNat p.ncols) := by
  have hmagic : Takes Reader.str (appendStr mpartIdxMagic) mpartIdxMagic :=
    takes_str (by decide) .stringOutOfRange
  have hver := (takes_require (p := (3 : Int64) = 1 ∨ (3 : Int64) = 2 ∨ (3 : Int64) = 3) (by decide)
    .badIdxVersion).bind (f := fun _ => Reader.var >>= fun n => pure ((3 : Int64), n))
    ((takes_var (.ofNat p.ncols)).map _)
  exact hmagic.bind ((takes_require rfl _).bind ((takes_var 3).bind hver))

theorem cuts_indexPrefix : Cuts indexPrefix :=
  cuts_str.bind fun _ => (cuts_require _ _).bind fun _ => cuts_var.bind fun _ =>
    (cuts_require _ _).bind fun _ => cuts_var.map _

theorem takes_indexHead (p : SealedPart) :
    Takes (indexHead (.ofNat p.ncols)) (indexBytes p) (3, .ofNat p.granules.length) := by
  have hlast := (takes_var (.ofNat p.granules.length)).map fun ng => ((3 : Int64), ng)
  have hhead := (takes_indexPrefix p).bind (f := fun h => require (h.2 = .ofNat p.ncols)
    .idxNcolsMismatch >>= fun _ => Reader.var >>= fun ng => pure (h.1, ng))
    ((takes_require rfl _).bind hlast)
  have hbytes : indexBytes p = (appendStr mpartIdxMagic ++ (appendVar 3 ++ appendSize p.ncols)) ++
      appendSize p.granules.length := by simp only [indexBytes, List.append_assoc]
  rw [hbytes]
  exact hhead

theorem cuts_indexHead (ncols : Int64) : Cuts (indexHead ncols) :=
  cuts_indexPrefix.bind fun _ => (cuts_require _ _).bind fun _ => cuts_var.map _

theorem takes_indexEntries (h : p.Fits) (hm : Makes p) :
    Takes (indexEntries (.ofNat p.ncols) p.colFmts 3 (.ofNat p.granules.length))
      (granuleBytes p) p.granules := by
  have hmany := takes_many fun g hg => takes_granule h hm hg
  rw [List.map_id'] at hmany
  have hbind := (takes_makeSlice hm.granules h.length).bind (f := fun _ => _) hmany
  rwa [indexEntries, toInt_ofNat_length h.length, Int.toNat_natCast]

theorem cutsOk_indexEntries (h : p.Fits) (hm : Makes p) (ng : Int64) :
    CutsOk (indexEntries (.ofNat p.ncols) p.colFmts 3 ng) :=
  (cutsOk_makeSlice _ _).bind fun _ => (cuts_granule h hm).many _

/-- An index whose head cannot be read is an error. -/
theorem decode_of_failed {raw : Bytes} {ncols : Int64}
    (h : Failed ((indexHead ncols).exec (makeReader raw))) (fmts : Bytes) :
    ∃ e, decodeGranuleIndex raw ncols fmts = .error (.error e) := by
  have hcheck : ∃ e, ((indexHead ncols >>= fun h => check >>= fun _ => indexRest ncols fmts h).exec
      (makeReader raw)).1 = .error (.error e) := exec_check_bind h
  exact hcheck

/-- A cut index is an error. -/
theorem decode_cut (h : p.Fits) (hm : Makes p) (hlen : (idxOf p).length < 2 ^ 63) {j : ℕ}
    (hj : j < (idxOf p).length) :
    ∃ e, decodeGranuleIndex ((idxOf p).take j) (.ofNat p.ncols) p.colFmts = .error (.error e) := by
  have hrest : Rest (idxOf p) (indexBytes p ++ (granuleBytes p ++ [])) := by
    rw [List.append_nil, ← idxOf_eq]
    exact rest_self hlen
  have hcursor : makeReader ((idxOf p).take j) =
      (before (idxOf p) (indexBytes p ++ (granuleBytes p ++ [])) : Cursor CodecError).cut j := by
    rw [makeReader_take, List.append_nil, ← idxOf_eq]
  have hsize : (idxOf p).length = (indexBytes p).length + (granuleBytes p).length := by
    rw [idxOf_eq, List.length_append]
  by_cases hhead : j < (indexBytes p).length
  · apply decode_of_failed
    rw [hcursor]
    apply (cuts_indexHead _).cut_within (takes_indexHead p) hrest
    · simp only [List.append_nil, List.length_append]
      omega
    · simp only [List.append_nil]
      omega
  · have hkeep := (cuts_indexHead _).cut_after (takes_indexHead p) hrest (k := j)
      (by simp only [List.append_nil]; omega)
    have hentries := (cutsOk_indexEntries h hm _).cut_within (takes_indexEntries h hm)
      (hrest.of_suffix (List.suffix_append _ _)) (k := j)
      (by simp only [List.append_nil]; omega) (by rw [List.length_nil]; omega)
    obtain ⟨e, he⟩ := exec_check_bind (f := fun gs => pure gs) hentries
    have hcount : ¬ (Int64.ofNat p.granules.length).toInt < 0 := by
      rw [toInt_ofNat_length h.length]
      omega
    refine ⟨e, ?_⟩
    rw [decodeGranuleIndex, hcursor, granuleIndex, Prog.exec_bind_ok hkeep,
      Prog.exec_bind_ok (exec_check rfl), indexRest, if_neg hcount]
    exact he

/-- The whole index is read. -/
theorem decode_whole (h : p.Fits) (hm : Makes p) (hlen : (idxOf p).length < 2 ^ 63) :
    decodeGranuleIndex (idxOf p) (.ofNat p.ncols) p.colFmts = .ok p.granules := by
  have hcount : ¬ (Int64.ofNat p.granules.length).toInt < 0 := by
    rw [toInt_ofNat_length h.length]
    omega
  have hrest : Takes (indexRest (.ofNat p.ncols) p.colFmts (3, .ofNat p.granules.length))
      (granuleBytes p) p.granules := by
    rw [indexRest, if_neg hcount, ← List.append_nil (granuleBytes p)]
    exact (takes_indexEntries h hm).bind (takes_check.bind (takes_pure _))
  have hall : Takes (granuleIndex (.ofNat p.ncols) p.colFmts) (idxOf p) p.granules := by
    rw [idxOf_eq]
    exact (takes_indexHead p).bind (takes_check.bind hrest)
  have hexec := hall (idxOf p) [] (by rw [List.append_nil]; exact rest_self hlen)
  rw [List.append_nil] at hexec
  rw [decodeGranuleIndex, makeReader_eq, hexec]

/-- An index that is read with another number of columns is an error. -/
theorem decode_other (hlen : (idxOf p).length < 2 ^ 63) {ncols : Int64} (hne : .ofNat p.ncols ≠ ncols)
    (j : ℕ) (fmts : Bytes) :
    ∃ e, decodeGranuleIndex ((idxOf p).take j) ncols fmts = .error (.error e) := by
  obtain ⟨front, back, htakes, hbytes⟩ : ∃ front back,
      Takes indexPrefix front (3, .ofNat p.ncols) ∧ idxOf p = front ++ back := by
    refine ⟨_, appendSize p.granules.length ++ granuleBytes p, takes_indexPrefix p, ?_⟩
    simp only [idxOf_eq, indexBytes, List.append_assoc]
  have hrest : Rest (idxOf p) (front ++ back) := by
    rw [← hbytes]
    exact rest_self hlen
  have hsize : (idxOf p).length = front.length + back.length := by
    rw [hbytes, List.length_append]
  have hcursor : makeReader ((idxOf p).take j) =
      (before (idxOf p) (front ++ back) : Cursor CodecError).cut j := by
    rw [makeReader_take, ← hbytes]
  apply decode_of_failed
  rw [hcursor]
  by_cases hj : j < front.length
  · have hfail := cuts_indexPrefix.cut_within htakes hrest (k := j)
      (by rw [List.length_append]; omega) (by omega)
    exact hfail.bind fun _ c hc =>
      ((cuts_require _ _).bind fun _ => cuts_var.map _).calm c hc
  · have hkeep := cuts_indexPrefix.cut_after htakes hrest (k := j) (by omega)
    rw [indexHead, Prog.exec_bind_ok hkeep, require, if_neg hne]
    exact nofun

/-! ### The metadata -/

theorem littleEndian_length (w n : ℕ) : (littleEndian w n).length = w := by
  rw [littleEndian, List.length_reverse, length_beBytes]

theorem exec_wordsOf {w : ℕ} {ns : List ℕ} (h : ∀ n ∈ ns, n < 256 ^ w) (c : Cursor CodecError) :
    (wordsOf w ns.length (ns.flatMap (littleEndian w))).exec c = (.ok ns, c) := by
  induction ns with
  | nil => rfl
  | cons n ns ih =>
    obtain ⟨hn, hns⟩ := List.forall_mem_cons.mp h
    have hlen := littleEndian_length w n
    have hword : beNat ((littleEndian w n ++ ns.flatMap (littleEndian w)).take w).reverse = n := by
      rw [List.take_left' hlen, littleEndian, List.reverse_reverse, beNat_beBytes_of_lt hn]
    rw [List.flatMap_cons, List.length_cons, wordsOf, if_neg (by rw [List.length_append]; omega),
      List.drop_left' hlen, Prog.exec_bind_ok (ih hns), hword]
    rfl

/-- The words are not there. -/
theorem exec_wordsOf_nil {w n : ℕ} (hw : 0 < w) (hn : 0 < n) (c : Cursor CodecError) :
    (wordsOf w n []).exec c = (.error .panic, c) := by
  obtain ⟨n, rfl⟩ : ∃ m, n = m + 1 := ⟨n - 1, by omega⟩
  rw [wordsOf, if_pos (by rwa [List.length_nil])]
  rfl

/-- A count and its words. -/
def wordBytes (w : ℕ) (ns : List ℕ) : Bytes := appendSize ns.length ++ ns.flatMap (littleEndian w)

theorem length_littleEndians (w : ℕ) (ns : List ℕ) :
    (ns.flatMap (littleEndian w)).length = ns.length * w := by
  induction ns with
  | nil => simp
  | cons n ns ih =>
    rw [List.flatMap_cons, List.length_append, ih, littleEndian_length, List.length_cons]
    ring

/-- The size of the words is an `int`. -/
theorem mul_width (w : ℕ) (ns : List ℕ) : Int64.ofNat ns.length * Int64.ofNat w =
    Int64.ofNat (ns.flatMap (littleEndian w)).length := by
  rw [length_littleEndians, Int64.ofNat_mul]

section Words

variable {w : ℕ} {ns : List ℕ} (hw : 0 < w) (hlen : w * ns.length ≤ 2 ^ 48)

include hlen

theorem takes_wordsTake : Takes (Reader.take (Int64.ofNat ns.length * .ofNat w))
    (ns.flatMap (littleEndian w)) (ns.flatMap (littleEndian w)) := by
  rw [mul_width]
  apply takes_take
  rw [length_littleEndians, Nat.mul_comm]
  exact lt_of_le_of_lt hlen (by norm_num)

include hw

theorem length_words_lt : ns.length < 2 ^ 63 :=
  lt_of_le_of_lt ((Nat.le_mul_of_pos_left _ hw).trans hlen) (by norm_num)

theorem takes_words (h : ∀ n ∈ ns, n < 256 ^ w) : Takes (words w) (wordBytes w ns) ns := by
  have hn := length_words_lt hw hlen
  have hrest : Takes (Reader.take (Int64.ofNat ns.length * .ofNat w) >>= fun raw =>
      wordsOf w ns.length raw) (ns.flatMap (littleEndian w)) ns := by
    intro buf rest hr
    rw [Prog.exec_bind_ok (takes_wordsTake hlen buf rest hr), exec_wordsOf h]
  have hmake := (takes_makeSlice hlen hn).bind (f := fun _ => _) hrest
  have hcount : (Int64.ofNat ns.length).toInt.toNat = ns.length := by
    rw [toInt_ofNat_length hn, Int.toNat_natCast]
  apply (takes_var _).bind
  rwa [hcount]

end Words

/-- Behind an error there are no words. -/
theorem failed_words {w : ℕ} {c : Cursor CodecError} (h : Failed (Reader.var.exec c)) :
    Failed ((words w).exec c) := by
  obtain ⟨c', hc', hexec⟩ := exec_var_of_failed h
  have hmake : (makeSlice w 0).exec c' = (.ok (), c') := by
    rw [makeSlice, if_pos (by simp)]
    rfl
  have htake := exec_take_of_failed ((cuts_take CodecError.takeOutOfRange (0 * .ofNat w)).calm c' hc')
  rw [words, Prog.exec_bind_ok hexec, Prog.exec_bind_ok hmake, Reader.take,
    Prog.exec_bind_ok htake]
  rfl

section Cut

variable {w : ℕ} {ns : List ℕ} (hw : 0 < w) (hlen : w * ns.length ≤ 2 ^ 48)
variable {buf rest : Bytes} {k : ℕ} (hr : Rest buf (wordBytes w ns ++ rest))

include hr in
/-- A cut within the count. -/
theorem words_cut_count (hk : buf.length - (wordBytes w ns ++ rest).length ≤ k)
    (hlt : k < buf.length - (wordBytes w ns ++ rest).length + (appendSize ns.length).length) :
    Failed ((words w).exec ((before buf (wordBytes w ns ++ rest)).cut k)) := by
  have hle := hr.le
  rw [wordBytes, List.append_assoc] at hr hk hlt hle ⊢
  rw [List.length_append] at hk hlt hle
  apply failed_words
  exact cuts_var.cut_within (takes_var _) hr (by rwa [List.length_append]) (by omega)

include hw hlen hr

/-- A cut behind the count. -/
theorem exec_words_cut (hk : buf.length - (wordBytes w ns ++ rest).length +
    (appendSize ns.length).length ≤ k) :
    (words w).exec ((before buf (wordBytes w ns ++ rest)).cut k) =
      (Reader.take (Int64.ofNat ns.length * .ofNat w) >>= fun raw => wordsOf w ns.length raw).exec
        ((before buf (ns.flatMap (littleEndian w) ++ rest)).cut k) := by
  have hle := hr.le
  have hn := length_words_lt hw hlen
  have hint := toInt_ofNat_length hn
  rw [wordBytes, List.append_assoc] at hr hk hle ⊢
  rw [List.length_append] at hk hle
  have hvar := cuts_var.cut_after (takes_var (.ofNat ns.length)) hr (k := k) (by
    rw [appendSize] at hk hle
    omega)
  have hmake : ∀ c, (makeSlice w (.ofNat ns.length)).exec c = (.ok (), c) := by
    intro c
    rw [makeSlice, if_pos ⟨by omega, by rw [hint]; exact_mod_cast hlen⟩]
    rfl
  rw [words, appendSize, Prog.exec_bind_ok hvar, Prog.exec_bind_ok (hmake _), hint,
    Int.toNat_natCast]

/-- A cut within the words. -/
theorem words_cut_panic (hk : buf.length - (wordBytes w ns ++ rest).length +
      (appendSize ns.length).length ≤ k)
    (hlt : k < buf.length - (wordBytes w ns ++ rest).length + (wordBytes w ns).length) :
    ((words w).exec ((before buf (wordBytes w ns ++ rest)).cut k)).1 = .error .panic := by
  have hle := hr.le
  have hr' : Rest buf (ns.flatMap (littleEndian w) ++ rest) := by
    apply hr.of_suffix
    rw [wordBytes, List.append_assoc]
    exact List.suffix_append _ _
  have hpos : 0 < ns.length := by
    by_contra hzero
    obtain rfl := List.length_eq_zero_iff.mp (Nat.eq_zero_of_not_pos hzero)
    simp only [wordBytes, List.flatMap_nil, List.append_nil] at hk hlt
    omega
  rw [exec_words_cut hw hlen hr hk]
  simp only [wordBytes, List.append_assoc, List.length_append] at hk hlt hle
  have hfail := (cuts_take CodecError.takeOutOfRange _).cut_within (takes_wordsTake hlen) hr'
    (k := k) (by rw [List.length_append]; omega) (by omega)
  rw [Reader.take, Prog.exec_bind_ok (exec_take_of_failed hfail), exec_wordsOf_nil hw hpos]

/-- A cut behind the words. -/
theorem words_cut_after (h : ∀ n ∈ ns, n < 256 ^ w) (hk : buf.length - rest.length ≤ k) :
    (words w).exec ((before buf (wordBytes w ns ++ rest)).cut k) =
      (.ok ns, (before buf rest).cut k) := by
  have hle := hr.le
  have hr' : Rest buf (ns.flatMap (littleEndian w) ++ rest) := by
    apply hr.of_suffix
    rw [wordBytes, List.append_assoc]
    exact List.suffix_append _ _
  simp only [wordBytes, List.append_assoc, List.length_append] at hle
  rw [exec_words_cut hw hlen hr (by
    simp only [wordBytes, List.append_assoc, List.length_append]
    omega)]
  have hkeep := (cuts_take CodecError.takeOutOfRange _).cut_after (takes_wordsTake hlen) hr' hk
  rw [Reader.take, Prog.exec_bind_ok hkeep, exec_wordsOf h]

end Cut

def headBytes (p : SealedPart) : Bytes :=
  appendStr mpartMagic ++ (appendVar 4 ++ (appendStr p.table ++ (appendSize p.ncols ++
    (appendSize p.rowcount ++ (appendStr p.pkMin ++ appendStr p.pkMax)))))

def bloomBytes (p : SealedPart) : Bytes := wordBytes 8 (p.bloom.map UInt64.toNat)

def crcBytes (p : SealedPart) : Bytes := wordBytes 4 (p.crcs.map UInt32.toNat)

def formatBytes (p : SealedPart) : Bytes := appendSize p.colFmts.length ++ p.colFmts

theorem encodeMeta_eq (p : SealedPart) :
    p.encodeMeta = headBytes p ++ (bloomBytes p ++ (crcBytes p ++ formatBytes p)) := by
  simp only [SealedPart.encodeMeta, headBytes, bloomBytes, crcBytes, formatBytes, wordBytes,
    List.append_assoc, List.length_map, List.flatMap_map]

def headOf (p : SealedPart) : MetaHead :=
  { ver := 4, table := p.table, ncols := .ofNat p.ncols, rowcount := .ofNat p.rowcount
    pkMin := p.pkMin, pkMax := p.pkMax }

theorem takes_metaHead (h : p.Fits) : Takes metaHead (headBytes p) (headOf p) := by
  have hpks := (takes_bytes h.pkMin).bind (f := fun pkMin => Reader.bytes >>= fun pkMax => pure
    ({ ver := 4, table := p.table, ncols := .ofNat p.ncols, rowcount := .ofNat p.rowcount
       pkMin := pkMin, pkMax := pkMax } : MetaHead)) ((takes_bytes h.pkMax).map _)
  have hcounts := (takes_count p.ncols).bind (f := fun ncols => Reader.var >>= fun rowcount =>
    Reader.bytes >>= fun pkMin => Reader.bytes >>= fun pkMax => pure
    ({ ver := 4, table := p.table, ncols := ncols, rowcount := rowcount
       pkMin := pkMin, pkMax := pkMax } : MetaHead)) ((takes_count p.rowcount).bind hpks)
  have hbody := (takes_magic h.table).bind (f := fun table => Reader.var >>= fun ncols =>
    Reader.var >>= fun rowcount => Reader.bytes >>= fun pkMin => Reader.bytes >>= fun pkMax => pure
    ({ ver := 4, table := table, ncols := ncols, rowcount := rowcount
       pkMin := pkMin, pkMax := pkMax } : MetaHead)) hcounts
  have hver := (takes_var 4).bind (f := fun ver =>
    require (ver = 2 ∨ ver = 3 ∨ ver = 4) .unsupportedVersion >>= fun _ => Reader.str >>= fun table =>
    Reader.var >>= fun ncols => Reader.var >>= fun rowcount => Reader.bytes >>= fun pkMin =>
    Reader.bytes >>= fun pkMax => pure
    ({ ver := ver, table := table, ncols := ncols, rowcount := rowcount
       pkMin := pkMin, pkMax := pkMax } : MetaHead)) (Takes.required hbody (by decide) _)
  exact (takes_magic (by decide)).bind (Takes.required hver rfl _)

theorem cuts_metaHead : Cuts metaHead :=
  cuts_str.bind fun _ => (cuts_require _ _).bind fun _ => cuts_var.bind fun _ =>
    (cuts_require _ _).bind fun _ => cuts_str.bind fun _ => cuts_var.bind fun _ =>
      cuts_var.bind fun _ => cuts_bytes.bind fun _ => cuts_bytes.map _

theorem takes_colFmts (h : p.Fits) :
    Takes (colFmts 4 (.ofNat p.ncols)) (formatBytes p) p.colFmts := by
  have hlen : p.colFmts.length < 2 ^ 63 := h.colFmts ▸ h.ncols
  have hle : (Int64.ofNat p.ncols).toInt ≤ p.colFmts.length := by
    rw [toInt_ofNat_length h.ncols, h.colFmts]
  have hrest := (takes_take hlen).bind (f := fun fmts =>
    require ((Int64.ofNat p.ncols).toInt ≤ fmts.length) .shortColFmts >>= fun _ => pure fmts)
      ((takes_require hle _).bind (takes_pure p.colFmts))
  rw [List.append_nil, List.append_nil] at hrest
  rw [colFmts, if_pos (by decide)]
  exact (takes_var _).bind hrest

theorem cuts_colFmts (ver ncols : Int64) : Cuts (colFmts ver ncols) :=
  .ite (fun _ => cuts_var.bind fun _ => (cuts_take _ _).bind fun _ =>
    (cuts_require _ _).bind fun _ => cuts_pure _) fun _ => cuts_pure []

/-- The index is not read for a part without columns so that it panics. -/
def Calm (raw : Bytes) : Prop :=
  ∀ ncols : Int64, ncols.toInt ≤ 0 → decodeGranuleIndex raw ncols [] ≠ .error .panic

theorem failed_granulesOf {raw : Bytes} (hraw : Calm raw) {ver ncols : Int64} (hn : ncols.toInt ≤ 0)
    {c : Cursor CodecError} (hc : c.err.isSome) :
    Failed ((granulesOf (some raw) ver ncols []).exec c) := by
  unfold granulesOf
  split
  · have hpanic := hraw ncols hn
    dsimp only
    match hd : decodeGranuleIndex raw ncols [] with
    | .ok gs => exact hc
    | .error e =>
      rw [hd] at hpanic
      exact fun he => hpanic (congrArg Except.error he)
  · exact hc

/-- Where the formats cannot be read, no index is, or that of a part without columns. -/
theorem failed_formats {raw : Bytes} (hraw : Calm raw) {ver ncols : Int64} {c : Cursor CodecError}
    (h : Failed ((colFmts ver ncols).exec c)) (f : Bytes → List MpartGranule → SealedPart) :
    Failed ((colFmts ver ncols >>= fun fmts => granulesOf (some raw) ver ncols fmts >>= fun gs =>
      pure (f fmts gs)).exec c) := by
  by_cases hv : 3 ≤ ver
  · rw [colFmts, if_pos hv] at h ⊢
    obtain ⟨nf, c₁, hvar⟩ := exec_var_ok c
    rw [Prog.exec_bind_ok hvar] at h
    rw [bind_assoc, Prog.exec_bind_ok hvar, bind_assoc]
    match htake : (Reader.take nf).exec c₁ with
    | (.error e, c₂) =>
      rw [Prog.exec_bind_error htake] at h ⊢
      exact h
    | (.ok fmts, c₂) =>
      rw [Prog.exec_bind_ok htake] at h ⊢
      by_cases hn : ncols.toInt ≤ fmts.length
      · rw [require, if_pos hn, pure_bind] at h
        have hc : c₂.err.isSome := h
        have hfail : Failed ((Cursor.take CodecError.takeOutOfRange nf).exec c₁) := by
          rw [← Reader.take, htake]
          exact hc
        have htaken := exec_take_of_failed hfail
        obtain ⟨hfmts, -⟩ := Prod.mk.inj (htake.symm.trans htaken)
        obtain rfl := Except.ok.inj hfmts
        rw [require, if_pos hn, bind_assoc, pure_bind, pure_bind]
        exact (failed_granulesOf hraw hn hc).bind fun _ _ hc => hc
      · rw [require, if_neg hn]
        exact nofun
  · have hv' : ¬ (4 : Int64) ≤ ver := by
      rw [Int64.le_iff_toInt_le] at hv ⊢
      have h3 : (3 : Int64).toInt = 3 := by decide
      have h4 : (4 : Int64).toInt = 4 := by decide
      omega
    rw [colFmts, if_neg hv] at h ⊢
    rw [pure_bind, granulesOf, if_neg hv', pure_bind]
    exact h

theorem failed_metaTail {raw : Bytes} (hraw : Calm raw) {h : MetaHead} {c : Cursor CodecError}
    (hc : Failed ((colFmts h.ver h.ncols).exec c)) (bloom crcs : List ℕ) :
    Failed ((metaTail (some raw) h bloom crcs).exec c) :=
  failed_formats hraw hc _

/-- Behind an error no metadata is read. -/
theorem failed_rest {raw : Bytes} (hraw : Calm raw) (h : MetaHead) {c : Cursor CodecError}
    (hc : c.err.isSome) : Failed ((do
      let bloom ← words 8
      let crcs ← words 4
      metaTail (some raw) h bloom crcs : Decode SealedPart).exec c) :=
  (failed_words (cuts_var.calm c hc)).bind fun _ c hc =>
    (failed_words (cuts_var.calm c hc)).bind fun _ c hc =>
      failed_metaTail hraw ((cuts_colFmts _ _).calm c hc) _ _

theorem calm_idx (h : p.Fits) (hm : Makes p) (hlen : (idxOf p).length < 2 ^ 63) (j : ℕ) :
    Calm ((idxOf p).take j) := by
  intro ncols hn hpanic
  by_cases hne : Int64.ofNat p.ncols = ncols
  · have hint := toInt_ofNat_length h.ncols
    rw [hne] at hint
    have hzero : p.ncols = 0 := by omega
    have hfmts : p.colFmts = [] := List.length_eq_zero_iff.mp (h.colFmts.trans hzero)
    rw [← hne, ← hfmts] at hpanic
    by_cases hj : j < (idxOf p).length
    · obtain ⟨e, he⟩ := decode_cut h hm hlen hj
      rw [he] at hpanic
      cases hpanic
    · rw [List.take_of_length_le (Nat.le_of_not_lt hj), decode_whole h hm hlen] at hpanic
      cases hpanic
  · obtain ⟨e, he⟩ := decode_other hlen hne j []
    rw [he] at hpanic
    cases hpanic

/-- The cut is within the words of the bloom filter or within the checksums. -/
def CutsWords (p : SealedPart) (k : ℕ) : Prop :=
  (headBytes p).length + (appendSize p.bloom.length).length ≤ k ∧
      k < (headBytes p).length + (bloomBytes p).length ∨
    (headBytes p).length + (bloomBytes p).length + (appendSize p.crcs.length).length ≤ k ∧
      k < (headBytes p).length + (bloomBytes p).length + (crcBytes p).length

instance (p : SealedPart) (k : ℕ) : Decidable (CutsWords p k) := inferInstanceAs (Decidable (_ ∨ _))

section Files

variable (h : p.Fits) (hm : Makes p) (hmeta : p.encodeMeta.length < 2 ^ 63)
variable (hidx : (idxOf p).length < 2 ^ 63)

theorem rest_head : p.encodeMeta.length < 2 ^ 63 → Rest p.encodeMeta
    (headBytes p ++ (bloomBytes p ++ (crcBytes p ++ (formatBytes p ++ [])))) := by
  rw [List.append_nil, ← encodeMeta_eq]
  exact rest_self

theorem length_encodeMeta : p.encodeMeta.length = (headBytes p).length + (bloomBytes p).length +
    (crcBytes p).length + (formatBytes p).length := by
  rw [encodeMeta_eq]
  simp only [List.length_append]
  omega

theorem length_bloom_le (p : SealedPart) :
    (appendSize p.bloom.length).length ≤ (bloomBytes p).length := by
  rw [bloomBytes, wordBytes, List.length_append, List.length_map]
  omega

theorem bloom_lt (p : SealedPart) : ∀ n ∈ p.bloom.map UInt64.toNat, n < 256 ^ 8 :=
  List.forall_mem_map.mpr fun w _ => lt_of_lt_of_eq w.toNat_lt (by norm_num)

theorem crcs_lt (p : SealedPart) : ∀ n ∈ p.crcs.map UInt32.toNat, n < 256 ^ 4 :=
  List.forall_mem_map.mpr fun w _ => lt_of_lt_of_eq w.toNat_lt (by norm_num)

/-- What lies behind the head, the bloom filter and the checksums. -/
def behindHead (p : SealedPart) : Bytes := bloomBytes p ++ (crcBytes p ++ (formatBytes p ++ []))

def behindBloom (p : SealedPart) : Bytes := crcBytes p ++ (formatBytes p ++ [])

theorem length_behindBloom (p : SealedPart) :
    (behindBloom p).length = (crcBytes p).length + (formatBytes p).length := by
  rw [behindBloom, List.append_nil, List.length_append]

theorem length_behindHead (p : SealedPart) : (behindHead p).length =
    (bloomBytes p).length + ((crcBytes p).length + (formatBytes p).length) := by
  rw [behindHead, List.length_append, ← behindBloom, length_behindBloom]

theorem size_crcs (p : SealedPart) : (appendSize (p.crcs.map UInt32.toNat).length).length =
    (appendSize p.crcs.length).length := by rw [List.length_map]

theorem size_bloom (p : SealedPart) : (appendSize (p.bloom.map UInt64.toNat).length).length =
    (appendSize p.bloom.length).length := by rw [List.length_map]

include h hm in
/-- A cut behind the bloom filter. -/
theorem crcs_cut {raw : Bytes} (hraw : Calm raw) {k : ℕ} (hr : Rest p.encodeMeta (behindBloom p))
    (hlow : (headBytes p).length + (bloomBytes p).length ≤ k) (hk : k < p.encodeMeta.length)
    (bloom : List ℕ) :
    if CutsWords p k then
      ((words 4 >>= fun crcs => metaTail (some raw) (headOf p) bloom crcs).exec
        ((before p.encodeMeta (behindBloom p)).cut k)).1 = .error .panic
    else Failed ((words 4 >>= fun crcs => metaTail (some raw) (headOf p) bloom crcs).exec
        ((before p.encodeMeta (behindBloom p)).cut k)) := by
  have hsize := @length_encodeMeta p
  have hback := length_behindBloom p
  have hcrcs : 4 * (p.crcs.map UInt32.toNat).length ≤ 2 ^ 48 := by
    rw [List.length_map]
    exact hm.crcs
  have hr' : Rest p.encodeMeta (formatBytes p ++ []) := hr.of_suffix (List.suffix_append _ _)
  have hcount := size_crcs p
  by_cases hcut : k < (headBytes p).length + (bloomBytes p).length +
      (appendSize p.crcs.length).length
  · rw [if_neg (by unfold CutsWords; omega)]
    have hfail : Failed ((words 4).exec ((before p.encodeMeta (behindBloom p)).cut k)) :=
      words_cut_count hr (by rw [← crcBytes, ← behindBloom]; omega)
        (by rw [← crcBytes, ← behindBloom, hcount]; omega)
    exact hfail.bind fun _ c hc => failed_metaTail hraw ((cuts_colFmts _ _).calm c hc) _ _
  by_cases hwords : k < (headBytes p).length + (bloomBytes p).length + (crcBytes p).length
  · rw [if_pos (by unfold CutsWords; omega)]
    have hpanic : ((words 4).exec ((before p.encodeMeta (behindBloom p)).cut k)).1 =
        .error .panic :=
      words_cut_panic (by norm_num) hcrcs hr (by rw [← crcBytes, ← behindBloom, hcount]; omega)
        (by rw [← crcBytes, ← behindBloom]; omega)
    exact exec_bind_of_panic hpanic
  · rw [if_neg (by unfold CutsWords; omega)]
    have hkept : (words 4).exec ((before p.encodeMeta (behindBloom p)).cut k) =
        (.ok (p.crcs.map UInt32.toNat), (before p.encodeMeta (formatBytes p ++ [])).cut k) :=
      words_cut_after (by norm_num) hcrcs hr (crcs_lt p)
        (by rw [List.append_nil]; omega)
    have hfail := (cuts_colFmts _ _).cut_within (takes_colFmts h) hr' (k := k)
      (by rw [List.append_nil]; omega) (by rw [List.length_nil]; omega)
    rw [Prog.exec_bind_ok hkept]
    exact failed_metaTail hraw hfail _ _

include h hm in
/-- A cut behind the head. -/
theorem bloom_cut {raw : Bytes} (hraw : Calm raw) {k : ℕ} (hr : Rest p.encodeMeta (behindHead p))
    (hlow : (headBytes p).length ≤ k) (hk : k < p.encodeMeta.length) :
    if CutsWords p k then
      ((words 8 >>= fun bloom => words 4 >>= fun crcs =>
        metaTail (some raw) (headOf p) bloom crcs).exec
          ((before p.encodeMeta (behindHead p)).cut k)).1 = .error .panic
    else Failed ((words 8 >>= fun bloom => words 4 >>= fun crcs =>
      metaTail (some raw) (headOf p) bloom crcs).exec
        ((before p.encodeMeta (behindHead p)).cut k)) := by
  have hsize := @length_encodeMeta p
  have hback := length_behindHead p
  have hback' := length_behindBloom p
  have hbl := length_bloom_le p
  have hbloom : 8 * (p.bloom.map UInt64.toNat).length ≤ 2 ^ 48 := by
    rw [List.length_map]
    exact hm.bloom
  have hcount := size_bloom p
  have hr' : Rest p.encodeMeta (behindBloom p) := hr.of_suffix (List.suffix_append _ _)
  by_cases hcut : k < (headBytes p).length + (appendSize p.bloom.length).length
  · rw [if_neg (by unfold CutsWords; omega)]
    have hfail : Failed ((words 8).exec ((before p.encodeMeta (behindHead p)).cut k)) :=
      words_cut_count hr
        (by change p.encodeMeta.length - (behindHead p).length ≤ k; omega)
        (by
          change k < p.encodeMeta.length - (behindHead p).length + _
          omega)
    exact hfail.bind fun _ c hc => (failed_words (cuts_var.calm c hc)).bind fun _ c hc =>
      failed_metaTail hraw ((cuts_colFmts _ _).calm c hc) _ _
  by_cases hwords : k < (headBytes p).length + (bloomBytes p).length
  · rw [if_pos (by unfold CutsWords; omega)]
    have hpanic : ((words 8).exec ((before p.encodeMeta (behindHead p)).cut k)).1 =
        .error .panic :=
      words_cut_panic (by norm_num) hbloom hr
        (by
          change p.encodeMeta.length - (behindHead p).length + _ ≤ k
          omega)
        (by
          change k < p.encodeMeta.length - (behindHead p).length + (bloomBytes p).length
          omega)
    exact exec_bind_of_panic hpanic
  · have hkept : (words 8).exec ((before p.encodeMeta (behindHead p)).cut k) =
        (.ok (p.bloom.map UInt64.toNat), (before p.encodeMeta (behindBloom p)).cut k) :=
      words_cut_after (by norm_num) hbloom hr (bloom_lt p)
        (by change p.encodeMeta.length - (behindBloom p).length ≤ k; omega)
    rw [Prog.exec_bind_ok hkept]
    exact crcs_cut h hm hraw hr' (Nat.le_of_not_lt hwords) hk _

include h hm hmeta

/-- Cut metadata is an error, or a panic where the words are missing. -/
theorem metadata_cut {raw : Bytes} (hraw : Calm raw) {k : ℕ} (hk : k < p.encodeMeta.length) :
    if CutsWords p k then
      ((metadata (some raw)).exec (makeReader (p.encodeMeta.take k))).1 = .error .panic
    else Failed ((metadata (some raw)).exec (makeReader (p.encodeMeta.take k))) := by
  have hr : Rest p.encodeMeta (headBytes p ++ behindHead p) := rest_head hmeta
  have hbytes : headBytes p ++ behindHead p = p.encodeMeta := by
    rw [behindHead, List.append_nil, ← encodeMeta_eq]
  have hsize := length_behindHead p
  have hlen := @length_encodeMeta p
  have hcursor : makeReader (p.encodeMeta.take k) =
      (before p.encodeMeta (headBytes p ++ behindHead p) : Cursor CodecError).cut k := by
    rw [makeReader_take, hbytes]
  rw [hcursor]
  by_cases hhead : k < (headBytes p).length
  · rw [if_neg (by unfold CutsWords; omega)]
    have hfail := cuts_metaHead.cut_within (takes_metaHead h) hr (k := k)
      (by rw [List.length_append]; omega) (by omega)
    exact hfail.bind fun h c hc => failed_rest hraw h hc
  · have hlow := Nat.le_of_not_lt hhead
    have hkept := cuts_metaHead.cut_after (takes_metaHead h) hr (k := k) (by omega)
    rw [metadata, Prog.exec_bind_ok hkept]
    exact bloom_cut h hm hraw (hr.of_suffix (List.suffix_append _ _)) hlow hk

/-- Whole metadata is read up to the index. -/
theorem exec_metadata (raw : Bytes) :
    (metadata (some raw)).exec (makeReader p.encodeMeta) =
      (granulesOf (some raw) 4 (.ofNat p.ncols) p.colFmts >>= fun gs =>
        pure { p with granules := gs }).exec (before p.encodeMeta []) := by
  have hr := rest_head hmeta
  have hr₁ := hr.of_suffix (List.suffix_append (headBytes p) _)
  have hr₂ := hr₁.of_suffix (List.suffix_append (bloomBytes p) _)
  have hr₃ := hr₂.of_suffix (List.suffix_append (crcBytes p) _)
  have hbloom : 8 * (p.bloom.map UInt64.toNat).length ≤ 2 ^ 48 := by
    rw [List.length_map]
    exact hm.bloom
  have hcrcs : 4 * (p.crcs.map UInt32.toNat).length ≤ 2 ^ 48 := by
    rw [List.length_map]
    exact hm.crcs
  have hhead := takes_metaHead h _ _ hr
  have hwords := takes_words (by norm_num) hbloom (bloom_lt p) _ _ hr₁
  have hsums := takes_words (by norm_num) hcrcs (crcs_lt p) _ _ hr₂
  have hfmts := takes_colFmts h _ _ hr₃
  have hbits : (p.bloom.map UInt64.toNat).map UInt64.ofNat = p.bloom := by
    simp only [List.map_map, Function.comp_def, UInt64.ofNat_toNat, List.map_id']
  have hcrc : (p.crcs.map UInt32.toNat).map UInt32.ofNat = p.crcs := by
    simp only [List.map_map, Function.comp_def, UInt32.ofNat_toNat, List.map_id']
  have hnc : (Int64.ofNat p.ncols).toInt.toNat = p.ncols := by
    rw [toInt_ofNat_length h.ncols, Int.toNat_natCast]
  have hrows : (Int64.ofNat p.rowcount).toInt.toNat = p.rowcount := by
    rw [toInt_ofNat_length h.rowcount, Int.toNat_natCast]
  have hcursor : (makeReader p.encodeMeta : Cursor CodecError) = before p.encodeMeta
      (headBytes p ++ (bloomBytes p ++ (crcBytes p ++ (formatBytes p ++ [])))) := by
    rw [List.append_nil, ← encodeMeta_eq, makeReader_eq]
  rw [metadata, hcursor, Prog.exec_bind_ok hhead, bloomBytes, Prog.exec_bind_ok hwords, crcBytes,
    Prog.exec_bind_ok hsums, metaTail, headOf, Prog.exec_bind_ok hfmts, hbits, hcrc, hnc, hrows]

end Files

/-! ### The files of a part -/

section ReadPart

variable {files : PartFiles} (h : p.Fits) (hm : Makes p) (hmeta : p.encodeMeta.length < 2 ^ 63)
variable (hidx : (idxOf p).length < 2 ^ 63)
include h hm hmeta hidx

/-- A part of which a file was cut is an error, or a panic where the words are missing. -/
theorem readPart_cut {k j : ℕ} (hfiles : files.metadata = p.encodeMeta.take k)
    (hfiles' : files.idx = some ((idxOf p).take j))
    (hcut : k < p.encodeMeta.length ∨ j < (idxOf p).length) :
    if CutsWords p k then readPart files = .error .panic
    else ∃ e, readPart files = .error (.error e) := by
  rw [readPart, hfiles, hfiles']
  by_cases hk : k < p.encodeMeta.length
  · have hcut := metadata_cut h hm hmeta (calm_idx h hm hidx j) hk
    split
    · next hwords =>
      rw [if_pos hwords] at hcut
      exact exec_bind_of_panic hcut
    · next hwords =>
      rw [if_neg hwords] at hcut
      exact exec_check_bind hcut
  · have hnot : ¬ CutsWords p k := by
      have hlen := @length_encodeMeta p
      unfold CutsWords
      omega
    obtain ⟨e, he⟩ := decode_cut h hm hidx (hcut.resolve_left hk)
    rw [if_neg hnot, List.take_of_length_le (Nat.le_of_not_lt hk)]
    refine ⟨e, ?_⟩
    have hread : (granulesOf (some ((idxOf p).take j)) 4 (.ofNat p.ncols) p.colFmts).exec
        (before p.encodeMeta []) = (.error (.error e), before p.encodeMeta []) := by
      rw [granulesOf, if_pos (by decide)]
      simp only [he]
      rfl
    have hmetadata := exec_metadata h hm hmeta ((idxOf p).take j)
    rw [Prog.exec_bind_error hread] at hmetadata
    rw [Prog.exec_bind_error hmetadata]

/-- A complete part is read. -/
theorem readPart_whole (hfiles : files.metadata = p.encodeMeta)
    (hfiles' : files.idx = some (idxOf p)) : readPart files = .ok p := by
  have hread : (granulesOf (some (idxOf p)) 4 (.ofNat p.ncols) p.colFmts).exec
      (before p.encodeMeta []) = (.ok p.granules, before p.encodeMeta []) := by
    rw [granulesOf, if_pos (by decide)]
    simp only [decode_whole h hm hidx]
    rfl
  have hmetadata := exec_metadata h hm hmeta (idxOf p)
  rw [Prog.exec_bind_ok hread] at hmetadata
  rw [readPart, hfiles, hfiles', Prog.exec_bind_ok hmetadata]
  rfl

end ReadPart

end Ydbgo.Mpart.Recovery
