import Mathlib.Data.List.TakeWhile
import Ydbgo.Lib.Decimal
import Ydbgo.Mpart.PartRight
import Ydbgo.Mpart.Recovery

/-! # Opening a store

`openMpart` reads the parts that a crash left behind. A part that is not complete
is removed, unless its reader panics, and the names of the others give their order
and the next number. Eight digits of a name are read, however many it has.
-/

namespace Ydbgo.Mpart

open Storage Recovery

/-! ### The store -/

/-- The directory of a part. -/
def partDirName (id : ℕ) : Bytes := 112 :: padZeros 8 (formatNat id)

/-- `Sscanf` with `p%08d`, on names without a sign. -/
def scanPartID : Bytes → Option ℕ
  | [] => none
  | b :: s =>
    let digits := (s.take 8).takeWhile isDecimal
    if b = 112 ∧ digits ≠ [] then some (natOfDigits digits) else none

structure OpenPart where
  seq : ℕ
  part : SealedPart
  files : PartFiles

/-- The parts in the order of their names, and the directories that are kept. -/
structure Opening where
  idMax : ℕ := 0
  parts : List OpenPart := []
  dirs : List (Bytes × PartFiles) := []

structure MpartStore where
  parts : Bytes → List OpenPart
  tables : List Bytes
  nextID : ℕ
  dirs : List (Bytes × PartFiles)

/-- One round of the loop over the entries. A part that cannot be read is removed. -/
def openEntry (s : Opening) (ent : Bytes × PartFiles) : Except (Stop CodecError) Opening :=
  match readPart ent.2 with
  | .error .panic => .error .panic
  | .error (.error _) => .ok s
  | .ok p =>
    match scanPartID ent.1 with
    | some n => .ok {
        idMax := if s.idMax ≤ n then n else s.idMax
        parts := s.parts ++ [{ seq := n, part := p, files := ent.2 }]
        dirs := s.dirs ++ [ent] }
    | none => .ok { s with
        parts := s.parts ++ [{ seq := 0, part := p, files := ent.2 }]
        dirs := s.dirs ++ [ent] }

def sortPartsBySeq (ps : List OpenPart) : List OpenPart :=
  ps.mergeSort fun a b => decide (a.seq ≤ b.seq)

def openedStore (s : Opening) : MpartStore where
  parts table := sortPartsBySeq (s.parts.filter fun o => o.part.table = table)
  tables := (s.parts.map fun o => o.part.table).dedup
  nextID := s.idMax + 1
  dirs := s.dirs

/-- The loop that counts the rows of each table. -/
def MpartStore.counts (liveCount : List OpenPart → Except CodecError ℕ) (s : MpartStore) :
    Except CodecError (List (Bytes × ℕ)) :=
  s.tables.mapM fun table => (liveCount (s.parts table)).map fun n => (table, n)

/-- The store with its counts. -/
def MpartStore.counted (liveCount : List OpenPart → Except CodecError ℕ) (s : MpartStore) :
    Except (Stop CodecError) (MpartStore × List (Bytes × ℕ)) :=
  match s.counts liveCount with
  | .ok counts => .ok (s, counts)
  | .error e => .error (.error e)

/-- `openMpart` on the directories of the parts. -/
def openMpart (liveCount : List OpenPart → Except CodecError ℕ) (entries : List (Bytes × PartFiles)) :
    Except (Stop CodecError) (MpartStore × List (Bytes × ℕ)) :=
  entries.foldlM openEntry {} >>= fun s => (openedStore s).counted liveCount

/-! ### Written parts -/

variable (lz : Lz4) (crc32 : Bytes → UInt32)

/-- A part that was written. Its writer never has no rows. -/
structure WrittenPart where
  id : ℕ
  table : Bytes
  rows : List MemRow
  nonempty : rows ≠ []
  fits : Fits lz crc32 table rows
  makes : Makes (writePart lz crc32 table rows).2
  metadata : (writePart lz crc32 table rows).1.metadata.length < 2 ^ 63
  idx : ∀ raw ∈ (writePart lz crc32 table rows).1.idx, raw.length < 2 ^ 63

variable {lz crc32}

namespace WrittenPart

def files (o : WrittenPart lz crc32) : PartFiles := (writePart lz crc32 o.table o.rows).1

def part (o : WrittenPart lz crc32) : SealedPart := (writePart lz crc32 o.table o.rows).2

def dir (o : WrittenPart lz crc32) : Bytes × PartFiles := (partDirName o.id, o.files)

def opened (o : WrittenPart lz crc32) : OpenPart := { seq := o.id, part := o.part, files := o.files }

/-- The directory with its metadata and its index cut. -/
def cutDir (o : WrittenPart lz crc32) (k j : ℕ) : Bytes × PartFiles :=
  (partDirName o.id, { o.files with
    metadata := o.files.metadata.take k, idx := o.files.idx.map (List.take j) })

/-- One of the two files is not complete. -/
def Cut (o : WrittenPart lz crc32) (k j : ℕ) : Prop :=
  k < o.files.metadata.length ∨ ∃ raw ∈ o.files.idx, j < raw.length

end WrittenPart

/-- The store has exactly these parts, each table's in the order of their numbers, and the next
number is above them. -/
structure MpartStore.Holds (s : MpartStore) (others : List (WrittenPart lz crc32)) : Prop where
  parts : ∀ table, (s.parts table).Perm
    ((others.filter fun o => o.table = table).map WrittenPart.opened)
  ordered : ∀ table, (s.parts table).Pairwise fun a b => a.seq < b.seq
  next : ∀ o ∈ others, o.id < s.nextID
  dirs : s.dirs = others.map WrittenPart.dir

/-- The store that is opened has exactly these parts, whatever their rows. -/
def Recovers (entries : List (Bytes × PartFiles)) (others : List (WrittenPart lz crc32)) : Prop :=
  ∃ s : MpartStore, s.Holds others ∧
    ∀ liveCount, openMpart liveCount entries = s.counted liveCount

/-! ### Names -/

/-- A number of at most eight digits is read back. -/
theorem scanPartID_partDirName {id : ℕ} (h : id < 10 ^ 8) : scanPartID (partDirName id) = some id := by
  have hlen := length_padZeros (by decide : 0 < 8) h
  have hall : (padZeros 8 (formatNat id)).takeWhile isDecimal = padZeros 8 (formatNat id) := by
    apply List.takeWhile_eq_self_iff.mpr
    exact List.all_eq_true.mp (all_padZeros 8 id)
  have hne : padZeros 8 (formatNat id) ≠ [] := List.ne_nil_of_length_pos (by omega)
  rw [partDirName, scanPartID, List.take_of_length_le (le_of_eq hlen), hall, natOfDigits_padZeros]
  exact if_pos ⟨rfl, hne⟩

theorem scanPartID_lt {name : Bytes} {n : ℕ} (h : scanPartID name = some n) : n < 10 ^ 8 := by
  cases name with
  | nil => cases h
  | cons b s =>
    simp only [scanPartID, Option.ite_none_right_eq_some, Option.some.injEq] at h
    obtain ⟨-, rfl⟩ := h
    have hlen : ((s.take 8).takeWhile isDecimal).length ≤ 8 :=
      (List.takeWhile_sublist _).length_le.trans (List.length_take_le 8 s)
    apply lt_of_lt_of_le (natOfDigits_lt fun b hb => (isDecimal_iff.mp (List.mem_takeWhile_imp hb)).2)
    exact Nat.pow_le_pow_right (by decide) hlen

/-! ### One entry -/

namespace WrittenPart

variable (o : WrittenPart lz crc32)

theorem files_metadata : o.files.metadata = o.part.encodeMeta := by
  simp only [files, part, writePart, if_neg o.nonempty]

theorem files_idx : o.files.idx = some (idxOf o.part) := by
  simp only [files, part, writePart, if_neg o.nonempty, idxOf]

theorem part_table : o.part.table = o.table := by
  simp only [part, writePart, if_neg o.nonempty]

theorem length_metadata : o.part.encodeMeta.length < 2 ^ 63 := o.files_metadata ▸ o.metadata

theorem length_idx : (idxOf o.part).length < 2 ^ 63 := o.idx _ o.files_idx

theorem part_fits (hlz : lz.Undoes) : o.part.Fits := sealedPart_fits hlz o.fits

/-- What is opened of a part, with the number that is read off its name. -/
def scanned : OpenPart :=
  { seq := (scanPartID (partDirName o.id)).getD 0, part := o.part, files := o.files }

theorem scanned_eq (h : o.id < 10 ^ 8) : o.scanned = o.opened := by
  rw [scanned, scanPartID_partDirName h]
  rfl

end WrittenPart

/-- A complete part is kept. -/
theorem openEntry_dir (hlz : lz.Undoes) (s : Opening) (o : WrittenPart lz crc32) :
    ∃ m, openEntry s o.dir =
        .ok { idMax := m, parts := s.parts ++ [o.scanned], dirs := s.dirs ++ [o.dir] } ∧
      s.idMax ≤ m ∧ (s.idMax < 10 ^ 8 → m < 10 ^ 8) ∧ (o.id < 10 ^ 8 → o.id ≤ m) := by
  have hread := readPart_whole (o.part_fits hlz) o.makes o.length_metadata o.length_idx
    o.files_metadata o.files_idx
  cases hscan : scanPartID (partDirName o.id) with
  | none =>
    refine ⟨s.idMax, ?_, le_rfl, id, fun hid => ?_⟩
    · simp only [openEntry, WrittenPart.dir, hread, hscan, WrittenPart.scanned, Option.getD_none]
    · rw [scanPartID_partDirName hid] at hscan
      cases hscan
  | some n =>
    have hlt := scanPartID_lt hscan
    refine ⟨if s.idMax ≤ n then n else s.idMax, ?_, ?_, ?_, fun hid => ?_⟩
    · simp only [openEntry, WrittenPart.dir, hread, hscan, WrittenPart.scanned, Option.getD_some]
    · split <;> omega
    · split <;> omega
    · rw [scanPartID_partDirName hid, Option.some.injEq] at hscan
      split <;> omega

/-- A part that was cut is removed, or the store cannot be opened. -/
theorem openEntry_cutDir (hlz : lz.Undoes) (s : Opening) {o : WrittenPart lz crc32} {k j : ℕ}
    (hcut : o.Cut k j) :
    openEntry s (o.cutDir k j) = if CutsWords o.part k then .error .panic else .ok s := by
  have hmeta : (o.cutDir k j).2.metadata = o.part.encodeMeta.take k := by
    rw [← o.files_metadata]
    rfl
  have hidx : (o.cutDir k j).2.idx = some ((idxOf o.part).take j) := by
    rw [WrittenPart.cutDir, o.files_idx]
    rfl
  have hshort : k < o.part.encodeMeta.length ∨ j < (idxOf o.part).length := by
    rw [WrittenPart.Cut, o.files_metadata, o.files_idx] at hcut
    simpa using hcut
  have hread := readPart_cut (o.part_fits hlz) o.makes o.length_metadata o.length_idx hmeta hidx hshort
  split
  · next hwords =>
    rw [if_pos hwords] at hread
    rw [openEntry, hread]
  · next hwords =>
    rw [if_neg hwords] at hread
    obtain ⟨e, he⟩ := hread
    rw [openEntry, he]

/-! ### All entries -/

/-- The loop over complete parts. -/
theorem foldlM_openEntry (hlz : lz.Undoes) (os : List (WrittenPart lz crc32)) (s : Opening) :
    ∃ m, (os.map WrittenPart.dir).foldlM openEntry s = .ok {
          idMax := m
          parts := s.parts ++ os.map WrittenPart.scanned
          dirs := s.dirs ++ os.map WrittenPart.dir } ∧
      s.idMax ≤ m ∧ (s.idMax < 10 ^ 8 → m < 10 ^ 8) ∧ ∀ o ∈ os, o.id < 10 ^ 8 → o.id ≤ m := by
  induction os generalizing s with
  | nil =>
    refine ⟨s.idMax, ?_, le_rfl, id, fun o ho => absurd ho List.not_mem_nil⟩
    simp only [List.map_nil, List.append_nil]
    rfl
  | cons o os ih =>
    obtain ⟨m, hstep, hle, hlt, hid⟩ := openEntry_dir hlz s o
    obtain ⟨m', hrest, hle', hlt', hids⟩ := ih
      { idMax := m, parts := s.parts ++ [o.scanned], dirs := s.dirs ++ [o.dir] }
    refine ⟨m', ?_, hle.trans hle', hlt' ∘ hlt, ?_⟩
    · simp only [List.append_assoc, List.singleton_append] at hrest
      rw [List.map_cons, List.foldlM_cons, hstep]
      exact hrest
    · rintro o' ho' hid'
      rcases List.mem_cons.mp ho' with rfl | ho'
      · exact (hid hid').trans hle'
      · exact hids o' ho' hid'

/-- The loop over complete parts and one that was cut. -/
theorem foldlM_openEntry_cut (hlz : lz.Undoes) (before after : List (WrittenPart lz crc32))
    {torn : WrittenPart lz crc32} {k j : ℕ} (hcut : torn.Cut k j) :
    if CutsWords torn.part k then
      (before.map WrittenPart.dir ++ torn.cutDir k j :: after.map WrittenPart.dir).foldlM openEntry {} =
        .error .panic
    else ∃ m < 10 ^ 8, (∀ o ∈ before ++ after, o.id < 10 ^ 8 → o.id ≤ m) ∧
      (before.map WrittenPart.dir ++ torn.cutDir k j :: after.map WrittenPart.dir).foldlM openEntry {} =
        .ok {
          idMax := m
          parts := (before ++ after).map WrittenPart.scanned
          dirs := (before ++ after).map WrittenPart.dir } := by
  obtain ⟨m, hbefore, -, hlt, hids⟩ := foldlM_openEntry hlz before {}
  obtain ⟨m', hafter, hle, hlt', hids'⟩ := foldlM_openEntry hlz after {
    idMax := m
    parts := before.map WrittenPart.scanned
    dirs := before.map WrittenPart.dir }
  have hfirst : (before.map WrittenPart.dir ++ torn.cutDir k j ::
      after.map WrittenPart.dir).foldlM openEntry {} =
      openEntry { idMax := m, parts := before.map WrittenPart.scanned
                  dirs := before.map WrittenPart.dir } (torn.cutDir k j) >>=
        (after.map WrittenPart.dir).foldlM openEntry := by
    rw [List.foldlM_append, hbefore]
    rfl
  rw [openEntry_cutDir hlz _ hcut] at hfirst
  split
  · next hwords =>
    rw [if_pos hwords] at hfirst
    exact hfirst
  · next hwords =>
    rw [if_neg hwords] at hfirst
    refine ⟨m', hlt' (hlt (by decide)), ?_, ?_⟩
    · rintro o ho hid
      rcases List.mem_append.mp ho with ho | ho
      · exact (hids o ho hid).trans hle
      · exact hids' o ho hid
    · simp only [List.map_append]
      exact hfirst.trans hafter

/-! ### The store -/

theorem sortPartsBySeq_perm (ps : List OpenPart) : (sortPartsBySeq ps).Perm ps :=
  List.mergeSort_perm _ _

/-- Parts with different numbers are put in their order. -/
theorem pairwise_sortPartsBySeq {ps : List OpenPart} (h : (ps.map OpenPart.seq).Nodup) :
    (sortPartsBySeq ps).Pairwise fun a b => a.seq < b.seq := by
  have hsorted : (sortPartsBySeq ps).Pairwise fun a b => decide (a.seq ≤ b.seq) = true :=
    List.pairwise_mergeSort (fun a b c hab hbc => by
      simp only [decide_eq_true_eq] at hab hbc ⊢
      omega) (fun a b => by
      simp only [Bool.or_eq_true, decide_eq_true_eq]
      omega) ps
  have hnodup : ((sortPartsBySeq ps).map OpenPart.seq).Nodup :=
    ((sortPartsBySeq_perm ps).map _).nodup_iff.mpr h
  rw [List.nodup_iff_pairwise_ne, List.pairwise_map] at hnodup
  apply (hsorted.and hnodup).imp
  rintro a b ⟨hle, hne⟩
  exact lt_of_le_of_ne (of_decide_eq_true hle) hne

theorem filter_opened (os : List (WrittenPart lz crc32)) (table : Bytes) :
    ((os.map WrittenPart.opened).filter fun o => o.part.table = table) =
      (os.filter fun o => o.table = table).map WrittenPart.opened := by
  rw [List.filter_map]
  congr 1
  apply List.filter_congr
  rintro o -
  simp only [Function.comp_apply, WrittenPart.opened, o.part_table]

/-- Parts with numbers of at most eight digits are opened in their order. -/
theorem holds_openedStore {os : List (WrittenPart lz crc32)} (hnodup : (os.map WrittenPart.id).Nodup)
    {m : ℕ} (hids : ∀ o ∈ os, o.id ≤ m) :
    (openedStore {
      idMax := m
      parts := os.map WrittenPart.opened
      dirs := os.map WrittenPart.dir }).Holds os where
  parts := by
    intro table
    rw [← filter_opened]
    exact sortPartsBySeq_perm _
  ordered := by
    intro table
    apply pairwise_sortPartsBySeq
    rw [filter_opened, List.map_map]
    exact hnodup.sublist (List.filter_sublist.map _)
  next := fun o ho => Nat.lt_succ_of_le (hids o ho)
  dirs := rfl

/-- A store with a part of which the metadata or the index was cut opens with the other parts, in
their order and below the next number, if and only if the cut leaves the words of the metadata
alone and eight digits hold each number. -/
theorem recovers_cut_iff (hlz : lz.Undoes) {before after : List (WrittenPart lz crc32)}
    {torn : WrittenPart lz crc32} (hnodup : ((before ++ after).map WrittenPart.id).Nodup) {k j : ℕ}
    (hcut : torn.Cut k j) :
    Recovers (before.map WrittenPart.dir ++ torn.cutDir k j :: after.map WrittenPart.dir)
        (before ++ after) ↔
      ¬ CutsWords torn.part k ∧ ∀ o ∈ before ++ after, o.id < 10 ^ 8 := by
  have hloop := foldlM_openEntry_cut hlz before after hcut
  constructor
  · rintro ⟨s, hs, hopen⟩
    have hwords : ¬ CutsWords torn.part k := by
      intro hwords
      rw [if_pos hwords] at hloop
      have hzero := hopen fun _ => .ok 0
      rw [openMpart, hloop, MpartStore.counted] at hzero
      split at hzero <;> cases hzero
    rw [if_neg hwords] at hloop
    obtain ⟨m, hm, -, hloop⟩ := hloop
    have hzero := hopen fun _ => .ok 0
    have hcounts : ∀ s : MpartStore, ∃ counts, s.counts (fun _ => .ok 0) = .ok counts := by
      intro s
      unfold MpartStore.counts
      induction s.tables with
      | nil => exact ⟨[], rfl⟩
      | cons table tables ih =>
        obtain ⟨counts, hcounts⟩ := ih
        exact ⟨(table, 0) :: counts, by rw [List.mapM_cons, hcounts]; rfl⟩
    obtain ⟨counts, hc⟩ := hcounts s
    obtain ⟨counts', hc'⟩ := hcounts (openedStore {
      idMax := m
      parts := (before ++ after).map WrittenPart.scanned
      dirs := (before ++ after).map WrittenPart.dir })
    rw [openMpart, hloop, MpartStore.counted, hc] at hzero
    change MpartStore.counted _ _ = _ at hzero
    rw [MpartStore.counted, hc'] at hzero
    obtain ⟨rfl, -⟩ := Prod.mk.inj (Except.ok.inj hzero)
    refine ⟨hwords, fun o ho => ?_⟩
    have hnext : o.id < m + 1 := hs.next o ho
    omega
  · rintro ⟨hwords, hids⟩
    rw [if_neg hwords] at hloop
    obtain ⟨m, -, hm, hloop⟩ := hloop
    have hscanned : (before ++ after).map WrittenPart.scanned =
        (before ++ after).map WrittenPart.opened :=
      List.map_congr_left fun o ho => o.scanned_eq (hids o ho)
    refine ⟨_, holds_openedStore hnodup fun o ho => hm o ho (hids o ho), fun liveCount => ?_⟩
    rw [openMpart, hloop, hscanned]
    rfl

/-! ### A part with one row -/

def tombstoneRows : List MemRow := [{ pk := [97], cells := [], del := true }]

theorem fits_tombstoneRows : Fits lz4OfLiterals (fun _ => 0) (ascii "t") tombstoneRows where
  name := by decide
  length := by decide
  ncols := by decide
  row := by
    rintro r hr
    obtain rfl := List.mem_singleton.mp hr
    exact ⟨by decide, by decide⟩
  blocks := by
    have hgs : granules mpartGranuleRows tombstoneRows = [tombstoneRows] := by decide +kernel
    have hdense : ∀ c, colDense tombstoneRows c = none := fun _ => rfl
    rw [hgs]
    rintro rows' hmem
    obtain rfl := List.mem_singleton.mp hmem
    refine ⟨by decide, by decide, fun c => ?_⟩
    have hcol : columnBlock none c tombstoneRows = [0] := rfl
    rw [hdense, hcol]
    decide
  pkFile := by decide +kernel
  delFile := by decide +kernel
  colFiles := by decide +kernel

/-- The part with this number and that row. -/
def tombstonePart (id : ℕ) : WrittenPart lz4OfLiterals fun _ => 0 where
  id := id
  table := ascii "t"
  rows := tombstoneRows
  nonempty := nofun
  fits := fits_tombstoneRows
  makes := ⟨by decide +kernel, by decide +kernel, by decide +kernel, by decide +kernel⟩
  metadata := by decide +kernel
  idx := by
    have hidx : ((writePart lz4OfLiterals (fun _ => 0) (ascii "t") tombstoneRows).1.idx.all
        fun raw => decide (raw.length < 2 ^ 63)) = true := by decide +kernel
    rintro raw hraw
    rw [Option.mem_def] at hraw
    rw [hraw] at hidx
    exact of_decide_eq_true hidx

theorem recovers_cut_iff_two :
    Recovers [(tombstonePart 1).cutDir 3 0, (tombstonePart 2).dir] [tombstonePart 2] := by
  have hcut : (tombstonePart 1).Cut 3 0 := .inl (by decide +kernel)
  apply (@recovers_cut_iff _ _ undoes_lz4OfLiterals [] [tombstonePart 2] _ (List.nodup_singleton _)
    _ _ hcut).mpr
  exact ⟨by decide +kernel, by decide⟩

/-- The store cannot be opened after a crash within the words of the bloom filter. -/
theorem not_recovers_cut : (tombstonePart 1).Cut 20 0 ∧
    ¬ Recovers [(tombstonePart 1).cutDir 20 0]
      ([] : List (WrittenPart lz4OfLiterals fun _ => 0)) := by
  have hcut : (tombstonePart 1).Cut 20 0 := .inl (by decide +kernel)
  have hwords : CutsWords (tombstonePart 1).part 20 := by decide +kernel
  refine ⟨hcut, ?_⟩
  rintro ⟨s, -, hopen⟩
  have hzero := hopen fun _ => .ok 0
  have hentry := openEntry_cutDir undoes_lz4OfLiterals {} hcut
  rw [if_pos hwords] at hentry
  rw [openMpart, List.foldlM_cons, hentry, MpartStore.counted] at hzero
  split at hzero <;> cases hzero

end Ydbgo.Mpart
