import Mathlib.Data.List.GetD
import Ydbgo.Mpart.PartFile

/-! # Blocks of a part

What a reader makes of a block: the blobs, the tombstones or the numbers that
went into it. A block reads as itself unless it was compressed to its own
length. Numbers become cells in the form that the writer of rows gives them.
-/

namespace Ydbgo.Mpart

open Storage

/-! ### Blobs -/

theorem decodeFramesFrom_encodeFrames {blobs : List Bytes} (h : ∀ b ∈ blobs, b.length < 2 ^ 63)
    {fuel : ℕ} (hfuel : blobs.length ≤ fuel) : decodeFramesFrom fuel (encodeFrames blobs) = blobs := by
  induction blobs generalizing fuel with
  | nil => cases fuel <;> rfl
  | cons b blobs ih =>
    obtain ⟨hb, hblobs⟩ := List.forall_mem_cons.mp h
    rw [List.length_cons] at hfuel
    obtain ⟨n, rfl⟩ : ∃ n, fuel = n + 1 := ⟨fuel - 1, by omega⟩
    have hlen : (UInt64.ofNat b.length).toNat = b.length := by
      rw [UInt64.toNat_ofNat']
      exact Nat.mod_eq_of_lt (by omega)
    have hcons : encodeFrames (b :: blobs) =
        putUvarint (.ofNat b.length) ++ (b ++ encodeFrames blobs) := by
      simp [encodeFrames]
    rw [hcons, decodeFramesFrom, uvarint_putUvarint]
    dsimp only
    rw [hlen, if_neg (by simp), List.drop_left, List.take_left, ← List.drop_drop, List.drop_left,
      List.drop_left, ih hblobs (by omega)]

theorem length_le_encodeFrames (blobs : List Bytes) : blobs.length ≤ (encodeFrames blobs).length := by
  induction blobs with
  | nil => exact Nat.zero_le _
  | cons b blobs ih =>
    have hpos := length_putUvarint_pos (.ofNat b.length)
    simp only [encodeFrames, List.flatMap_cons, List.length_append, List.length_cons] at ih ⊢
    omega

/-- Blobs are read back. -/
theorem decodeFrames_encodeFrames {blobs : List Bytes} (h : ∀ b ∈ blobs, b.length < 2 ^ 63) :
    decodeFrames (encodeFrames blobs) = blobs :=
  decodeFramesFrom_encodeFrames h (length_le_encodeFrames blobs)

/-! ### Bits -/

theorem bytesToBits_bitsToBytes (ws : List (BitVec 8)) : bytesToBits (bitsToBytes ws) = ws := by
  rw [bytesToBits, bitsToBytes, List.map_map]
  exact List.map_id ws

theorem length_bitsToBytes (ws : List (BitVec 8)) : (bitsToBytes ws).length = ws.length :=
  List.length_map ..

theorem map_testBit_bitmap (w : ℕ) (hw : 0 < w) (bs : List Bool) (ws : List (BitVec w)) :
    (List.range bs.length).map (testBit (bitmap w bs ++ ws)) = bs := by
  apply List.ext_getElem
  · simp
  · intro i hi hi'
    have hroom := (count_granules hw bs.length).1
    have hin : i < (bitmap w bs).length * w := by
      rw [length_bitmap]
      omega
    rw [List.getElem_map, List.getElem_range, testBit_append_left hin, testBit_bitmap _ _ hw]
    exact List.getD_eq_getElem _ _ hi'

/-- Tombstones are read back. -/
theorem decodeDels_bitmap (bs : List Bool) :
    decodeDels bs.length (bitsToBytes (bitmap 8 bs)) = some bs := by
  have hlen : (bitsToBytes (bitmap 8 bs)).length = (bs.length + 7) / 8 := by
    rw [length_bitsToBytes, length_bitmap]
  have hbits := map_testBit_bitmap 8 (by decide) bs []
  rw [List.append_nil] at hbits
  rw [decodeDels, hlen, if_neg (lt_irrefl _), bytesToBits_bitsToBytes, hbits]

/-! ### Numbers -/

theorem bigEndian64_length (n : Int64) : (bigEndian64 n).length = 8 := length_beBytes ..

theorem toInt64_beNat_bigEndian64 (n : Int64) :
    (UInt64.ofNat (beNat (bigEndian64 n))).toInt64 = n := by
  rw [bigEndian64, beNat_beBytes_of_lt (lt_of_lt_of_eq n.toUInt64.toNat_lt (by norm_num)),
    UInt64.ofNat_toNat, Int64.toInt64_toUInt64]

theorem length_numbers (vals : List Int64) :
    (vals.flatMap bigEndian64).length = vals.length * 8 := by
  induction vals with
  | nil => rfl
  | cons v vals ih =>
    rw [List.flatMap_cons, List.length_append, ih, bigEndian64_length, List.length_cons]
    omega

/-- A number of fixed width is found by its index. -/
theorem take_drop_numbers {vals : List Int64} {i : ℕ} {v : Int64} (h : vals[i]? = some v) :
    ((vals.flatMap bigEndian64).drop (i * 8)).take 8 = bigEndian64 v := by
  induction vals generalizing i with
  | nil => cases h
  | cons x vals ih =>
    have hlen := bigEndian64_length x
    cases i with
    | zero =>
      obtain rfl := Option.some.inj h
      rw [List.flatMap_cons, Nat.zero_mul, List.drop_zero]
      exact List.take_left' hlen
    | succ i =>
      have hsplit : (i + 1) * 8 = 8 + i * 8 := by omega
      rw [List.flatMap_cons, hsplit, ← List.drop_drop, List.drop_left' hlen]
      exact ih h

/-- The numbers and the nulls of a column are read back. -/
theorem decodeDenseNumeric_encode {cells : List Bytes} (h : cells.length < 2 ^ 63) :
    decodeDenseNumeric (encodeDenseNumeric cells) =
      some (cells.map denseValue, bitmap 64 (cells.map isNullCell)) := by
  have hn : (UInt64.ofNat cells.length).toNat = cells.length := by
    rw [UInt64.toNat_ofNat']
    exact Nat.mod_eq_of_lt (by omega)
  have hbits : (bitsToBytes (bitmap 8 (cells.map isNullCell))).length = (cells.length + 7) / 8 := by
    rw [length_bitsToBytes, length_bitmap, List.length_map]
  have hvals : (cells.flatMap fun cell => bigEndian64 (denseValue cell)) =
      (cells.map denseValue).flatMap bigEndian64 := by rw [List.flatMap_map]
  have hlen : ((cells.map denseValue).flatMap bigEndian64).length = cells.length * 8 := by
    rw [length_numbers, List.length_map]
  rw [decodeDenseNumeric, encodeDenseNumeric, List.append_assoc, uvarint_putUvarint, Option.bind_some]
  simp only [List.drop_left, hn, hvals, List.length_append, hbits, hlen, lt_irrefl, if_false,
    Option.some.injEq, Prod.mk.injEq]
  constructor
  · apply List.ext_getElem
    · simp
    · intro i hi hi'
      rw [List.getElem_map, List.getElem_range, ← List.drop_drop, List.drop_left' hbits,
        take_drop_numbers (List.getElem?_eq_getElem hi'), toInt64_beNat_bigEndian64]
  · have hmap := map_testBit_bitmap 8 (by decide) (cells.map isNullCell)
      (bytesToBits ((cells.map denseValue).flatMap bigEndian64))
    rw [List.length_map] at hmap
    rw [bytesToBits, List.map_append, ← bytesToBits, bytesToBits_bitsToBytes, ← bytesToBits, hmap]

/-- The cell in the form that the writer of rows gives it. -/
def Canonical (t : ColType) (cell : Bytes) : Prop :=
  denseCell t (isNullCell cell) (denseValue cell) = cell

theorem denseToCells_encode (t : ColType) (cells : List Bytes) :
    denseToCells (cells.map denseValue) (bitmap 64 (cells.map isNullCell)) t =
      cells.map fun cell => denseCell t (isNullCell cell) (denseValue cell) := by
  apply List.ext_getElem
  · simp [denseToCells]
  · intro i hi hi'
    have hlt : i < (cells.map isNullCell).length := by
      rw [List.length_map] at hi' ⊢
      exact hi'
    simp only [denseToCells, List.getElem_mapIdx, List.getElem_map]
    rw [testBit_bitmap _ _ (by decide), List.getD_eq_getElem _ _ hlt, List.getElem_map]

/-! ### Blocks of numbers one behind the other -/

/-- As many words of nulls as the values need. -/
def NullsFit (d : List Int64 × List (BitVec 64)) : Prop := d.2.length = (d.1.length + 63) / 64

theorem nullsFit_decode {raw : Bytes} {d : List Int64 × List (BitVec 64)}
    (h : decodeDenseNumeric raw = some d) : NullsFit d := by
  obtain ⟨p, -, h⟩ := Option.bind_eq_some_iff.mp h
  dsimp only at h
  split at h
  · cases h
  · obtain rfl := Option.some.inj h
    rw [NullsFit, length_bitmap]
    simp

theorem length_denseToCells (vals : List Int64) (nulls : List (BitVec 64)) (t : ColType) :
    (denseToCells vals nulls t).length = vals.length := List.length_mapIdx

theorem denseToCells_append {vals : List Int64} {nulls : List (BitVec 64)}
    (hlen : nulls.length * 64 = vals.length) (vals' : List Int64) (nulls' : List (BitVec 64))
    (t : ColType) : denseToCells (vals ++ vals') (nulls ++ nulls') t =
      denseToCells vals nulls t ++ denseToCells vals' nulls' t := by
  rw [denseToCells, List.mapIdx_append]
  congr 1
  · apply List.mapIdx_eq_mapIdx_iff.mpr
    rintro i hi
    rw [testBit_append_left (by omega)]
  · apply List.mapIdx_eq_mapIdx_iff.mpr
    rintro i -
    rw [Nat.add_comm, ← hlen, testBit_append_right _ _ _ (by decide)]

/-- The cells of a column are those of its granules. -/
theorem denseToCells_flatten {ds : List (List Int64 × List (BitVec 64))}
    (hfit : ∀ d ∈ ds, NullsFit d) (hal : Aligned 64 (ds.map Prod.fst)) (t : ColType) :
    denseToCells (ds.map Prod.fst).flatten (ds.map Prod.snd).flatten t =
      (ds.map fun d => denseToCells d.1 d.2 t).flatten := by
  induction ds with
  | nil => rfl
  | cons d ds ih =>
    obtain ⟨hd, hds⟩ := List.forall_mem_cons.mp hfit
    cases ds with
    | nil => simp
    | cons d' ds =>
      obtain ⟨⟨k, hk⟩, hal⟩ := hal
      have hlen : d.2.length * 64 = d.1.length := by
        rw [NullsFit] at hd
        omega
      simp only [List.map_cons, List.flatten_cons] at ih ⊢
      rw [denseToCells_append hlen, ih hds hal]

end Ydbgo.Mpart
