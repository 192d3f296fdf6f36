import Mathlib.Tactic.Ring
import Mathlib.Tactic.NormNum
import Ydbgo.Lib.Bytes

/-! # Big-endian integers

Fixed-width unsigned integers, most significant byte first. Among integers of
one width the byte order of the encodings is the numeric order.
-/

namespace Ydbgo

/-- The `w` low-order bytes of `v`, most significant first. -/
def beBytes : ℕ → ℕ → Bytes
  | 0, _ => []
  | w + 1, v => UInt8.ofNat (v / 256 ^ w) :: beBytes w v

/-- The integer whose bytes, most significant first, are `bs`. -/
def beNat (bs : Bytes) : ℕ := bs.foldl (fun acc b => acc * 256 + b.toNat) 0

@[simp] theorem length_beBytes (w v : ℕ) : (beBytes w v).length = w := by
  induction w with
  | zero => rfl
  | succ w ih => rw [beBytes, List.length_cons, ih]

theorem beNat_foldl (acc : ℕ) (bs : Bytes) :
    bs.foldl (fun acc b => acc * 256 + b.toNat) acc = acc * 256 ^ bs.length + beNat bs := by
  induction bs generalizing acc with
  | nil => simp [beNat]
  | cons b bs ih =>
    rw [beNat, List.foldl_cons, List.foldl_cons, ih, ih (0 * 256 + b.toNat), List.length_cons,
      pow_succ]
    ring

theorem beNat_cons (b : UInt8) (bs : Bytes) :
    beNat (b :: bs) = b.toNat * 256 ^ bs.length + beNat bs := by
  rw [beNat, List.foldl_cons, beNat_foldl]
  ring

theorem beNat_beBytes (w v : ℕ) : beNat (beBytes w v) = v % 256 ^ w := by
  induction w with
  | zero => simp [beBytes, beNat, Nat.mod_one]
  | succ w ih =>
    have hb : (UInt8.ofNat (v / 256 ^ w)).toNat = v / 256 ^ w % 256 := by simp
    rw [beBytes, beNat_cons, ih, length_beBytes, hb, pow_succ, Nat.mod_mul]
    ring

theorem beNat_beBytes_of_lt {w v : ℕ} (h : v < 256 ^ w) : beNat (beBytes w v) = v := by
  rw [beNat_beBytes, Nat.mod_eq_of_lt h]

theorem beBytes_injective {w v v' : ℕ} (h : v < 256 ^ w) (h' : v' < 256 ^ w)
    (he : beBytes w v = beBytes w v') : v = v' := by
  rw [← beNat_beBytes_of_lt h, he, beNat_beBytes_of_lt h']

theorem beNat_lt (bs : Bytes) : beNat bs < 256 ^ bs.length := by
  induction bs with
  | nil => simp [beNat]
  | cons b bs ih =>
    have hs : (b.toNat + 1) * 256 ^ bs.length ≤ 256 * 256 ^ bs.length :=
      Nat.mul_le_mul_right _ b.toNat_lt
    rw [beNat_cons, List.length_cons, pow_succ, mul_comm _ 256]
    rw [Nat.succ_mul] at hs
    omega

/-- Numeric order is byte order on strings of one length. -/
theorem beNat_lt_iff {bs cs : Bytes} (h : bs.length = cs.length) :
    beNat bs < beNat cs ↔ bs < cs := by
  induction bs generalizing cs with
  | nil =>
    obtain rfl : cs = [] := List.length_eq_zero_iff.mp h.symm
    simp
  | cons b bs ih =>
    obtain _ | ⟨c, cs⟩ := cs
    · simp at h
    have hl : bs.length = cs.length := by simpa using h
    have hb := beNat_lt bs
    have hc := beNat_lt cs
    rw [beNat_cons, beNat_cons, List.cons_lt_cons_iff, ← ih hl, ← hl] at *
    rcases Std.lt_trichotomy b c with hlt | rfl | hgt
    · have hs : (b.toNat + 1) * 256 ^ bs.length ≤ c.toNat * 256 ^ bs.length :=
        Nat.mul_le_mul_right _ hlt
      simp only [hlt, true_or, iff_true]
      rw [Nat.succ_mul] at hs
      omega
    · simp
    · have hs : (c.toNat + 1) * 256 ^ bs.length ≤ b.toNat * 256 ^ bs.length :=
        Nat.mul_le_mul_right _ hgt
      have hne : ¬ b < c := UInt8.lt_asymm hgt
      have hne' : b ≠ c := (UInt8.ne_of_lt hgt).symm
      simp only [hne, hne', false_and, or_self, iff_false, not_lt]
      rw [Nat.succ_mul] at hs
      omega

theorem beBytes_lt_iff {w v v' : ℕ} (h : v < 256 ^ w) (h' : v' < 256 ^ w) :
    beBytes w v < beBytes w v' ↔ v < v' := by
  rw [← beNat_lt_iff (by simp), beNat_beBytes_of_lt h, beNat_beBytes_of_lt h']

end Ydbgo
