import Mathlib.Tactic.Ring
import Mathlib.Tactic.NormNum
import Ydbgo.Lib.Bytes

/-! # Variable-length integers

The base-128 encoding of `encoding/binary`: seven bits a byte, least
significant first, the high bit set on every byte but the last. A 64-bit value
takes at most ten bytes, and the tenth is at most 1.
-/

namespace Ydbgo

/-- `PutUvarint`, writing at most `i + 1` bytes. -/
def putUvarintFrom : ℕ → ℕ → Bytes
  | 0, v => [UInt8.ofNat v]
  | i + 1, v => if v < 128 then [UInt8.ofNat v] else
      UInt8.ofNat (v % 128 + 128) :: putUvarintFrom i (v / 128)

def putUvarint (v : UInt64) : Bytes := putUvarintFrom 9 v.toNat

/-- `Uvarint` with `i + 1` bytes still allowed and the sum `x` of the bytes before, the next of
which weighs `w`. Returns the value and the number of bytes it took. -/
def uvarintFrom : ℕ → ℕ → ℕ → Bytes → Option (ℕ × ℕ)
  | _, _, _, [] => none
  | 0, x, w, b :: _ => if b.toNat ≤ 1 then some (x + b.toNat * w, 1) else none
  | i + 1, x, w, b :: bs =>
    if b.toNat < 128 then some (x + b.toNat * w, 1)
    else (uvarintFrom i (x + b.toNat % 128 * w) (w * 128) bs).map fun p => (p.1, p.2 + 1)

/-- `Uvarint`; `none` is a count of zero or less, for a short buffer or an overflow. -/
def uvarint (bs : Bytes) : Option (UInt64 × ℕ) :=
  (uvarintFrom 9 0 1 bs).map fun p => (UInt64.ofNat p.1, p.2)

theorem uvarintFrom_putUvarintFrom (i : ℕ) {v : ℕ} (hv : v < 2 * 128 ^ i) (x w : ℕ)
    (rest : Bytes) :
    uvarintFrom i x w (putUvarintFrom i v ++ rest) =
      some (x + v * w, (putUvarintFrom i v).length) := by
  induction i generalizing v x w with
  | zero =>
    have hm : v % 256 = v := by omega
    have hle : v ≤ 1 := by omega
    simp [putUvarintFrom, uvarintFrom, hm, hle]
  | succ i ih =>
    unfold putUvarintFrom
    by_cases h : v < 128
    · have hm : v % 256 = v := by omega
      simp [h, uvarintFrom, hm]
    · have hb : (v % 128 + 128) % 256 = v % 128 + 128 := by omega
      have hge : ¬ v % 128 + 128 < 128 := by omega
      have hd : v / 128 < 2 * 128 ^ i := by
        rw [pow_succ] at hv
        omega
      have hsum : x + v % 128 * w + v / 128 * (w * 128) = x + v * w := by
        conv_rhs => rw [← Nat.mod_add_div v 128]
        ring
      simp only [h, if_false, List.cons_append, uvarintFrom, UInt8.toNat_ofNat', hb, hge,
        Nat.add_mod_right, Nat.mod_mod, ih hd, hsum, Option.map_some, List.length_cons]

theorem uvarint_putUvarint (v : UInt64) (rest : Bytes) :
    uvarint (putUvarint v ++ rest) = some (v, (putUvarint v).length) := by
  have hv : v.toNat < 2 * 128 ^ 9 := lt_of_lt_of_eq v.toNat_lt (by norm_num)
  simp [uvarint, putUvarint, uvarintFrom_putUvarintFrom 9 hv]

theorem uvarintFrom_le {i x w : ℕ} {bs : Bytes} {p : ℕ × ℕ} (h : uvarintFrom i x w bs = some p) :
    p.2 ≤ bs.length := by
  induction bs generalizing i x w p with
  | nil =>
    cases i <;> cases h
  | cons b bs ih =>
    rw [List.length_cons]
    cases i with
    | zero =>
      rw [uvarintFrom] at h
      split at h
      · obtain rfl := Option.some.inj h
        exact Nat.le_add_left 1 _
      · cases h
    | succ i =>
      rw [uvarintFrom] at h
      split at h
      · obtain rfl := Option.some.inj h
        exact Nat.le_add_left 1 _
      · obtain ⟨q, hq, rfl⟩ := Option.map_eq_some_iff.mp h
        have := ih hq
        simp only
        omega

/-- A value takes no more bytes than there are. -/
theorem uvarint_le {bs : Bytes} {p : UInt64 × ℕ} (h : uvarint bs = some p) : p.2 ≤ bs.length := by
  obtain ⟨q, hq, rfl⟩ := Option.map_eq_some_iff.mp h
  exact uvarintFrom_le hq

theorem uvarintFrom_pos {i x w : ℕ} {bs : Bytes} {p : ℕ × ℕ} (h : uvarintFrom i x w bs = some p) :
    0 < p.2 := by
  cases bs with
  | nil => cases i <;> cases h
  | cons b bs =>
    cases i with
    | zero =>
      rw [uvarintFrom] at h
      split at h
      · obtain rfl := Option.some.inj h
        exact Nat.one_pos
      · cases h
    | succ i =>
      rw [uvarintFrom] at h
      split at h
      · obtain rfl := Option.some.inj h
        exact Nat.one_pos
      · obtain ⟨q, -, rfl⟩ := Option.map_eq_some_iff.mp h
        exact Nat.succ_pos _

/-- A value takes a byte. -/
theorem uvarint_pos {bs : Bytes} {p : UInt64 × ℕ} (h : uvarint bs = some p) : 0 < p.2 := by
  obtain ⟨q, hq, rfl⟩ := Option.map_eq_some_iff.mp h
  exact uvarintFrom_pos hq

theorem uvarintFrom_append {i x w : ℕ} {bs : Bytes} {p : ℕ × ℕ} (h : uvarintFrom i x w bs = some p)
    (more : Bytes) : uvarintFrom i x w (bs ++ more) = some p := by
  induction bs generalizing i x w p with
  | nil =>
    cases i <;> cases h
  | cons b bs ih =>
    rw [List.cons_append]
    cases i with
    | zero => exact h
    | succ i =>
      rw [uvarintFrom] at h ⊢
      split at h
      · next hb => rw [if_pos hb, h]
      · next hb =>
        obtain ⟨q, hq, rfl⟩ := Option.map_eq_some_iff.mp h
        rw [if_neg hb, ih hq, Option.map_some]

/-- The bytes behind a value do not change it. -/
theorem uvarint_append {bs : Bytes} {p : UInt64 × ℕ} (h : uvarint bs = some p) (more : Bytes) :
    uvarint (bs ++ more) = some p := by
  obtain ⟨q, hq, rfl⟩ := Option.map_eq_some_iff.mp h
  rw [uvarint, uvarintFrom_append hq, Option.map_some]

theorem uvarintFrom_take {i x w : ℕ} {bs : Bytes} {p : ℕ × ℕ} (h : uvarintFrom i x w bs = some p)
    {j : ℕ} (hj : p.2 ≤ j) : uvarintFrom i x w (bs.take j) = some p := by
  induction bs generalizing i x w p j with
  | nil =>
    cases i <;> cases h
  | cons b bs ih =>
    cases i with
    | zero =>
      rw [uvarintFrom] at h
      split at h
      · next hb =>
        obtain rfl := Option.some.inj h
        obtain ⟨j, rfl⟩ : ∃ m, j = m + 1 := ⟨j - 1, by simp only at hj; omega⟩
        rw [List.take_succ_cons, uvarintFrom, if_pos hb]
      · cases h
    | succ i =>
      rw [uvarintFrom] at h
      split at h
      · next hb =>
        obtain rfl := Option.some.inj h
        obtain ⟨j, rfl⟩ : ∃ m, j = m + 1 := ⟨j - 1, by simp only at hj; omega⟩
        rw [List.take_succ_cons, uvarintFrom, if_pos hb]
      · next hb =>
        obtain ⟨q, hq, rfl⟩ := Option.map_eq_some_iff.mp h
        obtain ⟨j, rfl⟩ : ∃ m, j = m + 1 := ⟨j - 1, by simp only at hj; omega⟩
        rw [List.take_succ_cons, uvarintFrom, if_neg hb, ih hq (by simp only at hj; omega),
          Option.map_some]

/-- The bytes of a value are enough to read it. -/
theorem uvarint_take {bs : Bytes} {p : UInt64 × ℕ} (h : uvarint bs = some p) {j : ℕ}
    (hj : p.2 ≤ j) : uvarint (bs.take j) = some p := by
  obtain ⟨q, hq, rfl⟩ := Option.map_eq_some_iff.mp h
  rw [uvarint, uvarintFrom_take hq hj, Option.map_some]

theorem length_putUvarint_pos (v : UInt64) : 0 < (putUvarint v).length := by
  unfold putUvarint putUvarintFrom
  split <;> simp

end Ydbgo
