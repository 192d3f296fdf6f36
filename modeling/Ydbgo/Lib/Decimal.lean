import Mathlib.Algebra.Group.Nat.Defs
import Ydbgo.Lib.Bytes

/-! # Decimal numbers

The decimal text of a number, and the number that a text of digits stands for.
A number is read back from its text, so that the text determines it.
-/

namespace Ydbgo

/-- The decimal text of a number. -/
def formatNat (n : ℕ) : Bytes := ascii (toString n)

def isDecimal (b : UInt8) : Bool := 48 ≤ b && b ≤ 57

/-- The number whose digits a text holds. -/
def natOfDigits (s : Bytes) : ℕ := s.foldl (fun n b => n * 10 + (b.toNat - 48)) 0

theorem ascii_append (s t : String) : ascii (s ++ t) = ascii s ++ ascii t := by
  simp [ascii, String.toList_append]

theorem toNat_toUInt8_of_isDigit {c : Char} (h : c.isDigit) :
    c.toNat.toUInt8.toNat = c.toNat ∧ 48 ≤ c.toNat ∧ c.toNat ≤ 57 := by
  simp only [Char.isDigit, Bool.and_eq_true, decide_eq_true_eq, ge_iff_le,
    UInt32.le_iff_toNat_le] at h
  have hlo : 48 ≤ c.toNat := h.1
  have hhi : c.toNat ≤ 57 := h.2
  refine ⟨?_, hlo, hhi⟩
  rw [Nat.toUInt8_eq, UInt8.toNat_ofNat']
  omega

theorem formatNat_eq (n : ℕ) :
    formatNat n = (Nat.toDigits 10 n).map fun c => c.toNat.toUInt8 := by
  simp [formatNat, ascii]

theorem mem_formatNat {n : ℕ} {b : UInt8} (h : b ∈ formatNat n) : 48 ≤ b.toNat ∧ b.toNat ≤ 57 := by
  rw [formatNat_eq, List.mem_map] at h
  obtain ⟨c, hc, rfl⟩ := h
  have hd := toNat_toUInt8_of_isDigit (Nat.isDigit_of_mem_toDigits (by decide) (by decide) hc)
  rw [hd.1]
  exact hd.2

theorem formatNat_ne_nil (n : ℕ) : formatNat n ≠ [] := by
  rw [formatNat_eq]
  simp

theorem foldl_digits : ∀ (cs : List Char) (n : ℕ), (∀ c ∈ cs, c.isDigit) →
    (cs.map fun c => c.toNat.toUInt8).foldl (fun n b => n * 10 + (b.toNat - 48)) n
      = Nat.ofDigitChars 10 cs n
  | [], n, _ => rfl
  | c :: cs, n, h => by
    have hc := (toNat_toUInt8_of_isDigit (h c List.mem_cons_self)).1
    rw [List.map_cons, List.foldl_cons, hc,
      foldl_digits cs _ fun c hc => h c (List.mem_cons_of_mem _ hc), Nat.ofDigitChars_cons,
      Nat.mul_comm n 10]
    rfl

theorem natOfDigits_formatNat (n : ℕ) : natOfDigits (formatNat n) = n := by
  rw [formatNat_eq, natOfDigits, foldl_digits]
  · exact Nat.ofDigitChars_ten_toDigits
  · exact fun c hc => Nat.isDigit_of_mem_toDigits (by decide) (by decide) hc

theorem formatNat_injective : Function.Injective formatNat := fun m n h => by
  rw [← natOfDigits_formatNat m, h, natOfDigits_formatNat]

theorem formatNat_eq_zero {n : ℕ} : formatNat n = [48] ↔ n = 0 :=
  formatNat_injective.eq_iff' (by decide)

theorem isDecimal_iff {b : UInt8} : isDecimal b ↔ 48 ≤ b.toNat ∧ b.toNat ≤ 57 := by
  simp only [isDecimal, Bool.and_eq_true, decide_eq_true_eq, UInt8.le_iff_toNat_le]
  exact Iff.rfl

theorem isDecimal_of_mem_formatNat {n : ℕ} {b : UInt8} (h : b ∈ formatNat n) : isDecimal b :=
  isDecimal_iff.mpr (mem_formatNat h)

theorem foldl_eq_natOfDigits (n : ℕ) (s : Bytes) :
    s.foldl (fun n b => n * 10 + (b.toNat - 48)) n = n * 10 ^ s.length + natOfDigits s := by
  induction s generalizing n with
  | nil => simp [natOfDigits]
  | cons b s ih =>
    have hcons : natOfDigits (b :: s) = (b.toNat - 48) * 10 ^ s.length + natOfDigits s := by
      rw [← ih, natOfDigits, List.foldl_cons, Nat.zero_mul, Nat.zero_add]
    rw [List.foldl_cons, ih, hcons, List.length_cons, Nat.pow_succ, Nat.add_mul, Nat.mul_assoc,
      Nat.mul_comm 10, Nat.add_assoc]

theorem natOfDigits_append (s t : Bytes) :
    natOfDigits (s ++ t) = natOfDigits s * 10 ^ t.length + natOfDigits t := by
  rw [natOfDigits, List.foldl_append, foldl_eq_natOfDigits]
  rfl

theorem natOfDigits_replicate (k : ℕ) : natOfDigits (List.replicate k 48) = 0 := by
  induction k with
  | zero => rfl
  | succ k ih =>
    rw [List.replicate_succ, ← List.singleton_append, natOfDigits_append, ih,
      show natOfDigits [48] = 0 by decide, Nat.zero_mul]

theorem length_formatNat_le_iff {n k : ℕ} (h : 0 < k) : (formatNat n).length ≤ k ↔ n < 10 ^ k := by
  rw [formatNat_eq, List.length_map]
  exact Nat.length_toDigits_le_iff (by decide) h

theorem natOfDigits_lt {s : Bytes} (h : ∀ b ∈ s, b.toNat ≤ 57) : natOfDigits s < 10 ^ s.length := by
  induction s with
  | nil => simp [natOfDigits]
  | cons b s ih =>
    obtain ⟨hb, h⟩ := List.forall_mem_cons.mp h
    have hs := ih h
    have hcons : natOfDigits (b :: s) = (b.toNat - 48) * 10 ^ s.length + natOfDigits s := by
      rw [← List.singleton_append, natOfDigits_append]
      simp [natOfDigits]
    have hmul : (b.toNat - 48) * 10 ^ s.length ≤ 9 * 10 ^ s.length :=
      Nat.mul_le_mul_right _ (by omega)
    rw [hcons, List.length_cons, Nat.pow_succ]
    omega

/-- No text of a number but that of zero starts with a zero. -/
theorem head_formatNat {n : ℕ} (h : n ≠ 0) : (formatNat n).head? ≠ some 48 := by
  intro hh
  obtain ⟨s, hs⟩ : ∃ s, formatNat n = 48 :: s := by
    cases hf : formatNat n with
    | nil => exact absurd hf (formatNat_ne_nil n)
    | cons b s =>
      rw [hf, List.head?_cons, Option.some.injEq] at hh
      exact ⟨s, by rw [hh]⟩
  have hdigits : ∀ b ∈ s, b.toNat ≤ 57 := fun b hb =>
    (mem_formatNat (hs ▸ List.mem_cons_of_mem _ hb)).2
  have hn : natOfDigits s = n := by
    rw [← natOfDigits_formatNat n, hs, ← List.singleton_append, natOfDigits_append]
    simp [natOfDigits]
  have hlt := natOfDigits_lt hdigits
  rw [hn] at hlt
  rcases Nat.eq_zero_or_pos s.length with h0 | hpos
  · rw [h0] at hlt
    omega
  · have hle := (length_formatNat_le_iff hpos).mpr hlt
    rw [hs, List.length_cons] at hle
    omega

/-! ### Texts of a fixed width -/

/-- With zeros in front up to a width. -/
def padZeros (width : ℕ) (s : Bytes) : Bytes := List.replicate (width - s.length) 48 ++ s

/-- A number of exactly so many digits. -/
def readDigits (width : ℕ) (s : Bytes) : Option (ℕ × Bytes) :=
  if width ≤ s.length ∧ (s.take width).all isDecimal then
    some (natOfDigits (s.take width), s.drop width)
  else none

theorem length_padZeros {width n : ℕ} (hw : 0 < width) (hn : n < 10 ^ width) :
    (padZeros width (formatNat n)).length = width := by
  have := (length_formatNat_le_iff hw).mpr hn
  rw [padZeros, List.length_append, List.length_replicate]
  omega

theorem natOfDigits_padZeros (width n : ℕ) : natOfDigits (padZeros width (formatNat n)) = n := by
  rw [padZeros, natOfDigits_append, natOfDigits_replicate, natOfDigits_formatNat, Nat.zero_mul,
    Nat.zero_add]

theorem all_padZeros (width n : ℕ) : (padZeros width (formatNat n)).all isDecimal := by
  rw [List.all_eq_true]
  intro b hb
  rcases List.mem_append.mp hb with hb | hb
  · rw [List.eq_of_mem_replicate hb]
    decide
  · exact isDecimal_of_mem_formatNat hb

/-- A number that fits its width is read back, whatever follows. -/
theorem readDigits_padZeros {width n : ℕ} (hw : 0 < width) (hn : n < 10 ^ width) (s : Bytes) :
    readDigits width (padZeros width (formatNat n) ++ s) = some (n, s) := by
  have hlen := length_padZeros hw hn
  have htake : (padZeros width (formatNat n) ++ s).take width = padZeros width (formatNat n) :=
    List.take_left' hlen
  rw [readDigits, htake, natOfDigits_padZeros, List.drop_left' hlen, if_pos]
  exact ⟨by rw [List.length_append]; omega, all_padZeros width n⟩

end Ydbgo
