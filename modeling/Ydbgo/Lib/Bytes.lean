import Mathlib.Data.List.Lex
import Mathlib.Order.Defs.LinearOrder

/-! # Byte strings

A byte string is a list of bytes, ordered as `bytes.Compare` orders it:
lexicographically by unsigned bytes. The order is the one Mathlib puts on
lists over a linear order of the bytes.
-/

namespace Ydbgo

abbrev Bytes : Type := List UInt8

theorem compare_uInt8 (a b : UInt8) : compare a b = compareOfLessAndEq a b := by
  rcases Std.lt_trichotomy a b with h | rfl | h
  · rw [compareOfLessAndEq, if_pos h, Std.compare_eq_lt]
    exact h
  · simp [compareOfLessAndEq]
  · rw [compareOfLessAndEq, if_neg (UInt8.lt_asymm h), if_neg (UInt8.ne_of_lt h).symm,
      Std.compare_eq_gt]
    exact h

instance instLinearOrderUInt8 : LinearOrder UInt8 where
  le_refl := UInt8.le_refl
  le_trans _ _ _ := UInt8.le_trans
  lt_iff_le_not_ge a b := by
    simp only [UInt8.lt_iff_toNat_lt, UInt8.le_iff_toNat_le]
    omega
  le_antisymm _ _ := UInt8.le_antisymm
  le_total := UInt8.le_total
  toDecidableLE := inferInstance
  toDecidableLT := inferInstance
  toDecidableEq := inferInstance
  compare_eq_compareOfLessAndEq := compare_uInt8

instance instLawfulBEqBytes : LawfulBEq Bytes := inferInstance

theorem cons_le_cons_self (x : UInt8) (a b : Bytes) : x :: a ≤ x :: b ↔ a ≤ b := by
  rw [← not_lt, ← not_lt, List.cons_lt_cons_iff]
  simp

theorem append_lt_append_iff (a s t : Bytes) : a ++ s < a ++ t ↔ s < t := by
  induction a with
  | nil => rfl
  | cons x a ih => simp [ih]

/-- Terminating with a zero byte keeps the order of two strings, whatever follows, unless the
smaller terminated string is a prefix of the larger. -/
theorem append_zero_lt {a b : Bytes} (h : a < b) (hn : ¬ a ++ [0] <+: b) (s t : Bytes) :
    a ++ 0 :: s < b ++ t := by
  induction a generalizing b with
  | nil =>
    obtain _ | ⟨y, b⟩ := b
    · exact absurd h (lt_irrefl _)
    · have hy : 0 < y := by
        refine lt_of_le_of_ne (UInt8.le_iff_toNat_le.mpr (Nat.zero_le _)) ?_
        rintro rfl
        exact hn ⟨b, rfl⟩
      exact List.Lex.rel hy
  | cons x a ih =>
    obtain _ | ⟨y, b⟩ := b
    · exact absurd h (List.not_lt_nil _)
    · rcases List.cons_lt_cons_iff.mp h with hxy | ⟨rfl, hab⟩
      · exact List.Lex.rel hxy
      · refine List.Lex.cons (ih hab fun hp => hn ?_)
        exact List.cons_prefix_cons.mpr ⟨rfl, hp⟩

theorem append_zero_le_of_lt {a b : Bytes} (h : a < b) (t : Bytes) : a ++ [0] ≤ b ++ t := by
  induction a generalizing b with
  | nil =>
    obtain _ | ⟨y, b⟩ := b
    · exact absurd h (lt_irrefl _)
    · rcases eq_or_lt_of_le (UInt8.le_iff_toNat_le.mpr (Nat.zero_le y.toNat) : 0 ≤ y) with rfl | hy
      · exact List.cons_le_cons _ (not_lt.mp (List.not_lt_nil _))
      · exact le_of_lt (List.Lex.rel hy)
  | cons x a ih =>
    obtain _ | ⟨y, b⟩ := b
    · exact absurd h (List.not_lt_nil _)
    · rcases List.cons_lt_cons_iff.mp h with hxy | ⟨rfl, hab⟩
      · exact le_of_lt (List.Lex.rel hxy)
      · exact List.cons_le_cons _ (ih hab)

/-- Past the terminator of a string there are only its own extensions and smaller strings. -/
theorem append_one_le_of_lt {a b : Bytes} (h : a < b) (hn : ¬ a ++ [0] <+: b) (t : Bytes) :
    a ++ [1] ≤ b ++ t := by
  induction a generalizing b with
  | nil =>
    obtain _ | ⟨y, b⟩ := b
    · exact absurd h (lt_irrefl _)
    · have hy : y ≠ 0 := by
        rintro rfl
        exact hn ⟨b, rfl⟩
      have hle : 1 ≤ y := UInt8.le_iff_toNat_le.mpr
        (Nat.one_le_iff_ne_zero.mpr fun h => hy (UInt8.toNat_inj.mp h))
      rcases eq_or_lt_of_le hle with rfl | hlt
      · exact List.cons_le_cons _ (not_lt.mp (List.not_lt_nil _))
      · exact le_of_lt (List.Lex.rel hlt)
  | cons x a ih =>
    obtain _ | ⟨y, b⟩ := b
    · exact absurd h (List.not_lt_nil _)
    · rcases List.cons_lt_cons_iff.mp h with hxy | ⟨rfl, hab⟩
      · exact le_of_lt (List.Lex.rel hxy)
      · exact List.cons_le_cons _ (ih hab fun hp => hn (List.cons_prefix_cons.mpr ⟨rfl, hp⟩))

/-- The bytes of an ASCII literal. -/
def ascii (s : String) : Bytes := s.toList.map fun c => c.toNat.toUInt8

example : ascii "ab" < ascii "abc" ∧ ascii "ab" < ascii "b" := by decide

end Ydbgo
