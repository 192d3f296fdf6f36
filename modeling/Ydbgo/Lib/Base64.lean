import Mathlib.Algebra.Group.Nat.Defs
import Ydbgo.Lib.Bytes

/-! # Base64

The standard encoding with padding. Three bytes are four digits; one or two
bytes at the end are filled up with `=`.
-/

namespace Ydbgo.Base64

/-- The digit of a number below 64. -/
def digit (n : ℕ) : UInt8 :=
  if n < 26 then .ofNat (65 + n)
  else if n < 52 then .ofNat (97 + (n - 26))
  else if n < 62 then .ofNat (48 + (n - 52))
  else if n = 62 then 43
  else 47

def value (b : UInt8) : Option ℕ :=
  if 65 ≤ b ∧ b ≤ 90 then some (b.toNat - 65)
  else if 97 ≤ b ∧ b ≤ 122 then some (b.toNat - 97 + 26)
  else if 48 ≤ b ∧ b ≤ 57 then some (b.toNat - 48 + 52)
  else if b = 43 then some 62
  else if b = 47 then some 63
  else none

def encode : Bytes → Bytes
  | a :: b :: c :: s =>
    let n := (a.toNat * 256 + b.toNat) * 256 + c.toNat
    digit (n / 64 ^ 3) :: digit (n / 64 ^ 2 % 64) :: digit (n / 64 % 64) :: digit (n % 64) ::
      encode s
  | [a, b] =>
    let n := (a.toNat * 256 + b.toNat) * 4
    [digit (n / 64 ^ 2), digit (n / 64 % 64), digit (n % 64), 61]
  | [a] =>
    let n := a.toNat * 16
    [digit (n / 64), digit (n % 64), 61, 61]
  | [] => []

/-- The bits that padding leaves over are not looked at. -/
def decode : Bytes → Option Bytes
  | [] => some []
  | [w, x, 61, 61] => do
    let n := (← value w) * 64 + (← value x)
    return [.ofNat (n / 16)]
  | [w, x, y, 61] => do
    let n := ((← value w) * 64 + (← value x)) * 64 + (← value y)
    return [.ofNat (n / 1024), .ofNat (n / 4)]
  | w :: x :: y :: z :: s => do
    let n := (((← value w) * 64 + (← value x)) * 64 + (← value y)) * 64 + (← value z)
    let rest ← decode s
    return .ofNat (n / 65536) :: .ofNat (n / 256) :: .ofNat n :: rest
  | _ => none

example : encode (ascii "light") = ascii "bGlnaHQ=" := by decide

theorem value_digit : ∀ n < 64, value (digit n) = some n := by decide

theorem digit_ne_pad : ∀ n < 64, digit n ≠ 61 := by decide

theorem ofNat_toNat_of_eq {b : UInt8} {n : ℕ} (h : n % 256 = b.toNat) : UInt8.ofNat n = b := by
  apply UInt8.toNat_inj.mp
  rw [UInt8.toNat_ofNat', h]

theorem decode_three {w x y : UInt8} (hy : y ≠ 61) : decode [w, x, y, 61] = do
    let n := ((← value w) * 64 + (← value x)) * 64 + (← value y)
    return [.ofNat (n / 1024), .ofNat (n / 4)] := by
  rw [decode]
  exact hy

theorem decode_four {w x y z : UInt8} (hz : z ≠ 61) (s : Bytes) : decode (w :: x :: y :: z :: s) = do
    let n := (((← value w) * 64 + (← value x)) * 64 + (← value y)) * 64 + (← value z)
    let rest ← decode s
    return .ofNat (n / 65536) :: .ofNat (n / 256) :: .ofNat n :: rest := by
  rw [decode]
  · exact fun _ h => absurd h hz
  · exact fun h => absurd h hz

/-- Bytes are read back from their text. -/
theorem decode_encode : ∀ s : Bytes, decode (encode s) = some s
  | [] => rfl
  | [a] => by
    have ha := a.toNat_lt
    have hx : UInt8.ofNat ((a.toNat * 16 / 64 * 64 + a.toNat * 16 % 64) / 16) = a :=
      ofNat_toNat_of_eq (by omega)
    have hdigits : value (digit (a.toNat * 16 / 64)) = some (a.toNat * 16 / 64) ∧
        value (digit (a.toNat * 16 % 64)) = some (a.toNat * 16 % 64) :=
      ⟨value_digit _ (by omega), value_digit _ (by omega)⟩
    simp only [encode, decode, hdigits, Option.bind_eq_bind, Option.bind_some, hx]
    rfl
  | [a, b] => by
    have ha := a.toNat_lt
    have hb := b.toNat_lt
    rw [encode]
    generalize hn : (a.toNat * 256 + b.toNat) * 4 = n
    have hdigits : value (digit (n / 64 ^ 2)) = some (n / 64 ^ 2) ∧
        value (digit (n / 64 % 64)) = some (n / 64 % 64) ∧
        value (digit (n % 64)) = some (n % 64) :=
      ⟨value_digit _ (by omega), value_digit _ (by omega), value_digit _ (by omega)⟩
    have hjoin : (n / 64 ^ 2 * 64 + n / 64 % 64) * 64 + n % 64 = n := by omega
    have h1 : UInt8.ofNat (n / 1024) = a := ofNat_toNat_of_eq (by omega)
    have h2 : UInt8.ofNat (n / 4) = b := ofNat_toNat_of_eq (by omega)
    rw [decode_three (digit_ne_pad _ (by omega))]
    simp only [hdigits, Option.bind_eq_bind, Option.bind_some, hjoin, h1, h2]
    rfl
  | a :: b :: c :: s => by
    have ha := a.toNat_lt
    have hb := b.toNat_lt
    have hc := c.toNat_lt
    rw [encode]
    generalize hn : (a.toNat * 256 + b.toNat) * 256 + c.toNat = n
    have hdigits : value (digit (n / 64 ^ 3)) = some (n / 64 ^ 3) ∧
        value (digit (n / 64 ^ 2 % 64)) = some (n / 64 ^ 2 % 64) ∧
        value (digit (n / 64 % 64)) = some (n / 64 % 64) ∧
        value (digit (n % 64)) = some (n % 64) :=
      ⟨value_digit _ (by omega), value_digit _ (by omega), value_digit _ (by omega),
        value_digit _ (by omega)⟩
    have hjoin : ((n / 64 ^ 3 * 64 + n / 64 ^ 2 % 64) * 64 + n / 64 % 64) * 64 + n % 64 = n := by
      omega
    have h1 : UInt8.ofNat (n / 65536) = a := ofNat_toNat_of_eq (by omega)
    have h2 : UInt8.ofNat (n / 256) = b := ofNat_toNat_of_eq (by omega)
    have h3 : UInt8.ofNat n = c := ofNat_toNat_of_eq (by omega)
    rw [decode_four (digit_ne_pad _ (by omega)), decode_encode s]
    simp only [hdigits, Option.bind_eq_bind, Option.bind_some, hjoin, h1, h2, h3]
    rfl

theorem digit_lt : ∀ n < 64, digit n < 0x80 := by decide

theorem lt_of_mem_encode : ∀ s : Bytes, ∀ d ∈ encode s, d < 0x80
  | [], d, hd => by cases hd
  | [a], d, hd => by
    have ha := a.toNat_lt
    simp only [encode, List.mem_cons, List.not_mem_nil, or_false] at hd
    rcases hd with rfl | rfl | rfl | rfl
    · exact digit_lt _ (by omega)
    · exact digit_lt _ (by omega)
    · decide
    · decide
  | [a, b], d, hd => by
    have ha := a.toNat_lt
    have hb := b.toNat_lt
    simp only [encode, List.mem_cons, List.not_mem_nil, or_false] at hd
    rcases hd with rfl | rfl | rfl | rfl
    · exact digit_lt _ (by omega)
    · exact digit_lt _ (by omega)
    · exact digit_lt _ (by omega)
    · decide
  | a :: b :: c :: s, d, hd => by
    have ha := a.toNat_lt
    have hb := b.toNat_lt
    have hc := c.toNat_lt
    rw [encode] at hd
    simp only [List.mem_cons] at hd
    rcases hd with rfl | rfl | rfl | rfl | hd
    · exact digit_lt _ (by omega)
    · exact digit_lt _ (by omega)
    · exact digit_lt _ (by omega)
    · exact digit_lt _ (by omega)
    · exact lt_of_mem_encode s d hd

end Ydbgo.Base64
