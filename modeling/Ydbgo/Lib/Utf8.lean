import Mathlib.Algebra.Group.Nat.Defs
import Ydbgo.Lib.Bytes

/-! # UTF-8 as Go decodes it

A string read rune by rune. A byte that starts no well-formed sequence is read
alone, as the replacement character.
-/

namespace Ydbgo

abbrev Rune : Type := ℕ

def runeError : Rune := 0xFFFD

namespace Utf8

def cont (b : UInt8) : Bool := 0x80 ≤ b ∧ b ≤ 0xBF

/-- The bounds the lead byte `b` of a longer sequence puts on the second byte. -/
def second (b : UInt8) : UInt8 × UInt8 :=
  if b = 0xE0 then (0xA0, 0xBF)
  else if b = 0xED then (0x80, 0x9F)
  else if b = 0xF0 then (0x90, 0xBF)
  else if b = 0xF4 then (0x80, 0x8F)
  else (0x80, 0xBF)

/-- The number of bytes a sequence with lead byte `b` has; zero for no lead byte. -/
def size (b : UInt8) : ℕ :=
  if b < 0x80 then 1
  else if b < 0xC2 then 0
  else if b < 0xE0 then 2
  else if b < 0xF0 then 3
  else if b < 0xF5 then 4
  else 0

end Utf8

open Utf8 in
/-- `DecodeRune` on a string that starts with `b`: the rune and its width. -/
def decodeRune (b : UInt8) (bs : Bytes) : Rune × ℕ :=
  let ok (c : UInt8) : Bool := (second b).1 ≤ c ∧ c ≤ (second b).2
  match size b, bs with
  | 1, _ => (b.toNat, 1)
  | 2, c :: _ =>
    if ok c then (b.toNat % 32 * 64 + c.toNat % 64, 2) else (runeError, 1)
  | 3, c :: d :: _ =>
    if ok c ∧ cont d then
      (b.toNat % 16 * 64 ^ 2 + c.toNat % 64 * 64 + d.toNat % 64, 3)
    else (runeError, 1)
  | 4, c :: d :: e :: _ =>
    if ok c ∧ cont d ∧ cont e then
      (b.toNat % 8 * 64 ^ 3 + c.toNat % 64 * 64 ^ 2 + d.toNat % 64 * 64 + e.toNat % 64, 4)
    else (runeError, 1)
  | _, _ => (runeError, 1)

/-- `[]rune(s)`, at most `fuel` runes of it. -/
def runesFuel : ℕ → Bytes → List Rune
  | 0, _ => []
  | _, [] => []
  | fuel + 1, b :: bs =>
    let r := decodeRune b bs
    r.1 :: runesFuel fuel (bs.drop (r.2 - 1))

def runes (s : Bytes) : List Rune := runesFuel s.length s

/-- `EncodeRune`, of a rune that `decodeRune` returns. -/
def encodeRune (r : Rune) : Bytes :=
  if r < 0x80 then [UInt8.ofNat r]
  else if r < 0x800 then [UInt8.ofNat (0xC0 + r / 64), UInt8.ofNat (0x80 + r % 64)]
  else if r < 0x10000 then
    [UInt8.ofNat (0xE0 + r / 64 ^ 2), UInt8.ofNat (0x80 + r / 64 % 64),
      UInt8.ofNat (0x80 + r % 64)]
  else
    [UInt8.ofNat (0xF0 + r / 64 ^ 3), UInt8.ofNat (0x80 + r / 64 ^ 2 % 64),
      UInt8.ofNat (0x80 + r / 64 % 64), UInt8.ofNat (0x80 + r % 64)]

/-- `string(rs)`. -/
def ofRunes (rs : List Rune) : Bytes := rs.flatMap encodeRune

theorem decodeRune_ascii {b : UInt8} (h : b < 0x80) (bs : Bytes) :
    decodeRune b bs = (b.toNat, 1) := by
  simp [decodeRune, Utf8.size, h]

theorem runesFuel_ascii {s : Bytes} (h : ∀ b ∈ s, b < 0x80) (t : Bytes) (fuel : ℕ) :
    runesFuel (s.length + fuel) (s ++ t) = s.map UInt8.toNat ++ runesFuel fuel t := by
  induction s with
  | nil => simp
  | cons b s ih =>
    have hb := h b List.mem_cons_self
    have hs := ih fun b hb => h b (List.mem_cons_of_mem _ hb)
    rw [List.length_cons, Nat.add_right_comm, List.cons_append, runesFuel,
      decodeRune_ascii hb]
    simp [hs]

/-- An ASCII prefix is read byte by byte. -/
theorem runes_ascii_append {s : Bytes} (h : ∀ b ∈ s, b < 0x80) (t : Bytes) :
    runes (s ++ t) = s.map UInt8.toNat ++ runes t := by
  rw [runes, List.length_append, runesFuel_ascii h]
  rfl

/-! ### Reading what is written -/

/-- The code points that have an encoding. -/
def IsScalar (r : ℕ) : Prop := r < 0xD800 ∨ 0xE000 ≤ r ∧ r < 0x110000

namespace Utf8

theorem toNat_ofNat {n : ℕ} (h : n < 256) : (UInt8.ofNat n).toNat = n := by
  rw [UInt8.toNat_ofNat']
  omega

theorem size_of_toNat {b : UInt8} : size b =
    if b.toNat < 0x80 then 1 else if b.toNat < 0xC2 then 0 else if b.toNat < 0xE0 then 2
      else if b.toNat < 0xF0 then 3 else if b.toNat < 0xF5 then 4 else 0 := by
  simp only [size, UInt8.lt_iff_toNat_lt, UInt8.reduceToNat]

theorem second_of_toNat {b : UInt8} : second b =
    if b.toNat = 0xE0 then (0xA0, 0xBF) else if b.toNat = 0xED then (0x80, 0x9F)
      else if b.toNat = 0xF0 then (0x90, 0xBF) else if b.toNat = 0xF4 then (0x80, 0x8F)
      else (0x80, 0xBF) := by
  simp only [second, ← UInt8.toNat_inj, UInt8.reduceToNat]

theorem cont_ofNat (n : ℕ) : cont (UInt8.ofNat (0x80 + n % 64)) = true := by
  simp only [cont, UInt8.le_iff_toNat_le, UInt8.reduceToNat, decide_eq_true_eq]
  rw [toNat_ofNat (by omega)]
  omega

end Utf8

open Utf8

theorem decodeRune_two {r : ℕ} (hlo : 0x80 ≤ r) (hhi : r < 0x800) (t : Bytes) :
    decodeRune (UInt8.ofNat (0xC0 + r / 64)) (UInt8.ofNat (0x80 + r % 64) :: t) = (r, 2) := by
  have hb : (UInt8.ofNat (0xC0 + r / 64)).toNat = 0xC0 + r / 64 := toNat_ofNat (by omega)
  have hc : (UInt8.ofNat (0x80 + r % 64)).toNat = 0x80 + r % 64 := toNat_ofNat (by omega)
  have hsize : size (UInt8.ofNat (0xC0 + r / 64)) = 2 := by
    rw [size_of_toNat, hb]
    repeat' split
    all_goals omega
  have hsecond : second (UInt8.ofNat (0xC0 + r / 64)) = (0x80, 0xBF) := by
    rw [second_of_toNat, hb]
    repeat' split
    all_goals first | omega | rfl
  have hcont := cont_ofNat r
  simp only [cont] at hcont
  unfold decodeRune
  rw [hsize]
  simp only [hsecond, hcont, if_true, hb, hc, Prod.mk.injEq, and_true]
  change ((0xC0 + r / 64) % 32 * 64 + (0x80 + r % 64) % 64 : ℕ) = r
  omega

theorem decodeRune_three {r : ℕ} (h : IsScalar r) (hlo : 0x800 ≤ r) (hhi : r < 0x10000)
    (t : Bytes) :
    decodeRune (UInt8.ofNat (0xE0 + r / 64 ^ 2))
      (UInt8.ofNat (0x80 + r / 64 % 64) :: UInt8.ofNat (0x80 + r % 64) :: t) = (r, 3) := by
  have hb : (UInt8.ofNat (0xE0 + r / 64 ^ 2)).toNat = 0xE0 + r / 64 ^ 2 := toNat_ofNat (by omega)
  have hc : (UInt8.ofNat (0x80 + r / 64 % 64)).toNat = 0x80 + r / 64 % 64 :=
    toNat_ofNat (by omega)
  have hd : (UInt8.ofNat (0x80 + r % 64)).toNat = 0x80 + r % 64 := toNat_ofNat (by omega)
  have hsize : size (UInt8.ofNat (0xE0 + r / 64 ^ 2)) = 3 := by
    rw [size_of_toNat, hb]
    repeat' split
    all_goals omega
  have hok : (second (UInt8.ofNat (0xE0 + r / 64 ^ 2))).1 ≤ UInt8.ofNat (0x80 + r / 64 % 64) ∧
      UInt8.ofNat (0x80 + r / 64 % 64) ≤ (second (UInt8.ofNat (0xE0 + r / 64 ^ 2))).2 := by
    rw [second_of_toNat, hb]
    simp only [UInt8.le_iff_toNat_le, hc]
    unfold IsScalar at h
    repeat' split
    all_goals simp only [UInt8.reduceToNat]
    all_goals omega
  unfold decodeRune
  rw [hsize]
  simp only [hok, cont_ofNat, and_self, decide_true, if_true, hb, hc, hd, Prod.mk.injEq, and_true]
  change ((0xE0 + r / 64 ^ 2) % 16 * 64 ^ 2 + (0x80 + r / 64 % 64) % 64 * 64 +
    (0x80 + r % 64) % 64 : ℕ) = r
  omega

theorem decodeRune_four {r : ℕ} (hlo : 0x10000 ≤ r) (hhi : r < 0x110000) (t : Bytes) :
    decodeRune (UInt8.ofNat (0xF0 + r / 64 ^ 3))
      (UInt8.ofNat (0x80 + r / 64 ^ 2 % 64) :: UInt8.ofNat (0x80 + r / 64 % 64) ::
        UInt8.ofNat (0x80 + r % 64) :: t) = (r, 4) := by
  have hb : (UInt8.ofNat (0xF0 + r / 64 ^ 3)).toNat = 0xF0 + r / 64 ^ 3 := toNat_ofNat (by omega)
  have hc : (UInt8.ofNat (0x80 + r / 64 ^ 2 % 64)).toNat = 0x80 + r / 64 ^ 2 % 64 :=
    toNat_ofNat (by omega)
  have hd : (UInt8.ofNat (0x80 + r / 64 % 64)).toNat = 0x80 + r / 64 % 64 :=
    toNat_ofNat (by omega)
  have he : (UInt8.ofNat (0x80 + r % 64)).toNat = 0x80 + r % 64 := toNat_ofNat (by omega)
  have hsize : size (UInt8.ofNat (0xF0 + r / 64 ^ 3)) = 4 := by
    rw [size_of_toNat, hb]
    repeat' split
    all_goals omega
  have hok : (second (UInt8.ofNat (0xF0 + r / 64 ^ 3))).1 ≤ UInt8.ofNat (0x80 + r / 64 ^ 2 % 64) ∧
      UInt8.ofNat (0x80 + r / 64 ^ 2 % 64) ≤ (second (UInt8.ofNat (0xF0 + r / 64 ^ 3))).2 := by
    rw [second_of_toNat, hb]
    simp only [UInt8.le_iff_toNat_le, hc]
    repeat' split
    all_goals simp only [UInt8.reduceToNat]
    all_goals omega
  unfold decodeRune
  rw [hsize]
  simp only [hok, cont_ofNat, and_self, decide_true, if_true, hb, hc, hd, he, Prod.mk.injEq,
    and_true]
  change ((0xF0 + r / 64 ^ 3) % 8 * 64 ^ 3 + (0x80 + r / 64 ^ 2 % 64) % 64 * 64 ^ 2 +
    (0x80 + r / 64 % 64) % 64 * 64 + (0x80 + r % 64) % 64 : ℕ) = r
  omega

/-- A code point is read back from its encoding, whatever follows. -/
theorem exists_encodeRune {r : ℕ} (h : IsScalar r) : ∃ b bs, encodeRune r = b :: bs ∧
    (r < 0x80 → b.toNat = r ∧ bs = []) ∧ (0x80 ≤ r → 0x80 ≤ b.toNat) ∧
    ∀ t, decodeRune b (bs ++ t) = (r, bs.length + 1) := by
  unfold encodeRune
  by_cases h1 : r < 0x80
  · have hb : (UInt8.ofNat r).toNat = r := toNat_ofNat (by omega)
    have hascii : UInt8.ofNat r < 0x80 := by
      rw [UInt8.lt_iff_toNat_lt, hb]
      exact h1
    rw [if_pos h1]
    refine ⟨_, _, rfl, fun _ => ⟨hb, rfl⟩, fun h => absurd h1 (by omega), fun t => ?_⟩
    rw [List.nil_append, decodeRune_ascii hascii, hb]
    rfl
  rw [if_neg h1]
  by_cases h2 : r < 0x800
  · rw [if_pos h2]
    refine ⟨_, _, rfl, fun h => absurd h h1, fun _ => ?_, fun t => ?_⟩
    · rw [toNat_ofNat (by omega)]
      omega
    · exact decodeRune_two (by omega) h2 t
  rw [if_neg h2]
  by_cases h3 : r < 0x10000
  · rw [if_pos h3]
    refine ⟨_, _, rfl, fun h => absurd h h1, fun _ => ?_, fun t => ?_⟩
    · rw [toNat_ofNat (by omega)]
      omega
    · exact decodeRune_three h (by omega) h3 t
  rw [if_neg h3]
  have h4 : r < 0x110000 := by
    unfold IsScalar at h
    omega
  refine ⟨_, _, rfl, fun h => absurd h h1, fun _ => ?_, fun t => ?_⟩
  · rw [toNat_ofNat (by omega)]
    omega
  · exact decodeRune_four (by omega) h4 t

theorem runesFuel_encodeRune {r : ℕ} (h : IsScalar r) (t : Bytes) (fuel : ℕ) :
    runesFuel (fuel + 1) (encodeRune r ++ t) = r :: runesFuel fuel t := by
  obtain ⟨b, bs, he, -, -, hd⟩ := exists_encodeRune h
  rw [he, List.cons_append, runesFuel, hd]
  simp

theorem runesFuel_ofRunes {rs : List ℕ} (h : ∀ r ∈ rs, IsScalar r) {fuel : ℕ}
    (hf : (ofRunes rs).length ≤ fuel) : runesFuel fuel (ofRunes rs) = rs := by
  induction rs generalizing fuel with
  | nil => cases fuel <;> rfl
  | cons r rs ih =>
    obtain ⟨hr, h⟩ := List.forall_mem_cons.mp h
    have hcons : ofRunes (r :: rs) = encodeRune r ++ ofRunes rs := List.flatMap_cons
    obtain ⟨b, bs, he, -⟩ := exists_encodeRune hr
    rw [hcons, List.length_append, he, List.length_cons] at hf
    obtain ⟨n, rfl⟩ : ∃ n, fuel = n + 1 := ⟨fuel - 1, by omega⟩
    rw [hcons, runesFuel_encodeRune hr, ih h (by omega)]

theorem runes_ofRunes {rs : List ℕ} (h : ∀ r ∈ rs, IsScalar r) : runes (ofRunes rs) = rs :=
  runesFuel_ofRunes h (le_refl _)

theorem isScalar_runeError : IsScalar runeError := Or.inr (by decide)

/-- What is read is a code point. -/
theorem isScalar_decodeRune (b : UInt8) (bs : Bytes) : IsScalar (decodeRune b bs).1 := by
  have hsize := @size_of_toNat b
  have hb := b.toNat_lt
  unfold decodeRune
  dsimp only
  split
  · next h1 =>
    left
    change b.toNat < 0xD800
    omega
  · next c cs h2 =>
    split
    · left
      change b.toNat % 32 * 64 + c.toNat % 64 < 0xD800
      omega
    · exact isScalar_runeError
  · next c d cs h3 =>
    split
    · next hok =>
      have hok1 := of_decide_eq_true hok.1
      rw [second_of_toNat, UInt8.le_iff_toNat_le, UInt8.le_iff_toNat_le] at hok1
      rw [h3] at hsize
      have hlo : 0xE0 ≤ b.toNat ∧ b.toNat < 0xF0 := by
        repeat' split at hsize
        all_goals omega
      change b.toNat % 16 * 64 ^ 2 + c.toNat % 64 * 64 + d.toNat % 64 < 0xD800 ∨
        0xE000 ≤ b.toNat % 16 * 64 ^ 2 + c.toNat % 64 * 64 + d.toNat % 64 ∧
        b.toNat % 16 * 64 ^ 2 + c.toNat % 64 * 64 + d.toNat % 64 < 0x110000
      repeat' split at hok1
      all_goals simp only [UInt8.reduceToNat] at hok1
      all_goals omega
    · exact isScalar_runeError
  · next c d e cs h4 =>
    split
    · next hok =>
      have hok1 := of_decide_eq_true hok.1
      rw [second_of_toNat, UInt8.le_iff_toNat_le, UInt8.le_iff_toNat_le] at hok1
      rw [h4] at hsize
      have hlo : 0xF0 ≤ b.toNat ∧ b.toNat < 0xF5 := by
        repeat' split at hsize
        all_goals omega
      right
      change 0xE000 ≤ b.toNat % 8 * 64 ^ 3 + c.toNat % 64 * 64 ^ 2 + d.toNat % 64 * 64 +
          e.toNat % 64 ∧
        b.toNat % 8 * 64 ^ 3 + c.toNat % 64 * 64 ^ 2 + d.toNat % 64 * 64 + e.toNat % 64 < 0x110000
      repeat' split at hok1
      all_goals simp only [UInt8.reduceToNat] at hok1
      all_goals omega
    · exact isScalar_runeError
  · exact isScalar_runeError

theorem isScalar_runesFuel : ∀ (fuel : ℕ) (s : Bytes), ∀ r ∈ runesFuel fuel s, IsScalar r
  | 0, _, _, h => by simp [runesFuel] at h
  | _ + 1, [], _, h => by simp [runesFuel] at h
  | fuel + 1, b :: bs, r, h => by
    rw [runesFuel] at h
    rcases List.mem_cons.mp h with rfl | h
    · exact isScalar_decodeRune b bs
    · exact isScalar_runesFuel fuel _ r h

theorem isScalar_of_mem_runes {s : Bytes} {r : ℕ} (h : r ∈ runes s) : IsScalar r :=
  isScalar_runesFuel _ _ _ h

/-- A string that is its code points. -/
def IsUtf8 (s : Bytes) : Prop := ofRunes (runes s) = s

theorem isUtf8_ascii {s : Bytes} (h : ∀ b ∈ s, b < 0x80) : IsUtf8 s := by
  have hrunes : runes s = s.map UInt8.toNat := by
    simpa [runes, runesFuel] using runes_ascii_append h []
  rw [IsUtf8, hrunes, ofRunes, List.flatMap_map]
  have hone : ∀ b ∈ s, encodeRune b.toNat = [b] := by
    rintro b hb
    have hlt : b.toNat < 0x80 := UInt8.lt_iff_toNat_lt.mp (h b hb)
    rw [encodeRune, if_pos hlt, UInt8.ofNat_toNat]
  calc s.flatMap (fun b => encodeRune b.toNat) = s.flatMap fun b => [b] :=
        List.flatMap_congr hone
    _ = s := by simp

theorem isUtf8_of_all {s : Bytes} (h : s.all (· < 0x80)) : IsUtf8 s :=
  isUtf8_ascii fun b hb => of_decide_eq_true (List.all_eq_true.mp h b hb)

theorem isUtf8_ofRunes {rs : List ℕ} (h : ∀ r ∈ rs, IsScalar r) : IsUtf8 (ofRunes rs) := by
  rw [IsUtf8, runes_ofRunes h]

example : runes [0x61, 0xC3, 0xA9, 0xFF] = [0x61, 0xE9, runeError] := by decide

end Ydbgo
