import Mathlib.Algebra.Group.Int.Defs
import Mathlib.Data.List.TakeWhile
import Ydbgo.Lib.Calendar
import Ydbgo.Lib.Decimal

/-! # Times as text

The format of RFC 3339 with a fraction of a second, and its reader. A time is an
instant in nanoseconds with a zone in seconds; the text holds the clock of the
zone, without trailing zeros of the fraction. It is read back exactly for years
of four digits and zones of whole minutes up to 24 hours and 59 minutes.
-/

namespace Ydbgo.Rfc3339
open Calendar

/-! ### Writing -/

/-- `appendInt`. -/
def appendInt (width : ℕ) (n : ℤ) : Bytes :=
  (if n < 0 then [45] else []) ++ padZeros width (formatNat n.natAbs)

def formatDate (d : Date) : Bytes :=
  appendInt 4 d.year ++ [45] ++ padZeros 2 (formatNat d.month) ++ [45] ++
    padZeros 2 (formatNat d.day)

def formatClock (secs : ℕ) : Bytes :=
  padZeros 2 (formatNat (secs / 3600)) ++ [58] ++ padZeros 2 (formatNat (secs % 3600 / 60)) ++
    [58] ++ padZeros 2 (formatNat (secs % 60))

/-- Without its zeros at the end. -/
def trimZeros (s : Bytes) : Bytes := (s.reverse.dropWhile (· = 48)).reverse

def formatFraction (nanos : ℕ) : Bytes :=
  if nanos = 0 then [] else 46 :: trimZeros (padZeros 9 (formatNat nanos))

def formatZone (zone : ℤ) : Bytes :=
  if zone = 0 then [90]
  else
    let minutes := zone.tdiv 60
    [if minutes < 0 then 45 else 43] ++ padZeros 2 (formatNat (minutes.natAbs / 60)) ++ [58] ++
      padZeros 2 (formatNat (minutes.natAbs % 60))

def format (nanos zone : ℤ) : Bytes :=
  let clock := nanos + zone * 10 ^ 9
  let secs := clock / 10 ^ 9
  formatDate (dateOf (secs / 86400)) ++ [84] ++ formatClock (secs % 86400).toNat ++
    formatFraction (clock % 10 ^ 9).toNat ++ formatZone zone

/-! ### Reading -/

def skip (c : UInt8) : Bytes → Option Bytes
  | [] => none
  | b :: s => if b = c then some s else none

def readDate (s : Bytes) : Option (Date × Bytes) :=
  (readDigits 4 s).bind fun (year, s) => (skip 45 s).bind fun s =>
  (readDigits 2 s).bind fun (month, s) => (skip 45 s).bind fun s =>
  (readDigits 2 s).bind fun (day, s) =>
    if 1 ≤ month ∧ month ≤ 12 ∧ 1 ≤ day ∧ day ≤ daysIn month year then
      some ({ year := year, month := month, day := day }, s)
    else none

/-- An hour may have one digit. -/
def readClock (s : Bytes) : Option (ℕ × Bytes) :=
  ((readDigits 2 s).or (readDigits 1 s)).bind fun (hour, s) => (skip 58 s).bind fun s =>
  (readDigits 2 s).bind fun (min, s) => (skip 58 s).bind fun s =>
  (readDigits 2 s).bind fun (sec, s) =>
    if hour < 24 ∧ min < 60 ∧ sec < 60 then some (hour * 3600 + min * 60 + sec, s) else none

/-- A fraction may be left out, and its digits after the ninth do not count. -/
def readFraction (s : Bytes) : ℕ × Bytes :=
  match s with
  | mark :: s' =>
    let digits := s'.takeWhile isDecimal
    if (mark = 46 ∨ mark = 44) ∧ digits ≠ [] then
      (natOfDigits (digits.take 9) * 10 ^ (9 - (digits.take 9).length), s'.drop digits.length)
    else (0, s)
  | [] => (0, [])

def readZone (s : Bytes) : Option (ℤ × Bytes) :=
  if s.head? = some 90 then some (0, s.tail)
  else
    match s with
    | sign :: h₁ :: h₂ :: colon :: m₁ :: m₂ :: rest =>
      if colon = 58 ∧ (sign = 43 ∨ sign = 45) ∧ [h₁, h₂, m₁, m₂].all isDecimal ∧
          natOfDigits [h₁, h₂] ≤ 24 ∧ natOfDigits [m₁, m₂] ≤ 60 then
        let secs : ℤ := (natOfDigits [h₁, h₂] * 60 + natOfDigits [m₁, m₂]) * 60
        some (if sign = 45 then -secs else secs, rest)
      else none
    | _ => none

/-- The instant and the zone of a text. -/
def parse (s : Bytes) : Option (ℤ × ℤ) :=
  (readDate s).bind fun (date, s) => (skip 84 s).bind fun s =>
  (readClock s).bind fun (secs, s) =>
  (readZone (readFraction s).2).bind fun (zone, rest) =>
    if rest = [] then
      some ((dayNumber date * 86400 + secs) * 10 ^ 9 + (readFraction s).1 - zone * 10 ^ 9, zone)
    else none

example : format 1500000000123000000 3600 = ascii "2017-07-14T03:40:00.123+01:00" := by
  decide +kernel

example : parse (ascii "2017-07-14T03:40:00.123+01:00") = some (1500000000123000000, 3600) := by
  decide +kernel

/-! ### Reading what was written -/

@[simp] theorem skip_cons (c : UInt8) (s : Bytes) : skip c (c :: s) = some s := by simp [skip]

theorem appendInt_of_nonneg (width : ℕ) {n : ℤ} (h : 0 ≤ n) :
    appendInt width n = padZeros width (formatNat n.toNat) := by
  rw [appendInt, if_neg (Int.not_lt.mpr h), List.nil_append, show n.natAbs = n.toNat by omega]

/-- A date of a year of four digits is read back. -/
theorem readDate_formatDate {d : Date} (hd : d.Valid) (h0 : 0 ≤ d.year) (h1 : d.year ≤ 9999)
    (s : Bytes) : readDate (formatDate d ++ s) = some (d, s) := by
  have hday : d.day ≤ 31 := by
    have := hd.day_le
    unfold daysIn at this
    split at this
    · split at this <;> omega
    · split at this <;> omega
  have hy : ((d.year.toNat : ℕ) : ℤ) = d.year := Int.toNat_of_nonneg h0
  simp only [formatDate, appendInt_of_nonneg 4 h0, List.append_assoc, readDate]
  rw [readDigits_padZeros (by decide) (by omega), Option.bind_some]
  simp only [List.cons_append, List.nil_append, skip_cons, Option.bind_some]
  rw [readDigits_padZeros (by decide) (by have := hd.month_le; omega), Option.bind_some]
  simp only [skip_cons, Option.bind_some]
  rw [readDigits_padZeros (by decide) (by omega), Option.bind_some]
  simp only [hy]
  rw [if_pos ⟨hd.month_pos, hd.month_le, hd.day_pos, hd.day_le⟩]

theorem readDigits_of_head {width : ℕ} (hw : 0 < width) {b : UInt8} {s : Bytes}
    (hb : ¬ isDecimal b) : readDigits width (b :: s) = none := by
  obtain ⟨k, rfl⟩ : ∃ k, width = k + 1 := ⟨width - 1, by omega⟩
  simp [readDigits, hb]

/-- The date of any other year is not. -/
theorem readDate_formatDate_none {d : Date} (h : ¬ (0 ≤ d.year ∧ d.year ≤ 9999)) (s : Bytes) :
    readDate (formatDate d ++ s) = none := by
  by_cases h0 : d.year < 0
  · simp only [formatDate, appendInt, if_pos h0, List.cons_append, List.nil_append, readDate]
    rw [readDigits_of_head (by decide) (by decide), Option.bind_none]
  · -- the fifth digit stands where the dash is expected
    have hlen : 5 ≤ (formatNat d.year.toNat).length := by
      have := (length_formatNat_le_iff (n := d.year.toNat) (show 0 < 4 by decide)).not
      omega
    simp only [formatDate, appendInt_of_nonneg 4 (Int.not_lt.mp h0), List.append_assoc, readDate]
    have hpad : padZeros 4 (formatNat d.year.toNat) = formatNat d.year.toNat := by
      rw [padZeros, show 4 - (formatNat d.year.toNat).length = 0 by omega]
      rfl
    rw [hpad]
    obtain ⟨b, rest, hdrop⟩ : ∃ b rest, (formatNat d.year.toNat).drop 4 = b :: rest := by
      cases hd : (formatNat d.year.toNat).drop 4 with
      | nil =>
        have := List.drop_eq_nil_iff.mp hd
        omega
      | cons b rest => exact ⟨b, rest, rfl⟩
    have hb : b ∈ formatNat d.year.toNat := List.mem_of_mem_drop (hdrop ▸ List.mem_cons_self)
    have hne : b ≠ 45 := by
      rintro rfl
      exact absurd (mem_formatNat hb).1 (by decide)
    unfold readDigits
    split
    · rw [Option.bind_some]
      dsimp only
      rw [List.drop_append_of_le_length (by omega), hdrop, List.cons_append, skip, if_neg hne,
        Option.bind_none]
    · rfl

theorem readClock_formatClock {secs : ℕ} (h : secs < 86400) (s : Bytes) :
    readClock (formatClock secs ++ s) = some (secs, s) := by
  simp only [formatClock, List.append_assoc, readClock]
  rw [readDigits_padZeros (by decide) (by omega), Option.some_or, Option.bind_some]
  simp only [List.cons_append, List.nil_append, skip_cons, Option.bind_some]
  rw [readDigits_padZeros (by decide) (by omega), Option.bind_some]
  simp only [skip_cons, Option.bind_some]
  rw [readDigits_padZeros (by decide) (by omega), Option.bind_some]
  dsimp only
  rw [if_pos (by omega)]
  simp only [Option.some.injEq, Prod.mk.injEq, and_true]
  omega

/-- A text is what is left of it without the zeros at its end, and these. -/
theorem trimZeros_append (s : Bytes) : ∃ k, s = trimZeros s ++ List.replicate k 48 := by
  refine ⟨(s.reverse.takeWhile (· = 48)).length, ?_⟩
  have hzeros : s.reverse.takeWhile (· = 48) =
      List.replicate (s.reverse.takeWhile (· = 48)).length 48 :=
    List.eq_replicate_of_mem fun b hb => by simpa using List.mem_takeWhile_imp hb
  rw [trimZeros, ← List.reverse_replicate, ← hzeros, ← List.reverse_append,
    List.takeWhile_append_dropWhile, List.reverse_reverse]

/-- A text that neither a digit nor a mark of a fraction starts. -/
def EndsClock (s : Bytes) : Prop := ∀ b ∈ s.head?, ¬ isDecimal b ∧ b ≠ 46 ∧ b ≠ 44

theorem readFraction_formatFraction {nanos : ℕ} (h : nanos < 10 ^ 9) {s : Bytes}
    (hs : EndsClock s) : readFraction (formatFraction nanos ++ s) = (nanos, s) := by
  by_cases h0 : nanos = 0
  · subst h0
    cases s with
    | nil => rfl
    | cons b s =>
      obtain ⟨-, h46, h44⟩ := hs b rfl
      simp [formatFraction, readFraction, h46, h44]
  · obtain ⟨k, hk⟩ := trimZeros_append (padZeros 9 (formatNat nanos))
    have hlen := length_padZeros (show 0 < 9 by decide) h
    have hnum := natOfDigits_padZeros 9 nanos
    have hall := all_padZeros 9 nanos
    rw [formatFraction, if_neg h0]
    generalize trimZeros (padZeros 9 (formatNat nanos)) = digits at hk ⊢
    rw [hk] at hlen hnum hall
    rw [natOfDigits_append, natOfDigits_replicate, List.length_replicate, Nat.add_zero] at hnum
    rw [List.length_append, List.length_replicate] at hlen
    rw [List.all_append, Bool.and_eq_true] at hall
    have hne : digits ≠ [] := by
      rintro rfl
      exact h0 (hnum.symm.trans (by simp [natOfDigits]))
    have htake : (digits ++ s).takeWhile isDecimal = digits := by
      rw [List.takeWhile_append_of_pos (List.all_eq_true.mp hall.1)]
      cases s with
      | nil => simp
      | cons b s => rw [List.takeWhile_cons_of_neg (hs b rfl).1, List.append_nil]
    simp only [List.cons_append, readFraction, htake]
    rw [if_pos (by simp [hne]), List.take_of_length_le (by omega), List.drop_left,
      show 9 - digits.length = k by omega, hnum]

theorem endsClock_formatZone (zone : ℤ) : EndsClock (formatZone zone) := by
  intro b hb
  unfold formatZone at hb
  split at hb
  · obtain rfl := Option.some.inj hb
    decide
  · dsimp only at hb
    split at hb <;>
    · obtain rfl := Option.some.inj hb
      decide

/-- The two digits of a number below a hundred. -/
theorem padZeros_two {n : ℕ} (h : n < 100) : ∃ a b, padZeros 2 (formatNat n) = [a, b] ∧
    isDecimal a ∧ isDecimal b ∧ natOfDigits [a, b] = n := by
  have hlen := length_padZeros (show 0 < 2 by decide) h
  have hall := all_padZeros 2 n
  have hnum := natOfDigits_padZeros 2 n
  match hp : padZeros 2 (formatNat n), hlen with
  | [a, b], _ =>
    rw [hp] at hall hnum
    simp only [List.all_cons, List.all_nil, Bool.and_true, Bool.and_eq_true] at hall
    exact ⟨a, b, rfl, hall.1, hall.2, hnum⟩

/-- The minutes that a zone is printed with. -/
theorem tdiv_sixty (zone : ℤ) : (zone.tdiv 60).natAbs = zone.natAbs / 60 ∧
    (zone.tdiv 60 < 0 ↔ zone ≤ -60) := by
  constructor
  · rw [Int.natAbs_tdiv]
    rfl
  · rcases Int.le_total 0 zone with h | h
    · rw [Int.tdiv_eq_ediv_of_nonneg h]
      omega
    · obtain ⟨n, rfl⟩ : ∃ n : ℤ, zone = -n := ⟨-zone, by omega⟩
      rw [Int.neg_tdiv, Int.tdiv_eq_ediv_of_nonneg (by omega)]
      omega

/-- Only zones of whole minutes up to 24 hours and 59 minutes are read back. -/
theorem readZone_formatZone (zone : ℤ) :
    readZone (formatZone zone) = some (zone, []) ↔ 60 ∣ zone ∧ zone.natAbs < 90000 := by
  by_cases h0 : zone = 0
  · subst h0
    decide
  obtain ⟨habs, hsign⟩ := tdiv_sixty zone
  rw [formatZone, if_neg h0]
  dsimp only
  rw [habs]
  generalize hs : (if zone.tdiv 60 < 0 then (45 : UInt8) else 43) = sign
  have hsign' : sign = 45 ∧ zone ≤ -60 ∨ sign = 43 ∧ -60 < zone := by
    rw [← hs]
    split
    · exact Or.inl ⟨rfl, hsign.mp ‹_›⟩
    · exact Or.inr ⟨rfl, by omega⟩
  have hne : sign ≠ 90 := by
    rcases hsign' with ⟨rfl, -⟩ | ⟨rfl, -⟩ <;> decide
  by_cases hh : zone.natAbs / 60 / 60 < 100
  · obtain ⟨h₁, h₂, hp, hd₁, hd₂, hnum⟩ := padZeros_two hh
    obtain ⟨m₁, m₂, hp', hd₁', hd₂', hnum'⟩ :=
      padZeros_two (show zone.natAbs / 60 % 60 < 100 by omega)
    have hread : readZone [sign, h₁, h₂, 58, m₁, m₂] =
        if zone.natAbs / 60 / 60 ≤ 24 then
          some (if sign = 45 then -((zone.natAbs / 60 : ℕ) * 60 : ℤ)
            else (zone.natAbs / 60 : ℕ) * 60, [])
        else none := by
      have hsecs : ((zone.natAbs / 60 / 60 : ℕ) * 60 + (zone.natAbs / 60 % 60 : ℕ) : ℤ) =
          (zone.natAbs / 60 : ℕ) := by omega
      have hmark : sign = 43 ∨ sign = 45 := by
        rcases hsign' with ⟨h, -⟩ | ⟨h, -⟩
        · exact Or.inr h
        · exact Or.inl h
      rw [readZone, if_neg (by simpa using hne)]
      simp only [hmark, List.all_cons, hd₁, hd₂, hd₁', hd₂', hnum, hnum', List.all_nil,
        Bool.and_self, true_and, hsecs]
      simp only [show zone.natAbs / 60 % 60 ≤ 60 by omega, and_true]
    rw [hp, hp']
    simp only [List.cons_append, List.nil_append, hread]
    rcases hsign' with ⟨rfl, hz⟩ | ⟨rfl, hz⟩
    · split
      · simp only [if_true, Option.some.injEq, Prod.mk.injEq, and_true]
        omega
      · simp only [reduceCtorEq, false_iff]
        omega
    · split
      · rw [if_neg (by decide)]
        simp only [Option.some.injEq, Prod.mk.injEq, and_true]
        omega
      · simp only [reduceCtorEq, false_iff]
        omega
  · -- a third digit stands where the colon is expected
    have hlen : 3 ≤ (formatNat (zone.natAbs / 60 / 60)).length := by
      have := (length_formatNat_le_iff (n := zone.natAbs / 60 / 60) (show 0 < 2 by decide)).not
      omega
    have hpad : padZeros 2 (formatNat (zone.natAbs / 60 / 60)) =
        formatNat (zone.natAbs / 60 / 60) := by
      rw [padZeros, show 2 - (formatNat (zone.natAbs / 60 / 60)).length = 0 by omega]
      rfl
    rw [hpad]
    constructor
    · have hdigits : ∀ d ∈ formatNat (zone.natAbs / 60 / 60), d ≠ 58 := by
        rintro _ hd rfl
        exact absurd (mem_formatNat hd).2 (by decide)
      generalize formatNat (zone.natAbs / 60 / 60) = ds at hlen hdigits ⊢
      obtain _ | ⟨a, _ | ⟨b, _ | ⟨c, rest⟩⟩⟩ := ds
      · simp at hlen
      · simp at hlen
      · simp at hlen
      have hc : c ≠ 58 := hdigits c (by simp)
      intro hr
      exfalso
      simp only [List.cons_append, List.nil_append, readZone, List.head?_cons, Option.some.injEq,
        hne, if_false] at hr
      split at hr
      · next heq =>
        simp only [List.cons.injEq] at heq
        obtain ⟨-, -, -, rfl, -⟩ := heq
        rw [if_neg fun h => hc h.1] at hr
        cases hr
      · cases hr
    · rintro ⟨-, hz⟩
      omega

/-- Times that the text tells apart: years of four digits and zones of whole minutes. -/
def Printable (nanos zone : ℤ) : Prop :=
  0 ≤ (dateOf ((nanos + zone * 10 ^ 9) / 10 ^ 9 / 86400)).year ∧
  (dateOf ((nanos + zone * 10 ^ 9) / 10 ^ 9 / 86400)).year ≤ 9999 ∧
  60 ∣ zone ∧ zone.natAbs < 90000

/-- A time is read back from its text exactly if it is printable. -/
theorem parse_format (nanos zone : ℤ) :
    parse (format nanos zone) = some (nanos, zone) ↔ Printable nanos zone := by
  generalize hclock : nanos + zone * 10 ^ 9 = clock
  have hsod : (clock / 10 ^ 9 % 86400).toNat < 86400 := by omega
  have hfrac : (clock % 10 ^ 9).toNat < 10 ^ 9 := by omega
  simp only [Printable, hclock, format, parse, List.append_assoc]
  by_cases hyear : 0 ≤ (dateOf (clock / 10 ^ 9 / 86400)).year ∧
      (dateOf (clock / 10 ^ 9 / 86400)).year ≤ 9999
  · rw [readDate_formatDate (valid_dateOf _) hyear.1 hyear.2, Option.bind_some]
    simp only [List.cons_append, List.nil_append, skip_cons, Option.bind_some]
    rw [readClock_formatClock hsod, Option.bind_some]
    simp only [readFraction_formatFraction hfrac (endsClock_formatZone zone), dayNumber_dateOf]
    rw [← readZone_formatZone, and_iff_right hyear.1, and_iff_right hyear.2]
    constructor
    · intro h
      obtain ⟨⟨zone', rest⟩, hz, hrest⟩ := Option.bind_eq_some_iff.mp h
      dsimp only at hrest
      split at hrest
      · next hnil =>
        simp only [Option.some.injEq, Prod.mk.injEq] at hrest
        rw [hz, hrest.2, hnil]
      · cases hrest
    · intro h
      rw [h, Option.bind_some]
      simp only [if_true, Option.some.injEq, Prod.mk.injEq, and_true]
      omega
  · rw [readDate_formatDate_none hyear, Option.bind_none]
    simp only [reduceCtorEq, false_iff]
    rintro ⟨h0, h1, -⟩
    exact hyear ⟨h0, h1⟩

end Ydbgo.Rfc3339
