import Ydbgo.Mpart.PartSearch

/-! # Zones of numeric columns

A granule whose zone does not admit a literal is not read. The zone of integers
holds every integer of its granule. That of floats is found by comparing bit
patterns as signed integers, which turns the order of negative numbers around,
and a column that is not packed has the zone of zero alone.
-/

namespace Ydbgo.Mpart

open Storage (ColType SqlValue fromSQLValue appendVar appendVariant matchesFilter)
open Sql (ColumnFilter Value)

variable {lz : Lz4} {crc32 : Bytes → UInt32} {table : Bytes} {rows : List MemRow}

/-! ### Bit patterns of floats -/

/-- The bits without the sign. -/
def magnitude (x : UInt64) : ℕ := x.toNat % 2 ^ 63

/-- The magnitude of infinity. -/
def infinite : ℕ := 0x7FF0000000000000

def Negative (x : UInt64) : Prop := 2 ^ 63 ≤ x.toNat

/-- Neither infinite nor NaN. -/
def Finite (x : UInt64) : Prop := magnitude x < infinite

instance (x : UInt64) : Decidable (Negative x) := inferInstanceAs (Decidable (_ ≤ _))

instance (x : UInt64) : Decidable (Finite x) := inferInstanceAs (Decidable (_ < _))

theorem toNat_eq (x : UInt64) : x.toNat = magnitude x ∧ ¬ Negative x ∨
    x.toNat = magnitude x + 2 ^ 63 ∧ Negative x := by
  have hlt := x.toNat_lt
  unfold magnitude Negative
  omega

theorem magnitude_lt (x : UInt64) : magnitude x < 2 ^ 63 := Nat.mod_lt _ (by norm_num)

theorem toNat_and_magnitude (x : UInt64) : (x &&& 0x7FFFFFFFFFFFFFFF).toNat = magnitude x := by
  rw [UInt64.toNat_and]
  exact Nat.and_two_pow_sub_one_eq_mod x.toNat 63

theorem isNaN_iff (x : UInt64) : Sql.F64.isNaN x = true ↔ infinite < magnitude x := by
  rw [Sql.F64.isNaN, decide_eq_true_iff, UInt64.lt_iff_toNat_lt, toNat_and_magnitude]
  rfl

theorem rank_of_not_negative {x : UInt64} (h : ¬ Negative x) : Sql.F64.rank x = magnitude x := by
  have hx := (toNat_eq x).resolve_right fun h' => h h'.2
  have hlt : x < 0x8000000000000000 := by
    rw [UInt64.lt_iff_toNat_lt]
    exact Nat.lt_of_not_le h
  rw [Sql.F64.rank, if_pos hlt, hx.1]

theorem rank_of_negative {x : UInt64} (h : Negative x) : Sql.F64.rank x = -(magnitude x : ℤ) := by
  have hlt : ¬ x < 0x8000000000000000 := by
    rw [UInt64.lt_iff_toNat_lt]
    exact Nat.not_lt.mpr h
  rw [Sql.F64.rank, if_neg hlt, toNat_and_magnitude]

theorem toInt_of_not_negative {n : Int64} (h : ¬ Negative n.toUInt64) :
    n.toInt = magnitude n.toUInt64 := by
  have hx := (toNat_eq n.toUInt64).resolve_right fun h' => h h'.2
  rw [← hx.1, Int64.toInt, BitVec.toInt_eq_toNat_of_lt]
  · rfl
  · have hlt := Nat.lt_of_not_le h
    change 2 * n.toUInt64.toNat < 2 ^ 64
    omega

theorem toInt_of_negative {n : Int64} (h : Negative n.toUInt64) :
    n.toInt = magnitude n.toUInt64 - 2 ^ 63 := by
  have hx := (toNat_eq n.toUInt64).resolve_left fun h' => h'.2 h
  have hint : n.toInt = (n.toUInt64.toNat : ℤ) - 2 ^ 64 := by
    rw [Int64.toInt, BitVec.toInt_eq_toNat_cond, if_neg]
    · rfl
    · change ¬ 2 * n.toUInt64.toNat < 2 ^ 64
      unfold Negative at h
      omega
  rw [hint, hx.1]
  push_cast
  ring

/-- The order of the integers is that of the numbers for numbers that are not negative, and the
opposite one for negative numbers. -/
theorem le_iff (n m : Int64) : n.toInt ≤ m.toInt ↔
    Negative n.toUInt64 ∧ ¬ Negative m.toUInt64 ∨
    (Negative n.toUInt64 ↔ Negative m.toUInt64) ∧ magnitude n.toUInt64 ≤ magnitude m.toUInt64 := by
  have hn := magnitude_lt n.toUInt64
  have hm := magnitude_lt m.toUInt64
  by_cases h : Negative n.toUInt64
  · by_cases h' : Negative m.toUInt64
    · rw [toInt_of_negative h, toInt_of_negative h']
      simp only [h, h', not_true_eq_false, and_false, false_or, true_and]
      omega
    · rw [toInt_of_negative h, toInt_of_not_negative h']
      simp only [h, h', not_false_eq_true, and_self, true_or, iff_true]
      omega
  · by_cases h' : Negative m.toUInt64
    · rw [toInt_of_not_negative h, toInt_of_negative h']
      simp only [h, h', false_and, false_or, false_iff, not_true_eq_false, iff_false]
      omega
    · rw [toInt_of_not_negative h, toInt_of_not_negative h']
      simp only [h, h', false_and, false_or, true_and]
      omega

theorem floatLe_iff (x y : UInt64) : floatLe x y = true ↔
    magnitude x ≤ infinite ∧ magnitude y ≤ infinite ∧ Sql.F64.rank x ≤ Sql.F64.rank y := by
  simp only [floatLe, Bool.and_eq_true, Bool.not_eq_true', decide_eq_true_iff, and_assoc]
  rw [← Bool.not_eq_true, ← Bool.not_eq_true, isNaN_iff, isNaN_iff, Nat.not_lt, Nat.not_lt]

/-- Numbers are the same if neither is less; NaN is like every number. -/
theorem same_iff {x lit : UInt64} (h : Finite lit) :
    (!Sql.F64.lt x lit && !Sql.F64.lt lit x) = true ↔
      (magnitude x ≤ infinite → Sql.F64.rank x = Sql.F64.rank lit) := by
  have hlit : Sql.F64.isNaN lit = false := by
    rw [← Bool.not_eq_true, isNaN_iff]
    unfold Finite at h
    omega
  cases hx : Sql.F64.isNaN x with
  | true =>
    have hnan := (isNaN_iff x).mp hx
    simp only [Sql.F64.lt, hx, Bool.not_true, Bool.false_and, Bool.and_false, Bool.not_false,
      Bool.and_self, true_iff]
    omega
  | false =>
    have hnan : magnitude x ≤ infinite := by
      rw [← Bool.not_eq_true, isNaN_iff] at hx
      omega
    simp only [Sql.F64.lt, hx, hlit, Bool.not_false, Bool.true_and, hnan, true_imp_iff]
    rw [Bool.and_eq_true, Bool.not_eq_true', Bool.not_eq_true', decide_eq_false_iff_not,
      decide_eq_false_iff_not]
    omega

/-! ### The zone of some numbers -/

/-- The numbers of a column in some rows, floats as their bits. -/
def columnNumbers (t : ColType) (c : ℕ) (rows : List MemRow) : List Int64 :=
  rows.filterMap fun r => zoneValue t (r.cell c)

theorem foldl_extreme {better : Int64 → Int64 → Prop} [DecidableRel better] {f : Int64 → ℤ}
    (h : ∀ u v, better u v ↔ f u < f v) (v : Int64) (vs : List Int64) :
    vs.foldl (fun m v => if better v m then v else m) v ∈ v :: vs ∧
      ∀ u ∈ v :: vs, f (vs.foldl (fun m v => if better v m then v else m) v) ≤ f u := by
  induction vs generalizing v with
  | nil => simp
  | cons w vs ih =>
    rw [List.foldl_cons]
    by_cases hb : better w v
    · rw [if_pos hb]
      obtain ⟨hmem, hle⟩ := ih w
      refine ⟨List.mem_cons_of_mem v hmem, ?_⟩
      rintro u hu
      rcases List.mem_cons.mp hu with rfl | hu
      · exact le_trans (hle w List.mem_cons_self) (le_of_lt ((h w u).mp hb))
      · exact hle u hu
    · rw [if_neg hb]
      obtain ⟨hmem, hle⟩ := ih v
      constructor
      · rcases List.mem_cons.mp hmem with he | hmem
        · rw [he]
          exact List.mem_cons_self
        · exact List.mem_cons_of_mem v (List.mem_cons_of_mem w hmem)
      · rintro u hu
        have hv := hle v List.mem_cons_self
        rcases List.mem_cons.mp hu with rfl | hu
        · exact hv
        rcases List.mem_cons.mp hu with rfl | hu
        · rw [h] at hb
          omega
        · exact hle u (List.mem_cons_of_mem v hu)

/-- The zone is the least and the greatest of the numbers. -/
theorem granuleNumericZone_bounds {t : ColType} {c : ℕ} (hne : columnNumbers t c rows ≠ []) :
    (granuleNumericZone rows c t).1 ∈ columnNumbers t c rows ∧
      (granuleNumericZone rows c t).2 ∈ columnNumbers t c rows ∧
      ∀ n ∈ columnNumbers t c rows, (granuleNumericZone rows c t).1.toInt ≤ n.toInt ∧
        n.toInt ≤ (granuleNumericZone rows c t).2.toInt := by
  cases hn : columnNumbers t c rows with
  | nil => exact absurd hn hne
  | cons v vs =>
    have hzone : granuleNumericZone rows c t = (vs.foldl (fun m v => if v < m then v else m) v,
        vs.foldl (fun m v => if m < v then v else m) v) := by
      unfold granuleNumericZone
      rw [show rows.filterMap (fun r => zoneValue t (r.cell c)) = v :: vs from hn]
    rw [hzone]
    obtain ⟨hmin, hle⟩ := foldl_extreme (f := Int64.toInt)
      (fun u v => Int64.lt_iff_toInt_lt) v vs
    obtain ⟨hmax, hge⟩ := @foldl_extreme (fun u v => v < u) _ (fun n => -n.toInt)
      (fun u v => Int64.lt_iff_toInt_lt.trans neg_lt_neg_iff.symm) v vs
    refine ⟨hmin, hmax, fun n hn => ⟨hle n hn, ?_⟩⟩
    exact neg_le_neg_iff.mp (hge n hn)

/-- The order of the bits of some floats does not mislead: their negative numbers are all the same,
with none infinite unless there is a number that is not negative; and beside a NaN the other floats
reach as far as the finite numbers. -/
structure FloatsOrdered (ns : List Int64) : Prop where
  negative : ∀ n ∈ ns, ∀ m ∈ ns, Negative n.toUInt64 → Negative m.toUInt64 → Finite n.toUInt64 →
    Finite m.toUInt64 → magnitude n.toUInt64 = magnitude m.toUInt64
  infinite : ∀ n ∈ ns, ∀ m ∈ ns, Negative n.toUInt64 → Negative m.toUInt64 → Finite n.toUInt64 →
    magnitude m.toUInt64 = infinite → ∃ k ∈ ns, ¬ Negative k.toUInt64
  nan : (∃ n ∈ ns, Mpart.infinite < magnitude n.toUInt64) →
    (∃ n ∈ ns, Negative n.toUInt64 ∧ magnitude n.toUInt64 ≤ Mpart.infinite) ∧
    (∀ n ∈ ns, Negative n.toUInt64 → Mpart.infinite ≤ magnitude n.toUInt64 + 1) ∧
    (∀ n ∈ ns, ¬ Negative n.toUInt64 → magnitude n.toUInt64 ≤ Mpart.infinite) ∧
    ∃ n ∈ ns, ¬ Negative n.toUInt64 ∧ Mpart.infinite ≤ magnitude n.toUInt64 + 1

/-- Each literal that a float of the list matches lies in the zone. -/
def FloatsCovered (lo hi : Int64) (ns : List Int64) : Prop :=
  ∀ n ∈ ns, ∀ lit, Finite lit →
    (!Sql.F64.lt n.toUInt64 lit && !Sql.F64.lt lit n.toUInt64) = true →
      (floatLe lo.toUInt64 lit && floatLe lit hi.toUInt64) = true

section Floats

variable {ns : List Int64} {lo hi : Int64}

theorem floatsCovered_iff_rank (lo hi : Int64) (ns : List Int64) : FloatsCovered lo hi ns ↔
    ∀ n ∈ ns, ∀ lit, Finite lit →
      (magnitude n.toUInt64 ≤ infinite → Sql.F64.rank n.toUInt64 = Sql.F64.rank lit) →
      magnitude lo.toUInt64 ≤ infinite ∧ magnitude hi.toUInt64 ≤ infinite ∧
        Sql.F64.rank lo.toUInt64 ≤ Sql.F64.rank lit ∧
        Sql.F64.rank lit ≤ Sql.F64.rank hi.toUInt64 := by
  unfold FloatsCovered
  apply forall₂_congr
  rintro n -
  apply forall₂_congr
  rintro lit hlit
  have hle : magnitude lit ≤ infinite := le_of_lt hlit
  rw [same_iff hlit, Bool.and_eq_true, floatLe_iff, floatLe_iff]
  simp only [hle, true_and]
  constructor
  · exact fun h hs => ⟨(h hs).1.1, (h hs).2.1, (h hs).1.2, (h hs).2.2⟩
  · exact fun h hs => ⟨⟨(h hs).1, (h hs).2.2.1⟩, (h hs).2.1, (h hs).2.2.2⟩

variable (hlo : lo ∈ ns) (hhi : hi ∈ ns) (hle : ∀ n ∈ ns, lo.toInt ≤ n.toInt ∧ n.toInt ≤ hi.toInt)

include hlo hhi hle

theorem floatsOrdered_of_covered (h : FloatsCovered lo hi ns) : FloatsOrdered ns := by
  rw [floatsCovered_iff_rank] at h
  simp only [le_iff] at hle
  -- a finite number is a literal that it matches itself
  have hself (n) (hn : n ∈ ns) (hfin : Finite n.toUInt64) := h n hn n.toUInt64 hfin fun _ => rfl
  -- the negative numbers are as great as the one with the least bits
  have hneg (n) (hn : n ∈ ns) (hsign : Negative n.toUInt64) (hfin : Finite n.toUInt64) :
      magnitude n.toUInt64 = magnitude lo.toUInt64 := by
    obtain ⟨-, -, hrank, -⟩ := hself n hn hfin
    have hmem := (hle n hn).1
    have hsignLo : Negative lo.toUInt64 := by tauto
    rw [rank_of_negative hsign, rank_of_negative hsignLo] at hrank
    simp only [hsign, hsignLo, not_true_eq_false, and_false, false_or, true_and] at hmem
    omega
  constructor
  · rintro n hn m hm hsn hsm hfn hfm
    rw [hneg n hn hsn hfn, hneg m hm hsm hfm]
  · rintro n hn m hm hsn hsm hfn hinf
    by_contra hall
    push Not at hall
    have hsignHi := hall hi hhi
    obtain ⟨-, -, -, hrank⟩ := hself n hn hfn
    have hmem := (hle m hm).2
    rw [rank_of_negative hsn, rank_of_negative hsignHi] at hrank
    simp only [hsm, hsignHi, not_true_eq_false, and_false, false_or, true_and] at hmem
    unfold Finite at hfn
    omega
  · rintro ⟨n, hn, hnan⟩
    have hlit (lit : UInt64) (hfin : Finite lit) := h n hn lit hfin fun hno => by omega
    have hmin := hlit 0xFFEFFFFFFFFFFFFF (by decide)
    have hmax := hlit 0x7FEFFFFFFFFFFFFF (by decide)
    have hrankMin : Sql.F64.rank 0xFFEFFFFFFFFFFFFF = -0x7FEFFFFFFFFFFFFF := by decide
    have hrankMax : Sql.F64.rank 0x7FEFFFFFFFFFFFFF = 0x7FEFFFFFFFFFFFFF := by decide
    have hinf : infinite = 0x7FEFFFFFFFFFFFFF + 1 := rfl
    rw [hrankMin] at hmin
    rw [hrankMax] at hmax
    have hsignLo : Negative lo.toUInt64 := by
      by_contra hsign
      have hrank := rank_of_not_negative hsign
      omega
    have hsignHi : ¬ Negative hi.toUInt64 := by
      intro hsign
      have hrank := rank_of_negative hsign
      omega
    rw [rank_of_negative hsignLo] at hmin
    rw [rank_of_not_negative hsignHi] at hmax
    refine ⟨⟨lo, hlo, hsignLo, hmin.1⟩, ?_, ?_, ⟨hi, hhi, hsignHi, by omega⟩⟩
    · rintro m hm hsign
      have hmem := (hle m hm).1
      simp only [hsign, hsignLo, not_true_eq_false, and_false, false_or, true_and] at hmem
      omega
    · rintro m hm hsign
      have hmem := (hle m hm).2
      simp only [hsign, hsignHi, false_and, false_or, true_and] at hmem
      omega

theorem floatsCovered_of_ordered (h : FloatsOrdered ns) : FloatsCovered lo hi ns := by
  rw [floatsCovered_iff_rank]
  simp only [le_iff] at hle
  rintro n hn lit hlit hrank
  have hlitLe : Sql.F64.rank lit < infinite ∧ -(infinite : ℤ) < Sql.F64.rank lit := by
    unfold Finite at hlit
    by_cases hs : Negative lit
    · rw [rank_of_negative hs]
      omega
    · rw [rank_of_not_negative hs]
      omega
  have hnLo := (hle n hn).1
  have hnHi := (hle n hn).2
  by_cases hnan : ∃ m ∈ ns, infinite < magnitude m.toUInt64
  · obtain ⟨⟨u, hu, hsu, hmu⟩, hlow, hhigh, ⟨w, hw, hsw, hmw⟩⟩ := h.nan hnan
    have huLo := (hle u hu).1
    have hwHi := (hle w hw).2
    have hsignLo : Negative lo.toUInt64 := by tauto
    have hsignHi : ¬ Negative hi.toUInt64 := by tauto
    simp only [hsu, hsignLo, not_true_eq_false, and_false, false_or, true_and] at huLo
    simp only [hsw, hsignHi, false_and, false_or, true_and] at hwHi
    have hlo' := hlow lo hlo hsignLo
    have hhi' := hhigh hi hhi hsignHi
    rw [rank_of_negative hsignLo, rank_of_not_negative hsignHi]
    omega
  · push Not at hnan
    have hmLo := hnan lo hlo
    have hmHi := hnan hi hhi
    have hrank := hrank (hnan n hn)
    rw [← hrank] at hlitLe ⊢
    refine ⟨hmLo, hmHi, ?_, ?_⟩
    · by_cases hsign : Negative n.toUInt64
      · have hsignLo : Negative lo.toUInt64 := by tauto
        simp only [hsign, hsignLo, not_true_eq_false, and_false, false_or, true_and] at hnLo
        rw [rank_of_negative hsign] at hlitLe
        have hfin : Finite n.toUInt64 := by unfold Finite; omega
        have hfinLo : Finite lo.toUInt64 := by unfold Finite at hfin ⊢; omega
        rw [rank_of_negative hsign, rank_of_negative hsignLo,
          h.negative n hn lo hlo hsign hsignLo hfin hfinLo]
      · by_cases hsignLo : Negative lo.toUInt64
        · rw [rank_of_not_negative hsign, rank_of_negative hsignLo]
          omega
        · simp only [hsign, hsignLo, false_and, false_or, true_and] at hnLo
          rw [rank_of_not_negative hsign, rank_of_not_negative hsignLo]
          omega
    · by_cases hsign : Negative n.toUInt64
      · by_cases hsignHi : Negative hi.toUInt64
        · rw [rank_of_negative hsign] at hlitLe
          have hfin : Finite n.toUInt64 := by unfold Finite; omega
          by_cases hfinHi : Finite hi.toUInt64
          · rw [rank_of_negative hsign, rank_of_negative hsignHi,
              h.negative n hn hi hhi hsign hsignHi hfin hfinHi]
          · have hinf : magnitude hi.toUInt64 = infinite := by
              unfold Finite at hfinHi
              omega
            obtain ⟨k, hk, hsk⟩ := h.infinite n hn hi hhi hsign hsignHi hfin hinf
            have hkHi := (hle k hk).2
            tauto
        · rw [rank_of_negative hsign, rank_of_not_negative hsignHi]
          omega
      · have hsignHi : ¬ Negative hi.toUInt64 := by tauto
        simp only [hsign, hsignHi, false_and, false_or, true_and] at hnHi
        rw [rank_of_not_negative hsign, rank_of_not_negative hsignHi]
        omega

end Floats

/-! ### The cells of a typed column -/

def Numeric (t : ColType) : Prop := t = .int ∨ t = .float ∨ t = .timestamp

/-- The bits that a number is kept as. -/
def bitsOf (v : SqlValue) : Int64 :=
  match v.typ with
  | .float => v.f.toInt64
  | _ => v.i

/-- Each cell of a numeric column is missing, NULL, or a value of the column's type. -/
def Typed (types : List ColType) (rows : List MemRow) : Prop :=
  ∀ c t, types[c]? = some t → Numeric t → ∀ r ∈ rows, r.cell c = [] ∨
    ∃ v : SqlValue, r.cell c = appendVariant v ∧ (v.null = true ∨ v.typ = t)

/-- An integer, a timestamp or a finite float. -/
def Literal (lit : Value) : Prop :=
  lit.missing = false ∧ lit.null = false ∧
    (lit.type = .int ∨ lit.type = .timestamp ∨ lit.type = .float ∧ Finite lit.flt)

section Cells

variable {t : ColType} {v w : SqlValue}

theorem toByte_injective {t t' : ColType} (h : t.toByte = t'.toByte) : t = t' := by
  cases t <;> cases t' <;> first | rfl | exact absurd h (by decide)

/-- The type and the null flag are in the first bytes of a cell. -/
theorem typ_eq_of_appendVariant (h : appendVariant v = appendVariant w) :
    v.typ = w.typ ∧ v.null = w.null := by
  obtain ⟨htyp, h⟩ := List.cons.inj h
  obtain ⟨hnull, -⟩ := List.cons.inj h
  refine ⟨toByte_injective htyp, ?_⟩
  cases hv : v.null <;> cases hw : w.null <;> first | rfl | (rw [hv, hw] at hnull; cases hnull)

theorem uvarint_appendVar (n : Int64) :
    (uvarint (appendVar n)).map (fun p => Storage.unzigzag p.1) = some n := by
  have hread := Storage.readsBack_var n []
  rw [List.append_nil, Storage.readVar] at hread
  cases hu : uvarint (appendVar n) with
  | none =>
    rw [hu] at hread
    cases hread
  | some p =>
    rw [hu] at hread
    exact congrArg (Option.map Prod.fst) hread

theorem zoneValue_of_null (t : ColType) (h : v.null = true) :
    zoneValue t (appendVariant v) = none := by
  have hnull : Storage.boolByte v.null = 1 := by rw [h]; rfl
  simp only [appendVariant, zoneValue, hnull, or_true, if_true]

theorem zoneValue_of_typ (ht : Numeric t) (hv : v.typ = t) (h : v.null = false) :
    zoneValue t (appendVariant v) = some (bitsOf v) := by
  have hnull : Storage.boolByte v.null = 0 := by rw [h]; rfl
  unfold appendVariant zoneValue bitsOf
  dsimp only
  rcases ht with rfl | rfl | rfl <;> simp [hv, hnull, uvarint_appendVar]

/-- The type that a number gives to its column. -/
theorem numericType_of_typ (ht : Numeric t) (hv : v.typ = t) (h : v.null = false) :
    numericType (appendVariant v) = some t := by
  have hnull : Storage.boolByte v.null = 0 := by rw [h]; rfl
  have hsome (n : Int64) : (uvarint (appendVar n)).isSome := by
    have hvar := uvarint_appendVar n
    cases hu : uvarint (appendVar n) with
    | none =>
      rw [hu] at hvar
      cases hvar
    | some p => rfl
  unfold appendVariant numericType
  rcases ht with rfl | rfl | rfl <;> simp [hv, hnull, hsome, ColType.toByte]

end Cells

/-! ### The numbers of a granule -/

section Column

variable {types : List ColType} {c : ℕ} {t : ColType} (htyped : Typed types rows)
  (hc : types[c]? = some t) (ht : Numeric t)

include htyped hc ht

/-- The values in the rows of a column are the numbers of the zone. -/
theorem value_of_cell {r : MemRow} (hr : r ∈ rows) {v : SqlValue} (hv : r.cell c = appendVariant v)
    (h : v.null = false) : v.typ = t ∧ zoneValue t (r.cell c) = some (bitsOf v) := by
  have htyp : v.typ = t := by
    rcases htyped c t hc ht r hr with hnil | ⟨w, hw, hnull⟩
    · rw [hv] at hnil
      cases hnil
    · obtain ⟨hwt, hwn⟩ := typ_eq_of_appendVariant (hv.symm.trans hw)
      rcases hnull with hnull | hnull
      · rw [hwn, hnull] at h
        cases h
      · exact hwt.trans hnull
  exact ⟨htyp, hv ▸ zoneValue_of_typ ht htyp h⟩

theorem mem_columnNumbers {rows' : List MemRow} (hsub : ∀ r ∈ rows', r ∈ rows) {n : Int64} :
    n ∈ columnNumbers t c rows' ↔ ∃ r ∈ rows', ∃ v : SqlValue, r.cell c = appendVariant v ∧
      v.null = false ∧ v.typ = t ∧ bitsOf v = n := by
  simp only [columnNumbers, List.mem_filterMap]
  constructor
  · rintro ⟨r, hr, hz⟩
    rcases htyped c t hc ht r (hsub r hr) with hnil | ⟨v, hv, -⟩
    · rw [hnil] at hz
      cases hz
    · have hnull : v.null = false := by
        by_contra hnull
        rw [hv, zoneValue_of_null t (Bool.not_eq_false _ ▸ hnull)] at hz
        cases hz
      obtain ⟨htyp, hval⟩ := value_of_cell htyped hc ht (hsub r hr) hv hnull
      exact ⟨r, hr, v, hv, hnull, htyp, Option.some.inj (hval.symm.trans hz)⟩
  · rintro ⟨r, hr, v, hv, hnull, htyp, rfl⟩
    exact ⟨r, hr, (value_of_cell htyped hc ht (hsub r hr) hv hnull).2⟩

/-- A packed column with a number has the type of the column. -/
theorem colDense_eq {t' : ColType} (hd : colDense rows c = some t') {rows' : List MemRow}
    (hsub : ∀ r ∈ rows', r ∈ rows) {n : Int64} (hn : n ∈ columnNumbers t c rows') : t' = t := by
  obtain ⟨r, hr, v, hv, hnull, htyp, -⟩ := (mem_columnNumbers htyped hc ht hsub).mp hn
  have hnum := numericType_of_typ ht htyp hnull
  have hall : ∀ cell ∈ rows.map (fun r => r.cell c), numericType cell = some t' := by
    unfold colDense at hd
    cases hcells : rows.map (fun r => r.cell c) with
    | nil => exact nofun
    | cons cell cells =>
      rw [hcells, denseColumnType] at hd
      obtain ⟨t₀, ht₀, hif⟩ := Option.bind_eq_some_iff.mp hd
      split at hif
      · next hcs =>
        cases hif
        refine List.forall_mem_cons.mpr ⟨ht₀, ?_⟩
        rintro cell' hmem
        exact of_decide_eq_true (List.all_eq_true.mp hcs cell' hmem)
      · cases hif
  have hcell := hall (r.cell c) (List.mem_map_of_mem (hsub r hr))
  rw [hv, hnum] at hcell
  exact (Option.some.inj hcell).symm

end Column

/-! ### Skipping -/

/-- The granules whose keys, literals and rows a reader looks for are not passed over. -/
structure IndexRight (p : SealedPart) (types : List ColType) (rows : List MemRow) : Prop where
  bloom : ∀ r ∈ rows, bloomMayContain p.bloom r.pk = true
  granuleFor : ∀ g rows', (granules mpartGranuleRows rows)[g]? = some rows' → ∀ r ∈ rows',
    p.granuleFor r.pk = some g
  zones : ∀ c t, types[c]? = some t → Numeric t → ∀ lit, Literal lit →
    ∀ g rows', (granules mpartGranuleRows rows)[g]? = some rows' → ∀ r ∈ rows', ∀ v : SqlValue,
      r.cell c = appendVariant v → v.null = false →
        matchesFilter v { col := c, op := .eq, lit := lit } = true →
          p.granuleZoneHits g c { col := c, op := .eq, lit := lit } t = true

/-- The numbers of a granule are such that its zone admits them: those of a packed column are
integers, or floats whose bits do not mislead; those of another column are zero. -/
def ZoneRight (packed : Bool) (t : ColType) (ns : List Int64) : Prop :=
  if packed then t = .float → FloatsOrdered ns
  else if t = .float then ∀ n ∈ ns, magnitude n.toUInt64 ≤ infinite ∧
    (Finite n.toUInt64 → magnitude n.toUInt64 = 0)
  else ∀ n ∈ ns, n = 0

/-- The zone of the granule admits every literal that a number of it matches. -/
def ZoneCovers (t : ColType) (zone : Int64 × Int64) (ns : List Int64) : Prop :=
  if t = .float then FloatsCovered zone.1 zone.2 ns
  else ∀ n ∈ ns, zone.1.toInt ≤ n.toInt ∧ n.toInt ≤ zone.2.toInt

theorem zoneCovers_granuleNumericZone (t : ColType) (c : ℕ) (rows' : List MemRow) :
    ZoneCovers t (granuleNumericZone rows' c t) (columnNumbers t c rows') ↔
      ZoneRight true t (columnNumbers t c rows') := by
  rw [ZoneCovers, ZoneRight, if_pos rfl]
  by_cases hne : columnNumbers t c rows' = []
  · rw [hne]
    split
    · refine iff_of_true nofun fun _ => ⟨nofun, nofun, ?_⟩
      rintro ⟨n, hn, -⟩
      cases hn
    · next ht => exact iff_of_true nofun fun h => absurd h ht
  · obtain ⟨hlo, hhi, hle⟩ := granuleNumericZone_bounds hne
    split
    · next ht =>
      constructor
      · exact fun h _ => floatsOrdered_of_covered hlo hhi hle h
      · exact fun h => floatsCovered_of_ordered hlo hhi hle (h ht)
    · next ht => exact iff_of_true hle fun h => absurd h ht

/-- The zone of zero alone. -/
theorem zoneCovers_zero (t : ColType) (ns : List Int64) :
    ZoneCovers t (0, 0) ns ↔ ZoneRight false t ns := by
  rw [ZoneCovers, ZoneRight, if_neg Bool.false_ne_true]
  split
  · have hzero : Sql.F64.rank (0 : Int64).toUInt64 = 0 := by decide
    have hmag : magnitude (0 : Int64).toUInt64 = 0 := by decide
    dsimp only
    rw [floatsCovered_iff_rank]
    simp only [hzero, hmag, Nat.zero_le, true_and]
    apply forall₂_congr
    rintro n -
    constructor
    · intro h
      constructor
      · by_contra hnan
        -- a NaN matches the literal 1
        obtain ⟨-, hle⟩ := h 0x3FF0000000000000 (by decide) fun hno => absurd hno hnan
        have hone : Sql.F64.rank 0x3FF0000000000000 = 0x3FF0000000000000 := by decide
        rw [hone] at hle
        omega
      · intro hfin
        obtain ⟨hge, hle⟩ := h n.toUInt64 hfin fun _ => rfl
        by_cases hs : Negative n.toUInt64
        · rw [rank_of_negative hs] at hge hle
          omega
        · rw [rank_of_not_negative hs] at hge hle
          omega
    · rintro ⟨hnan, hzero⟩ lit hlit hrank
      have hrank := hrank hnan
      unfold Finite at hlit hzero
      by_cases hs : Negative n.toUInt64
      · rw [rank_of_negative hs] at hrank
        by_cases hs' : Negative lit
        · rw [rank_of_negative hs'] at hrank ⊢
          omega
        · rw [rank_of_not_negative hs'] at hrank ⊢
          omega
      · rw [rank_of_not_negative hs] at hrank
        by_cases hs' : Negative lit
        · rw [rank_of_negative hs'] at hrank ⊢
          omega
        · rw [rank_of_not_negative hs'] at hrank ⊢
          omega
  · apply forall₂_congr
    rintro n -
    have hzero : (0 : Int64).toInt = 0 := rfl
    rw [← Int64.toInt_inj, hzero]
    omega

theorem unixMicro_mul (n : Int64) (zone : ℤ) :
    Storage.unixMicro { nanos := n.toInt * 1000, zone := zone } = n := by
  rw [Storage.unixMicro, Int.mul_ediv_cancel _ (by norm_num), Int64.ofInt_toInt]

/-- What the filter asks of the rows of a granule, as numbers and their zone. -/
theorem zoneCovers_iff {types : List ColType} {c : ℕ} {t : ColType} (htyped : Typed types rows)
    (hc : types[c]? = some t) (ht : Numeric t) {rows' : List MemRow} (hsub : ∀ r ∈ rows', r ∈ rows)
    {p : SealedPart} {g : ℕ} {zone : Int64 × Int64}
    (hzone : ((p.granules[g]?).bind fun gr => gr.zones[c]?) = some zone) :
    (∀ lit, Literal lit → ∀ r ∈ rows', ∀ v : SqlValue, r.cell c = appendVariant v → v.null = false →
      matchesFilter v { col := c, op := .eq, lit := lit } = true →
        p.granuleZoneHits g c { col := c, op := .eq, lit := lit } t = true) ↔
      ZoneCovers t zone (columnNumbers t c rows') := by
  have hcell (r) (hr : r ∈ rows') (v : SqlValue) (hv : r.cell c = appendVariant v)
      (hnull : v.null = false) : v.typ = t ∧ bitsOf v ∈ columnNumbers t c rows' := by
    obtain ⟨htyp, -⟩ := value_of_cell htyped hc ht (hsub r hr) hv hnull
    exact ⟨htyp, (mem_columnNumbers htyped hc ht hsub).mpr ⟨r, hr, v, hv, hnull, htyp, rfl⟩⟩
  have hmatch (v : SqlValue) (lit : Value) (hnull : v.null = false) :
      matchesFilter v { col := c, op := .eq, lit := lit } =
        Storage.sameSQLValue v (fromSQLValue lit) := by
    rw [matchesFilter, hnull]
    rfl
  have hhitsFloat (lit : Value) (hnull : (fromSQLValue lit).null = false) :
      p.granuleZoneHits g c { col := c, op := .eq, lit := lit } .float =
        (floatLe zone.1.toUInt64 (fromSQLValue lit).f &&
          floatLe (fromSQLValue lit).f zone.2.toUInt64) := by
    obtain ⟨lo, hi⟩ := zone
    rw [SealedPart.granuleZoneHits, hzone]
    simp only [hnull, Bool.false_eq_true, if_false]
  have hhits (lit : Value) (hnull : (fromSQLValue lit).null = false)
      (ht : t = .int ∨ t = .timestamp) :
      p.granuleZoneHits g c { col := c, op := .eq, lit := lit } t =
        decide (zone.1 ≤ (fromSQLValue lit).i ∧ (fromSQLValue lit).i ≤ zone.2) := by
    obtain ⟨lo, hi⟩ := zone
    rw [SealedPart.granuleZoneHits, hzone]
    simp only [hnull, Bool.false_eq_true, if_false]
    rcases ht with rfl | rfl <;> rfl
  have hinteger (n : Int64) : decide (zone.1 ≤ n ∧ n ≤ zone.2) = true ↔
      zone.1.toInt ≤ n.toInt ∧ n.toInt ≤ zone.2.toInt := by
    rw [decide_eq_true_iff, Int64.le_iff_toInt_le, Int64.le_iff_toInt_le]
  constructor
  · intro h
    rcases ht with rfl | rfl | rfl
    · rintro n hn
      obtain ⟨r, hr, v, hv, hnull, htyp, rfl⟩ := (mem_columnNumbers htyped hc (.inl rfl) hsub).mp hn
      have hlit := h { type := .int, int := v.i } ⟨rfl, rfl, .inl rfl⟩ r hr v hv hnull (by
        rw [hmatch v _ hnull, Storage.sameSQLValue, htyp]
        simp [fromSQLValue])
      rw [hhits _ rfl (.inl rfl)] at hlit
      have hbits : bitsOf v = v.i := by rw [bitsOf, htyp]
      rw [hbits]
      exact (hinteger v.i).mp hlit
    · rintro n hn lit hfin hsame
      obtain ⟨r, hr, v, hv, hnull, htyp, rfl⟩ :=
        (mem_columnNumbers htyped hc (.inr (.inl rfl)) hsub).mp hn
      have hbits : (bitsOf v).toUInt64 = v.f := by
        rw [bitsOf, htyp]
        exact UInt64.toUInt64_toInt64 v.f
      rw [hbits] at hsame
      have hlit := h { type := .float, flt := lit } ⟨rfl, rfl, .inr (.inr ⟨rfl, hfin⟩)⟩ r hr v hv
        hnull (by
          rw [hmatch v _ hnull, Storage.sameSQLValue, htyp]
          simpa [fromSQLValue] using hsame)
      rw [hhitsFloat _ rfl] at hlit
      exact hlit
    · rintro n hn
      obtain ⟨r, hr, v, hv, hnull, htyp, rfl⟩ :=
        (mem_columnNumbers htyped hc (.inr (.inr rfl)) hsub).mp hn
      have hval : fromSQLValue
          { type := .timestamp, tm := { nanos := v.i.toInt * 1000, zone := 0 } } =
          { typ := .timestamp, i := v.i } := by
        simp [fromSQLValue, unixMicro_mul]
      have hlit := h { type := .timestamp, tm := { nanos := v.i.toInt * 1000, zone := 0 } }
        ⟨rfl, rfl, .inr (.inl rfl)⟩ r hr v hv hnull (by
          rw [hmatch v _ hnull, Storage.sameSQLValue, htyp, hval]
          simp)
      rw [hhits _ (by rw [hval]) (.inr rfl), hval] at hlit
      have hbits : bitsOf v = v.i := by rw [bitsOf, htyp]
      rw [hbits]
      exact (hinteger v.i).mp hlit
  · rintro h lit ⟨hmiss, hnullLit, hlit⟩ r hr v hv hnull hm
    obtain ⟨htyp, hmem⟩ := hcell r hr v hv hnull
    rw [hmatch v lit hnull, Storage.sameSQLValue, Bool.and_eq_true, decide_eq_true_iff] at hm
    obtain ⟨hsame, hm⟩ := hm
    have hnone : (fromSQLValue lit).null = false := by
      rcases hlit with hlit | hlit | ⟨hlit, -⟩ <;> simp [fromSQLValue, hmiss, hlit, hnullLit]
    rcases ht with rfl | rfl | rfl
    · rw [htyp] at hm
      have hbits : bitsOf v = (fromSQLValue lit).i := by
        rw [bitsOf, htyp]
        exact beq_iff_eq.mp hm
      rw [hbits] at hmem
      rw [hhits lit hnone (.inl rfl)]
      exact (hinteger _).mpr (h _ hmem)
    · rw [htyp] at hm hsame
      have hbits : (bitsOf v).toUInt64 = v.f := by
        rw [bitsOf, htyp]
        exact UInt64.toUInt64_toInt64 v.f
      have hfin : Finite (fromSQLValue lit).f := by
        rcases hlit with hlit | hlit | ⟨hlit, hfin⟩
        · simp [fromSQLValue, hmiss, hlit, hnullLit] at hsame
        · simp [fromSQLValue, hmiss, hlit, hnullLit] at hsame
        · simpa [fromSQLValue, hmiss, hlit, hnullLit] using hfin
      rw [hhitsFloat lit hnone]
      exact h _ hmem _ hfin (by rw [hbits]; exact hm)
    · rw [htyp] at hm
      have hbits : bitsOf v = (fromSQLValue lit).i := by
        rw [bitsOf, htyp]
        exact beq_iff_eq.mp hm
      rw [hbits] at hmem
      rw [hhits lit hnone (.inr rfl)]
      exact (hinteger _).mpr (h _ hmem)

theorem zones_writePart {g c : ℕ} {rows' : List MemRow}
    (hg : (granules mpartGranuleRows rows)[g]? = some rows') :
    (((writePart lz crc32 table rows).2.granules[g]?).bind fun gr => gr.zones[c]?) =
      if c < partCols rows then some (match colDense rows c with
        | some t => granuleNumericZone rows' c t
        | none => (0, 0)) else none := by
  have h : rows ≠ [] := by
    rintro rfl
    cases hg
  simp only [writePart, if_neg h, List.getElem?_mapIdx, hg, Option.map_some, Option.bind_some,
    List.getElem?_map]
  split
  · next hc => exact (congrArg (Option.map _) (List.getElem?_range hc)).trans rfl
  · next hc =>
    rw [List.getElem?_eq_none (by rw [List.length_range]; omega), Option.map_none]

/-- No row is lost by skipping if and only if the zones of all granules are right. -/
theorem indexRight_iff {types : List ColType} (hlen : rows.length < 2 ^ 60)
    (hsort : rows.Pairwise fun r r' => r.pk < r'.pk) (htyped : Typed types rows) :
    IndexRight (writePart lz crc32 table rows).2 types rows ↔
      ∀ c t, types[c]? = some t → Numeric t → ∀ rows' ∈ granules mpartGranuleRows rows,
        ZoneRight (colDense rows c).isSome t (columnNumbers t c rows') := by
  have hbloom : ∀ r ∈ rows,
      bloomMayContain (writePart lz crc32 table rows).2.bloom r.pk = true := by
    rintro r hr
    rw [bloom_writePart]
    exact bloomMayContain_bloomOf hlen hr
  have hfor : ∀ g rows', (granules mpartGranuleRows rows)[g]? = some rows' → ∀ r ∈ rows',
      (writePart lz crc32 table rows).2.granuleFor r.pk = some g :=
    fun g rows' hg r hr => granuleFor_writePart hsort hg hr
  have hzones (c t) (hc : types[c]? = some t) (ht : Numeric t) (g : ℕ) (rows' : List MemRow)
      (hg : (granules mpartGranuleRows rows)[g]? = some rows') :
      (∀ lit, Literal lit → ∀ r ∈ rows', ∀ v : SqlValue, r.cell c = appendVariant v →
        v.null = false → matchesFilter v { col := c, op := .eq, lit := lit } = true →
          (writePart lz crc32 table rows).2.granuleZoneHits g c
            { col := c, op := .eq, lit := lit } t = true) ↔ ZoneRight (colDense rows c).isSome t (columnNumbers t c rows') := by
    have hsub : ∀ r ∈ rows', r ∈ rows := fun r hr =>
      mem_of_mem_granules (List.mem_of_getElem? hg) hr
    have hzone := @zones_writePart lz crc32 table rows g c rows' hg
    by_cases hlt : c < partCols rows
    · rw [if_pos hlt] at hzone
      rw [zoneCovers_iff htyped hc ht hsub hzone]
      cases hd : colDense rows c with
      | none => exact zoneCovers_zero t _
      | some t' =>
        by_cases hne : columnNumbers t c rows' = []
        · have hright := (zoneCovers_granuleNumericZone t c rows').symm
          rw [hne] at hright ⊢
          refine iff_of_true ?_ ?_
          · unfold ZoneCovers
            split <;> exact nofun
          · apply hright.mpr
            unfold ZoneCovers
            split <;> exact nofun
        · obtain ⟨n, hn⟩ := List.exists_mem_of_ne_nil _ hne
          obtain rfl := colDense_eq htyped hc ht hd hsub hn
          exact zoneCovers_granuleNumericZone _ c rows'
    · -- a column that the part does not know
      rw [if_neg hlt] at hzone
      have hcell : ∀ r ∈ rows', r.cell c = [] := fun r hr =>
        cell_of_le (le_trans (length_cells_le (hsub r hr)) (Nat.le_of_not_lt hlt))
      have hnil : columnNumbers t c rows' = [] := by
        rw [columnNumbers, List.filterMap_eq_nil_iff]
        rintro r hr
        rw [hcell r hr]
        rfl
      have hd : colDense rows c = none := by
        cases hd : colDense rows c with
        | none => rfl
        | some t' => exact absurd (lt_of_colDense hd) hlt
      rw [hnil, hd]
      refine iff_of_true ?_ ((zoneCovers_zero t []).mp ?_)
      · rintro lit - r hr v hv
        rw [hcell r hr] at hv
        cases hv
      · unfold ZoneCovers
        split <;> exact nofun
  constructor
  · rintro ⟨-, -, h⟩ c t hc ht rows' hmem
    obtain ⟨g, hg⟩ := List.mem_iff_getElem?.mp hmem
    exact (hzones c t hc ht g rows' hg).mp fun lit hlit => h c t hc ht lit hlit g rows' hg
  · intro h
    refine ⟨hbloom, hfor, ?_⟩
    rintro c t hc ht lit hlit g rows' hg
    exact (hzones c t hc ht g rows' hg).mpr (h c t hc ht rows' (List.mem_of_getElem? hg)) lit hlit

/-- Rows of one column. -/
def rowsOf (vs : List SqlValue) : List MemRow :=
  vs.zipIdx.map fun v => { pk := [.ofNat v.2], cells := [appendVariant v.1], del := false }

theorem typed_rowsOf {t : ColType} {vs : List SqlValue} (h : ∀ v ∈ vs, v.typ = t) :
    Typed [t] (rowsOf vs) := by
  rintro c t' hc - r hr
  obtain ⟨v, hv, rfl⟩ := List.mem_map.mp hr
  cases c with
  | zero =>
    obtain rfl := Option.some.inj hc
    exact .inr ⟨v.1, rfl, .inr (h v.1 (List.fst_mem_of_mem_zipIdx hv))⟩
  | succ c => cases hc

def twoIntegers : List MemRow := rowsOf [{ typ := .int, i := -5 }, { typ := .int, i := 7 }]

theorem indexRight_twoIntegers : IndexRight
    (writePart lz4OfLiterals (fun _ => 0) (ascii "t") twoIntegers).2 [.int] twoIntegers := by
  have htyped : Typed [.int] twoIntegers := typed_rowsOf (by simp)
  refine (indexRight_iff (by decide) (by decide) htyped).mpr ?_
  rintro c t hc - rows' -
  cases c with
  | zero =>
    obtain rfl := Option.some.inj hc
    have hd : colDense twoIntegers 0 = some .int := by decide +kernel
    rw [hd]
    exact nofun
  | succ c => cases hc

/-- The numbers -1 and -2. -/
def negativeFloats : List MemRow :=
  rowsOf [{ typ := .float, f := 0xBFF0000000000000 }, { typ := .float, f := 0xC000000000000000 }]

/-- The part finds neither of them. -/
theorem not_indexRight_negativeFloats :
    negativeFloats.Pairwise (fun r r' => r.pk < r'.pk) ∧ Typed [.float] negativeFloats ∧
    ¬ IndexRight (writePart lz4OfLiterals (fun _ => 0) (ascii "t") negativeFloats).2 [.float]
      negativeFloats := by
  refine ⟨by decide, typed_rowsOf (by simp), ?_⟩
  intro h
  have hhit := h.zones 0 .float rfl (.inr (.inl rfl)) { type := .float, flt := 0xC000000000000000 }
    ⟨rfl, rfl, .inr (.inr ⟨rfl, by decide⟩)⟩ 0 negativeFloats (by decide +kernel) _
    (List.mem_of_getLast? rfl) { typ := .float, f := 0xC000000000000000 } rfl rfl (by decide)
  exact absurd hhit (by decide +kernel)

end Ydbgo.Mpart
