import Ydbgo.Storage.PkOrder
import Ydbgo.Storage.RowCodec

/-! # Keys in the order of their values

Encoded keys are ordered as the tuples of values that they encode, column by
column. The bounds of a range that is made of a prefix of a key hold the keys
whose prefix compares accordingly.
-/

namespace Ydbgo.Storage

open Sql (Value PKBound PKRange)

/-! ### Encoding into a buffer -/

/-- The bytes of a word that `encodeKeyInto` shifts out one by one. -/
def shiftedBytes (u : UInt64) : Bytes :=
  [(u >>> 56).toUInt8, (u >>> 48).toUInt8, (u >>> 40).toUInt8, (u >>> 32).toUInt8,
    (u >>> 24).toUInt8, (u >>> 16).toUInt8, (u >>> 8).toUInt8, u.toUInt8]

def encodeKeyInto (vals : List SqlValue) (buf : Bytes) : Bytes :=
  vals.foldl (fun buf v =>
    let buf := buf ++ [v.typ.toByte, 0xff]
    let buf := match v.typ with
      | .int | .timestamp => buf ++ shiftedBytes (v.i.toUInt64 + 0x8000000000000000)
      | .float => buf ++ shiftedBytes (mathFloatToSortable v.f)
      | .string => buf ++ v.s ++ [0]
      | .bool => if v.b then buf ++ [2] else buf ++ [1]
    buf ++ [0xff]) buf

theorem shiftedBytes_eq (u : UInt64) : shiftedBytes u = beBytes 8 u.toNat := by
  have hbyte (s : UInt64) (hs : s.toNat < 64) :
      (u >>> s).toUInt8 = UInt8.ofNat (u.toNat / 2 ^ s.toNat) := by
    apply UInt8.toNat_inj.mp
    rw [UInt64.toNat_toUInt8, UInt64.toNat_shiftRight, Nat.mod_eq_of_lt hs,
      Nat.shiftRight_eq_div_pow, UInt8.toNat_ofNat']
  have hlast : u.toUInt8 = UInt8.ofNat u.toNat := rfl
  simp only [shiftedBytes, beBytes, hbyte 56 (by decide), hbyte 48 (by decide),
    hbyte 40 (by decide), hbyte 32 (by decide), hbyte 24 (by decide), hbyte 16 (by decide),
    hbyte 8 (by decide), hlast]
  simp

theorem encodeKeyInto_eq (vals : List SqlValue) (buf : Bytes) :
    encodeKeyInto vals buf = buf ++ encodeKey vals := by
  induction vals generalizing buf with
  | nil => exact (List.append_nil buf).symm
  | cons v vals ih =>
    have hcons : encodeKeyInto (v :: vals) buf = encodeKeyInto vals (buf ++ encodeKeyValue v) := by
      unfold encodeKeyInto
      rw [List.foldl_cons]
      congr 1
      unfold encodeKeyValue keyPayload sortableInt
      cases v.typ with
      | int => simp [shiftedBytes_eq]
      | float => simp [shiftedBytes_eq]
      | string => simp
      | bool => cases v.b <;> simp
      | timestamp => simp [shiftedBytes_eq]
    rw [hcons, ih, List.append_assoc]
    rfl

/-! ### One value -/

/-- A value of a key column that is not NULL, with nothing but what its type has. -/
structure KeyCell (t : ColType) (v : SqlValue) : Prop where
  typ : v.typ = t
  key : t ≠ .float
  null : v.null = false
  plain : v.Plain
  nul : 0 ∉ v.s

/-- The order of the values of one type. -/
def cellLt (v w : SqlValue) : Prop :=
  match v.typ with
  | .int | .timestamp => v.i < w.i
  | .float => False
  | .string => v.s < w.s
  | .bool => v.b = false ∧ w.b = true

section Cell

variable {t : ColType} {v w : SqlValue} (hv : KeyCell t v) (hw : KeyCell t w)

include hv hw

theorem apart_keyValue : Apart (encodeKeyValue v) (encodeKeyValue w) := by
  unfold encodeKeyValue keyPayload
  rw [hv.typ, hw.typ]
  cases t with
  | int => exact apart_of_length_eq (by simp [sortableInt])
  | float => exact absurd rfl hv.key
  | string =>
    have hap := (apart_terminated hv.nul hw.nul [0xff]).append_left [ColType.string.toByte, 0xff]
    simpa using hap
  | bool => exact apart_of_length_eq (by simp)
  | timestamp => exact apart_of_length_eq (by simp [sortableInt])

theorem keyValue_lt_iff : encodeKeyValue v < encodeKeyValue w ↔ cellLt v w := by
  have hint (m n : Int64) : sortableInt m ++ [0xff] < sortableInt n ++ [0xff] ↔ m < n := by
    have hap : Apart (sortableInt m) (sortableInt n) := apart_of_length_eq (by simp [sortableInt])
    rw [hap.append_lt_iff, sortableInt_lt]
    simp
  unfold encodeKeyValue keyPayload cellLt
  rw [hv.typ, hw.typ, List.append_assoc, List.append_assoc, append_lt_append_left]
  cases t with
  | int => exact hint v.i w.i
  | float => exact absurd rfl hv.key
  | string =>
    dsimp only
    rw [List.append_assoc, List.append_assoc]
    exact terminated_lt_iff zero_le hv.nul hw.nul [0xff]
  | bool =>
    have hbool : ∀ a b : Bool, ([if a = true then 2 else 1] ++ [0xff] : Bytes) <
        [if b = true then 2 else 1] ++ [0xff] ↔ a = false ∧ b = true := by decide
    exact hbool v.b w.b
  | timestamp => exact hint v.i w.i

/-- Two values of a type are the same if neither is less. -/
theorem eq_of_not_lt (h : ¬ cellLt v w) (h' : ¬ cellLt w v) : v = w := by
  rw [hv.plain.only, hw.plain.only, hv.typ, hw.typ, hv.null, hw.null]
  unfold cellLt at h h'
  rw [hv.typ] at h
  rw [hw.typ] at h'
  have hint (hle : ¬ v.i < w.i) (hge : ¬ w.i < v.i) : v.i = w.i :=
    Int64.le_antisymm (Int64.not_lt.mp hge) (Int64.not_lt.mp hle)
  cases t with
  | int => rw [hint h h']
  | float => exact absurd rfl hv.key
  | string => rw [le_antisymm (α := Bytes) (not_lt.mp h') (not_lt.mp h)]
  | bool =>
    have hb : v.b = w.b := by
      cases hvb : v.b <;> cases hwb : w.b <;> simp_all
    rw [hb]
  | timestamp => rw [hint h h']

theorem keyValue_inj : encodeKeyValue v = encodeKeyValue w ↔ v = w := by
  constructor
  · intro h
    apply eq_of_not_lt hv hw
    · rw [← keyValue_lt_iff hv hw, h]
      exact lt_irrefl _
    · rw [← keyValue_lt_iff hw hv, h]
      exact lt_irrefl _
  · rintro rfl
    rfl

end Cell

/-! ### Tuples -/

/-- A key of columns of these types. -/
def KeyOf (types : List ColType) (vals : List SqlValue) : Prop := List.Forall₂ KeyCell types vals

section Keys

variable {types : List ColType} {as bs : List SqlValue}

/-- Two keys of the same types, place by place. -/
theorem KeyOf.forall₂ (ha : KeyOf types as) (hb : KeyOf types bs) :
    List.Forall₂ (fun a b => ∃ t, KeyCell t a ∧ KeyCell t b) as bs := by
  induction ha generalizing bs with
  | nil =>
    cases hb
    exact .nil
  | @cons t a types as hta _ ih =>
    cases hb with
    | cons htb hbs => exact .cons ⟨t, hta, htb⟩ (ih hbs)

theorem encodeKey_append_lt_iff (ha : KeyOf types as) (hb : KeyOf types bs) (s t : Bytes) :
    encodeKey as ++ s < encodeKey bs ++ t ↔ List.Lex cellLt as bs ∨ as = bs ∧ s < t := by
  have hcells := ha.forall₂ hb
  have hap : List.Forall₂ Apart (as.map encodeKeyValue) (bs.map encodeKeyValue) := by
    rw [List.forall₂_map_left_iff, List.forall₂_map_right_iff]
    exact hcells.imp fun a b ⟨_, hta, htb⟩ => apart_keyValue hta htb
  have hlt := map_lt_map_iff (f := encodeKeyValue) (r := cellLt) (hcells.imp fun a b ⟨_, hta, htb⟩ =>
    ⟨keyValue_lt_iff hta htb, keyValue_inj hta htb⟩)
  have heq := map_eq_map_iff (f := encodeKeyValue) (hcells.imp fun a b ⟨_, hta, htb⟩ =>
    keyValue_inj hta htb)
  rw [encodeKey, encodeKey, List.flatMap_def, List.flatMap_def, flatten_append_lt_iff hap, hlt, heq]

theorem encodeKey_lt_iff_lex (ha : KeyOf types as) (hb : KeyOf types bs) :
    encodeKey as < encodeKey bs ↔ List.Lex cellLt as bs := by
  have h := encodeKey_append_lt_iff ha hb [] []
  rw [List.append_nil, List.append_nil] at h
  simpa using h

theorem encodeKey_inj (ha : KeyOf types as) (hb : KeyOf types bs) :
    encodeKey as = encodeKey bs ↔ as = bs := by
  constructor
  · intro h
    have hlt := encodeKey_append_lt_iff ha hb [] [0]
    have hnot := encodeKey_lt_iff_lex ha hb
    have hless : encodeKey as ++ [] < encodeKey bs ++ [0] := by
      rw [h, append_lt_append_left]
      exact List.nil_lt_cons _ _
    rw [h] at hnot
    exact ((hlt.mp hless).resolve_left fun hlex => lt_irrefl _ (hnot.mpr hlex)).1
  · rintro rfl
    rfl

end Keys

/-! ### Ranges of a prefix -/

/-- The comparisons that make a range. -/
inductive KeyOp where
  | eq
  | lt
  | le
  | gt
  | ge
  deriving DecidableEq, Repr

/-- The range of the keys whose prefix compares with the values. -/
def KeyOp.range (op : KeyOp) (pre : List Value) : PKRange :=
  match op with
  | .eq => { lower := some ⟨pre, true⟩, upper := some ⟨pre, true⟩ }
  | .lt => { lower := none, upper := some ⟨pre, false⟩ }
  | .le => { lower := none, upper := some ⟨pre, true⟩ }
  | .gt => { lower := some ⟨pre, false⟩, upper := none }
  | .ge => { lower := some ⟨pre, true⟩, upper := none }

def KeyOp.Holds (op : KeyOp) (as bs : List SqlValue) : Prop :=
  match op with
  | .eq => as = bs
  | .lt => List.Lex cellLt as bs
  | .le => List.Lex cellLt as bs ∨ as = bs
  | .gt => List.Lex cellLt bs as
  | .ge => List.Lex cellLt bs as ∨ as = bs

theorem encodeKey_lt_guard (vals : List SqlValue) : encodeKey vals < [0xff] := by
  cases vals with
  | nil => exact List.nil_lt_cons _ _
  | cons v vals =>
    rw [encodeKey, List.flatMap_cons]
    refine List.Lex.rel ?_
    cases v.typ <;> decide

theorem inRange_prefix_iff {types : List ColType} {as ps : List SqlValue} {pre : List Value}
    (ha : KeyOf types as) (hp : KeyOf types ps) (hpre : pre.map fromSQLValue = ps) (op : KeyOp)
    (rest : List SqlValue) :
    InRange (some (op.range pre)) (encodeKey (as ++ rest)) ↔ op.Holds as ps := by
  have hkey : encodeKey (as ++ rest) = encodeKey as ++ encodeKey rest := List.flatMap_append
  have hpk : encodePK pre = encodeKey ps := by rw [encodePK, hpre]
  have hguard := encodeKey_lt_guard rest
  have hnil : ¬ encodeKey rest < [] := List.not_lt_nil _
  have hopen := encodeKey_append_lt_iff ha hp (encodeKey rest) []
  have hclosed := encodeKey_append_lt_iff ha hp (encodeKey rest) [0xff]
  rw [List.append_nil] at hopen
  simp only [hguard, hnil, and_true, and_false, or_false] at hopen hclosed
  -- the values are in a linear order, as their encodings are
  have hge : ¬ List.Lex cellLt as ps ↔ List.Lex cellLt ps as ∨ as = ps := by
    rw [← encodeKey_lt_iff_lex ha hp, ← encodeKey_lt_iff_lex hp ha, ← encodeKey_inj ha hp, not_lt,
      le_iff_lt_or_eq, eq_comm]
  have hgt : ¬ (List.Lex cellLt as ps ∨ as = ps) ↔ List.Lex cellLt ps as := by
    rw [← encodeKey_lt_iff_lex ha hp, ← encodeKey_lt_iff_lex hp ha, ← encodeKey_inj ha hp,
      ← le_iff_lt_or_eq, not_le]
  cases op with
  | eq =>
    simp only [InRange, KeyOp.range, pkRangeBytes, pkBoundBytes, KeyOp.Holds, Option.map_some,
      Option.some.injEq, forall_eq', hkey, hpk, Bool.false_eq_true, if_false, if_true, ← not_lt,
      hopen, hclosed]
    constructor
    · rintro ⟨hnot, hor⟩
      exact hor.resolve_left hnot
    · rintro rfl
      exact ⟨fun hlex => lt_irrefl _ ((encodeKey_lt_iff_lex ha ha).mpr hlex), .inr rfl⟩
  | lt =>
    simp [InRange, KeyOp.range, pkRangeBytes, pkBoundBytes, KeyOp.Holds, hkey, hpk, hopen]
  | le =>
    simp [InRange, KeyOp.range, pkRangeBytes, pkBoundBytes, KeyOp.Holds, hkey, hpk, hclosed]
  | gt =>
    simp only [InRange, KeyOp.range, pkRangeBytes, pkBoundBytes, KeyOp.Holds, Option.map_some,
      Option.map_none, Option.some.injEq, forall_eq', hkey, hpk, if_true, ← not_lt, hclosed, hgt]
    exact and_iff_left (by rintro _ ⟨⟩)
  | ge =>
    simp only [InRange, KeyOp.range, pkRangeBytes, pkBoundBytes, KeyOp.Holds, Option.map_some,
      Option.map_none, Option.some.injEq, forall_eq', hkey, hpk, Bool.false_eq_true, if_false,
      ← not_lt, hopen, hge]
    exact and_iff_left (by rintro _ ⟨⟩)

theorem KeyOf.take {types : List ColType} {as : List SqlValue} (h : KeyOf types as) (n : ℕ) :
    KeyOf (types.take n) (as.take n) := List.forall₂_take n h

/-- Keys of the same columns are apart, in the order of their values, and in the ranges of the
prefixes that they compare with. -/
theorem keys_in_order {types : List ColType} {as bs : List SqlValue} (ha : KeyOf types as)
    (hb : KeyOf types bs) :
    (encodeKey as = encodeKey bs ↔ as = bs) ∧
    (encodeKey as < encodeKey bs ↔ List.Lex cellLt as bs) ∧
    (∀ buf, encodeKeyInto as buf = buf ++ encodeKey as) ∧
    ∀ n ps pre, KeyOf (types.take n) ps → pre.map fromSQLValue = ps → ∀ op : KeyOp,
      (InRange (some (op.range pre)) (encodeKey as) ↔ op.Holds (as.take n) ps) := by
  refine ⟨encodeKey_inj ha hb, encodeKey_lt_iff_lex ha hb, encodeKeyInto_eq as, ?_⟩
  rintro n ps pre hp hpre op
  have hrange := inRange_prefix_iff (ha.take n) hp hpre op (as.drop n)
  rwa [List.take_append_drop] at hrange

/-- A name that is a prefix of the other one, with integers of both signs. -/
theorem keys_in_order_names :
    encodeKey [{ typ := .string, s := ascii "ab" }, { typ := .int, i := 7 }] <
      encodeKey [{ typ := .string, s := ascii "abc" }, { typ := .int, i := -7 }] ∧
    InRange (some (KeyOp.lt.range [{ type := .string, str := ascii "b" }]))
      (encodeKey [{ typ := .string, s := ascii "ab" }, { typ := .int, i := 7 }]) := by
  have hs (s : Bytes) (hlen : s.length < 2 ^ 63) (hnul : 0 ∉ s) :
      KeyCell .string { typ := .string, s := s } :=
    ⟨rfl, nofun, rfl, ⟨rfl, hlen⟩, hnul⟩
  have hi (n : Int64) : KeyCell .int { typ := .int, i := n } :=
    ⟨rfl, nofun, rfl, ⟨rfl, Nat.two_pow_pos 63⟩, List.not_mem_nil⟩
  have hright := @keys_in_order [.string, .int]
    [{ typ := .string, s := ascii "ab" }, { typ := .int, i := 7 }]
    [{ typ := .string, s := ascii "abc" }, { typ := .int, i := -7 }]
    (.cons (hs _ (by decide) (by decide)) (.cons (hi 7) .nil))
    (.cons (hs _ (by decide) (by decide)) (.cons (hi (-7)) .nil))
  constructor
  · exact hright.2.1.mpr (.rel (show ascii "ab" < ascii "abc" by decide))
  · have hpre : KeyOf ([.string, .int].take 1) [{ typ := .string, s := ascii "b" }] :=
      .cons (hs _ (by decide) (by decide)) .nil
    exact (hright.2.2.2 1 _ _ hpre rfl .lt).mpr
      (.rel (show ascii "ab" < ascii "b" by decide))

end Ydbgo.Storage
