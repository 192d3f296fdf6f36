import Mathlib.Data.List.TakeWhile
import Ydbgo.Lib.PrefixCode
import Ydbgo.Storage.PkRange

/-! # The order of encoded key values

Encodings of values of one type are apart and, for integers, booleans and
strings without a zero byte, ordered as the values. The strings with a given
prefix are those between the prefix and its successor.
-/

namespace Ydbgo.Storage

open Sql (Value SqlType PKBound PKRange TableSchema RowContext)

/-- The encoding of one value of a key. -/
def enc (v : Value) : Bytes := encodeKeyValue (fromSQLValue v)

theorem encodePK_eq (vs : List Value) : encodePK vs = (vs.map enc).flatten := by
  rw [encodePK, encodeKey, List.flatMap_def, List.map_map]
  rfl

/-- A value of type `t` that a key column can hold, without a zero byte. -/
structure KeyValue (t : SqlType) (v : Value) : Prop where
  type : v.type = t
  key : t = .int ∨ t = .float ∨ t = .string ∨ t = .bool ∨ t = .timestamp
  null : v.null = false
  missing : v.missing = false
  nul : 0 ∉ v.str

theorem enc_int {v : Value} (h : KeyValue .int v) : enc v = [0, 0xff] ++ sortableInt v.int ++ [0xff] := by
  simp [enc, encodeKeyValue, fromSQLValue, h.missing, h.type, h.null, keyPayload, ColType.toByte]

theorem enc_string {v : Value} (h : KeyValue .string v) : enc v = [2, 0xff] ++ (v.str ++ [0, 0xff]) := by
  simp [enc, encodeKeyValue, fromSQLValue, h.missing, h.type, h.null, keyPayload, ColType.toByte]

theorem enc_bool {v : Value} (h : KeyValue .bool v) :
    enc v = [3, 0xff, if v.bool then 2 else 1, 0xff] := by
  simp [enc, encodeKeyValue, fromSQLValue, h.missing, h.type, h.null, keyPayload, ColType.toByte]

theorem length_enc_eq {t : SqlType} {v w : Value} (ht : t ≠ .string) (hv : KeyValue t v)
    (hw : KeyValue t w) : (enc v).length = (enc w).length := by
  obtain ⟨rfl, hk, hvn, hvm, -⟩ := hv
  obtain ⟨hwt, -, hwn, hwm, -⟩ := hw
  obtain h | h | h | h | h := hk
  all_goals simp_all [enc, encodeKeyValue, fromSQLValue, keyPayload, sortableInt]

theorem apart_enc {t : SqlType} {v w : Value} (hv : KeyValue t v) (hw : KeyValue t w) :
    Apart (enc v) (enc w) := by
  by_cases ht : t = .string
  · subst ht
    rw [enc_string hv, enc_string hw]
    exact (apart_terminated hv.nul hw.nul [0xff]).append_left _
  · exact apart_of_length_eq (length_enc_eq ht hv hw)

/-- Values without a zero byte have encodings that are apart, whatever their types. -/
theorem apart_encodeKeyValue {v w : SqlValue} (hv : 0 ∉ v.s) (hw : 0 ∉ w.s) :
    Apart (encodeKeyValue v) (encodeKeyValue w) := by
  by_cases ht : v.typ = w.typ
  · unfold encodeKeyValue keyPayload
    rw [ht]
    cases w.typ with
    | string =>
      have hap := (apart_terminated hv hw [0xff]).append_left [ColType.string.toByte, 0xff]
      simpa using hap
    | _ => exact apart_of_length_eq (by simp [sortableInt])
  · have hbyte : v.typ.toByte ≠ w.typ.toByte := fun he => ht <| by
      revert he
      cases v.typ <;> cases w.typ <;> decide
    constructor
    · intro hp
      exact absurd (List.cons_prefix_cons.mp hp).1 hbyte
    · intro hp
      exact absurd (List.cons_prefix_cons.mp hp).1.symm hbyte

theorem zero_le (b : UInt8) : 0 ≤ b := UInt8.le_iff_toNat_le.mpr (Nat.zero_le _)

theorem le_ff (b : UInt8) : b ≤ 0xff := by
  have h := b.toNat_lt
  rw [UInt8.le_iff_toNat_le]
  change b.toNat ≤ 255
  omega

theorem enc_string_lt {v w : Value} (hv : KeyValue .string v) (hw : KeyValue .string w) :
    enc v < enc w ↔ v.str < w.str := by
  rw [enc_string hv, enc_string hw, append_lt_append_left, terminated_lt_iff zero_le hv.nul hw.nul]

theorem toNat_sortable (n : Int64) :
    ((n.toUInt64 + 0x8000000000000000).toNat : ℤ) = n.toInt + 2 ^ 63 := by
  have h : n.toInt = n.toUInt64.toBitVec.toInt := rfl
  have hb : n.toUInt64.toBitVec.toNat = n.toUInt64.toNat := rfl
  have hc : (0x8000000000000000 : UInt64).toNat = 2 ^ 63 := rfl
  have hl := n.toUInt64.toNat_lt
  rw [h, BitVec.toInt_eq_toNat_cond, UInt64.toNat_add, hb, hc]
  split <;> omega

theorem sortableInt_lt {m n : Int64} : sortableInt m < sortableInt n ↔ m < n := by
  have hm := toNat_sortable m
  have hn := toNat_sortable n
  have hlt (n : UInt64) : n.toNat < 256 ^ 8 := lt_of_lt_of_eq n.toNat_lt (by norm_num)
  rw [sortableInt, sortableInt, beBytes_lt_iff (hlt _) (hlt _), Int64.lt_iff_toInt_lt]
  omega

theorem enc_int_lt {v w : Value} (hv : KeyValue .int v) (hw : KeyValue .int w) :
    enc v < enc w ↔ v.int < w.int := by
  have hap : Apart (sortableInt v.int) (sortableInt w.int) :=
    apart_of_length_eq (by simp [sortableInt])
  rw [enc_int hv, enc_int hw, List.append_assoc, List.append_assoc, append_lt_append_left,
    hap.append_lt_iff, sortableInt_lt]
  simp

/-- The last byte of a string that is not the greatest, and what the successor makes of it. -/
theorem successor_eq {s : Bytes} (h : ∃ b ∈ s, b ≠ 0xff) : ∃ q x n,
    s = q ++ x :: List.replicate n 0xff ∧ x ≠ 0xff ∧ Sql.successor s = q ++ [x + 1] := by
  cases hd : s.reverse.dropWhile (· == 0xff) with
  | nil =>
    rw [List.dropWhile_eq_nil_iff] at hd
    obtain ⟨b, hb, hne⟩ := h
    exact absurd (by simpa using hd b (List.mem_reverse.mpr hb)) hne
  | cons x q =>
    have hff : ∀ b ∈ s.reverse.takeWhile (· == 0xff), b = 0xff := fun b hb => by
      simpa using List.mem_takeWhile_imp hb
    have hx : x ≠ 0xff := by
      have hhead := List.head_dropWhile_not (· == 0xff) (l := s.reverse) (by simp [hd])
      simpa [hd] using hhead
    have hs : s.reverse = List.replicate (s.reverse.takeWhile (· == 0xff)).length 0xff ++ x :: q := by
      rw [← hd, ← List.eq_replicate_of_mem hff, List.takeWhile_append_dropWhile]
    refine ⟨q.reverse, x, (s.reverse.takeWhile (· == 0xff)).length, ?_, hx, ?_⟩
    · have hrev := congrArg List.reverse hs
      simpa using hrev
    · simp [Sql.successor, hd]

theorem succ_lt_iff {x : UInt8} (hx : x ≠ 0xff) (w : UInt8) : w < x + 1 ↔ w ≤ x := by
  have hlt := x.toNat_lt
  have hne : x.toNat ≠ 255 := fun h => hx (UInt8.toNat_inj.mp h)
  rw [UInt8.lt_iff_toNat_lt, UInt8.le_iff_toNat_le, UInt8.toNat_add]
  change _ < (x.toNat + 1) % 256 ↔ _
  omega

/-- The strings with a prefix are those from it on, below its successor. -/
theorem prefix_iff_between {s x : Bytes} (h : ∃ b ∈ s, b ≠ 0xff) :
    s ≤ x ∧ x < Sql.successor s ↔ s <+: x := by
  obtain ⟨q, y, n, rfl, hy, hs⟩ := successor_eq h
  rw [hs]
  exact between_prefix_iff le_ff (succ_lt_iff hy) n q

theorem nul_successor {s : Bytes} (h : ∃ b ∈ s, b ≠ 0xff) (hs : 0 ∉ s) :
    0 ∉ Sql.successor s := by
  obtain ⟨q, y, n, rfl, hy, he⟩ := successor_eq h
  have hlt := (succ_lt_iff hy 0).mpr (zero_le y)
  have hq : 0 ∉ q := fun hm => hs (List.mem_append_left _ hm)
  rw [he, List.mem_append, List.mem_singleton]
  rintro (hm | hm)
  · exact hq hm
  · exact hlt.ne hm

/-- What follows a prefix of a key is below the guard byte. -/
theorem encodePK_lt_guard (vs : List Value) : encodePK vs < [0xff] := by
  cases vs with
  | nil => exact List.nil_lt_cons _ _
  | cons v vs =>
    rw [encodePK_eq, List.map_cons, List.flatten_cons]
    refine List.Lex.rel ?_
    cases (fromSQLValue v).typ <;> decide

end Ydbgo.Storage
