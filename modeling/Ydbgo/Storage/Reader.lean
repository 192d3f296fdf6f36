import Ydbgo.Lib.Cut
import Ydbgo.Storage.RowCodec

/-! # The storage reader

The `reader` of `codec.go` on bytes of any origin. A length is a signed integer
taken from the data, and only its upper end is checked: a negative one, or one
whose end is no `int`, makes the slice expression panic.
-/

namespace Ydbgo.Storage

open Cursor

inductive CodecError where
  | shortReader
  | overflow
  | stringOutOfRange
  | bytesOutOfRange
  | takeOutOfRange
  | badMagic
  | unsupportedVersion
  | shortColFmts
  | noSuchFile
  | badIdxMagic
  | badIdxVersion
  | idxNcolsMismatch
  deriving DecidableEq, Repr

def CodecError.text : CodecError → String
  | .shortReader => "reader: short reader"
  | .overflow => "binary: varint overflows a 64-bit integer"
  | .stringOutOfRange => "reader: string out of range"
  | .bytesOutOfRange => "reader: bytes out of range"
  | .takeOutOfRange => "reader: take out of range"
  | .badMagic => "bad mpart magic"
  | .unsupportedVersion => "unsupported mpart version"
  | .shortColFmts => "short colFmts"
  | .noSuchFile => "no such file or directory"
  | .badIdxMagic => "bad mpart idx magic"
  | .badIdxVersion => "bad mpart idx version"
  | .idxNcolsMismatch => "mpart idx ncols mismatch"

abbrev Decode (α : Type) : Type := Reads CodecError α

/-- `makeReader`. -/
def makeReader (buf : Bytes) : Cursor CodecError := { buf := buf, pos := 0, err := none }

/-- A `sqlValue` as it is read: its type may be any byte. -/
structure RawValue where
  typ : UInt8
  null : Bool
  i : Int64 := 0
  f : UInt64 := 0
  s : Bytes := []
  b : Bool := false
  deriving DecidableEq, Repr

def SqlValue.raw (v : SqlValue) : RawValue :=
  { typ := v.typ.toByte, null := v.null, i := v.i, f := v.f, s := v.s, b := v.b }

/-- The builder's `Variant`. -/
def RawValue.append (v : RawValue) : Bytes :=
  v.typ :: boolByte v.null :: match ColType.ofByte v.typ with
    | some .int | some .timestamp => appendVar v.i
    | some .float => appendVar v.f.toInt64
    | some .string => appendVar (.ofNat v.s.length) ++ v.s
    | some .bool => [boolByte v.b]
    | none => []

namespace Reader

/-! ### The reads -/

def byte : Decode UInt8 := Cursor.byte .shortReader

def bool : Decode Bool := do
  let b ← byte
  return b == 1

/-- `ReadUvarint` takes ten bytes at most. -/
def var : Decode Int64 := fun c =>
  if c.err.isSome then (.ok 0, c)
  else match uvarint (c.buf.drop c.pos) with
    | some (u, n) => (.ok (unzigzag u), { c with pos := c.pos + n })
    | none => (.ok 0, { c with
        pos := min (c.pos + 10) c.buf.length
        err := some (if c.buf.length < c.pos + 10 then .shortReader else .overflow) })

def str : Decode Bytes := do
  let n ← var
  Cursor.take .stringOutOfRange n

def bytes : Decode Bytes := do
  let n ← var
  Cursor.take .bytesOutOfRange n

def take (n : Int64) : Decode Bytes := Cursor.take .takeOutOfRange n

def payload (typ : UInt8) (null : Bool) : Decode RawValue :=
  match ColType.ofByte typ with
  | some .int | some .timestamp => do
    let i ← var
    return { typ := typ, null := null, i := i }
  | some .float => do
    let f ← var
    return { typ := typ, null := null, f := f.toUInt64 }
  | some .string => do
    let s ← str
    return { typ := typ, null := null, s := s }
  | some .bool => do
    let b ← bool
    return { typ := typ, null := null, b := b }
  | none => return { typ := typ, null := null }

def variant : Decode RawValue := do
  let typ ← byte
  let null ← bool
  payload typ null

end Reader

/-! ### What the bytes hold -/

def rawPayload (typ : UInt8) (null : Bool) : RowReader RawValue :=
  match ColType.ofByte typ with
  | some .int | some .timestamp => do
    let i ← readVar
    return { typ := typ, null := null, i := i }
  | some .float => do
    let f ← readVar
    return { typ := typ, null := null, f := f.toUInt64 }
  | some .string => do
    let s ← readStr
    return { typ := typ, null := null, s := s }
  | some .bool => do
    let b ← readBool
    return { typ := typ, null := null, b := b }
  | none => return { typ := typ, null := null }

/-- A value of any type byte. -/
def rawVariant : RowReader RawValue := do
  let typ ← readByte
  let null ← readBool
  rawPayload typ null

/-- The length in front of a string is not negative, and its end is an `int`. -/
def StrSound (n : ℕ) (bs : Bytes) : Prop :=
  ∀ k rest, readVar bs = some (k, rest) → TakeSound k n rest

/-- Only a string has a length. -/
def VariantSound (n : ℕ) (bs : Bytes) : Prop :=
  ∀ null rest, bs = ColType.string.toByte :: null :: rest → StrSound n rest

/-! ### The reads follow the bytes -/

theorem readByte_eq : readByte = byteParser := by
  ext1 bs
  cases bs <;> rfl

theorem readByte_eq_some_iff {bs rest : Bytes} {b : UInt8} :
    readByte bs = some (b, rest) ↔ bs = b :: rest := by
  cases bs with
  | nil => exact iff_of_false nofun nofun
  | cons c cs =>
    rw [readByte, Option.some.injEq, Prod.mk.injEq, List.cons.injEq]

theorem readBool_eq_some {bs rest : Bytes} {v : Bool} (h : readBool bs = some (v, rest)) :
    ∃ b, bs = b :: rest := by
  cases bs with
  | nil => cases h
  | cons b bs =>
    cases h
    exact ⟨b, rfl⟩

theorem follows_readByte : Follows Reader.byte readByte Sound := by
  rw [readByte_eq]
  exact follows_byte CodecError.shortReader

theorem follows_readBool : Follows Reader.bool readBool Sound := follows_readByte.map fun b => b == 1

theorem exec_var (c : Cursor CodecError) (h : c.err = none) : Reader.var.exec c =
    match uvarint (c.buf.drop c.pos) with
    | some (u, n) => (.ok (unzigzag u), { c with pos := c.pos + n })
    | none => (.ok 0, { c with
        pos := min (c.pos + 10) c.buf.length
        err := some (if c.buf.length < c.pos + 10 then .shortReader else .overflow) }) := by
  have hnot : ¬ c.err.isSome := by simp [h]
  exact if_neg hnot

theorem exec_var_ok (c : Cursor CodecError) : ∃ n c', Reader.var.exec c = (.ok n, c') := by
  by_cases herr : c.err.isSome
  · exact ⟨0, c, if_pos herr⟩
  · rw [exec_var c (Option.not_isSome_iff_eq_none.mp herr)]
    split
    · exact ⟨_, _, rfl⟩
    · exact ⟨_, _, rfl⟩

/-- A refused integer leaves 0 and an error. -/
theorem exec_var_of_none {buf bs : Bytes} (h : Rest buf bs) (hr : readVar bs = none) :
    ∃ c, c.err.isSome ∧ Reader.var.exec (before buf bs) = (.ok 0, c) := by
  have hdrop : (before buf bs : Cursor CodecError).buf.drop
      (before buf bs : Cursor CodecError).pos = bs := h.drop
  rw [exec_var _ rfl, hdrop, Option.map_eq_none_iff.mp hr]
  exact ⟨_, rfl, rfl⟩

theorem follows_readVar : Follows Reader.var readVar Sound where
  reads := by
    rintro buf bs h a rest hr
    obtain ⟨⟨u, n⟩, hu, hp⟩ := Option.map_eq_some_iff.mp hr
    obtain ⟨rfl, rfl⟩ := Prod.mk.inj hp
    have hn := uvarint_le hu
    have hle := h.le
    have hdrop : (before buf bs : Cursor CodecError).buf.drop
        (before buf bs : Cursor CodecError).pos = bs := h.drop
    have hmove : (before buf bs : Cursor CodecError).pos + n =
        (before buf (bs.drop n) : Cursor CodecError).pos := by
      simp only at hn
      simp only [before, List.length_drop]
      omega
    refine ⟨List.drop_suffix _ _, trivial, ?_⟩
    rw [exec_var _ rfl, hdrop, hu]
    dsimp only
    rw [hmove]
    rfl
  fails := by
    rintro buf bs h - hr
    obtain ⟨c, hc, hexec⟩ := exec_var_of_none h hr
    rw [hexec]
    exact hc
  panics := fun _ h => absurd trivial h
  calm := by
    rintro c hc
    change Failed (if _ then _ else _)
    rw [if_pos hc]
    exact hc

theorem then_readVar_iff {n : ℕ} {bs : Bytes} {Q : Int64 → ℕ → Bytes → Prop} :
    Then Sound readVar Q n bs ↔ ∀ k rest, readVar bs = some (k, rest) → Q k n rest :=
  ⟨And.right, fun h => ⟨trivial, h⟩⟩

theorem follows_readStr (fail : CodecError) :
    Follows (do let n ← Reader.var; Cursor.take fail n) readStr StrSound :=
  (follows_readVar.bind fun k => follows_take fail k).congr fun _ _ => then_readVar_iff

theorem ofByte_eq_some_iff {b : UInt8} {t : ColType} : ColType.ofByte b = some t ↔ b = t.toByte := by
  constructor
  · intro h
    have hfound := List.find?_some h
    exact (of_decide_eq_true hfound).symm
  · rintro rfl
    exact ofByte_toByte t

/-- The soundness of a payload is that of its string. -/
def PayloadSound (typ : UInt8) (n : ℕ) (bs : Bytes) : Prop :=
  typ = ColType.string.toByte → StrSound n bs

theorem follows_rawPayload (typ : UInt8) (null : Bool) :
    Follows (Reader.payload typ null) (rawPayload typ null) (PayloadSound typ) := by
  have hother {t : Option ColType} (h : ColType.ofByte typ = t) (ht : t ≠ some .string) (n : ℕ)
      (bs : Bytes) : Sound n bs ↔ PayloadSound typ n bs :=
    iff_of_true trivial fun hs => absurd (h.symm.trans (ofByte_eq_some_iff.mpr hs)) ht
  rw [Reader.payload, rawPayload]
  cases h : ColType.ofByte typ with
  | none => exact (follows_pure _).congr (hother h nofun)
  | some t =>
    cases t with
    | int => exact (follows_readVar.map _).congr (hother h nofun)
    | float => exact (follows_readVar.map _).congr (hother h nofun)
    | string =>
      have hstr : typ = ColType.string.toByte := ofByte_eq_some_iff.mp h
      exact ((follows_readStr .stringOutOfRange).map _).congr fun n bs =>
        ⟨fun hs _ => hs, fun hs => hs hstr⟩
    | bool => exact (follows_readBool.map _).congr (hother h nofun)
    | timestamp => exact (follows_readVar.map _).congr (hother h nofun)

theorem follows_rawVariant : Follows Reader.variant rawVariant VariantSound :=
  (follows_readByte.bind fun typ => follows_readBool.bind fun null =>
    follows_rawPayload typ null).congr fun n bs => by
      constructor
      · rintro ⟨-, h⟩ null rest rfl
        obtain ⟨-, h⟩ := h _ _ rfl
        exact h _ _ rfl rfl
      · intro h
        constructor
        · trivial
        · rintro typ rest hbyte
          constructor
          · trivial
          · rintro null rest' hbool rfl
            obtain rfl := readByte_eq_some_iff.mp hbyte
            obtain ⟨b, rfl⟩ := readBool_eq_some hbool
            exact h b rest' rfl

/-! ### Buffers -/

theorem makeReader_eq (buf : Bytes) : makeReader buf = before buf buf := by
  rw [makeReader, before, Nat.sub_self]

theorem rest_self {buf : Bytes} (h : buf.length < 2 ^ 63) : Rest buf buf := ⟨List.suffix_rfl, h⟩

/-! ### Cut buffers -/

theorem makeReader_take (buf : Bytes) (k : ℕ) :
    makeReader (buf.take k) = (before buf buf : Cursor CodecError).cut k := by
  rw [makeReader, before, cut, Nat.sub_self]

theorem extends_readVar : Extends readVar := by
  rintro bs a rest h more
  obtain ⟨⟨u, n⟩, hu, hp⟩ := Option.map_eq_some_iff.mp h
  obtain ⟨rfl, rfl⟩ := Prod.mk.inj hp
  rw [readVar, uvarint_append hu, Option.map_some]
  dsimp only
  rw [List.drop_append_of_le_length (uvarint_le hu)]

theorem local_readVar : Local readVar := by
  rintro bs a rest h j hj
  obtain ⟨⟨u, n⟩, hu, hp⟩ := Option.map_eq_some_iff.mp h
  obtain ⟨rfl, rfl⟩ := Prod.mk.inj hp
  have hn : n ≤ bs.length := uvarint_le hu
  rw [List.length_drop] at hj ⊢
  have htake : uvarint (bs.take j) = some (u, n) := uvarint_take hu (by dsimp only; omega)
  have hcount : j + (bs.length - n) - bs.length = j - n := by omega
  rw [readVar, htake, Option.map_some, hcount]
  dsimp only
  rw [List.drop_take]

theorem cuts_var : Cuts Reader.var :=
  follows_readVar.cuts extends_readVar local_readVar fun _ _ _ _ => trivial

theorem cuts_str : Cuts Reader.str := cuts_var.bind fun n => cuts_take _ n

theorem cuts_bytes : Cuts Reader.bytes := cuts_var.bind fun n => cuts_take _ n

/-- An integer that is not read is 0. -/
theorem exec_var_of_failed {c : Cursor CodecError} (h : Failed (Reader.var.exec c)) :
    ∃ c', c'.err.isSome ∧ Reader.var.exec c = (.ok 0, c') := by
  by_cases herr : c.err.isSome
  · exact ⟨c, herr, if_pos herr⟩
  · have hnone : c.err = none := Option.not_isSome_iff_eq_none.mp herr
    rw [exec_var c hnone] at h ⊢
    split at h
    · exact absurd h herr
    · exact ⟨_, rfl, rfl⟩

theorem takes_var (v : Int64) : Takes Reader.var (appendVar v) v :=
  follows_readVar.takes (readsBack_var v)

theorem takes_take {s : Bytes} (h : s.length < 2 ^ 63) : Takes (Reader.take (.ofNat s.length)) s s :=
  (follows_take CodecError.takeOutOfRange _).takes (readsBack_take h)

theorem takes_str {s : Bytes} (h : s.length < 2 ^ 63) (fail : CodecError) :
    Takes (do let n ← Reader.var; Cursor.take fail n) (appendVar (.ofNat s.length) ++ s) s :=
  (follows_readStr fail).takes (readsBack_str h)

end Ydbgo.Storage
