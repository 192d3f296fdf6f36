import Ydbgo.Lib.Varint
import Ydbgo.Storage.Engine

/-! # The blob of a row

The row format of the key-value backends: the number of columns, and for each
column its type, its null flag and the payload of the type. Integers are
zigzag varints. Reading back what was written gives the values again.
-/

namespace Ydbgo.Storage

open Sql (Value Stdlib)

/-! ### Zigzag integers -/

/-- The sign moved to the lowest bit. -/
def zigzag (v : Int64) : UInt64 := (v.toUInt64 <<< 1) ^^^ (v >>> 63).toUInt64

def unzigzag (u : UInt64) : Int64 := (u >>> 1).toInt64 ^^^ -(u &&& 1).toInt64

theorem sshiftRight_sign (x : BitVec 64) :
    x.sshiftRight 63 = if x.msb then BitVec.allOnes 64 else 0#64 := by
  ext i hi
  rw [BitVec.getElem_sshiftRight]
  by_cases h : i = 0
  · subst h
    cases hm : x.msb <;>
    · rw [BitVec.msb_eq_getLsbD_last, BitVec.getLsbD_eq_getElem (by omega)] at hm
      simp [hm]
  · have : ¬ 63 + i < 64 := by omega
    cases hm : x.msb <;> simp [this, -BitVec.reduceAllOnes]

theorem lowest_zigzag (x : BitVec 64) :
    (x <<< 1 ^^^ x.sshiftRight 63) &&& 1#64 = if x.msb then 1#64 else 0#64 := by
  rw [sshiftRight_sign]
  ext i hi
  by_cases h : i = 0
  · subst h
    cases hm : x.msb <;> simp [-BitVec.reduceAllOnes]
  · cases hm : x.msb <;> simp [-BitVec.reduceAllOnes, h, BitVec.getElem_one]

theorem unzigzag_zigzag (v : Int64) : unzigzag (zigzag v) = v := by
  apply Int64.toBitVec_inj.mp
  have hbits : (unzigzag (zigzag v)).toBitVec =
      (v.toBitVec <<< 1 ^^^ v.toBitVec.sshiftRight 63) >>> 1 ^^^
        -((v.toBitVec <<< 1 ^^^ v.toBitVec.sshiftRight 63) &&& 1#64) := by
    simp [unzigzag, zigzag]
  rw [hbits, lowest_zigzag, sshiftRight_sign]
  ext i hi
  by_cases h : i = 63
  · subst h
    cases hm : v.toBitVec.msb <;>
    · rw [BitVec.msb_eq_getLsbD_last, BitVec.getLsbD_eq_getElem (by omega)] at hm
      simp [hm]
  · have : 1 + i < 64 := by omega
    cases hm : v.toBitVec.msb <;>
      simp [this, BitVec.neg_one_eq_allOnes, -BitVec.reduceAllOnes, -BitVec.reduceNeg]

/-! ### Writing -/

def appendVar (v : Int64) : Bytes := putUvarint (zigzag v)

def boolByte (b : Bool) : UInt8 := if b then 1 else 0

def appendVariant (v : SqlValue) : Bytes :=
  v.typ.toByte :: boolByte v.null :: match v.typ with
    | .int | .timestamp => appendVar v.i
    | .float => appendVar v.f.toInt64
    | .string => appendVar (Int64.ofNat v.s.length) ++ v.s
    | .bool => [boolByte v.b]

/-- A cell that was not written has no bytes. -/
def joinRow (cells : List Bytes) : Bytes :=
  appendVar (Int64.ofNat cells.length) ++ cells.flatten

/-! ### Reading -/

/-- A reader of the rest of a blob, `none` once the blob is too short. -/
abbrev RowReader (α : Type) : Type := StateT Bytes Option α

def readByte : RowReader UInt8
  | [] => none
  | b :: bs => some (b, bs)

def readBool : RowReader Bool := do
  let b ← readByte
  return b == 1

def readVar : RowReader Int64 := fun bs =>
  (uvarint bs).map fun p => (unzigzag p.1, bs.drop p.2)

/-- `Take`. A negative length is an error of the slice expression. -/
def readTake (n : Int64) : RowReader Bytes := fun bs =>
  if 0 ≤ n.toInt ∧ n.toInt ≤ bs.length then some (bs.splitAt n.toInt.toNat) else none

def readStr : RowReader Bytes := do
  let n ← readVar
  readTake n

/-- The type a byte stands for. No writer writes other bytes. -/
def ColType.ofByte (b : UInt8) : Option ColType :=
  [ColType.int, .float, .string, .bool, .timestamp].find? fun t => t.toByte = b

/-- The payload of a value. -/
def readPayload (typ : ColType) (null : Bool) : RowReader SqlValue :=
  match typ with
  | .int => do
    let i ← readVar
    return { typ := .int, null := null, i := i }
  | .float => do
    let f ← readVar
    return { typ := .float, null := null, f := f.toUInt64 }
  | .string => do
    let s ← readStr
    return { typ := .string, null := null, s := s }
  | .bool => do
    let b ← readBool
    return { typ := .bool, null := null, b := b }
  | .timestamp => do
    let i ← readVar
    return { typ := .timestamp, null := null, i := i }

/-- `Variant`. -/
def readVariant : RowReader SqlValue := do
  let b ← readByte
  let null ← readBool
  match ColType.ofByte b with
  | none => failure
  | some typ => readPayload typ null

def readVariants : ℕ → RowReader (List SqlValue)
  | 0 => return []
  | n + 1 => do
    let v ← readVariant
    let vs ← readVariants n
    return v :: vs

namespace Table

variable (t : Table)

/-- The row with the values of its columns, in their order. -/
def valsOf (vs : List SqlValue) : Vals := .ofList ((t.cols.map ColInfo.name).zip vs)

/-- The blobs of `encodeRowCells`. -/
def cellBlobs (vals : Vals) : List Bytes :=
  t.cols.map fun c => appendVariant (vals.cell c.name)

/-- `encodeRow`. -/
def rowBlob (vals : Vals) : Bytes :=
  appendVar (Int64.ofNat t.cols.length) ++ t.cols.flatMap fun c => appendVariant (vals.cell c.name)

theorem rowBlob_eq (vals : Vals) : t.rowBlob vals = joinRow (t.cellBlobs vals) := by
  simp only [rowBlob, joinRow, cellBlobs, List.length_map, List.flatMap_def]

def readRow : RowReader (List SqlValue) := do
  let n ← readVar
  readVariants (min n.toInt.toNat t.cols.length)

/-- `decodeRow` of a blob. -/
def decodeBlob (data : Bytes) : Option Vals :=
  (t.readRow data).map fun p => t.valsOf p.1

end Table

/-! ### The round trip -/

/-- The reader takes these bytes off any input and gives this value. -/
def ReadsBack {α : Type} (r : RowReader α) (bs : Bytes) (a : α) : Prop :=
  ∀ rest, r (bs ++ rest) = some (a, rest)

section Rules

variable {α β : Type} {r : RowReader α} {f : α → RowReader β} {bs bs' : Bytes} {a : α} {b : β}

theorem readsBack_pure (a : α) : ReadsBack (pure a) [] a := fun _ => rfl

theorem ReadsBack.bind (h : ReadsBack r bs a) (h' : ReadsBack (f a) bs' b) :
    ReadsBack (r >>= f) (bs ++ bs') b := by
  intro rest
  rw [List.append_assoc]
  change (r (bs ++ (bs' ++ rest))).bind (fun p => f p.1 p.2) = _
  rw [h]
  exact h' rest

theorem ReadsBack.map (g : α → β) (h : ReadsBack r bs a) :
    ReadsBack (r >>= fun a => pure (g a)) bs (g a) := by
  simpa using h.bind (f := fun a => pure (g a)) (readsBack_pure (g a))

end Rules

theorem readsBack_byte (b : UInt8) : ReadsBack readByte [b] b := fun _ => rfl

theorem readsBack_bool (b : Bool) : ReadsBack readBool [boolByte b] b := by
  have h := (readsBack_byte (boolByte b)).map fun c => c == 1
  cases b <;> exact h

theorem readsBack_var (v : Int64) : ReadsBack readVar (appendVar v) v := by
  intro rest
  simp only [readVar, appendVar, uvarint_putUvarint, Option.map_some, unzigzag_zigzag,
    List.drop_left]

theorem toInt_ofNat_length {n : ℕ} (h : n < 2 ^ 63) : (Int64.ofNat n).toInt = n := by
  rw [Int64.toInt_ofNat_of_lt h]

theorem readsBack_take {s : Bytes} (h : s.length < 2 ^ 63) :
    ReadsBack (readTake (Int64.ofNat s.length)) s s := by
  intro rest
  rw [readTake, toInt_ofNat_length h]
  simp

theorem readsBack_str {s : Bytes} (h : s.length < 2 ^ 63) :
    ReadsBack readStr (appendVar (Int64.ofNat s.length) ++ s) s :=
  (readsBack_var _).bind (readsBack_take h)

theorem ofByte_toByte (typ : ColType) : ColType.ofByte typ.toByte = some typ := by
  cases typ <;> rfl

/-- A value of the storage as the reader makes them: nothing but what its type has. -/
structure SqlValue.Plain (v : SqlValue) : Prop where
  only : v = match v.typ with
    | .int => { typ := .int, null := v.null, i := v.i }
    | .float => { typ := .float, null := v.null, f := v.f }
    | .string => { typ := .string, null := v.null, s := v.s }
    | .bool => { typ := .bool, null := v.null, b := v.b }
    | .timestamp => { typ := .timestamp, null := v.null, i := v.i }
  /-- The length of a string is a Go `int`. -/
  length : v.s.length < 2 ^ 63

theorem readsBack_variant {v : SqlValue} (h : v.Plain) :
    ReadsBack readVariant (appendVariant v) v := by
  have hpay : ReadsBack (readPayload v.typ v.null) ((appendVariant v).drop 2) v := by
    obtain ⟨hv, hlen⟩ := h
    rw [hv]
    cases htyp : v.typ
    · exact (readsBack_var v.i).map _
    · have hf := (readsBack_var v.f.toInt64).map fun f =>
        ({ typ := .float, null := v.null, f := f.toUInt64 } : SqlValue)
      rwa [UInt64.toUInt64_toInt64] at hf
    · exact (readsBack_str hlen).map _
    · exact (readsBack_bool v.b).map _
    · exact (readsBack_var v.i).map _
  let body (b : UInt8) (null : Bool) : RowReader SqlValue :=
    match ColType.ofByte b with
    | none => failure
    | some typ => readPayload typ null
  have hbody : ReadsBack (body v.typ.toByte v.null) ((appendVariant v).drop 2) v := by
    simpa only [body, ofByte_toByte] using hpay
  exact (readsBack_byte v.typ.toByte).bind (f := fun b => readBool >>= body b)
    ((readsBack_bool v.null).bind (f := body v.typ.toByte) hbody)

theorem readsBack_variants {vs : List SqlValue} (h : ∀ v ∈ vs, v.Plain) :
    ReadsBack (readVariants vs.length) (vs.flatMap appendVariant) vs := by
  induction vs with
  | nil => exact readsBack_pure []
  | cons v vs ih =>
    have hv := readsBack_variant (h v List.mem_cons_self)
    have hvs := ih fun w hw => h w (List.mem_cons_of_mem v hw)
    exact hv.bind (hvs.map fun vs => v :: vs)

/-- A row is read back as it was written. -/
theorem decodeBlob_joinRow {t : Table} {vs : List SqlValue} (hlen : vs.length = t.cols.length)
    (hcols : t.cols.length < 2 ^ 63) (h : ∀ v ∈ vs, v.Plain) :
    t.decodeBlob (joinRow (vs.map appendVariant)) = some (t.valsOf vs) := by
  have hn : min (Int64.ofNat vs.length).toInt.toNat t.cols.length = vs.length := by
    rw [toInt_ofNat_length (hlen ▸ hcols)]
    omega
  have hread : ReadsBack t.readRow (joinRow (vs.map appendVariant)) vs := by
    have hvs := readsBack_variants h
    rw [joinRow, List.length_map, ← List.flatMap_def]
    refine (readsBack_var _).bind ?_
    rwa [hn]
  have := hread []
  rw [List.append_nil] at this
  rw [Table.decodeBlob, this]
  rfl

end Ydbgo.Storage
