import Ydbgo.Lib.Writes
import Ydbgo.Storage.Reader

/-! # The decoders of rows and records

`splitRow`, `decodeRow` and the decoders of the mutate and create-table records,
on bytes of any origin and on what the encoders wrote.
-/

namespace Ydbgo.Storage.Codec

open Cursor

/-- A Go map filled in this order. -/
def recordMap {α : Type} (es : List (Bytes × α)) : Bytes → Option α :=
  Writes.apply (fun _ => none) (es.map fun e => (e.1, some e.2))

/-! ### Rows -/

/-- `int(r.Var())` cells are made, if a slice can have so many. -/
def makeCells (maxCells : ℕ) : Decode Int64 := do
  let n ← Reader.var
  if 0 ≤ n.toInt ∧ n.toInt ≤ maxCells then return n else throw .panic

def splitCell : Decode Bytes := do
  let v ← Reader.variant
  check
  return v.append

def splitRow (maxCells : ℕ) : Decode (Int64 × List Bytes) := do
  let n ← makeCells maxCells
  let cells ← many splitCell n.toInt.toNat
  return (n, cells)

/-- `decodeRow` for a table with columns of these names. -/
def decodeRow (cols : List Bytes) : Decode (Bytes → Option RawValue) := do
  let n ← Reader.var
  let vs ← many Reader.variant (min n.toInt.toNat cols.length)
  check
  return recordMap (cols.zip vs)

/-! ### Records -/

def builderStr (s : Bytes) : Bytes := appendVar (.ofNat s.length) ++ s

def builderLen (n : ℕ) : Bytes := appendVar (.ofNat n)

def recCreateTable : UInt8 := 1

def recMutate : UInt8 := 3

structure MutateRecord where
  table : Bytes
  key : Bytes
  values : Bytes → Option RawValue
  isPut : Bool

/-- `encodeMutate` of a put. The values are in the order of their names. -/
def encodeMutate (table key : Bytes) (values : SortedMap Bytes SqlValue) : Bytes :=
  [recMutate] ++ (builderStr table ++ ([0] ++ (builderStr key ++ (builderLen values.entries.length ++
    values.entries.flatMap fun e => builderStr e.1 ++ appendVariant e.2))))

def mutateEntry : Decode (Bytes × RawValue) := do
  let k ← Reader.str
  let v ← Reader.variant
  return (k, v)

def unmarshalMutate : Decode MutateRecord := do
  let _ ← Reader.byte
  let table ← Reader.str
  let op ← Reader.byte
  let key ← Reader.str
  let n ← Reader.var
  let entries ← many mutateEntry n.toInt.toNat
  check
  return { table := table, key := key, values := recordMap entries, isPut := op == 0 }

structure RawColumn where
  name : Bytes
  typ : UInt8
  notNull : Bool
  deriving DecidableEq, Repr

/-- A table's definition. Indexes and key columns are as the record has them. -/
structure TableRecord where
  name : Bytes
  engine : Bytes
  cols : List RawColumn
  pk : List Int64
  indexes : Bytes → Option (List Int64)
  retention : Int64

def appendColumn (c : RawColumn) : Bytes := builderStr c.name ++ ([c.typ] ++ [boolByte c.notNull])

def appendInts (is : List Int64) : Bytes := builderLen is.length ++ is.flatMap appendVar

/-- `encodeCreateTable`, with the indexes in the order in which the map is gone through. -/
def encodeCreateTable (t : TableRecord) (indexes : List (Bytes × List Int64)) : Bytes :=
  [recCreateTable] ++ (builderStr t.name ++ (builderStr t.engine ++ (builderLen t.cols.length ++
    (t.cols.flatMap appendColumn ++ (appendInts t.pk ++ (builderLen indexes.length ++
      ((indexes.flatMap fun ix => builderStr ix.1 ++ appendInts ix.2) ++ appendVar t.retention)))))))

def column : Decode RawColumn := do
  let name ← Reader.str
  let typ ← Reader.byte
  let notNull ← Reader.bool
  return { name := name, typ := typ, notNull := notNull }

def ints : Decode (List Int64) := do
  let n ← Reader.var
  many Reader.var n.toInt.toNat

def indexEntry : Decode (Bytes × List Int64) := do
  let name ← Reader.str
  let cols ← ints
  return (name, cols)

def unmarshalCreateTable : Decode TableRecord := do
  let _ ← Reader.byte
  let name ← Reader.str
  let engine ← Reader.str
  let nc ← Reader.var
  let cols ← many column nc.toInt.toNat
  let pk ← ints
  let ni ← Reader.var
  let indexes ← many indexEntry ni.toInt.toNat
  let retention ← Reader.var
  check
  return {
    name := name, engine := engine, cols := cols, pk := pk
    indexes := recordMap indexes, retention := retention }

/-! ### What the bytes hold -/

def readCells (maxCells : ℕ) : RowReader Int64 := fun bs =>
  (readVar bs).bind fun p => if 0 ≤ p.1.toInt ∧ p.1.toInt ≤ maxCells then some p else none

def readSplitCell : RowReader Bytes := do
  let v ← rawVariant
  return v.append

def readSplitRow (maxCells : ℕ) : RowReader (Int64 × List Bytes) := do
  let n ← readCells maxCells
  let cells ← manyParser readSplitCell n.toInt.toNat
  return (n, cells)

def readDecodedRow (cols : List Bytes) : RowReader (Bytes → Option RawValue) := do
  let n ← readVar
  let vs ← manyParser rawVariant (min n.toInt.toNat cols.length)
  return recordMap (cols.zip vs)

def readMutateEntry : RowReader (Bytes × RawValue) := do
  let k ← readStr
  let v ← rawVariant
  return (k, v)

def readMutate : RowReader MutateRecord := do
  let _ ← readByte
  let table ← readStr
  let op ← readByte
  let key ← readStr
  let n ← readVar
  let entries ← manyParser readMutateEntry n.toInt.toNat
  return { table := table, key := key, values := recordMap entries, isPut := op == 0 }

def readColumn : RowReader RawColumn := do
  let name ← readStr
  let typ ← readByte
  let notNull ← readBool
  return { name := name, typ := typ, notNull := notNull }

def readInts : RowReader (List Int64) := do
  let n ← readVar
  manyParser readVar n.toInt.toNat

def readIndexEntry : RowReader (Bytes × List Int64) := do
  let name ← readStr
  let cols ← readInts
  return (name, cols)

def readCreateTable : RowReader TableRecord := do
  let _ ← readByte
  let name ← readStr
  let engine ← readStr
  let nc ← readVar
  let cols ← manyParser readColumn nc.toInt.toNat
  let pk ← readInts
  let ni ← readVar
  let indexes ← manyParser readIndexEntry ni.toInt.toNat
  let retention ← readVar
  return {
    name := name, engine := engine, cols := cols, pk := pk
    indexes := recordMap indexes, retention := retention }

/-! ### Sound bytes

The lengths and the count that the decoders take from the bytes, as far as the bytes are read.
-/

def CellsSound (maxCells : ℕ) (_ : ℕ) (bs : Bytes) : Prop :=
  ∀ k rest, readVar bs = some (k, rest) → 0 ≤ k.toInt ∧ k.toInt ≤ maxCells

def SplitSound (maxCells : ℕ) : ℕ → Bytes → Prop :=
  Then (CellsSound maxCells) (readCells maxCells) fun n =>
    ManySound VariantSound readSplitCell n.toInt.toNat

def RowSound (cols : ℕ) : ℕ → Bytes → Prop :=
  Then Sound readVar fun n => ManySound VariantSound rawVariant (min n.toInt.toNat cols)

def EntrySound : ℕ → Bytes → Prop := Then StrSound readStr fun _ => VariantSound

def MutateSound : ℕ → Bytes → Prop :=
  Then Sound readByte fun _ => Then StrSound readStr fun _ => Then Sound readByte fun _ =>
    Then StrSound readStr fun _ => Then Sound readVar fun n =>
      ManySound EntrySound readMutateEntry n.toInt.toNat

def CreateTableSound : ℕ → Bytes → Prop :=
  Then Sound readByte fun _ => Then StrSound readStr fun _ => Then StrSound readStr fun _ =>
    Then Sound readVar fun nc => Then (ManySound StrSound readColumn nc.toInt.toNat)
      (manyParser readColumn nc.toInt.toNat) fun _ => Then Sound readInts fun _ =>
        Then Sound readVar fun ni => ManySound StrSound readIndexEntry ni.toInt.toNat

/-! ### The decoders follow the bytes -/

theorem readCells_eq_some_iff {maxCells : ℕ} {bs : Bytes} {p : Int64 × Bytes} :
    readCells maxCells bs = some p ↔
      readVar bs = some p ∧ 0 ≤ p.1.toInt ∧ p.1.toInt ≤ maxCells := by
  rw [readCells, Option.bind_eq_some_iff]
  constructor
  · rintro ⟨q, hq, h⟩
    split at h
    · next hrange =>
      cases h
      exact ⟨hq, hrange⟩
    · cases h
  · rintro ⟨h, hrange⟩
    exact ⟨p, h, if_pos hrange⟩

theorem follows_makeCells (maxCells : ℕ) :
    Follows (makeCells maxCells) (readCells maxCells) (CellsSound maxCells) where
  reads := by
    rintro buf bs h k rest hr
    obtain ⟨hvar, hrange⟩ := readCells_eq_some_iff.mp hr
    obtain ⟨hsuffix, -, hexec⟩ := follows_readVar.reads h hvar
    refine ⟨hsuffix, ?_, ?_⟩
    · rintro k' rest' hvar'
      obtain ⟨rfl, -⟩ := Prod.mk.inj (Option.some.inj (hvar.symm.trans hvar'))
      exact hrange
    · rw [makeCells, Prog.exec_bind_ok hexec, if_pos hrange]
      rfl
  fails := by
    rintro buf bs h hsound hr
    cases hvar : readVar bs with
    | none =>
      obtain ⟨c, hc, hexec⟩ := exec_var_of_none h hvar
      rw [makeCells, Prog.exec_bind_ok hexec, if_pos (by simp)]
      exact hc
    | some p =>
      rw [readCells_eq_some_iff.mpr ⟨hvar, hsound p.1 p.2 hvar⟩] at hr
      cases hr
  panics := by
    rintro buf bs h hnot
    obtain ⟨k, rest, hvar, hrange⟩ : ∃ k rest, readVar bs = some (k, rest) ∧
        ¬ (0 ≤ k.toInt ∧ k.toInt ≤ maxCells) := by
      by_contra hall
      push Not at hall
      exact hnot fun k rest hvar => ⟨Int.not_lt.mp fun hlt => absurd (hall k rest hvar)
        (by omega), by have := hall k rest hvar; omega⟩
    obtain ⟨-, -, hexec⟩ := follows_readVar.reads h hvar
    rw [makeCells, Prog.exec_bind_ok hexec, if_neg hrange]
    rfl
  calm := by
    rintro c hc
    have hexec : Reader.var.exec c = (.ok 0, c) := if_pos hc
    rw [makeCells, Prog.exec_bind_ok hexec, if_pos (by simp)]
    exact hc

theorem follows_splitCell : Follows splitCell readSplitCell VariantSound :=
  follows_rawVariant.checked RawValue.append

theorem follows_splitRow (maxCells : ℕ) :
    Follows (splitRow maxCells) (readSplitRow maxCells) (SplitSound maxCells) :=
  (follows_makeCells maxCells).bind fun n =>
    (follows_many follows_splitCell n.toInt.toNat).map fun cells => (n, cells)

theorem follows_decodeRow (cols : List Bytes) :
    Follows (decodeRow cols) (readDecodedRow cols) (RowSound cols.length) :=
  follows_readVar.bind fun _ => (follows_many follows_rawVariant _).checked _

theorem follows_mutateEntry : Follows mutateEntry readMutateEntry EntrySound :=
  (follows_readStr .stringOutOfRange).bind fun _ => follows_rawVariant.map _

theorem follows_unmarshalMutate : Follows unmarshalMutate readMutate MutateSound :=
  follows_readByte.bind fun _ => (follows_readStr .stringOutOfRange).bind fun _ =>
    follows_readByte.bind fun _ => (follows_readStr .stringOutOfRange).bind fun _ =>
      follows_readVar.bind fun _ => (follows_many follows_mutateEntry _).checked _

theorem follows_column : Follows column readColumn StrSound :=
  ((follows_readStr .stringOutOfRange).bind fun name => follows_readByte.bind fun typ =>
    follows_readBool.map fun notNull => ({ name := name, typ := typ, notNull := notNull } :
      RawColumn)).congr fun _ _ =>
    ⟨And.left, fun h => ⟨h, fun _ _ _ => ⟨trivial, fun _ _ _ => trivial⟩⟩⟩

theorem follows_ints : Follows ints readInts Sound :=
  (follows_readVar.bind fun n => follows_many follows_readVar n.toInt.toNat).congr fun _ _ =>
    iff_of_true ⟨trivial, fun _ _ _ => manySound_of_forall (fun _ _ => trivial) _ _ _⟩ trivial

theorem follows_indexEntry : Follows indexEntry readIndexEntry StrSound :=
  ((follows_readStr .stringOutOfRange).bind fun name =>
    follows_ints.map fun cols => (name, cols)).congr fun _ _ =>
      ⟨And.left, fun h => ⟨h, fun _ _ _ => trivial⟩⟩

theorem follows_unmarshalCreateTable :
    Follows unmarshalCreateTable readCreateTable CreateTableSound :=
  follows_readByte.bind fun _ => (follows_readStr .stringOutOfRange).bind fun _ =>
    (follows_readStr .stringOutOfRange).bind fun _ => follows_readVar.bind fun _ =>
      (follows_many follows_column _).bind fun _ => follows_ints.bind fun _ =>
        follows_readVar.bind fun _ => ((follows_many follows_indexEntry _).bind fun _ =>
          follows_readVar.checked _).congr fun _ _ => ⟨And.left, fun h => ⟨h, fun _ _ _ => trivial⟩⟩

/-! ### What was encoded -/

/-- A decoder gives back what its bytes encode. -/
theorem decodes {α : Type} {m : Decode α} {r : RowReader α} {P : ℕ → Bytes → Prop} {buf : Bytes}
    {a : α} (h : Follows m r P) (hback : ReadsBack r buf a) (hlen : buf.length < 2 ^ 63) :
    (m.exec (makeReader buf)).1 = .ok a := by
  have hread := hback []
  rw [List.append_nil] at hread
  obtain ⟨-, -, hexec⟩ := h.reads (rest_self hlen) hread
  rw [makeReader_eq, hexec]

theorem readsBack_manyParser {α β : Type} {r : RowReader β} {f : α → Bytes} {g : α → β} {as : List α}
    (h : ∀ a ∈ as, ReadsBack r (f a) (g a)) :
    ReadsBack (manyParser r as.length) (as.flatMap f) (as.map g) := by
  induction as with
  | nil => exact readsBack_pure []
  | cons a as ih =>
    obtain ⟨ha, has⟩ := List.forall_mem_cons.mp h
    exact ha.bind ((ih has).map fun bs => g a :: bs)

/-- A list behind its length. -/
theorem ReadsBack.counted {α β γ : Type} {r : RowReader β} {f : α → Bytes} {g : α → β} {as : List α}
    {k : List β → RowReader γ} {bs : Bytes} {c : γ} (hlen : as.length < 2 ^ 63)
    (h : ∀ a ∈ as, ReadsBack r (f a) (g a)) (hk : ReadsBack (k (as.map g)) bs c) :
    ReadsBack (readVar >>= fun n => manyParser r n.toInt.toNat >>= k)
      (builderLen as.length ++ (as.flatMap f ++ bs)) c := by
  apply (readsBack_var _).bind
  rw [toInt_ofNat_length hlen, Int.toNat_natCast]
  exact (readsBack_manyParser h).bind hk

theorem readsBack_rawVariant {v : SqlValue} (h : v.Plain) :
    ReadsBack rawVariant (appendVariant v) v.raw := by
  have hpay : ReadsBack (rawPayload v.typ.toByte v.null) ((appendVariant v).drop 2) v.raw := by
    obtain ⟨hv, hlen⟩ := h
    rw [hv]
    cases htyp : v.typ
    · exact (readsBack_var v.i).map _
    · have hf := (readsBack_var v.f.toInt64).map fun f =>
        ({ typ := ColType.float.toByte, null := v.null, f := f.toUInt64 } : RawValue)
      rwa [UInt64.toUInt64_toInt64] at hf
    · exact (readsBack_str hlen).map _
    · exact (readsBack_bool v.b).map _
    · exact (readsBack_var v.i).map _
  exact (readsBack_byte v.typ.toByte).bind ((readsBack_bool v.null).bind hpay)

theorem append_raw (v : SqlValue) : v.raw.append = appendVariant v := by
  obtain ⟨typ, null, missing, i, f, s, b⟩ := v
  cases typ <;> rfl

/-! ### Round trips -/

/-- A map filled from a list that has every name at most once is looked up in the list. -/
theorem recordMap_of_nodup {α : Type} {es : List (Bytes × α)} (h : (es.map Prod.fst).Nodup)
    (k : Bytes) : recordMap es k = SortedMap.getEntry k es := by
  have hkeys : ((es.map fun e => (e.1, some e.2)).map Prod.fst) = es.map Prod.fst := by
    rw [List.map_map]
    rfl
  cases hk : SortedMap.getEntry k es with
  | none =>
    apply Writes.apply_of_notMem
    rw [hkeys]
    intro hmem
    obtain ⟨e, he, rfl⟩ := List.mem_map.mp hmem
    obtain hfind := Option.map_eq_none_iff.mp hk
    have := List.find?_eq_none.mp hfind e he
    simp at this
  | some v =>
    obtain ⟨e, he, rfl⟩ := Option.map_eq_some_iff.mp hk
    have hkey : e.1 = k := by simpa using List.find?_some he
    apply Writes.apply_of_mem
    · rwa [hkeys]
    · exact List.mem_map.mpr ⟨e, List.mem_of_find?_eq_some he, by rw [hkey]⟩

/-- The values of a row are looked up under the names of the columns. -/
theorem recordMap_zip {α : Type} (names : List Bytes) (f : Bytes → α) (k : Bytes) :
    recordMap (names.zip (names.map f)) k = if k ∈ names then some (f k) else none := by
  have happly (m : Bytes → Option α) : Writes.apply m
      ((names.zip (names.map f)).map fun e => (e.1, some e.2)) k =
        if k ∈ names then some (f k) else m k := by
    induction names generalizing m with
    | nil => rfl
    | cons name names ih =>
      rw [List.map_cons, List.zip_cons_cons, List.map_cons, Writes.apply_cons, ih]
      by_cases hk : k = name
      · subst hk
        simp
      · simp [hk]
  exact happly _

variable {t : Table} {vals : Vals}

/-- The columns' values are as the reader makes them. -/
def PlainRow (t : Table) (vals : Vals) : Prop := ∀ c ∈ t.cols, (vals.cell c.name).Plain

/-- A row of the table: a value for every column and no other. -/
structure RowOf (t : Table) (vals : Vals) : Prop where
  names : ∀ name, (vals name).isSome ↔ name ∈ t.cols.map ColInfo.name
  plain : PlainRow t vals
  cols : t.cols.length < 2 ^ 63

theorem RowOf.eq (h : RowOf t vals) (name : Bytes) :
    (if name ∈ t.cols.map ColInfo.name then some (vals.cell name).raw else none) =
      (vals name).map SqlValue.raw := by
  have hname := h.names name
  split
  · next hmem =>
    obtain ⟨v, hv⟩ := Option.isSome_iff_exists.mp (hname.mpr hmem)
    rw [Vals.cell, hv]
    rfl
  · next hmem =>
    rw [Option.not_isSome_iff_eq_none.mp (mt hname.mp hmem)]
    rfl

theorem readsBack_decodedRow (h : PlainRow t vals) (hcols : t.cols.length < 2 ^ 63) :
    ReadsBack (readDecodedRow (t.cols.map ColInfo.name)) (t.rowBlob vals) (fun name =>
      if name ∈ t.cols.map ColInfo.name then some (vals.cell name).raw else none) := by
  have hvs := readsBack_manyParser fun c hc => readsBack_rawVariant (h c hc)
  have hmap : (recordMap ((t.cols.map ColInfo.name).zip
      (t.cols.map fun c => (vals.cell c.name).raw))) = fun name =>
        if name ∈ t.cols.map ColInfo.name then some (vals.cell name).raw else none := by
    ext1 k
    have hzip := recordMap_zip (t.cols.map ColInfo.name) (fun name => (vals.cell name).raw) k
    rwa [List.map_map] at hzip
  rw [← hmap]
  apply (readsBack_var _).bind
  rw [toInt_ofNat_length hcols, Int.toNat_natCast, List.length_map, Nat.min_self]
  exact hvs.map fun vs => recordMap ((t.cols.map ColInfo.name).zip vs)

theorem readsBack_splitRow (h : PlainRow t vals) {maxCells : ℕ} (hmax : t.cols.length ≤ maxCells)
    (hcols : t.cols.length < 2 ^ 63) : ReadsBack (readSplitRow maxCells) (t.rowBlob vals)
      (.ofNat t.cols.length, t.cellBlobs vals) := by
  have hlen := toInt_ofNat_length hcols
  have hcount : ReadsBack (readCells maxCells) (builderLen t.cols.length)
      (.ofNat t.cols.length) := by
    rintro rest
    apply readCells_eq_some_iff.mpr
    rw [hlen]
    exact ⟨readsBack_var _ rest, by omega, by omega⟩
  have hcells : ∀ c ∈ t.cols, ReadsBack readSplitCell (appendVariant (vals.cell c.name))
      (appendVariant (vals.cell c.name)) := by
    intro c hc
    have hcell := (readsBack_rawVariant (h c hc)).map RawValue.append
    rwa [append_raw] at hcell
  apply hcount.bind
  rw [hlen, Int.toNat_natCast]
  exact (readsBack_manyParser hcells).map fun cells => (Int64.ofNat t.cols.length, cells)

theorem readsBack_builderStr {s : Bytes} (h : s.length < 2 ^ 63) : ReadsBack readStr (builderStr s) s :=
  readsBack_str h

/-- The lengths in a mutate record are `int`s. -/
structure MutateFits (table key : Bytes) (values : SortedMap Bytes SqlValue) : Prop where
  table : table.length < 2 ^ 63
  key : key.length < 2 ^ 63
  entries : values.entries.length < 2 ^ 63
  names : ∀ e ∈ values.entries, e.1.length < 2 ^ 63
  plain : ∀ e ∈ values.entries, e.2.Plain

theorem readsBack_mutate {table key : Bytes} {values : SortedMap Bytes SqlValue}
    (h : MutateFits table key values) : ReadsBack readMutate (encodeMutate table key values)
      { table := table, key := key, values := fun k => (values.get k).map SqlValue.raw
        isPut := true } := by
  have hentries : ∀ e ∈ values.entries, ReadsBack readMutateEntry
      (builderStr e.1 ++ appendVariant e.2) (e.1, e.2.raw) := fun e he =>
    (readsBack_builderStr (h.names e he)).bind ((readsBack_rawVariant (h.plain e he)).map _)
  have hvalues : recordMap (values.entries.map fun e => (e.1, e.2.raw)) =
      fun k => (values.get k).map SqlValue.raw := by
    ext1 k
    exact (recordMap_of_nodup (values.map SqlValue.raw).nodup_keys k).trans
      (values.get_map SqlValue.raw k)
  rw [← hvalues]
  have hcounted := ReadsBack.counted (k := fun entries => pure
    ({ table := table, key := key, values := recordMap entries, isPut := true } : MutateRecord))
    h.entries hentries (readsBack_pure _)
  rw [List.append_nil] at hcounted
  exact (readsBack_byte _).bind ((readsBack_builderStr h.table).bind ((readsBack_byte 0).bind
    ((readsBack_builderStr h.key).bind hcounted)))

/-- The indexes of the table in the order in which the encoder goes through them, and all the lengths
of the record, which are `int`s. -/
structure TableFits (t : TableRecord) (indexes : List (Bytes × List Int64)) : Prop where
  nodup : (indexes.map Prod.fst).Nodup
  get : ∀ k, SortedMap.getEntry k indexes = t.indexes k
  name : t.name.length < 2 ^ 63
  engine : t.engine.length < 2 ^ 63
  cols : t.cols.length < 2 ^ 63
  colNames : ∀ c ∈ t.cols, c.name.length < 2 ^ 63
  pk : t.pk.length < 2 ^ 63
  count : indexes.length < 2 ^ 63
  indexNames : ∀ ix ∈ indexes, ix.1.length < 2 ^ 63
  indexCols : ∀ ix ∈ indexes, ix.2.length < 2 ^ 63

theorem readsBack_column {c : RawColumn} (h : c.name.length < 2 ^ 63) :
    ReadsBack readColumn (appendColumn c) c :=
  (readsBack_builderStr h).bind ((readsBack_byte c.typ).bind ((readsBack_bool c.notNull).map _))

theorem readsBack_ints {is : List Int64} (h : is.length < 2 ^ 63) :
    ReadsBack readInts (appendInts is) is := by
  have hints := readsBack_manyParser fun i (_ : i ∈ is) => readsBack_var i
  rw [List.map_id'] at hints
  apply (readsBack_var _).bind
  rwa [toInt_ofNat_length h, Int.toNat_natCast]

theorem readsBack_indexEntry {ix : Bytes × List Int64} (hname : ix.1.length < 2 ^ 63)
    (hcols : ix.2.length < 2 ^ 63) :
    ReadsBack readIndexEntry (builderStr ix.1 ++ appendInts ix.2) ix :=
  (readsBack_builderStr hname).bind ((readsBack_ints hcols).map _)

theorem readsBack_createTable {t : TableRecord} {indexes : List (Bytes × List Int64)}
    (h : TableFits t indexes) : ReadsBack readCreateTable (encodeCreateTable t indexes) t := by
  have hindexes : recordMap indexes = t.indexes := by
    ext1 k
    exact (recordMap_of_nodup h.nodup k).trans (h.get k)
  have hcols := fun c hc => readsBack_column (h.colNames c hc)
  have hentries := fun ix hix => readsBack_indexEntry (h.indexNames ix hix) (h.indexCols ix hix)
  have hlast : ReadsBack (readVar >>= fun retention => pure ({
      name := t.name, engine := t.engine, cols := t.cols, pk := t.pk
      indexes := recordMap indexes, retention := retention } : TableRecord))
        (appendVar t.retention) t := by
    have hmap := (readsBack_var t.retention).map fun retention => ({
      name := t.name, engine := t.engine, cols := t.cols, pk := t.pk
      indexes := recordMap indexes, retention := retention } : TableRecord)
    rwa [hindexes] at hmap ⊢
  have hlist := ReadsBack.counted (k := fun indexes => readVar >>= fun retention => pure ({
      name := t.name, engine := t.engine, cols := t.cols, pk := t.pk
      indexes := recordMap indexes, retention := retention } : TableRecord))
    (g := fun ix => ix) h.count hentries (by rwa [List.map_id'])
  have hmiddle := ReadsBack.counted (k := fun cols => readInts >>= fun pk => readVar >>= fun ni =>
      manyParser readIndexEntry ni.toInt.toNat >>= fun indexes => readVar >>= fun retention => pure ({
        name := t.name, engine := t.engine, cols := cols, pk := pk
        indexes := recordMap indexes, retention := retention } : TableRecord))
    (g := fun c => c) h.cols hcols (by
      rw [List.map_id']
      exact (readsBack_ints h.pk).bind hlist)
  exact (readsBack_byte _).bind ((readsBack_builderStr h.name).bind
    ((readsBack_builderStr h.engine).bind hmiddle))

/-! ### Safety and round trips -/

/-- Decoding the rest of a buffer panics. -/
def Panics {α : Type} (m : Decode α) (buf bs : Bytes) : Prop :=
  (m.exec (before buf bs)).1 = .error .panic

/-- The reads and the decoders panic exactly on bytes with an unsound length or count, and what was
encoded is decoded to itself. -/
theorem codecs_right (buf : Bytes) :
    (∀ bs, Rest buf bs →
      (Panics Reader.str buf bs ↔ ¬ StrSound buf.length bs) ∧
      (Panics Reader.bytes buf bs ↔ ¬ StrSound buf.length bs) ∧
      (∀ n, Panics (Reader.take n) buf bs ↔ ¬ TakeSound n buf.length bs) ∧
      (Panics Reader.variant buf bs ↔ ¬ VariantSound buf.length bs)) ∧
    (Rest buf buf →
      (∀ maxCells, Panics (splitRow maxCells) buf buf ↔ ¬ SplitSound maxCells buf.length buf) ∧
      (∀ cols, Panics (decodeRow cols) buf buf ↔ ¬ RowSound cols.length buf.length buf) ∧
      (Panics unmarshalMutate buf buf ↔ ¬ MutateSound buf.length buf) ∧
      (Panics unmarshalCreateTable buf buf ↔ ¬ CreateTableSound buf.length buf)) ∧
    (∀ t vals, RowOf t vals → (t.rowBlob vals).length < 2 ^ 63 →
      ((decodeRow (t.cols.map ColInfo.name)).exec (makeReader (t.rowBlob vals))).1 =
        .ok (fun name => (vals name).map SqlValue.raw) ∧
      (∀ maxCells, t.cols.length ≤ maxCells →
        ((splitRow maxCells).exec (makeReader (t.rowBlob vals))).1 =
          .ok (.ofNat t.cols.length, t.cellBlobs vals)) ∧
      joinRow (t.cellBlobs vals) = t.rowBlob vals) ∧
    (∀ table key values, MutateFits table key values →
      (encodeMutate table key values).length < 2 ^ 63 →
      (unmarshalMutate.exec (makeReader (encodeMutate table key values))).1 =
        .ok { table := table, key := key, values := fun k => (values.get k).map SqlValue.raw
              isPut := true }) ∧
    ∀ t indexes, TableFits t indexes → (encodeCreateTable t indexes).length < 2 ^ 63 →
      (unmarshalCreateTable.exec (makeReader (encodeCreateTable t indexes))).1 = .ok t := by
  refine ⟨?_, ?_, ?_, ?_, ?_⟩
  · intro bs h
    exact ⟨(follows_readStr .stringOutOfRange).panics_iff h,
      (follows_readStr .bytesOutOfRange).panics_iff h,
      fun n => (follows_take CodecError.takeOutOfRange n).panics_iff h,
      follows_rawVariant.panics_iff h⟩
  · intro h
    exact ⟨fun maxCells => (follows_splitRow maxCells).panics_iff h,
      fun cols => (follows_decodeRow cols).panics_iff h,
      follows_unmarshalMutate.panics_iff h, follows_unmarshalCreateTable.panics_iff h⟩
  · intro t vals h hlen
    have hrow := decodes (follows_decodeRow _) (readsBack_decodedRow h.plain h.cols) hlen
    rw [funext h.eq] at hrow
    exact ⟨hrow, fun maxCells hmax =>
      decodes (follows_splitRow maxCells) (readsBack_splitRow h.plain hmax h.cols) hlen,
      (t.rowBlob_eq vals).symm⟩
  · intro table key values h hlen
    exact decodes follows_unmarshalMutate (readsBack_mutate h) hlen
  · intro t indexes h hlen
    exact decodes follows_unmarshalCreateTable (readsBack_createTable h) hlen

theorem codecs_right_one : ((decodeRow [ascii "a"]).exec (makeReader [2, 0, 0, 10])).1 =
    .ok fun name => (if name = ascii "a" then some { typ := .int, i := 5 } else none :
      Option SqlValue).map SqlValue.raw :=
  ((codecs_right []).2.2.1
    { cols := [⟨ascii "a", .int, true⟩], pk := [0], indexes := .empty, engine := .table
      retention := 0 }
    (fun name => if name = ascii "a" then some { typ := .int, i := 5 } else none)
    { names := fun name => by
        by_cases h : name = ascii "a" <;> simp [h]
      plain := fun c hc => by
        obtain rfl := List.mem_singleton.mp hc
        exact ⟨rfl, by decide⟩
      cols := by decide }
    (by decide +kernel)).1

/-- Four bytes give a row whose one cell is a string of length -1. -/
theorem codecs_panic_negative :
    Panics (splitRow 8) [1] [1] ∧ Panics (splitRow 8) [2, 2, 0, 1] [2, 2, 0, 1] ∧
      Panics (decodeRow [ascii "a"]) [2, 2, 0, 1] [2, 2, 0, 1] ∧
      Panics unmarshalMutate [3, 1] [3, 1] ∧ Panics unmarshalCreateTable [1, 1] [1, 1] :=
  ⟨rfl, rfl, rfl, rfl, rfl⟩

end Ydbgo.Storage.Codec
