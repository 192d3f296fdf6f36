import Ydbgo.Lib.BigEndian
import Ydbgo.Lib.SortedMap

/-! # The versioned byte store

Every version of a key is one entry of an ordered byte map, under the key, a
NUL and the complement of its revision, so that the newest version of a key
is the first of its group. Reads are made at the last revision or at any other.
-/

namespace Ydbgo.Kv

def dataTag : UInt8 := 1
def flagLive : UInt8 := 1
def flagTomb : UInt8 := 0

def revSuffix (rev : UInt64) : Bytes := beBytes 8 (~~~rev).toNat

/-- The physical key of one version. -/
def dataKey (key : Bytes) (rev : UInt64) : Bytes := dataTag :: (key ++ 0 :: revSuffix rev)

/-- The exclusive upper bound of all versions of a key. -/
def dataUpper (key : Bytes) : Bytes := dataTag :: (key ++ [1])

def extractKey (dk : Bytes) : Bytes := (dk.drop 1).take (dk.length - 10)

/-- The revision in a physical key. -/
def revOf (dk : Bytes) : UInt64 := ~~~UInt64.ofNat (beNat (dk.drop (dk.length - 8)))

/-- A mutation to apply at a revision. -/
structure Op where
  key : Bytes
  value : Bytes
  delete : Bool
  deriving DecidableEq, Repr

def Op.put (key value : Bytes) : Op := { key, value, delete := false }
def Op.del (key : Bytes) : Op := { key, value := [], delete := true }

/-- The stored form of a mutation. -/
def Op.version (op : Op) : Bytes := if op.delete then [flagTomb] else flagLive :: op.value

/-- An ordered byte map of versions no newer than `last`. -/
structure Store where
  db : SortedMap Bytes Bytes
  last : UInt64
  versions : ∀ e ∈ db.entries, ∃ key rev, e.1 = dataKey key rev ∧ 0 < rev ∧ rev ≤ last

def Store.empty : Store := ⟨SortedMap.empty, 0, by simp [SortedMap.empty]⟩

inductive Error where
  | revRegress
  deriving DecidableEq, Repr

def Error.text : Error → String
  | .revRegress => "kv: revision not greater than last applied"

/-- The batch of `applyLocked`. -/
def batch (rev : UInt64) (ops : List Op) (db : SortedMap Bytes Bytes) : SortedMap Bytes Bytes :=
  ops.foldl (fun db op => db.insert (dataKey op.key rev) op.version) db

theorem versions_batch {rev last : UInt64} (h0 : last < rev) {ops : List Op}
    {db : SortedMap Bytes Bytes}
    (h : ∀ e ∈ db.entries, ∃ key r, e.1 = dataKey key r ∧ 0 < r ∧ r ≤ rev) :
    ∀ e ∈ (batch rev ops db).entries, ∃ key r, e.1 = dataKey key r ∧ 0 < r ∧ r ≤ rev := by
  induction ops generalizing db with
  | nil => exact h
  | cons op ops ih =>
    refine ih fun e he => ?_
    rcases SortedMap.mem_insertEntry he with rfl | he
    · refine ⟨op.key, rev, rfl, ?_, UInt64.le_refl rev⟩
      rw [UInt64.lt_iff_toNat_lt] at h0 ⊢
      exact lt_of_le_of_lt (Nat.zero_le _) h0
    · exact h e he

/-- The batch written at a revision above the last. -/
def Store.applyAt (s : Store) (rev : UInt64) (ops : List Op) : Except Error Store :=
  if h : s.last < rev then
    .ok
      { db := batch rev ops s.db
        last := rev
        versions := versions_batch h fun e he =>
          let ⟨key, r, hk, h0, hr⟩ := s.versions e he
          ⟨key, r, hk, h0, UInt64.le_trans hr (UInt64.le_of_lt h)⟩ }
  else .error .revRegress

/-- Revision 0 stands for the next one. -/
def Store.apply (s : Store) (rev : UInt64) (ops : List Op) : Except Error Store :=
  if ops = [] then .ok s else s.applyAt (if rev = 0 then s.last + 1 else rev) ops

/-! ## Reads at the last revision -/

/-- The payload of a stored version and whether it is a tombstone. -/
def visible (val : Bytes) : Bytes × Bool :=
  match val with
  | [] => ([], true)
  | flag :: payload => if flag = flagTomb then ([], true) else (payload, false)

/-- The entries an iterator over `[lower, upper)` visits. -/
def bounded (db : SortedMap Bytes Bytes) (start stop : Option Bytes) : List (Bytes × Bytes) :=
  let lower := dataTag :: (match start with
    | none => []
    | some b => b ++ [0])
  db.entries.filter fun e => decide (lower ≤ e.1) && match stop with
    | none => true
    | some b => decide (e.1 < dataUpper b)

/-- An inverted or empty pair of bounds. -/
def inverted (start stop : Option Bytes) : Bool :=
  match start, stop with
  | some a, some b => decide (b ≤ a)
  | _, _ => false

/-- At or past the end of the range. -/
def past (stop : Option Bytes) (raw : Bytes) : Bool :=
  match stop with
  | none => false
  | some b => decide (b ≤ raw)

/-- The loop of `rangeIter`: one visit for the newest version of each key, the older versions of
`prev` skipped. -/
def rangeLoop (stop : Option Bytes) : Option Bytes → List (Bytes × Bytes) →
    List (Bytes × Bytes × Bool)
  | _, [] => []
  | prev, (dk, val) :: it =>
    let raw := extractKey dk
    if prev = some raw then rangeLoop stop prev it
    else if past stop raw then []
    else (raw, visible val) :: rangeLoop stop (some raw) it

/-- The visits of `Range` and `RangeNoCopy`: key, value and tombstone mark. -/
def Store.range (s : Store) (start stop : Option Bytes) : List (Bytes × Bytes × Bool) :=
  if inverted start stop then [] else rangeLoop stop none (bounded s.db start stop)

/-- The live keys of a list of visits, with their values. -/
def liveVisits (vs : List (Bytes × Bytes × Bool)) : List (Bytes × Bytes) :=
  vs.filterMap fun v => if v.2.2 then none else some (v.1, v.2.1)

/-- The loop of `rangeCount`. -/
def countLoop (stop : Option Bytes) : Option Bytes → List (Bytes × Bytes) → ℕ
  | _, [] => 0
  | prev, (dk, val) :: it =>
    let raw := extractKey dk
    if prev = some raw then countLoop stop prev it
    else if past stop raw then 0
    else (if (visible val).2 then 0 else 1) + countLoop stop (some raw) it

def Store.rangeCount (s : Store) (start stop : Option Bytes) : ℕ :=
  if inverted start stop then 0 else countLoop stop none (bounded s.db start stop)

/-- The entries from the last one strictly below the group of `raw`, downwards. -/
def belowGroup (es : List (Bytes × Bytes)) (raw : Bytes) : List (Bytes × Bytes) :=
  (es.filter fun e => decide (e.1 < dataKey raw 0)).reverse.dropWhile
    fun e => decide (extractKey e.1 = raw)

/-- The loop of `RangeDesc` for at most `fuel` rounds over the bounded entries `es`, at the first
entry of the last argument; `none` when it is still going. -/
def descLoop (last : UInt64) (start stop : Option Bytes) (es : List (Bytes × Bytes)) :
    ℕ → List (Bytes × Bytes) → Option (List (Bytes × Bytes × Bool))
  | _, [] => some []
  | 0, _ :: _ => none
  | fuel + 1, (dk, _) :: _ =>
    let raw := extractKey dk
    if start.any fun b => decide (raw < b) then some []
    else if past stop raw then descLoop last start stop es fuel (belowGroup es raw)
    else
      match es.dropWhile fun e => decide (e.1 < dataKey raw last) with
      | [] => descLoop last start stop es fuel (belowGroup es raw)
      | (dk', val) :: _ =>
        if extractKey dk' = raw then
          (descLoop last start stop es fuel (belowGroup es raw)).map ((raw, visible val) :: ·)
        else descLoop last start stop es fuel (belowGroup es raw)

def Store.rangeDesc (s : Store) (start stop : Option Bytes) :
    Option (List (Bytes × Bytes × Bool)) :=
  if inverted start stop then some []
  else
    let es := bounded s.db start stop
    descLoop s.last start stop es es.length es.reverse

/-! ## Reads at any revision -/

/-- Revision 0 reads at the last one. -/
def Store.effective (s : Store) (rev : UInt64) : UInt64 := if rev = 0 then s.last else rev

/-- The value of a key as of a revision. -/
def Store.get (s : Store) (rev : UInt64) (key : Bytes) : Option Bytes :=
  let R := s.effective rev
  match s.db.entries.find? fun e => decide (dataKey key R ≤ e.1) && decide (e.1 < dataUpper key) with
  | none => none
  | some (dk, val) =>
    if extractKey dk = key then
      match visible val with
      | (_, true) => none
      | (payload, false) => some payload
    else none

/-- The loop of `rangeIter` away from the last revision, for at most `fuel` rounds over the bounded
entries `es`, at the first entry of the last argument; `none` when it is still going. -/
def seekLoop (R : UInt64) (stop : Option Bytes) (es : List (Bytes × Bytes)) :
    ℕ → List (Bytes × Bytes) → Option (List (Bytes × Bytes × Bool))
  | _, [] => some []
  | 0, _ :: _ => none
  | fuel + 1, (dk, _) :: _ =>
    let raw := extractKey dk
    if past stop raw then some []
    else
      match es.dropWhile fun e => decide (e.1 < dataKey raw R) with
      | [] => some []
      | (dk', val) :: it =>
        if extractKey dk' = raw then
          (seekLoop R stop es fuel (es.dropWhile fun e => decide (e.1 < dataUpper raw))).map
            ((raw, visible val) :: ·)
        else seekLoop R stop es fuel ((dk', val) :: it)

/-- The visits of `Range` and `RangeNoCopy` at a revision. -/
def Store.rangeAt (s : Store) (rev : UInt64) (start stop : Option Bytes) :
    Option (List (Bytes × Bytes × Bool)) :=
  if inverted start stop then some []
  else
    let es := bounded s.db start stop
    let R := s.effective rev
    if R = s.last then some (rangeLoop stop none es) else seekLoop R stop es es.length es

/-- The visits of `RangeDesc` at a revision. -/
def Store.rangeDescAt (s : Store) (rev : UInt64) (start stop : Option Bytes) :
    Option (List (Bytes × Bytes × Bool)) :=
  if inverted start stop then some []
  else
    let es := bounded s.db start stop
    descLoop (s.effective rev) start stop es es.length es.reverse

end Ydbgo.Kv
