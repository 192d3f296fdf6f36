import Mathlib.Data.List.AList
import Ydbgo.Kv.Store

/-! # Transactions of the columnar and byte-KV engines

A transaction buffers its writes over a versioned store and reads through
them. Its scans merge the committed range with the buffered writes; each scan
is the list of its callbacks, for callbacks that never fail.
-/

namespace Ydbgo.Storage

/-- An uncommitted write. -/
structure Pending where
  value : Bytes
  del : Bool
  deriving DecidableEq, Repr

/-- The state `kvTx` and `cstoreTx` share. A transaction with a snapshot is read-only. -/
structure Tx where
  store : Kv.Store
  overlay : AList fun _ : Bytes => Pending
  ops : List Kv.Op
  snap : Option Kv.Store

def Tx.begin (store : Kv.Store) : Tx := { store, overlay := ∅, ops := [], snap := none }

def Tx.put (t : Tx) (key value : Bytes) : Tx :=
  { t with overlay := t.overlay.insert key ⟨value, false⟩, ops := t.ops ++ [.put key value] }

def Tx.del (t : Tx) (key : Bytes) : Tx :=
  { t with overlay := t.overlay.insert key ⟨[], true⟩, ops := t.ops ++ [.del key] }

/-- A write a transaction buffers. -/
inductive Mutation where
  | put (key value : Bytes)
  | del (key : Bytes)
  deriving DecidableEq, Repr

def Mutation.op : Mutation → Kv.Op
  | .put key value => .put key value
  | .del key => .del key

def Tx.buffer (t : Tx) : Mutation → Tx
  | .put key value => t.put key value
  | .del key => t.del key

/-- A transaction on a store that has buffered some writes. -/
def Tx.after (s : Kv.Store) (ms : List Mutation) : Tx := ms.foldl Tx.buffer (Tx.begin s)

/-! ## The merge of a committed range with buffered writes -/

/-- The keys met so far, in the order met, and the live values under them. -/
structure Merge where
  ordered : List Bytes
  vals : AList fun _ : Bytes => Bytes

/-- One visit of the committed range. -/
def Merge.visit (m : Merge) (v : Bytes × Bytes × Bool) : Merge :=
  let (key, val, deleted) := v
  if deleted then m else { ordered := m.ordered ++ [key], vals := m.vals.insert key val }

/-- One buffered write: a delete takes the value away and leaves the key in `ordered`. -/
def Merge.buffered (lower upper : Bytes) (m : Merge) (op : Kv.Op) : Merge :=
  if op.key < lower ∨ upper ≤ op.key then m
  else if op.delete then { m with vals := m.vals.erase op.key }
  else
    { ordered := if op.key ∈ m.vals then m.ordered else m.ordered ++ [op.key]
      vals := m.vals.insert op.key op.value }

def merge (visits : List (Bytes × Bytes × Bool)) (lower upper : Bytes) (ops : List Kv.Op) : Merge :=
  ops.foldl (Merge.buffered lower upper) (visits.foldl Merge.visit ⟨[], ∅⟩)

/-- The callbacks after the merge: a key without a value comes with the nil slice. -/
def Merge.emit (m : Merge) (keys : List Bytes) : List (Bytes × Bytes) :=
  keys.map fun k => (k, (m.vals.lookup k).getD [])

/-- `sort.Strings`. -/
def sortStrings (keys : List Bytes) : List Bytes := keys.insertionSort (· ≤ ·)

/-! ## The columnar engine -/

namespace CstoreTx

def eachOverlay (t : Tx) (lower upper : Bytes) : List (Bytes × Bytes) :=
  let m := merge (t.store.range (some lower) (some upper)) lower upper t.ops
  m.emit (sortStrings m.ordered)

def each (t : Tx) (lower upper : Bytes) : List (Bytes × Bytes) :=
  if t.ops = [] then
    match t.snap with
    | some snap => Kv.liveVisits (snap.range (some lower) (some upper))
    | none => Kv.liveVisits (t.store.range (some lower) (some upper))
  else eachOverlay t lower upper

def eachNoCopy (t : Tx) (lower upper : Bytes) : List (Bytes × Bytes) :=
  if t.ops = [] then
    match t.snap with
    | some snap => Kv.liveVisits (snap.range (some lower) (some upper))
    | none => Kv.liveVisits (t.store.range (some lower) (some upper))
  else eachOverlay t lower upper

/-- `none` when the descending range does not end. -/
def eachDesc (t : Tx) (lower upper : Bytes) : Option (List (Bytes × Bytes)) :=
  if t.ops = [] then (t.store.rangeDesc (some lower) (some upper)).map Kv.liveVisits
  else
    let m := merge (t.store.range (some lower) (some upper)) lower upper t.ops
    some (m.emit (sortStrings m.ordered).reverse)

/-- `'r' 00 table 00`. -/
def rowPrefix (table : Bytes) : Bytes := [114, 0] ++ table ++ [0]

/-- `b[len(b)-1]++`. -/
def bumpLast : Bytes → Bytes
  | [] => []
  | [x] => [x + 1]
  | x :: y :: b => x :: bumpLast (y :: b)

/-- The key range of the rows of a table within `[plLower, plUpper)`, empty for unbounded. -/
def rowBounds (table plLower plUpper : Bytes) : Bytes × Bytes :=
  (if plLower = [] then rowPrefix table else rowPrefix table ++ plLower,
    if plUpper = [] then bumpLast (rowPrefix table) else rowPrefix table ++ plUpper)

def colRowCountRange (t : Tx) (table plLower plUpper : Bytes) : ℕ :=
  if plLower ≠ [] ∧ plUpper ≠ [] ∧ plUpper ≤ plLower then 0
  else
    let (lower, upper) := rowBounds table plLower plUpper
    match t.snap with
    | some snap => snap.rangeCount (some lower) (some upper)
    | none =>
      if t.ops = [] then t.store.rangeCount (some lower) (some upper)
      else (eachNoCopy t lower upper).length

end CstoreTx

/-! ## The byte-KV engine -/

namespace KvTx

def each (t : Tx) (lower upper : Bytes) : List (Bytes × Bytes) :=
  let visits := match t.snap with
    | some snap => snap.range (some lower) (some upper)
    | none => t.store.range (some lower) (some upper)
  let m := merge visits lower upper t.ops
  m.emit (sortStrings m.ordered)

end KvTx

/-- Committing applies the buffered writes at the next revision. -/
def Tx.commit (t : Tx) : Except Kv.Error Kv.Store := t.store.apply 0 t.ops

end Ydbgo.Storage
