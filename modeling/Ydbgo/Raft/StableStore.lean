import Mathlib.Data.List.AList
import Mathlib.Data.List.Sort
import Ydbgo.Lib.BigEndian
import Ydbgo.Lib.Writes

/-! # The raft stable store

The store mirrors a map of byte strings into one file, rewritten on each set.
The file separates a key from its value by a NUL and nothing from the next
key, so it gives back at most one pair.
-/

namespace Ydbgo.Raft

structure FileStableStore where
  data : AList fun _ : Bytes => Bytes
  file : Bytes

/-- The loop of `newFileStableStore` over the NUL-separated pieces of the file. -/
def loadPairs : List Bytes → (AList fun _ : Bytes => Bytes) → AList fun _ : Bytes => Bytes
  | k :: v :: entries, data => loadPairs entries (data.insert k v)
  | _, data => data

/-- Opening a store on the bytes of its file, empty for a fresh directory. -/
def newFileStableStore (raw : Bytes) : FileStableStore :=
  { data := loadPairs (raw.splitOn 0) ∅, file := raw }

def FileStableStore.persist (s : FileStableStore) : FileStableStore :=
  let keys := s.data.keys.insertionSort (· ≤ ·)
  { s with file := keys.flatMap fun k => k ++ 0 :: (s.data.lookup k).getD [] }

def FileStableStore.set (s : FileStableStore) (key val : Bytes) : FileStableStore :=
  { s with data := s.data.insert key val }.persist

/-- `none` is the nil slice, returned for a key that is not there. -/
def FileStableStore.get (s : FileStableStore) (key : Bytes) : Option Bytes := s.data.lookup key

def FileStableStore.setUint64 (s : FileStableStore) (key : Bytes) (val : UInt64) :
    FileStableStore :=
  s.set key (beBytes 8 val.toNat)

/-- The first eight bytes of a value, read big-endian; 0 for a shorter one. -/
def uint64Of (v : Bytes) : UInt64 := if v.length < 8 then 0 else .ofNat (beNat (v.take 8))

def FileStableStore.getUint64 (s : FileStableStore) (key : Bytes) : UInt64 :=
  uint64Of ((s.get key).getD [])

inductive StableOp where
  | set (key val : Bytes)
  | setUint64 (key : Bytes) (val : UInt64)
  deriving DecidableEq, Repr

def StableOp.key : StableOp → Bytes
  | .set key _ => key
  | .setUint64 key _ => key

/-- The bytes a call stores. -/
def StableOp.value : StableOp → Bytes
  | .set _ val => val
  | .setUint64 _ val => beBytes 8 val.toNat

/-- What `GetUint64` owes the caller after a call. -/
def StableOp.uint64 : StableOp → UInt64
  | .set _ val => uint64Of val
  | .setUint64 _ val => val

def FileStableStore.apply (s : FileStableStore) : StableOp → FileStableStore
  | .set key val => s.set key val
  | .setUint64 key val => s.setUint64 key val

/-- A run of calls on a store opened in a fresh directory. -/
def runStable (ops : List StableOp) : FileStableStore :=
  ops.foldl FileStableStore.apply (newFileStableStore [])

/-- The last call to write each key. -/
def lastWrite (ops : List StableOp) : Bytes → Option StableOp :=
  Writes.apply (fun _ => none) (ops.map fun op => (op.key, some op))

/-- After reopening, every key reads as it was last written. -/
def StableDurable (ops : List StableOp) : Prop :=
  let s := newFileStableStore (runStable ops).file
  ∀ key, s.get key = (lastWrite ops key).map StableOp.value ∧
    s.getUint64 key = ((lastWrite ops key).map StableOp.uint64).getD 0

end Ydbgo.Raft
