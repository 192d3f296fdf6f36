import Mathlib.Data.List.AList
import Mathlib.Data.List.Sort
import Ydbgo.Lib.BigEndian
import Ydbgo.Lib.Journal

/-! # The raft log store

The store mirrors an append-only file of log entries into a map. Storing
appends entries, deleting a range rewrites the file from the map, and opening
replays the file into a fresh map.
-/

namespace Ydbgo.Raft

structure Log where
  index : UInt64
  term : UInt64
  type : UInt8
  data : Bytes
  extensions : Bytes
  deriving DecidableEq, Repr

inductive LogError where
  | eof
  | unexpectedEOF
  | corruptDataLength
  | corruptExtensionLength
  | logNotFound
  deriving DecidableEq, Repr

def LogError.text : LogError → String
  | .eof => "EOF"
  | .unexpectedEOF => "unexpected EOF"
  | .corruptDataLength => "corrupt log: data length"
  | .corruptExtensionLength => "corrupt log: extension length"
  | .logNotFound => "log not found"

/-! ## Entries on disk -/

/-- One shift of the reflected CRC-32 register. -/
def crcShift (c : UInt32) : UInt32 :=
  if c &&& 1 = 1 then (c >>> 1) ^^^ 0xEDB88320 else c >>> 1

/-- The IEEE CRC-32 of a byte string, bit by bit. -/
def checksumIEEE (bs : Bytes) : UInt32 :=
  ~~~ (bs.foldl (fun c b => crcShift^[8] (c ^^^ b.toUInt32)) 0xFFFFFFFF)

def appendLogEntry (l : Log) : Bytes :=
  let b := beBytes 8 l.index.toNat ++ beBytes 4 l.type.toNat ++
    beBytes 4 l.data.length ++ l.data ++
    if 0 < l.extensions.length then beBytes 4 l.extensions.length ++ l.extensions
    else beBytes 4 0
  b ++ beBytes 4 (checksumIEEE b).toNat

/-- `binary.Read` of a `w`-byte unsigned integer. -/
def readBE (w : ℕ) (r : Bytes) : Except LogError (ℕ × Bytes) :=
  if r = [] then .error .eof
  else if r.length < w then .error .unexpectedEOF
  else .ok (beNat (r.take w), r.drop w)

/-- `r.Read` into a fresh buffer of `n` bytes: a short read leaves zeros at its end. -/
def readBuf (n : ℕ) (r : Bytes) : Except LogError (Bytes × Bytes) :=
  if r = [] then .error .eof
  else .ok (r.take n ++ List.replicate (n - r.length) 0, r.drop n)

/-- The entry on disk has no term; the checksum is read and not compared. -/
def readLogEntry (r : Bytes) : Except LogError (Log × Bytes) := do
  let (index, r) ← readBE 8 r
  let (typ, r) ← readBE 4 r
  let (dlen, r) ← readBE 4 r
  if dlen > 2 ^ 30 then throw .corruptDataLength
  let (data, r) ← readBuf dlen r
  let (elen, r) ← readBE 4 r
  if elen > 2 ^ 30 then throw .corruptExtensionLength
  let (extensions, r) ← readBuf elen r
  let (_, r) ← readBE 4 r
  return ({ index := .ofNat index, term := 0, type := .ofNat typ, data, extensions }, r)

/-! ## The store -/

structure FileLogStore where
  logs : AList fun _ : UInt64 => Log
  xmin : UInt64
  file : Bytes

/-- One round of the loop of `load`. -/
def loadEntry (s : FileLogStore) (log : Log) : FileLogStore :=
  { s with
    logs := s.logs.insert log.index log
    xmin := if log.index > s.xmin then log.index + 1 else s.xmin }

/-- Opening a store on the bytes of its file, empty for a fresh directory. -/
def newFileLogStore (file : Bytes) : Except LogError FileLogStore :=
  Journal.scan readLogEntry loadEntry file.length file { logs := ∅, xmin := 1, file }

def FileLogStore.firstIndex (s : FileLogStore) : UInt64 :=
  let (first, found) := s.logs.keys.foldl
    (fun (first, found) i => if !found || i < first then (i, true) else (first, found)) (1, false)
  if !found then 0 else first

def FileLogStore.lastIndex (s : FileLogStore) : UInt64 :=
  s.logs.keys.foldl (fun last i => if i > last then i else last) 0

def FileLogStore.getLog (s : FileLogStore) (index : UInt64) : Except LogError Log :=
  match s.logs.lookup index with
  | none => .error .logNotFound
  | some l => .ok l

def FileLogStore.storeLog (s : FileLogStore) (l : Log) : FileLogStore :=
  { logs := s.logs.insert l.index l
    xmin := if l.index ≥ s.xmin then l.index + 1 else s.xmin
    file := s.file ++ appendLogEntry l }

def FileLogStore.storeLogs (s : FileLogStore) (logs : List Log) : FileLogStore :=
  logs.foldl storeLog s

/-- The loop of `DeleteRange` for at most `fuel` rounds; `none` when it is still going. -/
def deleteLoop : ℕ → UInt64 → UInt64 → (AList fun _ : UInt64 => Log) →
    Option (AList fun _ : UInt64 => Log)
  | 0, _, _, _ => none
  | fuel + 1, i, max, logs =>
    if i ≤ max then deleteLoop fuel (i + 1) max (logs.erase i) else some logs

def FileLogStore.rewrite (s : FileLogStore) : FileLogStore :=
  let indexes := s.logs.keys.insertionSort (· ≤ ·)
  { s with file := indexes.flatMap fun i => ((s.logs.lookup i).map appendLogEntry).getD [] }

/-- `none` when the loop does not end: `i <= max` always holds for the largest `max`. -/
def FileLogStore.deleteRange (s : FileLogStore) (min max : UInt64) : Option FileLogStore :=
  (deleteLoop (max.toNat - min.toNat + 2) min max s.logs).map fun logs =>
    { s with logs }.rewrite

/-- The calls raft issues. -/
inductive LogOp where
  | storeLogs (logs : List Log)
  | deleteRange (min max : UInt64)
  deriving DecidableEq, Repr

def FileLogStore.apply (s : FileLogStore) : LogOp → Option FileLogStore
  | .storeLogs logs => some (s.storeLogs logs)
  | .deleteRange min max => s.deleteRange min max

/-- A run of calls on a store opened in a fresh directory. -/
def runLog (ops : List LogOp) : Option FileLogStore :=
  ops.foldlM FileLogStore.apply { logs := ∅, xmin := 1, file := [] }

end Ydbgo.Raft
