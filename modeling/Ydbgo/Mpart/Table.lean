import Ydbgo.Mpart.Merge

/-! # A table and its maintenance

The share of one table in an `mpartStore`. Transactions fold their rows into the
rows in memory, and a full memory becomes a part in the same commit. In the
background an idle memory is written to a part, and parts are merged. Both read
under the lock, write without it, and publish under it again.
-/

namespace Ydbgo.Mpart

variable {n : ℕ}

/-- The constants of the store. -/
structure Limits where
  flushThreshold : ℕ
  idleFlushMinRows : ℕ
  mergeChunk : ℕ
  chunk_pos : 0 < mergeChunk

/-- `mpartFlushThreshold`, `mpartIdleFlushMinRows` and `mpartMergeChunk`. -/
def mpartLimits : Limits := ⟨65536, 4096, 1048576, by decide⟩

/-! ### State -/

/-- A row object in memory. Two rows of a key are the same object if the same commit wrote them. -/
structure StampedRow (n : ℕ) where
  stamp : ℕ
  row : Row n
  deriving DecidableEq

abbrev MemRows (n : ℕ) : Type := SortedMap Bytes (StampedRow n)

/-- The rows of a part, by their keys. -/
abbrev PartRows (n : ℕ) : Type := SortedMap Bytes (Row n)

/-- A `memPart` of the store. The `id` tells the objects apart. -/
structure MemPart (n : ℕ) where
  id : ℕ
  rows : MemRows n := .empty
  hint : List (Bytes × Row n) := []
  sealing : Bool := false

/-- The `memPart` of a transaction. -/
structure Overlay (n : ℕ) where
  rows : PartRows n := .empty
  hint : List (Bytes × Row n) := []

structure MpartTx (n : ℕ) where
  overlay : Option (Overlay n) := none
  cleared : Bool := false
  delta : ℤ := 0

structure FlushJob (n : ℕ) where
  mp : ℕ
  rows : MemRows n
  id : ℕ

/-- What `compactTable` has read, and the first number of its new parts once it has reserved them. -/
structure Merge (n : ℕ) where
  oldParts : SortedMap ℕ (PartRows n)
  memRows : MemRows n
  oldCount : ℤ
  startID : Option ℕ := none

/-- A table with the write transaction that is open, and the jobs and merges on their way. Parts
have distinct numbers, so the slice ordered by them is a map. -/
structure Table (n : ℕ) where
  mem : Option (MemPart n) := none
  parts : SortedMap ℕ (PartRows n) := .empty
  count : ℤ := 0
  nextID : ℕ := 0
  commits : ℕ := 0
  memParts : ℕ := 0
  tx : Option (MpartTx n) := none
  jobs : List (FlushJob n) := []
  merges : List (Merge n) := []

def Table.memRows (t : Table n) : MemRows n := (t.mem.map MemPart.rows).getD .empty

def partList (parts : SortedMap ℕ (PartRows n)) : List (Part n) :=
  parts.entries.map fun e => ⟨e.1, e.2⟩

theorem distinct_partList (parts : SortedMap ℕ (PartRows n)) :
    ((partList parts).map Part.seq).Nodup := by
  have hkeys : (partList parts).map Part.seq = parts.keys := List.map_map
  rw [hkeys]
  exact parts.nodup_keys

/-! ### Reads -/

def Row.isPut : Row n → Bool
  | .put _ => true
  | .del => false

def MpartTx.row (x : MpartTx n) (key : Bytes) : Option (Row n) := x.overlay.bind (·.rows.get key)

/-- The versions of a key in the parts, the newest first. -/
def Table.partVersions (t : Table n) (key : Bytes) : List (Row n) :=
  t.parts.entries.reverse.filterMap (·.2.get key)

/-- Part searches are taken as they are proved elsewhere: a part finds the row of a key. -/
def Table.rowExists (t : Table n) (x : MpartTx n) (key : Bytes) : Bool :=
  match x.row key with
  | some r => r.isPut
  | none =>
    if x.cleared then false
    else
      match t.memRows.get key with
      | some r => r.row.isPut
      | none => (t.partVersions key).head?.any Row.isPut

/-- The loop of `lookup` over the parts, with the cells found so far. -/
def lookupParts : Option (Cells n) → List (Row n) → Option (Cells n)
  | found, [] => found
  | none, .del :: _ => none
  | none, .put cells :: older =>
    if hasEmptyCell cells then lookupParts (some cells) older else some cells
  | some cells, .del :: older => lookupParts (some cells) older
  | some cells, .put src :: older =>
    let cells := fillEmptyCells cells src
    if hasEmptyCell cells then lookupParts (some cells) older else some cells

/-- The memory first, where a tombstone ends the search. -/
def Table.lookupCommitted (t : Table n) (found : Option (Cells n)) (key : Bytes) :
    Option (Cells n) :=
  match t.memRows.get key with
  | none => lookupParts found (t.partVersions key)
  | some ⟨_, .del⟩ => found
  | some ⟨_, .put src⟩ =>
    let cells := match found with
      | none => src
      | some cells => fillEmptyCells cells src
    if hasEmptyCell cells then lookupParts (some cells) (t.partVersions key) else some cells

/-- The live cells of a key. -/
def Table.lookup (t : Table n) (x : MpartTx n) (key : Bytes) : Option (Cells n) :=
  match x.row key with
  | some .del => none
  | some (.put cells) =>
    if hasEmptyCell cells then
      if x.cleared then some cells else t.lookupCommitted (some cells) key
    else some cells
  | none => if x.cleared then none else t.lookupCommitted none key

/-- What a transaction walks over. -/
def Table.view (t : Table n) (x : MpartTx n) : View n where
  parts := partList t.parts
  distinct := distinct_partList t.parts
  mem := t.memRows.map StampedRow.row
  overlay := x.overlay.map Overlay.rows
  cleared := x.cleared

/-- `countFor`, the live count with the changes of a transaction. -/
def Table.countFor (t : Table n) (x : MpartTx n) : ℤ :=
  if x.cleared then x.delta else t.count + x.delta

/-! ### Transactions -/

/-- `rowPutCellsCheckCount`: `rowPutCells` checks, `rowPutCellsNoCount` does not. -/
def MpartTx.rowPutCells (x : MpartTx n) (t : Table n) (check : Bool) (key : Bytes)
    (cells : Cells n) : MpartTx n :=
  let ov := x.overlay.getD {}
  { x with
    delta := if check && !t.rowExists x key then x.delta + 1 else x.delta
    overlay := some
      { rows := ov.rows.insert key (.put cells)
        hint := if (ov.rows.get key).isNone then ov.hint ++ [(key, .put cells)] else [] } }

/-- The hint is left as it is. -/
def MpartTx.rowDelete (x : MpartTx n) (t : Table n) (key : Bytes) : MpartTx n :=
  let ov := x.overlay.getD {}
  { x with
    delta := if t.rowExists x key then x.delta - 1 else x.delta
    overlay := some { ov with rows := ov.rows.insert key .del } }

def MpartTx.rowDeleteAll (_ : MpartTx n) : MpartTx n := { cleared := true }

inductive TxOp (n : ℕ) where
  | put (check : Bool) (key : Bytes) (cells : Cells n)
  | delete (key : Bytes)
  | deleteAll

def TxOp.apply (t : Table n) (x : MpartTx n) : TxOp n → MpartTx n
  | put check key cells => x.rowPutCells t check key cells
  | delete key => x.rowDelete t key
  | deleteAll => x.rowDeleteAll

/-- A row of a transaction over the row in memory. -/
def foldRow : Option (StampedRow n) → Row n → Row n
  | some ⟨_, .put src⟩, .put cells => .put (fillEmptyCells cells src)
  | _, r => r

def foldRows (stamp : ℕ) (mem : MemRows n) (rows : PartRows n) : MemRows n :=
  rows.entries.foldl (fun m e => m.insert e.1 ⟨stamp, foldRow (m.get e.1) e.2⟩) mem

instance instDecidableAscending (rows : List (Bytes × Row n)) : Decidable (Ascending rows) :=
  inferInstanceAs (Decidable (List.Pairwise _ _))

/-- The rows that a flush writes: the hint, if it is as long as the rows and in order. -/
def MemPart.flushRows (mp : MemPart n) : PartRows n :=
  if h : mp.hint.length = mp.rows.entries.length ∧ Ascending mp.hint then ⟨mp.hint, h.2⟩
  else mp.rows.map StampedRow.row

/-- `flushLocked`, where writing the part may fail. -/
def Table.flushLocked (t : Table n) (written : Bool) : Table n :=
  match t.mem with
  | none => t
  | some mp =>
    if mp.rows.entries.isEmpty then t
    else
      let t := { t with nextID := t.nextID + 1 }
      if written then
        { t with
          parts := t.parts.insert t.nextID mp.flushRows
          mem := some { id := t.memParts }
          memParts := t.memParts + 1 }
      else t

/-- The first loop of `commit`. -/
def Table.clear (t : Table n) : Table n := { t with parts := .empty, mem := none, count := 0 }

/-- A new `memPart`, if there is none. -/
def Table.withMem (t : Table n) : Table n × MemPart n :=
  match t.mem with
  | some mp => (t, mp)
  | none => ({ t with memParts := t.memParts + 1 }, { id := t.memParts })

/-- The rows of a transaction are folded into the memory. -/
def Table.foldOverlay (t : Table n) (ov : Overlay n) : Table n :=
  let (t, cur) := t.withMem
  let rows := foldRows t.commits cur.rows ov.rows
  let carried := cur.rows.entries.isEmpty && !ov.hint.isEmpty &&
    ov.hint.length == ov.rows.entries.length && decide (Ascending ov.hint)
  { t with mem := some { cur with rows := rows, hint := if carried then ov.hint else [] } }

/-- The table in a commit, before a flush. -/
def Table.folded (t : Table n) (x : MpartTx n) : Table n :=
  let t := { t with commits := t.commits + 1, tx := none }
  let t := if x.cleared then t.clear else t
  match x.overlay with
  | none => t
  | some ov => t.foldOverlay ov

/-- A commit flushes a full memory. An error there leaves the count as it was. -/
def Table.commit (lim : Limits) (t : Table n) (x : MpartTx n) (written : Bool) : Table n :=
  let t := t.folded x
  if x.overlay.isSome && decide (lim.flushThreshold ≤ t.memRows.entries.length) then
    let t := t.flushLocked written
    if written then { t with count := t.count + x.delta } else t
  else { t with count := t.count + x.delta }

/-! ### In the background -/

/-- `flushIdle` takes the rows of a memory that is not being sealed. -/
def Table.flushIdle (lim : Limits) (t : Table n) : Option (Table n) :=
  match t.mem with
  | none => none
  | some mp =>
    if mp.sealing ∨ mp.rows.entries.length < lim.idleFlushMinRows then none
    else
      some { t with
        nextID := t.nextID + 1
        mem := some { mp with sealing := true }
        jobs := t.jobs ++ [⟨mp.id, mp.rows, t.nextID + 1⟩] }

/-- Behind a job. The rows that it has written are taken out of the `memPart` they are from. -/
def MemPart.afterJob (cur : MemPart n) (j : FlushJob n) (written : Bool) : MemPart n :=
  if cur.id = j.mp then
    { cur with
      rows := if written then cur.rows.filter fun k r => j.rows.get k ≠ some r else cur.rows
      sealing := false }
  else cur

/-- `flushJobAsync` publishes the part, if it was written. -/
def Table.flushJobAsync (t : Table n) (j : FlushJob n) (written : Bool) : Table n :=
  { t with
    mem := t.mem.map fun cur => cur.afterJob j written
    parts := if written then t.parts.insert j.id (j.rows.map StampedRow.row) else t.parts }

/-- The first phase of `compactTable`. -/
def Table.compactSnapshot (t : Table n) : Table n :=
  { t with merges := t.merges ++ [⟨t.parts, t.memRows, t.count, none⟩] }

def Merge.view (m : Merge n) : View n where
  parts := partList m.oldParts
  distinct := distinct_partList m.oldParts
  mem := m.memRows.map StampedRow.row
  overlay := none
  cleared := false

/-- The first entry of each group, if it is live. -/
def mergedRows (entries : List (Bytes × Row n)) : List (Bytes × Row n) :=
  (firstOfRuns none entries).filter fun e => e.2.isPut && decide (0 < n)

/-- The rows of the new parts. They are in order, so they make parts. -/
def Merge.rows (m : Merge n) : Option (PartRows n) := do
  let entries ← walkMergedLocked m.view .full false none none
  let rows := mergedRows entries
  if h : Ascending rows then return ⟨rows, h⟩ else none

def nchunks (lim : Limits) (rows : PartRows n) : ℕ :=
  (rows.entries.length + lim.mergeChunk - 1) / lim.mergeChunk

theorem ascending_chunk {rows : List (Bytes × Row n)} (h : Ascending rows) (a c : ℕ) :
    Ascending ((rows.drop a).take c) :=
  List.Pairwise.sublist ((List.take_sublist _ _).trans (List.drop_sublist _ _)) h

/-- The `i`-th chunk. -/
def chunk (lim : Limits) (rows : PartRows n) (i : ℕ) : PartRows n :=
  ⟨(rows.entries.drop (i * lim.mergeChunk)).take lim.mergeChunk, ascending_chunk rows.ascending _ _⟩

/-- Reserves the numbers of the new parts. -/
def Table.compactReserve (lim : Limits) (t : Table n) (i : ℕ) : Option (Table n) := do
  let m ← t.merges[i]?
  if m.startID.isSome then none
  else
    let rows ← m.rows
    return { t with
      nextID := t.nextID + nchunks lim rows
      merges := t.merges.set i { m with startID := some (t.nextID + 1) } }

/-- The new parts beside those that were not merged. -/
def replaceParts (lim : Limits) (m : Merge n) (start : ℕ) (rows : PartRows n)
    (parts : SortedMap ℕ (PartRows n)) : SortedMap ℕ (PartRows n) :=
  let kept := parts.filter fun seq _ => (m.oldParts.get seq).isNone
  (List.range (nchunks lim rows)).foldl (fun ps i => ps.insert (start + i) (chunk lim rows i)) kept

/-- The last phase of `compactTable`. -/
def Table.compactPublish (lim : Limits) (t : Table n) (i : ℕ) : Option (Table n) := do
  let m ← t.merges[i]?
  let start ← m.startID
  let rows ← m.rows
  return { t with
    mem := t.mem.map fun cur =>
      { cur with rows := cur.rows.filter fun k r => m.memRows.get k ≠ some r }
    parts := replaceParts lim m start rows t.parts
    count := rows.entries.length + (t.count - m.oldCount)
    merges := t.merges.eraseIdx i }

/-! ### Steps -/

inductive Act (n : ℕ) where
  | begin_
  | op (op : TxOp n)
  | commit (written : Bool)
  | rollback
  | flush (written : Bool)
  | flushIdle
  | flushJob (i : ℕ) (written : Bool)
  | compactSnapshot
  | compactReserve (i : ℕ)
  | compactPublish (i : ℕ)
  /-- An error ends the merge. -/
  | compactAbandon (i : ℕ)
  /-- Other tables take part numbers. -/
  | otherTables (ids : ℕ)

def Table.step (lim : Limits) (t : Table n) : Act n → Option (Table n)
  | .begin_ => if t.tx.isSome then none else some { t with tx := some {} }
  | .op op => t.tx.map fun x => { t with tx := some (op.apply t x) }
  | .commit written => t.tx.map fun x => t.commit lim x written
  | .rollback => t.tx.map fun _ => { t with tx := none }
  | .flush written => some (t.flushLocked written)
  | .flushIdle => t.flushIdle lim
  | .flushJob i written =>
    t.jobs[i]?.map fun j => { t.flushJobAsync j written with jobs := t.jobs.eraseIdx i }
  | .compactSnapshot => some t.compactSnapshot
  | .compactReserve i => t.compactReserve lim i
  | .compactPublish i => t.compactPublish lim i
  | .compactAbandon i => t.merges[i]?.map fun _ => { t with merges := t.merges.eraseIdx i }
  | .otherTables ids => some { t with nextID := t.nextID + ids }

end Ydbgo.Mpart
