import Mathlib.Data.List.Sort
import Mathlib.Data.Prod.Lex
import Ydbgo.Lib.BigEndian
import Ydbgo.Lib.KWayMerge
import Ydbgo.Mpart.Row

/-! # The merged walk

`walkMergedLocked` with its paths: one source, a newest source that covers the
range, disjoint sources one after the other, the granules of disjoint parts from
the end, and the heap. The loop over the older versions does the same on full
rows, on one column and on keys, so a source has rows of the width of the mode.
-/

namespace Ydbgo.Mpart

variable {n : ℕ}

/-- The precedence of a source: `prioOverlay`, `prioMem` or the number of a part. -/
inductive Prio where
  | part (seq : ℕ)
  | mem
  | overlay
  deriving DecidableEq, Repr

def Prio.rank : Prio → ℕ ×ₗ ℕ
  | part seq => toLex (0, seq)
  | mem => toLex (1, 0)
  | overlay => toLex (2, 0)

theorem Prio.rank_injective : Function.Injective Prio.rank := by
  intro a b h
  cases a <;> cases b <;> simp_all [Prio.rank]

instance : LinearOrder Prio := LinearOrder.lift' Prio.rank Prio.rank_injective

/-- What a walk reads of the rows. -/
inductive Mode (n : ℕ) where
  | keys
  | col (c : Fin n)
  | full

def Mode.width : Mode n → ℕ
  | keys => 0
  | col _ => 1
  | full => n

def Mode.single : Mode n → Bool
  | col _ => true
  | _ => false

def Mode.keysOnly : Mode n → Bool
  | keys => true
  | _ => false

def Mode.select : (m : Mode n) → Fin m.width → Fin n
  | keys => Fin.elim0
  | col c => fun _ => c
  | full => id

def Row.project (m : Mode n) : Row n → Row m.width
  | .put cells => .put (cells ∘ m.select)
  | .del => .del

/-- An immutable part, as decoded from its files. -/
structure Part (n : ℕ) where
  seq : ℕ
  rows : SortedMap Bytes (Row n)

namespace Part

def pks (p : Part n) : List Bytes := p.rows.entries.map Prod.fst

def pkMin (p : Part n) : Bytes := p.pks.headD []

def pkMax (p : Part n) : Bytes := p.pks.getLastD []

/-- `inRange`. -/
def inRange (p : Part n) (lo hi : Option Bytes) : Bool :=
  !(lo.any fun l => p.pkMax < l) && !(hi.any fun h => h ≤ p.pkMin)

end Part

/-- `inPKRange`, where an empty bound is no bound. -/
def inPKRange (pk : Bytes) (lo hi : Option Bytes) : Bool :=
  (lo.all fun l => l.isEmpty || l ≤ pk) && hi.all fun h => h.isEmpty || pk < h

/-- The window of an ordered list of rows. -/
def sliceRange (lo hi : Option Bytes) (rows : List (Bytes × Row n)) : List (Bytes × Row n) :=
  (rows.dropWhile fun e => lo.any fun l => e.1 < l).takeWhile fun e => hi.all fun h => e.1 < h

/-- A source with its keys, and the rows of the window in the order of the walk. -/
structure MergeSrc (n : ℕ) where
  prio : Prio
  pks : List Bytes
  rows : List (Bytes × Row n)

/-- The source of some rows, if there are any in the window. -/
def makeSource (m : Mode n) (rev : Bool) (lo hi : Option Bytes) (prio : Prio)
    (rows : List (Bytes × Row n)) : Option (MergeSrc m.width) :=
  let window := sliceRange lo hi rows
  if window.isEmpty then none
  else
    let window := window.map fun e => (e.1, e.2.project m)
    some ⟨prio, rows.map Prod.fst, if rev then window.reverse else window⟩

/-- What a transaction walks over: the table's parts in the order of their slice, the rows in memory,
and its own rows if it has written any. -/
structure View (n : ℕ) where
  parts : List (Part n)
  distinct : (parts.map Part.seq).Nodup
  mem : SortedMap Bytes (Row n)
  overlay : Option (SortedMap Bytes (Row n))
  cleared : Bool

def View.ownRows (v : View n) : SortedMap Bytes (Row n) := v.overlay.getD .empty

def View.sources (v : View n) (m : Mode n) (rev : Bool) (lo hi : Option Bytes) :
    List (MergeSrc m.width) :=
  let committed :=
    if v.cleared then []
    else (v.parts.filter fun p => p.inRange lo hi).filterMap (fun p =>
        makeSource m rev lo hi (.part p.seq) p.rows.entries) ++
      (makeSource m rev lo hi .mem v.mem.entries).toList
  committed ++
    (makeSource m rev lo hi .overlay
      (v.ownRows.entries.filter fun e => inPKRange e.1 lo hi)).toList

/-- `Less` of the heap, with ties. -/
def heapLe (rev : Bool) (a b : Bytes × Prio × Row n) : Bool :=
  if a.1 = b.1 then b.2.1 ≤ a.2.1 else if rev then b.1 < a.1 else a.1 < b.1

/-- The newest of the versions of a key, with the cells it inherits. -/
def resolveAll : List (Row n) → Row n
  | [] => .del
  | r :: older => resolve r older

/-- The walk of the heap. -/
def walkHeap (rev : Bool) (srcs : List (MergeSrc n)) : List (Bytes × Row n) :=
  let runs := srcs.map fun s => s.rows.map fun e => (e.1, s.prio, e.2)
  (groupRuns (mergeRuns (heapLe rev) runs)).map fun g => (g.1, resolveAll (g.2.map Prod.snd))

def firstKey (s : MergeSrc n) : Bytes := (s.rows.map Prod.fst).headD []

def lastKey (s : MergeSrc n) : Bytes := (s.rows.map Prod.fst).getLastD []

/-- Each source ends before the next one starts. -/
def disjointInOrder (rev : Bool) : List (MergeSrc n) → Bool
  | s :: t :: ss =>
    (if rev then firstKey t < lastKey s else lastKey s < firstKey t) &&
      disjointInOrder rev (t :: ss)
  | _ => true

/-- `sortDisjointSources`: the sources in the order of the walk, if they are disjoint. -/
def sortDisjointSources (rev : Bool) (srcs : List (MergeSrc n)) : Option (List (MergeSrc n)) :=
  let le (s t : MergeSrc n) : Prop :=
    if rev then firstKey t ≤ firstKey s else firstKey s ≤ firstKey t
  have : DecidableRel le := fun s t => by unfold le; infer_instance
  let sorted := srcs.insertionSort le
  if disjointInOrder rev sorted then some sorted else none

/-- The integer in the bytes 2 to 9 of a key, which panics if there are less. -/
def keyInt (pk : Bytes) : Option ℕ :=
  if 10 ≤ pk.length then some (beNat ((pk.drop 2).take 8)) else none

/-- The source with the highest precedence. -/
def newestSource : List (MergeSrc n) → Option (MergeSrc n)
  | [] => none
  | s :: ss =>
    match newestSource ss with
    | none => some s
    | some t => if s.prio < t.prio then some t else some s

def MergeSrc.fromPart (s : MergeSrc n) : Bool :=
  match s.prio with
  | .part _ => true
  | _ => false

/-- The rows of a source have no missing cell. -/
def MergeSrc.dense (s : MergeSrc n) : Bool := s.rows.all fun e =>
  match e.2 with
  | .put cells => !hasEmptyCell cells
  | .del => false

/-- `coveringNewestSource`; the outer `none` is a panic. -/
def coveringNewestSource (single : Bool) (srcs : List (MergeSrc n)) (lo hi : Option Bytes) :
    Option (Option (MergeSrc n)) :=
  match lo, hi, newestSource srcs with
  | some l, some h, some s =>
    if srcs.length < 2 ∨ l.length ≠ 10 ∨ h.length ≠ 10 then some none
    else if !s.fromPart && !(single && s.dense) then some none
    else if (s.pks.headD []).length ≠ 10 then some none
    else do
      let first ← keyInt (s.pks.headD [])
      let last ← keyInt (s.pks.getLastD [])
      let lower ← keyInt l
      let upper ← keyInt h
      -- in 64 bits
      if first ≠ lower ∨ last ≠ (upper + (2 ^ 64 - 1)) % 2 ^ 64 ∨
          s.pks.length ≠ (upper + (2 ^ 64 - lower)) % 2 ^ 64 then return none
      else return some s
  | _, _, _ => some none

/-- The walk over the sources. -/
def walkSources (single rev : Bool) (lo hi : Option Bytes) (srcs : List (MergeSrc n)) :
    Option (List (Bytes × Row n)) :=
  match srcs with
  | [] => some []
  | [s] => some s.rows
  | srcs =>
    match if rev then some none else coveringNewestSource single srcs lo hi with
    | none => none
    | some (some s) => some s.rows
    | some none =>
      match sortDisjointSources rev srcs with
      | some sorted => some (sorted.flatMap MergeSrc.rows)
      | none => some (walkHeap rev srcs)

/-- `walkPksDescGranules`: the keys of parts with disjoint keys, from the end. -/
def walkPksDescGranules (parts : List (Part n)) : Option (List (Bytes × Row n)) :=
  let sorted := parts.insertionSort fun p q => p.pkMin ≤ q.pkMin
  if parts.isEmpty ∨ parts.any (fun p => p.rows.entries.isEmpty) then none
  else if (sorted.zip sorted.tail).all fun pq => pq.1.pkMax < pq.2.pkMin then
    some (sorted.reverse.flatMap fun p => p.rows.entries.reverse)
  else none

/-- `walkMergedLocked`, whose callback is called with the rows of the list in turn. -/
def walkMergedLocked (v : View n) (m : Mode n) (rev : Bool) (lo hi : Option Bytes) :
    Option (List (Bytes × Row m.width)) :=
  -- an empty bound is no bound here
  if lo.any (fun l => hi.any fun h => !l.isEmpty && !h.isEmpty && h ≤ l) then some []
  else
    let walk := walkSources m.single rev lo hi (v.sources m rev lo hi)
    if m.keysOnly && rev && lo.isNone && hi.isNone && !v.cleared && v.overlay.isNone &&
        v.mem.entries.isEmpty then
      match walkPksDescGranules v.parts with
      | some rows => some (rows.map fun e => (e.1, e.2.project m))
      | none => walk
    else walk

end Ydbgo.Mpart
