import Ydbgo.Mpart.Merge

/-! # The reference merge

The versions of a key are applied to one another in the order of their
precedence. A list of rows is a merge of some sources if it has the rows of every
key in the order of the walk, each resolved over all versions of the key.
-/

namespace Ydbgo.Mpart

open SortedMap (getEntry)

variable {n : ℕ}

/-- The walk meets `a` before `b`. -/
def Before (rev : Bool) (a b : Bytes) : Prop := if rev then b < a else a < b

/-- The keys of a half-open interval. -/
structure InWindow (lo hi : Option Bytes) (k : Bytes) : Prop where
  lower : ∀ l, lo = some l → l ≤ k
  upper : ∀ h, hi = some h → k < h

/-- The rows of some versions, the newest first. -/
def newestFirst (vs : List (Prio × Row n)) : List (Row n) :=
  (vs.insertionSort fun a b => b.1 ≤ a.1).map Prod.snd

/-- The cells after the versions of a key are written one over the other, the newest first in the
list. -/
def contentOf (rows : List (Row n)) : Option (Cells n) := rows.foldr Row.act none

/-- No partial row is directly above a tombstone. -/
def Grounded (rows : List (Row n)) : Prop :=
  rows.IsChain fun newer older => ∀ cells, newer = .put cells → ¬ Full cells → older ≠ .del

/-- The versions of a key, in the order of the sources. -/
def versionsOf (srcs : List (MergeSrc n)) (k : Bytes) : List (Prio × Row n) :=
  srcs.filterMap fun s => (getEntry k s.rows).map (s.prio, ·)

/-- The versions of a key in a view. -/
def View.versions (v : View n) (k : Bytes) : List (Prio × Row n) :=
  (if v.cleared then []
    else v.parts.filterMap (fun p => (p.rows.get k).map (.part p.seq, ·)) ++
      ((v.mem.get k).map (.mem, ·)).toList) ++
    ((v.ownRows.get k).map (.overlay, ·)).toList

/-- The cells of a key in a view. -/
def View.content (v : View n) (k : Bytes) : Option (Cells n) :=
  contentOf (newestFirst (v.versions k))

/-- The rows for the keys with versions, in the order of the walk. -/
structure Merged (rev : Bool) (vs : Bytes → List (Prio × Row n)) (out : List (Bytes × Row n)) :
    Prop where
  ordered : out.Pairwise fun a b => Before rev a.1 b.1
  mem : ∀ k r, (k, r) ∈ out ↔ vs k ≠ [] ∧ r = resolveAll (newestFirst (vs k))

/-- Sources as the walk makes them. -/
structure Ready (rev : Bool) (srcs : List (MergeSrc n)) : Prop where
  distinct : (srcs.map MergeSrc.prio).Nodup
  ordered : ∀ s ∈ srcs, s.rows.Pairwise fun a b => Before rev a.1 b.1
  nonempty : ∀ s ∈ srcs, s.rows ≠ []

variable {rev : Bool} {a b c k : Bytes}

theorem Before.irrefl : ¬ Before rev a a := by
  cases rev <;> simp [Before]

theorem Before.trans (h : Before rev a b) (h' : Before rev b c) : Before rev a c := by
  cases rev
  · exact lt_trans (α := Bytes) h h'
  · exact lt_trans (α := Bytes) h' h

theorem Before.ne (h : Before rev a b) : a ≠ b := by
  rintro rfl
  exact Before.irrefl h

theorem before_or (rev : Bool) (a b : Bytes) : Before rev a b ∨ a = b ∨ Before rev b a := by
  cases rev
  · exact lt_trichotomy a b
  · rcases lt_trichotomy a b with h | h | h
    · exact .inr (.inr h)
    · exact .inr (.inl h)
    · exact .inl h

/-! ### Versions in order -/

theorem newestFirst_eq {vs ws : List (Prio × Row n)} (hperm : ws.Perm vs)
    (hord : ws.Pairwise fun a b => b.1 ≤ a.1) (hnd : (vs.map Prod.fst).Nodup) :
    newestFirst vs = ws.map Prod.snd := by
  have hsorted := List.pairwise_insertionSort (fun a b : Prio × Row n => b.1 ≤ a.1) vs
  have hperm' : (vs.insertionSort fun a b => b.1 ≤ a.1).Perm vs := List.perm_insertionSort _ vs
  refine congrArg (List.map Prod.snd)
    (List.Perm.eq_of_pairwise ?_ hsorted hord (hperm'.trans hperm.symm))
  intro a b ha hb hab hba
  exact List.inj_on_of_nodup_map hnd (hperm'.subset ha) (hperm.subset hb) (le_antisymm hba hab)

@[simp] theorem newestFirst_nil : newestFirst ([] : List (Prio × Row n)) = [] := rfl

@[simp] theorem newestFirst_singleton (p : Prio) (r : Row n) : newestFirst [(p, r)] = [r] := rfl

theorem newestFirst_perm {vs ws : List (Prio × Row n)} (hperm : ws.Perm vs)
    (hnd : (vs.map Prod.fst).Nodup) : newestFirst ws = newestFirst vs := by
  have hperm' : (ws.insertionSort fun a b => b.1 ≤ a.1).Perm ws := List.perm_insertionSort _ ws
  exact (newestFirst_eq (hperm'.trans hperm) (List.pairwise_insertionSort _ ws) hnd).symm

theorem resolveAll_singleton (r : Row n) : resolveAll [r] = r := by
  cases r <;> rfl

theorem liveCells_eq (rows : List (Row n)) :
    liveCells rows = match resolveAll rows with
      | .put cells => some cells
      | .del => none := by
  cases rows <;> rfl

/-- The loop over the older versions finds the cells that writing the versions gives. -/
theorem liveCells_eq_contentOf {rows : List (Row n)} (h : Grounded rows) :
    liveCells rows = contentOf rows := by
  induction rows with
  | nil => rfl
  | cons r older ih =>
    have htail : Grounded older := h.tail
    rw [contentOf, List.foldr_cons, ← contentOf, ← ih htail]
    refine liveCells_cons fun cells hr hnone => ?_
    obtain _ | ⟨o, older⟩ := older
    · exact .inl rfl
    · right
      by_contra hfull
      have hne : o ≠ .del := (List.isChain_cons_cons.mp h).1 cells hr hfull
      cases o with
      | put cells' => cases hnone
      | del => exact hne rfl

/-! ### The sources of a merge -/

theorem keys_of_ordered {rows : List (Bytes × Row n)}
    (h : rows.Pairwise fun a b => Before rev a.1 b.1) : rows.Pairwise fun a b => a.1 ≠ b.1 :=
  h.imp fun hlt => Before.ne hlt

theorem fst_versionsOf_sublist (srcs : List (MergeSrc n)) (k : Bytes) :
    ((versionsOf srcs k).map Prod.fst).Sublist (srcs.map MergeSrc.prio) := by
  induction srcs with
  | nil => exact List.Sublist.slnil
  | cons s srcs ih =>
    rw [versionsOf, List.filterMap_cons]
    cases getEntry k s.rows with
    | none => exact ih.cons _
    | some r => exact ih.cons_cons _

theorem Ready.nodup {srcs : List (MergeSrc n)} (h : Ready rev srcs) (k : Bytes) :
    ((versionsOf srcs k).map Prod.fst).Nodup :=
  h.distinct.sublist (fst_versionsOf_sublist srcs k)

theorem mem_versionsOf {srcs : List (MergeSrc n)} {p : Prio} {r : Row n} :
    (p, r) ∈ versionsOf srcs k ↔ ∃ s ∈ srcs, s.prio = p ∧ getEntry k s.rows = some r := by
  simp only [versionsOf, List.mem_filterMap, Option.map_eq_some_iff, Prod.mk.injEq]
  constructor
  · rintro ⟨s, hs, r', hr, rfl, rfl⟩
    exact ⟨s, hs, rfl, hr⟩
  · rintro ⟨s, hs, rfl, hr⟩
    exact ⟨s, hs, r, hr, rfl, rfl⟩

end Ydbgo.Mpart
