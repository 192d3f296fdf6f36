import Mathlib.Data.Fintype.Pi
import Ydbgo.Lib.Bytes

/-! # Rows and their versions

A buffered row has one blob for every column of the table. The empty blob stands
for a column the write did not touch: a partial row inherits it from the versions
of the key before it.
-/

namespace Ydbgo.Mpart

variable {n : ℕ}

abbrev Cells (n : ℕ) : Type := Fin n → Bytes

/-- The cells of a `memRow`, or its tombstone. -/
inductive Row (n : ℕ) where
  | put (cells : Cells n)
  | del
  deriving DecidableEq

def hasEmptyCell (cells : Cells n) : Bool := decide (∃ c, cells c = [])

/-- The empty cells of `dst` are taken from `src`. -/
def fillEmptyCells (dst src : Cells n) : Cells n := fun c => if dst c = [] then src c else dst c

/-- The loop over the older versions of a key while cells are missing. Tombstones are passed over. -/
def inheritCells : Cells n → List (Row n) → Cells n
  | cells, [] => cells
  | cells, r :: older =>
    if hasEmptyCell cells then
      match r with
      | .put src => inheritCells (fillEmptyCells cells src) older
      | .del => inheritCells cells older
    else cells

/-- The newest version of a key over the older ones, the newest of these first. -/
def resolve : Row n → List (Row n) → Row n
  | .del, _ => .del
  | .put cells, older => .put (inheritCells cells older)

/-- The cells of a key with these versions, the newest first. -/
def liveCells : List (Row n) → Option (Cells n)
  | [] => none
  | r :: older =>
    match resolve r older with
    | .put cells => some cells
    | .del => none

/-- What writing a row makes of the cells of a key. -/
def Row.act : Row n → Option (Cells n) → Option (Cells n)
  | .del, _ => none
  | .put cells, none => some cells
  | .put cells, some old => some (fillEmptyCells cells old)

def Full (cells : Cells n) : Prop := ∀ c, cells c ≠ []

theorem hasEmptyCell_iff {cells : Cells n} : hasEmptyCell cells = true ↔ ¬ Full cells := by
  simp [hasEmptyCell, Full]

theorem fillEmptyCells_of_full {cells : Cells n} (h : Full cells) (src : Cells n) :
    fillEmptyCells cells src = cells := by
  ext1 c
  exact if_neg (h c)

theorem fillEmptyCells_assoc (a b c : Cells n) :
    fillEmptyCells (fillEmptyCells a b) c = fillEmptyCells a (fillEmptyCells b c) := by
  ext1 i
  unfold fillEmptyCells
  split <;> simp_all

@[simp] theorem fillEmptyCells_self (a : Cells n) : fillEmptyCells a a = a := by
  ext1 i
  exact ite_self _

theorem full_fillEmptyCells {a b : Cells n} (h : Full b) : Full (fillEmptyCells a b) := by
  intro c
  unfold fillEmptyCells
  split
  · exact h c
  · assumption

theorem inheritCells_of_full {cells : Cells n} (h : Full cells) (older : List (Row n)) :
    inheritCells cells older = cells := by
  cases older with
  | nil => rfl
  | cons r older => exact if_neg fun he => hasEmptyCell_iff.mp he h

@[simp] theorem inheritCells_put (cells src : Cells n) (older : List (Row n)) :
    inheritCells cells (.put src :: older) = inheritCells (fillEmptyCells cells src) older := by
  by_cases h : Full cells
  · rw [fillEmptyCells_of_full h, inheritCells_of_full h, inheritCells_of_full h]
  · exact if_pos (hasEmptyCell_iff.mpr h)

@[simp] theorem inheritCells_del (cells : Cells n) (older : List (Row n)) :
    inheritCells cells (.del :: older) = inheritCells cells older := by
  by_cases h : Full cells
  · rw [inheritCells_of_full h, inheritCells_of_full h]
  · exact if_pos (hasEmptyCell_iff.mpr h)

/-- Inheriting over a version is inheriting from what that version inherits. -/
theorem inheritCells_fill (a b : Cells n) (older : List (Row n)) :
    inheritCells (fillEmptyCells a b) older = fillEmptyCells a (inheritCells b older) := by
  induction older generalizing b with
  | nil => rfl
  | cons r older ih =>
    cases r with
    | put src => rw [inheritCells_put, inheritCells_put, fillEmptyCells_assoc, ih]
    | del => rw [inheritCells_del, inheritCells_del, ih]

@[simp] theorem liveCells_del (older : List (Row n)) : liveCells (.del :: older) = none := rfl

@[simp] theorem liveCells_put (cells : Cells n) (older : List (Row n)) :
    liveCells (.put cells :: older) = some (inheritCells cells older) := rfl

theorem Row.act_idem (r : Row n) (x : Option (Cells n)) : r.act (r.act x) = r.act x := by
  cases r with
  | del => rfl
  | put cells =>
    cases x with
    | none => exact congrArg some (fillEmptyCells_self cells)
    | some old =>
      exact congrArg some (by rw [← fillEmptyCells_assoc, fillEmptyCells_self])

/-- A version is written over the cells of the older ones, if it is not partial over a key that has
versions but is not live. -/
theorem liveCells_cons {r : Row n} {older : List (Row n)}
    (h : ∀ cells, r = .put cells → liveCells older = none → older = [] ∨ Full cells) :
    liveCells (r :: older) = r.act (liveCells older) := by
  cases r with
  | del => rfl
  | put cells =>
    rw [liveCells_put]
    cases hold : liveCells older with
    | none =>
      rcases h cells rfl hold with rfl | hfull
      · rfl
      · rw [inheritCells_of_full hfull, Row.act]
    | some old =>
      obtain _ | ⟨_ | _, older⟩ := older
      · cases hold
      · rw [liveCells_put] at hold
        obtain rfl := Option.some.inj hold
        rw [inheritCells_put, inheritCells_fill, Row.act]
      · cases hold

end Ydbgo.Mpart
