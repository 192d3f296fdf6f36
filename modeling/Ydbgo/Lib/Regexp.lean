import Mathlib.Logic.Relation
import Ydbgo.Lib.Utf8

/-! # Regular expressions without groups

The part of Go's `regexp` that has sequences of anchors, dots, literals and stars.
A text is searched for a place where the sequence begins. A dot is not a line
break, and without flags the anchors are the two ends of the text.
-/

namespace Ydbgo.Regexp

inductive Piece where
  | beginText
  | endText
  | anyNotNL
  | lit (r : Rune)
  | star (p : Piece)
  deriving DecidableEq, Repr

/-! ### Syntax -/

/-- Letters and digits are not punctuation, which a backslash makes literal. -/
def isPunct (r : Rune) : Bool :=
  r < 128 && !(48 ≤ r && r ≤ 57) && !(65 ≤ r && r ≤ 90) && !(97 ≤ r && r ≤ 122)

/-- The pieces behind those that were read, within `\Q` and `\E` or outside; `none` for an error
and for what is not a sequence. -/
def parseFrom : Bool → List Piece → List Rune → Option (List Piece)
  | _, ps, [] => some ps
  | true, ps, 92 :: 69 :: rs => parseFrom false ps rs
  | true, ps, r :: rs => parseFrom true (ps ++ [.lit r]) rs
  | false, ps, 92 :: 81 :: rs => parseFrom true ps rs
  | false, ps, 92 :: r :: rs => if isPunct r then parseFrom false (ps ++ [.lit r]) rs else none
  | false, ps, r :: rs =>
    if r = 94 then parseFrom false (ps ++ [.beginText]) rs
    else if r = 36 then parseFrom false (ps ++ [.endText]) rs
    else if r = 46 then parseFrom false (ps ++ [.anyNotNL]) rs
    else if r = 42 then
      match ps.getLast? with
      | none | some (.star _) => none
      | some p => parseFrom false (ps.dropLast ++ [.star p]) rs
    else if r ∈ [40, 41, 43, 63, 91, 92, 93, 123, 124, 125] then none
    else parseFrom false (ps ++ [.lit r]) rs

/-- `regexp.Compile`. -/
def compile (pat : List Rune) : Option (List Piece) := parseFrom false [] pat

/-! ### Semantics -/

section Consumes

variable (text : List Rune)

/-- The piece matches the text from one place to the other. -/
def Consumes : Piece → ℕ → ℕ → Prop
  | .beginText => fun i j => i = j ∧ i = 0
  | .endText => fun i j => i = j ∧ i = text.length
  | .anyNotNL => fun i j => i + 1 = j ∧ ∃ r, text[i]? = some r ∧ r ≠ 10
  | .lit r => fun i j => i + 1 = j ∧ text[i]? = some r
  | .star p => Relation.ReflTransGen (Consumes p)

/-- The pieces match one after the other. -/
def ConsumesAll : List Piece → ℕ → ℕ → Prop
  | [] => fun i j => i = j
  | p :: ps => Relation.Comp (Consumes text p) (ConsumesAll ps)

/-- `MatchString`. -/
def MatchString (ps : List Piece) : Prop := ∃ i j, i ≤ text.length ∧ ConsumesAll text ps i j

end Consumes

variable {text : List Rune} {ps : List Piece} {i j : ℕ}

/-- Pieces between both anchors match the whole text. -/
theorem matchString_anchored_iff :
    MatchString text (.beginText :: ps) ↔ ∃ j, ConsumesAll text ps 0 j := by
  constructor
  · rintro ⟨i, j, -, _, ⟨rfl, rfl⟩, h⟩
    exact ⟨j, h⟩
  · rintro ⟨j, h⟩
    exact ⟨0, j, Nat.zero_le _, 0, ⟨rfl, rfl⟩, h⟩

/-- A run of dots has no line break in it. -/
theorem consumes_star_any_iff :
    Consumes text (.star .anyNotNL) i j ↔
      i = j ∨ ∃ r, text[i]? = some r ∧ r ≠ 10 ∧ Consumes text (.star .anyNotNL) (i + 1) j := by
  constructor
  · intro h
    rcases Relation.ReflTransGen.cases_head h with rfl | ⟨k, ⟨rfl, r, hr, hne⟩, hrest⟩
    · exact .inl rfl
    · exact .inr ⟨r, hr, hne, hrest⟩
  · rintro (rfl | ⟨r, hr, hne, h⟩)
    · exact .refl
    · exact .head ⟨rfl, r, hr, hne⟩ h

end Ydbgo.Regexp
