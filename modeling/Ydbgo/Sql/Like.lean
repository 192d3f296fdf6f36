import Mathlib.Tactic.Tauto
import Ydbgo.Lib.Regexp
import Ydbgo.Sql.Eval

/-! # LIKE

`likeMatch` builds a regular expression from the pattern. The match of the model
is the match of that expression. It is the match of SQL except that a wildcard
takes no line break, since a dot does not.
-/

namespace Ydbgo.Sql

open Regexp

/-! ### The pattern as a regular expression -/

/-- What a character of the pattern adds: `.*`, `.`, or itself between `\Q` and `\E`. -/
def likePart (c : Rune) : List Rune :=
  if c = 37 then [46, 42] else if c = 95 then [46] else [92, 81, c, 92, 69]

def likeRegexp (pat : List Rune) : List Rune := 94 :: pat.flatMap likePart ++ [36]

/-- `likeMatch` in the words of the source: an expression that does not compile matches nothing. -/
def LikeMatch (s pat : Bytes) : Prop :=
  ∃ ps, compile (likeRegexp (runes pat)) = some ps ∧ MatchString (runes s) ps

def likePiece (c : Rune) : Piece :=
  if c = 37 then .star .anyNotNL else if c = 95 then .anyNotNL else .lit c

theorem parseFrom_likePart (c : Rune) (ps : List Piece) (rs : List Rune) :
    parseFrom false ps (likePart c ++ rs) = parseFrom false (ps ++ [likePiece c]) rs := by
  unfold likePart likePiece
  by_cases hany : c = 37
  · rw [if_pos hany, if_pos hany]
    simp [parseFrom]
  by_cases hone : c = 95
  · rw [if_neg hany, if_pos hone, if_neg hany, if_pos hone]
    simp [parseFrom]
  · rw [if_neg hany, if_neg hone, if_neg hany, if_neg hone]
    -- even a backslash is literal here, as the text up to `\E` is
    simp [parseFrom]

/-- Every pattern compiles, with a piece for each character. -/
theorem compile_likeRegexp (pat : List Rune) : compile (likeRegexp pat) =
    some (.beginText :: (pat.map likePiece ++ [.endText])) := by
  have hparts : ∀ ps, parseFrom false ps (pat.flatMap likePart ++ [36]) =
      some (ps ++ (pat.map likePiece ++ [.endText])) := by
    induction pat with
    | nil => exact fun ps => by simp [parseFrom]
    | cons c pat ih =>
      intro ps
      rw [List.flatMap_cons, List.append_assoc, parseFrom_likePart, ih, List.map_cons,
        List.append_assoc, List.cons_append, List.nil_append, List.cons_append]
  have hbegin : compile (likeRegexp pat) =
      parseFrom false [.beginText] (pat.flatMap likePart ++ [36]) := by
    simp [compile, likeRegexp, parseFrom]
  rw [hbegin, hparts]
  rfl

/-! ### The match of the model -/

theorem likeRunes_one {p s : List Rune} :
    likeRunes (95 :: p) s ↔ ∃ c rest, s = c :: rest ∧ c ≠ newline ∧ likeRunes p rest := by
  cases s with
  | nil => simp [likeRunes]
  | cons c s => simp [likeRunes]

theorem likeRunes_char {p s : List Rune} {r : Rune} (hany : r ≠ 37) (hone : r ≠ 95) :
    likeRunes (r :: p) s ↔ ∃ rest, s = r :: rest ∧ likeRunes p rest := by
  cases s with
  | nil => simp [likeRunes]
  | cons c s => simp [likeRunes, and_assoc]

section Runs

variable {text : List Rune} {i : ℕ}

/-- A run of dots ends in the text. -/
theorem consumes_any_le {j : ℕ} (h : Consumes text (.star .anyNotNL) i j) (hi : i ≤ text.length) :
    j ≤ text.length := by
  induction h with
  | refl => exact hi
  | tail _ hstep =>
    obtain ⟨rfl, r, hr, -⟩ := hstep
    exact (List.getElem?_eq_some_iff.mp hr).1

theorem afterAny_iff {f : List Rune → Bool} (h : i ≤ text.length) :
    afterAny f (text.drop i) ↔ ∃ j, Consumes text (.star .anyNotNL) i j ∧ f (text.drop j) := by
  obtain ⟨n, hn⟩ : ∃ n, n = text.length - i := ⟨_, rfl⟩
  induction n generalizing i with
  | zero =>
    have hnone : text[i]? = none := List.getElem?_eq_none (by omega)
    rw [List.drop_of_length_le (by omega), afterAny]
    constructor
    · intro hf
      exact ⟨i, .refl, by rwa [List.drop_of_length_le (by omega)]⟩
    · rintro ⟨j, hspan, hf⟩
      rcases consumes_star_any_iff.mp hspan with rfl | ⟨r, hr, -⟩
      · rwa [List.drop_of_length_le (by omega)] at hf
      · rw [hnone] at hr
        cases hr
  | succ n ih =>
    have hlt : i < text.length := by omega
    have hget : text[i]? = some text[i] := List.getElem?_eq_getElem hlt
    have hrest := ih (by omega : i + 1 ≤ text.length) (by omega)
    rw [List.drop_eq_getElem_cons hlt, afterAny, Bool.or_eq_true, Bool.and_eq_true, hrest,
      ← List.drop_eq_getElem_cons hlt, bne_iff_ne]
    constructor
    · rintro (hf | ⟨hne, j, hspan, hf⟩)
      · exact ⟨i, .refl, hf⟩
      · exact ⟨j, consumes_star_any_iff.mpr (.inr ⟨_, hget, hne, hspan⟩), hf⟩
    · rintro ⟨j, hspan, hf⟩
      rcases consumes_star_any_iff.mp hspan with rfl | ⟨r, hr, hne, hspan⟩
      · exact .inl hf
      · obtain rfl := Option.some.inj (hget.symm.trans hr)
        exact .inr ⟨hne, j, hspan, hf⟩

theorem getElem_of_drop {r : Rune} {rest : List Rune} (h : text.drop i = r :: rest) :
    i < text.length ∧ text[i]? = some r ∧ rest = text.drop (i + 1) := by
  have hlt : i < text.length := by
    by_contra hge
    rw [List.drop_of_length_le (by omega)] at h
    cases h
  rw [List.drop_eq_getElem_cons hlt] at h
  obtain ⟨rfl, rfl⟩ := List.cons.inj h
  exact ⟨hlt, List.getElem?_eq_getElem hlt, rfl⟩

/-- From a place in the text the pieces match to its end. -/
theorem consumesAll_like_iff (pat : List Rune) (h : i ≤ text.length) :
    (∃ j, ConsumesAll text (pat.map likePiece ++ [.endText]) i j) ↔ likeRunes pat (text.drop i) := by
  induction pat generalizing i with
  | nil =>
    rw [likeRunes, List.isEmpty_iff, List.drop_eq_nil_iff]
    constructor
    · rintro ⟨j, k, ⟨rfl, rfl⟩, -⟩
      exact le_rfl
    · intro hle
      exact ⟨i, i, ⟨rfl, le_antisymm h hle⟩, rfl⟩
  | cons c pat ih =>
    have hsplit : (∃ j, ConsumesAll text ((c :: pat).map likePiece ++ [.endText]) i j) ↔
        ∃ k, Consumes text (likePiece c) i k ∧
          ∃ j, ConsumesAll text (pat.map likePiece ++ [.endText]) k j :=
      ⟨fun ⟨j, k, hfirst, hrest⟩ => ⟨k, hfirst, j, hrest⟩,
        fun ⟨k, hfirst, j, hrest⟩ => ⟨j, k, hfirst, hrest⟩⟩
    rw [hsplit, likePiece]
    by_cases hany : c = 37
    · subst hany
      rw [if_pos rfl, likeRunes, afterAny_iff h]
      apply exists_congr
      intro k
      exact and_congr_right fun hspan => ih (consumes_any_le hspan h)
    rw [if_neg hany]
    by_cases hone : c = 95
    · subst hone
      rw [if_pos rfl, likeRunes_one]
      constructor
      · rintro ⟨k, ⟨rfl, r, hr, hne⟩, hrest⟩
        obtain ⟨hlt, rfl⟩ := List.getElem?_eq_some_iff.mp hr
        exact ⟨_, _, List.drop_eq_getElem_cons hlt, hne, (ih hlt).mp hrest⟩
      · rintro ⟨r, rest, hdrop, hne, hrest⟩
        obtain ⟨hlt, hr, rfl⟩ := getElem_of_drop hdrop
        exact ⟨i + 1, ⟨rfl, r, hr, hne⟩, (ih hlt).mpr hrest⟩
    · rw [if_neg hone, likeRunes_char hany hone]
      constructor
      · rintro ⟨k, ⟨rfl, hr⟩, hrest⟩
        obtain ⟨hlt, rfl⟩ := List.getElem?_eq_some_iff.mp hr
        exact ⟨_, List.drop_eq_getElem_cons hlt, (ih hlt).mp hrest⟩
      · rintro ⟨rest, hdrop, hrest⟩
        obtain ⟨hlt, hr, rfl⟩ := getElem_of_drop hdrop
        exact ⟨i + 1, ⟨rfl, hr⟩, (ih hlt).mpr hrest⟩

end Runs

/-- The match of the model is that of the regular expression. -/
theorem likeMatch_iff (s pat : Bytes) : likeMatch s pat ↔ LikeMatch s pat := by
  have hspans := consumesAll_like_iff (runes pat) (Nat.zero_le (runes s).length)
  rw [List.drop_zero] at hspans
  rw [likeMatch, ← hspans, LikeMatch, compile_likeRegexp]
  simp only [Option.some.injEq, exists_eq_left', matchString_anchored_iff]

/-! ### The match of SQL -/

/-- `%` stands for any sequence of characters, `_` for one, and every other character for itself. -/
inductive Like : List Rune → List Rune → Prop
  | nil : Like [] []
  | any {p s : List Rune} (run : List Rune) : Like p s → Like (37 :: p) (run ++ s)
  | one {p s : List Rune} (c : Rune) : Like p s → Like (95 :: p) (c :: s)
  | char {p s : List Rune} {c : Rune} : c ≠ 37 → c ≠ 95 → Like p s → Like (c :: p) (c :: s)

/-- Each line break of the pattern stands for one of the text. -/
theorem Like.count_le {p s : List Rune} (h : Like p s) : p.count newline ≤ s.count newline := by
  induction h with
  | nil => exact le_rfl
  | any run _ ih =>
    rw [List.count_append, List.count_cons_of_ne (by decide)]
    exact ih.trans (Nat.le_add_left _ _)
  | one c _ ih =>
    rw [List.count_cons_of_ne (by decide)]
    exact ih.trans List.count_le_count_cons
  | char _ _ _ ih =>
    rw [List.count_cons, List.count_cons]
    exact Nat.add_le_add_right ih _

/-- A run without a line break is skipped. -/
theorem afterAny_append {f : List Rune → Bool} {run s : List Rune} (h : newline ∉ run) (hf : f s) :
    afterAny f (run ++ s) := by
  induction run with
  | nil =>
    cases s with
    | nil => exact hf
    | cons c s => exact Bool.or_eq_true_iff.mpr (.inl hf)
  | cons c run ih =>
    rw [List.mem_cons, not_or] at h
    obtain ⟨hc, hrun⟩ := h
    rw [List.cons_append, afterAny, Bool.or_eq_true, Bool.and_eq_true, bne_iff_ne]
    exact .inr ⟨hc ∘ Eq.symm, ih hrun⟩

theorem exists_of_afterAny {f : List Rune → Bool} {s : List Rune} (h : afterAny f s) :
    ∃ run rest, s = run ++ rest ∧ newline ∉ run ∧ f rest := by
  induction s with
  | nil => exact ⟨[], [], rfl, List.not_mem_nil, h⟩
  | cons c s ih =>
    rw [afterAny, Bool.or_eq_true, Bool.and_eq_true, bne_iff_ne] at h
    rcases h with hf | ⟨hne, h⟩
    · exact ⟨[], c :: s, rfl, List.not_mem_nil, hf⟩
    · obtain ⟨run, rest, rfl, hrun, hf⟩ := ih h
      have hmem : newline ∉ c :: run := by
        rw [List.mem_cons, not_or]
        exact ⟨hne ∘ Eq.symm, hrun⟩
      exact ⟨c :: run, rest, rfl, hmem, hf⟩

/-- The match of the model is that of SQL in which no wildcard takes a line break. -/
theorem likeRunes_iff (p s : List Rune) :
    likeRunes p s ↔ Like p s ∧ s.count newline ≤ p.count newline := by
  induction p generalizing s with
  | nil =>
    rw [likeRunes, List.isEmpty_iff]
    constructor
    · rintro rfl
      exact ⟨.nil, le_rfl⟩
    · rintro ⟨h, -⟩
      cases h
      rfl
  | cons c p ih =>
    by_cases hany : c = 37
    · subst hany
      rw [likeRunes, List.count_cons_of_ne (by decide)]
      constructor
      · intro h
        obtain ⟨run, rest, rfl, hrun, hrest⟩ := exists_of_afterAny h
        obtain ⟨hlike, hcount⟩ := (ih rest).mp hrest
        refine ⟨.any run hlike, ?_⟩
        rwa [List.count_append, List.count_eq_zero_of_not_mem hrun, Nat.zero_add]
      · rintro ⟨h, hcount⟩
        generalize hp : 37 :: p = pat at h
        cases h with
        | nil => cases hp
        | any run h =>
          obtain ⟨-, rfl⟩ := List.cons.inj hp
          have hle := h.count_le
          rw [List.count_append] at hcount
          have hrun : newline ∉ run := List.count_eq_zero.mp (by omega)
          exact afterAny_append hrun ((ih _).mpr ⟨h, by omega⟩)
        | one c _ =>
          cases hp
        | char hne _ _ =>
          obtain ⟨rfl, -⟩ := List.cons.inj hp
          exact absurd rfl hne
    by_cases hone : c = 95
    · subst hone
      rw [likeRunes_one, List.count_cons_of_ne (by decide)]
      constructor
      · rintro ⟨c, rest, rfl, hne, hrest⟩
        obtain ⟨hlike, hcount⟩ := (ih rest).mp hrest
        exact ⟨.one c hlike, by rwa [List.count_cons_of_ne hne]⟩
      · rintro ⟨h, hcount⟩
        cases h with
        | one c h =>
          have hle := h.count_le
          rw [List.count_cons] at hcount
          have hne : c ≠ newline := by
            rintro rfl
            rw [if_pos (beq_self_eq_true _)] at hcount
            omega
          exact ⟨c, _, rfl, hne, (ih _).mpr ⟨h, by omega⟩⟩
        | char _ hne _ => exact absurd rfl hne
    · rw [likeRunes_char hany hone]
      constructor
      · rintro ⟨rest, rfl, hrest⟩
        obtain ⟨hlike, hcount⟩ := (ih rest).mp hrest
        refine ⟨.char hany hone hlike, ?_⟩
        rw [List.count_cons, List.count_cons]
        exact Nat.add_le_add_right hcount _
      · rintro ⟨h, hcount⟩
        cases h with
        | any _ _ => exact absurd rfl hany
        | one _ _ => exact absurd rfl hone
        | char _ _ h =>
          rw [List.count_cons, List.count_cons] at hcount
          exact ⟨_, rfl, (ih _).mpr ⟨h, Nat.le_of_add_le_add_right hcount⟩⟩

/-- LIKE is the match of SQL exactly on the texts with no more line breaks than the pattern and on
those that do not match. -/
theorem likeMatch_right_iff (s pat : Bytes) :
    (LikeMatch s pat ↔ Like (runes pat) (runes s)) ↔
      (runes s).count newline ≤ (runes pat).count newline ∨ ¬ Like (runes pat) (runes s) := by
  rw [← likeMatch_iff, likeMatch, likeRunes_iff]
  tauto

/-- `%` does not go over the end of a line. -/
theorem not_likeMatch_lines : Like (runes (ascii "a%b")) (runes (ascii "a\nb")) ∧
    ¬ LikeMatch (ascii "a\nb") (ascii "a%b") := by
  constructor
  · exact .char (by decide) (by decide) (.any [10] (.char (by decide) (by decide) .nil))
  · rw [← likeMatch_iff]
    decide +kernel

end Ydbgo.Sql
