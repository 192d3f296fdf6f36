import Ydbgo.Sql.Lexed
import Ydbgo.Sql.Print

/-! # The tokens of a printed text

A text spells some tokens if it has them wherever it stands, before any text that
does not run into it. Printed texts are put together from such pieces.
-/

namespace Ydbgo.Sql

open Tokens

/-- A token at no position. -/
def Token.bare (t : Token) : Token := { t with pos := 0 }

/-- Before a text with `F`, these are the tokens of the text. -/
def Spells (lib : Stdlib) (F : Bytes → Prop) (text : Bytes) (us : List Token) : Prop :=
  ∀ p rest ts, F rest → Lexed lib (p + text.length) rest ts →
    ∃ ts', Lexed lib p (text ++ rest) (ts' ++ ts) ∧ ts'.map Token.bare = us

/-- A byte that ends a word, a number, a literal and an operator. -/
def Delimiter (c : UInt8) : Prop := c ∈ [32, 40, 41, 44]

/-- A text that does not run into what is before it. -/
def Detached (rest : Bytes) : Prop := ∀ c ∈ rest.head?, Delimiter c

/-- Any text. -/
def AnyText (_ : Bytes) : Prop := True

variable {lib : Stdlib} {F G : Bytes → Prop} {text text' rest : Bytes} {us us' : List Token}
  {c : UInt8} {l : Bytes} {t : Token}

theorem delimiter_space : Delimiter 32 := by
  unfold Delimiter
  decide

theorem delimiter_lparen : Delimiter 40 := by
  unfold Delimiter
  decide

theorem delimiter_rparen : Delimiter 41 := by
  unfold Delimiter
  decide

theorem delimiter_comma : Delimiter 44 := by
  unfold Delimiter
  decide

theorem detached_nil : Detached [] := by
  rintro _ ⟨⟩

theorem detached_cons (h : Delimiter c) : Detached (c :: l) := by
  rintro _ ⟨⟩
  exact h

theorem Detached.not {p : UInt8 → Bool} (h : Detached rest)
    (hp : [32, 40, 41, 44].all fun c => !p c) : ∀ c ∈ rest.head?, p c = false := by
  intro c hc
  have := List.all_eq_true.mp hp c (h c hc)
  rwa [Bool.not_eq_true'] at this

/-! ### Pieces -/

theorem spells_nil : Spells lib F [] [] := fun _ _ _ _ h => ⟨[], h, rfl⟩

theorem Spells.append (h : Spells lib F text us) (h' : Spells lib G text' us')
    (hF : ∀ rest, G rest → F (text' ++ rest)) : Spells lib G (text ++ text') (us ++ us') := by
  intro p rest ts hrest hx
  rw [List.length_append, ← Nat.add_assoc] at hx
  obtain ⟨ts', hx', rfl⟩ := h' _ _ _ hrest hx
  obtain ⟨ts'', hx'', rfl⟩ := h _ _ _ (hF _ hrest) hx'
  refine ⟨ts'' ++ ts', ?_, List.map_append⟩
  rwa [List.append_assoc, List.append_assoc]

theorem Spells.any (h : Spells lib AnyText text us) (h' : Spells lib G text' us') :
    Spells lib G (text ++ text') (us ++ us') := h.append h' fun _ _ => trivial

/-- A piece before one that begins with a delimiter. -/
theorem Spells.detached (h : Spells lib Detached text us) (h' : Spells lib G (c :: l) us')
    (hc : Delimiter c) : Spells lib G (text ++ c :: l) (us ++ us') :=
  h.append h' fun _ _ => detached_cons hc

theorem Spells.weaken (h : Spells lib AnyText text us) : Spells lib F text us :=
  fun p rest ts _ => h p rest ts trivial

theorem headToken_space : headToken lib (32 :: l) =
    (headToken lib l).map fun r => ({ r.1 with pos := r.1.pos + 1 }, r.2 + 1) := by
  unfold headToken
  have hspace : (32 :: l).takeWhile isSpace = 32 :: l.takeWhile isSpace := rfl
  simp only [hspace, List.length_cons, List.drop_succ_cons]
  cases l.drop (l.takeWhile isSpace).length with
  | nil => rfl
  | cons c rest =>
    simp only [Option.map_map]
    congr 1
    funext r
    exact Prod.ext rfl (Nat.add_right_comm _ _ _)

theorem lexed_space {p : ℕ} {ts : List Token} (h : Lexed lib (p + 1) l ts) :
    Lexed lib p (32 :: l) ts := by
  have hpos (t : Token) : t.behind (p + 1) = ({ t with pos := t.pos + 1 } : Token).behind p := by
    unfold Token.behind
    rw [Nat.add_assoc, Nat.add_comm 1]
  cases h with
  | eof hhead ht =>
    rw [hpos]
    exact .eof (by rw [headToken_space, hhead]; rfl) ht
  | @cons _ _ t k ts hhead ht hrest =>
    rw [hpos]
    refine .cons (k := k + 1) (by rw [headToken_space, hhead]; rfl) ht ?_
    rwa [List.drop_succ_cons, Nat.add_comm k, ← Nat.add_assoc]

theorem spells_space : Spells lib F [32] [] := fun _ _ _ _ h => ⟨[], lexed_space h, rfl⟩

theorem Spells.space (h : Spells lib Detached text us) : Spells lib F (text ++ [32]) us := by
  have := h.append (@spells_space lib F) fun _ _ => detached_cons delimiter_space
  rwa [List.append_nil] at this

/-- One token. -/
theorem spells_token (hc : isSpace c = false) (ht : t.kind ≠ .eof)
    (h : ∀ rest, F rest → tokenAt lib c (l ++ rest) = some (t, l.length + 1)) :
    Spells lib F (c :: l) [t.bare] := by
  intro p rest ts hrest hx
  have hhead : headToken lib (c :: l ++ rest) = some (t.bare, l.length + 1) := by
    unfold headToken
    simp only [List.cons_append, List.takeWhile_cons, hc, Bool.false_eq_true, if_false,
      List.length_nil, List.drop_zero, h rest hrest, Option.map_some, Nat.zero_add]
    rfl
  refine ⟨[t.bare.behind p], .cons hhead ht ?_, rfl⟩
  have hdrop : (c :: l ++ rest).drop (l.length + 1) = rest := List.drop_left
  rwa [hdrop]

/-! ### Tokens of one byte -/

/-- A token of one byte. -/
def markToken (kind : TokKind) (c : UInt8) : Token := { kind := kind, text := [c], pos := 0 }

theorem spells_lparen : Spells lib F [40] [markToken .lparen 40] :=
  @spells_token _ _ 40 [] (markToken .lparen 40) rfl TokKind.noConfusion fun _ _ => rfl

theorem spells_rparen : Spells lib F [41] [markToken .rparen 41] :=
  @spells_token _ _ 41 [] (markToken .rparen 41) rfl TokKind.noConfusion fun _ _ => rfl

theorem spells_comma : Spells lib F [44] [markToken .comma 44] :=
  @spells_token _ _ 44 [] (markToken .comma 44) rfl TokKind.noConfusion fun _ _ => rfl

theorem spells_star : Spells lib F [42] [markToken .star 42] :=
  @spells_token _ _ 42 [] (markToken .star 42) rfl TokKind.noConfusion fun _ _ => rfl

/-! ### Words -/

def word (w : Bytes) : Token := { kind := .ident, text := w, pos := 0 }

def keyword (s : String) : Token := word (ascii s)

/-- The lexer reads the text as one identifier. -/
def isWord : Bytes → Bool
  | [] => false
  | c :: l => (c == 95 || isLetter c) && l.all isWordByte

theorem letter_ne (h : (c == 95 || isLetter c) = true) {d : UInt8}
    (hd : (d == 95 || isLetter d) = false) : c ≠ d := by
  rintro rfl
  rw [hd] at h
  cases h

theorem not_digit_of_letter (h : (c == 95 || isLetter c) = true) : isDigit c = false := by
  simp [isLetter, UInt8.le_iff_toNat_le, ← UInt8.toNat_inj] at h
  simp only [isDigit, decide_eq_false_iff_not, UInt8.le_iff_toNat_le, UInt8.reduceToNat]
  omega

theorem not_space_of_letter (h : (c == 95 || isLetter c) = true) : isSpace c = false := by
  simp only [isSpace, Bool.or_eq_false_iff, beq_eq_false_iff_ne]
  exact ⟨⟨⟨letter_ne h rfl, letter_ne h rfl⟩, letter_ne h rfl⟩, letter_ne h rfl⟩

theorem takeWhile_detached {p : UInt8 → Bool} (hl : l.all p)
    (hrest : ∀ c ∈ rest.head?, p c = false) :
    (l ++ rest).takeWhile p = l := by
  rw [List.takeWhile_append_of_pos (List.all_eq_true.mp hl)]
  cases rest with
  | nil => exact List.append_nil l
  | cons c rest =>
    rw [List.takeWhile_cons, hrest c rfl, if_neg Bool.false_ne_true, List.append_nil]

/-- A word before a text that does not make it longer. -/
theorem spells_word_before (hF : ∀ rest, F rest → ∀ c ∈ rest.head?, isWordByte c = false)
    {w : Bytes} (h : isWord w = true) : Spells lib F w [word w] := by
  cases w with
  | nil => cases h
  | cons c l =>
    obtain ⟨hc, hl⟩ := Bool.and_eq_true_iff.mp h
    refine @spells_token _ _ c l (word (c :: l)) (not_space_of_letter hc) TokKind.noConfusion
      fun rest hrest => ?_
    have htake : (l ++ rest).takeWhile isWordByte = l := takeWhile_detached hl (hF rest hrest)
    have hquote : ¬ (c = 39 ∨ c = 34) := not_or_intro (letter_ne hc rfl) (letter_ne hc rfl)
    simp only [tokenAt, letter_ne hc (d := 44) rfl, letter_ne hc (d := 40) rfl,
      letter_ne hc (d := 41) rfl, letter_ne hc (d := 42) rfl, letter_ne hc (d := 59) rfl,
      letter_ne hc (d := 46) rfl, hquote, if_false, not_digit_of_letter hc, Bool.false_eq_true, hc,
      if_true, htake]
    rfl

theorem spells_word {w : Bytes} (h : isWord w = true) : Spells lib Detached w [word w] :=
  spells_word_before (fun _ hrest => hrest.not rfl) h

theorem spells_keyword {s : String} (h : isWord (ascii s) = true) :
    Spells lib Detached (ascii s) [keyword s] := spells_word h

/-- Words with a space behind each. -/
def phraseText (ws : List String) : Bytes := ws.flatMap fun w => ascii w ++ [32]

def phrase (ws : List String) : List Token := ws.map keyword

theorem spells_phrase {ws : List String} (h : ws.all fun w => isWord (ascii w)) :
    Spells lib F (phraseText ws) (phrase ws) := by
  induction ws with
  | nil => exact spells_nil
  | cons w ws ih =>
    obtain ⟨hw, hws⟩ := Bool.and_eq_true_iff.mp h
    exact (spells_word hw).space.any (ih hws)

/-! ### Numbers -/

theorem numberPart_detached (h : Detached rest) {isFloat sign : Bool} :
    numberPart isFloat sign (l ++ rest) = numberPart isFloat sign l := by
  induction l generalizing isFloat sign with
  | nil =>
    cases rest with
    | nil => rfl
    | cons c rest =>
      have hc : c ∈ [32, 40, 41, 44] := h c rfl
      simp only [List.mem_cons, List.not_mem_nil, or_false] at hc
      rcases hc with rfl | rfl | rfl | rfl <;> cases sign <;> rfl
  | cons c l ih => simp only [List.cons_append, numberPart, ih]

/-- The text is one number, without a sign. -/
def IsNumber (lib : Stdlib) (text : Bytes) (t : Token) : Prop :=
  numberToken lib text = some (t, text.length) ∧ text.head?.any isDigit = true

theorem IsNumber.kind (h : IsNumber lib text t) : t.kind = .number := by
  have htoken := h.1
  unfold numberToken at htoken
  dsimp only at htoken
  split at htoken <;>
    obtain ⟨v, -, hv⟩ := Option.map_eq_some_iff.mp htoken <;>
    obtain ⟨rfl, -⟩ := Prod.mk.inj hv <;> rfl

theorem spells_number (h : IsNumber lib text t) : Spells lib Detached text [t.bare] := by
  have hkind := h.kind
  obtain ⟨htoken, hhead⟩ := h
  cases text with
  | nil => cases hhead
  | cons c l =>
    have hc : isDigit c = true := hhead
    have hne {d : UInt8} (hd : isDigit d = false) : c ≠ d := by
      rintro rfl
      rw [hd] at hc
      cases hc
    have hspace : isSpace c = false := by
      simp only [isSpace, Bool.or_eq_false_iff, beq_eq_false_iff_ne]
      exact ⟨⟨⟨hne rfl, hne rfl⟩, hne rfl⟩, hne rfl⟩
    refine spells_token hspace (by rw [hkind]; exact TokKind.noConfusion) fun rest hrest => ?_
    have hquote : ¬ (c = 39 ∨ c = 34) := not_or_intro (hne rfl) (hne rfl)
    have hnumber : numberToken lib (c :: (l ++ rest)) = some (t, l.length + 1) := by
      rw [← List.cons_append, ← List.length_cons, ← htoken]
      unfold numberToken
      dsimp only
      rw [numberPart_detached hrest, List.take_append_of_le_length (numberPart_le (c :: l))]
    simp only [tokenAt, hne (d := 44) rfl, hne (d := 40) rfl, hne (d := 41) rfl,
      hne (d := 42) rfl, hne (d := 59) rfl, hne (d := 46) rfl, hquote, if_false, hc, if_true,
      hnumber]

/-! ### Literals -/

def literalToken (s : Bytes) : Token := { kind := .string, text := s, pos := 0 }

theorem quoted_doubleQuotes (h : rest.head? ≠ some 39) (s : Bytes) :
    quoted 39 (doubleQuotes s ++ 39 :: rest) = some (s, (doubleQuotes s).length + 1) := by
  induction s with
  | nil => exact quoted_close h
  | cons c s ih =>
    unfold doubleQuotes at ih ⊢
    rw [List.flatMap_cons]
    by_cases hc : c = 39
    · subst hc
      rw [if_pos rfl]
      simp only [List.cons_append, List.nil_append, quoted_doubled, ih, Option.map_some,
        List.length_cons]
    · rw [if_neg hc]
      simp only [List.cons_append, List.nil_append, quoted_other hc, ih, Option.map_some,
        List.length_cons]

theorem spells_sqlStr (s : Bytes) : Spells lib Detached (sqlStr s) [literalToken s] := by
  refine @spells_token _ _ 39 (doubleQuotes s ++ [39]) (literalToken s) rfl TokKind.noConfusion
    fun rest hrest => ?_
  have hne : rest.head? ≠ some 39 := by
    intro h
    have hd : Delimiter 39 := hrest 39 h
    exact absurd hd (by unfold Delimiter; decide)
  rw [List.append_assoc, List.length_append]
  exact congrArg (Option.map _) (quoted_doubleQuotes hne s)

/-! ### Operators -/

def opMark (text : Bytes) : Token := { kind := .op, text := text, pos := 0 }

/-- A text that does not make an operator longer. -/
def NoOperator (rest : Bytes) : Prop := ∀ c ∈ rest.head?, c ≠ 61 ∧ c ≠ 62

theorem Detached.noOperator (h : Detached rest) : NoOperator rest := by
  intro c hc
  have hd : c ∈ [32, 40, 41, 44] := h c hc
  simp only [List.mem_cons, List.not_mem_nil, or_false] at hd
  rcases hd with rfl | rfl | rfl | rfl <;> decide

theorem opToken_one (h : (ascii "+-*/=<>").contains c) (hrest : NoOperator rest) :
    opToken c rest = some (markToken .op c, 1) := by
  unfold opToken
  cases rest with
  | nil => exact (if_neg (by rw [if_pos rfl]; decide)).trans (if_pos h)
  | cons d rest =>
    refine (if_neg ?_).trans (if_pos h)
    rw [if_neg (List.cons_ne_nil _ _)]
    change [c, d] ∉ _
    have hlast : ∀ two ∈ ["==", ">=", "<=", "<>", "!="].map ascii,
        two.getLast? = some 61 ∨ two.getLast? = some 62 := by decide
    intro hmem
    obtain ⟨h61, h62⟩ := hrest d rfl
    rcases hlast _ hmem with he | he
    · exact h61 (Option.some.inj he)
    · exact h62 (Option.some.inj he)

theorem spells_op (h : c ∈ [43, 45, 47, 61, 60, 62]) : Spells lib NoOperator [c] [opMark [c]] := by
  have hall : ∀ c ∈ [43, 45, 47, 61, 60, 62], (ascii "+-*/=<>").contains c = true ∧
      isSpace c = false ∧ isDigit c = false ∧ (c == 95 || isLetter c) = false ∧
      c ∉ [44, 40, 41, 42, 59, 46, 39, 34] := by decide +kernel
  obtain ⟨hop, hspace, hdigit, hletter, hc⟩ := hall c h
  simp only [List.mem_cons, List.not_mem_nil, or_false, not_or] at hc
  obtain ⟨h44, h40, h41, h42, h59, h46, h39, h34⟩ := hc
  refine @spells_token _ _ c [] (opMark [c]) hspace TokKind.noConfusion fun rest hrest => ?_
  simp only [tokenAt, h44, h40, h41, h42, h59, h46, h39, h34, or_self, if_false, hdigit,
    Bool.false_eq_true, hletter, List.nil_append]
  exact opToken_one hop hrest

/-- The tokens of an operator. -/
def BinOp.tokens : BinOp → List Token
  | .mul => [markToken .star 42]
  | .and => [keyword "AND"]
  | .or => [keyword "OR"]
  | .like => [keyword "LIKE"]
  | .notLike => [keyword "NOT", keyword "LIKE"]
  | op => [opMark op.text]

def UnOp.tokens : UnOp → List Token
  | .not => [keyword "NOT"]
  | op => [opMark op.text]

theorem spells_binOp (op : BinOp) : Spells lib Detached op.text op.tokens := by
  have hone {c : UInt8} (h : c ∈ [43, 45, 47, 61, 60, 62]) : Spells lib Detached [c] [opMark [c]] :=
    fun p rest ts hrest => spells_op h p rest ts hrest.noOperator
  cases op with
  | add => exact hone (c := 43) (by decide)
  | sub => exact hone (c := 45) (by decide)
  | mul => exact spells_star
  | div => exact hone (c := 47) (by decide)
  | eq => exact hone (c := 61) (by decide)
  | lt => exact hone (c := 60) (by decide)
  | gt => exact hone (c := 62) (by decide)
  | le => exact @spells_token _ _ 60 [61] (opMark [60, 61]) rfl TokKind.noConfusion fun _ _ => rfl
  | ge => exact @spells_token _ _ 62 [61] (opMark [62, 61]) rfl TokKind.noConfusion fun _ _ => rfl
  | ne => exact @spells_token _ _ 60 [62] (opMark [60, 62]) rfl TokKind.noConfusion fun _ _ => rfl
  | and => exact spells_keyword rfl
  | or => exact spells_keyword rfl
  | like => exact spells_keyword rfl
  | notLike =>
    have hnot : Spells lib AnyText (ascii "NOT" ++ [32]) [keyword "NOT"] :=
      (spells_keyword rfl).space
    have hlike : Spells lib Detached (ascii "LIKE") [keyword "LIKE"] := spells_keyword rfl
    exact hnot.any hlike

end Ydbgo.Sql
