import Ydbgo.Sql.Lexer

/-! # What the lexer reads

The lexer looks at no byte outside the source, and every token but the last takes
at least one byte. So it comes to an end, with one final token.
-/

namespace Ydbgo.Sql

open Tokens

/-- The position of a lexer lies within the source or at its end. -/
def Source (src : Bytes) (last : ℕ) : Prop := last = src.length

variable {α : Type} {C : Option UInt8 → Prop} {e : α → ℕ} {n : ℕ}

/-! ### Single steps -/

theorem getElem?_of_more {s : Tape UInt8} (h : s.pos < s.items.length) :
    s.items[s.pos]? = some s.items[s.pos] := List.getElem?_eq_getElem h

theorem takes_char {f : UInt8 → Lex α} (hC : ¬ C none)
    (hf : ∀ c, C (some c) → Takes Source (· = some c) e n (f c)) :
    Takes Source C e n (char >>= f) := by
  intro s hG hle hn hs
  rcases hc : s.items[s.pos]? with _ | c
  · exact absurd (hc ▸ hs) hC
  · rw [char, bind_assoc, proceeds_bind, proceeds_get, proceeds_bind, proceeds_itemAt hc]
    exact hf c (hc ▸ hs) s hG hle hn hc

theorem takes_more {f : UInt8 → Lex α} {g : Lex α}
    (hf : ∀ c, C (some c) → Takes Source (· = some c) e n (f c))
    (hg : C none → Takes Source (· = none) e n g) :
    Takes Source C e n (more >>= fun b => if b = true then char >>= f else g) := by
  intro s hG hle hn hs
  rw [more, bind_assoc, proceeds_bind, proceeds_get, pure_bind]
  by_cases hlt : s.pos < s.items.length
  · rw [if_pos (decide_eq_true hlt)]
    have hc := getElem?_of_more hlt
    have hchar : Takes Source (· = some s.items[s.pos]) e n (char >>= f) := by
      apply takes_char nofun
      rintro c h
      cases h
      exact hf _ (hc ▸ hs)
    exact hchar s hG hle hn hc
  · have hnone : s.items[s.pos]? = none := List.getElem?_eq_none (Nat.le_of_not_lt hlt)
    rw [if_neg (by simpa using hlt)]
    exact hg (hnone ▸ hs) s hG hle hn hnone

theorem proceeds_step {s : Tape UInt8} {k : ℕ} (hG : Source s.items s.last)
    (h : s.pos + k ≤ s.items.length) : Proceeds (step k) s fun _ s' => Goes k s s' := by
  have hlast : s.pos + k ≤ s.last := hG ▸ h
  rw [step, proceeds_bind, proceeds_get, proceeds_moveTo hlast]
  exact ⟨rfl, rfl, Nat.le_refl _, hlast⟩

theorem takes_step (hC : ¬ C none) : Takes Source C (fun _ => 1) n (step 1) := by
  intro s hG hle _ hs
  apply proceeds_step hG
  by_contra hlt
  exact hC (List.getElem?_eq_none (by omega : s.items.length ≤ s.pos) ▸ hs)

theorem takes_step_pure {a : α} (hC : ¬ C none) (ha : e a ≤ 1) :
    Takes Source C e n (step 1 >>= fun _ => pure a) :=
  takes_bind (takes_step hC) fun _ => takes_pure (Nat.sub_eq_zero_of_le ha)

theorem proceeds_nextIs {p : UInt8 → Bool} {s : Tape UInt8} :
    Proceeds (nextIs p) s fun b s' => s' = s ∧ (b = true → s.pos + 1 < s.items.length) := by
  rw [nextIs, proceeds_bind, proceeds_get]
  by_cases hlt : s.pos + 1 < s.items.length
  · rw [if_pos hlt, proceeds_bind, proceeds_itemAt (List.getElem?_eq_getElem hlt)]
    exact ⟨rfl, fun _ => hlt⟩
  · rw [if_neg hlt]
    exact ⟨rfl, by simp⟩

theorem takes_nextIs {p : UInt8 → Bool} {x y : Lex α} (hx : Takes Source C e n x)
    (hy : Takes Source C e n y) :
    Takes Source C e n (nextIs p >>= fun b => if b = true then x else y) := by
  intro s hG hle hn hs
  refine proceeds_bind.mpr (proceeds_nextIs.mono ?_)
  rintro b _ ⟨rfl, -⟩
  split
  · exact hx _ hG hle hn hs
  · exact hy _ hG hle hn hs

/-- A step over two bytes where there is a second. -/
theorem takes_nextIs_step {p : UInt8 → Bool} {a : α} {y : Lex α} (ha : e a ≤ 2)
    (hy : Takes Source C e n y) :
    Takes Source C e n
      (nextIs p >>= fun b => if b = true then step 2 >>= fun _ => pure a else y) := by
  intro s hG hle hn hs
  refine proceeds_bind.mpr (proceeds_nextIs.mono ?_)
  rintro b _ ⟨rfl, hb⟩
  split
  · have hstep := proceeds_step (k := 2) hG (hb ‹_›)
    exact proceeds_bind.mpr (hstep.mono fun _ s' hgo => hgo.mono ha)
  · exact hy _ hG hle hn hs

/-- The text behind a position, with what is made of it. -/
theorem proceeds_textFrom {start : ℕ} {f : Bytes → Lex α} {s s₁ : Tape UInt8}
    (hG : Source s.items s.last) (hstart : start ≤ s.pos) (hgo : Goes 1 s s₁)
    (hf : ∀ text s', Proceeds (f text) s' fun _ s'' => s'' = s') :
    Proceeds (textFrom start >>= f) s₁ fun _ s' => Goes 1 s s' := by
  obtain ⟨hitems, hlast, hpos, hle⟩ := hgo
  have hhi : s₁.pos ≤ s₁.items.length := by
    rw [hitems, ← show s.last = _ from hG, ← hlast]
    exact hle
  rw [textFrom, bind_assoc, proceeds_bind, proceeds_get, proceeds_bind,
    proceeds_itemsFrom (by omega) hhi]
  refine (hf _ s₁).mono ?_
  rintro _ _ rfl
  exact ⟨hitems, hlast, hpos, hle⟩

/-! ### Tokens -/

theorem takes_skipSpace : Takes Source Any (fun _ => 0) n (skipSpace n) := by
  apply takes_loop
  intro _
  apply takes_more
  · rintro c -
    apply takes_ite
    · intro _
      exact takes_step_pure nofun (Nat.le_refl 1)
    · intro _
      exact takes_pure rfl
  · intro _
    exact takes_pure rfl

theorem takes_lexIdent {c : UInt8} (hc : (c == 95 || isLetter c) = true) :
    Takes Source (· = some c) (fun _ => 1) n (lexIdent n) := by
  intro s hG hle hn hs
  rw [lexIdent, proceeds_bind, proceeds_get, proceeds_bind]
  have hloop : Takes Source (· = some c) (fun _ => 1) n (loop (fun _ => do
      if ← more then do
        let c ← char
        let l ← get
        if c == 95 || isLetter c || (s.pos < l.pos && isDigit c) then do
          step 1
          return .next ()
        else return .done ()
      else return .done ()) n ()) := by
    apply takes_loop_first
    · intro _
      apply takes_more
      · rintro c -
        refine takes_get fun _ => takes_ite ?_ ?_
        · intro _
          exact takes_step_pure nofun (Nat.le_refl 1)
        · intro _
          exact takes_pure rfl
      · intro _
        exact takes_pure rfl
    · -- the first byte is no digit
      apply takes_more
      · rintro _ ⟨⟩
        refine takes_get fun _ => ?_
        rw [hc, Bool.true_or, if_pos rfl]
        exact takes_step_pure nofun (Nat.le_refl 1)
      · exact nofun
  refine (hloop s hG hle hn hs).mono fun _ s₁ hgo => ?_
  exact proceeds_textFrom hG (Nat.le_refl _) hgo fun _ _ => proceeds_pure.mpr rfl

theorem takes_lexString {c : UInt8} : Takes Source (· = some c) (fun _ => 1) n (lexString n) := by
  apply takes_get
  intro l
  apply takes_char nofun
  rintro quote ⟨⟩
  apply takes_first (takes_step nofun)
  intro _
  apply Takes.fewer _ (Nat.sub_le n 1)
  apply takes_loop
  intro sb
  apply takes_more
  · rintro c -
    apply takes_ite
    · intro _
      exact takes_nextIs_step (Nat.le_succ 1) (takes_step_pure nofun (Nat.zero_le 1))
    · intro _
      exact takes_step_pure nofun (Nat.le_refl 1)
  · intro _
    exact takes_refuse _

theorem takes_exponentSign : Takes Source Any (fun _ => 0) n exponentSign := by
  apply takes_more
  · rintro c -
    apply takes_ite
    · intro _
      exact (takes_step nofun).less fun _ => Nat.zero_le 1
    · intro _
      exact takes_pure rfl
  · intro _
    exact takes_pure rfl

/-- What the loop of `lexNumber` does at a byte. -/
theorem takes_numberChar {c : UInt8} {isFloat : Bool} {r : Lex (Round Bool Bool)}
    {d : Round Bool Bool → ℕ} (hd : ∀ r, d r ≤ 1) (hr : Takes Source (· = some c) d n r) :
    Takes Source (· = some c) d n (if isDigit c then do
        step 1
        return .next isFloat
      else if c = 46 then do
        step 1
        return .next true
      else if c = 101 ∨ c = 69 then do
        step 1
        exponentSign
        return .next true
      else r) := by
  apply takes_ite
  · intro _
    exact takes_step_pure nofun (hd _)
  intro _
  apply takes_ite
  · intro _
    exact takes_step_pure nofun (hd _)
  intro _
  apply takes_ite
  · intro _
    have hstep : Takes Source (· = some c) (fun _ => 1) n (step 1 >>= fun _ => exponentSign >>=
        fun _ => pure (Round.next (β := Bool) true)) :=
      takes_first (takes_step nofun) fun _ =>
        takes_then takes_exponentSign fun _ => takes_pure rfl
    exact hstep.less hd
  · intro _
    exact hr

theorem proceeds_number {lib : Stdlib} {isFloat : Bool} {start : ℕ} {text : Bytes}
    {s : Tape UInt8} :
    Proceeds (show Lex Token from if isFloat then
        match lib.parseFloat text with
        | some f =>
          return { kind := .number, text := text, pos := start, isFloat := true, fltVal := f }
        | none => refuse (ascii "bad number " ++ lib.quote text)
      else
        match parseInt text with
        | some i => return { kind := .number, text := text, pos := start, intVal := i }
        | none => refuse (ascii "bad integer " ++ lib.quote text)) s fun _ s' => s' = s := by
  split
  · split
    · exact proceeds_pure.mpr rfl
    · exact proceeds_refuse _
  · split
    · exact proceeds_pure.mpr rfl
    · exact proceeds_refuse _

theorem takes_lexNumber {lib : Stdlib} {c : UInt8} (hc : isDigit c = true ∨ c = 46) :
    Takes Source (· = some c) (fun _ => 1) n (lexNumber lib n) := by
  intro s hG hle hn hs
  rw [lexNumber, proceeds_bind, proceeds_get, proceeds_bind]
  have hloop : Takes Source (· = some c) (fun _ => 1) n (loop (fun isFloat => do
      if ← more then do
        let c ← char
        if isDigit c then do
          step 1
          return .next isFloat
        else if c = 46 then do
          step 1
          return .next true
        else if c = 101 ∨ c = 69 then do
          step 1
          exponentSign
          return .next true
        else return .done isFloat
      else return .done isFloat) n false) := by
    apply takes_loop_first
    · intro isFloat
      apply takes_more
      · rintro c -
        apply takes_numberChar
        · rintro (_ | _)
          · exact Nat.le_refl 1
          · exact Nat.zero_le 1
        · exact takes_pure rfl
      · intro _
        exact takes_pure rfl
    · apply takes_more
      · rintro _ ⟨⟩
        obtain hc | rfl := hc
        · rw [if_pos hc]
          exact takes_step_pure nofun (Nat.le_refl 1)
        · exact takes_step_pure nofun (Nat.le_refl 1)
      · exact nofun
  refine (hloop s hG hle hn hs).mono fun isFloat s₁ hgo => ?_
  exact proceeds_textFrom hG (Nat.le_refl _) hgo fun _ _ => proceeds_number

theorem takes_single {kind : TokKind} {c : UInt8} :
    Takes Source (· = some c) (fun _ => 1) n (single kind c) :=
  takes_get fun _ => takes_step_pure nofun (Nat.le_refl 1)

theorem proceeds_twoBytes {s : Tape UInt8} :
    Proceeds twoBytes s fun two s' => s' = s ∧ (two ≠ [] → s.pos + 2 ≤ s.items.length) := by
  rw [twoBytes, proceeds_bind, proceeds_get]
  by_cases hlt : s.pos + 1 < s.items.length
  · rw [if_pos hlt, proceeds_itemsFrom (Nat.le_add_right _ 2) hlt]
    exact ⟨rfl, fun _ => hlt⟩
  · rw [if_neg hlt]
    exact ⟨rfl, fun h => absurd rfl h⟩

theorem takes_lexOp {lib : Stdlib} {c : UInt8} :
    Takes Source (· = some c) (fun _ => 1) n (lexOp lib c) := by
  apply takes_get
  intro l s hG hle hn hs
  refine proceeds_bind.mpr (proceeds_twoBytes.mono ?_)
  rintro two _ ⟨rfl, htwo⟩
  split
  · have hne : two ≠ [] := by
      rintro rfl
      revert ‹[] ∈ _›
      decide
    refine proceeds_bind.mpr ((proceeds_step hG (htwo hne)).mono fun _ s' hgo => ?_)
    exact proceeds_pure.mpr (hgo.mono (Nat.le_succ 1))
  · split
    · exact takes_single _ hG hle hn hs
    · exact proceeds_refuse _

/-- Every token but the last takes a byte or more. -/
def Token.dist (t : Token) : ℕ := if t.kind = .eof then 0 else 1

theorem Token.dist_le (t : Token) : t.dist ≤ 1 := by
  unfold dist
  split <;> decide

/-- The token at a byte. -/
theorem takes_nextAt {lib : Stdlib} {c : UInt8} : Takes Source (· = some c) (fun _ => 1) n
    (if c = 44 then single .comma c
    else if c = 40 then single .lparen c
    else if c = 41 then single .rparen c
    else if c = 42 then single .star c
    else if c = 59 then single .semicolon c
    else if c = 46 then do
      if ← nextIs isDigit then lexNumber lib n else single .dot c
    else if c = 39 ∨ c = 34 then lexString n
    else if isDigit c then lexNumber lib n
    else if c == 95 || isLetter c then lexIdent n
    else lexOp lib c) := by
  refine takes_ite (fun _ => takes_single) fun _ => ?_
  refine takes_ite (fun _ => takes_single) fun _ => ?_
  refine takes_ite (fun _ => takes_single) fun _ => ?_
  refine takes_ite (fun _ => takes_single) fun _ => ?_
  refine takes_ite (fun _ => takes_single) fun _ => ?_
  refine takes_ite (fun hc => ?_) fun _ => ?_
  · exact takes_nextIs (takes_lexNumber (.inr hc)) takes_single
  refine takes_ite (fun _ => takes_lexString) fun _ => ?_
  refine takes_ite (fun hc => takes_lexNumber (.inl hc)) fun _ => ?_
  exact takes_ite takes_lexIdent fun _ => takes_lexOp

theorem takes_next {lib : Stdlib} : Takes Source Any Token.dist n (next lib n) := by
  apply takes_then takes_skipSpace
  intro _ s hG hle hn hs
  rw [proceeds_bind, proceeds_get]
  by_cases hlt : s.pos < s.items.length
  · rw [if_pos hlt]
    have hc := getElem?_of_more hlt
    generalize s.items[s.pos] = c at hc
    refine takes_char (C := (· = some c)) nofun (fun _ h => ?_) s hG hle hn hc
    cases h
    exact takes_nextAt.less Token.dist_le
  · rw [if_neg hlt]
    exact proceeds_pure.mpr (Goes.refl hle)

theorem takes_tokens {lib : Stdlib} : Takes Source Any (fun _ => 0) n (tokens lib n) := by
  apply takes_loop
  intro out
  apply takes_bind takes_next
  intro t
  apply takes_ite
  · intro _
    exact takes_pure (Nat.zero_sub _)
  · intro ht
    exact takes_pure (by rw [Token.dist, if_neg ht]; rfl)

/-! ### The sequence of tokens -/

/-- The final token, and no other, is the end of the input; its index is the last position. -/
structure Closed (toks : List Token) (last : ℕ) : Prop where
  length : toks.length = last + 1
  eof (i : ℕ) {t : Token} : toks[i]? = some t → (t.kind = .eof ↔ i = last)

/-- Tokens, none of which is the end of the input. -/
def Open (toks : List Token) : Prop := ∀ t ∈ toks, t.kind ≠ .eof

theorem Open.snoc {toks : List Token} {t : Token} (h : Open toks) (ht : t.kind ≠ .eof) :
    Open (toks ++ [t]) := by
  intro u hu
  obtain hu | hu := List.mem_append.mp hu
  · exact h u hu
  · rwa [List.mem_singleton.mp hu]

theorem Open.closed {toks : List Token} {t : Token} (h : Open toks) (ht : t.kind = .eof) :
    Closed (toks ++ [t]) toks.length := by
  constructor
  · exact List.length_append
  · intro i u hu
    by_cases hi : i < toks.length
    · rw [List.getElem?_append_left hi] at hu
      exact iff_of_false (h u (List.mem_of_getElem? hu)) (Nat.ne_of_lt hi)
    · have hlt : i < (toks ++ [t]).length := (List.getElem?_eq_some_iff.mp hu).1
      obtain rfl : i = toks.length := by
        rw [List.length_append, List.length_singleton] at hlt
        omega
      rw [List.getElem?_concat_length] at hu
      exact iff_of_true (Option.some.inj hu ▸ ht) rfl

theorem returns_tokens {lib : Stdlib} :
    Returns (tokens lib n) fun toks => Closed toks (toks.length - 1) := by
  refine returns_loop (I := Open) ?_ ?_
  · exact fun _ h => absurd h List.not_mem_nil
  · intro out hout
    refine returns_bind fun t => ?_
    split
    · rename_i ht
      have hclosed := hout.closed ht
      refine returns_pure ?_
      rwa [Round.Holds, List.length_append, List.length_singleton, Nat.add_sub_cancel]
    · rename_i ht
      exact returns_pure (hout.snoc ht)

variable (lib : Stdlib) (src : Bytes)

/-- The lexer meets no fault. -/
theorem tokenize_ne_fault (f : Fault) : tokenize lib src ≠ .error (.fault f) := by
  have hproceeds : Proceeds (tokens lib (src.length + 1)) ⟨src, 0, src.length⟩ _ :=
    takes_tokens.ends rfl (Nat.zero_le _) (Nat.lt_succ_self _)
  exact hproceeds.ne_fault f

theorem closed_of_tokenize {toks : List Token} (h : tokenize lib src = .ok toks) :
    Closed toks (toks.length - 1) := by
  rcases hrun : (tokens lib (src.length + 1)).exec ⟨src, 0, src.length⟩ with ⟨r, s⟩
  rw [tokenize, hrun] at h
  obtain rfl : r = .ok toks := h
  exact returns_tokens _ _ _ hrun

end Ydbgo.Sql
