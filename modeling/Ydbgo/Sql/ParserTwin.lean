import Ydbgo.Lib.Twin
import Ydbgo.Sql.Lexed
import Ydbgo.Sql.Parser

/-! # Parsing a piece of a script

A piece of a script has the tokens of the script up to its own end, where a
semicolon of the script may stand. The parser does the same on both, unless it
takes the token there for a name.
-/

namespace Ydbgo.Sql

open Tokens

/-- The tokens of a script and those of a piece of it: they are the same from the index `off` on, up
to the end of the piece at `last`, where the script has a semicolon or its own end. -/
structure Piece where
  script : List Token
  tokens : List Token
  off : ℕ
  last : ℕ
  stop : TokKind
  length : tokens.length = last + 1
  inside : ∀ j < last, ∃ t p, script[off + j]? = some t ∧ tokens[j]? = some { t with pos := p }
  ends : ∃ t t', script[off + last]? = some t ∧ tokens[last]? = some t' ∧ t.kind = stop ∧
    t'.kind = .eof ∧ (stop = .eof → SameToken t t')
  stopKind : stop = .semicolon ∨ stop = .eof ∧ off + last + 1 = script.length

/-- A parser of the script and a parser of the piece, at the same token. -/
structure Piece.Beside (W : Piece) (s s' : Tape Token) : Prop where
  items : s.items = W.script
  items' : s'.items = W.tokens
  last : s.last + 1 = W.script.length
  last' : s'.last = W.last
  pos : s.pos = W.off + s'.pos
  le : s'.pos ≤ W.last

/-- A keyword stands there. -/
def Word (toks : List Token) (i : ℕ) (kw : String) : Prop :=
  ∃ t, toks[i]? = some t ∧ t.kind = .ident ∧ equalFold t.text kw = true

variable {W : Piece} {α : Type} {P Q : ℕ → Prop} {n n' : ℕ}

theorem movesAlike_beside : MovesAlike W.Beside := by
  intro s s' s₁ s₁' h h₁
  rw [h.pos, h₁.pos]
  omega

theorem Piece.fits (W : Piece) : W.off + W.last < W.script.length := by
  obtain ⟨t, -, ht, -⟩ := W.ends
  exact (List.getElem?_eq_some_iff.mp ht).1

theorem Piece.stop_ne {kind : TokKind} (hkind : kind ≠ .eof ∧ kind ≠ .semicolon) :
    W.stop ≠ kind := by
  rintro rfl
  rcases W.stopKind with h | ⟨h, -⟩
  · exact hkind.2 h
  · exact hkind.1 h

/-- Tokens that are neither a semicolon nor the end of the input stand before the end of a piece. -/
theorem Piece.lt_of_kind (W : Piece) {i : ℕ} {t : Token} (ht : W.tokens[i]? = some t)
    (hkind : t.kind ≠ .eof) : i < W.last := by
  obtain ⟨-, t', -, ht', -, heof, -⟩ := W.ends
  have hlt := (List.getElem?_eq_some_iff.mp ht).1
  rw [W.length] at hlt
  refine Nat.lt_of_le_of_ne (Nat.le_of_lt_succ hlt) ?_
  rintro rfl
  rw [ht] at ht'
  exact hkind (Option.some.inj ht' ▸ heof)

theorem Piece.lt_of_word (W : Piece) {i : ℕ} {kw : String} (h : Word W.tokens i kw) :
    i < W.last := by
  obtain ⟨t, ht, hkind, -⟩ := h
  exact W.lt_of_kind ht (by simp [hkind])

/-! ### Single steps -/

theorem exec_itemAt {s : Tape Token} {i : ℕ} {t : Token} (h : s.items[i]? = some t) :
    (itemAt i : Parser Token).exec s = (.ok t, s) := by
  unfold itemAt
  rw [Prog.exec_bind, Prog.exec_get]
  dsimp only
  rw [if_pos (Int.natCast_nonneg _), Int.toNat_natCast, h]
  rfl

theorem exec_moveTo {s : Tape Token} {i : ℕ} (h : i ≤ s.last) :
    (moveTo i : Parser Unit).exec s = (.ok (), { s with pos := i }) := by
  unfold moveTo
  rw [Prog.exec_bind, Prog.exec_get]
  dsimp only
  rw [if_pos ⟨Int.natCast_nonneg _, Int.ofNat_le.mpr h⟩]
  rfl

theorem exec_peek {s : Tape Token} {t : Token} (h : s.items[s.pos]? = some t) :
    peek.exec s = (.ok t, s) := exec_itemAt h

theorem exec_advance {s : Tape Token} {t : Token} (h : s.items[s.pos]? = some t)
    (hlen : s.items.length = s.last + 1) (hlt : s.pos < s.last) :
    advance.exec s = (.ok t, { s with pos := s.pos + 1 }) := by
  have hmove : (s.pos : ℤ) < (s.items.length : ℤ) - 1 := by omega
  change (itemAt (s.pos : ℤ) >>= _ : Parser Token).exec s = _
  rw [Prog.exec_bind_ok (exec_itemAt h), if_pos hmove, Prog.exec_bind_ok (exec_moveTo hlt)]
  rfl

/-- At the end of the input. -/
theorem exec_advance_last {s : Tape Token} {t : Token} (h : s.items[s.pos]? = some t)
    (hlen : s.items.length = s.last + 1) (hlast : s.pos = s.last) :
    advance.exec s = (.ok t, s) := by
  have hmove : ¬ (s.pos : ℤ) < (s.items.length : ℤ) - 1 := by omega
  change (itemAt (s.pos : ℤ) >>= _ : Parser Token).exec s = _
  rw [Prog.exec_bind_ok (exec_itemAt h), if_neg hmove]
  rfl

theorem exec_advance_any {s : Tape Token} {t : Token} (h : s.items[s.pos]? = some t)
    (hlen : s.items.length = s.last + 1) : ∃ s₁, advance.exec s = (.ok t, s₁) := by
  have hlt := (List.getElem?_eq_some_iff.mp h).1
  rcases Nat.lt_or_eq_of_le (Nat.le_of_lt_succ (hlen ▸ hlt)) with hlt | heq
  · exact ⟨_, exec_advance h hlen hlt⟩
  · exact ⟨_, exec_advance_last h hlen heq⟩

section Rules

variable {s s' : Tape Token} {f f' : Token → Parser α} {x x' y y' : Parser α}

theorem Piece.Beside.step (h : W.Beside s s') (hlt : s'.pos < W.last) :
    W.Beside { s with pos := s.pos + 1 } { s' with pos := s'.pos + 1 } :=
  ⟨h.items, h.items', h.last, h.last', by rw [h.pos]; rfl, hlt⟩

theorem twins_peek
    (hin : ∀ t p, Twins W.Beside (fun j => P j ∧ W.tokens[j]? = some { t with pos := p } ∧ j < W.last)
      (f t) (f' { t with pos := p }))
    (hstop : ∀ t t', t.kind = W.stop → t'.kind = .eof → Twins W.Beside P (f t) (f' t')) :
    Twins W.Beside P (peek >>= f) (peek >>= f') := by
  intro s s' h hs
  rcases Nat.lt_or_eq_of_le h.le with hlt | heq
  · obtain ⟨t, p, ht, ht'⟩ := W.inside _ hlt
    have hrun : peek.exec s = (.ok t, s) := exec_peek (by rwa [h.items, h.pos])
    have hrun' : peek.exec s' = (.ok { t with pos := p }, s') := exec_peek (by rwa [h.items'])
    exact together_after hrun hrun' (hin t p _ _ h ⟨hs, ht', hlt⟩)
  · obtain ⟨t, t', ht, ht', hkind, hkind', -⟩ := W.ends
    rw [← heq] at ht ht'
    have hrun : peek.exec s = (.ok t, s) := exec_peek (by rwa [h.items, h.pos])
    have hrun' : peek.exec s' = (.ok t', s') := exec_peek (by rwa [h.items'])
    exact together_after hrun hrun' (hstop _ _ hkind hkind' _ _ h hs)

theorem twins_advance (hP : ∀ j, P j → j < W.last ∧ Q (j + 1))
    (hf : ∀ t p, Twins W.Beside Q (f t) (f' { t with pos := p })) :
    Twins W.Beside P (advance >>= f) (advance >>= f') := by
  intro s s' h hs
  obtain ⟨hlt, hs'⟩ := hP _ hs
  obtain ⟨t, p, ht, ht'⟩ := W.inside _ hlt
  have hfits := W.fits
  have hlast := h.last
  have hpos := h.pos
  have hrun := exec_advance (s := s) (t := t) (by rwa [h.items, h.pos]) (by rw [h.items, hlast])
    (by omega)
  have hrun' := exec_advance (s := s') (t := { t with pos := p }) (by rwa [h.items'])
    (by rw [h.items', h.last', W.length]) (by rwa [h.last'])
  exact together_after hrun hrun' (hf t p _ _ (h.step hlt) hs')

/-- Another look behind a token that is not the end. -/
theorem twins_peekAt (hP : ∀ j, P j → j < W.last)
    (hin : ∀ t p, Twins W.Beside (fun j => P j ∧ j + 1 < W.last) (f t) (f' { t with pos := p }))
    (hstop : ∀ t t', t.kind = W.stop → t'.kind = .eof → Twins W.Beside P (f t) (f' t')) :
    Twins W.Beside P (peekAt 1 >>= f) (peekAt 1 >>= f') := by
  intro s s' h hs
  have hlt := hP _ hs
  have hfits := W.fits
  have hpos := h.pos
  have hrun {t : Token} (ht : W.script[W.off + (s'.pos + 1)]? = some t) :
      (peekAt 1).exec s = (.ok t, s) := by
    change (if s.pos + 1 < s.items.length then itemAt ((s.pos + 1 : ℕ) : ℤ)
      else itemAt ((s.items.length : ℤ) - 1) : Parser Token).exec s = _
    rw [if_pos (by rw [h.items]; omega)]
    refine exec_itemAt ?_
    rwa [h.items, h.pos, Nat.add_assoc]
  have hrun' {t : Token} (ht : W.tokens[s'.pos + 1]? = some t) :
      (peekAt 1).exec s' = (.ok t, s') := by
    change (if s'.pos + 1 < s'.items.length then itemAt ((s'.pos + 1 : ℕ) : ℤ)
      else itemAt ((s'.items.length : ℤ) - 1) : Parser Token).exec s' = _
    rw [if_pos (by rw [h.items', W.length]; omega)]
    refine exec_itemAt ?_
    rwa [h.items']
  rcases Nat.lt_or_eq_of_le (Nat.succ_le_of_lt hlt) with hlt' | heq
  · obtain ⟨t, p, ht, ht'⟩ := W.inside _ hlt'
    exact together_after (hrun ht) (hrun' ht') (hin t p _ _ h ⟨hs, hlt'⟩)
  · obtain ⟨t, t', ht, ht', hkind, hkind', -⟩ := W.ends
    rw [← heq] at ht ht'
    exact together_after (hrun ht) (hrun' ht') (hstop _ _ hkind hkind' _ _ h hs)

theorem exec_peekAt {k : ℕ} (h : s.items ≠ []) : ∃ t, (peekAt k).exec s = (.ok t, s) := by
  have hlen := List.length_pos_iff.mpr h
  change ∃ t, (if s.pos + k < s.items.length then itemAt ((s.pos + k : ℕ) : ℤ)
    else itemAt ((s.items.length : ℤ) - 1) : Parser Token).exec s = (.ok t, s)
  split
  · exact ⟨_, exec_itemAt (List.getElem?_eq_getElem ‹_›)⟩
  · have hlast : (s.items.length : ℤ) - 1 = ((s.items.length - 1 : ℕ) : ℤ) := by omega
    rw [hlast]
    exact ⟨_, exec_itemAt (List.getElem?_eq_getElem (Nat.sub_lt hlen Nat.one_pos))⟩

/-- Another look that does not matter. -/
theorem twins_peekAt_any {k : ℕ} (hf : ∀ t t', Twins W.Beside P (f t) (f' t')) :
    Twins W.Beside P (peekAt k >>= f) (peekAt k >>= f') := by
  intro s s' h hs
  have hfits := W.fits
  obtain ⟨t, ht⟩ := exec_peekAt (s := s) (k := k) (by
    rw [h.items, ← List.length_pos_iff]
    omega)
  obtain ⟨t', ht'⟩ := exec_peekAt (s := s') (k := k) (by
    rw [h.items', ← List.length_pos_iff, W.length]
    omega)
  exact together_after ht ht' (hf t t' _ _ h hs)

end Rules

/-! ### Keywords and single tokens -/

section Tokens

variable {kw what : String} {kind : TokKind} {x x' y y' : Parser α}

theorem twins_isKeyword {f f' : Bool → Parser α}
    (htrue : Twins W.Beside (fun j => P j ∧ Word W.tokens j kw) (f true) (f' true))
    (hfalse : Twins W.Beside P (f false) (f' false)) :
    Twins W.Beside P (isKeyword kw >>= f) (isKeyword kw >>= f') := by
  rw [isKeyword, bind_assoc, bind_assoc]
  apply twins_peek
  · intro t p
    rw [pure_bind, pure_bind]
    dsimp only
    cases hb : decide (t.kind = .ident) && equalFold t.text kw with
    | false => exact hfalse.of_imp fun j hj => hj.1
    | true =>
      obtain ⟨hkind, hfold⟩ := Bool.and_eq_true_iff.mp hb
      exact htrue.of_imp fun j hj => ⟨hj.1, _, hj.2.1, of_decide_eq_true hkind, hfold⟩
  · intro t t' ht ht'
    have hne : t.kind ≠ .ident := ht ▸ W.stop_ne (by decide)
    rw [pure_bind, pure_bind, decide_eq_false hne, decide_eq_false (by simp [ht']), Bool.false_and,
      Bool.false_and]
    exact hfalse

theorem twins_ifKeyword
    (hx : Twins W.Beside (fun j => P j ∧ Word W.tokens j kw) x x') (hy : Twins W.Beside P y y') :
    Twins W.Beside P (isKeyword kw >>= fun b => if b = true then x else y)
      (isKeyword kw >>= fun b => if b = true then x' else y') :=
  twins_isKeyword hx hy

theorem twins_acceptThen (hP : ∀ j, P j → Word W.tokens j kw → Q (j + 1))
    (hx : Twins W.Beside Q x x') (hy : Twins W.Beside P y y') :
    Twins W.Beside P (acceptKeyword kw >>= fun b => if b = true then x else y)
      (acceptKeyword kw >>= fun b => if b = true then x' else y') := by
  rw [acceptKeyword, bind_assoc, bind_assoc]
  apply twins_isKeyword
  · change Twins _ _ ((advance >>= fun _ => pure true) >>= _)
      ((advance >>= fun _ => pure true) >>= _)
    rw [bind_assoc, bind_assoc]
    exact twins_advance (fun j hj => ⟨W.lt_of_word hj.2, hP j hj.1 hj.2⟩) fun _ _ => hx
  · exact hy

theorem twins_ifAccept (hx : Twins W.Beside Anywhere x x') (hy : Twins W.Beside P y y') :
    Twins W.Beside P (acceptKeyword kw >>= fun b => if b = true then x else y)
      (acceptKeyword kw >>= fun b => if b = true then x' else y') :=
  twins_acceptThen (fun _ _ _ => trivial) hx hy

theorem twins_advance_pure {β : Type} {g : Parser β} {g' : Parser β}
    (hP : ∀ j, P j → j < W.last) (hg : Twins W.Beside Anywhere g g') :
    Twins W.Beside P (advance >>= fun _ => g) (advance >>= fun _ => g') :=
  twins_advance (fun j hj => ⟨hP j hj, trivial⟩) fun _ _ => hg

theorem twins_acceptKeyword :
    Twins W.Beside P (acceptKeyword kw) (acceptKeyword kw) := by
  apply twins_ifKeyword
  · exact twins_advance_pure (fun j hj => W.lt_of_word hj.2) (twins_pure _)
  · exact twins_pure _

/-- A branch on a kind of tokens that a piece has before its end. -/
theorem twins_ifKind (hkind : kind ≠ .eof ∧ kind ≠ .semicolon) {x x' y y' : Token → Parser α}
    (hx : ∀ t p, t.kind = kind → Twins W.Beside (fun j => P j ∧ j < W.last) (x t)
      (x' { t with pos := p }))
    (hy : ∀ t t', Twins W.Beside P (y t) (y' t')) :
    Twins W.Beside P (peek >>= fun t => if t.kind = kind then x t else y t)
      (peek >>= fun t => if t.kind = kind then x' t else y' t) := by
  apply twins_peek
  · intro t p
    refine twins_ite (fun ht => ?_) fun _ => ?_
    · exact (hx t p ht).of_imp fun j hj => ⟨hj.1, hj.2.2⟩
    · exact (hy t _).of_imp fun j hj => hj.1
  · intro t t' ht ht'
    refine twins_else ?_ ?_ (hy t t')
    · exact ht ▸ W.stop_ne hkind
    · exact ht' ▸ hkind.1.symm

theorem twins_skipIdent : Twins W.Beside P skipIdent skipIdent :=
  twins_ifKind (by decide) (fun _ _ _ => twins_advance_pure (fun _ hj => hj.2) (twins_pure _))
    fun _ _ => twins_pure _

variable {lib : Stdlib}

theorem twins_expect (hkind : kind ≠ .eof ∧ kind ≠ .semicolon)
    (hx : Twins W.Beside Anywhere x x') :
    Twins W.Beside P (expect lib kind what >>= fun _ => x) (expect lib kind what >>= fun _ => x') := by
  rw [expect, bind_assoc, bind_assoc]
  apply twins_peek
  · intro t p
    by_cases ht : t.kind = kind
    · rw [if_pos ht, if_pos ht]
      exact twins_advance_pure (fun _ hj => hj.2.2) hx
    · rw [if_neg ht, if_neg ht]
      exact fun _ _ _ _ => .refuse rfl rfl
  · intro t t' ht ht'
    rw [if_neg (ht ▸ W.stop_ne hkind), if_neg (ht' ▸ hkind.1.symm)]
    exact fun _ _ _ _ => .refuse rfl rfl

theorem twins_ident : Twins W.Beside P (ident lib what) (ident lib what) :=
  twins_ifKind (by decide)
    (fun t p _ => twins_advance (Q := Anywhere) (fun _ hj => ⟨hj.2, trivial⟩)
      fun _ _ => twins_pure _)
    fun _ _ => twins_refuse _ _

theorem twins_stringLiteral : Twins W.Beside P (stringLiteral lib) (stringLiteral lib) :=
  twins_ifKind (by decide)
    (fun t p _ => twins_advance_pure (fun _ hj => hj.2) (twins_pure _))
    fun _ _ => twins_refuse _ _

end Tokens

/-! ### Lists and operators -/

section Lists

variable {item item' : Parser α} {lib : Stdlib}

theorem twins_comma {σ β : Type} (a : σ) (b : β) : Twins W.Beside P (do
      let t ← peek
      if t.kind = .comma then do
        let _ ← advance
        return Round.next a
      else return Round.done b) (do
      let t ← peek
      if t.kind = .comma then do
        let _ ← advance
        return Round.next a
      else return Round.done b) :=
  twins_ifKind (by decide) (fun _ _ _ => twins_advance_pure (fun _ hj => hj.2) (twins_pure _))
    fun _ _ => twins_pure _

theorem twins_commaList (h : Twins W.Beside Anywhere item item') :
    Twins W.Beside P (commaList item n) (commaList item' n') :=
  twins_loop movesAlike_beside (fun _ => twins_bind h fun _ => twins_comma _ _) n n' []

theorem twins_leftAssoc {operand operand' : Parser Expr} {operator operator' : Parser (Option BinOp)}
    (h : Twins W.Beside Anywhere operand operand')
    (hop : Twins W.Beside Anywhere operator operator') :
    Twins W.Beside P (leftAssoc operand operator n) (leftAssoc operand' operator' n') := by
  refine twins_bind h.anywhere fun left => twins_loop movesAlike_beside (fun left => ?_) n n' left
  apply twins_bind hop
  rintro (_ | op)
  · exact twins_pure _
  · exact twins_bind h fun _ => twins_pure _

theorem twins_keywordOp {kw : String} {op : BinOp} :
    Twins W.Beside P (keywordOp kw op) (keywordOp kw op) :=
  twins_ifAccept (twins_pure _) (twins_pure _)

/-- An operator is neither a semicolon nor the end of the input. -/
structure IsOperator {β : Type} (op : Token → Option β) : Prop where
  ends : ∀ t : Token, t.kind = .eof ∨ t.kind = .semicolon → op t = none
  place : ∀ (t : Token) p, op { t with pos := p } = op t

theorem isOperator_additiveOp : IsOperator additiveOp where
  ends t ht := by rcases ht with ht | ht <;> simp [additiveOp, ht]
  place _ _ := rfl

theorem isOperator_multiplicativeOp : IsOperator multiplicativeOp where
  ends t ht := by rcases ht with ht | ht <;> simp [multiplicativeOp, ht]
  place _ _ := rfl

theorem isOperator_signOp : IsOperator signOp where
  ends t ht := by rcases ht with ht | ht <;> simp [signOp, ht]
  place _ _ := rfl

theorem isOperator_comparisonOp : IsOperator comparisonOp where
  ends t ht := by rcases ht with ht | ht <;> simp [comparisonOp, ht]
  place _ _ := rfl

theorem IsOperator.eq_none {β : Type} {op : Token → Option β} (hop : IsOperator op) {t : Token}
    (ht : t.kind = W.stop) : op t = none := by
  apply hop.ends
  rcases W.stopKind with h | ⟨h, -⟩
  · exact .inr (ht.trans h)
  · exact .inl (ht.trans h)

theorem twins_tokenOp {op : Token → Option BinOp} (hop : IsOperator op) :
    Twins W.Beside P (tokenOp op) (tokenOp op) := by
  apply twins_peek
  · intro t p
    rw [hop.place t p]
    cases op t with
    | none => exact twins_pure _
    | some o => exact twins_advance_pure (fun _ hj => hj.2.2) (twins_pure _)
  · intro t t' ht ht'
    rw [hop.eq_none ht, hop.ends t' (.inl ht')]
    exact twins_pure _

theorem twins_comparison : Twins W.Beside P comparison comparison := by
  have hlike : Twins W.Beside P (keywordOp "like" .like) (keywordOp "like" .like) :=
    twins_keywordOp
  have hrest : Twins W.Beside P (isKeyword "not" >>= fun isNot => peekAt 1 >>= fun t =>
      if (isNot && t.kind = .ident && equalFold t.text "like") = true then do
        let _ ← advance
        let _ ← advance
        return some .notLike
      else keywordOp "like" .like) (isKeyword "not" >>= fun isNot => peekAt 1 >>= fun t =>
      if (isNot && t.kind = .ident && equalFold t.text "like") = true then do
        let _ ← advance
        let _ ← advance
        return some .notLike
      else keywordOp "like" .like) := by
    apply twins_isKeyword
    · apply twins_peekAt (fun j hj => W.lt_of_word hj.2)
      · intro t p
        refine twins_ite (fun _ => ?_) fun _ => twins_keywordOp
        exact twins_advance (Q := fun j => j < W.last) (fun j hj => ⟨Nat.lt_of_succ_lt hj.2, hj.2⟩)
          fun _ _ => twins_advance_pure (fun _ hj => hj) (twins_pure _)
      · intro t t' ht ht'
        refine twins_else ?_ ?_ twins_keywordOp
        · simp [show t.kind ≠ .ident from ht ▸ W.stop_ne (by decide)]
        · simp [ht']
    · refine twins_peekAt_any fun t t' => twins_else ?_ ?_ hlike
      · simp
      · simp
  apply twins_peek
  · intro t p
    rw [isOperator_comparisonOp.place t p]
    cases comparisonOp t with
    | none => exact hrest.of_imp fun _ => And.left
    | some o => exact twins_advance_pure (fun _ hj => hj.2.2) (twins_pure _)
  · intro t t' ht ht'
    rw [isOperator_comparisonOp.eq_none ht, isOperator_comparisonOp.ends t' (.inl ht')]
    exact hrest

end Lists

/-! ### Expressions -/

section Expressions

variable {E E' : Parser Expr} {lib : Stdlib}

theorem twins_parseCast (hE : Twins W.Beside Anywhere E E') :
    Twins W.Beside P (parseCast lib E) (parseCast lib E') := by
  apply twins_expect (by decide)
  refine twins_bind hE fun e => twins_bind twins_acceptKeyword fun _ => ?_
  apply twins_ifKind (by decide)
  · intro t p _
    refine twins_advance (Q := Anywhere) (fun j hj => ⟨hj.2, trivial⟩) fun u q => ?_
    exact twins_expect (by decide) (twins_pure _)
  · exact fun _ _ => twins_refuse _ _

theorem twins_parseArgs (hE : Twins W.Beside Anywhere E E') :
    Twins W.Beside P (parseArgs E n) (parseArgs E' n') :=
  twins_ifKind (by decide) (fun _ _ _ => twins_pure _) fun _ _ => twins_commaList hE

theorem twins_parseIdent {t : Token} {p : ℕ} (hP : ∀ j, P j → j < W.last)
    (hE : Twins W.Beside Anywhere E E') :
    Twins W.Beside P (parseIdent lib E n t) (parseIdent lib E' n' { t with pos := p }) := by
  refine twins_ite (fun _ => twins_advance_pure hP (twins_pure _)) fun _ => ?_
  refine twins_ite (fun _ => twins_advance_pure hP (twins_pure _)) fun _ => ?_
  refine twins_ite (fun _ => twins_advance_pure hP (twins_parseCast hE)) fun _ => ?_
  apply twins_peekAt hP
  · intro u q
    apply twins_ite
    · intro _
      refine twins_advance (Q := fun j => j < W.last) (fun j hj => ⟨Nat.lt_of_succ_lt hj.2, hj.2⟩)
        fun _ _ => ?_
      refine twins_advance_pure (fun _ hj => hj) (twins_bind (twins_parseArgs hE) fun args => ?_)
      exact twins_expect (by decide) (twins_pure _)
    · exact fun _ => twins_advance_pure (fun j hj => hP j hj.1) (twins_pure _)
  · intro u u' hu hu'
    refine twins_else ?_ ?_ (twins_advance_pure hP (twins_pure _))
    · exact hu ▸ W.stop_ne (by decide)
    · simp [hu']

theorem twins_parsePrimary (hE : Twins W.Beside Anywhere E E') :
    Twins W.Beside P (parsePrimary lib E n) (parsePrimary lib E' n') := by
  apply twins_peek
  · intro t p
    dsimp only
    rcases ht : t.kind
    case number => exact twins_advance_pure (fun _ hj => hj.2.2) (twins_pure _)
    case string => exact twins_advance_pure (fun _ hj => hj.2.2) (twins_pure _)
    case star => exact twins_advance_pure (fun _ hj => hj.2.2) (twins_pure _)
    case ident => exact twins_parseIdent (p := p) (fun _ hj => hj.2.2) hE
    case lparen =>
      refine twins_advance_pure (fun _ hj => hj.2.2) (twins_bind hE fun e => ?_)
      exact twins_expect (by decide) (twins_pure _)
    all_goals exact twins_refuse _ _
  · intro t t' ht ht'
    rw [ht']
    rcases W.stopKind with h | ⟨h, -⟩
    · rw [ht, h]
      exact twins_refuse _ _
    · rw [ht, h]
      exact twins_refuse _ _

theorem twins_parseUnary (hE : Twins W.Beside Anywhere E E') :
    Twins W.Beside P (parseUnary lib E n) (parseUnary lib E' n') := by
  apply Twins.anywhere
  induction n generalizing n' with
  | zero => exact twins_fault _
  | succ n ih =>
    cases n' with
    | zero => exact twins_fault' _
    | succ n' =>
      have hrest {P : ℕ → Prop} : Twins W.Beside P (do
          if ← acceptKeyword "not" then do
            let e ← parseUnary lib E n
            return .unary .not e
          else parsePrimary lib E (n + 1)) (do
          if ← acceptKeyword "not" then do
            let e ← parseUnary lib E' n'
            return .unary .not e
          else parsePrimary lib E' (n' + 1)) :=
        twins_ifAccept
          (twins_bind ih fun _ => twins_pure _) (twins_parsePrimary hE)
      apply twins_peek
      · intro t p
        rw [isOperator_signOp.place t p]
        cases signOp t with
        | none => exact hrest
        | some o =>
          exact twins_advance_pure (fun _ hj => hj.2.2) (twins_bind ih fun _ => twins_pure _)
      · intro t t' ht ht'
        rw [isOperator_signOp.eq_none ht, isOperator_signOp.ends t' (.inl ht')]
        exact hrest

theorem twins_parseOr (hE : Twins W.Beside Anywhere E E') :
    Twins W.Beside P (parseOr lib E n) (parseOr lib E' n') := by
  have hmul : Twins W.Beside Anywhere (parseMultiplicative lib E n) (parseMultiplicative lib E' n') :=
    twins_leftAssoc (twins_parseUnary hE) (twins_tokenOp isOperator_multiplicativeOp)
  have hadd : Twins W.Beside Anywhere (parseAdditive lib E n) (parseAdditive lib E' n') :=
    twins_leftAssoc hmul (twins_tokenOp isOperator_additiveOp)
  have hcomparison : Twins W.Beside Anywhere (parseComparison lib E n)
      (parseComparison lib E' n') :=
    twins_leftAssoc hadd twins_comparison
  have hand : Twins W.Beside Anywhere (parseAnd lib E n) (parseAnd lib E' n') :=
    twins_leftAssoc hcomparison twins_keywordOp
  exact twins_leftAssoc hand twins_keywordOp

theorem twins_parseExpr : Twins W.Beside P (parseExpr lib n) (parseExpr lib n') := by
  apply Twins.anywhere
  induction n generalizing n' with
  | zero => exact twins_fault _
  | succ n ih =>
    cases n' with
    | zero => exact twins_fault' _
    | succ n' => exact twins_parseOr ih

theorem twins_exprAfter {kw : String} :
    Twins W.Beside P (exprAfter lib kw n) (exprAfter lib kw n') :=
  twins_ifAccept twins_parseExpr (twins_pure _)

end Expressions

/-! ### Clauses -/

section Clauses

variable {lib : Stdlib} {parseDuration : Bytes → Option Int64}

theorem exec_moveTo_fault {s : Tape Token} {i : ℤ} (h : i < 0) :
    (moveTo i : Parser Unit).exec s = (.error (.fault .position), s) := by
  unfold moveTo
  rw [Prog.exec_bind, Prog.exec_get]
  dsimp only
  rw [if_neg fun hle => Int.not_le.mpr h hle.1]
  rfl

/-- A piece in which the position cannot go back so far is a fault. -/
theorem twins_goBack {k : ℕ} {x x' : Parser α} (hx : Twins W.Beside Anywhere x x') :
    Twins W.Beside P (get >>= fun p : Tape Token => moveTo ((p.pos : ℤ) - k) >>= fun _ => x)
      (get >>= fun p : Tape Token => moveTo ((p.pos : ℤ) - k) >>= fun _ => x') := by
  intro s s' h _
  apply Together.get
  by_cases hk : s'.pos < k
  · exact .fault' (Prog.exec_bind_error (exec_moveTo_fault (by omega)))
  · have hpos := h.pos
    have hle := h.le
    have hlast := h.last
    have hfits := W.fits
    have hback : (s.pos : ℤ) - k = ((s.pos - k : ℕ) : ℤ) := by omega
    have hback' : (s'.pos : ℤ) - k = ((s'.pos - k : ℕ) : ℤ) := by omega
    rw [hback, hback']
    refine together_after (exec_moveTo (by omega)) (exec_moveTo (by rw [h.last']; omega)) ?_
    refine hx _ _ ⟨h.items, h.items', h.last, h.last', ?_, ?_⟩ trivial
    · change s.pos - k = W.off + (s'.pos - k)
      omega
    · change s'.pos - k ≤ W.last
      omega

theorem twins_columnType : Twins W.Beside P (columnType lib) (columnType lib) :=
  twins_ifKind (by decide)
    (fun _ _ _ => twins_advance (Q := Anywhere) (fun _ hj => ⟨hj.2, trivial⟩)
      fun _ _ => twins_pure _)
    fun _ _ => twins_pure _

theorem twins_columnNotNull : Twins W.Beside P columnNotNull columnNotNull :=
  twins_ifAccept
    (twins_bind twins_acceptKeyword fun _ => twins_pure _) (twins_pure _)

theorem twins_columnPrimary : Twins W.Beside P columnPrimary columnPrimary := by
  apply twins_ifKeyword
  · refine twins_advance_pure (fun j hj => W.lt_of_word hj.2) ?_
    refine twins_bind twins_acceptKeyword fun _ => ?_
    exact twins_ifKind (by decide) (fun _ _ _ => twins_goBack (twins_pure _))
      fun _ _ => twins_pure _
  · exact twins_pure _

theorem twins_parseColumn : Twins W.Beside P (parseColumn lib n) (parseColumn lib n') := by
  refine twins_bind twins_ident fun name => twins_bind twins_columnType fun type => ?_
  refine twins_bind twins_columnNotNull fun notNull => twins_bind twins_columnPrimary ?_
  rintro (_ | primary)
  · exact twins_pure _
  · exact twins_bind twins_exprAfter fun _ => twins_pure _

theorem twins_parseColumns : Twins W.Beside P (parseColumns lib n) (parseColumns lib n') := by
  refine twins_loop movesAlike_beside (fun cols => ?_) n n' []
  apply twins_peek
  · intro t p
    apply twins_isKeyword
    all_goals
      refine twins_ite (fun _ => twins_pure _) fun _ => twins_bind twins_parseColumn ?_
      rintro (_ | col)
      · exact twins_pure _
      · exact twins_comma _ _
  · intro t t' ht ht'
    apply twins_isKeyword
    · rw [Bool.or_true, Bool.or_true]
      exact twins_pure _
    · refine twins_else ?_ ?_ (twins_bind twins_parseColumn ?_)
      · simp [show t.kind ≠ .rparen from ht ▸ W.stop_ne (by decide)]
      · simp [ht']
      · rintro (_ | col)
        · exact twins_pure _
        · exact twins_comma _ _

theorem twins_tablePrimary : Twins W.Beside P (tablePrimary lib n) (tablePrimary lib n') := by
  refine twins_ifAccept ?_ (twins_pure _)
  refine twins_bind twins_acceptKeyword fun _ => twins_expect (by decide) ?_
  refine twins_bind (twins_commaList twins_ident) fun pk => ?_
  exact twins_expect (by decide) (twins_pure _)

theorem twins_equalsAfter {what : String} :
    Twins W.Beside P (equalsAfter what) (equalsAfter what) :=
  twins_ifKind (by decide) (fun _ _ _ => twins_advance_pure (fun _ hj => hj.2) (twins_pure _))
    fun _ _ => twins_refuse _ _

theorem twins_tableEngine : Twins W.Beside P (tableEngine lib) (tableEngine lib) := by
  refine twins_ifAccept ?_ (twins_pure _)
  refine twins_bind twins_equalsAfter fun _ => twins_bind twins_ident fun engine => ?_
  exact twins_ite (fun _ => twins_pure _) fun _ => twins_refuse _ _

theorem twins_tableRetention :
    Twins W.Beside P (tableRetention lib parseDuration) (tableRetention lib parseDuration) := by
  refine twins_ifAccept ?_ (twins_pure _)
  refine twins_bind twins_equalsAfter fun _ => ?_
  refine twins_ifKind (by decide) (fun t p _ => ?_) fun _ _ => twins_refuse _ _
  refine twins_advance (Q := Anywhere) (fun _ hj => ⟨hj.2, trivial⟩) fun u q => ?_
  dsimp only
  cases parseRetention lib parseDuration u.text with
  | ok d => exact twins_pure _
  | error msg => exact twins_peek (fun _ _ => twins_refuse _ _) fun _ _ _ _ => twins_refuse _ _

end Clauses

/-! ### Statements -/

/-- Words behind which the parser takes a token for a name without a look at its kind. -/
def TakesName (toks : List Token) (i : ℕ) : Prop :=
  Word toks i "create" ∧ Word toks (i + 1) "database" ∨
    Word toks i "kv" ∧ ∃ verb ∈ ["put", "get", "delete", "scan"], Word toks (i + 1) verb

section Statements

variable {lib : Stdlib} {parseDuration : Bytes → Option Int64} {i : ℕ}

/-- An error at any token. -/
theorem twins_peekRefuse {e e' : Token → Bytes} :
    Twins W.Beside P (peek >>= fun t => (refuse (e t) : Parser α))
      (peek >>= fun t => refuse (e' t)) :=
  twins_peek (fun _ _ => twins_refuse _ _) fun _ _ _ _ => twins_refuse _ _

/-- At the end of the input the name is empty. -/
theorem twins_identLower (hP : ∀ j, P j → j ≠ W.last ∨ W.stop = .eof) :
    Twins W.Beside P (identLower lib) (identLower lib) := by
  intro s s' h hs
  rcases Nat.lt_or_eq_of_le h.le with hlt | heq
  · have hname : Twins W.Beside (· < W.last) (identLower lib) (identLower lib) :=
      twins_advance (Q := Anywhere) (fun _ hj => ⟨hj, trivial⟩) fun _ _ => twins_pure _
    exact hname s s' h hlt
  · have hstop : W.stop = .eof := (hP _ hs).resolve_left (absurd heq)
    obtain ⟨t, t', ht, ht', -, -, hsame⟩ := W.ends
    obtain ⟨p, rfl⟩ := hsame hstop
    rw [← heq] at ht ht'
    have hpos := h.pos
    have hlast := h.last
    have hend : W.off + W.last + 1 = W.script.length := by
      rcases W.stopKind with h | ⟨-, h⟩
      · simp [hstop] at h
      · exact h
    refine together_after (exec_advance_last (t := t) ?_ ?_ ?_)
      (exec_advance_last (t := { t with pos := p }) ?_ ?_ ?_) (.ok rfl rfl ⟨rfl, h⟩)
    · rwa [h.items, h.pos]
    · rw [h.items, hlast]
    · omega
    · rwa [h.items']
    · rw [h.items', h.last', W.length]
    · rwa [h.last']

theorem twins_parseLimit : Twins W.Beside P parseLimit parseLimit := by
  refine twins_ifAccept ?_ (twins_pure _)
  intro s s' h _
  rcases Nat.lt_or_eq_of_le h.le with hlt | heq
  · refine twins_advance (P := (· < W.last)) (Q := Anywhere) (fun _ hj => ⟨hj, trivial⟩)
      (fun t p => ?_) s s' h hlt
    exact twins_ite (fun _ => twins_pure _) fun _ => twins_refuse _ _
  · -- both refuse it: the semicolon, of which there may be more text behind, and the end
    obtain ⟨t, t', ht, ht', hkind, hkind', -⟩ := W.ends
    rw [← heq] at ht ht'
    obtain ⟨s₁, hrun⟩ := exec_advance_any (s := s) (t := t) (by rwa [h.items, h.pos]) (by
      rw [h.items, h.last])
    obtain ⟨s₁', hrun'⟩ := exec_advance_any (s := s') (t := t') (by rwa [h.items']) (by
      rw [h.items', h.last', W.length])
    refine together_after hrun hrun' ?_
    rw [if_neg (hkind ▸ W.stop_ne (by decide)), if_neg (by simp [hkind'])]
    exact .refuse rfl rfl

theorem twins_ifExists : Twins W.Beside P ifExists ifExists :=
  twins_ifAccept
    (twins_bind twins_skipIdent fun _ => twins_pure _) (twins_pure _)

theorem twins_ifNotExists : Twins W.Beside P ifNotExists ifNotExists := by
  refine twins_ifAccept ?_ (twins_pure _)
  exact twins_bind twins_acceptKeyword fun _ => twins_bind twins_skipIdent fun _ => twins_pure _

theorem twins_parseCreateTable : Twins W.Beside P (parseCreateTable lib parseDuration n)
    (parseCreateTable lib parseDuration n') := by
  refine twins_bind twins_ifExists fun _ => twins_bind twins_ident fun name => ?_
  refine twins_expect (by decide) (twins_bind twins_parseColumns fun columns => ?_)
  refine twins_bind twins_tablePrimary fun pk => twins_expect (by decide) ?_
  refine twins_bind twins_tableEngine fun engine => ?_
  exact twins_bind twins_tableRetention fun _ => twins_pure _

theorem twins_indexColumns : Twins W.Beside P (indexColumns lib n) (indexColumns lib n') := by
  refine twins_loop movesAlike_beside (fun cols => ?_) n n' []
  apply twins_ifKind (by decide)
  · exact fun _ _ _ => twins_pure _
  · exact fun _ _ => twins_bind twins_ident fun _ => twins_comma _ _

theorem twins_parseCreateIndex :
    Twins W.Beside P (parseCreateIndex lib n) (parseCreateIndex lib n') := by
  refine twins_bind twins_ifNotExists fun _ => twins_bind twins_ident fun name => ?_
  refine twins_bind twins_acceptKeyword fun _ => twins_bind twins_ident fun table => ?_
  refine twins_expect (by decide) (twins_bind twins_indexColumns fun columns => ?_)
  exact twins_expect (by decide) (twins_pure _)

theorem twins_parseDrop (hP : ∀ j, P j → j < W.last) :
    Twins W.Beside P (parseDrop lib) (parseDrop lib) := by
  apply twins_advance_pure hP
  refine twins_ifAccept ?_ ?_
  · exact twins_bind twins_ifExists fun _ => twins_bind twins_ident fun _ => twins_pure _
  refine twins_ifAccept ?_ twins_peekRefuse
  refine twins_bind twins_ifExists fun _ => twins_bind twins_ident fun name => ?_
  refine twins_bind twins_acceptKeyword fun _ => ?_
  refine twins_ifKind (by decide) (fun _ _ _ => ?_) fun _ _ => twins_pure _
  exact twins_bind (twins_identLower fun _ hj => .inl (Nat.ne_of_lt hj.2)) fun _ => twins_pure _

theorem twins_insertNames : Twins W.Beside P (insertNames lib n) (insertNames lib n') := by
  refine twins_ifKind (by decide) (fun _ _ _ => ?_) fun _ _ => twins_pure _
  refine twins_advance_pure (fun _ hj => hj.2) (twins_bind (twins_commaList twins_ident) ?_)
  exact fun _ => twins_expect (by decide) (twins_pure _)

theorem twins_parseRow : Twins W.Beside P (parseRow lib n) (parseRow lib n') := by
  refine twins_expect (by decide) (twins_bind (twins_commaList twins_parseExpr) fun row => ?_)
  exact twins_expect (by decide) (twins_pure _)

theorem twins_parseInsert (hP : ∀ j, P j → j < W.last) :
    Twins W.Beside P (parseInsert lib n) (parseInsert lib n') := by
  apply twins_advance_pure hP
  refine twins_bind twins_acceptKeyword fun _ => twins_bind twins_ident fun table => ?_
  refine twins_bind twins_insertNames fun columns => twins_bind twins_acceptKeyword fun _ => ?_
  exact twins_bind (twins_commaList twins_parseRow) fun _ => twins_pure _

theorem twins_parseSet : Twins W.Beside P (parseSet lib n) (parseSet lib n') := by
  refine twins_bind twins_ident fun col => twins_expect (by decide) ?_
  exact twins_bind twins_parseExpr fun _ => twins_pure _

theorem twins_parseUpdate (hP : ∀ j, P j → j < W.last) :
    Twins W.Beside P (parseUpdate lib n) (parseUpdate lib n') := by
  apply twins_advance_pure hP
  refine twins_bind twins_ident fun table => twins_bind twins_acceptKeyword fun _ => ?_
  refine twins_bind (twins_commaList twins_parseSet) fun sets => ?_
  exact twins_bind twins_exprAfter fun _ => twins_pure _

theorem twins_parseDelete (hP : ∀ j, P j → j < W.last) :
    Twins W.Beside P (parseDelete lib n) (parseDelete lib n') := by
  apply twins_advance_pure hP
  refine twins_bind twins_acceptKeyword fun _ => twins_bind twins_ident fun table => ?_
  exact twins_bind twins_exprAfter fun _ => twins_pure _

theorem twins_parseItem : Twins W.Beside P (parseItem lib n) (parseItem lib n') := by
  refine twins_bind twins_parseExpr fun e => ?_
  refine twins_ifAccept ?_ (twins_pure _)
  exact twins_bind twins_ident fun _ => twins_pure _

theorem twins_parseFrom : Twins W.Beside P (parseFrom lib) (parseFrom lib) :=
  twins_ifAccept twins_ident (twins_pure _)

theorem twins_parseGroupBy : Twins W.Beside P (parseGroupBy lib n) (parseGroupBy lib n') := by
  refine twins_ifAccept ?_ (twins_pure _)
  exact twins_bind twins_acceptKeyword fun _ => twins_commaList twins_parseExpr

theorem twins_parseHaving {where_ : Expr} :
    Twins W.Beside P (parseHaving lib where_ n) (parseHaving lib where_ n') := by
  refine twins_ifAccept ?_ (twins_pure _)
  exact twins_bind twins_parseExpr fun _ => twins_pure _

theorem twins_parseOrder : Twins W.Beside P (parseOrder lib n) (parseOrder lib n') := by
  refine twins_bind twins_parseExpr fun e => ?_
  refine twins_ifAccept (twins_pure _) ?_
  exact twins_bind twins_acceptKeyword fun _ => twins_pure _

theorem twins_parseOrderBy : Twins W.Beside P (parseOrderBy lib n) (parseOrderBy lib n') := by
  refine twins_ifAccept ?_ (twins_pure _)
  exact twins_bind twins_acceptKeyword fun _ => twins_commaList twins_parseOrder

theorem twins_parseSelect (hP : ∀ j, P j → j < W.last) :
    Twins W.Beside P (parseSelect lib n) (parseSelect lib n') := by
  apply twins_advance_pure hP
  refine twins_bind twins_acceptKeyword fun distinct => ?_
  refine twins_bind (twins_commaList twins_parseItem) fun items => ?_
  refine twins_bind twins_parseFrom fun from_ => twins_bind twins_exprAfter fun where_ => ?_
  refine twins_bind twins_parseGroupBy fun groupBy => twins_bind twins_parseHaving fun where_ => ?_
  refine twins_bind twins_parseOrderBy fun orderBy => ?_
  exact twins_bind twins_parseLimit fun _ => twins_pure _

theorem twins_optionalString :
    Twins W.Beside P (parseKV.optionalString lib) (parseKV.optionalString lib) := by
  refine twins_ifKind (by decide) (fun _ _ _ => ?_) fun _ _ => twins_pure _
  exact twins_bind twins_stringLiteral fun _ => twins_pure _

/-- The name is not the semicolon at the end of the piece. -/
def NameInside (W : Piece) (i : ℕ) : Prop :=
  TakesName W.tokens i → i + 2 ≠ W.last ∨ W.stop = .eof

theorem twins_parseKV (hname : NameInside W i) :
    Twins W.Beside (fun j => j = i ∧ Word W.tokens j "kv") (parseKV lib) (parseKV lib) := by
  apply twins_advance (Q := fun j => j = i + 1 ∧ Word W.tokens i "kv")
  · rintro j ⟨rfl, hkv⟩
    exact ⟨W.lt_of_word hkv, rfl, hkv⟩
  intro _ _
  have hverb {verb : String} (hmem : verb ∈ ["put", "get", "delete", "scan"]) :
      ∀ j, (j = i + 1 ∧ Word W.tokens i "kv") → Word W.tokens j verb →
        j + 1 = i + 2 ∧ TakesName W.tokens i := by
    rintro j ⟨rfl, hkv⟩ hword
    exact ⟨rfl, .inr ⟨hkv, verb, hmem, hword⟩⟩
  have htable : Twins W.Beside (fun j => j = i + 2 ∧ TakesName W.tokens i) (identLower lib)
      (identLower lib) := by
    apply twins_identLower
    rintro j ⟨rfl, htakes⟩
    exact hname htakes
  refine twins_acceptThen (Q := fun j => j = i + 2 ∧ TakesName W.tokens i) (hverb (by decide)) ?_ ?_
  · refine twins_bind htable fun table => twins_bind twins_stringLiteral fun key => ?_
    exact twins_bind twins_stringLiteral fun _ => twins_pure _
  refine twins_acceptThen (Q := fun j => j = i + 2 ∧ TakesName W.tokens i) (hverb (by decide)) ?_ ?_
  · exact twins_bind htable fun table => twins_bind twins_stringLiteral fun _ => twins_pure _
  refine twins_acceptThen (Q := fun j => j = i + 2 ∧ TakesName W.tokens i) (hverb (by decide)) ?_ ?_
  · exact twins_bind htable fun table => twins_bind twins_stringLiteral fun _ => twins_pure _
  refine twins_acceptThen (Q := fun j => j = i + 2 ∧ TakesName W.tokens i) (hverb (by decide)) ?_
    twins_peekRefuse
  refine twins_bind htable fun table => twins_bind twins_optionalString fun start => ?_
  exact twins_bind twins_optionalString fun _ => twins_pure _

theorem twins_parseCreate (hname : NameInside W i) :
    Twins W.Beside (fun j => j = i ∧ Word W.tokens j "create") (parseCreate lib parseDuration n)
      (parseCreate lib parseDuration n') := by
  apply twins_advance (Q := fun j => j = i + 1 ∧ Word W.tokens i "create")
  · rintro j ⟨rfl, hcreate⟩
    exact ⟨W.lt_of_word hcreate, rfl, hcreate⟩
  intro _ _
  refine twins_acceptThen (Q := fun j => j = i + 2 ∧ TakesName W.tokens i) ?_ ?_ ?_
  · rintro j ⟨rfl, hcreate⟩ hword
    exact ⟨rfl, .inl ⟨hcreate, hword⟩⟩
  · refine twins_bind (twins_identLower ?_) fun _ => twins_pure _
    rintro j ⟨rfl, htakes⟩
    exact hname htakes
  refine twins_ifAccept twins_parseCreateIndex ?_
  exact twins_ifAccept twins_parseCreateTable
    twins_peekRefuse

theorem twins_parseStatement (hname : NameInside W i) :
    Twins W.Beside (· = i) (parseStatement lib parseDuration n)
      (parseStatement lib parseDuration n') := by
  have hlt {kw : String} : ∀ j, (j = i ∧ Word W.tokens j kw) → j < W.last :=
    fun j hj => W.lt_of_word hj.2
  refine twins_ifKeyword (twins_parseSelect hlt) ?_
  refine twins_ifKeyword (twins_parseInsert hlt) ?_
  refine twins_ifKeyword (twins_parseUpdate hlt) ?_
  refine twins_ifKeyword (twins_parseDelete hlt) ?_
  refine twins_ifKeyword (twins_parseCreate hname) ?_
  refine twins_ifKeyword (twins_parseDrop hlt) ?_
  refine twins_ifAccept (twins_pure _) ?_
  refine twins_ifAccept (twins_pure _) ?_
  refine twins_ifAccept (twins_pure _) ?_
  exact twins_ifKeyword (twins_parseKV hname) twins_peekRefuse

end Statements

end Ydbgo.Sql
