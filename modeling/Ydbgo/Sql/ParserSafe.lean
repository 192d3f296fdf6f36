import Ydbgo.Sql.LexerSafe
import Ydbgo.Sql.Parser

/-! # What the parser reads

The parser indexes no token that is not there, its position stays at a token, and
every round of a loop takes a token or is the last. The measure is the number of
tokens before the end of the input: `advance` takes one unless it stands there,
and a clause that goes back by two tokens has taken two before.
-/

namespace Ydbgo.Sql

open Tokens

variable {α : Type} {C : Option Token → Prop} {e : α → ℕ} {n k : ℕ}

/-! ### Single steps -/

theorem Closed.at {toks : List Token} {last i : ℕ} (h : Closed toks last) (hi : i ≤ last) :
    ∃ t, toks[i]? = some t :=
  ⟨_, List.getElem?_eq_getElem (h.length ▸ Nat.lt_succ_of_le hi)⟩

theorem proceeds_peek {s : Tape Token} (hG : Closed s.items s.last) (hle : s.pos ≤ s.last) :
    Proceeds peek s fun t s' => s' = s ∧ s.items[s.pos]? = some t := by
  obtain ⟨t, ht⟩ := hG.at hle
  rw [peek, proceeds_bind, proceeds_get, proceeds_itemAt ht]
  exact ⟨rfl, ht⟩

theorem takes_peek {f : Token → Parser α}
    (hf : ∀ t, C (some t) → Takes Closed (· = some t) e n (f t)) :
    Takes Closed C e n (peek >>= f) := by
  intro s hG hle hn hs
  refine proceeds_bind.mpr ((proceeds_peek hG hle).mono ?_)
  rintro t _ ⟨rfl, ht⟩
  exact hf t (ht ▸ hs) _ hG hle hn ht

theorem takes_peekAt {f : Token → Parser α} (hf : ∀ t, Takes Closed C e n (f t)) :
    Takes Closed C e n (peekAt k >>= f) := by
  intro s hG hle hn hs
  rw [peekAt, bind_assoc, proceeds_bind, proceeds_get, proceeds_bind]
  split
  · rename_i hlt
    rw [proceeds_itemAt (List.getElem?_eq_getElem hlt)]
    exact hf _ s hG hle hn hs
  · obtain ⟨t, ht⟩ := hG.at (Nat.le_refl _)
    have hlast : (s.items.length : ℤ) - 1 = (s.last : ℕ) := by
      rw [hG.length]
      omega
    rw [hlast, proceeds_itemAt ht]
    exact hf _ s hG hle hn hs

/-- Not at the end of the input. -/
def Inside (o : Option Token) : Prop := ∃ t, o = some t ∧ t.kind ≠ .eof

theorem inside_of_kind {t : Token} {kind : TokKind} (ht : t.kind = kind) (hkind : kind ≠ .eof) :
    ∀ o, o = some t → Inside o := by
  rintro _ rfl
  exact ⟨t, rfl, ht ▸ hkind⟩

/-- A step of the position by one. -/
theorem proceeds_succ {s : Tape Token} (hG : Closed s.items s.last) (hle : s.pos ≤ s.last)
    (hs : Inside s.items[s.pos]?) {f : Unit → Parser α} {Q : α → Tape Token → Prop}
    (hf : ∀ s', Goes 1 s s' → Proceeds (f ()) s' Q) :
    Proceeds (moveTo ((s.pos + 1 : ℕ) : ℤ) >>= f) s Q := by
  obtain ⟨t, ht, hkind⟩ := hs
  have hne : s.pos ≠ s.last := fun h => hkind ((hG.eof _ ht).mpr h)
  have hlt : s.pos + 1 ≤ s.last := Nat.lt_of_le_of_ne hle hne
  rw [proceeds_bind, proceeds_moveTo hlt]
  exact hf _ ⟨rfl, rfl, Nat.le_refl _, hlt⟩

theorem takes_advance : Takes Closed Inside (fun _ => 1) n advance := by
  intro s hG hle hn hs
  obtain ⟨t, ht, hkind⟩ := id hs
  have hne : s.pos ≠ s.last := fun h => hkind ((hG.eof _ ht).mpr h)
  have hlt : (s.pos : ℤ) < (s.items.length : ℤ) - 1 := by
    rw [hG.length]
    omega
  rw [advance, proceeds_bind, proceeds_get, proceeds_bind, proceeds_itemAt ht, if_pos hlt]
  exact proceeds_succ hG hle hs fun _ hgo => proceeds_pure.mpr hgo

/-- At the end of the input the position stays. -/
theorem takes_advance_any : Takes Closed C (fun _ => 0) n advance := by
  intro s hG hle hn hs
  obtain ⟨t, ht⟩ := hG.at hle
  by_cases hkind : t.kind = .eof
  · have hlast : s.pos = s.last := (hG.eof _ ht).mp hkind
    have hlt : ¬ (s.pos : ℤ) < (s.items.length : ℤ) - 1 := by
      rw [hG.length]
      omega
    rw [advance, proceeds_bind, proceeds_get, proceeds_bind, proceeds_itemAt ht, if_neg hlt]
    exact proceeds_pure.mpr (Goes.refl hle)
  · have hmoves : Takes Closed Inside (fun _ => 0) n advance :=
      takes_advance.less fun _ => Nat.zero_le 1
    exact hmoves s hG hle hn ⟨t, ht, hkind⟩

theorem takes_skipSemicolons : Takes Closed Any (fun _ => 0) n (skipSemicolons n) := by
  apply takes_loop
  intro _
  apply takes_peek
  rintro t -
  apply takes_ite
  · intro ht s hG hle hn hs
    rw [proceeds_bind, proceeds_get]
    exact proceeds_succ hG hle (inside_of_kind ht nofun _ hs) fun _ hgo => proceeds_pure.mpr hgo
  · intro _
    exact takes_pure rfl

/-! ### Keywords and single tokens -/

theorem proceeds_isKeyword {kw : String} {s : Tape Token} (hG : Closed s.items s.last)
    (hle : s.pos ≤ s.last) :
    Proceeds (isKeyword kw) s fun b s' => s' = s ∧ (b = true → Inside s.items[s.pos]?) := by
  refine proceeds_bind.mpr ((proceeds_peek hG hle).mono ?_)
  rintro t _ ⟨rfl, ht⟩
  refine proceeds_pure.mpr ⟨rfl, fun hb => ?_⟩
  have hkind : t.kind = .ident := of_decide_eq_true (Bool.and_eq_true_iff.mp hb).1
  exact inside_of_kind hkind nofun _ ht

theorem takes_isKeyword {kw : String} {f : Bool → Parser α}
    (htrue : Takes Closed Inside e n (f true)) (hfalse : Takes Closed C e n (f false)) :
    Takes Closed C e n (isKeyword kw >>= f) := by
  intro s hG hle hn hs
  refine proceeds_bind.mpr ((proceeds_isKeyword hG hle).mono ?_)
  rintro (_ | _) _ ⟨rfl, hb⟩
  · exact hfalse _ hG hle hn hs
  · exact htrue _ hG hle hn (hb rfl)

theorem takes_ifKeyword {kw : String} {x y : Parser α} (hx : Takes Closed Inside e n x)
    (hy : Takes Closed C e n y) :
    Takes Closed C e n (isKeyword kw >>= fun b => if b = true then x else y) :=
  takes_isKeyword hx hy

theorem takes_ifAccept {kw : String} {x y : Parser α}
    (hx : Takes Closed Any (fun a => e a - 1) (n - 1) x) (hy : Takes Closed C e n y) :
    Takes Closed C e n (acceptKeyword kw >>= fun b => if b = true then x else y) := by
  rw [acceptKeyword, bind_assoc]
  apply takes_isKeyword
  · change Takes Closed Inside e n ((advance >>= fun _ => pure true) >>= _)
    rw [bind_assoc]
    exact takes_bind takes_advance fun _ => hx
  · exact hy

theorem takes_acceptKeyword {kw : String} : Takes Closed C (fun _ => 0) n (acceptKeyword kw) := by
  apply takes_ifKeyword
  · exact takes_then takes_advance_any fun _ => takes_pure rfl
  · exact takes_pure rfl

theorem takes_skipIdent : Takes Closed C (fun _ => 0) n skipIdent := by
  apply takes_peek
  rintro t -
  apply takes_ite
  · intro _
    exact takes_then takes_advance_any fun _ => takes_pure rfl
  · intro _
    exact takes_pure rfl

variable {lib : Stdlib}

theorem takes_expect {kind : TokKind} {what : String} (hkind : kind ≠ .eof) :
    Takes Closed C (fun _ => 1) n (expect lib kind what) := by
  apply takes_peek
  rintro t -
  apply takes_ite
  · intro ht
    exact takes_advance.at (inside_of_kind ht hkind)
  · intro _
    exact takes_refuse _

theorem takes_identLower : Takes Closed C (fun _ => 0) n (identLower lib) :=
  takes_then takes_advance_any fun _ => takes_pure rfl

theorem takes_ident {what : String} : Takes Closed C (fun _ => 1) n (ident lib what) := by
  apply takes_peek
  rintro t -
  apply takes_ite
  · intro ht
    exact takes_first (takes_advance.at (inside_of_kind ht nofun)) fun _ => takes_pure rfl
  · intro _
    exact takes_refuse _

theorem takes_stringLiteral : Takes Closed C (fun _ => 1) n (stringLiteral lib) := by
  apply takes_peek
  rintro t -
  apply takes_ite
  · intro ht
    exact takes_first (takes_advance.at (inside_of_kind ht nofun)) fun _ => takes_pure rfl
  · intro _
    exact takes_refuse _

/-! ### Lists and operators -/

/-- Behind an item a comma goes on, and anything else ends the list. -/
theorem takes_comma {σ β : Type} {d : β → ℕ} {a : σ} {b : β} (hb : d b ≤ 1) :
    Takes Closed C (fun r => Round.dist d r - 1) n (do
      let t ← peek
      if t.kind = .comma then do
        let _ ← advance
        return Round.next a
      else return Round.done b) := by
  apply takes_peek
  rintro t -
  apply takes_ite
  · intro _
    exact takes_then takes_advance_any fun _ => takes_pure rfl
  · intro _
    exact takes_pure (Nat.sub_eq_zero_of_le hb)

theorem takes_commaList {item : Parser α} (hk : k ≤ n)
    (h : Takes Closed Any (fun _ => 1) k item) :
    Takes Closed C (fun _ => 1) k (commaList item n) :=
  takes_loop_le (e := fun _ => 1) hk
    (fun _ => takes_bind h fun _ => takes_comma (Nat.le_refl 1)) []

/-- What an operator takes, if there is one. -/
def opDist : Option BinOp → ℕ
  | none => 0
  | some _ => 1

theorem takes_leftAssoc {operand : Parser Expr} {operator : Parser (Option BinOp)}
    (h : Takes Closed Any (fun _ => 1) n operand) (hop : Takes Closed Any opDist n operator) :
    Takes Closed C (fun _ => 1) n (leftAssoc operand operator n) := by
  apply takes_first h.any
  intro left
  apply Takes.fewer _ (Nat.sub_le n 1)
  apply takes_loop
  intro left
  apply takes_bind hop
  rintro (_ | op)
  · exact takes_pure rfl
  · exact takes_then (h.fewer (Nat.sub_le n 1)) fun _ =>
      takes_pure rfl

theorem takes_keywordOp {kw : String} {op : BinOp} :
    Takes Closed C opDist n (keywordOp kw op) := by
  apply takes_ifAccept
  · exact takes_pure rfl
  · exact takes_pure rfl

theorem takes_tokenOp {op : Token → Option BinOp} (hop : ∀ t, t.kind = .eof → op t = none) :
    Takes Closed C opDist n (tokenOp op) := by
  apply takes_peek
  rintro t -
  rcases ho : op t with _ | o
  · exact takes_pure rfl
  · have hkind : t.kind ≠ .eof := fun h => by simp [hop t h] at ho
    exact takes_bind (takes_advance.at (inside_of_kind rfl hkind)) fun _ => takes_pure rfl

theorem additiveOp_eof {t : Token} (h : t.kind = .eof) : additiveOp t = none := by
  simp [additiveOp, h]

theorem multiplicativeOp_eof {t : Token} (h : t.kind = .eof) : multiplicativeOp t = none := by
  simp [multiplicativeOp, h]

theorem signOp_eof {t : Token} (h : t.kind = .eof) : signOp t = none := by
  simp [signOp, h]

theorem comparisonOp_eof {t : Token} (h : t.kind = .eof) : comparisonOp t = none := by
  simp [comparisonOp, h]

theorem takes_comparison : Takes Closed C opDist n comparison := by
  apply takes_peek
  rintro t -
  rcases ho : comparisonOp t with _ | o
  · apply takes_isKeyword
    · refine takes_peekAt fun u => takes_ite (fun _ => ?_) fun _ => takes_keywordOp
      refine takes_bind takes_advance fun _ => ?_
      exact takes_then takes_advance_any fun _ => takes_pure rfl
    · refine takes_peekAt fun u => takes_ite (fun h => ?_) fun _ => takes_keywordOp
      simp at h
  · have hkind : t.kind ≠ .eof := fun h => by simp [comparisonOp_eof h] at ho
    exact takes_bind (takes_advance.at (inside_of_kind rfl hkind)) fun _ => takes_pure rfl

/-! ### Expressions -/

section

variable {E : Parser Expr}

theorem takes_parseCast (hE : Takes Closed Any (fun _ => 1) n E) :
    Takes Closed C (fun _ => 0) n (parseCast lib E) := by
  refine takes_then (takes_expect nofun) fun _ => ?_
  apply takes_then hE
  intro e
  apply takes_then takes_acceptKeyword
  intro _
  apply takes_peek
  rintro t -
  apply takes_ite
  · intro _
    apply takes_then takes_advance_any
    intro _
    exact takes_then (takes_expect nofun) fun _ => takes_pure rfl
  · intro _
    exact takes_refuse _

theorem takes_parseArgs (hk : k ≤ n) (hE : Takes Closed Any (fun _ => 1) k E) :
    Takes Closed C (fun _ => 0) k (parseArgs E n) := by
  apply takes_peek
  rintro t -
  apply takes_ite
  · intro _
    exact takes_pure rfl
  · intro _
    exact (takes_commaList hk hE).less fun _ => Nat.zero_le 1

/-- Literals, names, casts and calls take a token or more. -/
theorem takes_parseIdent {t : Token} (hE : Takes Closed Any (fun _ => 1) n E)
    (ht : t.kind = .ident) :
    Takes Closed (· = some t) (fun _ => 1) (n + 1) (parseIdent lib E (n + 1) t) := by
  have hadvance : Takes Closed (· = some t) (fun _ => 1) (n + 1) advance :=
    takes_advance.at (inside_of_kind ht nofun)
  refine takes_ite (fun _ => takes_first hadvance fun _ => takes_pure rfl) fun _ => ?_
  refine takes_ite (fun _ => takes_first hadvance fun _ => takes_pure rfl) fun _ => ?_
  refine takes_ite (fun _ => takes_first hadvance fun _ => takes_parseCast hE) fun _ => ?_
  refine takes_peekAt fun u => takes_ite (fun _ => ?_) fun _ => ?_
  · apply takes_first hadvance
    intro _
    apply takes_then takes_advance_any
    intro _
    apply takes_then (takes_parseArgs (Nat.le_succ n) hE)
    intro args
    exact takes_then (takes_expect nofun) fun _ => takes_pure rfl
  · exact takes_first hadvance fun _ => takes_pure rfl

theorem takes_parsePrimary (hE : Takes Closed Any (fun _ => 1) n E) :
    Takes Closed C (fun _ => 1) (n + 1) (parsePrimary lib E (n + 1)) := by
  apply takes_peek
  rintro t -
  have hadvance (h : t.kind ≠ .eof) : Takes Closed (· = some t) (fun _ => 1) (n + 1) advance :=
    takes_advance.at (inside_of_kind rfl h)
  rcases ht : t.kind
  case number => exact takes_first (hadvance (by simp [ht])) fun _ => takes_pure rfl
  case string => exact takes_first (hadvance (by simp [ht])) fun _ => takes_pure rfl
  case star => exact takes_first (hadvance (by simp [ht])) fun _ => takes_pure rfl
  case ident => exact takes_parseIdent hE ht
  case lparen =>
    apply takes_first (hadvance (by simp [ht]))
    intro _
    apply takes_then hE
    intro e
    exact takes_then (takes_expect nofun) fun _ => takes_pure rfl
  all_goals exact takes_refuse _

/-- The signs and NOTs before an operand: each takes a token. -/
theorem takes_parseUnary (hE : Takes Closed Any (fun _ => 1) n E) (hk : k ≤ n + 1) :
    Takes Closed Any (fun _ => 1) k (parseUnary lib E k) := by
  induction k with
  | zero => exact fun s _ _ hn => absurd hn (Nat.not_lt_zero _)
  | succ k ih =>
    have hrest : Takes Closed Any (fun _ => 0) k (parseUnary lib E k) :=
      (ih (Nat.le_of_succ_le hk)).less fun _ => Nat.zero_le 1
    apply takes_peek
    rintro t -
    rcases ho : signOp t with _ | op
    · apply takes_ifAccept
      · exact takes_then hrest fun _ => takes_pure rfl
      · exact takes_parsePrimary (hE.fewer (Nat.le_of_succ_le_succ hk))
    · have hkind : t.kind ≠ .eof := fun h => by simp [signOp_eof h] at ho
      apply takes_first (takes_advance.at (inside_of_kind rfl hkind))
      intro _
      exact takes_then hrest fun _ => takes_pure rfl

theorem takes_parseOr (hE : Takes Closed Any (fun _ => 1) n E) :
    Takes Closed C (fun _ => 1) (n + 1) (parseOr lib E (n + 1)) := by
  have hunary : Takes Closed Any (fun _ => 1) (n + 1) (parseUnary lib E (n + 1)) :=
    takes_parseUnary hE (Nat.le_refl _)
  have hmul : Takes Closed Any (fun _ => 1) (n + 1) (parseMultiplicative lib E (n + 1)) :=
    takes_leftAssoc hunary (takes_tokenOp fun _ => multiplicativeOp_eof)
  have hadd : Takes Closed Any (fun _ => 1) (n + 1) (parseAdditive lib E (n + 1)) :=
    takes_leftAssoc hmul (takes_tokenOp fun _ => additiveOp_eof)
  have hcomparison : Takes Closed Any (fun _ => 1) (n + 1) (parseComparison lib E (n + 1)) :=
    takes_leftAssoc hadd takes_comparison
  have hand : Takes Closed Any (fun _ => 1) (n + 1) (parseAnd lib E (n + 1)) :=
    takes_leftAssoc hcomparison takes_keywordOp
  exact takes_leftAssoc hand takes_keywordOp

end

theorem takes_parseExpr : Takes Closed C (fun _ => 1) n (parseExpr lib n) := by
  induction n generalizing C with
  | zero => exact fun s _ _ hn => absurd hn (Nat.not_lt_zero _)
  | succ n ih => exact takes_parseOr ih

theorem takes_exprAfter {kw : String} : Takes Closed C (fun _ => 0) n (exprAfter lib kw n) := by
  apply takes_ifAccept
  · exact (takes_parseExpr.less fun _ => Nat.zero_le 1).fewer (Nat.sub_le n 1)
  · exact takes_pure rfl

/-! ### Columns -/

theorem takes_columnType : Takes Closed C (fun _ => 0) n (columnType lib) := by
  apply takes_peek
  rintro t -
  apply takes_ite
  · intro _
    exact takes_then takes_advance_any fun _ => takes_pure rfl
  · intro _
    exact takes_pure rfl

theorem takes_columnNotNull : Takes Closed C (fun _ => 0) n columnNotNull := by
  apply takes_ifAccept
  · exact takes_then takes_acceptKeyword fun _ => takes_pure rfl
  · exact takes_pure rfl

/-- What a column takes, if the position does not go back. -/
def columnDist {β : Type} : Option β → ℕ
  | none => 0
  | some _ => 1

/-- Behind a name, PRIMARY is the second token taken, so that the position does not go back before
the name. -/
theorem proceeds_columnPrimary {s s₁ : Tape Token} (hG : Closed s.items s.last)
    (hn : s.last - s.pos < n + 1) (hgo : Goes 1 s s₁) :
    Proceeds columnPrimary s₁ fun o s' => Goes (columnDist o) s s' := by
  refine proceeds_bind.mpr ((proceeds_isKeyword (hgo.keeps hG) hgo.le).mono ?_)
  rintro b s₁ ⟨rfl, hb⟩
  split
  · have hleft : s₁.last - s₁.pos < n := by
      have := hgo.last
      have := hgo.pos
      have := hgo.le
      omega
    have hprimary := takes_advance s₁ (hgo.keeps hG) hgo.le hleft (hb ‹_›)
    refine proceeds_bind.mpr (hprimary.mono fun _ s₂ hgo₂ => ?_)
    have htwo : Goes 2 s s₂ := hgo.trans hgo₂
    have hkey : Takes Closed Any (fun _ => 0) n (acceptKeyword "key") := takes_acceptKeyword
    refine proceeds_bind.mpr ((hkey.after hG (by omega) htwo).mono fun _ s₃ hgo₃ => ?_)
    refine proceeds_bind.mpr ((proceeds_peek (hgo₃.keeps hG) hgo₃.le).mono ?_)
    rintro t s₃ ⟨rfl, -⟩
    split
    · have hpos := hgo₃.pos
      have hle := hgo₃.le
      have hback : (s₃.pos : ℤ) - 2 = ((s₃.pos - 2 : ℕ) : ℤ) := by omega
      rw [proceeds_bind, proceeds_get, hback, proceeds_bind, proceeds_moveTo (by omega)]
      exact proceeds_pure.mpr ⟨hgo₃.items, hgo₃.last, by simp only [columnDist]; omega, by
        simp only
        omega⟩
    · exact proceeds_pure.mpr (hgo₃.mono (Nat.le_succ 1))
  · exact proceeds_pure.mpr hgo

theorem takes_parseColumn : Takes Closed Any columnDist n (parseColumn lib n) := by
  intro s hG hle hn _
  have hname : Takes Closed Any (fun _ => 1) n (ident lib "column name") := takes_ident
  refine proceeds_bind.mpr ((hname.ends hG hle hn).mono fun _ s₁ hgo₁ => ?_)
  have htype : Takes Closed Any (fun _ => 0) n (columnType lib) := takes_columnType
  refine proceeds_bind.mpr ((htype.after hG (by omega) hgo₁).mono fun _ s₂ hgo₂ => ?_)
  have hnot : Takes Closed Any (fun _ => 0) n columnNotNull := takes_columnNotNull
  refine proceeds_bind.mpr ((hnot.after hG (by omega) hgo₂).mono fun _ s₃ hgo₃ => ?_)
  refine proceeds_bind.mpr ((proceeds_columnPrimary hG (Nat.lt_succ_of_lt hn) hgo₃).mono ?_)
  rintro (_ | primary) s₄ hgo₄
  · exact proceeds_pure.mpr hgo₄
  · have hdefault : Takes Closed Any (fun _ => 0) n (exprAfter lib "default" n) := takes_exprAfter
    exact proceeds_bind.mpr ((hdefault.after hG (by omega) hgo₄).mono fun _ s₅ hgo₅ => hgo₅)

theorem takes_parseColumns : Takes Closed C (fun _ => 0) n (parseColumns lib n) := by
  apply takes_loop
  intro cols
  refine takes_peek fun t _ => takes_isKeyword ?_ ?_
  · rw [Bool.or_true, if_pos rfl]
    exact takes_pure rfl
  · refine takes_ite (fun _ => takes_pure rfl) fun _ => ?_
    apply takes_bind takes_parseColumn.any
    rintro (_ | col)
    · exact takes_pure rfl
    · exact takes_comma (Nat.zero_le 1)

theorem takes_tablePrimary : Takes Closed C (fun _ => 0) n (tablePrimary lib n) := by
  apply takes_ifAccept
  · refine takes_then takes_acceptKeyword fun _ => ?_
    refine takes_then (takes_expect nofun) fun _ => ?_
    refine takes_then (takes_commaList (Nat.sub_le n 1) takes_ident) fun _ => ?_
    exact takes_then (takes_expect nofun) fun _ => takes_pure rfl
  · exact takes_pure rfl

theorem takes_equalsAfter {what : String} :
    Takes Closed C (fun _ => 0) n (equalsAfter what) := by
  apply takes_peek
  rintro t -
  apply takes_ite
  · intro _
    exact takes_then takes_advance_any fun _ => takes_pure rfl
  · intro _
    exact takes_refuse _

theorem takes_tableEngine : Takes Closed C (fun _ => 0) n (tableEngine lib) := by
  apply takes_ifAccept
  · refine takes_then takes_equalsAfter fun _ => ?_
    refine takes_then takes_ident fun _ => ?_
    exact takes_ite (fun _ => takes_pure rfl) fun _ => takes_refuse _
  · exact takes_pure rfl

variable {parseDuration : Bytes → Option Int64}

theorem takes_tableRetention :
    Takes Closed C (fun _ => 0) n (tableRetention lib parseDuration) := by
  apply takes_ifAccept
  · refine takes_then takes_equalsAfter fun _ => ?_
    refine takes_peek fun t _ => takes_ite (fun _ => ?_) fun _ => takes_refuse _
    refine takes_then takes_advance_any fun u => ?_
    rcases parseRetention lib parseDuration u.text with msg | d
    · exact takes_peek fun _ _ => takes_refuse _
    · exact takes_pure rfl
  · exact takes_pure rfl

/-! ### Statements -/

theorem takes_ifExists : Takes Closed C (fun _ => 0) n ifExists := by
  apply takes_ifAccept
  · exact takes_then takes_skipIdent fun _ => takes_pure rfl
  · exact takes_pure rfl

theorem takes_ifNotExists : Takes Closed C (fun _ => 0) n ifNotExists := by
  apply takes_ifAccept
  · refine takes_then takes_acceptKeyword fun _ => ?_
    exact takes_then takes_skipIdent fun _ => takes_pure rfl
  · exact takes_pure rfl

theorem takes_parseCreateTable :
    Takes Closed C (fun _ => 0) n (parseCreateTable lib parseDuration n) := by
  refine takes_then takes_ifExists fun _ => ?_
  refine takes_then takes_ident fun _ => ?_
  refine takes_then (takes_expect nofun) fun _ => ?_
  refine takes_then takes_parseColumns fun _ => ?_
  refine takes_then takes_tablePrimary fun _ => ?_
  refine takes_then (takes_expect nofun) fun _ => ?_
  refine takes_then takes_tableEngine fun _ => ?_
  exact takes_then takes_tableRetention fun _ => takes_pure rfl

theorem takes_indexColumns : Takes Closed C (fun _ => 0) n (indexColumns lib n) := by
  apply takes_loop
  intro cols
  refine takes_peek fun t _ => takes_ite (fun _ => takes_pure rfl) fun _ => ?_
  exact takes_bind takes_ident fun _ => takes_comma (Nat.zero_le 1)

theorem takes_parseCreateIndex : Takes Closed C (fun _ => 0) n (parseCreateIndex lib n) := by
  refine takes_then takes_ifNotExists fun _ => ?_
  refine takes_then takes_ident fun _ => ?_
  refine takes_then takes_acceptKeyword fun _ => ?_
  refine takes_then takes_ident fun _ => ?_
  refine takes_then (takes_expect nofun) fun _ => ?_
  refine takes_then takes_indexColumns fun _ => ?_
  exact takes_then (takes_expect nofun) fun _ => takes_pure rfl

theorem takes_parseCreate :
    Takes Closed Inside (fun _ => 1) n (parseCreate lib parseDuration n) := by
  refine takes_first takes_advance fun _ => takes_ifAccept ?_ (takes_ifAccept ?_ ?_)
  · exact takes_then takes_identLower fun _ => takes_pure rfl
  · exact takes_parseCreateIndex.fewer (by omega)
  · refine takes_ifAccept ?_ (takes_peek fun _ _ => takes_refuse _)
    exact takes_parseCreateTable.fewer (by omega)

theorem takes_parseDrop : Takes Closed Inside (fun _ => 1) n (parseDrop lib) := by
  refine takes_first takes_advance fun _ => takes_ifAccept ?_ (takes_ifAccept ?_ ?_)
  · refine takes_then takes_ifExists fun _ => ?_
    exact takes_then takes_ident fun _ => takes_pure rfl
  · refine takes_then takes_ifExists fun _ => ?_
    refine takes_then takes_ident fun _ => ?_
    refine takes_then takes_acceptKeyword fun _ => ?_
    refine takes_peek fun _ _ => takes_ite (fun _ => ?_) fun _ => takes_pure rfl
    exact takes_then takes_identLower fun _ => takes_pure rfl
  · exact takes_peek fun _ _ => takes_refuse _

theorem takes_optionalString : Takes Closed C (fun _ => 0) n (parseKV.optionalString lib) := by
  refine takes_peek fun t _ => takes_ite (fun _ => ?_) fun _ => takes_pure rfl
  exact takes_then takes_stringLiteral fun _ => takes_pure rfl

theorem takes_parseKV : Takes Closed Inside (fun _ => 1) n (parseKV lib) := by
  refine takes_first takes_advance fun _ => takes_ifAccept ?_ (takes_ifAccept ?_
    (takes_ifAccept ?_ (takes_ifAccept ?_ (takes_peek fun _ _ => takes_refuse _))))
  · refine takes_then takes_identLower fun _ => takes_then takes_stringLiteral fun _ => ?_
    exact takes_then takes_stringLiteral fun _ => takes_pure rfl
  · refine takes_then takes_identLower fun _ => ?_
    exact takes_then takes_stringLiteral fun _ => takes_pure rfl
  · refine takes_then takes_identLower fun _ => ?_
    exact takes_then takes_stringLiteral fun _ => takes_pure rfl
  · refine takes_then takes_identLower fun _ => takes_then takes_optionalString fun _ => ?_
    exact takes_then takes_optionalString fun _ => takes_pure rfl

theorem takes_insertNames : Takes Closed C (fun _ => 0) n (insertNames lib n) := by
  refine takes_peek fun t _ => takes_ite (fun _ => ?_) fun _ => takes_pure rfl
  refine takes_then takes_advance_any fun _ => ?_
  refine takes_then (takes_commaList (Nat.le_refl n) takes_ident) fun _ => ?_
  exact takes_then (takes_expect nofun) fun _ => takes_pure rfl

theorem takes_parseRow : Takes Closed C (fun _ => 1) n (parseRow lib n) := by
  refine takes_first (takes_expect nofun) fun _ => ?_
  refine takes_then (takes_commaList (Nat.sub_le n 1) (takes_parseExpr.fewer (Nat.sub_le n 1)))
    fun _ => ?_
  exact takes_then (takes_expect nofun) fun _ => takes_pure rfl

theorem takes_parseInsert : Takes Closed Inside (fun _ => 1) n (parseInsert lib n) := by
  refine takes_first takes_advance fun _ => Takes.fewer ?_ (Nat.sub_le n 1)
  refine takes_then takes_acceptKeyword fun _ => takes_then takes_ident fun _ => ?_
  refine takes_then takes_insertNames fun _ => takes_then takes_acceptKeyword fun _ => ?_
  exact takes_then (takes_commaList (Nat.le_refl n) takes_parseRow) fun _ => takes_pure rfl

theorem takes_parseSet : Takes Closed C (fun _ => 1) n (parseSet lib n) := by
  refine takes_first takes_ident fun _ => Takes.fewer ?_ (Nat.sub_le n 1)
  refine takes_then (takes_expect nofun) fun _ => ?_
  exact takes_then takes_parseExpr fun _ => takes_pure rfl

theorem takes_parseUpdate : Takes Closed Inside (fun _ => 1) n (parseUpdate lib n) := by
  refine takes_first takes_advance fun _ => Takes.fewer ?_ (Nat.sub_le n 1)
  refine takes_then takes_ident fun _ => takes_then takes_acceptKeyword fun _ => ?_
  refine takes_then (takes_commaList (Nat.le_refl n) takes_parseSet) fun _ => ?_
  exact takes_then takes_exprAfter fun _ => takes_pure rfl

theorem takes_parseDelete : Takes Closed Inside (fun _ => 1) n (parseDelete lib n) := by
  refine takes_first takes_advance fun _ => Takes.fewer ?_ (Nat.sub_le n 1)
  refine takes_then takes_acceptKeyword fun _ => takes_then takes_ident fun _ => ?_
  exact takes_then takes_exprAfter fun _ => takes_pure rfl

theorem takes_parseItem : Takes Closed C (fun _ => 1) n (parseItem lib n) := by
  refine takes_first takes_parseExpr fun _ => takes_ifAccept ?_ (takes_pure rfl)
  exact takes_then takes_ident fun _ => takes_pure rfl

theorem takes_parseFrom : Takes Closed C (fun _ => 0) n (parseFrom lib) :=
  takes_ifAccept (takes_ident.less fun _ => Nat.zero_le 1) (takes_pure rfl)

theorem takes_parseGroupBy : Takes Closed C (fun _ => 0) n (parseGroupBy lib n) := by
  refine takes_ifAccept ?_ (takes_pure rfl)
  refine takes_then takes_acceptKeyword fun _ => ?_
  have hlist : Takes Closed Any (fun _ => 1) n (commaList (parseExpr lib n) n) :=
    takes_commaList (Nat.le_refl n) takes_parseExpr
  exact (hlist.less fun _ => Nat.zero_le 1).fewer (Nat.sub_le n 1)

theorem takes_parseHaving {where_ : Expr} :
    Takes Closed C (fun _ => 0) n (parseHaving lib where_ n) := by
  refine takes_ifAccept ?_ (takes_pure rfl)
  exact takes_then (takes_parseExpr.fewer (Nat.sub_le n 1)) fun _ => takes_pure rfl

theorem takes_parseOrder : Takes Closed C (fun _ => 1) n (parseOrder lib n) := by
  refine takes_first takes_parseExpr fun _ => takes_ifAccept (takes_pure rfl) ?_
  exact takes_then takes_acceptKeyword fun _ => takes_pure rfl

theorem takes_parseOrderBy : Takes Closed C (fun _ => 0) n (parseOrderBy lib n) := by
  refine takes_ifAccept ?_ (takes_pure rfl)
  refine takes_then takes_acceptKeyword fun _ => ?_
  have hlist : Takes Closed Any (fun _ => 1) n (commaList (parseOrder lib n) n) :=
    takes_commaList (Nat.le_refl n) takes_parseOrder
  exact (hlist.less fun _ => Nat.zero_le 1).fewer (Nat.sub_le n 1)

theorem takes_parseLimit : Takes Closed C (fun _ => 0) n parseLimit := by
  refine takes_ifAccept ?_ (takes_pure rfl)
  refine takes_then takes_advance_any fun _ => ?_
  exact takes_ite (fun _ => takes_pure rfl) fun _ => takes_refuse _

theorem takes_parseSelect : Takes Closed Inside (fun _ => 1) n (parseSelect lib n) := by
  refine takes_first takes_advance fun _ => Takes.fewer ?_ (Nat.sub_le n 1)
  refine takes_then takes_acceptKeyword fun _ => ?_
  refine takes_then (takes_commaList (Nat.le_refl n) takes_parseItem) fun _ => ?_
  refine takes_then takes_parseFrom fun _ => takes_then takes_exprAfter fun _ => ?_
  refine takes_then takes_parseGroupBy fun _ => takes_then takes_parseHaving fun _ => ?_
  refine takes_then takes_parseOrderBy fun _ => ?_
  exact takes_then takes_parseLimit fun _ => takes_pure rfl

/-- A statement takes a token or more: its keyword. -/
theorem takes_parseStatement :
    Takes Closed C (fun _ => 1) n (parseStatement lib parseDuration n) := by
  refine takes_ifKeyword takes_parseSelect ?_
  refine takes_ifKeyword takes_parseInsert ?_
  refine takes_ifKeyword takes_parseUpdate ?_
  refine takes_ifKeyword takes_parseDelete ?_
  refine takes_ifKeyword takes_parseCreate ?_
  refine takes_ifKeyword takes_parseDrop ?_
  refine takes_ifAccept (takes_pure rfl) ?_
  refine takes_ifAccept (takes_pure rfl) ?_
  refine takes_ifAccept (takes_pure rfl) ?_
  refine takes_ifKeyword takes_parseKV ?_
  exact takes_peek fun _ _ => takes_refuse _

theorem takes_statements :
    Takes Closed C (fun _ => 0) n (statements lib parseDuration n) := by
  apply takes_loop
  intro stmts
  refine takes_then takes_skipSemicolons fun _ => ?_
  refine takes_peek fun t _ => takes_ite (fun _ => takes_pure rfl) fun _ => ?_
  refine takes_bind takes_parseStatement fun st => ?_
  refine takes_then (takes_skipSemicolons.fewer (Nat.sub_le n 1)) fun _ => ?_
  refine takes_peek fun u _ => takes_ite (fun _ => takes_pure rfl) fun _ => takes_pure rfl

/-! ### Every source -/

variable (lib parseDuration) (src : Bytes)

/-- The lexer and the parser meet no fault: they read nothing outside the source and the tokens, the
positions stay within the source and at the tokens, of which the last and no other is the end of the
input, and each round of a loop takes something or is the last. -/
theorem parse_safe :
    (∀ f, tokenize lib src ≠ .error (.fault f)) ∧
      (∀ toks, tokenize lib src = .ok toks → Closed toks (toks.length - 1)) ∧
      ∀ f, parse lib parseDuration src ≠ .error (.fault f) := by
  refine ⟨tokenize_ne_fault lib src, fun _ => closed_of_tokenize lib src, fun f => ?_⟩
  rcases h : tokenize lib src with err | toks
  · rw [parse, h]
    intro hf
    cases hf
    exact tokenize_ne_fault lib src f h
  · have hclosed := closed_of_tokenize lib src h
    have hproceeds : Proceeds (statements lib parseDuration toks.length)
        ⟨toks, 0, toks.length - 1⟩ _ :=
      takes_statements.ends hclosed (Nat.zero_le _) (by have := hclosed.length; simp; omega)
    rw [parse, h]
    exact hproceeds.ne_fault f

end Ydbgo.Sql
