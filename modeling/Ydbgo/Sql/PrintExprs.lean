import Ydbgo.Sql.PrintRules

/-! # Reading printed expressions

The text of an expression has a pair of parentheses around every operator, so the
parser descends through all its levels to the operator of each pair and finds
nothing at the others. What it returns is the expression, except for what the text
does not say.
-/

namespace Ydbgo.Sql

open Tokens

/-! ### What is read again -/

/-- The type that the name of a type is read as. -/
def SqlType.reread : SqlType → SqlType
  | .float | .other _ | .null => .null
  | type => type

section

variable (lib : Stdlib)

/-- The literal of a number without a sign. -/
def numberLiteral (text : Bytes) : Literal :=
  match numberToken lib text with
  | some (t, _) => if t.isFloat then .float t.fltVal else .int t.intVal
  | none => .null

/-- A minus before a number is an operator. -/
def numberReread : Bytes → Expr
  | 45 :: text => .unary .neg (.literal (numberLiteral lib text))
  | text => .literal (numberLiteral lib text)

def Literal.reread : Literal → Expr
  | .int n => numberReread lib (formatInt n)
  | .float x => numberReread lib (lib.formatFloat x)
  | .timestamp _ => .literal (.string [])
  | l => .literal l

mutual

/-- The expression that the text of a printable one is parsed as. -/
def Expr.reread : Expr → Expr
  | .nil => .nil
  | .ident name => .ident name
  | .literal l => l.reread lib
  | .binary op left right => .binary op left.reread right.reread
  | .unary op e => .unary op e.reread
  | .call name args => .call name (Expr.rereads args)
  | .cast e type => .cast e.reread type.reread

def Expr.rereads : List Expr → List Expr
  | [] => []
  | e :: es => e.reread :: Expr.rereads es

end

end

variable {lib : Stdlib} {us vs : List Token} {u v w : Token} {m n k j : ℕ} {e l r : Expr}
  {op : BinOp} {operand pe : Parser Expr}

theorem rereads_eq (es : List Expr) : Expr.rereads lib es = es.map (Expr.reread lib) := by
  induction es with
  | nil => rfl
  | cons e es ih => rw [Expr.rereads, ih, List.map_cons]

/-! ### Operators -/

def operators : ℕ → Parser (Option BinOp)
  | 0 => tokenOp multiplicativeOp
  | 1 => tokenOp additiveOp
  | 2 => comparison
  | 3 => keywordOp "and" .and
  | _ => keywordOp "or" .or

/-- The levels of the parser over its operands. -/
def climb (operand : Parser Expr) (n : ℕ) : ℕ → Parser Expr
  | 0 => operand
  | k + 1 => leftAssoc (climb operand n k) (operators k) n

theorem parseOr_eq : parseOr lib pe n = climb (parseUnary lib pe n) n 5 := rfl

def BinOp.level : BinOp → ℕ
  | .mul | .div => 0
  | .add | .sub => 1
  | .and => 3
  | .or => 4
  | _ => 2

/-- The token that an operator begins with. -/
def BinOp.first : BinOp → Token
  | .mul => markToken .star 42
  | .and => keyword "AND"
  | .or => keyword "OR"
  | .like => keyword "LIKE"
  | .notLike => keyword "NOT"
  | op => opMark op.text

theorem BinOp.headD_tokens (op : BinOp) : (op.tokens ++ us).headD v = op.first := by
  cases op <;> rfl

/-- No operator of that level begins with the token. -/
def quiet : ℕ → Token → Bool
  | 0, v => (multiplicativeOp v).isNone
  | 1, v => (additiveOp v).isNone
  | 2, v => (comparisonOp v).isNone && !v.is "not" && !v.is "like"
  | 3, v => !v.is "and"
  | _, v => !v.is "or"

theorem quiet_first (op : BinOp) : ∀ i < op.level, quiet i op.first = true := by
  intro i hi
  obtain _ | _ | _ | _ | i := i
  · cases op <;> first | rfl | cases hi
  · cases op <;> first | rfl | exact absurd hi (by decide)
  · cases op <;> first | rfl | exact absurd hi (by decide)
  · cases op <;> first | rfl | exact absurd hi (by decide)
  · have hlevel : op.level ≤ 4 := by cases op <;> decide
    exact absurd (hi.trans_le hlevel) (Nat.not_lt.mpr (Nat.le_add_left 4 i))

theorem parses_tokenOp_none {f : Token → Option BinOp} (h : ∀ p, f { v with pos := p } = none) :
    Parses (tokenOp f) [] v none := by
  refine parses_peek fun p => ?_
  simp only [List.headD_nil, h p]
  exact parses_pure

theorem parses_tokenOp {f : Token → Option BinOp} (h : ∀ p, f { u with pos := p } = some op) :
    Parses (tokenOp f) [u] v (some op) := by
  refine parses_peek fun p => ?_
  simp only [List.headD_cons, h p]
  exact parses_advance fun _ => parses_pure

theorem parses_keywordOp_none {kw : String} (h : v.is kw = false) :
    Parses (keywordOp kw op) [] v none := parses_else h parses_pure

theorem parses_keywordOp {kw : String} (h : u.is kw = true) :
    Parses (keywordOp kw op) [u] v (some op) := parses_accept h parses_pure

theorem parses_quiet (h : quiet k v = true) : Parses (operators k) [] v none := by
  obtain _ | _ | _ | _ | k := k
  · exact parses_tokenOp_none fun p => Option.isNone_iff_eq_none.mp h
  · exact parses_tokenOp_none fun p => Option.isNone_iff_eq_none.mp h
  · simp only [quiet, Bool.and_eq_true, Bool.not_eq_true'] at h
    obtain ⟨⟨hop, hnot⟩, hlike⟩ := h
    refine parses_peek fun p => ?_
    have hnone : comparisonOp { v with pos := p } = none := Option.isNone_iff_eq_none.mp hop
    simp only [List.headD_nil, hnone]
    refine parses_isKeyword (parses_peekAt_any fun t => ?_)
    simp only [List.headD_nil, hnot, Bool.false_and, Bool.false_eq_true, if_false]
    exact parses_keywordOp_none hlike
  · exact parses_keywordOp_none (by simpa only [quiet, Bool.not_eq_true'] using h)
  · exact parses_keywordOp_none (by simpa only [quiet, Bool.not_eq_true'] using h)

theorem parses_operator (op : BinOp) : Parses (operators op.level) op.tokens v (some op) := by
  have hcomparison {t : Token} {op : BinOp} (h : comparisonOp t = some op) :
      Parses comparison [t] v (some op) := by
    refine parses_peek fun p => ?_
    have hsome : comparisonOp { t with pos := p } = some op := h
    simp only [List.headD_cons, hsome]
    exact parses_advance fun _ => parses_pure
  cases op with
  | mul => exact parses_tokenOp fun p => rfl
  | div => exact parses_tokenOp fun p => rfl
  | add => exact parses_tokenOp fun p => rfl
  | sub => exact parses_tokenOp fun p => rfl
  | eq => exact hcomparison (by decide)
  | ne => exact hcomparison (by decide)
  | lt => exact hcomparison (by decide)
  | gt => exact hcomparison (by decide)
  | le => exact hcomparison (by decide)
  | ge => exact hcomparison (by decide)
  | and => exact parses_keywordOp rfl
  | or => exact parses_keywordOp rfl
  | like =>
    change Parses comparison [keyword "LIKE"] v (some .like)
    refine parses_peek fun p => ?_
    have hnone : comparisonOp { keyword "LIKE" with pos := p } = none := rfl
    simp only [List.headD_cons, hnone]
    refine parses_isKeyword (parses_peekAt_any fun t => ?_)
    have hnot : (keyword "LIKE").is "not" = false := rfl
    simp only [List.headD_cons, hnot, Bool.false_and, Bool.false_eq_true, if_false]
    exact parses_keywordOp rfl
  | notLike =>
    refine parses_peek fun p => ?_
    change Parses (do
      let isNot ← isKeyword "not"
      let t ← peekAt 1
      if isNot && t.kind = .ident && equalFold t.text "like" then do
        let _ ← advance
        let _ ← advance
        return some BinOp.notLike
      else keywordOp "like" .like) _ _ _
    refine parses_isKeyword (parses_peekAt fun p => ?_)
    change Parses (if true = true then _ else _) _ _ _
    rw [if_pos rfl]
    exact parses_advance fun _ => parses_advance fun _ => parses_pure

/-! ### Levels -/

/-- A round of `leftAssoc`. -/
def assocRound (operand : Parser Expr) (operator : Parser (Option BinOp)) (left : Expr) :
    Parser (Round Expr Expr) := do
  match ← operator with
  | none => return .done left
  | some op => do
    let right ← operand
    return .next (.binary op left right)

theorem leftAssoc_eq {operator : Parser (Option BinOp)} : leftAssoc operand operator n =
    operand >>= loop (assocRound operand operator) n := rfl

theorem parses_assocRound_done {operator : Parser (Option BinOp)}
    (h : Parses operator [] v none) : Parses (assocRound operand operator l) [] v (.done l) :=
  @parses_after _ _ [] _ _ _ _ _ h parses_pure

theorem parses_assocRound_next {operator : Parser (Option BinOp)}
    (hop : Parses operator us (vs.headD v) (some op)) (hr : Parses operand vs v r) :
    Parses (assocRound operand operator l) (us ++ vs) v (.next (.binary op l r)) := by
  refine parses_bind hop ?_
  exact parses_map (g := fun right => Round.next (Expr.binary op l right)) hr

theorem parses_leftAssoc (hn : 1 ≤ n) (h : Parses (climb operand n k) us v e)
    (hv : quiet k v = true) : Parses (climb operand n (k + 1)) us v e := by
  obtain ⟨n, rfl⟩ := Nat.exists_eq_add_of_le' hn
  have hall : Parses (climb operand (n + 1) (k + 1)) (us ++ []) v e :=
    parses_bind h (parses_loop_done (parses_assocRound_done (parses_quiet hv)))
  rwa [List.append_nil] at hall

theorem parses_climb (hn : 1 ≤ n) (hjk : j ≤ k) (h : Parses (climb operand n j) us v e)
    (hv : ∀ i, j ≤ i → i < k → quiet i v = true) : Parses (climb operand n k) us v e := by
  induction k, hjk using Nat.le_induction with
  | base => exact h
  | succ k hjk ih =>
    exact parses_leftAssoc hn (ih fun i hi hik => hv i hi (Nat.lt_succ_of_lt hik))
      (hv k hjk (Nat.lt_succ_self k))

/-- An operator between two operands. -/
theorem parses_binary (hn : 2 ≤ n) (hl : Parses operand us op.first l)
    (hr : Parses operand vs v r) (hv : ∀ i < 5, quiet i v = true) :
    Parses (climb operand n 5) (us ++ op.tokens ++ vs) v (.binary op l r) := by
  have hlevel : op.level < 5 := by cases op <;> decide
  have hl' : Parses (climb operand n op.level) us op.first l :=
    parses_climb (by omega) (Nat.zero_le _) hl fun i _ hi => quiet_first op i hi
  have hr' : Parses (climb operand n op.level) vs v r :=
    parses_climb (by omega) (Nat.zero_le _) hr fun i _ hi => hv i (hi.trans hlevel)
  refine parses_climb (by omega) (Nat.succ_le_of_lt hlevel) ?_ fun i _ hi => hv i hi
  obtain ⟨n, rfl⟩ := Nat.exists_eq_add_of_le' hn
  have hops : op.tokens ++ vs ≠ [] := by cases op <;> exact List.cons_ne_nil _ _
  have hround : Parses (assocRound (climb operand (n + 2) op.level) (operators op.level) l)
      (op.tokens ++ vs) v (.next (.binary op l r)) :=
    parses_assocRound_next (parses_operator op) hr'
  have hrest : Parses (loop (assocRound (climb operand (n + 2) op.level) (operators op.level))
      (n + 1) (.binary op l r)) [] v (.binary op l r) :=
    parses_loop_done (parses_assocRound_done (parses_quiet (hv _ hlevel)))
  have hloop := parses_loop_next hround hops hrest
  rw [List.append_nil] at hloop
  rw [List.append_assoc]
  refine parses_bind ?_ hloop
  rwa [BinOp.headD_tokens]

/-! ### Primaries -/

/-- Behind an expression no operator and no parenthesis follow. -/
def EndsExpr (v : Token) : Prop := (∀ i < 5, quiet i v = true) ∧ v.kind ≠ .lparen

def endToken : Token := { kind := .eof, pos := 0 }

theorem endsExpr_of (h₀ : quiet 0 v = true) (h₁ : quiet 1 v = true) (h₂ : quiet 2 v = true)
    (h₃ : quiet 3 v = true) (h₄ : quiet 4 v = true) (hkind : v.kind ≠ .lparen) : EndsExpr v := by
  refine ⟨fun i _ => ?_, hkind⟩
  obtain _ | _ | _ | _ | i := i
  · exact h₀
  · exact h₁
  · exact h₂
  · exact h₃
  · exact h₄

theorem endsExpr_rparen : EndsExpr (markToken .rparen 41) :=
  endsExpr_of rfl rfl rfl rfl rfl TokKind.noConfusion

theorem endsExpr_comma : EndsExpr (markToken .comma 44) :=
  endsExpr_of rfl rfl rfl rfl rfl TokKind.noConfusion

theorem endsExpr_as : EndsExpr (keyword "as") :=
  endsExpr_of rfl rfl rfl rfl rfl TokKind.noConfusion

theorem endsExpr_where : EndsExpr (keyword "where") :=
  endsExpr_of rfl rfl rfl rfl rfl TokKind.noConfusion

theorem endsExpr_endToken : EndsExpr endToken :=
  endsExpr_of rfl rfl rfl rfl rfl TokKind.noConfusion

theorem parses_parseExpr (hn : 1 ≤ n) (hv : EndsExpr v) (h : ∀ k, n = k + 1 →
    Parses (parseUnary lib (parseExpr lib k) n) us v e) : Parses (parseExpr lib n) us v e := by
  obtain ⟨k, rfl⟩ := Nat.exists_eq_add_of_le' hn
  exact parses_climb (j := 0) hn (Nat.zero_le 5) (h k rfl) fun i _ hi => hv.1 i hi

theorem parses_primary (hsign : signOp (us.headD v) = none)
    (hnot : (us.headD v).is "not" = false)
    (h : Parses (parsePrimary lib pe (m + 1)) us v e) :
    Parses (parseUnary lib pe (m + 1)) us v e := by
  refine parses_peek fun p => ?_
  have hnone : signOp { us.headD v with pos := p } = none := hsign
  simp only [hnone]
  exact parses_skip hnot h

theorem parses_sign {op : UnOp} (hsign : signOp u = some op)
    (h : Parses (parseUnary lib pe m) us v e) :
    Parses (parseUnary lib pe (m + 1)) (u :: us) v (.unary op e) := by
  refine parses_peek fun p => ?_
  have hsome : signOp { u with pos := p } = some op := hsign
  simp only [List.headD_cons, hsome]
  exact parses_advance fun _ => parses_map (g := Expr.unary op) h

theorem parses_unOp {op : UnOp} (h : Parses (parseUnary lib pe m) us v e) :
    Parses (parseUnary lib pe (m + 1)) (op.tokens ++ us) v (.unary op e) := by
  cases op with
  | neg => exact parses_sign rfl h
  | pos => exact parses_sign rfl h
  | not =>
    change Parses _ (keyword "NOT" :: us) v _
    refine parses_peek fun p => ?_
    have hnone : signOp { keyword "NOT" with pos := p } = none := rfl
    simp only [List.headD_cons, hnone]
    exact parses_accept rfl (parses_map (g := Expr.unary .not) h)

theorem parses_inParens (h : Parses pe us (markToken .rparen 41) e) :
    Parses (parseUnary lib pe (m + 1)) (inParens us) v e := by
  change Parses _ (markToken .lparen 40 :: (us ++ [markToken .rparen 41])) v e
  refine parses_primary rfl rfl (parses_peek fun p => parses_advance fun _ => ?_)
  exact parses_bind h (parses_expect rfl fun _ => parses_pure)

theorem parses_literalToken (s : Bytes) :
    Parses (parseUnary lib pe (m + 1)) [literalToken s] v (.literal (.string s)) :=
  parses_primary rfl rfl (parses_peek fun _ => parses_advance fun _ => parses_pure)

theorem parses_numberToken {t : Token} (ht : t.kind = .number) :
    Parses (parseUnary lib pe (m + 1)) [t.bare] v
      (.literal (if t.isFloat then .float t.fltVal else .int t.intVal)) := by
  have hkind : t.bare.kind = .number := ht
  have hsign : signOp t.bare = none := by
    unfold signOp
    rw [hkind]
    rfl
  have hnot : t.bare.is "not" = false := by
    unfold Token.is
    rw [hkind]
    rfl
  refine parses_primary hsign hnot (parses_peek fun p => ?_)
  simp only [List.headD_cons, hkind]
  exact parses_advance fun _ => parses_pure

/-- The words of a primary. -/
theorem parses_word {name : Bytes} (hnot : equalFold name "not" = false)
    (h : ∀ p, Parses (parseIdent lib pe (m + 1) { word name with pos := p }) (word name :: us)
      v e) : Parses (parseUnary lib pe (m + 1)) (word name :: us) v e := by
  have hword : (word name).is "not" = false := hnot
  exact parses_primary rfl hword (parses_peek fun p => h p)

theorem parses_null :
    Parses (parseUnary lib pe (m + 1)) [keyword "null"] v (.literal .null) := by
  refine parses_word rfl fun p => ?_
  change Parses (if true = true then _ else _) _ _ _
  rw [if_pos rfl]
  exact parses_advance fun _ => parses_pure

theorem parses_bool (b : Bool) : Parses (parseUnary lib pe (m + 1))
    [keyword (if b then "true" else "false")] v (.literal (.bool b)) := by
  cases b with
  | false =>
    refine parses_word rfl fun p => ?_
    change Parses (if false = true then _ else if true = true then _ else _) _ _ _
    rw [if_neg Bool.false_ne_true, if_pos rfl]
    exact parses_advance fun _ => parses_pure
  | true =>
    refine parses_word rfl fun p => ?_
    change Parses (if false = true then _ else if true = true then _ else _) _ _ _
    rw [if_neg Bool.false_ne_true, if_pos rfl]
    exact parses_advance fun _ => parses_pure

theorem fold_of_not_reserved {name : Bytes} (h : ¬ Reserved name) :
    equalFold name "null" = false ∧ equalFold name "true" = false ∧
      equalFold name "false" = false ∧ equalFold name "cast" = false ∧
      equalFold name "not" = false := by
  have hall : ∀ kw ∈ ["null", "true", "false", "cast", "not"], equalFold name kw = false :=
    fun kw hkw => Bool.eq_false_iff.mpr fun hfold => h ⟨kw, hkw, hfold⟩
  simpa using hall

theorem parses_name {name : Bytes} (hname : IsName lib name) (hfree : ¬ Reserved name)
    (hv : v.kind ≠ .lparen) :
    Parses (parseUnary lib pe (m + 1)) [word name] v (.ident name) := by
  obtain ⟨hnull, htrue, hfalse, hcast, hnot⟩ := fold_of_not_reserved hfree
  refine parses_word hnot fun p => ?_
  unfold parseIdent
  simp only [word, hnull, htrue, hfalse, hcast, Bool.or_self, Bool.false_eq_true, if_false]
  refine parses_peekAt fun p => ?_
  simp only [List.headD_nil, hv, if_false, hname.2]
  exact parses_advance fun _ => parses_pure

/-! ### Expressions -/

theorem typeFromKeyword_name (hlib : AsciiLibrary lib) (type : SqlType) :
    typeFromKeyword lib type.name = type.reread := by
  have hascii : ∀ c ∈ type.name, c < 128 := by
    have hall : type.name.all (· < 128) = true := by cases type <;> rfl
    exact fun c hc => of_decide_eq_true (List.all_eq_true.mp hall c hc)
  unfold typeFromKeyword
  rw [hlib.lower _ hascii]
  cases type <;> rfl

theorem parses_cast (hlib : AsciiLibrary lib) {type : SqlType}
    (h : Parses pe us (keyword "as") e) : Parses (parseUnary lib pe (m + 1))
      ([keyword "cast"] ++ inParens (us ++ [keyword "as", word type.name])) v
      (.cast e type.reread) := by
  have htokens : [keyword "cast"] ++ inParens (us ++ [keyword "as", word type.name]) =
      keyword "cast" :: markToken .lparen 40 ::
        (us ++ [keyword "as", word type.name, markToken .rparen 41]) := by
    simp [inParens]
  rw [htokens]
  refine parses_word rfl fun p => ?_
  change Parses (if false = true then _ else if false = true then _ else
    if true = true then _ else _) _ _ _
  rw [if_neg Bool.false_ne_true, if_neg Bool.false_ne_true, if_pos rfl]
  refine parses_advance fun _ => parses_expect rfl fun _ => parses_bind h ?_
  refine parses_accept rfl (parses_peek fun p => ?_)
  change Parses (if TokKind.ident = .ident then _ else _) _ _ _
  rw [if_pos rfl, ← typeFromKeyword_name hlib type]
  exact parses_advance fun _ => parses_expect rfl fun _ => parses_pure

theorem parses_call {name : Bytes} {args : List Expr} (hname : IsName lib name)
    (hfree : ¬ Reserved name)
    (h : Parses (parseArgs pe (m + 1)) us (markToken .rparen 41) args) :
    Parses (parseUnary lib pe (m + 1)) ([word name] ++ inParens us) v (.call name args) := by
  obtain ⟨hnull, htrue, hfalse, hcast, hnot⟩ := fold_of_not_reserved hfree
  change Parses _ (word name :: markToken .lparen 40 :: (us ++ [markToken .rparen 41])) v _
  refine parses_word hnot fun p => ?_
  unfold parseIdent
  simp only [word, hnull, htrue, hfalse, hcast, Bool.or_self, Bool.false_eq_true, if_false]
  refine parses_peekAt fun p => ?_
  change Parses (if TokKind.lparen = .lparen then _ else _) _ _ _
  rw [if_pos rfl]
  refine parses_advance fun _ => parses_advance fun _ => parses_bind h ?_
  refine parses_expect rfl fun _ => ?_
  rw [hname.2]
  exact parses_pure

/-- The tokens of an expression do not begin with a closing parenthesis. -/
theorem tokens_eq_cons (h : e.Printable lib) :
    ∃ u us, e.tokens lib = u :: us ∧ u.kind ≠ .rparen := by
  have hparens (us : List Token) : ∃ u us', inParens us = u :: us' ∧ u.kind ≠ .rparen :=
    ⟨markToken .lparen 40, us ++ [markToken .rparen 41], rfl, TokKind.noConfusion⟩
  have hnumber {text : Bytes} (h : SignedNumber lib text) :
      ∃ u us, numberTokens lib text = u :: us ∧ u.kind ≠ .rparen := by
    obtain ⟨t, ht⟩ := h
    have hkind : t.bare.kind ≠ .rparen := by
      intro hk
      exact absurd (ht.kind.symm.trans hk) TokKind.noConfusion
    rw [numberTokens, ht.1]
    unfold signTokens
    split
    · exact ⟨opMark (ascii "-"), [t.bare], rfl, TokKind.noConfusion⟩
    · exact ⟨t.bare, [], rfl, hkind⟩
  unfold Expr.Printable at h
  cases e with
  | nil => exact absurd h id
  | ident name =>
    refine ⟨nameToken name, [], rfl, ?_⟩
    unfold nameToken
    split <;> exact TokKind.noConfusion
  | literal l =>
    cases l with
    | int n => exact hnumber h
    | float x => exact hnumber h
    | other k => exact absurd h id
    | null => exact ⟨_, [], rfl, TokKind.noConfusion⟩
    | string s => exact ⟨_, [], rfl, TokKind.noConfusion⟩
    | bool b => exact ⟨_, [], rfl, TokKind.noConfusion⟩
    | timestamp n => exact ⟨_, [], rfl, TokKind.noConfusion⟩
  | binary op l r => exact hparens _
  | unary op e => exact hparens _
  | call name args => exact ⟨word name, _, rfl, TokKind.noConfusion⟩
  | cast e type => exact ⟨keyword "cast", _, rfl, TokKind.noConfusion⟩

/-- A number has a minus, or it is its digits. -/
theorem number_cases (text : Bytes) : (∃ digits, text = 45 :: digits) ∨
    unsigned text = text ∧ signTokens text = [] ∧
      numberReread lib text = .literal (numberLiteral lib text) := by
  cases text with
  | nil => exact .inr ⟨rfl, rfl, rfl⟩
  | cons c digits =>
    by_cases hc : c = 45
    · subst hc
      exact .inl ⟨digits, rfl⟩
    · have hne : ∀ l, c :: digits ≠ 45 :: l := by
        rintro l ⟨⟩
        exact hc rfl
      unfold unsigned signTokens numberReread
      refine .inr ⟨?_, ?_, ?_⟩ <;> split
      all_goals first | exact absurd ‹_› (hne _) | rfl

theorem parses_number {text : Bytes} (h : SignedNumber lib text)
    (hm : (numberTokens lib text).length ≤ m) :
    Parses (parseUnary lib pe m) (numberTokens lib text) v (numberReread lib text) := by
  obtain ⟨t, ht⟩ := h
  have hliteral : numberLiteral lib (unsigned text) =
      if t.isFloat then .float t.fltVal else .int t.intVal := by
    rw [numberLiteral, ht.1]
  have htokens : numberTokens lib text = signTokens text ++ [t.bare] := by
    rw [numberTokens, ht.1]
    rfl
  rw [htokens] at hm ⊢
  rcases @number_cases lib text with ⟨digits, rfl⟩ | ⟨hunsigned, hsign, hreread⟩
  · have hreread : numberReread lib (45 :: digits) =
        .unary .neg (.literal (numberLiteral lib (unsigned (45 :: digits)))) := rfl
    obtain ⟨m, rfl⟩ : ∃ m', m = m' + 2 := Nat.exists_eq_add_of_le' hm
    rw [hreread, hliteral]
    exact parses_sign rfl (parses_numberToken ht.kind)
  · rw [hsign] at hm ⊢
    obtain ⟨m, rfl⟩ : ∃ m', m = m' + 1 := Nat.exists_eq_add_of_le' hm
    rw [hreread, ← hunsigned, hliteral]
    exact parses_numberToken ht.kind

/-! ### How many tokens there are -/

theorem length_inParens (us : List Token) : (inParens us).length = us.length + 2 := by
  simp only [inParens, List.length_append, List.length_singleton]
  omega

theorem length_commaTokens {parts : List (List Token)} :
    ∀ us ∈ parts, us.length ≤ (commaTokens parts).length := by
  induction parts with
  | nil => exact fun us h => absurd h List.not_mem_nil
  | cons vs parts ih =>
    cases parts with
    | nil =>
      rintro us hus
      rw [List.mem_singleton.mp hus, commaTokens, List.intercalate_singleton]
    | cons ws parts =>
      have hlen : (commaTokens (vs :: ws :: parts)).length =
          vs.length + 1 + (commaTokens (ws :: parts)).length := by
        simp only [commaTokens, List.intercalate_cons_cons, List.length_append,
          List.length_singleton]
      intro us hus
      rcases List.mem_cons.mp hus with rfl | hus
      · omega
      · have := ih us hus
        omega

theorem length_le_commaTokens {α : Type} {f : α → List Token} {as : List α}
    (h : ∀ a ∈ as, f a ≠ []) : as.length ≤ (commaTokens (as.map f)).length := by
  induction as with
  | nil => exact Nat.zero_le _
  | cons a as ih =>
    obtain ⟨ha, has⟩ := List.forall_mem_cons.mp h
    have hpos := List.length_pos_iff.mpr ha
    cases as with
    | nil =>
      rw [List.map_singleton, commaTokens, List.intercalate_singleton, List.length_singleton]
      exact hpos
    | cons b as =>
      have hlen : (commaTokens ((a :: b :: as).map f)).length =
          (f a).length + 1 + (commaTokens ((b :: as).map f)).length := by
        simp only [List.map_cons, commaTokens, List.intercalate_cons_cons, List.length_append,
          List.length_singleton]
      have := ih has
      rw [List.length_cons]
      omega

theorem tokens_ne_nil (h : e.Printable lib) : e.tokens lib ≠ [] := by
  obtain ⟨u, us, htokens, -⟩ := tokens_eq_cons h
  rw [htokens]
  exact List.cons_ne_nil _ _

/-! ### All of an expression -/

theorem parses_args {args : List Expr}
    (hm : (commaTokens (args.map (Expr.tokens lib))).length ≤ m)
    (hargs : ∀ a ∈ args, a.Printable lib)
    (h : ∀ a ∈ args, ∀ v, EndsExpr v → Parses pe (a.tokens lib) v (a.reread lib)) :
    Parses (parseArgs pe m) (commaTokens (args.map (Expr.tokens lib))) (markToken .rparen 41)
      (args.map (Expr.reread lib)) := by
  have hnil : ∀ a ∈ args, a.tokens lib ≠ [] := fun a ha => tokens_ne_nil (hargs a ha)
  have hlen := @length_le_commaTokens _ (Expr.tokens lib) _ hnil
  refine parses_peek fun p => ?_
  cases args with
  | nil =>
    change Parses (if TokKind.rparen = .rparen then _ else _) _ _ _
    rw [if_pos rfl]
    exact parses_pure
  | cons a args =>
    obtain ⟨u, us, htokens, hkind⟩ := tokens_eq_cons (hargs a List.mem_cons_self)
    have hhead : ∃ rest, commaTokens ((a :: args).map (Expr.tokens lib)) = u :: rest := by
      cases args with
      | nil =>
        rw [List.map_singleton, commaTokens, List.intercalate_singleton]
        exact ⟨us, htokens⟩
      | cons b args =>
        rw [List.map_cons, List.map_cons, commaTokens, List.intercalate_cons_cons, htokens]
        exact ⟨_, rfl⟩
    obtain ⟨rest, hrest⟩ := hhead
    have hfirst : ((commaTokens ((a :: args).map (Expr.tokens lib))).headD
        (markToken .rparen 41)).kind ≠ .rparen := by
      rw [hrest]
      exact hkind
    rw [if_neg hfirst]
    refine parses_commaList (List.cons_ne_nil _ _) (hlen.trans hm) TokKind.noConfusion ?_
    rintro c hc w (rfl | rfl)
    · exact h c hc _ endsExpr_comma
    · exact h c hc _ endsExpr_rparen

theorem exists_succ (h : e.Printable lib) (hm : (e.tokens lib).length ≤ m) :
    ∃ k, m = k + 1 := by
  obtain ⟨u, us, htokens, -⟩ := tokens_eq_cons h
  rw [htokens] at hm
  exact Nat.exists_eq_add_of_le' (Nat.one_le_of_lt hm)

/-- An expression is read from its tokens. -/
theorem parses_unary (hlib : AsciiLibrary lib) (h : e.Printable lib)
    (hn : (e.tokens lib).length ≤ n) (hm : (e.tokens lib).length ≤ m) (hv : v.kind ≠ .lparen) :
    Parses (parseUnary lib (parseExpr lib n) m) (e.tokens lib) v (e.reread lib) := by
  induction e generalizing n m v with
  | nil => exact absurd h id
  | ident name =>
    obtain ⟨m, rfl⟩ := exists_succ h hm
    unfold Expr.tokens nameToken Expr.reread
    rcases h with rfl | ⟨hname, hfree⟩
    · exact parses_primary rfl rfl
        (parses_peek fun _ => parses_advance fun _ => parses_pure)
    · split
      · subst name
        exact parses_primary rfl rfl
          (parses_peek fun _ => parses_advance fun _ => parses_pure)
      · exact parses_name hname hfree hv
  | literal l =>
    obtain ⟨k, rfl⟩ := exists_succ h hm
    unfold Expr.tokens Expr.reread
    cases l with
    | null => exact parses_null
    | int n => exact parses_number h hm
    | float x => exact parses_number h hm
    | string s => exact parses_literalToken s
    | bool b => exact parses_bool b
    | timestamp n => exact parses_literalToken []
    | other k => exact absurd h id
  | binary op left right hl hr =>
    obtain ⟨m, rfl⟩ := exists_succ h hm
    obtain ⟨n, rfl⟩ := exists_succ h hn
    obtain ⟨-, hleft, hright⟩ := h
    unfold Expr.tokens at hn
    simp only [length_inParens, List.length_append] at hn
    have hfirst : op.first.kind ≠ .lparen := by cases op <;> exact TokKind.noConfusion
    have hleft' : Parses (parseUnary lib (parseExpr lib n) (n + 1)) (left.tokens lib) op.first
        (left.reread lib) := hl hleft (by omega) (by omega) hfirst
    have hright' : Parses (parseUnary lib (parseExpr lib n) (n + 1)) (right.tokens lib)
        (markToken .rparen 41) (right.reread lib) :=
      hr hright (by omega) (by omega) endsExpr_rparen.2
    have hinner : Parses (parseExpr lib (n + 1)) _ (markToken .rparen 41) _ :=
      parses_binary (by omega) hleft' hright' endsExpr_rparen.1
    exact parses_inParens hinner
  | unary op e he =>
    obtain ⟨m, rfl⟩ := exists_succ h hm
    obtain ⟨-, hsub⟩ := h
    unfold Expr.tokens at hn
    simp only [length_inParens, List.length_append] at hn
    refine parses_inParens (parses_parseExpr (by omega) endsExpr_rparen ?_)
    rintro k rfl
    exact parses_unOp (he hsub (by omega) (by omega) endsExpr_rparen.2)
  | call name args ih =>
    obtain ⟨m, rfl⟩ := exists_succ h hm
    obtain ⟨⟨hname, hfree⟩, hargs⟩ := h
    have hall := Expr.allOf_iff.mp hargs
    unfold Expr.tokens Expr.reread
    unfold Expr.tokens at hn hm
    rw [tokensOf_eq] at hn hm ⊢
    rw [rereads_eq]
    simp only [length_inParens, List.length_append, List.length_singleton] at hn hm
    refine parses_call hname hfree (parses_args (by omega) hall fun a ha v hv => ?_)
    have hmem : a.tokens lib ∈ args.map (Expr.tokens lib) := List.mem_map_of_mem ha
    have hlen := length_commaTokens _ hmem
    refine parses_parseExpr (by omega) hv ?_
    rintro k rfl
    exact ih a ha (hall a ha) (by omega) (by omega) hv.2
  | cast e type he =>
    obtain ⟨m, rfl⟩ := exists_succ h hm
    obtain ⟨-, hsub⟩ := h
    unfold Expr.tokens at hn
    simp only [length_inParens, List.length_append, List.length_singleton] at hn
    refine parses_cast hlib (parses_parseExpr (by omega) endsExpr_as ?_)
    rintro k rfl
    exact he hsub (by omega) (by omega) endsExpr_as.2

theorem parses_expr (hlib : AsciiLibrary lib) (h : e.Printable lib)
    (hn : (e.tokens lib).length < n) (hv : EndsExpr v) :
    Parses (parseExpr lib n) (e.tokens lib) v (e.reread lib) := by
  refine parses_parseExpr (Nat.one_le_of_lt hn) hv ?_
  rintro k rfl
  exact parses_unary hlib h (Nat.le_of_lt_succ hn) hn.le hv.2

end Ydbgo.Sql
