import Ydbgo.Sql.Lexed

/-! # Splitting a script

`SplitStatements` looks at single bytes. On a text that the lexer takes it is in no
literal between two tokens, and it ends a piece at every semicolon token outside
all parentheses.
-/

namespace Ydbgo.Sql

open Tokens

/-! ### `SplitStatements` -/

/-- The variables of `SplitStatements`. -/
structure Splitter where
  stmts : List Bytes := []
  cur : Bytes := []
  quote : Option UInt8 := none
  depth : ℕ := 0
  /-- The byte is the second of a doubled quote, which is taken already. -/
  taken : Bool := false

namespace Splitter

def add (s : Splitter) (c : UInt8) : Splitter := { s with cur := s.cur ++ [c] }

/-- A round of the loop, with the byte behind the one it looks at. -/
def step (s : Splitter) (c : UInt8) (next : Option UInt8) : Splitter :=
  if s.taken then { s with taken := false }
  else
    match s.quote with
    | some q =>
      if c = q then
        if next = some q then { s with cur := s.cur ++ [c, q], taken := true }
        else { s.add c with quote := none }
      else s.add c
    | none =>
      if c = 39 ∨ c = 34 then { s.add c with quote := some c }
      else if c = 40 then { s.add c with depth := s.depth + 1 }
      else if c = 41 then { s.add c with depth := s.depth - 1 }
      else if c = 59 then
        if s.depth = 0 then { s with stmts := s.stmts ++ [s.cur], cur := [] } else s.add c
      else s.add c

def run : Splitter → Bytes → Splitter
  | s, [] => s
  | s, c :: rest => (s.step c rest.head?).run rest

/-- What is returned behind the loop. -/
def result (s : Splitter) : Except Bytes (List Bytes) :=
  if s.quote.isSome then .error (ascii "unterminated string literal")
  else if s.depth ≠ 0 then .error (ascii "unbalanced parentheses")
  else if s.cur.length > 0 then .ok (s.stmts ++ [s.cur])
  else .ok s.stmts

end Splitter

def splitStatements (src : Bytes) : Except Bytes (List Bytes) := (Splitter.run {} src).result

/-! ### Over the tokens of a text -/

/-- How many parentheses are open behind a token. -/
def depthBehind (depth : ℕ) (t : Token) : ℕ :=
  match t.kind with
  | .lparen => depth + 1
  | .rparen => depth - 1
  | _ => depth

/-- A semicolon outside all parentheses. -/
def EndsPiece (depth : ℕ) (t : Token) : Prop := t.kind = .semicolon ∧ depth = 0

instance instDecidableEndsPiece (depth : ℕ) (t : Token) : Decidable (EndsPiece depth t) :=
  inferInstanceAs (Decidable (_ ∧ _))

section Run

variable {stmts : List Bytes} {cur text rest l : Bytes} {depth : ℕ} {q c : UInt8} {t : Token}

/-- A splitter between two tokens. -/
def between (stmts : List Bytes) (cur : Bytes) (depth : ℕ) : Splitter :=
  { stmts := stmts, cur := cur, depth := depth }

theorem run_plain (h : ∀ c ∈ text, Plain c) : (between stmts cur depth).run (text ++ rest) =
    (between stmts (cur ++ text) depth).run rest := by
  induction text generalizing cur with
  | nil => rw [List.nil_append, List.append_nil]
  | cons c text ih =>
    obtain ⟨hc, htext⟩ := List.forall_mem_cons.mp h
    have hstep (next : Option UInt8) : (between stmts cur depth).step c next =
        between stmts (cur ++ [c]) depth := by
      simp only [Plain, List.mem_cons, List.not_mem_nil, or_false, not_or] at hc
      simp [Splitter.step, between, Splitter.add, hc]
    rw [List.cons_append, Splitter.run, hstep, ih htext, List.append_assoc]
    rfl

/-- A splitter in a literal. -/
def inLiteral (q : UInt8) (stmts : List Bytes) (cur : Bytes) (depth : ℕ) : Splitter :=
  { between stmts cur depth with quote := some q }

theorem run_other (h : c ≠ q) : (inLiteral q stmts cur depth).run (c :: l) =
    (inLiteral q stmts (cur ++ [c]) depth).run l := by
  have hstep (next : Option UInt8) : (inLiteral q stmts cur depth).step c next =
      inLiteral q stmts (cur ++ [c]) depth := by
    simp [Splitter.step, inLiteral, between, Splitter.add, h]
  rw [Splitter.run, hstep]

theorem run_close (h : l.head? ≠ some q) : (inLiteral q stmts cur depth).run (q :: l) =
    (between stmts (cur ++ [q]) depth).run l := by
  have hstep : (inLiteral q stmts cur depth).step q l.head? =
      between stmts (cur ++ [q]) depth := by
    simp [Splitter.step, inLiteral, between, Splitter.add, h]
  rw [Splitter.run, hstep]

theorem run_doubled : (inLiteral q stmts cur depth).run (q :: q :: l) =
    (inLiteral q stmts (cur ++ [q, q]) depth).run l := by
  rw [Splitter.run, Splitter.run]
  simp [Splitter.step, inLiteral, between]

/-- Over a literal, behind its opening quote. -/
theorem run_quoted {r : Bytes × ℕ} (h : quoted q l = some r) :
    (inLiteral q stmts cur depth).run l =
      (between stmts (cur ++ l.take r.2) depth).run (l.drop r.2) := by
  fun_induction quoted q l generalizing r cur with
  | case1 => cases h
  | case2 =>
    obtain rfl := Option.some.inj h
    exact run_close (by rintro ⟨⟩)
  | case3 l ih =>
    obtain ⟨r', hr, rfl⟩ := Option.map_eq_some_iff.mp h
    rw [run_doubled, ih hr, List.append_assoc]
    rfl
  | case4 d l hd =>
    obtain rfl := Option.some.inj h
    apply run_close
    rintro ⟨⟩
    exact hd rfl
  | case5 c l hc ih =>
    obtain ⟨r', hr, rfl⟩ := Option.map_eq_some_iff.mp h
    rw [run_other hc, ih hr, List.append_assoc]
    rfl

/-- Over a token: a semicolon outside all parentheses ends a piece. -/
theorem run_spelled (h : Spelled t text rest) : (between stmts cur depth).run (text ++ rest) =
    if EndsPiece depth t then (between (stmts ++ [cur]) [] 0).run rest
    else (between stmts (cur ++ text) (depthBehind depth t)).run rest := by
  cases h with
  | lparen ht =>
    rw [if_neg (by simp [EndsPiece, ht]), depthBehind, ht]
    rfl
  | rparen ht =>
    rw [if_neg (by simp [EndsPiece, ht]), depthBehind, ht]
    rfl
  | semicolon ht htext =>
    rw [depthBehind, ht]
    by_cases hdepth : depth = 0
    · rw [if_pos ⟨ht, hdepth⟩, hdepth]
      rfl
    · rw [if_neg fun h => hdepth h.2]
      simp [Splitter.run, Splitter.step, between, Splitter.add, hdepth]
  | @string q l r ht hq hr =>
    rw [if_neg (by simp [EndsPiece, ht]), depthBehind, ht, List.cons_append, List.take_append_drop]
    have hopen (next : Option UInt8) : (between stmts cur depth).step q next =
        inLiteral q stmts (cur ++ [q]) depth := by
      simp [Splitter.step, between, Splitter.add, inLiteral, hq]
    rw [Splitter.run, hopen, run_quoted hr, List.append_assoc]
    rfl
  | plain hne h =>
    have hends : ¬ EndsPiece depth t := fun hends => h.1 (by simp [hends.1])
    have hdepth : depthBehind depth t = depth := by
      unfold depthBehind
      split
      · exact absurd (by simp [*]) h.1
      · exact absurd (by simp [*]) h.1
      · rfl
    rw [if_neg hends, hdepth, run_plain h.2]

/-- Over the spaces before a token and the token. -/
theorem run_headToken {lib : Stdlib} {k : ℕ} (h : headToken lib l = some (t, k))
    (ht : t.kind ≠ .eof) : (between stmts cur depth).run l =
      if EndsPiece depth t then (between (stmts ++ [cur ++ l.takeWhile isSpace]) [] 0).run (l.drop k)
      else (between stmts (cur ++ l.take k) (depthBehind depth t)).run (l.drop k) := by
  rcases headToken_cases h with ⟨heof, -⟩ | ⟨text, hspelled, -, htake⟩
  · exact absurd heof ht
  have hspaces : ∀ c ∈ l.takeWhile isSpace, Plain c := fun c hc =>
    plain_of (p := isSpace) (by decide) (List.all_eq_true.mp List.all_takeWhile c hc)
  conv_lhs => rw [← List.take_append_drop k l, htake, List.append_assoc, run_plain hspaces]
  rw [run_spelled hspelled, htake, List.append_assoc]

/-- Over the spaces at the end of a text. -/
theorem run_end {lib : Stdlib} {k : ℕ} (h : headToken lib l = some (t, k)) (ht : t.kind = .eof) :
    (between stmts cur depth).run l = between stmts (cur ++ l) depth := by
  rcases headToken_cases h with ⟨-, -, -, hall⟩ | ⟨text, hspelled, -⟩
  · have hspaces : ∀ c ∈ l, Plain c := by
      rw [← hall]
      exact fun c hc =>
        plain_of (p := isSpace) (by decide) (List.all_eq_true.mp List.all_takeWhile c hc)
    have hrun := @run_plain stmts cur l [] depth hspaces
    rwa [List.append_nil] at hrun
  · exact absurd ht hspelled.ne_eof

end Run

/-! ### Over a whole text -/

/-- How many parentheses are open behind some tokens. -/
def depthAfter (depth : ℕ) (ts : List Token) : ℕ := ts.foldl depthBehind depth

/-- No token ends a piece. -/
def Unended : ℕ → List Token → Prop
  | _, [] => True
  | depth, t :: ts => ¬ EndsPiece depth t ∧ Unended (depthBehind depth t) ts

/-- The pieces of a text with these tokens, and the last one behind them. -/
inductive Divided (lib : Stdlib) : List Token → List Bytes → Bytes → Prop
  | last {p l ts} : Lexed lib p l ts → Unended 0 ts → Divided lib ts [] l
  | piece {p u a t₀ t b pieces last} : Lexed lib p u (a ++ [t₀]) → t₀.kind = .eof →
    Unended 0 a → EndsPiece (depthAfter 0 a) t → Divided lib b pieces last →
    Divided lib (a ++ t :: b) (u :: pieces) last

section Whole

variable {lib : Stdlib} {stmts : List Bytes} {cur l : Bytes} {depth p : ℕ} {t : Token}
  {ts ts' : List Token}

theorem depthAfter_append : depthAfter depth (ts ++ ts') = depthAfter (depthAfter depth ts) ts' :=
  List.foldl_append

theorem depthBehind_semicolon (ht : t.kind = .semicolon) : depthBehind depth t = depth := by
  rw [depthBehind, ht]

theorem Unended.not_ends (h : Unended depth ts) {j : ℕ} (ht : ts[j]? = some t) :
    ¬ EndsPiece (depthAfter depth (ts.take j)) t := by
  induction ts generalizing depth j with
  | nil => simp at ht
  | cons t' ts ih =>
    cases j with
    | zero =>
      obtain rfl : t' = t := by simpa using ht
      exact h.1
    | succ j => exact ih h.2 (by simpa using ht)

/-- Some token is the first to end a piece, or none does. -/
theorem unended_or (depth : ℕ) (ts : List Token) : Unended depth ts ∨
    ∃ a t b, ts = a ++ t :: b ∧ Unended depth a ∧ EndsPiece (depthAfter depth a) t := by
  induction ts generalizing depth with
  | nil => exact .inl trivial
  | cons t ts ih =>
    by_cases ht : EndsPiece depth t
    · exact .inr ⟨[], t, ts, rfl, trivial, ht⟩
    rcases ih (depthBehind depth t) with h | ⟨a, t', b, rfl, ha, ht'⟩
    · exact .inl ⟨ht, h⟩
    · exact .inr ⟨t :: a, t', b, rfl, ⟨ht, ha⟩, ht'⟩

/-- A text in which no token ends a piece. -/
theorem run_unended (h : Lexed lib p l ts) (hend : Unended depth ts) :
    (between stmts cur depth).run l = between stmts (cur ++ l) (depthAfter depth ts) := by
  induction h generalizing cur depth with
  | @eof p l t k hhead ht =>
    rw [run_end hhead ht]
    change _ = between stmts (cur ++ l) (depthBehind depth t)
    rw [depthBehind, ht]
  | @cons p l t k ts hhead ht _ ih =>
    have hfirst : ¬ EndsPiece depth t := hend.1
    have hrest := @ih (cur ++ l.take k) _ hend.2
    rw [List.append_assoc, List.take_append_drop] at hrest
    rw [run_headToken hhead ht, if_neg hfirst]
    exact hrest

/-- At the first semicolon that ends a piece: the text before it and the text behind it. -/
theorem Lexed.cut (h : Lexed lib p l (ts ++ t :: ts')) (hend : Unended depth ts)
    (ht : EndsPiece (depthAfter depth ts) t) : ∃ u v last, l = u ++ 59 :: v ∧ last.kind = .eof ∧
      Lexed lib p u (ts ++ [last]) ∧ Lexed lib (p + u.length + 1) v ts' ∧
        ∀ stmts cur, (between stmts cur depth).run l =
          (between (stmts ++ [cur ++ u]) [] 0).run v := by
  induction ts generalizing p l depth with
  | nil =>
    rcases h.cases_cons with ⟨heof, -⟩ | ⟨t', k, hhead, hne, rfl, hrest⟩
    · simp [ht.1] at heof
    rcases headToken_cases hhead with ⟨heof, -⟩ | ⟨text, hspelled, hk, htake⟩
    · exact absurd heof hne
    obtain ⟨rfl, -⟩ := spelled_semicolon hspelled ht.1
    have hlen := congrArg List.length htake
    rw [List.length_take, Nat.min_eq_left hk, List.length_append, List.length_singleton] at hlen
    have hspaces : Lexed lib p (l.takeWhile isSpace) _ :=
      .eof (headToken_spaces List.takeWhile_idem) rfl
    refine ⟨_, l.drop k, _, ?_, ?_, hspaces, ?_, fun stmts cur => ?_⟩
    · rw [List.append_cons, ← htake, List.take_append_drop]
    · rfl
    · rwa [Nat.add_assoc, ← hlen]
    · have hends : EndsPiece depth t' := ht
      rw [run_headToken hhead hne, if_pos hends]
  | cons t' ts ih =>
    rcases h.cases_cons with ⟨-, hnil⟩ | ⟨t', k, hhead, hne, rfl, hrest⟩
    · simp at hnil
    have hfirst : ¬ EndsPiece depth t' := hend.1
    obtain ⟨u, v, last, hl, hlast, hu, hv, hrun⟩ := ih hrest hend.2 ht
    have hk := headToken_le hhead
    have hsplit : l = (l.take k ++ u) ++ 59 :: v := by
      rw [List.append_assoc, ← hl, List.take_append_drop]
    have hlen : (l.take k).length = k := by
      rw [List.length_take, Nat.min_eq_left hk]
    have hcut := hhead
    rw [hsplit] at hcut
    refine ⟨l.take k ++ u, v, last, hsplit, hlast, .cons (k := k) ?_ hne ?_, ?_,
      fun stmts cur => ?_⟩
    · refine headToken_cut hcut ?_
      rw [List.length_append, hlen]
      exact Nat.le_add_right _ _
    · rwa [List.drop_left' hlen]
    · rwa [List.length_append, hlen, ← Nat.add_assoc]
    · rw [run_headToken hhead hne, if_neg hfirst, ← List.append_assoc]
      exact hrun _ _

theorem depthAfter_ends {a b : List Token} (ht : EndsPiece (depthAfter 0 a) t) :
    depthAfter 0 (a ++ t :: b) = depthAfter 0 b := by
  rw [depthAfter_append, ht.2]
  change depthAfter (depthBehind 0 t) b = _
  rw [depthBehind_semicolon ht.1]

theorem Lexed.divided (h : Lexed lib p l ts) : ∃ pieces last, Divided lib ts pieces last ∧
    ∀ stmts, (between stmts [] 0).run l = between (stmts ++ pieces) last (depthAfter 0 ts) := by
  induction hlen : ts.length using Nat.strong_induction_on generalizing p l ts with
  | _ m ih =>
  rcases unended_or 0 ts with hend | ⟨a, t, b, rfl, ha, ht⟩
  · refine ⟨[], l, .last h hend, fun stmts => ?_⟩
    rw [run_unended h hend, List.append_nil]
    rfl
  · obtain ⟨u, v, t₀, -, heof, hu, hv, hrun⟩ := h.cut ha ht
    obtain ⟨pieces, last, hdivided, hrest⟩ := ih b.length
      (by rw [← hlen, List.length_append, List.length_cons]; omega) hv rfl
    refine ⟨u :: pieces, last, .piece hu heof ha ht hdivided, fun stmts => ?_⟩
    rw [hrun, hrest, depthAfter_ends ht, List.append_assoc]
    rfl

/-- What `SplitStatements` returns. An empty last piece is left out. -/
theorem Lexed.splitStatements (h : Lexed lib p l ts) : ∃ pieces last, Divided lib ts pieces last ∧
    splitStatements l = if depthAfter 0 ts ≠ 0 then .error (ascii "unbalanced parentheses")
      else .ok (if last = [] then pieces else pieces ++ [last]) := by
  obtain ⟨pieces, last, hdivided, hrun⟩ := h.divided
  refine ⟨pieces, last, hdivided, ?_⟩
  change ((between [] [] 0).run l).result = _
  rw [hrun]
  change (if depthAfter 0 ts ≠ 0 then _ else if last.length > 0 then _ else _) = _
  split
  · rfl
  · cases last <;> rfl

end Whole

end Ydbgo.Sql
