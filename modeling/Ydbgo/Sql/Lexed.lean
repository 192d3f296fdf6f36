import Mathlib.Data.List.TakeWhile
import Ydbgo.Sql.LexerRight

/-! # The tokens of a text

Every token but the last is spelled by some bytes of the text, and the tokens are
those that the texts begin with which are left behind one another. A text that is
cut before a semicolon has the tokens before it.
-/

namespace Ydbgo.Sql

open Tokens

variable {lib : Stdlib} {c : UInt8} {l : Bytes} {n k : ℕ} {isFloat : Bool}

/-! ### What the tokens are made of -/

/-- A byte that neither opens a literal nor is a parenthesis or a semicolon. -/
def Plain (c : UInt8) : Prop := c ∉ [34, 39, 40, 41, 59]

theorem plain_of {p : UInt8 → Bool} (h : [34, 39, 40, 41, 59].all fun c => !p c) {c : UInt8}
    (hc : p c = true) : Plain c := by
  intro hmem
  have := List.all_eq_true.mp h c hmem
  rw [hc] at this
  cases this

/-- What a token other than a literal, a parenthesis or a semicolon is made of. -/
def IsPlain (t : Token) (text : Bytes) : Prop :=
  t.kind ∉ [TokKind.eof, .lparen, .rparen, .semicolon] ∧ ∀ c ∈ text, Plain c

/-- The bytes of a token, before those behind it. -/
inductive Spelled : Token → Bytes → Bytes → Prop
  | lparen {t rest} : t.kind = .lparen → Spelled t [40] rest
  | rparen {t rest} : t.kind = .rparen → Spelled t [41] rest
  | semicolon {t rest} : t.kind = .semicolon → t.text = [59] → Spelled t [59] rest
  | string {t q l r} : t.kind = .string → q = 39 ∨ q = 34 → quoted q l = some r →
    Spelled t (q :: l.take r.2) (l.drop r.2)
  | plain {t text rest} : text ≠ [] → IsPlain t text → Spelled t text rest

section

variable {t : Token} {text rest : Bytes}

theorem Spelled.ne_nil (h : Spelled t text rest) : text ≠ [] := by
  cases h with
  | plain hne => exact hne
  | _ => exact List.cons_ne_nil _ _

theorem Spelled.ne_eof (h : Spelled t text rest) : t.kind ≠ .eof := by
  cases h with
  | plain _ h => exact fun ht => h.1 (by simp [ht])
  | _ => simp_all

theorem Spelled.moved (h : Spelled t text rest) (p : ℕ) :
    Spelled { t with pos := p } text rest := by
  cases h with
  | lparen ht => exact .lparen ht
  | rparen ht => exact .rparen ht
  | semicolon ht htext => exact .semicolon ht htext
  | string ht hq hr => exact .string ht hq hr
  | plain hne h => exact .plain hne h

theorem spelled_semicolon (h : Spelled t text rest) (ht : t.kind = .semicolon) :
    text = [59] ∧ t.text = [59] := by
  cases h with
  | semicolon _ htext => exact ⟨rfl, htext⟩
  | plain _ h => exact absurd (by simp [ht]) h.1
  | _ => simp_all

end

theorem plain_numberPart {sign : Bool} (l : Bytes) :
    ∀ c ∈ l.take (numberPart isFloat sign l).2, Plain c := by
  induction l generalizing isFloat sign with
  | nil => exact fun c hc => absurd hc List.not_mem_nil
  | cons c l ih =>
    rw [numberPart]
    split
    · rename_i hc
      exact List.forall_mem_cons.mpr
        ⟨plain_of (p := isSign) (by decide) (Bool.and_eq_true_iff.mp hc).2, ih⟩
    split
    · exact List.forall_mem_cons.mpr ⟨plain_of (p := isDigit) (by decide) ‹_›, ih⟩
    split
    · rename_i hc
      refine List.forall_mem_cons.mpr ⟨?_, ih⟩
      rw [hc, Plain]
      decide
    split
    · rename_i hc
      refine List.forall_mem_cons.mpr ⟨?_, ih⟩
      rcases hc with rfl | rfl <;> unfold Plain <;> decide
    · exact fun c hc => absurd hc List.not_mem_nil

/-- A literal has its closing quote at least. -/
theorem quoted_bounds {q : UInt8} {r : Bytes × ℕ} (h : quoted q l = some r) :
    0 < r.2 ∧ r.2 ≤ l.length := by
  fun_induction quoted q l generalizing r with
  | case1 => cases h
  | case2 =>
    obtain rfl := Option.some.inj h
    exact ⟨Nat.one_pos, Nat.le_refl 1⟩
  | case3 l ih =>
    obtain ⟨r', hr, rfl⟩ := Option.map_eq_some_iff.mp h
    exact ⟨Nat.succ_pos _, Nat.add_le_add_right (ih hr).2 2⟩
  | case4 d l hd =>
    obtain rfl := Option.some.inj h
    exact ⟨Nat.one_pos, Nat.succ_le_succ (Nat.zero_le _)⟩
  | case5 c l hc ih =>
    obtain ⟨r', hr, rfl⟩ := Option.map_eq_some_iff.mp h
    exact ⟨Nat.succ_pos _, Nat.succ_le_succ (ih hr).2⟩

variable {t : Token}

theorem spelled_numberToken (h : numberToken lib (c :: l) = some (t, k))
    (hc : isDigit c = true ∨ c = 46) : k ≤ l.length + 1 ∧ Spelled t ((c :: l).take k) ((c :: l).drop k) := by
  have hpos : 0 < (numberPart false false (c :: l)).2 := by
    rw [numberPart, Bool.false_and, if_neg Bool.false_ne_true]
    rcases hc with hc | rfl
    · rw [if_pos hc]
      exact Nat.succ_pos _
    · exact Nat.succ_pos _
  have hle : _ ≤ (c :: l).length := @numberPart_le false false (c :: l)
  have hplain := @plain_numberPart false false (c :: l)
  unfold numberToken at h
  generalize numberPart false false (c :: l) = part at *
  have hne : (c :: l).take part.2 ≠ [] := by
    rw [← List.length_pos_iff, List.length_take]
    omega
  dsimp only at h
  split at h
  · obtain ⟨v, -, h⟩ := Option.map_eq_some_iff.mp h
    obtain ⟨rfl, rfl⟩ := Prod.mk.inj h
    exact ⟨hle, .plain hne ⟨by simp, hplain⟩⟩
  · obtain ⟨v, -, h⟩ := Option.map_eq_some_iff.mp h
    obtain ⟨rfl, rfl⟩ := Prod.mk.inj h
    exact ⟨hle, .plain hne ⟨by simp, hplain⟩⟩

theorem spelled_single {kind : TokKind} (h : singleToken kind c = some (t, k)) :
    k = 1 ∧ t.kind = kind ∧ t.text = [c] := by
  obtain ⟨rfl, rfl⟩ := Prod.mk.inj (Option.some.inj h)
  exact ⟨rfl, rfl, rfl⟩

theorem spelled_opToken (h : opToken c l = some (t, k)) :
    k ≤ l.length + 1 ∧ Spelled t ((c :: l).take k) ((c :: l).drop k) := by
  unfold opToken at h
  generalize htwo : (if l = [] then [] else (c :: l).take 2) = two at h
  dsimp only at h
  split at h
  · rename_i hop
    obtain ⟨rfl, rfl⟩ := Prod.mk.inj (Option.some.inj h)
    have hl : l ≠ [] := by
      rintro rfl
      rw [if_pos rfl] at htwo
      subst htwo
      exact absurd hop (by decide)
    rw [if_neg hl] at htwo
    have hlen := List.length_pos_iff.mpr hl
    have hplain : ∀ two ∈ ["==", ">=", "<=", "<>", "!="].map ascii, ∀ c ∈ two, Plain c := by
      unfold Plain
      decide +kernel
    rw [htwo]
    refine ⟨by omega, .plain ?_ ⟨by simp, hplain _ hop⟩⟩
    rw [← htwo]
    exact List.cons_ne_nil _ _
  · split at h
    · rename_i hop
      obtain ⟨rfl, hkind, -⟩ := spelled_single h
      have hplain : ∀ c ∈ ascii "+-*/=<>", Plain c := by
        unfold Plain
        decide +kernel
      refine ⟨by omega, .plain (List.cons_ne_nil _ _) ⟨by rw [hkind]; decide, ?_⟩⟩
      exact List.forall_mem_singleton.mpr (hplain c (List.contains_iff_mem.mp hop))
    · cases h

theorem spelled_tokenAt (h : tokenAt lib c l = some (t, k)) :
    k ≤ l.length + 1 ∧ Spelled t ((c :: l).take k) ((c :: l).drop k) := by
  have hsingle {kind : TokKind} (h : singleToken kind c = some (t, k))
      (hkind : kind ∉ [TokKind.eof, .lparen, .rparen, .semicolon]) (hc : Plain c) :
      k ≤ l.length + 1 ∧ Spelled t ((c :: l).take k) ((c :: l).drop k) := by
    obtain ⟨rfl, rfl, -⟩ := spelled_single h
    exact ⟨by omega, .plain (List.cons_ne_nil _ _) ⟨hkind, List.forall_mem_singleton.mpr hc⟩⟩
  unfold tokenAt at h
  split at h
  · exact hsingle h (by decide) (by subst c; unfold Plain; decide)
  split at h
  · subst c
    obtain ⟨rfl, hkind, -⟩ := spelled_single h
    exact ⟨by omega, .lparen hkind⟩
  split at h
  · subst c
    obtain ⟨rfl, hkind, -⟩ := spelled_single h
    exact ⟨by omega, .rparen hkind⟩
  split at h
  · exact hsingle h (by decide) (by subst c; unfold Plain; decide)
  split at h
  · subst c
    obtain ⟨rfl, hkind, htext⟩ := spelled_single h
    exact ⟨by omega, .semicolon hkind htext⟩
  split at h
  · split at h
    · exact spelled_numberToken h (.inr ‹_›)
    · exact hsingle h (by decide) (by subst c; unfold Plain; decide)
  split at h
  · rename_i hquote
    obtain ⟨r, hr, h⟩ := Option.map_eq_some_iff.mp h
    obtain ⟨rfl, rfl⟩ := Prod.mk.inj h
    exact ⟨Nat.succ_le_succ (quoted_bounds hr).2, .string rfl hquote hr⟩
  split at h
  · exact spelled_numberToken h (.inl ‹_›)
  split at h
  · rename_i hletter
    obtain ⟨rfl, rfl⟩ := Prod.mk.inj (Option.some.inj h)
    have hprefix := List.takeWhile_prefix isWordByte (l := l)
    have htake : (c :: l).take ((l.takeWhile isWordByte).length + 1) =
        c :: l.takeWhile isWordByte := by
      rw [List.take_succ_cons, ← List.prefix_iff_eq_take.mp hprefix]
    rw [htake]
    refine ⟨Nat.succ_le_succ hprefix.length_le, .plain (List.cons_ne_nil _ _) ⟨by simp, ?_⟩⟩
    refine List.forall_mem_cons.mpr ⟨plain_of (p := fun c => c == 95 || isLetter c)
      (by decide) hletter, fun d hd => ?_⟩
    exact plain_of (p := isWordByte) (by decide) (List.all_eq_true.mp List.all_takeWhile d hd)
  · exact spelled_opToken h

/-- What a text begins with: spaces up to its end, or spaces and a token. -/
theorem headToken_cases (h : headToken lib l = some (t, k)) :
    (t.kind = .eof ∧ t.text = [] ∧ k = l.length ∧ l.takeWhile isSpace = l) ∨
      ∃ text, Spelled t text (l.drop k) ∧ k ≤ l.length ∧
        l.take k = l.takeWhile isSpace ++ text := by
  have hprefix := List.takeWhile_prefix isSpace (l := l)
  have hgap : l.take (l.takeWhile isSpace).length = l.takeWhile isSpace :=
    (List.prefix_iff_eq_take.mp hprefix).symm
  have hlen := hprefix.length_le
  unfold headToken at h
  dsimp only at h
  split at h
  · rename_i hend
    obtain ⟨rfl, rfl⟩ := Prod.mk.inj (Option.some.inj h)
    have hall := List.drop_eq_nil_iff.mp hend
    refine .inl ⟨rfl, rfl, Nat.le_antisymm hlen hall, ?_⟩
    rw [← hgap, List.take_of_length_le hall]
  · rename_i c rest hrest
    obtain ⟨⟨t', k'⟩, hat, h⟩ := Option.map_eq_some_iff.mp h
    obtain ⟨rfl, rfl⟩ := Prod.mk.inj h
    obtain ⟨hk, hspelled⟩ := spelled_tokenAt hat
    have htotal := congrArg List.length hrest
    rw [List.length_drop, List.length_cons] at htotal
    dsimp only
    refine .inr ⟨(c :: rest).take k', ?_, by omega, ?_⟩
    · rw [← List.drop_drop, hrest]
      exact hspelled.moved _
    · rw [List.take_add, hgap, hrest]

theorem headToken_le (h : headToken lib l = some (t, k)) : k ≤ l.length := by
  rcases headToken_cases h with ⟨-, -, rfl, -⟩ | ⟨text, -, hk, -⟩
  · exact Nat.le_refl _
  · exact hk

theorem headToken_pos (h : headToken lib l = some (t, k)) (ht : t.kind ≠ .eof) : 0 < k := by
  rcases headToken_cases h with ⟨heof, -⟩ | ⟨text, hspelled, -, htake⟩
  · exact absurd heof ht
  · refine Nat.pos_of_ne_zero ?_
    rintro rfl
    exact hspelled.ne_nil (List.append_eq_nil_iff.mp htake.symm).2

/-- The token behind that many bytes of its text. -/
def Token.behind (t : Token) (p : ℕ) : Token := { t with pos := p + t.pos }

/-- The tokens of a text that stands behind that many bytes. -/
inductive Lexed (lib : Stdlib) : ℕ → Bytes → List Token → Prop
  | eof {p l t k} : headToken lib l = some (t, k) → t.kind = .eof → Lexed lib p l [t.behind p]
  | cons {p l t k ts} : headToken lib l = some (t, k) → t.kind ≠ .eof →
    Lexed lib (p + k) (l.drop k) ts → Lexed lib p l (t.behind p :: ts)

/-- What the tokens say that the parser may take for a name without a look at them. -/
def PlainText (t : Token) : Prop :=
  (t.kind = .eof → t.text = []) ∧ (t.kind = .semicolon → t.text = [59])

theorem Lexed.text {p : ℕ} {ts : List Token} (h : Lexed lib p l ts) : ∀ t ∈ ts, PlainText t := by
  induction h with
  | eof hhead ht =>
    rcases headToken_cases hhead with ⟨-, htext, -⟩ | ⟨text, hspelled, -⟩
    · refine List.forall_mem_singleton.mpr ⟨fun _ => htext, fun hsemi => ?_⟩
      exact absurd (ht.symm.trans hsemi) (by decide)
    · exact absurd ht hspelled.ne_eof
  | cons hhead ht _ ih =>
    refine List.forall_mem_cons.mpr ⟨⟨fun h => absurd h ht, fun hsemi => ?_⟩, ih⟩
    rcases headToken_cases hhead with ⟨heof, -⟩ | ⟨text, hspelled, -⟩
    · exact absurd heof ht
    · exact (spelled_semicolon hspelled hsemi).2

/-- Tokens that differ in their positions at most. -/
def SameToken (t t' : Token) : Prop := ∃ p, t' = { t with pos := p }

/-- The position of a text does not change what its tokens are. -/
theorem Lexed.moved {p : ℕ} {ts : List Token} (h : Lexed lib p l ts) (q : ℕ) :
    ∃ ts', Lexed lib q l ts' ∧ List.Forall₂ SameToken ts ts' := by
  induction h generalizing q with
  | eof hhead ht => exact ⟨_, .eof hhead ht, .cons ⟨_, rfl⟩ .nil⟩
  | cons hhead ht _ ih =>
    obtain ⟨ts', hts, hsame⟩ := ih _
    exact ⟨_, .cons hhead ht hts, .cons ⟨_, rfl⟩ hsame⟩

/-! ### The loop of `tokenize` -/

section Run

variable {s s' : Tape UInt8} {m : ℕ} {out ts : List Token}

/-- The body of the loop of `tokenize`. -/
def tokenRound (lib : Stdlib) (n : ℕ) (out : List Token) :
    Lex (Round (List Token) (List Token)) := do
  let t ← next lib n
  if t.kind = .eof then return .done (out ++ [t]) else return .next (out ++ [t])

/-- How a round ends behind a token. -/
def tokenStep (out : List Token) (t : Token) : Round (List Token) (List Token) :=
  if t.kind = .eof then .done (out ++ [t]) else .next (out ++ [t])

theorem tokenStep_eof {t : Token} {p : ℕ} (ht : t.kind = .eof) :
    tokenStep out (t.behind p) = .done (out ++ [t.behind p]) := if_pos ht

theorem tokenStep_next {t : Token} {p : ℕ} (ht : t.kind ≠ .eof) :
    tokenStep out (t.behind p) = .next (out ++ [t.behind p]) := if_neg ht

theorem scans_tokenRound (h : Ahead s l) (hn : l.length < n) : Scans (tokenRound lib n out) s
    ((headToken lib l).map fun r => (tokenStep out (r.1.behind s.pos), r.2)) := by
  have hnext := @scans_next _ _ _ lib h hn
  cases hhead : headToken lib l with
  | none =>
    rw [hhead] at hnext
    exact scans_error hnext
  | some r =>
    rw [hhead] at hnext
    refine scans_before hnext ?_
    unfold tokenStep Token.behind
    split <;> exact scans_pure

theorem exec_of_lexed (hx : Lexed lib s.pos l ts) (h : Ahead s l) (hm : l.length < m) (hn : m ≤ n) :
    ∃ s', (loop (tokenRound lib n) m out).exec s = (.ok (out ++ ts), s') := by
  generalize hp : s.pos = p at hx
  induction hx generalizing s m out with
  | @eof p l t k hhead ht =>
    obtain _ | m := m
    · omega
    have hround := @scans_tokenRound lib _ _ _ out h (hm.trans_le hn)
    rw [hhead, Option.map_some, tokenStep_eof ht, hp] at hround
    exact ⟨_, scans_loop_done hround⟩
  | @cons p l t k ts hhead ht _ ih =>
    obtain _ | m := m
    · omega
    have hround := @scans_tokenRound lib _ _ _ out h (hm.trans_le hn)
    rw [hhead, Option.map_some, tokenStep_next ht, hp] at hround
    have hk := headToken_le hhead
    have hpos := headToken_pos hhead ht
    obtain ⟨s', hrest⟩ := @ih _ _ (out ++ [t.behind p]) (h.behind hk)
      (by rw [List.length_drop]; omega) (Nat.le_of_succ_le hn) (congrArg (· + k) hp)
    refine ⟨s', ?_⟩
    rw [exec_loop_next hround hpos, hrest, List.append_assoc]
    rfl

theorem lexed_of_exec {r : List Token}
    (hrun : (loop (tokenRound lib n) m out).exec s = (.ok r, s')) (h : Ahead s l)
    (hn : l.length < n) : ∃ ts, r = out ++ ts ∧ Lexed lib s.pos l ts := by
  induction m generalizing s l out with
  | zero => cases hrun
  | succ m ih =>
    have hround := @scans_tokenRound lib _ _ _ out h hn
    rcases hhead : headToken lib l with _ | ⟨t, k⟩
    · rw [hhead] at hround
      obtain ⟨e, s'', he⟩ := scans_loop_error (n := m) hround
      rw [he] at hrun
      cases hrun
    · rw [hhead, Option.map_some] at hround
      by_cases ht : t.kind = .eof
      · rw [tokenStep_eof ht] at hround
        have hdone : _ = _ := scans_loop_done (n := m) hround
        rw [hdone] at hrun
        cases hrun
        exact ⟨_, rfl, .eof hhead ht⟩
      · rw [tokenStep_next ht] at hround
        rw [exec_loop_next hround (headToken_pos hhead ht)] at hrun
        obtain ⟨ts, rfl, hx⟩ := ih hrun (h.behind (headToken_le hhead))
          (by rw [List.length_drop]; omega)
        exact ⟨_, List.append_assoc _ _ _, .cons hhead ht hx⟩

end Run

/-- `tokenize` returns the tokens of its text. -/
theorem tokenize_iff {src : Bytes} {toks : List Token} :
    tokenize lib src = .ok toks ↔ Lexed lib 0 src toks := by
  have hahead : Ahead ⟨src, 0, src.length⟩ src := ⟨rfl, rfl, Nat.zero_le _⟩
  change ((loop (tokenRound lib (src.length + 1)) (src.length + 1) []).exec _).1 = _ ↔ _
  constructor
  · intro h
    obtain ⟨ts, rfl, hx⟩ := lexed_of_exec (Prod.ext h rfl) hahead (Nat.lt_succ_self _)
    exact hx
  · intro h
    obtain ⟨s', hrun⟩ := @exec_of_lexed _ _ _ _ _ [] _ h hahead (Nat.lt_succ_self _) (Nat.le_refl _)
    rw [hrun, List.nil_append]

/-! ### A text before a semicolon -/

section Cut

variable {u v : Bytes} {r : Bytes × ℕ} {q : UInt8} {sign : Bool}

theorem takeWhile_cut {p : UInt8 → Bool} (hp : p 59 = false) :
    (u ++ 59 :: v).takeWhile p = u.takeWhile p := by
  induction u with
  | nil => rw [List.nil_append, List.takeWhile_cons, hp]; rfl
  | cons c u ih => rw [List.cons_append, List.takeWhile_cons, List.takeWhile_cons, ih]

theorem quoted_doubled : quoted q (q :: q :: l) =
    (quoted q l).map fun r => (q :: r.1, r.2 + 2) := by
  rw [quoted.eq_def]
  exact (if_pos rfl).trans (if_pos rfl)

theorem quoted_close (h : l.head? ≠ some q) : quoted q (q :: l) = some ([], 1) := by
  rw [quoted.eq_def]
  cases l with
  | nil => exact if_pos rfl
  | cons d l => exact (if_pos rfl).trans (if_neg fun hd => h (congrArg some hd))

theorem quoted_other (h : c ≠ q) : quoted q (c :: l) =
    (quoted q l).map fun r => (c :: r.1, r.2 + 1) := by
  rw [quoted.eq_def]
  exact if_neg h

/-- A literal that ends before the semicolon. -/
theorem quoted_cut (hq : q ≠ 59) (h : quoted q (u ++ 59 :: v) = some r) (hr : r.2 ≤ u.length) :
    quoted q u = some r := by
  fun_induction quoted q u generalizing r with
  | case1 => exact absurd (quoted_bounds h).1 (Nat.not_lt.mpr hr)
  | case2 =>
    rw [← h]
    apply Eq.symm
    apply quoted_close
    rintro ⟨⟩
    exact hq rfl
  | case3 u ih =>
    rw [List.cons_append, List.cons_append, quoted_doubled] at h
    obtain ⟨r', hr', rfl⟩ := Option.map_eq_some_iff.mp h
    rw [ih hr' (Nat.le_of_add_le_add_right hr), Option.map_some]
  | case4 d u hd =>
    rw [← h]
    apply Eq.symm
    apply quoted_close
    rintro ⟨⟩
    exact hd rfl
  | case5 c u hc ih =>
    rw [List.cons_append, quoted_other hc] at h
    obtain ⟨r', hr', rfl⟩ := Option.map_eq_some_iff.mp h
    rw [ih hr' (Nat.le_of_succ_le_succ hr), Option.map_some]

theorem numberPart_cut : numberPart isFloat sign (u ++ 59 :: v) = numberPart isFloat sign u := by
  induction u generalizing isFloat sign with
  | nil =>
    rw [List.nil_append, numberPart]
    cases sign <;> rfl
  | cons c u ih => simp only [List.cons_append, numberPart, ih]

theorem numberToken_cut : numberToken lib (u ++ 59 :: v) = numberToken lib u := by
  unfold numberToken
  dsimp only
  rw [numberPart_cut, List.take_append_of_le_length (numberPart_le u)]

theorem opToken_cut : opToken c (u ++ 59 :: v) = opToken c u := by
  unfold opToken
  cases u with
  | nil =>
    have hno : ∀ two ∈ ["==", ">=", "<=", "<>", "!="].map ascii, two ≠ [c, 59] := by
      have hlast : ∀ two ∈ ["==", ">=", "<=", "<>", "!="].map ascii, two.getLast? ≠ some 59 := by
        decide
      rintro _ hmem rfl
      exact hlast _ hmem rfl
    rw [if_pos rfl, List.nil_append, if_neg (List.cons_ne_nil _ _)]
    exact (if_neg fun hmem => hno _ hmem rfl).trans (if_neg (by decide)).symm
  | cons d u => simp

theorem tokenAt_cut (h : tokenAt lib c (u ++ 59 :: v) = some (t, k)) (hk : k ≤ u.length + 1) :
    tokenAt lib c u = some (t, k) := by
  have hhead : (u ++ 59 :: v).head?.any isDigit = u.head?.any isDigit := by
    cases u <;> rfl
  have hnumber : numberToken lib (c :: (u ++ 59 :: v)) = numberToken lib (c :: u) :=
    numberToken_cut (u := c :: u)
  unfold tokenAt at h ⊢
  rw [hhead, hnumber, takeWhile_cut (by decide), opToken_cut] at h
  by_cases hquote : c = 39 ∨ c = 34
  · have hq : c ≠ 59 := by rcases hquote with rfl | rfl <;> decide
    have hother : ∀ d ∈ [44, 40, 41, 42, 59, 46], c ≠ d := by
      rcases hquote with rfl | rfl <;> decide +kernel
    simp only [List.forall_mem_cons] at hother
    obtain ⟨h₁, h₂, h₃, h₄, h₅, h₆, -⟩ := hother
    rw [if_neg h₁, if_neg h₂, if_neg h₃, if_neg h₄, if_neg h₅, if_neg h₆, if_pos hquote] at h ⊢
    obtain ⟨r, hr, h⟩ := Option.map_eq_some_iff.mp h
    have hk' := (Prod.mk.inj h).2
    rw [quoted_cut hq hr (by omega), Option.map_some, h]
  · rwa [if_neg hquote] at h ⊢

theorem headToken_cut (h : headToken lib (u ++ 59 :: v) = some (t, k)) (hk : k ≤ u.length) :
    headToken lib u = some (t, k) := by
  have hle := (List.takeWhile_prefix isSpace (l := u)).length_le
  unfold headToken at h ⊢
  dsimp only at h ⊢
  rw [takeWhile_cut (by decide), List.drop_append_of_le_length hle] at h
  generalize (u.takeWhile isSpace).length = gap at *
  generalize hdrop : u.drop gap = rest at *
  cases rest with
  | nil =>
    -- the semicolon is the first token
    obtain ⟨⟨t', k'⟩, hat, h⟩ := Option.map_eq_some_iff.mp h
    have hend := List.drop_eq_nil_iff.mp hdrop
    have hpos := List.length_pos_iff.mpr (spelled_tokenAt hat).2.ne_nil
    have hk' := (Prod.mk.inj h).2
    rw [List.length_take] at hpos
    dsimp only at hk'
    omega
  | cons c rest =>
    obtain ⟨⟨t', k'⟩, hat, h⟩ := Option.map_eq_some_iff.mp h
    have hlen := congrArg List.length hdrop
    rw [List.length_drop, List.length_cons] at hlen
    have hk' := (Prod.mk.inj h).2
    dsimp only
    rw [tokenAt_cut hat (by dsimp only at hk'; omega), Option.map_some, h]

theorem headToken_spaces (h : u.takeWhile isSpace = u) :
    headToken lib u = some ({ kind := .eof, pos := u.length }, u.length) := by
  unfold headToken
  dsimp only
  rw [h, List.drop_length]

/-- The first of some tokens is the last, or there is more text behind it. -/
theorem Lexed.cases_cons {p : ℕ} {ts : List Token} (h : Lexed lib p l (t :: ts)) :
    (t.kind = .eof ∧ ts = []) ∨ ∃ t' k, headToken lib l = some (t', k) ∧ t'.kind ≠ .eof ∧
      t = t'.behind p ∧ Lexed lib (p + k) (l.drop k) ts := by
  cases h with
  | eof _ ht => exact .inl ⟨ht, rfl⟩
  | cons hhead ht hrest => exact .inr ⟨_, _, hhead, ht, rfl, hrest⟩

end Cut

end Ydbgo.Sql
