import Mathlib.Data.List.Forall2
import Ydbgo.Sql.SplitRight

/-! # Running a script piece by piece

The pieces of a script are parsed one after the other, blank ones skipped. They
have the statements of the script exactly if its parentheses are balanced and no
statement takes the semicolon at the end of a piece for a name.
-/

namespace Ydbgo.Sql

open Tokens

section

variable (lib : Stdlib) (parseDuration : Bytes → Option Int64)

/-- A piece without a token. -/
def blank (piece : Bytes) : Bool := piece.all isSpace

/-- The statements of a piece. A blank one is skipped. -/
def parsePiece (piece : Bytes) : Except (Halt Bytes) (List Statement) :=
  if blank piece then .ok [] else parse lib parseDuration piece

/-- The statements of the pieces one after the other. -/
def parsePieces : List Bytes → Except (Halt Bytes) (List Statement)
  | [] => .ok []
  | piece :: pieces => do
    let stmts ← parsePiece lib parseDuration piece
    let rest ← parsePieces pieces
    return stmts ++ rest

/-- A statement of the script begins at that token. -/
def Begins (toks : List Token) (i : ℕ) : Prop :=
  ∃ xs st, ReadsFrom lib parseDuration toks 0 xs ∧ (i, st) ∈ xs

end

/-- The token that is taken for a name is the semicolon at the end of a piece. -/
def BareName (toks : List Token) (i : ℕ) : Prop :=
  TakesName toks i ∧ ∃ t, toks[i + 2]? = some t ∧ EndsPiece (depthAfter 0 (toks.take (i + 2))) t

variable {lib : Stdlib} {parseDuration : Bytes → Option Int64}

/-! ### Parsing pieces -/

section Pieces

variable {piece : Bytes} {pieces : List Bytes} {sts : List Statement}

theorem parse_blank (h : blank piece = true) : parse lib parseDuration piece = .ok [] := by
  have hall : piece.takeWhile isSpace = piece :=
    List.takeWhile_eq_self_iff.mpr (List.all_eq_true.mp h)
  have hlexed : Lexed lib 0 piece _ := .eof (headToken_spaces hall) rfl
  exact parse_iff.mpr ⟨_, [], tokenize_iff.mpr hlexed, .eof rfl rfl, rfl⟩

theorem parsePiece_eq : parsePiece lib parseDuration piece = parse lib parseDuration piece := by
  unfold parsePiece
  split
  · exact (parse_blank ‹_›).symm
  · rfl

theorem parsePieces_cons : parsePieces lib parseDuration (piece :: pieces) = .ok sts ↔
    ∃ sts₁ sts₂, parse lib parseDuration piece = .ok sts₁ ∧
      parsePieces lib parseDuration pieces = .ok sts₂ ∧ sts = sts₁ ++ sts₂ := by
  rw [parsePieces, parsePiece_eq]
  rcases parse lib parseDuration piece with e | sts₁
  · constructor
    · rintro ⟨⟩
    · rintro ⟨_, _, ⟨⟩, -⟩
  rcases parsePieces lib parseDuration pieces with e | sts₂
  · constructor
    · rintro ⟨⟩
    · rintro ⟨_, _, -, ⟨⟩, -⟩
  · constructor
    · rintro ⟨⟩
      exact ⟨sts₁, sts₂, rfl, rfl, rfl⟩
    · rintro ⟨_, _, ⟨⟩, ⟨⟩, rfl⟩
      rfl

theorem parsePieces_last : parsePieces lib parseDuration (pieces ++ [[]]) =
    parsePieces lib parseDuration pieces := by
  induction pieces with
  | nil => rfl
  | cons piece pieces ih => rw [List.cons_append, parsePieces, parsePieces, ih]

end Pieces

/-! ### The pieces of a script -/

section Agree

variable {pre a b ts : List Token} {t t₀ : Token} {toks tokens : List Token} {k : ℕ}

theorem Lexed.last_eof {p : ℕ} {l : Bytes} (h : Lexed lib p l ts) :
    ∃ a t, ts = a ++ [t] ∧ t.kind = .eof := by
  induction h with
  | eof _ ht => exact ⟨[], _, rfl, ht⟩
  | cons _ _ _ ih =>
    obtain ⟨a, t, rfl, ht⟩ := ih
    exact ⟨_ :: a, t, rfl, ht⟩

theorem same_getElem? (h : List.Forall₂ SameToken ts tokens) {j : ℕ} (ht : ts[j]? = some t) :
    ∃ p, tokens[j]? = some { t with pos := p } := by
  induction h generalizing j with
  | nil => simp at ht
  | @cons u _ _ _ hsame _ ih =>
    obtain ⟨p, rfl⟩ := hsame
    cases j with
    | zero =>
      obtain rfl : u = t := by simpa using ht
      exact ⟨p, rfl⟩
    | succ j => exact ih (by simpa using ht)

/-- The piece of a script with these tokens. -/
def pieceOf (pre a b : List Token) (t t₀ : Token) (tokens : List Token)
    (hsame : List.Forall₂ SameToken (a ++ [t₀]) tokens) (heof : t₀.kind = .eof)
    (hstop : t.kind = .semicolon ∨ t = t₀ ∧ b = []) : Piece where
  script := pre ++ (a ++ t :: b)
  tokens := tokens
  off := pre.length
  last := a.length
  stop := t.kind
  length := by rw [← hsame.length_eq, List.length_append, List.length_singleton]
  inside j hj := by
    have ha : a[j]? = some a[j] := List.getElem?_eq_getElem hj
    obtain ⟨p, hp⟩ := same_getElem? hsame (j := j) (by rw [List.getElem?_append_left hj, ha])
    refine ⟨a[j], p, ?_, hp⟩
    rw [List.getElem?_append_right (Nat.le_add_right _ _), Nat.add_sub_cancel_left,
      List.getElem?_append_left hj, ha]
  ends := by
    obtain ⟨p, hp⟩ := same_getElem? hsame (j := a.length) (t := t₀) (by simp)
    refine ⟨t, _, by simp, hp, rfl, heof, fun ht => ?_⟩
    rcases hstop with hsemi | ⟨rfl, -⟩
    · exact absurd (ht.symm.trans hsemi) (by decide)
    · exact ⟨p, rfl⟩
  stopKind := by
    rcases hstop with hsemi | ⟨rfl, rfl⟩
    · exact .inl hsemi
    · refine .inr ⟨heof, ?_⟩
      simp [Nat.add_assoc]

theorem depthAfter_take (hpre : depthAfter 0 pre = 0) (ts : List Token) (j : ℕ) :
    depthAfter 0 ((pre ++ ts).take (pre.length + j)) = depthAfter 0 (ts.take j) := by
  rw [List.take_length_add_append, depthAfter_append, hpre]

theorem Unended.left {depth : ℕ} (h : Unended depth (a ++ b)) : Unended depth a := by
  induction a generalizing depth with
  | nil => trivial
  | cons _ _ ih => exact ⟨h.1, ih h.2⟩

section Bare

variable {hsame : List.Forall₂ SameToken (a ++ [t₀]) tokens} {heof : t₀.kind = .eof}
  {hstop : t.kind = .semicolon ∨ t = t₀ ∧ b = []}

/-- A statement of the piece takes the semicolon at its end for a name. -/
theorem bareName_iff (hpre : depthAfter 0 pre = 0) (ha : Unended 0 a)
    (ht : EndsPiece (depthAfter 0 a) t ∨ t.kind = .eof) (hk : k < a.length) :
    BareName (pre ++ (a ++ t :: b)) (pre.length + k) ↔
      ¬ NameInside (pieceOf pre a b t t₀ tokens hsame heof hstop) k := by
  let W := pieceOf pre a b t t₀ tokens hsame heof hstop
  simp only [NameInside, not_forall, not_or, not_not]
  constructor
  · rintro ⟨htakes, u, hu, hends⟩
    have hnext : k + 1 < a.length := by
      refine Nat.lt_of_le_of_ne hk fun hlast => ?_
      have hword : ∃ kw, Word W.script (pre.length + a.length) kw := by
        rw [← hlast]
        rcases htakes with ⟨-, hword⟩ | ⟨-, verb, -, hword⟩
        · exact ⟨_, hword⟩
        · exact ⟨_, hword⟩
      obtain ⟨kw, v, hv, hkind, -⟩ := hword
      have hstand : W.script[pre.length + a.length]? = some t := by simp [W, pieceOf]
      cases hstand.symm.trans hv
      rcases ht with ht | ht
      · exact absurd (hkind.symm.trans ht.1) (by decide)
      · exact absurd (hkind.symm.trans ht) (by decide)
    rw [Nat.add_assoc, depthAfter_take hpre] at hends
    rw [Nat.add_assoc, List.getElem?_append_right (Nat.le_add_right _ _),
      Nat.add_sub_cancel_left] at hu
    rcases Nat.lt_or_eq_of_le (Nat.succ_le_of_lt hnext) with hlt | hlast
    · rw [List.getElem?_append_left hlt] at hu
      rw [List.take_append_of_le_length hlt.le] at hends
      exact absurd hends (ha.not_ends hu)
    · refine ⟨(takesName_piece (W := W) hnext).mpr htakes, hlast, ?_⟩
      have hstand : (a ++ t :: b)[k + 2]? = some t := by simp [← hlast]
      cases hstand.symm.trans hu
      exact fun heof => absurd (heof.symm.trans hends.1) (by decide)
  · rintro ⟨htakes, hlast, hne⟩
    have hlen : k + 2 = a.length := hlast
    have hends : EndsPiece (depthAfter 0 a) t := ht.resolve_right hne
    refine ⟨(takesName_piece (W := W) (by change k + 1 < a.length; omega)).mp htakes, t, ?_, ?_⟩
    · simp [Nat.add_assoc, hlen]
    · rw [Nat.add_assoc, depthAfter_take hpre, hlen, List.take_left]
      exact hends

end Bare

variable {xs : List (ℕ × Statement)} {pieces : List Bytes} {last : Bytes}

/-- The tokens of a piece read as a text of its own. -/
theorem Lexed.parse_eq {p : ℕ} {l : Bytes} (h : Lexed lib p l ts) : ∃ tokens,
    List.Forall₂ SameToken ts tokens ∧ Closed tokens (tokens.length - 1) ∧
      (∀ t ∈ tokens, PlainText t) ∧ ∀ sts, parse lib parseDuration l = .ok sts ↔
        ∃ ys, ReadsFrom lib parseDuration tokens 0 ys ∧ sts = ys.map Prod.snd := by
  obtain ⟨tokens, hlexed, hsame⟩ := h.moved 0
  have htokens : tokenize lib l = .ok tokens := tokenize_iff.mpr hlexed
  refine ⟨tokens, hsame, closed_of_tokenize lib l htokens, hlexed.text, fun sts => ?_⟩
  rw [parse_iff]
  constructor
  · rintro ⟨tokens', ys, htokens', hys, rfl⟩
    cases htokens.symm.trans htokens'
    exact ⟨ys, hys, rfl⟩
  · rintro ⟨ys, hys, rfl⟩
    exact ⟨tokens, ys, htokens, hys, rfl⟩

/-- The pieces have the statements of the text, unless a name is the semicolon at the end of one. -/
theorem Divided.agrees (hlower : lib.toLower [59] ≠ lib.toLower [])
    (h : Divided lib ts pieces last) (hpre : depthAfter 0 pre = 0)
    (hclosed : Closed (pre ++ ts) ((pre ++ ts).length - 1)) (htext : ∀ t ∈ pre ++ ts, PlainText t)
    (hreads : ReadsFrom lib parseDuration (pre ++ ts) pre.length xs) :
    parsePieces lib parseDuration (pieces ++ [last]) = .ok (xs.map Prod.snd) ↔
      ∀ x ∈ xs, ¬ BareName (pre ++ ts) x.1 := by
  induction h generalizing pre xs with
  | @last p l ts hlexed hend =>
    obtain ⟨a, t, rfl, heof⟩ := hlexed.last_eof
    obtain ⟨tokens, hsame, hclosed', htext', hparse⟩ :=
      @Lexed.parse_eq _ parseDuration _ _ _ hlexed
    let W := pieceOf pre a [] t t tokens hsame heof (.inr ⟨rfl, rfl⟩)
    cases @ReadsFrom.passed _ _ W 0 _ hlower ⟨hclosed, hclosed', htext, htext'⟩ hreads
        (Nat.zero_le _) with
    | @same ys zs hxs hys hzs hnames =>
      have hstand : W.script[W.off + W.last]? = some t := by simp [W, pieceOf]
      obtain rfl := (reads_eof hstand heof).mp hzs
      have hsnd : xs.map Prod.snd = ys.map Prod.snd := by simp [hxs, Function.comp_def]
      constructor
      · intro _ x hx
        rw [hxs, List.append_nil, List.mem_map] at hx
        obtain ⟨y, hy, rfl⟩ := hx
        obtain ⟨hlt, hname⟩ := hnames y hy
        exact fun hbare => (bareName_iff hpre hend.left (.inr heof) hlt).mp hbare hname
      · intro _
        exact parsePieces_cons.mpr ⟨_, [], (hparse _).mpr ⟨ys, hys, hsnd⟩, rfl,
          (List.append_nil _).symm⟩
    | other _ _ hname _ => exact absurd (fun _ => .inr heof) hname
  | @piece p u a t₀ t b pieces last hlexed heof ha ht _ ih =>
    obtain ⟨tokens, hsame, hclosed', htext', hparse⟩ :=
      @Lexed.parse_eq _ parseDuration _ _ _ hlexed
    let W := pieceOf pre a b t t₀ tokens hsame heof (.inl ht.1)
    rw [List.cons_append, parsePieces_cons]
    cases @ReadsFrom.passed _ _ W 0 _ hlower ⟨hclosed, hclosed', htext, htext'⟩ hreads
        (Nat.zero_le _) with
    | @same ys zs hxs hys hzs hnames =>
      have hstand : W.script[W.off + W.last]? = some t := by simp [W, pieceOf]
      have hsnd : xs.map Prod.snd = ys.map Prod.snd ++ zs.map Prod.snd := by
        simp [hxs, Function.comp_def]
      have hmoved : pre ++ (a ++ t :: b) = (pre ++ (a ++ [t])) ++ b := by simp
      have hrest : ReadsFrom lib parseDuration ((pre ++ (a ++ [t])) ++ b)
          (pre ++ (a ++ [t])).length zs := by
        have hbehind := (reads_semicolon hstand ht.1).mp hzs
        rw [← hmoved]
        simpa [W, pieceOf, Nat.add_assoc] using hbehind
      have hpre' : depthAfter 0 (pre ++ (a ++ [t])) = 0 := by
        rw [depthAfter_append, hpre]
        exact depthAfter_ends (b := []) ht
      have hih := ih hpre' (hmoved ▸ hclosed) (hmoved ▸ htext) hrest
      rw [← hmoved] at hih
      have hys' (x : ℕ × Statement) (hx : x ∈ ys.map (Prod.map (W.off + ·) id)) :
          ¬ BareName (pre ++ (a ++ t :: b)) x.1 := by
        obtain ⟨y, hy, rfl⟩ := List.mem_map.mp hx
        obtain ⟨hlt, hname⟩ := hnames y hy
        exact fun hbare => (bareName_iff hpre ha (.inl ht) hlt).mp hbare hname
      constructor
      · rintro ⟨sts₁, sts₂, hsts₁, hsts₂, heq⟩ x hx
        obtain rfl := Except.ok.inj (((hparse _).mpr ⟨ys, hys, rfl⟩).symm.trans hsts₁)
        obtain rfl := List.append_cancel_left (hsnd.symm.trans heq)
        rw [hxs] at hx
        rcases List.mem_append.mp hx with hx | hx
        · exact hys' x hx
        · exact hih.mp hsts₂ x hx
      · intro hbare
        refine ⟨_, _, (hparse _).mpr ⟨ys, hys, rfl⟩, hih.mpr fun x hx => ?_, hsnd⟩
        exact hbare x (hxs ▸ List.mem_append_right _ hx)
    | other hmem hlt hname hne =>
      constructor
      · rintro ⟨sts₁, sts₂, hsts₁, -, heq⟩
        obtain ⟨ys, hys, rfl⟩ := (hparse _).mp hsts₁
        exact absurd heq.symm (hne ys hys sts₂)
      · exact fun hbare => absurd ((bareName_iff hpre ha (.inl ht) hlt).mpr hname) (hbare _ hmem)

end Agree

/-! ### Scripts -/

section Script

variable {src : Bytes} {sts : List Statement} {toks : List Token} {i : ℕ}
  {xs ys : List (ℕ × Statement)}

theorem ReadsFrom.unique (h : ReadsFrom lib parseDuration toks i xs)
    (h' : ReadsFrom lib parseDuration toks i ys) : xs = ys := by
  induction h generalizing ys with
  | eof ht heof => exact ((reads_eof ht heof).mp h').symm
  | semicolon ht hsemi _ ih => exact ih ((reads_semicolon ht hsemi).mp h')
  | statement ht heof hsemi hst _ ih =>
    obtain ⟨st, j, ys', rfl, hst', hrest⟩ := (reads_statement ht heof hsemi).mp h'
    cases hst.symm.trans hst'
    exact congrArg _ (ih hrest)

/-- A script that parses is split into pieces with the same statements exactly if its parentheses
are balanced and no statement has the semicolon at the end of its piece for a name. -/
theorem splitStatements_agrees
    (hlib : ∀ s : Bytes, (∀ c ∈ s, c < 128) → lib.toLower s = s.map lowerAscii)
    (h : parse lib parseDuration src = .ok sts) :
    (∃ pieces, splitStatements src = .ok pieces ∧ parsePieces lib parseDuration pieces = .ok sts) ↔
      ∃ toks, tokenize lib src = .ok toks ∧ depthAfter 0 toks = 0 ∧
        ∀ i, Begins lib parseDuration toks i → ¬ BareName toks i := by
  obtain ⟨toks, xs, htoks, hreads, rfl⟩ := parse_iff.mp h
  have hlexed : Lexed lib 0 src toks := tokenize_iff.mp htoks
  have hlower : lib.toLower [59] ≠ lib.toLower [] := by
    rw [hlib _ (by decide +kernel), hlib _ (by decide +kernel)]
    decide
  obtain ⟨pieces, last, hdivided, hsplit⟩ := hlexed.splitStatements
  have hagrees := @Divided.agrees _ _ [] _ _ _ _ hlower hdivided rfl (closed_of_tokenize lib src htoks)
    hlexed.text hreads
  have hbegins : (∀ i, Begins lib parseDuration toks i → ¬ BareName toks i) ↔
      ∀ x ∈ xs, ¬ BareName toks x.1 := by
    constructor
    · exact fun hbare x hx => hbare _ ⟨xs, x.2, hreads, hx⟩
    · rintro hbare i ⟨ys, st, hys, hst⟩
      exact hbare _ (hreads.unique hys ▸ hst)
  have hlast : parsePieces lib parseDuration (if last = [] then pieces else pieces ++ [last]) =
      parsePieces lib parseDuration (pieces ++ [last]) := by
    split
    · simp only [*, parsePieces_last]
    · rfl
  constructor
  · rintro ⟨pieces', hsplit', hparse⟩
    rw [hsplit] at hsplit'
    split at hsplit' <;> cases hsplit'
    rename_i hdepth
    exact ⟨toks, htoks, not_not.mp hdepth, hbegins.mpr (hagrees.mp (hlast ▸ hparse))⟩
  · rintro ⟨toks', htoks', hdepth, hbare⟩
    cases htoks.symm.trans htoks'
    refine ⟨_, hsplit.trans (if_neg (not_not.mpr hdepth)), ?_⟩
    rw [hlast]
    exact hagrees.mpr (hbegins.mp hbare)

theorem splitStatements_agrees_two :
    (∃ pieces, splitStatements (ascii "begin; COMMIT") = .ok pieces ∧
      parsePieces Stdlib.plain (fun _ => none) pieces = .ok [.begin_, .commit]) ↔
      ∃ toks, tokenize Stdlib.plain (ascii "begin; COMMIT") = .ok toks ∧ depthAfter 0 toks = 0 ∧
        ∀ i, Begins Stdlib.plain (fun _ => none) toks i → ¬ BareName toks i :=
  splitStatements_agrees (fun _ _ => rfl) (by decide +kernel)

end Script

end Ydbgo.Sql
