import Ydbgo.Sql.LexerSafe

/-! # The lexer as a function of the text

What the lexer reads depends on the text behind its position alone. The first
token of a text is given by a function, part by part as the lexer finds it, and
`tokenize` returns the tokens that this function finds one after the other.
-/

namespace Ydbgo.Sql

open Tokens

/-! ### The first token of a text -/

/-- A byte of an identifier behind its first. -/
def isWordByte (c : UInt8) : Bool := c == 95 || isLetter c || isDigit c

/-- What a literal says behind its opening quote, and how long it is. -/
def quoted (q : UInt8) : Bytes → Option (Bytes × ℕ)
  | [] => none
  | c :: l =>
    if c = q then
      match l with
      | [] => some ([], 1)
      | d :: l' => if d = q then (quoted q l').map fun r => (q :: r.1, r.2 + 2) else some ([], 1)
    else (quoted q l).map fun r => (c :: r.1, r.2 + 1)

/-- Whether a number is a float, and how long it is. Behind an exponent a sign may stand. -/
def numberPart (isFloat sign : Bool) : Bytes → Bool × ℕ
  | [] => (isFloat, 0)
  | c :: l =>
    if sign && isSign c then (numberPart isFloat false l).map id (· + 1)
    else if isDigit c then (numberPart isFloat false l).map id (· + 1)
    else if c = 46 then (numberPart true false l).map id (· + 1)
    else if c = 101 ∨ c = 69 then (numberPart true true l).map id (· + 1)
    else (isFloat, 0)

/-- A number at the head of a text. -/
def numberToken (lib : Stdlib) (l : Bytes) : Option (Token × ℕ) :=
  let part := numberPart false false l
  let text := l.take part.2
  if part.1 then (lib.parseFloat text).map fun f =>
    ({ kind := .number, text := text, pos := 0, isFloat := true, fltVal := f }, part.2)
  else (parseInt text).map fun i =>
    ({ kind := .number, text := text, pos := 0, intVal := i }, part.2)

def singleToken (kind : TokKind) (c : UInt8) : Option (Token × ℕ) :=
  some ({ kind := kind, text := [c], pos := 0 }, 1)

/-- An operator at the head of a text. -/
def opToken (c : UInt8) (l : Bytes) : Option (Token × ℕ) :=
  let two := if l = [] then [] else (c :: l).take 2
  if two ∈ ["==", ">=", "<=", "<>", "!="].map ascii then
    some ({ kind := .op, text := two, pos := 0 }, 2)
  else if (ascii "+-*/=<>").contains c then singleToken .op c
  else none

/-- The token that a text begins with, and its length. -/
def tokenAt (lib : Stdlib) (c : UInt8) (l : Bytes) : Option (Token × ℕ) :=
  if c = 44 then singleToken .comma c
  else if c = 40 then singleToken .lparen c
  else if c = 41 then singleToken .rparen c
  else if c = 42 then singleToken .star c
  else if c = 59 then singleToken .semicolon c
  else if c = 46 then if l.head?.any isDigit then numberToken lib (c :: l) else singleToken .dot c
  else if c = 39 ∨ c = 34 then
    (quoted c l).map fun r => ({ kind := .string, text := r.1, pos := 0 }, r.2 + 1)
  else if isDigit c then numberToken lib (c :: l)
  else if c == 95 || isLetter c then
    some ({ kind := .ident, text := c :: l.takeWhile isWordByte, pos := 0 },
      (l.takeWhile isWordByte).length + 1)
  else opToken c l

/-- The first token of a text, with the spaces before it as its position, and how far it reaches. -/
def headToken (lib : Stdlib) (l : Bytes) : Option (Token × ℕ) :=
  let gap := (l.takeWhile isSpace).length
  match l.drop gap with
  | [] => some ({ kind := .eof, pos := gap }, gap)
  | c :: rest => (tokenAt lib c rest).map fun r => ({ r.1 with pos := gap }, gap + r.2)

/-! ### Runs on a text -/

/-- The text behind the position of a lexer. -/
structure Ahead (s : Tape UInt8) (l : Bytes) : Prop where
  text : s.items.drop s.pos = l
  last : s.last = s.items.length
  le : s.pos ≤ s.items.length

/-- The lexer behind that many bytes. -/
def behind (s : Tape UInt8) (k : ℕ) : Tape UInt8 := { s with pos := s.pos + k }

variable {α β : Type} {s : Tape UInt8} {c : UInt8} {l : Bytes} {n k : ℕ}

@[simp] theorem behind_zero (s : Tape UInt8) : behind s 0 = s := rfl

@[simp] theorem behind_behind (s : Tape UInt8) (j k : ℕ) :
    behind (behind s j) k = behind s (j + k) := by
  rw [behind, behind, behind, Nat.add_assoc]

theorem Ahead.length (h : Ahead s l) : s.pos + l.length = s.items.length := by
  have := congrArg List.length h.text
  rw [List.length_drop] at this
  have := h.le
  omega

theorem Ahead.behind (h : Ahead s l) (hk : k ≤ l.length) : Ahead (behind s k) (l.drop k) := by
  have hlen := h.length
  constructor
  · rw [← h.text, List.drop_drop]
    rfl
  · exact h.last
  · change s.pos + k ≤ s.items.length
    omega

theorem Ahead.tail (h : Ahead s (c :: l)) : Ahead (Sql.behind s 1) l := h.behind (by simp)

theorem Ahead.head (h : Ahead s l) : s.items[s.pos]? = l.head? := by
  rw [← h.text, List.head?_drop]

theorem Ahead.inside (h : Ahead s (c :: l)) : s.pos < s.items.length := by
  have := h.length
  rw [List.length_cons] at this
  omega

/-- The scanner returns that, behind that many bytes, or an error. -/
def Scans (m : Lex α) (s : Tape UInt8) : Option (α × ℕ) → Prop
  | some r => m.exec s = (.ok r.1, behind s r.2)
  | none => ∃ e s', m.exec s = (.error e, s')

theorem scans_pure {a : α} : Scans (pure a) s (some (a, 0)) := rfl

theorem scans_refuse {e : Bytes} : Scans (refuse e : Lex α) s none := ⟨_, _, rfl⟩

theorem scans_bind {m : Lex α} {f : α → Lex β} {a : α} {r : Option (β × ℕ)}
    (hm : Scans m s (some (a, k))) (hf : Scans (f a) (behind s k) r) :
    Scans (m >>= f) s (r.map fun r => (r.1, k + r.2)) := by
  have hrun : (m >>= f).exec s = (f a).exec (behind s k) := Prog.exec_bind_ok hm
  cases r with
  | none =>
    obtain ⟨e, s', he⟩ := hf
    exact ⟨e, s', hrun.trans he⟩
  | some r =>
    change (m >>= f).exec s = _
    rw [hrun, show (f a).exec _ = _ from hf, behind_behind]

theorem scans_seq {m : Lex Unit} {x : Lex β} {r : Option (β × ℕ)}
    (hm : Scans m s (some ((), k))) (hx : Scans x (behind s k) r) :
    Scans (m >>= fun _ => x) s (r.map fun r => (r.1, k + r.2)) := scans_bind hm hx

/-- The same from a scanner that stays. -/
theorem scans_stay {m : Lex α} {f : α → Lex β} {a : α} {r : Option (β × ℕ)}
    (hm : Scans m s (some (a, 0))) (hf : Scans (f a) s r) : Scans (m >>= f) s r := by
  have h := scans_bind hm hf
  simpa using h

/-- The same before a scanner that stays. -/
theorem scans_before {m : Lex α} {f : α → Lex β} {a : α} {b : β} (hm : Scans m s (some (a, k)))
    (hf : Scans (f a) (behind s k) (some (b, 0))) : Scans (m >>= f) s (some (b, k)) :=
  scans_bind hm hf

theorem scans_map {m : Lex α} (g : α → β) {a : α} (hm : Scans m s (some (a, k))) :
    Scans (m >>= fun a => pure (g a)) s (some (g a, k)) := Prog.exec_bind_ok hm

theorem scans_error {m : Lex α} {f : α → Lex β} (hm : Scans m s none) :
    Scans (m >>= f) s none := by
  obtain ⟨e, s', he⟩ := hm
  exact ⟨e, s', Prog.exec_bind_error he⟩

theorem scans_get {f : Tape UInt8 → Lex α} {r : Option (α × ℕ)} (h : Scans (f s) s r) :
    Scans (get >>= f) s r := h

/-! ### Single steps -/

theorem scans_char (h : Ahead s (c :: l)) : Scans char s (some (c, 0)) := by
  have hc : s.items[s.pos]? = some c := h.head
  change (itemAt (s.pos : ℤ)).exec s = _
  unfold itemAt
  rw [Prog.exec_bind, Prog.exec_get]
  dsimp only
  rw [if_pos (Int.natCast_nonneg _), Int.toNat_natCast, hc]
  rfl

theorem scans_more (h : Ahead s (c :: l)) {f : UInt8 → Lex α} {g : Lex α} {r : Option (α × ℕ)}
    (hf : Scans (f c) s r) :
    Scans (more >>= fun b => if b = true then char >>= f else g) s r := by
  have hmore : Scans more s (some (true, 0)) := by
    exact congrArg (fun b => (Except.ok b, s)) (decide_eq_true h.inside)
  exact scans_stay hmore (scans_stay (scans_char h) hf)

theorem scans_end (h : Ahead s []) {f : UInt8 → Lex α} {g : Lex α} {r : Option (α × ℕ)}
    (hg : Scans g s r) :
    Scans (more >>= fun b => if b = true then char >>= f else g) s r := by
  have hlen : ¬ s.pos < s.items.length := by
    rw [← h.length]
    exact lt_irrefl _
  have hmore : Scans more s (some (false, 0)) := by
    exact congrArg (fun b => (Except.ok b, s)) (decide_eq_false hlen)
  exact scans_stay hmore hg

theorem scans_step (h : Ahead s l) (hk : k ≤ l.length) : Scans (step k) s (some ((), k)) := by
  have hlen := h.length
  have hle : s.pos + k ≤ s.last := by
    rw [h.last]
    omega
  change (moveTo ((s.pos + k : ℕ) : ℤ)).exec s = _
  unfold moveTo
  rw [Prog.exec_bind, Prog.exec_get]
  dsimp only
  rw [if_pos ⟨Int.natCast_nonneg _, Int.ofNat_le.mpr hle⟩]
  rfl

theorem scans_nextIs (h : Ahead s (c :: l)) {p : UInt8 → Bool} :
    Scans (nextIs p) s (some (l.head?.any p, 0)) := by
  have hnext : s.items[s.pos + 1]? = l.head? := h.tail.head
  have hlen : s.pos + 1 + l.length = s.items.length := h.tail.length
  apply scans_get
  cases l with
  | nil =>
    rw [if_neg (by rw [← hlen]; simp)]
    exact scans_pure
  | cons d l =>
    rw [if_pos (by rw [← hlen]; simp)]
    refine scans_stay (a := d) ?_ scans_pure
    change (itemAt _).exec s = _
    unfold itemAt
    rw [Prog.exec_bind, Prog.exec_get]
    dsimp only
    rw [if_pos (Int.natCast_nonneg _), Int.toNat_natCast, hnext]
    rfl

theorem scans_itemsFrom (h : Ahead s l) (hk : k ≤ l.length) {s' : Tape UInt8}
    (hs : s'.items = s.items) :
    Scans (itemsFrom s.pos (s.pos + k)) s' (some (l.take k, 0)) := by
  have hlen := h.length
  have htext : (s.items.take (s.pos + k)).drop s.pos = l.take k := by
    rw [← h.text, List.drop_take, Nat.add_sub_cancel_left]
  change (itemsFrom s.pos (s.pos + k)).exec s' = _
  unfold itemsFrom
  rw [Prog.exec_bind, Prog.exec_get]
  dsimp only
  rw [hs, if_pos ⟨Nat.le_add_right _ _, by omega⟩, htext]
  rfl

theorem scans_textFrom (h : Ahead s l) (hk : k ≤ l.length) :
    Scans (textFrom s.pos) (behind s k) (some (l.take k, 0)) :=
  scans_get (scans_itemsFrom h hk rfl)

/-! ### Loops -/

section Loops

variable {σ : Type} {body : σ → Lex (Round σ β)} {a a' : σ} {b : β}

theorem scans_loop_done (h : Scans (body a) s (some (.done b, k))) :
    Scans (loop body (n + 1) a) s (some (b, k)) := loop_done h

theorem exec_loop_next (h : Scans (body a) s (some (.next a', k))) (hk : 0 < k) :
    (loop body (n + 1) a).exec s = (loop body n a').exec (behind s k) :=
  loop_next h (Nat.lt_add_of_pos_right hk)

theorem scans_loop_next {r : Option (β × ℕ)} (h : Scans (body a) s (some (.next a', k)))
    (hk : 0 < k) (hr : Scans (loop body n a') (behind s k) r) :
    Scans (loop body (n + 1) a) s (r.map fun r => (r.1, k + r.2)) := by
  have hrun := exec_loop_next (n := n) h hk
  cases r with
  | none =>
    obtain ⟨e, s', he⟩ := hr
    exact ⟨e, s', hrun.trans he⟩
  | some r =>
    change (loop body (n + 1) a).exec s = _
    rw [hrun, show (loop body n a').exec _ = _ from hr, behind_behind]

theorem scans_loop_error (h : Scans (body a) s none) : Scans (loop body (n + 1) a) s none := by
  obtain ⟨e, s', he⟩ := h
  exact ⟨e, s', loop_error he⟩

/-- A loop over the bytes with `p`, from a position on. -/
theorem scans_loop_while {body : Unit → Lex (Round Unit Unit)} {p : UInt8 → Bool} {lo : ℕ}
    (hbyte : ∀ s c l, Ahead s (c :: l) → lo ≤ s.pos →
      Scans (body ()) s (some (if p c then (.next (), 1) else (.done (), 0))))
    (hend : ∀ s, Ahead s [] → Scans (body ()) s (some (.done (), 0)))
    (h : Ahead s l) (hlo : lo ≤ s.pos) (hn : l.length < n) :
    Scans (loop body n ()) s (some ((), (l.takeWhile p).length)) := by
  obtain _ | n := n
  · omega
  induction l generalizing s n with
  | nil => exact scans_loop_done (hend s h)
  | cons c l ih =>
    have hround := hbyte s c l h hlo
    rw [List.takeWhile_cons]
    cases hp : p c with
    | false =>
      rw [hp] at hround
      exact scans_loop_done hround
    | true =>
      rw [hp] at hround
      rw [List.length_cons] at hn
      obtain _ | n := n
      · omega
      have hrest := ih h.tail (Nat.le_succ_of_le hlo) n (by omega)
      have hloop := scans_loop_next hround Nat.one_pos hrest
      rwa [Option.map_some, Nat.add_comm 1] at hloop

end Loops

/-! ### Tokens -/

theorem scans_step_pure {a : α} (h : Ahead s (c :: l)) :
    Scans (step 1 >>= fun _ => pure a) s (some (a, 1)) :=
  scans_map (fun _ => a) (scans_step h (Nat.succ_le_succ (Nat.zero_le _)))

theorem scans_skipSpace (h : Ahead s l) (hn : l.length < n) :
    Scans (skipSpace n) s (some ((), (l.takeWhile isSpace).length)) := by
  refine scans_loop_while ?_ ?_ h (Nat.zero_le _) hn
  · intro s c l h _
    apply scans_more h
    split
    · exact scans_step_pure h
    · exact scans_pure
  · exact fun s h => scans_end h scans_pure

theorem scans_lexIdent (h : Ahead s (c :: l)) (hc : (c == 95 || isLetter c) = true)
    (hn : l.length + 1 < n) :
    Scans (lexIdent n) s (some ({ kind := .ident, text := c :: l.takeWhile isWordByte, pos := s.pos },
      (l.takeWhile isWordByte).length + 1)) := by
  obtain _ | n := n
  · omega
  have hlen : (l.takeWhile isWordByte).length + 1 ≤ (c :: l).length :=
    Nat.succ_le_succ (List.takeWhile_prefix _).length_le
  have htext := scans_textFrom h hlen
  rw [List.take_succ_cons, ← List.prefix_iff_eq_take.mp (List.takeWhile_prefix _)] at htext
  rw [lexIdent]
  apply scans_get
  refine scans_before (a := ()) ?_ (scans_map _ htext)
  rw [Nat.add_comm (l.takeWhile isWordByte).length]
  refine scans_loop_next (r := some ((), _)) ?_ Nat.one_pos (scans_loop_while (p := isWordByte)
    ?_ ?_ h.tail (Nat.le_refl _) (show l.length < n by omega))
  · refine scans_more h (scans_get ?_)
    rw [hc, Bool.true_or, if_pos rfl]
    exact scans_step_pure h
  · -- behind the first byte a digit may stand
    intro s' d l' h' hlo
    refine scans_more h' (scans_get ?_)
    rw [decide_eq_true (show s.pos < s'.pos from hlo), Bool.true_and]
    change Scans (if isWordByte d = true then _ else _) _ _
    split
    · exact scans_step_pure h'
    · exact scans_pure
  · exact fun s' h' => scans_end h' scans_pure

/-- A round of the loop of `lexString`. -/
def stringRound (q : UInt8) (start : ℕ) (sb : Bytes) : Lex (Round Bytes Token) := do
  if ← more then do
    let c ← char
    if c = q then do
      if ← nextIs (· == q) then do
        step 2
        return .next (sb ++ [q])
      else do
        step 1
        return .done { kind := .string, text := sb, pos := start }
    else do
      step 1
      return .next (sb ++ [c])
  else refuse (ascii "unterminated string literal at pos " ++ formatNat start)

section

variable {q d : UInt8} {start : ℕ} {sb : Bytes}

theorem scans_round_other (h : Ahead s (c :: l)) (hc : c ≠ q) :
    Scans (stringRound q start sb) s (some (.next (sb ++ [c]), 1)) := by
  refine scans_more h ?_
  rw [if_neg hc]
  exact scans_step_pure h

theorem scans_round_doubled (h : Ahead s (q :: q :: l)) :
    Scans (stringRound q start sb) s (some (.next (sb ++ [q]), 2)) := by
  refine scans_more h ?_
  rw [if_pos rfl]
  refine scans_stay (scans_nextIs h) ?_
  rw [List.head?_cons, Option.any_some, beq_self_eq_true, if_pos rfl]
  exact scans_map (fun _ => _) (scans_step h (by simp))

theorem scans_round_close (h : Ahead s (q :: l)) (hl : l.head? ≠ some q) :
    Scans (stringRound q start sb) s
      (some (.done { kind := .string, text := sb, pos := start }, 1)) := by
  have hany : l.head?.any (· == q) = false := by
    cases l with
    | nil => rfl
    | cons d l => exact beq_eq_false_iff_ne.mpr fun hd => hl (congrArg some hd)
  refine scans_more h ?_
  rw [if_pos rfl]
  refine scans_stay (scans_nextIs h) ?_
  rw [hany, if_neg Bool.false_ne_true]
  exact scans_step_pure h

theorem scans_quoted (h : Ahead s l) (hn : l.length < n) :
    Scans (loop (stringRound q start) n sb) s
      ((quoted q l).map fun r => ({ kind := .string, text := sb ++ r.1, pos := start }, r.2)) := by
  obtain _ | n := n
  · omega
  fun_induction quoted q l generalizing s n sb with
  | case1 => exact scans_loop_error (scans_end h scans_refuse)
  | case2 =>
    rw [Option.map_some, List.append_nil]
    exact scans_loop_done (scans_round_close h nofun)
  | case3 l ih =>
    rw [List.length_cons, List.length_cons] at hn
    obtain _ | n := n
    · omega
    have hrest := @ih _ (sb ++ [q]) (h.behind (k := 2) (by simp)) n (by omega)
    have hloop := scans_loop_next (scans_round_doubled h) Nat.two_pos hrest
    simpa [Function.comp_def, Nat.add_comm] using hloop
  | case4 d l hd =>
    rw [Option.map_some, List.append_nil]
    exact scans_loop_done (scans_round_close h fun hl => hd (Option.some.inj hl))
  | case5 c l hc ih =>
    rw [List.length_cons] at hn
    obtain _ | n := n
    · omega
    have hrest := @ih _ (sb ++ [c]) h.tail n (by omega)
    have hloop := scans_loop_next (scans_round_other h hc) Nat.one_pos hrest
    simpa [Function.comp_def, Nat.add_comm] using hloop

theorem scans_lexString (h : Ahead s (c :: l)) (hn : l.length + 1 < n) :
    Scans (lexString n) s ((quoted c l).map fun r =>
      ({ kind := .string, text := r.1, pos := s.pos }, r.2 + 1)) := by
  have hstep := scans_step (k := 1) h (by simp)
  have hbody := @scans_quoted _ _ n c s.pos [] h.tail
    (show l.length < n by omega)
  have hrest : Scans (step 1 >>= fun _ => loop (stringRound c s.pos) n []) s _ :=
    scans_bind hstep hbody
  have hrun : Scans (lexString n) s _ := scans_get (scans_stay (scans_char h) hrest)
  simpa [Function.comp_def, Nat.add_comm] using hrun

/-! ### Numbers -/

theorem scans_exponentSign (h : Ahead s l) :
    Scans exponentSign s (some ((), if l.head?.any isSign then 1 else 0)) := by
  cases l with
  | nil => exact scans_end h scans_pure
  | cons c l =>
    refine scans_more h ?_
    rw [List.head?_cons, Option.any_some]
    split
    · exact scans_step h (by simp)
    · exact scans_pure

/-- A round of the loop of `lexNumber`. -/
def numberRound (isFloat : Bool) : Lex (Round Bool Bool) := do
  if ← more then do
    let c ← char
    if isDigit c then do
      step 1
      return .next isFloat
    else if c = 46 then do
      step 1
      return .next true
    else if c = 101 ∨ c = 69 then do
      step 1
      exponentSign
      return .next true
    else return .done isFloat
  else return .done isFloat

variable {isFloat : Bool}

theorem scans_round_exponent (h : Ahead s (c :: l)) (hc : c = 101 ∨ c = 69) :
    Scans (numberRound isFloat) s
      (some (.next true, (if l.head?.any isSign then 1 else 0) + 1)) := by
  refine scans_more h ?_
  have hdigit : isDigit c = false := by rcases hc with rfl | rfl <;> rfl
  have hdot : c ≠ 46 := by rcases hc with rfl | rfl <;> decide
  rw [hdigit, if_neg Bool.false_ne_true, if_neg hdot, if_pos hc]
  have hrest : Scans (exponentSign >>= fun _ => pure (Round.next true : Round Bool Bool))
      (behind s 1) _ := scans_map _ (scans_exponentSign h.tail)
  rw [Nat.add_comm]
  exact scans_seq (scans_step (k := 1) h (by simp)) hrest

/-- A sign behind an exponent. -/
theorem numberPart_sign (l : Bytes) : numberPart isFloat true l =
    (numberPart isFloat false (l.drop (if l.head?.any isSign then 1 else 0))).map id
      (· + if l.head?.any isSign then 1 else 0) := by
  cases l with
  | nil => rfl
  | cons c l =>
    rw [numberPart, List.head?_cons, Option.any_some, Bool.true_and]
    cases isSign c with
    | true => rfl
    | false => rfl

theorem scans_numberPart (h : Ahead s l) (hn : l.length < n) :
    Scans (loop numberRound n isFloat) s (some (numberPart isFloat false l)) := by
  induction hlen : l.length using Nat.strong_induction_on generalizing s l n isFloat with
  | _ m ih =>
  obtain _ | n := n
  · omega
  obtain _ | ⟨c, l⟩ := l
  · exact scans_loop_done (scans_end h scans_pure)
  rw [List.length_cons] at hn hlen
  have hgo (f : Bool) (k : ℕ) (hk : 0 < k) (hkl : k ≤ l.length + 1)
      (hround : Scans (numberRound isFloat) s (some (.next f, k))) :
      Scans (loop numberRound (n + 1) isFloat) s
        (some ((numberPart f false ((c :: l).drop k)).map id (· + k))) := by
    have hrest := @ih _ (by rw [List.length_drop, List.length_cons]; omega) _ _ n f (h.behind hkl)
      (by rw [List.length_drop, List.length_cons]; omega) rfl
    have hloop := scans_loop_next hround hk hrest
    rwa [Option.map_some, Nat.add_comm k] at hloop
  rw [numberPart, Bool.false_and, if_neg Bool.false_ne_true]
  split
  · rename_i hc
    exact hgo isFloat 1 Nat.one_pos (by omega) (scans_more h (by
      rw [hc, if_pos rfl]
      exact scans_step_pure h))
  rename_i hdigit
  split
  · rename_i hc
    exact hgo true 1 Nat.one_pos (by omega) (scans_more h (by
      rw [if_neg hdigit, if_pos hc]
      exact scans_step_pure h))
  rename_i hdot
  split
  · rename_i hc
    have hround := @scans_round_exponent _ _ _ isFloat h hc
    have hsign : (if l.head?.any isSign then 1 else 0) ≤ l.length := by
      cases l with
      | nil => exact Nat.le_refl 0
      | cons d l => split <;> simp
    have hloop := hgo true _ (by omega) (by omega) hround
    rw [List.drop_succ_cons] at hloop
    rwa [numberPart_sign, Prod.map_map]
  · rename_i hexp
    refine scans_loop_done (scans_more h ?_)
    rw [if_neg hdigit, if_neg hdot, if_neg hexp]
    exact scans_pure

theorem numberPart_le {sign : Bool} (l : Bytes) : (numberPart isFloat sign l).2 ≤ l.length := by
  induction l generalizing isFloat sign with
  | nil => exact Nat.le_refl 0
  | cons c l ih =>
    rw [numberPart, List.length_cons]
    split
    · exact Nat.succ_le_succ ih
    split
    · exact Nat.succ_le_succ ih
    split
    · exact Nat.succ_le_succ ih
    split
    · exact Nat.succ_le_succ ih
    · exact Nat.zero_le _

variable {lib : Stdlib}

theorem scans_lexNumber (h : Ahead s l) (hn : l.length < n) :
    Scans (lexNumber lib n) s
      ((numberToken lib l).map fun r => ({ r.1 with pos := s.pos }, r.2)) := by
  have hloop := @scans_numberPart _ _ _ false h hn
  have htext := scans_textFrom h (@numberPart_le false false l)
  rw [lexNumber]
  apply scans_get
  unfold numberToken
  generalize numberPart false false l = part at *
  obtain ⟨f, k⟩ := part
  cases f with
  | true =>
    dsimp only at htext ⊢
    rw [if_pos rfl]
    cases hparse : lib.parseFloat (l.take k) with
    | none =>
      refine scans_bind (r := none) hloop (scans_stay htext ?_)
      rw [if_pos rfl, hparse]
      exact scans_refuse
    | some v =>
      refine scans_before hloop (scans_stay htext ?_)
      rw [if_pos rfl, hparse]
      exact scans_pure
  | false =>
    dsimp only at htext ⊢
    rw [if_neg Bool.false_ne_true]
    cases hparse : parseInt (l.take k) with
    | none =>
      refine scans_bind (r := none) hloop (scans_stay htext ?_)
      rw [if_neg Bool.false_ne_true, hparse]
      exact scans_refuse
    | some v =>
      refine scans_before hloop (scans_stay htext ?_)
      rw [if_neg Bool.false_ne_true, hparse]
      exact scans_pure

/-! ### The tokens of a text -/

theorem scans_single {kind : TokKind} (h : Ahead s (c :: l)) : Scans (single kind c) s
    ((singleToken kind c).map fun r => ({ r.1 with pos := s.pos }, r.2)) :=
  scans_get (scans_step_pure h)

theorem scans_twoBytes (h : Ahead s (c :: l)) :
    Scans twoBytes s (some (if l = [] then [] else (c :: l).take 2, 0)) := by
  have hlen : s.pos + 1 + l.length = s.items.length := h.tail.length
  apply scans_get
  cases l with
  | nil =>
    rw [if_neg (by rw [← hlen]; simp)]
    exact scans_pure
  | cons d l =>
    rw [if_pos (by rw [← hlen]; simp), if_neg (List.cons_ne_nil d l)]
    exact scans_itemsFrom (k := 2) h (by simp) rfl

theorem scans_lexOp (h : Ahead s (c :: l)) : Scans (lexOp lib c) s
    ((opToken c l).map fun r => ({ r.1 with pos := s.pos }, r.2)) := by
  apply scans_get
  refine scans_stay (scans_twoBytes h) ?_
  unfold opToken
  generalize htwo : (if l = [] then [] else (c :: l).take 2) = two
  dsimp only
  by_cases hop : two ∈ ["==", ">=", "<=", "<>", "!="].map ascii
  · have hlen : 2 ≤ (c :: l).length := by
      cases l with
      | nil =>
        rw [if_pos rfl] at htwo
        subst htwo
        exact absurd hop (by decide)
      | cons d l => simp
    rw [if_pos hop, if_pos hop]
    exact scans_map (fun _ => _) (scans_step h hlen)
  · rw [if_neg hop, if_neg hop]
    by_cases hc : c ∈ ascii "+-*/=<>"
    · rw [if_pos hc, if_pos (List.contains_iff_mem.mpr hc)]
      exact scans_single h
    · rw [if_neg hc, if_neg fun hmem => hc (List.contains_iff_mem.mp hmem)]
      exact scans_refuse

/-- What `next` does at a byte. -/
theorem scans_tokenAt (h : Ahead s (c :: l)) (hn : l.length + 1 < n) : Scans
    (if c = 44 then single .comma c
    else if c = 40 then single .lparen c
    else if c = 41 then single .rparen c
    else if c = 42 then single .star c
    else if c = 59 then single .semicolon c
    else if c = 46 then do
      if ← nextIs isDigit then lexNumber lib n else single .dot c
    else if c = 39 ∨ c = 34 then lexString n
    else if isDigit c then lexNumber lib n
    else if c == 95 || isLetter c then lexIdent n
    else lexOp lib c) s ((tokenAt lib c l).map fun r => ({ r.1 with pos := s.pos }, r.2)) := by
  unfold tokenAt
  split
  · exact scans_single h
  split
  · exact scans_single h
  split
  · exact scans_single h
  split
  · exact scans_single h
  split
  · exact scans_single h
  split
  · refine scans_stay (scans_nextIs h) ?_
    split
    · exact scans_lexNumber h hn
    · exact scans_single h
  split
  · rw [Option.map_map]
    exact scans_lexString h hn
  split
  · exact scans_lexNumber h hn
  split
  · exact scans_lexIdent h ‹_› hn
  · exact scans_lexOp h

/-- The token that the text begins with, at its position. -/
theorem scans_next (h : Ahead s l) (hn : l.length < n) : Scans (next lib n) s
    ((headToken lib l).map fun r => ({ r.1 with pos := s.pos + r.1.pos }, r.2)) := by
  have hgap := (List.takeWhile_prefix isSpace (l := l)).length_le
  have hrest := h.behind hgap
  have hspace := scans_skipSpace h hn
  unfold headToken
  dsimp only
  generalize (l.takeWhile isSpace).length = gap at *
  generalize hl : l.drop gap = rest at *
  rw [next]
  cases rest with
  | nil =>
    refine scans_before hspace (scans_get ?_)
    rw [if_neg]
    · exact scans_pure
    · rw [← hrest.length]
      exact lt_irrefl _
  | cons c rest =>
    have hlen : rest.length + 1 < n := by
      have := congrArg List.length hl
      rw [List.length_drop, List.length_cons] at this
      omega
    have hat := @scans_tokenAt _ _ _ _ lib hrest hlen
    dsimp only
    rw [Option.map_map]
    have hfun : ((fun r : Token × ℕ => ({ r.1 with pos := s.pos + r.1.pos }, r.2)) ∘
        fun r : Token × ℕ => ({ r.1 with pos := gap }, gap + r.2)) =
          (fun r : Token × ℕ => (r.1, gap + r.2)) ∘
            fun r : Token × ℕ => ({ r.1 with pos := (behind s gap).pos }, r.2) := rfl
    rw [hfun, ← Option.map_map]
    refine scans_seq hspace (scans_get ?_)
    rw [if_pos hrest.inside]
    exact scans_stay (scans_char hrest) hat

end

end Ydbgo.Sql
