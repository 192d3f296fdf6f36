import Ydbgo.Sql.ParserSafe
import Ydbgo.Sql.ParserTwin

/-! # Statement by statement

The loop of `Parse` reads one statement after the other and passes over the
semicolons between them. What it reads from a token on does not depend on what it
has read before.
-/

namespace Ydbgo.Sql

open Tokens

/-- A parser at a token. -/
def standing (toks : List Token) (i : ℕ) : Tape Token := ⟨toks, i, toks.length - 1⟩

/-- The statements from a token on, each with the index of its first token. -/
inductive ReadsFrom (lib : Stdlib) (parseDuration : Bytes → Option Int64) (toks : List Token) :
    ℕ → List (ℕ × Statement) → Prop
  | eof {i t} : toks[i]? = some t → t.kind = .eof → ReadsFrom lib parseDuration toks i []
  | semicolon {i t xs} : toks[i]? = some t → t.kind = .semicolon →
    ReadsFrom lib parseDuration toks (i + 1) xs → ReadsFrom lib parseDuration toks i xs
  | statement {i j t st xs} : toks[i]? = some t → t.kind ≠ .eof → t.kind ≠ .semicolon →
    (parseStatement lib parseDuration toks.length).exec (standing toks i) =
      (.ok st, standing toks j) →
    ReadsFrom lib parseDuration toks j xs → ReadsFrom lib parseDuration toks i ((i, st) :: xs)

section

variable {lib : Stdlib} {parseDuration : Bytes → Option Int64} {toks : List Token} {i j n : ℕ}
  {t : Token} {st : Statement} {xs : List (ℕ × Statement)}

/-! ### One step -/

theorem reads_eof (h : toks[i]? = some t) (ht : t.kind = .eof) :
    ReadsFrom lib parseDuration toks i xs ↔ xs = [] := by
  constructor
  · intro hreads
    cases hreads with
    | eof => rfl
    | semicolon h' ht' =>
      cases h.symm.trans h'
      simp [ht] at ht'
    | statement h' ht' =>
      cases h.symm.trans h'
      exact absurd ht ht'
  · rintro rfl
    exact .eof h ht

theorem reads_semicolon (h : toks[i]? = some t) (ht : t.kind = .semicolon) :
    ReadsFrom lib parseDuration toks i xs ↔ ReadsFrom lib parseDuration toks (i + 1) xs := by
  constructor
  · intro hreads
    cases hreads with
    | eof h' ht' =>
      cases h.symm.trans h'
      simp [ht] at ht'
    | semicolon _ _ hrest => exact hrest
    | statement h' _ ht' =>
      cases h.symm.trans h'
      exact absurd ht ht'
  · exact .semicolon h ht

theorem reads_statement (h : toks[i]? = some t) (heof : t.kind ≠ .eof)
    (hsemi : t.kind ≠ .semicolon) :
    ReadsFrom lib parseDuration toks i xs ↔ ∃ st j xs', xs = (i, st) :: xs' ∧
      (parseStatement lib parseDuration toks.length).exec (standing toks i) =
        (.ok st, standing toks j) ∧ ReadsFrom lib parseDuration toks j xs' := by
  constructor
  · intro hreads
    cases hreads with
    | eof h' ht' =>
      cases h.symm.trans h'
      exact absurd ht' heof
    | semicolon h' ht' =>
      cases h.symm.trans h'
      exact absurd ht' hsemi
    | statement _ _ _ hst hrest => exact ⟨_, _, _, rfl, hst, hrest⟩
  · rintro ⟨st, j, xs', rfl, hst, hrest⟩
    exact .statement h heof hsemi hst hrest

/-- A statement is read up to a later token, or there is an error. -/
theorem exec_parseStatement (hclosed : Closed toks (toks.length - 1)) (hi : i < toks.length)
    (hn : toks.length ≤ n) :
    (∃ e s', (parseStatement lib parseDuration n).exec (standing toks i) =
      (.error (.error e), s')) ∨
    ∃ st j, (parseStatement lib parseDuration n).exec (standing toks i) =
      (.ok st, standing toks j) ∧ i < j ∧ j < toks.length := by
  have hlen := hclosed.length
  have htakes : Takes Closed Any (fun _ => 1) n (parseStatement lib parseDuration n) :=
    takes_parseStatement
  have hends := htakes.ends (s := standing toks i) hclosed (Nat.le_sub_one_of_lt hi)
    (by change toks.length - 1 - i < n; omega)
  unfold Proceeds at hends
  split at hends
  · rename_i st s' hrun
    have hle : s'.pos ≤ s'.last := hends.le
    have hpos : i + 1 ≤ s'.pos := hends.pos
    have hs : s' = standing toks s'.pos := by
      obtain ⟨items, pos, last⟩ := s'
      obtain rfl : items = toks := hends.items
      obtain rfl : last = items.length - 1 := hends.last
      rfl
    have hlast : s'.last = toks.length - 1 := hends.last
    exact .inr ⟨st, s'.pos, hs ▸ hrun, hpos, by omega⟩
  · rename_i e s' hrun
    exact .inl ⟨e, s', hrun⟩
  · exact hends.elim

/-- Behind the semicolons the same is read. -/
theorem exec_skipSemicolons (hclosed : Closed toks (toks.length - 1)) (hi : i < toks.length)
    (hn : toks.length - i ≤ n) : ∃ j t, i ≤ j ∧ toks[j]? = some t ∧ t.kind ≠ .semicolon ∧
      (skipSemicolons n).exec (standing toks i) = (.ok (), standing toks j) ∧
      ∀ xs, ReadsFrom lib parseDuration toks i xs ↔ ReadsFrom lib parseDuration toks j xs := by
  induction n generalizing i with
  | zero => omega
  | succ n ih =>
    have ht := List.getElem?_eq_getElem hi
    generalize toks[i] = t at ht
    have hpeek : peek.exec (standing toks i) = (.ok t, standing toks i) := exec_peek ht
    by_cases hsemi : t.kind = .semicolon
    · have hne : i ≠ toks.length - 1 := fun h => by
        have := (hclosed.eof i ht).mpr h
        simp [hsemi] at this
      obtain ⟨j, u, hj, hu, hne, hrun, hreads⟩ := ih (i := i + 1) (by omega) (by omega)
      refine ⟨j, u, Nat.le_of_succ_le hj, hu, hne, ?_, fun xs => ?_⟩
      · have hmove : (moveTo ((i + 1 : ℕ) : ℤ) : Parser Unit).exec (standing toks i) =
            (.ok (), standing toks (i + 1)) := exec_moveTo (by change _ ≤ toks.length - 1; omega)
        have hnext := Nat.lt_succ_self (standing toks i).pos
        refine (@Tokens.loop_next _ _ _ _ _ _ _ _ (standing toks (i + 1)) _ ?_ hnext).trans hrun
        rw [Prog.exec_bind_ok hpeek, if_pos hsemi]
        exact Prog.exec_bind_ok hmove
      · exact (reads_semicolon ht hsemi).trans (hreads xs)
    · refine ⟨i, t, Nat.le_refl i, ht, hsemi, loop_done ?_, fun _ => Iff.rfl⟩
      rw [Prog.exec_bind_ok hpeek, if_neg hsemi]
      rfl

/-! ### A whole text -/

/-- A round of the loop of `Parse`. -/
def statementRound (lib : Stdlib) (parseDuration : Bytes → Option Int64) (n : ℕ)
    (stmts : List Statement) : Parser (Round (List Statement) (List Statement)) := do
  skipSemicolons n
  let t ← peek
  if t.kind = .eof then return .done stmts
  else do
    let st ← parseStatement lib parseDuration n
    skipSemicolons n
    let t ← peek
    if t.kind = .eof then return .done (stmts ++ [st]) else return .next (stmts ++ [st])

/-- The loop returns what is read from its token on. -/
theorem exec_statements_iff (hclosed : Closed toks (toks.length - 1)) (hi : i < toks.length)
    (hn : toks.length - i ≤ n) {stmts sts : List Statement} :
    (∃ s', (loop (statementRound lib parseDuration toks.length) n stmts).exec (standing toks i) =
      (.ok sts, s')) ↔
      ∃ xs, ReadsFrom lib parseDuration toks i xs ∧ sts = stmts ++ xs.map Prod.snd := by
  induction n generalizing i stmts with
  | zero => omega
  | succ n ih =>
    obtain ⟨j, t, hij, ht, hsemi, hskip, hreads⟩ := @exec_skipSemicolons lib
      parseDuration _ _ _ hclosed hi (Nat.sub_le _ i)
    have hpeek : peek.exec (standing toks j) = (.ok t, standing toks j) := exec_peek ht
    have hj : j < toks.length := (List.getElem?_eq_some_iff.mp ht).1
    have hround : (statementRound lib parseDuration toks.length stmts).exec (standing toks i) = _ :=
      (Prog.exec_bind_ok hskip).trans (Prog.exec_bind_ok hpeek)
    simp only [hreads]
    by_cases heof : t.kind = .eof
    · simp only [reads_eof ht heof]
      rw [if_pos heof] at hround
      rw [loop_done hround]
      constructor
      · rintro ⟨_, ⟨⟩⟩
        exact ⟨[], rfl, (List.append_nil _).symm⟩
      · rintro ⟨_, rfl, rfl⟩
        exact ⟨_, by rw [List.map_nil, List.append_nil]⟩
    simp only [reads_statement ht heof hsemi]
    rw [if_neg heof] at hround
    rcases @exec_parseStatement lib parseDuration _ _ _ hclosed hj
      (Nat.le_refl _) with ⟨e, s', hst⟩ | ⟨st, k, hst, hjk, hk⟩
    · rw [Prog.exec_bind_error hst] at hround
      rw [loop_error hround]
      constructor
      · rintro ⟨_, ⟨⟩⟩
      · rintro ⟨_, ⟨st, j, xs, -, hst', -⟩, -⟩
        cases hst.symm.trans hst'
    have hcons : (∃ xs, (∃ st j' xs', xs = (j, st) :: xs' ∧
        (parseStatement lib parseDuration toks.length).exec (standing toks j) =
          (.ok st, standing toks j') ∧ ReadsFrom lib parseDuration toks j' xs') ∧
        sts = stmts ++ xs.map Prod.snd) ↔
        ∃ xs, ReadsFrom lib parseDuration toks k xs ∧ sts = (stmts ++ [st]) ++ xs.map Prod.snd := by
      constructor
      · rintro ⟨_, ⟨st', j', xs, rfl, hst', hxs⟩, rfl⟩
        cases hst.symm.trans hst'
        exact ⟨xs, hxs, by simp⟩
      · rintro ⟨xs, hxs, rfl⟩
        exact ⟨_, ⟨st, k, xs, rfl, hst, hxs⟩, by simp⟩
    rw [hcons]
    obtain ⟨k', u, hkk', hu, hne, hskip', hreads'⟩ := @exec_skipSemicolons lib
      parseDuration _ _ _ hclosed hk (Nat.sub_le _ k)
    have hpeek' : peek.exec (standing toks k') = (.ok u, standing toks k') := exec_peek hu
    have hk' : k' < toks.length := (List.getElem?_eq_some_iff.mp hu).1
    rw [Prog.exec_bind_ok hst, Prog.exec_bind_ok hskip', Prog.exec_bind_ok hpeek'] at hround
    simp only [hreads']
    by_cases hueof : u.kind = .eof
    · simp only [reads_eof hu hueof]
      rw [if_pos hueof] at hround
      rw [loop_done hround]
      constructor
      · rintro ⟨_, ⟨⟩⟩
        exact ⟨[], rfl, (List.append_nil _).symm⟩
      · rintro ⟨_, rfl, rfl⟩
        exact ⟨_, by rw [List.map_nil, List.append_nil]⟩
    · rw [if_neg hueof] at hround
      have hpos : i < k' := hij.trans_lt (hjk.trans_le hkk')
      rw [loop_next hround hpos]
      exact ih hk' (by omega)

variable {src : Bytes} {sts : List Statement}

/-- What `Parse` returns. -/
theorem parse_iff : parse lib parseDuration src = .ok sts ↔ ∃ toks xs,
    tokenize lib src = .ok toks ∧ ReadsFrom lib parseDuration toks 0 xs ∧ sts = xs.map Prod.snd := by
  have hloop {toks : List Token} (htoks : tokenize lib src = .ok toks) :
      parse lib parseDuration src = .ok sts ↔
        ∃ xs, ReadsFrom lib parseDuration toks 0 xs ∧ sts = xs.map Prod.snd := by
    have hclosed := closed_of_tokenize lib src htoks
    have hlen := hclosed.length
    have hiff := (@exec_statements_iff lib parseDuration _ _ toks.length hclosed
      (show 0 < toks.length by omega) (Nat.sub_le _ _) [] sts)
    simp only [List.nil_append] at hiff
    rw [parse, htoks, ← hiff]
    constructor
    · exact fun h => ⟨_, Prod.ext h rfl⟩
    · rintro ⟨s', hrun⟩
      exact congrArg Prod.fst hrun
  rcases htoks : tokenize lib src with e | toks
  · constructor
    · intro h
      rw [parse, htoks] at h
      cases h
    · rintro ⟨toks, xs, ⟨⟩, -⟩
  · rw [hloop htoks]
    constructor
    · rintro ⟨xs, hxs⟩
      exact ⟨toks, xs, rfl, hxs⟩
    · rintro ⟨_, xs, ⟨⟩, hxs⟩
      exact ⟨xs, hxs⟩

end

end Ydbgo.Sql
