import Ydbgo.Sql.Reads
import Ydbgo.Sql.Split

/-! # A script in pieces

A statement that lies in a piece is read from the piece as from the script, with
one exception: behind `CREATE DATABASE` and behind the verbs of `KV` the parser
takes the next token for a name whatever it is, also the semicolon that ends the
piece. Such a name is another one in the piece.
-/

namespace Ydbgo.Sql

open Tokens

variable {lib : Stdlib} {parseDuration : Bytes → Option Int64}

/-! ### Names that are not checked -/

/-- The name that a statement has taken unchecked. -/
def takenName : Statement → Option Bytes
  | .createDatabase name => some name
  | .kvPut table _ _ => some table
  | .kvGet table _ => some table
  | .kvDelete table _ => some table
  | .kvScan table _ _ _ _ => some table
  | _ => none

section Names

variable {α : Type} {toks : List Token} {i n : ℕ} {t : Token} {st : Statement} {s s' : Tape Token}
  {x y : Parser α} {word : String}

theorem exec_isKeyword {kw : String} (ht : s.items[s.pos]? = some t) :
    (isKeyword kw).exec s = (.ok (decide (t.kind = .ident) && equalFold t.text kw), s) :=
  Prog.exec_bind_ok (exec_peek ht)

theorem exec_isKeyword_word (h : Word s.items s.pos word) :
    (isKeyword word).exec s = (.ok true, s) := by
  obtain ⟨t, ht, hkind, hfold⟩ := h
  rw [exec_isKeyword ht, hkind, hfold]
  rfl

/-- A word is no other word. -/
theorem exec_isKeyword_other (kw : String) (h : Word s.items s.pos word)
    (hne : (ascii word).map lowerAscii ≠ (ascii kw).map lowerAscii) :
    (isKeyword kw).exec s = (.ok false, s) := by
  obtain ⟨t, ht, -, hfold⟩ := h
  have hother : equalFold t.text kw = false := by
    rw [equalFold, eq_of_beq hfold]
    exact beq_eq_false_iff_ne.mpr hne
  rw [exec_isKeyword ht, hother, Bool.and_false]

theorem exec_else (kw : String) (h : Word s.items s.pos word)
    (hne : (ascii word).map lowerAscii ≠ (ascii kw).map lowerAscii) :
    (isKeyword kw >>= fun b => if b = true then x else y).exec s = y.exec s := by
  rw [Prog.exec_bind_ok (exec_isKeyword_other kw h hne)]
  rfl

theorem exec_word (h : Word s.items s.pos word) :
    (isKeyword word >>= fun b => if b = true then x else y).exec s = x.exec s := by
  rw [Prog.exec_bind_ok (exec_isKeyword_word h)]
  rfl

theorem exec_elseAccept (kw : String) (h : Word s.items s.pos word)
    (hne : (ascii word).map lowerAscii ≠ (ascii kw).map lowerAscii) :
    (acceptKeyword kw >>= fun b => if b = true then x else y).exec s = y.exec s := by
  have haccept : (acceptKeyword kw).exec s = (.ok false, s) := exec_else kw h hne
  rw [Prog.exec_bind_ok haccept]
  rfl

theorem length_standing (h : i < toks.length) :
    (standing toks i).items.length = (standing toks i).last + 1 := by
  change toks.length = toks.length - 1 + 1
  omega

theorem exec_advance_standing (ht : toks[i]? = some t) (hlt : i + 1 < toks.length) :
    advance.exec (standing toks i) = (.ok t, standing toks (i + 1)) :=
  exec_advance ht (length_standing (Nat.lt_of_succ_lt hlt)) (Nat.lt_sub_of_add_lt hlt)

theorem exec_acceptWord (h : Word toks i word) (hlt : i + 1 < toks.length) :
    (acceptKeyword word >>= fun b => if b = true then x else y).exec (standing toks i) =
      x.exec (standing toks (i + 1)) := by
  obtain ⟨t, ht, -⟩ := id h
  have haccept : (acceptKeyword word).exec (standing toks i) =
      (.ok true, standing toks (i + 1)) :=
    (exec_word (s := standing toks i) h).trans (Prog.exec_bind_ok (exec_advance_standing ht hlt))
  rw [Prog.exec_bind_ok haccept]
  rfl

/-- Behind the words the token is the name. -/
theorem takenName_of_exec {f : Bytes → Parser Statement}
    (hf : ∀ name, Returns (f name) fun st => takenName st = some name) (ht : toks[i]? = some t)
    (hrun : (identLower lib >>= f).exec (standing toks i) = (.ok st, s')) :
    takenName st = some (lib.toLower t.text) := by
  have hlt := (List.getElem?_eq_some_iff.mp ht).1
  obtain ⟨s₁, hadvance⟩ := exec_advance_any (s := standing toks i) ht (length_standing hlt)
  have hname : (identLower lib).exec (standing toks i) = (.ok (lib.toLower t.text), s₁) :=
    Prog.exec_bind_ok hadvance
  rw [Prog.exec_bind_ok hname] at hrun
  exact hf _ _ _ _ hrun

theorem takenName_parseCreate (hword : Word toks i "create") (hword' : Word toks (i + 1) "database")
    (ht : toks[i + 2]? = some t)
    (hrun : (parseCreate lib parseDuration n).exec (standing toks i) = (.ok st, s')) :
    takenName st = some (lib.toLower t.text) := by
  have hlt := (List.getElem?_eq_some_iff.mp ht).1
  obtain ⟨u, hu, -⟩ := id hword
  rw [parseCreate, Prog.exec_bind_ok (exec_advance_standing hu (Nat.lt_of_succ_lt hlt)),
    exec_acceptWord hword' hlt] at hrun
  exact takenName_of_exec (fun name => returns_pure rfl) ht hrun

theorem takenName_parseKV {verb : String} (hverb : verb ∈ ["put", "get", "delete", "scan"])
    (hword : Word toks i "kv") (hword' : Word toks (i + 1) verb) (ht : toks[i + 2]? = some t)
    (hrun : (parseKV lib).exec (standing toks i) = (.ok st, s')) :
    takenName st = some (lib.toLower t.text) := by
  have hlt := (List.getElem?_eq_some_iff.mp ht).1
  obtain ⟨u, hu, -⟩ := id hword
  rw [parseKV, Prog.exec_bind_ok (exec_advance_standing hu (Nat.lt_of_succ_lt hlt))] at hrun
  simp only [List.mem_cons, List.not_mem_nil, or_false] at hverb
  rcases hverb with rfl | rfl | rfl | rfl
  · rw [exec_acceptWord hword' hlt] at hrun
    refine takenName_of_exec (fun name => ?_) ht hrun
    exact returns_bind fun _ => returns_bind fun _ => returns_pure rfl
  · rw [exec_elseAccept "put" hword' (by decide), exec_acceptWord hword' hlt] at hrun
    exact takenName_of_exec (fun name => returns_bind fun _ => returns_pure rfl) ht hrun
  · rw [exec_elseAccept "put" hword' (by decide), exec_elseAccept "get" hword' (by decide),
      exec_acceptWord hword' hlt] at hrun
    exact takenName_of_exec (fun name => returns_bind fun _ => returns_pure rfl) ht hrun
  · rw [exec_elseAccept "put" hword' (by decide), exec_elseAccept "get" hword' (by decide),
      exec_elseAccept "delete" hword' (by decide), exec_acceptWord hword' hlt] at hrun
    refine takenName_of_exec (fun name => ?_) ht hrun
    exact returns_bind fun _ => returns_bind fun _ => returns_pure rfl

theorem takenName_parseStatement (h : TakesName toks i) (ht : toks[i + 2]? = some t)
    (hrun : (parseStatement lib parseDuration n).exec (standing toks i) = (.ok st, s')) :
    takenName st = some (lib.toLower t.text) := by
  rw [parseStatement] at hrun
  rcases h with ⟨hword, hword'⟩ | ⟨hword, verb, hverb, hword'⟩
  · have hat : Word (standing toks i).items (standing toks i).pos "create" := hword
    rw [exec_else "select" hat (by decide), exec_else "insert" hat (by decide),
      exec_else "update" hat (by decide), exec_else "delete" hat (by decide),
      exec_word hat] at hrun
    exact takenName_parseCreate hword hword' ht hrun
  · have hat : Word (standing toks i).items (standing toks i).pos "kv" := hword
    rw [exec_else "select" hat (by decide), exec_else "insert" hat (by decide),
      exec_else "update" hat (by decide), exec_else "delete" hat (by decide),
      exec_else "create" hat (by decide), exec_else "drop" hat (by decide),
      exec_elseAccept "begin" hat (by decide), exec_elseAccept "commit" hat (by decide),
      exec_elseAccept "rollback" hat (by decide), exec_word hat] at hrun
    exact takenName_parseKV hverb hword hword' ht hrun

end Names

/-! ### Statements of a piece -/

/-- The tokens on both sides are those of some text. -/
structure Piece.Sound (W : Piece) : Prop where
  script : Closed W.script (W.script.length - 1)
  tokens : Closed W.tokens (W.tokens.length - 1)
  text : ∀ t ∈ W.script, PlainText t
  text' : ∀ t ∈ W.tokens, PlainText t

section Pieces

variable {W : Piece} {i k : ℕ} {st : Statement} {xs : List (ℕ × Statement)}

theorem Piece.beside (W : Piece) (hi : i ≤ W.last) :
    W.Beside (standing W.script (W.off + i)) (standing W.tokens i) := by
  have hfits := W.fits
  constructor
  · rfl
  · rfl
  · change W.script.length - 1 + 1 = W.script.length
    omega
  · change W.tokens.length - 1 = W.last
    rw [W.length, Nat.add_sub_cancel]
  · rfl
  · exact hi

/-- What is read as a statement of the script is read as the same statement of the piece. -/
theorem exec_piece (hW : W.Sound) (hi : i ≤ W.last) (hname : NameInside W i)
    (hrun : (parseStatement lib parseDuration W.script.length).exec
      (standing W.script (W.off + i)) = (.ok st, standing W.script k)) :
    ∃ j, k = W.off + j ∧ j ≤ W.last ∧
      (parseStatement lib parseDuration W.tokens.length).exec (standing W.tokens i) =
        (.ok st, standing W.tokens j) := by
  have htwins : Twins W.Beside (· = i) (parseStatement lib parseDuration W.script.length)
      (parseStatement lib parseDuration W.tokens.length) := twins_parseStatement hname
  have hi' : i < W.tokens.length := W.length ▸ Nat.lt_succ_of_le hi
  have hends := @exec_parseStatement lib parseDuration _ _ _ hW.tokens hi'
    (Nat.le_refl _)
  cases htwins _ _ (W.beside hi) rfl with
  | fault h => cases hrun.symm.trans h
  | fault' h =>
    rcases hends with ⟨e, s', hst⟩ | ⟨st', j, hst, -⟩
    · cases hst.symm.trans h
    · cases hst.symm.trans h
  | refuse h => cases hrun.symm.trans h
  | ok h h' hQ =>
    cases hrun.symm.trans h
    obtain ⟨rfl, hbeside⟩ := hQ
    rcases hends with ⟨e, s', hst⟩ | ⟨st', j, hst, -⟩
    · cases hst.symm.trans h'
    · cases hst.symm.trans h'
      exact ⟨j, hbeside.pos, hbeside.le, hst⟩

theorem Word.of_inside {j : ℕ} {kw : String} (hj : j < W.last) :
    Word W.tokens j kw ↔ Word W.script (W.off + j) kw := by
  obtain ⟨t, p, ht, ht'⟩ := W.inside j hj
  simp only [Word, ht, ht', Option.some.injEq, exists_eq_left']

theorem takesName_piece (hi : i + 1 < W.last) :
    TakesName W.tokens i ↔ TakesName W.script (W.off + i) := by
  have hword {kw : String} := @Word.of_inside W _ kw (Nat.lt_of_succ_lt hi)
  have hword' {kw : String} := @Word.of_inside W _ kw hi
  simp only [TakesName, hword, hword', Nat.add_assoc]

/-- A name that is the semicolon at the end of the piece is empty in the piece. -/
theorem exec_piece_ne (hlower : lib.toLower [59] ≠ lib.toLower []) (hW : W.Sound)
    (hname : ¬ NameInside W i) {s s' : Tape Token} {st st' : Statement} {n n' : ℕ}
    (hrun : (parseStatement lib parseDuration n).exec (standing W.script (W.off + i)) =
      (.ok st, s))
    (hrun' : (parseStatement lib parseDuration n').exec (standing W.tokens i) = (.ok st', s')) :
    st ≠ st' := by
  simp only [NameInside, not_forall, not_or, not_not] at hname
  obtain ⟨htakes, hlast, hstop⟩ := hname
  obtain ⟨t, t', ht, ht', hkind, hkind', -⟩ := W.ends
  rw [← hlast] at ht ht'
  have hsemi : t.kind = .semicolon := by
    rcases W.stopKind with h | ⟨h, -⟩
    · exact hkind.trans h
    · exact absurd h hstop
  have htext := (hW.text t (List.mem_of_getElem? ht)).2 hsemi
  have htext' := (hW.text' t' (List.mem_of_getElem? ht')).1 hkind'
  have hname := takenName_parseStatement ((takesName_piece (by omega)).mp htakes)
    (by rwa [Nat.add_assoc]) hrun
  have hname' := takenName_parseStatement htakes ht' hrun'
  rintro rfl
  rw [htext] at hname
  rw [htext'] at hname'
  exact hlower (Option.some.inj (hname.symm.trans hname'))

/-- What the script reads from the start of the piece to its end. -/
inductive Passed (lib : Stdlib) (parseDuration : Bytes → Option Int64) (W : Piece) (i : ℕ)
    (xs : List (ℕ × Statement)) : Prop
  | same {ys zs} : xs = ys.map (Prod.map (W.off + ·) id) ++ zs →
    ReadsFrom lib parseDuration W.tokens i ys → ReadsFrom lib parseDuration W.script (W.off + W.last) zs →
    (∀ y ∈ ys, y.1 < W.last ∧ NameInside W y.1) → Passed lib parseDuration W i xs
  | other {k : ℕ} {st : Statement} : (W.off + k, st) ∈ xs → k < W.last → ¬ NameInside W k →
    (∀ ys, ReadsFrom lib parseDuration W.tokens i ys → ∀ zs : List Statement,
      ys.map Prod.snd ++ zs ≠ xs.map Prod.snd) → Passed lib parseDuration W i xs

theorem Passed.at_last (h : ReadsFrom lib parseDuration W.script (W.off + W.last) xs) :
    Passed lib parseDuration W W.last xs := by
  obtain ⟨-, t', -, ht', -, heof, -⟩ := W.ends
  exact @Passed.same _ _ _ _ _ [] _ rfl (.eof ht' heof) h fun _ hy => absurd hy List.not_mem_nil

theorem passed_semicolon {t : Token} (ht : W.tokens[i]? = some t) (hsemi : t.kind = .semicolon)
    (h : Passed lib parseDuration W (i + 1) xs) : Passed lib parseDuration W i xs := by
  cases h with
  | same hxs hys hzs hnames => exact .same hxs (.semicolon ht hsemi hys) hzs hnames
  | other hmem hk hname hne =>
    exact .other hmem hk hname fun ys hys => hne ys ((reads_semicolon ht hsemi).mp hys)

/-- Behind a statement that is the same in the piece. -/
theorem passed_statement {t : Token} {j : ℕ} (ht : W.tokens[i]? = some t) (heof : t.kind ≠ .eof)
    (hsemi : t.kind ≠ .semicolon) (hi : i < W.last) (hname : NameInside W i)
    (hst : (parseStatement lib parseDuration W.tokens.length).exec (standing W.tokens i) =
      (.ok st, standing W.tokens j)) (h : Passed lib parseDuration W j xs) :
    Passed lib parseDuration W i ((W.off + i, st) :: xs) := by
  cases h with
  | @same ys zs hxs hys hzs hnames =>
    refine @Passed.same _ _ _ _ _ ((i, st) :: ys) _ ?_ (.statement ht heof hsemi hst hys) hzs ?_
    · rw [hxs]
      rfl
    · exact List.forall_mem_cons.mpr ⟨⟨hi, hname⟩, hnames⟩
  | other hmem hk hname hne =>
    refine .other (List.mem_cons_of_mem _ hmem) hk hname fun ys hys zs heq => ?_
    obtain ⟨st', j', ys', rfl, hst', hys'⟩ := (reads_statement ht heof hsemi).mp hys
    cases hst.symm.trans hst'
    exact hne ys' hys' zs (List.cons_inj_right _ |>.mp heq)

/-- The statements of the script up to the end of the piece are those of the piece, or one of them
has another name there. -/
theorem ReadsFrom.passed (hlower : lib.toLower [59] ≠ lib.toLower []) (hW : W.Sound)
    (h : ReadsFrom lib parseDuration W.script (W.off + i) xs) (hi : i ≤ W.last) :
    Passed lib parseDuration W i xs := by
  generalize hidx : W.off + i = idx at h
  induction h generalizing i with
  | @eof idx t ht heof =>
    have hlast := (hW.script.eof idx ht).mp heof
    have hfits := W.fits
    obtain rfl : i = W.last := by omega
    exact .at_last (hidx ▸ .eof ht heof)
  | @semicolon idx t xs ht hsemi hrest ih =>
    subst hidx
    rcases Nat.lt_or_eq_of_le hi with hlt | rfl
    · obtain ⟨u, p, hu, hu'⟩ := W.inside i hlt
      cases hu.symm.trans ht
      exact passed_semicolon hu' hsemi (ih hlt rfl)
    · exact .at_last (.semicolon ht hsemi hrest)
  | @statement idx k t st xs ht heof hsemi hst hrest ih =>
    subst hidx
    rcases Nat.lt_or_eq_of_le hi with hlt | rfl
    · obtain ⟨u, p, hu, hu'⟩ := W.inside i hlt
      cases hu.symm.trans ht
      by_cases hname : NameInside W i
      · obtain ⟨j, rfl, hj, hst'⟩ := exec_piece hW hi hname hst
        exact passed_statement hu' heof hsemi hlt hname hst' (ih hj rfl)
      · refine .other (List.mem_cons_self ..) hlt hname fun ys hys zs heq => ?_
        obtain ⟨st', j, ys', rfl, hst', -⟩ := (reads_statement hu' heof hsemi).mp hys
        exact exec_piece_ne hlower hW hname hst hst' (List.cons.inj heq).1.symm
    · exact .at_last (.statement ht heof hsemi hst hrest)

end Pieces

end Ydbgo.Sql
