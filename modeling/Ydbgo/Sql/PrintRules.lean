import Ydbgo.Sql.PrintTokens
import Ydbgo.Sql.SplitRight

/-! # Reading tokens

What a parser returns for some tokens before another one, whatever their
positions are. The rules follow the parser step by step.
-/

namespace Ydbgo.Sql

open Tokens

/-- These tokens stand there. -/
def Stands (toks : List Token) (i : ℕ) (us : List Token) : Prop :=
  us <+: (toks.drop i).map Token.bare

/-- Before the token `v`, the parser reads the tokens `us` as `a`. -/
def Parses {α : Type} (m : Parser α) (us : List Token) (v : Token) (a : α) : Prop :=
  ∀ toks i, Stands toks i (us ++ [v]) →
    m.exec (standing toks i) = (.ok a, standing toks (i + us.length))

/-- The token is a keyword. -/
def Token.is (t : Token) (kw : String) : Bool := decide (t.kind = .ident) && equalFold t.text kw

variable {α β σ : Type} {toks us vs : List Token} {u v w : Token} {i n : ℕ} {m : Parser α}
  {f : α → Parser β} {a : α} {b : β} {kw : String} {lib : Stdlib} {name : Bytes}

/-! ### Where tokens stand -/

theorem Stands.head (h : Stands toks i (u :: us)) : ∃ p, toks[i]? = some { u with pos := p } := by
  obtain ⟨rest, hrest⟩ := h
  cases hdrop : toks.drop i with
  | nil =>
    rw [hdrop] at hrest
    cases hrest
  | cons t l =>
    rw [hdrop, List.map_cons, List.cons_append] at hrest
    obtain ⟨hu, -⟩ := List.cons.inj hrest
    have hget : toks[i]? = some t := by
      rw [← Nat.add_zero i, ← List.getElem?_drop, hdrop]
      rfl
    refine ⟨t.pos, hget.trans (congrArg some ?_)⟩
    rw [hu]
    rfl

theorem Stands.append (h : Stands toks i (us ++ vs)) : Stands toks (i + us.length) vs := by
  obtain ⟨rest, hrest⟩ := h
  refine ⟨rest, ?_⟩
  have hdrop := congrArg (List.drop us.length) hrest
  rwa [List.append_assoc, List.drop_left, ← List.map_drop, List.drop_drop] at hdrop

theorem Stands.left (h : Stands toks i (us ++ vs)) : Stands toks i us :=
  (List.prefix_append us vs).trans h

theorem Stands.tail (h : Stands toks i (u :: us)) : Stands toks (i + 1) us :=
  @Stands.append _ [u] _ _ h

theorem Stands.lt (h : Stands toks i (u :: us)) : i < toks.length := by
  obtain ⟨p, hp⟩ := h.head
  exact (List.getElem?_eq_some_iff.mp hp).1

theorem append_singleton_headD (vs : List Token) (v : Token) :
    ∃ rest, vs ++ [v] = vs.headD v :: rest := by
  cases vs with
  | nil => exact ⟨[], rfl⟩
  | cons w vs => exact ⟨vs ++ [v], rfl⟩

theorem Stands.first (h : Stands toks i (us ++ [v])) :
    ∃ p, toks[i]? = some { us.headD v with pos := p } := by
  obtain ⟨rest, hrest⟩ := append_singleton_headD us v
  rw [hrest] at h
  exact h.head

/-! ### Steps -/

theorem parses_pure : Parses (pure a) [] v a := fun _ _ _ => rfl

theorem parses_bind (h : Parses m us (vs.headD v) a) (hf : Parses (f a) vs v b) :
    Parses (m >>= f) (us ++ vs) v b := by
  intro toks i hs
  rw [List.append_assoc] at hs
  obtain ⟨rest, hrest⟩ := append_singleton_headD vs v
  have hfirst : Stands toks i (us ++ [vs.headD v]) := by
    rw [hrest, List.append_cons] at hs
    exact hs.left
  rw [Prog.exec_bind_ok (h toks i hfirst), hf toks _ hs.append, List.length_append, Nat.add_assoc]

/-- A parser that reads one token. -/
theorem parses_one (h : Parses m [u] (us.headD v) a) (hf : Parses (f a) us v b) :
    Parses (m >>= f) (u :: us) v b := parses_bind h hf

/-- A parser that reads nothing. -/
theorem parses_after (h : Parses m [] (us.headD v) a) (hf : Parses (f a) us v b) :
    Parses (m >>= f) us v b := parses_bind h hf

theorem parses_map {g : α → β} (h : Parses m us v a) :
    Parses (m >>= fun a => pure (g a)) us v (g a) := by
  have := parses_bind (f := fun a => pure (g a)) h parses_pure
  rwa [List.append_nil] at this

section Peek

variable {f : Token → Parser β}

theorem parses_peek (hf : ∀ p, Parses (f { us.headD v with pos := p }) us v b) :
    Parses (peek >>= f) us v b := by
  intro toks i hs
  obtain ⟨p, hp⟩ := hs.first
  rw [Prog.exec_bind_ok (exec_peek (s := standing toks i) hp)]
  exact hf p toks i hs

theorem parses_advance (hf : ∀ p, Parses (f { u with pos := p }) us v b) :
    Parses (advance >>= f) (u :: us) v b := by
  intro toks i hs
  obtain ⟨p, hp⟩ := hs.head
  obtain ⟨rest, hrest⟩ := append_singleton_headD us v
  have hlt : i + 1 < toks.length := by
    have htail : Stands toks (i + 1) (us ++ [v]) := hs.tail
    rw [hrest] at htail
    exact htail.lt
  rw [Prog.exec_bind_ok (exec_advance_standing hp hlt), hf p toks _ hs.tail, List.length_cons,
    Nat.add_assoc, Nat.add_comm 1]

/-- The token behind the next one. -/
theorem parses_peekAt (hf : ∀ p, Parses (f { us.headD v with pos := p }) (u :: us) v b) :
    Parses (peekAt 1 >>= f) (u :: us) v b := by
  intro toks i hs
  obtain ⟨p, hp⟩ := @Stands.first _ us _ _ hs.tail
  have hlt := (List.getElem?_eq_some_iff.mp hp).1
  have hrun : (peekAt 1).exec (standing toks i) =
      (.ok { us.headD v with pos := p }, standing toks i) := by
    change (if i + 1 < toks.length then itemAt ((i + 1 : ℕ) : ℤ)
      else itemAt ((toks.length : ℤ) - 1) : Parser Token).exec (standing toks i) = _
    rw [if_pos hlt]
    exact exec_itemAt hp
  rw [Prog.exec_bind_ok hrun]
  exact hf p toks i hs

theorem parses_peekAt_any (hf : ∀ t, Parses (f t) us v b) :
    Parses (peekAt 1 >>= f) us v b := by
  intro toks i hs
  obtain ⟨p, hp⟩ := hs.first
  have hne : (standing toks i).items ≠ [] := by
    rintro h
    have hnil : toks = [] := h
    rw [hnil] at hp
    cases hp
  obtain ⟨t, ht⟩ := exec_peekAt (k := 1) hne
  rw [Prog.exec_bind_ok ht]
  exact hf t toks i hs

theorem parses_expect {kind : TokKind} {what : String} (hu : u.kind = kind)
    (hf : ∀ p, Parses (f { u with pos := p }) us v b) :
    Parses (expect lib kind what >>= f) (u :: us) v b := by
  intro toks i hs
  obtain ⟨p, hp⟩ := hs.head
  have hrun : (expect lib kind what).exec (standing toks i) = advance.exec (standing toks i) := by
    unfold expect
    rw [Prog.exec_bind_ok (exec_peek (s := standing toks i) hp), if_pos hu]
  rw [Prog.exec_bind, hrun, ← Prog.exec_bind]
  exact parses_advance hf toks i hs

end Peek

section Keywords

variable {f : Bool → Parser β}

theorem parses_isKeyword (hf : Parses (f ((us.headD v).is kw)) us v b) :
    Parses (isKeyword kw >>= f) us v b := by
  intro toks i hs
  obtain ⟨p, hp⟩ := hs.first
  rw [Prog.exec_bind_ok (exec_isKeyword (s := standing toks i) hp)]
  exact hf toks i hs

theorem parses_accept (hu : u.is kw = true) (hf : Parses (f true) us v b) :
    Parses (acceptKeyword kw >>= f) (u :: us) v b := by
  have hrun : Parses (acceptKeyword kw) [u] (us.headD v) true := by
    refine parses_isKeyword ?_
    change Parses (if u.is kw = true then _ else _) _ _ _
    rw [if_pos hu]
    exact parses_advance fun _ => parses_pure
  exact parses_bind hrun hf

theorem parses_skip (hu : (us.headD v).is kw = false) (hf : Parses (f false) us v b) :
    Parses (acceptKeyword kw >>= f) us v b := by
  have hrun : Parses (acceptKeyword kw) [] (us.headD v) false := by
    refine parses_isKeyword ?_
    change Parses (if (us.headD v).is kw = true then _ else _) _ _ _
    rw [hu, if_neg Bool.false_ne_true]
    exact parses_pure
  exact parses_after hrun hf

variable {x y : Parser β}

theorem parses_then (hu : u.is kw = true) (h : Parses x us v b) :
    Parses (acceptKeyword kw >>= fun c => if c = true then x else y) (u :: us) v b :=
  parses_accept hu h

theorem parses_else (hu : (us.headD v).is kw = false) (h : Parses y us v b) :
    Parses (acceptKeyword kw >>= fun c => if c = true then x else y) us v b := by
  refine parses_skip hu ?_
  rw [if_neg Bool.false_ne_true]
  exact h

theorem parses_thenKeyword (hu : (us.headD v).is kw = true) (h : Parses x us v b) :
    Parses (isKeyword kw >>= fun c => if c = true then x else y) us v b := by
  refine parses_isKeyword ?_
  rw [if_pos hu]
  exact h

theorem parses_elseKeyword (hu : (us.headD v).is kw = false) (h : Parses y us v b) :
    Parses (isKeyword kw >>= fun c => if c = true then x else y) us v b := by
  refine parses_isKeyword ?_
  rw [hu, if_neg Bool.false_ne_true]
  exact h

end Keywords

/-! ### Names -/

theorem parses_identLower (h : IsName lib name) :
    Parses (identLower lib) [word name] v name := by
  have hall : Parses (identLower lib) [word name] v (lib.toLower name) :=
    parses_advance fun _ => parses_pure
  rwa [h.2] at hall

theorem parses_ident {what : String} (h : IsName lib name) :
    Parses (ident lib what) [word name] v name := by
  refine parses_peek fun p => ?_
  change Parses (if TokKind.ident = .ident then _ else _) _ _ _
  rw [if_pos rfl]
  exact parses_identLower h

/-! ### Loops -/

section Loops

variable {body : σ → Parser (Round σ β)} {s s' : σ}

theorem parses_loop_done (h : Parses (body s) us v (.done b)) :
    Parses (loop body (n + 1) s) us v b := fun toks i hs => loop_done (h toks i hs)

theorem parses_loop_next (h : Parses (body s) us (vs.headD v) (.next s')) (hus : us ≠ [])
    (hrest : Parses (loop body n s') vs v b) : Parses (loop body (n + 1) s) (us ++ vs) v b := by
  intro toks i hs
  rw [List.append_assoc] at hs
  obtain ⟨rest, hvs⟩ := append_singleton_headD vs v
  have hfirst : Stands toks i (us ++ [vs.headD v]) := by
    rw [hvs, List.append_cons] at hs
    exact hs.left
  have hpos : (standing toks i).pos < (standing toks (i + us.length)).pos :=
    Nat.lt_add_of_pos_right (List.length_pos_iff.mpr hus)
  rw [loop_next (h toks i hfirst) hpos, hrest toks _ hs.append, List.length_append, Nat.add_assoc]

end Loops

/-- A loop that reads items with commas between them. -/
theorem parses_rounds {γ : Type} {body : List α → Parser (Round (List α) (List α))}
    {g : γ → List Token} {r : γ → α} {cs : List γ} {items : List α}
    (hne : cs ≠ []) (hn : cs.length ≤ n)
    (hdone : ∀ c ∈ cs, ∀ items, Parses (body items) (g c) v (.done (items ++ [r c])))
    (hnext : ∀ c ∈ cs, ∀ items w,
      Parses (body items) (g c ++ [markToken .comma 44]) w (.next (items ++ [r c]))) :
    Parses (loop body n items) (commaTokens (cs.map g)) v (items ++ cs.map r) := by
  induction cs generalizing n items with
  | nil => exact absurd rfl hne
  | cons c cs ih =>
    obtain ⟨hc, hcs⟩ := List.forall_mem_cons.mp hdone
    obtain ⟨hc', hcs'⟩ := List.forall_mem_cons.mp hnext
    obtain _ | n := n
    · cases hn
    cases cs with
    | nil =>
      rw [List.map_singleton, List.map_singleton, commaTokens, List.intercalate_singleton]
      exact parses_loop_done (hc items)
    | cons d cs =>
      have htokens : commaTokens ((c :: d :: cs).map g) =
          g c ++ [markToken .comma 44] ++ commaTokens ((d :: cs).map g) := by
        rw [List.map_cons, List.map_cons, commaTokens, List.intercalate_cons_cons]
        rfl
      have hrest := @ih _ (items ++ [r c]) (List.cons_ne_nil _ _) (Nat.le_of_succ_le_succ hn) hcs
        hcs'
      rw [List.append_assoc] at hrest
      rw [htokens]
      exact parses_loop_next (hc' items _) (by simp) hrest

section Commas

variable {item : Parser α}

/-- The end of a round, behind its item. -/
def roundEnd (s : σ) (b : β) : Parser (Round σ β) := do
  let t ← peek
  if t.kind = .comma then do
    let _ ← advance
    return .next s
  else return .done b

theorem parses_comma {s : σ} {b : β} :
    Parses (roundEnd s b) [markToken .comma 44] v (.next s) := by
  refine parses_peek fun p => ?_
  change Parses (if TokKind.comma = .comma then _ else _) _ _ _
  rw [if_pos rfl]
  exact parses_advance fun _ => parses_pure

theorem parses_noComma {s : σ} {b : β} (hv : v.kind ≠ .comma) :
    Parses (roundEnd s b) [] v (.done b) := by
  refine parses_peek fun p => ?_
  change Parses (if v.kind = .comma then _ else _) _ _ _
  rw [if_neg hv]
  exact parses_pure

theorem parses_commaList {γ : Type} {g : γ → List Token} {r : γ → α} {cs : List γ}
    (hne : cs ≠ []) (hn : cs.length ≤ n) (hv : v.kind ≠ .comma)
    (h : ∀ c ∈ cs, ∀ w, w = markToken .comma 44 ∨ w = v → Parses item (g c) w (r c)) :
    Parses (commaList item n) (commaTokens (cs.map g)) v (cs.map r) := by
  refine @parses_rounds _ _ _ _ _ _ _ _ [] hne hn (fun c hc items => ?_) fun c hc items w => ?_
  · have hall : Parses (item >>= fun a => roundEnd (items ++ [a]) (items ++ [a])) (g c ++ []) v
        (.done (items ++ [r c])) := parses_bind (h c hc v (.inr rfl)) (parses_noComma hv)
    rwa [List.append_nil] at hall
  · exact parses_bind (h c hc _ (.inl rfl)) parses_comma

end Commas

end Ydbgo.Sql
