import Ydbgo.Lib.Cursor

/-! # Cut buffers

What a program does on a cursor whose buffer is cut: if it reads the whole
buffer up to some place, it reads a buffer that is cut behind that place alike,
and it fails on one that is cut before.
-/

namespace Ydbgo.Cursor

variable {ε α β : Type}

/-- The same place in the first `k` bytes of the buffer. -/
def cut (k : ℕ) (c : Cursor ε) : Cursor ε := { c with buf := c.buf.take k }

/-- The program takes these bytes off the rest of any buffer and gives this value. -/
def Takes (m : Reads ε α) (bs : Bytes) (a : α) : Prop :=
  ∀ buf rest, Rest buf (bs ++ rest) → m.exec (before buf (bs ++ rest)) = (.ok a, before buf rest)

/-- The program reads without an error from the one place to the other. -/
structure From (m : Reads ε α) (c : Cursor ε) (a : α) (c' : Cursor ε) : Prop where
  exec : m.exec c = (.ok a, c')
  err : c.err = none
  err' : c'.err = none
  inside : c.pos ≤ c.buf.length
  length : c.buf.length < 2 ^ 63

/-- On a cursor without an error the program reads a cut buffer as far as it goes. -/
structure CutsOk (m : Reads ε α) : Prop where
  moves : ∀ {c a c'}, From m c a c' → c.pos ≤ c'.pos ∧ c'.pos ≤ c.buf.length ∧ c'.buf = c.buf
  keeps : ∀ {c a c' k}, From m c a c' → c'.pos ≤ k → m.exec (c.cut k) = (.ok a, c'.cut k)
  fails : ∀ {c a c' k}, From m c a c' → c.pos ≤ k → k < c'.pos → Failed (m.exec (c.cut k))

/-- Behind an error it reads nothing. -/
structure Cuts (m : Reads ε α) : Prop extends CutsOk m where
  calm : ∀ c, c.err.isSome → Failed (m.exec c)

variable {m : Reads ε α} {bs bs' buf rest : Bytes} {a : α} {c c' : Cursor ε} {k : ℕ}

/-! ### Bytes that are taken -/

theorem takes_pure (a : α) : Takes (pure a : Reads ε α) [] a := fun _ _ _ => rfl

theorem Takes.bind {f : α → Reads ε β} {b : β} (hm : Takes m bs a) (hf : Takes (f a) bs' b) :
    Takes (m >>= f) (bs ++ bs') b := by
  intro buf rest h
  rw [List.append_assoc] at h ⊢
  rw [Prog.exec_bind_ok (hm _ _ h)]
  exact hf _ _ (h.of_suffix (List.suffix_append bs _))

theorem Takes.map (f : α → β) (h : Takes m bs a) : Takes (m >>= fun a => pure (f a)) bs (f a) := by
  have hbind := h.bind (f := fun a => pure (f a)) (takes_pure (f a))
  rwa [List.append_nil] at hbind

theorem takes_many {γ : Type} {enc : γ → Bytes} {f : γ → α} {as : List γ}
    (h : ∀ a ∈ as, Takes m (enc a) (f a)) : Takes (many m as.length) (as.flatMap enc) (as.map f) := by
  induction as with
  | nil => exact takes_pure []
  | cons a as ih =>
    obtain ⟨ha, has⟩ := List.forall_mem_cons.mp h
    exact ha.bind ((ih has).map fun bs => f a :: bs)

theorem takes_check : Takes (check : Reads ε Unit) [] () := fun _ _ _ => rfl

/-- What a parser takes off any bytes, a program that follows it takes. -/
theorem Follows.takes {r : Parser α} {P : ℕ → Bytes → Prop} (h : Follows m r P)
    (hr : ∀ rest, r (bs ++ rest) = some (a, rest)) : Takes m bs a := by
  intro buf rest hrest
  obtain ⟨-, -, hexec⟩ := h.reads hrest (hr rest)
  exact hexec

/-! ### Programs that can be cut -/

theorem From.bind_inv {f : α → Reads ε β} {b : β} (h : From (m >>= f) c b c') (hm : ∀ {a c'},
    From m c a c' → c'.pos ≤ c.buf.length ∧ c'.buf = c.buf) (hf : ∀ a c, c.err.isSome → Failed ((f a).exec c)) :
    ∃ a c₁, From m c a c₁ ∧ From (f a) c₁ b c' := by
  have hexec := h.exec
  rw [Prog.exec_bind] at hexec
  cases hc : m.exec c with
  | mk r c₁ =>
    rw [hc] at hexec
    cases r with
    | error e => cases hexec
    | ok a =>
      change (f a).exec c₁ = _ at hexec
      have herr : c₁.err = none := by
        by_contra hne
        have hfail := hf a c₁ (Option.isSome_iff_ne_none.mpr hne)
        rw [hexec] at hfail
        have hsome : c'.err.isSome := hfail
        rw [h.err'] at hsome
        cases hsome
      have hfirst : From m c a c₁ := ⟨hc, h.err, herr, h.inside, h.length⟩
      obtain ⟨hinside, hbuf⟩ := hm hfirst
      have hlen := h.length
      rw [← hbuf] at hinside hlen
      exact ⟨a, c₁, hfirst, hexec, herr, h.err', hinside, hlen⟩

theorem cuts_pure (a : α) : Cuts (pure a : Reads ε α) where
  moves := by
    rintro c a c' ⟨h, -, -, hinside, -⟩
    cases h
    exact ⟨le_rfl, hinside, rfl⟩
  keeps := by
    rintro c a c' k ⟨h, -, -, -, -⟩ -
    cases h
    rfl
  fails := by
    rintro c a c' k ⟨h, -, -, -, -⟩ hle hlt
    cases h
    omega
  calm := fun _ h => h

theorem cutsOk_throw (e : Stop ε) : CutsOk (throw e : Reads ε α) where
  moves := by
    rintro c a c' ⟨h, -, -, -, -⟩
    cases h
  keeps := by
    rintro c a c' k ⟨h, -, -, -, -⟩
    cases h
  fails := by
    rintro c a c' k ⟨h, -, -, -, -⟩
    cases h

theorem cuts_throw (e : ε) : Cuts (throw (.error e) : Reads ε α) where
  toCutsOk := cutsOk_throw _
  calm := fun _ _ => nofun

theorem CutsOk.bind {f : α → Reads ε β} (hm : CutsOk m) (hf : ∀ a, Cuts (f a)) :
    CutsOk (m >>= f) where
  moves := by
    intro c b c' h
    obtain ⟨a, c₁, h₁, h₂⟩ := h.bind_inv (fun h => (hm.moves h).2) fun a => (hf a).calm
    obtain ⟨hle, -, hbuf⟩ := hm.moves h₁
    obtain ⟨hle', hinside, hbuf'⟩ := (hf a).moves h₂
    rw [hbuf] at hinside hbuf'
    exact ⟨hle.trans hle', hinside, hbuf'⟩
  keeps := by
    intro c b c' k h hk
    obtain ⟨a, c₁, h₁, h₂⟩ := h.bind_inv (fun h => (hm.moves h).2) fun a => (hf a).calm
    obtain ⟨hle, -⟩ := (hf a).moves h₂
    rw [Prog.exec_bind_ok (hm.keeps h₁ (hle.trans hk))]
    exact (hf a).keeps h₂ hk
  fails := by
    intro c b c' k h hle hlt
    obtain ⟨a, c₁, h₁, h₂⟩ := h.bind_inv (fun h => (hm.moves h).2) fun a => (hf a).calm
    by_cases hk : k < c₁.pos
    · exact (hm.fails h₁ hle hk).bind fun a c hc => (hf a).calm c hc
    · rw [Prog.exec_bind_ok (hm.keeps h₁ (Nat.le_of_not_lt hk))]
      exact (hf a).fails h₂ (Nat.le_of_not_lt hk) hlt

theorem Cuts.bind {f : α → Reads ε β} (hm : Cuts m) (hf : ∀ a, Cuts (f a)) : Cuts (m >>= f) where
  toCutsOk := hm.toCutsOk.bind hf
  calm := fun c hc => (hm.calm c hc).bind fun a c' hc' => (hf a).calm c' hc'

theorem Cuts.map (f : α → β) (h : Cuts m) : Cuts (m >>= fun a => pure (f a)) :=
  h.bind fun a => cuts_pure (f a)

theorem Cuts.many (h : Cuts m) (n : ℕ) : Cuts (many m n) := by
  induction n with
  | zero => exact cuts_pure []
  | succ n ih => exact h.bind fun a => ih.map fun as => a :: as

theorem cuts_check : Cuts (check : Reads ε Unit) where
  moves := by
    rintro ⟨buf, pos, _ | e⟩ a c' ⟨h, -, -, hinside, -⟩
    · cases h
      exact ⟨le_rfl, hinside, rfl⟩
    · cases h
  keeps := by
    rintro ⟨buf, pos, _ | e⟩ a c' k ⟨h, -, -, -, -⟩ -
    · cases h
      rfl
    · cases h
  fails := by
    rintro ⟨buf, pos, _ | e⟩ a c' k ⟨h, -, -, -, -⟩ hle hlt
    · cases h
      exact absurd hle (Nat.not_le.mpr hlt)
    · cases h
  calm := follows_check.calm

/-- Behind the check of the error there is none. -/
theorem CutsOk.behind_check (h : CutsOk m) : Cuts (check >>= fun _ => m) := by
  have hok {c : Cursor ε} (herr : c.err = none) : (check >>= fun _ => m).exec c = m.exec c :=
    Prog.exec_bind_ok (exec_check herr)
  have hfrom {c : Cursor ε} {a : α} {c' : Cursor ε} (hc : From (check >>= fun _ => m) c a c') :
      From m c a c' := ⟨(hok hc.err).symm.trans hc.exec, hc.err, hc.err', hc.inside, hc.length⟩
  constructor
  case toCutsOk =>
    constructor
    case moves => exact fun hc => h.moves (hfrom hc)
    case keeps =>
      intro c a c' k hc hk
      have hcut : (c.cut k).err = none := hc.err
      rw [hok hcut]
      exact h.keeps (hfrom hc) hk
    case fails =>
      intro c a c' k hc hk hlt
      have hcut : (c.cut k).err = none := hc.err
      rw [hok hcut]
      exact h.fails (hfrom hc) hk hlt
  case calm =>
    rintro ⟨buf, pos, _ | e⟩ hc
    · cases hc
    · exact nofun

theorem Cuts.ite {p : Prop} [Decidable p] {m' : Reads ε α} (h : p → Cuts m) (h' : ¬ p → Cuts m') :
    Cuts (if p then m else m') := by
  split
  · next hp => exact h hp
  · next hp => exact h' hp

/-- A cut behind what is read changes nothing. -/
theorem CutsOk.cut_after (h : CutsOk m) (ht : Takes m bs a) (hr : Rest buf (bs ++ rest))
    (hk : buf.length - rest.length ≤ k) :
    m.exec ((before buf (bs ++ rest)).cut k) = (.ok a, (before buf rest).cut k) :=
  h.keeps ⟨ht _ _ hr, rfl, rfl, Nat.sub_le _ _, hr.length⟩ hk

/-- A cut within what is read makes the program fail. -/
theorem CutsOk.cut_within (h : CutsOk m) (ht : Takes m bs a) (hr : Rest buf (bs ++ rest))
    (hk : buf.length - (bs ++ rest).length ≤ k) (hlt : k < buf.length - rest.length) :
    Failed (m.exec ((before buf (bs ++ rest)).cut k)) :=
  h.fails ⟨ht _ _ hr, rfl, rfl, Nat.sub_le _ _, hr.length⟩ hk hlt

/-! ### Parsers of cut bytes -/

/-- More input behind the bytes that a parser takes is left over. -/
def Extends (r : Parser α) : Prop :=
  ∀ {bs a rest}, r bs = some (a, rest) → ∀ more, r (bs ++ more) = some (a, rest ++ more)

/-- The parser takes the same off the bytes it needs, however many there are behind. -/
def Local (r : Parser α) : Prop :=
  ∀ {bs a rest}, r bs = some (a, rest) → ∀ j, bs.length ≤ rest.length + j →
    r (bs.take j) = some (a, rest.take (j + rest.length - bs.length))

theorem eq_before (h : c.err = none) (hinside : c.pos ≤ c.buf.length) :
    c = before c.buf (c.buf.drop c.pos) := by
  obtain ⟨buf, pos, err⟩ := c
  obtain rfl : err = none := h
  change pos ≤ buf.length at hinside
  have hpos : buf.length - (buf.drop pos).length = pos := by
    rw [List.length_drop]
    omega
  rw [before, hpos]

theorem cut_eq_before (h : c.err = none) (hk : c.pos ≤ k) (hinside : c.pos ≤ c.buf.length) :
    c.cut k = before (c.buf.take k) ((c.buf.drop c.pos).take (k - c.pos)) := by
  have hinside' : (c.cut k).pos ≤ (c.cut k).buf.length := by
    simp only [cut, List.length_take]
    omega
  rw [eq_before (c := c.cut k) h hinside']
  simp only [cut, List.drop_take]

/-- A program that follows a parser can be cut where the parser can. -/
theorem Follows.cuts {r : Parser α} {P : ℕ → Bytes → Prop} (h : Follows m r P) (hext : Extends r)
    (hlocal : Local r) (hsound : ∀ {n} {bs : Bytes}, bs.length ≤ n → P n bs → ∀ j ≤ bs.length,
      P (n - bs.length + j) (bs.take j)) : Cuts m := by
  have hfrom {c : Cursor ε} {a : α} {c' : Cursor ε} (hc : From m c a c') : ∃ rest,
      rest <:+ c.buf.drop c.pos ∧ P c.buf.length (c.buf.drop c.pos) ∧
        r (c.buf.drop c.pos) = some (a, rest) ∧ c' = before c.buf rest := by
    have hexec := hc.exec
    have hrest : Rest c.buf (c.buf.drop c.pos) := ⟨List.drop_suffix _ _, hc.length⟩
    rw [eq_before hc.err hc.inside] at hexec
    cases hr : r (c.buf.drop c.pos) with
    | none =>
      by_cases hp : P c.buf.length (c.buf.drop c.pos)
      · have hfail := h.fails hrest hp hr
        rw [hexec] at hfail
        have hsome : c'.err.isSome := hfail
        rw [hc.err'] at hsome
        cases hsome
      · have hpanic := h.panics hrest hp
        rw [hexec] at hpanic
        cases hpanic
    | some p =>
      obtain ⟨b, rest⟩ := p
      obtain ⟨hsuffix, hp, hexec'⟩ := h.reads hrest hr
      rw [hexec] at hexec'
      obtain ⟨hab, rfl⟩ := Prod.mk.inj hexec'
      obtain rfl := Except.ok.inj hab
      exact ⟨rest, hsuffix, hp, rfl, rfl⟩
  have hcut {c : Cursor ε} {a : α} {c' : Cursor ε} (hc : From m c a c') (k : ℕ) :
      Rest (c.buf.take k) ((c.buf.drop c.pos).take (k - c.pos)) := by
    constructor
    · rw [← List.drop_take]
      exact List.drop_suffix _ _
    · have hlen := hc.length
      rw [List.length_take]
      omega
  refine ⟨⟨?moves, ?keeps, ?fails⟩, h.calm⟩
  case moves =>
    intro c a c' hc
    obtain ⟨rest, hsuffix, -, -, rfl⟩ := hfrom hc
    have hle := hsuffix.length_le
    have hinside := hc.inside
    rw [List.length_drop] at hle
    exact ⟨by simp only [before]; omega, Nat.sub_le _ _, rfl⟩
  case keeps =>
    intro c a c' k hc hk
    obtain ⟨rest, hsuffix, -, hr, rfl⟩ := hfrom hc
    have hle := hsuffix.length_le
    have hinside := hc.inside
    rw [List.length_drop] at hle
    change c.buf.length - rest.length ≤ k at hk
    have hread := hlocal hr (k - c.pos) (by rw [List.length_drop]; omega)
    obtain ⟨-, -, hexec⟩ := h.reads (hcut hc k) hread
    rw [cut_eq_before hc.err (by omega) hinside, hexec, List.length_drop]
    congr 2
    simp only [before, cut, List.length_take]
    congr 1
    omega
  case fails =>
    intro c a c' k hc hk hlt
    obtain ⟨rest, hsuffix, hp, hr, rfl⟩ := hfrom hc
    have hinside := hc.inside
    change k < c.buf.length - rest.length at hlt
    have hnone : r ((c.buf.drop c.pos).take (k - c.pos)) = none := by
      cases hcutr : r ((c.buf.drop c.pos).take (k - c.pos)) with
      | none => rfl
      | some p =>
        obtain ⟨b, rest'⟩ := p
        have hfull := hext hcutr ((c.buf.drop c.pos).drop (k - c.pos))
        rw [List.take_append_drop, hr] at hfull
        obtain ⟨-, rfl⟩ := Prod.mk.inj (Option.some.inj hfull)
        simp only [List.length_append, List.length_drop] at hlt
        omega
    have hle : k - c.pos ≤ (c.buf.drop c.pos).length := by
      rw [List.length_drop]
      omega
    have hp' := hsound (List.drop_suffix _ _).length_le hp (k - c.pos) hle
    have hlen : c.buf.length - (c.buf.drop c.pos).length + (k - c.pos) = (c.buf.take k).length := by
      rw [List.length_drop, List.length_take]
      rw [List.length_drop] at hle
      omega
    rw [hlen] at hp'
    rw [cut_eq_before hc.err hk hinside]
    exact h.fails (hcut hc k) hp' hnone

/-! ### The reads of a cursor -/

theorem extends_byte : Extends byteParser := by
  rintro (_ | ⟨b, bs⟩) a rest ⟨⟩ more
  rfl

theorem extends_take (k : Int64) : Extends (takeParser k) := by
  rintro bs a rest h more
  obtain ⟨⟨hk₀, hk₁⟩, hp⟩ := takeParser_eq_some_iff.mp h
  obtain ⟨rfl, rfl⟩ := Prod.mk.inj hp
  have hle : k.toInt.toNat ≤ bs.length := by omega
  apply takeParser_eq_some_iff.mpr
  rw [List.take_append_of_le_length hle, List.drop_append_of_le_length hle, List.length_append]
  exact ⟨⟨hk₀, by omega⟩, rfl⟩

theorem local_byte : Local byteParser := by
  rintro (_ | ⟨b, bs⟩) a rest ⟨⟩ j hj
  obtain ⟨j, rfl⟩ : ∃ i, j = i + 1 := ⟨j - 1, by rw [List.length_cons] at hj; omega⟩
  rw [List.take_succ_cons, byteParser, List.length_cons]
  congr 3
  omega

theorem cuts_byte (fail : ε) : Cuts (byte fail) :=
  (follows_byte fail).cuts extends_byte local_byte fun _ _ _ _ => trivial

theorem local_take (n : Int64) : Local (takeParser n) := by
  rintro bs a rest h j hj
  obtain ⟨⟨hn₀, hn₁⟩, hp⟩ := takeParser_eq_some_iff.mp h
  obtain ⟨rfl, rfl⟩ := Prod.mk.inj hp
  rw [List.length_drop] at hj
  apply takeParser_eq_some_iff.mpr
  rw [List.length_take, List.take_take, List.drop_take, List.length_drop]
  refine ⟨⟨hn₀, by omega⟩, ?_⟩
  congr 2 <;> omega

theorem cuts_take (fail : ε) (n : Int64) : Cuts (take fail n) := by
  apply (follows_take fail n).cuts (extends_take n) (local_take n)
  rintro m bs hle ⟨hn₀, hn₁⟩ j hj
  constructor
  · exact hn₀
  · rw [List.length_take]
    omega

/-- A slice that is not taken is empty. -/
theorem exec_take_of_failed {fail : ε} {n : Int64} (h : Failed ((take fail n).exec c)) :
    (take fail n).exec c = (.ok [], { c with err := some fail }) := by
  rw [exec_take] at h ⊢
  split at h
  · next hshort => rw [if_pos hshort]
  · next hlong =>
    split at h
    · exact absurd (Or.inl h) hlong
    · exact absurd rfl h

end Ydbgo.Cursor
