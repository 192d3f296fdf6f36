import Mathlib.Algebra.Group.Int.Defs
import Mathlib.Algebra.Group.Nat.Defs
import Mathlib.Data.List.Infix
import Mathlib.Tactic.Common
import Ydbgo.Lib.Bytes
import Ydbgo.Lib.Prog

/-! # Cursors

A cursor reads a buffer from the front to the back. Its first error sticks: from
then on a read gives nothing and takes nothing. A slice whose bounds are out of
order is a panic. A program on a cursor follows a parser of the rest of the
buffer if, where the lengths it meets are sound, it ends like the parser does,
and panics where they are not.
-/

namespace Ydbgo

/-- A buffer, the place of the next byte and the error of an earlier read. -/
structure Cursor (ε : Type) where
  buf : Bytes
  pos : ℕ
  err : Option ε

/-- A program that returns early returns an error, or it panics. -/
inductive Stop (ε : Type) where
  | error (e : ε)
  | panic
  deriving DecidableEq, Repr

namespace Cursor

variable {ε α β : Type}

abbrev Reads (ε α : Type) : Type := Prog (Cursor ε) (Stop ε) α

/-- A parser of bytes, `none` if it refuses them. -/
abbrev Parser (α : Type) : Type := StateT Bytes Option α

/-! ### Reads -/

def byte (fail : ε) : Reads ε UInt8 := fun c =>
  if c.err.isSome ∨ c.buf.length ≤ c.pos then (.ok 0, { c with err := some fail })
  else (.ok (c.buf.getD c.pos 0), { c with pos := c.pos + 1 })

/-- `buf[pos : pos+n]` where `pos+n > len(buf)` is an error, in 64-bit arithmetic. -/
def take (fail : ε) (n : Int64) : Reads ε Bytes := fun c =>
  let hi := Int64.ofNat c.pos + n
  if c.err.isSome ∨ Int64.ofNat c.buf.length < hi then (.ok [], { c with err := some fail })
  else if Int64.ofNat c.pos ≤ hi then
    (.ok ((c.buf.drop c.pos).take n.toInt.toNat), { c with pos := c.pos + n.toInt.toNat })
  else (.error .panic, c)

/-- `if r.err != nil` a decoder returns it. -/
def check : Reads ε Unit := fun c =>
  match c.err with
  | some e => (.error (.error e), c)
  | none => (.ok (), c)

/-- A loop of as many rounds as a count says. -/
def many (m : Reads ε α) : ℕ → Reads ε (List α)
  | 0 => pure []
  | n + 1 => do
    let a ← m
    let as ← many m n
    return a :: as

def byteParser : Parser UInt8
  | [] => none
  | b :: bs => some (b, bs)

def takeParser (n : Int64) : Parser Bytes := fun bs =>
  if 0 ≤ n.toInt ∧ n.toInt ≤ bs.length then some (bs.splitAt n.toInt.toNat) else none

def manyParser (r : Parser α) : ℕ → Parser (List α)
  | 0 => pure []
  | n + 1 => do
    let a ← r
    let as ← manyParser r n
    return a :: as

/-! ### Following a parser -/

/-- The cursor in front of these last bytes of the buffer. -/
def before (buf bs : Bytes) : Cursor ε := ⟨buf, buf.length - bs.length, none⟩

/-- The end is an error that is returned, or the cursor has one. -/
def Failed : Except (Stop ε) α × Cursor ε → Prop
  | (.ok _, c) => c.err.isSome
  | (.error e, _) => e ≠ .panic

/-- The bytes are the last of a buffer, whose length is an `int`. -/
structure Rest (buf bs : Bytes) : Prop where
  suffix : bs <:+ buf
  length : buf.length < 2 ^ 63

/-- The program reads what the parser reads. Where the parser refuses the rest of the buffer, the
program fails if `P` holds of the buffer's length and of that rest, and panics otherwise. -/
structure Follows (m : Reads ε α) (r : Parser α) (P : ℕ → Bytes → Prop) : Prop where
  reads : ∀ {buf bs}, Rest buf bs → ∀ {a rest}, r bs = some (a, rest) →
    rest <:+ bs ∧ P buf.length bs ∧ m.exec (before buf bs) = (.ok a, before buf rest)
  fails : ∀ {buf bs}, Rest buf bs → P buf.length bs → r bs = none → Failed (m.exec (before buf bs))
  panics : ∀ {buf bs}, Rest buf bs → ¬ P buf.length bs →
    (m.exec (before buf bs)).1 = .error .panic
  /-- Behind an error nothing is read. -/
  calm : ∀ c, c.err.isSome → Failed (m.exec c)

/-- The first parser's bytes are sound, and so is what is left for the second. -/
def Then (P : ℕ → Bytes → Prop) (r : Parser α) (Q : α → ℕ → Bytes → Prop) (n : ℕ) (bs : Bytes) :
    Prop :=
  P n bs ∧ ∀ a rest, r bs = some (a, rest) → Q a n rest

/-- Nothing in the bytes is unsound. -/
def Sound (_ : ℕ) (_ : Bytes) : Prop := True

/-- A length that is not negative and leads to a place whose number is an `int`. -/
def TakeSound (k : Int64) (n : ℕ) (bs : Bytes) : Prop :=
  0 ≤ k.toInt ∧ n - bs.length + k.toInt < 2 ^ 63

/-- Each of so many rounds is sound, as far as they are read. -/
def ManySound (P : ℕ → Bytes → Prop) (r : Parser α) : ℕ → ℕ → Bytes → Prop
  | 0 => Sound
  | k + 1 => Then P r fun _ => ManySound P r k

variable {m : Reads ε α} {r : Parser α} {P P' : ℕ → Bytes → Prop} {buf bs rest : Bytes} {a : α}

theorem Rest.of_suffix (h : Rest buf bs) (hs : rest <:+ bs) : Rest buf rest :=
  ⟨hs.trans h.suffix, h.length⟩

theorem Rest.le (h : Rest buf bs) : bs.length ≤ buf.length := h.suffix.length_le

theorem Rest.drop (h : Rest buf bs) : buf.drop (buf.length - bs.length) = bs :=
  (List.suffix_iff_eq_drop.mp h.suffix).symm

theorem Follows.congr (h : Follows m r P) (hp : ∀ n bs, P n bs ↔ P' n bs) : Follows m r P' := by
  obtain rfl : P = P' := by
    ext n bs
    exact hp n bs
  exact h

/-- A decoder panics on a buffer if and only if it is unsound. -/
theorem Follows.panics_iff (h : Follows m r P) (hr : Rest buf bs) :
    (m.exec (before buf bs)).1 = .error .panic ↔ ¬ P buf.length bs := by
  constructor
  · intro hpanic hp
    cases hread : r bs with
    | none =>
      have hfail := h.fails hr hp hread
      revert hpanic hfail
      match m.exec (before buf bs) with
      | (.ok a, c) => exact nofun
      | (.error e, c) => exact fun hpanic hfail => hfail (Except.error.inj hpanic)
    | some p =>
      obtain ⟨-, -, hexec⟩ := h.reads hr hread
      rw [hexec] at hpanic
      cases hpanic
  · exact h.panics hr

theorem Failed.bind {f : α → Reads ε β} {c : Cursor ε} (hm : Failed (m.exec c))
    (hf : ∀ a c, c.err.isSome → Failed ((f a).exec c)) : Failed ((m >>= f).exec c) := by
  rw [Prog.exec_bind]
  revert hm
  match m.exec c with
  | (.ok a, c') => exact fun h => hf a c' h
  | (.error e, c') => exact fun h => h

/-- What follows a panic is not run. -/
theorem exec_bind_of_panic {f : α → Reads ε β} {c : Cursor ε}
    (h : (m.exec c).1 = .error .panic) : ((m >>= f).exec c).1 = .error .panic := by
  rw [Prog.exec_bind]
  revert h
  match m.exec c with
  | (.ok a, c') => exact nofun
  | (.error e, c') => exact fun h => congrArg Except.error (Except.error.inj h)

theorem follows_pure (a : α) : Follows (pure a : Reads ε α) (pure a) Sound where
  reads := by
    rintro buf bs h _ rest ⟨⟩
    exact ⟨List.suffix_rfl, trivial, rfl⟩
  fails := by
    rintro buf bs h - ⟨⟩
  panics := fun _ h => absurd trivial h
  calm := fun _ h => h

/-- A decoder that starts with another one is sound where that one is, and behind it. -/
theorem Follows.bind {f : α → Reads ε β} {g : α → Parser β} {Q : α → ℕ → Bytes → Prop}
    (hm : Follows m r P) (hf : ∀ a, Follows (f a) (g a) (Q a)) :
    Follows (m >>= f) (r >>= g) (Then P r Q) where
  reads := by
    rintro buf bs h b rest' hb
    change (r bs).bind (fun p => g p.1 p.2) = _ at hb
    obtain ⟨⟨a, rest⟩, ha, hg⟩ := Option.bind_eq_some_iff.mp hb
    obtain ⟨hsuffix, hp, hexec⟩ := hm.reads h ha
    obtain ⟨hsuffix', hq, hexec'⟩ := (hf a).reads (h.of_suffix hsuffix) hg
    constructor
    · exact hsuffix'.trans hsuffix
    · constructor
      · constructor
        · exact hp
        · rintro a' rest₁ ha'
          obtain ⟨rfl, rfl⟩ := Prod.mk.inj (Option.some.inj (ha.symm.trans ha'))
          exact hq
      · rw [Prog.exec_bind_ok hexec, hexec']
  fails := by
    rintro buf bs h ⟨hp, hq⟩ hnone
    change (r bs).bind (fun p => g p.1 p.2) = none at hnone
    cases hr : r bs with
    | none => exact (hm.fails h hp hr).bind fun a c hc => (hf a).calm c hc
    | some p =>
      obtain ⟨a, rest⟩ := p
      obtain ⟨hsuffix, -, hexec⟩ := hm.reads h hr
      rw [hr] at hnone
      rw [Prog.exec_bind_ok hexec]
      exact (hf a).fails (h.of_suffix hsuffix) (hq a rest hr) hnone
  panics := by
    rintro buf bs h hnot
    by_cases hp : P buf.length bs
    · obtain ⟨a, rest, hr, hq⟩ : ∃ a rest, r bs = some (a, rest) ∧ ¬ Q a buf.length rest := by
        by_contra hall
        push Not at hall
        exact hnot ⟨hp, hall⟩
      obtain ⟨hsuffix, -, hexec⟩ := hm.reads h hr
      rw [Prog.exec_bind_ok hexec]
      exact (hf a).panics (h.of_suffix hsuffix) hq
    · exact exec_bind_of_panic (hm.panics h hp)
  calm := fun c hc => (hm.calm c hc).bind fun a c' hc' => (hf a).calm c' hc'

theorem Follows.map (f : α → β) (h : Follows m r P) :
    Follows (m >>= fun a => pure (f a)) (r >>= fun a => pure (f a)) P :=
  (h.bind fun a => follows_pure (f a)).congr fun _ _ => ⟨And.left, fun hp => ⟨hp, fun _ _ _ => trivial⟩⟩

/-- Rounds that are always sound are so together. -/
theorem manySound_of_forall (h : ∀ n bs, P n bs) (k n : ℕ) (bs : Bytes) : ManySound P r k n bs := by
  induction k generalizing bs with
  | zero => trivial
  | succ k ih => exact ⟨h n bs, fun _ rest _ => ih rest⟩

theorem follows_many (h : Follows m r P) (n : ℕ) :
    Follows (many m n) (manyParser r n) (ManySound P r n) := by
  induction n with
  | zero => exact follows_pure []
  | succ n ih => exact h.bind fun a => ih.map fun as => a :: as

/-! ### The reads of a cursor -/

theorem before_cons {b : UInt8} (h : Rest buf (b :: bs)) :
    (⟨buf, buf.length - (b :: bs).length + 1, none⟩ : Cursor ε) = before buf bs := by
  have hle := h.le
  rw [List.length_cons] at hle ⊢
  rw [before]
  congr 1
  omega

theorem follows_byte (fail : ε) : Follows (byte fail) byteParser Sound where
  reads := by
    rintro buf (_ | ⟨b, bs⟩) h a rest ⟨⟩
    have hle := h.le
    have hdrop := h.drop
    have hlt : buf.length - (b :: bs).length < buf.length := by
      rw [List.length_cons] at hle ⊢
      omega
    have hget : buf.getD (buf.length - (b :: bs).length) 0 = b := by
      rw [List.getD_eq_getElem?_getD, ← List.head?_drop, hdrop]
      rfl
    refine ⟨List.suffix_cons b bs, trivial, ?_⟩
    change (if _ then _ else _) = _
    rw [if_neg (by simpa [before] using hlt)]
    exact Prod.ext (congrArg Except.ok hget) (before_cons h)
  fails := by
    rintro buf (_ | ⟨b, bs⟩) h - hnone
    · change Failed (if _ then _ else _)
      rw [if_pos (Or.inr (by simp [before]))]
      rfl
    · cases hnone
  panics := fun _ h => absurd trivial h
  calm := by
    rintro c hc
    change Failed (if _ then _ else _)
    rw [if_pos (Or.inl hc)]
    rfl

theorem toInt_add_of_le {x n : Int64} (hx : 0 ≤ x.toInt) (hn : 0 ≤ n.toInt)
    (h : x.toInt + n.toInt < 2 ^ 63) : (x + n).toInt = x.toInt + n.toInt := by
  rw [Int64.toInt_add]
  exact Int.bmod_eq_of_le (by omega) (by omega)

theorem exec_take (fail : ε) (k : Int64) (c : Cursor ε) :
    (take fail k).exec c =
      if c.err.isSome ∨ Int64.ofNat c.buf.length < Int64.ofNat c.pos + k then
        (.ok [], { c with err := some fail })
      else if Int64.ofNat c.pos ≤ Int64.ofNat c.pos + k then
        (.ok ((c.buf.drop c.pos).take k.toInt.toNat), { c with pos := c.pos + k.toInt.toNat })
      else (.error .panic, c) :=
  rfl

theorem toInt_pos (h : Rest buf bs) :
    (Int64.ofNat (before buf bs : Cursor ε).pos).toInt = (buf.length - bs.length : ℕ) := by
  have hlen := h.length
  have hpos : (before buf bs : Cursor ε).pos = buf.length - bs.length := rfl
  rw [hpos]
  exact Int64.toInt_ofNat_of_lt (by omega)

theorem toInt_length (h : Rest buf bs) :
    (Int64.ofNat (before buf bs : Cursor ε).buf.length).toInt = buf.length :=
  Int64.toInt_ofNat_of_lt h.length

/-- A sound length does not leave the integers. -/
theorem toInt_pos_add (h : Rest buf bs) {k : Int64} (hk : TakeSound k buf.length bs) :
    (Int64.ofNat (before buf bs : Cursor ε).pos + k).toInt =
      (buf.length - bs.length : ℕ) + k.toInt := by
  obtain ⟨hk₀, hk₁⟩ := hk
  have hle := h.le
  have hpos := @toInt_pos ε _ _ h
  rw [toInt_add_of_le (by omega) hk₀ (by omega), hpos]

theorem takeParser_eq_some_iff {k : Int64} {p : Bytes × Bytes} : takeParser k bs = some p ↔
    (0 ≤ k.toInt ∧ k.toInt ≤ bs.length) ∧ p = (bs.take k.toInt.toNat, bs.drop k.toInt.toNat) := by
  rw [takeParser]
  by_cases hk : 0 ≤ k.toInt ∧ k.toInt ≤ bs.length
  · rw [if_pos hk, List.splitAt_eq, Option.some.injEq]
    exact ⟨fun h => ⟨hk, h.symm⟩, fun h => h.2.symm⟩
  · rw [if_neg hk]
    exact iff_of_false nofun fun h => hk h.1

theorem follows_take (fail : ε) (k : Int64) :
    Follows (take fail k) (takeParser k) (TakeSound k) where
  reads := by
    rintro buf bs h a rest hr
    obtain ⟨⟨hk₀, hk₁⟩, hp⟩ := takeParser_eq_some_iff.mp hr
    obtain ⟨rfl, rfl⟩ := Prod.mk.inj hp
    have hle := h.le
    have hlen := h.length
    have hsound : TakeSound k buf.length bs := ⟨hk₀, by omega⟩
    have hhi := @toInt_pos_add ε _ _ h _ hsound
    have hnot : ¬ ((before buf bs : Cursor ε).err.isSome ∨
        Int64.ofNat (before buf bs : Cursor ε).buf.length <
          Int64.ofNat (before buf bs : Cursor ε).pos + k) := by
      rintro (herr | hlt)
      · cases herr
      · rw [Int64.lt_iff_toInt_lt, toInt_length h, hhi] at hlt
        omega
    have hle' : Int64.ofNat (before buf bs : Cursor ε).pos ≤
        Int64.ofNat (before buf bs : Cursor ε).pos + k := by
      rw [Int64.le_iff_toInt_le, hhi, toInt_pos h]
      omega
    have hmove : (before buf bs : Cursor ε).pos + k.toInt.toNat =
        (before buf (bs.drop k.toInt.toNat) : Cursor ε).pos := by
      simp only [before, List.length_drop]
      omega
    have hdrop : (before buf bs : Cursor ε).buf.drop (before buf bs : Cursor ε).pos = bs := h.drop
    refine ⟨List.drop_suffix _ _, hsound, ?_⟩
    rw [exec_take, if_neg hnot, if_pos hle', hmove, hdrop]
    rfl
  fails := by
    rintro buf bs h hsound hr
    have hle := h.le
    have hnone : ¬ (0 ≤ k.toInt ∧ k.toInt ≤ bs.length) := by
      intro hk
      rw [takeParser_eq_some_iff.mpr ⟨hk, rfl⟩] at hr
      cases hr
    have hlt : Int64.ofNat (before buf bs : Cursor ε).buf.length <
        Int64.ofNat (before buf bs : Cursor ε).pos + k := by
      rw [Int64.lt_iff_toInt_lt, toInt_length h, toInt_pos_add h hsound]
      obtain ⟨hk₀, -⟩ := hsound
      omega
    rw [exec_take, if_pos (Or.inr hlt)]
    rfl
  panics := by
    rintro buf bs h hnot
    have hle := h.le
    have hlen := h.length
    have hk := k.toInt_lt
    have hk' := k.le_toInt
    have hpos := @toInt_pos ε _ _ h
    have hhi : (Int64.ofNat (before buf bs : Cursor ε).pos + k).toInt <
        (buf.length - bs.length : ℕ) := by
      rw [Int64.toInt_add, hpos]
      unfold TakeSound at hnot
      rw [Int.bmod_def]
      omega
    have hnotlt : ¬ ((before buf bs : Cursor ε).err.isSome ∨
        Int64.ofNat (before buf bs : Cursor ε).buf.length <
          Int64.ofNat (before buf bs : Cursor ε).pos + k) := by
      rintro (herr | hlt)
      · cases herr
      · rw [Int64.lt_iff_toInt_lt, toInt_length h] at hlt
        omega
    have hnotle : ¬ Int64.ofNat (before buf bs : Cursor ε).pos ≤
        Int64.ofNat (before buf bs : Cursor ε).pos + k := by
      rw [Int64.le_iff_toInt_le, hpos]
      omega
    rw [exec_take, if_neg hnotlt, if_neg hnotle]
  calm := by
    rintro c hc
    rw [exec_take, if_pos (Or.inl hc)]
    rfl

theorem follows_check : Follows (check : Reads ε Unit) (pure ()) Sound where
  reads := by
    rintro buf bs h a rest ⟨⟩
    exact ⟨List.suffix_rfl, trivial, rfl⟩
  fails := by
    rintro buf bs h - ⟨⟩
  panics := fun _ h => absurd trivial h
  calm := by
    rintro ⟨buf, pos, err⟩ hc
    cases err with
    | none => cases hc
    | some e => exact nofun

/-- A decoder that ends with the check of the error is sound where its reads are. -/
theorem Follows.checked (f : α → β) (h : Follows m r P) :
    Follows (m >>= fun a => check >>= fun _ => pure (f a)) (r >>= fun a => pure (f a)) P :=
  (h.bind fun a => follows_check.map fun _ => f a).congr fun _ _ =>
    ⟨And.left, fun hp => ⟨hp, fun _ _ _ => trivial⟩⟩

theorem exec_check {c : Cursor ε} (h : c.err = none) : check.exec c = (.ok (), c) := by
  obtain ⟨buf, pos, err⟩ := c
  obtain rfl : err = none := h
  rfl

/-- Behind a failure nothing but the error is returned. -/
theorem exec_check_bind {c : Cursor ε} {f : β → Reads ε α} {m : Reads ε β} (h : Failed (m.exec c)) :
    ∃ e, ((m >>= fun b => check >>= fun _ => f b).exec c).1 = .error (.error e) := by
  rw [Prog.exec_bind]
  revert h
  match m.exec c with
  | (.ok b, ⟨buf, pos, some e⟩) => exact fun _ => ⟨e, rfl⟩
  | (.ok b, ⟨buf, pos, none⟩) => exact nofun
  | (.error (.error e), c') => exact fun _ => ⟨e, rfl⟩
  | (.error .panic, c') => exact fun h => absurd rfl h

end Cursor

end Ydbgo
