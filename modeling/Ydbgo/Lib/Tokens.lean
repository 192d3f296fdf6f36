import Mathlib.Data.Int.Notation
import Mathlib.Data.Nat.Notation
import Ydbgo.Lib.Prog

/-! # Scanning a sequence

A scanner moves a position over a sequence. What it must never do is a fault: to
index outside the sequence, to move the position outside its range, to go into
another round of a loop without having moved on, and to run out of rounds. The
rules bound how far a scanner moves on, and with it what it may still need.
-/

namespace Ydbgo.Tokens

inductive Fault where
  | index
  | position
  | stuck
  | fuel
  deriving DecidableEq, Repr

/-- A scanner stops with an error that it returns, or at a fault. -/
inductive Halt (ε : Type) where
  | error (e : ε)
  | fault (f : Fault)
  deriving DecidableEq, Repr

/-- A sequence, a position and the last position there may be. -/
structure Tape (τ : Type) where
  items : List τ
  pos : ℕ
  last : ℕ

abbrev Scan (τ ε α : Type) : Type := Prog (Tape τ) (Halt ε) α

variable {τ ε α β σ : Type}

def refuse (e : ε) : Scan τ ε α := throw (.error e)

def fault (f : Fault) : Scan τ ε α := throw (.fault f)

/-- `items[i]`. -/
def itemAt (i : ℤ) : Scan τ ε τ := do
  let s ← get
  match if 0 ≤ i then s.items[i.toNat]? else none with
  | some t => return t
  | none => fault .index

/-- `items[lo:hi]`. -/
def itemsFrom (lo hi : ℕ) : Scan τ ε (List τ) := do
  let s ← get
  if lo ≤ hi ∧ hi ≤ s.items.length then return (s.items.take hi).drop lo else fault .index

def moveTo (i : ℤ) : Scan τ ε Unit := do
  let s ← get
  if 0 ≤ i ∧ i ≤ s.last then modify fun s => { s with pos := i.toNat } else fault .position

/-- How a round of a loop ends: there is another one, or the loop is left. -/
inductive Round (σ β : Type) where
  | next (s : σ)
  | done (b : β)

def loop (body : σ → Scan τ ε (Round σ β)) : ℕ → σ → Scan τ ε β
  | 0, _ => fault .fuel
  | n + 1, a => do
    let before ← get
    match ← body a with
    | .done b => return b
    | .next a => do
      let after ← get
      if before.pos < after.pos then loop body n a else fault .stuck

/-! ### How a scanner ends -/

/-- The scanner returns an error, or a value at a state with `Q`; it meets no fault. -/
def Proceeds (m : Scan τ ε α) (s : Tape τ) (Q : α → Tape τ → Prop) : Prop :=
  match m.exec s with
  | (.ok a, s') => Q a s'
  | (.error (.error _), _) => True
  | (.error (.fault _), _) => False

section Proceeds

variable {m : Scan τ ε α} {f : α → Scan τ ε β} {s s' s'' : Tape τ} {Q Q' : α → Tape τ → Prop}

theorem proceeds_pure {a : α} : Proceeds (pure a : Scan τ ε α) s Q ↔ Q a s := Iff.rfl

theorem proceeds_refuse (e : ε) : Proceeds (refuse e : Scan τ ε α) s Q := trivial

theorem proceeds_get {Q : Tape τ → Tape τ → Prop} :
    Proceeds (get : Scan τ ε _) s Q ↔ Q s s := Iff.rfl

theorem proceeds_bind {Q : β → Tape τ → Prop} :
    Proceeds (m >>= f) s Q ↔ Proceeds m s fun a s' => Proceeds (f a) s' Q := by
  unfold Proceeds
  rw [Prog.exec_bind]
  rcases m.exec s with ⟨(_ | _) | a, s'⟩ <;> rfl

theorem Proceeds.mono (h : Proceeds m s Q) (hQ : ∀ a s', Q a s' → Q' a s') : Proceeds m s Q' := by
  unfold Proceeds at h ⊢
  revert h
  rcases m.exec s with ⟨(_ | _) | a, s'⟩
  · exact id
  · exact id
  · exact hQ a s'

/-- A scanner that ends well and does not return an error returns a value. -/
theorem Proceeds.of_ok {a : α} (h : Proceeds m s Q) (hm : m.exec s = (.ok a, s')) : Q a s' := by
  unfold Proceeds at h
  rwa [hm] at h

theorem Proceeds.ne_fault (h : Proceeds m s Q) (e : Fault) : (m.exec s).1 ≠ .error (.fault e) := by
  unfold Proceeds at h
  intro he
  rcases hm : m.exec s with ⟨r, s'⟩
  rw [hm] at he h
  obtain rfl : r = _ := he
  exact h

theorem proceeds_itemAt {t : τ} {Q : τ → Tape τ → Prop} {i : ℕ} (h : s.items[i]? = some t) :
    Proceeds (itemAt i : Scan τ ε τ) s Q ↔ Q t s := by
  rw [itemAt, proceeds_bind, proceeds_get, if_pos (Int.natCast_nonneg i), Int.toNat_natCast, h]
  exact proceeds_pure

theorem proceeds_itemsFrom {Q : List τ → Tape τ → Prop} {lo hi : ℕ} (hlo : lo ≤ hi)
    (hhi : hi ≤ s.items.length) :
    Proceeds (itemsFrom lo hi : Scan τ ε _) s Q ↔ Q ((s.items.take hi).drop lo) s := by
  rw [itemsFrom, proceeds_bind, proceeds_get, if_pos ⟨hlo, hhi⟩]
  exact proceeds_pure

theorem proceeds_moveTo {Q : Unit → Tape τ → Prop} {i : ℕ} (h : i ≤ s.last) :
    Proceeds (moveTo i : Scan τ ε Unit) s Q ↔ Q () { s with pos := i } := by
  rw [moveTo, proceeds_bind, proceeds_get, if_pos ⟨Int.natCast_nonneg i, Int.ofNat_le.mpr h⟩]
  exact Iff.rfl

/-! ### How far it moves on -/

/-- The second position lies `d` or more behind the first. -/
structure Goes (d : ℕ) (s s' : Tape τ) : Prop where
  items : s'.items = s.items
  last : s'.last = s.last
  pos : s.pos + d ≤ s'.pos
  le : s'.pos ≤ s'.last

theorem Goes.refl (h : s.pos ≤ s.last) : Goes 0 s s := ⟨rfl, rfl, Nat.le_refl _, h⟩

theorem Goes.trans {d e : ℕ} (h : Goes d s s') (h' : Goes (e - d) s' s'') : Goes e s s'' :=
  ⟨h'.items.trans h.items, h'.last.trans h.last, by have := h.pos; have := h'.pos; omega, h'.le⟩

theorem Goes.mono {d e : ℕ} (h : Goes d s s') (he : e ≤ d) : Goes e s s' :=
  ⟨h.items, h.last, by have := h.pos; omega, h.le⟩

theorem Goes.keeps {G : List τ → ℕ → Prop} {d : ℕ} (h : Goes d s s') (hG : G s.items s.last) :
    G s'.items s'.last := by
  rwa [h.items, h.last]

end Proceeds

/-- On every sequence with `G`, where the item, if there is one, has `C`, and with fewer than `n`
positions left, the scanner ends well, and has moved on by `d` where it returns a value. -/
def Takes (G : List τ → ℕ → Prop) (C : Option τ → Prop) (d : α → ℕ) (n : ℕ)
    (m : Scan τ ε α) : Prop :=
  ∀ s : Tape τ, G s.items s.last → s.pos ≤ s.last → s.last - s.pos < n → C s.items[s.pos]? →
    Proceeds m s fun a s' => Goes (d a) s s'

section Takes

variable {G : List τ → ℕ → Prop} {C C' : Option τ → Prop} {d d' : α → ℕ} {e : β → ℕ} {n n' : ℕ}
  {m m' : Scan τ ε α} {f : α → Scan τ ε β}

/-- At any item, and where there is none. -/
def Any (_ : Option τ) : Prop := True

theorem Takes.ends (h : Takes G Any d n m) {s : Tape τ} (hG : G s.items s.last)
    (hle : s.pos ≤ s.last) (hn : s.last - s.pos < n) : Proceeds m s fun a s' => Goes (d a) s s' :=
  h s hG hle hn trivial

theorem Takes.mono (h : Takes G C d n m) (hd : ∀ a, d' a ≤ d a) (hn : n' ≤ n) :
    Takes G C d' n' m := fun s hG hle hlt hC =>
  (h s hG hle (Nat.lt_of_lt_of_le hlt hn) hC).mono fun a _ hgo => hgo.mono (hd a)

theorem Takes.fewer (h : Takes G C d n m) (hn : n' ≤ n) : Takes G C d n' m :=
  h.mono (fun _ => Nat.le_refl _) hn

theorem Takes.less (h : Takes G C d n m) (hd : ∀ a, d' a ≤ d a) : Takes G C d' n m :=
  h.mono hd (Nat.le_refl n)

theorem Takes.at (h : Takes G C d n m) (hC : ∀ o, C' o → C o) : Takes G C' d n m :=
  fun s hG hle hlt hC' => h s hG hle hlt (hC _ hC')

theorem Takes.any (h : Takes G Any d n m) : Takes G C d n m := h.at fun _ _ => trivial

theorem takes_pure {a : α} (h : d a = 0) : Takes G C d n (pure a : Scan τ ε α) :=
  fun _ _ hle _ _ => proceeds_pure.mpr (h ▸ Goes.refl hle)

theorem takes_refuse (e : ε) : Takes G C d n (refuse e : Scan τ ε α) :=
  fun _ _ _ _ _ => proceeds_refuse e

theorem takes_get {f : Tape τ → Scan τ ε β} (h : ∀ s, Takes G C e n (f s)) :
    Takes G C e n (get >>= f) :=
  fun s hG hle hn hC => proceeds_bind.mpr (proceeds_get.mpr (h s s hG hle hn hC))

/-- A scanner that starts where another one has come to. -/
theorem Takes.after (hm : Takes G Any d n m) {k : ℕ} {s s₁ : Tape τ} (hG : G s.items s.last)
    (hn : s.last - s.pos < n + k) (hgo : Goes k s s₁) :
    Proceeds m s₁ fun a s' => Goes (k + d a) s s' := by
  have hleft : s₁.last - s₁.pos < n := by
    have := hgo.last
    have := hgo.pos
    have := hgo.le
    omega
  refine (hm.ends (hgo.keeps hG) hgo.le hleft).mono fun a s' hgo' => hgo.trans ?_
  rwa [Nat.add_sub_cancel_left]

/-- What is still to be moved on, and what is left, is less by what the first scanner has moved. -/
theorem takes_bind (hm : Takes G C d n m)
    (hf : ∀ a, Takes G Any (fun b => e b - d a) (n - d a) (f a)) : Takes G C e n (m >>= f) := by
  intro s hG hle hn hC
  refine proceeds_bind.mpr ((hm s hG hle hn hC).mono fun a s' hgo => ?_)
  have hrest := (hf a).after hG (by omega) hgo
  exact hrest.mono fun b s'' hgo' => hgo'.mono (Nat.sub_le_iff_le_add'.mp (Nat.le_refl _))

/-- A scanner of which only that it ends well matters. -/
theorem takes_then (hm : Takes G C d n m) (hf : ∀ a, Takes G Any e n (f a)) :
    Takes G C e n (m >>= f) :=
  takes_bind hm fun a => (hf a).mono (fun _ => Nat.sub_le _ _) (Nat.sub_le _ _)

/-- Where the first scanner has moved on, the second need not. -/
theorem takes_first (hm : Takes G C (fun _ => 1) n m)
    (hf : ∀ a, Takes G Any (fun _ => 0) (n - 1) (f a)) : Takes G C (fun _ => 1) n (m >>= f) :=
  takes_bind hm fun a => (hf a).less fun _ => Nat.le_refl 0

theorem takes_ite {c : Prop} [Decidable c] (h : c → Takes G C d n m)
    (h' : ¬ c → Takes G C d n m') : Takes G C d n (if c then m else m') := by
  split
  · exact h ‹_›
  · exact h' ‹_›

/-- How far a round has to move on. -/
def Round.dist (d : β → ℕ) : Round σ β → ℕ
  | .next _ => 1
  | .done b => d b

/-- A bound on the positions left bounds the rounds. -/
theorem takes_loop_le {body : σ → Scan τ ε (Round σ β)} (hn : n' ≤ n)
    (h : ∀ a, Takes G Any (Round.dist e) n' (body a)) (a : σ) :
    Takes G C e n' (loop body n a) := by
  apply Takes.any
  induction n generalizing n' a with
  | zero => exact fun s _ _ hlt => absurd (Nat.lt_of_lt_of_le hlt hn) (Nat.not_lt_zero _)
  | succ n ih =>
    intro s hG hle hlt _
    rw [loop, proceeds_bind, proceeds_get, proceeds_bind]
    refine ((h a).ends hG hle hlt).mono fun r s' hgo => ?_
    cases r with
    | done b => exact hgo
    | next a' =>
      have hpos : s.pos < s'.pos := hgo.pos
      change Proceeds (get >>= _) s' _
      rw [proceeds_bind, proceeds_get, if_pos hpos]
      have hsmall : ∀ a, Takes G Any (Round.dist e) (n' - 1) (body a) :=
        fun a => (h a).fewer (Nat.sub_le _ _)
      have hleft : s'.last - s'.pos < n' - 1 := by
        have := hgo.last
        have := hgo.le
        omega
      have hrest := (ih (by omega) hsmall a').ends (hgo.keeps hG) hgo.le hleft
      refine hrest.mono fun b s'' hgo' => hgo.trans (hgo'.mono ?_)
      exact Nat.sub_le _ _

theorem takes_loop {body : σ → Scan τ ε (Round σ β)}
    (h : ∀ a, Takes G Any (Round.dist e) n (body a)) (a : σ) : Takes G C e n (loop body n a) :=
  takes_loop_le (Nat.le_refl n) h a

/-- A loop whose first round moves on in any case. -/
theorem takes_loop_first {body : σ → Scan τ ε (Round σ β)} {a : σ}
    (h : ∀ a, Takes G Any (Round.dist fun _ => 0) n (body a))
    (hfirst : Takes G C (fun _ => 1) n (body a)) :
    Takes G C (fun _ => 1) n (loop body n a) := by
  intro s hG hle hn hC
  obtain _ | n := n
  · exact absurd hn (Nat.not_lt_zero _)
  rw [loop, proceeds_bind, proceeds_get, proceeds_bind]
  refine (hfirst s hG hle hn hC).mono fun r s' hgo => ?_
  cases r with
  | done b => exact hgo
  | next a' =>
    have hpos : s.pos < s'.pos := hgo.pos
    change Proceeds (get >>= _) s' _
    rw [proceeds_bind, proceeds_get, if_pos hpos]
    have hrest : Takes G Any (fun _ => 0) n (loop body n a') :=
      takes_loop (fun a => (h a).fewer (Nat.le_succ n)) a'
    have hleft : s'.last - s'.pos < n := by
      have := hgo.last
      have := hgo.le
      omega
    exact (hrest.ends (hgo.keeps hG) hgo.le hleft).mono fun b s'' hgo' => hgo.trans hgo'

end Takes

/-! ### What it returns -/

/-- Every value that the scanner returns has `Q`. -/
def Returns (m : Scan τ ε α) (Q : α → Prop) : Prop := ∀ s a s', m.exec s = (.ok a, s') → Q a

theorem returns_pure {Q : α → Prop} {a : α} (h : Q a) : Returns (pure a : Scan τ ε α) Q := by
  rintro s _ _ ⟨⟩
  exact h

theorem returns_bind {m : Scan τ ε α} {f : α → Scan τ ε β} {Q : β → Prop}
    (hf : ∀ a, Returns (f a) Q) : Returns (m >>= f) Q := by
  intro s b s' hb
  rw [Prog.exec_bind] at hb
  rcases hm : m.exec s with ⟨_ | a, s₁⟩
  · rw [hm] at hb
    cases hb
  · rw [hm] at hb
    exact hf a _ _ _ hb

/-- `I` holds between the rounds, `Q` at the end. -/
def Round.Holds (I : σ → Prop) (Q : β → Prop) : Round σ β → Prop
  | .next a => I a
  | .done b => Q b

theorem returns_loop {body : σ → Scan τ ε (Round σ β)} {I : σ → Prop} {Q : β → Prop} {n : ℕ}
    {a : σ} (ha : I a) (h : ∀ a, I a → Returns (body a) (Round.Holds I Q)) :
    Returns (loop body n a) Q := by
  induction n generalizing a with
  | zero =>
    rintro s _ _ ⟨⟩
  | succ n ih =>
    intro s b s' hb
    rw [loop, Prog.exec_bind, Prog.exec_get] at hb
    change (body a >>= _).exec s = _ at hb
    rw [Prog.exec_bind] at hb
    rcases hm : (body a).exec s with ⟨_ | r, s₁⟩
    · rw [hm] at hb
      cases hb
    · have hr := h a ha _ _ _ hm
      rw [hm] at hb
      cases r with
      | done b' =>
        obtain ⟨⟩ := hb
        exact hr
      | next a' =>
        change (get >>= _ : Scan τ ε β).exec s₁ = _ at hb
        rw [Prog.exec_bind, Prog.exec_get] at hb
        change Prog.exec (if _ then _ else _) s₁ = _ at hb
        split at hb
        · exact ih hr _ _ _ hb
        · cases hb

/-! ### Rounds -/

section Rounds

variable {body : σ → Scan τ ε (Round σ β)} {a a' : σ} {b : β} {s s' : Tape τ} {n : ℕ}

theorem loop_done (h : (body a).exec s = (.ok (.done b), s')) :
    (loop body (n + 1) a).exec s = (.ok b, s') := by
  rw [loop, Prog.exec_bind, Prog.exec_get]
  exact Prog.exec_bind_ok h

theorem loop_next (h : (body a).exec s = (.ok (.next a'), s')) (hpos : s.pos < s'.pos) :
    (loop body (n + 1) a).exec s = (loop body n a').exec s' := by
  rw [loop, Prog.exec_bind, Prog.exec_get]
  refine (Prog.exec_bind_ok h).trans ?_
  change (get >>= fun after : Tape τ => if s.pos < after.pos then _ else _ : Scan τ ε β).exec s' = _
  rw [Prog.exec_bind, Prog.exec_get]
  exact congrArg (Prog.exec · s') (if_pos hpos)

theorem loop_error {e : Halt ε} (h : (body a).exec s = (.error e, s')) :
    (loop body (n + 1) a).exec s = (.error e, s') := by
  rw [loop, Prog.exec_bind, Prog.exec_get]
  exact Prog.exec_bind_error h

end Rounds

end Ydbgo.Tokens
