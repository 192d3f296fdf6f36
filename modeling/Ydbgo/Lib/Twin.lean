import Ydbgo.Lib.Tokens

/-! # Two scanners side by side

From states in a relation two scanners end alike: both return an error, or both
return the same value, again at states in the relation. A fault of either excuses
the other, so that the bounds of their loops need not agree.
-/

namespace Ydbgo.Tokens

variable {τ ε α β σ : Type}

/-- Both scanners return an error, or both a value at states with `Q`, or one meets a fault. -/
inductive Together (m m' : Scan τ ε α) (s s' : Tape τ) (Q : α → Tape τ → α → Tape τ → Prop) : Prop
  | fault {f s₁} : m.exec s = (.error (.fault f), s₁) → Together m m' s s' Q
  | fault' {f s₁'} : m'.exec s' = (.error (.fault f), s₁') → Together m m' s s' Q
  | refuse {e s₁ e' s₁'} : m.exec s = (.error (.error e), s₁) →
    m'.exec s' = (.error (.error e'), s₁') → Together m m' s s' Q
  | ok {a s₁ a' s₁'} : m.exec s = (.ok a, s₁) → m'.exec s' = (.ok a', s₁') → Q a s₁ a' s₁' →
    Together m m' s s' Q

/-- From states with `R`, the second of them at a position with `P`, the scanners end alike. -/
def Twins (R : Tape τ → Tape τ → Prop) (P : ℕ → Prop) (m m' : Scan τ ε α) : Prop :=
  ∀ s s', R s s' → P s'.pos → Together m m' s s' fun a s₁ a' s₁' => a = a' ∧ R s₁ s₁'

/-- At any position. -/
def Anywhere (_ : ℕ) : Prop := True

section

variable {R : Tape τ → Tape τ → Prop} {P P' : ℕ → Prop} {m m' : Scan τ ε α}
  {f f' : α → Scan τ ε β}

theorem Twins.of_imp (h : Twins R P m m') (hP : ∀ i, P' i → P i) : Twins R P' m m' :=
  fun s s' hR hs => h s s' hR (hP _ hs)

theorem Twins.anywhere (h : Twins R Anywhere m m') : Twins R P m m' :=
  h.of_imp fun _ _ => trivial

theorem twins_pure (a : α) : Twins R P (pure a : Scan τ ε α) (pure a) :=
  fun _ _ hR _ => .ok rfl rfl ⟨rfl, hR⟩

theorem twins_refuse (e e' : ε) : Twins R P (refuse e : Scan τ ε α) (refuse e') :=
  fun _ _ _ _ => .refuse rfl rfl

theorem twins_fault (e : Fault) : Twins R P (fault e) m' := fun _ _ _ _ => .fault rfl

theorem twins_fault' (e : Fault) : Twins R P m (fault e) := fun _ _ _ _ => .fault' rfl

/-- Behind scanners that end with `Q` the others may use it. -/
theorem Together.bind {s s' : Tape τ} {Q : α → Tape τ → α → Tape τ → Prop}
    {Q' : β → Tape τ → β → Tape τ → Prop} (h : Together m m' s s' Q)
    (hf : ∀ a s₁ a' s₁', Q a s₁ a' s₁' → Together (f a) (f' a') s₁ s₁' Q') :
    Together (m >>= f) (m' >>= f') s s' Q' := by
  cases h with
  | fault h => exact .fault (Prog.exec_bind_error h)
  | fault' h => exact .fault' (Prog.exec_bind_error h)
  | refuse h h' => exact .refuse (Prog.exec_bind_error h) (Prog.exec_bind_error h')
  | ok h h' hQ =>
    have hrun := Prog.exec_bind_ok (f := f) h
    have hrun' := Prog.exec_bind_ok (f := f') h'
    cases hf _ _ _ _ hQ with
    | fault hf => exact .fault (hrun.trans hf)
    | fault' hf => exact .fault' (hrun'.trans hf)
    | refuse hf hf' => exact .refuse (hrun.trans hf) (hrun'.trans hf')
    | ok hf hf' hQ' => exact .ok (hrun.trans hf) (hrun'.trans hf') hQ'

/-- Behind scanners that return values the others go on. -/
theorem together_after {s s' s₁ s₁' : Tape τ} {a a' : α} {Q : β → Tape τ → β → Tape τ → Prop}
    (h : m.exec s = (.ok a, s₁)) (h' : m'.exec s' = (.ok a', s₁'))
    (hf : Together (f a) (f' a') s₁ s₁' Q) : Together (m >>= f) (m' >>= f') s s' Q := by
  refine Together.bind (Q := fun b t b' t' => (b = a ∧ t = s₁) ∧ b' = a' ∧ t' = s₁')
    (.ok h h' ⟨⟨rfl, rfl⟩, rfl, rfl⟩) ?_
  rintro _ _ _ _ ⟨⟨rfl, rfl⟩, rfl, rfl⟩
  exact hf

/-- Scanners that look at their states first. -/
theorem Together.get {f f' : Tape τ → Scan τ ε α} {s s' : Tape τ}
    {Q : α → Tape τ → α → Tape τ → Prop} (h : Together (f s) (f' s') s s' Q) :
    Together (get >>= f) (get >>= f') s s' Q := by
  cases h with
  | fault h => exact .fault h
  | fault' h => exact .fault' h
  | refuse h h' => exact .refuse h h'
  | ok h h' hQ => exact .ok h h' hQ

theorem twins_bind (h : Twins R P m m') (hf : ∀ a, Twins R Anywhere (f a) (f' a)) :
    Twins R P (m >>= f) (m' >>= f') := by
  intro s s' hR hs
  refine (h s s' hR hs).bind ?_
  rintro a s₁ _ s₁' ⟨rfl, hR₁⟩
  exact hf a _ _ hR₁ trivial

theorem twins_ite {c : Prop} [Decidable c] {x x' y y' : Scan τ ε α} (hx : c → Twins R P x x')
    (hy : ¬ c → Twins R P y y') :
    Twins R P (if c then x else y) (if c then x' else y') := by
  split
  · exact hx ‹_›
  · exact hy ‹_›

/-- Neither condition holds. -/
theorem twins_else {c c' : Prop} [Decidable c] [Decidable c'] {x x' y y' : Scan τ ε α} (hc : ¬ c)
    (hc' : ¬ c') (hy : Twins R P y y') :
    Twins R P (if c then x else y) (if c' then x' else y') := by
  rwa [if_neg hc, if_neg hc']

/-- Between related states both scanners move, or neither. -/
def MovesAlike (R : Tape τ → Tape τ → Prop) : Prop :=
  ∀ s s' s₁ s₁', R s s' → R s₁ s₁' → (s.pos < s₁.pos ↔ s'.pos < s₁'.pos)

theorem twins_loop (hmoves : MovesAlike R) {body body' : σ → Scan τ ε (Round σ β)}
    (h : ∀ a, Twins R Anywhere (body a) (body' a)) (n n' : ℕ) (a : σ) :
    Twins R P (loop body n a) (loop body' n' a) := by
  apply Twins.anywhere
  induction n generalizing n' a with
  | zero => exact twins_fault _
  | succ n ih =>
    cases n' with
    | zero => exact twins_fault' _
    | succ n' =>
      intro s s' hR _
      rw [loop, loop]
      apply Together.get
      refine (h a s s' hR trivial).bind ?_
      rintro r s₁ _ s₁' ⟨rfl, hR₁⟩
      cases r with
      | done b => exact .ok rfl rfl ⟨rfl, hR₁⟩
      | next a' =>
        apply Together.get
        by_cases hpos : s.pos < s₁.pos
        · rw [if_pos hpos, if_pos ((hmoves _ _ _ _ hR hR₁).mp hpos)]
          exact ih n' a' s₁ s₁' hR₁ trivial
        · rw [if_neg hpos]
          exact .fault rfl

end

end Ydbgo.Tokens
