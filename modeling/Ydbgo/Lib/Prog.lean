import Mathlib.Order.Defs.Unbundled

/-! # Programs with a state and errors

A program changes a state and ends in a result or an error; what it changed
before an error stays. A relation between states that is reflexive and
transitive holds between the two ends of a program if it holds of its steps. A
program respects a relation if from related states it ends alike, in related
states.
-/

namespace Ydbgo

/-- A program on the states `σ`. -/
abbrev Prog (σ ε α : Type) : Type := ExceptT ε (StateM σ) α

namespace Prog

variable {σ ε α β : Type}

/-- The result or error, and the state at the end. -/
def exec (x : Prog σ ε α) (s : σ) : Except ε α × σ := x s

@[simp] theorem exec_pure (a : α) (s : σ) : (pure a : Prog σ ε α).exec s = (.ok a, s) := rfl

@[simp] theorem exec_throw (e : ε) (s : σ) : (throw e : Prog σ ε α).exec s = (.error e, s) := rfl

@[simp] theorem exec_get (s : σ) : (get : Prog σ ε σ).exec s = (.ok s, s) := rfl

@[simp] theorem exec_modify (f : σ → σ) (s : σ) :
    (modify f : Prog σ ε PUnit).exec s = (.ok ⟨⟩, f s) := rfl

theorem exec_bind (x : Prog σ ε α) (f : α → Prog σ ε β) (s : σ) :
    (x >>= f).exec s = match x.exec s with
      | (.ok a, s') => (f a).exec s'
      | (.error e, s') => (.error e, s') := by
  simp only [exec, bind, ExceptT.bind, ExceptT.mk, ExceptT.bindCont, StateT.bind]
  obtain ⟨_ | _, _⟩ := x s <;> rfl

theorem exec_bind_ok {x : Prog σ ε α} {f : α → Prog σ ε β} {s s' : σ} {a : α}
    (h : x.exec s = (.ok a, s')) : (x >>= f).exec s = (f a).exec s' := by
  rw [exec_bind, h]

theorem exec_bind_error {x : Prog σ ε α} {f : α → Prog σ ε β} {s s' : σ} {e : ε}
    (h : x.exec s = (.error e, s')) : (x >>= f).exec s = (.error e, s') := by
  rw [exec_bind, h]

/-- A change of the result does not change the state. -/
theorem exec_bind_pure_snd (x : Prog σ ε α) (g : α → β) (s : σ) :
    ((x >>= fun a => pure (g a)).exec s).2 = (x.exec s).2 := by
  rw [exec_bind]
  obtain ⟨_ | _, _⟩ := x.exec s <;> rfl

theorem exec_ite (c : Prop) [Decidable c] (x y : Prog σ ε α) (s : σ) :
    (if c then x else y).exec s = if c then x.exec s else y.exec s := by
  split <;> rfl

theorem exec_tryCatch (x : Prog σ ε α) (f : ε → Prog σ ε α) (s : σ) :
    (tryCatch x f).exec s = match x.exec s with
      | (.ok a, s') => (.ok a, s')
      | (.error e, s') => (f e).exec s' := by
  simp only [exec, tryCatch, tryCatchThe, MonadExceptOf.tryCatch, ExceptT.tryCatch, ExceptT.mk,
    bind, StateT.bind]
  obtain ⟨_ | _, _⟩ := x s <;> rfl

theorem exec_forM_append (f : α → Prog σ ε PUnit) (as bs : List α) (s : σ) :
    ((as ++ bs).forM f).exec s = (as.forM f >>= fun _ => bs.forM f).exec s := by
  induction as generalizing s with
  | nil => rfl
  | cons a as ih =>
    change (f a >>= fun _ => (as ++ bs).forM f).exec s =
      ((f a >>= fun _ => as.forM f) >>= fun _ => bs.forM f).exec s
    rw [exec_bind, exec_bind, exec_bind]
    obtain ⟨_ | _, s'⟩ := (f a).exec s
    · rfl
    · exact (ih s').trans (exec_bind _ _ _)

/-- A loop whose turns do not fail while `P` holds. -/
theorem exec_forM_ok {f : α → Prog σ ε PUnit} {g : σ → α → σ} {P : σ → Prop} {as : List α}
    (h : ∀ a ∈ as, ∀ s, P s → (f a).exec s = (.ok ⟨⟩, g s a) ∧ P (g s a)) {s : σ} (hs : P s) :
    (as.forM f).exec s = (.ok ⟨⟩, as.foldl g s) := by
  induction as generalizing s with
  | nil => rfl
  | cons a as ih =>
    obtain ⟨ha, has⟩ := List.forall_mem_cons.mp h
    obtain ⟨hexec, hs'⟩ := ha s hs
    exact (exec_bind_ok hexec).trans (ih has hs')

/-! ### What a program does to the state -/

/-- `R` holds between the state before the program and the state after. -/
def Moves (R : σ → σ → Prop) (x : Prog σ ε α) : Prop := ∀ s, R s (x.exec s).2

variable {R : σ → σ → Prop}

section

variable [Std.Refl R]

theorem moves_pure (a : α) : Moves R (pure a : Prog σ ε α) := fun s => refl_of R s

theorem moves_throw (e : ε) : Moves R (throw e : Prog σ ε α) := fun s => refl_of R s

theorem moves_get : Moves R (get : Prog σ ε σ) := fun s => refl_of R s

end

theorem moves_modify {f : σ → σ} (h : ∀ s, R s (f s)) : Moves R (modify f : Prog σ ε PUnit) := h

theorem moves_bind [IsTrans σ R] {x : Prog σ ε α} {f : α → Prog σ ε β} (hx : Moves R x)
    (hf : ∀ a, Moves R (f a)) : Moves R (x >>= f) := by
  intro s
  have hs := hx s
  rw [exec_bind]
  split
  · rename_i a s' he
    rw [he] at hs
    exact trans_of R hs (hf a s')
  · rename_i e s' he
    rwa [he] at hs

theorem moves_forM [IsPreorder σ R] {f : α → Prog σ ε PUnit} {as : List α}
    (hf : ∀ a ∈ as, Moves R (f a)) : Moves R (as.forM f) := by
  induction as with
  | nil => exact moves_pure _
  | cons a as ih =>
    change Moves R (f a >>= fun _ => as.forM f)
    exact moves_bind (hf a List.mem_cons_self) fun _ =>
      ih fun b hb => hf b (List.mem_cons_of_mem _ hb)

/-! ### Two runs of a program -/

/-- From states related by `R` the program ends in the same result or error, and in such states. -/
def Respects (R : σ → σ → Prop) (x : Prog σ ε α) : Prop :=
  ∀ s s', R s s' → (x.exec s).1 = (x.exec s').1 ∧ R (x.exec s).2 (x.exec s').2

theorem respects_pure (a : α) : Respects R (pure a : Prog σ ε α) := fun _ _ h => ⟨rfl, h⟩

theorem respects_throw (e : ε) : Respects R (throw e : Prog σ ε α) := fun _ _ h => ⟨rfl, h⟩

theorem respects_modify {f : σ → σ} (h : ∀ s s', R s s' → R (f s) (f s')) :
    Respects R (modify f : Prog σ ε PUnit) := fun s s' hs => ⟨rfl, h s s' hs⟩

theorem respects_bind {x : Prog σ ε α} {f : α → Prog σ ε β} (hx : Respects R x)
    (hf : ∀ a, Respects R (f a)) : Respects R (x >>= f) := by
  intro s s' hs
  have hx := hx s s' hs
  rw [exec_bind, exec_bind]
  revert hx
  obtain ⟨r, t⟩ := x.exec s
  obtain ⟨r', t'⟩ := x.exec s'
  rintro ⟨h₁, h₂⟩
  obtain rfl : r = r' := h₁
  cases r with
  | error e => exact ⟨rfl, h₂⟩
  | ok a => exact hf a t t' h₂

/-- A program that starts by reading the state uses only what related states share. -/
theorem respects_get_bind {f : σ → Prog σ ε β}
    (hf : ∀ s s', R s s' → ((f s).exec s).1 = ((f s').exec s').1 ∧
      R ((f s).exec s).2 ((f s').exec s').2) : Respects R (get >>= f) := hf

theorem respects_tryCatch {x : Prog σ ε α} {f : ε → Prog σ ε α} (hx : Respects R x)
    (hf : ∀ e, Respects R (f e)) : Respects R (tryCatch x f) := by
  intro s s' hs
  have hx := hx s s' hs
  rw [exec_tryCatch, exec_tryCatch]
  revert hx
  obtain ⟨r, t⟩ := x.exec s
  obtain ⟨r', t'⟩ := x.exec s'
  rintro ⟨h₁, h₂⟩
  obtain rfl : r = r' := h₁
  cases r with
  | error e => exact hf e t t' h₂
  | ok a => exact ⟨rfl, h₂⟩

theorem respects_forM {f : α → Prog σ ε PUnit} {as : List α} (hf : ∀ a ∈ as, Respects R (f a)) :
    Respects R (as.forM f) := by
  induction as with
  | nil => exact respects_pure _
  | cons a as ih =>
    change Respects R (f a >>= fun _ => as.forM f)
    exact respects_bind (hf a List.mem_cons_self) fun _ =>
      ih fun b hb => hf b (List.mem_cons_of_mem _ hb)

end Prog

end Ydbgo
