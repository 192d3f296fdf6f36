import Mathlib.Data.List.Nodup
import Mathlib.Logic.Function.Basic

/-! # Sequences of writes

The map left by a sequence of writes: the last write of a key wins. With
values in an option, a write of `none` erases.
-/

namespace Ydbgo.Writes

variable {κ ν : Type} [DecidableEq κ]

/-- The map `m` after the writes `ws`, in order. -/
def apply (m : κ → ν) (ws : List (κ × ν)) : κ → ν :=
  ws.foldl (fun m w => Function.update m w.1 w.2) m

@[simp] theorem apply_nil (m : κ → ν) : apply m [] = m := rfl

@[simp] theorem apply_cons (m : κ → ν) (w : κ × ν) (ws : List (κ × ν)) :
    apply m (w :: ws) = apply (Function.update m w.1 w.2) ws := rfl

theorem apply_append (m : κ → ν) (ws ws' : List (κ × ν)) :
    apply m (ws ++ ws') = apply (apply m ws) ws' := List.foldl_append

theorem apply_of_notMem {m : κ → ν} {ws : List (κ × ν)} {k : κ} (h : k ∉ ws.map Prod.fst) :
    apply m ws k = m k := by
  induction ws generalizing m with
  | nil => rfl
  | cons w ws ih =>
    obtain ⟨hw, hws⟩ := List.ne_and_not_mem_of_not_mem_cons h
    rw [apply_cons, ih hws, Function.update_of_ne hw]

theorem apply_eq_or_mem (m : κ → ν) (ws : List (κ × ν)) (k : κ) :
    apply m ws k = m k ∨ (k, apply m ws k) ∈ ws := by
  induction ws generalizing m with
  | nil => exact Or.inl rfl
  | cons w ws ih =>
    rcases ih (Function.update m w.1 w.2) with h | h
    · by_cases hk : k = w.1
      · subst hk
        right
        rw [apply_cons, h, Function.update_self]
        exact List.mem_cons_self
      · left
        rw [apply_cons, h, Function.update_of_ne hk]
    · exact Or.inr (List.mem_cons_of_mem w h)

theorem apply_of_mem {m : κ → ν} {ws : List (κ × ν)} (hn : (ws.map Prod.fst).Nodup) {k : κ}
    {v : ν} (h : (k, v) ∈ ws) : apply m ws k = v := by
  induction ws generalizing m with
  | nil => simp at h
  | cons w ws ih =>
    rw [List.map_cons, List.nodup_cons] at hn
    rcases List.mem_cons.mp h with rfl | h
    · rw [apply_cons, apply_of_notMem hn.1, Function.update_self]
    · exact ih hn.2 h

theorem apply_congr {m m' : κ → ν} {k : κ} (h : m k = m' k) (ws : List (κ × ν)) :
    apply m ws k = apply m' ws k := by
  induction ws generalizing m m' with
  | nil => exact h
  | cons w ws ih =>
    rw [apply_cons, apply_cons]
    refine ih ?_
    by_cases hk : k = w.1
    · subst hk
      rw [Function.update_self, Function.update_self]
    · rw [Function.update_of_ne hk, Function.update_of_ne hk, h]

end Ydbgo.Writes
