import Ydbgo.Lib.SortedMap

/-! # Steps that each own a key

A step on a map that owns a key leaves the other keys alone, or takes the value
at its key away to another place. After steps with different keys a key that
was taken is never filled again, so that steps which end in the map they
started from have each left it as it is.
-/

namespace Ydbgo

variable {κ ν α : Type} [LinearOrder κ]

/-- What a step that owns the key `k` does to a map. -/
inductive Touches (k : κ) (m m' : SortedMap κ ν) : Prop
  | stays (h : ∀ k', k' ≠ k → m'.get k' = m.get k') : Touches k m m'
  | takes (h : m'.get k = none) : Touches k m m'

section Run

variable {key : α → κ} {f : SortedMap κ ν → α → SortedMap κ ν}

/-- Where all keys are filled in the end, no step has taken one. -/
theorem get_foldl_of_touches (hf : ∀ a m, Touches (key a) m (f m a)) {as : List α}
    (hnd : (as.map key).Nodup) {m : SortedMap κ ν}
    (hend : ∀ a ∈ as, ((as.foldl f m).get (key a)).isSome) {k : κ} (hk : k ∉ as.map key) :
    (as.foldl f m).get k = m.get k := by
  induction as generalizing m k with
  | nil => rfl
  | cons a as ih =>
    obtain ⟨ha, hnd⟩ := List.nodup_cons.mp hnd
    have hrest := fun b hb => hend b (List.mem_cons_of_mem a hb)
    have hown := hend a List.mem_cons_self
    rw [List.foldl_cons, ih hnd hrest ha] at hown
    obtain ⟨hka, hk⟩ := List.ne_and_not_mem_of_not_mem_cons hk
    rw [List.foldl_cons, ih hnd hrest hk]
    cases hf a m with
    | stays h => exact h k hka
    | takes h =>
      rw [h] at hown
      cases hown

/-- Steps that end where they started change nothing one by one. -/
theorem eq_of_foldl_touches (hf : ∀ a m, Touches (key a) m (f m a)) {as : List α}
    (hnd : (as.map key).Nodup) {m : SortedMap κ ν} (hfull : ∀ a ∈ as, (m.get (key a)).isSome)
    (heq : as.foldl f m = m) : ∀ a ∈ as, f m a = m := by
  induction as with
  | nil => exact nofun
  | cons a as ih =>
    obtain ⟨ha, hnd⟩ := List.nodup_cons.mp hnd
    have hend : ∀ b ∈ as, ((as.foldl f (f m a)).get (key b)).isSome := fun b hb => by
      rw [← List.foldl_cons, heq]
      exact hfull b (List.mem_cons_of_mem a hb)
    have hown := get_foldl_of_touches hf hnd hend ha
    rw [← List.foldl_cons, heq] at hown
    have hfirst : f m a = m := by
      apply SortedMap.ext_get
      intro k
      by_cases hk : k = key a
      · rw [hk, hown]
      · cases hf a m with
        | stays h => exact h k hk
        | takes h =>
          have := hfull a List.mem_cons_self
          rw [hown, h] at this
          cases this
    rw [List.foldl_cons, hfirst] at heq
    intro b hb
    rcases List.mem_cons.mp hb with rfl | hb
    · exact hfirst
    · exact ih hnd (fun c hc => hfull c (List.mem_cons_of_mem a hc)) heq b hb

/-- Steps that leave a map as it is. -/
theorem foldl_eq_of_forall {m : SortedMap κ ν} {as : List α} (h : ∀ a ∈ as, f m a = m) :
    as.foldl f m = m := by
  induction as with
  | nil => rfl
  | cons a as ih =>
    rw [List.foldl_cons, h a List.mem_cons_self]
    exact ih fun b hb => h b (List.mem_cons_of_mem a hb)

end Run

end Ydbgo
