import Mathlib.Data.Nat.Notation

/-! # Binary search

The least index at which a predicate holds, if it holds from that index on. The
bounds of the search close in on it from both sides.
-/

namespace Ydbgo

/-- The loop between the bounds, with as many rounds left as the bounds can need. -/
def searchFrom (f : ℕ → Bool) : ℕ → ℕ → ℕ → ℕ
  | 0, i, _ => i
  | fuel + 1, i, j =>
    if i < j then
      let h := (i + j) / 2
      if f h then searchFrom f fuel i h else searchFrom f fuel (h + 1) j
    else i

/-- The least index below `n` at which the predicate holds, or `n`. -/
def search (n : ℕ) (f : ℕ → Bool) : ℕ := searchFrom f n 0 n

theorem searchFrom_eq {f : ℕ → Bool} {k : ℕ} (hlow : ∀ m < k, f m = false) {fuel i j : ℕ}
    (hhigh : ∀ m, k ≤ m → m < j → f m = true) (hi : i ≤ k) (hj : k ≤ j) (hfuel : j - i ≤ fuel) :
    searchFrom f fuel i j = k := by
  induction fuel generalizing i j with
  | zero =>
    rw [searchFrom]
    omega
  | succ fuel ih =>
    rw [searchFrom]
    split
    · next hlt =>
      dsimp only
      split
      · next hf =>
        -- the middle is not before the index
        have hmid : k ≤ (i + j) / 2 := Nat.le_of_not_lt fun hcon => by
          rw [hlow _ hcon] at hf
          cases hf
        exact ih (fun m hm hmj => hhigh m hm (by omega)) hi hmid (by omega)
      · next hf =>
        have hmid : (i + j) / 2 < k :=
          Nat.lt_of_not_le fun hcon => hf (hhigh _ hcon (by omega))
        exact ih hhigh hmid hj (by omega)
    · omega

/-- The search finds the index where the predicate begins to hold. -/
theorem search_eq {f : ℕ → Bool} {n k : ℕ} (hk : k ≤ n) (hlow : ∀ m < k, f m = false)
    (hhigh : ∀ m, k ≤ m → m < n → f m = true) : search n f = k :=
  searchFrom_eq hlow hhigh (Nat.zero_le k) hk (Nat.le_of_eq (Nat.sub_zero n))

end Ydbgo
