import Mathlib.Data.List.Basic
import Mathlib.Data.Nat.Notation
import Ydbgo.Lib.Bytes

/-! # Granules

A list cut into granules of equal length, the last of which may be shorter, and
blocks of bytes that lie one behind the other in a file. A block is found again
by its offset and its length.
-/

namespace Ydbgo

variable {α β : Type} {k : ℕ}

/-- The first `n` granules. -/
def granulesFrom (k : ℕ) : ℕ → List α → List (List α)
  | 0, _ => []
  | n + 1, xs => xs.take k :: granulesFrom k n (xs.drop k)

def granules (k : ℕ) (xs : List α) : List (List α) := granulesFrom k ((xs.length + (k - 1)) / k) xs

/-- All but the last have lengths that `w` divides. -/
def Aligned (w : ℕ) : List (List α) → Prop
  | [] => True
  | [_] => True
  | g :: gs => w ∣ g.length ∧ Aligned w gs

theorem length_granulesFrom (k n : ℕ) (xs : List α) : (granulesFrom k n xs).length = n := by
  induction n generalizing xs with
  | zero => rfl
  | succ n ih => rw [granulesFrom, List.length_cons, ih]

theorem flatten_granulesFrom {n : ℕ} {xs : List α} (h : xs.length ≤ n * k) :
    (granulesFrom k n xs).flatten = xs := by
  induction n generalizing xs with
  | zero =>
    have hnil : xs = [] := List.length_eq_zero_iff.mp (by omega)
    rw [hnil]
    rfl
  | succ n ih =>
    have hdrop : (xs.drop k).length ≤ n * k := by
      rw [List.length_drop]
      rw [Nat.succ_mul] at h
      omega
    rw [granulesFrom, List.flatten_cons, ih hdrop, List.take_append_drop]

theorem getElem?_granulesFrom {n g : ℕ} (h : g < n) (xs : List α) :
    (granulesFrom k n xs)[g]? = some ((xs.drop (g * k)).take k) := by
  induction n generalizing xs g with
  | zero => omega
  | succ n ih =>
    cases g with
    | zero => simp [granulesFrom]
    | succ g => rw [granulesFrom, List.getElem?_cons_succ, ih (by omega), List.drop_drop, Nat.succ_mul,
        Nat.add_comm k]

theorem map_granulesFrom (f : α → β) (n : ℕ) (xs : List α) :
    (granulesFrom k n xs).map (List.map f) = granulesFrom k n (xs.map f) := by
  induction n generalizing xs with
  | zero => rfl
  | succ n ih => rw [granulesFrom, List.map_cons, ih, granulesFrom, List.map_take, List.map_drop]

theorem aligned_granulesFrom {n : ℕ} {xs : List α} (h : n * k < xs.length + k) :
    Aligned k (granulesFrom k n xs) := by
  induction n generalizing xs with
  | zero => trivial
  | succ n ih =>
    cases n with
    | zero => trivial
    | succ n =>
      rw [Nat.succ_mul, Nat.succ_mul] at h
      refine ⟨?_, ih ?_⟩
      · have hk : k ≤ xs.length := by omega
        exact ⟨1, by rw [List.length_take, Nat.min_eq_left hk, Nat.mul_one]⟩
      · rw [Nat.succ_mul, List.length_drop]
        omega

theorem ne_nil_of_mem_granulesFrom {n : ℕ} {xs : List α} (h : n * k < xs.length + k) (hk : 0 < k) :
    ∀ g ∈ granulesFrom k n xs, g ≠ [] := by
  induction n generalizing xs with
  | zero => exact nofun
  | succ n ih =>
    rw [Nat.succ_mul] at h
    rw [granulesFrom]
    refine List.forall_mem_cons.mpr ⟨?_, ?_⟩
    · intro he
      have hlen := congrArg List.length he
      rw [List.length_take, List.length_nil] at hlen
      omega
    · cases n with
      | zero => exact nofun
      | succ n =>
        rw [Nat.succ_mul] at h
        apply ih
        rw [Nat.succ_mul, List.length_drop]
        omega

section Cut

variable {xs : List α}

theorem count_granules (hk : 0 < k) (n : ℕ) :
    n ≤ (n + (k - 1)) / k * k ∧ (n + (k - 1)) / k * k < n + k := by
  have hmod := Nat.div_add_mod (n + (k - 1)) k
  have hlt := Nat.mod_lt (n + (k - 1)) hk
  rw [Nat.mul_comm] at hmod
  omega

theorem flatten_granules (hk : 0 < k) (xs : List α) : (granules k xs).flatten = xs :=
  flatten_granulesFrom (count_granules hk _).1

theorem aligned_granules (hk : 0 < k) (xs : List α) : Aligned k (granules k xs) :=
  aligned_granulesFrom (count_granules hk _).2

theorem ne_nil_of_mem_granules (hk : 0 < k) {g : List α} (h : g ∈ granules k xs) : g ≠ [] :=
  ne_nil_of_mem_granulesFrom (count_granules hk _).2 hk g h

theorem map_granules (f : α → β) (xs : List α) :
    (granules k xs).map (List.map f) = granules k (xs.map f) := by
  rw [granules, map_granulesFrom, granules, List.length_map]

theorem length_granules (k : ℕ) (xs : List α) :
    (granules k xs).length = (xs.length + (k - 1)) / k := length_granulesFrom ..

theorem getElem?_granules {g : ℕ} {gr : List α} (h : (granules k xs)[g]? = some gr) :
    gr = (xs.drop (g * k)).take k := by
  have hlt := (List.getElem?_eq_some_iff.mp h).1
  rw [length_granules] at hlt
  rw [granules, getElem?_granulesFrom hlt] at h
  exact (Option.some.inj h).symm

theorem granules_eq_nil (hk : 0 < k) : granules k xs = [] ↔ xs = [] := by
  constructor
  · intro h
    rw [← flatten_granules hk xs, h, List.flatten_nil]
  · rintro rfl
    have hzero : (0 + (k - 1)) / k = 0 := Nat.div_eq_of_lt (by omega)
    rw [granules, List.length_nil, hzero, granulesFrom]

end Cut

theorem Aligned.of_dvd {w : ℕ} (hd : w ∣ k) {gs : List (List α)} (h : Aligned k gs) :
    Aligned w gs := by
  induction gs with
  | nil => trivial
  | cons g gs ih =>
    cases gs with
    | nil => trivial
    | cons g' gs => exact ⟨Nat.dvd_trans hd h.1, ih h.2⟩

/-- Alignment is about lengths. -/
theorem Aligned.congr {w : ℕ} {gs : List (List α)} {gs' : List (List β)}
    (h : gs.map List.length = gs'.map List.length) (ha : Aligned w gs) : Aligned w gs' := by
  induction gs generalizing gs' with
  | nil =>
    obtain rfl := List.map_eq_nil_iff.mp h.symm
    trivial
  | cons g gs ih =>
    cases gs' with
    | nil => trivial
    | cons g' gs' =>
      obtain ⟨hg, h⟩ := List.cons.inj h
      cases gs' with
      | nil => trivial
      | cons g'' gs' =>
        cases gs with
        | nil => cases h
        | cons _ _ => exact ⟨hg ▸ ha.1, ih h ha.2⟩

/-! ### Blocks in a file -/

/-- Where the blocks begin, the first one at `n`. -/
def offsets : ℕ → List Bytes → List ℕ
  | _, [] => []
  | n, b :: bs => n :: offsets (n + b.length) bs

/-- The part of a file, if the file goes that far. -/
def slice (file : Bytes) (off len : ℕ) : Option Bytes :=
  if off + len ≤ file.length then some ((file.drop off).take len) else none

theorem length_offsets (n : ℕ) (bs : List Bytes) : (offsets n bs).length = bs.length := by
  induction bs generalizing n with
  | nil => rfl
  | cons b bs ih => rw [offsets, List.length_cons, ih, List.length_cons]

/-- Behind other bytes, each block is found again. -/
theorem slice_offsets {bs : List Bytes} {i : ℕ} {b : Bytes} (h : bs[i]? = some b) (pre : Bytes) :
    ∃ off, (offsets pre.length bs)[i]? = some off ∧ off ≤ (pre ++ bs.flatten).length ∧
      slice (pre ++ bs.flatten) off b.length = some b := by
  induction bs generalizing pre i with
  | nil => cases h
  | cons c bs ih =>
    cases i with
    | zero =>
      obtain rfl := Option.some.inj h
      refine ⟨pre.length, rfl, by simp, ?_⟩
      have hroom : pre.length + c.length ≤ (pre ++ (c :: bs).flatten).length := by
        simp only [List.flatten_cons, List.length_append]
        omega
      rw [slice, if_pos hroom, List.drop_left, List.flatten_cons, List.take_left]
    | succ i =>
      obtain ⟨off, hoff, hle, hslice⟩ := ih h (pre ++ c)
      rw [List.append_assoc, List.length_append] at *
      exact ⟨off, hoff, hle, hslice⟩

end Ydbgo
