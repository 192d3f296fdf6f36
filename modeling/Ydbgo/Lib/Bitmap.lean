import Mathlib.Data.List.Basic
import Mathlib.Data.Nat.Notation

/-! # Bitmaps

Bits in words of one width, the lowest bit of a word first. A bitmap behind
another one that fills its words keeps its bits.
-/

namespace Ydbgo

variable {w : ℕ}

def setBit (ws : List (BitVec w)) (i : ℕ) : List (BitVec w) :=
  ws.modify (i / w) fun x => x ||| 1#w <<< (i % w)

/-- Words behind the end are zero. -/
def testBit (ws : List (BitVec w)) (i : ℕ) : Bool := ws[i / w]?.getD 0 &&& 1#w <<< (i % w) != 0

/-- The bits from the index `i` on. -/
def setBits : ℕ → List Bool → List (BitVec w) → List (BitVec w)
  | _, [], ws => ws
  | i, b :: bs, ws => setBits (i + 1) bs (if b then setBit ws i else ws)

/-- As few words as hold the bits. -/
def bitmap (w : ℕ) (bs : List Bool) : List (BitVec w) :=
  setBits 0 bs (List.replicate ((bs.length + (w - 1)) / w) 0)

theorem and_bit_ne_zero (x : BitVec w) {k : ℕ} (hk : k < w) :
    (x &&& 1#w <<< k != 0) = x.getLsbD k := by
  by_cases h : x.getLsbD k
  · rw [h, bne_iff_ne]
    intro he
    have hbit := congrArg (fun y => y.getLsbD k) he
    simp only [BitVec.getLsbD_and, h, BitVec.getLsbD_shiftLeft, BitVec.getLsbD_one] at hbit
    have : w ≠ 0 := by omega
    simp [hk, this] at hbit
  · rw [Bool.not_eq_true] at h
    rw [h, bne_eq_false_iff_eq]
    apply BitVec.eq_of_getLsbD_eq
    rintro i hi
    by_cases hik : i = k
    · simp [hik, h]
    · have hne : ¬ (k ≤ i ∧ i - k = 0) := by omega
      simp only [BitVec.getLsbD_and, BitVec.getLsbD_shiftLeft, BitVec.getLsbD_one]
      simp
      omega

theorem testBit_eq (ws : List (BitVec w)) (i : ℕ) (hw : 0 < w) :
    testBit ws i = (ws[i / w]?.getD 0).getLsbD (i % w) :=
  and_bit_ne_zero _ (Nat.mod_lt i hw)

theorem length_setBit (ws : List (BitVec w)) (i : ℕ) : (setBit ws i).length = ws.length :=
  List.length_modify ..

theorem testBit_setBit {ws : List (BitVec w)} {i : ℕ} (hi : i < ws.length * w) (j : ℕ) :
    testBit (setBit ws i) j = (testBit ws j || decide (j = i)) := by
  have hw : 0 < w := by
    by_contra h
    obtain rfl : w = 0 := by omega
    simp at hi
  have hlt : i / w < ws.length := Nat.div_lt_of_lt_mul (by rwa [Nat.mul_comm])
  rw [testBit_eq _ _ hw, testBit_eq _ _ hw, setBit, List.getElem?_modify]
  by_cases hij : i / w = j / w
  · have hget : ws[j / w]? = some (ws[i / w]) := by
      rw [← hij]
      exact List.getElem?_eq_getElem hlt
    have hsame : j % w = i % w ↔ j = i := by
      constructor
      · intro hmod
        rw [← Nat.div_add_mod j w, ← Nat.div_add_mod i w, hij, hmod]
      · rintro rfl
        rfl
    have hj := Nat.mod_lt j hw
    have hone : (1#w <<< (i % w)).getLsbD (j % w) = decide (j = i) := by
      simp only [BitVec.getLsbD_shiftLeft, BitVec.getLsbD_one, hj, ← hsame]
      have := Nat.mod_lt i hw
      rw [Bool.eq_iff_iff]
      simp
      omega
    simp [hij, hget, hone]
  · have hne : j ≠ i := by
      rintro rfl
      exact hij rfl
    simp [hij, hne]

theorem length_setBits (i : ℕ) (bs : List Bool) (ws : List (BitVec w)) :
    (setBits i bs ws).length = ws.length := by
  induction bs generalizing i ws with
  | nil => rfl
  | cons b bs ih =>
    rw [setBits, ih]
    split
    · exact length_setBit ws i
    · rfl

theorem testBit_setBits {i : ℕ} {bs : List Bool} {ws : List (BitVec w)}
    (h : i + bs.length ≤ ws.length * w) (j : ℕ) :
    testBit (setBits i bs ws) j = (testBit ws j || (decide (i ≤ j) && bs.getD (j - i) false)) := by
  induction bs generalizing i ws with
  | nil => simp [setBits]
  | cons b bs ih =>
    rw [List.length_cons] at h
    have hi : i < ws.length * w := by omega
    have hlen : (if b then setBit ws i else ws).length = ws.length := by
      split
      · exact length_setBit ws i
      · rfl
    rw [setBits, ih (by rw [hlen]; omega)]
    have hfirst : testBit (if b then setBit ws i else ws) j =
        (testBit ws j || (b && decide (j = i))) := by
      cases b
      · simp
      · simpa using testBit_setBit hi j
    rw [hfirst, Bool.or_assoc]
    congr 1
    by_cases hj : j = i
    · have hlt : ¬ i + 1 ≤ i := by omega
      simp only [hj, decide_true, Bool.and_true, Nat.le_refl, Nat.sub_self, List.getD_cons_zero,
        Bool.true_and, hlt, decide_false, Bool.false_and, Bool.or_false]
    · by_cases hle : i ≤ j
      · have hsub : j - i = j - (i + 1) + 1 := by omega
        have hle' : i + 1 ≤ j := by omega
        simp [hj, hle, hle', hsub]
      · have hle' : ¬ i + 1 ≤ j := by omega
        simp [hj, hle, hle']

theorem testBit_replicate (n j : ℕ) (hw : 0 < w) :
    testBit (List.replicate n (0 : BitVec w)) j = false := by
  rw [testBit_eq _ _ hw, List.getElem?_replicate]
  split <;> simp

theorem length_bitmap (bs : List Bool) : (bitmap w bs).length = (bs.length + (w - 1)) / w := by
  rw [bitmap, length_setBits, List.length_replicate]

theorem testBit_bitmap (bs : List Bool) (j : ℕ) (hw : 0 < w) :
    testBit (bitmap w bs) j = bs.getD j false := by
  have hroom : 0 + bs.length ≤
      (List.replicate ((bs.length + (w - 1)) / w) (0 : BitVec w)).length * w := by
    have hmod := Nat.div_add_mod (bs.length + (w - 1)) w
    have hlt := Nat.mod_lt (bs.length + (w - 1)) hw
    rw [List.length_replicate, Nat.mul_comm]
    omega
  rw [bitmap, testBit_setBits hroom, testBit_replicate _ _ hw]
  simp

/-! ### One bitmap behind another -/

theorem testBit_append_left {ws : List (BitVec w)} {i : ℕ} (h : i < ws.length * w)
    (ws' : List (BitVec w)) : testBit (ws ++ ws') i = testBit ws i := by
  have hlt : i / w < ws.length := Nat.div_lt_of_lt_mul (by rwa [Nat.mul_comm])
  rw [testBit, testBit, List.getElem?_append_left hlt]

theorem testBit_append_right (ws ws' : List (BitVec w)) (i : ℕ) (hw : 0 < w) :
    testBit (ws ++ ws') (ws.length * w + i) = testBit ws' i := by
  have hdiv : (ws.length * w + i) / w = ws.length + i / w := by
    rw [Nat.mul_comm, Nat.mul_add_div hw]
  have hmod : (ws.length * w + i) % w = i % w := by
    rw [Nat.mul_comm, Nat.mul_add_mod]
  rw [testBit, testBit, hdiv, hmod, List.getElem?_append_right (Nat.le_add_right _ _),
    Nat.add_sub_cancel_left]

end Ydbgo
