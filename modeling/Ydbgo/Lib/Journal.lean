import Ydbgo.Lib.Bytes

/-! # Journals of self-delimiting records

A journal is a concatenation of encoded records. It is read back by decoding
records until nothing is left, folding each into a state. When the decoder
takes one encoded record off any longer input, reading a journal replays its
records in order.
-/

namespace Ydbgo.Journal

variable {α β σ ε : Type}

/-- Decode records until the input is empty, folding them into a state. -/
def scan (dec : Bytes → Except ε (β × Bytes)) (step : σ → β → σ) :
    ℕ → Bytes → σ → Except ε σ
  | 0, _, s => .ok s
  | _ + 1, [], s => .ok s
  | fuel + 1, b :: bs, s => do
    let (r, rest) ← dec (b :: bs)
    scan dec step fuel rest (step s r)

/-- The decoder takes one encoded record off any input, reading it as `f`. -/
def Reads (enc : α → Bytes) (dec : Bytes → Except ε (β × Bytes)) (f : α → β) (a : α) : Prop :=
  enc a ≠ [] ∧ ∀ rest, dec (enc a ++ rest) = .ok (f a, rest)

variable {enc : α → Bytes} {dec : Bytes → Except ε (β × Bytes)} {f : α → β} {step : σ → β → σ}

theorem scan_nil (fuel : ℕ) (s : σ) : scan dec step fuel [] s = .ok s := by
  cases fuel <;> rfl

theorem scan_append {a : α} (h : Reads enc dec f a) (fuel : ℕ) (rest : Bytes) (s : σ) :
    scan dec step (fuel + 1) (enc a ++ rest) s = scan dec step fuel rest (step s (f a)) := by
  obtain ⟨hne, hdec⟩ := h
  obtain ⟨b, bs, hb⟩ := List.exists_cons_of_ne_nil hne
  have hd := hdec rest
  rw [hb, List.cons_append] at hd
  rw [hb, List.cons_append, scan, hd]
  rfl

/-- Reading a journal replays its records in order. -/
theorem scan_flatMap {as : List α} (h : ∀ a ∈ as, Reads enc dec f a) {fuel : ℕ}
    (hfuel : as.length ≤ fuel) (s : σ) :
    scan dec step fuel (as.flatMap enc) s = .ok (as.foldl (fun s a => step s (f a)) s) := by
  induction as generalizing fuel s with
  | nil => exact scan_nil fuel s
  | cons a as ih =>
    obtain ⟨fuel, rfl⟩ : ∃ m, fuel = m + 1 :=
      ⟨fuel - 1, by rw [List.length_cons] at hfuel; omega⟩
    rw [List.flatMap_cons, scan_append (h a (by simp))]
    exact ih (fun x hx => h x (List.mem_cons_of_mem a hx)) (by simpa using hfuel) _

/-- Records in front of other input are replayed before it. -/
theorem scan_flatMap_append {as : List α} (h : ∀ a ∈ as, Reads enc dec f a) (fuel : ℕ) (rest : Bytes)
    (s : σ) : scan dec step (as.length + fuel) (as.flatMap enc ++ rest) s =
      scan dec step fuel rest (as.foldl (fun s a => step s (f a)) s) := by
  induction as generalizing s with
  | nil => rw [List.length_nil, Nat.zero_add, List.flatMap_nil, List.nil_append, List.foldl_nil]
  | cons a as ih =>
    have hfuel : (a :: as).length + fuel = as.length + fuel + 1 := by
      rw [List.length_cons]
      omega
    rw [hfuel, List.flatMap_cons, List.append_assoc, scan_append (h a List.mem_cons_self),
      List.foldl_cons]
    exact ih (fun x hx => h x (List.mem_cons_of_mem a hx)) _

/-- Input that the decoder refuses ends the replay with its error. -/
theorem scan_error {ε' : ε} {bs : Bytes} (hne : bs ≠ []) (h : dec bs = .error ε') (fuel : ℕ) (s : σ) :
    scan dec step (fuel + 1) bs s = .error ε' := by
  obtain ⟨b, bs, rfl⟩ := List.exists_cons_of_ne_nil hne
  rw [scan, h]
  rfl

theorem length_le_flatMap {as : List α} (h : ∀ a ∈ as, enc a ≠ []) :
    as.length ≤ (as.flatMap enc).length := by
  induction as with
  | nil => simp
  | cons a as ih =>
    have ha : 0 < (enc a).length := List.length_pos_iff.mpr (h a (by simp))
    have hi := ih fun x hx => h x (List.mem_cons_of_mem a hx)
    rw [List.flatMap_cons, List.length_append, List.length_cons]
    omega

/-- When every record takes input, the input's length is fuel enough. -/
theorem scan_fuel (hdec : ∀ bs r rest, dec bs = .ok (r, rest) → rest.length < bs.length)
    {fuel : ℕ} (bs : Bytes) (hfuel : bs.length ≤ fuel) (s : σ) :
    scan dec step fuel bs s = scan dec step bs.length bs s := by
  induction fuel using Nat.strong_induction_on generalizing bs s with
  | _ fuel ih =>
    match fuel, bs with
    | 0, bs => rw [List.length_eq_zero_iff.mp (Nat.le_zero.mp hfuel)]; rfl
    | fuel + 1, [] => rfl
    | fuel + 1, b :: bs =>
      rw [List.length_cons, scan, scan]
      match hd : dec (b :: bs) with
      | .error e => rfl
      | .ok (r, rest) =>
        have hr := hdec _ _ _ hd
        rw [List.length_cons] at hr hfuel
        change scan dec step fuel rest _ = scan dec step bs.length rest _
        rw [ih fuel (by omega) rest (by omega)]
        rcases Nat.lt_or_ge bs.length (fuel + 1) with hlt | hge
        · exact (ih bs.length hlt rest (by omega) _).symm
        · omega

end Ydbgo.Journal
