import Ydbgo.Lib.BigEndian

/-! # Checked frames

A stream of frames holds, for every payload, its length, its checksum and its bytes. A reader
that stops without a word where a frame is not complete takes a stream that was cut for a
shorter one.
-/

namespace Ydbgo.Frames

def leBytes (w n : ℕ) : Bytes := (beBytes w n).reverse

def leNat (bs : Bytes) : ℕ := beNat bs.reverse

@[simp] theorem length_leBytes (w n : ℕ) : (leBytes w n).length = w := by
  rw [leBytes, List.length_reverse, length_beBytes]

theorem leNat_leBytes {w n : ℕ} (h : n < 256 ^ w) : leNat (leBytes w n) = n := by
  rw [leNat, leBytes, List.reverse_reverse, beNat_beBytes_of_lt h]

variable (sum : Bytes → UInt32)

/-- Lengths are kept modulo 2³². -/
def frame (payload : Bytes) : Bytes :=
  leBytes 4 (payload.length % 2 ^ 32) ++ (leBytes 4 (sum payload).toNat ++ payload)

def stream (ps : List Bytes) : Bytes := ps.flatMap (frame sum)

/-- What a reader finds at the front of a stream. -/
inductive Front
  | stop
  | mismatch
  | payload (p rest : Bytes)

def front (data : Bytes) : Front :=
  if data.length < 8 then .stop
  else
    let len := leNat (data.take 4)
    let body := data.drop 8
    if len = 0 ∨ body.length < len then .stop
    else if (sum (body.take len)).toNat = leNat ((data.drop 4).take 4) then
      .payload (body.take len) (body.drop len)
    else .mismatch

/-- The payloads in front of the first place where the reader stops, and whether a checksum
was wrong there. Every frame takes bytes, so that the length of the data is fuel enough. -/
def payloads : ℕ → Bytes → List Bytes × Bool
  | 0, _ => ([], false)
  | n + 1, data =>
    match front sum data with
    | .stop => ([], false)
    | .mismatch => ([], true)
    | .payload p rest => (payloads n rest).map (List.cons p) id

/-! ### Whole frames -/

/-- A payload that a frame can hold. -/
def Fits (p : Bytes) : Prop := p ≠ [] ∧ p.length < 2 ^ 32

variable {sum} {p : Bytes} {ps : List Bytes}

theorem length_frame (p : Bytes) : (frame sum p).length = p.length + 8 := by
  simp only [frame, List.length_append, length_leBytes]
  omega

theorem length_le_stream (ps : List Bytes) : ps.length ≤ (stream sum ps).length := by
  induction ps with
  | nil => exact Nat.zero_le _
  | cons p ps ih =>
    have hlen := @length_frame sum p
    simp only [stream, List.flatMap_cons, List.length_append, List.length_cons] at ih ⊢
    omega

theorem front_frame (h : Fits p) (rest : Bytes) :
    front sum (frame sum p ++ rest) = .payload p rest := by
  obtain ⟨hne, hlt⟩ := h
  have hsum : (sum p).toNat < 256 ^ 4 := UInt32.toNat_lt _
  have hmod : p.length % 2 ^ 32 = p.length := Nat.mod_eq_of_lt hlt
  have hhead : (frame sum p ++ rest).take 4 = leBytes 4 p.length := by
    rw [frame, hmod, List.append_assoc]
    exact List.take_left' (length_leBytes 4 _)
  have hcheck : ((frame sum p ++ rest).drop 4).take 4 = leBytes 4 (sum p).toNat := by
    rw [frame, List.append_assoc, List.drop_left' (length_leBytes 4 _), List.append_assoc]
    exact List.take_left' (length_leBytes 4 _)
  have hbody : (frame sum p ++ rest).drop 8 = p ++ rest := by
    rw [frame, ← List.append_assoc, List.append_assoc]
    exact List.drop_left' (by rw [List.length_append, length_leBytes, length_leBytes])
  have hlen : ¬ (frame sum p ++ rest).length < 8 := by
    rw [List.length_append, length_frame]
    omega
  have hpos : p.length ≠ 0 := fun h => hne (List.length_eq_zero_iff.mp h)
  rw [front, if_neg hlen]
  simp only [hhead, hcheck, hbody]
  rw [leNat_leBytes (show p.length < 256 ^ 4 from hlt), leNat_leBytes hsum, List.take_left,
    List.drop_left, if_neg (by rw [List.length_append]; omega), if_pos rfl]

/-- A frame that is not complete is no frame. -/
theorem front_take (h : p.length < 2 ^ 32) {k : ℕ} (hk : k < p.length + 8) :
    front sum ((frame sum p).take k) = .stop := by
  have hlen : ((frame sum p).take k).length = k := by
    rw [List.length_take, length_frame, Nat.min_eq_left hk.le]
  rw [front, hlen]
  split
  · rfl
  · rename_i h8
    have hhead : ((frame sum p).take k).take 4 = leBytes 4 p.length := by
      rw [List.take_take, Nat.min_eq_left (by omega), frame, Nat.mod_eq_of_lt h]
      exact List.take_left' (length_leBytes 4 _)
    simp only [hhead]
    rw [leNat_leBytes (show p.length < 256 ^ 4 from h), if_pos]
    rw [List.length_drop, hlen]
    omega

theorem payloads_of_stop {data : Bytes} (h : front sum data = .stop) (n : ℕ) :
    payloads sum n data = ([], false) := by
  cases n with
  | zero => rfl
  | succ n => rw [payloads, h]

theorem payloads_append (h : ∀ p ∈ ps, Fits p) (n : ℕ) (rest : Bytes) :
    payloads sum (ps.length + n) (stream sum ps ++ rest) =
      (ps ++ (payloads sum n rest).1, (payloads sum n rest).2) := by
  induction ps with
  | nil => rw [List.length_nil, Nat.zero_add]; rfl
  | cons p ps ih =>
    obtain ⟨hp, hps⟩ := List.forall_mem_cons.mp h
    have hfuel : (p :: ps).length + n = ps.length + n + 1 := by
      rw [List.length_cons]
      omega
    rw [hfuel, stream, List.flatMap_cons, List.append_assoc, payloads, front_frame hp]
    change (payloads sum (ps.length + n) (stream sum ps ++ rest)).map (List.cons p) id = _
    rw [ih hps]
    rfl

/-- A stream is read back. -/
theorem payloads_stream (h : ∀ p ∈ ps, Fits p) {n : ℕ} (hn : ps.length ≤ n) :
    payloads sum n (stream sum ps) = (ps, false) := by
  obtain ⟨m, rfl⟩ := Nat.exists_eq_add_of_le hn
  have hstop : front sum [] = .stop := rfl
  have hread := @payloads_append sum ps h m []
  rwa [List.append_nil, payloads_of_stop hstop, List.append_nil] at hread

/-! ### Cut streams -/

/-- The payloads whose frames are complete in the first `k` bytes. -/
def complete : ℕ → List Bytes → List Bytes
  | _, [] => []
  | k, p :: ps => if p.length + 8 ≤ k then p :: complete (k - (p.length + 8)) ps else []

theorem prefix_of_complete (k : ℕ) (ps : List Bytes) : complete k ps <+: ps := by
  induction ps generalizing k with
  | nil => exact List.prefix_rfl
  | cons p ps ih =>
    rw [complete]
    split
    · exact (List.prefix_cons_inj p).mpr (ih _)
    · exact List.nil_prefix

theorem prefix_stream_complete (k : ℕ) (ps : List Bytes) :
    stream sum (complete k ps) <+: (stream sum ps).take k := by
  induction ps generalizing k with
  | nil => exact List.nil_prefix
  | cons p ps ih =>
    have hlen := @length_frame sum p
    rw [complete, stream, stream, List.flatMap_cons, List.take_append, hlen]
    split
    · rename_i hk
      rw [List.take_of_length_le (hlen.le.trans hk), List.flatMap_cons]
      exact (List.prefix_append_right_inj _).mpr (ih _)
    · exact List.nil_prefix

theorem length_complete_le (k : ℕ) (ps : List Bytes) :
    (complete k ps).length ≤ ((stream sum ps).take k).length :=
  (length_le_stream _).trans (prefix_stream_complete k ps).length_le

/-- A stream that was cut is read as the frames that are still complete, and nothing is said
of the rest. -/
theorem payloads_take (h : ∀ p ∈ ps, Fits p) {n k : ℕ} (hn : (complete k ps).length ≤ n) :
    payloads sum n ((stream sum ps).take k) = (complete k ps, false) := by
  induction ps generalizing n k with
  | nil => exact payloads_of_stop (by rw [stream, List.flatMap_nil, List.take_nil]; rfl) n
  | cons p ps ih =>
    obtain ⟨hp, hps⟩ := List.forall_mem_cons.mp h
    have hlen := @length_frame sum p
    rw [complete] at hn ⊢
    rw [stream, List.flatMap_cons]
    by_cases hk : p.length + 8 ≤ k
    · rw [if_pos hk] at hn ⊢
      obtain _ | n := n
      · cases hn
      rw [List.take_append, hlen, List.take_of_length_le (hlen.le.trans hk), payloads,
        front_frame hp]
      change (payloads sum n ((stream sum ps).take (k - (p.length + 8)))).map (List.cons p) id = _
      rw [ih hps (Nat.le_of_succ_le_succ hn)]
      rfl
    · rw [if_neg hk, List.take_append_of_le_length (by omega)]
      exact payloads_of_stop (front_take hp.2 (not_le.mp hk)) _

end Ydbgo.Frames
