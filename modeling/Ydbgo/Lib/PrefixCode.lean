import Mathlib.Data.List.Lex
import Mathlib.Data.List.Forall2
import Mathlib.Order.Lattice

/-! # Concatenated codes

Two words are apart when neither is a proper prefix of the other. Sequences of
words that are apart place by place compare, once concatenated, as the
sequences do.
-/

namespace Ydbgo

variable {α : Type} {a b s t k : List α}

def Apart (a b : List α) : Prop := (a <+: b → a = b) ∧ (b <+: a → a = b)

theorem Apart.symm (h : Apart a b) : Apart b a := ⟨fun hp => (h.2 hp).symm, fun hp => (h.1 hp).symm⟩

/-- Words of one length are apart. -/
theorem apart_of_length_eq (h : a.length = b.length) : Apart a b :=
  ⟨fun hp => hp.eq_of_length h, fun hp => (hp.eq_of_length h.symm).symm⟩

theorem Apart.append_left (h : Apart a b) (p : List α) : Apart (p ++ a) (p ++ b) :=
  ⟨fun hp => by rw [h.1 ((List.prefix_append_right_inj p).mp hp)],
    fun hp => by rw [h.2 ((List.prefix_append_right_inj p).mp hp)]⟩

/-- Sequences are ordered as their codes if the values are, place by place. -/
theorem map_lt_map_iff {β γ : Type} [LT γ] {f : β → γ} {r : β → β → Prop} {as bs : List β}
    (h : List.Forall₂ (fun a b => (f a < f b ↔ r a b) ∧ (f a = f b ↔ a = b)) as bs) :
    as.map f < bs.map f ↔ List.Lex r as bs := by
  induction h with
  | nil => exact iff_of_false nofun nofun
  | cons hab _ ih =>
    rw [List.map_cons, List.map_cons, List.cons_lt_cons_iff, List.cons_lex_cons_iff, hab.1, hab.2, ih]

theorem map_eq_map_iff {β γ : Type} {f : β → γ} {as bs : List β}
    (h : List.Forall₂ (fun a b => f a = f b ↔ a = b) as bs) : as.map f = bs.map f ↔ as = bs := by
  induction h with
  | nil => simp
  | cons hab _ ih => rw [List.map_cons, List.map_cons, List.cons.injEq, List.cons.injEq, hab, ih]

/-- A word without the letter `z` ends at the first one. -/
theorem terminated_prefix_iff {z : α} (ha : z ∉ a) (hb : z ∉ b) (s : List α) :
    a ++ z :: s <+: b ++ z :: s ↔ a = b := by
  induction a generalizing b with
  | nil =>
    obtain _ | ⟨y, b⟩ := b
    · simp
    · have hy : ¬ z = y := fun h => hb (h ▸ List.mem_cons_self)
      simp [List.cons_prefix_cons, hy]
  | cons x a ih =>
    have hx : ¬ x = z := fun h => ha (h ▸ List.mem_cons_self)
    obtain _ | ⟨y, b⟩ := b
    · simp [List.cons_prefix_cons, hx]
    · have ih := ih (fun h => ha (List.mem_cons_of_mem _ h)) fun h => hb (List.mem_cons_of_mem _ h)
      simp [List.cons_prefix_cons, ih]

/-- Terminated words without the terminator are apart. -/
theorem apart_terminated {z : α} (ha : z ∉ a) (hb : z ∉ b) (s : List α) :
    Apart (a ++ z :: s) (b ++ z :: s) :=
  ⟨fun h => by rw [(terminated_prefix_iff ha hb s).mp h],
    fun h => by rw [(terminated_prefix_iff hb ha s).mp h]⟩

/-- A concatenation of nonempty words that are apart can be taken apart in one way only. -/
theorem flatten_inj {as bs : List (List α)} (h : ∀ a ∈ as, ∀ b ∈ bs, Apart a b)
    (ha : [] ∉ as) (hb : [] ∉ bs) (heq : as.flatten = bs.flatten) : as = bs := by
  induction as generalizing bs with
  | nil =>
    obtain _ | ⟨b, bs⟩ := bs
    · rfl
    · obtain rfl : b = [] := (List.append_eq_nil_iff.mp heq.symm).1
      exact absurd List.mem_cons_self hb
  | cons a as ih =>
    obtain _ | ⟨b, bs⟩ := bs
    · obtain rfl : a = [] := (List.append_eq_nil_iff.mp heq).1
      exact absurd List.mem_cons_self ha
    · have hap := h a List.mem_cons_self b List.mem_cons_self
      have hpre : a <+: b ++ bs.flatten := ⟨as.flatten, heq⟩
      obtain rfl : a = b := by
        rcases List.prefix_or_prefix_of_prefix hpre (List.prefix_append _ _) with hp | hp
        · exact hap.1 hp
        · exact hap.2 hp
      have htail := ih (fun c hc d hd => h c (List.mem_cons_of_mem _ hc) d (List.mem_cons_of_mem _ hd))
        (fun hn => ha (List.mem_cons_of_mem _ hn)) (fun hn => hb (List.mem_cons_of_mem _ hn))
        (List.append_cancel_left heq)
      rw [htail]

variable [LinearOrder α]

theorem append_lt_append_left : a ++ s < a ++ t ↔ s < t := by
  induction a with
  | nil => rfl
  | cons x a ih => simp [ih]

theorem append_le_append_left : a ++ s ≤ a ++ t ↔ s ≤ t := by
  rw [← not_lt, ← not_lt, append_lt_append_left]

theorem append_lt_of_lt (h : a < b) (hp : ¬ a <+: b) (s t : List α) : a ++ s < b ++ t := by
  induction a generalizing b with
  | nil => exact absurd List.nil_prefix hp
  | cons x a ih =>
    obtain _ | ⟨y, b⟩ := b
    · exact absurd h (List.not_lt_nil _)
    · rcases List.cons_lt_cons_iff.mp h with hxy | ⟨rfl, hab⟩
      · exact List.Lex.rel hxy
      · exact List.Lex.cons (ih hab fun hp' => hp (List.cons_prefix_cons.mpr ⟨rfl, hp'⟩))

theorem Apart.append_lt_iff (h : Apart a b) : a ++ s < b ++ t ↔ a < b ∨ a = b ∧ s < t := by
  rcases lt_trichotomy a b with hab | rfl | hba
  · have hp : ¬ a <+: b := fun hp => hab.ne (h.1 hp)
    simp [hab, append_lt_of_lt hab hp]
  · simp [append_lt_append_left]
  · have hp : ¬ b <+: a := fun hp => hba.ne' (h.2 hp)
    simp [not_lt_of_gt hba, hba.ne', not_lt_of_gt (append_lt_of_lt hba hp t s)]

theorem Apart.append_le_iff (h : Apart a b) : a ++ s ≤ b ++ t ↔ a < b ∨ a = b ∧ s ≤ t := by
  rw [← not_lt, h.symm.append_lt_iff]
  rcases lt_trichotomy a b with hab | rfl | hba
  · simp [hab, not_lt_of_gt hab, hab.ne']
  · simp
  · simp [hba, not_lt_of_gt hba, hba.ne']

/-- A word between two that share a first part shares it, where it can be told apart. -/
theorem Apart.between_iff (h : Apart a b) :
    b ++ s ≤ a ++ k ∧ a ++ k < b ++ t ↔ a = b ∧ s ≤ k ∧ k < t := by
  rw [h.symm.append_le_iff, h.append_lt_iff]
  rcases lt_trichotomy a b with hab | rfl | hba
  · simp [hab.ne, hab.ne', not_lt_of_gt hab]
  · simp
  · simp [hba.ne, hba.ne', not_lt_of_gt hba]

theorem between_flatten_iff {as bs : List (List α)} (h : List.Forall₂ Apart as bs) :
    bs.flatten ++ s ≤ as.flatten ++ k ∧ as.flatten ++ k < bs.flatten ++ t ↔
      as = bs ∧ s ≤ k ∧ k < t := by
  induction h with
  | nil => simp
  | cons hab _ ih =>
    simp only [List.flatten_cons, List.append_assoc, hab.between_iff, ih, List.cons.injEq,
      and_assoc]

/-- Concatenated words compare as the sequences, and what follows them decides between equals. -/
theorem flatten_append_lt_iff {as bs : List (List α)} (h : List.Forall₂ Apart as bs) :
    as.flatten ++ s < bs.flatten ++ t ↔ as < bs ∨ as = bs ∧ s < t := by
  induction h with
  | nil => simp
  | cons hab _ ih =>
    rw [List.flatten_cons, List.flatten_cons, List.append_assoc, List.append_assoc,
      hab.append_lt_iff, ih, List.cons_lt_cons_iff, List.cons.injEq]
    tauto

/-- A terminator below all letters keeps the order. -/
theorem terminated_lt_iff {z : α} (hz : ∀ x, z ≤ x) (ha : z ∉ a) (hb : z ∉ b) (s : List α) :
    a ++ z :: s < b ++ z :: s ↔ a < b := by
  induction a generalizing b with
  | nil =>
    obtain _ | ⟨y, b⟩ := b
    · simp
    · have hy : z < y := lt_of_le_of_ne (hz y) fun h => hb (h ▸ List.mem_cons_self)
      exact iff_of_true (List.Lex.rel hy) (List.nil_lt_cons _ _)
  | cons x a ih =>
    obtain _ | ⟨y, b⟩ := b
    · have hx : z < x := lt_of_le_of_ne (hz x) fun h => ha (h ▸ List.mem_cons_self)
      exact iff_of_false (not_lt_of_gt (List.Lex.rel hx)) (List.not_lt_nil _)
    · have ih := ih (fun h => ha (List.mem_cons_of_mem _ h)) fun h => hb (List.mem_cons_of_mem _ h)
      simp [List.cons_lt_cons_iff, ih]

/-- Nothing but its extensions lies at or above a word of greatest letters. -/
theorem replicate_le_iff {z : α} (hz : ∀ x, x ≤ z) (n : ℕ) :
    List.replicate n z ≤ b ↔ List.replicate n z <+: b := by
  induction n generalizing b with
  | zero => exact iff_of_true (not_lt.mp (List.not_lt_nil _)) List.nil_prefix
  | succ n ih =>
    obtain _ | ⟨y, b⟩ := b
    · simp [List.replicate_succ]
    · rw [List.replicate_succ, List.cons_prefix_cons, ← ih, ← not_lt, ← not_lt,
        List.cons_lt_cons_iff]
      rcases lt_or_eq_of_le (hz y) with h | rfl
      · simp [h, h.ne']
      · simp

/-- The words with a given prefix are those from it on, below the word that its last letter that is
not greatest makes when it is replaced by the next letter. -/
theorem between_prefix_iff {z x y : α} (hz : ∀ x, x ≤ z) (hxy : ∀ w, w < y ↔ w ≤ x) (n : ℕ)
    (q : List α) :
    q ++ x :: List.replicate n z ≤ b ∧ b < q ++ [y] ↔ q ++ x :: List.replicate n z <+: b := by
  induction q generalizing b with
  | nil =>
    obtain _ | ⟨w, b⟩ := b
    · simp
    · rw [List.nil_append, List.nil_append, List.cons_prefix_cons, ← replicate_le_iff hz, ← not_lt,
        ← not_lt, List.cons_lt_cons_iff, List.cons_lt_cons_iff, hxy]
      have hyx : x < y := (hxy x).mpr le_rfl
      rcases lt_trichotomy w x with h | rfl | h
      · simp [h, h.ne']
      · simp [hyx.ne]
      · have hwy : ¬ w < y := fun hw => not_lt_of_ge ((hxy w).mp hw) h
        simp [h.ne, not_le_of_gt h]
  | cons c q ih =>
    obtain _ | ⟨w, b⟩ := b
    · simp
    · rw [List.cons_append, List.cons_append, List.cons_prefix_cons, ← ih, ← not_lt, ← not_lt,
        List.cons_lt_cons_iff, List.cons_lt_cons_iff]
      rcases lt_trichotomy w c with h | rfl | h
      · simp [h, h.ne']
      · simp
      · simp [h.ne, h.ne', not_lt_of_gt h]

end Ydbgo
