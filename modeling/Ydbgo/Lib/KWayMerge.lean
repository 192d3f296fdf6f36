import Ydbgo.Lib.SortedMap

/-! # Merging ordered runs

Taking the least of the heads of several ordered runs, again and again, puts all
their entries in order. The entries of one key then follow one another.
-/

namespace Ydbgo

section Pop

variable {α : Type} (le : α → α → Bool)

/-- The least of the heads, and the runs without it. -/
def popLeast : List (List α) → Option (α × List (List α))
  | [] => none
  | [] :: runs => popLeast runs
  | (a :: run) :: runs =>
    match popLeast runs with
    | none => some (a, [run])
    | some (b, runs') => if le a b then some (a, run :: runs) else some (b, (a :: run) :: runs')

def popAll : ℕ → List (List α) → List α
  | 0, _ => []
  | fuel + 1, runs =>
    match popLeast le runs with
    | none => []
    | some (a, runs') => a :: popAll fuel runs'

/-- The entries of the runs in the order in which they are popped. -/
def mergeRuns (runs : List (List α)) : List α := popAll le runs.flatten.length runs

variable {le}

theorem popLeast_eq_none {runs : List (List α)} (h : popLeast le runs = none) :
    runs.flatten = [] := by
  induction runs with
  | nil => rfl
  | cons run runs ih =>
    obtain _ | ⟨a, run⟩ := run
    · exact ih h
    · rw [popLeast] at h
      split at h
      · cases h
      · split at h <;> cases h

theorem popLeast_perm {runs runs' : List (List α)} {a : α}
    (h : popLeast le runs = some (a, runs')) : runs.flatten.Perm (a :: runs'.flatten) := by
  induction runs generalizing a runs' with
  | nil => cases h
  | cons run runs ih =>
    obtain _ | ⟨b, run⟩ := run
    · exact ih h
    · rw [popLeast] at h
      split at h
      · rename_i hnone
        cases h
        simp [popLeast_eq_none hnone]
      · rename_i c runs'' hsome
        split at h
        · cases h
          simp
        · cases h
          have hperm := (ih hsome).append_left (b :: run)
          simpa using hperm.trans List.perm_middle

/-- The popped entry is least, and what is left is ordered as before. -/
theorem popLeast_least (htotal : ∀ a b, le a b = true ∨ le b a = true)
    (htrans : ∀ a b c, le a b = true → le b c = true → le a c = true)
    {runs runs' : List (List α)} {a : α} (hruns : ∀ run ∈ runs, run.Pairwise (le · · = true))
    (h : popLeast le runs = some (a, runs')) :
    (∀ b ∈ runs'.flatten, le a b = true) ∧ ∀ run ∈ runs', run.Pairwise (le · · = true) := by
  induction runs generalizing a runs' with
  | nil => cases h
  | cons run runs ih =>
    rw [List.forall_mem_cons] at hruns
    obtain ⟨hrun, hruns⟩ := hruns
    obtain _ | ⟨b, run⟩ := run
    · exact ih hruns h
    · obtain ⟨hb, htail⟩ := List.pairwise_cons.mp hrun
      rw [popLeast] at h
      split at h
      · cases h
        simpa using ⟨hb, htail⟩
      · rename_i c runs'' hsome
        obtain ⟨hc, hrest⟩ := ih hruns hsome
        split at h
        · rename_i hbc
          cases h
          refine ⟨fun d hd => ?_, List.forall_mem_cons.mpr ⟨htail, hruns⟩⟩
          rw [List.flatten_cons, List.mem_append, (popLeast_perm hsome).mem_iff,
            List.mem_cons] at hd
          rcases hd with hd | rfl | hd
          · exact hb d hd
          · exact hbc
          · exact htrans _ _ _ hbc (hc d hd)
        · rename_i hbc
          cases h
          have hcb : le a b = true := (htotal b a).resolve_left hbc
          refine ⟨fun d hd => ?_, List.forall_mem_cons.mpr ⟨hrun, hrest⟩⟩
          rw [List.flatten_cons, List.cons_append, List.mem_cons, List.mem_append] at hd
          rcases hd with rfl | hd | hd
          · exact hcb
          · exact htrans _ _ _ hcb (hb d hd)
          · exact hc d hd

theorem popAll_perm {fuel : ℕ} {runs : List (List α)} (h : runs.flatten.length = fuel) :
    (popAll le fuel runs).Perm runs.flatten := by
  induction fuel generalizing runs with
  | zero => rw [List.length_eq_zero_iff.mp h, popAll]
  | succ fuel ih =>
    rw [popAll]
    split
    · rename_i hnone
      simp [popLeast_eq_none hnone] at h
    · rename_i a runs' hsome
      have hperm := popLeast_perm hsome
      have hlen := hperm.length_eq
      rw [List.length_cons] at hlen
      exact ((ih (by omega)).cons a).trans hperm.symm

theorem mergeRuns_perm (runs : List (List α)) : (mergeRuns le runs).Perm runs.flatten :=
  popAll_perm rfl

theorem popAll_ordered (htotal : ∀ a b, le a b = true ∨ le b a = true)
    (htrans : ∀ a b c, le a b = true → le b c = true → le a c = true) {fuel : ℕ}
    {runs : List (List α)} (hfuel : runs.flatten.length = fuel)
    (hruns : ∀ run ∈ runs, run.Pairwise (le · · = true)) :
    (popAll le fuel runs).Pairwise (le · · = true) := by
  induction fuel generalizing runs with
  | zero => exact List.Pairwise.nil
  | succ fuel ih =>
    rw [popAll]
    split
    · exact List.Pairwise.nil
    · rename_i a runs' hsome
      obtain ⟨hleast, hruns'⟩ := popLeast_least htotal htrans hruns hsome
      have hlen := (popLeast_perm hsome).length_eq
      rw [List.length_cons] at hlen
      have hfuel' : runs'.flatten.length = fuel := by omega
      refine List.Pairwise.cons (fun b hb => hleast b ?_) (ih hfuel' hruns')
      exact (popAll_perm hfuel').mem_iff.mp hb

theorem mergeRuns_ordered (htotal : ∀ a b, le a b = true ∨ le b a = true)
    (htrans : ∀ a b c, le a b = true → le b c = true → le a c = true) {runs : List (List α)}
    (hruns : ∀ run ∈ runs, run.Pairwise (le · · = true)) :
    (mergeRuns le runs).Pairwise (le · · = true) :=
  popAll_ordered htotal htrans rfl hruns

end Pop

section Groups

variable {κ ν : Type} [DecidableEq κ]

/-- The values of each run of equal keys. -/
def groupRuns : List (κ × ν) → List (κ × List ν)
  | [] => []
  | (k, v) :: es =>
    match groupRuns es with
    | [] => [(k, [v])]
    | (k', vs) :: gs => if k' = k then (k, v :: vs) :: gs else (k, [v]) :: (k', vs) :: gs

/-- The values of a key in a list of entries. -/
def valuesOf (k : κ) (es : List (κ × ν)) : List ν := (es.filter (·.1 = k)).map Prod.snd

theorem valuesOf_cons (k k' : κ) (v : ν) (es : List (κ × ν)) :
    valuesOf k ((k', v) :: es) = if k' = k then v :: valuesOf k es else valuesOf k es := by
  by_cases h : k' = k <;> simp [valuesOf, h]

theorem valuesOf_eq_nil {k : κ} {es : List (κ × ν)} :
    valuesOf k es = [] ↔ ∀ e ∈ es, e.1 ≠ k := by
  simp [valuesOf]

theorem head_groupRuns (k : κ) (v : ν) (es : List (κ × ν)) :
    ∃ vs gs, groupRuns ((k, v) :: es) = (k, vs) :: gs := by
  rw [groupRuns]
  split
  · exact ⟨_, _, rfl⟩
  · split <;> exact ⟨_, _, rfl⟩

variable {R : κ → κ → Prop}

/-- The keys of the groups of an ordered list are strictly ordered, and the group of a key has all
its values, in order. -/
theorem groupRuns_spec {es : List (κ × ν)} (hirrefl : ∀ k, ¬ R k k)
    (htrans : ∀ a b c, R a b → R b c → R a c)
    (h : es.Pairwise fun a b => R a.1 b.1 ∨ a.1 = b.1) :
    (groupRuns es).Pairwise (fun a b => R a.1 b.1) ∧
      ∀ k vs, (k, vs) ∈ groupRuns es ↔ vs ≠ [] ∧ vs = valuesOf k es := by
  induction es with
  | nil => simp [groupRuns, valuesOf]
  | cons e es ih =>
    obtain ⟨k, v⟩ := e
    obtain ⟨hle, hes⟩ := List.pairwise_cons.mp h
    obtain ⟨hord, hmem⟩ := ih hes
    obtain _ | ⟨⟨k', v'⟩, es⟩ := es
    · refine ⟨List.pairwise_singleton _ _, fun a ws => ?_⟩
      rw [valuesOf_cons, groupRuns, groupRuns, List.mem_singleton]
      by_cases ha : k = a
      · subst ha
        simp only [Prod.mk.injEq, true_and, if_true]
        exact ⟨fun h => ⟨by simp [h], h⟩, And.right⟩
      · simp [ha, Ne.symm ha, valuesOf]
    obtain ⟨vs, gs, hgs⟩ := head_groupRuns k' v' es
    rw [hgs] at hord hmem
    obtain ⟨hlt, hgs'⟩ := List.pairwise_cons.mp hord
    rw [groupRuns, hgs]
    dsimp only
    have hvs := (hmem k' vs).mp List.mem_cons_self
    by_cases hk : k' = k
    · subst hk
      rw [if_pos rfl]
      refine ⟨List.pairwise_cons.mpr ⟨hlt, hgs'⟩, fun a ws => ?_⟩
      rw [valuesOf_cons, List.mem_cons]
      by_cases ha : k' = a
      · subst ha
        have hnot : (k', ws) ∉ gs := fun hm => hirrefl k' (hlt (k', ws) hm)
        simp only [Prod.mk.injEq, true_and, hnot, or_false, if_true, ← hvs.2]
        exact ⟨fun h => ⟨by simp [h], h⟩, And.right⟩
      · rw [if_neg ha, ← hmem a ws, List.mem_cons]
        simp [Ne.symm ha]
    · rw [if_neg hk]
      have hkk' : R k k' := (hle (k', v') List.mem_cons_self).resolve_right (Ne.symm hk)
      have hlater : ∀ e ∈ (k', v') :: es, R k e.1 := by
        rintro e he
        rcases List.mem_cons.mp he with rfl | he
        · exact hkk'
        · rcases (List.pairwise_cons.mp hes).1 e he with h | h
          · exact htrans _ _ _ hkk' h
          · exact h ▸ hkk'
      have hnil : valuesOf k ((k', v') :: es) = [] :=
        valuesOf_eq_nil.mpr fun e he h => hirrefl k (h ▸ hlater e he)
      have hgroups : ∀ g ∈ (k', vs) :: gs, R k g.1 := by
        rintro g hg
        rcases List.mem_cons.mp hg with rfl | hg
        · exact hkk'
        · exact htrans _ _ _ hkk' (hlt g hg)
      refine ⟨List.pairwise_cons.mpr ⟨hgroups, hord⟩, fun a ws => ?_⟩
      rw [valuesOf_cons, List.mem_cons, hmem a ws]
      by_cases ha : k = a
      · subst ha
        simp only [Prod.mk.injEq, true_and, hnil, if_true]
        constructor
        · rintro (rfl | ⟨hne, rfl⟩)
          · simp
          · exact absurd rfl hne
        · exact fun h => .inl h.2
      · simp [ha, Ne.symm ha]

theorem valuesOf_flatten (k : κ) (runs : List (List (κ × ν))) :
    valuesOf k runs.flatten = runs.flatMap (valuesOf k) := by
  induction runs with
  | nil => rfl
  | cons run runs ih =>
    rw [List.flatten_cons, List.flatMap_cons, ← ih]
    simp [valuesOf]

end Groups

/-- Where no two entries have the same key, a key has one value at most. -/
theorem valuesOf_of_ne {κ ν : Type} [LinearOrder κ] [DecidableEq κ] {k : κ} {es : List (κ × ν)}
    (h : es.Pairwise fun a b => a.1 ≠ b.1) : valuesOf k es = (SortedMap.getEntry k es).toList := by
  induction es with
  | nil => rfl
  | cons e es ih =>
    obtain ⟨k', v⟩ := e
    obtain ⟨hne, hes⟩ := List.pairwise_cons.mp h
    rw [valuesOf_cons, SortedMap.getEntry_cons, ih hes]
    by_cases hk : k' = k
    · subst hk
      have hnone : SortedMap.getEntry k' es = none :=
        SortedMap.getEntry_eq_none.mpr fun v hv => hne (k', v) hv rfl
      simp [hnone]
    · simp [hk]

end Ydbgo
