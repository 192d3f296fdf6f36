import Mathlib.Order.Defs.LinearOrder
import Mathlib.Data.List.Sort

/-! # Ordered maps

A finite map as a list of entries in strictly ascending key order, and lists
of entries whose keys repeat in runs. Searching an ordered list for a set of
keys finds the least of them, and the first entries of the runs of a list in
weakly ascending order form an ordered map.
-/

namespace Ydbgo

variable {κ ν : Type} [LinearOrder κ]

/-- Entries in strictly ascending key order. -/
def Ascending (es : List (κ × ν)) : Prop := es.Pairwise fun a b => a.1 < b.1

structure SortedMap (κ ν : Type) [LinearOrder κ] where
  entries : List (κ × ν)
  ascending : Ascending entries

namespace SortedMap

def empty : SortedMap κ ν := ⟨[], List.Pairwise.nil⟩

def insertEntry (k : κ) (v : ν) : List (κ × ν) → List (κ × ν)
  | [] => [(k, v)]
  | (k', v') :: es =>
    if k < k' then (k, v) :: (k', v') :: es
    else if k = k' then (k, v) :: es
    else (k', v') :: insertEntry k v es

theorem mem_insertEntry {k : κ} {v : ν} {es : List (κ × ν)} {e : κ × ν}
    (h : e ∈ insertEntry k v es) : e = (k, v) ∨ e ∈ es := by
  induction es with
  | nil => exact Or.inl (List.mem_singleton.mp h)
  | cons e' es ih =>
    obtain ⟨k', v'⟩ := e'
    rw [insertEntry] at h
    split at h
    · exact List.mem_cons.mp h
    · split at h
      · exact (List.mem_cons.mp h).imp_right (List.mem_cons_of_mem _)
      · rcases List.mem_cons.mp h with rfl | h
        · exact Or.inr List.mem_cons_self
        · exact (ih h).imp_right (List.mem_cons_of_mem _)

theorem ascending_insertEntry (k : κ) (v : ν) {es : List (κ × ν)} (h : Ascending es) :
    Ascending (insertEntry k v es) := by
  induction es with
  | nil => exact List.pairwise_singleton _ _
  | cons e es ih =>
    obtain ⟨k', v'⟩ := e
    obtain ⟨hlt, hes⟩ := List.pairwise_cons.mp h
    rw [insertEntry]
    split
    · rename_i hk
      refine List.Pairwise.cons (fun e he => ?_) h
      rcases List.mem_cons.mp he with rfl | he
      · exact hk
      · exact hk.trans (hlt e he)
    · rename_i hk
      split
      · rename_i he
        subst he
        exact List.Pairwise.cons hlt hes
      · rename_i hne
        refine List.Pairwise.cons (fun e he => ?_) (ih hes)
        rcases mem_insertEntry he with rfl | he
        · exact lt_of_le_of_ne (not_lt.mp hk) (Ne.symm hne)
        · exact hlt e he

def insert (m : SortedMap κ ν) (k : κ) (v : ν) : SortedMap κ ν :=
  ⟨insertEntry k v m.entries, ascending_insertEntry k v m.ascending⟩

/-- Inserting outside a set of keys leaves the least entry in the set as it was. -/
theorem find?_insertEntry_of_not (p : κ → Bool) {k : κ} (hk : p k = false) (v : ν)
    (es : List (κ × ν)) :
    (insertEntry k v es).find? (fun e => p e.1) = es.find? fun e => p e.1 := by
  induction es with
  | nil => simp [insertEntry, hk]
  | cons e es ih =>
    obtain ⟨k', v'⟩ := e
    rw [insertEntry]
    split
    · rw [List.find?_cons, hk]
    · split
      · rename_i he
        subst he
        rw [List.find?_cons, List.find?_cons, hk]
      · rw [List.find?_cons, List.find?_cons, ih]

/-- Inserting the least key of a set makes it the first entry found. -/
theorem find?_insertEntry_of_min (p : κ → Bool) {k : κ} (hk : p k = true) (v : ν)
    {es : List (κ × ν)} (h : ∀ e ∈ es, p e.1 = true → k ≤ e.1) :
    (insertEntry k v es).find? (fun e => p e.1) = some (k, v) := by
  induction es with
  | nil => simp [insertEntry, hk]
  | cons e es ih =>
    obtain ⟨k', v'⟩ := e
    rw [insertEntry]
    split
    · rw [List.find?_cons, hk]
    · rename_i hlt
      split
      · rw [List.find?_cons, hk]
      · rename_i hne
        have hp : p k' = false := by
          by_contra hp
          have := h (k', v') List.mem_cons_self (by simpa using hp)
          exact hne (le_antisymm this (not_lt.mp hlt))
        rw [List.find?_cons, hp]
        exact ih fun e he => h e (List.mem_cons_of_mem _ he)

/-! ### Reading a key -/

def getEntry (k : κ) (es : List (κ × ν)) : Option ν :=
  (es.find? fun e => decide (e.1 = k)).map Prod.snd

def get (m : SortedMap κ ν) (k : κ) : Option ν := getEntry k m.entries

@[simp] theorem getEntry_nil (k : κ) : getEntry k ([] : List (κ × ν)) = none := rfl

theorem getEntry_cons (k k' : κ) (v : ν) (es : List (κ × ν)) :
    getEntry k ((k', v) :: es) = if k' = k then some v else getEntry k es := by
  unfold getEntry
  rw [List.find?_cons]
  by_cases h : k' = k <;> simp [h]

theorem getEntry_append (k : κ) (es es' : List (κ × ν)) :
    getEntry k (es ++ es') = (getEntry k es).or (getEntry k es') := by
  unfold getEntry
  rw [List.find?_append]
  cases es.find? fun e => decide (e.1 = k) <;> rfl

theorem getEntry_eq_some_of_ne {k : κ} {v : ν} {es : List (κ × ν)}
    (h : es.Pairwise fun a b => a.1 ≠ b.1) : getEntry k es = some v ↔ (k, v) ∈ es := by
  induction es with
  | nil => simp
  | cons e es ih =>
    obtain ⟨k', v'⟩ := e
    obtain ⟨hne, hes⟩ := List.pairwise_cons.mp h
    rw [getEntry_cons, List.mem_cons]
    by_cases hk : k' = k
    · subst hk
      have hnot : (k', v) ∉ es := fun hm => hne (k', v) hm rfl
      simp [hnot, eq_comm]
    · simp [hk, ih hes, Ne.symm hk]

theorem getEntry_eq_some {k : κ} {v : ν} {es : List (κ × ν)} (h : Ascending es) :
    getEntry k es = some v ↔ (k, v) ∈ es :=
  getEntry_eq_some_of_ne (List.Pairwise.imp (fun hlt => ne_of_lt hlt) h)

theorem getEntry_eq_none {k : κ} {es : List (κ × ν)} :
    getEntry k es = none ↔ ∀ v, (k, v) ∉ es := by
  induction es with
  | nil => simp
  | cons e es ih =>
    obtain ⟨k', v'⟩ := e
    rw [getEntry_cons]
    by_cases hk : k' = k
    · subst hk
      simp only [if_true, reduceCtorEq, false_iff, not_forall, not_not]
      exact ⟨v', List.mem_cons_self⟩
    · simp [hk, ih, Ne.symm hk]

theorem mem_of_getEntry {k : κ} {v : ν} {es : List (κ × ν)} (h : getEntry k es = some v) :
    (k, v) ∈ es := by
  obtain ⟨e, he, rfl⟩ := Option.map_eq_some_iff.mp h
  have hk : e.1 = k := by simpa using List.find?_some he
  rw [← hk]
  exact List.mem_of_find?_eq_some he

/-- An entry whose value is made of its key as well. -/
theorem getEntry_map_key {μ : Type} (f : κ → ν → μ) (k : κ) (es : List (κ × ν)) :
    getEntry k (es.map fun e => (e.1, f e.1 e.2)) = (getEntry k es).map (f k) := by
  induction es with
  | nil => rfl
  | cons e es ih =>
    rw [List.map_cons, getEntry_cons, ih, getEntry_cons]
    split
    · rename_i h
      rw [h]
      rfl
    · rfl

theorem getEntry_map {μ : Type} (f : ν → μ) (k : κ) (es : List (κ × ν)) :
    getEntry k (es.map fun e => (e.1, f e.2)) = (getEntry k es).map f :=
  getEntry_map_key (fun _ => f) k es

theorem getEntry_filter (p : κ → Bool) (k : κ) (es : List (κ × ν)) :
    getEntry k (es.filter fun e => p e.1) = if p k then getEntry k es else none := by
  induction es with
  | nil => simp
  | cons e es ih =>
    obtain ⟨k', v⟩ := e
    rw [List.filter_cons, getEntry_cons]
    by_cases hk : k' = k
    · subst hk
      cases hp : p k' <;> simp [ih, getEntry_cons, hp]
    · cases hp : p k' <;> simp [ih, getEntry_cons, hk]

theorem getEntry_reverse {k : κ} {es : List (κ × ν)} (h : es.Pairwise fun a b => a.1 ≠ b.1) :
    getEntry k es.reverse = getEntry k es := by
  have h' : es.reverse.Pairwise fun a b => a.1 ≠ b.1 :=
    List.pairwise_reverse.mpr (h.imp Ne.symm)
  ext v
  rw [getEntry_eq_some_of_ne h', getEntry_eq_some_of_ne h, List.mem_reverse]

/-- Looking up in a list of entries with different keys. -/
theorem getEntry_of_getElem? {es : List (κ × ν)} (h : (es.map Prod.fst).Nodup) {i : ℕ} {k : κ}
    {v : ν} (he : es[i]? = some (k, v)) : getEntry k es.reverse = some v := by
  have hne : es.Pairwise fun a b => a.1 ≠ b.1 := List.pairwise_map.mp h
  rw [getEntry_reverse hne, getEntry_eq_some_of_ne hne]
  exact List.mem_of_getElem? he

/-- Looking up in a list of different keys with their values. -/
theorem getEntry_zip {ks : List κ} {vs : List ν} (hks : ks.Nodup)
    {i : ℕ} {k : κ} {v : ν} (hk : ks[i]? = some k) (hv : vs[i]? = some v) :
    getEntry k (ks.zip vs).reverse = some v := by
  refine getEntry_of_getElem? (i := i) (List.pairwise_map.mpr ?_)
    (List.getElem?_zip_eq_some.mpr ⟨hk, hv⟩)
  rw [List.pairwise_iff_getElem]
  intro j l hj hl hlt heq
  simp only [List.getElem_zip] at heq
  rw [List.length_zip] at hj hl
  have := (List.Nodup.getElem_inj_iff hks).mp heq
  omega

/-- The entries of one key. -/
theorem filter_key (k : κ) {es : List (κ × ν)} (h : es.Pairwise fun a b => a.1 ≠ b.1) :
    es.filter (fun e => decide (e.1 = k)) = ((getEntry k es).map (Prod.mk k)).toList := by
  induction es with
  | nil => rfl
  | cons e es ih =>
    obtain ⟨k', v⟩ := e
    obtain ⟨hne, hes⟩ := List.pairwise_cons.mp h
    rw [List.filter_cons, getEntry_cons, ih hes]
    by_cases hk : k' = k
    · subst hk
      have hnone : getEntry k' es = none :=
        getEntry_eq_none.mpr fun w hw => hne (k', w) hw rfl
      simp [hnone]
    · simp [hk]

theorem get_eq_some {m : SortedMap κ ν} {k : κ} {v : ν} : m.get k = some v ↔ (k, v) ∈ m.entries :=
  getEntry_eq_some m.ascending

@[simp] theorem get_empty (k : κ) : (empty : SortedMap κ ν).get k = none := rfl

theorem getEntry_insertEntry {k k' : κ} {v : ν} {es : List (κ × ν)} :
    getEntry k' (insertEntry k v es) = if k = k' then some v else getEntry k' es := by
  induction es with
  | nil => simp [insertEntry, getEntry_cons]
  | cons e es ih =>
    obtain ⟨k'', v''⟩ := e
    rw [insertEntry]
    split
    · rw [getEntry_cons]
    · split
      · rename_i hk
        subst hk
        by_cases hk' : k = k' <;> simp [getEntry_cons, hk']
      · rename_i hne
        rw [getEntry_cons, ih, getEntry_cons]
        by_cases hk : k'' = k'
        · subst hk
          simp [hne]
        · simp [hk]

theorem get_insert (m : SortedMap κ ν) (k k' : κ) (v : ν) :
    (m.insert k v).get k' = if k = k' then some v else m.get k' :=
  getEntry_insertEntry

theorem mem_insert {m : SortedMap κ ν} {k : κ} {v : ν} {e : κ × ν} :
    e ∈ (m.insert k v).entries ↔ e = (k, v) ∨ k ≠ e.1 ∧ e ∈ m.entries := by
  obtain ⟨k', v'⟩ := e
  rw [← get_eq_some, get_insert, ← get_eq_some]
  by_cases h : k = k'
  · subst h
    simp [eq_comm]
  · simp [h, Ne.symm h]

/-- The entries that satisfy `p`. -/
def filter (p : κ → ν → Bool) (m : SortedMap κ ν) : SortedMap κ ν :=
  ⟨m.entries.filter fun e => p e.1 e.2, m.ascending.filter _⟩

theorem get_filter (p : κ → ν → Bool) (m : SortedMap κ ν) (k : κ) :
    (m.filter p).get k = (m.get k).filter (p k) := by
  ext v
  rw [get_eq_some, Option.filter_eq_some_iff, get_eq_some]
  simp [filter]

theorem filter_congr {p q : κ → ν → Bool} {m : SortedMap κ ν}
    (h : ∀ k v, m.get k = some v → p k v = q k v) : m.filter p = m.filter q := by
  have he : (m.filter p).entries = (m.filter q).entries :=
    List.filter_congr fun e hmem => h e.1 e.2 (get_eq_some.mpr hmem)
  unfold filter at he ⊢
  congr 1

/-- The map without a key. -/
def erase (m : SortedMap κ ν) (k : κ) : SortedMap κ ν := m.filter fun k' _ => k' ≠ k

theorem get_erase (m : SortedMap κ ν) (k k' : κ) :
    (m.erase k).get k' = if k = k' then none else m.get k' := by
  rw [erase, get_filter]
  by_cases h : k = k'
  · cases m.get k' <;> simp [Option.filter, h]
  · cases m.get k' <;> simp [Option.filter, h, Ne.symm h]

def keys (m : SortedMap κ ν) : List κ := m.entries.map Prod.fst

theorem mem_keys {m : SortedMap κ ν} {k : κ} : k ∈ m.keys ↔ (m.get k).isSome := by
  rw [keys, List.mem_map, Option.isSome_iff_exists]
  simp only [get_eq_some, Prod.exists]
  constructor
  · rintro ⟨_, v, hm, rfl⟩
    exact ⟨v, hm⟩
  · rintro ⟨v, hm⟩
    exact ⟨k, v, hm, rfl⟩

theorem nodup_keys (m : SortedMap κ ν) : m.keys.Nodup :=
  List.pairwise_map.mpr (m.ascending.imp fun h => h.ne)

theorem ascending_map {μ : Type} (f : ν → μ) {es : List (κ × ν)} (h : Ascending es) :
    Ascending (es.map fun e => (e.1, f e.2)) := by
  unfold Ascending
  rw [List.pairwise_map]
  exact h

/-- The map with `f` applied to the values. -/
def map {μ : Type} (f : ν → μ) (m : SortedMap κ ν) : SortedMap κ μ :=
  ⟨m.entries.map fun e => (e.1, f e.2), ascending_map f m.ascending⟩

theorem get_map {μ : Type} (f : ν → μ) (m : SortedMap κ ν) (k : κ) :
    (m.map f).get k = (m.get k).map f := by
  ext v
  rw [get_eq_some, Option.map_eq_some_iff]
  simp only [map, List.mem_map, get_eq_some, Prod.mk.injEq, Prod.exists]
  constructor
  · rintro ⟨_, w, hw, rfl, rfl⟩
    exact ⟨w, hw, rfl⟩
  · rintro ⟨w, hw, rfl⟩
    exact ⟨k, w, hw, rfl, rfl⟩

end SortedMap

/-! ## Runs of equal keys -/

/-- The first entry of each run of equal keys, skipping a run of `prev` at the front. -/
def firstOfRuns : Option κ → List (κ × ν) → List (κ × ν)
  | _, [] => []
  | prev, (k, v) :: es =>
    if prev = some k then firstOfRuns prev es else (k, v) :: firstOfRuns (some k) es

theorem mem_of_mem_firstOfRuns {prev : Option κ} {es : List (κ × ν)} {e : κ × ν}
    (h : e ∈ firstOfRuns prev es) : e ∈ es := by
  induction es generalizing prev with
  | nil => exact h
  | cons e' es ih =>
    obtain ⟨k, v⟩ := e'
    rw [firstOfRuns] at h
    split at h
    · exact List.mem_cons_of_mem _ (ih h)
    · exact (List.mem_cons.mp h).elim (fun he => he ▸ List.mem_cons_self)
        fun h => List.mem_cons_of_mem _ (ih h)

theorem lt_of_mem_firstOfRuns {p : κ} {es : List (κ × ν)}
    (hes : es.Pairwise fun a b => a.1 ≤ b.1) (hp : ∀ e ∈ es, p ≤ e.1) {e : κ × ν}
    (h : e ∈ firstOfRuns (some p) es) : p < e.1 := by
  induction es with
  | nil => simp [firstOfRuns] at h
  | cons e' es ih =>
    obtain ⟨k, v⟩ := e'
    obtain ⟨hle, hes⟩ := List.pairwise_cons.mp hes
    rw [firstOfRuns] at h
    split at h
    · exact ih hes (fun e he => hp e (List.mem_cons_of_mem _ he)) h
    · rename_i hne
      have hlt : p < k :=
        lt_of_le_of_ne (hp _ List.mem_cons_self) fun he => hne (by rw [he])
      rcases List.mem_cons.mp h with rfl | h
      · exact hlt
      · exact lt_of_lt_of_le hlt (hle e (mem_of_mem_firstOfRuns h))

theorem ascending_firstOfRuns (prev : Option κ) {es : List (κ × ν)}
    (hes : es.Pairwise fun a b => a.1 ≤ b.1) : Ascending (firstOfRuns prev es) := by
  induction es generalizing prev with
  | nil => exact List.Pairwise.nil
  | cons e es ih =>
    obtain ⟨k, v⟩ := e
    obtain ⟨hle, hes⟩ := List.pairwise_cons.mp hes
    rw [firstOfRuns]
    split
    · exact ih prev hes
    · exact List.Pairwise.cons (fun e he => lt_of_mem_firstOfRuns hes hle he) (ih _ hes)

theorem mem_firstOfRuns_some {q : κ} {es : List (κ × ν)}
    (hes : es.Pairwise fun a b => a.1 ≤ b.1) (hq : ∀ e ∈ es, q ≤ e.1) {k : κ} {p : κ → Bool}
    (hp : ∀ k', p k' = true ↔ k' = k) (v : ν) :
    (k, v) ∈ firstOfRuns (some q) es ↔ q ≠ k ∧ es.find? (fun e => p e.1) = some (k, v) := by
  induction es generalizing q with
  | nil => simp [firstOfRuns]
  | cons e es ih =>
    obtain ⟨k', v'⟩ := e
    obtain ⟨hle, htl⟩ := List.pairwise_cons.mp hes
    rw [firstOfRuns, List.find?_cons]
    split
    · rename_i hqk
      obtain rfl : q = k' := Option.some.inj hqk
      rw [ih htl fun e he => hq e (List.mem_cons_of_mem _ he)]
      by_cases hk : q = k
      · simp [hk]
      · simp [hk, Bool.eq_false_iff.mpr fun h => hk ((hp q).mp h)]
    · rename_i hne
      rw [List.mem_cons, ih htl hle]
      by_cases hk : k' = k
      · subst hk
        have : q ≠ k' := fun he => hne (by rw [he])
        simp [this, (hp k').mpr rfl, eq_comm]
      · have hkk : ∀ v, (k, v) ≠ (k', v') := fun v he => hk (congrArg Prod.fst he).symm
        have hqk : es.find? (fun e => p e.1) = some (k, v) → q ≠ k := by
          rintro hf rfl
          have hm := List.mem_of_find?_eq_some hf
          have h₁ := hle _ hm
          have h₂ := hq (k', v') List.mem_cons_self
          exact hk (le_antisymm h₁ h₂)
        simp only [hkk, false_or, Bool.eq_false_iff.mpr fun h => hk ((hp k').mp h), ne_eq, hk,
          not_false_eq_true, true_and]
        exact ⟨fun h => ⟨hqk h, h⟩, fun h => h.2⟩

/-- The first of the runs are, key by key, the first entries of the list. -/
theorem mem_firstOfRuns {es : List (κ × ν)} (hes : es.Pairwise fun a b => a.1 ≤ b.1) {k : κ}
    {p : κ → Bool} (hp : ∀ k', p k' = true ↔ k' = k) (v : ν) :
    (k, v) ∈ firstOfRuns none es ↔ es.find? (fun e => p e.1) = some (k, v) := by
  obtain _ | ⟨⟨k', v'⟩, es⟩ := es
  · simp [firstOfRuns]
  · obtain ⟨hle, hes⟩ := List.pairwise_cons.mp hes
    rw [firstOfRuns, if_neg (by simp), List.mem_cons, mem_firstOfRuns_some hes hle hp,
      List.find?_cons]
    by_cases hk : k' = k
    · subst hk
      simp [(hp k').mpr rfl, eq_comm]
    · have hkk : (k, v) ≠ (k', v') := fun he => hk (congrArg Prod.fst he).symm
      simp [hkk, hk, Bool.eq_false_iff.mpr fun h => hk ((hp k').mp h)]

theorem firstOfRuns_of_forall {q : κ} {es : List (κ × ν)} (h : ∀ e ∈ es, e.1 = q) :
    firstOfRuns (some q) es = [] := by
  induction es with
  | nil => rfl
  | cons e es ih =>
    obtain ⟨k, v⟩ := e
    obtain rfl : k = q := h (k, v) List.mem_cons_self
    rw [firstOfRuns, if_pos rfl]
    exact ih fun e he => h e (List.mem_cons_of_mem _ he)

/-- A run shows its first entry. -/
theorem firstOfRuns_run {q : κ} {es : List (κ × ν)} (h : ∀ e ∈ es, e.1 = q) :
    firstOfRuns none es = es.head?.toList := by
  cases es with
  | nil => rfl
  | cons e es =>
    obtain ⟨k, v⟩ := e
    obtain rfl : k = q := h (k, v) List.mem_cons_self
    have hrest : ∀ e ∈ es, e.1 = k := fun e he => h e (List.mem_cons_of_mem _ he)
    simp [firstOfRuns, firstOfRuns_of_forall hrest]

/-- Lists without a common key have their runs one after the other. -/
theorem firstOfRuns_append {es es' : List (κ × ν)} (h : ∀ e ∈ es, ∀ e' ∈ es', e.1 ≠ e'.1)
    {prev : Option κ} (hprev : ∀ e' ∈ es', prev ≠ some e'.1) :
    firstOfRuns prev (es ++ es') = firstOfRuns prev es ++ firstOfRuns none es' := by
  induction es generalizing prev with
  | nil =>
    cases es' with
    | nil => rfl
    | cons e' es' =>
      obtain ⟨k, v⟩ := e'
      simp [firstOfRuns, hprev (k, v) List.mem_cons_self]
  | cons e es ih =>
    obtain ⟨k, w⟩ := e
    have htl : ∀ e ∈ es, ∀ e' ∈ es', e.1 ≠ e'.1 := fun e he => h e (List.mem_cons_of_mem _ he)
    rw [List.cons_append, firstOfRuns, firstOfRuns]
    split
    · exact ih htl hprev
    · have hk : ∀ e' ∈ es', some k ≠ some e'.1 := fun e' he' heq =>
        h (k, w) List.mem_cons_self e' he' (Option.some.inj heq)
      rw [ih htl hk, List.cons_append]

/-! ## Scans of a map -/

/-- `out` lists the entries of the map `m` on the keys of `P`, in ascending order. -/
def Scans (m : κ → Option ν) (P : κ → Prop) (out : List (κ × ν)) : Prop :=
  Ascending out ∧ ∀ k v, (k, v) ∈ out ↔ P k ∧ m k = some v

/-- A map has one scan. -/
theorem Scans.unique {m : κ → Option ν} {P : κ → Prop} {out out' : List (κ × ν)}
    (h : Scans m P out) (h' : Scans m P out') : out = out' := by
  have hnodup : ∀ {es : List (κ × ν)}, Ascending es → es.Nodup := fun hes =>
    List.Pairwise.imp (fun hlt he => ne_of_lt hlt (congrArg Prod.fst he)) hes
  refine List.Perm.eq_of_pairwise ?_ h.1 h'.1
    ((List.perm_ext_iff_of_nodup (hnodup h.1) (hnodup h'.1)).mpr fun e => ?_)
  · exact fun a b _ _ hab hba => absurd hab (lt_asymm hba)
  · exact (h.2 e.1 e.2).trans (h'.2 e.1 e.2).symm

/-- The entries of a map scan it. -/
theorem SortedMap.scans (m : SortedMap κ ν) : Scans m.get (fun _ => True) m.entries :=
  ⟨m.ascending, fun _ _ => by rw [true_and, get_eq_some]⟩

theorem SortedMap.ext_get {m m' : SortedMap κ ν} (h : ∀ k, m.get k = m'.get k) : m = m' := by
  obtain ⟨es, hes⟩ := m
  obtain ⟨es', hes'⟩ := m'
  obtain rfl : es = es' := by
    refine (SortedMap.scans ⟨es, hes⟩).unique ?_
    rw [show SortedMap.get ⟨es, hes⟩ = SortedMap.get ⟨es', hes'⟩ from funext h]
    exact SortedMap.scans ⟨es', hes'⟩
  rfl

theorem SortedMap.insert_eq_self {m : SortedMap κ ν} {k : κ} {v : ν} (h : m.get k = some v) :
    m.insert k v = m := by
  refine SortedMap.ext_get fun k' => ?_
  rw [SortedMap.get_insert]
  split
  · rename_i hk
    rw [← hk, h]
  · rfl

theorem Scans.congr {m m' : κ → Option ν} {P : κ → Prop} {out : List (κ × ν)}
    (h : Scans m P out) (hm : ∀ k, P k → m k = m' k) : Scans m' P out := by
  refine ⟨h.1, fun k v => (h.2 k v).trans ?_⟩
  exact and_congr_right fun hk => by rw [hm k hk]

theorem find?_eq_of_forall {α : Type} {p q : α → Bool} {es : List α} (h : ∀ a ∈ es, p a = q a) :
    es.find? p = es.find? q := by
  induction es with
  | nil => rfl
  | cons a es ih =>
    rw [List.find?_cons, List.find?_cons, h a List.mem_cons_self,
      ih fun b hb => h b (List.mem_cons_of_mem _ hb)]

/-- On a list in order, a predicate that only ever turns false keeps a prefix. -/
theorem takeWhile_eq_filter {α : Type} {p : α → Bool} {es : List α}
    (h : es.Pairwise fun a b => p b = true → p a = true) : es.takeWhile p = es.filter p := by
  induction es with
  | nil => rfl
  | cons a es ih =>
    obtain ⟨ha, hes⟩ := List.pairwise_cons.mp h
    cases hp : p a with
    | true => rw [List.takeWhile_cons_of_pos hp, List.filter_cons_of_pos hp, ih hes]
    | false =>
      rw [List.takeWhile_cons_of_neg (by simp [hp]), List.filter_cons_of_neg (by simp [hp])]
      refine (List.filter_eq_nil_iff.mpr fun b hb hpb => ?_).symm
      rw [ha b hb hpb] at hp
      cases hp

/-- On a list in order, dropping while such a predicate holds keeps the rest. -/
theorem dropWhile_eq_filter {α : Type} {p : α → Bool} {es : List α}
    (h : es.Pairwise fun a b => p b = true → p a = true) :
    es.dropWhile p = es.filter fun a => !p a := by
  induction es with
  | nil => rfl
  | cons a es ih =>
    obtain ⟨ha, hes⟩ := List.pairwise_cons.mp h
    cases hp : p a with
    | true =>
      rw [List.dropWhile_cons_of_pos hp, List.filter_cons_of_neg (by simp [hp]), ih hes]
    | false =>
      rw [List.dropWhile_cons_of_neg (by simp [hp])]
      refine (List.filter_eq_self.mpr fun b hb => ?_).symm
      rcases List.mem_cons.mp hb with rfl | hb
      · simp [hp]
      · cases hpb : p b with
        | true => exact absurd (ha b hb hpb) (by simp [hp])
        | false => rfl

/-- Such a predicate splits the list in two. -/
theorem filter_append_filter_not {α : Type} {p : α → Bool} {es : List α}
    (h : es.Pairwise fun a b => p b = true → p a = true) :
    es.filter p ++ es.filter (fun a => !p a) = es := by
  induction es with
  | nil => rfl
  | cons a es ih =>
    obtain ⟨ha, hes⟩ := List.pairwise_cons.mp h
    cases hp : p a with
    | true => rw [List.filter_cons_of_pos hp, List.filter_cons_of_neg (by simp [hp]),
        List.cons_append, ih hes]
    | false =>
      have hnil : es.filter p = [] := List.filter_eq_nil_iff.mpr fun b hb hpb => by
        rw [ha b hb hpb] at hp
        cases hp
      have hi := ih hes
      rw [hnil, List.nil_append] at hi
      rw [List.filter_cons_of_neg (by simp [hp]), List.filter_cons_of_pos (by simp [hp]), hnil, hi]
      rfl

/-- A new key goes between the smaller ones and the larger ones. -/
theorem SortedMap.insertEntry_between {k : κ} (v : ν) {es es' : List (κ × ν)}
    (h : ∀ e ∈ es, e.1 < k) (h' : ∀ e ∈ es', k < e.1) :
    insertEntry k v (es ++ es') = es ++ (k, v) :: es' := by
  induction es with
  | nil =>
    cases es' with
    | nil => rfl
    | cons e es' => exact if_pos (h' e List.mem_cons_self)
  | cons e es ih =>
    obtain ⟨hlt, hes⟩ := List.forall_mem_cons.mp h
    rw [List.cons_append, insertEntry, if_neg hlt.not_gt, if_neg hlt.ne', ih hes]
    rfl

theorem SortedMap.insert_comm (m : SortedMap κ ν) {k k' : κ} (h : k ≠ k') (v v' : ν) :
    (m.insert k v).insert k' v' = (m.insert k' v').insert k v := by
  refine SortedMap.ext_get fun k'' => ?_
  simp only [SortedMap.get_insert]
  split
  · rename_i hk
    rw [if_neg fun hk' => h (hk'.trans hk.symm)]
  · rfl

/-- A list in order has one entry for each key. -/
theorem firstOfRuns_of_ascending {es : List (κ × ν)} (h : Ascending es) {prev : Option κ}
    (hprev : ∀ e ∈ es, prev ≠ some e.1) : firstOfRuns prev es = es := by
  induction es generalizing prev with
  | nil => rfl
  | cons e es ih =>
    obtain ⟨hlt, hes⟩ := List.pairwise_cons.mp h
    rw [firstOfRuns, if_neg (hprev e List.mem_cons_self),
      ih hes fun e' he' heq => (hlt e' he').ne (Option.some.inj heq)]

theorem SortedMap.get_foldl_insert (es : List (κ × ν)) (m : SortedMap κ ν) (k : κ) :
    (es.foldl (fun m e => m.insert e.1 e.2) m).get k = (getEntry k es.reverse).or (m.get k) := by
  induction es generalizing m with
  | nil => rfl
  | cons e es ih =>
    rw [List.foldl_cons, ih, List.reverse_cons, getEntry_append, get_insert, getEntry_cons,
      getEntry_nil, Option.or_assoc]
    split <;> rfl

/-- A walk over entries with different keys, each of which changes what is under its key. -/
theorem SortedMap.foldl_entries {σ τ : Type} (look : σ → κ → τ) {step : σ → κ × ν → σ}
    {change : κ × ν → τ → τ} (h : ∀ s e, look (step s e) e.1 = change e (look s e.1))
    (hother : ∀ s e k, e.1 ≠ k → look (step s e) k = look s k) (m : SortedMap κ ν) (s : σ) (k : κ) :
    look (m.entries.foldl step s) k =
      (m.get k).elim (look s k) fun v => change (k, v) (look s k) := by
  obtain ⟨es, hes⟩ := m
  change look (es.foldl step s) k = (getEntry k es).elim _ _
  induction es generalizing s with
  | nil => rfl
  | cons e es ih =>
    obtain ⟨hlt, htail⟩ := List.pairwise_cons.mp hes
    obtain ⟨k', v⟩ := e
    rw [List.foldl_cons, ih _ htail, getEntry_cons]
    by_cases hk : k' = k
    · subst hk
      have hnone : getEntry k' es = none := getEntry_eq_none.mpr fun w hw => (hlt _ hw).ne rfl
      simp only [hnone, if_true, Option.elim]
      exact h s (k', v)
    · simp only [hk, if_false, hother s (k', v) k hk]

end Ydbgo
