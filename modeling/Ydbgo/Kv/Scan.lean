import Ydbgo.Kv.Store
import Ydbgo.Lib.Writes

/-! # Scans of the versioned store

As long as no stored key followed by a NUL is a prefix of another key or of a
bound, the groups of versions are contiguous and in key order. Then the scans
visit exactly the keys in their bounds, once each, with their newest version.
-/

namespace Ydbgo.Kv

/-! ## Physical keys -/

@[simp] theorem length_revSuffix (rev : UInt64) : (revSuffix rev).length = 8 := length_beBytes _ _

@[simp] theorem extractKey_dataKey (key : Bytes) (rev : UInt64) :
    extractKey (dataKey key rev) = key := by
  simp [extractKey, dataKey]

/-- Newer versions have smaller suffixes. -/
theorem revSuffix_lt_iff (r r' : UInt64) : revSuffix r < revSuffix r' ↔ r' < r := by
  rw [revSuffix, revSuffix, beBytes_lt_iff (by have := (~~~r).toNat_lt; omega)
    (by have := (~~~r').toNat_lt; omega), UInt64.lt_iff_toNat_lt]
  have h : (~~~r).toNat = 2 ^ 64 - 1 - r.toNat := by simp
  have h' : (~~~r').toNat = 2 ^ 64 - 1 - r'.toNat := by simp
  have := r.toNat_lt
  have := r'.toNat_lt
  omega

theorem dataKey_lt_iff (key : Bytes) (r r' : UInt64) :
    dataKey key r < dataKey key r' ↔ r' < r := by
  rw [dataKey, dataKey, List.cons_lt_cons_iff, append_lt_append_iff, List.cons_lt_cons_iff,
    revSuffix_lt_iff]
  simp

/-- No key followed by a NUL is a prefix of another key or of a bound. -/
def Separated (keys bounds : List Bytes) : Prop :=
  ∀ a ∈ keys, ∀ b ∈ keys ++ bounds, ¬ a ++ [0] <+: b

instance (keys bounds : List Bytes) : Decidable (Separated keys bounds) :=
  inferInstanceAs (Decidable (∀ a ∈ keys, ∀ b ∈ keys ++ bounds, ¬ a ++ [0] <+: b))

theorem dataKey_lt_of_lt {a b : Bytes} (h : a < b) (hn : ¬ a ++ [0] <+: b) (r r' : UInt64) :
    dataKey a r < dataKey b r' := by
  rw [dataKey, dataKey, List.cons_lt_cons_iff]
  exact Or.inr ⟨rfl, append_zero_lt h hn _ _⟩

/-! ## Contents -/

/-- The logical keys with a version in the store. -/
def Store.keys (s : Store) : List Bytes := s.db.entries.map fun e => extractKey e.1

/-- The newest stored version of a key. -/
def Store.newest (s : Store) (key : Bytes) : Option Bytes :=
  (s.db.entries.find? fun e => extractKey e.1 = key).map Prod.snd

/-- The value a stored version carries, unless it is a tombstone. -/
def live (val : Bytes) : Option Bytes := if (visible val).2 then none else some (visible val).1

/-- The committed map. -/
def Store.content (s : Store) (key : Bytes) : Option Bytes := (s.newest key).bind live

/-- The logical entries, versions of one key in a run. -/
def rawEntries (es : List (Bytes × Bytes)) : List (Bytes × Bytes) :=
  es.map fun e => (extractKey e.1, e.2)

/-- The write an operation makes to the committed map. -/
def Op.write (op : Op) : Bytes × Option Bytes := (op.key, if op.delete then none else some op.value)

theorem live_version (op : Op) : live op.version = op.write.2 := by
  obtain ⟨key, value, delete⟩ := op
  cases delete <;> simp [Op.version, Op.write, live, visible, flagTomb, flagLive]

theorem newest_insert (db : SortedMap Bytes Bytes) (op : Op) {rev : UInt64}
    (h : ∀ e ∈ db.entries, ∃ key r, e.1 = dataKey key r ∧ r ≤ rev) (key : Bytes) :
    ((db.insert (dataKey op.key rev) op.version).entries.find? fun e => extractKey e.1 = key).map
        Prod.snd =
      if key = op.key then some op.version
      else (db.entries.find? fun e => extractKey e.1 = key).map Prod.snd := by
  set p : Bytes → Bool := fun dk => decide (extractKey dk = key) with hp
  split
  · rename_i hk
    subst hk
    have hmin : ∀ e ∈ db.entries, p e.1 = true → dataKey op.key rev ≤ e.1 := by
      intro e he hpe
      obtain ⟨k, r, hk, hr⟩ := h e he
      have : k = op.key := by simpa [hp, hk] using hpe
      rw [hk, this, ← not_lt, dataKey_lt_iff, UInt64.not_lt]
      exact hr
    have hfind := SortedMap.find?_insertEntry_of_min p (by simp [hp]) op.version hmin
    exact congrArg (Option.map Prod.snd) hfind
  · rename_i hk
    have hpk : p (dataKey op.key rev) = false := by simpa [hp] using fun h => hk h.symm
    have hfind := SortedMap.find?_insertEntry_of_not p hpk op.version db.entries
    exact congrArg (Option.map Prod.snd) hfind

theorem content_batch {ops : List Op} {db : SortedMap Bytes Bytes} {rev : UInt64}
    (h : ∀ e ∈ db.entries, ∃ key r, e.1 = dataKey key r ∧ r ≤ rev) {m : Bytes → Option Bytes}
    (hm : ∀ key, ((db.entries.find? fun e => extractKey e.1 = key).map Prod.snd).bind live = m key)
    (key : Bytes) :
    (((batch rev ops db).entries.find? fun e => extractKey e.1 = key).map Prod.snd).bind live =
      Writes.apply m (ops.map Op.write) key := by
  induction ops generalizing db m with
  | nil => exact hm key
  | cons op ops ih =>
    rw [List.map_cons, Writes.apply_cons]
    refine ih (fun e he => ?_) fun k => ?_
    · rcases SortedMap.mem_insertEntry he with rfl | he
      · exact ⟨op.key, rev, rfl, UInt64.le_refl rev⟩
      · exact h e he
    · rw [newest_insert db op h]
      by_cases hk : k = op.key
      · subst hk
        have : op.write.1 = op.key := rfl
        rw [if_pos rfl, Option.bind_some, live_version, ← this, Function.update_self]
      · have : k ≠ op.write.1 := hk
        rw [if_neg hk, Function.update_of_ne this]
        exact hm k

/-- What a successful `Apply` does. -/
theorem apply_cases {s s' : Store} {rev : UInt64} {ops : List Op} (h : s.apply rev ops = .ok s') :
    (ops = [] ∧ s' = s) ∨ ∃ r, s.last < r ∧ s'.last = r ∧ s'.db = batch r ops s.db := by
  rw [Store.apply] at h
  split at h
  · rename_i hops
    cases h
    exact Or.inl ⟨hops, rfl⟩
  · right
    refine ⟨if rev = 0 then s.last + 1 else rev, ?_⟩
    rw [Store.applyAt] at h
    by_cases hlt : s.last < if rev = 0 then s.last + 1 else rev
    · rw [dif_pos hlt] at h
      cases h
      exact ⟨hlt, rfl, rfl⟩
    · rw [dif_neg hlt] at h
      cases h

/-- Applying a batch overrides the committed map with it. -/
theorem content_apply {s s' : Store} {rev : UInt64} {ops : List Op}
    (h : s.apply rev ops = .ok s') (key : Bytes) :
    s'.content key = Writes.apply s.content (ops.map Op.write) key := by
  obtain ⟨rfl, rfl⟩ | ⟨r, hlt, -, hdb⟩ := apply_cases h
  · rfl
  · rw [Store.content, Store.newest, hdb]
    refine content_batch (fun e he => ?_) (fun _ => rfl) key
    obtain ⟨k, r', hk, -, hr⟩ := s.versions e he
    exact ⟨k, r', hk, UInt64.le_trans hr (UInt64.le_of_lt hlt)⟩

theorem keys_batch {ops : List Op} {db : SortedMap Bytes Bytes} {rev : UInt64} {k : Bytes}
    (h : k ∈ (batch rev ops db).entries.map fun e => extractKey e.1) :
    k ∈ (db.entries.map fun e => extractKey e.1) ++ ops.map Op.key := by
  induction ops generalizing db with
  | nil => simpa [batch] using h
  | cons op ops ih =>
    rcases List.mem_append.mp (ih h) with hk | hk
    · obtain ⟨e, he, rfl⟩ := List.mem_map.mp hk
      rcases SortedMap.mem_insertEntry he with rfl | he
      · simp
      · exact List.mem_append_left _ (List.mem_map_of_mem he)
    · simp [hk]

theorem keys_apply {s s' : Store} {rev : UInt64} {ops : List Op} (h : s.apply rev ops = .ok s')
    {k : Bytes} (hk : k ∈ s'.keys) : k ∈ s.keys ++ ops.map Op.key := by
  obtain ⟨rfl, rfl⟩ | ⟨r, -, -, hdb⟩ := apply_cases h
  · exact List.mem_append_left _ hk
  · rw [Store.keys, hdb] at hk
    exact keys_batch hk

theorem Separated.mono {keys keys' bounds bounds' : List Bytes} (h : Separated keys bounds)
    (hk : keys' ⊆ keys) (hb : bounds' ⊆ bounds) : Separated keys' bounds' := fun a ha b hb' =>
  h a (hk ha) b ((List.mem_append.mp hb').elim (fun h => List.mem_append_left _ (hk h))
    fun h => List.mem_append_right _ (hb h))

/-! ## The order of the entries -/

variable {s : Store} {bounds : List Bytes}

theorem extractKey_mem {e : Bytes × Bytes} (he : e ∈ s.db.entries) : extractKey e.1 ∈ s.keys :=
  List.mem_map_of_mem he

@[simp] theorem revOf_dataKey (key : Bytes) (rev : UInt64) : revOf (dataKey key rev) = rev := by
  have hlen : (dataKey key rev).length - 8 = (dataTag :: (key ++ [0])).length := by
    simp [dataKey]
  have hsplit : dataKey key rev = (dataTag :: (key ++ [0])) ++ revSuffix rev := by simp [dataKey]
  have hdrop : (dataKey key rev).drop ((dataKey key rev).length - 8) = revSuffix rev := by
    rw [hlen, hsplit, List.drop_left]
  rw [revOf, hdrop, revSuffix, beNat_beBytes_of_lt (~~~rev).toNat_lt, UInt64.ofNat_toNat]
  exact UInt64.not_not

theorem exists_rev {e : Bytes × Bytes} (he : e ∈ s.db.entries) :
    ∃ rev, e.1 = dataKey (extractKey e.1) rev ∧ 0 < rev ∧ rev ≤ s.last := by
  obtain ⟨key, rev, hk, hr⟩ := s.versions e he
  exact ⟨rev, by rw [hk, extractKey_dataKey], hr⟩

/-- A physical key is made of its key and its revision. -/
theorem eq_dataKey {e : Bytes × Bytes} (he : e ∈ s.db.entries) :
    e.1 = dataKey (extractKey e.1) (revOf e.1) := by
  obtain ⟨rev, hrev, -⟩ := exists_rev he
  have : revOf e.1 = rev := by rw [hrev, revOf_dataKey]
  rw [this]
  exact hrev

theorem revOf_bounds {e : Bytes × Bytes} (he : e ∈ s.db.entries) :
    0 < revOf e.1 ∧ revOf e.1 ≤ s.last := by
  obtain ⟨rev, hrev, h⟩ := exists_rev he
  have : revOf e.1 = rev := by rw [hrev, revOf_dataKey]
  rwa [this]

/-- Where an entry lies about the versions of a stored key. -/
theorem entry_lt_iff (hs : Separated s.keys bounds) {e : Bytes × Bytes}
    (he : e ∈ s.db.entries) {k : Bytes} (hk : k ∈ s.keys) (R : UInt64) :
    e.1 < dataKey k R ↔ extractKey e.1 < k ∨ extractKey e.1 = k ∧ R < revOf e.1 := by
  constructor
  · intro h
    rcases lt_trichotomy (extractKey e.1) k with hlt | heq | hgt
    · exact Or.inl hlt
    · rw [eq_dataKey he, heq, dataKey_lt_iff] at h
      exact Or.inr ⟨heq, h⟩
    · have hn := hs _ hk _ (List.mem_append_left bounds (extractKey_mem he))
      have hlt := dataKey_lt_of_lt hgt hn R (revOf e.1)
      rw [← eq_dataKey he] at hlt
      exact absurd h (lt_asymm hlt)
  · rintro (hlt | ⟨heq, hR⟩)
    · rw [eq_dataKey he]
      exact dataKey_lt_of_lt hlt (hs _ (extractKey_mem he) _ (List.mem_append_left bounds hk)) _ _
    · rw [eq_dataKey he, heq, dataKey_lt_iff]
      exact hR

theorem lt_dataUpper_iff (hs : Separated s.keys bounds) {e : Bytes × Bytes}
    (he : e ∈ s.db.entries) {k : Bytes} (hk : k ∈ s.keys) :
    e.1 < dataUpper k ↔ extractKey e.1 ≤ k := by
  have hn := hs _ (extractKey_mem he) _ (List.mem_append_left bounds hk)
  have hn' := hs _ hk _ (List.mem_append_left bounds (extractKey_mem he))
  rw [eq_dataKey he, extractKey_dataKey, dataKey, dataUpper, List.cons_lt_cons_iff]
  simp only [lt_irrefl, true_and, false_or]
  constructor
  · intro h
    by_contra hlt
    exact absurd h (not_lt.mpr (append_one_le_of_lt (not_le.mp hlt) hn' _))
  · intro h
    rcases eq_or_lt_of_le h with heq | hlt
    · rw [heq, append_lt_append_iff]
      exact List.Lex.rel (by decide)
    · exact append_zero_lt hlt hn _ _

theorem extractKey_le_of_lt (hs : Separated s.keys bounds) {e e' : Bytes × Bytes}
    (he : e ∈ s.db.entries) (he' : e' ∈ s.db.entries) (h : e.1 < e'.1) :
    extractKey e.1 ≤ extractKey e'.1 := by
  rw [eq_dataKey he', entry_lt_iff hs he (extractKey_mem he')] at h
  rcases h with h | h
  · exact le_of_lt h
  · exact le_of_eq h.1

/-- Under separation the entries come in weakly ascending logical key order. -/
theorem pairwise_extractKey (hs : Separated s.keys bounds) :
    s.db.entries.Pairwise fun e e' => extractKey e.1 ≤ extractKey e'.1 :=
  s.db.ascending.imp_of_mem fun he he' h => extractKey_le_of_lt hs he he' h

/-- The bounds of an iterator, on physical keys and on logical ones. -/
theorem lower_le_iff (hs : Separated s.keys bounds) {start : Bytes} (hb : start ∈ bounds)
    {e : Bytes × Bytes} (he : e ∈ s.db.entries) :
    dataTag :: (start ++ [0]) ≤ e.1 ↔ start ≤ extractKey e.1 := by
  have hn := hs _ (extractKey_mem he) _ (List.mem_append_right _ hb)
  rw [eq_dataKey he, extractKey_dataKey, dataKey, cons_le_cons_self]
  constructor
  · intro h
    by_contra hlt
    exact absurd h (not_le.mpr (append_zero_lt (not_le.mp hlt) hn _ [0]))
  · intro h
    rcases eq_or_lt_of_le h with heq | hlt
    · rw [← heq, ← not_lt, append_lt_append_iff]
      simp
    · exact append_zero_le_of_lt hlt _

theorem lt_dataUpper (hs : Separated s.keys bounds) {stop : Bytes} (hb : stop ∈ bounds)
    {e : Bytes × Bytes} (he : e ∈ s.db.entries) (h : extractKey e.1 < stop) :
    e.1 < dataUpper stop := by
  have hn := hs _ (extractKey_mem he) _ (List.mem_append_right _ hb)
  rw [eq_dataKey he, dataKey, dataUpper, List.cons_lt_cons_iff]
  exact Or.inr ⟨rfl, append_zero_lt h hn _ _⟩

/-! ## The versions a scan shows -/

/-- The keys in the bounds of a scan. -/
def within (start stop : Option Bytes) (k : Bytes) : Bool :=
  !(start.any fun a => decide (k < a)) && !past stop k

theorem within_iff (start stop : Option Bytes) (k : Bytes) :
    within start stop k = true ↔ (∀ a ∈ start, a ≤ k) ∧ ∀ b ∈ stop, k < b := by
  cases start <;> cases stop <;> simp [within, past]

/-- What a range calls back with for one logical entry. -/
def visit (e : Bytes × Bytes) : Bytes × Bytes × Bool := (e.1, visible e.2)

/-- The newest version not newer than `R` of each key in the bounds, among some entries. -/
def shown (R : UInt64) (start stop : Option Bytes) (es : List (Bytes × Bytes)) :
    List (Bytes × Bytes) :=
  firstOfRuns none (rawEntries (es.filter fun e =>
    decide (revOf e.1 ≤ R) && within start stop (extractKey e.1)))

/-- The newest version of a key not newer than `R`, among some entries. -/
def newestIn (R : UInt64) (key : Bytes) (es : List (Bytes × Bytes)) : Option Bytes :=
  (es.find? fun e => decide (extractKey e.1 = key) && decide (revOf e.1 ≤ R)).map Prod.snd

def Store.newestAt (s : Store) (R : UInt64) (key : Bytes) : Option Bytes :=
  newestIn R key s.db.entries

/-- The newer of two versions of a key comes first. -/
theorem lt_iff_revOf_lt {e x : Bytes × Bytes} (he : e ∈ s.db.entries) (hx : x ∈ s.db.entries)
    (h : extractKey x.1 = extractKey e.1) : x.1 < e.1 ↔ revOf e.1 < revOf x.1 := by
  rw [eq_dataKey hx, eq_dataKey he, h, dataKey_lt_iff, revOf_dataKey, revOf_dataKey]

theorem isSome_newestIn {R : UInt64} {k : Bytes} {es : List (Bytes × Bytes)} {e : Bytes × Bytes}
    (he : e ∈ es) (hk : extractKey e.1 = k) (hR : revOf e.1 ≤ R) : (newestIn R k es).isSome := by
  rw [newestIn, Option.isSome_map, List.find?_isSome]
  exact ⟨e, he, by simp [hk, hR]⟩

theorem newestIn_eq_some_iff {es : List (Bytes × Bytes)} (hes : es.Sublist s.db.entries)
    (R : UInt64) (k v : Bytes) :
    newestIn R k es = some v ↔ ∃ e ∈ es, extractKey e.1 = k ∧ revOf e.1 ≤ R ∧ e.2 = v ∧
      ∀ x ∈ es, extractKey x.1 = k → revOf x.1 ≤ R → revOf x.1 ≤ revOf e.1 := by
  have hasc : Ascending es := s.db.ascending.sublist hes
  have hfirst : ∀ e, (es.find? fun e => decide (extractKey e.1 = k) && decide (revOf e.1 ≤ R)) =
      some e → e ∈ es ∧ extractKey e.1 = k ∧ revOf e.1 ≤ R ∧
        ∀ x ∈ es, extractKey x.1 = k → revOf x.1 ≤ R → revOf x.1 ≤ revOf e.1 := by
    intro e hf
    obtain ⟨hp, as, bs, rfl, has⟩ := List.find?_eq_some_iff_append.mp hf
    simp only [Bool.and_eq_true, decide_eq_true_eq] at hp
    refine ⟨by simp, hp.1, hp.2, fun x hx hxk hxR => ?_⟩
    rcases List.mem_append.mp hx with hx' | hx'
    · have := has x hx'
      simp [hxk, hxR] at this
    · rcases List.mem_cons.mp hx' with rfl | hx'
      · exact UInt64.le_refl _
      · have hlt := (List.pairwise_cons.mp (List.pairwise_append.mp hasc).2.1).1 x hx'
        rw [lt_iff_revOf_lt (hes.subset hx) (hes.subset (by simp)) (hp.1.trans hxk.symm)] at hlt
        exact UInt64.le_of_lt hlt
  rw [newestIn, Option.map_eq_some_iff]
  constructor
  · rintro ⟨e, hf, rfl⟩
    obtain ⟨hm, hk, hR, hmax⟩ := hfirst e hf
    exact ⟨e, hm, hk, hR, rfl, hmax⟩
  · rintro ⟨e, hm, hk, hR, rfl, hmax⟩
    cases hf : es.find? fun e => decide (extractKey e.1 = k) && decide (revOf e.1 ≤ R) with
    | none =>
      have := List.find?_eq_none.mp hf e hm
      simp [hk, hR] at this
    | some e' =>
      obtain ⟨hm', hk', hR', hmax'⟩ := hfirst e' hf
      have hrev : revOf e'.1 = revOf e.1 :=
        UInt64.le_antisymm (hmax e' hm' hk' hR') (hmax' e hm hk hR)
      have hdk : e'.1 = e.1 := by
        rw [eq_dataKey (hes.subset hm'), eq_dataKey (hes.subset hm), hrev, hk, hk']
      have hval := SortedMap.get_eq_some.mpr (hes.subset hm')
      rw [hdk, SortedMap.get_eq_some.mpr (hes.subset hm)] at hval
      exact ⟨e', rfl, (Option.some.inj hval).symm⟩

theorem newestAt_last (s : Store) (key : Bytes) : s.newestAt s.last key = s.newest key := by
  refine congrArg (Option.map Prod.snd) (find?_eq_of_forall fun e he => ?_)
  simp [(revOf_bounds he).2]

theorem pairwise_rawEntries {es : List (Bytes × Bytes)} (hs : Separated s.keys bounds)
    (hes : es.Sublist s.db.entries) : (rawEntries es).Pairwise fun e e' => e.1 ≤ e'.1 :=
  List.pairwise_map.mpr ((pairwise_extractKey hs).sublist hes)

theorem ascending_shown (hs : Separated s.keys bounds) {es : List (Bytes × Bytes)}
    (hes : es.Sublist s.db.entries) (R : UInt64) (start stop : Option Bytes) :
    Ascending (shown R start stop es) :=
  ascending_firstOfRuns none (pairwise_rawEntries hs (List.filter_sublist.trans hes))

/-- A scan shows the newest versions of the keys in its bounds. -/
theorem mem_shown (hs : Separated s.keys bounds) {es : List (Bytes × Bytes)}
    (hes : es.Sublist s.db.entries) (R : UInt64) (start stop : Option Bytes) (k v : Bytes) :
    (k, v) ∈ shown R start stop es ↔ within start stop k = true ∧ newestIn R k es = some v := by
  have hp : ∀ k' : Bytes, decide (k' = k) = true ↔ k' = k := fun k' => decide_eq_true_iff
  have hmap (es : List (Bytes × Bytes)) : (rawEntries es).find? (fun e => decide (e.1 = k)) =
      (es.find? fun e => decide (extractKey e.1 = k)).map fun e => (extractKey e.1, e.2) :=
    List.find?_map
  have hfind : (es.filter fun e =>
      decide (revOf e.1 ≤ R) && within start stop (extractKey e.1)).find?
        (fun e => decide (extractKey e.1 = k)) =
      es.find? fun e =>
        within start stop k && (decide (extractKey e.1 = k) && decide (revOf e.1 ≤ R)) := by
    rw [List.find?_filter]
    refine find?_eq_of_forall fun e _ => ?_
    by_cases hek : extractKey e.1 = k
    · simp [hek, Bool.and_comm]
    · simp [hek]
  rw [shown, mem_firstOfRuns (pairwise_rawEntries hs (List.filter_sublist.trans hes)) hp, hmap,
    hfind, newestIn]
  cases hw : within start stop k with
  | false =>
    have hnone : es.find? (fun _ => false) = none := List.find?_eq_none.mpr (by simp)
    simp [hnone]
  | true =>
    simp only [Bool.true_and, true_and]
    cases hf : es.find? fun e => decide (extractKey e.1 = k) && decide (revOf e.1 ≤ R) with
    | none => simp
    | some e =>
      have hek := List.find?_some hf
      simp only [Bool.and_eq_true, decide_eq_true_eq] at hek
      simp [hek.1]

theorem scans_shown (hs : Separated s.keys bounds) {es : List (Bytes × Bytes)}
    (hes : es.Sublist s.db.entries) (R : UInt64) (start stop : Option Bytes) :
    Scans (fun k => newestIn R k es) (fun k => within start stop k = true)
      (shown R start stop es) :=
  ⟨ascending_shown hs hes R start stop, mem_shown hs hes R start stop⟩

theorem shown_append {es es' : List (Bytes × Bytes)}
    (h : ∀ e ∈ es, ∀ e' ∈ es', extractKey e.1 ≠ extractKey e'.1) (R : UInt64)
    (start stop : Option Bytes) :
    shown R start stop (es ++ es') = shown R start stop es ++ shown R start stop es' := by
  unfold shown rawEntries
  rw [List.filter_append, List.map_append, firstOfRuns_append _ (by simp)]
  simp only [List.mem_map]
  rintro _ ⟨e, he, rfl⟩ _ ⟨e', he', rfl⟩
  exact h e (List.mem_of_mem_filter he) e' (List.mem_of_mem_filter he')

/-- The version of its key that a run of entries shows. -/
theorem shown_run {k : Bytes} {run : List (Bytes × Bytes)} (h : ∀ e ∈ run, extractKey e.1 = k)
    (R : UInt64) (start stop : Option Bytes) :
    shown R start stop run =
      if within start stop k then
        ((run.filter fun e => decide (revOf e.1 ≤ R)).head?.map fun e => (k, e.2)).toList
      else [] := by
  have hfilter : (run.filter fun e => decide (revOf e.1 ≤ R) &&
      within start stop (extractKey e.1)) =
      if within start stop k then run.filter fun e => decide (revOf e.1 ≤ R) else [] := by
    split
    · rename_i hw
      exact List.filter_congr fun e he => by simp [h e he, hw]
    · rename_i hw
      exact List.filter_eq_nil_iff.mpr fun e he => by simp [h e he, hw]
  rw [shown, hfilter]
  split
  · rw [firstOfRuns_run (q := k)]
    · cases hf : run.filter fun e => decide (revOf e.1 ≤ R) with
      | nil => rfl
      | cons e es =>
        have he : e ∈ run := List.mem_of_mem_filter (by rw [hf]; exact List.mem_cons_self)
        simp [rawEntries, h e he]
    · simp only [rawEntries, List.mem_map]
      rintro _ ⟨e, he, rfl⟩
      exact h e (List.mem_of_mem_filter he)
  · rfl

/-! ## Groups of versions -/

/-- The versions of the key `k` in a list of entries, with what comes before and after them. -/
structure Group (s : Store) (k : Bytes) (low run high : List (Bytes × Bytes)) : Prop where
  sublist : (low ++ run ++ high).Sublist s.db.entries
  stored : k ∈ s.keys
  below : ∀ e ∈ low, extractKey e.1 < k
  at_key : ∀ e ∈ run, extractKey e.1 = k
  above : ∀ e ∈ high, k < extractKey e.1

variable {k : Bytes} {low run high : List (Bytes × Bytes)}

theorem Group.low_ne (g : Group s k low run high) :
    ∀ e ∈ low, ∀ e' ∈ run, extractKey e.1 ≠ extractKey e'.1 := by
  intro e he e' he'
  rw [g.at_key e' he']
  exact ne_of_lt (g.below e he)

theorem Group.ne_high (g : Group s k low run high) :
    ∀ e ∈ run, ∀ e' ∈ high, extractKey e.1 ≠ extractKey e'.1 := by
  intro e he e' he'
  rw [g.at_key e he]
  exact ne_of_lt (g.above e' he')

/-- Seeking a physical key leaves the entries from it on. -/
theorem seek_eq {es : List (Bytes × Bytes)} (hsub : es.Sublist s.db.entries) (x : Bytes) :
    (es.dropWhile fun e => decide (e.1 < x)) = es.filter fun e => !decide (e.1 < x) := by
  refine dropWhile_eq_filter ((s.db.ascending.sublist hsub).imp fun hlt h => ?_)
  exact decide_eq_true (lt_trans (α := Bytes) hlt (of_decide_eq_true h))

/-- Seeking a key at a revision lands on the newest version not newer. -/
theorem Group.seek (g : Group s k low run high) (hs : Separated s.keys bounds) (R : UInt64) :
    ((low ++ run ++ high).dropWhile fun e => decide (e.1 < dataKey k R)) =
      (run.filter fun e => decide (revOf e.1 ≤ R)) ++ high := by
  have hmem : ∀ e ∈ low ++ run ++ high, e ∈ s.db.entries := g.sublist.subset
  have hlt : ∀ e ∈ low ++ run ++ high, (e.1 < dataKey k R ↔ _) := fun e he =>
    entry_lt_iff hs (hmem e he) g.stored R
  rw [seek_eq g.sublist, List.filter_append, List.filter_append,
    List.filter_eq_nil_iff.mpr, List.nil_append]
  · congr 1
    · refine List.filter_congr fun e he => ?_
      rw [Bool.eq_iff_iff]
      simp [hlt e (by simp [he]), g.at_key e he, UInt64.not_lt]
    · refine List.filter_eq_self.mpr fun e he => ?_
      simp [hlt e (by simp [he]), not_lt.mpr (le_of_lt (g.above e he)), ne_of_gt (g.above e he)]
  · intro e he
    simp [hlt e (by simp [he]), g.below e he]

/-- Seeking past a key lands after its versions. -/
theorem Group.skip (g : Group s k low run high) (hs : Separated s.keys bounds) :
    ((low ++ run ++ high).dropWhile fun e => decide (e.1 < dataUpper k)) = high := by
  have hlt : ∀ e ∈ low ++ run ++ high, (e.1 < dataUpper k ↔ extractKey e.1 ≤ k) := fun e he =>
    lt_dataUpper_iff hs (g.sublist.subset he) g.stored
  rw [seek_eq g.sublist, List.filter_append, List.filter_eq_nil_iff.mpr, List.nil_append]
  · refine List.filter_eq_self.mpr fun e he => ?_
    simp [hlt e (by simp [he]), g.above e he]
  · intro e he
    have hle : extractKey e.1 ≤ k := by
      rcases List.mem_append.mp he with he | he
      · exact le_of_lt (g.below e he)
      · exact le_of_eq (g.at_key e he)
    simp [hlt e (List.mem_append_left _ he), hle]

/-- Seeking below a group leaves what comes before it. -/
theorem Group.belowGroup (g : Group s k low run high) (hs : Separated s.keys bounds) :
    belowGroup (low ++ run ++ high) k = low.reverse := by
  have hlt : ∀ e ∈ low ++ run ++ high, (e.1 < dataKey k 0 ↔ extractKey e.1 ≤ k) := by
    intro e he
    have hmem := g.sublist.subset he
    rw [entry_lt_iff hs hmem g.stored, le_iff_lt_or_eq, and_iff_left (revOf_bounds hmem).1]
  have hkeep : (low ++ run).filter (fun e => decide (e.1 < dataKey k 0)) = low ++ run := by
    refine List.filter_eq_self.mpr fun e he => ?_
    simp only [hlt e (List.mem_append_left _ he), decide_eq_true_eq]
    rcases List.mem_append.mp he with he | he
    · exact le_of_lt (g.below e he)
    · exact le_of_eq (g.at_key e he)
  have hdrop : high.filter (fun e => decide (e.1 < dataKey k 0)) = [] := by
    refine List.filter_eq_nil_iff.mpr fun e he => ?_
    simp [hlt e (by simp [he]), g.above e he]
  rw [Kv.belowGroup, List.filter_append, hkeep, hdrop, List.append_nil, List.reverse_append,
    List.dropWhile_append_of_pos]
  · cases hl : low.reverse with
    | nil => rfl
    | cons e es =>
      have he : e ∈ low := List.mem_reverse.mp (by rw [hl]; exact List.mem_cons_self)
      rw [List.dropWhile_cons_of_neg]
      simpa using ne_of_lt (g.below e he)
  · intro e he
    simpa using g.at_key e (List.mem_reverse.mp he)

/-- Cutting a list of entries at a key. -/
theorem split_at_key (hs : Separated s.keys bounds) {es : List (Bytes × Bytes)}
    (hsub : es.Sublist s.db.entries) {p : Bytes → Bool}
    (hp : ∀ a b, a ≤ b → p b = true → p a = true) :
    (es.filter fun e => p (extractKey e.1)) ++ (es.filter fun e => !p (extractKey e.1)) = es :=
  filter_append_filter_not (((pairwise_extractKey hs).sublist hsub).imp fun hle h => hp _ _ hle h)

/-- The group at the front of a list of entries. -/
theorem exists_group_front (hs : Separated s.keys bounds) {e : Bytes × Bytes}
    {es : List (Bytes × Bytes)} (hsub : (low ++ e :: es).Sublist s.db.entries)
    (hlow : ∀ x ∈ low, extractKey x.1 < extractKey e.1) :
    ∃ run high, e :: es = run ++ high ∧ e ∈ run ∧ Group s (extractKey e.1) low run high := by
  have hright : (e :: es).Sublist s.db.entries := (List.sublist_append_right _ _).trans hsub
  have hle : ∀ x ∈ e :: es, extractKey e.1 ≤ extractKey x.1 := by
    have hpair := List.pairwise_cons.mp ((pairwise_extractKey hs).sublist hright)
    intro x hx
    rcases List.mem_cons.mp hx with rfl | hx
    · exact le_refl _
    · exact hpair.1 x hx
  have hsplit := split_at_key hs hright (p := fun a => decide (a ≤ extractKey e.1))
    fun a b hab h => decide_eq_true (le_trans hab (of_decide_eq_true h))
  refine ⟨_, _, hsplit.symm, List.mem_filter.mpr ⟨List.mem_cons_self, by simp⟩, ?_⟩
  constructor
  · rw [List.append_assoc, hsplit]
    exact hsub
  · exact extractKey_mem (hright.subset List.mem_cons_self)
  · exact hlow
  · intro x hx
    obtain ⟨hm, hxe⟩ := List.mem_filter.mp hx
    exact le_antisymm (of_decide_eq_true hxe) (hle x hm)
  · intro x hx
    simpa using (List.mem_filter.mp hx).2

/-- The group at the end of a list of entries. -/
theorem exists_group_back (hs : Separated s.keys bounds) {e : Bytes × Bytes}
    {es : List (Bytes × Bytes)} (hsub : (es ++ [e] ++ high).Sublist s.db.entries)
    (hhigh : ∀ x ∈ high, extractKey e.1 < extractKey x.1) :
    ∃ low run, es ++ [e] = low ++ run ∧ e ∈ run ∧ Group s (extractKey e.1) low run high := by
  have hleft : (es ++ [e]).Sublist s.db.entries := (List.sublist_append_left _ _).trans hsub
  have hle : ∀ x ∈ es ++ [e], extractKey x.1 ≤ extractKey e.1 := by
    have hpair := (List.pairwise_append.mp ((pairwise_extractKey hs).sublist hleft)).2.2
    intro x hx
    rcases List.mem_append.mp hx with hx | hx
    · exact hpair x hx e List.mem_cons_self
    · rw [List.mem_singleton.mp hx]
  have hsplit := split_at_key hs hleft (p := fun a => decide (a < extractKey e.1))
    fun a b hab h => decide_eq_true (lt_of_le_of_lt hab (of_decide_eq_true h))
  refine ⟨_, _, hsplit.symm, List.mem_filter.mpr ⟨by simp, by simp⟩, ?_⟩
  constructor
  · rw [hsplit]
    exact hsub
  · exact extractKey_mem (hleft.subset (by simp))
  · intro x hx
    simpa using (List.mem_filter.mp hx).2
  · intro x hx
    obtain ⟨hm, hxe⟩ := List.mem_filter.mp hx
    exact le_antisymm (hle x hm) (by simpa using hxe)
  · exact hhigh

/-! ## Ascending scans -/

theorem rangeLoop_eq (stop : Option Bytes) (prev : Option Bytes)
    (hprev : ∀ p ∈ prev, past stop p = false) (es : List (Bytes × Bytes)) :
    rangeLoop stop prev es =
      (firstOfRuns prev ((rawEntries es).takeWhile fun e => !past stop e.1)).map visit := by
  induction es generalizing prev with
  | nil => rfl
  | cons e es ih =>
    obtain ⟨dk, val⟩ := e
    have hraw : rawEntries ((dk, val) :: es) = (extractKey dk, val) :: rawEntries es := rfl
    rw [rangeLoop, hraw]
    by_cases hp : prev = some (extractKey dk)
    · have hpast : past stop (extractKey dk) = false := hprev _ hp
      rw [if_pos hp, List.takeWhile_cons_of_pos (by simp [hpast]), firstOfRuns, if_pos hp,
        ih prev hprev]
    · rw [if_neg hp]
      cases hpast : past stop (extractKey dk) with
      | true => simp [hpast, firstOfRuns]
      | false =>
        rw [if_neg (by simp), List.takeWhile_cons_of_pos (by simp [hpast]), firstOfRuns,
          if_neg hp, List.map_cons, ih]
        · rfl
        · rintro p ⟨⟩
          exact hpast

theorem past_of_le {stop : Option Bytes} {a b : Bytes} (h : a ≤ b) (ha : past stop a = true) :
    past stop b = true := by
  cases stop with
  | none => cases ha
  | some c => exact decide_eq_true (le_trans (of_decide_eq_true ha) h)

/-- The loop at the last revision shows the newest versions. -/
theorem rangeLoop_eq_shown (hs : Separated s.keys bounds) {es : List (Bytes × Bytes)}
    (hsub : es.Sublist s.db.entries) (stop : Option Bytes) :
    rangeLoop stop none es = (shown s.last none stop es).map visit := by
  have hfilter : ((rawEntries es).takeWhile fun e => !past stop e.1) =
      rawEntries (es.filter fun e =>
        decide (revOf e.1 ≤ s.last) && within none stop (extractKey e.1)) := by
    rw [takeWhile_eq_filter, rawEntries, List.filter_map]
    · refine congrArg rawEntries (List.filter_congr fun e he => ?_)
      simp [within, (revOf_bounds (hsub.subset he)).2]
    · refine (pairwise_rawEntries hs hsub).imp fun hle h => ?_
      cases hpast : past stop _ with
      | false => rfl
      | true => simp [past_of_le hle hpast] at h
  rw [rangeLoop_eq _ _ (by simp), hfilter, shown]

theorem shown_of_past {R : UInt64} {stop : Option Bytes} {es : List (Bytes × Bytes)}
    (h : ∀ e ∈ es, past stop (extractKey e.1) = true) : shown R none stop es = [] := by
  have hnil : (es.filter fun e => decide (revOf e.1 ≤ R) && within none stop (extractKey e.1)) =
      [] := List.filter_eq_nil_iff.mpr fun e he => by simp [within, h e he]
  rw [shown, hnil]
  rfl

/-- The loop away from the last revision, at the front of a group. -/
theorem seekLoop_eq (hs : Separated s.keys bounds) (R : UInt64) (stop : Option Bytes)
    {es : List (Bytes × Bytes)} (hsub : es.Sublist s.db.entries) {fuel : ℕ}
    {low pos : List (Bytes × Bytes)} (hes : es = low ++ pos)
    (hlow : ∀ x ∈ low, ∀ y ∈ pos, extractKey x.1 < extractKey y.1) (hfuel : pos.length ≤ fuel) :
    seekLoop R stop es fuel pos = some ((shown R none stop pos).map visit) := by
  induction fuel generalizing low pos with
  | zero =>
    obtain rfl : pos = [] := List.length_eq_zero_iff.mp (Nat.le_zero.mp hfuel)
    rfl
  | succ fuel ih =>
    obtain _ | ⟨⟨dk, v⟩, tl⟩ := pos
    · rfl
    obtain ⟨run, high, hpos, hrun, g⟩ := exists_group_front hs (hes ▸ hsub)
      fun x hx => hlow x hx _ List.mem_cons_self
    have hes' : es = low ++ run ++ high := by rw [hes, hpos, List.append_assoc]
    have hlen : high.length ≤ fuel := by
      have hl := congrArg List.length hpos
      have hr := List.length_pos_of_mem hrun
      simp only [List.length_cons, List.length_append] at hl hfuel
      omega
    have hi := ih hes' (fun x hx y hy => by
      rcases List.mem_append.mp hx with hx | hx
      · exact lt_trans (g.below x hx) (g.above y hy)
      · rw [g.at_key x hx]
        exact g.above y hy) hlen
    have hseek := g.seek hs R
    have hskip := g.skip hs
    rw [← hes'] at hseek hskip
    rw [seekLoop, hpos, shown_append g.ne_high, shown_run g.at_key]
    by_cases hpast : past stop (extractKey dk) = true
    · have hhigh : shown R none stop high = [] :=
        shown_of_past fun e he => past_of_le (le_of_lt (g.above e he)) hpast
      simp [hpast, within, hhigh]
    · have hw : within none stop (extractKey dk) = true := by simp [within, hpast]
      simp only [hpast, hw, hseek, hskip, if_true]
      cases hf : run.filter fun e => decide (revOf e.1 ≤ R) with
      | nil =>
        -- every version of the key is newer: the seek lands on the next group
        cases high with
        | nil => rfl
        | cons e high =>
          have hne : extractKey e.1 ≠ extractKey dk := ne_of_gt (g.above e List.mem_cons_self)
          simp only [List.nil_append, hne, if_false]
          exact hi
      | cons e rest =>
        have he : e ∈ run := List.mem_of_mem_filter (by rw [hf]; exact List.mem_cons_self)
        have hek : extractKey e.1 = extractKey dk := g.at_key e he
        simp only [List.cons_append, hek, if_true, hi]
        rfl

theorem bounded_sublist (s : Store) (start stop : Option Bytes) :
    (bounded s.db start stop).Sublist s.db.entries := List.filter_sublist

theorem effective_last (s : Store) : s.effective s.last = s.last := by
  simp [Store.effective]

/-- An ascending scan shows the newest versions among the entries its iterator visits. -/
theorem rangeAt_of_keys (hs : Separated s.keys []) (rev : UInt64) (start stop : Option Bytes) :
    s.rangeAt rev start stop = some (if inverted start stop then [] else
      (shown (s.effective rev) none stop (bounded s.db start stop)).map visit) := by
  have hsub := bounded_sublist s start stop
  rw [Store.rangeAt]
  split
  · rfl
  · dsimp only
    split
    · rename_i hlast
      rw [rangeLoop_eq_shown hs hsub, hlast]
    · exact seekLoop_eq hs _ stop hsub (List.nil_append _).symm (by simp) le_rfl

/-- The entries an iterator visits, within the bounds. -/
theorem filter_bounded (hs : Separated s.keys bounds) {start stop : Option Bytes}
    (ha : ∀ a ∈ start, a ∈ bounds) (hb : ∀ b ∈ stop, b ∈ bounds) (q : Bytes × Bytes → Bool) :
    ((bounded s.db start stop).filter fun e => q e && within start stop (extractKey e.1)) =
      s.db.entries.filter fun e => q e && within start stop (extractKey e.1) := by
  rw [bounded.eq_def, List.filter_filter]
  refine List.filter_congr fun e he => ?_
  cases hw : within start stop (extractKey e.1) with
  | false => simp
  | true =>
    obtain ⟨hlo, hhi⟩ := (within_iff _ _ _).mp hw
    have hupper : ∀ b ∈ stop, e.1 < dataUpper b := fun b hmem =>
      lt_dataUpper hs (hb b hmem) he (hhi b hmem)
    have hlower : ∀ a ∈ start, dataTag :: (a ++ [0]) ≤ e.1 := fun a hmem =>
      (lower_le_iff hs (ha a hmem) he).mpr (hlo a hmem)
    have hnone : [dataTag] ≤ e.1 := by
      rw [eq_dataKey he, dataKey, cons_le_cons_self]
      exact not_lt.mp (List.not_lt_nil _)
    cases start <;> cases stop <;> simp_all

/-- An iterator visits no key before a start that is separated from the keys. -/
theorem within_none_of_mem (hs : Separated s.keys bounds) {start stop : Option Bytes}
    (ha : ∀ a ∈ start, a ∈ bounds) {e : Bytes × Bytes} (he : e ∈ bounded s.db start stop) :
    within none stop (extractKey e.1) = within start stop (extractKey e.1) := by
  obtain ⟨hm, hbound⟩ := List.mem_filter.mp he
  cases start with
  | none => rfl
  | some a =>
    simp only [Bool.and_eq_true, decide_eq_true_eq] at hbound
    have hle := (lower_le_iff hs (ha a rfl) hm).mp hbound.1
    simp [within, not_lt.mpr hle]

theorem shown_bounded (hs : Separated s.keys bounds) {start stop : Option Bytes}
    (ha : ∀ a ∈ start, a ∈ bounds) (hb : ∀ b ∈ stop, b ∈ bounds) (R : UInt64) :
    shown R start stop (bounded s.db start stop) = shown R start stop s.db.entries := by
  rw [shown, filter_bounded hs ha hb, shown]

theorem shown_none_bounded (hs : Separated s.keys bounds) {start stop : Option Bytes}
    (ha : ∀ a ∈ start, a ∈ bounds) (hb : ∀ b ∈ stop, b ∈ bounds) (R : UInt64) :
    shown R none stop (bounded s.db start stop) = shown R start stop s.db.entries := by
  rw [← shown_bounded hs ha hb, shown, shown]
  refine congrArg (fun es => firstOfRuns none (rawEntries es)) (List.filter_congr fun e he => ?_)
  rw [within_none_of_mem hs ha he]

theorem shown_of_inverted {start stop : Option Bytes} (h : inverted start stop = true)
    (R : UInt64) (es : List (Bytes × Bytes)) : shown R start stop es = [] := by
  have hnil : (es.filter fun e => decide (revOf e.1 ≤ R) && within start stop (extractKey e.1)) =
      [] := by
    refine List.filter_eq_nil_iff.mpr fun e _ he => ?_
    obtain ⟨hlo, hhi⟩ := (within_iff _ _ _).mp (Bool.and_eq_true_iff.mp he).2
    cases start <;> cases stop <;> simp only [inverted, decide_eq_true_eq] at h
    · cases h
    · cases h
    · cases h
    · exact absurd (lt_of_le_of_lt (hlo _ rfl) (hhi _ rfl)) (not_lt.mpr h)
  rw [shown, hnil]
  rfl

/-- A scan shows the newest version of each key in its bounds. -/
theorem rangeAt_eq (hs : Separated s.keys bounds) {start stop : Option Bytes}
    (ha : ∀ a ∈ start, a ∈ bounds) (hb : ∀ b ∈ stop, b ∈ bounds) (rev : UInt64) :
    s.rangeAt rev start stop =
      some ((shown (s.effective rev) start stop s.db.entries).map visit) := by
  rw [rangeAt_of_keys (hs.mono (List.Subset.refl _) (List.nil_subset _))]
  congr 1
  split
  · rename_i h
    rw [shown_of_inverted h]
    rfl
  · rw [shown_none_bounded hs ha hb]

/-- The scan at the last revision. -/
theorem range_eq (hs : Separated s.keys bounds) {start stop : Option Bytes}
    (ha : ∀ a ∈ start, a ∈ bounds) (hb : ∀ b ∈ stop, b ∈ bounds) :
    s.range start stop = (shown s.last start stop s.db.entries).map visit := by
  have h := rangeAt_eq hs ha hb s.last
  rw [Store.rangeAt, effective_last] at h
  rw [Store.range]
  split
  · rename_i hinv
    rw [shown_of_inverted hinv]
    rfl
  · rename_i hinv
    simpa only [hinv, if_true, Option.some.injEq, Bool.false_eq_true, if_false] using h

theorem liveVisits_cons (v : Bytes × Bytes × Bool) (vs : List (Bytes × Bytes × Bool)) :
    liveVisits (v :: vs) = if v.2.2 then liveVisits vs else (v.1, v.2.1) :: liveVisits vs := by
  rw [liveVisits, List.filterMap_cons]
  cases v.2.2 <;> rfl

theorem mem_liveVisits (es : List (Bytes × Bytes)) (k x : Bytes) :
    (k, x) ∈ liveVisits (es.map visit) ↔ ∃ v, (k, v) ∈ es ∧ live v = some x := by
  simp only [liveVisits, List.mem_filterMap, List.mem_map, visit, live]
  constructor
  · rintro ⟨_, ⟨e, he, rfl⟩, h⟩
    refine ⟨e.2, ?_, ?_⟩ <;> split at h <;> grind
  · rintro ⟨v, hv, h⟩
    refine ⟨_, ⟨(k, v), hv, rfl⟩, ?_⟩
    split at h <;> grind

theorem ascending_liveVisits {es : List (Bytes × Bytes)} (h : Ascending es) :
    Ascending (liveVisits (es.map visit)) := by
  have hmap : (es.map visit).Pairwise fun e e' => e.1 < e'.1 := List.pairwise_map.mpr h
  refine List.Pairwise.filterMap _ (fun e e' he x hx x' hx' => ?_) hmap
  grind

/-- The live visits of a range are the scan of the committed map. -/
theorem scans_range (hs : Separated s.keys bounds) {a b : Bytes} (ha : a ∈ bounds)
    (hb : b ∈ bounds) :
    Scans s.content (fun k => a ≤ k ∧ k < b) (liveVisits (s.range (some a) (some b))) := by
  have hsub := List.Sublist.refl s.db.entries
  rw [range_eq hs (by rintro _ ⟨⟩; exact ha) (by rintro _ ⟨⟩; exact hb)]
  refine ⟨ascending_liveVisits (ascending_shown hs hsub _ _ _), fun k x => ?_⟩
  have hw : within (some a) (some b) k = true ↔ a ≤ k ∧ k < b := by simp [within_iff]
  simp only [mem_liveVisits, mem_shown hs hsub, hw, Store.content, ← newestAt_last,
    Store.newestAt, Option.bind_eq_some_iff, and_assoc, exists_and_left]

/-! ## Counts -/

theorem countLoop_eq (stop : Option Bytes) (prev : Option Bytes) (es : List (Bytes × Bytes)) :
    countLoop stop prev es = (liveVisits (rangeLoop stop prev es)).length := by
  induction es generalizing prev with
  | nil => rfl
  | cons e es ih =>
    obtain ⟨dk, val⟩ := e
    rw [countLoop, rangeLoop]
    split
    · exact ih prev
    · split
      · rfl
      · rw [ih, liveVisits_cons]
        cases (visible val).2
        · simp [Nat.add_comm]
        · simp

/-- The bulk count is the number of live keys the range visits. -/
theorem rangeCount_eq (s : Store) (start stop : Option Bytes) :
    s.rangeCount start stop = (liveVisits (s.range start stop)).length := by
  rw [Store.rangeCount, Store.range]
  split
  · rfl
  · exact countLoop_eq stop none _

/-! ## Descending scans -/

theorem shown_of_low {R : UInt64} {a : Bytes} {stop : Option Bytes} {es : List (Bytes × Bytes)}
    (h : ∀ e ∈ es, extractKey e.1 < a) : shown R (some a) stop es = [] := by
  have hnil : (es.filter fun e =>
      decide (revOf e.1 ≤ R) && within (some a) stop (extractKey e.1)) = [] :=
    List.filter_eq_nil_iff.mpr fun e he => by simp [within, h e he]
  rw [shown, hnil]
  rfl

/-- The descending loop, at the last entry of a prefix of the entries. -/
theorem descLoop_eq (hs : Separated s.keys bounds) (R : UInt64) (start stop : Option Bytes)
    {es : List (Bytes × Bytes)} (hsub : es.Sublist s.db.entries) {fuel : ℕ}
    {pre high : List (Bytes × Bytes)} (hes : es = pre ++ high)
    (hhigh : ∀ e ∈ pre, ∀ e' ∈ high, extractKey e.1 < extractKey e'.1)
    (hfuel : pre.length ≤ fuel) :
    descLoop R start stop es fuel pre.reverse =
      some ((shown R start stop pre).reverse.map visit) := by
  induction fuel generalizing pre high with
  | zero =>
    obtain rfl : pre = [] := List.length_eq_zero_iff.mp (Nat.le_zero.mp hfuel)
    rfl
  | succ fuel ih =>
    obtain rfl | ⟨init, ⟨dk, v⟩, rfl⟩ := List.eq_nil_or_concat pre
    · rfl
    rw [List.concat_eq_append] at *
    obtain ⟨low, run, hpre, hrun, g⟩ := exists_group_back hs (hes ▸ hsub)
      fun x hx => hhigh (dk, v) (by simp) x hx
    have hes' : es = low ++ run ++ high := by rw [hes, hpre]
    have hlen : low.length ≤ fuel := by
      have hl := congrArg List.length hpre
      have hr := List.length_pos_of_mem hrun
      simp only [List.length_append] at hl hfuel
      omega
    have hi := ih (hes'.trans (List.append_assoc low run high)) (fun x hx y hy => by
      rcases List.mem_append.mp hy with hy | hy
      · rw [g.at_key y hy]
        exact g.below x hx
      · exact lt_trans (g.below x hx) (g.above y hy)) hlen
    have hseek := g.seek hs R
    have hbelow := g.belowGroup hs
    rw [← hes'] at hseek hbelow
    rw [List.reverse_append, List.reverse_singleton, List.singleton_append, descLoop, hpre,
      shown_append g.low_ne, shown_run g.at_key]
    simp only [hbelow, hseek, hi]
    by_cases hstart : (start.any fun a => decide (extractKey dk < a)) = true
    · have hlow : shown R start stop low = [] := by
        cases start with
        | none => cases hstart
        | some a =>
          exact shown_of_low fun e he => lt_trans (g.below e he) (of_decide_eq_true hstart)
      simp [hstart, within, hlow]
    · cases hpast : past stop (extractKey dk) with
      | true => simp [hstart, within, hpast]
      | false =>
        have hw : within start stop (extractKey dk) = true := by simp [within, hstart, hpast]
        simp only [hstart, hw, if_true, Bool.false_eq_true, if_false]
        cases hf : run.filter fun e => decide (revOf e.1 ≤ R) with
        | nil =>
          cases high with
          | nil => simp
          | cons e high =>
            have hne : extractKey e.1 ≠ extractKey dk := ne_of_gt (g.above e List.mem_cons_self)
            simp [hne]
        | cons e rest =>
          have he : e ∈ run := List.mem_of_mem_filter (by rw [hf]; exact List.mem_cons_self)
          have hek : extractKey e.1 = extractKey dk := g.at_key e he
          simp [hek, visit]

/-- A descending scan shows the newest version of each key in its bounds. -/
theorem rangeDescAt_eq (hs : Separated s.keys bounds) {start stop : Option Bytes}
    (ha : ∀ a ∈ start, a ∈ bounds) (hb : ∀ b ∈ stop, b ∈ bounds) (rev : UInt64) :
    s.rangeDescAt rev start stop =
      some ((shown (s.effective rev) start stop s.db.entries).map visit).reverse := by
  rw [Store.rangeDescAt]
  split
  · rename_i h
    rw [shown_of_inverted h]
    rfl
  · rw [descLoop_eq hs _ start stop (bounded_sublist s start stop) (List.append_nil _).symm
      (by simp) (le_refl _), shown_bounded hs ha hb, List.map_reverse]

/-- A descending range visits what the ascending range does, in reverse. -/
theorem rangeDesc_eq (hs : Separated s.keys bounds) {a b : Bytes} (ha : a ∈ bounds)
    (hb : b ∈ bounds) :
    s.rangeDesc (some a) (some b) = some (s.range (some a) (some b)).reverse := by
  have ha' : ∀ x ∈ some a, x ∈ bounds := by
    rintro _ ⟨⟩
    exact ha
  have hb' : ∀ x ∈ some b, x ∈ bounds := by
    rintro _ ⟨⟩
    exact hb
  have h := rangeDescAt_eq hs ha' hb' s.last
  rw [Store.rangeDescAt, effective_last] at h
  rw [range_eq hs ha' hb']
  exact h

end Ydbgo.Kv
