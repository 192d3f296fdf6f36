import Ydbgo.Kv.History

/-! # Compaction

A compaction drops every version older than the newest one of its key that is
not after the cut-off. Reads at the cut-off and later do not notice, except a
scan whose start falls among the versions of a key: it shows an old version
as long as there is one.
-/

namespace Ydbgo.Kv

/-- The loop of `Compact`: the physical keys to delete, after the logical key `lastKey`, whose
anchor may be set. -/
def compactLoop (keep : UInt64) : Bytes → Bool → List (Bytes × Bytes) → List Bytes
  | _, _, [] => []
  | lastKey, anchorSet, (dk, _) :: it =>
    let raw := extractKey dk
    let anchorSet := decide (raw = lastKey) && anchorSet
    if keep < revOf dk then compactLoop keep raw anchorSet it
    else if !anchorSet then compactLoop keep raw true it
    else dk :: compactLoop keep raw true it

/-- The store without some physical keys. -/
def Store.without (s : Store) (del : List Bytes) : Store where
  db := s.db.filter fun dk _ => dk ∉ del
  last := s.last
  versions e he := s.versions e (List.mem_of_mem_filter he)

/-- The compacted store and the number of versions dropped. -/
def Store.compact (s : Store) (keep : UInt64) : Store × ℕ :=
  if s.last = 0 then (s, 0)
  else
    let del := compactLoop keep [] false s.db.entries
    (s.without del, del.length)

/-- A version not after `keep` that is newer than another version of its key. -/
def Supersedes (keep : UInt64) (x e : Bytes × Bytes) : Prop :=
  extractKey x.1 = extractKey e.1 ∧ revOf e.1 < revOf x.1 ∧ revOf x.1 ≤ keep

instance (keep : UInt64) (x e : Bytes × Bytes) : Decidable (Supersedes keep x e) :=
  inferInstanceAs (Decidable (_ ∧ _ ∧ _))

/-- Older than the newest version of its key that is not after `keep`. -/
def Store.superseded (s : Store) (keep : UInt64) (e : Bytes × Bytes) : Bool :=
  s.db.entries.any fun x => decide (Supersedes keep x e)

theorem superseded_iff {s : Store} {keep : UInt64} {e : Bytes × Bytes} :
    s.superseded keep e = true ↔ ∃ x ∈ s.db.entries, Supersedes keep x e := by
  simp [Store.superseded]

/-- What a scan visits and a compaction drops is superseded by something the scan visits. -/
def AnchorsSeen (s : Store) (keep : UInt64) (start stop : Option Bytes) : Prop :=
  inverted start stop = false → ∀ e ∈ bounded s.db start stop,
    past stop (extractKey e.1) = false → s.superseded keep e = true →
      ∃ x ∈ bounded s.db start stop, Supersedes keep x e

/-- What each of some calls answers. -/
def Store.replies (s : Store) : List (UInt64 × List Op) → List (Option Error)
  | [] => []
  | c :: cs =>
    (match s.apply c.1 c.2 with
      | .ok _ => none
      | .error e => some e) :: (s.run [c]).replies cs

/-- A compaction, followed by some calls, that goes unnoticed by the reads at a revision. -/
structure Unnoticed (s : Store) (keep : UInt64) (cs : List (UInt64 × List Op)) (rev : UInt64)
    (start stop : Option Bytes) : Prop where
  get : ∀ key, ((s.compact keep).1.run cs).get rev key = (s.run cs).get rev key
  range : ((s.compact keep).1.run cs).rangeAt rev start stop = (s.run cs).rangeAt rev start stop
  last : (s.compact keep).1.last = s.last
  replies : (s.compact keep).1.replies cs = s.replies cs
  dropped : (s.compact keep).2 = s.db.entries.countP (s.superseded keep)
  again : (s.compact keep).1.compact keep = ((s.compact keep).1, 0)

/-! ## What a compaction drops -/

variable {s s' : Store} {keep R : UInt64}

/-- In order, the versions superseding an entry come before it. -/
theorem superseded_of_split {e : Bytes × Bytes} {pre post : List (Bytes × Bytes)}
    (hes : s.db.entries = pre ++ e :: post) :
    s.superseded keep e = true ↔
      revOf e.1 ≤ keep ∧ ∃ x ∈ pre, extractKey x.1 = extractKey e.1 ∧ revOf x.1 ≤ keep := by
  have he : e ∈ s.db.entries := by simp [hes]
  have hasc := s.db.ascending
  rw [hes] at hasc
  obtain ⟨-, hright, hleft⟩ := List.pairwise_append.mp hasc
  rw [superseded_iff]
  constructor
  · rintro ⟨x, hx, hk, hlt, hle⟩
    have hbefore := (lt_iff_revOf_lt he hx hk).mpr hlt
    refine ⟨UInt64.le_trans (UInt64.le_of_lt hlt) hle, x, ?_, hk, hle⟩
    rw [hes] at hx
    rcases List.mem_append.mp hx with hx | hx
    · exact hx
    · rcases List.mem_cons.mp hx with rfl | hx
      · exact absurd hlt (UInt64.lt_irrefl _)
      · exact absurd hbefore (lt_asymm ((List.pairwise_cons.mp hright).1 x hx))
  · rintro ⟨-, x, hx, hk, hle⟩
    have hmem : x ∈ s.db.entries := by simp [hes, hx]
    have hlt := (lt_iff_revOf_lt he hmem hk).mp (hleft x hx e List.mem_cons_self)
    exact ⟨x, hmem, hk, hlt, hle⟩

/-- The loop deletes the superseded versions. -/
theorem compactLoop_eq (hs : Separated s.keys []) {lastKey : Bytes} {anchorSet : Bool}
    {pre es : List (Bytes × Bytes)} (hes : s.db.entries = pre ++ es)
    (hinv : ∀ e ∈ es, extractKey e.1 = lastKey ∧ anchorSet = true ↔
      ∃ x ∈ pre, extractKey x.1 = extractKey e.1 ∧ revOf x.1 ≤ keep) :
    compactLoop keep lastKey anchorSet es = (es.filter (s.superseded keep)).map Prod.fst := by
  induction es generalizing lastKey anchorSet pre with
  | nil => rfl
  | cons e es ih =>
    obtain ⟨dk, val⟩ := e
    have hsup : s.superseded keep (dk, val) = true ↔ _ := superseded_of_split hes
    rw [← hinv (dk, val) List.mem_cons_self] at hsup
    have hpair := pairwise_extractKey hs
    rw [hes] at hpair
    obtain ⟨-, hright, hleft⟩ := List.pairwise_append.mp hpair
    -- an anchor of a later key is not among the keys already passed
    have hnext (anchorSet' : Bool) (h : anchorSet' = true ↔
        (extractKey dk = lastKey ∧ anchorSet = true) ∨ revOf dk ≤ keep) : ∀ e ∈ es,
        extractKey e.1 = extractKey dk ∧ anchorSet' = true ↔
          ∃ x ∈ pre ++ [(dk, val)], extractKey x.1 = extractKey e.1 ∧ revOf x.1 ≤ keep := by
      intro e he
      rw [h]
      constructor
      · rintro ⟨hk, hold | hrev⟩
        · obtain ⟨x, hx, hxk, hxr⟩ := (hinv (dk, val) List.mem_cons_self).mp hold
          exact ⟨x, List.mem_append_left _ hx, hxk.trans hk.symm, hxr⟩
        · exact ⟨(dk, val), by simp, hk.symm, hrev⟩
      · rintro ⟨x, hx, hxk, hxr⟩
        rcases List.mem_append.mp hx with hx | hx
        · have hk : extractKey e.1 = extractKey dk := by
            refine le_antisymm ?_ ((List.pairwise_cons.mp hright).1 e he)
            rw [← hxk]
            exact hleft x hx (dk, val) List.mem_cons_self
          exact ⟨hk, Or.inl ((hinv (dk, val) List.mem_cons_self).mpr ⟨x, hx, hxk.trans hk, hxr⟩)⟩
        · rw [List.mem_singleton.mp hx] at hxk hxr
          exact ⟨hxk.symm, Or.inr hxr⟩
    have hes' : s.db.entries = (pre ++ [(dk, val)]) ++ es := by rw [hes]; simp
    rw [compactLoop, List.filter_cons]
    by_cases hrev : keep < revOf dk
    · have hno : ¬ revOf dk ≤ keep := UInt64.not_le.mpr hrev
      have hdrop : ¬ s.superseded keep (dk, val) = true := fun h => hno (hsup.mp h).1
      rw [if_pos hrev, if_neg hdrop]
      refine ih hes' (hnext _ ?_)
      simp [hno]
    · have hle : revOf dk ≤ keep := UInt64.not_lt.mp hrev
      have hi := ih hes' (hnext true (by simp [hle]))
      rw [if_neg hrev, hi]
      by_cases hold : extractKey dk = lastKey ∧ anchorSet = true
      · rw [if_pos (hsup.mpr ⟨hle, hold⟩)]
        simp [hold]
      · have hdrop : ¬ s.superseded keep (dk, val) = true := fun h => hold (hsup.mp h).2
        have hset : (decide (extractKey dk = lastKey) && anchorSet) = false :=
          Bool.eq_false_iff.mpr (by simpa using hold)
        rw [if_neg hdrop, hset]
        rfl

theorem compactLoop_entries (keep : UInt64) (hs : Separated s.keys []) :
    compactLoop keep [] false s.db.entries =
      (s.db.entries.filter (s.superseded keep)).map Prod.fst :=
  compactLoop_eq hs (List.nil_append _).symm (by simp)

theorem entries_of_last_zero (h : s.last = 0) : s.db.entries = [] := by
  refine List.eq_nil_iff_forall_not_mem.mpr fun e he => ?_
  obtain ⟨h0, hle⟩ := revOf_bounds he
  rw [h] at hle
  exact absurd h0 (UInt64.not_lt.mpr hle)

theorem last_compact : (s.compact keep).1.last = s.last := by
  rw [Store.compact]
  split <;> rfl

theorem mem_compact (hs : Separated s.keys []) {e : Bytes × Bytes} :
    e ∈ (s.compact keep).1.db.entries ↔ e ∈ s.db.entries ∧ s.superseded keep e = false := by
  rw [Store.compact]
  split
  · rename_i h0
    simp [entries_of_last_zero h0]
  · have hdel := compactLoop_entries keep hs
    have hmem : e ∈ (s.without (compactLoop keep [] false s.db.entries)).db.entries ↔
        e ∈ s.db.entries ∧ e.1 ∉ compactLoop keep [] false s.db.entries := by
      simp [Store.without, SortedMap.filter]
    rw [hmem, hdel]
    refine and_congr_right fun he => ?_
    simp only [List.mem_map, List.mem_filter, not_exists, not_and]
    constructor
    · intro h
      cases hsup : s.superseded keep e with
      | false => rfl
      | true => exact absurd rfl (h e ⟨he, hsup⟩)
    · rintro hno x ⟨hx, hsup⟩ heq
      have hxe : x.2 = e.2 := by
        have h := SortedMap.get_eq_some.mpr hx
        rw [heq, SortedMap.get_eq_some.mpr he] at h
        exact (Option.some.inj h).symm
      rw [Prod.ext heq hxe, hno] at hsup
      cases hsup

theorem dropped_compact (hs : Separated s.keys []) :
    (s.compact keep).2 = s.db.entries.countP (s.superseded keep) := by
  rw [Store.compact]
  split
  · rename_i h0
    simp [entries_of_last_zero h0]
  · have hdel := compactLoop_entries keep hs
    simp [hdel, List.countP_eq_length_filter]

theorem keys_compact (hs : Separated s.keys []) : Separated (s.compact keep).1.keys [] := by
  refine hs.mono (fun k hk => ?_) (List.Subset.refl _)
  obtain ⟨e, he, rfl⟩ := List.mem_map.mp hk
  exact extractKey_mem ((mem_compact hs).mp he).1

/-- A second compaction finds nothing to drop. -/
theorem compact_again (hs : Separated s.keys []) :
    (s.compact keep).1.compact keep = ((s.compact keep).1, 0) := by
  have hno : ∀ e ∈ (s.compact keep).1.db.entries,
      (s.compact keep).1.superseded keep e = false := by
    intro e he
    obtain ⟨-, hkept⟩ := (mem_compact hs).mp he
    cases hsup : (s.compact keep).1.superseded keep e with
    | false => rfl
    | true =>
      obtain ⟨x, hx, hxe⟩ := superseded_iff.mp hsup
      have hsup' := superseded_iff.mpr ⟨x, ((mem_compact hs).mp hx).1, hxe⟩
      rw [hkept] at hsup'
      cases hsup'
  generalize hs₁ : (s.compact keep).1 = s₁ at hno
  have hkeys : Separated s₁.keys [] := hs₁ ▸ keys_compact hs
  have hnil : compactLoop keep [] false s₁.db.entries = [] := by
    rw [compactLoop_entries keep hkeys,
      List.filter_eq_nil_iff.mpr fun e he => by simp [hno e he]]
    rfl
  have hsame : s₁.without [] = s₁ := by
    have hdb : s₁.db.filter (fun dk _ => decide (dk ∉ ([] : List Bytes))) = s₁.db :=
      SortedMap.ext_get fun k => by cases hk : s₁.db.get k <;> simp [SortedMap.get_filter, hk]
    unfold Store.without
    congr 1
  rw [Store.compact]
  split
  · rfl
  · simp [hnil, hsame]

/-! ## Later writes -/

/-- Stores with the same last revision that differ in the old versions of `D`. -/
structure Thinned (D : Bytes × Bytes → Prop) (s s' : Store) : Prop where
  last : s'.last = s.last
  old : ∀ e, D e → revOf e.1 < s.last
  mem_iff : ∀ e, e ∈ s'.db.entries ↔ e ∈ s.db.entries ∧ ¬ D e

theorem Thinned.compact (hs : Separated s.keys []) :
    Thinned (fun e => s.superseded keep e = true) s (s.compact keep).1 := by
  constructor
  · exact last_compact
  · intro e he
    obtain ⟨x, hx, -, hlt, -⟩ := superseded_iff.mp he
    exact UInt64.lt_of_lt_of_le hlt (revOf_bounds hx).2
  · intro e
    rw [mem_compact hs, Bool.not_eq_true]

theorem mem_batch_congr {D : Bytes × Bytes → Prop} {r : UInt64} (hr : ∀ e, D e → revOf e.1 < r)
    {ops : List Op} {db db' : SortedMap Bytes Bytes}
    (h : ∀ e, e ∈ db'.entries ↔ e ∈ db.entries ∧ ¬ D e) (e : Bytes × Bytes) :
    e ∈ (batch r ops db').entries ↔ e ∈ (batch r ops db).entries ∧ ¬ D e := by
  induction ops generalizing db db' with
  | nil => exact h e
  | cons op ops ih =>
    refine ih fun x => ?_
    have hnew : ¬ D (dataKey op.key r, op.version) := fun hD => by
      have := hr _ hD
      simp [UInt64.lt_irrefl] at this
    rw [SortedMap.mem_insert, SortedMap.mem_insert, h]
    constructor
    · rintro (rfl | ⟨hne, hx, hD⟩)
      · exact ⟨Or.inl rfl, hnew⟩
      · exact ⟨Or.inr ⟨hne, hx⟩, hD⟩
    · rintro ⟨rfl | ⟨hne, hx⟩, hD⟩
      · exact Or.inl rfl
      · exact Or.inr ⟨hne, hx, hD⟩

theorem reply_eq (h : s'.last = s.last) (c : UInt64 × List Op) :
    s'.replies [c] = s.replies [c] := by
  obtain ⟨rev, ops⟩ := c
  simp only [Store.replies, Store.apply, Store.applyAt, h]
  by_cases hops : ops = []
  · simp [hops]
  · by_cases hlt : s.last < if rev = 0 then s.last + 1 else rev <;> simp [hops, hlt]

theorem Thinned.apply {D : Bytes × Bytes → Prop} (h : Thinned D s s') (c : UInt64 × List Op) :
    Thinned D (s.run [c]) (s'.run [c]) := by
  obtain ⟨rev, ops⟩ := c
  simp only [Store.run, List.foldl_cons, List.foldl_nil, Store.apply, Store.applyAt, h.last]
  by_cases hops : ops = []
  · simpa [hops] using h
  · by_cases hlt : s.last < if rev = 0 then s.last + 1 else rev
    · simp only [hops, hlt, if_false, dif_pos]
      have hold : ∀ e, D e → revOf e.1 < if rev = 0 then s.last + 1 else rev := fun e he =>
        UInt64.lt_trans (h.old e he) hlt
      exact ⟨rfl, hold, mem_batch_congr hold h.mem_iff⟩
    · simpa only [hops, hlt, if_false, dif_neg, not_false_eq_true] using h

theorem Thinned.run {D : Bytes × Bytes → Prop} (h : Thinned D s s')
    (cs : List (UInt64 × List Op)) : Thinned D (s.run cs) (s'.run cs) := by
  induction cs generalizing s s' with
  | nil => exact h
  | cons c cs ih => exact ih (h.apply c)

theorem Thinned.replies {D : Bytes × Bytes → Prop} (h : Thinned D s s')
    (cs : List (UInt64 × List Op)) : s'.replies cs = s.replies cs := by
  induction cs generalizing s s' with
  | nil => rfl
  | cons c cs ih =>
    have hc := reply_eq h.last c
    simp only [Store.replies, List.cons.injEq, and_true] at hc
    rw [Store.replies, Store.replies, hc, ih (h.apply c)]

/-- The entries of a store after some calls: those before and newer ones. -/
structure Extends (s s₁ : Store) : Prop where
  last : s.last ≤ s₁.last
  keeps : ∀ e ∈ s.db.entries, e ∈ s₁.db.entries
  adds : ∀ e ∈ s₁.db.entries, e ∈ s.db.entries ∨ s.last < revOf e.1

theorem extends_batch {last r : UInt64} (ops : List Op) (hlt : last < r)
    {db₀ db : SortedMap Bytes Bytes} (h₀ : ∀ e ∈ db₀.entries, revOf e.1 ≤ last)
    (h : (∀ e ∈ db₀.entries, e ∈ db.entries) ∧
      ∀ e ∈ db.entries, e ∈ db₀.entries ∨ last < revOf e.1) :
    (∀ e ∈ db₀.entries, e ∈ (batch r ops db).entries) ∧
      ∀ e ∈ (batch r ops db).entries, e ∈ db₀.entries ∨ last < revOf e.1 := by
  induction ops generalizing db with
  | nil => exact h
  | cons op ops ih =>
    refine ih ⟨fun e he => ?_, fun e he => ?_⟩
    · refine SortedMap.mem_insert.mpr (Or.inr ⟨?_, h.1 e he⟩)
      intro heq
      have hle := h₀ e he
      rw [← heq, revOf_dataKey] at hle
      exact absurd hlt (UInt64.not_lt.mpr hle)
    · rcases SortedMap.mem_insert.mp he with rfl | ⟨-, he⟩
      · exact Or.inr (by simpa using hlt)
      · exact h.2 e he

theorem Extends.trans {s₁ s₂ : Store} (h : Extends s s₁) (h' : Extends s₁ s₂) : Extends s s₂ := by
  constructor
  · exact UInt64.le_trans h.last h'.last
  · exact fun e he => h'.keeps e (h.keeps e he)
  · intro e he
    rcases h'.adds e he with he | hlt
    · exact h.adds e he
    · exact Or.inr (UInt64.lt_of_le_of_lt h.last hlt)

theorem extends_apply (s : Store) (c : UInt64 × List Op) : Extends s (s.run [c]) := by
  have hrefl : Extends s s := ⟨UInt64.le_refl _, fun _ he => he, fun _ he => Or.inl he⟩
  obtain ⟨rev, ops⟩ := c
  simp only [Store.run, List.foldl_cons, List.foldl_nil, Store.apply, Store.applyAt]
  by_cases hops : ops = []
  · simpa [hops] using hrefl
  · by_cases hlt : s.last < if rev = 0 then s.last + 1 else rev
    · simp only [hops, hlt, if_false, dif_pos]
      obtain ⟨hkeeps, hadds⟩ := extends_batch ops hlt (fun e he => (revOf_bounds he).2)
        ⟨hrefl.keeps, hrefl.adds⟩
      exact ⟨UInt64.le_of_lt hlt, hkeeps, hadds⟩
    · simpa only [hops, hlt, if_false, dif_neg, not_false_eq_true] using hrefl

theorem extends_run (s : Store) (cs : List (UInt64 × List Op)) : Extends s (s.run cs) := by
  induction cs generalizing s with
  | nil => exact ⟨UInt64.le_refl _, fun _ he => he, fun _ he => Or.inl he⟩
  | cons c cs ih => exact (extends_apply s c).trans (ih (s.run [c]))

theorem Extends.separated {s₁ : Store} (h : Extends s s₁) (hs : Separated s₁.keys []) :
    Separated s.keys [] := by
  refine hs.mono (fun k hk => ?_) (List.Subset.refl _)
  obtain ⟨e, he, rfl⟩ := List.mem_map.mp hk
  exact extractKey_mem (h.keeps e he)

/-! ## Reads after a compaction -/

/-- Whether an iterator over some bounds visits a physical key. -/
def Visits (start stop : Option Bytes) (dk : Bytes) : Prop :=
  dataTag :: (match start with
    | none => []
    | some b => b ++ [0]) ≤ dk ∧ ∀ b ∈ stop, dk < dataUpper b

theorem mem_bounded {db : SortedMap Bytes Bytes} {start stop : Option Bytes} {e : Bytes × Bytes} :
    e ∈ bounded db start stop ↔ e ∈ db.entries ∧ Visits start stop e.1 := by
  rw [bounded.eq_def, List.mem_filter]
  cases start <;> cases stop <;> simp [Visits]

/-- What lies between two visited keys is visited. -/
theorem Visits.between {start stop : Option Bytes} {a b c : Bytes} (ha : Visits start stop a)
    (hc : Visits start stop c) (hab : a ≤ b) (hbc : b ≤ c) : Visits start stop b :=
  ⟨le_trans ha.1 hab, fun u hu => lt_of_le_of_lt hbc (hc.2 u hu)⟩

theorem Supersedes.trans {x y e : Bytes × Bytes} (h : Supersedes keep x e)
    (h' : Supersedes keep y x) : Supersedes keep y e :=
  ⟨h'.1.trans h.1, UInt64.lt_trans h.2.1 h'.2.1, h'.2.2⟩

/-- Among some entries, a superseded one is superseded by one that these entries do not
supersede. -/
theorem exists_anchor {es : List (Bytes × Bytes)} (hes : es.Sublist s.db.entries)
    {x e : Bytes × Bytes} (hx : x ∈ es) (h : Supersedes keep x e) :
    ∃ a ∈ es, Supersedes keep a e ∧ ∀ y ∈ es, ¬ Supersedes keep y a := by
  obtain ⟨v, hv⟩ := Option.isSome_iff_exists.mp (isSome_newestIn hx h.1 h.2.2)
  obtain ⟨a, ha, hak, har, -, hmax⟩ := (newestIn_eq_some_iff hes _ _ _).mp hv
  refine ⟨a, ha, ⟨hak, ?_, har⟩, fun y hy hya => ?_⟩
  · exact UInt64.lt_of_lt_of_le h.2.1 (hmax x hx h.1 h.2.2)
  · exact absurd hya.2.1 (UInt64.not_lt.mpr (hmax y hy (hya.1.trans hak) hya.2.2))

/-- A store and its compaction, after the same calls. -/
structure After (s : Store) (keep : UInt64) (s₁ s₂ : Store) : Prop where
  thinned : Thinned (fun e => s.superseded keep e = true) s₁ s₂
  extend : Extends s s₁
  separated : Separated s₁.keys []

variable {s₁ s₂ : Store}

theorem After.separated' (h : After s keep s₁ s₂) : Separated s₂.keys [] := by
  refine h.separated.mono (fun k hk => ?_) (List.Subset.refl _)
  obtain ⟨e, he, rfl⟩ := List.mem_map.mp hk
  exact extractKey_mem ((h.thinned.mem_iff e).mp he).1

/-- Dropped versions are older than those that stay. -/
theorem After.older (h : After s keep s₁ s₂) {e x : Bytes × Bytes}
    (hD : s.superseded keep e = true) (hx : x ∈ s₂.db.entries)
    (hk : extractKey x.1 = extractKey e.1) : revOf e.1 < revOf x.1 := by
  obtain ⟨y, hy, hye⟩ := superseded_iff.mp hD
  by_contra hle
  obtain ⟨-, hno⟩ := (h.thinned.mem_iff x).mp hx
  have hlt := UInt64.lt_of_le_of_lt (UInt64.not_lt.mp hle) hye.2.1
  exact hno (superseded_iff.mpr ⟨y, hy, hye.1.trans hk.symm, hlt, hye.2.2⟩)

theorem After.mem_of_superseded (h : After s keep s₁ s₂) {e : Bytes × Bytes}
    (he : e ∈ s₁.db.entries) (hD : s.superseded keep e = true) : e ∈ s.db.entries := by
  obtain ⟨x, hx, hxe⟩ := superseded_iff.mp hD
  rcases h.extend.adds e he with he | hlt
  · exact he
  · have hle := UInt64.lt_of_lt_of_le hxe.2.1 (revOf_bounds hx).2
    exact absurd hlt (UInt64.not_lt.mpr (UInt64.le_of_lt hle))

/-- A version that stays stays after the calls. -/
theorem After.mem_of_kept (h : After s keep s₁ s₂) {e : Bytes × Bytes} (he : e ∈ s.db.entries)
    (hno : ∀ x ∈ s.db.entries, ¬ Supersedes keep x e) : e ∈ s₂.db.entries := by
  refine (h.thinned.mem_iff e).mpr ⟨h.extend.keeps e he, fun hD => ?_⟩
  obtain ⟨x, hx, hxe⟩ := superseded_iff.mp hD
  exact hno x hx hxe

/-- Reads as of `R` find the same newest versions when every dropped one they could find has a
version in its place. -/
theorem After.newestIn_eq (h : After s keep s₁ s₂) {es₁ es₂ : List (Bytes × Bytes)}
    (h₁ : es₁.Sublist s₁.db.entries) (h₂ : es₂.Sublist s₂.db.entries)
    (hmem : ∀ e, e ∈ es₂ ↔ e ∈ es₁ ∧ ¬ s.superseded keep e = true) {k : Bytes}
    (hplace : ∀ e ∈ es₁, extractKey e.1 = k → s.superseded keep e = true →
      ∃ x ∈ es₂, extractKey x.1 = k ∧ revOf x.1 ≤ R) :
    newestIn R k es₂ = newestIn R k es₁ := by
  refine Option.ext fun v => ?_
  rw [newestIn_eq_some_iff h₁, newestIn_eq_some_iff h₂]
  constructor
  · rintro ⟨e, he, hk, hR, hv, hmax⟩
    refine ⟨e, ((hmem e).mp he).1, hk, hR, hv, fun x hx hxk hxR => ?_⟩
    by_cases hD : s.superseded keep x = true
    · exact UInt64.le_of_lt (h.older hD (h₂.subset he) (hk.trans hxk.symm))
    · exact hmax x ((hmem x).mpr ⟨hx, hD⟩) hxk hxR
  · rintro ⟨e, he, hk, hR, hv, hmax⟩
    have hno : ¬ s.superseded keep e = true := by
      intro hD
      obtain ⟨x, hx, hxk, hxR⟩ := hplace e he hk hD
      have hlt := h.older hD (h₂.subset hx) (hxk.trans hk.symm)
      exact absurd hlt (UInt64.not_lt.mpr (hmax x ((hmem x).mp hx).1 hxk hxR))
    exact ⟨e, (hmem e).mpr ⟨he, hno⟩, hk, hR, hv, fun x hx => hmax x ((hmem x).mp hx).1⟩

/-- The revision of a read that may not notice the compaction. -/
theorem After.le_of_supersedes (h : After s keep s₁ s₂) {rev : UInt64}
    (hrev : rev = 0 ∨ keep ≤ rev) {x e : Bytes × Bytes} (hx : x ∈ s.db.entries)
    (hxe : Supersedes keep x e) : revOf x.1 ≤ s₁.effective rev := by
  rw [Store.effective]
  split
  · exact UInt64.le_trans (revOf_bounds hx).2 h.extend.last
  · rename_i hne
    exact UInt64.le_trans hxe.2.2 (hrev.resolve_left hne)

theorem After.effective (h : After s keep s₁ s₂) (rev : UInt64) :
    s₂.effective rev = s₁.effective rev := by
  rw [Store.effective, Store.effective, h.thinned.last]

theorem After.get (h : After s keep s₁ s₂) {rev : UInt64} (hrev : rev = 0 ∨ keep ≤ rev)
    (key : Bytes) : s₂.get rev key = s₁.get rev key := by
  rw [get_eq h.separated, get_eq h.separated', h.effective]
  refine congrArg (Option.bind · live) ?_
  refine h.newestIn_eq (List.Sublist.refl _) (List.Sublist.refl _) h.thinned.mem_iff ?_
  intro e he hk hD
  obtain ⟨x, hx, hxe⟩ := superseded_iff.mp hD
  obtain ⟨a, ha, hae, hno⟩ := exists_anchor (List.Sublist.refl _) hx hxe
  exact ⟨a, h.mem_of_kept ha hno, hae.1.trans hk, h.le_of_supersedes hrev ha hae⟩

theorem After.mem_bounded_iff (h : After s keep s₁ s₂) (start stop : Option Bytes)
    (e : Bytes × Bytes) :
    e ∈ bounded s₂.db start stop ↔
      e ∈ bounded s₁.db start stop ∧ ¬ s.superseded keep e = true := by
  rw [Kv.mem_bounded, Kv.mem_bounded, h.thinned.mem_iff]
  exact ⟨fun h => ⟨⟨h.1.1, h.2⟩, h.1.2⟩, fun h => ⟨⟨h.1.1, h.2⟩, h.1.2⟩⟩

/-- A scan that shows the same keys sees the anchors of what it visits. -/
theorem After.anchorsSeen (h : After s keep s₁ s₂) {rev : UInt64} (hrev : rev = 0 ∨ keep ≤ rev)
    {start stop : Option Bytes}
    (heq : (shown (s₁.effective rev) none stop (bounded s₂.db start stop)).map visit =
      (shown (s₁.effective rev) none stop (bounded s₁.db start stop)).map visit) :
    AnchorsSeen s keep start stop := by
  rintro - e he hpast hD
  obtain ⟨hes, hvisit⟩ := mem_bounded.mp he
  have he₁ := h.extend.keeps e hes
  obtain ⟨y, hy, hye⟩ := superseded_iff.mp hD
  have hR : revOf e.1 ≤ s₁.effective rev :=
    UInt64.le_trans (UInt64.le_of_lt hye.2.1) (h.le_of_supersedes hrev hy hye)
  obtain ⟨v, hv⟩ := Option.isSome_iff_exists.mp
    (isSome_newestIn (mem_bounded.mpr ⟨he₁, hvisit⟩) rfl hR)
  have hw : within none stop (extractKey e.1) = true := by simp [within, hpast]
  have hshown := (mem_shown h.separated (bounded_sublist s₁ start stop) _ none stop _ v).mpr
    ⟨hw, hv⟩
  have hkey := List.mem_map_of_mem (f := fun r : Bytes × Bytes × Bool => r.1)
    (List.mem_map_of_mem (f := visit) hshown)
  rw [← heq, List.map_map, List.mem_map] at hkey
  obtain ⟨⟨k, v'⟩, hmem, hk⟩ := hkey
  obtain rfl : k = extractKey e.1 := hk
  obtain ⟨-, hv'⟩ := (mem_shown h.separated' (bounded_sublist s₂ start stop) _ none stop _ v').mp hmem
  obtain ⟨x, hx, hxk, -⟩ := (newestIn_eq_some_iff (bounded_sublist s₂ start stop) _ _ _).mp hv'
  obtain ⟨hx₂, hxvisit⟩ := mem_bounded.mp hx
  obtain ⟨hx₁, hno⟩ := (h.thinned.mem_iff x).mp hx₂
  -- the version that supersedes `e` is not newer than `x`, which stayed
  have hle : revOf y.1 ≤ revOf x.1 := by
    by_contra hlt
    exact hno (superseded_iff.mpr ⟨y, hy, hye.1.trans hxk.symm, UInt64.not_le.mp hlt, hye.2.2⟩)
  have hy₁ := h.extend.keeps y hy
  have hxy : x.1 ≤ y.1 := by
    rw [← not_lt, lt_iff_revOf_lt hx₁ hy₁ (hye.1.trans hxk.symm)]
    exact UInt64.not_lt.mpr hle
  have hyl : y.1 < e.1 := (lt_iff_revOf_lt hes hy hye.1).mpr hye.2.1
  exact ⟨y, mem_bounded.mpr ⟨hy, hxvisit.between hvisit hxy (le_of_lt hyl)⟩, hye⟩

theorem After.shown_eq (h : After s keep s₁ s₂) {rev : UInt64} (hrev : rev = 0 ∨ keep ≤ rev)
    {start stop : Option Bytes} (hinv : inverted start stop = false)
    (hseen : AnchorsSeen s keep start stop) :
    shown (s₁.effective rev) none stop (bounded s₂.db start stop) =
      shown (s₁.effective rev) none stop (bounded s₁.db start stop) := by
  have hsub₁ := bounded_sublist s₁ start stop
  have hsub₂ := bounded_sublist s₂ start stop
  refine ((scans_shown h.separated' hsub₂ _ none stop).congr fun k hw => ?_).unique
    (scans_shown h.separated hsub₁ _ none stop)
  refine h.newestIn_eq hsub₁ hsub₂ (h.mem_bounded_iff start stop) ?_
  rintro e he rfl hD
  obtain ⟨he₁, hvisit⟩ := mem_bounded.mp he
  have hpast : past stop (extractKey e.1) = false := by simpa [within] using hw
  obtain ⟨x, hx, hxe⟩ :=
    hseen hinv e (mem_bounded.mpr ⟨h.mem_of_superseded he₁ hD, hvisit⟩) hpast hD
  obtain ⟨a, ha, hae, hno⟩ := exists_anchor (bounded_sublist s start stop) hx hxe
  obtain ⟨has, havisit⟩ := mem_bounded.mp ha
  have hkept : ∀ y ∈ s.db.entries, ¬ Supersedes keep y a := by
    intro y hy hya
    obtain ⟨z, hz, hza⟩ := hseen hinv a ha (by rw [hae.1]; exact hpast)
      (superseded_iff.mpr ⟨y, hy, hya⟩)
    exact hno z hz hza
  exact ⟨a, mem_bounded.mpr ⟨h.mem_of_kept has hkept, havisit⟩, hae.1,
    h.le_of_supersedes hrev has hae⟩

theorem After.range_iff (h : After s keep s₁ s₂) {rev : UInt64} (hrev : rev = 0 ∨ keep ≤ rev)
    (start stop : Option Bytes) :
    s₂.rangeAt rev start stop = s₁.rangeAt rev start stop ↔ AnchorsSeen s keep start stop := by
  rw [rangeAt_of_keys h.separated, rangeAt_of_keys h.separated', h.effective, Option.some.injEq]
  cases hinv : inverted start stop with
  | true =>
    refine iff_of_true rfl fun hno => ?_
    rw [hinv] at hno
    cases hno
  | false =>
    simp only [Bool.false_eq_true, if_false]
    constructor
    · exact h.anchorsSeen hrev
    · intro hseen
      rw [h.shown_eq hrev hinv hseen]

theorem after_compact {cs : List (UInt64 × List Op)} (h : Separated (s.run cs).keys []) :
    After s keep (s.run cs) ((s.compact keep).1.run cs) := by
  have hext := extends_run s cs
  exact ⟨(Thinned.compact (hext.separated h)).run cs, hext, h⟩

/-- A scan whose start is separated from the keys sees every anchor. -/
theorem anchorsSeen_of_separated {start stop : Option Bytes} (h : Separated s.keys start.toList)
    (keep : UInt64) : AnchorsSeen s keep start stop := by
  rintro - e he - hD
  obtain ⟨hes, hvisit⟩ := mem_bounded.mp he
  obtain ⟨x, hx, hxe⟩ := superseded_iff.mp hD
  have hlt : x.1 < e.1 := (lt_iff_revOf_lt hes hx hxe.1).mpr hxe.2.1
  refine ⟨x, mem_bounded.mpr ⟨hx, ?_, fun b hb => lt_trans hlt (hvisit.2 b hb)⟩, hxe⟩
  cases start with
  | none =>
    rw [eq_dataKey hx, dataKey, cons_le_cons_self]
    exact not_lt.mp (List.not_lt_nil _)
  | some a =>
    rw [lower_le_iff h (by simp) hx, hxe.1]
    exact (lower_le_iff h (by simp) hes).mp hvisit.1

/-- Two versions of `a`. -/
def twoVersions : Store := Store.empty.run [(1, [Op.put [97] [1]]), (2, [Op.put [97] [2]])]

/-- A start between the versions of `a`. -/
def cutStart : Bytes := [97, 0, 255, 255, 255, 255, 255, 255, 255, 253]

end Ydbgo.Kv
