import Mathlib.Data.List.TakeWhile
import Ydbgo.Kv.History

/-! # Counts of the versioned store

`RangeCount` at any revision, and the reads of a `Snapshot`. The count of the
last revision skips tombstones as `Range` marks them. Away from it the store
counts each visit of the range, so a key that was deleted by then counts too.
-/

namespace Ydbgo.Kv

/-- `Store.RangeCount`: away from the last revision it counts the calls of a range. -/
def Store.rangeCountAt (s : Store) (rev : UInt64) (start stop : Option Bytes) : Option ℕ :=
  if s.effective rev ≠ s.last then (s.rangeAt rev start stop).map List.length
  else some (s.rangeCount start stop)

/-- A view of the store, pinned at a revision. -/
structure Snapshot where
  snap : SortedMap Bytes Bytes
  rev : UInt64

def Store.snapshot (s : Store) : Snapshot := ⟨s.db, s.last⟩

/-- `Snapshot.Range` and `Snapshot.RangeNoCopy`. -/
def Snapshot.range (sn : Snapshot) (start stop : Option Bytes) : List (Bytes × Bytes × Bool) :=
  if inverted start stop then [] else rangeLoop stop none (bounded sn.snap start stop)

def Snapshot.rangeCount (sn : Snapshot) (start stop : Option Bytes) : ℕ :=
  if inverted start stop then 0 else countLoop stop none (bounded sn.snap start stop)

/-- The count is the number of keys that the range reports as not deleted. -/
def CountsLive (s : Store) (rev : UInt64) (start stop : Option Bytes) : Prop :=
  s.rangeCountAt rev start stop = (s.rangeAt rev start stop).map fun vs => (liveVisits vs).length

instance (s : Store) (rev : UInt64) (start stop : Option Bytes) :
    Decidable (CountsLive s rev start stop) := inferInstanceAs (Decidable (_ = _))

/-- Among the entries of an iterator, an entry that is the newest version of its key as of a
revision. -/
structure NewestFor (R : UInt64) (es : List (Bytes × Bytes)) (e : Bytes × Bytes) : Prop where
  mem : e ∈ es
  le : revOf e.1 ≤ R
  newest : ∀ x ∈ es, extractKey x.1 = extractKey e.1 → revOf x.1 ≤ R → revOf x.1 ≤ revOf e.1

/-- The range of the bounds holds a key whose newest version as of the revision is a tombstone. -/
def DeletedWithin (s : Store) (rev : UInt64) (start stop : Option Bytes) : Prop :=
  ∃ e, NewestFor (s.effective rev) (bounded s.db start stop) e ∧
    past stop (extractKey e.1) = false ∧ (visible e.2).2 = true

variable {s : Store}

/-! ### The visits of a range -/

theorem length_liveVisits_eq_iff (vs : List (Bytes × Bytes × Bool)) :
    (liveVisits vs).length = vs.length ↔ ∀ v ∈ vs, v.2.2 = false := by
  induction vs with
  | nil => exact iff_of_true rfl nofun
  | cons v vs ih =>
    obtain ⟨key, val, deleted⟩ := v
    have hle : (liveVisits vs).length ≤ vs.length := List.length_filterMap_le ..
    cases deleted with
    | false =>
      have hlive : liveVisits ((key, val, false) :: vs) = (key, val) :: liveVisits vs := rfl
      rw [hlive, List.length_cons, List.length_cons, Nat.succ_inj, ih, List.forall_mem_cons]
      exact (and_iff_right rfl).symm
    | true =>
      have hlive : liveVisits ((key, val, true) :: vs) = liveVisits vs := rfl
      rw [hlive, List.length_cons]
      constructor
      · intro h
        omega
      · intro h
        cases h _ List.mem_cons_self

/-- The loop shows newest versions only. -/
theorem mem_seekLoop {R : UInt64} {stop : Option Bytes} {es : List (Bytes × Bytes)}
    (hes : es.Sublist s.db.entries) {fuel : ℕ} {pos : List (Bytes × Bytes)}
    {vs : List (Bytes × Bytes × Bool)} (h : seekLoop R stop es fuel pos = some vs) :
    ∀ v ∈ vs, ∃ e, NewestFor R es e ∧ past stop (extractKey e.1) = false ∧
      v = (extractKey e.1, visible e.2) := by
  induction fuel generalizing pos vs with
  | zero =>
    cases pos with
    | nil =>
      cases h
      exact nofun
    | cons _ _ => cases h
  | succ fuel ih =>
    cases pos with
    | nil =>
      cases h
      exact nofun
    | cons p it =>
      obtain ⟨dk, val⟩ := p
      rw [seekLoop] at h
      split at h
      · cases h
        exact nofun
      next hpast =>
      split at h
      · cases h
        exact nofun
      next dk' val' it' hseek =>
      split at h
      · next hkey =>
        obtain ⟨vs', hvs', rfl⟩ := Option.map_eq_some_iff.mp h
        rintro v hv
        rcases List.mem_cons.mp hv with rfl | hv
        · have hsub : (dk', val') :: it' <:+ es := hseek ▸ List.dropWhile_suffix _
          have hmem : (dk', val') ∈ es := hsub.subset List.mem_cons_self
          have hge : ¬ dk' < dataKey (extractKey dk) R := by
            have hhead := List.head?_dropWhile_not
              (fun e : Bytes × Bytes => decide (e.1 < dataKey (extractKey dk) R)) es
            rw [hseek] at hhead
            simpa using hhead
          refine ⟨(dk', val'), ⟨hmem, ?_, ?_⟩, ?_, ?_⟩
          · have heq := eq_dataKey (hes.subset hmem)
            dsimp only at heq
            rw [heq, hkey, dataKey_lt_iff] at hge
            exact UInt64.not_lt.mp hge
          · rintro x hx hxk hxR
            have hxs := hes.subset hx
            have hin : x ∈ (dk', val') :: it' := by
              rw [← hseek]
              have hsplit := List.takeWhile_append_dropWhile (p := fun e : Bytes × Bytes =>
                decide (e.1 < dataKey (extractKey dk) R)) (l := es)
              rw [← hsplit] at hx
              refine (List.mem_append.mp hx).resolve_left fun htake => ?_
              have hlt : x.1 < dataKey (extractKey dk) R := by
                simpa using List.mem_takeWhile_imp htake
              rw [eq_dataKey hxs, hxk, hkey, dataKey_lt_iff] at hlt
              exact absurd hxR (UInt64.not_le.mpr hlt)
            have hasc : Ascending ((dk', val') :: it') :=
              s.db.ascending.sublist (hsub.sublist.trans hes)
            refine UInt64.not_lt.mp fun hlt => ?_
            have hless := (lt_iff_revOf_lt (hes.subset hmem) hxs hxk).mpr hlt
            rcases List.mem_cons.mp hin with rfl | hin
            · exact lt_irrefl _ hless
            · exact lt_asymm hless ((List.pairwise_cons.mp hasc).1 x hin)
          · rw [hkey]
            simpa using hpast
          · rw [hkey]
        · exact ih hvs' v hv
      · exact ih h

/-- Without separation a range may pass over a key, but it shows no other versions. -/
theorem mem_rangeAt {rev : UInt64} (hrev : s.effective rev ≠ s.last) {start stop : Option Bytes}
    {vs : List (Bytes × Bytes × Bool)} (h : s.rangeAt rev start stop = some vs) :
    ∀ v ∈ vs, inverted start stop = false ∧
      ∃ e, NewestFor (s.effective rev) (bounded s.db start stop) e ∧
        past stop (extractKey e.1) = false ∧ v = (extractKey e.1, visible e.2) := by
  rw [Store.rangeAt] at h
  cases hinv : inverted start stop with
  | true =>
    rw [hinv, if_pos rfl] at h
    cases h
    rintro v ⟨⟩
  | false =>
    rw [hinv, if_neg Bool.false_ne_true] at h
    dsimp only at h
    rw [if_neg hrev] at h
    exact fun v hv => ⟨rfl, mem_seekLoop (bounded_sublist s start stop) h v hv⟩

theorem mem_rangeAt_of_keys (hs : Separated s.keys []) {rev : UInt64} {start stop : Option Bytes}
    (hinv : inverted start stop = false) {e : Bytes × Bytes}
    (he : NewestFor (s.effective rev) (bounded s.db start stop) e)
    (hpast : past stop (extractKey e.1) = false) :
    ∃ vs, s.rangeAt rev start stop = some vs ∧ (extractKey e.1, visible e.2) ∈ vs := by
  have hsub := bounded_sublist s start stop
  have hrange := rangeAt_of_keys hs rev start stop
  rw [hinv, if_neg Bool.false_ne_true] at hrange
  refine ⟨_, hrange, List.mem_map.mpr ⟨(extractKey e.1, e.2), ?_, rfl⟩⟩
  rw [mem_shown hs hsub, newestIn_eq_some_iff hsub]
  constructor
  · simp [within, hpast]
  · exact ⟨e, he.mem, rfl, he.le, rfl, he.newest⟩

/-! ### The counts -/

theorem rangeCountAt_of_last {rev : UInt64} (h : s.effective rev = s.last)
    (start stop : Option Bytes) : CountsLive s rev start stop := by
  have hrange : s.rangeAt rev start stop = some (s.range start stop) := by
    rw [Store.rangeAt, Store.range]
    split
    · rfl
    · exact if_pos h
  have hne : ¬ s.effective rev ≠ s.last := not_not.mpr h
  rw [CountsLive, Store.rangeCountAt, if_neg hne, hrange, rangeCount_eq, Option.map_some]

/-- Away from the last revision the count is right if and only if no visit is of a tombstone. -/
theorem rangeCountAt_of_not_last {rev : UInt64} (h : s.effective rev ≠ s.last)
    (start stop : Option Bytes) : CountsLive s rev start stop ↔
      ∀ vs ∈ s.rangeAt rev start stop, ∀ v ∈ vs, v.2.2 = false := by
  rw [CountsLive, Store.rangeCountAt, if_pos h]
  cases s.rangeAt rev start stop with
  | none => exact iff_of_true rfl nofun
  | some vs =>
    simp only [Option.map_some, Option.some.injEq, Option.mem_def, forall_eq']
    rw [← length_liveVisits_eq_iff]
    exact eq_comm

/-- The writes of a key, its deletion, and another key. -/
def deletedCalls : List (UInt64 × List Op) :=
  [(1, [Op.put [97] [1]]), (2, [Op.del [97]]), (3, [Op.put [98] [2]])]

end Ydbgo.Kv
