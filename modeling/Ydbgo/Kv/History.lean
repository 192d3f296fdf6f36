import Ydbgo.Kv.Scan

/-! # Reads of a history

A history keeps every write of a key under its revision, and a read as of a
revision sees the last write that is not after it. The store reads as the
history of its applied batches as long as no written key followed by a NUL is
a prefix of another one or of a bound.
-/

namespace Ydbgo.Kv

/-- The value written for a key at a revision, or its deletion. -/
structure History where
  last : UInt64
  written : Bytes × UInt64 → Option (Option Bytes)

namespace History

def empty : History := ⟨0, fun _ => none⟩

/-- A batch is written at a revision above the last one, and refused at any other. -/
def apply (m : History) (rev : UInt64) (ops : List Op) : History :=
  let r := if rev = 0 then m.last + 1 else rev
  if ops ≠ [] ∧ m.last < r then
    ⟨r, Writes.apply m.written (ops.map fun op => ((op.key, r), some op.write.2))⟩
  else m

def run (cs : List (UInt64 × List Op)) : History := cs.foldl (fun m c => m.apply c.1 c.2) empty

def effective (m : History) (rev : UInt64) : UInt64 := if rev = 0 then m.last else rev

/-- The newest write of a key that is not after `R`. -/
def Newest (m : History) (R : UInt64) (key : Bytes) (v : Option Bytes) : Prop :=
  ∃ r ≤ R, m.written (key, r) = some v ∧ ∀ r' ≤ R, (m.written (key, r')).isSome → r' ≤ r

theorem Newest.unique {m : History} {R : UInt64} {key : Bytes} {v v' : Option Bytes}
    (h : m.Newest R key v) (h' : m.Newest R key v') : v = v' := by
  obtain ⟨r, hr, hv, hmax⟩ := h
  obtain ⟨r', hr', hv', hmax'⟩ := h'
  obtain rfl : r = r' :=
    UInt64.le_antisymm (hmax' r hr (by simp [hv])) (hmax r' hr' (by simp [hv']))
  exact Option.some.inj (hv.symm.trans hv')

/-- The keys a history has written. -/
def Wrote (m : History) (key : Bytes) : Prop := ∃ r, (m.written (key, r)).isSome

/-- No written key followed by a NUL is a prefix of another one or of a bound. -/
def Separated (m : History) (bounds : List Bytes) : Prop :=
  ∀ a, m.Wrote a → ∀ b, m.Wrote b ∨ b ∈ bounds → ¬ a ++ [0] <+: b

end History

/-- The store after the calls of `Apply`, those refused leaving it as it is. -/
def Store.run (s : Store) (cs : List (UInt64 × List Op)) : Store :=
  cs.foldl (fun s c => match s.apply c.1 c.2 with
    | .ok s' => s'
    | .error _ => s) s

/-- The visit of a key with its value, or with the deleted flag. -/
def mark : Bytes × Option Bytes → Bytes × Bytes × Bool
  | (k, none) => (k, [], true)
  | (k, some v) => (k, v, false)

/-- The reads of a store at a revision are those of a history. -/
structure Reads (s : Store) (m : History) (rev : UInt64) (start stop : Option Bytes) : Prop where
  get : ∀ key v, s.get rev key = some v ↔ m.Newest (m.effective rev) key (some v)
  range : ∃ out, Ascending out ∧
    (∀ k v, (k, v) ∈ out ↔
      ((∀ a ∈ start, a ≤ k) ∧ ∀ b ∈ stop, k < b) ∧ m.Newest (m.effective rev) k v) ∧
    s.rangeAt rev start stop = some (out.map mark) ∧
    s.rangeDescAt rev start stop = some (out.map mark).reverse

/-! ## The stored versions are the writes -/

def storedForm : Option Bytes → Bytes
  | none => [flagTomb]
  | some v => flagLive :: v

theorem version_eq (op : Op) : op.version = storedForm op.write.2 := by
  cases hd : op.delete <;> simp [Op.version, Op.write, storedForm, hd]

@[simp] theorem live_storedForm (v : Option Bytes) : live (storedForm v) = v := by
  cases v <;> simp [live, storedForm, visible, flagTomb, flagLive]

theorem dataKey_injective {k k' : Bytes} {r r' : UInt64} (h : dataKey k r = dataKey k' r') :
    k = k' ∧ r = r' := by
  have hk := congrArg extractKey h
  have hr := congrArg revOf h
  simp only [extractKey_dataKey] at hk
  simp only [revOf_dataKey] at hr
  exact ⟨hk, hr⟩

structure Keeps (s : Store) (m : History) : Prop where
  last : s.last = m.last
  stored : ∀ key r, s.db.get (dataKey key r) = (m.written (key, r)).map storedForm

theorem stored_batch {r : UInt64} {ops : List Op} {db : SortedMap Bytes Bytes}
    {w : Bytes × UInt64 → Option (Option Bytes)}
    (h : ∀ key r', db.get (dataKey key r') = (w (key, r')).map storedForm) (key : Bytes)
    (r' : UInt64) :
    (batch r ops db).get (dataKey key r') =
      (Writes.apply w (ops.map fun op => ((op.key, r), some op.write.2)) (key, r')).map
        storedForm := by
  induction ops generalizing db w with
  | nil => exact h key r'
  | cons op ops ih =>
    rw [List.map_cons, Writes.apply_cons]
    refine ih fun k x => ?_
    rw [SortedMap.get_insert]
    by_cases heq : (k, x) = (op.key, r)
    · obtain ⟨rfl, rfl⟩ := Prod.mk.inj heq
      simp [version_eq]
    · have hne : ¬ dataKey op.key r = dataKey k x := by
        intro hk
        obtain ⟨rfl, rfl⟩ := dataKey_injective hk
        exact heq rfl
      rw [if_neg hne, Function.update_of_ne heq]
      exact h k x

theorem keeps_apply {s : Store} {m : History} (h : Keeps s m) (rev : UInt64) (ops : List Op) :
    Keeps (s.run [(rev, ops)]) (m.apply rev ops) := by
  obtain ⟨hlast, hstored⟩ := h
  rw [Store.run, List.foldl_cons, List.foldl_nil, Store.apply, History.apply, ← hlast]
  by_cases hops : ops = []
  · simpa [hops] using ⟨hlast, hstored⟩
  · simp only [hops, if_false, ne_eq, not_false_eq_true, true_and]
    unfold Store.applyAt
    by_cases hlt : s.last < if rev = 0 then s.last + 1 else rev
    · rw [dif_pos hlt, if_pos hlt]
      exact ⟨rfl, stored_batch hstored⟩
    · rw [dif_neg hlt, if_neg hlt]
      exact ⟨hlast, hstored⟩

theorem keeps_run (cs : List (UInt64 × List Op)) : Keeps (Store.empty.run cs) (History.run cs) := by
  suffices h : ∀ s m, Keeps s m → Keeps (s.run cs) (cs.foldl (fun m c => m.apply c.1 c.2) m) from
    h _ _ ⟨rfl, fun _ _ => rfl⟩
  induction cs with
  | nil => exact fun _ _ h => h
  | cons c cs ih => exact fun s m h => ih _ _ (keeps_apply h c.1 c.2)

/-! ## Reads -/

variable {s : Store} {m : History}

/-- An entry is a write. -/
theorem Keeps.mem_iff (h : Keeps s m) {key val : Bytes} {r : UInt64} :
    (dataKey key r, val) ∈ s.db.entries ↔ ∃ v, m.written (key, r) = some v ∧ storedForm v = val := by
  rw [← SortedMap.get_eq_some, h.stored, Option.map_eq_some_iff]

theorem Keeps.wrote_iff (h : Keeps s m) {key : Bytes} : key ∈ s.keys ↔ m.Wrote key := by
  constructor
  · intro hk
    obtain ⟨e, he, rfl⟩ := List.mem_map.mp hk
    refine ⟨revOf e.1, ?_⟩
    have hmem : (dataKey (extractKey e.1) (revOf e.1), e.2) ∈ s.db.entries := by
      rw [← eq_dataKey he]
      exact he
    obtain ⟨v, hv, -⟩ := h.mem_iff.mp hmem
    simp [hv]
  · rintro ⟨r, hr⟩
    obtain ⟨v, hv⟩ := Option.isSome_iff_exists.mp hr
    have hmem := h.mem_iff.mpr ⟨v, hv, rfl⟩
    exact List.mem_map.mpr ⟨_, hmem, extractKey_dataKey key r⟩

theorem Keeps.separated (h : Keeps s m) {bounds : List Bytes} (hm : m.Separated bounds) :
    Separated s.keys bounds := by
  intro a ha b hb
  refine hm a (h.wrote_iff.mp ha) b ?_
  rcases List.mem_append.mp hb with hb | hb
  · exact Or.inl (h.wrote_iff.mp hb)
  · exact Or.inr hb

/-- An entry with a given key is a write of it. -/
theorem Keeps.written_iff (h : Keeps s m) {key val : Bytes} {r : UInt64} :
    (∃ e ∈ s.db.entries, extractKey e.1 = key ∧ revOf e.1 = r ∧ e.2 = val) ↔
      ∃ v, m.written (key, r) = some v ∧ storedForm v = val := by
  rw [← h.mem_iff]
  constructor
  · rintro ⟨e, he, rfl, rfl, rfl⟩
    rw [← eq_dataKey he]
    exact he
  · intro hmem
    exact ⟨_, hmem, extractKey_dataKey key r, revOf_dataKey key r, rfl⟩

theorem Keeps.newestAt_iff (h : Keeps s m) (R : UInt64) (key val : Bytes) :
    s.newestAt R key = some val ↔ ∃ v, storedForm v = val ∧ m.Newest R key v := by
  rw [Store.newestAt, newestIn_eq_some_iff (List.Sublist.refl _)]
  constructor
  · rintro ⟨e, he, hk, hR, hval, hmax⟩
    obtain ⟨v, hv, hval⟩ := h.written_iff.mp ⟨e, he, hk, rfl, hval⟩
    refine ⟨v, hval, revOf e.1, hR, hv, fun r' hr' hsome => ?_⟩
    obtain ⟨v', hv'⟩ := Option.isSome_iff_exists.mp hsome
    obtain ⟨x, hx, hxk, rfl, -⟩ := h.written_iff.mpr ⟨v', hv', rfl⟩
    exact hmax x hx hxk hr'
  · rintro ⟨v, rfl, r, hr, hv, hmax⟩
    obtain ⟨e, he, hk, rfl, hval⟩ := h.written_iff.mpr ⟨v, hv, rfl⟩
    refine ⟨e, he, hk, hr, hval, fun x hx hxk hxR => hmax _ hxR ?_⟩
    obtain ⟨v', hv', -⟩ := h.written_iff.mp ⟨x, hx, hxk, rfl, rfl⟩
    simp [hv']

/-- A point read finds the newest version of its key. -/
theorem get_eq {bounds : List Bytes} (hs : Separated s.keys bounds) (rev : UInt64) (key : Bytes) :
    s.get rev key = (s.newestAt (s.effective rev) key).bind live := by
  by_cases hk : key ∈ s.keys
  · have hfind : (s.db.entries.find? fun e =>
        decide (dataKey key (s.effective rev) ≤ e.1) && decide (e.1 < dataUpper key)) =
        s.db.entries.find? fun e =>
          decide (extractKey e.1 = key) && decide (revOf e.1 ≤ s.effective rev) := by
      refine find?_eq_of_forall fun e he => ?_
      have hlo := entry_lt_iff hs he hk (s.effective rev)
      have hhi := lt_dataUpper_iff hs he hk
      rw [Bool.eq_iff_iff]
      simp only [Bool.and_eq_true, decide_eq_true_eq, ← not_lt (a := e.1), hlo, hhi, not_or,
        not_and, UInt64.not_lt, not_lt]
      constructor
      · rintro ⟨⟨hle, hrev⟩, hle'⟩
        have heq := le_antisymm hle' hle
        exact ⟨heq, hrev heq⟩
      · rintro ⟨rfl, hrev⟩
        exact ⟨⟨le_refl _, fun _ => hrev⟩, le_refl _⟩
    rw [Store.get, Store.newestAt, newestIn]
    simp only [hfind]
    cases hf : s.db.entries.find? fun e =>
        decide (extractKey e.1 = key) && decide (revOf e.1 ≤ s.effective rev) with
    | none => rfl
    | some e =>
      have hp := List.find?_some hf
      simp only [Bool.and_eq_true, decide_eq_true_eq] at hp
      simp only [hp.1, if_true, Option.map_some, Option.bind_some, live]
      obtain ⟨payload, d⟩ := visible e.2
      cases d <;> simp
  · have hne : ∀ e ∈ s.db.entries, extractKey e.1 ≠ key := by
      rintro e he rfl
      exact hk (extractKey_mem he)
    have hnone : s.newestAt (s.effective rev) key = none := by
      rw [Store.newestAt, newestIn, Option.map_eq_none_iff, List.find?_eq_none]
      intro e he
      simp [hne e he]
    rw [hnone, Store.get, Option.bind_none]
    split
    · rfl
    · rename_i dk val hf
      rw [if_neg (hne _ (List.mem_of_find?_eq_some hf))]

theorem visit_eq_mark (e : Bytes × Bytes) : visit e = mark (e.1, live e.2) := by
  obtain ⟨k, val⟩ := e
  cases val with
  | nil => rfl
  | cons flag payload => by_cases h : flag = flagTomb <;> simp [visit, mark, live, visible, h]

/-- The versions a scan shows, as the writes they are. -/
def shownWrites (s : Store) (R : UInt64) (start stop : Option Bytes) :
    List (Bytes × Option Bytes) :=
  (shown R start stop s.db.entries).map fun e => (e.1, live e.2)

theorem Keeps.mem_shownWrites (h : Keeps s m) {bounds : List Bytes}
    (hs : Separated s.keys bounds) (R : UInt64) (start stop : Option Bytes) (k : Bytes)
    (v : Option Bytes) :
    (k, v) ∈ shownWrites s R start stop ↔
      ((∀ a ∈ start, a ≤ k) ∧ ∀ b ∈ stop, k < b) ∧ m.Newest R k v := by
  have hnew := h.newestAt_iff R k
  rw [shownWrites, List.mem_map, ← within_iff]
  constructor
  · rintro ⟨⟨k', val⟩, hmem, heq⟩
    obtain ⟨rfl, rfl⟩ := Prod.mk.inj heq
    obtain ⟨hw, hval⟩ := (mem_shown hs (List.Sublist.refl _) R start stop _ _).mp hmem
    obtain ⟨v, rfl, hn⟩ := (hnew val).mp hval
    exact ⟨hw, by simpa using hn⟩
  · rintro ⟨hw, hn⟩
    have hval := (hnew _).mpr ⟨v, rfl, hn⟩
    exact ⟨(k, storedForm v), (mem_shown hs (List.Sublist.refl _) R start stop _ _).mpr ⟨hw, hval⟩,
      by simp⟩

theorem Keeps.reads (h : Keeps s m) {start stop : Option Bytes}
    (hm : m.Separated (start.toList ++ stop.toList)) (rev : UInt64) :
    Reads s m rev start stop := by
  have hs := h.separated hm
  have heff : s.effective rev = m.effective rev := by
    rw [Store.effective, History.effective, h.last]
  have ha : ∀ a ∈ start, a ∈ start.toList ++ stop.toList := fun a ha => by simp_all
  have hb : ∀ b ∈ stop, b ∈ start.toList ++ stop.toList := fun b hb => by simp_all
  have hmap : (shown (m.effective rev) start stop s.db.entries).map visit =
      (shownWrites s (m.effective rev) start stop).map mark := by
    rw [shownWrites, List.map_map]
    exact List.map_congr_left fun e _ => visit_eq_mark e
  constructor
  · intro key v
    rw [get_eq hs, heff, Option.bind_eq_some_iff]
    constructor
    · rintro ⟨val, hval, hlive⟩
      obtain ⟨v', rfl, hn⟩ := (h.newestAt_iff _ _ _).mp hval
      rw [live_storedForm] at hlive
      rwa [← hlive]
    · intro hn
      exact ⟨_, (h.newestAt_iff _ _ _).mpr ⟨_, rfl, hn⟩, by simp⟩
  · refine ⟨shownWrites s (m.effective rev) start stop, ?_,
      h.mem_shownWrites hs (m.effective rev) start stop, ?_, ?_⟩
    · exact List.pairwise_map.mpr (ascending_shown hs (List.Sublist.refl _) _ _ _)
    · rw [rangeAt_eq hs ha hb, heff, hmap]
    · rw [rangeDescAt_eq hs ha hb, heff, hmap]

/-- The writes `a`, then `a`, NUL, `b`. -/
def mixedCalls : List (UInt64 × List Op) :=
  [(1, [Op.put [97] [1]]), (2, [Op.put [97, 0, 98] [2]])]

/-- The writes `a`, `b` and `a` again. -/
def plainCalls : List (UInt64 × List Op) :=
  [(1, [Op.put [97] [1], Op.put [98] [2]]), (4, [Op.del [97]])]

end Ydbgo.Kv
