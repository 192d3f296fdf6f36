import Ydbgo.Lib.Writes
import Ydbgo.Raft.LogStore

/-! # Reopening the raft log

The file of a log store is at all times a journal whose replay is the store's
map. An entry comes back from the file with its term erased, so a reopened
store agrees with the closed one exactly when every entry in it has term 0.
-/

namespace Ydbgo.Raft

/-! ## One entry -/

/-- The lengths `load` accepts. -/
def Log.Sized (l : Log) : Prop := l.data.length ≤ 2 ^ 30 ∧ l.extensions.length ≤ 2 ^ 30

instance (l : Log) : Decidable l.Sized := inferInstanceAs (Decidable (_ ∧ _))

/-- What the file keeps of an entry. -/
def Log.onDisk (l : Log) : Log := { l with term := 0 }

theorem readBE_append {w v : ℕ} (hv : v < 256 ^ w) (hw : 0 < w) (rest : Bytes) :
    readBE w (beBytes w v ++ rest) = .ok (v, rest) := by
  have hne : beBytes w v ++ rest ≠ [] := by
    intro h
    have := congrArg List.length h
    simp at this
    omega
  rw [readBE, if_neg hne, if_neg (by simp), List.take_left' (by simp), List.drop_left' (by simp),
    beNat_beBytes_of_lt hv]

theorem readBuf_append (bs : Bytes) {rest : Bytes} (h : rest ≠ []) :
    readBuf bs.length (bs ++ rest) = .ok (bs, rest) := by
  rw [readBuf, if_neg (by simp [h]), List.take_left' rfl, List.drop_left' rfl]
  simp

theorem beBytes_append_ne_nil {w : ℕ} (hw : 0 < w) (v : ℕ) (rest : Bytes) :
    beBytes w v ++ rest ≠ [] := by
  intro h
  have := congrArg List.length h
  simp at this
  omega

/-- Empty extensions are written as others are. -/
theorem extensions_eq (es : Bytes) :
    (if 0 < es.length then beBytes 4 es.length ++ es else beBytes 4 0) =
      beBytes 4 es.length ++ es := by
  split
  · rfl
  · next h =>
    rw [List.length_eq_zero_iff.mp (Nat.eq_zero_of_not_pos h)]
    rfl

theorem reads_appendLogEntry {l : Log} (h : l.Sized) :
    Journal.Reads appendLogEntry readLogEntry Log.onDisk l := by
  obtain ⟨hd, he⟩ := h
  refine ⟨fun hn => ?_, fun rest => ?_⟩
  · have := congrArg List.length hn
    simp [appendLogEntry] at this
  · simp only [appendLogEntry, extensions_eq, List.append_assoc, readLogEntry]
    rw [readBE_append (by have := l.index.toNat_lt; omega) (by decide)]
    simp only [bind, Except.bind]
    rw [readBE_append (by have := l.type.toNat_lt; omega) (by decide)]
    simp only
    rw [readBE_append (by omega) (by decide)]
    simp only [if_neg (Nat.not_lt.mpr hd)]
    rw [readBuf_append _ (beBytes_append_ne_nil (by decide) _ _)]
    simp only
    rw [readBE_append (by omega) (by decide)]
    simp only [if_neg (Nat.not_lt.mpr he)]
    rw [readBuf_append _ (beBytes_append_ne_nil (by decide) _ _)]
    simp only
    rw [readBE_append (UInt32.toNat_lt _) (by decide)]
    simp [Log.onDisk, pure, Except.pure]

/-! ## Deleting a range -/

theorem lookup_deleteLoop {fuel : ℕ} {i max : UInt64} {logs logs' : AList fun _ : UInt64 => Log}
    (h : deleteLoop fuel i max logs = some logs') (hmax : max.toNat + 1 < 2 ^ 64) (j : UInt64) :
    logs'.lookup j = if i ≤ j ∧ j ≤ max then none else logs.lookup j := by
  induction fuel generalizing i logs with
  | zero => simp [deleteLoop] at h
  | succ fuel ih =>
    rw [deleteLoop] at h
    by_cases hi : i ≤ max
    · rw [if_pos hi] at h
      rw [ih h]
      have hle : i.toNat ≤ max.toNat := hi
      have hsucc : (i + 1).toNat = i.toNat + 1 := by
        rw [UInt64.toNat_add]
        exact Nat.mod_eq_of_lt (by simpa using by omega)
      by_cases hj : j = i
      · subst hj
        have : ¬ j + 1 ≤ j := by rw [UInt64.le_iff_toNat_le]; omega
        simp [this, hi, AList.lookup_erase]
      · have hne : j.toNat ≠ i.toNat := fun hn => hj (UInt64.toNat_inj.mp hn)
        have hiff : i + 1 ≤ j ↔ i ≤ j := by
          rw [UInt64.le_iff_toNat_le, UInt64.le_iff_toNat_le]
          omega
        simp only [AList.lookup_erase_ne hj, hiff]
    · rw [if_neg hi] at h
      cases h
      have hgt : max.toNat < i.toNat := by simpa [UInt64.le_iff_toNat_le] using hi
      rw [if_neg]
      rintro ⟨h1, h2⟩
      rw [UInt64.le_iff_toNat_le] at h1 h2
      omega

theorem exists_deleteLoop {fuel : ℕ} {i max : UInt64} (hmax : max.toNat + 1 < 2 ^ 64)
    (hpos : 0 < fuel) (hfuel : max.toNat + 1 < i.toNat + fuel)
    (logs : AList fun _ : UInt64 => Log) :
    ∃ logs', deleteLoop fuel i max logs = some logs' := by
  induction fuel generalizing i logs with
  | zero => exact absurd hpos (lt_irrefl 0)
  | succ fuel ih =>
    by_cases hi : i ≤ max
    · rw [deleteLoop, if_pos hi]
      have hle : i.toNat ≤ max.toNat := hi
      have hsucc : (i + 1).toNat = i.toNat + 1 := by
        rw [UInt64.toNat_add]
        exact Nat.mod_eq_of_lt (by simpa using by omega)
      exact ih (by omega) (by omega) _
    · exact ⟨logs, by rw [deleteLoop, if_neg hi]⟩

/-- `i <= max` cannot fail for the largest index, so the loop never ends. -/
theorem deleteLoop_top (fuel : ℕ) (i : UInt64) (logs : AList fun _ : UInt64 => Log) :
    deleteLoop fuel i (.ofNat (2 ^ 64 - 1)) logs = none := by
  induction fuel generalizing i logs with
  | zero => rfl
  | succ fuel ih =>
    have hi : i ≤ .ofNat (2 ^ 64 - 1) := by
      rw [UInt64.le_iff_toNat_le]
      have := i.toNat_lt
      simpa using by omega
    rw [deleteLoop, if_pos hi, ih]

/-! ## The file as a journal -/

/-- The writes a batch of entries makes. -/
def writes (ls : List Log) : List (UInt64 × Option Log) := ls.map fun l => (l.index, some l)

theorem apply_writes_cons (m : UInt64 → Option Log) (l : Log) (ls : List Log) :
    Writes.apply m (writes (l :: ls)) = Writes.apply (Function.update m l.index (some l)) (writes ls) :=
  rfl

/-- What a call does to the entries stored under each index. -/
def LogOp.effect (m : UInt64 → Option Log) : LogOp → UInt64 → Option Log
  | .storeLogs logs => Writes.apply m (writes logs)
  | .deleteRange min max => fun i => if min ≤ i ∧ i ≤ max then none else m i

/-- The entries a sequence of calls leaves stored. -/
def stored (ops : List LogOp) : UInt64 → Option Log := ops.foldl LogOp.effect fun _ => none

/-- The store's map is `m`, and its file is a journal of readable entries that replays to `m`. -/
structure Journaled (s : FileLogStore) (m : UInt64 → Option Log) : Prop where
  lookup : ∀ i, s.logs.lookup i = m i
  index : ∀ i l, m i = some l → l.index = i
  sized : ∀ i l, m i = some l → l.Sized
  journal : ∃ js : List Log, s.file = js.flatMap appendLogEntry ∧ (∀ l ∈ js, l.Sized) ∧
    Writes.apply (fun _ => none) (writes js) = m

/-- A call `load` can later read back, whose loop ends. -/
def LogOp.Sized : LogOp → Prop
  | .storeLogs logs => ∀ l ∈ logs, l.Sized
  | .deleteRange _ max => max.toNat + 1 < 2 ^ 64

instance : (op : LogOp) → Decidable op.Sized
  | .storeLogs logs => inferInstanceAs (Decidable (∀ l ∈ logs, l.Sized))
  | .deleteRange _ max => inferInstanceAs (Decidable (max.toNat + 1 < 2 ^ 64))

theorem journaled_empty : Journaled { logs := ∅, xmin := 1, file := [] } fun _ => none where
  lookup i := AList.lookup_empty i
  index _ _ h := nomatch h
  sized _ _ h := nomatch h
  journal := ⟨[], rfl, by simp, rfl⟩

theorem journaled_storeLog {s : FileLogStore} {m : UInt64 → Option Log} (h : Journaled s m)
    {l : Log} (hl : l.Sized) :
    Journaled (s.storeLog l) (Function.update m l.index (some l)) := by
  obtain ⟨js, hfile, hjs, hm⟩ := h.journal
  refine ⟨fun i => ?_, fun i l' => ?_, fun i l' => ?_,
    js ++ [l], ?_, fun l' hl' => ?_, ?_⟩
  · by_cases hi : i = l.index
    · subst hi
      rw [FileLogStore.storeLog, AList.lookup_insert, Function.update_self]
    · rw [FileLogStore.storeLog, AList.lookup_insert_ne hi, Function.update_of_ne hi, h.lookup]
  · by_cases hi : i = l.index
    · subst hi
      rw [Function.update_self]
      rintro ⟨⟩
      rfl
    · rw [Function.update_of_ne hi]
      exact h.index i l'
  · by_cases hi : i = l.index
    · subst hi
      rw [Function.update_self]
      rintro ⟨⟩
      exact hl
    · rw [Function.update_of_ne hi]
      exact h.sized i l'
  · simp [FileLogStore.storeLog, hfile]
  · rcases List.mem_append.mp hl' with hl' | hl'
    · exact hjs l' hl'
    · obtain rfl := List.mem_singleton.mp hl'
      exact hl
  · rw [writes, List.map_append, Writes.apply_append, ← writes, hm]
    rfl

theorem journaled_storeLogs {s : FileLogStore} {m : UInt64 → Option Log} (h : Journaled s m)
    {logs : List Log} (hl : ∀ l ∈ logs, l.Sized) :
    Journaled (s.storeLogs logs) (Writes.apply m (writes logs)) := by
  induction logs generalizing s m with
  | nil => exact h
  | cons l logs ih =>
    exact ih (journaled_storeLog h (hl l (by simp))) fun l' hl' => hl l' (by simp [hl'])

/-- The entries of a map under some keys, in the order of the keys. -/
def entriesOf (logs : AList fun _ : UInt64 => Log) (ks : List UInt64) : List Log :=
  ks.filterMap fun i => logs.lookup i

theorem entriesOf_cons (logs : AList fun _ : UInt64 => Log) (k : UInt64) (ks : List UInt64) :
    entriesOf logs (k :: ks) = (logs.lookup k).toList ++ entriesOf logs ks := by
  rw [entriesOf, List.filterMap_cons]
  cases logs.lookup k <;> rfl

theorem flatMap_lookup (logs : AList fun _ : UInt64 => Log) (ks : List UInt64) :
    (ks.flatMap fun i => ((logs.lookup i).map appendLogEntry).getD []) =
      (entriesOf logs ks).flatMap appendLogEntry := by
  induction ks with
  | nil => rfl
  | cons k ks ih =>
    rw [List.flatMap_cons, ih, entriesOf_cons, List.flatMap_append]
    cases logs.lookup k <;> simp

theorem keys_writes_entriesOf {logs : AList fun _ : UInt64 => Log}
    (h : ∀ i l, logs.lookup i = some l → l.index = i) (ks : List UInt64) :
    (writes (entriesOf logs ks)).map Prod.fst = ks.filter fun i => (logs.lookup i).isSome := by
  induction ks with
  | nil => rfl
  | cons k ks ih =>
    rw [entriesOf_cons, List.filter_cons]
    cases hk : logs.lookup k with
    | none => simpa using ih
    | some l => simpa [writes, h k l hk] using ih

/-- Rewriting the file replays to the map it was written from. -/
theorem journaled_rewrite {s : FileLogStore} {m : UInt64 → Option Log}
    (hlookup : ∀ i, s.logs.lookup i = m i) (hindex : ∀ i l, m i = some l → l.index = i)
    (hsized : ∀ i l, m i = some l → l.Sized) : Journaled s.rewrite m := by
  have hmem : ∀ i, i ∈ s.logs.keys.insertionSort (· ≤ ·) ↔ (s.logs.lookup i).isSome := by
    intro i
    rw [List.mem_insertionSort, ← AList.mem_keys, AList.lookup_isSome]
  refine ⟨hlookup, hindex, hsized, entriesOf s.logs (s.logs.keys.insertionSort (· ≤ ·)),
    flatMap_lookup _ _, ?_, ?_⟩
  · intro l hl
    obtain ⟨i, -, hi⟩ := List.mem_filterMap.mp hl
    exact hsized i l ((hlookup i).symm.trans hi)
  · have hkeys := keys_writes_entriesOf
      (fun i l hi => hindex i l ((hlookup i).symm.trans hi)) (s.logs.keys.insertionSort (· ≤ ·))
    funext i
    cases hi : m i with
    | none =>
      refine Writes.apply_of_notMem ?_
      rw [hkeys, List.mem_filter, hlookup, hi]
      simp
    | some l =>
      refine Writes.apply_of_mem ?_ ?_
      · rw [hkeys]
        exact ((List.perm_insertionSort (· ≤ ·) s.logs.keys).nodup_iff.mpr s.logs.keys_nodup).filter _
      · refine List.mem_map.mpr ⟨l, List.mem_filterMap.mpr ⟨i, ?_, ?_⟩, ?_⟩
        · rw [hmem, hlookup, hi]
          rfl
        · rw [hlookup, hi]
        · rw [hindex i l hi]

theorem exists_deleteRange {s : FileLogStore} {m : UInt64 → Option Log} (h : Journaled s m)
    (min : UInt64) {max : UInt64} (hmax : max.toNat + 1 < 2 ^ 64) :
    ∃ s', s.deleteRange min max = some s' ∧
      Journaled s' fun i => if min ≤ i ∧ i ≤ max then none else m i := by
  obtain ⟨logs, hlogs⟩ : ∃ logs, deleteLoop (max.toNat - min.toNat + 2) min max s.logs = some logs :=
    exists_deleteLoop hmax (by omega) (by omega) s.logs
  refine ⟨_, by rw [FileLogStore.deleteRange, hlogs]; rfl, journaled_rewrite ?_ ?_ ?_⟩
  · intro i
    rw [lookup_deleteLoop hlogs hmax, h.lookup]
  · intro i l
    split
    · rintro ⟨⟩
    · exact h.index i l
  · intro i l
    split
    · rintro ⟨⟩
    · exact h.sized i l

theorem journaled_apply {s : FileLogStore} {m : UInt64 → Option Log} (h : Journaled s m)
    {op : LogOp} (hop : op.Sized) : ∃ s', s.apply op = some s' ∧ Journaled s' (op.effect m) := by
  cases op with
  | storeLogs logs => exact ⟨_, rfl, journaled_storeLogs h hop⟩
  | deleteRange min max => exact exists_deleteRange h min hop

theorem journaled_foldlM {ops : List LogOp} (h : ∀ op ∈ ops, op.Sized) {s : FileLogStore}
    {m : UInt64 → Option Log} (hs : Journaled s m) :
    ∃ s', ops.foldlM FileLogStore.apply s = some s' ∧
      Journaled s' (ops.foldl LogOp.effect m) := by
  induction ops generalizing s m with
  | nil => exact ⟨s, rfl, hs⟩
  | cons op ops ih =>
    obtain ⟨s₁, h₁, hs₁⟩ := journaled_apply hs (h op (by simp))
    obtain ⟨s₂, h₂, hs₂⟩ := ih (fun o ho => h o (by simp [ho])) hs₁
    exact ⟨s₂, by rw [List.foldlM_cons, h₁]; exact h₂, hs₂⟩

/-- Every run of readable calls ends, in a store whose file replays to what is stored. -/
theorem journaled_run {ops : List LogOp} (h : ∀ op ∈ ops, op.Sized) :
    ∃ s, runLog ops = some s ∧ Journaled s (stored ops) :=
  journaled_foldlM h journaled_empty

/-! ## Reopening -/

theorem loadEntry_file (s : FileLogStore) (l : Log) : (loadEntry s l).file = s.file := rfl

theorem lookup_foldl_loadEntry (js : List Log) (s : FileLogStore) (i : UInt64) :
    (js.foldl (fun s l => loadEntry s l.onDisk) s).logs.lookup i =
      Writes.apply (fun i => s.logs.lookup i) (writes (js.map Log.onDisk)) i := by
  induction js generalizing s with
  | nil => rfl
  | cons l js ih =>
    rw [List.foldl_cons, ih, List.map_cons, apply_writes_cons]
    refine Writes.apply_congr ?_ _
    by_cases hi : i = l.onDisk.index
    · subst hi
      rw [Function.update_self, loadEntry, AList.lookup_insert]
    · rw [Function.update_of_ne hi, loadEntry, AList.lookup_insert_ne hi]

theorem apply_writes_onDisk (m : UInt64 → Option Log) (js : List Log) (i : UInt64) :
    Writes.apply (fun i => (m i).map Log.onDisk) (writes (js.map Log.onDisk)) i =
      (Writes.apply m (writes js) i).map Log.onDisk := by
  induction js generalizing m with
  | nil => rfl
  | cons l js ih =>
    rw [List.map_cons, apply_writes_cons, apply_writes_cons, ← ih]
    refine Writes.apply_congr ?_ _
    by_cases hi : i = l.index
    · subst hi
      simp [Log.onDisk]
    · have hi' : i ≠ l.onDisk.index := hi
      simp [Function.update_of_ne hi, Function.update_of_ne hi']

/-- A reopened store holds what the file keeps of each entry. -/
theorem exists_reopen {s : FileLogStore} {m : UInt64 → Option Log} (h : Journaled s m) :
    ∃ s', newFileLogStore s.file = .ok s' ∧ ∀ i, s'.logs.lookup i = (m i).map Log.onDisk := by
  obtain ⟨js, hfile, hjs, hm⟩ := h.journal
  have hreads := fun l hl => reads_appendLogEntry (hjs l hl)
  refine ⟨js.foldl (fun s l => loadEntry s l.onDisk) { logs := ∅, xmin := 1, file := s.file },
    ?_, fun i => ?_⟩
  · rw [newFileLogStore, hfile]
    exact Journal.scan_flatMap hreads (Journal.length_le_flatMap fun l hl => (hreads l hl).1) _
  · rw [lookup_foldl_loadEntry, ← hm]
    exact apply_writes_onDisk (fun _ => none) js i

theorem keys_perm {logs logs' : AList fun _ : UInt64 => Log}
    (h : ∀ i, (logs.lookup i).isSome = (logs'.lookup i).isSome) : logs.keys.Perm logs'.keys := by
  refine (List.perm_ext_iff_of_nodup logs.keys_nodup logs'.keys_nodup).mpr fun i => ?_
  rw [← AList.mem_keys, ← AList.mem_keys, ← AList.lookup_isSome, ← AList.lookup_isSome, h]

theorem firstIndex_congr {s s' : FileLogStore} (h : s.logs.keys.Perm s'.logs.keys) :
    s.firstIndex = s'.firstIndex := by
  unfold FileLogStore.firstIndex
  rw [h.foldl_eq' fun x _ y _ z => ?_]
  obtain ⟨first, found⟩ := z
  grind

theorem lastIndex_congr {s s' : FileLogStore} (h : s.logs.keys.Perm s'.logs.keys) :
    s.lastIndex = s'.lastIndex := by
  unfold FileLogStore.lastIndex
  exact h.foldl_eq' (fun x _ y _ z => by grind) 0

/-- Reopening on the file gives the store's indexes back, the stored entry under each stored
index, and `ErrLogNotFound` under every other. -/
def Durable (s : FileLogStore) (m : UInt64 → Option Log) : Prop :=
  ∃ s', newFileLogStore s.file = .ok s' ∧ s'.firstIndex = s.firstIndex ∧
    s'.lastIndex = s.lastIndex ∧
    ∀ i, s'.getLog i = match m i with
      | some l => .ok l
      | none => .error .logNotFound

theorem durable_iff {s : FileLogStore} {m : UInt64 → Option Log} (h : Journaled s m) :
    Durable s m ↔ ∀ i l, m i = some l → l.term = 0 := by
  obtain ⟨s', hs', hlookup⟩ := exists_reopen h
  have hget : ∀ i, s'.getLog i = match (m i).map Log.onDisk with
      | some l => .ok l
      | none => .error .logNotFound := by
    intro i
    rw [FileLogStore.getLog, hlookup]
    cases m i <;> rfl
  have hkeys : s'.logs.keys.Perm s.logs.keys :=
    keys_perm fun i => by rw [hlookup, h.lookup, Option.isSome_map]
  constructor
  · rintro ⟨t, ht, -, -, hall⟩ i l hl
    obtain rfl : s' = t := by simpa using hs'.symm.trans ht
    have hi := hall i
    rw [hget, hl] at hi
    have hl' : l.onDisk = l := by simpa using hi
    rw [← hl']
    rfl
  · intro hz
    refine ⟨s', hs', firstIndex_congr hkeys, lastIndex_congr hkeys, fun i => ?_⟩
    rw [hget]
    cases hi : m i with
    | none => rfl
    | some l =>
      have : l.onDisk = l := by rw [Log.onDisk, ← hz i l hi]
      rw [Option.map_some, this]

/-- After any run of readable calls the log survives reopening exactly when every entry in it
has term 0. -/
theorem reopen_log_iff (ops : List LogOp) (h : ∀ op ∈ ops, op.Sized) :
    ∃ s, runLog ops = some s ∧
      (Durable s (stored ops) ↔ ∀ i l, stored ops i = some l → l.term = 0) := by
  obtain ⟨s, hs, hj⟩ := journaled_run h
  exact ⟨s, hs, durable_iff hj⟩

theorem reopen_log_iff_truncated :
    ∃ s, runLog [.storeLogs [⟨1, 0, 0, ascii "a", []⟩, ⟨2, 0, 0, ascii "b", []⟩],
        .deleteRange 1 1] = some s ∧
      (Durable s (stored [.storeLogs [⟨1, 0, 0, ascii "a", []⟩, ⟨2, 0, 0, ascii "b", []⟩],
          .deleteRange 1 1]) ↔
        ∀ i l, stored [.storeLogs [⟨1, 0, 0, ascii "a", []⟩, ⟨2, 0, 0, ascii "b", []⟩],
          .deleteRange 1 1] i = some l → l.term = 0) :=
  reopen_log_iff _ (by decide)

/-- An entry of term 7 comes back from the file with term 0. -/
theorem not_durable_term :
    ∃ s, runLog [.storeLogs [⟨1, 7, 0, ascii "x", []⟩]] = some s ∧
      ¬ Durable s (stored [.storeLogs [⟨1, 7, 0, ascii "x", []⟩]]) := by
  have h : ∀ op ∈ [LogOp.storeLogs [⟨1, 7, 0, ascii "x", []⟩]], op.Sized := by decide
  obtain ⟨s, hs, hj⟩ := journaled_run h
  refine ⟨s, hs, fun hd => ?_⟩
  exact absurd ((durable_iff hj).mp hd 1 ⟨1, 7, 0, ascii "x", []⟩ rfl) (by decide)

end Ydbgo.Raft
