import Ydbgo.Raft.LogDurability

/-! # The raft log after a crash

A file that ends within an entry is refused as a whole, and bytes that were
changed within an entry are noticed only where a length among them leads past
the end of the file, since the checksum is read and not compared.
-/

namespace Ydbgo.Raft

/-! ### Reading one entry -/

/-- The length of the data that the bytes of an entry give. -/
def dataLen (r : Bytes) : ℕ := beNat ((r.drop 12).take 4)

/-- The length of the extensions, which lies behind the data. -/
def extLen (r : Bytes) : ℕ := beNat ((r.drop (16 + dataLen r)).take 4)

/-- The lengths are accepted and lead to a place in the file that an entry can end at. -/
structure LengthsFit (r : Bytes) : Prop where
  data : dataLen r ≤ 2 ^ 30
  ext : extLen r ≤ 2 ^ 30
  file : 24 + dataLen r + extLen r ≤ r.length

theorem readBE_eq_ok_iff {w : ℕ} (hw : 0 < w) {r : Bytes} {p : ℕ × Bytes} :
    readBE w r = .ok p ↔ w ≤ r.length ∧ p = (beNat (r.take w), r.drop w) := by
  unfold readBE
  by_cases hr : r = []
  · rw [if_pos hr, hr]
    refine iff_of_false nofun ?_
    rintro ⟨hle, -⟩
    rw [List.length_nil] at hle
    omega
  · rw [if_neg hr]
    split
    · next hlt =>
      refine iff_of_false nofun ?_
      rintro ⟨hle, -⟩
      omega
    · next hge =>
      rw [Except.ok.injEq]
      exact ⟨fun h => ⟨Nat.le_of_not_lt hge, h.symm⟩, fun h => h.2.symm⟩

theorem readBuf_eq_ok_iff {n : ℕ} {r : Bytes} {p : Bytes × Bytes} :
    readBuf n r = .ok p ↔ r ≠ [] ∧ p = (r.take n ++ List.replicate (n - r.length) 0, r.drop n) := by
  unfold readBuf
  split
  · next hr => exact iff_of_false nofun fun h => h.1 hr
  · next hr =>
    rw [Except.ok.injEq]
    exact ⟨fun h => ⟨hr, h.symm⟩, fun h => h.2.symm⟩

theorem exists_bind_ok_iff {ε α β : Type} {x : Except ε α} {f : α → Except ε β} :
    (∃ b, x >>= f = .ok b) ↔ ∃ a, x = .ok a ∧ ∃ b, f a = .ok b := by
  cases x with
  | error e => exact iff_of_false nofun nofun
  | ok a =>
    constructor
    · rintro ⟨b, h⟩
      exact ⟨a, rfl, b, h⟩
    · rintro ⟨_, ⟨⟩, h⟩
      exact h

/-- An entry is read if and only if its lengths fit. -/
theorem readLogEntry_eq_ok_iff (r : Bytes) :
    (∃ p, readLogEntry r = .ok p) ↔ LengthsFit r := by
  have hdata : (r.drop 8).drop 4 = r.drop 12 := by rw [List.drop_drop]
  have hbody : (r.drop 12).drop 4 = r.drop 16 := by rw [List.drop_drop]
  have hext : (r.drop 16).drop (dataLen r) = r.drop (16 + dataLen r) := by rw [List.drop_drop]
  have htail : (r.drop (16 + dataLen r)).drop 4 = r.drop (20 + dataLen r) := by
    rw [List.drop_drop]
    congr 1
    omega
  have hsum : (r.drop (20 + dataLen r)).drop (extLen r) = r.drop (20 + dataLen r + extLen r) := by
    rw [List.drop_drop]
  constructor
  · intro h
    unfold readLogEntry at h
    obtain ⟨_, h₁, h⟩ := exists_bind_ok_iff.mp h
    obtain ⟨h₁, rfl⟩ := (readBE_eq_ok_iff (by decide)).mp h₁
    obtain ⟨_, h₂, h⟩ := exists_bind_ok_iff.mp h
    obtain ⟨h₂, rfl⟩ := (readBE_eq_ok_iff (by decide)).mp h₂
    obtain ⟨_, h₃, h⟩ := exists_bind_ok_iff.mp h
    obtain ⟨h₃, rfl⟩ := (readBE_eq_ok_iff (by decide)).mp h₃
    dsimp only at h₃ h
    rw [hdata] at h₃ h
    rw [hbody] at h
    have hd : beNat ((r.drop 12).take 4) = dataLen r := rfl
    rw [hd] at h
    by_cases hdlen : dataLen r > 2 ^ 30
    · rw [if_pos hdlen] at h
      obtain ⟨_, h⟩ := h
      cases h
    rw [if_neg hdlen] at h
    obtain ⟨_, h₄, h⟩ := exists_bind_ok_iff.mp h
    obtain ⟨-, rfl⟩ := readBuf_eq_ok_iff.mp h₄
    obtain ⟨_, h₅, h⟩ := exists_bind_ok_iff.mp h
    obtain ⟨h₅, rfl⟩ := (readBE_eq_ok_iff (by decide)).mp h₅
    dsimp only at h₅ h
    rw [hext] at h₅ h
    rw [htail] at h
    have he : beNat ((r.drop (16 + dataLen r)).take 4) = extLen r := rfl
    rw [he] at h
    by_cases helen : extLen r > 2 ^ 30
    · rw [if_pos helen] at h
      obtain ⟨_, h⟩ := h
      cases h
    rw [if_neg helen] at h
    obtain ⟨_, h₆, h⟩ := exists_bind_ok_iff.mp h
    obtain ⟨-, rfl⟩ := readBuf_eq_ok_iff.mp h₆
    obtain ⟨_, h₇, h⟩ := exists_bind_ok_iff.mp h
    obtain ⟨h₇, -⟩ := (readBE_eq_ok_iff (by decide)).mp h₇
    dsimp only at h₇
    rw [hsum, List.length_drop] at h₇
    exact ⟨Nat.le_of_not_lt hdlen, Nat.le_of_not_lt helen, by omega⟩
  · rintro ⟨hdlen, helen, hlen⟩
    have hne (n : ℕ) (hn : n < r.length) : r.drop n ≠ [] := by
      rw [Ne, List.drop_eq_nil_iff]
      omega
    unfold readLogEntry
    refine exists_bind_ok_iff.mpr ⟨_, (readBE_eq_ok_iff (by decide)).mpr ⟨by omega, rfl⟩, ?_⟩
    refine exists_bind_ok_iff.mpr ⟨_, (readBE_eq_ok_iff (by decide)).mpr ⟨?_, rfl⟩, ?_⟩
    · rw [List.length_drop]
      omega
    refine exists_bind_ok_iff.mpr ⟨_, (readBE_eq_ok_iff (by decide)).mpr ⟨?_, rfl⟩, ?_⟩
    · rw [hdata, List.length_drop]
      omega
    dsimp only
    rw [hdata, hbody]
    have hd : beNat ((r.drop 12).take 4) = dataLen r := rfl
    rw [hd, if_neg (Nat.not_lt.mpr hdlen)]
    refine exists_bind_ok_iff.mpr ⟨_, readBuf_eq_ok_iff.mpr ⟨hne 16 (by omega), rfl⟩, ?_⟩
    refine exists_bind_ok_iff.mpr ⟨_, (readBE_eq_ok_iff (by decide)).mpr ⟨?_, rfl⟩, ?_⟩
    · dsimp only
      rw [hext, List.length_drop]
      omega
    dsimp only
    rw [hext, htail]
    have he : beNat ((r.drop (16 + dataLen r)).take 4) = extLen r := rfl
    rw [he, if_neg (Nat.not_lt.mpr helen)]
    refine exists_bind_ok_iff.mpr ⟨_, readBuf_eq_ok_iff.mpr ⟨hne _ (by omega), rfl⟩, ?_⟩
    refine exists_bind_ok_iff.mpr ⟨_, (readBE_eq_ok_iff (by decide)).mpr ⟨?_, rfl⟩, _, rfl⟩
    dsimp only
    rw [hsum, List.length_drop]
    omega

/-! ### A cut within the last entry -/

theorem length_appendLogEntry (l : Log) :
    (appendLogEntry l).length = 24 + l.data.length + l.extensions.length := by
  unfold appendLogEntry
  split
  · simp only [List.length_append, length_beBytes]
    omega
  · simp only [List.length_append, length_beBytes]
    omega

/-- Behind its index and type an entry has its data and its extensions, each with its length. -/
theorem appendLogEntry_eq (l : Log) : ∃ sum, sum.length = 4 ∧
    appendLogEntry l = beBytes 8 l.index.toNat ++ beBytes 4 l.type.toNat ++
      (beBytes 4 l.data.length ++ (l.data ++ (beBytes 4 l.extensions.length ++
        (l.extensions ++ sum)))) := by
  unfold appendLogEntry
  rw [extensions_eq]
  dsimp only
  generalize checksumIEEE _ = sum
  exact ⟨beBytes 4 sum.toNat, length_beBytes _ _, by simp only [List.append_assoc]⟩

/-- Wherever an entry is cut, its lengths do not fit. -/
theorem not_lengthsFit_take {l : Log} (h : l.Sized) {k : ℕ} (hk : k < (appendLogEntry l).length) :
    ¬ LengthsFit ((appendLogEntry l).take k) := by
  rintro ⟨-, -, hfile⟩
  have hlen := length_appendLogEntry l
  rw [List.length_take, Nat.min_eq_left (le_of_lt hk)] at hfile
  obtain ⟨sum, -, he⟩ := appendLogEntry_eq l
  have hdrop : (appendLogEntry l).drop 12 = beBytes 4 l.data.length ++ (l.data ++
      (beBytes 4 l.extensions.length ++ (l.extensions ++ sum))) := by
    rw [he]
    exact List.drop_left' (by simp)
  have htake (n k : ℕ) (bs : Bytes) (hn : n ≤ k) : (bs.take k).take n = bs.take n := by
    rw [List.take_take, Nat.min_eq_left hn]
  have hdata : dataLen ((appendLogEntry l).take k) = l.data.length := by
    unfold dataLen
    rw [List.drop_take, htake 4 _ _ (by omega), hdrop, List.take_left' (by simp),
      beNat_beBytes_of_lt (lt_of_le_of_lt h.1 (by norm_num))]
  have hext : extLen ((appendLogEntry l).take k) = l.extensions.length := by
    unfold extLen
    have hbehind : (appendLogEntry l).drop (16 + l.data.length) =
        beBytes 4 l.extensions.length ++ (l.extensions ++ sum) := by
      have hsplit : 16 + l.data.length = 12 + (4 + l.data.length) := by omega
      rw [hsplit, ← List.drop_drop, hdrop, ← List.drop_drop, List.drop_left' (by simp),
        List.drop_left' rfl]
    rw [hdata, List.drop_take, htake 4 _ _ (by omega), hbehind, List.take_left' (by simp),
      beNat_beBytes_of_lt (lt_of_le_of_lt h.2 (by norm_num))]
  rw [hdata, hext] at hfile
  omega

/-- The file of complete entries. -/
def journalOf (js : List Log) : Bytes := js.flatMap appendLogEntry

/-- The entries that a list of them leaves stored. -/
def held (js : List Log) : UInt64 → Option Log := Writes.apply (fun _ => none) (writes js)

/-- The stores answer every read alike. -/
structure Alike (s s' : FileLogStore) : Prop where
  firstIndex : s.firstIndex = s'.firstIndex
  lastIndex : s.lastIndex = s'.lastIndex
  getLog : ∀ i, s.getLog i = s'.getLog i

/-- The file opens as a store that from then on behaves as one that stored just the entries, before
and after any calls and when it is opened again. -/
def Recovers (file : Bytes) (js : List Log) : Prop :=
  ∃ s, newFileLogStore file = .ok s ∧ ∀ ops : List LogOp, (∀ op ∈ ops, op.Sized) →
    ∃ s' r', ops.foldlM FileLogStore.apply s = some s' ∧ runLog (.storeLogs js :: ops) = some r' ∧
      Alike s' r' ∧ ∃ t u, newFileLogStore s'.file = .ok t ∧ newFileLogStore r'.file = .ok u ∧
        Alike t u

theorem getLog_congr {s s' : FileLogStore} {i : UInt64} (h : s.logs.lookup i = s'.logs.lookup i) :
    s.getLog i = s'.getLog i := by
  rw [FileLogStore.getLog, FileLogStore.getLog, h]

theorem alike_of_lookup {s s' : FileLogStore} (h : ∀ i, s.logs.lookup i = s'.logs.lookup i) :
    Alike s s' := by
  have hkeys : s.logs.keys.Perm s'.logs.keys := keys_perm fun i => by rw [h]
  exact ⟨firstIndex_congr hkeys, lastIndex_congr hkeys, fun i => getLog_congr (h i)⟩

theorem alike_of_journaled {s s' : FileLogStore} {m : UInt64 → Option Log} (h : Journaled s m)
    (h' : Journaled s' m) : Alike s s' :=
  alike_of_lookup fun i => (h.lookup i).trans (h'.lookup i).symm

/-- Stores of one map are reopened alike. -/
theorem alike_reopen {s s' : FileLogStore} {m : UInt64 → Option Log} (h : Journaled s m)
    (h' : Journaled s' m) : ∃ t u, newFileLogStore s.file = .ok t ∧
      newFileLogStore s'.file = .ok u ∧ Alike t u := by
  obtain ⟨t, ht, hlookup⟩ := exists_reopen h
  obtain ⟨u, hu, hlookup'⟩ := exists_reopen h'
  exact ⟨t, u, ht, hu, alike_of_lookup fun i => (hlookup i).trans (hlookup' i).symm⟩

theorem journaled_storeAll {js : List Log} (h : ∀ l ∈ js, l.Sized) :
    ∃ r, runLog [.storeLogs js] = some r ∧ Journaled r (held js) :=
  @journaled_run [.storeLogs js] (by simpa [LogOp.Sized] using h)

theorem foldl_loadEntry_file (js : List Log) (s : FileLogStore) :
    (js.foldl (fun s l => loadEntry s l.onDisk) s).file = s.file := by
  induction js generalizing s with
  | nil => rfl
  | cons l js ih =>
    rw [List.foldl_cons, ih, loadEntry_file]

/-- Complete entries are opened as what the file keeps of them. -/
theorem newFileLogStore_journalOf {js : List Log} (h : ∀ l ∈ js, l.Sized) :
    ∃ s, newFileLogStore (journalOf js) = .ok s ∧ s.file = journalOf js ∧
      ∀ i, s.logs.lookup i = (held js i).map Log.onDisk := by
  have hreads := fun l hl => reads_appendLogEntry (h l hl)
  refine ⟨js.foldl (fun s l => loadEntry s l.onDisk) { logs := ∅, xmin := 1, file := journalOf js },
    ?_, foldl_loadEntry_file js _, fun i => ?_⟩
  · exact Journal.scan_flatMap hreads (Journal.length_le_flatMap fun l hl => (hreads l hl).1) _
  · rw [lookup_foldl_loadEntry]
    exact apply_writes_onDisk (fun _ => none) js i

theorem onDisk_eq_self_iff (l : Log) : l.onDisk = l ↔ l.term = 0 := by
  constructor
  · intro h
    rw [← h]
    rfl
  · intro h
    rw [Log.onDisk, ← h]

/-- Complete entries are recovered if and only if no entry stored among them has a term. -/
theorem recovers_journalOf_iff {js : List Log} (h : ∀ l ∈ js, l.Sized) :
    Recovers (journalOf js) js ↔ ∀ i l, held js i = some l → l.term = 0 := by
  obtain ⟨r, hr, hj⟩ := journaled_storeAll h
  obtain ⟨s, hs, hfile, hlookup⟩ := newFileLogStore_journalOf h
  constructor
  · rintro ⟨s', hs', hall⟩ i l hl
    obtain rfl : s = s' := by simpa using hs.symm.trans hs'
    obtain ⟨s', r', hrun, hrun', hfirst, -⟩ := hall [] (by simp)
    obtain rfl : s = s' := Option.some.inj hrun
    obtain rfl : r = r' := Option.some.inj (hr.symm.trans hrun')
    have hget := hfirst.getLog i
    rw [FileLogStore.getLog, FileLogStore.getLog, hlookup, hj.lookup, hl] at hget
    have hdisk : l.onDisk = l := by simpa using hget
    exact (onDisk_eq_self_iff l).mp hdisk
  · intro hterm
    have hmap : ∀ i, (held js i).map Log.onDisk = held js i := by
      intro i
      cases hi : held js i with
      | none => rfl
      | some l => rw [Option.map_some, (onDisk_eq_self_iff l).mpr (hterm i l hi)]
    have hopen : Journaled s (held js) :=
      ⟨fun i => (hlookup i).trans (hmap i), hj.index, hj.sized, js, hfile, h, rfl⟩
    refine ⟨s, hs, fun ops hops => ?_⟩
    obtain ⟨s', hs', hsj⟩ := journaled_foldlM hops hopen
    obtain ⟨r', hr', hrj⟩ := journaled_foldlM hops hj
    have hrun : runLog (.storeLogs js :: ops) = some r' := by
      have hstep : FileLogStore.apply { logs := ∅, xmin := 1, file := [] } (.storeLogs js) =
          some r := hr
      rw [runLog, List.foldlM_cons, hstep]
      exact hr'
    exact ⟨s', r', hs', hrun, alike_of_journaled hsj hrj, alike_reopen hsj hrj⟩

theorem readLogEntry_error_iff (r : Bytes) :
    (∃ err, readLogEntry r = .error err) ↔ ¬ LengthsFit r := by
  rw [← readLogEntry_eq_ok_iff]
  cases readLogEntry r with
  | error err => simp
  | ok p => simp

/-- A file that ends within an entry is refused. -/
theorem newFileLogStore_torn {js : List Log} (h : ∀ l ∈ js, l.Sized) {l : Log} (hl : l.Sized) {k : ℕ}
    (hpos : 0 < k) (hk : k < (appendLogEntry l).length) :
    ∃ err, newFileLogStore (journalOf js ++ (appendLogEntry l).take k) = .error err := by
  obtain ⟨err, herr⟩ := (readLogEntry_error_iff _).mpr (not_lengthsFit_take hl hk)
  have hreads := fun l hl => reads_appendLogEntry (h l hl)
  have htake : ((appendLogEntry l).take k).length = k := by
    rw [List.length_take, Nat.min_eq_left (le_of_lt hk)]
  have hne : (appendLogEntry l).take k ≠ [] := by
    intro hnil
    rw [hnil, List.length_nil] at htake
    omega
  have hle : js.length ≤ (journalOf js).length :=
    Journal.length_le_flatMap fun l hl => (hreads l hl).1
  obtain ⟨fuel, hfuel⟩ : ∃ fuel, (journalOf js ++ (appendLogEntry l).take k).length =
      js.length + (fuel + 1) :=
    ⟨(journalOf js).length + k - js.length - 1, by rw [List.length_append, htake]; omega⟩
  refine ⟨err, ?_⟩
  rw [newFileLogStore, hfuel, journalOf, Journal.scan_flatMap_append hreads]
  exact Journal.scan_error hne herr fuel _

/-- A file cut within its last entry recovers the entries in front of it if and only if the cut
leaves nothing of that entry and no entry in front of it has a term. -/
theorem recovers_torn_iff {js : List Log} (h : ∀ l ∈ js, l.Sized) {l : Log} (hl : l.Sized) {k : ℕ}
    (hk : k < (appendLogEntry l).length) :
    Recovers (journalOf js ++ (appendLogEntry l).take k) js ↔
      k = 0 ∧ ∀ i x, held js i = some x → x.term = 0 := by
  rcases Nat.eq_zero_or_pos k with rfl | hpos
  · rw [List.take_zero, List.append_nil, recovers_journalOf_iff h]
    simp
  · constructor
    · rintro ⟨s, hs, -⟩
      obtain ⟨err, herr⟩ := newFileLogStore_torn h hl hpos hk
      rw [herr] at hs
      cases hs
    · rintro ⟨rfl, -⟩
      omega

/-! ### Files of the store -/

/-- The checksum at the end of the bytes is not that of the bytes in front of it. -/
def BadChecksum (e : Bytes) : Prop :=
  beNat (e.drop (e.length - 4)) ≠ (checksumIEEE (e.take (e.length - 4))).toNat

instance (e : Bytes) : Decidable (BadChecksum e) := inferInstanceAs (Decidable (_ ≠ _))

/-- In every file of the store, a cut within the last entry is recovered from if and only if nothing
is left of the entry and no entry in front of it has a term; and changed bytes whose checksum is
wrong are refused where their entry is read if and only if its lengths do not fit the file. -/
theorem torn_log_iff (ops : List LogOp) (h : ∀ op ∈ ops, op.Sized) :
    ∃ s js, runLog ops = some s ∧ s.file = journalOf js ∧
      (∀ pre l, js = pre ++ [l] → ∀ k < (appendLogEntry l).length,
        (Recovers (journalOf pre ++ (appendLogEntry l).take k) pre ↔
          k = 0 ∧ ∀ i x, held pre i = some x → x.term = 0)) ∧
      ∀ pre l post, js = pre ++ l :: post → ∀ e : Bytes, e.length = (appendLogEntry l).length →
        BadChecksum e → ((∃ err, readLogEntry (e ++ journalOf post) = .error err) ↔
          ¬ LengthsFit (e ++ journalOf post)) := by
  obtain ⟨s, hs, hj⟩ := journaled_run h
  obtain ⟨js, hfile, hsized, -⟩ := hj.journal
  refine ⟨s, js, hs, hfile, ?_, ?_⟩
  · rintro pre l rfl k hk
    exact recovers_torn_iff (fun x hx => hsized x (by simp [hx])) (hsized l (by simp)) hk
  · rintro pre l post rfl e - -
    exact readLogEntry_error_iff _

theorem torn_log_iff_two :
    ∃ s js, runLog [.storeLogs [⟨1, 0, 0, ascii "a", []⟩, ⟨2, 0, 0, ascii "b", []⟩]] = some s ∧
      s.file = journalOf js ∧
      (∀ pre l, js = pre ++ [l] → ∀ k < (appendLogEntry l).length,
        (Recovers (journalOf pre ++ (appendLogEntry l).take k) pre ↔
          k = 0 ∧ ∀ i x, held pre i = some x → x.term = 0)) ∧
      ∀ pre l post, js = pre ++ l :: post → ∀ e : Bytes, e.length = (appendLogEntry l).length →
        BadChecksum e → ((∃ err, readLogEntry (e ++ journalOf post) = .error err) ↔
          ¬ LengthsFit (e ++ journalOf post)) :=
  torn_log_iff _ (by decide)

/-- The entry of `a` with its data changed to `b`. -/
def changedEntry : Bytes := (appendLogEntry ⟨1, 0, 0, ascii "a", []⟩).set 16 (98 : UInt8)

theorem runLog_storeOne (l : Log) :
    ∃ s, runLog [.storeLogs [l]] = some s ∧ s.file = appendLogEntry l :=
  ⟨_, rfl, List.nil_append _⟩

/-- One stored entry whose last byte is cut off keeps the store from opening, and with its data
changed it is returned although its checksum is wrong. -/
theorem torn_log_one :
    ∃ s, runLog [.storeLogs [⟨1, 0, 0, ascii "a", []⟩]] = some s ∧
      s.file = appendLogEntry ⟨1, 0, 0, ascii "a", []⟩ ∧
      ¬ Recovers (s.file.take 24) [] ∧
      (∃ err, newFileLogStore (s.file.take 24) = .error err) ∧
      changedEntry.length = s.file.length ∧ BadChecksum changedEntry ∧
      readLogEntry changedEntry = .ok (⟨1, 0, 0, ascii "b", []⟩, []) := by
  have hsized : ∀ l ∈ ([] : List Log), l.Sized := by simp
  have hl : Log.Sized ⟨1, 0, 0, ascii "a", []⟩ := by decide
  have hk : 24 < (appendLogEntry ⟨1, 0, 0, ascii "a", []⟩).length := by decide +kernel
  obtain ⟨s, hs, hfile⟩ := runLog_storeOne ⟨1, 0, 0, ascii "a", []⟩
  refine ⟨s, hs, hfile, ?_⟩
  rw [hfile]
  have htorn := newFileLogStore_torn hsized hl (by norm_num) hk
  have hiff := recovers_torn_iff hsized hl hk
  have hnil : journalOf [] = [] := rfl
  rw [hnil, List.nil_append] at htorn hiff
  refine ⟨?_, htorn, ?_⟩
  · intro h
    obtain ⟨hzero, -⟩ := hiff.mp h
    omega
  · decide +kernel

end Ydbgo.Raft
