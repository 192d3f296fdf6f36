import Ydbgo.Kv.History
import Ydbgo.Lib.Split
import Ydbgo.Storage.KvStore
import Ydbgo.Storage.PkOrder
import Ydbgo.Storage.ReadYourWrites

/-! # The areas of the key space

What a transaction on the store holds, call by call, and which keys the area of
a table has. Keys without a NUL and keys of rows made of strings without a NUL
are separated, so that reads of an area find exactly what is in it.
-/

namespace Ydbgo

/-! ### Reading under a prefix -/

/-- A scan of the keys under a prefix, the prefix cut off. -/
theorem Scans.under {m : Bytes → Option Bytes} {P : Bytes → Prop} (p : Bytes)
    {out : List (Bytes × Bytes)} (h : Scans m P out) (hp : ∀ k, P k → p <+: k) :
    Scans (fun k => m (p ++ k)) (fun k => P (p ++ k))
      (out.map fun e => (e.1.drop p.length, e.2)) := by
  have hkey : ∀ e ∈ out, p ++ e.1.drop p.length = e.1 := by
    intro e he
    obtain ⟨k, hk⟩ := hp e.1 ((h.2 e.1 e.2).mp he).1
    rw [← hk, List.drop_left]
  constructor
  · refine List.pairwise_map.mpr (h.1.imp_of_mem fun {a b} ha hb hlt => ?_)
    rw [← hkey a ha, ← hkey b hb] at hlt
    exact append_lt_append_left.mp hlt
  · intro k v
    rw [← h.2, List.mem_map]
    constructor
    · rintro ⟨e, he, heq⟩
      obtain ⟨rfl, rfl⟩ := Prod.mk.inj heq
      rwa [hkey e he]
    · intro he
      exact ⟨_, he, by rw [List.drop_left]⟩

namespace Writes

variable {κ ν : Type} [DecidableEq κ]

/-- A map after writes, from the writes alone where there are some. -/
theorem apply_eq_getD (m : κ → ν) (ws : List (κ × ν)) (k : κ) :
    apply m ws k = (apply (fun _ => none) (ws.map fun w => (w.1, some w.2)) k).getD (m k) := by
  have h : ∀ (m' : κ → ν) (M : κ → Option ν), (∀ k, m' k = (M k).getD (m k)) →
      apply m' ws k = (apply M (ws.map fun w => (w.1, some w.2)) k).getD (m k) := by
    induction ws with
    | nil => exact fun _ _ h => h k
    | cons w ws ih =>
      intro m' M h
      refine ih _ _ fun k' => ?_
      by_cases hk : k' = w.1
      · subst hk
        simp
      · simp [Function.update_of_ne hk, h]
  exact h m _ fun _ => rfl

end Writes

namespace Storage

open Kv (Op)

/-! ### What a transaction holds -/

/-- The map that a transaction reads through to. -/
def Tx.content (t : Tx) : Bytes → Option Bytes := view t.store t.ops

/-- The keys with a version in the store or a buffered write. -/
def Tx.written (t : Tx) : List Bytes := t.store.keys ++ t.ops.map Op.key

def Pending.get (p : Pending) : Option Bytes := if p.del then none else some p.value

/-- The overlay has the last write of each key. -/
structure Tx.Coherent (t : Tx) : Prop where
  snap : t.snap = none
  overlay : ∀ k, (t.overlay.lookup k).map Pending.get =
    Writes.apply (fun _ => none) ((t.ops.map Op.write).map fun w => (w.1, some w.2)) k

section Tx

variable {t : Tx}

theorem coherent_begin (s : Kv.Store) : (Tx.begin s).Coherent :=
  ⟨rfl, fun k => by rw [Tx.begin, AList.lookup_empty]; rfl⟩

@[simp] theorem content_begin (s : Kv.Store) : (Tx.begin s).content = s.content := rfl

@[simp] theorem written_begin (s : Kv.Store) : (Tx.begin s).written = s.keys :=
  List.append_nil _

@[simp] theorem content_put (t : Tx) (k v : Bytes) :
    (t.put k v).content = Function.update t.content k (some v) := by
  simp only [Tx.content, view, Tx.put, List.map_append, Writes.apply_append]
  rfl

@[simp] theorem content_del (t : Tx) (k : Bytes) :
    (t.del k).content = Function.update t.content k none := by
  simp only [Tx.content, view, Tx.del, List.map_append, Writes.apply_append]
  rfl

theorem mem_written_put {k v k' : Bytes} : k' ∈ (t.put k v).written ↔ k' ∈ t.written ∨ k' = k := by
  simp [Tx.written, Tx.put, Op.put, or_assoc]

theorem mem_written_del {k k' : Bytes} : k' ∈ (t.del k).written ↔ k' ∈ t.written ∨ k' = k := by
  simp [Tx.written, Tx.del, Op.del, or_assoc]

theorem Tx.Coherent.insert (h : t.Coherent) (op : Op) {p : Pending} (hp : p.get = op.write.2)
    {t' : Tx} (hsnap : t'.snap = t.snap) (hover : t'.overlay = t.overlay.insert op.write.1 p)
    (hops : t'.ops = t.ops ++ [op]) : t'.Coherent := by
  constructor
  · rw [hsnap, h.snap]
  · intro k
    rw [hover, hops, List.map_append, List.map_append, Writes.apply_append]
    by_cases hk : k = op.write.1
    · subst hk
      simp [AList.lookup_insert, hp]
    · simp [AList.lookup_insert_ne hk, h.overlay, Function.update_of_ne hk]

theorem Tx.Coherent.put (h : t.Coherent) (k v : Bytes) : (t.put k v).Coherent :=
  h.insert (.put k v) (p := ⟨v, false⟩) rfl rfl rfl rfl

theorem Tx.Coherent.del (h : t.Coherent) (k : Bytes) : (t.del k).Coherent :=
  h.insert (.del k) (p := ⟨[], true⟩) rfl rfl rfl rfl

/-- A point read in the transaction. -/
theorem get_eq_content (h : t.Coherent) (hs : Kv.Separated t.store.keys []) (k : Bytes) :
    KvTx.get t k = t.content k := by
  have hget : t.store.get 0 k = t.store.content k := by
    rw [Kv.get_eq hs, Kv.Store.effective, if_pos rfl, Kv.newestAt_last]
    rfl
  have hcontent := Writes.apply_eq_getD t.store.content (t.ops.map Op.write) k
  rw [← h.overlay] at hcontent
  rw [KvTx.get, Tx.content, view, hcontent, h.snap]
  cases t.overlay.lookup k with
  | none => exact hget
  | some p => rfl

/-! ### Walks over a range -/

theorem mem_ordered_foldl {lower upper : Bytes} {ops : List Op} {g : Merge} {k : Bytes}
    (h : k ∈ (ops.foldl (Merge.buffered lower upper) g).ordered) :
    k ∈ g.ordered ∨ (lower ≤ k ∧ k < upper) ∧ k ∈ ops.map Op.key := by
  induction ops generalizing g with
  | nil => exact Or.inl h
  | cons op ops ih =>
    rcases ih h with h | ⟨hb, hm⟩
    · rw [Merge.buffered] at h
      split at h
      · exact Or.inl h
      · rename_i hb
        split at h
        · exact Or.inl h
        · have hk : k ∈ g.ordered ∨ k = op.key := by
            split at h
            · exact Or.inl h
            · simpa using h
          rcases hk with hk | rfl
          · exact Or.inl hk
          · exact Or.inr ⟨(not_outside_iff op.key).mp hb, List.mem_cons_self⟩
    · exact Or.inr ⟨hb, List.mem_cons_of_mem _ hm⟩

/-- A walk meets the live keys of its range, and no key that is not written in it. -/
theorem keys_each (hc : t.Coherent) {lower upper : Bytes} {bounds : List Bytes}
    (hs : Kv.Separated t.store.keys bounds) (hl : lower ∈ bounds) (hu : upper ∈ bounds)
    (k : Bytes) :
    (k ∈ (KvTx.each t lower upper).map Prod.fst → (lower ≤ k ∧ k < upper) ∧ k ∈ t.written) ∧
      (lower ≤ k ∧ k < upper → (t.content k).isSome →
        k ∈ (KvTx.each t lower upper).map Prod.fst) := by
  have hrange := Kv.scans_range hs hl hu
  obtain ⟨htrack, -⟩ := clean_foldl_iff t.ops (tracks_visits hrange).1
  have heach : (KvTx.each t lower upper).map Prod.fst =
      sortStrings (merge (t.store.range (some lower) (some upper)) lower upper t.ops).ordered := by
    rw [KvTx.each, hc.snap]
    exact map_fst_emit _ _
  rw [heach, (perm_sortStrings _).mem_iff]
  constructor
  · intro hk
    rcases mem_ordered_foldl hk with hk | ⟨hb, hm⟩
    · rw [foldl_visit, List.nil_append] at hk
      obtain ⟨e, he, rfl⟩ := List.mem_map.mp hk
      obtain ⟨hb, hv⟩ := (hrange.2 e.1 e.2).mp he
      obtain ⟨x, hx, -⟩ := Option.bind_eq_some_iff.mp hv
      obtain ⟨d, hd, -⟩ := Option.map_eq_some_iff.mp hx
      have hkey := List.mem_map_of_mem (f := fun e : Bytes × Bytes => Kv.extractKey e.1)
        (List.mem_of_find?_eq_some hd)
      have hfound := List.find?_some hd
      rw [of_decide_eq_true hfound] at hkey
      exact ⟨hb, List.mem_append_left _ hkey⟩
    · exact ⟨hb, List.mem_append_right _ hm⟩
  · intro hb hlive
    refine htrack.listed k ?_
    rw [htrack.lookup, inBounds, if_pos hb]
    exact hlive

/-- A walk over a committed range. -/
theorem scans_each_begin {s : Kv.Store} {lower upper : Bytes} {bounds : List Bytes}
    (hs : Kv.Separated s.keys bounds) (hl : lower ∈ bounds) (hu : upper ∈ bounds) :
    Scans s.content (fun k => lower ≤ k ∧ k < upper) (KvTx.each (Tx.begin s) lower upper) := by
  have hiff : Scans (view s []) (fun k => lower ≤ k ∧ k < upper)
      (KvTx.each (Tx.after s []) lower upper) ↔ ¬ DeletesLive lower upper s.content [] :=
    scans_kvEach_iff hs hl hu
  exact hiff.mpr id

/-- The transaction without the keys of a set. -/
structure Cleared (P : Bytes → Prop) (t t' : Tx) : Prop where
  coherent : t'.Coherent
  store : t'.store = t.store
  inside : ∀ k, P k → t'.content k = none
  outside : ∀ k, ¬ P k → t'.content k = t.content k
  written : t'.written ⊆ t.written

theorem foldl_del (hc : t.Coherent) (ks : List Bytes) :
    (ks.foldl Tx.del t).Coherent ∧ (ks.foldl Tx.del t).store = t.store ∧
      (∀ k, (ks.foldl Tx.del t).content k = if k ∈ ks then none else t.content k) ∧
      ∀ k, k ∈ (ks.foldl Tx.del t).written → k ∈ t.written ∨ k ∈ ks := by
  induction ks generalizing t with
  | nil => exact ⟨hc, rfl, by simp, fun k h => Or.inl h⟩
  | cons k₀ ks ih =>
    obtain ⟨hcoh, hstore, hcontent, hwritten⟩ := ih (hc.del k₀)
    refine ⟨hcoh, hstore, fun k => ?_, fun k hk => ?_⟩
    · rw [List.foldl_cons, hcontent, content_del]
      by_cases hk : k = k₀
      · subst hk
        simp
      · simp [hk]
    · rcases hwritten k hk with h | h
      · rcases mem_written_del.mp h with h | rfl
        · exact Or.inl h
        · exact Or.inr List.mem_cons_self
      · exact Or.inr (List.mem_cons_of_mem _ h)

theorem cleared_deleteRange (hc : t.Coherent) (bs : Bytes × Bytes)
    (hs : Kv.Separated t.store.keys [bs.1, bs.2]) :
    Cleared (fun k => bs.1 ≤ k ∧ k < bs.2) t (KvTx.deleteRange t bs) := by
  obtain ⟨hcoh, hstore, hcontent, hwritten⟩ :=
    foldl_del hc ((KvTx.each t bs.1 bs.2).map Prod.fst)
  have hkeys := keys_each hc hs List.mem_cons_self (List.mem_cons_of_mem _ List.mem_cons_self)
  refine ⟨hcoh, hstore, fun k hk => ?_, fun k hk => ?_, fun k hk => ?_⟩
  · rw [KvTx.deleteRange, hcontent]
    split
    · rfl
    · rename_i hno
      cases hv : t.content k with
      | none => rfl
      | some v => exact absurd ((hkeys k).2 hk (by rw [hv]; rfl)) hno
  · rw [KvTx.deleteRange, hcontent, if_neg fun hm => hk ((hkeys k).1 hm).1]
  · exact (hwritten k hk).elim id fun hm => ((hkeys k).1 hm).2

/-- What a commit leaves, as long as there is a next revision. -/
theorem exists_commit (t : Tx) (h : t.store.last + 1 ≠ 0) :
    ∃ s, t.commit = .ok s ∧ s.content = t.content ∧ s.keys ⊆ t.written := by
  have hlt : t.store.last < t.store.last + 1 := by
    have hne : t.store.last.toNat + 1 ≠ 2 ^ 64 := fun he => h (by
      apply UInt64.toNat_inj.mp
      rw [UInt64.toNat_add]
      change (t.store.last.toNat + 1) % 2 ^ 64 = 0
      omega)
    have hbound := t.store.last.toNat_lt
    rw [UInt64.lt_iff_toNat_lt, UInt64.toNat_add]
    change t.store.last.toNat < (t.store.last.toNat + 1) % 2 ^ 64
    omega
  have hex : ∃ s, t.commit = .ok s := by
    rw [Tx.commit, Kv.Store.apply]
    split
    · exact ⟨_, rfl⟩
    · rw [if_pos rfl, Kv.Store.applyAt, dif_pos hlt]
      exact ⟨_, rfl⟩
  obtain ⟨s, hs⟩ := hex
  exact ⟨s, hs, funext (Kv.content_apply hs), fun k hk => Kv.keys_apply hs hk⟩

end Tx

/-! ### The keys of an area -/

section Areas

variable {tag tag' : UInt8} {table table' k x y : Bytes}

theorem areaPrefix_prefix_iff (h : 0 ∉ table) (h' : 0 ∉ table') :
    areaPrefix tag table <+: areaPrefix tag' table' ++ y ↔ tag = tag' ∧ table = table' := by
  constructor
  · rintro ⟨z, hz⟩
    simp only [areaPrefix, List.cons_append, List.append_assoc, List.cons.injEq, true_and,
      List.nil_append] at hz
    exact ⟨hz.1, (append_cons_inj h h' hz.2).1⟩
  · rintro ⟨rfl, rfl⟩
    exact List.prefix_append _ _

theorem areaKey_inj (h : 0 ∉ table) (h' : 0 ∉ table')
    (heq : areaPrefix tag table ++ x = areaPrefix tag' table' ++ y) :
    tag = tag' ∧ table = table' ∧ x = y := by
  obtain ⟨rfl, rfl⟩ := (areaPrefix_prefix_iff h h').mp ⟨x, heq⟩
  exact ⟨rfl, rfl, List.append_cancel_left heq⟩

theorem bumpLast_append (q : Bytes) (b : UInt8) : CstoreTx.bumpLast (q ++ [b]) = q ++ [b + 1] := by
  induction q with
  | nil => rfl
  | cons c q ih =>
    cases q with
    | nil => rfl
    | cons d q => exact congrArg (c :: ·) ih

theorem bumpLast_areaPrefix (tag : UInt8) (table : Bytes) :
    CstoreTx.bumpLast (areaPrefix tag table) = tag :: 0 :: (table ++ [1]) :=
  bumpLast_append (tag :: 0 :: table) 0

/-- The area of a table as a range. -/
theorem inArea_iff : areaPrefix tag table ≤ k ∧ k < CstoreTx.bumpLast (areaPrefix tag table) ↔
    areaPrefix tag table <+: k := by
  rw [bumpLast_areaPrefix]
  exact between_prefix_iff (q := tag :: 0 :: table) le_ff (succ_lt_iff (x := 0) (by decide)) 0

theorem rowBounds_iff (pk : Bytes) : (kvRowBounds table).1 ≤ kvRowKey table pk ∧
    kvRowKey table pk < (kvRowBounds table).2 :=
  inArea_iff.mpr (List.prefix_append _ _)

theorem prefix_of_rowBounds (h : (kvRowBounds table).1 ≤ k ∧ k < (kvRowBounds table).2) :
    kvRowPrefix table <+: k := inArea_iff.mp h

theorem append_lt_bumpLast (tag : UInt8) (table x : Bytes) :
    areaPrefix tag table ++ x < CstoreTx.bumpLast (areaPrefix tag table) :=
  (inArea_iff.mpr (List.prefix_append _ _)).2

theorem le_append (p x : Bytes) : p ≤ p ++ x := by
  have h := append_le_append_left (a := p) (s := []) (t := x)
  rw [List.append_nil] at h
  exact h.mpr (not_lt.mp (List.not_lt_nil x))

/-- The raw entries of a table in a window. -/
theorem dataBounds_iff (table start stop key : Bytes) :
    (kvDataBounds table start stop).1 ≤ kvDataKey table key ∧
      kvDataKey table key < (kvDataBounds table start stop).2 ↔
      start ≤ key ∧ (stop = [] ∨ key < stop) := by
  have hlow : (kvDataBounds table start stop).1 ≤ kvDataKey table key ↔ start ≤ key := by
    by_cases h : start = []
    · subst h
      exact iff_of_true (le_append _ _) (le_append [] key)
    · rw [kvDataBounds, if_pos h]
      exact append_le_append_left
  have hhigh : kvDataKey table key < (kvDataBounds table start stop).2 ↔
      stop = [] ∨ key < stop := by
    by_cases h : stop = []
    · subst h
      exact iff_of_true (append_lt_bumpLast _ _ _) (Or.inl rfl)
    · rw [kvDataBounds, if_pos h, or_iff_right h]
      exact append_lt_append_left
  rw [hlow, hhigh]

theorem prefix_of_dataBounds {start stop : Bytes}
    (h : (kvDataBounds table start stop).1 ≤ k ∧ k < (kvDataBounds table start stop).2) :
    kvDataPrefix table <+: k := by
  refine inArea_iff.mp ⟨?_, ?_⟩
  · refine le_trans (α := Bytes) ?_ h.1
    by_cases hs : start = [] <;> simp only [kvDataBounds, hs, ne_eq, not_true_eq_false, if_false,
      not_false_eq_true, if_true]
    · exact le_refl (α := Bytes) _
    · exact le_append _ _
  · refine lt_of_lt_of_le (α := Bytes) h.2 ?_
    by_cases hs : stop = [] <;> simp only [kvDataBounds, hs, ne_eq, not_true_eq_false, if_false,
      not_false_eq_true, if_true]
    · exact le_refl (α := Bytes) _
    · exact le_of_lt (α := Bytes) (append_lt_bumpLast _ _ _)

/-! ### Separation -/

/-- A string without a NUL. -/
def KeyString (v : SqlValue) : Prop := v.typ = .string ∧ 0 ∉ v.s

/-- The keys that calls with plain keys write. -/
inductive PlainKey : Bytes → Prop
  | data {table key : Bytes} : 0 ∉ table → 0 ∉ key → PlainKey (kvDataKey table key)
  | row {table : Bytes} {vals : List SqlValue} : 0 ∉ table → (∀ v ∈ vals, KeyString v) →
    PlainKey (kvRowKey table (encodeKey vals))

theorem encodeKeyValue_keyString {v : SqlValue} (h : KeyString v) :
    encodeKeyValue v = [2, 0xff] ++ (v.s ++ 0 :: [0xff]) := by
  simp only [encodeKeyValue, keyPayload, h.1, ColType.toByte, List.append_assoc,
    List.cons_append, List.nil_append]

/-- No key of strings is another one cut off before a NUL. -/
theorem not_prefix_encodeKey {vals vals' : List SqlValue} (h : ∀ v ∈ vals, KeyString v)
    (h' : ∀ v ∈ vals', KeyString v) : ¬ encodeKey vals ++ [0] <+: encodeKey vals' := by
  induction vals generalizing vals' with
  | nil =>
    cases vals' with
    | nil => simp [encodeKey]
    | cons w vals' =>
      have hw := encodeKeyValue_keyString (h' w List.mem_cons_self)
      simp [encodeKey, hw]
  | cons v vals ih =>
    have hv := encodeKeyValue_keyString (h v List.mem_cons_self)
    cases vals' with
    | nil => simp [encodeKey, hv]
    | cons w vals' =>
      have hw := encodeKeyValue_keyString (h' w List.mem_cons_self)
      intro hp
      have hap : Apart (encodeKeyValue v) (encodeKeyValue w) := by
        rw [hv, hw]
        exact (apart_terminated (h v List.mem_cons_self).2 (h' w List.mem_cons_self).2
          [0xff]).append_left _
      simp only [encodeKey, List.flatMap_cons, List.append_assoc] at hp
      have heq : encodeKeyValue v = encodeKeyValue w := by
        have hv' : encodeKeyValue v <+: encodeKeyValue w ++ vals'.flatMap encodeKeyValue :=
          (List.prefix_append _ _).trans hp
        rcases List.prefix_or_prefix_of_prefix hv' (List.prefix_append _ _) with h | h
        · exact hap.1 h
        · exact hap.2 h
      rw [heq, List.prefix_append_right_inj] at hp
      exact ih (fun u hu => h u (List.mem_cons_of_mem v hu))
        (fun u hu => h' u (List.mem_cons_of_mem w hu)) hp

/-- Keys of strings are in the order of the strings. -/
theorem encodeKey_lt_iff {vals vals' : List SqlValue} (h : ∀ v ∈ vals, KeyString v)
    (h' : ∀ v ∈ vals', KeyString v) :
    encodeKey vals < encodeKey vals' ↔ vals.map SqlValue.s < vals'.map SqlValue.s := by
  induction vals generalizing vals' with
  | nil =>
    cases vals' with
    | nil => simp [encodeKey]
    | cons w vals' => simp [encodeKey, encodeKeyValue]
  | cons v vals ih =>
    cases vals' with
    | nil => simp [encodeKey]
    | cons w vals' =>
      have hv := h v List.mem_cons_self
      have hw := h' w List.mem_cons_self
      have hap := apart_terminated hv.2 hw.2 [(0xff : UInt8)]
      have hlt := terminated_lt_iff zero_le hv.2 hw.2 [0xff]
      have heq : v.s ++ 0 :: [0xff] = w.s ++ 0 :: [0xff] ↔ v.s = w.s := List.append_left_inj _
      have htail := ih (fun u hu => h u (List.mem_cons_of_mem v hu))
        fun u hu => h' u (List.mem_cons_of_mem w hu)
      simp only [encodeKey] at htail
      simp only [encodeKey, List.flatMap_cons, encodeKeyValue_keyString hv,
        encodeKeyValue_keyString hw, List.append_assoc, append_lt_append_left, List.map_cons,
        List.cons_lt_cons_iff]
      rw [← List.append_assoc v.s, ← List.append_assoc w.s, hap.append_lt_iff, hlt, heq, htail]

theorem not_prefix_of_areas (h : 0 ∉ table) (h' : 0 ∉ table')
    (hxy : tag = tag' → table = table' → ¬ x ++ [0] <+: y) :
    ¬ areaPrefix tag table ++ x ++ [0] <+: areaPrefix tag' table' ++ y := by
  intro hp
  rw [List.append_assoc] at hp
  obtain ⟨rfl, rfl⟩ := (areaPrefix_prefix_iff h h').mp ((List.prefix_append _ _).trans hp)
  exact hxy rfl rfl ((List.prefix_append_right_inj _).mp hp)

/-- A plain key lies in an area of a table. -/
theorem PlainKey.exists_area (hk : PlainKey k) :
    ∃ tag table x, 0 ∉ table ∧ k = areaPrefix tag table ++ x := by
  cases hk with
  | data h _ => exact ⟨_, _, _, h, rfl⟩
  | row h _ => exact ⟨_, _, _, h, rfl⟩

theorem PlainKey.separate {a b : Bytes} (ha : PlainKey a) (hb : PlainKey b) :
    ¬ a ++ [0] <+: b := by
  cases ha with
  | data ht hkey =>
    cases hb with
    | data ht' hkey' =>
      refine not_prefix_of_areas ht ht' fun _ _ hp => hkey' (hp.subset ?_)
      exact List.mem_append_right _ List.mem_cons_self
    | row ht' _ => exact not_prefix_of_areas ht ht' fun h => absurd h (by decide)
  | row ht hvals =>
    cases hb with
    | data ht' _ => exact not_prefix_of_areas ht ht' fun h => absurd h (by decide)
    | row ht' hvals' =>
      exact not_prefix_of_areas ht ht' fun _ _ => not_prefix_encodeKey hvals hvals'

/-- No plain key followed by a NUL begins the bounds of an area. -/
theorem PlainKey.not_prefix_bounds (hk : PlainKey k) (tag : UInt8) (h : 0 ∉ table) :
    ¬ k ++ [0] <+: areaPrefix tag table ∧
      ¬ k ++ [0] <+: CstoreTx.bumpLast (areaPrefix tag table) := by
  obtain ⟨tag', table', x, ht, rfl⟩ := hk.exists_area
  constructor
  · have hno : ¬ areaPrefix tag' table' ++ x ++ [0] <+: areaPrefix tag table ++ [] :=
      not_prefix_of_areas ht h fun _ _ hp => by simpa using hp.length_le
    rwa [List.append_nil] at hno
  · rw [bumpLast_areaPrefix]
    intro hp
    rw [List.append_assoc] at hp
    have hpre : areaPrefix tag' table' <+: tag :: 0 :: (table ++ [1]) :=
      List.IsPrefix.trans (List.prefix_append _ _) hp
    simp only [areaPrefix, List.cons_prefix_cons, true_and] at hpre
    have hmem : (0 : UInt8) ∈ table ++ [1] := hpre.2.subset (by simp)
    simp [h] at hmem

theorem separated_plain {keys : List Bytes} (h : ∀ k ∈ keys, PlainKey k) {bounds : List Bytes}
    (hb : ∀ a ∈ keys, ∀ b ∈ bounds, ¬ a ++ [0] <+: b) : Kv.Separated keys bounds := by
  intro a ha b hmem
  rcases List.mem_append.mp hmem with hm | hm
  · exact (h a ha).separate (h b hm)
  · exact hb a ha b hm

theorem separated_area {keys : List Bytes} (h : ∀ k ∈ keys, PlainKey k) (tag : UInt8)
    (ht : 0 ∉ table) :
    Kv.Separated keys [areaPrefix tag table, CstoreTx.bumpLast (areaPrefix tag table)] := by
  refine separated_plain h fun a ha b hb => ?_
  obtain ⟨hlow, hhigh⟩ := (h a ha).not_prefix_bounds tag ht
  simp only [List.mem_cons, List.not_mem_nil, or_false] at hb
  rcases hb with rfl | rfl
  · exact hlow
  · exact hhigh

end Areas

end Storage

end Ydbgo
