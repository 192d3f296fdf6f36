import Ydbgo.Storage.RestoreRight

/-! # Snapshots that are cut

A restore says nothing of a snapshot that ends early. What is left of it is the snapshot of an
engine with fewer tables, the last of them with fewer rows and entries.
-/

namespace Ydbgo.Storage

/-- The entries up to a number of them. -/
def takeMap {ν : Type} (m : SortedMap Bytes ν) (k : ℕ) : SortedMap Bytes ν :=
  ⟨m.entries.take k, m.ascending.sublist (List.take_sublist k m.entries)⟩

theorem get_of_takeMap {ν : Type} {m : SortedMap Bytes ν} {k : ℕ} {key : Bytes} {v : ν}
    (h : (takeMap m k).get key = some v) : m.get key = some v :=
  SortedMap.get_eq_some.mpr (List.mem_of_mem_take (SortedMap.get_eq_some.mp h))

def TableStore.take (s : TableStore) (rows data : ℕ) : TableStore :=
  { s with rows := takeMap s.rows rows, data := takeMap s.data data }

/-- The first tables, and the last of these with its first rows and entries. -/
def Engine.take (e : Engine) (tables : ℕ) (last : EngineKind × Bytes) (rows data : ℕ) : Engine where
  defs := e.defs
  tables := takeMap e.tables tables
  stores := fun kind name =>
    if (kind, name) = last then (e.stores kind name).take rows data else e.stores kind name

/-- The engine `S'` has the first tables, rows and entries of `S`. -/
structure Part (S' S : Engine) : Prop where
  tables : S'.tables.entries <+: S.tables.entries
  rows : ∀ kind name, (S'.stores kind name).rows.entries <+: (S.stores kind name).rows.entries
  data : ∀ kind name, (S'.stores kind name).data.entries <+: (S.stores kind name).data.entries

theorem Part.refl (S : Engine) : Part S S :=
  ⟨List.prefix_rfl, fun _ _ => List.prefix_rfl, fun _ _ => List.prefix_rfl⟩

theorem part_take (S : Engine) (tables : ℕ) (last : EngineKind × Bytes) (rows data : ℕ) :
    Part (S.take tables last rows data) S := by
  refine ⟨List.take_prefix _ _, fun kind name => ?_, fun kind name => ?_⟩
  · dsimp only [Engine.take]
    split
    · exact List.take_prefix _ _
    · exact List.prefix_rfl
  · dsimp only [Engine.take]
    split
    · exact List.take_prefix _ _
    · exact List.prefix_rfl

section

variable {S S' : Engine}

theorem Part.get_rows (h : Part S' S) {kind : EngineKind} {name key : Bytes} {cells : List Cell}
    (hget : (S'.stores kind name).rows.get key = some cells) :
    (S.stores kind name).rows.get key = some cells :=
  SortedMap.get_eq_some.mpr ((h.rows kind name).subset (SortedMap.get_eq_some.mp hget))

theorem Part.storable (h : Part S' S) (hS : S.Storable) : S'.Storable := by
  have htable {name : Bytes} {t : Table} (hget : S'.tables.get name = some t) :
      S.tables.get name = some t :=
    SortedMap.get_eq_some.mpr (h.tables.subset (SortedMap.get_eq_some.mp hget))
  constructor
  · exact fun name t hget => hS.numbered name t (htable hget)
  · exact fun name t hget key cells hrow =>
      hS.holds name t (htable hget) key cells (h.get_rows hrow)

/-! ### Prefixes of the records -/

theorem take_flatMap {α β : Type} (f : α → List β) (as : List α) (j : ℕ) : ∃ k,
    (as.flatMap f).take j = (as.take k).flatMap f ∨
      ∃ a i, as[k]? = some a ∧
        (as.flatMap f).take j = (as.take k).flatMap f ++ (f a).take (i + 1) := by
  induction as generalizing j with
  | nil => exact ⟨0, Or.inl List.take_nil⟩
  | cons a as ih =>
    rw [List.flatMap_cons, List.take_append]
    by_cases hj : (f a).length ≤ j
    · obtain ⟨k, hk⟩ := ih (j - (f a).length)
      refine ⟨k + 1, ?_⟩
      rw [List.take_of_length_le hj, List.take_succ_cons, List.flatMap_cons]
      rcases hk with hk | ⟨b, i, hb, hk⟩
      · exact Or.inl (by rw [hk])
      · exact Or.inr ⟨b, i, hb, by rw [hk, List.append_assoc]⟩
    · have hzero : j - (f a).length = 0 := by omega
      refine ⟨0, ?_⟩
      rw [hzero, List.take_zero, List.append_nil, List.take_zero, List.flatMap_nil]
      cases j with
      | zero => exact Or.inl List.take_zero
      | succ i => exact Or.inr ⟨a, i, rfl, rfl⟩

/-- The first records of a table are those of a table with fewer rows and entries. -/
theorem take_records (t : Table) (name : Bytes) (s : TableStore) (i : ℕ) :
    (t.records name s).take (i + 1) =
      t.records name (s.take i (i - s.rows.entries.length)) := by
  rw [Table.records, List.take_succ_cons, List.take_append, List.length_map, ← List.map_take]
  have hdata : (if t.engine = .kv then s.data.entries.map fun e => encodeKVData name e.1 e.2
      else []).take (i - s.rows.entries.length) =
        if t.engine = .kv then
          (s.data.entries.take (i - s.rows.entries.length)).map fun e => encodeKVData name e.1 e.2
        else [] := by
    split
    · exact List.map_take.symm
    · exact List.take_nil
  rw [hdata]
  rfl

/-- The first records of an engine are those of a part of it. -/
theorem take_marshalRecords (hS : S.Storable) {rs : List Bytes} (hrs : marshalRecords S = some rs)
    (j : ℕ) : ∃ S', Part S' S ∧ marshalRecords S' = some (rs.take j) := by
  rw [marshalRecords_eq hS] at hrs
  cases hrs
  obtain ⟨k, hk | ⟨e, i, he, hk⟩⟩ := take_flatMap
    (fun e : Bytes × Table => e.2.records e.1 (S.stores e.2.engine e.1)) S.tables.entries j
  · have hpart : Part { S with tables := takeMap S.tables k } S :=
      ⟨List.take_prefix _ _, fun _ _ => List.prefix_rfl, fun _ _ => List.prefix_rfl⟩
    refine ⟨_, hpart, ?_⟩
    rw [marshalRecords_eq (hpart.storable hS), hk]
    rfl
  · have hpart := part_take S (k + 1) (e.2.engine, e.1) i
      (i - (S.stores e.2.engine e.1).rows.entries.length)
    have htake : S.tables.entries.take (k + 1) = S.tables.entries.take k ++ [e] := by
      rw [List.take_add_one, he]
      rfl
    have hbefore : ∀ a ∈ S.tables.entries.take k, a.1 ≠ e.1 := by
      have hascending := S.tables.ascending.sublist (List.take_sublist (k + 1) S.tables.entries)
      rw [htake] at hascending
      intro a ha
      exact ((List.pairwise_append.mp hascending).2.2 a ha e (List.mem_singleton_self e)).ne
    refine ⟨_, hpart, ?_⟩
    rw [marshalRecords_eq (hpart.storable hS), hk, take_records]
    change some ((S.tables.entries.take (k + 1)).flatMap _) = _
    rw [htake, List.flatMap_append, List.flatMap_singleton]
    apply congrArg some
    congr 1
    · apply List.flatMap_congr
      intro a ha
      have hne : (a.2.engine, a.1) ≠ (e.2.engine, e.1) := fun h =>
        hbefore a ha (congrArg Prod.snd h)
      rw [Engine.take]
      simp only [hne, if_false]
    · rw [Engine.take]
      simp only [if_true]

/-! ### The cut -/

theorem applyFramed_congr {n m : ℕ} {data data' : Bytes}
    (h : Frames.payloads Raft.checksumIEEE n data = Frames.payloads Raft.checksumIEEE m data') :
    applyFramed n data = applyFramed m data' := by
  refine @funext _ _ (applyFramed n data) (applyFramed m data') fun b => ?_
  have hexec := exec_applyFramed n data b
  rw [h] at hexec
  exact hexec.trans (exec_applyFramed m data' b).symm

end

end Ydbgo.Storage
