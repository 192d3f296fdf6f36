import Ydbgo.Sql.PlannerRight
import Ydbgo.Sql.Reference

/-! # The rows a DELETE removes

Each path of `execDelete` removes the rows that it hits and no others. Where the
planned range is right about the rows, these are the rows that the WHERE selects.
-/

namespace Ydbgo.Sql

open Storage (Batch Table TableTx ColInfo Cell EngineKind GoodTable GoodRow GoodRows cellValues Does
  InRange pkRangeBytes)

/-! ### Ranges as the engine reads them -/

section Bounds

variable {lib : Stdlib} {schema : TableSchema}

theorem encodeKey_ne_nil {vs : List Storage.SqlValue} (h : vs ≠ []) : Storage.encodeKey vs ≠ [] := by
  cases vs with
  | nil => exact absurd rfl h
  | cons v vs =>
    rw [Storage.encodeKey, List.flatMap_cons, Storage.encodeKeyValue]
    exact List.cons_ne_nil _ _

theorem buildRange_upper {cons : ℕ → Option Constraint} {n i : ℕ} {pre : List Value}
    {exact_ : Bool} {r : PKRange} {up : PKBound}
    (h : (buildRange cons n i pre exact_).1 = some r) (hup : r.upper = some up) : up.pre ≠ [] := by
  induction n generalizing i pre exact_ with
  | zero => cases h
  | succ n ih =>
    rw [buildRange] at h
    dsimp only at h
    split at h
    · split at h
      · cases h
      · rename_i hpre
        obtain rfl := Option.some.inj h
        obtain rfl := Option.some.inj hup
        simpa using hpre
    · split at h
      · split at h
        · obtain rfl := Option.some.inj h
          obtain rfl := Option.some.inj hup
          simp
        · exact ih h
      · obtain rfl := Option.some.inj h
        obtain ⟨v, -, rfl⟩ := Option.map_eq_some_iff.mp hup
        simp

/-- No planned range has the empty upper bound. -/
theorem pkRangeFromWhere_upper {where_ : Expr} {hi : Bytes}
    (h : (pkRangeBytes (pkRangeFromWhere lib schema where_).1).2 = some hi) : hi ≠ [] := by
  unfold pkRangeFromWhere at h
  split at h
  · cases h
  · dsimp only at h
    cases hr : (buildRange (visit lib schema where_ { cons := fun _ => none, exact := true }).cons
        schema.pk.length 0 [] (visit lib schema where_ { cons := fun _ => none, exact := true }).exact).1
      with
    | none =>
      rw [hr] at h
      cases h
    | some r =>
      rw [hr] at h
      obtain ⟨up, hup, rfl⟩ := Option.map_eq_some_iff.mp h
      have hne := buildRange_upper hr hup
      have henc : Storage.encodePK up.pre ≠ [] :=
        encodeKey_ne_nil (by rwa [ne_eq, List.map_eq_nil_iff])
      unfold Storage.pkBoundBytes
      split
      · simp
      · exact henc

/-- The window of a planned range is the range. -/
theorem inBounds_iff (kind : EngineKind) {where_ : Expr} {key : Bytes} :
    TableTx.inBounds kind (pkRangeBytes (pkRangeFromWhere lib schema where_).1).1
        (pkRangeBytes (pkRangeFromWhere lib schema where_).1).2 key = true ↔
      InRange (pkRangeFromWhere lib schema where_).1 key := by
  unfold InRange TableTx.inBounds
  rw [Bool.and_eq_true]
  refine and_congr ?_ ?_
  · rw [Option.all_eq_true]
    simp only [decide_eq_true_eq]
  · rw [Option.all_eq_true]
    refine forall_congr' fun up => forall_congr' fun hup => ?_
    have hne := pkRangeFromWhere_upper hup
    simp [hne]

end Bounds

/-! ### What the paths remove -/

section Delete

variable {lib : Stdlib} {b : Batch} {name : Bytes} {t : Table} {tx tx' : TableTx}

theorem does_liftEval {α : Type} {x : Eval α} {a : α} (h : Gives x a) :
    Does b name t (liftEval x) tx a tx := by
  intro ixs
  unfold Gives at h
  rw [liftEval, h]
  exact ⟨ixs, rfl, .rfl⟩

/-- The rows hit are gone, the others are as they were, and `n` is their number. -/
structure Deleted (lib : Stdlib) (t : Table) (hit : Bytes → List Value → Bool) (tx tx' : TableTx)
    (n : ℕ) : Prop where
  good : GoodRows t tx'
  rows : ∀ key, (tx'.rows lib).get key =
    ((tx.rows lib).get key).filter fun row => !hit key row
  count : n = ((tx.rows lib).filter hit).entries.length
  data : tx'.data = tx.data

theorem goodRows_delete (h : GoodRows t tx) (key : Bytes) :
    GoodRows t (tx.delete t.engine key) := by
  intro key' cells hv
  simp only [TableTx.delete, SortedMap.get_erase] at hv
  split at hv
  · cases hv
  · exact h key' cells hv

theorem rows_entries (h : GoodRows t tx) :
    (tx.rows lib).entries = tx.view.entries.map fun e => (e.1, cellValues lib e.2) := by
  have hall : tx.view.entries.filter (fun e => e.2.all Option.isSome) = tx.view.entries :=
    List.filter_eq_self.mpr fun e he => (h _ _ (SortedMap.get_eq_some.mpr he)).all
  exact congrArg _ hall

/-- Removing the keys of the rows hit. -/
theorem deleted_foldl (h : GoodRows t tx) (hit : Bytes → List Value → Bool) :
    Deleted lib t hit tx
      (((tx.view.entries.filter fun e => hit e.1 (cellValues lib e.2)).map Prod.fst).foldl
        (TableTx.delete t.engine) tx)
      (tx.view.entries.filter fun e => hit e.1 (cellValues lib e.2)).length := by
  have hview := Storage.view_foldl_delete t.engine tx
    ((tx.view.entries.filter fun e => hit e.1 (cellValues lib e.2)).map Prod.fst)
  have hgood : GoodRows t (((tx.view.entries.filter fun e => hit e.1 (cellValues lib e.2)).map
      Prod.fst).foldl (TableTx.delete t.engine) tx) := by
    intro key cells hv
    rw [hview] at hv
    split at hv
    · cases hv
    · exact h key cells hv
  refine ⟨hgood, fun key => ?_, ?_, Storage.data_foldl_delete _ _ _⟩
  · rw [Storage.rows_get_of_good hgood, Storage.rows_get_of_good h, hview]
    have hmem : key ∈ (tx.view.entries.filter fun e => hit e.1 (cellValues lib e.2)).map Prod.fst ↔
        ∃ cells, tx.view.get key = some cells ∧ hit key (cellValues lib cells) = true := by
      simp only [List.mem_map, List.mem_filter, SortedMap.get_eq_some, Prod.exists]
      constructor
      · rintro ⟨_, cells, ⟨he, hh⟩, rfl⟩
        exact ⟨cells, he, hh⟩
      · rintro ⟨cells, he, hh⟩
        exact ⟨key, cells, ⟨he, hh⟩, rfl⟩
    cases hv : tx.view.get key with
    | none =>
      rw [hv] at hmem
      simp [hmem]
    | some cells =>
      rw [hv] at hmem
      simp only [Option.some.injEq, exists_eq_left'] at hmem
      cases hh : hit key (cellValues lib cells) <;> simp [hmem, hh, Option.filter_some]
  · have hf : ((tx.rows lib).filter hit).entries =
        (tx.rows lib).entries.filter fun e => hit e.1 e.2 := rfl
    rw [hf, rows_entries h, List.filter_map, List.length_map]
    rfl

/-- The loop of `execDelete` removes the rows that the WHERE selects. -/
theorem does_deleteRows (ht : GoodTable t) {where_ : Expr} {es : List (Bytes × List Cell)}
    (hes : ∀ e ∈ es, GoodRow t e.1 e.2)
    (hw : ∀ e ∈ es, WhereEvaluates lib (t.schema name) where_ (cellValues lib e.2))
    (h : GoodRows t tx) :
    Does b name t
      (deleteRows lib (t.schema name) name where_ (es.map fun e => cellValues lib e.2)) tx
      (es.filter fun e => selects lib (t.schema name) where_ (cellValues lib e.2)).length
      (((es.filter fun e => selects lib (t.schema name) where_ (cellValues lib e.2)).map
        Prod.fst).foldl (TableTx.delete t.engine) tx) := by
  induction es generalizing tx with
  | nil => exact Storage.does_pure _
  | cons e es ih =>
    obtain ⟨he, hes⟩ := List.forall_mem_cons.mp hes
    obtain ⟨hwe, hw⟩ := List.forall_mem_cons.mp hw
    refine Storage.does_bind (does_liftEval hwe.gives) ?_
    rw [List.filter_cons]
    cases selects lib (t.schema name) where_ (cellValues lib e.2) with
    | false =>
      simp only [Bool.false_eq_true, if_false]
      exact ih hes hw h
    | true =>
      simp only [if_true, List.map_cons, List.foldl_cons, List.length_cons]
      have hdel : Does b name t (Storage.delete name (pkValues (t.schema name)
          (rowContext (t.schema name) (cellValues lib e.2)))) tx ⟨⟩ _ := Storage.does_delete h _
      rw [encodePK_pkValues lib name ht he] at hdel
      exact Storage.does_bind hdel
        (Storage.does_bind (ih hes hw (goodRows_delete h e.1)) (Storage.does_pure _))

/-- The rows that `execDelete` hits: on a columnar table with an exact range those in the range. -/
def deleteHit (lib : Stdlib) (schema : TableSchema) (kind : EngineKind) (where_ : Expr) (key : Bytes)
    (row : List Value) : Bool :=
  match kind.isColumnar, boundedRange (pkRangeFromWhere lib schema where_) with
  | true, some r => TableTx.inBounds kind (pkRangeBytes (some r)).1 (pkRangeBytes (some r)).2 key
  | _, _ => selects lib schema where_ row

theorem isColumnarEngine_name (kind : EngineKind) : isColumnarEngine kind.name = kind.isColumnar := by
  cases kind <;> decide

/-- The keys in a window are those of the rows in it. -/
theorem keysRange_eq (hl : tx.ListsRows t.engine) (lo hi : Option Bytes) :
    tx.keysRange t.engine lo hi =
      (tx.view.entries.filter fun e => TableTx.inBounds t.engine lo hi e.1).map Prod.fst := by
  rw [TableTx.keysRange, Storage.keys_eq hl, SortedMap.keys, List.filter_map]
  rfl

theorem does_execDelete (ht : GoodTable t) (h : GoodRows t tx) (hl : tx.ListsRows t.engine)
    {where_ : Expr} (hw : ∀ key row, (tx.rows lib).get key = some row →
      WhereEvaluates lib (t.schema name) where_ row) :
    ∃ n tx', Does b name t (execDelete lib name where_) tx ⟨ascii "delete", n⟩ tx' ∧
      Deleted lib t (deleteHit lib (t.schema name) t.engine where_) tx tx' n := by
  have hrow : ∀ e ∈ tx.view.entries, GoodRow t e.1 e.2 := fun e he =>
    h _ _ (SortedMap.get_eq_some.mpr he)
  have hwe : ∀ e ∈ tx.view.entries,
      WhereEvaluates lib (t.schema name) where_ (cellValues lib e.2) := fun e he =>
    hw e.1 _ (by rw [Storage.rows_get_of_good h, SortedMap.get_eq_some.mpr he]; rfl)
  have heng : isColumnarEngine (t.schema name).engine = t.engine.isColumnar :=
    isColumnarEngine_name t.engine
  have hscan : Does b name t (execDeleteScan lib (t.schema name) name where_) tx
      ⟨ascii "delete", _⟩ _ :=
    Storage.does_bind (Storage.does_scan lib ht h hl)
      (Storage.does_bind (does_deleteRows ht hrow hwe h) (Storage.does_pure _))
  have hscanned : (∀ key row, deleteHit lib (t.schema name) t.engine where_ key row =
      selects lib (t.schema name) where_ row) →
      ∃ n tx', Does b name t (execDeleteScan lib (t.schema name) name where_) tx
          ⟨ascii "delete", n⟩ tx' ∧
        Deleted lib t (deleteHit lib (t.schema name) t.engine where_) tx tx' n := by
    intro hhit
    rw [funext fun key => funext (hhit key)]
    exact ⟨_, _, hscan, deleted_foldl h _⟩
  unfold execDelete
  cases hc : t.engine.isColumnar with
  | false =>
    obtain ⟨n, tx', hd, hdel⟩ := hscanned fun key row => by rw [deleteHit, hc]
    refine ⟨n, tx', Storage.does_bind Storage.does_getSchema ?_, hdel⟩
    simp only [heng, hc]
    exact hd
  | true =>
    cases hr : boundedRange (pkRangeFromWhere lib (t.schema name) where_) with
    | none =>
      obtain ⟨n, tx', hd, hdel⟩ := hscanned fun key row => by rw [deleteHit, hc, hr]
      refine ⟨n, tx', Storage.does_bind Storage.does_getSchema ?_, hdel⟩
      simp only [heng, hc, hr]
      exact hd
    | some r =>
      have hhit : deleteHit lib (t.schema name) t.engine where_ = fun key _ =>
          TableTx.inBounds t.engine (pkRangeBytes (some r)).1 (pkRangeBytes (some r)).2 key := by
        funext key row
        rw [deleteHit, hc, hr]
      rw [hhit]
      have hd : Does b name t (Storage.deleteRange name (some r)) tx _ _ :=
        Storage.does_deleteRange h hc (some r)
      rw [keysRange_eq hl] at hd
      refine ⟨_, _, Storage.does_bind Storage.does_getSchema ?_, deleted_foldl h _⟩
      simp only [heng, hc, hr]
      rw [List.length_map] at hd
      exact Storage.does_bind hd (Storage.does_pure _)

end Delete

/-! ### DELETE -/

section Right

variable {lib : Stdlib} {name : Bytes} {t : Table} {tx tx' : TableTx} {where_ : Expr}

theorem selects_iff {schema : TableSchema} {row : List Value} :
    selects lib schema where_ row = true ↔ Passes lib (rowContext schema row) where_ := by
  unfold Passes IsTrue
  by_cases hnil : where_ = .nil
  · have hg : Gives (whereTrue lib where_ (rowContext schema row)) true := by
      rw [whereTrue, if_pos hnil]
      rfl
    exact ⟨fun _ => Or.inl hnil, fun _ => selects_eq hg⟩
  · rw [or_iff_right hnil]
    constructor
    · intro hs
      have hg : Gives (whereTrue lib where_ (rowContext schema row)) true := by
        unfold selects at hs
        unfold Gives
        split at hs
        · rename_i b hb
          rw [hb, hs]
        · cases hs
      rw [whereTrue, if_neg hnil] at hg
      obtain ⟨v, hv, hb⟩ := gives_bind.mp hg
      exact ⟨v, gives_check.mp hv, by simpa using hb⟩
    · rintro ⟨v, hv, hb⟩
      refine selects_eq ?_
      rw [whereTrue, if_neg hnil]
      exact gives_bind.mpr ⟨v, gives_check.mpr hv, by simp [hb]⟩

/-- The planned range is right about the rows of the table. -/
def PlannedRight (lib : Stdlib) (schema : TableSchema) (where_ : Expr) (rows : SortedMap Bytes (List Value)) :
    Prop :=
  ∀ key row, rows.get key = some row → RangeRight lib schema (rowContext schema row) where_

theorem goodRows_get (h : GoodRows t tx) {key : Bytes} {row : List Value}
    (hr : (tx.rows lib).get key = some row) :
    ∃ cells, tx.view.get key = some cells ∧ GoodRow t key cells ∧ row = cellValues lib cells := by
  rw [Storage.rows_get_of_good h] at hr
  obtain ⟨cells, hv, rfl⟩ := Option.map_eq_some_iff.mp hr
  exact ⟨cells, hv, h key cells hv, rfl⟩

/-- An exact range holds the rows that the WHERE selects. -/
theorem inRange_iff_selects (ht : GoodTable t) (h : GoodRows t tx)
    (hp : PlannedRight lib (t.schema name) where_ (tx.rows lib)) {key : Bytes} {row : List Value}
    (hr : (tx.rows lib).get key = some row)
    (hx : (pkRangeFromWhere lib (t.schema name) where_).2 = true) :
    InRange (pkRangeFromWhere lib (t.schema name) where_).1 key ↔
      selects lib (t.schema name) where_ row = true := by
  have hright := hp key row hr
  obtain ⟨cells, -, hgood, rfl⟩ := goodRows_get h hr
  have hk := rowKey_good lib name ht hgood
  have hsound := hright.sound
  have hexact := hright.exact hx
  rw [hk] at hsound hexact
  rw [selects_iff]
  refine ⟨hexact, fun hpass => ?_⟩
  rcases hpass with rfl | hpass
  · rw [pkRangeFromWhere, if_pos (Or.inr rfl)] at hx
    cases hx
  · exact hsound hpass

theorem deleteHit_eq (ht : GoodTable t) (h : GoodRows t tx)
    (hp : PlannedRight lib (t.schema name) where_ (tx.rows lib)) {key : Bytes} {row : List Value}
    (hr : (tx.rows lib).get key = some row) :
    deleteHit lib (t.schema name) t.engine where_ key row =
      selects lib (t.schema name) where_ row := by
  unfold deleteHit
  split
  · rename_i r _ hb
    have hplan : pkRangeFromWhere lib (t.schema name) where_ = (some r, true) := by
      unfold boundedRange at hb
      split at hb
      · rename_i hplan
        split at hb
        · rw [hplan, Option.some.inj hb]
        · cases hb
      · cases hb
    have hiff := inRange_iff_selects ht h hp hr (by rw [hplan])
    rw [Bool.eq_iff_iff, ← hiff, ← inBounds_iff t.engine, hplan]
  · rfl

/-- DELETE removes the rows that the WHERE selects, and reports their number. -/
def DeleteRight (lib : Stdlib) (b : Batch) (name : Bytes) (t : Table) (where_ : Expr) : Prop :=
  ∃ ixs tx', (execDelete lib name where_).exec b =
      (.ok ⟨ascii "delete", selectedCount lib (t.schema name) where_ ((b.tx name t).rows lib)⟩,
        b.withLive name t ⟨ixs, tx'⟩) ∧
    tx'.rows lib = deleteTable lib (t.schema name) where_ ((b.tx name t).rows lib)

theorem deleteRight {b : Batch} (hb : b.tables.get name = some t) (ht : GoodTable t)
    (h : GoodRows t (b.tx name t)) (hl : (b.tx name t).ListsRows t.engine)
    (hw : ∀ key row, ((b.tx name t).rows lib).get key = some row →
      WhereEvaluates lib (t.schema name) where_ row)
    (hp : PlannedRight lib (t.schema name) where_ ((b.tx name t).rows lib)) :
    DeleteRight lib b name t where_ := by
  obtain ⟨n, tx', hd, hdel⟩ := does_execDelete (b := b) ht h hl hw
  obtain ⟨ixs, he, -⟩ := hd.exec hb
  have hcount : n = selectedCount lib (t.schema name) where_ ((b.tx name t).rows lib) := by
    rw [hdel.count, selectedCount]
    exact congrArg (fun m => m.entries.length)
      (SortedMap.filter_congr fun key row hr => deleteHit_eq ht h hp hr)
  refine ⟨ixs, tx', by rw [he, hcount], SortedMap.ext_get fun key => ?_⟩
  rw [hdel.rows, deleteTable, SortedMap.get_filter]
  cases hr : ((b.tx name t).rows lib).get key with
  | none => rfl
  | some row =>
    rw [Option.filter_some, Option.filter_some, deleteHit_eq ht h hp hr]

end Right

end Ydbgo.Sql
