import Ydbgo.Sql.PlanWhere
import Ydbgo.Sql.UpdateColumnar

/-! # UPDATE and DELETE against their meaning

Where the planned range is right about the rows of a sound table, DELETE removes
the rows that the WHERE selects. UPDATE gives them their assigned values if the
path that it takes finds the rows of the range, and writes or inherits all their
columns.
-/

namespace Ydbgo.Sql

open Storage (Batch Table TableTx ColInfo Cell EngineKind GoodTable GoodRow GoodRows cellValues Does
  InRange pkRangeBytes Proper)

section Update

variable {lib : Stdlib} {b : Batch} {name : Bytes} {t : Table} {tx tx' : TableTx}
  {sets : List SetItem} {where_ : Expr}

/-- A table as committed statements leave it: the columns have different names, every row is
complete and stored under its key, and the transaction lists the rows there are and fills partial
writes from them. -/
structure Sound (t : Table) (tx : TableTx) : Prop where
  table : GoodTable t
  rows : GoodRows t tx
  lists : tx.ListsRows t.engine
  fills : tx.FillsRows t.engine

/-- The rows that `execUpdate` hits. -/
def updateHit (lib : Stdlib) (schema : TableSchema) (kind : EngineKind) (where_ : Expr) (key : Bytes)
    (row : List Value) : Bool :=
  match pointKey lib (pkRangeFromWhere lib schema where_) with
  | some pk => decide (key = Storage.encodePK pk)
  | none =>
    if kind.isColumnar then
      columnarHit lib schema kind where_ (pkRangeFromWhere lib schema where_) key row
    else selects lib schema where_ row

/-- The path of an UPDATE reads and writes what it has to: off the point path, a columnar table is
read at one key only if no other row is in the range, and the CSTORE backend, which keeps no column
that is left out, is written in full. -/
structure PathComplete (lib : Stdlib) (name : Bytes) (t : Table) (tx : TableTx)
    (sets : List SetItem) (where_ : Expr) : Prop where
  reads : pointKey lib (pkRangeFromWhere lib (t.schema name) where_) = none →
    t.engine.isColumnar = true →
    PointRead lib name t tx where_ (pkRangeFromWhere lib (t.schema name) where_)
  writes : pointKey lib (pkRangeFromWhere lib (t.schema name) where_) = none → t.engine = .cstore →
    (∃ key row, (tx.rows lib).get key = some row ∧
      updateHit lib (t.schema name) t.engine where_ key row = true) →
    ∀ c ∈ t.cols, c.name ∈ needCols (t.schema name) sets where_ ∨
      c.name ∈ sets.map SetItem.column

theorem ends_execUpdate (hsound : Sound t tx) (hk : KeepsKey (t.schema name) sets)
    (hw : ∀ key row, (tx.rows lib).get key = some row →
      WhereEvaluates lib (t.schema name) where_ row)
    (hs : ∀ key row, (tx.rows lib).get key = some row →
      updateHit lib (t.schema name) t.engine where_ key row = true →
        SetsEvaluate lib (t.schema name) sets row)
    (hpath : PathComplete lib name t tx sets where_) :
    Storage.Ends b name t (execUpdate lib name sets where_) tx fun r tx' =>
      ∃ n, r = ⟨ascii "update", n⟩ ∧ Updated lib t
        (updateHit lib (t.schema name) t.engine where_) (newRow lib (t.schema name) sets) tx tx' n := by
  obtain ⟨ht, h, hl, hf⟩ := hsound
  have hget : ∀ e ∈ tx.view.entries, (tx.rows lib).get e.1 = some (cellValues lib e.2) :=
    fun e he => by rw [Storage.rows_get_of_good h, SortedMap.get_eq_some.mpr he]; rfl
  have heng : isColumnarEngine (t.schema name).engine = t.engine.isColumnar :=
    isColumnarEngine_name t.engine
  refine Storage.Does.ends_bind Storage.does_getSchema ?_
  dsimp only
  cases hpk : pointKey lib (pkRangeFromWhere lib (t.schema name) where_) with
  | some pk =>
    have hhit : updateHit lib (t.schema name) t.engine where_ =
        fun key _ => decide (key = Storage.encodePK pk) := by
      funext key row
      rw [updateHit, hpk]
    rw [hhit] at hs ⊢
    obtain ⟨n, tx', hd, hup⟩ := does_updatePoint (b := b) ht h hk pk fun row hr =>
      hs _ row hr (decide_eq_true rfl)
    exact hd.ends ⟨n, rfl, hup⟩
  | none =>
    dsimp only
    rw [heng]
    cases hc : t.engine.isColumnar with
    | false =>
      have hhit : updateHit lib (t.schema name) t.engine where_ =
          fun _ row => selects lib (t.schema name) where_ row := by
        funext key row
        rw [updateHit, hpk, hc]
        rfl
      rw [hhit] at hs ⊢
      obtain ⟨n, tx', hd, hup⟩ := does_execUpdateScan (b := b) ht h hl hk hw hs
      exact hd.ends ⟨n, rfl, hup⟩
    | true =>
      have hhit : updateHit lib (t.schema name) t.engine where_ =
          columnarHit lib (t.schema name) t.engine where_
            (pkRangeFromWhere lib (t.schema name) where_) := by
        funext key row
        rw [updateHit, hpk, hc]
        rfl
      have hwrites := hpath.writes hpk
      rw [hhit] at hs hwrites ⊢
      refine ends_execUpdateColumnar hc ht h hl hf hk (hpath.reads hpk hc)
        (fun e he => hw _ _ (hget e he))
        (fun e he => hs _ _ (hget e (List.mem_of_mem_filter he)) (List.mem_filter.mp he).2)
        fun e he => ?_
      have hmem := List.mem_of_mem_filter he
      cases hkind : t.engine with
      | table | kv =>
        rw [hkind] at hc
        cases hc
      | cstore2 => exact Or.inl ⟨hkind, hf hkind ▸ SortedMap.get_eq_some.mpr hmem⟩
      | cstore => exact Or.inr (hwrites hkind ⟨_, _, hget e hmem, (List.mem_filter.mp he).2⟩)

/-- The point path updates the row of the range: no other row is in it. -/
def PointFound (lib : Stdlib) (schema : TableSchema) (where_ : Expr)
    (rows : SortedMap Bytes (List Value)) : Prop :=
  ∀ pk, pointKey lib (pkRangeFromWhere lib schema where_) = some pk →
    ∀ key row, rows.get key = some row →
      (InRange (pkRangeFromWhere lib schema where_).1 key ↔ key = Storage.encodePK pk)

theorem pointKey_exact {plan : Option PKRange × Bool} {pk : List Value}
    (h : pointKey lib plan = some pk) : plan.2 = true := by
  unfold pointKey at h
  split at h
  · rfl
  · cases h

/-- Where the range is right, and the point path finds its row, the rows hit are those that the WHERE
selects. -/
theorem updateHit_eq (ht : GoodTable t) (h : GoodRows t tx)
    (hp : PlannedRight lib (t.schema name) where_ (tx.rows lib))
    (hpoint : PointFound lib (t.schema name) where_ (tx.rows lib)) {key : Bytes}
    {row : List Value} (hr : (tx.rows lib).get key = some row) :
    updateHit lib (t.schema name) t.engine where_ key row =
      selects lib (t.schema name) where_ row := by
  unfold updateHit
  split
  · rename_i pk hpk
    rw [Bool.eq_iff_iff, decide_eq_true_eq, ← hpoint pk hpk key row hr]
    exact inRange_iff_selects ht h hp hr (pointKey_exact hpk)
  · split
    · rw [Bool.eq_iff_iff, columnarHit, Bool.and_eq_true, inWindow, inBounds_iff, residual]
      split
      · rename_i hx
        rw [inRange_iff_selects ht h hp hr hx]
        exact and_iff_left rfl
      · refine and_iff_right_of_imp fun hsel => ?_
        rcases selects_iff.mp hsel with rfl | htrue
        · rw [pkRangeFromWhere, if_pos (Or.inr rfl)]
          exact inRange_none key
        · obtain ⟨cells, -, hgood, rfl⟩ := goodRows_get h hr
          have hin := (hp key _ hr).sound htrue
          rwa [rowKey_good lib name ht hgood] at hin
    · rfl

/-- UPDATE gives the rows that the WHERE selects their assigned values, and reports their number. -/
def UpdateRight (lib : Stdlib) (b : Batch) (name : Bytes) (t : Table) (sets : List SetItem)
    (where_ : Expr) : Prop :=
  ∃ ixs tx', (execUpdate lib name sets where_).exec b =
      (.ok ⟨ascii "update", selectedCount lib (t.schema name) where_ ((b.tx name t).rows lib)⟩,
        b.withLive name t ⟨ixs, tx'⟩) ∧
    tx'.rows lib = updateTable lib (t.schema name) sets where_ ((b.tx name t).rows lib)

/-- The WHERE has a value in every row, and the assignments in every row it selects. -/
structure Evaluates (lib : Stdlib) (schema : TableSchema) (sets : List SetItem) (where_ : Expr)
    (rows : SortedMap Bytes (List Value)) : Prop where
  wheres : ∀ key row, rows.get key = some row → WhereEvaluates lib schema where_ row
  sets : ∀ key row, rows.get key = some row → selects lib schema where_ row = true →
    SetsEvaluate lib schema sets row

theorem updateRight (hb : b.tables.get name = some t) (hsound : Sound t (b.tx name t))
    (hk : KeepsKey (t.schema name) sets)
    (he : Evaluates lib (t.schema name) sets where_ ((b.tx name t).rows lib))
    (hp : PlannedRight lib (t.schema name) where_ ((b.tx name t).rows lib))
    (hpoint : PointFound lib (t.schema name) where_ ((b.tx name t).rows lib))
    (hpath : PathComplete lib name t (b.tx name t) sets where_) :
    UpdateRight lib b name t sets where_ := by
  have hhit : ∀ {key row}, ((b.tx name t).rows lib).get key = some row →
      updateHit lib (t.schema name) t.engine where_ key row =
        selects lib (t.schema name) where_ row := fun hr =>
    updateHit_eq hsound.table hsound.rows hp hpoint hr
  have hends := ends_execUpdate (b := b) hsound hk he.wheres
    (fun key row hr hh => he.sets key row hr (hhit hr ▸ hh)) hpath
  obtain ⟨r, ixs, tx', hexec, -, n, rfl, hup⟩ := hends.exec hb
  have hcount : n = selectedCount lib (t.schema name) where_ ((b.tx name t).rows lib) := by
    rw [hup.count, selectedCount]
    exact congrArg (fun m => m.entries.length) (SortedMap.filter_congr fun key row hr => hhit hr)
  refine ⟨ixs, tx', by rw [hexec, hcount], SortedMap.ext_get fun key => ?_⟩
  rw [hup.rows, updateTable, SortedMap.get_map]
  cases hr : ((b.tx name t).rows lib).get key with
  | none => rfl
  | some row =>
    simp only [Option.map_some, hhit hr]
    rfl

theorem pkRangeFromWhere_on (t : Table) (kind : EngineKind) :
    pkRangeFromWhere lib (({ t with engine := kind } : Table).schema name) where_ =
      pkRangeFromWhere lib (t.schema name) where_ := by
  have htest : leafTest lib (({ t with engine := kind } : Table).schema name) =
      leafTest lib (t.schema name) := rfl
  unfold pkRangeFromWhere
  simp only [visit_eq_foldl, htest]
  rfl

theorem PlannedRight.on {rows : SortedMap Bytes (List Value)}
    (h : PlannedRight lib (t.schema name) where_ rows) (kind : EngineKind) :
    PlannedRight lib (({ t with engine := kind } : Table).schema name) where_ rows := by
  intro key row hr
  obtain ⟨hsound, hexact⟩ := h key row hr
  rw [← pkRangeFromWhere_on t kind] at hsound hexact
  exact ⟨hsound, hexact⟩

theorem PointFound.on {rows : SortedMap Bytes (List Value)}
    (h : PointFound lib (t.schema name) where_ rows) (kind : EngineKind) :
    PointFound lib (({ t with engine := kind } : Table).schema name) where_ rows := by
  unfold PointFound
  rw [pkRangeFromWhere_on]
  exact h

end Update

/-! ### Tables of one row -/

section OneRow

/-- The integer columns `a`, `b` and `v`, of which the first `n` are the key. -/
def abv (kind : EngineKind) (n : ℕ) : Table :=
  ⟨[⟨[97], .int, true⟩, ⟨[98], .int, true⟩, ⟨[118], .int, false⟩], List.range n, .empty, kind, 0⟩

def intCell (i : Int64) : Cell := some { i := i }

/-- The batch that starts where a table holds the row `1, 2, 10`. -/
def oneRow (t : Table) (key : Bytes) : Batch :=
  Storage.Engine.begin_
    { defs := fun n => if n = [116] then some t.def_ else none
      tables := SortedMap.empty.insert [116] t
      stores := fun kind n => if kind = t.engine ∧ n = [116] then
        ⟨SortedMap.empty.insert key [intCell 1, intCell 2, intCell 10], .empty, 1⟩ else .empty }

theorem rows_oneRow (kind : EngineKind) (n : ℕ) (key : Bytes) :
    (((oneRow (abv kind n) key).tx [116] (abv kind n)).rows .plain).entries =
      [(key, [intValue 1, intValue 2, intValue 10])] := by
  simp [oneRow, Storage.Engine.begin_, Batch.tx, TableTx.begin_, abv]
  rfl

theorem normal_int (i : Int64) : Storage.Normal { i := i } := fun _ => rfl

theorem sound_oneRow (kind : EngineKind) {n : ℕ} (hpos : 0 < n) (hle : n ≤ 3) {key : Bytes}
    (hkey : key = Storage.encodeKey (((List.range n).map fun p =>
      Storage.variant ([intCell 1, intCell 2, intCell 10][p]?).join))) :
    Sound (abv kind n) ((oneRow (abv kind n) key).tx [116] (abv kind n)) := by
  have hview : ((oneRow (abv kind n) key).tx [116] (abv kind n)).view =
      SortedMap.empty.insert key [intCell 1, intCell 2, intCell 10] := by
    simp [oneRow, Storage.Engine.begin_, Batch.tx, TableTx.begin_]
  refine ⟨⟨?_, ?_, ?_⟩, ?_, fun _ => rfl, fun _ => rfl⟩
  · change List.Nodup [[97], [98], [118]]
    decide
  · simpa [abv] using hpos.ne'
  · intro p hp
    have hlt := List.mem_range.mp hp
    change p < 3
    omega
  · intro key' cells hv
    rw [hview, SortedMap.get_insert] at hv
    split at hv
    · rename_i he
      subst he
      obtain rfl := Option.some.inj hv
      refine ⟨rfl, ?_, hkey⟩
      intro c hc
      simp only [List.mem_cons, List.not_mem_nil, or_false] at hc
      rcases hc with rfl | rfl | rfl
      · exact ⟨_, rfl, normal_int 1⟩
      · exact ⟨_, rfl, normal_int 2⟩
      · exact ⟨_, rfl, normal_int 10⟩
    · cases hv

theorem oneRow_get {kind : EngineKind} {n : ℕ} {key key' : Bytes} {row : List Value}
    (h : (((oneRow (abv kind n) key).tx [116] (abv kind n)).rows .plain).get key' = some row) :
    key' = key ∧ row = [intValue 1, intValue 2, intValue 10] := by
  rw [SortedMap.get_eq_some, rows_oneRow, List.mem_singleton] at h
  exact Prod.mk.inj h

/-- `v = n` -/
def vIs (n : Int64) : Expr := .binary .eq (.ident [118]) (.literal (.int n))

/-- `SET v = n` -/
def setV (n : Int64) : List SetItem := [⟨[118], .literal (.int n)⟩]

/-- The key `1` of the table with the key `a`. -/
def keyOne : Bytes := Storage.encodeKey [{ i := 1 }]

/-- `a = 1` -/
def aIsOne : Expr := .binary .eq (.ident [97]) (.literal (.int 1))

/-- The key `1, 2` of the table with the key `a, b`. -/
def keyOneTwo : Bytes := Storage.encodeKey [{ i := 1 }, { i := 2 }]

/-- `SET b = 5, v = 11` -/
def setBV : List SetItem := [⟨[98], .literal (.int 5)⟩, ⟨[118], .literal (.int 11)⟩]

end OneRow

end Ydbgo.Sql
