import Ydbgo.Sql.DirectAtomic
import Ydbgo.Sql.UpdateRight

/-! # Failed statements on the engine itself

A failed statement leaves the rows of a sound table as they were, unless it
writes row by row and has changed a row before the first one that it fails on.
-/

namespace Ydbgo.Sql

open Storage (Exec ExecError Engine EngineKind Batch Table TableTx Cell Vals GoodTable GoodRow
  GoodRows cellValues)

/-! ### What the scans do with each row -/

/-- The assignments of an UPDATE to a row, if its WHERE is true of it. -/
def rowSets (lib : Stdlib) (schema : TableSchema) (sets : List SetItem) (where_ : Expr)
    (row : List Value) : Eval (Option (List (Bytes × Value))) := do
  if ← whereTrue lib where_ (rowContext schema row) then
    let set ← evalSetsCtx lib schema (rowContext schema row) sets
    return some set
  else return none

/-- A DELETE takes the row. -/
def rowTaken (lib : Stdlib) (schema : TableSchema) (where_ : Expr) (row : List Value) :
    Eval (Option Unit) := do
  if ← whereTrue lib where_ (rowContext schema row) then return some ⟨⟩ else return none

/-- UPDATE reads all rows and writes them one by one. -/
def updatesEach (lib : Stdlib) (schema : TableSchema) (sets : List SetItem) (where_ : Expr) :
    Bool :=
  (pointKey lib (pkRangeFromWhere lib schema where_)).isNone &&
    (!isColumnarEngine schema.engine || sets.any fun item => item.column ∈ pkIndex schema)

/-- DELETE reads all rows and deletes them one by one. -/
def deletesEach (lib : Stdlib) (schema : TableSchema) (where_ : Expr) : Bool :=
  !(isColumnarEngine schema.engine &&
    (boundedRange (pkRangeFromWhere lib schema where_)).isSome)

/-- The first row on which the evaluation ends in an error comes after these rows. -/
structure FirstError {β : Type} (hit : List Value → Eval β) (rows pre : List (List Value)) :
    Prop where
  evaluates : ∀ q ∈ pre, ∃ a, Gives (hit q) a
  error : ∃ r post p, rows = pre ++ r :: post ∧ (hit r).run = some (.error p)

/-- No row is changed before the first one on which the statement fails. -/
def Undisturbed (lib : Stdlib) (schema : TableSchema) (rows : List (List Value)) :
    RowStmt → Prop
  | .insert _ _ _ => True
  | .update _ sets where_ => updatesEach lib schema sets where_ = true →
    ∀ pre, FirstError (rowSets lib schema sets where_) rows pre →
      ∀ q ∈ pre, selects lib schema where_ q = true → newRow lib schema sets q = q
  | .delete _ where_ => deletesEach lib schema where_ = true →
    ∀ pre, FirstError (rowTaken lib schema where_) rows pre →
      ∀ q ∈ pre, selects lib schema where_ q = false

section Calls

variable (lib : Stdlib) (schema : TableSchema) (table : Bytes) (sets : List SetItem)
  (where_ : Expr)

/-- The loop of `execUpdateScan` on the engine itself. -/
theorem updateRows_direct (rows : List (List Value)) :
    Calls.updateRows direct lib schema table sets where_ rows =
      eachRow (rowSets lib schema sets where_) (fun row set =>
        direct (Storage.update table (pkValues schema (rowContext schema row)) set)) rows := by
  induction rows with
  | nil => rfl
  | cons row rows ih =>
    rw [Calls.updateRows, eachRow, ih, rowSets, liftEval_bind, bind_assoc]
    congr 1
    funext b
    cases b with
    | true =>
      simp only [if_true, liftEval_bind, bind_assoc]
      rfl
    | false => rfl

/-- The loop of `execDelete` on the engine itself. -/
theorem deleteRows_direct (rows : List (List Value)) :
    Calls.deleteRows direct lib schema table where_ rows =
      eachRow (rowTaken lib schema where_) (fun row _ =>
        direct (Storage.delete table (pkValues schema (rowContext schema row)))) rows := by
  induction rows with
  | nil => rfl
  | cons row rows ih =>
    rw [Calls.deleteRows, eachRow, ih, rowTaken, liftEval_bind, bind_assoc]
    congr 1
    funext b
    cases b with
    | true => rfl
    | false => rfl

end Calls

/-! ### Sound tables -/

/-- A table as committed statements leave it, if it is there. -/
def SoundTable (e : Engine) (table : Bytes) : Prop :=
  ∀ t, e.tables.get table = some t → GoodTable t ∧
    ∀ key cells, (e.stores t.engine table).rows.get key = some cells → GoodRow t key cells

/-- The values of the rows of a table in the order of their keys. -/
def storedRows (lib : Stdlib) (e : Engine) (table : Bytes) (t : Table) : List (List Value) :=
  (e.stores t.engine table).rows.entries.map fun x => cellValues lib x.2

section Sound

variable {lib : Stdlib} {e : Engine} {table : Bytes} {t : Table}
  {rows : SortedMap Bytes (List Cell)}

theorem exec_getSchema (h : e.tables.get table = some t) :
    (direct (Storage.getSchema table)).exec e = (.ok (t.schema table), e) := by
  have hrun : (Storage.getSchema table).exec e.begin_ = (.ok (t.schema table), e.begin_) := by
    rw [Storage.getSchema, Prog.exec_bind, Storage.exec_getTable,
      show e.begin_.tables.get table = some t from h]
    rfl
  rw [exec_direct_of_read (congrArg Prod.snd hrun), hrun]

theorem exec_getSchema_none (h : e.tables.get table = none) :
    ∃ err, (direct (Storage.getSchema table)).exec e = (.error err, e) := by
  have hrun : ∃ err, (Storage.getSchema table).exec e.begin_ = (.error err, e.begin_) := by
    rw [Storage.getSchema, Prog.exec_bind, Storage.exec_getTable,
      show e.begin_.tables.get table = none from h]
    exact ⟨_, rfl⟩
  obtain ⟨err, hrun⟩ := hrun
  exact ⟨err, by rw [exec_direct_of_read (congrArg Prod.snd hrun), hrun]⟩

/-- A scan on the engine itself reads the values of the rows. -/
theorem exec_scan (lib : Stdlib) (h : e.tables.get table = some t) (ht : GoodTable t)
    (hr : ∀ key cells, (e.stores t.engine table).rows.get key = some cells →
      GoodRow t key cells) :
    (direct (Storage.scan lib table)).exec e = (.ok (storedRows lib e table t), e) := by
  have hd : Storage.Does e.begin_ table t (Storage.scan lib table) (e.begin_.tx table t) _ _ :=
    Storage.does_scan lib ht hr fun _ => rfl
  obtain ⟨ixs, hrun, -⟩ := hd.exec h
  have hread : ((Storage.scan lib table).exec e.begin_).2 = e.begin_ :=
    snd_getTable_bind table fun _ _ => rfl
  rw [exec_direct_of_read hread, hrun]
  rfl

/-! ### Loops over the rows of a sound table -/

/-- The key that the values of a row name. -/
def namedKey (schema : TableSchema) (row : List Value) : Bytes :=
  Storage.encodePK (pkValues schema (rowContext schema row))

theorem map_namedKey (lib : Stdlib) (table : Bytes) (ht : GoodTable t)
    (hr : ∀ key cells, rows.get key = some cells → GoodRow t key cells) :
    (rows.entries.map fun x => cellValues lib x.2).map (namedKey (t.schema table)) = rows.keys := by
  rw [List.map_map]
  exact List.map_congr_left fun x hx =>
    encodePK_pkValues lib table ht (hr x.1 x.2 (SortedMap.get_eq_some.mpr hx))

variable {β : Type} {hit : List Value → Eval (Option β)}
  {write : List Value → β → Prog Engine ExecError Unit}
  {step : SortedMap Bytes (List Cell) → List Value × β → SortedMap Bytes (List Cell)}

/-- Writes to the rows before some row leave the table as it was exactly if each of them does. -/
theorem foldl_hits_iff (lib : Stdlib) (ht : GoodTable t)
    (hr : ∀ key cells, rows.get key = some cells → GoodRow t key cells)
    (hstep : ∀ p m, Touches (namedKey (t.schema table) p.1) m (step m p))
    {pre post : List (List Value)}
    (hrows : (rows.entries.map fun x => cellValues lib x.2) = pre ++ post) :
    (hitsOf hit pre).foldl step rows = rows ↔
      ∀ q ∈ pre, ∀ w, Gives (hit q) (some w) → step rows (q, w) = rows := by
  have hkeys := map_namedKey lib table ht hr
  rw [hrows, List.map_append] at hkeys
  have hsub : ((hitsOf hit pre).map fun p => namedKey (t.schema table) p.1).Sublist rows.keys := by
    have hs := (sublist_hitsOf hit pre).map (namedKey (t.schema table))
    rw [List.map_map] at hs
    exact hs.trans (hkeys ▸ List.sublist_append_left _ _)
  have hnd : ((hitsOf hit pre).map fun p => namedKey (t.schema table) p.1).Nodup :=
    hsub.nodup rows.nodup_keys
  have hfull : ∀ p ∈ hitsOf hit pre, (rows.get (namedKey (t.schema table) p.1)).isSome :=
    fun p hp => SortedMap.mem_keys.mp (hsub.subset (List.mem_map_of_mem hp))
  constructor
  · intro he q hq w hw
    exact eq_of_foldl_touches hstep hnd hfull he _ (mem_hitsOf.mpr ⟨hq, hw⟩)
  · intro h
    apply foldl_eq_of_forall
    rintro ⟨q, w⟩ hp
    obtain ⟨hq, hw⟩ := mem_hitsOf.mp hp
    exact h q hq w hw

/-- A failed loop leaves the table as it was exactly if it changed no row before it failed. -/
theorem eachRow_atomic_iff (Inv : SortedMap Bytes (List Cell) → Prop)
    (step : SortedMap Bytes (List Cell) → List Value × β → SortedMap Bytes (List Cell))
    (lib : Stdlib) (h : e.tables.get table = some t) (ht : GoodTable t)
    (hr : ∀ key cells, (e.stores t.engine table).rows.get key = some cells → GoodRow t key cells)
    (hstep : ∀ p m, Touches (namedKey (t.schema table) p.1) m (step m p))
    (hi : Inv (e.stores t.engine table).rows)
    (hwrite : ∀ {rows e'}, Inv rows → Holding e table t rows e' → ∀ row w, ∃ e'',
      (write row w).exec e' = (.ok ⟨⟩, e'') ∧ Holding e table t (step rows (row, w)) e'' ∧
        Inv (step rows (row, w))) :
    (∀ err e', (eachRow hit write (storedRows lib e table t)).exec e = (.error err, e') →
        err ≠ .panic → content e' table = content e table) ↔
      ∀ pre, FirstError hit (storedRows lib e table t) pre →
        ∀ q ∈ pre, ∀ w, Gives (hit q) (some w) →
          step (e.stores t.engine table).rows (q, w) = (e.stores t.engine table).rows := by
  have hfail : ∀ {pre r post err}, storedRows lib e table t = pre ++ r :: post →
      (∀ q ∈ pre, ∃ a, Gives (hit q) a) → evalError (hit r) = some err →
      ∃ e', (eachRow hit write (storedRows lib e table t)).exec e = (.error err, e') ∧
        (content e' table = content e table ↔ ∀ q ∈ pre, ∀ w, Gives (hit q) (some w) →
          step (e.stores t.engine table).rows (q, w) = (e.stores t.engine table).rows) := by
    intro pre r post err hrows hpre herr
    obtain ⟨e', hh, k, he⟩ := exec_eachRow hwrite hpre (r :: post) hi (holding_self h)
    refine ⟨e', ?_, ?_⟩
    · rw [hrows, he, eachRow, Prog.exec_bind_error (exec_liftEval_error herr e')]
      rfl
    · rw [hh.content_eq_iff]
      exact foldl_hits_iff lib ht hr hstep hrows
  constructor
  · rintro hat pre ⟨hpre, r, post, p, hrows, hp⟩
    have herr : evalError (hit r) = some (.msg p.2) := by
      rw [evalError, hp]
    obtain ⟨e', he, hiff⟩ := hfail hrows hpre herr
    exact hiff.mp (hat _ e' he (by rintro ⟨⟩))
  · intro hun err e' he hnp
    rcases firstError hit (storedRows lib e table t) with hall | ⟨pre, r, post, err', hrows, hpre, herr⟩
    · obtain ⟨e₁, -, k, hok⟩ := exec_eachRow hwrite hall [] hi (holding_self h)
      rw [List.append_nil, he] at hok
      cases hok
    · obtain ⟨e₁, he₁, hiff⟩ := hfail hrows hpre herr
      rw [he] at he₁
      cases he₁
      refine hiff.mpr (hun pre ⟨hpre, r, post, ?_⟩)
      unfold evalError at herr
      split at herr
      · cases herr
        exact absurd rfl hnp
      · rename_i p hp
        exact ⟨p, hrows, hp⟩
      · cases herr

end Sound

/-! ### Rows that a write leaves as they are -/

section Row

variable {t : Table} {rows : SortedMap Bytes (List Cell)} {key : Bytes} {cells cells' : List Cell}

theorem cellValues_inj {lib : Stdlib} (h : ∀ c ∈ cells, ∃ v, c = some v ∧ Storage.Normal v)
    (h' : ∀ c ∈ cells', ∃ v, c = some v ∧ Storage.Normal v)
    (he : cellValues lib cells = cellValues lib cells') : cells = cells' := by
  induction cells generalizing cells' with
  | nil =>
    cases cells' with
    | nil => rfl
    | cons c' cells' => cases he
  | cons c cells ih =>
    cases cells' with
    | nil => cases he
    | cons c' cells' =>
      obtain ⟨⟨v, rfl, hv⟩, hrest⟩ := List.forall_mem_cons.mp h
      obtain ⟨⟨v', rfl, hv'⟩, hrest'⟩ := List.forall_mem_cons.mp h'
      obtain ⟨hhead, htail⟩ := List.cons.inj he
      have hsame : v = v' := by
        rw [← hv lib, ← hv' lib]
        exact congrArg Storage.fromSQLValue hhead
      rw [hsame, ih hrest hrest' htail]

/-- The cells of a row after an assignment of proper values. -/
theorem normal_assignCells (h : GoodRow t key cells) {ws : List (Bytes × Value)}
    (hp : ∀ w ∈ ws, Storage.Proper w.2) :
    ∀ c ∈ Storage.assignCells t (.ofList (ws.map fun w => (w.1, Storage.fromSQLValue w.2))) cells,
      ∃ v, c = some v ∧ Storage.Normal v := by
  intro c hc
  obtain ⟨i, hi⟩ := List.getElem?_of_mem hc
  have hlt := (List.getElem?_eq_some_iff.mp hi).1
  rw [Storage.assignCells, List.length_mapIdx] at hlt
  obtain ⟨v, hv, hn, -⟩ := getElem?_assignCells h hp (List.getElem?_eq_getElem hlt)
  rw [hv] at hi
  exact ⟨v, (Option.some.inj hi).symm, hn⟩

/-- Setting columns leaves the table as it is exactly if they get the values they have. -/
theorem setRow_eq_iff (lib : Stdlib) (table : Bytes) (ht : GoodTable t)
    (hget : rows.get key = some cells) (h : GoodRow t key cells) {ws : List (Bytes × Value)}
    (hp : ∀ w ∈ ws, Storage.Proper w.2) :
    setRow t rows key (.ofList (ws.map fun w => (w.1, Storage.fromSQLValue w.2))) = rows ↔
      assignRow lib (t.schema table) ws (cellValues lib cells) = cellValues lib cells := by
  obtain ⟨vals, hdec, hvals⟩ := Storage.decodeRow_good ht h
  have hstored : storedRow t.engine rows key = some cells := by
    unfold storedRow
    split
    · rw [hget, Option.filter_some, if_pos h.all]
    · exact hget
  rw [setRow, hstored, Option.bind_some, hdec, ← cellValues_assignCells h]
  simp only [Storage.encodeRowCells_or hvals]
  constructor
  · intro he
    split at he
    · rename_i hne
      have hnone := congrArg (SortedMap.get · key) he
      simp only [SortedMap.get_insert, if_neg hne, SortedMap.get_erase, if_true, hget] at hnone
      cases hnone
    · rename_i hsame
      have hcells := congrArg (SortedMap.get · key) he
      simp only [not_not.mp hsame, SortedMap.get_insert, if_true, hget, Option.some.injEq] at hcells
      rw [hcells]
  · intro he
    have hcells := cellValues_inj (normal_assignCells h hp) h.normal he
    have hkey : t.schemaKey (fun name =>
        (Vals.ofList (ws.map fun w => (w.1, Storage.fromSQLValue w.2)) name).or (vals name)) =
        key := by
      rw [h.key]
      refine Storage.schemaKey_eq ht.inside fun p hpk c hc => ?_
      rw [ofList_map, hvals p c hc]
      cases hw : SortedMap.getEntry c.name ws.reverse with
      | none => rfl
      | some w =>
        have hcell := congrArg (fun cs : List Cell => cs[p]?) hcells
        obtain ⟨v, hv, -⟩ := h.getElem? (ht.inside p hpk)
        simp only [Storage.assignCells, List.getElem?_mapIdx, hc, ofList_map, hw, hv,
          Option.map_some, Option.getD_some,
          Storage.encodeVariant_fromSQLValue (hp _ (getEntry_mem hw)), Option.some.injEq] at hcell
        rw [hv]
        exact congrArg some hcell
    rw [hkey, hcells, if_neg (not_not.mpr rfl)]
    exact SortedMap.insert_eq_self hget

end Row

/-! ### The statements -/

section Statements

variable {lib : Stdlib} {e : Engine} {table : Bytes} {t : Table} {schema : TableSchema}
  {sets : List SetItem} {where_ : Expr}

theorem gives_rowSets {row : List Value} {w : List (Bytes × Value)} :
    Gives (rowSets lib schema sets where_ row) (some w) ↔
      Gives (whereTrue lib where_ (rowContext schema row)) true ∧
        Gives (evalSetsCtx lib schema (rowContext schema row) sets) w := by
  unfold rowSets
  rw [gives_bind]
  constructor
  · rintro ⟨b, hb, h⟩
    cases b with
    | false => cases gives_pure.mp h
    | true =>
      obtain ⟨w', hw, he⟩ := gives_bind.mp h
      cases gives_pure.mp he
      exact ⟨hb, hw⟩
  · rintro ⟨hb, hw⟩
    exact ⟨true, hb, gives_bind.mpr ⟨w, hw, gives_pure.mpr rfl⟩⟩

theorem selects_of_rowSets {row : List Value} (h : ∃ a, Gives (rowSets lib schema sets where_ row) a)
    (hs : selects lib schema where_ row = true) :
    Gives (rowSets lib schema sets where_ row) (some (assigned lib schema sets row)) := by
  obtain ⟨a, ha⟩ := h
  obtain ⟨b, hb, ha⟩ := gives_bind.mp ha
  rw [selects_eq hb] at hs
  subst hs
  obtain ⟨w, hw, -⟩ := gives_bind.mp ha
  exact gives_rowSets.mpr ⟨hb, SetsEvaluate.gives ⟨w, hw⟩⟩

theorem gives_rowTaken {row : List Value} :
    Gives (rowTaken lib schema where_ row) (some ⟨⟩) ↔
      Gives (whereTrue lib where_ (rowContext schema row)) true := by
  unfold rowTaken
  rw [gives_bind]
  constructor
  · rintro ⟨b, hb, h⟩
    cases b with
    | false => cases gives_pure.mp h
    | true => exact hb
  · intro hb
    exact ⟨true, hb, gives_pure.mpr rfl⟩

/-- A failed statement leaves the content of its table as it was. -/
def LeavesContent (st : Prog Engine ExecError Result) (table : Bytes) (e : Engine) : Prop :=
  ∀ err e', st.exec e = (.error err, e') → err ≠ .panic → content e' table = content e table

theorem AllOrNothing.leavesContent {st : Prog Engine ExecError Result} (h : AllOrNothing st)
    (table : Bytes) (e : Engine) : LeavesContent st table e := by
  intro err e' he _
  unfold content
  rw [h e err e' he]

/-- The result of a statement does not matter. -/
theorem leavesContent_map {x : Prog Engine ExecError ℕ} {g : ℕ → Result} {e : Engine} :
    LeavesContent (x >>= fun n => pure (g n)) table e ↔
      ∀ err e', x.exec e = (.error err, e') → err ≠ .panic →
        content e' table = content e table := by
  have hiff : ∀ err e', (x >>= fun n => pure (g n)).exec e = (.error err, e') ↔
      x.exec e = (.error err, e') := by
    intro err e'
    rw [Prog.exec_bind]
    rcases x.exec e with ⟨err' | n, e₁⟩
    · exact ⟨fun h => by cases h; rfl, fun h => by cases h; rfl⟩
    · exact ⟨nofun, nofun⟩
  simp only [LeavesContent, hiff]

/-- The rows after an UPDATE of one of them. -/
def setStep (t : Table) (table : Bytes) (rows : SortedMap Bytes (List Cell))
    (p : List Value × List (Bytes × Value)) : SortedMap Bytes (List Cell) :=
  setRow t rows (namedKey (t.schema table) p.1)
    (.ofList (p.2.map fun w => (w.1, Storage.fromSQLValue w.2)))

/-- The rows after a DELETE of one of them. -/
def takeStep (t : Table) (table : Bytes) (rows : SortedMap Bytes (List Cell))
    (p : List Value × Unit) : SortedMap Bytes (List Cell) :=
  rows.erase (namedKey (t.schema table) p.1)

/-- UPDATE that writes row by row. -/
theorem execUpdateScan_iff (h : e.tables.get table = some t) (ht : GoodTable t)
    (hr : ∀ key cells, (e.stores t.engine table).rows.get key = some cells →
      GoodRow t key cells) :
    LeavesContent (Calls.execUpdateScan direct lib (t.schema table) table sets where_) table e ↔
      ∀ pre, FirstError (rowSets lib (t.schema table) sets where_) (storedRows lib e table t) pre →
        ∀ q ∈ pre, selects lib (t.schema table) where_ q = true →
          newRow lib (t.schema table) sets q = q := by
  have hscan : LeavesContent
      (Calls.execUpdateScan direct lib (t.schema table) table sets where_) table e ↔
      LeavesContent (Calls.updateRows direct lib (t.schema table) table sets where_
        (storedRows lib e table t) >>= fun n => pure ⟨ascii "update", n⟩) table e := by
    unfold LeavesContent Calls.execUpdateScan
    rw [Prog.exec_bind_ok (exec_scan lib h ht hr)]
  rw [hscan, leavesContent_map, updateRows_direct,
    eachRow_atomic_iff (fun _ => True) (setStep t table) lib h ht hr
      (fun p m => touches_setRow t m _ _) trivial]
  swap
  · intro rows e' _ hh row set
    obtain ⟨e'', hexec, hh'⟩ := hh.update (pkValues (t.schema table)
      (rowContext (t.schema table) row)) set
    exact ⟨e'', hexec, hh', trivial⟩
  refine forall_congr' fun pre => forall_congr' fun hfirst => forall_congr' fun q =>
    forall_congr' fun hq => ?_
  obtain ⟨r, post, -, hrows, -⟩ := hfirst.error
  obtain ⟨⟨key, cells⟩, hx, rfl⟩ := List.mem_map.mp
    (show q ∈ storedRows lib e table t from hrows ▸ List.mem_append_left _ hq)
  have hget := SortedMap.get_eq_some.mpr hx
  have hgood := hr key cells hget
  have hset : ∀ w, Gives (rowSets lib (t.schema table) sets where_ (cellValues lib cells))
      (some w) → (setStep t table (e.stores t.engine table).rows (cellValues lib cells, w) =
          (e.stores t.engine table).rows ↔
        newRow lib (t.schema table) sets (cellValues lib cells) = cellValues lib cells) := by
    intro w hw
    have hws := (gives_rowSets.mp hw).2
    have hassigned : assigned lib (t.schema table) sets (cellValues lib cells) = w := by
      unfold Gives at hws
      rw [assigned, hws]
    rw [setStep, namedKey, encodePK_pkValues lib table ht hgood, newRow, hassigned]
    exact setRow_eq_iff lib table ht hget hgood (proper_evalSetsCtx
      (fun _ _ hv => proper_rowContext (proper_cellValues lib cells) hv) hws)
  constructor
  · intro hstep hsel
    have hw := selects_of_rowSets (hfirst.evaluates _ hq) hsel
    exact (hset _ hw).mp (hstep _ hw)
  · intro hnew w hw
    exact (hset w hw).mpr (hnew (selects_eq (gives_rowSets.mp hw).1))

theorem complete_of_good {rows : SortedMap Bytes (List Cell)}
    (hr : ∀ key cells, rows.get key = some cells → GoodRow t key cells) : Complete rows :=
  fun key cells hget _ hc => (hr key cells hget).isSome hc

/-- DELETE that deletes row by row. -/
theorem execDeleteScan_iff (h : e.tables.get table = some t) (ht : GoodTable t)
    (hr : ∀ key cells, (e.stores t.engine table).rows.get key = some cells →
      GoodRow t key cells) :
    LeavesContent (Calls.execDeleteScan direct lib (t.schema table) table where_) table e ↔
      ∀ pre, FirstError (rowTaken lib (t.schema table) where_) (storedRows lib e table t) pre →
        ∀ q ∈ pre, selects lib (t.schema table) where_ q = false := by
  have hscan : LeavesContent
      (Calls.execDeleteScan direct lib (t.schema table) table where_) table e ↔
      LeavesContent (Calls.deleteRows direct lib (t.schema table) table where_
        (storedRows lib e table t) >>= fun n => pure ⟨ascii "delete", n⟩) table e := by
    unfold LeavesContent Calls.execDeleteScan
    rw [Prog.exec_bind_ok (exec_scan lib h ht hr)]
  rw [hscan, leavesContent_map, deleteRows_direct,
    eachRow_atomic_iff Complete (takeStep t table) lib h ht hr
      (fun p m => touches_erase _ m) (complete_of_good hr)]
  swap
  · intro rows e' hc hh row _
    obtain ⟨e'', hexec, hh'⟩ := hh.delete hc (pkValues (t.schema table)
      (rowContext (t.schema table) row))
    exact ⟨e'', hexec, hh', hc.erase _⟩
  refine forall_congr' fun pre => forall_congr' fun hfirst => forall_congr' fun q =>
    forall_congr' fun hq => ?_
  obtain ⟨r, post, -, hrows, -⟩ := hfirst.error
  obtain ⟨⟨key, cells⟩, hx, rfl⟩ := List.mem_map.mp
    (show q ∈ storedRows lib e table t from hrows ▸ List.mem_append_left _ hq)
  have hget := SortedMap.get_eq_some.mpr hx
  constructor
  · intro hstep
    by_contra hsel
    obtain ⟨a, ha⟩ := hfirst.evaluates _ hq
    obtain ⟨b, hb, -⟩ := gives_bind.mp ha
    rw [selects_eq hb, Bool.not_eq_false] at hsel
    have herase := congrArg (SortedMap.get · key) (hstep ⟨⟩ (gives_rowTaken.mpr (hsel ▸ hb)))
    simp only [takeStep, namedKey, encodePK_pkValues lib table ht (hr key cells hget)] at herase
    simp only [SortedMap.get_erase, if_true, hget] at herase
    cases herase
  · intro hsel w hw
    rw [selects_eq (gives_rowTaken.mp hw)] at hsel
    cases hsel

theorem leavesContent_getSchema {f : TableSchema → Prog Engine ExecError Result}
    (h : e.tables.get table = some t) :
    LeavesContent (direct (Storage.getSchema table) >>= f) table e ↔
      LeavesContent (f (t.schema table)) table e := by
  unfold LeavesContent
  rw [Prog.exec_bind_ok (exec_getSchema h)]

/-- A failed UPDATE of a sound table. -/
theorem execUpdate_iff (h : e.tables.get table = some t) (ht : GoodTable t)
    (hr : ∀ key cells, (e.stores t.engine table).rows.get key = some cells →
      GoodRow t key cells) :
    LeavesContent (Calls.execUpdate direct lib table sets where_) table e ↔
      Undisturbed lib (t.schema table) (storedRows lib e table t) (.update table sets where_) := by
  have heach := @execUpdateScan_iff lib e table t sets where_ h ht hr
  rw [Calls.execUpdate, leavesContent_getSchema h, Undisturbed, updatesEach]
  dsimp only
  cases hp : pointKey lib (pkRangeFromWhere lib (t.schema table) where_) with
  | some pk =>
    exact iff_of_true ((allOrNothing_updatePoint lib _ table sets pk).leavesContent _ _)
      (by rintro ⟨⟩)
  | none =>
    cases hc : isColumnarEngine (t.schema table).engine with
    | false =>
      rw [if_neg Bool.false_ne_true, heach]
      exact ⟨fun hun _ => hun, fun hun => hun rfl⟩
    | true =>
      rw [if_pos rfl]
      cases hk : sets.any fun item => item.column ∈ pkIndex (t.schema table) with
      | true =>
        rw [Calls.execUpdateColumnar, hk, if_pos rfl, heach]
        exact ⟨fun hun _ => hun, fun hun => hun rfl⟩
      | false =>
        exact iff_of_true
          ((allOrNothing_execUpdateColumnar lib _ table sets where_ hk).leavesContent _ _)
          (by rintro ⟨⟩)

/-- A failed DELETE on a sound table. -/
theorem execDelete_iff (h : e.tables.get table = some t) (ht : GoodTable t)
    (hr : ∀ key cells, (e.stores t.engine table).rows.get key = some cells →
      GoodRow t key cells) :
    LeavesContent (Calls.execDelete direct lib table where_) table e ↔
      Undisturbed lib (t.schema table) (storedRows lib e table t) (.delete table where_) := by
  have heach := @execDeleteScan_iff lib e table t where_ h ht hr
  rw [Calls.execDelete, leavesContent_getSchema h, Undisturbed, deletesEach]
  cases hc : isColumnarEngine (t.schema table).engine with
  | false =>
    rw [heach]
    exact ⟨fun hun _ => hun, fun hun => hun rfl⟩
  | true =>
    cases hb : boundedRange (pkRangeFromWhere lib (t.schema table) where_) with
    | none =>
      rw [heach]
      exact ⟨fun hun _ => hun, fun hun => hun rfl⟩
    | some r =>
      exact iff_of_true (((allOrNothing_direct _).map _).leavesContent _ _) (by rintro ⟨⟩)

end Statements

def kvPairs : Table := ⟨[⟨[107], .int, true⟩, ⟨[118], .int, false⟩], [0], .empty, .table, 0⟩

def pairCells (k v : Int64) : List Cell := [some { i := k }, some { i := v }]

/-- The rows `1, 1` and `2, 0`. -/
def twoPairs : SortedMap Bytes (List Cell) :=
  (SortedMap.empty.insert (Storage.encodeKey [{ i := 1 }]) (pairCells 1 1)).insert
    (Storage.encodeKey [{ i := 2 }]) (pairCells 2 0)

def pairsEngine : Engine where
  defs := fun n => if n = [116] then some kvPairs.def_ else none
  tables := SortedMap.empty.insert [116] kvPairs
  stores := fun kind n => if kind = .table ∧ n = [116] then ⟨twoPairs, .empty, 2⟩ else .empty

/-- `UPDATE t SET v = left / v` -/
def divideByV (left : Expr) : RowStmt :=
  .update [116] [⟨[118], .binary .div left (.ident [118])⟩] .nil

theorem sound_pairsEngine : SoundTable pairsEngine [116] := by
  intro t ht
  obtain rfl : kvPairs = t := Option.some.inj ht
  refine ⟨⟨by decide, by decide, by decide⟩, fun key cells hget => ?_⟩
  have hentries : twoPairs.entries = [(Storage.encodeKey [{ i := 1 }], pairCells 1 1),
      (Storage.encodeKey [{ i := 2 }], pairCells 2 0)] := by decide +kernel
  have hmem := SortedMap.get_eq_some.mp
    (show twoPairs.get key = some cells from hget)
  rw [hentries] at hmem
  have hnormal : ∀ i j : Int64, ∀ c ∈ pairCells i j, ∃ v, c = some v ∧ Storage.Normal v := by
    intro i j c hc
    simp only [pairCells, List.mem_cons, List.not_mem_nil, or_false] at hc
    rcases hc with rfl | rfl <;> exact ⟨_, rfl, fun _ => rfl⟩
  simp only [List.mem_cons, Prod.mk.injEq, List.not_mem_nil, or_false] at hmem
  rcases hmem with ⟨rfl, rfl⟩ | ⟨rfl, rfl⟩ <;> exact ⟨rfl, hnormal _ _, rfl⟩

end Ydbgo.Sql
