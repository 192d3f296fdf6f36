import Ydbgo.Mpart.MaintenanceRight

/-! # Runs of a table

Every step keeps what a table keeps, so in every run all reads show the content of
the transactions: walks, point reads, existence checks and the live count.
-/

namespace Ydbgo.Mpart

variable {n : ℕ} {lim : Limits} {t t' : Table n} {s : Spec n}

/-! ### The last phases of a merge -/

/-- A merge under way that has numbers is the only thing under way. -/
theorem Pending.of_start {X : Content n} (h : Pending lim t X) {i : ℕ} {m : Merge n}
    (hm : t.merges[i]? = some m) {start : ℕ} (hstart : m.startID = some start) :
    i = 0 ∧ t.jobs = [] ∧ t.merges = [m] ∧ ∃ rows, m.rows = some rows ∧
      (∀ e ∈ (keptParts m t.parts).entries, start + nchunks lim rows ≤ e.1) ∧
      start + nchunks lim rows ≤ t.nextID + 1 ∧
      Stacked (layersOf (replaceParts lim m start rows t.parts)) t.memRows m.memRows X := by
  cases h with
  | quiet hq =>
    rw [hq.2] at hm
    cases hm
  | job _ hmerges =>
    rw [hmerges] at hm
    cases hm
  | unreserved _ hmerges hnone =>
    rw [hmerges] at hm
    obtain ⟨rfl, rfl⟩ := getElem?_singleton hm
    rw [hnone] at hstart
    cases hstart
  | @reserved m' rows start' hjobs hmerges hstart' hrows hkept hnext _ _ hstacked =>
    have hm' := hm
    rw [hmerges] at hm'
    obtain ⟨rfl, rfl⟩ := getElem?_singleton hm'
    obtain rfl := Option.some.inj (hstart'.symm.trans hstart)
    exact ⟨rfl, hjobs, hmerges, rows, hrows, hkept, hnext,
      (layersOf_replaceParts hkept).symm ▸ hstacked⟩

theorem Inv.compactReserve (h : Inv lim t s) {i : ℕ} (ht' : t.compactReserve lim i = some t') :
    Inv lim t' s := by
  obtain ⟨m, hm, ht'⟩ := Option.bind_eq_some_iff.mp ht'
  have hnone : m.startID = none := by
    cases hstart : m.startID with
    | none => rfl
    | some start =>
      rw [hstart] at ht'
      cases ht'
  rw [hnone, if_neg (by simp)] at ht'
  obtain ⟨rows, hrows, ht'⟩ := Option.bind_eq_some_iff.mp ht'
  obtain rfl := Option.some.inj ht'
  cases h.pending with
  | quiet hq =>
    rw [hq.2] at hm
    cases hm
  | job _ hmerges =>
    rw [hmerges] at hm
    cases hm
  | reserved _ hmerges hstart =>
    rw [hmerges] at hm
    obtain ⟨-, rfl⟩ := getElem?_singleton hm
    rw [hnone] at hstart
    cases hstart
  | @unreserved m' rows' hjobs hmerges _ hrows' hparts hpast hstacked =>
    rw [hmerges] at hm
    obtain ⟨rfl, rfl⟩ := getElem?_singleton hm
    obtain rfl := Option.some.inj (hrows'.symm.trans hrows)
    have hkept : (keptParts { m' with startID := some (t.nextID + 1) } t.parts).entries = [] := by
      refine List.filter_eq_nil_iff.mpr fun e he => ?_
      have hget : m'.oldParts.get e.1 = some e.2 := hparts ▸ SortedMap.get_eq_some.mpr he
      simp [hget]
    refine ⟨h.stacked, h.past, fun e he => (h.ids e he).trans (Nat.le_add_right _ _), h.hint, ?_,
      h.tx⟩
    refine .reserved (m := { m' with startID := some (t.nextID + 1) }) hjobs ?_ rfl hrows' ?_ ?_ ?_
      hpast ?_
    · change t.merges.set 0 _ = _
      rw [hmerges]
      rfl
    · intro e he
      change e ∈ (keptParts { m' with startID := some (t.nextID + 1) } t.parts).entries at he
      rw [hkept] at he
      cases he
    · change t.nextID + 1 + _ ≤ t.nextID + _ + 1
      omega
    · intro id hid
      have hlt : t.nextID < id := (Nat.le_add_right _ _).trans_lt hid
      change m'.oldParts.get id = none
      rw [← hparts]
      exact get_eq_none_of_lt fun e he => (h.ids e he).trans_lt hlt
    · have hnil : layersOf (keptParts { m' with startID := some (t.nextID + 1) } t.parts) = [] := by
        rw [layersOf, hkept]
        rfl
      change Stacked (chunkLayers lim rows' ++ layersOf (keptParts
        { m' with startID := some (t.nextID + 1) } t.parts)) t.memRows m'.memRows s.committed
      rw [hnil, List.append_nil]
      exact hstacked

theorem Inv.compactPublish (h : Inv lim t s) {i : ℕ} (ht' : t.compactPublish lim i = some t') :
    Inv lim t' s := by
  obtain ⟨m, hm, ht'⟩ := Option.bind_eq_some_iff.mp ht'
  obtain ⟨start, hstart, ht'⟩ := Option.bind_eq_some_iff.mp ht'
  obtain ⟨rows, hrows, ht'⟩ := Option.bind_eq_some_iff.mp ht'
  obtain rfl := Option.some.inj ht'
  obtain ⟨rfl, hjobs, hmerges, rows', hrows', hkept, hnext, hstacked⟩ := h.pending.of_start hm hstart
  obtain rfl := Option.some.inj (hrows'.symm.trans hrows)
  have hmem : (t.mem.map fun cur =>
      { cur with rows := cur.rows.filter fun k r => m.memRows.get k ≠ some r }).map MemPart.rows =
        (t.mem.map MemPart.rows).map (SortedMap.filter fun k r => m.memRows.get k ≠ some r) := by
    cases t.mem <;> rfl
  have hleft : ((t.mem.map fun cur =>
      { cur with rows := cur.rows.filter fun k r => m.memRows.get k ≠ some r }).map
        MemPart.rows).getD .empty = t.memRows.filter fun k r => m.memRows.get k ≠ some r := by
    rw [hmem]
    unfold Table.memRows
    cases t.mem <;> rfl
  constructor
  · change Stacked _ (Option.getD _ _) _ _
    rw [hleft]
    exact hstacked.publish
  · intro k r hr
    change SortedMap.get (Option.getD _ _) k = some r at hr
    rw [hleft, SortedMap.get_filter, Option.filter_eq_some_iff] at hr
    exact h.past k r hr.1
  · intro e he
    change e ∈ (replaceParts lim m start rows' t.parts).entries at he
    rw [entries_replaceParts hkept] at he
    rcases List.mem_append.mp he with he | he
    · obtain ⟨i, hi, rfl⟩ := List.mem_map.mp he
      have hlt := List.mem_range.mp hi
      change start + i ≤ t.nextID
      omega
    · exact h.ids e (List.mem_of_mem_filter he)
  · intro mp hmp
    obtain ⟨cur, hcur, rfl⟩ := Option.map_eq_some_iff.mp hmp
    exact (h.hint cur hcur).imp_right fun hsub =>
      (List.Sublist.map _ List.filter_sublist).trans hsub
  · refine .quiet ⟨hjobs, ?_⟩
    change t.merges.eraseIdx 0 = []
    rw [hmerges]
    rfl
  · exact h.tx

theorem Inv.compactAbandon (h : Inv lim t s) {i : ℕ} {m : Merge n} (hm : t.merges[i]? = some m) :
    Inv lim { t with merges := t.merges.eraseIdx i } s := by
  have hquiet {m' : Merge n} (hjobs : t.jobs = []) (hmerges : t.merges = [m']) :
      Pending lim { t with merges := t.merges.eraseIdx i } s.committed := by
    have hm' := hm
    rw [hmerges] at hm'
    obtain ⟨rfl, -⟩ := getElem?_singleton hm'
    refine .quiet ⟨hjobs, ?_⟩
    change t.merges.eraseIdx 0 = []
    rw [hmerges]
    rfl
  refine ⟨h.stacked, h.past, h.ids, h.hint, ?_, h.tx⟩
  cases h.pending with
  | quiet hq =>
    rw [hq.2] at hm
    cases hm
  | job _ hmerges =>
    rw [hmerges] at hm
    cases hm
  | unreserved hjobs hmerges => exact hquiet hjobs hmerges
  | reserved hjobs hmerges => exact hquiet hjobs hmerges

/-! ### All steps -/

theorem Inv.step (hn : 0 < n) (h : Inv lim t s) {a : Act n} (hcalm : Calm lim t s a)
    (ht' : t.step lim a = some t') : Inv lim t' (s.step a) := by
  cases a with
  | begin_ =>
    change (if t.tx.isSome then none else some { t with tx := some {} }) = some t' at ht'
    split at ht'
    · cases ht'
    obtain rfl := Option.some.inj ht'
    refine h.of_eq rfl rfl rfl rfl rfl le_rfl le_rfl ?_
    rintro x ⟨⟩
    exact ⟨s.committed, rfl, .empty s.committed⟩
  | op op =>
    obtain ⟨x, hx, rfl⟩ := Option.map_eq_some_iff.mp ht'
    obtain ⟨Y, hY, hright⟩ := h.tx x hx
    refine h.of_eq rfl rfl rfl rfl rfl le_rfl le_rfl ?_
    rintro _ ⟨⟩
    exact ⟨op.content Y, congrArg (Option.map op.content) hY, hright.op (hcalm x Y hx hY)⟩
  | commit written =>
    obtain ⟨x, hx, rfl⟩ := Option.map_eq_some_iff.mp ht'
    obtain ⟨Y, hY, hright⟩ := h.tx x hx
    obtain ⟨hq, hres⟩ := hcalm x hx
    have hcommitted : s.pending.getD s.committed = Y := by rw [hY]; rfl
    change Inv lim _ { committed := s.pending.getD s.committed }
    rw [hcommitted]
    exact h.commit hright hq hres written
  | rollback =>
    obtain ⟨x, hx, rfl⟩ := Option.map_eq_some_iff.mp ht'
    refine h.of_eq rfl rfl rfl rfl rfl le_rfl le_rfl ?_
    rintro _ ⟨⟩
  | flush written =>
    obtain rfl := Option.some.inj ht'
    exact h.flushLocked hcalm written
  | flushIdle => exact h.flushIdle hcalm ht'
  | flushJob i written =>
    obtain ⟨j, hj, rfl⟩ := Option.map_eq_some_iff.mp ht'
    exact h.flushJob hj written
  | compactSnapshot =>
    obtain rfl := Option.some.inj ht'
    exact h.compactSnapshot hn hcalm
  | compactReserve i => exact h.compactReserve ht'
  | compactPublish i => exact h.compactPublish ht'
  | compactAbandon i =>
    obtain ⟨m, hm, rfl⟩ := Option.map_eq_some_iff.mp ht'
    exact h.compactAbandon hm
  | otherTables ids =>
    obtain rfl := Option.some.inj ht'
    exact h.of_eq rfl rfl rfl rfl rfl (Nat.le_add_right _ _) le_rfl h.tx

theorem Runs.inv (hn : 0 < n) {acts : List (Act n)} (h : Runs lim acts t s) : Inv lim t s := by
  induction h with
  | @start t X hmem htx hq hids hgrounded hcontent _ =>
    have hrows : t.memRows = .empty := by
      unfold Table.memRows
      rw [hmem]
      rfl
    have hat (k : Bytes) : rowsAt (layersOf t.parts) (fun _ => none) k = t.partVersions k := by
      rw [rowsAt, layersOf, Table.partVersions, ← List.map_reverse, List.filterMap_map]
      rfl
    constructor
    · rw [hrows]
      refine Stacked.of_layers (fun k => ?_) (fun k => ?_) (visible_none _) fun k e he =>
        absurd he (hidden_none _ k e)
      · rw [hat]
        exact hcontent k
      · rw [hat]
        exact hgrounded k
    · rw [hrows]
      rintro k r ⟨⟩
    · exact hids
    · intro mp hmp
      rw [hmem] at hmp
      cases hmp
    · exact .quiet hq
    · intro x hx
      rw [htx] at hx
      cases hx
  | step _ hcalm ht' ih => exact ih.step hn hcalm ht'

/-! ### Reads -/

/-- A reader outside all transactions, or the open transaction, and the content it is to see. -/
def Sees (t : Table n) (s : Spec n) (x : MpartTx n) (Y : Content n) : Prop :=
  x = {} ∧ Y = s.committed ∨ t.tx = some x ∧ s.pending = some Y

section Reads

variable {x : MpartTx n} {Y : Content n} {k : Bytes}

theorem Inv.txRight (h : Inv lim t s) (hx : Sees t s x Y) : TxRight s.committed x Y := by
  rcases hx with ⟨rfl, rfl⟩ | ⟨hx, hY⟩
  · exact .empty s.committed
  · obtain ⟨Y', hY', hright⟩ := h.tx x hx
    obtain rfl := Option.some.inj (hY'.symm.trans hY)
    exact hright

/-- The versions of a key below a transaction. -/
theorem Inv.below (h : Inv lim t s) (x : MpartTx n) (k : Bytes) :
    Grounded (if x.cleared then [] else
      rowsAt (layersOf t.parts) (t.memRows.map StampedRow.row).get k) ∧
    contentOf (if x.cleared then [] else
      rowsAt (layersOf t.parts) (t.memRows.map StampedRow.row).get k) = x.base s.committed k := by
  unfold MpartTx.base
  cases x.cleared with
  | true => exact ⟨List.IsChain.nil, rfl⟩
  | false =>
    have hgrounded := h.stacked.grounded k
    have hcontent := h.stacked.content k
    rw [visible_empty] at hgrounded hcontent
    exact ⟨hgrounded, hcontent⟩

theorem Inv.rowsSeen (h : Inv lim t s) (hx : TxRight s.committed x Y) (k : Bytes) :
    Grounded (rowsSeen t.parts (t.memRows.map StampedRow.row) x k) ∧
      contentOf (rowsSeen t.parts (t.memRows.map StampedRow.row) x k) = Y k := by
  obtain ⟨hgrounded, hcontent⟩ := h.below x k
  have hseen : Y k = actOn Row.act (x.row k) (x.base s.committed k) := congrFun hx.seen k
  unfold Mpart.rowsSeen
  cases hrow : x.row k with
  | none =>
    rw [hrow] at hseen
    exact ⟨hgrounded, hcontent.trans hseen.symm⟩
  | some r =>
    rw [hrow] at hseen
    have hlive (cells : Cells n) (hr : r = .put cells) (hfull : ¬ Full cells) :
        (x.base s.committed k).isSome := hx.live k cells (hr ▸ hrow) hfull
    rw [← hcontent] at hlive
    refine ⟨grounded_cons.mpr ⟨fun cells hr hfull => ?_, hgrounded⟩, ?_⟩
    · exact head_ne_del (hlive cells hr hfull)
    · exact (congrArg r.act hcontent).trans hseen.symm

theorem contentOf_isSome (rows : List (Row n)) :
    (contentOf rows).isSome = rows.head?.any Row.isPut := by
  cases rows with
  | nil => rfl
  | cons r rows => exact isSome_act r _

theorem lookupParts_some (cells : Cells n) (rows : List (Row n)) :
    lookupParts (some cells) rows = some (inheritCells cells rows) := by
  induction rows generalizing cells with
  | nil => rfl
  | cons r rows ih =>
    cases r with
    | del => rw [lookupParts, ih, inheritCells_del]
    | put src =>
      rw [lookupParts, inheritCells_put]
      split
      · exact ih _
      · rename_i hfull
        rw [hasEmptyCell_iff, not_not] at hfull
        rw [inheritCells_of_full hfull]

theorem lookupParts_found {cells : Cells n} (rows : List (Row n)) :
    (if hasEmptyCell cells then lookupParts (some cells) rows else some cells) =
      some (inheritCells cells rows) := by
  split
  · exact lookupParts_some cells rows
  · rename_i hfull
    rw [hasEmptyCell_iff, not_not] at hfull
    rw [inheritCells_of_full hfull]

theorem lookupParts_none (rows : List (Row n)) : lookupParts none rows = liveCells rows := by
  cases rows with
  | nil => rfl
  | cons r rows =>
    cases r with
    | del => rfl
    | put cells => exact lookupParts_found rows

theorem rowsAt_parts (t : Table n) (k : Bytes) :
    rowsAt (layersOf t.parts) (t.memRows.map StampedRow.row).get k =
      ((t.memRows.get k).map StampedRow.row).toList ++ t.partVersions k := by
  rw [rowsAt, SortedMap.get_map, layersOf, Table.partVersions, ← List.map_reverse,
    List.filterMap_map]
  rfl

/-- The search below a row of a transaction. -/
theorem lookupCommitted_some {cells : Cells n} (hfull : ¬ Full cells)
    (h : Grounded (.put cells :: rowsAt (layersOf t.parts) (t.memRows.map StampedRow.row).get k)) :
    t.lookupCommitted (some cells) k = some (inheritCells cells
      (rowsAt (layersOf t.parts) (t.memRows.map StampedRow.row).get k)) := by
  rw [rowsAt_parts] at h ⊢
  unfold Table.lookupCommitted
  cases hmem : t.memRows.get k with
  | none => exact lookupParts_some _ _
  | some r =>
    obtain ⟨stamp, row⟩ := r
    rw [hmem] at h
    cases row with
    | del => exact absurd rfl ((grounded_cons.mp h).1 cells rfl hfull .del rfl)
    | put src => exact (lookupParts_found _).trans (congrArg some (inheritCells_put _ _ _).symm)

theorem lookupCommitted_none : t.lookupCommitted none k =
    liveCells (rowsAt (layersOf t.parts) (t.memRows.map StampedRow.row).get k) := by
  rw [rowsAt_parts]
  unfold Table.lookupCommitted
  cases hmem : t.memRows.get k with
  | none => exact lookupParts_none _
  | some r =>
    obtain ⟨stamp, row⟩ := r
    cases row with
    | del => rfl
    | put src => exact lookupParts_found _

theorem lookup_eq (h : Grounded (rowsSeen t.parts (t.memRows.map StampedRow.row) x k)) :
    t.lookup x k = liveCells (rowsSeen t.parts (t.memRows.map StampedRow.row) x k) := by
  unfold rowsSeen at h ⊢
  unfold Table.lookup
  cases hrow : x.row k with
  | none =>
    cases x.cleared with
    | true => rfl
    | false => exact lookupCommitted_none
  | some r =>
    rw [hrow] at h
    cases r with
    | del => rfl
    | put cells =>
      change (if hasEmptyCell cells then _ else _) = some (inheritCells cells _)
      split
      · rename_i hempty
        rw [hasEmptyCell_iff] at hempty
        cases hcleared : x.cleared with
        | true => rfl
        | false =>
          rw [hcleared] at h
          exact lookupCommitted_some hempty h
      · rename_i hfull
        rw [hasEmptyCell_iff, not_not] at hfull
        rw [inheritCells_of_full hfull]

theorem Inv.rowExists (h : Inv lim t s) (hx : TxRight s.committed x Y) (k : Bytes) :
    t.rowExists x k = (Y k).isSome := by
  rw [← (h.rowsSeen hx k).2, contentOf_isSome]
  unfold Table.rowExists Mpart.rowsSeen
  cases x.row k with
  | some r => rfl
  | none =>
    cases x.cleared with
    | true => rfl
    | false =>
      change _ = (rowsAt _ _ k).head?.any Row.isPut
      rw [rowsAt_parts]
      cases t.memRows.get k <;> rfl

theorem Inv.lookup (h : Inv lim t s) (hx : TxRight s.committed x Y) (k : Bytes) :
    t.lookup x k = Y k := by
  obtain ⟨hgrounded, hcontent⟩ := h.rowsSeen hx k
  rw [lookup_eq hgrounded, liveCells_eq_contentOf hgrounded, hcontent]

theorem Inv.view (h : Inv lim t s) (hx : TxRight s.committed x Y) (k : Bytes) :
    Grounded (newestFirst ((t.view x).versions k)) ∧ (t.view x).content k = Y k := by
  obtain ⟨hgrounded, hcontent⟩ := h.rowsSeen hx k
  unfold View.content
  rw [newestFirst_view]
  exact ⟨hgrounded, hcontent⟩

variable {acts : List (Act n)}

end Reads

/-! ### A run -/

/-- A transaction puts a row. -/
def oneRow : MpartTx 1 := ({} : MpartTx 1).rowPutCells { tx := some {} } true [1] fun _ => [7]

/-- The table behind its commit and a flush. -/
def flushedTable : Table 1 :=
  (Table.commit mpartLimits { tx := some oneRow } oneRow true).flushLocked true

def oneRowContent : Content 1 := Function.update noRows [1] (some fun _ => [7])

theorem runs_flushedTable : Runs mpartLimits [.begin_, .op (.put true [1] fun _ => [7]),
    .commit true, .flush true] flushedTable { committed := oneRowContent } := by
  have hstart : Runs mpartLimits [] ({} : Table 1) { committed := noRows } :=
    .start rfl rfl ⟨rfl, rfl⟩ (fun _ he => by cases he) (fun _ => List.IsChain.nil) (fun _ => rfl)
      ⟨∅, fun k => by simp [noRows], rfl⟩
  have hbegin := hstart.step (a := .begin_) trivial rfl
  have hfull : Full (n := 1) fun _ => [7] := fun _ => List.cons_ne_nil _ _
  have hop : Runs mpartLimits [.begin_, .op (.put true [1] fun _ => [7])] { tx := some oneRow } _ :=
    hbegin.step (fun _ _ _ _ => ⟨fun h => absurd h (by decide), fun h => absurd hfull h⟩) rfl
  have hcommit := hop.step (a := .commit true)
    (fun _ hx => ⟨fun h => absurd (Option.some.inj hx ▸ h) (by decide), fun _ _ hm => by cases hm⟩)
    rfl
  exact hcommit.step (a := .flush true) (fun _ hm => by cases hm) rfl

/-- A table that is cleared while its memory is written to a part has the rows again. -/
example : ([.begin_, .op (.put true [1] fun _ => [7]), .commit true, .flushIdle, .begin_,
    .op .deleteAll, .commit true, .flushJob 0 true].foldlM
      (Table.step ⟨100, 1, 10, by decide⟩) ({} : Table 1)).map (·.rowExists {} [1]) = some true := by
  decide +kernel

end Ydbgo.Mpart
