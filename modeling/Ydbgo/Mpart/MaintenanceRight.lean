import Ydbgo.Mpart.Maintenance

/-! # What a table keeps

In every run the table has the content of its transactions, and so will the table
that the publication of a job or a merge under way leaves.
-/

namespace Ydbgo.Mpart

variable {n : ℕ}

/-- Rows that were written by past commits. -/
def Past (t : Table n) (rows : MemRows n) : Prop :=
  ∀ k r, rows.get k = some r → r.stamp ≤ t.commits

/-- What is under way leaves a table with the same content. -/
inductive Pending (lim : Limits) (t : Table n) (X : Content n) : Prop
  | quiet : t.Quiet → Pending lim t X
  | job {j : FlushJob n} : t.jobs = [j] → t.merges = [] → j.id ≤ t.nextID →
    t.parts.get j.id = none →
    (∀ cur, t.mem = some cur → cur.id ≠ j.mp →
      ∀ k r, cur.rows.get k = some r → j.rows.get k ≠ some r) →
    Past t j.rows →
    Stacked (layersOf (t.parts.insert j.id (j.rows.map StampedRow.row))) t.memRows j.rows X →
    Pending lim t X
  | unreserved {m : Merge n} {rows : PartRows n} : t.jobs = [] → t.merges = [m] →
    m.startID = none → m.rows = some rows → t.parts = m.oldParts → Past t m.memRows →
    Stacked (chunkLayers lim rows) t.memRows m.memRows X → Pending lim t X
  | reserved {m : Merge n} {rows : PartRows n} {start : ℕ} : t.jobs = [] → t.merges = [m] →
    m.startID = some start → m.rows = some rows →
    (∀ e ∈ (keptParts m t.parts).entries, start + nchunks lim rows ≤ e.1) →
    start + nchunks lim rows ≤ t.nextID + 1 → (∀ id, t.nextID < id → m.oldParts.get id = none) →
    Past t m.memRows →
    Stacked (chunkLayers lim rows ++ layersOf (keptParts m t.parts)) t.memRows m.memRows X →
    Pending lim t X

structure Inv (lim : Limits) (t : Table n) (s : Spec n) : Prop where
  stacked : Stacked (layersOf t.parts) t.memRows .empty s.committed
  past : Past t t.memRows
  ids : ∀ e ∈ t.parts.entries, e.1 ≤ t.nextID
  hint : ∀ mp, t.mem = some mp →
    mp.hint = [] ∨ (mp.rows.map StampedRow.row).entries.Sublist mp.hint
  pending : Pending lim t s.committed
  tx : ∀ x, t.tx = some x → ∃ Y, s.pending = some Y ∧ TxRight s.committed x Y

section

variable {lim : Limits} {t t' : Table n} {X Y : Content n} {s : Spec n} {x : MpartTx n}

theorem memRows_of_mem (h : t'.mem = t.mem) : t'.memRows = t.memRows := by
  unfold Table.memRows
  rw [h]

theorem memRows_some {mp : MemPart n} (h : t.mem = some mp) : t.memRows = mp.rows := by
  unfold Table.memRows
  rw [h]
  rfl

theorem Past.mono {rows : MemRows n} (h : Past t rows) (hcommits : t.commits ≤ t'.commits) :
    Past t' rows := fun k r hr => (h k r hr).trans hcommits

theorem Pending.of_eq (h : Pending lim t X) (hjobs : t'.jobs = t.jobs)
    (hmerges : t'.merges = t.merges) (hparts : t'.parts = t.parts) (hmem : t'.mem = t.mem)
    (hids : t.nextID ≤ t'.nextID) (hcommits : t.commits ≤ t'.commits) : Pending lim t' X := by
  have hrows := memRows_of_mem hmem
  cases h with
  | quiet hq => exact .quiet ⟨hjobs.trans hq.1, hmerges.trans hq.2⟩
  | job hj hm hid hnew hother hpast hstacked =>
    refine .job (hjobs.trans hj) (hmerges.trans hm) (hid.trans hids) (hparts ▸ hnew)
      (hmem ▸ hother) (hpast.mono hcommits) ?_
    rw [hparts, hrows]
    exact hstacked
  | unreserved hj hm hstart hr hold hpast hstacked =>
    refine .unreserved (hjobs.trans hj) (hmerges.trans hm) hstart hr (hparts.trans hold)
      (hpast.mono hcommits) ?_
    rw [hrows]
    exact hstacked
  | reserved hj hm hstart hr hkept hnext hold hpast hstacked =>
    refine .reserved (hjobs.trans hj) (hmerges.trans hm) hstart hr (hparts ▸ hkept)
      (hnext.trans (Nat.succ_le_succ hids)) (fun id hid => hold id (hids.trans_lt hid))
      (hpast.mono hcommits) ?_
    rw [hparts, hrows]
    exact hstacked

/-- The share of the table without the transaction is as it was. -/
theorem Inv.of_eq (h : Inv lim t s) {s' : Spec n} (hs : s'.committed = s.committed)
    (hjobs : t'.jobs = t.jobs) (hmerges : t'.merges = t.merges) (hparts : t'.parts = t.parts)
    (hmem : t'.mem = t.mem) (hids : t.nextID ≤ t'.nextID) (hcommits : t.commits ≤ t'.commits)
    (htx : ∀ x, t'.tx = some x → ∃ Y, s'.pending = some Y ∧ TxRight s'.committed x Y) :
    Inv lim t' s' := by
  have hrows := memRows_of_mem hmem
  constructor
  · rw [hs, hparts, hrows]
    exact h.stacked
  · rw [hrows]
    exact h.past.mono hcommits
  · rw [hparts]
    exact fun e he => (h.ids e he).trans hids
  · rw [hmem]
    exact h.hint
  · rw [hs]
    exact h.pending.of_eq hjobs hmerges hparts hmem hids hcommits
  · exact htx

/-! ### Commits -/

/-- A hint that is as long as the rows and in order has all of them. -/
theorem hint_eq {hint : List (Bytes × Row n)} {rows : PartRows n} (h : Ascending hint)
    (hget : ∀ e ∈ hint, rows.get e.1 = some e.2) (hlen : hint.length = rows.entries.length) :
    hint = rows.entries := by
  have hnodup {es : List (Bytes × Row n)} (hes : Ascending es) : es.Nodup :=
    List.Pairwise.imp (fun hlt he => hlt.ne (congrArg Prod.fst he)) hes
  have hsub : hint ⊆ rows.entries := fun e he => SortedMap.get_eq_some.mp (hget e he)
  have hperm := ((hnodup h).subperm hsub).perm_of_length_le hlen.ge
  have heq : (⟨hint, h⟩ : PartRows n) = rows := by
    refine SortedMap.ext_get fun k => ?_
    ext r
    rw [SortedMap.get_eq_some, SortedMap.get_eq_some]
    exact hperm.mem_iff
  exact congrArg SortedMap.entries heq

theorem MemPart.flushRows_eq {mp : MemPart n}
    (h : mp.hint = [] ∨ (mp.rows.map StampedRow.row).entries.Sublist mp.hint) :
    mp.flushRows = mp.rows.map StampedRow.row := by
  unfold MemPart.flushRows
  split
  · rename_i htaken
    obtain ⟨hlen, hascending⟩ := htaken
    have hmap : (mp.rows.map StampedRow.row).entries.length = mp.rows.entries.length :=
      List.length_map _
    have heq : (mp.rows.map StampedRow.row).entries = mp.hint := by
      rcases h with hnil | hsub
      · rw [hnil, List.length_nil] at hlen
        rw [hnil]
        exact List.eq_nil_of_length_eq_zero (hmap.trans hlen.symm)
      · exact hsub.eq_of_length (hmap.trans hlen.symm)
    refine SortedMap.ext_get fun k => ?_
    unfold SortedMap.get
    rw [heq]
  · rfl

theorem foldOverlay_shared (t : Table n) (ov : Overlay n) :
    (t.foldOverlay ov).parts = t.parts ∧ (t.foldOverlay ov).jobs = t.jobs ∧
      (t.foldOverlay ov).merges = t.merges ∧ (t.foldOverlay ov).nextID = t.nextID ∧
      (t.foldOverlay ov).commits = t.commits ∧ (t.foldOverlay ov).tx = t.tx := by
  unfold Table.foldOverlay Table.withMem
  cases t.mem <;> exact ⟨rfl, rfl, rfl, rfl, rfl, rfl⟩

theorem memRows_foldOverlay (t : Table n) (ov : Overlay n) :
    (t.foldOverlay ov).memRows = foldRows t.commits t.memRows ov.rows := by
  unfold Table.memRows Table.foldOverlay Table.withMem
  cases t.mem <;> rfl

theorem mem_foldOverlay {ov : Overlay n} {mp : MemPart n} (h : (t.foldOverlay ov).mem = some mp) :
    (mp.hint = [] ∨ t.memRows.entries = [] ∧ mp.hint = ov.hint ∧ Ascending ov.hint ∧
      ov.hint.length = ov.rows.entries.length) ∧ ∀ cur, t.mem = some cur → mp.id = cur.id := by
  have hcarried (cur : MemPart n) : (if cur.rows.entries.isEmpty && !ov.hint.isEmpty &&
      ov.hint.length == ov.rows.entries.length && decide (Ascending ov.hint) then ov.hint else []) =
        [] ∨ cur.rows.entries = [] ∧
      (if cur.rows.entries.isEmpty && !ov.hint.isEmpty &&
      ov.hint.length == ov.rows.entries.length && decide (Ascending ov.hint) then ov.hint else []) =
        ov.hint ∧ Ascending ov.hint ∧ ov.hint.length = ov.rows.entries.length := by
    split
    · rename_i hif
      simp only [Bool.and_eq_true, List.isEmpty_iff, beq_iff_eq, decide_eq_true_eq] at hif
      exact .inr ⟨hif.1.1.1, rfl, hif.2, hif.1.2⟩
    · exact .inl rfl
  unfold Table.foldOverlay Table.withMem at h
  unfold Table.memRows
  cases hmem : t.mem with
  | none =>
    rw [hmem] at h
    obtain rfl := Option.some.inj h
    refine ⟨hcarried { id := t.memParts }, ?_⟩
    rintro _ ⟨⟩
  | some cur =>
    rw [hmem] at h
    obtain rfl := Option.some.inj h
    refine ⟨hcarried cur, ?_⟩
    rintro _ ⟨⟩
    rfl

/-- A table in a commit, before its rows are folded. -/
def Table.committing (t : Table n) : Table n := { t with commits := t.commits + 1, tx := none }

theorem Past.lt {rows : MemRows n} (h : Past t rows) :
    ∀ k r, rows.get k = some r → r.stamp < t.committing.commits := fun k r hr =>
  Nat.lt_succ_of_le (h k r hr)

theorem Past.fold {rows : PartRows n} (h : Past t t.memRows) :
    ∀ k r, (foldRows t.committing.commits t.memRows rows).get k = some r →
      r.stamp ≤ t.committing.commits := by
  intro k r hr
  rw [get_foldRows] at hr
  split at hr
  · exact (h.lt k r hr).le
  · obtain rfl := Option.some.inj hr
    exact le_rfl

/-- A commit keeps what is under way: its rows are not those that were read. -/
theorem Pending.foldOverlay (h : Pending lim t X) {ov : Overlay n}
    (hlive : ∀ k cells, ov.rows.get k = some (.put cells) → ¬ Full cells → (X k).isSome) :
    Pending lim (t.committing.foldOverlay ov) (applyLayer Row.act ov.rows.get X) := by
  obtain ⟨hparts, hjobs, hmerges, hids, hcommits, -⟩ := foldOverlay_shared t.committing ov
  have hrows : (t.committing.foldOverlay ov).memRows =
      foldRows t.committing.commits t.memRows ov.rows := memRows_foldOverlay _ _
  have hmono {rows : MemRows n} (hpast : Past t rows) : Past (t.committing.foldOverlay ov) rows :=
    hpast.mono (hcommits ▸ Nat.le_succ _)
  cases h with
  | quiet hq => exact .quiet ⟨hjobs.trans hq.1, hmerges.trans hq.2⟩
  | @job j hj hm hid hnew hother hpast hstacked =>
    refine .job (hjobs.trans hj) (hmerges.trans hm) (hids ▸ hid) (hparts ▸ hnew) ?_ (hmono hpast) ?_
    · intro mp hmp hne k r hr
      rw [← memRows_some hmp, hrows, get_foldRows] at hr
      split at hr
      · cases hcur : t.mem with
        | none =>
          unfold Table.memRows at hr
          rw [hcur] at hr
          cases hr
        | some cur =>
          have hsame := (mem_foldOverlay hmp).2 cur hcur
          rw [memRows_some hcur] at hr
          exact hother cur hcur (hsame ▸ hne) k r hr
      · intro hread
        obtain rfl := Option.some.inj hr
        exact lt_irrefl _ (hpast.lt k _ hread)
    · rw [hparts, hrows]
      exact hstacked.commit hlive hpast.lt
  | unreserved hj hm hstart hr hold hpast hstacked =>
    refine .unreserved (hjobs.trans hj) (hmerges.trans hm) hstart hr (hparts.trans hold)
      (hmono hpast) ?_
    rw [hrows]
    exact hstacked.commit hlive hpast.lt
  | reserved hj hm hstart hr hkept hnext hold hpast hstacked =>
    refine .reserved (hjobs.trans hj) (hmerges.trans hm) hstart hr (hparts ▸ hkept)
      (hids ▸ hnext) (fun id hid => hold id (hids ▸ hid)) (hmono hpast) ?_
    rw [hparts, hrows]
    exact hstacked.commit hlive hpast.lt

theorem Inv.foldOverlay (h : Inv lim t s) {ov : Overlay n}
    (hlive : ∀ k cells, ov.rows.get k = some (.put cells) → ¬ Full cells →
      (s.committed k).isSome)
    (hhint : ∀ e ∈ ov.hint, ov.rows.get e.1 = some e.2) :
    Inv lim (t.committing.foldOverlay ov)
      { committed := applyLayer Row.act ov.rows.get s.committed } := by
  obtain ⟨hparts, -, -, hids, hcommits, htx⟩ := foldOverlay_shared t.committing ov
  have hrows : (t.committing.foldOverlay ov).memRows =
      foldRows t.committing.commits t.memRows ov.rows := memRows_foldOverlay _ _
  constructor
  · rw [hparts, hrows]
    exact h.stacked.commit hlive fun k r hr => by cases hr
  · intro k r hr
    rw [hrows] at hr
    rw [hcommits]
    exact h.past.fold k r hr
  · rw [hparts, hids]
    exact h.ids
  · intro mp hmp
    rcases (mem_foldOverlay hmp).1 with hnil | ⟨hempty, hhint', hascending, hlen⟩
    · exact .inl hnil
    · right
      have hmap : mp.rows.map StampedRow.row = ov.rows := by
        refine SortedMap.ext_get fun k => ?_
        have hnone : t.committing.memRows.get k = none := by
          unfold SortedMap.get
          rw [hempty]
          rfl
        rw [SortedMap.get_map, ← memRows_some hmp, memRows_foldOverlay, get_foldRows, hnone]
        cases ov.rows.get k <;> rfl
      rw [hmap, hhint', hint_eq hascending hhint hlen]
  · exact h.pending.foldOverlay hlive
  · rintro x hx
    rw [htx] at hx
    cases hx

theorem Inv.clear (hq : t.Quiet) : Inv lim { t.clear with tx := none } { committed := noRows } := by
  constructor
  · refine Stacked.of_layers (fun k => rfl) (fun k => ?_) (visible_empty _) ?_
    · exact List.IsChain.nil
    · intro k e he
      rw [hidden_empty] at he
      cases he
  · rintro k r ⟨⟩
  · rintro e he
    cases he
  · rintro mp ⟨⟩
  · exact .quiet hq
  · rintro x ⟨⟩

/-- A commit shows what its transaction has seen. -/
theorem Inv.folded (h : Inv lim t s) (hx : TxRight s.committed x Y)
    (hq : x.cleared = true → t.Quiet) : Inv lim (t.folded x) { committed := Y } := by
  have hbase : Inv lim { (if x.cleared then t.clear else t) with tx := none }
      { committed := x.base s.committed } := by
    unfold MpartTx.base
    cases hc : x.cleared with
    | true => exact .clear (hq hc)
    | false =>
      exact @Inv.of_eq _ _ _ _ _ h { committed := s.committed } rfl rfl rfl rfl rfl le_rfl le_rfl
        fun x hx => by cases hx
  have hseen : Y = applyLayer Row.act x.row (x.base s.committed) := hx.seen
  cases hov : x.overlay with
  | none =>
    have hfolded : t.folded x =
        Table.committing { (if x.cleared then t.clear else t) with tx := none } := by
      unfold Table.folded
      rw [hov]
      cases x.cleared <;> rfl
    rw [hfolded]
    have hY : Y = x.base s.committed := by
      rw [hseen]
      ext1 k
      rw [applyLayer, MpartTx.row, hov]
      rfl
    rw [hY]
    exact hbase.of_eq rfl rfl rfl rfl rfl le_rfl (Nat.le_succ _) fun x hx => by cases hx
  | some ov =>
    have hfolded : t.folded x = Table.foldOverlay
        (Table.committing { (if x.cleared then t.clear else t) with tx := none }) ov := by
      unfold Table.folded
      rw [hov]
      cases x.cleared <;> rfl
    rw [hfolded]
    have hrow : x.row = ov.rows.get := by
      ext1 k
      rw [MpartTx.row, hov]
      rfl
    rw [hseen, hrow]
    exact hbase.foldOverlay (fun k cells hk => hx.live k cells (hrow ▸ hk))
      fun e he => (hx.hint ov hov e he).1

/-! ### Flushes -/

theorem visible_none (read : MemRows n) : visible .empty read = fun _ => none := by
  ext1 k
  exact visible_of_get rfl

theorem hidden_none (read : MemRows n) (k : Bytes) (e : Row n) : hidden .empty read k ≠ some e := by
  intro he
  rw [hidden_of_get rfl] at he
  cases he

theorem get_eq_none_of_lt {parts : SortedMap ℕ (PartRows n)} {id : ℕ}
    (h : ∀ e ∈ parts.entries, e.1 < id) : parts.get id = none :=
  SortedMap.getEntry_eq_none.mpr fun v hv => lt_irrefl id (h (id, v) hv)

/-- The memory becomes the newest part. -/
theorem Pending.flush (h : Pending lim t X) (hres : t.Reserved)
    (hids : ∀ e ∈ t.parts.entries, e.1 ≤ t.nextID) {mp : MemPart n} (hempty : mp.rows = .empty)
    (hmem : t'.mem = some mp) (hjobs : t'.jobs = t.jobs) (hmerges : t'.merges = t.merges)
    (hnext : t'.nextID = t.nextID + 1) (hcommits : t'.commits = t.commits)
    (hparts : t'.parts = t.parts.insert (t.nextID + 1) (t.memRows.map StampedRow.row)) :
    Pending lim t' X := by
  have hrows : t'.memRows = .empty := (memRows_some hmem).trans hempty
  have hnew : ∀ e ∈ t.parts.entries, e.1 < t.nextID + 1 := fun e he =>
    Nat.lt_succ_of_le (hids e he)
  cases h with
  | quiet hq => exact .quiet ⟨hjobs.trans hq.1, hmerges.trans hq.2⟩
  | @job j hj hm hid hjob hother hpast hstacked =>
    have hne : t.nextID + 1 ≠ j.id := (Nat.lt_succ_of_le hid).ne'
    refine .job (hjobs.trans hj) (hmerges.trans hm) (hnext ▸ hid.trans (Nat.le_succ _)) ?_ ?_
      (hpast.mono hcommits.ge) ?_
    · rw [hparts, SortedMap.get_insert, if_neg hne]
      exact hjob
    · intro cur hcur _ k r hr
      obtain rfl := Option.some.inj (hmem.symm.trans hcur)
      rw [hempty] at hr
      cases hr
    · have hlast : ∀ e ∈ (t.parts.insert j.id (j.rows.map StampedRow.row)).entries,
          e.1 < t.nextID + 1 := by
        intro e he
        rcases SortedMap.mem_insert.mp he with rfl | ⟨-, he⟩
        · exact Nat.lt_succ_of_le hid
        · exact hnew e he
      rw [hparts, SortedMap.insert_comm _ hne, layersOf_insert hlast, hrows]
      exact hstacked.settle (visible_none _) fun k e he => absurd he (hidden_none _ k e)
  | @unreserved m rows hj hm hstart hr hold hpast hstacked =>
    exact absurd hstart (hres m (hm ▸ List.mem_singleton_self m))
  | @reserved m rows start hj hm hstart hr hkept hnext' hold hpast hstacked =>
    have hid : (m.oldParts.get (t.nextID + 1)).isNone := by
      rw [hold _ (Nat.lt_succ_self _)]
      rfl
    have hinsert : keptParts m (t.parts.insert (t.nextID + 1) (t.memRows.map StampedRow.row)) = _ :=
      keptParts_insert hid
    refine .reserved (hjobs.trans hj) (hmerges.trans hm) hstart hr ?_
      (hnext'.trans (by omega)) (fun id hid => hold id (by omega)) (hpast.mono hcommits.ge) ?_
    · rw [hparts, hinsert]
      intro e he
      rcases SortedMap.mem_insert.mp he with rfl | ⟨-, he⟩
      · exact hnext'
      · exact hkept e he
    · have hlast : ∀ e ∈ (keptParts m t.parts).entries, e.1 < t.nextID + 1 := fun e he =>
        hnew e (List.mem_of_mem_filter he)
      rw [hparts, hinsert, layersOf_insert hlast, ← List.append_assoc, hrows]
      exact hstacked.settle (visible_none _) fun k e he => absurd he (hidden_none _ k e)

theorem Inv.flushLocked (h : Inv lim t s) (hres : t.Reserved) (written : Bool) :
    Inv lim (t.flushLocked written) s := by
  unfold Table.flushLocked
  cases hmem : t.mem with
  | none => exact h
  | some mp =>
    dsimp only
    split
    · exact h
    cases written with
    | false =>
      rw [if_neg Bool.false_ne_true]
      exact h.of_eq rfl rfl rfl rfl hmem.symm (Nat.le_succ _) le_rfl h.tx
    | true =>
      have hrows : t.memRows = mp.rows := memRows_some hmem
      have hflush : mp.flushRows = t.memRows.map StampedRow.row := by
        rw [MemPart.flushRows_eq (h.hint mp hmem), hrows]
      have hlast : ∀ e ∈ t.parts.entries, e.1 < t.nextID + 1 := fun e he =>
        Nat.lt_succ_of_le (h.ids e he)
      rw [if_pos rfl, hflush]
      constructor
      · change Stacked (layersOf (t.parts.insert _ _)) .empty .empty _
        rw [layersOf_insert hlast]
        exact h.stacked.settle (visible_none _) fun k e he => absurd he (hidden_none _ k e)
      · rintro k r ⟨⟩
      · intro e he
        rcases SortedMap.mem_insert.mp he with rfl | ⟨-, he⟩
        · exact le_rfl
        · exact (hlast e he).le
      · rintro mp' ⟨⟩
        exact .inl rfl
      · exact h.pending.flush hres h.ids rfl rfl rfl rfl rfl rfl rfl
      · exact h.tx

theorem Inv.commit (h : Inv lim t s) (hx : TxRight s.committed x Y)
    (hq : x.cleared = true → t.Quiet)
    (hres : lim.flushThreshold ≤ (t.folded x).memRows.entries.length → t.Reserved)
    (written : Bool) : Inv lim (t.commit lim x written) { committed := Y } := by
  have hfolded := h.folded hx hq
  have hcount {t : Table n} {s : Spec n} (h : Inv lim t s) (c : ℤ) :
      Inv lim { t with count := c } s :=
    h.of_eq rfl rfl rfl rfl rfl le_rfl le_rfl h.tx
  have hmerges : (t.folded x).merges = t.merges := by
    unfold Table.folded
    cases x.overlay with
    | none => cases x.cleared <;> rfl
    | some ov =>
      refine (foldOverlay_shared _ ov).2.2.1.trans ?_
      cases x.cleared <;> rfl
  unfold Table.commit
  dsimp only
  split
  · rename_i hfull
    simp only [Bool.and_eq_true, decide_eq_true_eq] at hfull
    have hreserved : (t.folded x).Reserved := by
      unfold Table.Reserved
      rw [hmerges]
      exact hres hfull.2
    have hflush := hfolded.flushLocked hreserved written
    split
    · exact hcount hflush _
    · exact hflush
  · exact hcount hfolded _

/-! ### Jobs -/

theorem Inv.flushIdle (h : Inv lim t s) (hq : t.Quiet) (ht' : t.flushIdle lim = some t') :
    Inv lim t' s := by
  unfold Table.flushIdle at ht'
  cases hmem : t.mem with
  | none =>
    rw [hmem] at ht'
    cases ht'
  | some mp =>
    rw [hmem] at ht'
    dsimp only at ht'
    split at ht'
    · cases ht'
    obtain rfl := Option.some.inj ht'
    have hrows : t.memRows = mp.rows := memRows_some hmem
    have hlast : ∀ e ∈ t.parts.entries, e.1 < t.nextID + 1 := fun e he =>
      Nat.lt_succ_of_le (h.ids e he)
    constructor
    · exact hrows ▸ h.stacked
    · exact hrows ▸ h.past
    · exact fun e he => (hlast e he).le
    · rintro mp' ⟨⟩
      exact h.hint mp hmem
    · refine .job (j := ⟨mp.id, mp.rows, t.nextID + 1⟩) ?_ hq.2 le_rfl (get_eq_none_of_lt hlast)
        ?_ (hrows ▸ h.past) ?_
      · change t.jobs ++ _ = _
        rw [hq.1]
        rfl
      · rintro cur ⟨⟩ hne
        exact absurd rfl hne
      · change Stacked (layersOf (t.parts.insert _ _)) mp.rows mp.rows _
        rw [layersOf_insert hlast]
        refine (hrows ▸ h.stacked).settle (visible_self _) fun k e he => ?_
        rwa [hidden_self] at he
    · exact h.tx

theorem getElem?_singleton {α : Type} {a b : α} {i : ℕ} (h : [a][i]? = some b) :
    i = 0 ∧ a = b := by
  cases i with
  | zero => exact ⟨rfl, Option.some.inj h⟩
  | succ i => cases h

theorem hint_afterJob (cur : MemPart n) (j : FlushJob n) (written : Bool) :
    (cur.afterJob j written).hint = cur.hint := by
  unfold MemPart.afterJob
  split <;> rfl

theorem rows_afterJob_false (cur : MemPart n) (j : FlushJob n) :
    (cur.afterJob j false).rows = cur.rows := by
  unfold MemPart.afterJob
  split <;> rfl

/-- Rows of another `memPart` are not those of the job. -/
theorem rows_afterJob {cur : MemPart n} {j : FlushJob n}
    (h : cur.id ≠ j.mp → ∀ k r, cur.rows.get k = some r → j.rows.get k ≠ some r) :
    (cur.afterJob j true).rows = cur.rows.filter fun k r => j.rows.get k ≠ some r := by
  unfold MemPart.afterJob
  split
  · rfl
  · rename_i hne
    refine SortedMap.ext_get fun k => ?_
    rw [SortedMap.get_filter]
    cases hr : cur.rows.get k with
    | none => rfl
    | some r => simp [Option.filter, h hne k r hr]

theorem memRows_flushJobAsync {j : FlushJob n} {written : Bool} {f : MemRows n → MemRows n}
    (hempty : f .empty = .empty)
    (h : ∀ cur, t.mem = some cur → (cur.afterJob j written).rows = f cur.rows) :
    (t.flushJobAsync j written).memRows = f t.memRows := by
  unfold Table.memRows Table.flushJobAsync
  cases hmem : t.mem with
  | none => exact hempty.symm
  | some cur => exact h cur hmem

/-- A job publishes its part, or has failed to write it. -/
theorem Inv.flushJob (h : Inv lim t s) {i : ℕ} {j : FlushJob n} (hj : t.jobs[i]? = some j)
    (written : Bool) :
    Inv lim { t.flushJobAsync j written with jobs := t.jobs.eraseIdx i } s := by
  cases h.pending with
  | quiet hq =>
    rw [hq.1] at hj
    cases hj
  | unreserved hjobs =>
    rw [hjobs] at hj
    cases hj
  | reserved hjobs =>
    rw [hjobs] at hj
    cases hj
  | @job j' hjobs hmerges hid hnew hother hpast hstacked =>
    rw [hjobs] at hj
    obtain ⟨rfl, rfl⟩ := getElem?_singleton hj
    have hjobs' : t.jobs.eraseIdx 0 = [] := by
      rw [hjobs]
      rfl
    cases written with
    | false =>
      have hrows : (t.flushJobAsync j' false).memRows = t.memRows :=
        memRows_flushJobAsync (f := id) rfl fun cur _ => rows_afterJob_false cur j'
      constructor
      · change Stacked (layersOf t.parts) (t.flushJobAsync j' false).memRows .empty s.committed
        rw [hrows]
        exact h.stacked
      · change Past t (t.flushJobAsync j' false).memRows
        rw [hrows]
        exact h.past
      · exact h.ids
      · intro mp hmp
        obtain ⟨cur, hcur, rfl⟩ := Option.map_eq_some_iff.mp hmp
        rw [hint_afterJob, rows_afterJob_false]
        exact h.hint cur hcur
      · exact .quiet ⟨hjobs', hmerges⟩
      · exact h.tx
    | true =>
      have hleft (cur : MemPart n) (hcur : t.mem = some cur) : (cur.afterJob j' true).rows =
          cur.rows.filter fun k r => j'.rows.get k ≠ some r := rows_afterJob (hother cur hcur)
      have hrows : (t.flushJobAsync j' true).memRows =
          t.memRows.filter fun k r => j'.rows.get k ≠ some r :=
        memRows_flushJobAsync (f := SortedMap.filter fun k r => j'.rows.get k ≠ some r) rfl hleft
      constructor
      · change Stacked (layersOf (t.parts.insert j'.id (j'.rows.map StampedRow.row)))
          (t.flushJobAsync j' true).memRows .empty s.committed
        rw [hrows]
        exact hstacked.publish
      · change Past t (t.flushJobAsync j' true).memRows
        rw [hrows]
        intro k r hr
        rw [SortedMap.get_filter, Option.filter_eq_some_iff] at hr
        exact h.past k r hr.1
      · intro e he
        rcases SortedMap.mem_insert.mp he with rfl | ⟨-, he⟩
        · exact hid
        · exact h.ids e he
      · intro mp hmp
        obtain ⟨cur, hcur, rfl⟩ := Option.map_eq_some_iff.mp hmp
        rw [hint_afterJob, hleft cur hcur]
        exact (h.hint cur hcur).imp_right fun hsub =>
          (List.Sublist.map _ List.filter_sublist).trans hsub
      · exact .quiet ⟨hjobs', hmerges⟩
      · exact h.tx

/-! ### Merges -/

theorem memLayer_act (h : Stacked (layersOf t.parts) t.memRows .empty X) {k : Bytes} {e : Row n}
    (he : (t.memRows.map StampedRow.row).get k = some e) : e.act (X k) = X k := by
  have htop := congrFun h.leads.top_eq k
  rwa [visible_empty, applyLayer, he] at htop

theorem Inv.compactSnapshot (hn : 0 < n) (h : Inv lim t s) (hq : t.Quiet) :
    Inv lim t.compactSnapshot s := by
  have hstacked := h.stacked
  obtain ⟨rows, hrows, hget⟩ := Merge.rows_right (m := ⟨t.parts, t.memRows, t.count, none⟩)
    (X := s.committed) hn (fun k => visible_empty t.memRows ▸ hstacked.content k)
    fun k => visible_empty t.memRows ▸ hstacked.grounded k
  have hat (k : Bytes) : rowsAt (chunkLayers lim rows) (fun _ => none) k =
      ((s.committed k).map Row.put).toList := by
    rw [rowsAt_chunkLayers, hget]
  have hpending : Pending lim t.compactSnapshot s.committed := by
    refine .unreserved (m := ⟨t.parts, t.memRows, t.count, none⟩) hq.1 ?_ rfl hrows rfl h.past ?_
    · change t.merges ++ _ = _
      rw [hq.2]
      rfl
    · refine Stacked.of_layers (fun k => ?_) (fun k => ?_) (visible_self _) fun k e he => ?_
      · rw [hat]
        cases s.committed k <;> rfl
      · rw [hat]
        cases s.committed k with
        | none => exact List.IsChain.nil
        | some cells => exact List.IsChain.singleton _
      · change hidden t.memRows t.memRows k = some e at he
        rw [hidden_self] at he
        exact memLayer_act hstacked he
  exact ⟨h.stacked, h.past, h.ids, h.hint, hpending, h.tx⟩

end

end Ydbgo.Mpart
