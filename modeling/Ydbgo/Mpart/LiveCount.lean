import Ydbgo.Mpart.MaintenanceRuns

/-! # The live count

The count of a table is changed by what its transactions find of a key when they
write it, and set anew by a merge. If no write of a part fails in a commit it is
the number of rows of a full walk.
-/

namespace Ydbgo.Mpart

variable {n : ℕ} {lim : Limits} {t t' : Table n} {s : Spec n} {X Y : Content n} {x : MpartTx n}
  {c : ℤ}

/-! ### Counting -/

theorem LiveCount.congr (h : LiveCount X c) (hXY : ∀ k, (Y k).isSome = (X k).isSome) :
    LiveCount Y c := by
  obtain ⟨ks, hks, rfl⟩ := h
  exact ⟨ks, fun k => by rw [hks, hXY], rfl⟩

theorem liveCount_noRows : LiveCount (noRows : Content n) 0 :=
  ⟨∅, fun k => by simp [noRows], rfl⟩

/-- A key gets cells. -/
theorem LiveCount.put (h : LiveCount X c) (key : Bytes) (cells : Cells n) :
    LiveCount (Function.update X key (some cells)) (if (X key).isSome then c else c + 1) := by
  obtain ⟨ks, hks, rfl⟩ := h
  refine ⟨insert key ks, fun k => ?_, ?_⟩
  · by_cases hk : k = key
    · subst hk
      simp
    · rw [Finset.mem_insert, Function.update_of_ne hk, hks, or_iff_right hk]
  · split
    · rename_i hlive
      rw [Finset.insert_eq_of_mem ((hks key).mpr hlive)]
    · rename_i hlive
      rw [Finset.card_insert_of_notMem fun hmem => hlive ((hks key).mp hmem)]
      rfl

/-- A key loses its cells. -/
theorem LiveCount.delete (h : LiveCount X c) (key : Bytes) :
    LiveCount (Function.update X key none) (if (X key).isSome then c - 1 else c) := by
  obtain ⟨ks, hks, rfl⟩ := h
  refine ⟨ks.erase key, fun k => ?_, ?_⟩
  · by_cases hk : k = key
    · subst hk
      simp
    · rw [Finset.mem_erase, Function.update_of_ne hk, hks, and_iff_right hk]
  · split
    · rename_i hlive
      have hmem := (hks key).mpr hlive
      rw [Finset.card_erase_of_mem hmem]
      have hpos := Finset.card_pos.mpr ⟨key, hmem⟩
      omega
    · rename_i hlive
      rw [Finset.erase_eq_of_notMem fun hmem => hlive ((hks key).mp hmem)]

theorem LiveCount.length (h : LiveCount X c) {keys : List Bytes} (hkeys : keys.Nodup)
    (hmem : ∀ k, k ∈ keys ↔ (X k).isSome) : c = keys.length := by
  obtain ⟨ks, hks, rfl⟩ := h
  have heq : ks = keys.toFinset := by
    ext k
    rw [hks, List.mem_toFinset, hmem]
  rw [heq, List.toFinset_card_of_nodup hkeys]

/-! ### What the count keeps -/

/-- The count of a table, of its open transaction and of the merges under way. -/
structure Counted (t : Table n) (s : Spec n) : Prop where
  committed : LiveCount s.committed t.count
  pending : ∀ x Y, t.tx = some x → s.pending = some Y → LiveCount Y (t.countFor x)
  merges : ∀ m ∈ t.merges, ∀ rows, m.rows = some rows → (rows.entries.length : ℤ) = m.oldCount

theorem Counted.of_eq (h : Counted t s) (hcount : t'.count = t.count) (htx : t'.tx = t.tx)
    (hmerges : ∀ m' ∈ t'.merges, ∃ m ∈ t.merges, m'.oldCount = m.oldCount ∧ m'.rows = m.rows) :
    Counted t' s := by
  constructor
  · rw [hcount]
    exact h.committed
  · intro x Y hx hY
    have hpending := h.pending x Y (htx ▸ hx) hY
    unfold Table.countFor at hpending ⊢
    rwa [hcount]
  · intro m' hm' rows hrows
    obtain ⟨m, hm, hold, hsame⟩ := hmerges m' hm'
    rw [hold]
    exact h.merges m hm rows (hsame ▸ hrows)

theorem countFor_op (t : Table n) (x : MpartTx n) (d : ℤ) (ov : Option (Overlay n)) :
    t.countFor { x with delta := x.delta + d, overlay := ov } = t.countFor x + d := by
  unfold Table.countFor
  cases x.cleared with
  | true => rfl
  | false => exact (add_assoc _ _ _).symm

/-- What a transaction finds of a key changes its count as the write does. -/
theorem liveCount_op (h : Inv lim t s) (hx : TxRight s.committed x Y)
    (hcount : LiveCount Y (t.countFor x)) {op : TxOp n} (hfits : op.Fits x Y) :
    LiveCount (op.content Y) (t.countFor (op.apply t x)) := by
  cases op with
  | put check key cells =>
    have hput := hcount.put key (((Row.put cells).act (Y key)).getD cells)
    have hcontent : Function.update Y key ((Row.put cells).act (Y key)) =
        Function.update Y key (some (((Row.put cells).act (Y key)).getD cells)) := by
      congr 1
      cases Y key <;> rfl
    have hexists := h.rowExists hx key
    change LiveCount (Function.update Y key _) _
    rw [hcontent]
    cases hlive : (Y key).isSome with
    | true =>
      rw [hlive, if_pos rfl] at hput
      have hsame : t.countFor (TxOp.apply t x (.put check key cells)) = t.countFor x := by
        change t.countFor (x.rowPutCells t check key cells) = _
        unfold MpartTx.rowPutCells Table.countFor
        rw [hexists, hlive, Bool.not_true, Bool.and_false]
        rfl
      rw [hsame]
      exact hput
    | false =>
      rw [hlive, if_neg Bool.false_ne_true] at hput
      have hcheck : check = true := by
        cases check with
        | true => rfl
        | false =>
          have hlive' := hfits.1 rfl
          rw [hlive] at hlive'
          cases hlive'
      have hone : t.countFor (TxOp.apply t x (.put check key cells)) = t.countFor x + 1 := by
        change t.countFor (x.rowPutCells t check key cells) = _
        unfold MpartTx.rowPutCells
        rw [hexists, hlive, hcheck]
        exact countFor_op t x 1 _
      rw [hone]
      exact hput
  | delete key =>
    have hdelete := hcount.delete key
    have hexists := h.rowExists hx key
    have hcount' : t.countFor (TxOp.apply t x (.delete key)) =
        if (Y key).isSome then t.countFor x - 1 else t.countFor x := by
      change t.countFor (x.rowDelete t key) = _
      unfold MpartTx.rowDelete
      rw [hexists]
      cases (Y key).isSome with
      | true => exact countFor_op t x (-1) _
      | false => rfl
    rw [hcount']
    exact hdelete
  | deleteAll => exact liveCount_noRows

theorem count_foldOverlay (t : Table n) (ov : Overlay n) : (t.foldOverlay ov).count = t.count := by
  unfold Table.foldOverlay Table.withMem
  cases t.mem <;> rfl

theorem count_flushLocked (t : Table n) (written : Bool) :
    (t.flushLocked written).count = t.count ∧ (t.flushLocked written).tx = t.tx ∧
      (t.flushLocked written).merges = t.merges := by
  unfold Table.flushLocked
  cases t.mem with
  | none => exact ⟨rfl, rfl, rfl⟩
  | some mp =>
    dsimp only
    split
    · exact ⟨rfl, rfl, rfl⟩
    · cases written <;> exact ⟨rfl, rfl, rfl⟩

/-- A commit whose part is written, if it flushes. -/
theorem count_commit (t : Table n) (x : MpartTx n) :
    (t.commit lim x true).count = t.countFor x ∧ (t.commit lim x true).tx = none ∧
      (t.commit lim x true).merges = t.merges := by
  have hfolded : (t.folded x).count = (if x.cleared then 0 else t.count) ∧
      (t.folded x).tx = none ∧ (t.folded x).merges = t.merges := by
    unfold Table.folded
    cases x.overlay with
    | none => cases x.cleared <;> exact ⟨rfl, rfl, rfl⟩
    | some ov =>
      obtain ⟨-, -, hmerges, -, -, htx⟩ := foldOverlay_shared (if x.cleared then
        ({ t with commits := t.commits + 1, tx := none } : Table n).clear
        else { t with commits := t.commits + 1, tx := none }) ov
      have hcount := count_foldOverlay (if x.cleared then
        ({ t with commits := t.commits + 1, tx := none } : Table n).clear
        else { t with commits := t.commits + 1, tx := none }) ov
      refine ⟨hcount.trans ?_, htx.trans ?_, hmerges.trans ?_⟩ <;> cases x.cleared <;> rfl
  obtain ⟨hcount, htx, hmerges⟩ := hfolded
  obtain ⟨hcount', htx', hmerges'⟩ := count_flushLocked (t.folded x) true
  have hsum : (t.folded x).count + x.delta = t.countFor x := by
    rw [hcount, Table.countFor]
    cases x.cleared with
    | true => exact zero_add _
    | false => rfl
  unfold Table.commit
  dsimp only
  split
  · exact ⟨(congrArg (· + x.delta) hcount').trans hsum, htx'.trans htx, hmerges'.trans hmerges⟩
  · exact ⟨hsum, htx, hmerges⟩

/-- No commit has failed to write a part. -/
def Act.Written : Act n → Prop
  | .commit written => written = true
  | _ => True

theorem countFor_empty (t : Table n) : t.countFor {} = t.count := add_zero _

theorem Counted.step (hn : 0 < n) (hinv : Inv lim t s) (h : Counted t s) {a : Act n}
    (hcalm : Calm lim t s a) (hwritten : a.Written) (ht' : t.step lim a = some t') :
    Counted t' (s.step a) := by
  cases a with
  | begin_ =>
    change (if t.tx.isSome then none else some { t with tx := some {} }) = some t' at ht'
    split at ht'
    · cases ht'
    obtain rfl := Option.some.inj ht'
    refine ⟨h.committed, ?_, h.merges⟩
    rintro x Y ⟨⟩ ⟨⟩
    exact (countFor_empty t).symm ▸ h.committed
  | op op =>
    obtain ⟨x, hx, rfl⟩ := Option.map_eq_some_iff.mp ht'
    obtain ⟨Y, hY, hright⟩ := hinv.tx x hx
    refine ⟨h.committed, ?_, h.merges⟩
    rintro _ Y' ⟨⟩ hY'
    obtain rfl : op.content Y = Y' :=
      Option.some.inj ((congrArg (Option.map op.content) hY).symm.trans hY')
    exact liveCount_op hinv hright (h.pending x Y hx hY) (hcalm x Y hx hY)
  | commit written =>
    obtain ⟨x, hx, rfl⟩ := Option.map_eq_some_iff.mp ht'
    obtain ⟨Y, hY, -⟩ := hinv.tx x hx
    obtain rfl : written = true := hwritten
    obtain ⟨hcount, htx, hmerges⟩ := count_commit t x
    have hcommitted : s.pending.getD s.committed = Y := by rw [hY]; rfl
    change Counted _ { committed := s.pending.getD s.committed }
    rw [hcommitted]
    refine ⟨hcount ▸ h.pending x Y hx hY, ?_, hmerges ▸ h.merges⟩
    rintro _ _ hx'
    rw [htx] at hx'
    cases hx'
  | rollback =>
    obtain ⟨x, hx, rfl⟩ := Option.map_eq_some_iff.mp ht'
    refine ⟨h.committed, ?_, h.merges⟩
    rintro _ _ ⟨⟩
  | flush written =>
    obtain rfl := Option.some.inj ht'
    obtain ⟨hcount, htx, hmerges⟩ := count_flushLocked t written
    exact h.of_eq hcount htx fun m hm => ⟨m, hmerges ▸ hm, rfl, rfl⟩
  | flushIdle =>
    change t.flushIdle lim = some t' at ht'
    unfold Table.flushIdle at ht'
    split at ht'
    · cases ht'
    split at ht'
    · cases ht'
    obtain rfl := Option.some.inj ht'
    exact h.of_eq rfl rfl fun m hm => ⟨m, hm, rfl, rfl⟩
  | flushJob i written =>
    obtain ⟨j, -, rfl⟩ := Option.map_eq_some_iff.mp ht'
    exact h.of_eq rfl rfl fun m hm => ⟨m, hm, rfl, rfl⟩
  | compactSnapshot =>
    obtain rfl := Option.some.inj ht'
    have hstacked := hinv.stacked
    obtain ⟨rows, hrows, hget⟩ := Merge.rows_right (m := ⟨t.parts, t.memRows, t.count, none⟩)
      (X := s.committed) hn (fun k => visible_empty t.memRows ▸ hstacked.content k)
      fun k => visible_empty t.memRows ▸ hstacked.grounded k
    refine ⟨h.committed, h.pending, fun m hm rows' hrows' => ?_⟩
    rcases List.mem_append.mp hm with hm | hm
    · exact h.merges m hm rows' hrows'
    obtain rfl := List.mem_singleton.mp hm
    obtain rfl := Option.some.inj (hrows.symm.trans hrows')
    have hlength := h.committed.length rows.nodup_keys fun k => by
      rw [SortedMap.mem_keys, hget, Option.isSome_map]
    rw [SortedMap.keys, List.length_map] at hlength
    exact hlength.symm
  | compactReserve i =>
    obtain ⟨m, hm, ht'⟩ := Option.bind_eq_some_iff.mp ht'
    split at ht'
    · cases ht'
    obtain ⟨rows, hrows, ht'⟩ := Option.bind_eq_some_iff.mp ht'
    obtain rfl := Option.some.inj ht'
    refine h.of_eq rfl rfl fun m' hm' => ?_
    rcases List.mem_or_eq_of_mem_set hm' with hm' | rfl
    · exact ⟨m', hm', rfl, rfl⟩
    · exact ⟨m, List.mem_of_getElem? hm, rfl, rfl⟩
  | compactPublish i =>
    obtain ⟨m, hm, ht'⟩ := Option.bind_eq_some_iff.mp ht'
    obtain ⟨start, hstart, ht'⟩ := Option.bind_eq_some_iff.mp ht'
    obtain ⟨rows, hrows, ht'⟩ := Option.bind_eq_some_iff.mp ht'
    obtain rfl := Option.some.inj ht'
    have hcount : (rows.entries.length : ℤ) + (t.count - m.oldCount) = t.count := by
      rw [h.merges m (List.mem_of_getElem? hm) rows hrows]
      omega
    exact h.of_eq hcount rfl fun m' hm' => ⟨m', List.mem_of_mem_eraseIdx hm', rfl, rfl⟩
  | compactAbandon i =>
    obtain ⟨m, -, rfl⟩ := Option.map_eq_some_iff.mp ht'
    exact h.of_eq rfl rfl fun m' hm' => ⟨m', List.mem_of_mem_eraseIdx hm', rfl, rfl⟩
  | otherTables ids =>
    obtain rfl := Option.some.inj ht'
    exact h.of_eq rfl rfl fun m hm => ⟨m, hm, rfl, rfl⟩

theorem Runs.counted (hn : 0 < n) {acts : List (Act n)} (h : Runs lim acts t s)
    (hwritten : ∀ a ∈ acts, a.Written) : Counted t s := by
  induction h with
  | @start t X hmem htx hq hids hgrounded hcontent hcount =>
    refine ⟨hcount, ?_, fun m hm => ?_⟩
    · intro x Y hx
      rw [htx] at hx
      cases hx
    · rw [hq.2] at hm
      cases hm
  | @step acts t t' s a hruns hcalm ht' ih =>
    have hold : ∀ a ∈ acts, a.Written := fun a ha => hwritten a (List.mem_append_left _ ha)
    exact (ih hold).step hn (hruns.inv hn) hcalm
      (hwritten a (List.mem_append_right _ (List.mem_singleton_self a))) ht'

end Ydbgo.Mpart
