import Ydbgo.Lib.Layers
import Ydbgo.Mpart.Table
import Ydbgo.Mpart.WalkRight

/-! # Parts and memory as layers

The parts of a table and its rows in memory are layers of edits. Rows that a job
or a merge has read stay in memory until its parts are published, so a second stack
stands beside that of the table: the one that the publication leaves. Both lead to
the same content, and a commit writes to both.
-/

namespace Ydbgo.Mpart

open SortedMap (getEntry)

variable {n : ℕ}

abbrev Layer (n : ℕ) : Type := Bytes → Option (Row n)

abbrev Content (n : ℕ) : Type := Bytes → Option (Cells n)

def noRows : Content n := fun _ => none

def layersOf (parts : SortedMap ℕ (PartRows n)) : List (Layer n) := parts.entries.map (·.2.get)

/-- The rows in memory that were not read. -/
def visible (mem read : MemRows n) : Layer n := fun k =>
  (mem.get k).bind fun r => if read.get k = some r then none else some r.row

/-- The rows in memory that were read. -/
def hidden (mem read : MemRows n) : Layer n := fun k =>
  (mem.get k).bind fun r => if read.get k = some r then some r.row else none

/-- The versions of a key, the newest first. -/
def rowsAt (layers : List (Layer n)) (top : Layer n) (k : Bytes) : List (Row n) :=
  (top k).toList ++ layers.reverse.filterMap (· k)

/-- The layers and the rows in memory that were not read have that content. -/
structure Stacked (layers : List (Layer n)) (mem read : MemRows n) (X : Content n) : Prop where
  leads : Leads Row.act noRows layers (visible mem read) (hidden mem read) X
  grounded : ∀ k, Grounded (rowsAt layers (visible mem read) k)

section Rows

variable {layers : List (Layer n)} {top full : Layer n} {mem read : MemRows n} {X : Content n}
  {k : Bytes} {r : Row n} {rows : List (Row n)}

theorem act_fill (cells src : Cells n) (x : Option (Cells n)) :
    (Row.put (fillEmptyCells cells src)).act x = (Row.put cells).act ((Row.put src).act x) := by
  cases x with
  | none => rfl
  | some old => exact congrArg some (fillEmptyCells_assoc _ _ _)

theorem act_full {cells : Cells n} (h : Full cells) (x : Option (Cells n)) :
    (Row.put cells).act x = some cells := by
  cases x with
  | none => rfl
  | some old => exact congrArg some (fillEmptyCells_of_full h old)

theorem isSome_act (r : Row n) (x : Option (Cells n)) : (r.act x).isSome = r.isPut := by
  cases r with
  | del => rfl
  | put cells => cases x <;> rfl

theorem contentOf_cons (r : Row n) (rows : List (Row n)) :
    contentOf (r :: rows) = r.act (contentOf rows) := rfl

/-- A key whose newest version is a tombstone has no cells. -/
theorem head_ne_del (h : (contentOf rows).isSome) : ∀ r ∈ rows.head?, r ≠ .del := by
  cases rows with
  | nil => simp
  | cons r rows =>
    rintro r' hr' rfl
    obtain rfl : r = .del := by simpa using hr'
    cases h

theorem grounded_cons : Grounded (r :: rows) ↔
    (∀ cells, r = .put cells → ¬ Full cells → ∀ o ∈ rows.head?, o ≠ .del) ∧ Grounded rows := by
  unfold Grounded
  rw [List.isChain_cons]
  constructor
  · rintro ⟨hhead, htail⟩
    exact ⟨fun cells hr hfull o ho => hhead o ho cells hr hfull, htail⟩
  · rintro ⟨hhead, htail⟩
    exact ⟨fun o ho cells hr hfull => hhead cells hr hfull o ho, htail⟩

theorem contentOf_rowsAt (layers : List (Layer n)) (top : Layer n) (k : Bytes) :
    contentOf (rowsAt layers top k) = applyLayer Row.act top (stack Row.act layers noRows) k := by
  have hlayers : contentOf (layers.reverse.filterMap (· k)) = stack Row.act layers noRows k := by
    induction layers using List.reverseRecOn with
    | nil => rfl
    | append_singleton layers L ih =>
      rw [List.reverse_append, stack_append, List.reverse_singleton, List.singleton_append,
        List.filterMap_cons]
      change _ = actOn Row.act (L k) _
      cases hL : L k with
      | none => exact ih
      | some r => exact congrArg r.act ih
  rw [rowsAt, applyLayer, ← hlayers]
  cases top k <;> rfl

theorem rowsAt_none (h : top k = none) :
    rowsAt layers top k = layers.reverse.filterMap (· k) := by
  rw [rowsAt, h]
  rfl

theorem rowsAt_some (h : top k = some r) :
    rowsAt layers top k = r :: layers.reverse.filterMap (· k) := by
  rw [rowsAt, h]
  rfl

theorem rowsAt_append (layers : List (Layer n)) (full : Layer n) (k : Bytes) :
    rowsAt (layers ++ [full]) (fun _ => none) k = rowsAt layers full k := by
  unfold rowsAt
  rw [List.reverse_append, List.reverse_singleton, List.singleton_append, List.filterMap_cons]
  cases full k <;> rfl

theorem visible_of_get (h : mem.get k = none) : visible mem read k = none := by
  rw [visible, h]
  rfl

theorem hidden_of_get (h : mem.get k = none) : hidden mem read k = none := by
  rw [hidden, h]
  rfl

/-- A row in memory was read or not. -/
theorem visible_or_hidden {r : StampedRow n} (h : mem.get k = some r) :
    visible mem read k = some r.row ∧ hidden mem read k = none ∨
      visible mem read k = none ∧ hidden mem read k = some r.row := by
  simp only [visible, hidden, h, Option.bind_some]
  by_cases hread : read.get k = some r
  · exact .inr ⟨if_pos hread, if_pos hread⟩
  · exact .inl ⟨if_neg hread, if_neg hread⟩

/-- Nothing was read yet. -/
theorem visible_empty (mem : MemRows n) : visible mem .empty = (mem.map StampedRow.row).get := by
  ext1 k
  rw [SortedMap.get_map]
  cases h : mem.get k with
  | none => exact visible_of_get h
  | some r =>
    rw [visible, h]
    rfl

theorem hidden_empty (mem : MemRows n) : hidden mem .empty = fun _ => none := by
  ext1 k
  cases h : mem.get k with
  | none => exact hidden_of_get h
  | some r =>
    rw [hidden, h]
    rfl

/-- All was read. -/
theorem visible_self (mem : MemRows n) : visible mem mem = fun _ => none := by
  ext1 k
  cases h : mem.get k with
  | none => exact visible_of_get h
  | some r =>
    rw [visible, h]
    exact if_pos rfl

theorem hidden_self (mem : MemRows n) : hidden mem mem = (mem.map StampedRow.row).get := by
  ext1 k
  rw [SortedMap.get_map]
  cases h : mem.get k with
  | none => exact hidden_of_get h
  | some r =>
    rw [hidden, h]
    exact if_pos rfl

theorem get_foldRows (stamp : ℕ) (mem : MemRows n) (rows : PartRows n) (k : Bytes) :
    (foldRows stamp mem rows).get k = match rows.get k with
      | none => mem.get k
      | some r => some ⟨stamp, foldRow (mem.get k) r⟩ := by
  obtain ⟨es, hes⟩ := rows
  unfold foldRows SortedMap.get
  change getEntry k (List.foldl _ mem es).entries = _
  induction es generalizing mem with
  | nil => rfl
  | cons e es ih =>
    obtain ⟨hlt, hes⟩ := List.pairwise_cons.mp hes
    rw [List.foldl_cons, ih _ hes, SortedMap.getEntry_cons]
    change (match getEntry k es with
      | none => (mem.insert e.1 _).get k
      | some r => some ⟨stamp, foldRow ((mem.insert e.1 _).get k) r⟩) = _
    rw [SortedMap.get_insert]
    by_cases he : e.1 = k
    · subst he
      have hnone : getEntry e.1 es = none :=
        SortedMap.getEntry_eq_none.mpr fun v hv => lt_irrefl e.1 (hlt (e.1, v) hv)
      rw [hnone, if_pos rfl, if_pos rfl]
    · rw [if_neg he, if_neg he]
      rfl

end Rows

/-! ### What keeps the content -/

namespace Stacked

variable {layers : List (Layer n)} {mem mem' read read' : MemRows n} {X : Content n}

theorem content (h : Stacked layers mem read X) (k : Bytes) :
    contentOf (rowsAt layers (visible mem read) k) = X k :=
  (contentOf_rowsAt _ _ _).trans (congrFun h.leads.eq k)

theorem of_visible_none {k : Bytes} (h : Stacked layers mem read X) (hk : visible mem read k = none) :
    Grounded (layers.reverse.filterMap (· k)) ∧ contentOf (layers.reverse.filterMap (· k)) = X k := by
  have hgrounded := h.grounded k
  have hcontent := h.content k
  rw [rowsAt_none hk] at hgrounded hcontent
  exact ⟨hgrounded, hcontent⟩

/-- A transaction is folded into the memory. Its partial rows are over live ones. -/
theorem commit (h : Stacked layers mem read X) {rows : PartRows n} {stamp : ℕ}
    (hlive : ∀ k cells, rows.get k = some (.put cells) → ¬ Full cells → (X k).isSome)
    (hstamp : ∀ k r, read.get k = some r → r.stamp < stamp) :
    Stacked layers (foldRows stamp mem rows) read (applyLayer Row.act rows.get X) := by
  have hnone {k : Bytes} (hk : rows.get k = none) :
      (foldRows stamp mem rows).get k = mem.get k := by
    rw [get_foldRows, hk]
  have hvisible {k : Bytes} (hk : rows.get k = none) :
      visible (foldRows stamp mem rows) read k = visible mem read k := by
    unfold visible
    rw [hnone hk]
  have hsome {k : Bytes} {r : Row n} (hk : rows.get k = some r) :
      visible (foldRows stamp mem rows) read k = some (foldRow (mem.get k) r) ∧
        hidden (foldRows stamp mem rows) read k = none := by
    have hread : read.get k ≠ some ⟨stamp, foldRow (mem.get k) r⟩ := fun hr =>
      lt_irrefl _ (hstamp k _ hr)
    unfold visible hidden
    rw [get_foldRows, hk]
    exact ⟨if_neg hread, if_neg hread⟩
  have hdel {k : Bytes} (hk : visible mem read k = some .del) : X k = none := by
    have htop := congrFun h.leads.top_eq k
    rw [applyLayer, hk] at htop
    exact htop.symm
  constructor
  · refine h.leads.write Row.act_idem ?_ ?_
    · intro k x hx
      cases hk : rows.get k with
      | none =>
        rw [hvisible hk]
        rfl
      | some r =>
        rw [(hsome hk).1]
        change (foldRow (mem.get k) r).act x = r.act (actOn Row.act (visible mem read k) x)
        cases hmem : mem.get k with
        | none =>
          rw [visible_of_get hmem]
          rfl
        | some s =>
          obtain ⟨stamp', old⟩ := s
          cases r with
          | del => cases old <;> rfl
          | put cells =>
            cases old with
            | put src =>
              rcases visible_or_hidden hmem with ⟨hv, -⟩ | ⟨hv, hh⟩
              · rw [hv]
                exact act_fill cells src x
              · rw [hv]
                exact (act_fill cells src x).trans (congrArg _ (hx _ hh))
            | del =>
              rcases visible_or_hidden hmem with ⟨hv, -⟩ | ⟨hv, hh⟩
              · have hfull : Full cells := by
                  by_contra hfull
                  have := hlive k cells hk hfull
                  simp [hdel hv] at this
                exact (act_full hfull x).trans (act_full hfull _).symm
              · rw [hv]
                rfl
    · intro k e he
      cases hk : rows.get k with
      | none =>
        refine ⟨rfl, ?_⟩
        unfold hidden at he ⊢
        rwa [hnone hk] at he
      | some r =>
        rw [(hsome hk).2] at he
        cases he
  · intro k
    cases hk : rows.get k with
    | none =>
      have hsame : rowsAt layers (visible (foldRows stamp mem rows) read) k =
          rowsAt layers (visible mem read) k := by
        rw [rowsAt, hvisible hk, rowsAt]
      exact hsame ▸ h.grounded k
    | some r =>
      rw [rowsAt_some (hsome hk).1]
      have hgrounded := h.grounded k
      have holder : Grounded (layers.reverse.filterMap (· k)) := by
        cases hv : visible mem read k with
        | none => exact (h.of_visible_none hv).1
        | some r' =>
          rw [rowsAt_some hv] at hgrounded
          exact (grounded_cons.mp hgrounded).2
      refine grounded_cons.mpr ⟨?_, holder⟩
      have hover (cells : Cells n) (hr : r = .put cells) (hfull : ¬ Full cells)
          (hv : visible mem read k = none) :
          ∀ o ∈ (layers.reverse.filterMap (· k)).head?, o ≠ .del := by
        apply head_ne_del
        rw [(h.of_visible_none hv).2]
        exact hlive k cells (hr ▸ hk) hfull
      intro cells hfold hfull
      cases r with
      | del => cases hmem : mem.get k <;> simp [hmem, foldRow] at hfold
      | put cells' =>
        cases hmem : mem.get k with
        | none =>
          rw [hmem] at hfold
          obtain rfl : cells' = cells := Row.put.inj hfold
          exact hover _ rfl hfull (visible_of_get hmem)
        | some s =>
          obtain ⟨stamp', old⟩ := s
          rw [hmem] at hfold
          cases old with
          | put src =>
            obtain rfl : fillEmptyCells cells' src = cells := Row.put.inj hfold
            rcases visible_or_hidden hmem with ⟨hv, -⟩ | ⟨hv, -⟩
            · rw [rowsAt_some hv] at hgrounded
              exact (grounded_cons.mp hgrounded).1 src rfl fun hsrc =>
                hfull (full_fillEmptyCells hsrc)
            · refine hover cells' rfl (fun hcells => hfull ?_) hv
              rwa [fillEmptyCells_of_full hcells]
          | del =>
            obtain rfl : cells' = cells := Row.put.inj hfold
            rcases visible_or_hidden hmem with ⟨hv, -⟩ | ⟨hv, -⟩
            · have hlive' := hlive k cells' hk hfull
              simp [hdel hv] at hlive'
            · exact hover _ rfl hfull hv

/-- The memory becomes a part. Its rows stay in memory as read ones, or not at all. -/
theorem settle (h : Stacked layers mem read X) (hvisible : visible mem' read' = fun _ => none)
    (hhidden : ∀ k e, hidden mem' read' k = some e → (mem.map StampedRow.row).get k = some e) :
    Stacked (layers ++ [(mem.map StampedRow.row).get]) mem' read' X := by
  have hfull (k : Bytes) : (mem.map StampedRow.row).get k = visible mem read k ∨
      visible mem read k = none ∧ hidden mem read k = (mem.map StampedRow.row).get k := by
    rw [SortedMap.get_map]
    cases hmem : mem.get k with
    | none => exact .inl (visible_of_get hmem).symm
    | some r =>
      rcases visible_or_hidden hmem with ⟨hv, -⟩ | ⟨hv, hh⟩
      · exact .inl hv.symm
      · exact .inr ⟨hv, hh⟩
  constructor
  · rw [hvisible]
    exact h.leads.settle hfull hhidden
  · intro k
    rw [hvisible, rowsAt_append]
    rcases hfull k with hk | ⟨hv, hk⟩
    · rw [rowsAt, hk]
      exact h.grounded k
    · obtain ⟨hgrounded, hcontent⟩ := h.of_visible_none hv
      cases hrow : (mem.map StampedRow.row).get k with
      | none => rwa [rowsAt_none hrow]
      | some r =>
        rw [rowsAt_some hrow]
        refine grounded_cons.mpr ⟨fun cells hr _ => head_ne_del ?_, hgrounded⟩
        rw [hcontent, ← h.leads.hid_eq (hk.trans hrow), isSome_act, hr]
        rfl

/-- The rows that were read are taken out of the memory. -/
theorem publish (h : Stacked layers mem read X) :
    Stacked layers (mem.filter fun k r => read.get k ≠ some r) .empty X := by
  have hvisible : visible (mem.filter fun k r => read.get k ≠ some r) .empty = visible mem read := by
    ext1 k
    rw [visible_empty, SortedMap.get_map, SortedMap.get_filter]
    cases hmem : mem.get k with
    | none => exact (visible_of_get hmem).symm
    | some r => by_cases hr : read.get k = some r <;> simp [visible, hmem, hr]
  constructor
  · rw [hvisible, hidden_empty]
    exact h.leads.hide fun _ _ he => by cases he
  · rw [hvisible]
    exact h.grounded

/-- Layers without rows in memory that were not read. -/
theorem of_layers (hX : ∀ k, contentOf (rowsAt layers (fun _ => none) k) = X k)
    (hgrounded : ∀ k, Grounded (rowsAt layers (fun _ => none) k))
    (hvisible : visible mem read = fun _ => none)
    (hhidden : ∀ k e, hidden mem read k = some e → e.act (X k) = X k) :
    Stacked layers mem read X := by
  constructor
  · rw [hvisible]
    refine Leads.of_stack ?_ hhidden
    ext1 k
    exact (contentOf_rowsAt layers (fun _ => none) k).symm.trans (hX k)
  · rw [hvisible]
    exact hgrounded

end Stacked

end Ydbgo.Mpart
