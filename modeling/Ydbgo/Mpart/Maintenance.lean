import Ydbgo.Mpart.TableLayers

/-! # Maintenance is invisible

A table shows the content that its transactions have written, whatever is flushed
and merged in the meantime. This needs that one job or merge is under way at a
time, that the table is not cleared meanwhile, and that no part is published
between the snapshot of a merge and the reservation of its numbers.
-/

namespace Ydbgo.Mpart

variable {n : ℕ}

/-! ### The content of a table -/

/-- What the transactions have written, and what the open one sees. -/
structure Spec (n : ℕ) where
  committed : Content n
  pending : Option (Content n) := none

def TxOp.content (Y : Content n) : TxOp n → Content n
  | put _ key cells => Function.update Y key ((Row.put cells).act (Y key))
  | delete key => Function.update Y key none
  | deleteAll => noRows

def Spec.step (s : Spec n) : Act n → Spec n
  | .begin_ => { s with pending := some s.committed }
  | .op op => { s with pending := s.pending.map op.content }
  | .commit _ => { committed := s.pending.getD s.committed }
  | .rollback => { s with pending := none }
  | _ => s

/-- What the callers of a transaction keep to. A partial row is written over a live row, and only
once in a transaction. A row that the transaction has put is not deleted in it. -/
def TxOp.Fits (x : MpartTx n) (Y : Content n) : TxOp n → Prop
  | put check key cells =>
    (check = false → (Y key).isSome) ∧ (¬ Full cells → (Y key).isSome ∧ x.row key = none)
  | delete key => ∀ cells, x.row key ≠ some (.put cells)
  | deleteAll => True

def Table.Quiet (t : Table n) : Prop := t.jobs = [] ∧ t.merges = []

def Table.Reserved (t : Table n) : Prop := ∀ m ∈ t.merges, m.startID ≠ none

/-- What the locks of the store alone do not give. -/
def Calm (lim : Limits) (t : Table n) (s : Spec n) : Act n → Prop
  | .op op => ∀ x Y, t.tx = some x → s.pending = some Y → op.Fits x Y
  | .commit _ => ∀ x, t.tx = some x → (x.cleared = true → t.Quiet) ∧
      (lim.flushThreshold ≤ (t.folded x).memRows.entries.length → t.Reserved)
  | .flush _ => t.Reserved
  | .flushIdle => t.Quiet
  | .compactSnapshot => t.Quiet
  | _ => True

/-- The number of live rows. -/
def LiveCount (Y : Content n) (c : ℤ) : Prop :=
  ∃ ks : Finset Bytes, (∀ k, k ∈ ks ↔ (Y k).isSome) ∧ c = ks.card

/-- The runs of a table from its opening on. An opened table has its parts counted. -/
inductive Runs (lim : Limits) : List (Act n) → Table n → Spec n → Prop
  | start {t : Table n} {X : Content n} : t.mem = none → t.tx = none → t.Quiet →
    (∀ e ∈ t.parts.entries, e.1 ≤ t.nextID) → (∀ k, Grounded (t.partVersions k)) →
    (∀ k, contentOf (t.partVersions k) = X k) → LiveCount X t.count →
    Runs lim [] t { committed := X }
  | step {acts : List (Act n)} {t t' : Table n} {s : Spec n} {a : Act n} : Runs lim acts t s →
    Calm lim t s a → t.step lim a = some t' → Runs lim (acts ++ [a]) t' (s.step a)

/-! ### Transactions -/

/-- The content under a transaction. -/
def MpartTx.base (x : MpartTx n) (X : Content n) : Content n := if x.cleared then noRows else X

/-- A transaction over a table with content `X` sees `Y`. -/
structure TxRight (X : Content n) (x : MpartTx n) (Y : Content n) : Prop where
  seen : Y = applyLayer Row.act x.row (x.base X)
  live : ∀ k cells, x.row k = some (.put cells) → ¬ Full cells → (x.base X k).isSome
  hint : ∀ ov, x.overlay = some ov → ∀ e ∈ ov.hint, ov.rows.get e.1 = some e.2 ∧ e.2.isPut

section Tx

variable {X Y : Content n} {x : MpartTx n} {t : Table n}

theorem row_getD (x : MpartTx n) (k : Bytes) : (x.overlay.getD {}).rows.get k = x.row k := by
  unfold MpartTx.row
  cases x.overlay <;> rfl

theorem TxRight.empty (X : Content n) : TxRight X {} X := by
  constructor
  · rfl
  · rintro _ _ ⟨⟩
  · rintro _ ⟨⟩

theorem TxRight.hint_getD (h : TxRight X x Y) :
    ∀ e ∈ (x.overlay.getD {}).hint, x.row e.1 = some e.2 ∧ e.2.isPut := by
  intro e he
  rw [← row_getD]
  cases hov : x.overlay with
  | none =>
    rw [hov] at he
    cases he
  | some ov =>
    rw [hov] at he
    exact h.hint ov hov e he

/-- The rows of a transaction with another one. -/
theorem get_insert_getD (x : MpartTx n) (key : Bytes) (r : Row n) :
    ((x.overlay.getD {}).rows.insert key r).get key = some r ∧
      ∀ k, key ≠ k → ((x.overlay.getD {}).rows.insert key r).get k = x.row k := by
  constructor
  · rw [SortedMap.get_insert, if_pos rfl]
  · intro k hk
    rw [SortedMap.get_insert, if_neg hk, row_getD]

/-- A row is written into a transaction. -/
theorem TxRight.insert (h : TxRight X x Y) {key : Bytes} {r : Row n} {y : MpartTx n}
    (hself : y.row key = some r) (hother : ∀ k, key ≠ k → y.row k = x.row k)
    (hcleared : y.cleared = x.cleared)
    (hput : ∀ cells, r = .put cells → ¬ Full cells → (Y key).isSome ∧ x.row key = none)
    (hhint : ∀ ov, y.overlay = some ov → ∀ e ∈ ov.hint, ov.rows.get e.1 = some e.2 ∧ e.2.isPut) :
    TxRight X y (Function.update Y key (r.act (Y key))) := by
  have hbase : y.base X = x.base X := by unfold MpartTx.base; rw [hcleared]
  refine ⟨?_, fun k cells hk hfull => ?_, hhint⟩
  · ext1 k
    rw [hbase, applyLayer]
    by_cases hk : key = k
    · subst hk
      rw [Function.update_self, hself, h.seen, applyLayer]
      cases hx : x.row key with
      | none => rfl
      | some old =>
        cases r with
        | del => rfl
        | put cells =>
          have hfull : Full cells := by
            by_contra hfull
            have hnone := (hput cells rfl hfull).2
            rw [hx] at hnone
            cases hnone
          exact (act_full hfull _).trans (act_full hfull _).symm
    · rw [Function.update_of_ne (Ne.symm hk), hother k hk, h.seen, applyLayer]
  · rw [hbase]
    by_cases hkey : key = k
    · subst hkey
      obtain rfl := Option.some.inj (hself.symm.trans hk)
      obtain ⟨hlive, hnone⟩ := hput cells rfl hfull
      rw [h.seen, applyLayer, hnone] at hlive
      exact hlive
    · rw [hother k hkey] at hk
      exact h.live k cells hk hfull

theorem TxRight.op (h : TxRight X x Y) {op : TxOp n} (hfits : op.Fits x Y) :
    TxRight X (op.apply t x) (op.content Y) := by
  cases op with
  | put check key cells =>
    obtain ⟨hself, hother⟩ := get_insert_getD x key (.put cells)
    refine h.insert (r := .put cells) hself hother rfl (fun cells' hc hfull => ?_) ?_
    · obtain rfl : cells = cells' := Row.put.inj hc
      exact hfits.2 hfull
    · rintro ov hov e he
      obtain rfl := Option.some.inj hov
      change e ∈ (if ((x.overlay.getD {}).rows.get key).isNone then _ else _) at he
      rw [row_getD] at he
      split at he
      · rename_i hnone
        rcases List.mem_append.mp he with he | he
        · obtain ⟨hget, hput⟩ := h.hint_getD e he
          refine ⟨(hother e.1 ?_).trans hget, hput⟩
          rintro rfl
          rw [hget] at hnone
          cases hnone
        · obtain rfl := List.mem_singleton.mp he
          exact ⟨hself, rfl⟩
      · cases he
  | delete key =>
    obtain ⟨hself, hother⟩ := get_insert_getD x key .del
    refine h.insert (r := .del) hself hother rfl (fun cells' hc => by cases hc) ?_
    rintro ov hov e he
    obtain rfl := Option.some.inj hov
    obtain ⟨hget, hput⟩ := h.hint_getD e he
    refine ⟨(hother e.1 ?_).trans hget, hput⟩
    rintro rfl
    cases hr : e.2 with
    | del =>
      rw [hr] at hput
      cases hput
    | put cells => exact hfits cells (hget.trans (congrArg some hr))
  | deleteAll =>
    constructor
    · rfl
    · rintro _ _ ⟨⟩
    · rintro _ ⟨⟩

end Tx

end Ydbgo.Mpart
