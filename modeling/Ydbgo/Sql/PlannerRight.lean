import Ydbgo.Sql.PlannerTests

/-! # The planner is right

A range that the planner makes has the keys of all rows that the WHERE accepts,
and no others when it is reported as exact, where the literals compare as the
keys do and no test is lost.
-/

namespace Ydbgo.Sql

open Storage

section Values

variable (lib : Stdlib)

def KeyType (t : SqlType) : Prop :=
  t = .int ∨ t = .float ∨ t = .string ∨ t = .bool ∨ t = .timestamp

theorem convert_spec {v w : Value} {t : SqlType} (ht : KeyType t) (hv : v.null = false)
    (hm : v.missing = false) (h : (convert lib v t).run = some (.ok w)) :
    w.type = t ∧ w.null = false ∧ w.missing = false := by
  change Gives (convert lib v t) w at h
  unfold convert at h
  rw [if_neg (by simp [hv])] at h
  dsimp only at h
  split at h
  all_goals repeat' split at h
  all_goals first | exact absurd h gives_failWith | obtain rfl := gives_pure.mp h
  all_goals first | exact ⟨rfl, rfl, rfl⟩ | exact ⟨by assumption, hv, hm⟩

/-- A literal is read as a value of the type of a key column. -/
theorem literalFor_spec {l : Literal} {t : SqlType} {v : Value} (ht : KeyType t)
    (h : literalFor lib l t = some v) : v.type = t ∧ v.null = false ∧ v.missing = false := by
  have hm : (evalLiteral l).missing = false := by cases l <;> rfl
  unfold literalFor at h
  dsimp only at h
  split at h
  · cases h
  · rename_i hn
    rw [Bool.not_eq_true] at hn
    split at h
    · split at h
      · rename_i hc
        obtain rfl := Option.some.inj h
        exact convert_spec lib ht hn hm hc
      · cases h
    · rename_i htype
      obtain rfl := Option.some.inj h
      have hne : t ≠ .null := by rintro rfl; simp [KeyType] at ht
      exact ⟨by tauto, hn, hm⟩

theorem testFor_key {l : Literal} {t : SqlType} {op : BinOp} {s : Test} (ht : KeyType t)
    (h : testFor lib t op l = some s) (hs : s.Clean) : ∀ v ∈ s.values, KeyValue t v := by
  unfold testFor at h
  split at h
  · obtain ⟨pat, hpat, rfl⟩ := Option.map_eq_some_iff.mp h
    have htype : t = .string := by
      unfold patternFor at hpat
      split at hpat <;> simp_all
    subst htype
    have hstr {s : Bytes} (h : 0 ∉ s) : KeyValue .string (strValue s) := ⟨rfl, ht, rfl, rfl, h⟩
    revert hs
    unfold likeTest
    split
    · simpa [Test.Clean, Test.values] using hstr
    · simp [Test.values]
    · rintro ⟨hnul, hff⟩
      simp only [Test.values, List.mem_cons, List.not_mem_nil, or_false, forall_eq_or_imp,
        forall_eq]
      exact ⟨hstr hnul, hstr (nul_successor hff hnul)⟩
  · obtain ⟨v, hv, rfl⟩ := Option.map_eq_some_iff.mp h
    obtain ⟨htype, hn, hm⟩ := literalFor_spec lib ht hv
    simpa [Test.values] using ⟨htype, ht, hn, hm, hs⟩

end Values

section Leaves

variable {lib : Stdlib} {schema : TableSchema} {ls : List Expr} {p : ℕ} {t : Test}

theorem colIndexFrom_getElem? {i idx : ℕ} {cols : List Bytes} {name : Bytes}
    (h : colIndexFrom i cols name = some idx) : i ≤ idx ∧ cols[idx - i]? = some name := by
  induction cols generalizing i with
  | nil => simp [colIndexFrom] at h
  | cons c cols ih =>
    rw [colIndexFrom, Option.or_eq_some_iff] at h
    rcases h with h | ⟨-, h⟩
    · obtain ⟨hle, hget⟩ := ih h
      refine ⟨by omega, ?_⟩
      rwa [show idx - i = idx - (i + 1) + 1 by omega, List.getElem?_cons_succ]
    · split at h
      · rename_i hc
        obtain rfl := Option.some.inj h
        simp [hc]
      · cases h

theorem pkPos_getElem? {name : Bytes} (h : pkPos schema name = some p) :
    schema.pk[p]? = some name := (colIndexFrom_getElem? h).2

theorem leafTest_spec {e : Expr} (h : leafTest lib schema e = some (p, t)) :
    ∃ name op l, schema.pk[p]? = some name ∧ testFor lib (colTypeOf schema name) op l = some t := by
  unfold leafTest at h
  repeat' split at h
  all_goals first | cases h | skip
  rename_i name l op _ _ q hq
  obtain ⟨s, hs, h⟩ := Option.map_eq_some_iff.mp h
  obtain ⟨rfl, rfl⟩ := Prod.mk.inj h
  exact ⟨name, op, l, pkPos_getElem? hq, hs⟩

theorem mem_testsOn : t ∈ testsOn lib schema ls p ↔ ∃ e ∈ ls, leafTest lib schema e = some (p, t) := by
  simp only [testsOn, testOn, List.mem_filterMap, Option.bind_eq_some_iff]
  refine exists_congr fun e => and_congr_right fun _ => ⟨?_, fun h => ⟨_, h, by simp⟩⟩
  rintro ⟨⟨q, s⟩, hs, h⟩
  split at h
  · rename_i hq
    obtain rfl := Option.some.inj h
    rw [hs, ← hq]
  · cases h

end Leaves

section Conditions

variable (lib : Stdlib) (schema : TableSchema) (ctx : RowContext)

/-- The row has a value for every key column, of the column's type, not NULL and without a zero
byte. -/
def Keyed : Prop := ∀ name ∈ schema.pk, ∃ x, ctx name = some x ∧ KeyValue (colTypeOf schema name) x

/-- The tests of the leaves hold in the row. -/
def PassesTests (ls : List Expr) : Prop := ∀ e ∈ ls, ∀ p t name,
  leafTest lib schema e = some (p, t) → schema.pk[p]? = some name → t.Holds (cell ctx name)

/-- Leaves whose ranges on single columns can be joined: where a row passes the last test of its
kind on a column, it passes those before; behind equalities, a column has bounds on both sides or
none at all; and a row that passes all tests makes the leaves true. -/
structure Invertible (ls : List Expr) : Prop where
  kept : ∀ p name, schema.pk[p]? = some name → Kept (testsOn lib schema ls p) (cell ctx name)
  closed : ∀ p, 0 < p → testsOn lib schema ls p ≠ [] →
    (∀ t ∈ testsOn lib schema ls p, t.isEq = false) →
    (∀ q < p, ∃ t ∈ testsOn lib schema ls q, t.isEq = true) →
    (∃ t ∈ testsOn lib schema ls p, t.isLower = true) ∧
      ∃ t ∈ testsOn lib schema ls p, t.isUpper = true
  agree : PassesTests lib schema ctx ls → ∀ e ∈ ls, IsTrue lib ctx e

/-- Leaves that the planner is right about in this row: the values they test have no zero byte and
compare as their encodings, a leaf that is true in the row agrees with its test and, where nothing
but tests is left, they are invertible. -/
structure Plannable (ls : List Expr) : Prop where
  clean : ∀ p, ∀ t ∈ testsOn lib schema ls p, t.Clean
  ordered : ∀ p, ∀ v ∈ (testsOn lib schema ls p).flatMap Test.values,
    ∀ w ∈ (testsOn lib schema ls p).flatMap Test.values, Ordered lib v w
  agree : ∀ e ∈ ls, IsTrue lib ctx e → PassesTests lib schema ctx [e]
  exact : ls.all (folded lib schema) = true → Invertible lib schema ctx ls

end Conditions

section Right

variable {lib : Stdlib} {schema : TableSchema} {ctx : RowContext} {ls : List Expr}

theorem Keyed.cell (h : Keyed schema ctx) {name : Bytes} (hn : name ∈ schema.pk) :
    KeyValue (colTypeOf schema name) (cell ctx name) := by
  obtain ⟨x, hx, hk⟩ := h name hn
  simpa [Storage.cell, hx] using hk

theorem Plannable.comparable (h : Plannable lib schema ctx ls) (hrow : Keyed schema ctx) {p : ℕ}
    {name : Bytes} (hp : schema.pk[p]? = some name) :
    Comparable lib (colTypeOf schema name) (testsOn lib schema ls p) := by
  refine ⟨h.clean p, fun t ht => ?_, h.ordered p⟩
  obtain ⟨e, -, hle⟩ := mem_testsOn.mp ht
  obtain ⟨name', op, l, hp', htest⟩ := leafTest_spec hle
  obtain rfl := Option.some.inj (hp.symm.trans hp')
  exact testFor_key lib (hrow.cell (List.mem_of_getElem? hp)).key htest (h.clean p t ht)

theorem planned_cons_some {p : ℕ} {c : Constraint} (h : (planned lib schema ls).cons p = some c) :
    ∃ name, schema.pk[p]? = some name ∧ testsOn lib schema ls p ≠ [] ∧
      c = constraintOf lib (testsOn lib schema ls p) := by
  rw [planned_cons] at h
  split at h
  · cases h
  · rename_i hne
    obtain rfl := Option.some.inj h
    obtain ⟨t, ht⟩ := List.exists_mem_of_ne_nil _ hne
    obtain ⟨e, -, hle⟩ := mem_testsOn.mp ht
    obtain ⟨name, -, -, hp, -⟩ := leafTest_spec hle
    exact ⟨name, hp, hne, rfl⟩

/-- The type of the key column at `p`. -/
def keyTypeAt (schema : TableSchema) (p : ℕ) : SqlType := colTypeOf schema (schema.pk.getD p [])

theorem Keyed.values (h : Keyed schema ctx) {p : ℕ} {x : Value}
    (hx : (schema.pk.map (Storage.cell ctx))[p]? = some x) : KeyValue (keyTypeAt schema p) x := by
  rw [List.getElem?_map, Option.map_eq_some_iff] at hx
  obtain ⟨name, hp, rfl⟩ := hx
  rw [keyTypeAt, List.getD_eq_getElem?_getD, hp]
  exact h.cell (List.mem_of_getElem? hp)

theorem Plannable.key_values (h : Plannable lib schema ctx ls) (hrow : Keyed schema ctx) {p : ℕ}
    {c : Constraint} (hc : (planned lib schema ls).cons p = some c) :
    ∀ v ∈ c.values, KeyValue (keyTypeAt schema p) v := by
  obtain ⟨name, hp, -, rfl⟩ := planned_cons_some hc
  intro v hv
  obtain ⟨t, ht, hvt⟩ := List.mem_flatMap.mp (mem_constraintOf hv)
  rw [keyTypeAt, List.getD_eq_getElem?_getD, hp]
  exact (h.comparable hrow hp).key t ht v hvt

/-- The keys of the rows that make the leaves true lie in the range. -/
theorem Plannable.inRange (h : Plannable lib schema ctx ls) (hrow : Keyed schema ctx)
    (htrue : ∀ e ∈ ls, IsTrue lib ctx e) (exact : Bool) :
    InRange (buildRange (planned lib schema ls).cons schema.pk.length 0 [] exact).1
      (rowKey schema ctx) := by
  refine buildRange_sound (fun _ _ => hrow.values) (fun _ _ => h.key_values hrow) ?_ _ (by simp) rfl
    exact
  rintro p c x hc hx
  obtain ⟨name, hp, -, rfl⟩ := planned_cons_some hc
  rw [List.getElem?_map, hp] at hx
  obtain rfl := Option.some.inj hx
  refine (h.comparable hrow hp).holds (hrow.cell (List.mem_of_getElem? hp)) fun t ht => ?_
  obtain ⟨e, he, hle⟩ := mem_testsOn.mp ht
  exact h.agree e he (htrue e he) e (by simp) p t name hle hp

/-- A row makes the leaves true where its key lies in a range that is exact. -/
theorem Plannable.isTrue (h : Plannable lib schema ctx ls) (hrow : Keyed schema ctx)
    (hpk : schema.pk ≠ [])
    (hexact : (buildRange (planned lib schema ls).cons schema.pk.length 0 []
      (planned lib schema ls).exact).2 = true)
    (hin : InRange (buildRange (planned lib schema ls).cons schema.pk.length 0 []
      (planned lib schema ls).exact).1 (rowKey schema ctx)) :
    ∀ e ∈ ls, IsTrue lib ctx e := by
  have hall := exact_of_buildRange hexact
  rw [planned_exact] at hall
  have hinv := h.exact hall
  have hsides : ∀ p c, (planned lib schema ls).cons p = some c → 0 < p → c.eq = none →
      (∀ q < p, ∃ d, (planned lib schema ls).cons q = some d ∧ d.eq.isSome) →
      c.lo.isSome ∧ c.up.isSome := by
    intro p c hc hp heq hbefore
    obtain ⟨-, -, hne, rfl⟩ := planned_cons_some hc
    obtain ⟨he, hl, hu⟩ := isSome_constraintOf lib (testsOn lib schema ls p)
    rw [heq, Option.isSome_none, eq_comm, List.any_eq_false] at he
    rw [hl, hu, List.any_eq_true, List.any_eq_true]
    refine hinv.closed p hp hne (by simpa using he) fun q hq => ?_
    obtain ⟨d, hd, hsome⟩ := hbefore q hq
    obtain ⟨-, -, -, rfl⟩ := planned_cons_some hd
    rwa [(isSome_constraintOf lib _).1, List.any_eq_true] at hsome
  have hholds := (buildRange_exact (fun _ _ => hrow.values) (fun _ _ => h.key_values hrow) hsides _
    (by simp) (show ([] : List Value).length = 0 from rfl) .nil (by simp) hexact hin (by simpa using hpk)).2
  refine hinv.agree fun e he p t name hle hp => ?_
  have ht := mem_testsOn.mpr ⟨e, he, hle⟩
  have hc : (planned lib schema ls).cons p = some (constraintOf lib (testsOn lib schema ls p)) := by
    rw [planned_cons, if_neg (List.ne_nil_of_mem ht)]
  have hcell := hholds p _ (cell ctx name) (Nat.zero_le p) hc (by simp [hp])
  exact (h.comparable hrow hp).all_hold (hrow.cell (List.mem_of_getElem? hp)) (hinv.kept p name hp)
    hcell t ht

end Right

section Range

variable (lib : Stdlib) (schema : TableSchema) (ctx : RowContext) (where_ : Expr)

/-- The row passes the WHERE, if there is one. -/
def Passes : Prop := where_ = .nil ∨ IsTrue lib ctx where_

/-- `PKRangeFromWhere` is right about the row. -/
structure RangeRight : Prop where
  sound : IsTrue lib ctx where_ →
    InRange (pkRangeFromWhere lib schema where_).1 (rowKey schema ctx)
  exact : (pkRangeFromWhere lib schema where_).2 = true →
    InRange (pkRangeFromWhere lib schema where_).1 (rowKey schema ctx) → Passes lib ctx where_

variable {lib schema ctx where_}

theorem inRange_none (key : Bytes) : InRange none key := by simp [InRange, pkRangeBytes]

theorem pkRangeFromWhere_eq (hpk : schema.pk ≠ []) (hw : where_ ≠ .nil) :
    pkRangeFromWhere lib schema where_ =
      buildRange (planned lib schema (leaves where_)).cons schema.pk.length 0 []
        (planned lib schema (leaves where_)).exact := by
  rw [pkRangeFromWhere, if_neg (by simp [hpk, hw])]
  simp only [visit_eq_foldl]
  rfl

/-- The range of a WHERE whose leaves the planner is right about. -/
theorem Plannable.rangeRight (h : Plannable lib schema ctx (leaves where_))
    (hrow : Keyed schema ctx) : RangeRight lib schema ctx where_ := by
  by_cases hnone : schema.pk.isEmpty ∨ where_ = .nil
  · have heq : pkRangeFromWhere lib schema where_ = (none, false) := if_pos hnone
    exact ⟨fun _ => heq ▸ inRange_none _, fun hexact => by simp [heq] at hexact⟩
  · rw [not_or, List.isEmpty_iff] at hnone
    obtain ⟨hpk, hw⟩ := hnone
    constructor
    · intro htrue
      rw [pkRangeFromWhere_eq hpk hw]
      exact h.inRange hrow ((isTrue_iff_leaves lib ctx where_).mp htrue) _
    · rw [pkRangeFromWhere_eq hpk hw]
      exact fun hexact hin =>
        .inr ((isTrue_iff_leaves lib ctx where_).mpr (h.isTrue hrow hpk hexact hin))

end Range

section Comparisons

variable {lib : Stdlib} {ctx : RowContext}

def BinOp.isOrder : BinOp → Bool
  | .eq | .lt | .le | .gt | .ge => true
  | _ => false

/-- A comparison of a column with a literal is true where the encodings compare so. -/
theorem isTrue_cmp {op : BinOp} {name : Bytes} {l : Literal} {x : Value} (hop : op.isOrder = true)
    (hname : name ≠ ascii "*") (hx : ctx name = some x) (hnull : x.null = false)
    (hl : (evalLiteral l).null = false) (hord : Ordered lib x (evalLiteral l)) :
    IsTrue lib ctx (.binary op (.ident name) (.literal l)) ↔
      op.Accepts (enc x) (enc (evalLiteral l)) := by
  have hgives {v : Value} :
      Gives (eval lib ctx (.binary op (.ident name) (.literal l))) v ↔
        Gives (evalBinary lib op x (evalLiteral l)) v := by
    simp [eval, gives_bind, hname, hx]
  have hcmp (f : Ordering → Bool) :
      evalCompare lib x (evalLiteral l) f = boolValue (f (compareBytes (enc x) (enc (evalLiteral l)))) := by
    rw [← hord, evalCompare, hnull, hl]
    rfl
  simp only [IsTrue, hgives]
  cases op with
  | eq | lt | le | gt | ge =>
    simp [evalBinary, hcmp, boolOf, boolValue, BinOp.Accepts, compareBytes_eq, compareBytes_lt,
      compareBytes_gt, bne_iff_ne]
  | _ => cases hop

theorem ordered_int {v w : Value} (hv : KeyValue .int v) (hw : KeyValue .int w) :
    Ordered lib v w := by
  simp only [Ordered, Value.compare, hv.null, hw.null, hv.type, hw.type, compareInts, compareBytes,
    enc_int_lt hv hw, enc_int_lt hw hv]
  simp

theorem ordered_string {v w : Value} (hv : KeyValue .string v) (hw : KeyValue .string w) :
    Ordered lib v w := by
  simp only [Ordered, Value.compare, hv.null, hw.null, hv.type, hw.type, compareBytes,
    enc_string_lt hv hw, enc_string_lt hw hv]
  simp

variable {schema : TableSchema} {ls : List Expr}

/-- A bound on the column by an integer. -/
def IsIntBound (name : Bytes) (e : Expr) : Prop := ∃ op n, op.isOrder = true ∧ op ≠ .eq ∧
  e = .binary op (.ident name) (.literal (.int n))

theorem leafTest_intBound {name : Bytes} {op : BinOp} {n : Int64} (hpk : schema.pk = [name])
    (htype : colTypeOf schema name = .int) (hop : op.isOrder = true) :
    leafTest lib schema (.binary op (.ident name) (.literal (.int n))) =
      some (0, .cmp op (intValue n)) := by
  have hpos : pkPos schema name = some 0 := by simp [pkPos, colIndex, colIndexFrom, hpk]
  have hlit : literalFor lib (.int n) .int = some (intValue n) := by simp [literalFor, evalLiteral, intValue]
  cases op <;> simp_all [leafTest, operands, testFor, BinOp.isOrder]

theorem passesTests_singleton {e : Expr} {p : ℕ} {t : Test} {name : Bytes}
    (he : leafTest lib schema e = some (p, t)) (hp : schema.pk[p]? = some name) :
    PassesTests lib schema ctx [e] ↔ t.Holds (cell ctx name) := by
  constructor
  · exact fun h => h e (by simp) p t name he hp
  · rintro h e' he' q s name' hle hq
    rw [List.mem_singleton.mp he', he] at hle
    cases hle
    rwa [← Option.some.inj (hp.symm.trans hq)]

/-- The planner is right about bounds on an integer key. -/
theorem plannable_intBounds {name : Bytes} (hpk : schema.pk = [name])
    (htype : colTypeOf schema name = .int) (hname : name ≠ ascii "*") (hrow : Keyed schema ctx)
    (hls : ∀ e ∈ ls, IsIntBound name e) : Plannable lib schema ctx ls := by
  have htests {p : ℕ} {t : Test} (h : t ∈ testsOn lib schema ls p) :
      p = 0 ∧ ∃ op n, op.isOrder = true ∧ op ≠ .eq ∧ t = .cmp op (intValue n) := by
    obtain ⟨e, he, hle⟩ := mem_testsOn.mp h
    obtain ⟨op, n, hop, hne, rfl⟩ := hls e he
    rw [leafTest_intBound hpk htype hop] at hle
    cases hle
    exact ⟨rfl, op, n, hop, hne, rfl⟩
  have hkey (n : Int64) : KeyValue .int (intValue n) := ⟨rfl, by simp, rfl, rfl, by simp [intValue]⟩
  obtain ⟨x, hx, hkx⟩ := hrow name (by simp [hpk])
  rw [htype] at hkx
  have hagree : ∀ e ∈ ls, IsTrue lib ctx e ↔ PassesTests lib schema ctx [e] := by
    intro e he
    obtain ⟨op, n, hop, hne, rfl⟩ := hls e he
    have hord : Ordered lib x (evalLiteral (.int n)) := ordered_int hkx (hkey n)
    rw [isTrue_cmp hop hname hx hkx.null rfl hord]
    have hpos : schema.pk[0]? = some name := by simp [hpk]
    rw [passesTests_singleton (leafTest_intBound hpk htype hop) hpos, cell, hx]
    rfl
  refine ⟨fun p t ht => ?_, fun p v hv w hw => ?_, fun e he => (hagree e he).mp, fun _ => ⟨?_, ?_, ?_⟩⟩
  · obtain ⟨-, op, n, -, -, rfl⟩ := htests ht
    exact (hkey n).nul
  · obtain ⟨t, ht, hv⟩ := List.mem_flatMap.mp hv
    obtain ⟨s, hs, hw⟩ := List.mem_flatMap.mp hw
    obtain ⟨-, _, m, -, -, rfl⟩ := htests ht
    obtain ⟨-, _, n, -, -, rfl⟩ := htests hs
    rw [List.mem_singleton.mp hv, List.mem_singleton.mp hw]
    exact ordered_int (hkey m) (hkey n)
  · intro p name' hp
    refine List.pairwise_of_forall_mem_list fun s hs t ht hover => ?_
    obtain ⟨-, op, n, hop, hne, rfl⟩ := htests ht
    cases op <;> simp_all [Test.Overwrites, Test.isEq, Test.isPrefix]
  · intro p hp hne
    obtain ⟨t, ht⟩ := List.exists_mem_of_ne_nil _ hne
    exact absurd (htests ht).1 hp.ne'
  · intro hpass e he
    refine (hagree e he).mpr fun e' he' => ?_
    rw [List.mem_singleton.mp he']
    exact hpass e he

end Comparisons

end Ydbgo.Sql
