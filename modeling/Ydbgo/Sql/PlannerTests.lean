import Mathlib.Data.List.Induction
import Ydbgo.Sql.PlannerFold
import Ydbgo.Sql.PlannerRange

/-! # Tests and constraints

The constraint on a column is the fold of the tests on it. It keeps a bound that
another one tightens, and forgets what a later equality or prefix test
overwrites.
-/

namespace Ydbgo.Sql

open Storage

/-- The order of encodings that a comparison asks for. The planner has none for the other
operators. -/
def BinOp.Accepts (op : BinOp) (a b : Bytes) : Prop :=
  match op with
  | .eq => a = b
  | .gt => b < a
  | .ge => b ≤ a
  | .lt => a < b
  | .le => a ≤ b
  | _ => True

namespace Test

/-- The value passes the test, as far as the bytes of the key tell. -/
def Holds (t : Test) (x : Value) : Prop :=
  match t with
  | .cmp op v => op.Accepts (enc x) (enc v)
  | .likeEq pat => enc x = enc (strValue pat)
  | .likePrefix pre _ => pre <+: x.str
  | .likeAny => True

def isEq : Test → Bool
  | .cmp .eq _ => true
  | .likeEq _ => true
  | _ => false

def isLower : Test → Bool
  | .cmp .gt _ => true
  | .cmp .ge _ => true
  | .likePrefix _ _ => true
  | _ => false

def isUpper : Test → Bool
  | .cmp .lt _ => true
  | .cmp .le _ => true
  | .likePrefix _ _ => true
  | _ => false

def isPrefix : Test → Bool
  | .likePrefix _ _ => true
  | _ => false

/-- The constraint of `s` is lost when `t` comes after it. -/
def Overwrites (t s : Test) : Prop :=
  t.isEq = true ∧ s.isEq = true ∨ t.isPrefix = true ∧ (s.isLower || s.isUpper) = true

/-- The values the constraint keeps of a test. -/
def values : Test → List Value
  | .cmp _ v => [v]
  | .likeEq pat => [strValue pat]
  | .likePrefix pre _ => [strValue pre, strValue (successor pre)]
  | .likeAny => []

/-- The strings of the test have no zero byte, and a prefix has a successor of its length. -/
def Clean : Test → Prop
  | .cmp _ v => 0 ∉ v.str
  | .likeEq pat => 0 ∉ pat
  | .likePrefix pre _ => 0 ∉ pre ∧ ∃ b ∈ pre, b ≠ 0xff
  | .likeAny => True

end Test

section Tighten

variable (lib : Stdlib)

def Constraint.EqHolds (c : Constraint) (x : Value) : Prop := ∀ v, c.eq = some v → enc x = enc v

def Constraint.LoHolds (c : Constraint) (x : Value) : Prop :=
  ∀ v s, c.lo = some (v, s) → Below s (enc v) (enc x)

def Constraint.UpHolds (c : Constraint) (x : Value) : Prop :=
  ∀ v s, c.up = some (v, s) → Below s (enc x) (enc v)

theorem Constraint.holds_iff {c : Constraint} {x : Value} :
    c.Holds x ↔ c.EqHolds x ∧ c.LoHolds x ∧ c.UpHolds x :=
  ⟨fun h => ⟨h.eq, h.lo, h.up⟩, fun h => ⟨h.1, h.2.1, h.2.2⟩⟩

/-- Two values compare as their encodings do. -/
def Ordered (v w : Value) : Prop := v.compare lib w = compareBytes (enc v) (enc w)

theorem compareBytes_lt {a b : Bytes} : compareBytes a b = .lt ↔ a < b := by
  unfold compareBytes threeWay
  by_cases h : a < b
  · simp only [h, decide_true, if_true]
  · by_cases h' : b < a <;> simp [h, h']

theorem compareBytes_gt {a b : Bytes} : compareBytes a b = .gt ↔ b < a := by
  unfold compareBytes threeWay
  by_cases h : a < b
  · simp [h, not_lt_of_gt h]
  · by_cases h' : b < a <;> simp [h, h']

theorem compareBytes_eq {a b : Bytes} : compareBytes a b = .eq ↔ a = b := by
  unfold compareBytes threeWay
  rcases lt_trichotomy a b with h | rfl | h
  · simp [h, h.ne]
  · simp
  · simp [h, not_lt_of_gt h, h.ne']

theorem below_or {s t : Bool} {a b : Bytes} : Below (s || t) a b ↔ Below s a b ∧ Below t a b := by
  cases s <;> cases t <;> simp [Below, and_iff_left_of_imp le_of_lt, and_iff_right_of_imp le_of_lt]

theorem below_of_lt {s : Bool} {a b : Bytes} (h : a < b) : Below s a b := by
  cases s <;> simp [Below, h, h.le]

theorem Below.le {s : Bool} {a b : Bytes} (h : Below s a b) : a ≤ b := by
  cases s
  · exact h
  · exact le_of_lt h

theorem Below.trans_lt {s t : Bool} {a b c : Bytes} (hbc : b < c) (h : Below s a b) : Below t a c :=
  below_of_lt (h.le.trans_lt hbc)

theorem Below.lt_trans {s t : Bool} {a b c : Bytes} (hab : a < b) (h : Below s b c) : Below t a c :=
  below_of_lt (hab.trans_le h.le)

variable {lib}

theorem loHolds_some {c : Constraint} {v x : Value} {s : Bool} (h : c.lo = some (v, s)) :
    c.LoHolds x ↔ Below s (enc v) (enc x) := by
  simp [Constraint.LoHolds, h]

theorem upHolds_some {c : Constraint} {v x : Value} {s : Bool} (h : c.up = some (v, s)) :
    c.UpHolds x ↔ Below s (enc x) (enc v) := by
  simp [Constraint.UpHolds, h]

theorem loHolds_mk {v x : Value} {s : Bool} {eq : Option Value} {up : Option (Value × Bool)} :
    (Constraint.mk eq (some (v, s)) up).LoHolds x ↔ Below s (enc v) (enc x) :=
  loHolds_some rfl

theorem upHolds_mk {v x : Value} {s : Bool} {eq : Option Value} {lo : Option (Value × Bool)} :
    (Constraint.mk eq lo (some (v, s))).UpHolds x ↔ Below s (enc x) (enc v) :=
  upHolds_some rfl

theorem loHolds_tightenLo {v x : Value} {strict : Bool} {c : Constraint}
    (hord : ∀ w ∈ c.values, Ordered lib v w) :
    (tightenLo lib v strict c).LoHolds x ↔ c.LoHolds x ∧ Below strict (enc v) (enc x) := by
  unfold tightenLo
  cases hlo : c.lo with
  | none => simp [Constraint.LoHolds, hlo]
  | some b =>
    obtain ⟨w, s⟩ := b
    have hcmp : v.compare lib w = _ :=
      hord w (by simp [Constraint.values, Constraint.bounds, hlo])
    rw [loHolds_some hlo]
    cases ho : v.compare lib w with
    | gt =>
      have hlt := compareBytes_gt.mp (hcmp.symm.trans ho)
      simp only [ho, loHolds_mk]
      exact (and_iff_right_of_imp (Below.lt_trans hlt)).symm
    | eq =>
      have heq := compareBytes_eq.mp (hcmp.symm.trans ho)
      simp only [ho, loHolds_mk, below_or, heq]
    | lt =>
      have hlt := compareBytes_lt.mp (hcmp.symm.trans ho)
      simp only [ho, loHolds_some hlo]
      exact (and_iff_left_of_imp (Below.lt_trans hlt)).symm

theorem upHolds_tightenUp {v x : Value} {strict : Bool} {c : Constraint}
    (hord : ∀ w ∈ c.values, Ordered lib v w) :
    (tightenUp lib v strict c).UpHolds x ↔ c.UpHolds x ∧ Below strict (enc x) (enc v) := by
  unfold tightenUp
  cases hup : c.up with
  | none => simp [Constraint.UpHolds, hup]
  | some b =>
    obtain ⟨w, s⟩ := b
    have hcmp : v.compare lib w = _ :=
      hord w (by simp [Constraint.values, Constraint.bounds, hup])
    rw [upHolds_some hup]
    cases ho : v.compare lib w with
    | lt =>
      have hlt := compareBytes_lt.mp (hcmp.symm.trans ho)
      simp only [ho, upHolds_mk]
      exact (and_iff_right_of_imp (Below.trans_lt hlt)).symm
    | eq =>
      have heq := compareBytes_eq.mp (hcmp.symm.trans ho)
      simp only [ho, upHolds_mk, below_or, heq]
    | gt =>
      have hlt := compareBytes_gt.mp (hcmp.symm.trans ho)
      simp only [ho, upHolds_some hup]
      exact (and_iff_left_of_imp (Below.trans_lt hlt)).symm

@[simp] theorem tightenLo_eq (v : Value) (s : Bool) (c : Constraint) :
    (tightenLo lib v s c).eq = c.eq := by
  unfold tightenLo
  repeat' split
  all_goals rfl

@[simp] theorem tightenLo_up (v : Value) (s : Bool) (c : Constraint) :
    (tightenLo lib v s c).up = c.up := by
  unfold tightenLo
  repeat' split
  all_goals rfl

@[simp] theorem tightenUp_eq (v : Value) (s : Bool) (c : Constraint) :
    (tightenUp lib v s c).eq = c.eq := by
  unfold tightenUp
  repeat' split
  all_goals rfl

@[simp] theorem tightenUp_lo (v : Value) (s : Bool) (c : Constraint) :
    (tightenUp lib v s c).lo = c.lo := by
  unfold tightenUp
  repeat' split
  all_goals rfl

@[simp] theorem isSome_tightenLo (v : Value) (s : Bool) (c : Constraint) :
    (tightenLo lib v s c).lo.isSome := by
  unfold tightenLo
  cases hlo : c.lo
  · rfl
  · dsimp only
    split <;> simp [hlo]

@[simp] theorem isSome_tightenUp (v : Value) (s : Bool) (c : Constraint) :
    (tightenUp lib v s c).up.isSome := by
  unfold tightenUp
  cases hup : c.up
  · rfl
  · dsimp only
    split <;> simp [hup]

theorem mem_tightenLo {u v : Value} {s : Bool} {c : Constraint}
    (h : u ∈ (tightenLo lib v s c).values) : u = v ∨ u ∈ c.values := by
  unfold tightenLo at h
  repeat' split at h
  all_goals simp_all [Constraint.values, Constraint.bounds]
  all_goals tauto

theorem mem_tightenUp {u v : Value} {s : Bool} {c : Constraint}
    (h : u ∈ (tightenUp lib v s c).values) : u = v ∨ u ∈ c.values := by
  unfold tightenUp at h
  repeat' split at h
  all_goals simp_all [Constraint.values, Constraint.bounds]
  all_goals tauto

end Tighten

section Step

variable {lib : Stdlib} {t : Test} {c : Constraint} {x : Value}

theorem eqHolds_constrain :
    (t.constrain lib c).EqHolds x ↔ if t.isEq then t.Holds x else c.EqHolds x := by
  rcases t with ⟨op, v⟩ | pat | ⟨pre, rest⟩ | _
  · cases op <;> simp [Test.constrain, constrain, Constraint.EqHolds, Test.isEq, Test.Holds,
      BinOp.Accepts]
  all_goals simp [Test.constrain, Constraint.EqHolds, Test.isEq, Test.Holds]

/-- The bounds after a test are those before, unless it overwrites them, and its own. -/
theorem boundsHold_constrain {type : SqlType} (hx : KeyValue type x)
    (hv : ∀ v ∈ t.values, KeyValue type v) (hclean : t.Clean)
    (hord : ∀ v ∈ t.values, ∀ w ∈ c.values, Ordered lib v w) :
    (t.constrain lib c).LoHolds x ∧ (t.constrain lib c).UpHolds x ↔
      (t.isPrefix = true ∨ c.LoHolds x ∧ c.UpHolds x) ∧
        ((t.isLower || t.isUpper) = true → t.Holds x) := by
  rcases t with ⟨op, v⟩ | pat | ⟨pre, rest⟩ | _
  · have hordv := hord v (by simp [Test.values])
    cases op with
    | gt | ge =>
      simp [Test.constrain, constrain, Test.isPrefix, Test.isLower, Test.isUpper, Test.Holds,
        BinOp.Accepts, loHolds_tightenLo hordv, Below, Constraint.UpHolds, and_assoc, and_comm]
    | lt | le =>
      simp [Test.constrain, constrain, Test.isPrefix, Test.isLower, Test.isUpper, Test.Holds,
        BinOp.Accepts, upHolds_tightenUp hordv, Below, Constraint.LoHolds, and_assoc]
    | _ =>
      simp [Test.constrain, constrain, Test.isPrefix, Test.isLower, Test.isUpper,
        Constraint.LoHolds, Constraint.UpHolds]
  · simp [Test.constrain, Test.isPrefix, Test.isLower, Test.isUpper, Constraint.LoHolds,
      Constraint.UpHolds]
  · obtain ⟨hnul, hff⟩ := hclean
    have hpre := hv (strValue pre) (by simp [Test.values])
    have hsucc := hv (strValue (successor pre)) (by simp [Test.values])
    obtain rfl : SqlType.string = type := hpre.type
    have hle : enc (strValue pre) ≤ enc x ↔ pre ≤ x.str := by
      rw [← not_lt, ← not_lt, enc_string_lt hx hpre]
      rfl
    have hlt : enc x < enc (strValue (successor pre)) ↔ x.str < successor pre :=
      enc_string_lt hx hsucc
    simp [Test.constrain, Test.isPrefix, Test.isLower, loHolds_mk, upHolds_mk, Below, hle, hlt,
      Test.Holds, prefix_iff_between hff]
  · simp [Test.constrain, Test.isPrefix, Test.isLower, Test.isUpper]

theorem mem_constrain {v : Value} (h : v ∈ (t.constrain lib c).values) :
    v ∈ t.values ∨ v ∈ c.values := by
  rcases t with ⟨op, w⟩ | pat | ⟨pre, rest⟩ | _
  · cases op with
    | gt | ge => simpa [Test.values] using mem_tightenLo h
    | lt | le => simpa [Test.values] using mem_tightenUp h
    | eq =>
      simp_all [Test.constrain, constrain, Test.values, Constraint.values, Constraint.bounds]
      tauto
    | _ => exact .inr h
  · simp_all [Test.constrain, Test.values, Constraint.values, Constraint.bounds]
    tauto
  · simp_all [Test.constrain, Test.values, Constraint.values, Constraint.bounds]
    tauto
  · exact .inr h

variable (lib t c) in
theorem isSome_constrain : ((t.constrain lib c).eq.isSome = (t.isEq || c.eq.isSome)) ∧
    ((t.constrain lib c).lo.isSome = (t.isLower || c.lo.isSome)) ∧
    (t.constrain lib c).up.isSome = (t.isUpper || c.up.isSome) := by
  rcases t with ⟨op, w⟩ | pat | ⟨pre, rest⟩ | _
  · cases op <;> simp [Test.constrain, constrain, Test.isEq, Test.isLower, Test.isUpper]
  all_goals simp [Test.constrain, Test.isEq, Test.isLower, Test.isUpper]

theorem holds_of_free (heq : t.isEq = false) (hb : (t.isLower || t.isUpper) = false) : t.Holds x := by
  rcases t with ⟨op, v⟩ | pat | ⟨pre, rest⟩ | _
  · cases op <;> simp_all [Test.isEq, Test.isLower, Test.isUpper, Test.Holds, BinOp.Accepts]
  all_goals simp_all [Test.isEq, Test.isLower, Test.isUpper, Test.Holds]

end Step

section Run

variable (lib : Stdlib)

/-- The constraint that a list of tests leaves. -/
def constraintOf (ts : List Test) : Constraint := ts.foldl (fun c t => t.constrain lib c) {}

@[simp] theorem constraintOf_nil : constraintOf lib [] = {} := rfl

@[simp] theorem constraintOf_concat (ts : List Test) (t : Test) :
    constraintOf lib (ts ++ [t]) = t.constrain lib (constraintOf lib ts) := by
  rw [constraintOf, List.foldl_append]
  rfl

/-- Tests of a column of type `type` whose values have keys and compare as these. -/
structure Comparable (type : SqlType) (ts : List Test) : Prop where
  clean : ∀ t ∈ ts, t.Clean
  key : ∀ t ∈ ts, ∀ v ∈ t.values, KeyValue type v
  ordered : ∀ v ∈ ts.flatMap Test.values, ∀ w ∈ ts.flatMap Test.values, Ordered lib v w

/-- Where a value passes a test, it passes the tests before that this one overwrites. -/
def Kept (ts : List Test) (x : Value) : Prop :=
  ts.Pairwise fun s t => t.Overwrites s → t.Holds x → s.Holds x

variable {lib} {type : SqlType} {ts : List Test} {x : Value}

theorem mem_constraintOf {v : Value} (h : v ∈ (constraintOf lib ts).values) :
    v ∈ ts.flatMap Test.values := by
  induction ts using List.reverseRecOn with
  | nil => exact h
  | append_singleton ts t ih =>
    rw [constraintOf_concat] at h
    rw [List.flatMap_append, List.mem_append]
    rcases mem_constrain h with h | h
    · exact .inr (by simpa using h)
    · exact .inl (ih h)

variable (lib ts) in
theorem isSome_constraintOf : (constraintOf lib ts).eq.isSome = ts.any Test.isEq ∧
    (constraintOf lib ts).lo.isSome = ts.any Test.isLower ∧
    (constraintOf lib ts).up.isSome = ts.any Test.isUpper := by
  induction ts using List.reverseRecOn with
  | nil => simp
  | append_singleton ts t ih =>
    obtain ⟨heq, hlo, hup⟩ := ih
    obtain ⟨heq', hlo', hup'⟩ := isSome_constrain lib t (constraintOf lib ts)
    simp [heq, hlo, hup, heq', hlo', hup', Bool.or_comm]

theorem Comparable.init {t : Test} (h : Comparable lib type (ts ++ [t])) :
    Comparable lib type ts :=
  ⟨fun s hs => h.clean s (List.mem_append_left _ hs), fun s hs => h.key s (List.mem_append_left _ hs),
    fun v hv w hw => h.ordered v (by simp [List.flatMap_append, hv]) w
      (by simp [List.flatMap_append, hw])⟩

theorem Comparable.boundsHold_iff {t : Test} (h : Comparable lib type (ts ++ [t]))
    (hx : KeyValue type x) :
    (constraintOf lib (ts ++ [t])).LoHolds x ∧ (constraintOf lib (ts ++ [t])).UpHolds x ↔
      (t.isPrefix = true ∨ (constraintOf lib ts).LoHolds x ∧ (constraintOf lib ts).UpHolds x) ∧
        ((t.isLower || t.isUpper) = true → t.Holds x) := by
  have ht : t ∈ ts ++ [t] := by simp
  rw [constraintOf_concat]
  exact boundsHold_constrain hx (h.key t ht) (h.clean t ht) fun v hv w hw =>
    h.ordered v (List.mem_flatMap_of_mem ht hv) w
      (by rw [List.flatMap_append]; exact List.mem_append_left _ (mem_constraintOf hw))

/-- A value that passes all tests satisfies the constraint. -/
theorem Comparable.holds (h : Comparable lib type ts) (hx : KeyValue type x)
    (hall : ∀ t ∈ ts, t.Holds x) : (constraintOf lib ts).Holds x := by
  rw [Constraint.holds_iff]
  induction ts using List.reverseRecOn with
  | nil => simp [Constraint.EqHolds, Constraint.LoHolds, Constraint.UpHolds]
  | append_singleton ts t ih =>
    obtain ⟨heq, hb⟩ := ih h.init fun s hs => hall s (List.mem_append_left _ hs)
    have ht := hall t (by simp)
    constructor
    · rw [constraintOf_concat, eqHolds_constrain]
      split
      · exact ht
      · exact heq
    · exact (h.boundsHold_iff hx).mpr ⟨.inr hb, fun _ => ht⟩

theorem eqs_hold (hkept : Kept ts x) (heq : (constraintOf lib ts).EqHolds x) :
    ∀ t ∈ ts, t.isEq = true → t.Holds x := by
  induction ts using List.reverseRecOn with
  | nil => simp
  | append_singleton ts t ih =>
    obtain ⟨hinit, -, hlast⟩ := List.pairwise_append.mp hkept
    rw [constraintOf_concat, eqHolds_constrain] at heq
    rintro s hs hse
    rcases List.mem_append.mp hs with hs | hs
    · split at heq
      · rename_i ht
        exact hlast s hs t (by simp) (.inl ⟨ht, hse⟩) heq
      · exact ih hinit heq s hs hse
    · obtain rfl := List.mem_singleton.mp hs
      rwa [if_pos hse] at heq

theorem bounds_hold (h : Comparable lib type ts) (hx : KeyValue type x) (hkept : Kept ts x)
    (hb : (constraintOf lib ts).LoHolds x ∧ (constraintOf lib ts).UpHolds x) :
    ∀ t ∈ ts, (t.isLower || t.isUpper) = true → t.Holds x := by
  induction ts using List.reverseRecOn with
  | nil => simp
  | append_singleton ts t ih =>
    obtain ⟨hinit, -, hlast⟩ := List.pairwise_append.mp hkept
    obtain ⟨hbefore, ht⟩ := (h.boundsHold_iff hx).mp hb
    rintro s hs hsb
    rcases List.mem_append.mp hs with hs | hs
    · rcases hbefore with hpre | hb
      · have htb : (t.isLower || t.isUpper) = true := by
          cases t <;> simp_all [Test.isPrefix, Test.isLower]
        exact hlast s hs t (by simp) (.inr ⟨hpre, hsb⟩) (ht htb)
      · exact ih h.init hinit hb s hs hsb
    · obtain rfl := List.mem_singleton.mp hs
      exact ht hsb

/-- A value that satisfies the constraint passes all tests, where none is lost. -/
theorem Comparable.all_hold (h : Comparable lib type ts) (hx : KeyValue type x) (hkept : Kept ts x)
    (hold : (constraintOf lib ts).Holds x) : ∀ t ∈ ts, t.Holds x := by
  obtain ⟨heq, hb⟩ := Constraint.holds_iff.mp hold
  intro t ht
  by_cases he : t.isEq = true
  · exact eqs_hold hkept heq t ht he
  by_cases hl : (t.isLower || t.isUpper) = true
  · exact bounds_hold h hx hkept hb t ht hl
  · exact holds_of_free (by simpa using he) (by simpa using hl)

end Run

section State

variable (lib : Stdlib) (schema : TableSchema)

/-- The test of the leaf if it is about the key column at `p`. -/
def testOn (p : ℕ) (e : Expr) : Option Test :=
  (leafTest lib schema e).bind fun q => if q.1 = p then some q.2 else none

/-- The tests among the leaves that are about the key column at `p`, in order. -/
def testsOn (ls : List Expr) (p : ℕ) : List Test := ls.filterMap (testOn lib schema p)

/-- The leaf is a test of a key column that leaves nothing to check. -/
def folded (e : Expr) : Bool := (leafTest lib schema e).any fun q => q.2.folds

/-- The planner after the leaves of a WHERE. -/
def planned (ls : List Expr) : PlanState :=
  ls.foldl (fun st e => applyTest lib (leafTest lib schema e) st) ⟨fun _ => none, true⟩

theorem applyTest_exact (o : Option (ℕ × Test)) (st : PlanState) :
    (applyTest lib o st).exact = (st.exact && o.any fun q => q.2.folds) := by
  rcases o with _ | ⟨p, t⟩
  · simp [applyTest, PlanState.inexact]
  · cases h : t.folds <;> simp [applyTest, PlanState.inexact, PlanState.update, h]

theorem applyTest_cons (o : Option (ℕ × Test)) (st : PlanState) (p : ℕ) :
    (applyTest lib o st).cons p =
      match o.bind fun q => if q.1 = p then some q.2 else none with
      | some t => some (t.constrain lib ((st.cons p).getD {}))
      | none => st.cons p := by
  rcases o with _ | ⟨q, t⟩
  · rfl
  · by_cases hq : q = p
    · subst hq
      cases h : t.folds <;> simp [applyTest, PlanState.inexact, PlanState.update, h]
    · have hp : ¬ p = q := fun h => hq h.symm
      cases h : t.folds <;> simp [applyTest, PlanState.inexact, PlanState.update, h, hq, hp]

theorem planned_concat (ls : List Expr) (e : Expr) : planned lib schema (ls ++ [e]) =
    applyTest lib (leafTest lib schema e) (planned lib schema ls) := by
  rw [planned, List.foldl_append]
  rfl

theorem planned_exact (ls : List Expr) :
    (planned lib schema ls).exact = ls.all (folded lib schema) := by
  induction ls using List.reverseRecOn with
  | nil => rfl
  | append_singleton ls e ih =>
    rw [planned_concat, applyTest_exact, ih]
    simp [folded]

theorem planned_cons (ls : List Expr) (p : ℕ) : (planned lib schema ls).cons p =
    if testsOn lib schema ls p = [] then none
    else some (constraintOf lib (testsOn lib schema ls p)) := by
  induction ls using List.reverseRecOn with
  | nil => rfl
  | append_singleton ls e ih =>
    have hsplit : testsOn lib schema (ls ++ [e]) p =
        testsOn lib schema ls p ++ (testOn lib schema p e).toList := by
      unfold testsOn
      rw [List.filterMap_append]
      cases h : testOn lib schema p e <;> simp [h]
    rw [planned_concat, applyTest_cons, ← testOn, ih, hsplit]
    cases testOn lib schema p e with
    | none => simp
    | some t =>
      by_cases hnil : testsOn lib schema ls p = []
      · simp [hnil, constraintOf]
      · simp [hnil]

end State

end Ydbgo.Sql
