import Ydbgo.Sql.Aggregate
import Ydbgo.Sql.Insert

/-! # Where the evaluator panics

Index and slice expressions are checked in the model. An expression panics in a
row exactly when its evaluation reaches a call without its argument, or a
`substr` whose end, computed in 64 bits, lies before its start.
-/

namespace Ydbgo.Sql

variable {α β : Type}

def Panics (x : Eval α) : Prop := x.run = none

def Gives (x : Eval α) (a : α) : Prop := x.run = some (.ok a)

section Rules

@[simp] theorem panics_pure (a : α) : ¬ Panics (pure a : Eval α) := nofun

@[simp] theorem panics_failWith (v : Value) (msg : Bytes) : ¬ Panics (failWith v msg : Eval α) :=
  nofun

@[simp] theorem panics_fail (msg : Bytes) : ¬ Panics (fail msg : Eval α) := nofun

@[simp] theorem panics_panic : Panics (panic : Eval α) := rfl

@[simp] theorem gives_pure {a b : α} : Gives (pure a : Eval α) b ↔ a = b := by
  constructor
  · rintro ⟨⟩
    rfl
  · rintro rfl
    rfl

@[simp] theorem gives_panic {a : α} : ¬ Gives (panic : Eval α) a := nofun

@[simp] theorem gives_failWith {v : Value} {msg : Bytes} {a : α} :
    ¬ Gives (failWith v msg : Eval α) a := nofun

@[simp] theorem gives_fail {msg : Bytes} {a : α} : ¬ Gives (fail msg : Eval α) a := nofun

theorem gives_unique {x : Eval α} {a b : α} (ha : Gives x a) (hb : Gives x b) : a = b := by
  have hab := ha.symm.trans hb
  cases hab
  rfl

theorem panics_bind {x : Eval α} {f : α → Eval β} :
    Panics (x >>= f) ↔ Panics x ∨ ∃ a, Gives x a ∧ Panics (f a) := by
  unfold Panics Gives
  rw [ExceptT.run_bind]
  rcases x.run with _ | _ | a <;> simp

theorem gives_bind {x : Eval α} {f : α → Eval β} {b : β} :
    Gives (x >>= f) b ↔ ∃ a, Gives x a ∧ Gives (f a) b := by
  unfold Gives
  rw [ExceptT.run_bind]
  rcases x.run with _ | _ | a <;> simp

@[simp] theorem panics_check {x : Eval α} : Panics (check x) ↔ Panics x := by
  obtain _ | _ | a := x <;> simp [check, Panics, tryCatch, tryCatchThe, MonadExceptOf.tryCatch,
    ExceptT.tryCatch, ExceptT.run, ExceptT.mk, fail, failWith, throw, throwThe,
    MonadExceptOf.throw]

@[simp] theorem gives_check {x : Eval α} {a : α} : Gives (check x) a ↔ Gives x a := by
  obtain _ | _ | a := x <;> simp [check, Gives, tryCatch, tryCatchThe, MonadExceptOf.tryCatch,
    ExceptT.tryCatch, ExceptT.run, ExceptT.mk, fail, failWith, throw, throwThe,
    MonadExceptOf.throw]

theorem panics_index {xs : List α} {i : ℕ} : Panics (index xs i) ↔ xs.length ≤ i := by
  unfold index
  rw [← List.getElem?_eq_none_iff]
  cases xs[i]? <;> simp

theorem gives_index {xs : List α} {i : ℕ} {a : α} : Gives (index xs i) a ↔ xs[i]? = some a := by
  unfold index
  cases h : xs[i]? <;> simp

@[simp] theorem panics_map {x : Eval α} {f : α → β} : Panics (f <$> x) ↔ Panics x := by
  rw [← bind_pure_comp, panics_bind]
  simp

@[simp] theorem gives_map {x : Eval α} {f : α → β} {b : β} :
    Gives (f <$> x) b ↔ ∃ a, Gives x a ∧ f a = b := by
  rw [← bind_pure_comp, gives_bind]
  simp

theorem panics_ite {c : Prop} [Decidable c] {x y : Eval α} :
    Panics (if c then x else y) ↔ c ∧ Panics x ∨ ¬ c ∧ Panics y := by
  split <;> simp_all

end Rules

section Operators

variable (lib : Stdlib)

theorem panics_cannotParse (v : Value) (t : SqlType) : ¬ Panics (cannotParse lib v t) := nofun

theorem panics_convert (v : Value) (t : SqlType) : ¬ Panics (convert lib v t) := by
  unfold convert
  repeat' split
  all_goals simp [panics_cannotParse, panics_ite]

theorem panics_evalArith (op : BinOp) (l r : Value) : ¬ Panics (evalArith lib op l r) := by
  unfold evalArith
  repeat' split
  all_goals simp

theorem panics_evalBinary (op : BinOp) (l r : Value) : ¬ Panics (evalBinary lib op l r) := by
  cases op <;> simp [evalBinary, panics_evalArith]

theorem panics_evalUnary (op : UnOp) (v : Value) : ¬ Panics (evalUnary lib op v) := by
  unfold evalUnary
  repeat' split
  all_goals simp

theorem panics_evalBinaryOpValues (op : BinOp) (l r : Value) :
    ¬ Panics (evalBinaryOpValues lib op l r) := by
  unfold evalBinaryOpValues
  repeat' split
  all_goals simp

theorem panics_timeBucket (iv ts : Value) : ¬ Panics (timeBucket lib iv ts) := by
  unfold timeBucket
  repeat' split
  all_goals simp [panics_convert]

end Operators

section Calls

variable (lib : Stdlib)

/-- The value a result carries, beside its error if it has one. -/
def Beside (x : Eval Value) (v : Value) : Prop := Gives x v ∨ ∃ msg, x.run = some (.error (v, msg))

/-- A loop over `as` gets to an `a` with `P a`. -/
def Reaches (f : α → Eval β) (P : α → Prop) (as : List α) : Prop :=
  ∃ pre a post, as = pre ++ a :: post ∧ (∀ b ∈ pre, ∃ v, Gives (f b) v) ∧ P a

theorem reaches_nil {f : α → Eval β} {P : α → Prop} : ¬ Reaches f P [] := by
  rintro ⟨pre, a, post, h, -⟩
  simp at h

theorem reaches_cons {f : α → Eval β} {P : α → Prop} {a : α} {as : List α} :
    Reaches f P (a :: as) ↔ P a ∨ (∃ v, Gives (f a) v) ∧ Reaches f P as := by
  constructor
  · rintro ⟨_ | ⟨b, pre⟩, c, post, h, hpre, hc⟩
    · obtain ⟨rfl, rfl⟩ := List.cons.inj h
      exact .inl hc
    · obtain ⟨rfl, rfl⟩ := List.cons.inj h
      rw [List.forall_mem_cons] at hpre
      exact .inr ⟨hpre.1, pre, c, post, rfl, hpre.2, hc⟩
  · rintro (h | ⟨hv, pre, c, post, rfl, hpre, hc⟩)
    · exact ⟨[], a, as, rfl, by simp, h⟩
    · exact ⟨a :: pre, c, post, rfl, List.forall_mem_cons.mpr ⟨hv, hpre⟩, hc⟩

theorem reaches_congr {f : α → Eval β} {P Q : α → Prop} {as : List α}
    (h : ∀ a ∈ as, P a ↔ Q a) : Reaches f P as ↔ Reaches f Q as := by
  constructor
  · rintro ⟨pre, a, post, rfl, hpre, ha⟩
    exact ⟨pre, a, post, rfl, hpre, (h a (by simp)).mp ha⟩
  · rintro ⟨pre, a, post, rfl, hpre, ha⟩
    exact ⟨pre, a, post, rfl, hpre, (h a (by simp)).mpr ha⟩

theorem panics_collect {f : α → Eval β} {as : List α} :
    Panics (collect f as) ↔ Reaches f (fun a => Panics (f a)) as := by
  induction as with
  | nil => simp [collect, reaches_nil]
  | cons a as ih =>
    rw [reaches_cons, ← ih, collect, panics_bind]
    simp

theorem panics_concat {args : List (Eval Value)} :
    Panics (concat lib args) ↔ Reaches id Panics args := by
  induction args with
  | nil => simp [concat, reaches_nil]
  | cons a args ih =>
    rw [reaches_cons, ← ih, concat, panics_bind]
    simp

/-- The start lies in the string. -/
def StartsIn (v start : Value) : Prop := (startOf start).toInt ≤ (runes (v.string lib)).length

theorem one_le_startOf (start : Value) : 1 ≤ (startOf start).toInt := by
  unfold startOf
  split
  · decide
  · rename_i h
    rw [Int64.lt_iff_toInt_lt] at h
    have h1 : (1 : Int64).toInt = 1 := by decide
    omega

theorem toInt_sub_one {n : Int64} (h : -2 ^ 63 < n.toInt) : (n - 1).toInt = n.toInt - 1 := by
  have hlt := n.toInt_lt
  rw [Int64.toInt_sub, show (1 : Int64).toInt = 1 by decide]
  exact Int.bmod_eq_of_le (by omega) (by omega)

theorem toInt_sub_one_min {n : Int64} (h : n.toInt = -2 ^ 63) : (n - 1).toInt = 2 ^ 63 - 1 := by
  rw [Int64.toInt_sub, show (1 : Int64).toInt = 1 by decide, h]
  decide

theorem panics_slice {xs : List α} {lo hi : Int64} : Panics (slice xs lo hi) ↔
    ¬ (0 ≤ lo.toInt ∧ lo.toInt ≤ hi.toInt ∧ hi.toInt ≤ xs.length ∧ hi.toInt < 2 ^ 63 - 1) := by
  unfold slice
  rw [panics_ite]
  simp

theorem panics_sliceFrom {xs : List α} {lo : Int64} : Panics (sliceFrom xs lo) ↔
    ¬ (0 ≤ lo.toInt ∧ lo.toInt ≤ xs.length) := by
  unfold sliceFrom
  rw [panics_ite]
  simp

/-- The slice of a three-argument `substr` is out of range exactly when the 64-bit sum of its start
and count is below the start. -/
theorem panics_slice_iff {xs : List α} {lo sum : Int64} (hlo : 1 ≤ lo.toInt)
    (hle : lo.toInt ≤ xs.length) :
    Panics (slice xs (lo - 1)
      ((if (xs.length : ℤ) + 1 < sum.toInt then Int64.ofNat (xs.length + 1) else sum) - 1)) ↔
      sum < lo := by
  have hlo' := toInt_sub_one (n := lo) (by omega)
  have hsum := sum.toInt_lt
  have hsum' := sum.le_toInt
  rw [panics_slice, Int64.lt_iff_toInt_lt, hlo']
  split
  · have hn : (Int64.ofNat (xs.length + 1)).toInt = (xs.length + 1 : ℕ) :=
      Int64.toInt_ofNat_of_lt (by omega)
    rw [toInt_sub_one (by omega), hn]
    omega
  · by_cases hmin : sum.toInt = -2 ^ 63
    · rw [toInt_sub_one_min hmin]
      omega
    · rw [toInt_sub_one (by omega)]
      omega

theorem tryCatch_beside {x : Eval Value} {k : Value → Eval β} :
    Panics (tryCatch x (fun e => pure e.1) >>= k) ↔ Panics x ∨ ∃ v, Beside x v ∧ Panics (k v) := by
  rw [panics_bind]
  obtain _ | ⟨v, msg⟩ | v := x <;> simp [Beside, Panics, Gives, tryCatch, tryCatchThe,
    MonadExceptOf.tryCatch, ExceptT.tryCatch, ExceptT.run, ExceptT.mk, pure, ExceptT.pure]

theorem panics_substr {v start : Value} {count : Option (Eval Value)} :
    Panics (substr lib v start count) ↔ ∃ c, count = some c ∧ StartsIn lib v start ∧
      (Panics c ∨ ∃ cnt, Beside c cnt ∧ startOf start + cnt.int < startOf start) := by
  have hone := one_le_startOf start
  unfold substr StartsIn
  rw [panics_ite]
  by_cases h : (startOf start).toInt ≤ (runes (v.string lib)).length
  · have hsub := toInt_sub_one (n := startOf start) (by omega)
    cases count with
    | none =>
      simp [not_lt.mpr h, panics_sliceFrom, hsub]
      omega
    | some c =>
      simp only [not_lt.mpr h, false_and, not_false_eq_true, true_and, false_or,
        tryCatch_beside, bind_pure_comp, panics_map, panics_slice_iff hone h, Option.some.injEq,
        exists_eq_left', h]
  · simp [h, lt_of_not_ge h]

/-- An argument of a call: what its evaluation gives, and whether that faults. -/
structure Arg where
  outcome : Eval Value
  faults : Prop

/-- A call gets to an index or slice out of range, in itself or in an argument. -/
def CallFaults (fn : Fn) (args : List Arg) : Prop :=
  match fn with
  | .abs | .lower | .upper | .length => args = [] ∨ ∃ a rest, args = a :: rest ∧ a.faults
  | .concat => Reaches Arg.outcome Arg.faults args
  | .substr => ∃ a b rest, args = a :: b :: rest ∧ (a.faults ∨ ∃ v, Gives a.outcome v ∧
      (b.faults ∨ ∃ start, Gives b.outcome start ∧ ∃ c, rest[0]? = some c ∧
        StartsIn lib v start ∧ (c.faults ∨
          ∃ cnt, Beside c.outcome cnt ∧ startOf start + cnt.int < startOf start)))
  | .timeBucket => ∃ a b, args = [a, b] ∧ (a.faults ∨ (∃ v, Gives a.outcome v) ∧ b.faults)
  | .now | .unixepoch | .unknown => False

def arg (x : Eval Value) : Arg := { outcome := x, faults := Panics x }

theorem reaches_map {γ : Type} {f : α → Eval β} {P : α → Prop} {g : γ → α} {as : List γ} :
    Reaches f P (as.map g) ↔ Reaches (f ∘ g) (P ∘ g) as := by
  induction as with
  | nil => simp [reaches_nil]
  | cons a as ih => simp [reaches_cons, ih]

theorem panics_first {args : List (Eval Value)} {k : Value → Eval β} (hk : ∀ v, ¬ Panics (k v)) :
    Panics (do
      let v ← check (← index args 0)
      k v) ↔ args.map arg = [] ∨ ∃ a rest, args.map arg = a :: rest ∧ a.faults := by
  cases args with
  | nil => simp [panics_bind, panics_index]
  | cons a rest => simp [panics_bind, panics_index, gives_index, hk, arg]

theorem panics_evalCall {fn : Bytes} {args : List (Eval Value)} :
    Panics (evalCall lib fn args) ↔
      CallFaults lib (Fn.ofName (lib.toLower fn)) (args.map arg) := by
  unfold evalCall CallFaults
  cases Fn.ofName (lib.toLower fn) with
  | abs =>
    refine panics_first fun v => ?_
    repeat' split
    all_goals simp
  | lower => exact panics_first fun v => panics_pure _
  | upper => exact panics_first fun v => panics_pure _
  | length => exact panics_first fun v => panics_pure _
  | concat =>
    simp only [bind_pure_comp, panics_map, panics_concat, reaches_map]
    rfl
  | substr =>
    obtain _ | ⟨a, _ | ⟨b, rest⟩⟩ := args
    · simp
    · simp
    · simp [panics_bind, panics_index, gives_index, panics_substr, panics_ite, arg]
  | timeBucket =>
    obtain _ | ⟨a, _ | ⟨b, _ | ⟨c, rest⟩⟩⟩ := args
    · simp
    · simp
    · simp [panics_bind, panics_index, gives_index, panics_timeBucket, arg]
    · simp
  | now => simp
  | unixepoch => simp
  | unknown => simp

end Calls

section Expressions

variable (lib : Stdlib) (ctx : RowContext)

mutual

/-- The evaluation of the expression gets to an index or slice out of range. -/
def Faults : Expr → Prop
  | .nil | .ident _ | .literal _ => False
  | .unary _ e => Faults e
  | .cast e _ => Faults e
  | .binary _ left right =>
    Faults left ∨ (∃ v, Gives (eval lib ctx left) v) ∧ Faults right
  | .call name args => CallFaults lib (Fn.ofName (lib.toLower name)) (faultArgs args)

def faultArgs : List Expr → List Arg
  | [] => []
  | e :: es => { outcome := eval lib ctx e, faults := Faults e } :: faultArgs es

end

theorem faultArgs_eq (es : List Expr) :
    faultArgs lib ctx es = es.map fun e => ⟨eval lib ctx e, Faults lib ctx e⟩ := by
  induction es with
  | nil => rfl
  | cons e es ih => rw [faultArgs, List.map_cons, ih]

/-- An expression panics exactly when its evaluation gets to a fault. -/
theorem panics_eval_iff (e : Expr) : Panics (eval lib ctx e) ↔ Faults lib ctx e := by
  induction e with
  | nil => simp [eval, Faults]
  | ident name =>
    unfold eval Faults
    repeat' split
    all_goals simp
  | literal l => simp [eval, Faults]
  | unary op e ih => simp [eval, Faults, panics_bind, panics_evalUnary, ih]
  | cast e type ih => simp [eval, Faults, panics_bind, panics_convert, ih]
  | binary op left right ihl ihr =>
    simp [eval, Faults, panics_bind, panics_evalBinary, ihl, ihr]
  | call name args ih =>
    have hargs : args.map (arg ∘ eval lib ctx) = faultArgs lib ctx args := by
      rw [faultArgs_eq]
      exact List.map_congr_left fun a ha => congrArg _ (propext (ih a ha))
    rw [eval, Faults, panics_evalCall, evalArgs_eq, List.map_map, hargs]

end Expressions

section Aggregates

variable (lib : Stdlib)

/-- The loop of an aggregate gets to a row in which its argument is missing or faults; `ok` says
which values let the loop go on. -/
def ArgFaults (ok : Value → Prop) (args : List Expr) (rows : List RowContext) : Prop :=
  ∃ pre ctx post, rows = pre ++ ctx :: post ∧
    (∀ c ∈ pre, ∃ e v, args[0]? = some e ∧ Gives (eval lib c e) v ∧ ok v) ∧
    ∀ e, args[0]? = some e → Faults lib ctx e

theorem argFaults_cons {ok : Value → Prop} {args : List Expr} {ctx : RowContext}
    {rows : List RowContext} : ArgFaults lib ok args (ctx :: rows) ↔
      (∀ e, args[0]? = some e → Faults lib ctx e) ∨
        (∃ e v, args[0]? = some e ∧ Gives (eval lib ctx e) v ∧ ok v) ∧
          ArgFaults lib ok args rows := by
  constructor
  · rintro ⟨_ | ⟨c, pre⟩, d, post, h, hpre, hd⟩
    · obtain ⟨rfl, rfl⟩ := List.cons.inj h
      exact .inl hd
    · obtain ⟨rfl, rfl⟩ := List.cons.inj h
      rw [List.forall_mem_cons] at hpre
      exact .inr ⟨hpre.1, pre, d, post, rfl, hpre.2, hd⟩
  · rintro (h | ⟨hv, pre, d, post, rfl, hpre, hd⟩)
    · exact ⟨[], ctx, rows, rfl, by simp, h⟩
    · exact ⟨ctx :: pre, d, post, rfl, List.forall_mem_cons.mpr ⟨hv, hpre⟩, hd⟩

theorem panics_foldArg {σ : Type} {f : σ → Value → Eval σ} {ok : Value → Prop}
    (hf : ∀ s v, ¬ Panics (f s v)) (hok : ∀ s v, (∃ s', Gives (f s v) s') ↔ ok v)
    {args : List Expr} {rows : List RowContext} (s : σ) :
    Panics (foldArg lib args f rows s) ↔ ArgFaults lib ok args rows := by
  induction rows generalizing s with
  | nil =>
    simp only [foldArg, panics_pure, false_iff]
    rintro ⟨pre, ctx, post, h, -⟩
    simp at h
  | cons ctx rows ih =>
    rw [argFaults_cons]
    cases h : args[0]? with
    | none =>
      have hlen : args.length ≤ 0 := List.getElem?_eq_none_iff.mp h
      simp [foldArg, panics_bind, panics_index, hlen]
    | some e =>
      have hlen : ¬ args.length ≤ 0 := fun hl => by
        rw [List.getElem?_eq_none_iff.mpr hl] at h
        cases h
      simp only [foldArg, panics_bind, panics_index, hlen, gives_index, h, panics_check,
        gives_check, hf, ih, panics_eval_iff, Option.some.injEq, exists_eq_left', false_or,
        forall_eq', exists_and_left]
      constructor
      · rintro (h | ⟨v, hv, s', hs, hr⟩)
        · exact .inl h
        · exact .inr ⟨⟨v, hv, (hok s v).mp ⟨s', hs⟩⟩, hr⟩
      · rintro (h | ⟨⟨v, hv, ho⟩, hr⟩)
        · exact .inl h
        · obtain ⟨s', hs⟩ := (hok s v).mpr ho
          exact .inr ⟨v, hv, s', hs, hr⟩

def AggCallFaults (fn : Bytes) (args : List Expr) (rows : List RowContext) : Prop :=
  match Agg.ofName (lib.toLower fn) with
  | .count =>
    args.length = 1 ∧ args ≠ [.ident (ascii "*")] ∧ ArgFaults lib (fun _ => True) args rows
  | .sum | .avg => ArgFaults lib (fun v => v.null ∨ (v.asFloat lib).isSome) args rows
  | .min | .max => ArgFaults lib (fun _ => True) args rows
  | .countIf => args.length = 1 ∧ ArgFaults lib (fun _ => True) args rows
  | .other => ∀ ctx, rows[0]? = some ctx → Faults lib ctx (.call fn args)

theorem panics_total {msg : String} (t : Total) (v : Value) : ¬ Panics (t.add lib msg v) := by
  unfold Total.add
  repeat' split
  all_goals simp

theorem gives_total {msg : String} (t : Total) (v : Value) :
    (∃ t', Gives (t.add lib msg v) t') ↔ v.null ∨ (v.asFloat lib).isSome := by
  unfold Total.add
  split
  · simp_all
  · split <;> simp_all

theorem panics_evalAggregateCall {fn : Bytes} {args : List Expr} {rows : List RowContext} :
    Panics (evalAggregateCall lib fn args rows) ↔ AggCallFaults lib fn args rows := by
  have hpure : ∀ {σ : Type} {g : σ → Value → σ} {s : σ},
      Panics (foldArg lib args (fun s v => return g s v) rows s) ↔
        ArgFaults lib (fun _ => True) args rows :=
    fun {σ g s} => panics_foldArg lib (f := fun s v => return g s v) (by simp) (by simp) s
  have htotal : ∀ {msg : String} {s : Total},
      Panics (foldArg lib args (Total.add lib msg) rows s) ↔
        ArgFaults lib (fun v => v.null ∨ (v.asFloat lib).isSome) args rows :=
    fun {msg s} => panics_foldArg lib (panics_total lib) (gives_total lib) s
  unfold evalAggregateCall AggCallFaults
  cases Agg.ofName (lib.toLower fn) with
  | count =>
    simp only [panics_ite, bind_pure_comp, panics_map, hpure, panics_pure, and_false, or_false,
      and_assoc]
  | sum => simp [htotal]
  | min => simp [hpure]
  | max => simp [hpure]
  | avg => simp [htotal]
  | countIf => simp [panics_ite, hpure]
  | other =>
    have hcall : ∀ ctx, Panics (evalCall lib fn (evalArgs lib ctx args)) ↔
        Faults lib ctx (.call fn args) := fun ctx => panics_eval_iff lib ctx (.call fn args)
    simp only [panics_bind, panics_index, gives_index, hcall]
    cases rows <;> simp

/-- The evaluation of a select item over a group gets to an index or slice out of range. -/
def AggFaults (rows : List RowContext) : Expr → Prop
  | .nil | .ident _ | .literal _ => False
  | .call name args => AggCallFaults lib name args rows
  | .unary _ e => AggFaults rows e
  | .cast e _ => AggFaults rows e
  | .binary _ left right =>
    AggFaults rows left ∨ (∃ v, Gives (evalSelectItemAgg lib rows left) v) ∧ AggFaults rows right

theorem panics_evalSelectItemAgg_iff (rows : List RowContext) (e : Expr) :
    Panics (evalSelectItemAgg lib rows e) ↔ AggFaults lib rows e := by
  induction e with
  | nil => simp [evalSelectItemAgg, AggFaults]
  | ident name => cases rows <;> simp [evalSelectItemAgg, AggFaults]
  | literal l => simp [evalSelectItemAgg, AggFaults]
  | unary op e ih =>
    simp [evalSelectItemAgg, AggFaults, ih]
  | cast e type ih => simp [evalSelectItemAgg, AggFaults, panics_bind, panics_convert, ih]
  | binary op left right ihl ihr =>
    simp [evalSelectItemAgg, AggFaults, panics_bind, panics_evalBinaryOpValues, ihl, ihr]
  | call name args => rw [evalSelectItemAgg, AggFaults, panics_evalAggregateCall]

end Aggregates

section Rows

variable (lib : Stdlib) (schema : TableSchema) (cols : List Bytes)

/-- The position of the named column lies past the end of the row, or its value faults. -/
def CellFaults (row : List Expr) (name : Bytes) : Prop :=
  ∃ idx, colIndex cols name = some idx ∧ ∀ e, row[idx]? = some e → Faults lib (fun _ => none) e

def RowFaults (row : List Expr) : Prop :=
  cols.dedup.length ≤ row.length ∧
    Reaches (insertCell lib cols row) (fun c => CellFaults lib cols row c.name) schema.columns

def InsertFaults (rows : List (List Expr)) : Prop :=
  Reaches (insertRow lib schema cols) (RowFaults lib schema cols) rows

def PkFaults (row : List Expr) : Prop :=
  Reaches (pkValue lib schema cols row) (CellFaults lib cols row) schema.pk

theorem panics_cell {row : List Expr} {idx : ℕ} {k : Value → Eval β} (hk : ∀ v, ¬ Panics (k v)) :
    Panics (do
      let e ← index row idx
      let v ← check (eval lib (fun _ => none) e)
      k v) ↔ ∀ e, row[idx]? = some e → Faults lib (fun _ => none) e := by
  simp only [panics_bind, panics_index, gives_index, panics_check, hk, and_false, exists_false,
    or_false, panics_eval_iff]
  cases h : row[idx]? with
  | none => simp [List.getElem?_eq_none_iff.mp h]
  | some e =>
    have hlen : ¬ row.length ≤ idx := fun hl => by
      rw [List.getElem?_eq_none_iff.mpr hl] at h
      cases h
    simp [hlen]

theorem panics_insertCell {row : List Expr} {c : ColumnDef} :
    Panics (insertCell lib cols row c) ↔ CellFaults lib cols row c.name := by
  unfold insertCell CellFaults
  cases colIndex cols c.name with
  | none => simp
  | some idx =>
    refine (panics_cell lib fun v => ?_).trans (by simp)
    simp [panics_bind, panics_convert, panics_ite]

theorem panics_insertRow {row : List Expr} :
    Panics (insertRow lib schema cols row) ↔ RowFaults lib schema cols row := by
  unfold insertRow RowFaults
  rw [panics_ite, panics_collect, reaches_congr fun c _ => panics_insertCell lib cols]
  simp

theorem panics_pkValue {row : List Expr} {p : Bytes} :
    Panics (pkValue lib schema cols row p) ↔ CellFaults lib cols row p := by
  unfold pkValue CellFaults
  cases colIndex cols p with
  | none => simp
  | some idx =>
    refine (panics_cell lib fun v => ?_).trans (by simp)
    simp [panics_convert]

theorem colIndexFrom_lt {i : ℕ} {cols : List Bytes} {name : Bytes} {idx : ℕ}
    (h : colIndexFrom i cols name = some idx) : idx < i + cols.length := by
  induction cols generalizing i with
  | nil => simp [colIndexFrom] at h
  | cons c cols ih =>
    rw [colIndexFrom, Option.or_eq_some_iff] at h
    rw [List.length_cons]
    obtain h | ⟨-, h⟩ := h
    · have := ih h
      omega
    · split at h
      · cases h
        omega
      · cases h

/-- Where no column is named twice, the check of a row's length is enough: only a value can
fault. -/
theorem cellFaults_of_nodup (hn : cols.Nodup) {row : List Expr}
    (hlen : cols.dedup.length ≤ row.length) {name : Bytes} (h : CellFaults lib cols row name) :
    ∃ e ∈ row, Faults lib (fun _ => none) e := by
  obtain ⟨idx, hidx, hf⟩ := h
  have hlt := colIndexFrom_lt hidx
  rw [hn.dedup] at hlen
  have hget : row[idx]? = some (row.get ⟨idx, by omega⟩) := List.getElem?_eq_getElem (by omega)
  exact ⟨_, List.mem_of_getElem? hget, hf _ hget⟩

theorem panics_insertRows_iff (columns : List Bytes) (rows : List (List Expr)) :
    Panics (insertRows lib schema columns rows) ↔
      InsertFaults lib schema (insertColumns schema columns) rows := by
  unfold insertRows InsertFaults
  rw [panics_collect, reaches_congr fun row _ => panics_insertRow lib schema _]

theorem panics_pkKeyForRow_iff (columns : List Bytes) (row : List Expr) :
    Panics (pkKeyForRow lib schema columns row) ↔
      PkFaults lib schema (insertColumns schema columns) row := by
  unfold pkKeyForRow PkFaults
  rw [bind_pure_comp, panics_map, panics_collect,
    reaches_congr fun p _ => panics_pkValue lib schema _]

end Rows

/-- Every evaluator, on every input, stays in range exactly where no fault is reached. -/
theorem inRange_iff (lib : Stdlib) :
    (∀ ctx e, ¬ Panics (eval lib ctx e) ↔ ¬ Faults lib ctx e) ∧
    (∀ rows e, ¬ Panics (evalSelectItemAgg lib rows e) ↔ ¬ AggFaults lib rows e) ∧
    (∀ schema columns rows, ¬ Panics (insertRows lib schema columns rows) ↔
      ¬ InsertFaults lib schema (insertColumns schema columns) rows) ∧
    ∀ schema columns row, ¬ Panics (pkKeyForRow lib schema columns row) ↔
      ¬ PkFaults lib schema (insertColumns schema columns) row :=
  ⟨fun ctx e => not_congr (panics_eval_iff lib ctx e),
    fun rows e => not_congr (panics_evalSelectItemAgg_iff lib rows e),
    fun schema columns rows => not_congr (panics_insertRows_iff lib schema columns rows),
    fun schema columns row => not_congr (panics_pkKeyForRow_iff lib schema columns row)⟩

/-- The schema of `CREATE TABLE t (a int PRIMARY KEY)`. -/
def oneColumn : TableSchema where
  name := ascii "t"
  columns := [⟨ascii "a", .int, true, .nil, true⟩]
  pk := [ascii "a"]
  engine := ascii "TABLE"

/-- `abs()`, `substr('abc', 2, -1)` and, over the empty group, `lower('x')` panic, as do
`INSERT INTO t (a, a) VALUES (1)` and the router's key for it. -/
theorem not_inRange :
    Panics (eval .plain (fun _ => none) (.call (ascii "abs") [])) ∧
    Panics (eval .plain (fun _ => none) (.call (ascii "substr") [.literal (.string (ascii "abc")),
      .literal (.int 2), .unary .neg (.literal (.int 1))])) ∧
    Panics (evalSelectItemAgg .plain [] (.call (ascii "lower") [.literal (.string (ascii "x"))])) ∧
    Panics (insertRows .plain oneColumn [ascii "a", ascii "a"] [[.literal (.int 1)]]) ∧
    Panics (pkKeyForRow .plain oneColumn [ascii "a", ascii "a"] [.literal (.int 1)]) :=
  ⟨rfl, rfl, rfl, rfl, rfl⟩

end Ydbgo.Sql
