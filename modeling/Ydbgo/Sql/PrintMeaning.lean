import Ydbgo.Sql.Clock
import Ydbgo.Sql.PrintRight

/-! # What a parsed text computes

A statement computes the same after its text has been parsed, as long as its
literals and types survive. Every integer but the least one does: a negative one is
read as a minus and a number, which have its value.
-/

namespace Ydbgo.Sql

variable {lib : Stdlib} {text : Bytes} {n : Int64} {m : ℕ} {e : Expr} {ctx : RowContext}
  {schema : TableSchema} {st : Statement} {formatDuration : Int64 → Bytes}
  {parseDuration : Bytes → Option Int64}

/-! ### Integers -/

theorem numberPart_digits (h : text.all isDigit = true) :
    numberPart false false text = (false, text.length) := by
  induction text with
  | nil => rfl
  | cons c text ih =>
    obtain ⟨hc, htext⟩ := Bool.and_eq_true_iff.mp h
    have hcons : numberPart false false (c :: text) =
        (numberPart false false text).map id (· + 1) := by
      rw [numberPart, Bool.false_and, if_neg Bool.false_ne_true, if_pos hc]
    rw [hcons, ih htext]
    rfl

theorem numberToken_digits (h : text.all isDigit = true) :
    numberToken lib text = (parseInt text).map fun i =>
      ({ kind := .number, text := text, pos := 0, intVal := i }, text.length) := by
  unfold numberToken
  rw [numberPart_digits h]
  dsimp only
  rw [if_neg Bool.false_ne_true, List.take_length]

theorem parseInt_formatNat :
    parseInt (formatNat m) = if m < 2 ^ 63 then some (Int64.ofInt m) else none := by
  obtain ⟨b, s, hs⟩ := List.exists_cons_of_ne_nil (formatNat_ne_nil m)
  have hall := all_isDigit_formatNat m
  have hnat := natOfDigits_formatNat m
  rw [hs] at hall hnat ⊢
  rw [parseInt_digits hall, hnat]

theorem minus_not_mem (h : text.all isDigit = true) : text.head? ≠ some 45 := by
  intro hhead
  have hdigit := List.all_eq_true.mp h 45 (List.mem_of_mem_head? hhead)
  cases hdigit

theorem unsigned_of_head (h : text.head? ≠ some 45) : unsigned text = text := by
  unfold unsigned
  split
  · exact absurd rfl h
  · rfl

theorem numberReread_of_head (h : text.head? ≠ some 45) :
    numberReread lib text = .literal (numberLiteral lib text) := by
  unfold numberReread
  split
  · exact absurd rfl h
  · rfl

theorem unsigned_formatInt : unsigned (formatInt n) = formatNat n.toInt.natAbs := by
  by_cases h : n.toInt < 0
  · rw [formatInt_of_neg h]
    rfl
  · have habs : n.toInt.toNat = n.toInt.natAbs := by omega
    rw [formatInt_of_nonneg (Int.not_lt.mp h), habs]
    exact unsigned_of_head (minus_not_mem (all_isDigit_formatNat _))

theorem natAbs_lt_iff : n.toInt.natAbs < 2 ^ 63 ↔ n ≠ Int64.minValue := by
  have hlo := n.le_toInt
  have hhi := n.toInt_lt
  have hmin : n = Int64.minValue ↔ n.toInt = -2 ^ 63 := by
    rw [← Int64.toInt_inj, Int64.toInt_minValue]
  rw [Ne, hmin]
  omega

theorem signedNumber_formatInt_iff : SignedNumber lib (formatInt n) ↔ n ≠ Int64.minValue := by
  have hdigits := all_isDigit_formatNat n.toInt.natAbs
  unfold SignedNumber IsNumber
  rw [unsigned_formatInt, numberToken_digits hdigits, parseInt_formatNat, ← natAbs_lt_iff]
  constructor
  · rintro ⟨t, ht, -⟩
    by_contra hlt
    rw [if_neg hlt] at ht
    cases ht
  · intro hlt
    rw [if_pos hlt]
    refine ⟨_, rfl, ?_⟩
    obtain ⟨b, s, hs⟩ := List.exists_cons_of_ne_nil (formatNat_ne_nil n.toInt.natAbs)
    rw [hs] at hdigits ⊢
    exact (Bool.and_eq_true_iff.mp hdigits).1

theorem numberLiteral_formatNat (h : m < 2 ^ 63) :
    numberLiteral lib (formatNat m) = .int (Int64.ofInt m) := by
  unfold numberLiteral
  rw [numberToken_digits (all_isDigit_formatNat m), parseInt_formatNat, if_pos h]
  rfl

theorem eval_reread_int (h : n ≠ Int64.minValue) :
    eval lib ctx ((Literal.int n).reread lib) = return intValue n := by
  have habs := natAbs_lt_iff.mpr h
  change eval lib ctx (numberReread lib (formatInt n)) = _
  by_cases hneg : n.toInt < 0
  · have hread : numberReread lib (formatInt n) =
        .unary .neg (.literal (.int (Int64.ofInt n.toInt.natAbs))) := by
      rw [formatInt_of_neg hneg, ← numberLiteral_formatNat habs]
      rfl
    have hvalue : -Int64.ofInt n.toInt.natAbs = n := by
      rw [← Int64.ofInt_neg, show -(n.toInt.natAbs : ℤ) = n.toInt by omega, Int64.ofInt_toInt]
    rw [hread]
    change (return intValue (-Int64.ofInt n.toInt.natAbs) : Eval Value) = _
    rw [hvalue]
  · have htext : formatInt n = formatNat n.toInt.natAbs := by
      rw [formatInt_of_nonneg (Int.not_lt.mp hneg), show n.toInt.toNat = n.toInt.natAbs by omega]
    have hvalue : Int64.ofInt n.toInt.natAbs = n := by
      rw [show (n.toInt.natAbs : ℤ) = n.toInt by omega, Int64.ofInt_toInt]
    rw [htext, numberReread_of_head (minus_not_mem (all_isDigit_formatNat _)),
      numberLiteral_formatNat habs, hvalue]
    rfl

/-! ### Expressions -/

section

variable (lib : Stdlib)

/-- The text says all of the expression's own part. -/
def Expr.Survives : Expr → Prop
  | .literal (.float x) => (Literal.float x).reread lib = .literal (.float x)
  | .literal (.timestamp _) => False
  | .cast _ type => type.reread = type
  | _ => True

/-- The text says all of the expression. -/
def Expr.Faithful (e : Expr) : Prop := e.All (Expr.Survives lib)

end

theorem eval_reread (h : e.Printable lib) (hall : e.Faithful lib) :
    eval lib ctx (e.reread lib) = eval lib ctx e := by
  unfold Expr.Printable at h
  unfold Expr.Faithful at hall
  induction e with
  | nil => rfl
  | ident name => rfl
  | literal l =>
    cases l with
    | int n => exact eval_reread_int (signedNumber_formatInt_iff.mp h)
    | float x =>
      have hx : (Literal.float x).reread lib = .literal (.float x) := hall
      exact congrArg (eval lib ctx) hx
    | timestamp n => exact absurd hall id
    | null => rfl
    | string s => rfl
    | bool b => rfl
    | other k => rfl
  | binary op left right hl hr =>
    unfold Expr.reread eval
    rw [hl h.2.1 hall.2.1, hr h.2.2 hall.2.2]
  | unary op e he =>
    unfold Expr.reread eval
    rw [he h.2 hall.2]
  | call name args ih =>
    have hprintable := Expr.allOf_iff.mp h.2
    have hfaithful := Expr.allOf_iff.mp hall.2
    unfold Expr.reread eval
    rw [evalArgs_eq, evalArgs_eq, rereads_eq, List.map_map]
    congr 1
    exact List.map_congr_left fun a ha => ih a ha (hprintable a ha) (hfaithful a ha)
  | cast e type he =>
    have htype : type.reread = type := hall.1
    unfold Expr.reread eval
    rw [he h.2 hall.2, htype]

theorem ne_nil_of_printable (h : e.Printable lib) : e ≠ .nil := by
  rintro rfl
  exact h

theorem reread_ne_nil (h : e.Printable lib) : e.reread lib ≠ .nil := by
  have hnumber (text : Bytes) : numberReread lib text ≠ .nil := by
    unfold numberReread
    split <;> exact Expr.noConfusion
  unfold Expr.Printable at h
  cases e with
  | nil => exact absurd h id
  | literal l =>
    cases l with
    | int n => exact hnumber _
    | float x => exact hnumber _
    | _ => exact Expr.noConfusion
  | _ => exact Expr.noConfusion

/-! ### Statements -/

section

variable (lib : Stdlib)

/-- The text says all of the statement. -/
def Statement.Faithful : Statement → Prop
  | .createTable _ columns _ ifNotExists _ retention =>
    ifNotExists = false ∧ (0 < retention ∨ retention = 0) ∧ ∀ c ∈ columns, c.reread = c
  | .dropIndex _ table _ => table = []
  | .insert _ _ rows => ∀ row ∈ rows, ∀ e ∈ row, e.Faithful lib
  | .update _ sets where_ => (∀ s ∈ sets, s.value.Faithful lib) ∧ where_.Faithful lib
  | .delete _ where_ => where_.Faithful lib
  | .kvScan _ start stop hasStart hasEnd =>
    (hasStart = true ∨ start = [] ∧ hasEnd = false) ∧ (hasEnd = true ∨ stop = [])
  | _ => True

/-- The second statement does what the first one does: an INSERT to the engine, an UPDATE and a
DELETE to each row. -/
def Statement.SameEffect : Statement → Statement → Prop
  | .insert table columns rows, st' => ∃ rows', st' = .insert table columns rows' ∧
      execInsert lib table columns rows' = execInsert lib table columns rows
  | .update table sets where_, st' => ∃ sets' where', st' = .update table sets' where' ∧
      ∀ schema ctx, whereTrue lib where' ctx = whereTrue lib where_ ctx ∧
        evalSetsCtx lib schema ctx sets' = evalSetsCtx lib schema ctx sets
  | .delete table where_, st' => ∃ where', st' = .delete table where' ∧
      ∀ ctx, whereTrue lib where' ctx = whereTrue lib where_ ctx
  | st, st' => st' = st

end

theorem whereTrue_reread (h : PrintableOrNil lib e) (hall : e.Faithful lib) :
    whereTrue lib (e.reread lib) ctx = whereTrue lib e ctx := by
  rcases h with rfl | h
  · rfl
  · unfold whereTrue
    rw [if_neg (reread_ne_nil h), if_neg (ne_nil_of_printable h), eval_reread h hall]

theorem collect_map {α β γ : Type} {f : β → Eval γ} {g : α → β} (as : List α) :
    collect f (as.map g) = collect (fun a => f (g a)) as := by
  induction as with
  | nil => rfl
  | cons a as ih => rw [List.map_cons, collect, collect, ih]

theorem evalSetsCtx_reread {sets : List SetItem}
    (h : ∀ s ∈ sets, s.value.Printable lib ∧ s.value.Faithful lib) :
    evalSetsCtx lib schema ctx (sets.map (SetItem.reread lib)) =
      evalSetsCtx lib schema ctx sets := by
  unfold evalSetsCtx
  rw [collect_map]
  refine collect_congr fun s hs => ?_
  have hvalue : setValue lib schema ctx (s.reread lib) = setValue lib schema ctx s := by
    unfold setValue SetItem.reread
    dsimp only
    rw [eval_reread (h s hs).1 (h s hs).2]
  rw [hvalue]
  rfl

theorem insertCell_reread {row : List Expr} {cols : List Bytes} {c : ColumnDef}
    (h : ∀ e ∈ row, e.Printable lib ∧ e.Faithful lib) :
    insertCell lib cols (row.map (Expr.reread lib)) c = insertCell lib cols row c := by
  unfold insertCell
  cases colIndex cols c.name with
  | none => rfl
  | some idx =>
    dsimp only
    unfold index
    rw [List.getElem?_map]
    cases he : row[idx]? with
    | none => rfl
    | some e =>
      obtain ⟨hprintable, hfaithful⟩ := h e (List.mem_of_getElem? he)
      simp only [Option.map_some, pure_bind, eval_reread hprintable hfaithful]

theorem insertRows_reread {rows : List (List Expr)} {columns : List Bytes}
    (h : ∀ row ∈ rows, ∀ e ∈ row, e.Printable lib ∧ e.Faithful lib) :
    insertRows lib schema columns (rows.map (·.map (Expr.reread lib))) =
      insertRows lib schema columns rows := by
  unfold insertRows
  rw [collect_map]
  refine collect_congr fun row hrow => ?_
  unfold insertRow
  rw [List.length_map]
  split
  · rfl
  · exact collect_congr fun c _ => insertCell_reread (h row hrow)

/-- The statement that the text is parsed as does the same. -/
theorem sameEffect_reread (h : st.Printable lib formatDuration parseDuration)
    (hall : st.Faithful lib) : st.SameEffect lib (st.reread lib) := by
  cases st with
  | createTable name columns pk ifNotExists engine retention =>
    obtain ⟨rfl, hretention, hcolumns⟩ := hall
    have hmap : columns.map ColumnDef.reread = columns := by
      conv_rhs => rw [← List.map_id columns]
      exact List.map_congr_left hcolumns
    have hkept : (if 0 < retention then retention else 0) = retention := by
      rcases hretention with hpos | rfl
      · exact if_pos hpos
      · rfl
    change Statement.createTable name (columns.map ColumnDef.reread) pk false engine
      (if 0 < retention then retention else 0) = _
    rw [hmap, hkept]
  | dropIndex name table ifExists =>
    obtain rfl : table = [] := hall
    rfl
  | insert table columns rows =>
    obtain ⟨-, -, -, hrows⟩ := h
    refine ⟨_, rfl, ?_⟩
    unfold execInsert
    congr 1
    funext schema
    rw [insertRows_reread fun row hrow e he => ⟨(hrows row hrow).2 e he, hall row hrow e he⟩]
  | update table sets where_ =>
    obtain ⟨-, -, hsets, hwhere⟩ := h
    obtain ⟨hvalues, hcond⟩ := hall
    exact ⟨_, _, rfl, fun schema ctx => ⟨whereTrue_reread hwhere hcond,
      evalSetsCtx_reread fun s hs => ⟨(hsets s hs).2, hvalues s hs⟩⟩⟩
  | delete table where_ => exact ⟨_, rfl, fun ctx => whereTrue_reread h.2 hall⟩
  | kvScan table start stop hasStart hasEnd =>
    obtain ⟨hstart, hstop⟩ := hall
    rcases hstart with rfl | ⟨rfl, rfl⟩
    · rcases hstop with rfl | rfl
      · rfl
      · cases hasEnd <;> rfl
    · obtain rfl := hstop.resolve_left Bool.false_ne_true
      cases hasStart <;> rfl
  | _ => rfl

/-- A statement whose text says all of it is executed in the same way where its text is parsed. -/
theorem parse_statementString_sameEffect (hlib : AsciiLibrary lib)
    (h : st.Printable lib formatDuration parseDuration) (hkey : st.tableKey = [])
    (hall : st.Faithful lib) :
    ∃ st', parse lib parseDuration (statementString lib formatDuration st) = .ok [st'] ∧
      st.SameEffect lib st' :=
  ⟨st.reread lib, parse_reread hlib h hkey, sameEffect_reread h hall⟩

/-- An UPDATE with a negative number, which is read as a minus and a number. -/
def updateNegative : Statement :=
  .update (ascii "t") [⟨ascii "a", .literal (.int (-7))⟩]
    (.binary .lt (.ident (ascii "b")) (.literal (.string (ascii "it's"))))

theorem parse_statementString_updateNegative :
    ∃ st', parse Stdlib.plain (fun _ => none)
        (statementString Stdlib.plain (fun _ => []) updateNegative) = .ok [st'] ∧
      updateNegative.SameEffect Stdlib.plain st' := by
  have ht := name_plain (ascii "t") (by decide)
  have ha := name_plain (ascii "a") (by decide)
  have hb := name_plain (ascii "b") (by decide)
  have hnumber : Expr.Printable Stdlib.plain (.literal (.int (-7))) :=
    signedNumber_formatInt_iff.mpr (by decide)
  have hwhere : Expr.Printable Stdlib.plain
      (.binary .lt (.ident (ascii "b")) (.literal (.string (ascii "it's")))) :=
    ⟨trivial, .inr hb, trivial⟩
  have hprintable : updateNegative.Printable Stdlib.plain (fun _ => []) (fun _ => none) :=
    ⟨ht.1, List.cons_ne_nil _ _, List.forall_mem_singleton.mpr ⟨ha.1, hnumber⟩, .inr hwhere⟩
  have hfaithful : updateNegative.Faithful Stdlib.plain :=
    ⟨List.forall_mem_singleton.mpr trivial, trivial, trivial, trivial⟩
  exact parse_statementString_sameEffect asciiLibrary_plain hprintable rfl hfaithful

end Ydbgo.Sql
