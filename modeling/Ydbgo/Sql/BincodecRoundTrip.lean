import Ydbgo.Sql.Bincodec

/-! # The round trip of the statement codec

A statement comes back from its encoding exactly when its expressions are
there and use only the operators of the codec's table. LIKE and NOT LIKE are not
in the table: they are encoded as operator zero, the decoder refuses it, and its
callers drop the error together with the expression.
-/

namespace Ydbgo.Sql

variable {α β : Type}

/-- `d` takes `bs`, whatever stands around it, and returns `a`. -/
def Reads (d : Decoder α) (bs : Bytes) (a : α) : Prop :=
  ∀ pre post : Bytes, (pre ++ (bs ++ post)).length < 2 ^ 63 →
    d ⟨pre ++ (bs ++ post), pre.length, none⟩ =
      some (a, ⟨pre ++ (bs ++ post), (pre ++ bs).length, none⟩)

namespace Reads

theorem pure (a : α) : Reads (Pure.pure a) [] a := by
  intro pre post _
  rw [List.append_nil]
  rfl

theorem bind {d : Decoder α} {k : α → Decoder β} {bs cs : Bytes} {a : α} {b : β}
    (hd : Reads d bs a) (hk : Reads (k a) cs b) : Reads (d >>= k) (bs ++ cs) b := by
  intro pre post h
  have h₁ := hd pre (cs ++ post)
  have h₂ := hk (pre ++ bs) post
  simp only [List.append_assoc] at h h₁ h₂ ⊢
  change (d _).bind _ = _
  rw [h₁ h]
  exact h₂ h

theorem map {d : Decoder α} {bs : Bytes} {a : α} (f : α → β) (hd : Reads d bs a) :
    Reads (d >>= fun a => Pure.pure (f a)) bs (f a) := by
  have h := hd.bind (k := fun a => Pure.pure (f a)) (pure (f a))
  rwa [List.append_nil] at h

end Reads

section Fields

theorem toInt_toInt64_ofNat {n : ℕ} (h : n < 2 ^ 63) : (UInt64.ofNat n).toInt64.toInt = n := by
  rw [UInt64.toInt64_ofNat', Int64.toInt_ofNat_of_lt h]

theorem reads_readByte (b : UInt8) : Reads readByte [b] b := by
  intro pre post _
  simp [readByte]

theorem reads_readUvarint (v : UInt64) : Reads readUvarint (putUvarint v) v := by
  intro pre post _
  simp [readUvarint, uvarint_putUvarint]

theorem reads_take (s : Bytes) : Reads (take (UInt64.ofNat s.length).toInt64) s s := by
  intro pre post h
  simp only [List.length_append] at h
  have hs : (Int64.ofNat pre.length + (UInt64.ofNat s.length).toInt64).toInt =
      (pre.length + s.length : ℕ) := by
    rw [UInt64.toInt64_ofNat', ← Int64.ofNat_add, Int64.toInt_ofNat_of_lt (by omega)]
  unfold take
  dsimp only
  rw [hs, if_neg (by simp), if_neg (by omega), Int.toNat_natCast, Nat.add_sub_cancel_left]
  simp

theorem reads_readVarint (n : Int64) : Reads readVarint (encodeVarint n) n :=
  (reads_readUvarint n.toUInt64).map UInt64.toInt64

theorem reads_readFloat (bits : UInt64) : Reads readFloat (encodeFloat bits) bits :=
  (reads_readVarint bits.toInt64).map Int64.toUInt64

theorem reads_readBool (b : Bool) : Reads readBool (encodeBool b) b := by
  have h := (reads_readByte (if b then 1 else 0)).map (· == 1)
  cases b <;> exact h

theorem reads_readStr (s : Bytes) : Reads readStr (encodeStr s) s :=
  (reads_readUvarint _).bind (reads_take s)

theorem reads_takeBytes (s : Bytes) : Reads takeBytes (encodeStr s) s :=
  (reads_readUvarint _).bind (reads_take s)

theorem ofByte_toByte (t : SqlType) : SqlType.ofByte t.toByte = t := by
  cases t with
  | other k =>
    have h : (UInt8.ofNat (6 + k)).toNat = k + 6 := by
      rw [UInt8.toNat_ofNat']
      omega
    unfold SqlType.toByte SqlType.ofByte
    simp only [h, k.isLt, dite_true]
  | _ => rfl

theorem reads_readType (t : SqlType) : Reads readType [t.toByte] t := by
  have h := (reads_readByte t.toByte).map SqlType.ofByte
  rwa [ofByte_toByte] at h

theorem reads_readCount {n : ℕ} (h : n < 2 ^ 63) : Reads readCount (encodeUvarint n) n := by
  have hr := (reads_readUvarint (UInt64.ofNat n)).map fun n => n.toInt64.toInt.toNat
  rwa [toInt_toInt64_ofNat h] at hr

theorem reads_make {n : ℕ} (h : n ≤ 2 ^ 44) : Reads (make (UInt64.ofNat n).toInt64) [] () := by
  intro pre post _
  unfold make
  rw [toInt_toInt64_ofNat (by omega), if_neg (by omega)]
  simp

/-- A count, a `make` of that size and a decoder of that many. -/
theorem reads_made {n : ℕ} (h : n ≤ 2 ^ 44) {k : ℕ → Decoder β} {bs : Bytes} {b : β}
    (hk : Reads (k n) bs b) :
    Reads (do
      let n ← readUvarint
      make n.toInt64
      k n.toInt64.toInt.toNat) (encodeUvarint n ++ bs) b := by
  refine (reads_readUvarint _).bind ((reads_make h).bind ?_)
  rwa [toInt_toInt64_ofNat (by omega), Int.toNat_natCast]

theorem reads_useErr : Reads useErr [] none := by
  intro pre post _
  simp [useErr]

theorem reads_readLiteral (l : Literal) : Reads readLiteral (encodeLiteral l) l := by
  refine (reads_readType l.type).bind ?_
  cases l with
  | null => exact .pure _
  | int n => exact (reads_readVarint n).map _
  | float bits => exact (reads_readFloat bits).map _
  | string s => exact (reads_readStr s).map _
  | bool b => exact (reads_readBool b).map _
  | timestamp n => exact (reads_readVarint n).map _
  | other k => exact .pure _

end Fields

section Loops

variable {enc : α → Option Bytes}

theorem encodeAll_cons {a : α} {as : List α} {bs : Bytes} (h : encodeAll enc (a :: as) = some bs) :
    ∃ cs ds, enc a = some cs ∧ encodeAll enc as = some ds ∧ bs = cs ++ ds := by
  simp only [encodeAll, Option.bind_eq_bind, Option.bind_eq_some_iff] at h
  obtain ⟨cs, hc, ds, hd, he⟩ := h
  exact ⟨cs, ds, hc, hd, (Option.some.inj he).symm⟩

theorem isSome_encodeAll {as : List α} :
    (encodeAll enc as).isSome ↔ ∀ a ∈ as, (enc a).isSome := by
  induction as with
  | nil => simp [encodeAll]
  | cons a as ih =>
    rw [List.forall_mem_cons, ← ih, encodeAll]
    cases enc a <;> cases encodeAll enc as <;> simp

theorem length_le_encodeAll (hpos : ∀ a bs, enc a = some bs → 0 < bs.length) {as : List α}
    {bs : Bytes} (h : encodeAll enc as = some bs) : as.length ≤ bs.length := by
  induction as generalizing bs with
  | nil => simp
  | cons a as ih =>
    obtain ⟨cs, ds, hc, hd, rfl⟩ := encodeAll_cons h
    have h₁ := hpos a cs hc
    have h₂ := ih hd
    simp only [List.length_cons, List.length_append]
    omega

theorem reads_times {d : Decoder α} {L : ℕ} {as : List α} {bs : Bytes}
    (hd : ∀ a ∈ as, ∀ cs, enc a = some cs → cs.length ≤ L → Reads d cs a)
    (h : encodeAll enc as = some bs) (hL : bs.length ≤ L) : Reads (times as.length d) bs as := by
  induction as generalizing bs with
  | nil =>
    obtain rfl : [] = bs := by simpa [encodeAll] using h
    exact .pure []
  | cons a as ih =>
    obtain ⟨cs, ds, hc, hds, rfl⟩ := encodeAll_cons h
    rw [List.length_append] at hL
    have ih := ih (fun a ha => hd a (List.mem_cons_of_mem _ ha)) hds (by omega)
    exact (hd a List.mem_cons_self cs hc (by omega)).bind (ih.map _)

theorem reads_timesOrErr {d : Decoder (Except String α)} {L : ℕ} {as : List α} {bs : Bytes}
    (hd : ∀ a ∈ as, ∀ cs, enc a = some cs → cs.length ≤ L → Reads d cs (.ok a))
    (h : encodeAll enc as = some bs) (hL : bs.length ≤ L) :
    Reads (timesOrErr as.length d) bs (.ok as) := by
  induction as generalizing bs with
  | nil =>
    obtain rfl : [] = bs := by simpa [encodeAll] using h
    exact .pure _
  | cons a as ih =>
    obtain ⟨cs, ds, hc, hds, rfl⟩ := encodeAll_cons h
    rw [List.length_append] at hL
    have ih := ih (fun a ha => hd a (List.mem_cons_of_mem _ ha)) hds (by omega)
    rw [← List.append_nil ds]
    exact (hd a List.mem_cons_self cs hc (by omega)).bind (ih.bind (.pure _))

theorem length_encodeStr_pos (s : Bytes) : 0 < (encodeStr s).length := by
  have h := length_putUvarint_pos (UInt64.ofNat s.length)
  simp only [encodeStr, encodeUvarint, List.length_append]
  omega

theorem length_le_encodeStrs {ss : List Bytes} {bs : Bytes} (h : encodeStrs ss = some bs) :
    ss.length ≤ bs.length := by
  refine length_le_encodeAll ?_ h
  rintro s _ ⟨⟩
  exact length_encodeStr_pos s

theorem reads_times_readStr {ss : List Bytes} {bs : Bytes} (h : encodeStrs ss = some bs) :
    Reads (times ss.length readStr) bs ss := by
  refine reads_times ?_ h (le_refl _)
  rintro s _ _ ⟨⟩ _
  exact reads_readStr s

end Loops

section Exprs

/-- Nothing inside the expression is nil. -/
def Expr.NoNil (e : Expr) : Prop := e.All (· ≠ .nil)

/-- The expression has only the binary operators of the codec's table. -/
def Expr.InTable (e : Expr) : Prop :=
  e.All fun e => ∀ op left right, e = .binary op left right → op ∈ binaryOps

theorem encodeExprs_eq (es : List Expr) : encodeExprs es = encodeAll encodeExpr es := by
  induction es with
  | nil => rfl
  | cons e es ih => rw [encodeExprs, encodeAll, ih]

theorem opAt_opByte_binary {op : BinOp} (h : op ∈ binaryOps) :
    opAt binaryOps (opByte binaryOps op) = some op := by
  cases op <;> first | rfl | exact absurd h (by decide)

theorem opAt_opByte_unary (op : UnOp) : opAt unaryOps (opByte unaryOps op) = some op := by
  cases op <;> rfl

mutual

theorem isSome_encodeExpr (e : Expr) : (encodeExpr e).isSome ↔ e.NoNil := by
  cases e with
  | nil => simp [encodeExpr, Expr.NoNil, Expr.All]
  | ident name => simp [encodeExpr, Expr.NoNil, Expr.All]
  | literal l => simp [encodeExpr, Expr.NoNil, Expr.All]
  | binary op left right =>
    have hl := isSome_encodeExpr left
    have hr := isSome_encodeExpr right
    rw [Expr.NoNil, Expr.All, ← Expr.NoNil, ← Expr.NoNil, ← hl, ← hr, encodeExpr]
    cases encodeExpr left <;> cases encodeExpr right <;> simp
  | unary op e =>
    have he := isSome_encodeExpr e
    rw [Expr.NoNil, Expr.All, ← Expr.NoNil, ← he, encodeExpr]
    cases encodeExpr e <;> simp
  | call name args =>
    have ha := isSome_encodeExprs args
    rw [Expr.NoNil, Expr.All, ← ha, encodeExpr]
    cases encodeExprs args <;> simp
  | cast e type =>
    have he := isSome_encodeExpr e
    rw [Expr.NoNil, Expr.All, ← Expr.NoNil, ← he, encodeExpr]
    cases encodeExpr e <;> simp

theorem isSome_encodeExprs (es : List Expr) :
    (encodeExprs es).isSome ↔ Expr.AllOf (· ≠ .nil) es := by
  cases es with
  | nil => simp [encodeExprs, Expr.AllOf]
  | cons e es =>
    have he := isSome_encodeExpr e
    have hs := isSome_encodeExprs es
    rw [Expr.AllOf, ← Expr.NoNil, ← he, ← hs, encodeExprs]
    cases encodeExpr e <;> cases encodeExprs es <;> simp

end

theorem length_encodeExpr_pos {e : Expr} {bs : Bytes} (h : encodeExpr e = some bs) :
    0 < bs.length := by
  cases e with
  | nil => cases h
  | ident name =>
    obtain rfl := Option.some.inj h
    simp
  | literal l =>
    obtain rfl := Option.some.inj h
    simp
  | _ =>
    simp only [encodeExpr, Option.bind_eq_bind, Option.bind_eq_some_iff] at h
    grind

theorem reads_ignoreErr {d : Decoder (Except String Expr)} {bs : Bytes} {e : Expr}
    (h : Reads d bs (.ok e)) : Reads (ignoreErr d) bs e := by
  rw [← List.append_nil bs]
  exact h.bind (.pure e)

/-- The decoder takes back what the encoder wrote, with fuel for the length of the encoding. -/
theorem reads_decodeExpr {fuel : ℕ} (hf : fuel < 2 ^ 63) {e : Expr} {bs : Bytes}
    (h : encodeExpr e = some bs) (he : e.InTable) (hbs : bs.length ≤ fuel) :
    Reads (decodeExpr fuel) bs (.ok e) := by
  induction fuel generalizing e bs with
  | zero =>
    have hpos := length_encodeExpr_pos h
    omega
  | succ fuel ih =>
    have ih := fun {e bs} => @ih (by omega) e bs
    cases e with
    | nil => cases h
    | ident name =>
      obtain rfl := Option.some.inj h
      exact (reads_readByte 2).bind ((reads_readStr name).map _)
    | literal l =>
      obtain rfl := Option.some.inj h
      exact (reads_readByte 1).bind ((reads_readLiteral l).map _)
    | binary op left right =>
      simp only [encodeExpr, Option.bind_eq_bind, Option.bind_eq_some_iff] at h
      obtain ⟨ls, hl, rs, hr, ⟨⟩⟩ := h
      obtain ⟨hop, hleft, hright⟩ := he
      simp only [List.length_cons, List.length_append] at hbs
      have hop := opAt_opByte_binary (hop op left right rfl)
      refine (reads_readByte 3).bind <| (reads_readByte _).bind <|
        (reads_ignoreErr (ih hl hleft (by omega))).bind ?_
      have hr := (reads_ignoreErr (ih hr hright (by omega))).map fun r =>
        (.ok (.binary op left r) : Except String Expr)
      rw [hop]
      exact hr
    | unary op e =>
      simp only [encodeExpr, Option.bind_eq_bind, Option.bind_eq_some_iff] at h
      obtain ⟨cs, hc, ⟨⟩⟩ := h
      obtain ⟨-, he⟩ := he
      simp only [List.length_cons] at hbs
      refine (reads_readByte 4).bind <| (reads_readByte _).bind ?_
      have hr := (reads_ignoreErr (ih hc he (by omega))).map fun e =>
        (.ok (.unary op e) : Except String Expr)
      rw [opAt_opByte_unary]
      exact hr
    | call name args =>
      simp only [encodeExpr, Option.bind_eq_bind, Option.bind_eq_some_iff, encodeExprs_eq] at h
      obtain ⟨cs, hc, ⟨⟩⟩ := h
      obtain ⟨-, hargs⟩ := he
      simp only [List.length_cons, List.length_append] at hbs
      have hlen := length_le_encodeAll (fun _ _ => length_encodeExpr_pos) hc
      have hr := reads_times (d := ignoreErr (decodeExpr fuel)) (L := fuel)
        (fun a ha bs hb hL => reads_ignoreErr (ih hb (Expr.allOf_iff.mp hargs a ha) hL)) hc (by omega)
      exact (reads_readByte 5).bind <| (reads_readStr name).bind <|
        (reads_readCount (by omega)).bind (hr.map _)
    | cast e type =>
      simp only [encodeExpr, Option.bind_eq_bind, Option.bind_eq_some_iff] at h
      obtain ⟨cs, hc, ⟨⟩⟩ := h
      obtain ⟨-, he⟩ := he
      simp only [List.length_cons, List.length_append] at hbs
      exact (reads_readByte 6).bind <| (reads_ignoreErr (ih hc he (by omega))).bind <|
        (reads_readType type).map _

end Exprs

section Statements

/-- The expressions the encoder needs are there. -/
structure Statement.Complete (st : Statement) : Prop where
  required : ∀ e ∈ st.required, e.NoNil
  optional : ∀ e ∈ st.optional, e = .nil ∨ e.NoNil

theorem complete_iff {st : Statement} : st.Complete ↔
    (∀ e ∈ st.required, e.NoNil) ∧ ∀ e ∈ st.optional, e = .nil ∨ e.NoNil :=
  ⟨fun h => ⟨h.required, h.optional⟩, fun h => ⟨h.1, h.2⟩⟩

def Statement.InTable (st : Statement) : Prop := ∀ e ∈ st.required ++ st.optional, e.InTable

theorem isSome_encodeOpt (e : Expr) : (encodeOpt e).isSome ↔ e = .nil ∨ e.NoNil := by
  rw [← isSome_encodeExpr]
  cases e with
  | nil => simp [encodeOpt]
  | ident name => simp [encodeOpt, encodeExpr]
  | literal l => simp [encodeOpt, encodeExpr]
  | _ => simp [encodeOpt, Option.isSome_bind]

theorem isSome_encodeColumn (c : ColumnDef) :
    (encodeColumn c).isSome ↔ c.default = .nil ∨ c.default.NoNil := by
  rw [← isSome_encodeOpt]
  simp [encodeColumn, Option.isSome_bind]

theorem isSome_encodeRow (row : List Expr) : (encodeRow row).isSome ↔ ∀ e ∈ row, e.NoNil := by
  simp [encodeRow, Option.isSome_bind, encodeExprs_eq, isSome_encodeAll, isSome_encodeExpr]

theorem any_const (b : Bool) (o : Option α) : (o.any fun _ => b) ↔ o.isSome ∧ b := by
  cases o <;> simp

theorem isSome_encodeSelect (s : SelectStmt) :
    (encodeSelect s).isSome ↔ (Statement.select s).Complete := by
  rw [complete_iff]
  simp [encodeSelect, encodeItem, encodeOrder, Option.isSome_bind, any_const, isSome_encodeAll,
    isSome_encodeExpr, isSome_encodeOpt, encodeExprs_eq, Statement.required, Statement.optional]
  grind

theorem isSome_encodeStmt (st : Statement) : (encodeStmt st).isSome ↔ st.Complete := by
  cases st with
  | select s => simp [encodeStmt, Option.isSome_bind, isSome_encodeSelect]
  | insert table columns rows =>
    rw [complete_iff]
    simp [encodeStmt, encodeStrs, Option.isSome_bind, any_const, isSome_encodeAll,
      isSome_encodeRow, Statement.required, Statement.optional]
    grind
  | _ =>
    rw [complete_iff]
    simp [encodeStmt, encodeStrs, encodeSet, Option.isSome_bind, any_const, isSome_encodeAll,
      isSome_encodeColumn, isSome_encodeOpt, isSome_encodeExpr, Statement.required,
      Statement.optional]

theorem length_encodeColumn_pos {c : ColumnDef} {bs : Bytes} (h : encodeColumn c = some bs) :
    0 < bs.length := by
  obtain ⟨_, _, ⟨⟩⟩ := Option.bind_eq_some_iff.mp h
  simp

theorem length_encodeRow_pos {row : List Expr} {bs : Bytes} (h : encodeRow row = some bs) :
    0 < bs.length := by
  obtain ⟨_, _, ⟨⟩⟩ := Option.bind_eq_some_iff.mp h
  have hpos := length_putUvarint_pos (UInt64.ofNat row.length)
  simp only [encodeUvarint, List.length_append]
  omega

theorem length_encodeSet_pos {it : SetItem} {bs : Bytes} (h : encodeSet it = some bs) :
    0 < bs.length := by
  obtain ⟨_, _, ⟨⟩⟩ := Option.bind_eq_some_iff.mp h
  have hpos := length_encodeStr_pos it.column
  rw [List.length_append]
  omega

theorem length_encodeItem_pos {it : SelectItem} {bs : Bytes} (h : encodeItem it = some bs) :
    0 < bs.length := by
  obtain ⟨_, _, ⟨⟩⟩ := Option.bind_eq_some_iff.mp h
  have hpos := length_encodeStr_pos it.alias_
  rw [List.length_append]
  omega

theorem length_encodeOrder_pos {o : OrderItem} {bs : Bytes} (h : encodeOrder o = some bs) :
    0 < bs.length := by
  obtain ⟨_, _, ⟨⟩⟩ := Option.bind_eq_some_iff.mp h
  simp [encodeBool]

section Decode

variable {fuel : ℕ} (hf : fuel ≤ 2 ^ 44)
include hf

theorem reads_decodeOpt {e : Expr} {bs : Bytes} (h : encodeOpt e = some bs) (he : e.InTable)
    (hbs : bs.length ≤ fuel) : Reads (decodeOpt fuel) bs e := by
  by_cases hn : e = .nil
  · subst hn
    obtain rfl := Option.some.inj h
    exact (reads_readBool false).bind (.pure Expr.nil)
  · have h : ((encodeExpr e).bind fun bs => some (encodeBool true ++ bs)) = some bs := by
      cases e <;> first | exact absurd rfl hn | exact h
    obtain ⟨cs, hc, ⟨⟩⟩ := Option.bind_eq_some_iff.mp h
    rw [List.length_append] at hbs
    exact (reads_readBool true).bind
      (reads_ignoreErr (reads_decodeExpr (by omega) hc he (by omega)))

theorem reads_decodeColumn {c : ColumnDef} {bs : Bytes} (h : encodeColumn c = some bs)
    (hc : c.default.InTable) (hbs : bs.length ≤ fuel) : Reads (decodeColumn fuel) bs c := by
  obtain ⟨d, hd, ⟨⟩⟩ := Option.bind_eq_some_iff.mp h
  simp only [List.length_append] at hbs
  exact (reads_readStr c.name).bind <| (reads_readType c.type).bind <|
    (reads_readBool c.notNull).bind <| (reads_readBool c.asPrimary).bind <|
    (reads_decodeOpt hf hd hc (by omega)).map fun default => { c with default }

theorem reads_decodeRow {row : List Expr} {bs : Bytes} (h : encodeRow row = some bs)
    (hr : ∀ e ∈ row, e.InTable) (hbs : bs.length ≤ fuel) :
    Reads (decodeRow fuel) bs (.ok row) := by
  obtain ⟨cs, hc, ⟨⟩⟩ := Option.bind_eq_some_iff.mp h
  rw [encodeExprs_eq] at hc
  rw [List.length_append] at hbs
  have hlen := length_le_encodeAll (fun _ _ => length_encodeExpr_pos) hc
  have hd := reads_timesOrErr (d := decodeExpr fuel)
    (fun e he _ hb hL => reads_decodeExpr (by omega) hb (hr e he) hL) hc (by omega)
  exact reads_made (k := fun n => timesOrErr n (decodeExpr fuel)) (by omega) hd

theorem reads_decodeSet {it : SetItem} {bs : Bytes} (h : encodeSet it = some bs)
    (hv : it.value.InTable) (hbs : bs.length ≤ fuel) : Reads (decodeSet fuel) bs it := by
  obtain ⟨cs, hc, ⟨⟩⟩ := Option.bind_eq_some_iff.mp h
  rw [List.length_append] at hbs
  exact (reads_readStr it.column).bind <|
    (reads_ignoreErr (reads_decodeExpr (by omega) hc hv (by omega))).map fun value =>
      { it with value }

theorem reads_decodeItem {it : SelectItem} {bs : Bytes} (h : encodeItem it = some bs)
    (hv : it.expr.InTable) (hbs : bs.length ≤ fuel) : Reads (decodeItem fuel) bs it := by
  obtain ⟨cs, hc, ⟨⟩⟩ := Option.bind_eq_some_iff.mp h
  rw [List.length_append] at hbs
  exact (reads_ignoreErr (reads_decodeExpr (by omega) hc hv (by omega))).bind <|
    (reads_readStr it.alias_).map fun alias_ => { it with alias_ }

theorem reads_decodeOrder {o : OrderItem} {bs : Bytes} (h : encodeOrder o = some bs)
    (hv : o.expr.InTable) (hbs : bs.length ≤ fuel) : Reads (decodeOrder fuel) bs o := by
  obtain ⟨cs, hc, ⟨⟩⟩ := Option.bind_eq_some_iff.mp h
  rw [List.length_append] at hbs
  exact (reads_ignoreErr (reads_decodeExpr (by omega) hc hv (by omega))).bind <|
    (reads_readBool o.desc).map fun desc => { o with desc }

theorem reads_decodeSelect {s : SelectStmt} {bs : Bytes} (h : encodeSelect s = some bs)
    (hs : (Statement.select s).InTable) (hbs : bs.length ≤ fuel) :
    Reads (decodeSelect fuel) bs s := by
  simp only [encodeSelect, Option.bind_eq_bind, Option.bind_eq_some_iff, encodeExprs_eq] at h
  obtain ⟨is, hi, ws, hw, gs, hg, os, ho, ⟨⟩⟩ := h
  simp only [List.length_append] at hbs
  simp only [Statement.InTable, Statement.required, Statement.optional, List.forall_mem_append,
    List.forall_mem_map, List.forall_mem_singleton] at hs
  obtain ⟨⟨hitem, hgroup, horder⟩, hwhere⟩ := hs
  have hi' := length_le_encodeAll (fun _ _ h => length_encodeItem_pos h) hi
  have hg' := length_le_encodeAll (fun _ _ => length_encodeExpr_pos) hg
  have ho' := length_le_encodeAll (fun _ _ h => length_encodeOrder_pos h) ho
  have hitems := reads_times (d := decodeItem fuel)
    (fun it hm _ hb hL => reads_decodeItem hf hb (hitem it hm) hL) hi (by omega)
  have hgroups := reads_times (d := ignoreErr (decodeExpr fuel))
    (fun e hm _ hb hL => reads_ignoreErr (reads_decodeExpr (by omega) hb (hgroup e hm) hL)) hg
    (by omega)
  have horders := reads_times (d := decodeOrder fuel)
    (fun o hm _ hb hL => reads_decodeOrder hf hb (horder o hm) hL) ho (by omega)
  exact (reads_readBool s.distinct).bind <| (reads_readCount (by omega)).bind <|
    hitems.bind <| (reads_readStr s.from_).bind <|
    (reads_decodeOpt hf hw hwhere (by omega)).bind <| (reads_readCount (by omega)).bind <|
    hgroups.bind <| (reads_readCount (by omega)).bind <| horders.bind <|
    (reads_readBool s.hasLimit).bind <| (reads_readVarint s.limit).map fun limit =>
      { s with limit }

theorem reads_decodeStmt {st : Statement} {bs : Bytes} (h : encodeStmt st = some bs)
    (hst : st.InTable) (hbs : bs.length ≤ fuel) : Reads (decodeStmt fuel) bs (.ok st) := by
  cases st with
  | createTable name columns pk ifNotExists engine retention =>
    simp only [encodeStmt, Option.bind_eq_bind, Option.bind_eq_some_iff] at h
    obtain ⟨cs, hc, ps, hp, ⟨⟩⟩ := h
    simp only [List.length_cons, List.length_append] at hbs
    simp only [Statement.InTable, Statement.required, Statement.optional, List.nil_append,
      List.forall_mem_map] at hst
    have hc' := length_le_encodeAll (fun _ _ h => length_encodeColumn_pos h) hc
    have hp' := length_le_encodeStrs hp
    have hcolumns := reads_times (d := decodeColumn fuel)
      (fun c hm _ hb hL => reads_decodeColumn hf hb (hst c hm) hL) hc (by omega)
    exact (reads_readByte 1).bind <| (reads_readStr name).bind <|
      (reads_readCount (by omega)).bind <| hcolumns.bind <| (reads_readCount (by omega)).bind <|
      (reads_times_readStr hp).bind <| (reads_readBool ifNotExists).bind <|
      (reads_readStr engine).bind <| (reads_readVarint retention).map _
  | dropTable name ifExists =>
    obtain rfl := Option.some.inj h
    exact (reads_readByte 2).bind <| (reads_readStr name).bind <| (reads_readBool ifExists).map _
  | createIndex name table columns ifNotExists =>
    obtain ⟨cs, hc, ⟨⟩⟩ := Option.bind_eq_some_iff.mp h
    simp only [List.length_cons, List.length_append] at hbs
    have hc' := length_le_encodeStrs hc
    exact (reads_readByte 3).bind <| (reads_readStr name).bind <| (reads_readStr table).bind <|
      (reads_readCount (by omega)).bind <| (reads_times_readStr hc).bind <|
      (reads_readBool ifNotExists).map _
  | dropIndex name table ifExists =>
    obtain rfl := Option.some.inj h
    exact (reads_readByte 4).bind <| (reads_readStr name).bind <| (reads_readStr table).bind <|
      (reads_readBool ifExists).map _
  | insert table columns rows =>
    simp only [encodeStmt, Option.bind_eq_bind, Option.bind_eq_some_iff] at h
    obtain ⟨cs, hc, rs, hr, ⟨⟩⟩ := h
    simp only [List.length_cons, List.length_append] at hbs
    simp only [Statement.InTable, Statement.required, Statement.optional, List.append_nil,
      List.mem_flatten] at hst
    have hc' := length_le_encodeStrs hc
    have hr' := length_le_encodeAll (fun _ _ h => length_encodeRow_pos h) hr
    have hrows := reads_timesOrErr (d := decodeRow fuel)
      (fun row hm _ hb hL => reads_decodeRow hf hb (fun e he => hst e ⟨row, hm, he⟩) hL) hr
      (by omega)
    rw [← List.append_nil rs]
    exact (reads_readByte 5).bind <| (reads_readStr table).bind <|
      (reads_readCount (by omega)).bind <| (reads_times_readStr hc).bind <|
      (reads_readCount (by omega)).bind <| hrows.bind (.pure _)
  | update table sets where_ =>
    simp only [encodeStmt, Option.bind_eq_bind, Option.bind_eq_some_iff] at h
    obtain ⟨cs, hc, ws, hw, ⟨⟩⟩ := h
    simp only [List.length_cons, List.length_append] at hbs
    simp only [Statement.InTable, Statement.required, Statement.optional, List.forall_mem_append,
      List.forall_mem_map, List.forall_mem_singleton] at hst
    have hc' := length_le_encodeAll (fun _ _ h => length_encodeSet_pos h) hc
    have hsets := reads_times (d := decodeSet fuel)
      (fun it hm _ hb hL => reads_decodeSet hf hb (hst.1 it hm) hL) hc (by omega)
    exact (reads_readByte 6).bind <| (reads_readStr table).bind <|
      (reads_readCount (by omega)).bind <| hsets.bind <|
      (reads_decodeOpt hf hw hst.2 (by omega)).map _
  | delete table where_ =>
    obtain ⟨ws, hw, ⟨⟩⟩ := Option.bind_eq_some_iff.mp h
    simp only [List.length_cons, List.length_append] at hbs
    exact (reads_readByte 7).bind <| (reads_readStr table).bind <|
      (reads_decodeOpt hf hw (hst _ (by simp [Statement.optional])) (by omega)).map _
  | begin_ =>
    obtain rfl := Option.some.inj h
    exact (reads_readByte 8).bind (.pure _)
  | commit =>
    obtain rfl := Option.some.inj h
    exact (reads_readByte 9).bind (.pure _)
  | rollback =>
    obtain rfl := Option.some.inj h
    exact (reads_readByte 10).bind (.pure _)
  | createDatabase name =>
    obtain rfl := Option.some.inj h
    exact (reads_readByte 11).bind <| (reads_readStr name).map _
  | select s =>
    obtain ⟨cs, hc, ⟨⟩⟩ := Option.bind_eq_some_iff.mp h
    rw [List.length_cons] at hbs
    exact (reads_readByte 12).bind <| (reads_decodeSelect hf hc hst (by omega)).map _
  | kvPut table key value =>
    obtain rfl := Option.some.inj h
    exact (reads_readByte 13).bind <| (reads_readStr table).bind <| (reads_takeBytes key).bind <|
      (reads_takeBytes value).map _
  | kvGet table key =>
    obtain rfl := Option.some.inj h
    exact (reads_readByte 14).bind <| (reads_readStr table).bind <| (reads_takeBytes key).map _
  | kvDelete table key =>
    obtain rfl := Option.some.inj h
    exact (reads_readByte 15).bind <| (reads_readStr table).bind <| (reads_takeBytes key).map _
  | kvScan table start stop hasStart hasEnd =>
    obtain rfl := Option.some.inj h
    exact (reads_readByte 16).bind <| (reads_readStr table).bind <| (reads_takeBytes start).bind <|
      (reads_takeBytes stop).bind <| (reads_readBool hasStart).bind <|
      (reads_readBool hasEnd).map _

end Decode

theorem length_encodeStmt_pos {st : Statement} {bs : Bytes} (h : encodeStmt st = some bs) :
    0 < bs.length := by
  cases st with
  | select s =>
    obtain ⟨_, _, ⟨⟩⟩ := Option.bind_eq_some_iff.mp h
    simp
  | _ =>
    simp only [encodeStmt, Option.bind_eq_bind, Option.bind_eq_some_iff, Option.some.injEq] at h
    grind

end Statements

section Yields

/-- Whatever `d` returns satisfies `p`. -/
def Yields (d : Decoder α) (p : α → Prop) : Prop := ∀ r a r', d r = some (a, r') → p a

theorem Yields.pure {p : α → Prop} {a : α} (h : p a) : Yields (Pure.pure a) p := by
  rintro r b r' ⟨⟩
  exact h

theorem Yields.bind {d : Decoder α} {k : α → Decoder β} {p : α → Prop} {q : β → Prop}
    (hd : Yields d p) (hk : ∀ a, p a → Yields (k a) q) : Yields (d >>= k) q := by
  intro r b r'' h
  obtain ⟨⟨a, r'⟩, ha, hb⟩ := Option.bind_eq_some_iff.mp h
  exact hk a (hd r a r' ha) r' b r'' hb

theorem Yields.skip {d : Decoder α} {k : α → Decoder β} {q : β → Prop}
    (hk : ∀ a, Yields (k a) q) : Yields (d >>= k) q := by
  intro r b r'' h
  obtain ⟨⟨a, r'⟩, -, hb⟩ := Option.bind_eq_some_iff.mp h
  exact hk a r' b r'' hb

/-- A result without a value, or one whose value satisfies `p`. -/
def OkAnd (p : α → Prop) : Except String α → Prop
  | .error _ => True
  | .ok a => p a

theorem yields_times {d : Decoder α} {p : α → Prop} (h : Yields d p) (n : ℕ) :
    Yields (times n d) fun as => ∀ a ∈ as, p a := by
  induction n with
  | zero => exact .pure (by simp)
  | succ n ih =>
    refine h.bind fun a ha => ih.bind fun as has => .pure ?_
    exact List.forall_mem_cons.mpr ⟨ha, has⟩

theorem yields_timesOrErr {d : Decoder (Except String α)} {p : α → Prop}
    (h : Yields d (OkAnd p)) (n : ℕ) :
    Yields (timesOrErr n d) (OkAnd fun as => ∀ a ∈ as, p a) := by
  induction n with
  | zero => exact .pure (by simp [OkAnd])
  | succ n ih =>
    refine h.bind ?_
    rintro (_ | a) ha
    · exact .pure trivial
    refine ih.bind ?_
    rintro (_ | as) has
    · exact .pure trivial
    · exact .pure (List.forall_mem_cons.mpr ⟨ha, has⟩)

theorem yields_ignoreErr {d : Decoder (Except String Expr)} (h : Yields d (OkAnd Expr.InTable)) :
    Yields (ignoreErr d) Expr.InTable := by
  refine h.bind ?_
  rintro (_ | e) he
  · exact .pure (by simp [Expr.InTable, Expr.All])
  · exact .pure he

theorem mem_of_opAt {list : List α} {op : UInt8} {a : α} (h : opAt list op = some a) :
    a ∈ list := by
  unfold opAt at h
  split at h
  · cases h
  · exact List.mem_of_getElem? h

/-- The decoder builds no operator that is not in the table, on any input. -/
theorem yields_decodeExpr (fuel : ℕ) : Yields (decodeExpr fuel) (OkAnd Expr.InTable) := by
  induction fuel with
  | zero =>
    rintro r a r' ⟨⟩
  | succ fuel ih =>
    have ih := yields_ignoreErr ih
    refine .skip fun t => ?_
    split
    · exact .skip fun l => .pure (by simp [OkAnd, Expr.InTable, Expr.All])
    · exact .skip fun name => .pure (by simp [OkAnd, Expr.InTable, Expr.All])
    · refine .skip fun op => ih.bind fun left hl => ih.bind fun right hr => ?_
      split
      · exact .pure trivial
      · rename_i op hop
        refine .pure ⟨?_, hl, hr⟩
        rintro _ _ _ ⟨⟩
        exact mem_of_opAt hop
    · refine .skip fun op => ih.bind fun e he => ?_
      split
      · exact .pure trivial
      · exact .pure ⟨by simp, he⟩
    · refine .skip fun name => .skip fun na =>
        (yields_times ih na).bind fun args hargs => .pure ⟨by simp, ?_⟩
      exact Expr.allOf_iff.mpr hargs
    · exact ih.bind fun e he => .skip fun type => .pure ⟨by simp, he⟩
    · exact .pure trivial

theorem yields_decodeOpt (fuel : ℕ) : Yields (decodeOpt fuel) Expr.InTable := by
  refine .skip fun b => ?_
  cases b
  · exact .pure (by simp [Expr.InTable, Expr.All])
  · exact yields_ignoreErr (yields_decodeExpr fuel)

theorem yields_decodeSelect (fuel : ℕ) :
    Yields (decodeSelect fuel) fun s => (Statement.select s).InTable := by
  have he := yields_ignoreErr (yields_decodeExpr fuel)
  have hitem : Yields (decodeItem fuel) fun it => it.expr.InTable :=
    he.bind fun e h => .skip fun _ => .pure h
  have horder : Yields (decodeOrder fuel) fun o => o.expr.InTable :=
    he.bind fun e h => .skip fun _ => .pure h
  refine .skip fun distinct => .skip fun ni =>
    (yields_times hitem ni).bind fun items hi => .skip fun from_ =>
    (yields_decodeOpt fuel).bind fun where_ hw => .skip fun ng =>
    (yields_times he ng).bind fun groupBy hg => .skip fun no =>
    (yields_times horder no).bind fun orderBy ho => .skip fun hasLimit =>
    .skip fun limit => .pure ?_
  simp only [Statement.InTable, Statement.required, Statement.optional, List.forall_mem_append,
    List.forall_mem_map, List.forall_mem_singleton]
  exact ⟨⟨hi, hg, ho⟩, hw⟩

theorem yields_decodeStmt (fuel : ℕ) :
    Yields (decodeStmt fuel) (OkAnd Statement.InTable) := by
  have he := yields_ignoreErr (yields_decodeExpr fuel)
  have hcolumn : Yields (decodeColumn fuel) fun c => c.default.InTable :=
    .skip fun _ => .skip fun _ => .skip fun _ =>
      .skip fun _ => (yields_decodeOpt fuel).bind fun _ h => .pure h
  have hset : Yields (decodeSet fuel) fun it => it.value.InTable :=
    .skip fun _ => he.bind fun _ h => .pure h
  have hrow : Yields (decodeRow fuel) (OkAnd fun row => ∀ e ∈ row, e.InTable) :=
    .skip fun _ => .skip fun _ =>
      yields_timesOrErr (yields_decodeExpr fuel) _
  have hnone : ∀ st : Statement, st.required = [] → st.optional = [] →
      OkAnd Statement.InTable (.ok st) := by
    intro st hr ho
    simp [OkAnd, Statement.InTable, hr, ho]
  refine .skip fun t => ?_
  split
  · refine .skip fun name => .skip fun nc => (yields_times hcolumn nc).bind fun columns hc =>
      .skip fun np => .skip fun pk => .skip fun ifNotExists => .skip fun engine =>
      .skip fun retention => .pure ?_
    simpa [OkAnd, Statement.InTable, Statement.required, Statement.optional] using hc
  · exact .skip fun name => .skip fun ifExists => .pure (hnone _ rfl rfl)
  · exact .skip fun name => .skip fun table => .skip fun nc => .skip fun columns =>
      .skip fun ifNotExists => .pure (hnone _ rfl rfl)
  · exact .skip fun name => .skip fun table => .skip fun ifExists => .pure (hnone _ rfl rfl)
  · refine .skip fun table => .skip fun nc => .skip fun columns => .skip fun nr =>
      (yields_timesOrErr hrow nr).bind ?_
    rintro (_ | rows) hrows
    · exact .pure trivial
    · refine .pure ?_
      simp only [OkAnd, Statement.InTable, Statement.required, Statement.optional,
        List.append_nil, List.mem_flatten]
      rintro e ⟨row, hr, he⟩
      exact hrows row hr e he
  · refine .skip fun table => .skip fun ns => (yields_times hset ns).bind fun sets hs =>
      (yields_decodeOpt fuel).bind fun where_ hw => .pure ?_
    simp only [OkAnd, Statement.InTable, Statement.required, Statement.optional,
      List.forall_mem_append, List.forall_mem_map, List.forall_mem_singleton]
    exact ⟨hs, hw⟩
  · refine .skip fun table => (yields_decodeOpt fuel).bind fun where_ hw => .pure ?_
    simpa [OkAnd, Statement.InTable, Statement.required, Statement.optional] using hw
  · exact .pure (hnone _ rfl rfl)
  · exact .pure (hnone _ rfl rfl)
  · exact .pure (hnone _ rfl rfl)
  · exact .skip fun name => .pure (hnone _ rfl rfl)
  · exact (yields_decodeSelect fuel).bind fun s hs => .pure hs
  · exact .skip fun table => .skip fun key => .skip fun value => .pure (hnone _ rfl rfl)
  · exact .skip fun table => .skip fun key => .pure (hnone _ rfl rfl)
  · exact .skip fun table => .skip fun key => .pure (hnone _ rfl rfl)
  · exact .skip fun table => .skip fun start => .skip fun stop => .skip fun hasStart =>
      .skip fun hasEnd => .pure (hnone _ rfl rfl)
  · exact .pure trivial

theorem yields_decodeStmts (fuel : ℕ) :
    Yields (decodeStmts fuel) (OkAnd fun stmts => ∀ st ∈ stmts, st.InTable) := by
  refine .skip fun n => .skip fun _ => (yields_timesOrErr (yields_decodeStmt fuel) _).bind ?_
  rintro (_ | stmts) hs
  · exact .pure trivial
  refine .skip fun r => ?_
  split
  · exact .pure trivial
  · exact .pure hs

end Yields

section RoundTrip

/-- The statements come back from their encoding. -/
def RoundTrips (stmts : List Statement) : Prop :=
  ∃ data, encodeStatements stmts = some data ∧ decodeStatements data = some (.ok stmts)

theorem reads_decodeStmts {stmts : List Statement} {data : Bytes} {fuel : ℕ}
    (h : encodeStatements stmts = some data) (hfuel : data.length ≤ fuel) (hf : fuel ≤ 2 ^ 44)
    (hs : ∀ st ∈ stmts, st.InTable) : Reads (decodeStmts fuel) data (.ok stmts) := by
  obtain ⟨bs, hb, ⟨⟩⟩ := Option.bind_eq_some_iff.mp h
  rw [List.length_append] at hfuel
  have hlen := length_le_encodeAll (fun _ _ h => length_encodeStmt_pos h) hb
  have hr := reads_timesOrErr (d := decodeStmt fuel)
    (fun st hm _ hc hL => reads_decodeStmt hf hc (hs st hm) hL) hb (by omega)
  refine (reads_readUvarint _).bind ((reads_make (by omega)).bind ?_)
  rw [toInt_toInt64_ofNat (by omega), Int.toNat_natCast, ← List.append_nil bs]
  exact hr.bind (reads_useErr.bind (.pure _))

theorem roundTrips_iff (stmts : List Statement)
    (hsize : ∀ data, encodeStatements stmts = some data → data.length ≤ 2 ^ 44) :
    RoundTrips stmts ↔ ∀ st ∈ stmts, st.Complete ∧ st.InTable := by
  constructor
  · rintro ⟨data, henc, hdec⟩ st hst
    obtain ⟨bs, hb, -⟩ := Option.bind_eq_some_iff.mp henc
    obtain ⟨⟨r, rd⟩, hr, rfl⟩ := Option.map_eq_some_iff.mp hdec
    have hc := isSome_encodeAll.mp (Option.isSome_of_eq_some hb) st hst
    exact ⟨(isSome_encodeStmt st).mp hc, yields_decodeStmts _ _ _ _ hr st hst⟩
  · intro h
    have hsome : (encodeAll encodeStmt stmts).isSome :=
      isSome_encodeAll.mpr fun st hst => (isSome_encodeStmt st).mpr (h st hst).1
    obtain ⟨bs, hb⟩ := Option.isSome_iff_exists.mp hsome
    have henc : encodeStatements stmts = some (encodeUvarint stmts.length ++ bs) := by
      rw [encodeStatements, hb]
      rfl
    refine ⟨_, henc, ?_⟩
    have hsize := hsize _ henc
    have hr := reads_decodeStmts henc (le_refl _) hsize fun st hst => (h st hst).2
    have hr := hr [] [] (by simp only [List.nil_append, List.append_nil]; omega)
    simp only [List.nil_append, List.append_nil, List.length_nil] at hr
    rw [decodeStatements, hr]
    rfl

/-- `DELETE FROM t WHERE a = 1` comes back. -/
theorem roundTrips_iff_eq : RoundTrips
    [.delete (ascii "t") (.binary .eq (.ident (ascii "a")) (.literal (.int 1)))] := by
  refine (roundTrips_iff _ ?_).mpr ?_
  · rintro _ ⟨⟩
    decide
  · simp [complete_iff, Statement.InTable, Statement.required, Statement.optional, Expr.NoNil,
      Expr.InTable, Expr.All, binaryOps]

/-- `DELETE FROM t WHERE a LIKE 'x'` comes back as `DELETE FROM t`. -/
theorem not_roundTrips_like :
    ¬ RoundTrips [.delete (ascii "t")
        (.binary .like (.ident (ascii "a")) (.literal (.string (ascii "x"))))] ∧
      (encodeStatements [.delete (ascii "t")
        (.binary .like (.ident (ascii "a")) (.literal (.string (ascii "x"))))]).bind
        decodeStatements = some (.ok [.delete (ascii "t") .nil]) := by
  have h : (encodeStatements [.delete (ascii "t")
      (.binary .like (.ident (ascii "a")) (.literal (.string (ascii "x"))))]).bind
      decodeStatements = some (.ok [.delete (ascii "t") .nil]) := by
    decide +kernel
  refine ⟨?_, h⟩
  rintro ⟨data, henc, hdec⟩
  rw [henc, Option.bind_some, hdec] at h
  simp at h

end RoundTrip

end Ydbgo.Sql
