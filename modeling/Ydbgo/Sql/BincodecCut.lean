import Ydbgo.Sql.BincodecSafe

/-! # Cut encodings

The decoder passes over the encoding of any statements, or returns an error on
the way: an operator that is not in the table costs an expression its value but
not its bytes. So a decoder that stops in front of the end of an encoding has
met an error.
-/

namespace Ydbgo.Sql

variable {α β : Type}

/-! ### Passing over an encoding -/

/-- `d` takes `bs`, whatever stands around it. -/
def PassesOver (d : Decoder α) (bs : Bytes) : Prop := ∃ a, Reads d bs a

/-- `d` returns an error or takes `bs`, whatever stands around it. -/
def Ends (d : Decoder (Except String α)) (bs : Bytes) : Prop :=
  ∀ pre post : Bytes, (pre ++ (bs ++ post)).length < 2 ^ 63 →
    ∃ a r, d ⟨pre ++ (bs ++ post), pre.length, none⟩ = some (a, r) ∧
      ((∃ e, a = .error e) ∨ r = ⟨pre ++ (bs ++ post), (pre ++ bs).length, none⟩)

theorem Reads.passes {d : Decoder α} {bs : Bytes} {a : α} (h : Reads d bs a) : PassesOver d bs := ⟨a, h⟩

theorem PassesOver.pure (a : α) : PassesOver (Pure.pure a) [] := ⟨a, .pure a⟩

theorem PassesOver.bind {d : Decoder α} {k : α → Decoder β} {bs cs : Bytes} (hd : PassesOver d bs)
    (hk : ∀ a, PassesOver (k a) cs) : PassesOver (d >>= k) (bs ++ cs) := by
  obtain ⟨a, hd⟩ := hd
  obtain ⟨b, hk⟩ := hk a
  exact ⟨b, hd.bind hk⟩

theorem PassesOver.map {d : Decoder α} {bs : Bytes} (f : α → β) (hd : PassesOver d bs) :
    PassesOver (d >>= fun a => Pure.pure (f a)) bs := by
  obtain ⟨a, hd⟩ := hd
  exact ⟨f a, hd.map f⟩

theorem Reads.bind_passes {d : Decoder α} {k : α → Decoder β} {bs cs : Bytes} {a : α}
    (hd : Reads d bs a) (hk : PassesOver (k a) cs) : PassesOver (d >>= k) (bs ++ cs) := by
  obtain ⟨b, hk⟩ := hk
  exact ⟨b, hd.bind hk⟩

theorem PassesOver.ends {d : Decoder (Except String α)} {bs : Bytes} (h : PassesOver d bs) : Ends d bs := by
  obtain ⟨a, h⟩ := h
  exact fun pre post hlen => ⟨a, _, h pre post hlen, .inr rfl⟩

theorem Reads.bind_ends {d : Decoder α} {k : α → Decoder (Except String β)} {bs cs : Bytes} {a : α}
    (hd : Reads d bs a) (hk : Ends (k a) cs) : Ends (d >>= k) (bs ++ cs) := by
  intro pre post h
  have h₁ := hd pre (cs ++ post)
  have h₂ := hk (pre ++ bs) post
  simp only [List.append_assoc] at h h₁ h₂ ⊢
  rw [Layout.run_some (h₁ h)]
  exact h₂ h

/-- What follows only if there was no error. -/
theorem Ends.bind {d : Decoder (Except String α)} {k : Except String α → Decoder (Except String β)}
    {bs cs : Bytes} (hd : Ends d bs) (herr : ∀ e, k (.error e) = Pure.pure (.error e))
    (hk : ∀ a, Ends (k (.ok a)) cs) : Ends (d >>= k) (bs ++ cs) := by
  intro pre post h
  simp only [List.append_assoc] at h ⊢
  obtain ⟨a, r, hrun, hend⟩ := hd pre (cs ++ post) h
  rw [Layout.run_some hrun]
  cases a with
  | error e =>
    rw [herr]
    exact ⟨_, r, rfl, .inl ⟨e, rfl⟩⟩
  | ok a =>
    obtain ⟨e, he⟩ | rfl := hend
    · cases he
    · have h₂ := hk a (pre ++ bs) post
      simp only [List.append_assoc] at h₂
      exact h₂ h

theorem ends_pure (a : Except String α) : Ends (Pure.pure a) [] := (PassesOver.pure a).ends

section Loops

variable {enc : α → Option Bytes} {L : ℕ} {as : List α} {bs : Bytes}

theorem passes_times {d : Decoder β} (hd : ∀ a ∈ as, ∀ cs, enc a = some cs → cs.length ≤ L → PassesOver d cs)
    (h : encodeAll enc as = some bs) (hL : bs.length ≤ L) : PassesOver (times as.length d) bs := by
  induction as generalizing bs with
  | nil =>
    obtain rfl := Option.some.inj h
    exact .pure []
  | cons a as ih =>
    obtain ⟨cs, ds, hc, hds, rfl⟩ := encodeAll_cons h
    rw [List.length_append] at hL
    have ih := ih (fun a ha => hd a (List.mem_cons_of_mem _ ha)) hds (by omega)
    exact (hd a List.mem_cons_self cs hc (by omega)).bind fun _ => ih.map _

theorem ends_timesOrErr {d : Decoder (Except String β)}
    (hd : ∀ a ∈ as, ∀ cs, enc a = some cs → cs.length ≤ L → Ends d cs)
    (h : encodeAll enc as = some bs) (hL : bs.length ≤ L) : Ends (timesOrErr as.length d) bs := by
  induction as generalizing bs with
  | nil =>
    obtain rfl := Option.some.inj h
    exact ends_pure _
  | cons a as ih =>
    obtain ⟨cs, ds, hc, hds, rfl⟩ := encodeAll_cons h
    rw [List.length_append] at hL
    have ih := ih (fun a ha => hd a (List.mem_cons_of_mem _ ha)) hds (by omega)
    refine (hd a List.mem_cons_self cs hc (by omega)).bind ?_ ?_
    · exact fun _ => rfl
    · rintro b
      rw [← List.append_nil ds]
      refine ih.bind ?_ ?_
      · exact fun _ => rfl
      · exact fun _ => ends_pure _

end Loops

/-! ### Expressions -/

theorem passes_ignoreErr {d : Decoder (Except String Expr)} {bs : Bytes} (h : PassesOver d bs) :
    PassesOver (ignoreErr d) bs := by
  obtain ⟨a, h⟩ := h
  rw [← List.append_nil bs]
  cases a with
  | error e => exact h.bind_passes (.pure _)
  | ok e => exact h.bind_passes (.pure _)

theorem passes_decodeExpr {fuel : ℕ} (hf : fuel < 2 ^ 63) {e : Expr} {bs : Bytes}
    (h : encodeExpr e = some bs) (hbs : bs.length ≤ fuel) : PassesOver (decodeExpr fuel) bs := by
  induction fuel generalizing e bs with
  | zero =>
    have hpos := length_encodeExpr_pos h
    omega
  | succ fuel ih =>
    have ih := fun {e bs} => @ih (by omega) e bs
    cases e with
    | nil => cases h
    | ident name =>
      obtain rfl := Option.some.inj h
      exact (reads_readByte 2).bind_passes ((reads_readStr name).map _).passes
    | literal l =>
      obtain rfl := Option.some.inj h
      exact (reads_readByte 1).bind_passes ((reads_readLiteral l).map _).passes
    | binary op left right =>
      simp only [encodeExpr, Option.bind_eq_bind, Option.bind_eq_some_iff] at h
      obtain ⟨ls, hl, rs, hr, ⟨⟩⟩ := h
      simp only [List.length_cons, List.length_append] at hbs
      have hright := passes_ignoreErr (ih hr (by omega))
      refine (reads_readByte 3).bind_passes <| (reads_readByte _).bind_passes <|
        (passes_ignoreErr (ih hl (by omega))).bind fun l => ?_
      cases opAt binaryOps (opByte binaryOps op) with
      | none => exact hright.map fun _ => (.error "sql: bad binary op" : Except String Expr)
      | some op => exact hright.map fun r => (.ok (.binary op l r) : Except String Expr)
    | unary op e =>
      simp only [encodeExpr, Option.bind_eq_bind, Option.bind_eq_some_iff] at h
      obtain ⟨cs, hc, ⟨⟩⟩ := h
      simp only [List.length_cons] at hbs
      have hpart := passes_ignoreErr (ih hc (by omega))
      refine (reads_readByte 4).bind_passes <| (reads_readByte _).bind_passes ?_
      cases opAt unaryOps (opByte unaryOps op) with
      | none => exact hpart.map fun _ => (.error "sql: bad unary op" : Except String Expr)
      | some op => exact hpart.map fun e => (.ok (.unary op e) : Except String Expr)
    | call name args =>
      simp only [encodeExpr, Option.bind_eq_bind, Option.bind_eq_some_iff, encodeExprs_eq] at h
      obtain ⟨cs, hc, ⟨⟩⟩ := h
      simp only [List.length_cons, List.length_append] at hbs
      have hlen := length_le_encodeAll (fun _ _ => length_encodeExpr_pos) hc
      have hargs := @passes_times _ _ _ fuel _ _ (ignoreErr (decodeExpr fuel))
        (fun a _ bs hb hL => passes_ignoreErr (ih hb hL)) hc (by omega)
      exact (reads_readByte 5).bind_passes <| (reads_readStr name).bind_passes <|
        (reads_readCount (by omega)).bind_passes (hargs.map _)
    | cast e type =>
      simp only [encodeExpr, Option.bind_eq_bind, Option.bind_eq_some_iff] at h
      obtain ⟨cs, hc, ⟨⟩⟩ := h
      simp only [List.length_cons, List.length_append] at hbs
      exact (reads_readByte 6).bind_passes <| (passes_ignoreErr (ih hc (by omega))).bind fun _ =>
        ((reads_readType type).map _).passes

/-! ### Statements -/

section Decode

variable {fuel : ℕ} (hf : fuel ≤ 2 ^ 44) {bs : Bytes} (hbs : bs.length ≤ fuel)
include hf hbs

theorem passes_decodeOpt {e : Expr} (h : encodeOpt e = some bs) : PassesOver (decodeOpt fuel) bs := by
  by_cases hn : e = .nil
  · subst hn
    obtain rfl := Option.some.inj h
    exact (reads_readBool false).bind_passes (.pure Expr.nil)
  · have h : ((encodeExpr e).bind fun bs => some (encodeBool true ++ bs)) = some bs := by
      cases e <;> first | exact absurd rfl hn | exact h
    obtain ⟨cs, hc, ⟨⟩⟩ := Option.bind_eq_some_iff.mp h
    rw [List.length_append] at hbs
    exact (reads_readBool true).bind_passes
      (passes_ignoreErr (passes_decodeExpr (by omega) hc (by omega)))

theorem passes_decodeColumn {c : ColumnDef} (h : encodeColumn c = some bs) :
    PassesOver (decodeColumn fuel) bs := by
  obtain ⟨d, hd, ⟨⟩⟩ := Option.bind_eq_some_iff.mp h
  simp only [List.length_append] at hbs
  exact (reads_readStr c.name).bind_passes <| (reads_readType c.type).bind_passes <|
    (reads_readBool c.notNull).bind_passes <| (reads_readBool c.asPrimary).bind_passes <|
    (passes_decodeOpt hf (by omega) hd).map _

theorem ends_decodeRow {row : List Expr} (h : encodeRow row = some bs) :
    Ends (decodeRow fuel) bs := by
  obtain ⟨cs, hc, ⟨⟩⟩ := Option.bind_eq_some_iff.mp h
  rw [encodeExprs_eq] at hc
  rw [List.length_append] at hbs
  have hlen := length_le_encodeAll (fun _ _ => length_encodeExpr_pos) hc
  have hexprs := @ends_timesOrErr _ _ _ fuel _ _ (decodeExpr fuel)
    (fun e _ _ hb hL => (passes_decodeExpr (by omega) hb hL).ends) hc (by omega)
  apply (reads_readUvarint _).bind_ends
  rw [← List.nil_append cs]
  apply (reads_make (by omega)).bind_ends
  rwa [toInt_toInt64_ofNat (by omega), Int.toNat_natCast]

theorem passes_decodeSet {it : SetItem} (h : encodeSet it = some bs) : PassesOver (decodeSet fuel) bs := by
  obtain ⟨cs, hc, ⟨⟩⟩ := Option.bind_eq_some_iff.mp h
  rw [List.length_append] at hbs
  exact (reads_readStr it.column).bind_passes <|
    (passes_ignoreErr (passes_decodeExpr (by omega) hc (by omega))).map _

theorem passes_decodeItem {it : SelectItem} (h : encodeItem it = some bs) :
    PassesOver (decodeItem fuel) bs := by
  obtain ⟨cs, hc, ⟨⟩⟩ := Option.bind_eq_some_iff.mp h
  rw [List.length_append] at hbs
  exact (passes_ignoreErr (passes_decodeExpr (by omega) hc (by omega))).bind fun _ =>
    ((reads_readStr it.alias_).map _).passes

theorem passes_decodeOrder {o : OrderItem} (h : encodeOrder o = some bs) :
    PassesOver (decodeOrder fuel) bs := by
  obtain ⟨cs, hc, ⟨⟩⟩ := Option.bind_eq_some_iff.mp h
  rw [List.length_append] at hbs
  exact (passes_ignoreErr (passes_decodeExpr (by omega) hc (by omega))).bind fun _ =>
    ((reads_readBool o.desc).map _).passes

theorem passes_decodeSelect {s : SelectStmt} (h : encodeSelect s = some bs) :
    PassesOver (decodeSelect fuel) bs := by
  simp only [encodeSelect, Option.bind_eq_bind, Option.bind_eq_some_iff, encodeExprs_eq] at h
  obtain ⟨is, hi, ws, hw, gs, hg, os, ho, ⟨⟩⟩ := h
  simp only [List.length_append] at hbs
  have hi' := length_le_encodeAll (fun _ _ h => length_encodeItem_pos h) hi
  have hg' := length_le_encodeAll (fun _ _ => length_encodeExpr_pos) hg
  have ho' := length_le_encodeAll (fun _ _ h => length_encodeOrder_pos h) ho
  have hitems := @passes_times _ _ _ fuel _ _ (decodeItem fuel)
    (fun it _ _ hb hL => passes_decodeItem hf hL hb) hi (by omega)
  have hgroups := @passes_times _ _ _ fuel _ _ (ignoreErr (decodeExpr fuel))
    (fun e _ _ hb hL => passes_ignoreErr (passes_decodeExpr (by omega) hb hL)) hg (by omega)
  have horders := @passes_times _ _ _ fuel _ _ (decodeOrder fuel)
    (fun o _ _ hb hL => passes_decodeOrder hf hL hb) ho (by omega)
  exact (reads_readBool s.distinct).bind_passes <| (reads_readCount (by omega)).bind_passes <|
    hitems.bind fun _ => (reads_readStr s.from_).bind_passes <|
    (passes_decodeOpt hf (by omega) hw).bind fun _ => (reads_readCount (by omega)).bind_passes <|
    hgroups.bind fun _ => (reads_readCount (by omega)).bind_passes <| horders.bind fun _ =>
    (reads_readBool s.hasLimit).bind_passes ((reads_readVarint s.limit).map _).passes

theorem ends_decodeStmt {st : Statement} (h : encodeStmt st = some bs) : Ends (decodeStmt fuel) bs := by
  cases st with
  | createTable name columns pk ifNotExists engine retention =>
    simp only [encodeStmt, Option.bind_eq_bind, Option.bind_eq_some_iff] at h
    obtain ⟨cs, hc, ps, hp, ⟨⟩⟩ := h
    simp only [List.length_cons, List.length_append] at hbs
    have hc' := length_le_encodeAll (fun _ _ h => length_encodeColumn_pos h) hc
    have hp' := length_le_encodeStrs hp
    have hcolumns := @passes_times _ _ _ fuel _ _ (decodeColumn fuel)
      (fun c _ _ hb hL => passes_decodeColumn hf hL hb) hc (by omega)
    have hpass : PassesOver (decodeStmt fuel) _ := (reads_readByte 1).bind_passes <|
      (reads_readStr name).bind_passes <| (reads_readCount (by omega)).bind_passes <|
      hcolumns.bind fun _ => (reads_readCount (by omega)).bind_passes <|
      (reads_times_readStr hp).bind_passes <| (reads_readBool ifNotExists).bind_passes <|
      (reads_readStr engine).bind_passes ((reads_readVarint retention).map _).passes
    exact hpass.ends
  | insert table columns rows =>
    simp only [encodeStmt, Option.bind_eq_bind, Option.bind_eq_some_iff] at h
    obtain ⟨cs, hc, rs, hr, ⟨⟩⟩ := h
    simp only [List.length_cons, List.length_append] at hbs
    have hc' := length_le_encodeStrs hc
    have hr' := length_le_encodeAll (fun _ _ h => length_encodeRow_pos h) hr
    have hrows := @ends_timesOrErr _ _ _ fuel _ _ (decodeRow fuel)
      (fun row _ _ hb hL => ends_decodeRow hf hL hb) hr (by omega)
    rw [← List.append_nil rs]
    exact (reads_readByte 5).bind_ends <| (reads_readStr table).bind_ends <|
      (reads_readCount (by omega)).bind_ends <| (reads_times_readStr hc).bind_ends <|
      (reads_readCount (by omega)).bind_ends <| hrows.bind (fun _ => rfl) fun _ => ends_pure _
  | update table sets where_ =>
    simp only [encodeStmt, Option.bind_eq_bind, Option.bind_eq_some_iff] at h
    obtain ⟨cs, hc, ws, hw, ⟨⟩⟩ := h
    simp only [List.length_cons, List.length_append] at hbs
    have hc' := length_le_encodeAll (fun _ _ h => length_encodeSet_pos h) hc
    have hsets := @passes_times _ _ _ fuel _ _ (decodeSet fuel)
      (fun it _ _ hb hL => passes_decodeSet hf hL hb) hc (by omega)
    have hpass : PassesOver (decodeStmt fuel) _ := (reads_readByte 6).bind_passes <|
      (reads_readStr table).bind_passes <| (reads_readCount (by omega)).bind_passes <|
      hsets.bind fun _ => (passes_decodeOpt hf (by omega) hw).map _
    exact hpass.ends
  | delete table where_ =>
    obtain ⟨ws, hw, ⟨⟩⟩ := Option.bind_eq_some_iff.mp h
    simp only [List.length_cons, List.length_append] at hbs
    have hpass : PassesOver (decodeStmt fuel) _ := (reads_readByte 7).bind_passes <|
      (reads_readStr table).bind_passes <| (passes_decodeOpt hf (by omega) hw).map _
    exact hpass.ends
  | select s =>
    obtain ⟨cs, hc, ⟨⟩⟩ := Option.bind_eq_some_iff.mp h
    rw [List.length_cons] at hbs
    have hpass : PassesOver (decodeStmt fuel) _ := (reads_readByte 12).bind_passes <|
      (passes_decodeSelect hf (by omega) hc).map _
    exact hpass.ends
  | _ => exact (reads_decodeStmt hf h (fun _ he => absurd he List.not_mem_nil) hbs).passes.ends

end Decode

/-! ### The statements -/

theorem ends_decodeStmts {stmts : List Statement} {data : Bytes} {fuel : ℕ}
    (h : encodeStatements stmts = some data) (hfuel : data.length ≤ fuel) (hf : fuel ≤ 2 ^ 44) :
    Ends (decodeStmts fuel) data := by
  obtain ⟨bs, hb, ⟨⟩⟩ := Option.bind_eq_some_iff.mp h
  rw [List.length_append] at hfuel
  have hlen := length_le_encodeAll (fun _ _ h => length_encodeStmt_pos h) hb
  have hstmts := @ends_timesOrErr _ _ _ fuel _ _ (decodeStmt fuel)
    (fun st _ _ hc hL => ends_decodeStmt hf hL hc) hb (by omega)
  apply (reads_readUvarint _).bind_ends
  rw [← List.nil_append bs]
  apply (reads_make (by omega)).bind_ends
  rw [toInt_toInt64_ofNat (by omega), Int.toNat_natCast, ← List.append_nil bs]
  refine hstmts.bind (fun _ => rfl) fun stmts => ?_
  exact (reads_useErr.bind (.pure (Except.ok stmts))).passes.ends

theorem bind_useErr {β : Type} (k : Option String → Decoder β) (r : Reader) :
    (useErr >>= k) r = k r.err r := rfl

/-- Statements are returned only where the reader has no error. -/
theorem err_of_decodeStmts {fuel : ℕ} {r r' : Reader} {stmts : List Statement}
    (h : decodeStmts fuel r = some (.ok stmts, r')) : r'.err = none := by
  obtain ⟨⟨n, r₁⟩, -, h⟩ := Option.bind_eq_some_iff.mp h
  obtain ⟨⟨u, r₂⟩, -, h⟩ := Option.bind_eq_some_iff.mp h
  obtain ⟨⟨res, r₃⟩, -, h⟩ := Option.bind_eq_some_iff.mp h
  cases res with
  | error e => cases h
  | ok stmts =>
    dsimp only at h
    rw [bind_useErr] at h
    cases herr : r₃.err with
    | none =>
      rw [herr] at h
      obtain ⟨-, rfl⟩ := Prod.mk.inj (Option.some.inj h)
      exact herr
    | some err =>
      rw [herr] at h
      cases h

/-- A strict prefix of an encoding is refused. -/
theorem decodeStatements_cut {stmts : List Statement} {data : Bytes}
    (h : encodeStatements stmts = some data) (hsize : data.length ≤ 2 ^ 44) {k : ℕ}
    (hk : k < data.length) : ∃ e, decodeStatements (data.take k) = some (.error e) := by
  obtain ⟨res, r, hrun, hend⟩ := ends_decodeStmts h (le_refl _) hsize [] []
    (by simp only [List.nil_append, List.append_nil]; omega)
  simp only [List.nil_append, List.append_nil, List.length_nil] at hrun hend
  have hwhole : (Checked.decodeStmts (Checked.decodeExpr data.length)).run
      (Layout.before data data) = some (res, r) := by
    rw [Checked.run_decodeStmts, before_self, hrun]
  have hpos : (Layout.before data data).pos ≤ k := by
    rw [before_self]
    exact Nat.zero_le k
  obtain ⟨res', r', hcut, hres⟩ := Layout.run_cut List.suffix_rfl (by omega)
    (Checked.fueled_decodeStmts (le_refl _)) hpos hk.le hwhole
  have hlen : (data.take k).length = k := List.length_take_of_le hk.le
  have hstart : Layout.cut k (Layout.before data data) =
      Layout.before (data.take k) (data.take k) := by
    rw [before_self, before_self]
    rfl
  have hbelow := Checked.closed_below.decodeStmts
    (Checked.below_decodeExpr (by omega : (data.take k).length ≤ data.length))
  rw [hstart, hbelow.run_eq List.suffix_rfl (by omega) (Checked.fueled_decodeStmts (le_refl _)),
    Checked.run_decodeStmts, before_self] at hcut
  have hdecode : decodeStatements (data.take k) = some res' := by
    rw [decodeStatements, hcut]
    rfl
  cases res' with
  | error e => exact ⟨e, hdecode⟩
  | ok stmts' =>
    have herr := err_of_decodeStmts hcut
    obtain hfail | ⟨rfl, rfl, hle⟩ := hres
    · rw [herr] at hfail
      cases hfail
    · obtain ⟨e, he⟩ | rfl := hend
      · cases he
      · change data.length ≤ k at hle
        omega

/-! ### Safety -/

/-- The decoder is safe exactly on the inputs with sound lengths and counts, and refuses what is left
of each encoding that was cut. -/
theorem decodeStatements_safe (data : Bytes) :
    (data.length < 2 ^ 63 → (Safe data ↔ SoundStatements data)) ∧
      ∀ stmts : List Statement, encodeStatements stmts = some data → data.length ≤ 2 ^ 44 →
        ∀ k < data.length, ∃ e, decodeStatements (data.take k) = some (.error e) :=
  ⟨safe_iff, fun _ h hsize _ hk => decodeStatements_cut h hsize hk⟩

/-- `COMMIT`. -/
theorem decodeStatements_safe_commit : (Safe [1, 9] ↔ SoundStatements [1, 9]) ∧
    ∃ e, decodeStatements [1] = some (.error e) :=
  ⟨(decodeStatements_safe [1, 9]).1 (by decide),
    (decodeStatements_safe [1, 9]).2 [.commit] (by decide +kernel) (by decide) 1 (by decide)⟩

/-- The number of statements is negative. -/
theorem decodeStatements_panics :
    decodeStatements [255, 255, 255, 255, 255, 255, 255, 255, 255, 1] = none ∧
      ¬ Safe [255, 255, 255, 255, 255, 255, 255, 255, 255, 1] := by
  have hunsound : ¬ SoundStatements [255, 255, 255, 255, 255, 255, 255, 255, 255, 1] := by
    decide +kernel
  exact ⟨by decide +kernel, fun h => hunsound ((safe_iff (by decide)).mp h)⟩

end Ydbgo.Sql
