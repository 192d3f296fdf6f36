import Ydbgo.Sql.PrintExprs

/-! # Reading printed statements

Each part of a statement is read from the tokens of its text.
-/

namespace Ydbgo.Sql

open Tokens

/-! ### What is read again -/

def ColumnDef.reread (c : ColumnDef) : ColumnDef :=
  ⟨c.name, c.type.reread, c.notNull || c.asPrimary, .nil, c.asPrimary⟩

section

variable (lib : Stdlib)

def SetItem.reread (s : SetItem) : SetItem := ⟨s.column, s.value.reread lib⟩

/-- The statement that the text of a printable one is parsed as. -/
def Statement.reread : Statement → Statement
  | .createTable name columns pk _ engine retention =>
    .createTable name (columns.map ColumnDef.reread) pk false engine
      (if 0 < retention then retention else 0)
  | .dropIndex name _ ifExists => .dropIndex name [] ifExists
  | .insert table columns rows => .insert table columns (rows.map (·.map (Expr.reread lib)))
  | .update table sets where_ => .update table (sets.map (SetItem.reread lib)) (where_.reread lib)
  | .delete table where_ => .delete table (where_.reread lib)
  -- an end without a start is read as the start
  | .kvScan table start stop hasStart hasEnd =>
    .kvScan table (if hasStart then start else if hasEnd then stop else [])
      (if hasStart && hasEnd then stop else []) (hasStart || hasEnd) (hasStart && hasEnd)
  | st => st

end

/-- The columns of the primary key that a table has behind its columns. -/
def Statement.tableKey : Statement → List Bytes
  | .createTable _ _ pk _ _ _ => pk
  | _ => []

variable {lib : Stdlib} {formatDuration : Int64 → Bytes} {parseDuration : Bytes → Option Int64}
  {n : ℕ} {v : Token} {us : List Token} {name table : Bytes} {flag : Bool}

/-! ### Parts of statements -/

theorem parses_skipIdent : Parses skipIdent [word name] v () := by
  refine parses_peek fun p => ?_
  change Parses (if TokKind.ident = .ident then _ else _) _ _ _
  rw [if_pos rfl]
  exact parses_advance fun _ => parses_pure

theorem parses_ifExists (h : flag = true ∨ equalFold name "if" = false) :
    Parses ifExists (if flag then phrase ["if", "exists"] else []) (word name) flag := by
  cases flag with
  | true => exact parses_then rfl (parses_map (g := fun _ => true) parses_skipIdent)
  | false => exact parses_else (h.resolve_left Bool.false_ne_true) parses_pure

theorem parses_ifNotExists (h : flag = true ∨ equalFold name "if" = false) :
    Parses ifNotExists (if flag then phrase ["if", "not", "exists"] else []) (word name)
      flag := by
  cases flag with
  | true =>
    exact parses_then rfl (parses_accept rfl
      (parses_map (g := fun _ => true) parses_skipIdent))
  | false => exact parses_else (h.resolve_left Bool.false_ne_true) parses_pure

theorem parses_stringLiteral (s : Bytes) :
    Parses (stringLiteral lib) [literalToken s] v s := by
  refine parses_peek fun p => ?_
  change Parses (if TokKind.string = .string then _ else _) _ _ _
  rw [if_pos rfl]
  exact parses_advance fun _ => parses_pure

theorem parses_optionalString (s : Bytes) :
    Parses (parseKV.optionalString lib) [literalToken s] v (some s) := by
  refine parses_peek fun p => ?_
  change Parses (if TokKind.string = .string then _ else _) _ _ _
  rw [if_pos rfl]
  exact parses_map (g := some) (parses_stringLiteral s)

theorem parses_noString (hv : v.kind ≠ .string) :
    Parses (parseKV.optionalString lib) [] v none := by
  refine parses_peek fun p => ?_
  change Parses (if v.kind = .string then _ else _) _ _ _
  rw [if_neg hv]
  exact parses_pure

theorem parses_equals {what : String} :
    Parses (equalsAfter what) [opMark (ascii "=")] v () := by
  refine parses_peek fun p => ?_
  change Parses (if TokKind.op = .op then _ else _) _ _ _
  rw [if_pos rfl]
  exact parses_advance fun _ => parses_pure

/-- Names in parentheses, behind the first one. -/
theorem parses_names {names : List Bytes} {what : String} (hne : names ≠ [])
    (hn : names.length ≤ n) (h : ∀ name ∈ names, IsName lib name) :
    Parses (commaList (ident lib what) n) (commaTokens (names.map fun name => [word name]))
      (markToken .rparen 41) names := by
  have hall : Parses (commaList (ident lib what) n)
      (commaTokens (names.map fun name => [word name])) (markToken .rparen 41) (names.map id) :=
    parses_commaList hne hn TokKind.noConfusion fun name hname w _ =>
      parses_ident (h name hname)
  rwa [List.map_id] at hall

theorem parses_where {e : Expr} (hlib : AsciiLibrary lib) (h : PrintableOrNil lib e)
    (hn : (whereTokens lib e).length < n) :
    Parses (exprAfter lib "where" n) (whereTokens lib e) endToken (e.reread lib) := by
  unfold whereTokens at hn ⊢
  split
  · subst e
    exact parses_else rfl parses_pure
  · rename_i hne
    rw [if_neg hne] at hn
    have hlt : (e.tokens lib).length < n := Nat.lt_of_succ_lt hn
    exact parses_then rfl (parses_expr hlib (h.resolve_left hne) hlt endsExpr_endToken)

/-! ### Columns -/

theorem parses_columnType (hlib : AsciiLibrary lib) (type : SqlType) :
    Parses (columnType lib) [word type.name] v type.reread := by
  refine parses_peek fun p => ?_
  change Parses (if TokKind.ident = .ident then _ else _) _ _ _
  rw [if_pos rfl, ← typeFromKeyword_name hlib type]
  exact parses_advance fun _ => parses_pure

theorem parses_columnNotNull (hv : v.is "not" = false) :
    Parses columnNotNull (if flag then phrase ["not", "null"] else []) v flag := by
  cases flag with
  | true => exact parses_then rfl (parses_accept rfl parses_pure)
  | false => exact parses_else hv parses_pure

theorem parses_columnPrimary (hv : v.is "primary" = false) (hkind : v.kind ≠ .lparen) :
    Parses columnPrimary (if flag then phrase ["primary", "key"] else []) v (some flag) := by
  cases flag with
  | true =>
    refine parses_thenKeyword rfl (parses_advance fun _ => parses_accept rfl ?_)
    refine parses_peek fun p => ?_
    change Parses (if v.kind = .lparen then _ else _) _ _ _
    rw [if_neg hkind]
    exact parses_pure
  | false => exact parses_elseKeyword hv parses_pure

/-- What stands behind a column. -/
def EndsColumn (v : Token) : Prop := v = markToken .comma 44 ∨ v = markToken .rparen 41

theorem EndsColumn.not_is (h : EndsColumn v) (kw : String) : v.is kw = false := by
  rcases h with rfl | rfl <;> rfl

theorem EndsColumn.kind (h : EndsColumn v) : v.kind ≠ .lparen := by
  rcases h with rfl | rfl <;> exact TokKind.noConfusion

theorem parses_column {c : ColumnDef} (hlib : AsciiLibrary lib) (h : IsName lib c.name)
    (hv : EndsColumn v) :
    Parses (parseColumn lib n) (columnTokens c) v (some c.reread) := by
  have hnull : ((if c.asPrimary then phrase ["primary", "key"] else []).headD v).is "not" =
      false := by
    cases c.asPrimary with
    | true => rfl
    | false => exact hv.not_is "not"
  have htokens : columnTokens c = [word c.name] ++ ([word c.type.name] ++
      ((if c.notNull then phrase ["not", "null"] else []) ++
        ((if c.asPrimary then phrase ["primary", "key"] else []) ++ []))) := by
    simp [columnTokens]
  rw [htokens]
  refine parses_bind (parses_ident h) (parses_bind (parses_columnType hlib c.type) ?_)
  refine parses_bind (parses_columnNotNull (by rwa [List.append_nil])) ?_
  refine parses_bind (parses_columnPrimary (hv.not_is "primary") hv.kind) ?_
  exact parses_after (parses_else (hv.not_is "default") parses_pure) parses_pure

theorem columnTokens_eq_cons (c : ColumnDef) : ∃ us, columnTokens c = word c.name :: us :=
  ⟨_, rfl⟩

/-- A round of `parseColumns`. -/
def columnRound (lib : Stdlib) (n : ℕ) (cols : List ColumnDef) :
    Parser (Round (List ColumnDef) (List ColumnDef)) := do
  let t ← peek
  let primary ← isKeyword "primary"
  if t.kind = .rparen || primary then return .done cols
  else do
    match ← parseColumn lib n with
    | none => return .done cols
    | some col => roundEnd (cols ++ [col]) (cols ++ [col])

theorem parses_columnRound {c : ColumnDef} {cols : List ColumnDef} {vs : List Token}
    {round : Round (List ColumnDef) (List ColumnDef)} (hlib : AsciiLibrary lib)
    (h : IsName lib c.name) (hfree : equalFold c.name "primary" = false)
    (hv : EndsColumn (vs.headD v))
    (hend : Parses (roundEnd (cols ++ [c.reread]) (cols ++ [c.reread])) vs v round) :
    Parses (columnRound lib n cols) (columnTokens c ++ vs) v round := by
  refine parses_peek fun p => parses_isKeyword ?_
  have hcond : (decide ((word c.name).kind = .rparen) || (word c.name).is "primary") = false :=
    hfree
  change Parses (if (decide ((word c.name).kind = .rparen) || (word c.name).is "primary") = true
    then _ else _) _ _ _
  rw [hcond, if_neg Bool.false_ne_true]
  exact parses_bind (parses_column hlib h hv) hend

theorem parses_columns {columns : List ColumnDef} (hlib : AsciiLibrary lib)
    (h : ∀ c ∈ columns, IsName lib c.name ∧ equalFold c.name "primary" = false)
    (hn : columns.length < n) :
    Parses (parseColumns lib n) (commaTokens (columns.map columnTokens)) (markToken .rparen 41)
      (columns.map ColumnDef.reread) := by
  change Parses (loop (columnRound lib n) n []) _ _ _
  cases columns with
  | nil =>
    obtain ⟨n, rfl⟩ := Nat.exists_eq_add_of_le' hn
    refine parses_loop_done (parses_peek fun p => parses_isKeyword ?_)
    exact parses_pure
  | cons c cs =>
    refine @parses_rounds _ _ _ _ _ _ _ _ [] (List.cons_ne_nil _ _) hn.le
      (fun c hc items => ?_) fun c hc items w => ?_
    · obtain ⟨hname, hfree⟩ := h c hc
      have hall : Parses (columnRound lib n items) (columnTokens c ++ []) (markToken .rparen 41)
          (.done (items ++ [c.reread])) := parses_columnRound hlib hname hfree (.inr rfl)
        (parses_noComma TokKind.noConfusion)
      rwa [List.append_nil] at hall
    · obtain ⟨hname, hfree⟩ := h c hc
      exact parses_columnRound hlib hname hfree (.inl rfl) parses_comma

/-! ### CREATE TABLE -/

def engineTokens (lib : Stdlib) (engine : Bytes) : List Token :=
  if engine = [] then [] else settingTokens "engine" (word (lib.toUpper engine))

def retentionTokens (formatDuration : Int64 → Bytes) (retention : Int64) : List Token :=
  if 0 < retention then settingTokens "retention" (literalToken (formatDuration retention)) else []

theorem lower_upper (hlib : AsciiLibrary lib) {engine : Bytes}
    (h : engine ∈ ["table", "kv", "cstore", "cstore2"].map ascii) :
    lib.toLower (lib.toUpper engine) = engine := by
  have hall : ∀ engine ∈ ["table", "kv", "cstore", "cstore2"].map ascii,
      (∀ c ∈ engine, c < 128) ∧ (∀ c ∈ engine.map upperAscii, c < 128) ∧
        (engine.map upperAscii).map lowerAscii = engine := by decide +kernel
  obtain ⟨hascii, hupper, heq⟩ := hall engine h
  rw [hlib.upper engine hascii, hlib.lower _ hupper, heq]

theorem parses_engine {engine : Bytes} (hlib : AsciiLibrary lib)
    (h : engine = [] ∨ engine ∈ ["table", "kv", "cstore", "cstore2"].map ascii)
    (hv : v.is "engine" = false) : Parses (tableEngine lib) (engineTokens lib engine) v engine := by
  unfold engineTokens
  split
  · subst engine
    exact parses_else hv parses_pure
  · have hmem := h.resolve_left ‹_›
    have hword : Parses (ident lib "engine name (TABLE|KV|CSTORE|CSTORE2)")
        [word (lib.toUpper engine)] v engine := by
      refine parses_peek fun p => ?_
      change Parses (if TokKind.ident = .ident then _ else _) _ _ _
      rw [if_pos rfl]
      have hlower : Parses (identLower lib) [word (lib.toUpper engine)] v
          (lib.toLower (lib.toUpper engine)) := parses_advance fun _ => parses_pure
      rwa [lower_upper hlib hmem] at hlower
    have hrest : Parses (if engine ∈ ["table", "kv", "cstore", "cstore2"].map ascii then
        return engine
      else refuse (ascii "unknown ENGINE " ++ lib.quote engine ++
        ascii " (want TABLE, KV, CSTORE or CSTORE2)")) [] v engine := by
      rw [if_pos hmem]
      exact parses_pure
    exact parses_then rfl (parses_one parses_equals
      (parses_one hword hrest))

theorem parses_retention {retention : Int64}
    (h : 0 < retention →
      parseRetention lib parseDuration (formatDuration retention) = .ok retention)
    (hv : v.is "retention" = false) :
    Parses (tableRetention lib parseDuration) (retentionTokens formatDuration retention) v
      (if 0 < retention then retention else 0) := by
  unfold retentionTokens
  split
  · have hpos := h ‹_›
    refine parses_then rfl (parses_one parses_equals ?_)
    refine parses_peek fun p => ?_
    change Parses (if TokKind.string = .string then _ else _) _ _ _
    rw [if_pos rfl]
    refine parses_advance fun p => ?_
    simp only [literalToken, hpos]
    exact parses_pure
  · exact parses_else hv parses_pure

theorem inParens_append (us vs : List Token) : inParens us ++ vs =
    markToken .lparen 40 :: (us ++ (markToken .rparen 41 :: vs)) := by
  simp [inParens]

theorem parses_createTable {columns : List ColumnDef} {engine : Bytes} {retention : Int64}
    (hlib : AsciiLibrary lib) (hname : IsNameAt lib false name)
    (hcolumns : ∀ c ∈ columns, IsName lib c.name ∧ equalFold c.name "primary" = false)
    (hengine : engine = [] ∨ engine ∈ ["table", "kv", "cstore", "cstore2"].map ascii)
    (hretention : 0 < retention →
      parseRetention lib parseDuration (formatDuration retention) = .ok retention)
    (hn : columns.length < n) (hv : v.is "engine" = false) (hv' : v.is "retention" = false) :
    Parses (parseCreate lib parseDuration n) (phrase ["create", "table"] ++ ([word name] ++
      (inParens (commaTokens (columns.map columnTokens)) ++
        (engineTokens lib engine ++ retentionTokens formatDuration retention)))) v
      (.createTable name (columns.map ColumnDef.reread) [] false engine
        (if 0 < retention then retention else 0)) := by
  have hhead : ((retentionTokens formatDuration retention).headD v).is "engine" = false := by
    unfold retentionTokens
    split
    · rfl
    · exact hv
  have htail : Parses (do
      let engine ← tableEngine lib
      let retention ← tableRetention lib parseDuration
      return Statement.createTable name (columns.map ColumnDef.reread) [] false engine retention)
      (engineTokens lib engine ++ retentionTokens formatDuration retention) v
      (.createTable name (columns.map ColumnDef.reread) [] false engine
        (if 0 < retention then retention else 0)) :=
    parses_bind (parses_engine hlib hengine hhead)
      (parses_map (parses_retention hretention hv'))
  refine parses_advance fun _ => parses_else rfl (parses_else rfl (parses_then rfl ?_))
  have hexists : Parses ifExists [] (word name) false :=
    parses_else (hname.2.resolve_left Bool.false_ne_true) parses_pure
  change Parses _ (word name :: _) _ _
  refine parses_after hexists (parses_one (parses_ident hname.1) ?_)
  rw [inParens_append]
  refine parses_expect rfl fun _ => parses_bind (parses_columns hlib hcolumns hn) ?_
  have hkey : Parses (tablePrimary lib n) [] (markToken .rparen 41) [] :=
    parses_else rfl parses_pure
  exact parses_after hkey (parses_expect rfl fun _ => htail)

/-! ### The other statements -/

/-- A round of `indexColumns`. -/
def indexRound (lib : Stdlib) (cols : List Bytes) : Parser (Round (List Bytes) (List Bytes)) := do
  let t ← peek
  if t.kind = .rparen then return .done cols
  else do
    let col ← ident lib "column name"
    roundEnd (cols ++ [col]) (cols ++ [col])

theorem parses_indexRound {cols : List Bytes} {round : Round (List Bytes) (List Bytes)}
    (h : IsName lib name) (hend : Parses (roundEnd (cols ++ [name]) (cols ++ [name])) us v round) :
    Parses (indexRound lib cols) ([word name] ++ us) v round := by
  refine parses_peek fun p => ?_
  change Parses (if TokKind.ident = .rparen then _ else _) _ _ _
  rw [if_neg TokKind.noConfusion]
  exact parses_bind (parses_ident h) hend

theorem parses_indexColumns {columns : List Bytes} (h : ∀ c ∈ columns, IsName lib c)
    (hn : columns.length < n) :
    Parses (indexColumns lib n) (commaTokens (columns.map fun c => [word c]))
      (markToken .rparen 41) columns := by
  change Parses (loop (indexRound lib) n []) _ _ _
  cases columns with
  | nil =>
    obtain ⟨n, rfl⟩ := Nat.exists_eq_add_of_le' hn
    exact parses_loop_done (parses_peek fun p => parses_pure)
  | cons c cs =>
    have hall : Parses (loop (indexRound lib) n [])
        (commaTokens ((c :: cs).map fun c => [word c])) (markToken .rparen 41)
        ([] ++ (c :: cs).map id) := by
      refine parses_rounds (List.cons_ne_nil _ _) hn.le (fun c hc items => ?_)
        fun c hc items w => ?_
      · have hround : Parses (indexRound lib items) ([word c] ++ []) (markToken .rparen 41)
            (.done (items ++ [c])) :=
          parses_indexRound (h c hc) (parses_noComma TokKind.noConfusion)
        exact hround
      · exact parses_indexRound (h c hc) parses_comma
    rwa [List.map_id] at hall

theorem parses_createIndex {columns : List Bytes} (hname : IsNameAt lib flag name)
    (htable : IsName lib table) (hcolumns : ∀ c ∈ columns, IsName lib c)
    (hn : columns.length < n) :
    Parses (parseCreate lib parseDuration n) (keyword "create" :: keyword "index" ::
      ((if flag then phrase ["if", "not", "exists"] else []) ++ ([word name] ++
        (keyword "on" :: ([word table] ++ namesTokens columns))))) v
      (.createIndex name table columns flag) := by
  refine parses_advance fun _ => parses_else rfl (parses_then rfl ?_)
  refine parses_bind (parses_ifNotExists hname.2) ?_
  refine parses_bind (parses_ident hname.1) (parses_accept rfl ?_)
  refine parses_bind (parses_ident htable) ?_
  change Parses _ (markToken .lparen 40 :: (_ ++ [markToken .rparen 41])) _ _
  refine parses_expect rfl fun _ => parses_bind (parses_indexColumns hcolumns hn) ?_
  exact parses_expect rfl fun _ => parses_pure

theorem parses_dropTable (h : IsNameAt lib flag name) :
    Parses (parseDrop lib) (keyword "drop" :: keyword "table" ::
      ((if flag then phrase ["if", "exists"] else []) ++ [word name])) v
      (.dropTable name flag) := by
  refine parses_advance fun _ => parses_then rfl (parses_bind (parses_ifExists h.2) ?_)
  exact parses_map (g := fun name => Statement.dropTable name flag) (parses_ident h.1)

theorem parses_dropIndex (h : IsNameAt lib flag name) :
    Parses (parseDrop lib) (keyword "drop" :: keyword "index" ::
      ((if flag then phrase ["if", "exists"] else []) ++ [word name])) endToken
      (.dropIndex name [] flag) := by
  refine parses_advance fun _ => parses_else rfl (parses_then rfl ?_)
  refine parses_bind (parses_ifExists h.2) ?_
  refine parses_one (parses_ident h.1) (parses_skip rfl ?_)
  exact parses_peek fun p => parses_pure

theorem parses_row {row : List Expr} (hlib : AsciiLibrary lib) (hne : row ≠ [])
    (h : ∀ e ∈ row, e.Printable lib) (hn : (rowTokens lib row).length < n) :
    Parses (parseRow lib n) (rowTokens lib row) v (row.map (Expr.reread lib)) := by
  have hnil : ∀ e ∈ row, e.tokens lib ≠ [] := fun e he => tokens_ne_nil (h e he)
  have hlen := @length_le_commaTokens _ (Expr.tokens lib) _ hnil
  rw [rowTokens, length_inParens] at hn
  change Parses _ (markToken .lparen 40 :: (_ ++ [markToken .rparen 41])) _ _
  refine parses_expect rfl fun _ => parses_bind (parses_commaList (r := Expr.reread lib)
    hne (by omega) TokKind.noConfusion fun e he w hw => ?_) ?_
  · have hmem : e.tokens lib ∈ row.map (Expr.tokens lib) := List.mem_map_of_mem he
    have hle := length_commaTokens _ hmem
    refine parses_expr hlib (h e he) (by omega) ?_
    rcases hw with rfl | rfl
    · exact endsExpr_comma
    · exact endsExpr_rparen
  · exact parses_expect rfl fun _ => parses_pure

theorem parses_insertNames {columns : List Bytes}
    (h : ∀ c ∈ columns, IsName lib c) (hn : columns.length ≤ n) :
    Parses (insertNames lib n) (if columns = [] then [] else namesTokens columns)
      (keyword "values") columns := by
  split
  · subst columns
    exact parses_peek fun p => parses_pure
  · change Parses _ (markToken .lparen 40 :: (_ ++ [markToken .rparen 41])) _ _
    refine parses_peek fun p => ?_
    change Parses (if TokKind.lparen = .lparen then _ else _) _ _ _
    rw [if_pos rfl]
    refine parses_advance fun _ => parses_bind (parses_names ‹_› hn h) ?_
    exact parses_expect rfl fun _ => parses_pure

theorem parses_insert {columns : List Bytes} {rows : List (List Expr)}
    (hlib : AsciiLibrary lib) (htable : IsName lib table) (hcolumns : ∀ c ∈ columns, IsName lib c)
    (hne : rows ≠ []) (hrows : ∀ row ∈ rows, row ≠ [] ∧ ∀ e ∈ row, e.Printable lib)
    (hn : columns.length ≤ n) (hlen : (commaTokens (rows.map (rowTokens lib))).length < n) :
    Parses (parseInsert lib n) (keyword "insert" :: keyword "into" :: word table ::
      ((if columns = [] then [] else namesTokens columns) ++
        (keyword "values" :: commaTokens (rows.map (rowTokens lib))))) endToken
      (.insert table columns (rows.map (·.map (Expr.reread lib)))) := by
  have hnil : ∀ row ∈ rows, rowTokens lib row ≠ [] := fun _ _ => List.cons_ne_nil _ _
  have hle := length_le_commaTokens hnil
  have hall : Parses (commaList (parseRow lib n) n) (commaTokens (rows.map (rowTokens lib)))
      endToken (rows.map (·.map (Expr.reread lib))) := by
    refine parses_commaList hne (by omega) TokKind.noConfusion fun row hrow w _ => ?_
    have hmem : rowTokens lib row ∈ rows.map (rowTokens lib) := List.mem_map_of_mem hrow
    have hlt := length_commaTokens _ hmem
    exact parses_row hlib (hrows row hrow).1 (hrows row hrow).2 (by omega)
  refine parses_advance fun _ => parses_accept rfl ?_
  refine parses_one (parses_ident htable) (parses_bind (parses_insertNames hcolumns hn) ?_)
  exact parses_accept rfl (parses_map (g := Statement.insert table columns) hall)

theorem parses_set {s : SetItem} (hlib : AsciiLibrary lib) (hname : IsName lib s.column)
    (h : s.value.Printable lib) (hn : (setTokens lib s).length < n) (hv : EndsExpr v) :
    Parses (parseSet lib n) (setTokens lib s) v (s.reread lib) := by
  have hlt : (s.value.tokens lib).length < n := Nat.lt_of_succ_lt (Nat.lt_of_succ_lt hn)
  refine parses_one (parses_ident hname) (parses_expect rfl fun _ => ?_)
  exact parses_map (g := SetItem.mk s.column) (parses_expr hlib h hlt hv)

theorem endsExpr_whereTokens {e : Expr} : EndsExpr ((whereTokens lib e).headD endToken) := by
  unfold whereTokens
  split
  · exact endsExpr_endToken
  · exact endsExpr_where

theorem parses_update {sets : List SetItem} {e : Expr} (hlib : AsciiLibrary lib)
    (htable : IsName lib table) (hne : sets ≠ [])
    (hsets : ∀ s ∈ sets, IsName lib s.column ∧ s.value.Printable lib)
    (he : PrintableOrNil lib e) (hlen : (commaTokens (sets.map (setTokens lib))).length < n)
    (hlen' : (whereTokens lib e).length < n) :
    Parses (parseUpdate lib n) (keyword "update" :: word table :: keyword "set" ::
      (commaTokens (sets.map (setTokens lib)) ++ whereTokens lib e)) endToken
      (.update table (sets.map (SetItem.reread lib)) (e.reread lib)) := by
  have hnil : ∀ s ∈ sets, setTokens lib s ≠ [] := fun _ _ => List.cons_ne_nil _ _
  have hle := length_le_commaTokens hnil
  have hends := @endsExpr_whereTokens lib e
  have hcomma : ((whereTokens lib e).headD endToken).kind ≠ .comma := by
    unfold whereTokens
    split <;> exact TokKind.noConfusion
  refine parses_advance fun _ => parses_one (parses_ident htable) (parses_accept rfl ?_)
  refine parses_bind (parses_commaList hne (by omega) hcomma fun s hs w hw => ?_)
    (parses_map (parses_where hlib he hlen'))
  have hmem : setTokens lib s ∈ sets.map (setTokens lib) := List.mem_map_of_mem hs
  have hlt := length_commaTokens _ hmem
  refine parses_set hlib (hsets s hs).1 (hsets s hs).2 (by omega) ?_
  rcases hw with rfl | rfl
  · exact endsExpr_comma
  · exact hends

theorem parses_delete {e : Expr} (hlib : AsciiLibrary lib) (htable : IsName lib table)
    (he : PrintableOrNil lib e) (hlen : (whereTokens lib e).length < n) :
    Parses (parseDelete lib n) (keyword "delete" :: keyword "from" :: word table ::
      whereTokens lib e) endToken (.delete table (e.reread lib)) := by
  refine parses_advance fun _ => parses_accept rfl (parses_one (parses_ident htable) ?_)
  exact parses_map (parses_where hlib he hlen)

theorem parses_kvPut {key value : Bytes} (h : IsName lib table) :
    Parses (parseKV lib) [keyword "kv", keyword "put", word table, literalToken key,
      literalToken value] v (.kvPut table key value) := by
  refine parses_advance fun _ => parses_then rfl (parses_one (parses_identLower h) ?_)
  refine parses_one (parses_stringLiteral key) ?_
  exact parses_map (parses_stringLiteral value)

theorem parses_kvGet {key : Bytes} (h : IsName lib table) :
    Parses (parseKV lib) [keyword "kv", keyword "get", word table, literalToken key] v
      (.kvGet table key) := by
  refine parses_advance fun _ => parses_else rfl (parses_then rfl ?_)
  exact parses_one (parses_identLower h) (parses_map (parses_stringLiteral key))

theorem parses_kvDelete {key : Bytes} (h : IsName lib table) :
    Parses (parseKV lib) [keyword "kv", keyword "delete", word table, literalToken key] v
      (.kvDelete table key) := by
  refine parses_advance fun _ => parses_else rfl (parses_else rfl (parses_then rfl ?_))
  exact parses_one (parses_identLower h) (parses_map (parses_stringLiteral key))

/-- The keys of a KV SCAN. -/
theorem parses_kvScan {start stop : Bytes} {hasStart hasEnd : Bool} (h : IsName lib table) :
    Parses (parseKV lib) (keyword "kv" :: keyword "scan" :: word table ::
      ((if hasStart then [literalToken start] else []) ++
        (if hasEnd then [literalToken stop] else []))) endToken
      ((Statement.kvScan table start stop hasStart hasEnd).reread lib) := by
  have hend : endToken.kind ≠ .string := TokKind.noConfusion
  refine parses_advance fun _ => parses_else rfl (parses_else rfl (parses_else rfl ?_))
  refine parses_then rfl (parses_one (parses_identLower h) ?_)
  cases hasStart with
  | true =>
    refine parses_one (parses_optionalString start) ?_
    cases hasEnd with
    | true => exact parses_one (parses_optionalString stop) parses_pure
    | false => exact parses_after (parses_noString hend) parses_pure
  | false =>
    cases hasEnd with
    | true =>
      refine parses_one (parses_optionalString stop) ?_
      exact parses_after (parses_noString hend) parses_pure
    | false =>
      refine parses_after (parses_noString hend) ?_
      exact parses_after (parses_noString hend) parses_pure

end Ydbgo.Sql
