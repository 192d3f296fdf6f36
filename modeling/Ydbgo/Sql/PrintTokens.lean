import Ydbgo.Sql.PrintLexed

/-! # The tokens of a printed statement

What the lexer finds in the text of a statement, by recursion over the statement.
It holds for the statements whose names are words and whose numbers are numbers.
-/

namespace Ydbgo.Sql

open Tokens

/-! ### Numbers -/

/-- The digits of a number that may have a sign. -/
def unsigned : Bytes → Bytes
  | 45 :: text => text
  | text => text

def signTokens : Bytes → List Token
  | 45 :: _ => [opMark (ascii "-")]
  | _ => []

section

variable (lib : Stdlib)

/-- The tokens of a number that may have a sign. -/
def numberTokens (text : Bytes) : List Token :=
  signTokens text ++ ((numberToken lib (unsigned text)).map fun r => r.1.bare).toList

/-- The text is one number, maybe with a sign. -/
def SignedNumber (text : Bytes) : Prop := ∃ t, IsNumber lib (unsigned text) t

def Literal.tokens : Literal → List Token
  | .null => [keyword "null"]
  | .int n => numberTokens lib (formatInt n)
  | .float x => numberTokens lib (lib.formatFloat x)
  | .string s => [literalToken s]
  | .bool b => [keyword (if b then "true" else "false")]
  | .timestamp _ => [literalToken []]
  | .other _ => []

def nameToken (name : Bytes) : Token := if name = ascii "*" then markToken .star 42 else word name

/-- Commas between the parts. -/
def commaTokens (parts : List (List Token)) : List Token := [markToken .comma 44].intercalate parts

def inParens (us : List Token) : List Token :=
  [markToken .lparen 40] ++ us ++ [markToken .rparen 41]

mutual

def Expr.tokens : Expr → List Token
  | .nil => []
  | .ident name => [nameToken name]
  | .literal l => l.tokens lib
  | .binary op left right => inParens (left.tokens ++ op.tokens ++ right.tokens)
  | .unary op e => inParens (op.tokens ++ e.tokens)
  | .call name args => [word name] ++ inParens (commaTokens (Expr.tokensOf args))
  | .cast e type => [keyword "cast"] ++ inParens (e.tokens ++ [keyword "as", word type.name])

def Expr.tokensOf : List Expr → List (List Token)
  | [] => []
  | e :: es => e.tokens :: Expr.tokensOf es

end

/-! ### What can be printed -/

/-- Words that are no names in an expression. -/
def Reserved (name : Bytes) : Prop :=
  ∃ kw ∈ ["null", "true", "false", "cast", "not"], equalFold name kw = true

/-- A word in lower case. -/
def IsName (name : Bytes) : Prop := isWord name = true ∧ lib.toLower name = name

/-- An expression whose own part of the text is read as it is meant. -/
def Expr.Readable : Expr → Prop
  | .nil => False
  | .ident name => name = ascii "*" ∨ IsName lib name ∧ ¬ Reserved name
  | .literal (.int n) => SignedNumber lib (formatInt n)
  | .literal (.float x) => SignedNumber lib (lib.formatFloat x)
  | .literal (.other _) => False
  | .literal _ => True
  | .call name _ => IsName lib name ∧ ¬ Reserved name
  | .binary _ _ _ | .unary _ _ | .cast _ _ => True

/-- The text of the expression can be parsed. -/
def Expr.Printable (e : Expr) : Prop := e.All (Expr.Readable lib)

end

variable {lib : Stdlib} {F : Bytes → Prop} {text : Bytes} {us : List Token}

theorem tokensOf_eq (es : List Expr) : Expr.tokensOf lib es = es.map (Expr.tokens lib) := by
  induction es with
  | nil => rfl
  | cons e es ih => rw [Expr.tokensOf, ih, List.map_cons]

theorem exprStrings_eq (es : List Expr) : exprStrings lib es = es.map (exprString lib) := by
  induction es with
  | nil => rfl
  | cons e es ih => rw [exprStrings, ih, List.map_cons]

/-! ### Texts of the printer -/

theorem text_space : ascii " " = [32] := rfl

theorem text_lparen : ascii "(" = [40] := rfl

theorem text_rparen : ascii ")" = [41] := rfl

theorem text_comma : ascii ", " = [44] ++ [32] := rfl

/-! ### Expressions -/

theorem spells_number_signed (h : SignedNumber lib text) :
    Spells lib Detached text (numberTokens lib text) := by
  obtain ⟨t, ht⟩ := h
  have htokens : numberTokens lib text = signTokens text ++ [t.bare] := by
    rw [numberTokens, ht.1]
    rfl
  rw [htokens]
  have hspells := spells_number ht
  unfold unsigned at ht hspells
  split at hspells
  · rename_i digits
    have hsign : Spells lib NoOperator [45] [opMark [45]] := spells_op (by decide)
    refine hsign.append hspells fun rest _ c hc => ?_
    obtain ⟨-, hhead⟩ := ht
    cases digits with
    | nil => cases hhead
    | cons d digits =>
      have hd : isDigit c = true := Option.some.inj hc ▸ hhead
      constructor
      · rintro rfl
        cases hd
      · rintro rfl
        cases hd
  · rename_i hne
    have hnil : signTokens text = [] := by
      unfold signTokens
      split
      · exact absurd rfl (hne _)
      · rfl
    rwa [hnil]

theorem spells_commaJoin {α : Type} {f : α → Bytes} {g : α → List Token} {as : List α}
    (h : ∀ a ∈ as, Spells lib Detached (f a) (g a)) :
    Spells lib Detached (commaJoin (as.map f)) (commaTokens (as.map g)) := by
  induction as with
  | nil => exact spells_nil
  | cons a as ih =>
    obtain ⟨ha, has⟩ := List.forall_mem_cons.mp h
    cases as with
    | nil =>
      simpa only [commaJoin, commaTokens, List.map_cons, List.map_nil, List.intercalate_singleton]
        using ha
    | cons b as =>
      have hcomma : Spells lib AnyText ([44] ++ [32]) [markToken .comma 44] :=
        spells_comma.any spells_space
      have hall := (ha.append hcomma fun _ _ => detached_cons delimiter_comma).any (ih has)
      simpa only [commaJoin, commaTokens, List.map_cons, List.intercalate_cons_cons, text_comma,
        List.append_assoc] using hall

theorem spells_inParens (h : Spells lib Detached text us) :
    Spells lib F ([40] ++ text ++ [41]) (inParens us) :=
  (spells_lparen.any h).append spells_rparen fun _ _ => detached_cons delimiter_rparen

theorem noOperator_word {w : Bytes} (h : isWord w = true) : NoOperator w := by
  rintro c hc
  cases w with
  | nil => cases hc
  | cons d l =>
    obtain rfl := Option.some.inj hc
    have hd := (Bool.and_eq_true_iff.mp h).1
    exact ⟨letter_ne hd rfl, letter_ne hd rfl⟩

theorem isWord_name (type : SqlType) : isWord type.name = true := by
  cases type <;> exact of_decide_eq_true rfl

theorem spells_expr {e : Expr} (h : e.Printable lib) :
    Spells lib Detached (exprString lib e) (e.tokens lib) := by
  unfold Expr.Printable at h
  induction e with
  | nil => exact absurd h id
  | ident name =>
    unfold Expr.tokens nameToken exprString
    rcases h with rfl | ⟨⟨hword, -⟩, -⟩
    · exact spells_star
    · split
      · subst name
        exact spells_star
      · exact spells_word hword
  | literal l =>
    unfold Expr.tokens exprString
    cases l with
    | null => exact spells_keyword rfl
    | int n => exact spells_number_signed h
    | float x => exact spells_number_signed h
    | string s => exact spells_sqlStr s
    | bool b =>
      cases b with
      | false => exact spells_keyword rfl
      | true => exact spells_keyword rfl
    | timestamp n => exact spells_sqlStr []
    | other k => exact absurd h id
  | binary op left right hl hr =>
    obtain ⟨-, hleft, hright⟩ := h
    unfold Expr.tokens exprString
    have hop : Spells lib AnyText (op.text ++ [32]) op.tokens := (spells_binOp op).space
    have hinner := ((hl hleft).space.any hop).any (hr hright)
    have hall : Spells lib Detached _ _ := spells_inParens hinner
    simpa only [text_space, text_lparen, text_rparen, List.append_assoc] using hall
  | unary op e he =>
    obtain ⟨-, hsub⟩ := h
    unfold Expr.tokens exprString
    have hop : Spells lib AnyText (op.text ++ [32]) op.tokens := by
      apply Spells.space
      cases op with
      | not => exact spells_keyword rfl
      | neg => exact spells_binOp .sub
      | pos => exact spells_binOp .add
    have hall : Spells lib Detached _ _ := spells_inParens (hop.any (he hsub))
    simpa only [text_space, text_lparen, text_rparen, List.append_assoc] using hall
  | call name args ih =>
    obtain ⟨⟨⟨hword, -⟩, -⟩, hargs⟩ := h
    unfold Expr.tokens exprString
    rw [tokensOf_eq, exprStrings_eq]
    have hinner := spells_commaJoin fun a ha => ih a ha (Expr.allOf_iff.mp hargs a ha)
    have hall : Spells lib Detached _ _ := (spells_word hword).append (spells_inParens hinner)
      fun _ _ => detached_cons delimiter_lparen
    simpa only [text_lparen, text_rparen, List.append_assoc] using hall
  | cast e type he =>
    obtain ⟨-, hsub⟩ := h
    unfold Expr.tokens exprString
    have has : Spells lib AnyText (ascii "as" ++ [32]) [keyword "as"] :=
      (spells_keyword rfl).space
    have hinner := (he hsub).space.any (has.any (spells_word (isWord_name type)))
    have hcast : ascii "cast(" = ascii "cast" ++ [40] := rfl
    have has' : ascii " as " = [32] ++ (ascii "as" ++ [32]) := rfl
    have hall : Spells lib Detached _ _ := (spells_keyword (s := "cast") rfl).append
      (spells_inParens hinner) fun _ _ => detached_cons delimiter_lparen
    simpa only [hcast, has', text_rparen, List.append_assoc, List.cons_append,
      List.nil_append] using hall

/-! ### Statements -/

def namesTokens (names : List Bytes) : List Token :=
  inParens (commaTokens (names.map fun name => [word name]))

def columnTokens (c : ColumnDef) : List Token :=
  [word c.name, word c.type.name] ++ (if c.notNull then phrase ["not", "null"] else []) ++
    if c.asPrimary then phrase ["primary", "key"] else []

section

variable (lib : Stdlib)

def setTokens (s : SetItem) : List Token :=
  [word s.column] ++ ([opMark (ascii "=")] ++ s.value.tokens lib)

def whereTokens (e : Expr) : List Token :=
  if e = .nil then [] else phrase ["where"] ++ e.tokens lib

def rowTokens (row : List Expr) : List Token :=
  inParens (commaTokens (row.map (Expr.tokens lib)))

/-- A word, `=` and a token. -/
def settingTokens (kw : String) (t : Token) : List Token := [keyword kw, opMark (ascii "="), t]

variable (formatDuration : Int64 → Bytes)

def Statement.tokens : Statement → List Token
  | .createTable name columns pk _ engine retention =>
    phrase ["create", "table"] ++ [word name] ++
      inParens (commaTokens (columns.map columnTokens)) ++
      (if pk = [] then [] else phrase ["primary", "key"] ++ namesTokens pk) ++
      (if engine = [] then [] else settingTokens "engine" (word (lib.toUpper engine))) ++
      if 0 < retention then settingTokens "retention" (literalToken (formatDuration retention))
      else []
  | .dropTable name ifExists =>
    phrase ["drop", "table"] ++ (if ifExists then phrase ["if", "exists"] else []) ++ [word name]
  | .createIndex name table columns ifNotExists =>
    phrase ["create", "index"] ++ (if ifNotExists then phrase ["if", "not", "exists"] else []) ++
      [word name] ++ phrase ["on"] ++ [word table] ++ namesTokens columns
  | .dropIndex name _ ifExists =>
    phrase ["drop", "index"] ++ (if ifExists then phrase ["if", "exists"] else []) ++ [word name]
  | .insert table columns rows =>
    phrase ["insert", "into"] ++ [word table] ++
      (if columns = [] then [] else namesTokens columns) ++
      phrase ["values"] ++ commaTokens (rows.map (rowTokens lib))
  | .update table sets where_ =>
    phrase ["update"] ++ [word table] ++ phrase ["set"] ++ commaTokens (sets.map (setTokens lib)) ++
      whereTokens lib where_
  | .delete table where_ => phrase ["delete", "from"] ++ [word table] ++ whereTokens lib where_
  | .begin_ => phrase ["begin"]
  | .commit => phrase ["commit"]
  | .rollback => phrase ["rollback"]
  | .createDatabase name => phrase ["create", "database"] ++ [word name]
  | .select _ => []
  | .kvPut table key value =>
    phrase ["kv", "put"] ++ [word table] ++ [literalToken key] ++ [literalToken value]
  | .kvGet table key => phrase ["kv", "get"] ++ [word table] ++ [literalToken key]
  | .kvDelete table key => phrase ["kv", "delete"] ++ [word table] ++ [literalToken key]
  | .kvScan table start stop hasStart hasEnd =>
    phrase ["kv", "scan"] ++ [word table] ++ (if hasStart then [literalToken start] else []) ++
      if hasEnd then [literalToken stop] else []

variable (parseDuration : Bytes → Option Int64)

/-- A name where `IF` may stand before it. -/
def IsNameAt (flag : Bool) (name : Bytes) : Prop :=
  IsName lib name ∧ (flag = true ∨ equalFold name "if" = false)

/-- An absent or a printable expression. -/
def PrintableOrNil (e : Expr) : Prop := e = .nil ∨ e.Printable lib

/-- The text of the statement is read as it is meant. -/
def Statement.Printable : Statement → Prop
  | .createTable name columns pk _ engine retention =>
    IsNameAt lib false name ∧
      (∀ c ∈ columns, IsName lib c.name ∧ equalFold c.name "primary" = false) ∧
      (∀ c ∈ pk, IsName lib c) ∧
      (engine = [] ∨ engine ∈ ["table", "kv", "cstore", "cstore2"].map ascii) ∧
      (0 < retention → 39 ∉ formatDuration retention ∧
        parseRetention lib parseDuration (formatDuration retention) = .ok retention)
  | .dropTable name ifExists => IsNameAt lib ifExists name
  | .createIndex name table columns ifNotExists =>
    IsNameAt lib ifNotExists name ∧ IsName lib table ∧ ∀ c ∈ columns, IsName lib c
  | .dropIndex name _ ifExists => IsNameAt lib ifExists name
  | .insert table columns rows =>
    IsName lib table ∧ (∀ c ∈ columns, IsName lib c) ∧ rows ≠ [] ∧
      ∀ row ∈ rows, row ≠ [] ∧ ∀ e ∈ row, e.Printable lib
  | .update table sets where_ =>
    IsName lib table ∧ sets ≠ [] ∧
      (∀ s ∈ sets, IsName lib s.column ∧ s.value.Printable lib) ∧ PrintableOrNil lib where_
  | .delete table where_ => IsName lib table ∧ PrintableOrNil lib where_
  | .begin_ | .commit | .rollback => True
  | .createDatabase name => IsName lib name
  | .select _ => False
  | .kvPut table _ _ | .kvGet table _ | .kvDelete table _ | .kvScan table _ _ _ _ =>
    IsName lib table

end

def upperAscii (c : UInt8) : UInt8 := if 97 ≤ c ∧ c ≤ 122 then c - 32 else c

/-- What the library does on ASCII. -/
structure AsciiLibrary (lib : Stdlib) : Prop where
  lower : ∀ s, (∀ c ∈ s, c < 128) → lib.toLower s = s.map lowerAscii
  upper : ∀ s, (∀ c ∈ s, c < 128) → lib.toUpper s = s.map upperAscii

section

variable {s w : String}

theorem spells_text (ws : List String) (hs : ascii s = phraseText ws)
    (h : ws.all fun w => isWord (ascii w)) :
    Spells lib F (ascii s) (phrase ws) := hs ▸ spells_phrase h

/-- With a space before the words. -/
theorem spells_gap (ws : List String) (hs : ascii s = 32 :: phraseText ws)
    (h : ws.all fun w => isWord (ascii w)) :
    Spells lib F (ascii s) (phrase ws) := by
  have hall : Spells lib F ([32] ++ phraseText ws) ([] ++ phrase ws) :=
    spells_space.any (spells_phrase h)
  rw [hs]
  exact hall

/-- With no space behind the last word. -/
theorem spells_gap_word (ws : List String) (hs : ascii s = 32 :: (phraseText ws ++ ascii w))
    (h : ws.all fun w => isWord (ascii w)) (hw : isWord (ascii w) = true) :
    Spells lib Detached (ascii s) (phrase (ws ++ [w])) := by
  have hall : Spells lib Detached ([32] ++ (phraseText ws ++ ascii w)) ([] ++ (phrase ws ++ [_])) :=
    spells_space.any ((spells_phrase h).any (spells_keyword hw))
  rw [hs, phrase, List.map_append]
  exact hall

theorem spells_ite {p : Prop} [Decidable p] (h : p → Spells lib F text us) :
    Spells lib F (if p then text else []) (if p then us else []) := by
  split
  · exact h ‹_›
  · exact spells_nil

theorem spells_unless {p : Prop} [Decidable p] (h : ¬ p → Spells lib F text us) :
    Spells lib F (if p then [] else text) (if p then [] else us) := by
  split
  · exact spells_nil
  · exact h ‹_›

theorem spells_names {names : List Bytes} (h : ∀ name ∈ names, IsName lib name) :
    Spells lib F ([40] ++ commaJoin names ++ [41]) (namesTokens names) := by
  have hall : Spells lib Detached (commaJoin (names.map id)) _ :=
    spells_commaJoin fun name hname => spells_word (h name hname).1
  rw [List.map_id] at hall
  exact spells_inParens hall

theorem spells_where {e : Expr} (h : PrintableOrNil lib e) :
    Spells lib Detached (whereString lib e) (whereTokens lib e) :=
  spells_unless fun hne => (spells_gap ["where"] rfl rfl).any (spells_expr (h.resolve_left hne))

end

/-! ### What stands apart -/

section

variable {rest : Bytes}

theorem Detached.append (h : Detached text) (hrest : Detached rest) : Detached (text ++ rest) := by
  cases text with
  | nil => exact hrest
  | cons c l => exact detached_cons (h c rfl)

theorem detached_of_head (h : text.head? = some 32) : Detached text := by
  intro c hc
  obtain rfl := Option.some.inj (h.symm.trans hc)
  exact delimiter_space

theorem detached_ite {p : Prop} [Decidable p] (h : Detached text) :
    Detached (if p then text else []) := by
  split
  · exact h
  · exact detached_nil

theorem detached_unless {p : Prop} [Decidable p] (h : Detached text) :
    Detached (if p then [] else text) := by
  split
  · exact detached_nil
  · exact h

theorem detached_where {e : Expr} : Detached (whereString lib e) :=
  detached_unless (detached_of_head rfl)

end

/-! ### The text of a statement -/

theorem isWord_upper (hlib : AsciiLibrary lib) {engine : Bytes}
    (h : engine ∈ ["table", "kv", "cstore", "cstore2"].map ascii) :
    isWord (lib.toUpper engine) = true := by
  have hall : ∀ engine ∈ ["table", "kv", "cstore", "cstore2"].map ascii,
      (∀ c ∈ engine, c < 128) ∧ isWord (engine.map upperAscii) = true := by decide +kernel
  obtain ⟨hascii, hword⟩ := hall engine h
  rw [hlib.upper engine hascii, hword]

theorem doubleQuotes_of_not_mem {s : Bytes} (h : 39 ∉ s) : doubleQuotes s = s := by
  induction s with
  | nil => rfl
  | cons c s ih =>
    obtain ⟨hc, hs⟩ := not_or.mp (mt List.mem_cons.mpr h)
    have hcons : doubleQuotes (c :: s) = (if c = 39 then [39, 39] else [c]) ++ doubleQuotes s :=
      List.flatMap_cons
    rw [hcons, ih hs, if_neg fun he => hc he.symm]
    rfl

theorem spells_column {c : ColumnDef} (h : IsName lib c.name) :
    Spells lib Detached (columnString c) (columnTokens c) := by
  have hnull : Spells lib Detached (ascii " not null") (phrase ["not", "null"]) :=
    spells_gap_word ["not"] (w := "null") rfl rfl rfl
  have hprimary : Spells lib Detached (ascii " primary key") (phrase ["primary", "key"]) :=
    spells_gap_word ["primary"] (w := "key") rfl rfl rfl
  have htype : Spells lib Detached c.type.name [word c.type.name] :=
    spells_word (isWord_name c.type)
  have hhead := (spells_word h.1).space.any htype
  have hall := (hhead.append (spells_ite (p := c.notNull = true) fun _ => hnull)
    fun _ => (detached_ite (detached_of_head rfl)).append).append
    (spells_ite (p := c.asPrimary = true) fun _ => hprimary)
    fun _ => (detached_ite (detached_of_head rfl)).append
  exact hall

/-- A part of a statement behind ` engine=` or ` retention=`. -/
theorem spells_setting {kw : String} (hkw : isWord (ascii kw) = true) {t : Token}
    (h : Spells lib F text [t]) (hne : text ≠ []) (htext : NoOperator text) :
    Spells lib F ([32] ++ ascii kw ++ [61] ++ text) (settingTokens kw t) := by
  have hword : Spells lib (fun rest => rest.head? = some 61) (ascii kw) [keyword kw] := by
    refine spells_word_before (fun rest hrest c hc => ?_) hkw
    obtain rfl := Option.some.inj (hrest.symm.trans hc)
    rfl
  have hsign : Spells lib NoOperator [61] [opMark [61]] := spells_op (by decide)
  refine ((spells_space.any hword).append hsign fun _ _ => rfl).append h fun rest _ c hc => ?_
  rw [List.head?_append_of_ne_nil _ hne] at hc
  exact htext c hc

section

variable {formatDuration : Int64 → Bytes} {name engine : Bytes} {names : List Bytes}
  {retention : Int64}

theorem spells_create {columns : List ColumnDef} (hname : IsName lib name)
    (hcolumns : ∀ c ∈ columns, IsName lib c.name) : Spells lib F
      (ascii "create table " ++ name ++ ascii " (" ++ commaJoin (columns.map columnString) ++
        ascii ")")
      (phrase ["create", "table"] ++ [word name] ++
        inParens (commaTokens (columns.map columnTokens))) := by
  have hopen : ascii " (" = [32] ++ [40] := rfl
  have hall : Spells lib F _ _ :=
    ((spells_text (s := "create table ") ["create", "table"] rfl rfl).any
      (spells_word hname.1)).space.any
      (spells_inParens (spells_commaJoin fun c hc => spells_column (hcolumns c hc)))
  simpa only [hopen, text_rparen, List.append_assoc] using hall

theorem spells_primary (h : ∀ name ∈ names, IsName lib name) : Spells lib F
    (if names = [] then [] else ascii " primary key (" ++ commaJoin names ++ ascii ")")
    (if names = [] then [] else phrase ["primary", "key"] ++ namesTokens names) := by
  refine spells_unless fun _ => ?_
  have hopen : ascii " primary key (" = ascii " primary key" ++ [32] ++ [40] := rfl
  have hwords : Spells lib Detached (ascii " primary key") (phrase ["primary", "key"]) :=
    spells_gap_word ["primary"] (w := "key") rfl rfl rfl
  have hall : Spells lib F _ _ := hwords.space.any (spells_names h)
  simpa only [hopen, text_rparen, List.append_assoc] using hall

theorem spells_engine (hlib : AsciiLibrary lib)
    (h : engine = [] ∨ engine ∈ ["table", "kv", "cstore", "cstore2"].map ascii) :
    Spells lib Detached
    (if engine = [] then [] else ascii " engine=" ++ lib.toUpper engine)
    (if engine = [] then [] else settingTokens "engine" (word (lib.toUpper engine))) := by
  refine spells_unless fun hne => ?_
  have hequals : ascii " engine=" = [32] ++ ascii "engine" ++ [61] := rfl
  have hword := isWord_upper hlib (h.resolve_left hne)
  rw [hequals]
  refine spells_setting rfl (spells_word hword) ?_ (noOperator_word hword)
  intro hnil
  rw [hnil] at hword
  cases hword

theorem spells_retention (h : 0 < retention → 39 ∉ formatDuration retention) : Spells lib Detached
    (if 0 < retention then ascii " retention='" ++ formatDuration retention ++ ascii "'" else [])
    (if 0 < retention then settingTokens "retention" (literalToken (formatDuration retention))
      else []) := by
  refine spells_ite fun hpos => ?_
  have hequals : ascii " retention='" = [32] ++ ascii "retention" ++ [61] ++ [39] := rfl
  have hliteral : sqlStr (formatDuration retention) =
      [39] ++ (formatDuration retention ++ ascii "'") := by
    rw [sqlStr, doubleQuotes_of_not_mem (h hpos), List.append_assoc]
    rfl
  have hnone : NoOperator (sqlStr (formatDuration retention)) := by
    rw [hliteral]
    rintro c ⟨⟩
    decide
  have hkw : isWord (ascii "retention") = true := rfl
  have hall := spells_setting hkw (@spells_sqlStr lib _) (hliteral ▸ List.cons_ne_nil _ _) hnone
  simpa only [hequals, hliteral, List.append_assoc] using hall

end

theorem spells_statement (hlib : AsciiLibrary lib) {formatDuration : Int64 → Bytes}
    {parseDuration : Bytes → Option Int64} {st : Statement}
    (h : st.Printable lib formatDuration parseDuration) :
    Spells lib Detached (statementString lib formatDuration st) (st.tokens lib formatDuration) := by
  have hnameAt {flag : Bool} {name : Bytes} (h : IsNameAt lib flag name) :
      Spells lib Detached name [word name] := spells_word h.1.1
  have hexists {flag : Bool} : Spells lib AnyText (if flag then ascii "if exists " else [])
      (if flag then phrase ["if", "exists"] else []) :=
    spells_ite fun _ => spells_text ["if", "exists"] rfl rfl
  have hopen : ascii " (" = [32] ++ [40] := rfl
  cases st with
  | createTable name columns pk ifNotExists engine retention =>
    obtain ⟨hname, hcolumns, hpk, hengine, hretention⟩ := h
    have hkeys : Spells lib AnyText _ _ :=
      (spells_create hname.1 fun c hc => (hcolumns c hc).1).any (spells_primary hpk)
    have htail : Spells lib Detached _ _ := spells_retention fun hpos => (hretention hpos).1
    exact (hkeys.any (spells_engine hlib hengine)).append htail
      fun _ => (detached_ite (detached_of_head rfl)).append
  | dropTable name ifExists =>
    exact ((spells_text ["drop", "table"] rfl rfl).any hexists).any (hnameAt h)
  | createIndex name table columns ifNotExists =>
    obtain ⟨hname, htable, hcolumns⟩ := h
    have hflag : Spells lib AnyText (if ifNotExists then ascii "if not exists " else [])
        (if ifNotExists then phrase ["if", "not", "exists"] else []) :=
      spells_ite fun _ => spells_text ["if", "not", "exists"] rfl rfl
    have hhead := ((spells_text (s := "create index ") ["create", "index"] rfl rfl).any
      hflag).any (hnameAt hname)
    have hon : Spells lib AnyText (ascii " on ") (phrase ["on"]) := spells_gap ["on"] rfl rfl
    have hall : Spells lib Detached _ _ :=
      ((hhead.append hon fun _ _ => detached_of_head rfl).any
        (spells_word htable.1)).space.any (spells_names hcolumns)
    unfold statementString Statement.tokens
    simpa only [hopen, text_rparen, List.append_assoc] using hall
  | dropIndex name table ifExists =>
    exact ((spells_text ["drop", "index"] rfl rfl).any hexists).any (hnameAt h)
  | insert table columns rows =>
    obtain ⟨htable, hcolumns, -, hrows⟩ := h
    have hrow : ∀ row ∈ rows, Spells lib Detached (rowString lib row) (rowTokens lib row) :=
      fun row hrow => spells_inParens (spells_commaJoin fun e he =>
        spells_expr ((hrows row hrow).2 e he))
    have hnames : Spells lib Detached
        (if columns = [] then [] else ascii " (" ++ commaJoin columns ++ ascii ")")
        (if columns = [] then [] else namesTokens columns) := spells_unless fun _ => by
      have hall : Spells lib Detached _ _ := spells_space.any (spells_names hcolumns)
      simpa only [hopen, text_rparen, List.append_assoc, List.nil_append] using hall
    have hvalues : Spells lib AnyText (ascii " values ") (phrase ["values"]) :=
      spells_gap ["values"] rfl rfl
    have hhead : Spells lib Detached (ascii "insert into " ++ table ++ _) _ :=
      ((spells_text ["insert", "into"] rfl rfl).any (spells_word htable.1)).append hnames
        fun _ => (detached_unless (detached_of_head rfl)).append
    exact (hhead.append hvalues fun _ _ => detached_of_head rfl).any (spells_commaJoin hrow)
  | update table sets where_ =>
    obtain ⟨htable, -, hsets, hwhere⟩ := h
    have hset : ∀ s ∈ sets, Spells lib Detached (setString lib s) (setTokens lib s) := by
      intro s hs
      have hequals : ascii " = " = [32] ++ ([61] ++ [32]) := rfl
      have hop : Spells lib AnyText ([61] ++ [32]) [opMark (ascii "=")] :=
        (spells_binOp .eq).space
      have hall : Spells lib Detached _ _ := (spells_word (hsets s hs).1.1).space.any
        (hop.any (spells_expr (hsets s hs).2))
      unfold setString setTokens
      simpa only [hequals, List.append_assoc] using hall
    have hgap : Spells lib AnyText (ascii " set ") (phrase ["set"]) := spells_gap ["set"] rfl rfl
    have hhead : Spells lib Detached (ascii "update " ++ table) _ :=
      (spells_text ["update"] rfl rfl).any (spells_word htable.1)
    have hall := (hhead.append hgap fun _ _ => detached_of_head rfl).any
      (spells_commaJoin hset)
    exact hall.append (spells_where hwhere) fun _ => detached_where.append
  | delete table where_ =>
    obtain ⟨htable, hwhere⟩ := h
    exact ((spells_text ["delete", "from"] rfl rfl).any (spells_word htable.1)).append
      (spells_where hwhere) fun _ => detached_where.append
  | begin_ => exact spells_keyword rfl
  | commit => exact spells_keyword rfl
  | rollback => exact spells_keyword rfl
  | createDatabase name =>
    exact (spells_text ["create", "database"] rfl rfl).any (spells_word h.1)
  | select s => exact absurd h id
  | kvPut table key value =>
    exact (((spells_text ["kv", "put"] rfl rfl).any (spells_word h.1)).space.any
      (spells_sqlStr key)).space.any (spells_sqlStr value)
  | kvGet table key =>
    exact ((spells_text ["kv", "get"] rfl rfl).any (spells_word h.1)).space.any (spells_sqlStr key)
  | kvDelete table key =>
    exact ((spells_text ["kv", "delete"] rfl rfl).any (spells_word h.1)).space.any
      (spells_sqlStr key)
  | kvScan table start stop hasStart hasEnd =>
    have hkey {flag : Bool} {s : Bytes} : Spells lib Detached
        (if flag then ascii " " ++ sqlStr s else []) (if flag then [literalToken s] else []) :=
      spells_ite fun _ => spells_space.any (spells_sqlStr s)
    exact (((spells_text ["kv", "scan"] rfl rfl).any (spells_word h.1)).append hkey
      fun _ => (detached_ite (detached_of_head rfl)).append).append hkey
      fun _ => (detached_ite (detached_of_head rfl)).append

end Ydbgo.Sql
