import Ydbgo.Sql.Lexer

/-! # The parser

`Parse` and its recursive descent. The last position is that of the final token.
A parameter bounds the rounds of each loop and the depth of the calls; duration
texts are read by the library's `ParseDuration`, which is a parameter too.
-/

namespace Ydbgo.Sql

open Tokens

abbrev Parser (α : Type) : Type := Scan Token Bytes α

/-! ### Tokens -/

def lowerAscii (c : UInt8) : UInt8 := if 65 ≤ c ∧ c ≤ 90 then c + 32 else c

/-- `strings.EqualFold` with a keyword. The two other characters that fold to letters of ASCII are
in no identifier, as one of their bytes is no letter. -/
def equalFold (text : Bytes) (kw : String) : Bool :=
  text.map lowerAscii == (ascii kw).map lowerAscii

/-- `p.toks[p.pos]`. -/
def peek : Parser Token := do
  let p ← get
  itemAt p.pos

def peekAt (k : ℕ) : Parser Token := do
  let p ← get
  if p.pos + k < p.items.length then itemAt ((p.pos + k : ℕ) : ℤ)
  else itemAt ((p.items.length : ℤ) - 1)

def advance : Parser Token := do
  let p ← get
  let t ← itemAt p.pos
  if (p.pos : ℤ) < (p.items.length : ℤ) - 1 then do
    moveTo ((p.pos + 1 : ℕ) : ℤ)
    return t
  else return t

/-- `p.pos++` at every semicolon. -/
def skipSemicolons (n : ℕ) : Parser Unit :=
  loop (fun _ => do
    let t ← peek
    if t.kind = .semicolon then do
      let p ← get
      moveTo ((p.pos + 1 : ℕ) : ℤ)
      return .next ()
    else return .done ()) n ()

def isKeyword (kw : String) : Parser Bool := do
  let t ← peek
  return t.kind = .ident && equalFold t.text kw

def acceptKeyword (kw : String) : Parser Bool := do
  if ← isKeyword kw then do
    let _ ← advance
    return true
  else return false

def expectedAt (what : String) (pos : ℕ) : Bytes :=
  ascii "expected " ++ ascii what ++ ascii " at pos " ++ formatNat pos

/-- `expect(tokIdent, "EXISTS")` where its error is dropped. -/
def skipIdent : Parser Unit := do
  let t ← peek
  if t.kind = .ident then do
    let _ ← advance
    return ()
  else return ()

section

variable (lib : Stdlib)

def expect (kind : TokKind) (what : String) : Parser Token := do
  let t ← peek
  if t.kind = kind then advance
  else refuse (expectedAt what t.pos ++ ascii ", got " ++ lib.quote t.text)

def identLower : Parser Bytes := do
  let t ← advance
  return lib.toLower t.text

/-- `identLower` behind a check that there is an identifier. -/
def ident (what : String) : Parser Bytes := do
  let t ← peek
  if t.kind = .ident then identLower lib else refuse (expectedAt what t.pos)

def stringLiteral : Parser Bytes := do
  let t ← peek
  if t.kind = .string then do
    let _ ← advance
    return t.text
  else refuse (expectedAt "string literal" t.pos ++ ascii ", got " ++ lib.quote t.text)

/-- `for { …; if comma { advance; continue }; break }`. -/
def commaList {α : Type} (item : Parser α) (n : ℕ) : Parser (List α) :=
  loop (fun items => do
    let a ← item
    let t ← peek
    if t.kind = .comma then do
      let _ ← advance
      return .next (items ++ [a])
    else return .done (items ++ [a])) n []

def typeFromKeyword (kw : Bytes) : SqlType :=
  let kw := lib.toLower kw
  if kw ∈ ["int", "int64", "integer"].map ascii then .int
  else if kw ∈ ["float", "double", "real"].map ascii then .float
  else if kw ∈ ["string", "text", "varchar"].map ascii then .string
  else if kw ∈ ["bool", "boolean"].map ascii then .bool
  else if kw = ascii "timestamp" then .timestamp
  else .null

/-! ### Expressions -/

/-- `left := operand; for operator { left = left operator operand }`. -/
def leftAssoc (operand : Parser Expr) (operator : Parser (Option BinOp)) (n : ℕ) :
    Parser Expr := do
  let left ← operand
  loop (fun left => do
    match ← operator with
    | none => return .done left
    | some op => do
      let right ← operand
      return .next (.binary op left right)) n left

/-- `p.isKeyword(kw)`, with the `advance` behind it, as an operator. -/
def keywordOp (kw : String) (op : BinOp) : Parser (Option BinOp) := do
  if ← acceptKeyword kw then return some op else return none

/-- The operators of `parseComparison` that are tokens of their own. -/
def comparisonOp (t : Token) : Option BinOp :=
  if t.kind ≠ .op then none
  else if t.text = ascii "=" ∨ t.text = ascii "==" then some .eq
  else if t.text = ascii "<>" ∨ t.text = ascii "!=" then some .ne
  else if t.text = ascii "<" then some .lt
  else if t.text = ascii "<=" then some .le
  else if t.text = ascii ">" then some .gt
  else if t.text = ascii ">=" then some .ge
  else none

def comparison : Parser (Option BinOp) := do
  let t ← peek
  match comparisonOp t with
  | some op => do
    let _ ← advance
    return some op
  | none => do
    let isNot ← isKeyword "not"
    let t ← peekAt 1
    if isNot && t.kind = .ident && equalFold t.text "like" then do
      let _ ← advance
      let _ ← advance
      return some .notLike
    else keywordOp "like" .like

/-- An operator that is the token's kind or text. -/
def tokenOp (op : Token → Option BinOp) : Parser (Option BinOp) := do
  let t ← peek
  match op t with
  | some op => do
    let _ ← advance
    return some op
  | none => return none

def additiveOp (t : Token) : Option BinOp :=
  if t.kind ≠ .op then none
  else if t.text = ascii "+" then some .add
  else if t.text = ascii "-" then some .sub
  else none

def multiplicativeOp (t : Token) : Option BinOp :=
  if t.kind = .star ∨ t.kind = .op ∧ t.text = ascii "*" then some .mul
  else if t.kind = .op ∧ t.text = ascii "/" then some .div
  else none

def signOp (t : Token) : Option UnOp :=
  if t.kind ≠ .op then none
  else if t.text = ascii "-" then some .neg
  else if t.text = ascii "+" then some .pos
  else none

/-- `CAST (e AS type)` behind the keyword. -/
def parseCast (parseExpr : Parser Expr) : Parser Expr := do
  let _ ← expect lib .lparen "("
  let e ← parseExpr
  let _ ← acceptKeyword "as"
  let t ← peek
  if t.kind = .ident then do
    let t ← advance
    let _ ← expect lib .rparen ")"
    return .cast e (typeFromKeyword lib t.text)
  else refuse (expectedAt "type after AS" t.pos)

/-- The arguments of a call behind its parenthesis. -/
def parseArgs (parseExpr : Parser Expr) (n : ℕ) : Parser (List Expr) := do
  let t ← peek
  if t.kind = .rparen then return [] else commaList parseExpr n

/-- The `tokIdent` case of `parsePrimary`. -/
def parseIdent (parseExpr : Parser Expr) (n : ℕ) (t : Token) : Parser Expr := do
  if equalFold t.text "null" then do
    let _ ← advance
    return .literal .null
  else if equalFold t.text "true" || equalFold t.text "false" then do
    let _ ← advance
    return .literal (.bool (equalFold t.text "true"))
  else if equalFold t.text "cast" then do
    let _ ← advance
    parseCast lib parseExpr
  else do
    let u ← peekAt 1
    if u.kind = .lparen then do
      let _ ← advance
      let _ ← advance
      let args ← parseArgs parseExpr n
      let _ ← expect lib .rparen ")"
      return .call (lib.toLower t.text) args
    else do
      let _ ← advance
      return .ident (lib.toLower t.text)

def parsePrimary (parseExpr : Parser Expr) (n : ℕ) : Parser Expr := do
  let t ← peek
  match t.kind with
  | .number => do
    let _ ← advance
    return .literal (if t.isFloat then .float t.fltVal else .int t.intVal)
  | .string => do
    let _ ← advance
    return .literal (.string t.text)
  | .star => do
    let _ ← advance
    return .ident (ascii "*")
  | .lparen => do
    let _ ← advance
    let e ← parseExpr
    let _ ← expect lib .rparen ")"
    return e
  | .ident => parseIdent lib parseExpr n t
  | _ => refuse (ascii "unexpected token " ++ lib.quote t.text ++ ascii " at pos " ++
      formatNat t.pos)

def parseUnary (parseExpr : Parser Expr) : ℕ → Parser Expr
  | 0 => fault .fuel
  | n + 1 => do
    let t ← peek
    match signOp t with
    | some op => do
      let _ ← advance
      let e ← parseUnary parseExpr n
      return .unary op e
    | none => do
      if ← acceptKeyword "not" then do
        let e ← parseUnary parseExpr n
        return .unary .not e
      else parsePrimary lib parseExpr (n + 1)

def parseMultiplicative (parseExpr : Parser Expr) (n : ℕ) : Parser Expr :=
  leftAssoc (parseUnary lib parseExpr n) (tokenOp multiplicativeOp) n

def parseAdditive (parseExpr : Parser Expr) (n : ℕ) : Parser Expr :=
  leftAssoc (parseMultiplicative lib parseExpr n) (tokenOp additiveOp) n

def parseComparison (parseExpr : Parser Expr) (n : ℕ) : Parser Expr :=
  leftAssoc (parseAdditive lib parseExpr n) comparison n

def parseAnd (parseExpr : Parser Expr) (n : ℕ) : Parser Expr :=
  leftAssoc (parseComparison lib parseExpr n) (keywordOp "and" .and) n

def parseOr (parseExpr : Parser Expr) (n : ℕ) : Parser Expr :=
  leftAssoc (parseAnd lib parseExpr n) (keywordOp "or" .or) n

def parseExpr : ℕ → Parser Expr
  | 0 => fault .fuel
  | n + 1 => parseOr lib (parseExpr n) (n + 1)

/-- An expression behind its keyword, or nil. -/
def exprAfter (kw : String) (n : ℕ) : Parser Expr := do
  if ← acceptKeyword kw then parseExpr lib n else return .nil

/-! ### Statements -/

def parseKV : Parser Statement := do
  let _ ← advance
  if ← acceptKeyword "put" then do
    let table ← identLower lib
    let key ← stringLiteral lib
    let value ← stringLiteral lib
    return .kvPut table key value
  else if ← acceptKeyword "get" then do
    let table ← identLower lib
    let key ← stringLiteral lib
    return .kvGet table key
  else if ← acceptKeyword "delete" then do
    let table ← identLower lib
    let key ← stringLiteral lib
    return .kvDelete table key
  else if ← acceptKeyword "scan" then do
    let table ← identLower lib
    let start ← optionalString
    let stop ← optionalString
    return .kvScan table (start.getD []) (stop.getD []) start.isSome stop.isSome
  else do
    let t ← peek
    refuse (expectedAt "PUT/GET/DELETE/SCAN after KV" t.pos)
where
  /-- A string literal, if there is one. -/
  optionalString : Parser (Option Bytes) := do
    let t ← peek
    if t.kind = .string then do
      let s ← stringLiteral lib
      return some s
    else return none

/-- `IF EXISTS`, of which any second word does. -/
def ifExists : Parser Bool := do
  if ← acceptKeyword "if" then do
    skipIdent
    return true
  else return false

def ifNotExists : Parser Bool := do
  if ← acceptKeyword "if" then do
    let _ ← acceptKeyword "not"
    skipIdent
    return true
  else return false

/-- The type of a column, where there is a word behind its name. -/
def columnType : Parser SqlType := do
  let t ← peek
  if t.kind = .ident then do
    let t ← advance
    return typeFromKeyword lib t.text
  else return .null

/-- `NOT NULL`, or `NOT` alone. -/
def columnNotNull : Parser Bool := do
  if ← acceptKeyword "not" then do
    let _ ← acceptKeyword "null"
    return true
  else return false

/-- `PRIMARY KEY` behind a column. Before a parenthesis it is the table's own, and the position goes
back by two tokens. -/
def columnPrimary : Parser (Option Bool) := do
  if ← isKeyword "primary" then do
    let _ ← advance
    let _ ← acceptKeyword "key"
    let t ← peek
    if t.kind = .lparen then do
      let p ← get
      moveTo ((p.pos : ℤ) - 2)
      return none
    else return some true
  else return some false

/-- A round of the loop over columns up to its comma, `none` where the position goes back. -/
def parseColumn (n : ℕ) : Parser (Option ColumnDef) := do
  let name ← ident lib "column name"
  let type ← columnType lib
  let notNull ← columnNotNull
  match ← columnPrimary with
  | none => return none
  | some primary => do
    let default ← exprAfter lib "default" n
    return some ⟨name, type, notNull || primary, default, primary⟩

def parseColumns (n : ℕ) : Parser (List ColumnDef) :=
  loop (fun cols => do
    let t ← peek
    let primary ← isKeyword "primary"
    if t.kind = .rparen || primary then return .done cols
    else do
      match ← parseColumn lib n with
      | none => return .done cols
      | some col => do
        let t ← peek
        if t.kind = .comma then do
          let _ ← advance
          return .next (cols ++ [col])
        else return .done (cols ++ [col])) n []

/-- The table's `PRIMARY KEY (…)` behind its columns. -/
def tablePrimary (n : ℕ) : Parser (List Bytes) := do
  if ← acceptKeyword "primary" then do
    let _ ← acceptKeyword "key"
    let _ ← expect lib .lparen "("
    let pk ← commaList (ident lib "pk column") n
    let _ ← expect lib .rparen ")"
    return pk
  else return []

/-- `=` behind a word, which any operator does for. -/
def equalsAfter (what : String) : Parser Unit := do
  let t ← peek
  if t.kind = .op then do
    let _ ← advance
    return ()
  else refuse (expectedAt what t.pos)

def tableEngine : Parser Bytes := do
  if ← acceptKeyword "engine" then do
    equalsAfter "= after ENGINE"
    let engine ← ident lib "engine name (TABLE|KV|CSTORE|CSTORE2)"
    if engine ∈ ["table", "kv", "cstore", "cstore2"].map ascii then return engine
    else refuse (ascii "unknown ENGINE " ++ lib.quote engine ++
      ascii " (want TABLE, KV, CSTORE or CSTORE2)")
  else return []

-- `time.ParseDuration`
variable (parseDuration : Bytes → Option Int64)

/-- `parseRetention`: a number of days, in wrapping nanoseconds, or a duration. -/
def parseRetention (s : Bytes) : Except Bytes Int64 :=
  let s := lib.trimSpace s
  if s.length < 2 then .error (ascii "too short")
  else if s.getLast? = some 100 then
    match parseInt (lib.trimSpace s.dropLast) with
    | some days =>
      if days ≤ 0 then .error (ascii "invalid day count") else .ok (days * 24 * 3600000000000)
    | none => .error (ascii "invalid day count")
  else
    match parseDuration s with
    | some d => if d ≤ 0 then .error (ascii "invalid duration") else .ok d
    | none => .error (ascii "invalid duration")

def tableRetention : Parser Int64 := do
  if ← acceptKeyword "retention" then do
    equalsAfter "= after RETENTION"
    let t ← peek
    if t.kind = .string then do
      let t ← advance
      match parseRetention lib parseDuration t.text with
      | .ok d => return d
      | .error msg => do
        let t ← peek
        refuse (ascii "bad RETENTION at pos " ++ formatNat t.pos ++ ascii ": " ++ msg)
    else refuse (expectedAt "RETENTION duration string (e.g. '24h', '7d')" t.pos)
  else return 0

/-- `CREATE TABLE` behind the keywords. -/
def parseCreateTable (n : ℕ) : Parser Statement := do
  let exists_ ← ifExists
  let name ← ident lib "table name"
  let _ ← expect lib .lparen "("
  let columns ← parseColumns lib n
  let pk ← tablePrimary lib n
  let _ ← expect lib .rparen ")"
  let engine ← tableEngine lib
  let retention ← tableRetention lib parseDuration
  return .createTable name columns pk exists_ engine retention

/-- The columns of an index. There may be none. -/
def indexColumns (n : ℕ) : Parser (List Bytes) :=
  loop (fun cols => do
    let t ← peek
    if t.kind = .rparen then return .done cols
    else do
      let col ← ident lib "column name"
      let t ← peek
      if t.kind = .comma then do
        let _ ← advance
        return .next (cols ++ [col])
      else return .done (cols ++ [col])) n []

def parseCreateIndex (n : ℕ) : Parser Statement := do
  let exists_ ← ifNotExists
  let name ← ident lib "index name"
  let _ ← acceptKeyword "on"
  let table ← ident lib "table name"
  let _ ← expect lib .lparen "("
  let columns ← indexColumns lib n
  let _ ← expect lib .rparen ")"
  return .createIndex name table columns exists_

def parseCreate (n : ℕ) : Parser Statement := do
  let _ ← advance
  if ← acceptKeyword "database" then do
    let name ← identLower lib
    return .createDatabase name
  else if ← acceptKeyword "index" then parseCreateIndex lib n
  else if ← acceptKeyword "table" then parseCreateTable lib parseDuration n
  else do
    let t ← peek
    refuse (expectedAt "TABLE or INDEX" t.pos)

def parseDrop : Parser Statement := do
  let _ ← advance
  if ← acceptKeyword "table" then do
    let exists_ ← ifExists
    let name ← ident lib "table name"
    return .dropTable name exists_
  else if ← acceptKeyword "index" then do
    let exists_ ← ifExists
    let name ← ident lib "index name"
    let _ ← acceptKeyword "on"
    let t ← peek
    if t.kind = .ident then do
      let table ← identLower lib
      return .dropIndex name table exists_
    else return .dropIndex name [] exists_
  else do
    let t ← peek
    refuse (expectedAt "TABLE or INDEX" t.pos)

/-- The column list of an INSERT, if it has one. -/
def insertNames (n : ℕ) : Parser (List Bytes) := do
  let t ← peek
  if t.kind = .lparen then do
    let _ ← advance
    let columns ← commaList (ident lib "column name") n
    let _ ← expect lib .rparen ")"
    return columns
  else return []

def parseRow (n : ℕ) : Parser (List Expr) := do
  let _ ← expect lib .lparen "("
  let row ← commaList (parseExpr lib n) n
  let _ ← expect lib .rparen ")"
  return row

def parseInsert (n : ℕ) : Parser Statement := do
  let _ ← advance
  let _ ← acceptKeyword "into"
  let table ← ident lib "table name"
  let columns ← insertNames lib n
  let _ ← acceptKeyword "values"
  let rows ← commaList (parseRow lib n) n
  return .insert table columns rows

def parseSet (n : ℕ) : Parser SetItem := do
  let col ← ident lib "column name"
  let _ ← expect lib .op "="
  let value ← parseExpr lib n
  return ⟨col, value⟩

def parseUpdate (n : ℕ) : Parser Statement := do
  let _ ← advance
  let table ← ident lib "table name"
  let _ ← acceptKeyword "set"
  let sets ← commaList (parseSet lib n) n
  let where_ ← exprAfter lib "where" n
  return .update table sets where_

def parseDelete (n : ℕ) : Parser Statement := do
  let _ ← advance
  let _ ← acceptKeyword "from"
  let table ← ident lib "table name"
  let where_ ← exprAfter lib "where" n
  return .delete table where_

def parseItem (n : ℕ) : Parser SelectItem := do
  let e ← parseExpr lib n
  if ← acceptKeyword "as" then do
    let alias_ ← ident lib "alias"
    return ⟨e, alias_⟩
  else return ⟨e, []⟩

def parseFrom : Parser Bytes := do
  if ← acceptKeyword "from" then ident lib "table name" else return []

def parseGroupBy (n : ℕ) : Parser (List Expr) := do
  if ← acceptKeyword "group" then do
    let _ ← acceptKeyword "by"
    commaList (parseExpr lib n) n
  else return []

/-- The WHERE with a HAVING joined to it. -/
def parseHaving (where_ : Expr) (n : ℕ) : Parser Expr := do
  if ← acceptKeyword "having" then do
    let h ← parseExpr lib n
    return .binary .and where_ h
  else return where_

def parseOrder (n : ℕ) : Parser OrderItem := do
  let e ← parseExpr lib n
  if ← acceptKeyword "desc" then return ⟨e, true⟩
  else do
    let _ ← acceptKeyword "asc"
    return ⟨e, false⟩

def parseOrderBy (n : ℕ) : Parser (List OrderItem) := do
  if ← acceptKeyword "order" then do
    let _ ← acceptKeyword "by"
    commaList (parseOrder lib n) n
  else return []

def parseLimit : Parser (Option Int64) := do
  if ← acceptKeyword "limit" then do
    let t ← advance
    if t.kind = .number then return some t.intVal
    else refuse (expectedAt "number after LIMIT" t.pos)
  else return none

def parseSelect (n : ℕ) : Parser Statement := do
  let _ ← advance
  let distinct ← acceptKeyword "distinct"
  let items ← commaList (parseItem lib n) n
  let from_ ← parseFrom lib
  let where_ ← exprAfter lib "where" n
  let groupBy ← parseGroupBy lib n
  let where_ ← parseHaving lib where_ n
  let orderBy ← parseOrderBy lib n
  let limit ← parseLimit
  return .select ⟨distinct, items, from_, where_, groupBy, orderBy, limit.getD 0, limit.isSome⟩

def parseStatement (n : ℕ) : Parser Statement := do
  if ← isKeyword "select" then parseSelect lib n
  else if ← isKeyword "insert" then parseInsert lib n
  else if ← isKeyword "update" then parseUpdate lib n
  else if ← isKeyword "delete" then parseDelete lib n
  else if ← isKeyword "create" then parseCreate lib parseDuration n
  else if ← isKeyword "drop" then parseDrop lib
  else if ← acceptKeyword "begin" then return .begin_
  else if ← acceptKeyword "commit" then return .commit
  else if ← acceptKeyword "rollback" then return .rollback
  else if ← isKeyword "kv" then parseKV lib
  else do
    let t ← peek
    refuse (ascii "unexpected token " ++ lib.quote t.text ++ ascii " at pos " ++ formatNat t.pos)

/-- The loop of `Parse`. -/
def statements (n : ℕ) : Parser (List Statement) :=
  loop (fun stmts => do
    skipSemicolons n
    let t ← peek
    if t.kind = .eof then return .done stmts
    else do
      let st ← parseStatement lib parseDuration n
      skipSemicolons n
      let t ← peek
      if t.kind = .eof then return .done (stmts ++ [st]) else return .next (stmts ++ [st])) n []

/-- `Parse`. -/
def parse (src : Bytes) : Except (Halt Bytes) (List Statement) := do
  let toks ← tokenize lib src
  ((statements lib parseDuration toks.length).exec ⟨toks, 0, toks.length - 1⟩).1

end

end Ydbgo.Sql
