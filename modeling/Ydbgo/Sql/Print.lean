import Mathlib.Data.Int.Notation
import Ydbgo.Sql.Parser

/-! # The printer

`StatementString` and `ExprString`, which write a statement as the text that other
nodes are to parse. A SELECT has no text. Durations are written by the library's
`Duration.String`, which is a parameter.
-/

namespace Ydbgo.Sql

/-- `UnaryOp.Op`. -/
def UnOp.text : UnOp → Bytes
  | .not => ascii "NOT"
  | .neg => ascii "-"
  | .pos => ascii "+"

/-- `BinaryOp.Op`. -/
def BinOp.text : BinOp → Bytes
  | .add => ascii "+"
  | .sub => ascii "-"
  | .mul => ascii "*"
  | .div => ascii "/"
  | .eq => ascii "="
  | .lt => ascii "<"
  | .gt => ascii ">"
  | .le => ascii "<="
  | .ge => ascii ">="
  | .ne => ascii "<>"
  | .and => ascii "AND"
  | .or => ascii "OR"
  | .like => ascii "LIKE"
  | .notLike => ascii "NOT LIKE"

/-- `strings.ReplaceAll(s, "'", "''")`. -/
def doubleQuotes (s : Bytes) : Bytes := s.flatMap fun c => if c = 39 then [39, 39] else [c]

/-- `sqlStr`. -/
def sqlStr (s : Bytes) : Bytes := ascii "'" ++ doubleQuotes s ++ ascii "'"

/-- `strings.Join(parts, ", ")`. -/
def commaJoin (parts : List Bytes) : Bytes := (ascii ", ").intercalate parts

variable (lib : Stdlib)

/-- The `Literal` case of `ExprString`. The string of a timestamp is empty. -/
def literalString : Literal → Bytes
  | .null => ascii "null"
  | .int n => formatInt n
  | .float x => lib.formatFloat x
  | .string s => sqlStr s
  | .bool b => if b then ascii "true" else ascii "false"
  | .timestamp _ => sqlStr []
  | .other _ => []

mutual

/-- `ExprString`. -/
def exprString : Expr → Bytes
  | .nil => []
  | .ident name => name
  | .literal l => literalString lib l
  | .binary op left right => ascii "(" ++ exprString left ++ ascii " " ++ op.text ++ ascii " " ++
      exprString right ++ ascii ")"
  | .unary op e => ascii "(" ++ op.text ++ ascii " " ++ exprString e ++ ascii ")"
  | .call name args => name ++ ascii "(" ++ commaJoin (exprStrings args) ++ ascii ")"
  | .cast e type => ascii "cast(" ++ exprString e ++ ascii " as " ++ type.name ++ ascii ")"

def exprStrings : List Expr → List Bytes
  | [] => []
  | e :: es => exprString e :: exprStrings es

end

/-- The part of a column in the text of a CREATE TABLE. -/
def columnString (c : ColumnDef) : Bytes :=
  c.name ++ ascii " " ++ c.type.name ++ (if c.notNull then ascii " not null" else []) ++
    if c.asPrimary then ascii " primary key" else []

-- `Duration.String`
variable (formatDuration : Int64 → Bytes)

def createTableString (name : Bytes) (columns : List ColumnDef) (pk : List Bytes) (engine : Bytes)
    (retention : Int64) : Bytes :=
  ascii "create table " ++ name ++ ascii " (" ++ commaJoin (columns.map columnString) ++
    ascii ")" ++
    (if pk = [] then [] else ascii " primary key (" ++ commaJoin pk ++ ascii ")") ++
    (if engine = [] then [] else ascii " engine=" ++ lib.toUpper engine) ++
    if 0 < retention then ascii " retention='" ++ formatDuration retention ++ ascii "'" else []

def rowString (row : List Expr) : Bytes :=
  ascii "(" ++ commaJoin (row.map (exprString lib)) ++ ascii ")"

def setString (s : SetItem) : Bytes := s.column ++ ascii " = " ++ exprString lib s.value

/-- ` where …`, unless the condition is nil. -/
def whereString (e : Expr) : Bytes :=
  if e = .nil then [] else ascii " where " ++ exprString lib e

/-- `StatementString`. -/
def statementString : Statement → Bytes
  | .createTable name columns pk _ engine retention =>
    createTableString lib formatDuration name columns pk engine retention
  | .dropTable name ifExists =>
    ascii "drop table " ++ (if ifExists then ascii "if exists " else []) ++ name
  | .createIndex name table columns ifNotExists =>
    ascii "create index " ++ (if ifNotExists then ascii "if not exists " else []) ++ name ++
      ascii " on " ++ table ++ ascii " (" ++ commaJoin columns ++ ascii ")"
  | .dropIndex name _ ifExists =>
    ascii "drop index " ++ (if ifExists then ascii "if exists " else []) ++ name
  | .insert table columns rows =>
    ascii "insert into " ++ table ++
      (if columns = [] then [] else ascii " (" ++ commaJoin columns ++ ascii ")") ++
      ascii " values " ++ commaJoin (rows.map (rowString lib))
  | .update table sets where_ =>
    ascii "update " ++ table ++ ascii " set " ++ commaJoin (sets.map (setString lib)) ++
      whereString lib where_
  | .delete table where_ => ascii "delete from " ++ table ++ whereString lib where_
  | .begin_ => ascii "begin"
  | .commit => ascii "commit"
  | .rollback => ascii "rollback"
  | .createDatabase name => ascii "create database " ++ name
  | .select _ => []
  | .kvPut table key value =>
    ascii "kv put " ++ table ++ ascii " " ++ sqlStr key ++ ascii " " ++ sqlStr value
  | .kvGet table key => ascii "kv get " ++ table ++ ascii " " ++ sqlStr key
  | .kvDelete table key => ascii "kv delete " ++ table ++ ascii " " ++ sqlStr key
  | .kvScan table start stop hasStart hasEnd =>
    ascii "kv scan " ++ table ++ (if hasStart then ascii " " ++ sqlStr start else []) ++
      if hasEnd then ascii " " ++ sqlStr stop else []

end Ydbgo.Sql
