import Ydbgo.Lib.Tokens
import Ydbgo.Sql.Value

/-! # The lexer

`lexer.next` and `tokenize`. Every look at the source is an indexed access, every
move of the position stays within the source, and every loop is one of the
library's, with a bound on its rounds.
-/

namespace Ydbgo.Sql

open Tokens

inductive TokKind where
  | eof
  | ident
  | string
  | number
  | op
  | lparen
  | rparen
  | comma
  | star
  | semicolon
  | dot
  deriving DecidableEq, Repr

structure Token where
  kind : TokKind
  text : Bytes := []
  pos : ℕ
  isFloat : Bool := false
  intVal : Int64 := 0
  fltVal : UInt64 := 0
  deriving DecidableEq, Repr

/-- `unicode.IsLetter(rune(c))`, of a byte read as a character of Latin 1. -/
def isLetter (c : UInt8) : Bool :=
  (65 ≤ c && c ≤ 90) || (97 ≤ c && c ≤ 122) || c == 0xAA || c == 0xB5 || c == 0xBA ||
    (0xC0 ≤ c && c ≤ 0xD6) || (0xD8 ≤ c && c ≤ 0xF6) || 0xF8 ≤ c

def isSpace (c : UInt8) : Bool := c == 32 || c == 9 || c == 10 || c == 13

abbrev Lex (α : Type) : Type := Scan UInt8 Bytes α

/-- `l.pos < len(l.src)`. -/
def more : Lex Bool := do
  let l ← get
  return l.pos < l.items.length

/-- `l.src[l.pos]`. -/
def char : Lex UInt8 := do
  let l ← get
  itemAt l.pos

/-- `l.pos += k`. -/
def step (k : ℕ) : Lex Unit := do
  let l ← get
  moveTo ((l.pos + k : ℕ) : ℤ)

/-- `l.pos+1 < len(l.src)`, and the byte there is one of these. -/
def nextIs (p : UInt8 → Bool) : Lex Bool := do
  let l ← get
  if l.pos + 1 < l.items.length then do
    let c ← itemAt ((l.pos + 1 : ℕ) : ℤ)
    return p c
  else return false

/-- `l.src[start:l.pos]`. -/
def textFrom (start : ℕ) : Lex Bytes := do
  let l ← get
  itemsFrom start l.pos

section

variable (lib : Stdlib) (n : ℕ)

def skipSpace : Lex Unit :=
  loop (fun _ => do
    if ← more then do
      let c ← char
      if isSpace c then do
        step 1
        return .next ()
      else return .done ()
    else return .done ()) n ()

def lexIdent : Lex Token := do
  let l ← get
  let start := l.pos
  loop (fun _ => do
    if ← more then do
      let c ← char
      let l ← get
      if c == 95 || isLetter c || (start < l.pos && isDigit c) then do
        step 1
        return .next ()
      else return .done ()
    else return .done ()) n ()
  let text ← textFrom start
  return { kind := .ident, text := text, pos := start }

def lexString : Lex Token := do
  let l ← get
  let start := l.pos
  let quote ← char
  step 1
  loop (fun sb => do
    if ← more then do
      let c ← char
      if c = quote then do
        -- a doubled quote stands for one
        if ← nextIs (· == quote) then do
          step 2
          return .next (sb ++ [quote])
        else do
          step 1
          return .done { kind := .string, text := sb, pos := start }
      else do
        step 1
        return .next (sb ++ [c])
    else refuse (ascii "unterminated string literal at pos " ++ formatNat start)) n []

def isSign (c : UInt8) : Bool := c == 43 || c == 45

/-- What the loop of `lexNumber` does behind an `e`. -/
def exponentSign : Lex Unit := do
  if ← more then do
    let c ← char
    if isSign c then step 1 else return ()
  else return ()

def lexNumber : Lex Token := do
  let l ← get
  let start := l.pos
  let isFloat ← loop (fun isFloat => do
    if ← more then do
      let c ← char
      if isDigit c then do
        step 1
        return .next isFloat
      else if c = 46 then do
        step 1
        return .next true
      else if c = 101 ∨ c = 69 then do
        step 1
        exponentSign
        return .next true
      else return .done isFloat
    else return .done isFloat) n false
  let text ← textFrom start
  if isFloat then
    match lib.parseFloat text with
    | some f =>
      return { kind := .number, text := text, pos := start, isFloat := true, fltVal := f }
    | none => refuse (ascii "bad number " ++ lib.quote text)
  else
    match parseInt text with
    | some i => return { kind := .number, text := text, pos := start, intVal := i }
    | none => refuse (ascii "bad integer " ++ lib.quote text)

/-- A token of one byte. -/
def single (kind : TokKind) (c : UInt8) : Lex Token := do
  let l ← get
  step 1
  return { kind := kind, text := [c], pos := l.pos }

/-- `l.src[l.pos:l.pos+2]`, or nothing at the last byte. -/
def twoBytes : Lex Bytes := do
  let l ← get
  if l.pos + 1 < l.items.length then itemsFrom l.pos (l.pos + 2) else return []

/-- The `default` of `next`: an operator of two bytes or of one. -/
def lexOp (c : UInt8) : Lex Token := do
  let l ← get
  let two ← twoBytes
  if two ∈ ["==", ">=", "<=", "<>", "!="].map ascii then do
    step 2
    return { kind := .op, text := two, pos := l.pos }
  else if c ∈ ascii "+-*/=<>" then single .op c
  else refuse (ascii "syntax error near " ++ lib.quote (ofRunes [c.toNat]) ++ ascii " at pos " ++
    formatNat l.pos)

def next : Lex Token := do
  skipSpace n
  let l ← get
  if l.pos < l.items.length then do
    let c ← char
    if c = 44 then single .comma c
    else if c = 40 then single .lparen c
    else if c = 41 then single .rparen c
    else if c = 42 then single .star c
    else if c = 59 then single .semicolon c
    else if c = 46 then do
      if ← nextIs isDigit then lexNumber lib n else single .dot c
    else if c = 39 ∨ c = 34 then lexString n
    else if isDigit c then lexNumber lib n
    else if c == 95 || isLetter c then lexIdent n
    else lexOp lib c
  else return { kind := .eof, pos := l.pos }

/-- The loop of `tokenize`. -/
def tokens : Lex (List Token) :=
  loop (fun out => do
    let t ← next lib n
    if t.kind = .eof then return .done (out ++ [t]) else return .next (out ++ [t])) n []

end

/-- `tokenize`. The rounds of a loop are at most the positions there are. -/
def tokenize (lib : Stdlib) (src : Bytes) : Except (Halt Bytes) (List Token) :=
  ((tokens lib (src.length + 1)).exec ⟨src, 0, src.length⟩).1

end Ydbgo.Sql
