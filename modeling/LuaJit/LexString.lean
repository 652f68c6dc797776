/-
**The scanner of string literals.**

The lexer reads its input through a reader, in pieces.  It holds the current character, what is left of
the piece, the buffer for the token and the line.  A character is an `int`: a byte, or `-1` at the end of
the input.

Main definitions:

* `Lex.LexState` — the part of the lexer state that the scanner uses;
* `Lex.lexNext`, `Lex.lexNewline` — the next character, and a line break;
* `Lex.lexEscape` — an escape sequence;
* `Lex.lexString` — a string literal;
* `Lex.lexSetup` — the state at the start of a source.
-/

import LuaJit.Buf
import LuaJit.StrMatch

set_option relaxedAutoImplicit false
set_option autoImplicit false

namespace Lex

open Buf (SBuf)

/-- `LexChar`. -/
abbrev LexChar := BitVec 32

/-- `LEX_EOF`. -/
def lexEof : LexChar := -1

/-- The code of a character. -/
def ch (c : Char) : LexChar := BitVec.ofNat 32 c.toNat

/-- A byte as a character. -/
def ofByte (b : UInt8) : LexChar := BitVec.ofNat 32 b.toNat

/-- `lj_char_isa`: the entry of the table behind that of `LEX_EOF`. -/
def isa (c : LexChar) (t : UInt8) : Bool := (0 :: StrMatch.charBits).getD (c + 1).toNat 0 &&& t != 0

def isspace (c : LexChar) : Bool := isa c 0x02

def isdigit (c : LexChar) : Bool := isa c 0x08

def isxdigit (c : LexChar) : Bool := isa c 0x10

/-- `LJ_MAX_LINE`, `LJ_MAX_STR`. -/
def ljMaxLine : ℕ := 0x7fffff00
def ljMaxStr : ℕ := 0x7fffff00

/-- The tokens that an error of the scanner is about. -/
inductive LexToken where
  | eof
  | string
  | other (tok : ℤ)
  deriving DecidableEq

/-- The messages of the scanner. -/
inductive ErrMsg where
  | xlines
  | xstr
  | xesc
  deriving DecidableEq

/-- Why the scanner stops: `lj_lex_error`, an error of the buffer, `LJ_ERR_STROV`, or the fuel. -/
inductive Stop where
  | lex (tok : LexToken) (em : ErrMsg)
  | buf (e : Buf.Stop)
  | strov
  | fuel
  deriving DecidableEq

/-- The lexer state: the rest of the piece, what the reader returns next, the current character, the buffer,
the line and the current token. -/
structure LexState where
  p : List UInt8
  rdata : List (List UInt8)
  c : LexChar
  sb : SBuf
  linenumber : ℕ
  tok : LexToken

abbrev LexM := EStateM Stop LexState

/-- `lj_lex_error`. -/
def lexError {α : Type} (tok : LexToken) (em : ErrMsg) : LexM α := throw (.lex tok em)

/-- The current character. -/
def lexCur : LexM LexChar := fun ls => .ok ls.c ls

/-- `lex_more`; a reader that has no more pieces returns the null pointer. -/
def lexMore (ls : LexState) : LexChar × LexState :=
  match ls.rdata with
  | [] => (lexEof, ls)
  | [] :: r => (lexEof, { ls with rdata := r })
  | (b :: q) :: r => (ofByte b, { ls with p := q, rdata := r })

/-- `lex_next`. -/
def lexNext : LexM LexChar := fun ls =>
  match ls.p with
  | b :: q => .ok (ofByte b) { ls with p := q, c := ofByte b }
  | [] =>
      let (c, ls) := lexMore ls
      .ok c { ls with c := c }

/-- `lex_save`. -/
def lexSave (c : LexChar) : LexM Unit := fun ls =>
  match Buf.putb ls.sb (UInt8.ofNat c.toNat) with
  | .ok sb => .ok () { ls with sb := sb }
  | .error e => .error (.buf e) ls

/-- `lex_savenext`. -/
def lexSavenext : LexM LexChar := do
  lexSave (← lexCur)
  lexNext

/-- `lex_iseol`. -/
def iseol (c : LexChar) : Bool := c == ch '\n' || c == ch '\r'

/-- `++ls->linenumber`. -/
def lexCountLine : LexM ℕ := fun ls => .ok (ls.linenumber + 1) { ls with linenumber := ls.linenumber + 1 }

/-- `ls->tok`. -/
def lexTok : LexM LexToken := fun ls => .ok ls.tok ls

/-- `lex_newline`. -/
def lexNewline : LexM Unit := do
  let old ← lexCur
  let c ← lexNext
  if iseol c ∧ c ≠ old then
    let _ ← lexNext
  if (← lexCountLine) ≥ ljMaxLine then
    lexError (← lexTok) .xlines

/-- More steps than the input has characters. -/
def LexState.room (ls : LexState) : ℕ := ls.p.length + (ls.rdata.map fun q => q.length + 1).sum + 2

def lexRoom : LexM ℕ := fun ls => .ok ls.room ls

/-- A digit of a hexadecimal escape. -/
def lexXdigit (c : LexChar) : LexM LexChar := do
  if isdigit c then return c &&& 15
  else if isxdigit c then return (c &&& 15) + 9
  else lexError .string .xesc

/-- `\xXX`. -/
def lexHexEscape : LexM LexChar := do
  let c ← lexXdigit (← lexNext)
  let d ← lexXdigit (← lexNext)
  return (c <<< 4) + d

/-- The digits of `\u{XX...}`. -/
def lexUnicodeDigits : ℕ → LexChar → LexM LexChar
  | 0, _ => throw .fuel
  | fuel + 1, c => do
      let d ← lexCur
      let c := (c <<< 4) ||| (d &&& 15)
      let c ← if isdigit d then pure c else if isxdigit d then pure (c + 9) else lexError .string .xesc
      if c.toNat ≥ 0x110000 then lexError .string .xesc
      else if (← lexNext) ≠ ch '\x7d' then lexUnicodeDigits fuel c
      else return c

/-- `\u{XX...}`: the bytes before the last one are saved. -/
def lexUnicodeEscape : LexM LexChar := do
  if (← lexNext) ≠ ch '\x7b' then lexError .string .xesc
  else
    let _ ← lexNext
    let c ← lexUnicodeDigits (← lexRoom) 0
    if c.toNat < 0x80 then return c
    else
      if c.toNat < 0x800 then lexSave (0xc0 ||| c >>> 6)
      else
        if c.toNat ≥ 0x10000 then
          lexSave (0xf0 ||| c >>> 18)
          lexSave (0x80 ||| (c >>> 12 &&& 0x3f))
        else
          if c.toNat ≥ 0xd800 ∧ c.toNat < 0xe000 then lexError .string .xesc
          lexSave (0xe0 ||| c >>> 12)
        lexSave (0x80 ||| (c >>> 6 &&& 0x3f))
      return 0x80 ||| (c &&& 0x3f)

/-- The white space behind `\z`. -/
def lexSkipSpace : ℕ → LexM Unit
  | 0 => throw .fuel
  | fuel + 1 => do
      let c ← lexCur
      if isspace c then
        if iseol c then lexNewline else
          let _ ← lexNext
        lexSkipSpace fuel

/-- `\ddd`, from the first digit on. -/
def lexDecEscape (c : LexChar) : LexM Unit := do
  if isdigit c then
    let c := c - ch '0'
    let d ← lexNext
    if isdigit d then
      let c := c * 10 + (d - ch '0')
      let d ← lexNext
      if isdigit d then
        let c := c * 10 + (d - ch '0')
        if c.toNat > 255 then lexError .string .xesc
        else
          let _ ← lexNext
          lexSave c
      else lexSave c
    else lexSave c
  else lexError .string .xesc

/-- The escape sequences of one letter. -/
def letterEscape (c : LexChar) : Option LexChar :=
  if c = ch 'a' then some 7
  else if c = ch 'b' then some 8
  else if c = ch 'f' then some 12
  else if c = ch 'n' then some 10
  else if c = ch 'r' then some 13
  else if c = ch 't' then some 9
  else if c = ch 'v' then some 11
  else none

/-- A character, and the next one. -/
def lexSaveThen (c : LexChar) : LexM Unit := do
  lexSave c
  let _ ← lexNext

/-- An escape sequence, from the backslash on. -/
def lexEscape : LexM Unit := do
  let c ← lexNext
  match letterEscape c with
  | some c => lexSaveThen c
  | none =>
      if c = ch 'x' then lexSaveThen (← lexHexEscape)
      else if c = ch 'u' then lexSaveThen (← lexUnicodeEscape)
      else if c = ch 'z' then
        let _ ← lexNext
        lexSkipSpace (← lexRoom)
      else if iseol c then
        lexSave (ch '\n')
        lexNewline
      else if c = ch '\\' ∨ c = ch '"' ∨ c = ch '\'' then lexSaveThen c
      else if c = lexEof then return ()
      else lexDecEscape c

/-- The loop of `lex_string`. -/
def lexStringLoop (delim : LexChar) : ℕ → LexM Unit
  | 0 => throw .fuel
  | fuel + 1 => do
      let c ← lexCur
      if c = delim then return ()
      else
        if c = lexEof then lexError .eof .xstr
        else if iseol c then lexError .string .xstr
        else if c = ch '\\' then lexEscape
        else
          let _ ← lexSavenext
        lexStringLoop delim fuel

/-- `lj_parse_keepstr` of what is between the delimiters. -/
def lexKeepstr : LexM (List UInt8) := fun ls =>
  let str := (ls.sb.b.drop 1).take (ls.sb.len - 2)
  if str.length ≥ ljMaxStr then .error .strov ls else .ok str ls

/-- `lex_string`. -/
def lexString : LexM (List UInt8) := do
  let delim ← lexCur
  let _ ← lexSavenext
  lexStringLoop delim (← lexRoom)
  let _ ← lexSavenext
  lexKeepstr

/-- The state in which the first token is scanned: `lj_lex_setup` has read the first character, and the
buffer is empty. -/
def lexSetup (rdata : List (List UInt8)) : LexState :=
  let (c, ls) := lexMore ⟨[], rdata, lexEof, .init, 1, .other 0⟩
  { ls with c := c }

end Lex
