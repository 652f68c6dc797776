/-
**Format descriptors and integer conversions.**

The parser of format strings reads one literal or one conversion.  A pointer into the format is what is
left of it; behind the end there is a zero byte.  A descriptor has the type of the conversion, its flags,
the width and the precision in fields of one word.  The counters of the integer conversion are unsigned
words that are counted down past zero.

Main definitions:

* `Strfmt.strfmtParse` — the parser;
* `Strfmt.fxint`, `Strfmt.putfxint` — the integer conversion: the space it asks for, and its characters.
-/

import LuaJit.Buf

set_option relaxedAutoImplicit false
set_option autoImplicit false

namespace Strfmt

open Buf (SBuf)

/-- `SFormat`. -/
abbrev SFormat := BitVec 32

/-- The code of a character. -/
def ch (c : Char) : UInt8 := UInt8.ofNat c.toNat

/-- `(uint32_t)*p`, with the zero byte behind the end. -/
def deref (p : List UInt8) : BitVec 32 := BitVec.ofNat 32 (p.headD 0).toNat

/-- A character as an unsigned word. -/
def wch (c : Char) : BitVec 32 := BitVec.ofNat 32 c.toNat

/-! ### Descriptors -/

/-- `FormatType`. -/
def strfmtEof : SFormat := 0
def strfmtErr : SFormat := 1
def strfmtLit : SFormat := 2
def strfmtInt : SFormat := 3
def strfmtUint : SFormat := 4
def strfmtNum : SFormat := 5
def strfmtStr : SFormat := 6
def strfmtChar : SFormat := 7
def strfmtPtr : SFormat := 8

/-- The subtypes `STRFMT_T_HEX` and `STRFMT_T_OCT`. -/
def tHex : SFormat := 0x10
def tOct : SFormat := 0x20

/-- The flags. -/
def fLeft : SFormat := 0x100
def fPlus : SFormat := 0x200
def fZero : SFormat := 0x400
def fSpace : SFormat := 0x800
def fAlt : SFormat := 0x1000
def fUpper : SFormat := 0x2000

/-- `STRFMT_TYPE`, `STRFMT_WIDTH`, `STRFMT_PREC`. -/
def strfmtType (sf : SFormat) : SFormat := sf &&& 15
def strfmtWidth (sf : SFormat) : BitVec 32 := sf >>> 16 &&& 255
def strfmtPrec (sf : SFormat) : BitVec 32 := (sf >>> 24 &&& 255) - 1

/-- The descriptors of the conversion characters. -/
def strfmtA : SFormat := strfmtNum
def strfmtC : SFormat := strfmtChar
def strfmtD : SFormat := strfmtInt
def strfmtE : SFormat := strfmtNum ||| 0x10
def strfmtF : SFormat := strfmtNum ||| 0x20
def strfmtG : SFormat := strfmtNum ||| 0x30
def strfmtI : SFormat := strfmtD
def strfmtO : SFormat := strfmtUint ||| tOct
def strfmtP : SFormat := strfmtPtr
def strfmtQ : SFormat := strfmtStr ||| 0x10
def strfmtS : SFormat := strfmtStr
def strfmtU : SFormat := strfmtUint
def strfmtX : SFormat := strfmtUint ||| tHex

/-- `strfmt_map`, from `A` to `x`. -/
def strfmtMap : List SFormat :=
  [strfmtA, 0, 0, 0, strfmtE, 0, strfmtG, 0, 0, 0, 0, 0, 0,
    0, 0, 0, 0, 0, 0, 0, 0, 0, 0, strfmtX, 0, 0,
    0, 0, 0, 0, 0, 0,
    strfmtA, 0, strfmtC, strfmtD, strfmtE, strfmtF, strfmtG, 0, strfmtI, 0, 0, 0, 0,
    0, strfmtO, strfmtP, strfmtQ, 0, strfmtS, 0, strfmtU, 0, 0, strfmtX]

/-! ### The parser -/

/-- The parser state: what is left of the format, and the literal that is returned. -/
structure FormatState where
  p : List UInt8
  str : List UInt8
  len : ℕ
  deriving DecidableEq

/-- The bit of a flag character. -/
def flagBit (c : UInt8) : Option SFormat :=
  if c = ch '-' then some fLeft
  else if c = ch '+' then some fPlus
  else if c = ch '0' then some fZero
  else if c = ch ' ' then some fSpace
  else if c = ch '#' then some fAlt
  else none

/-- The loop over the flags. -/
def parseFlags : List UInt8 → SFormat → List UInt8 × SFormat
  | [], sf => ([], sf)
  | c :: p, sf =>
      if deref (c :: p) - wch ' ' ≤ wch '0' - wch ' ' then
        match flagBit c with
        | some f => parseFlags p (sf ||| f)
        | none => (c :: p, sf)
      else (c :: p, sf)

/-- Whether a digit is next. -/
def atDigit (p : List UInt8) : Bool := deref p - wch '0' < 10

/-- One or two digits. -/
def parseDigits (p : List UInt8) : List UInt8 × BitVec 32 :=
  let n := deref p - wch '0'
  let p := p.tail
  if atDigit p then (p.tail, deref p - wch '0' + n * 10) else (p, n)

/-- The width. -/
def parseWidth (p : List UInt8) (sf : SFormat) : List UInt8 × SFormat :=
  if atDigit p then
    let (p, width) := parseDigits p
    (p, sf ||| width <<< 16)
  else (p, sf)

/-- The precision. -/
def parsePrec (p : List UInt8) (sf : SFormat) : List UInt8 × SFormat :=
  if deref p = wch '.' then
    let p := p.tail
    let (p, prec) := if atDigit p then parseDigits p else (p, 0)
    (p, sf ||| (prec + 1) <<< 24)
  else (p, sf)

/-- The entry of the map, if there is one. -/
def convEntry (c : BitVec 32) : SFormat :=
  if c ≤ wch 'x' - wch 'A' then strfmtMap.getD c.toNat 0 else 0

/-- The conversion character. -/
def parseConv (fs : FormatState) (p : List UInt8) (sf : SFormat) : FormatState × SFormat :=
  let c := deref p - wch 'A'
  let sx := convEntry c
  if sx ≠ 0 then ({ fs with p := p.tail }, sf ||| sx ||| if c &&& 0x20 ≠ 0 then 0 else fUpper)
  else
    let p := if deref p ≥ 32 then p.tail else p
    ({ fs with p := [], len := fs.str.length - p.length }, strfmtErr)

/-- A conversion, from behind the percent sign on. -/
def parseSpec (fs : FormatState) (p : List UInt8) : FormatState × SFormat :=
  let (p, sf) := parseFlags p 0
  let (p, sf) := parseWidth p sf
  let (p, sf) := parsePrec p sf
  parseConv fs p sf

/-- A literal up to `p`; the next call begins at `next`. -/
def parseLit (fs : FormatState) (p next : List UInt8) : FormatState × SFormat :=
  let len := fs.str.length - p.length
  ({ fs with p := next, len := len }, if len ≠ 0 then strfmtLit else strfmtEof)

/-- The loop of `lj_strfmt_parse`. -/
@[grind =]
def parseLoop (fs : FormatState) : List UInt8 → FormatState × SFormat
  | [] => parseLit fs [] []
  | c :: p =>
      if c = ch '%' then
        if p.headD 0 = ch '%' then parseLit fs p p.tail
        else if (c :: p).length ≠ fs.str.length then parseLit fs (c :: p) (c :: p)
        else parseSpec fs p
      else parseLoop fs p

/-- `lj_strfmt_parse`. -/
def strfmtParse (fs : FormatState) : FormatState × SFormat := parseLoop { fs with str := fs.p } fs.p

/-! ### Integer conversion -/

/-- A loop that puts digits in front, the low one first, until nothing is left. -/
def digitLoop {w : ℕ} (low : BitVec w → UInt8) (next : BitVec w → BitVec w) : ℕ → BitVec w → List UInt8 → List UInt8
  | 0, _, q => q
  | fuel + 1, k, q => if next k ≠ 0 then digitLoop low next fuel (next k) (low k :: q) else low k :: q

/-- The decimal loop on 64 bits. -/
def decLoop64 : ℕ → BitVec 64 → List UInt8 → BitVec 64 × List UInt8
  | 0, k, q => (k, q)
  | fuel + 1, k, q =>
      if k >>> 32 ≠ 0 then decLoop64 fuel (k / 10) (UInt8.ofNat (48 + (k % 10).toNat) :: q) else (k, q)

/-- Decimal. -/
def decDigits (k : BitVec 64) : List UInt8 :=
  let (k, q) := decLoop64 64 k []
  digitLoop (fun k2 => UInt8.ofNat (48 + (k2 % 10).toNat)) (fun k2 => k2 / 10) 32 (k.setWidth 32) q

/-- `hexdig`. -/
def hexdig (upper : Bool) : List UInt8 :=
  (if upper then "0123456789ABCDEF" else "0123456789abcdef").toList.map ch

/-- Hexadecimal. -/
def hexDigits (upper : Bool) (k : BitVec 64) : List UInt8 :=
  digitLoop (fun k => (hexdig upper).getD (k &&& 15).toNat 0) (fun k => k >>> 4) 64 k []

/-- Octal. -/
def octDigits (k : BitVec 64) : List UInt8 :=
  digitLoop (fun k => UInt8.ofNat (48 + (k &&& 7).toNat)) (fun k => k >>> 3) 64 k []

/-- `while (n-- > bound) *p++ = c`. -/
def padLoop (c : UInt8) (bound : BitVec 32) : ℕ → BitVec 32 → List UInt8 → List UInt8 × BitVec 32
  | 0, n, p => (p, n)
  | fuel + 1, n, p => if n > bound then padLoop c bound fuel (n - 1) (p ++ [c]) else (p, n - 1)

/-- The loop with a guard in front. -/
def pad (guard : Bool) (c : UInt8) (bound n : BitVec 32) (p : List UInt8) : List UInt8 × BitVec 32 :=
  if guard then padLoop c bound (2 ^ 32) n p else (p, n)

/-- The sign that a signed conversion puts in front, with its size in the upper bits; and the magnitude. -/
def signOf (sf : SFormat) (k : BitVec 64) : BitVec 64 × BitVec 32 :=
  if strfmtType sf = strfmtInt then
    if k.toInt < 0 then (-k, 256 + wch '-')
    else if sf &&& fPlus ≠ 0 then (k, 256 + wch '+')
    else if sf &&& fSpace ≠ 0 then (k, 256 + wch ' ')
    else (k, 0)
  else (k, 0)

/-- The digits, and the new sign or base in front of them. -/
def convert (sf : SFormat) (prec : BitVec 32) (k : BitVec 64) (front : BitVec 32) : List UInt8 × BitVec 32 :=
  let upper := sf &&& fUpper != 0
  let alt := sf &&& fAlt != 0
  if k = 0 then
    (if prec ≠ 0 ∨ sf &&& (tOct ||| fAlt) = tOct ||| fAlt then [ch '0'] else [], front)
  else if sf &&& (tHex ||| tOct) = 0 then (decDigits k, front)
  else if sf &&& tHex ≠ 0 then
    (hexDigits upper k, if alt then 512 + if upper then wch 'X' else wch 'x' else front)
  else (if alt then ch '0' :: octDigits k else octDigits k, front)

/-- The sign, or the prefix of the base. -/
def frontChars (front : BitVec 32) : List UInt8 :=
  if front ≠ 0 then
    let c := UInt8.ofNat front.toNat
    (if c ≥ ch 'X' then [ch '0'] else []) ++ [c]
  else []

/-- The sizes of a number, and the number with white space and zeros around it. -/
def layout (sf : SFormat) (prec : BitVec 32) (q : List UInt8) (front : BitVec 32) : BitVec 32 × List UInt8 :=
  let len := BitVec.ofNat 32 q.length
  let prec := if len.toInt ≥ prec.toInt then len else prec
  let width := strfmtWidth sf
  let pprec := prec + front >>> 8
  let need := if width > pprec then width else pprec
  let (p, width) := pad (sf &&& (fLeft ||| fZero) == 0) (ch ' ') pprec width []
  let p := p ++ frontChars front
  let (p, width) := pad (sf &&& (fLeft ||| fZero) == fZero) (ch '0') pprec width p
  let (p, _) := pad true (ch '0') len prec p
  let p := p ++ q
  let (p, _) := pad (sf &&& fLeft != 0) (ch ' ') pprec width p
  (need, p)

/-- `lj_strfmt_putfxint`: the space that is asked for, and the characters that are written. -/
def fxint (sf : SFormat) (k : BitVec 64) : BitVec 32 × List UInt8 :=
  let (k, front) := signOf sf k
  let prec := strfmtPrec sf
  let sf := if prec.toInt ≥ 0 then sf &&& ~~~fZero else sf
  let (q, front) := convert sf prec k front
  layout sf prec q front

/-- `lj_strfmt_putfxint`. -/
def putfxint (sb : SBuf) (sf : SFormat) (k : BitVec 64) : Except Buf.Stop SBuf := do
  let (need, p) := fxint sf k
  let sb ← Buf.more sb need.toNat
  return sb.append p

end Strfmt
