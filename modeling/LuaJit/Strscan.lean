/-
**The scanner of numbers.**

A pointer into a string is what is behind it, with the nearest byte first, and what is before it; behind the
end there is a zero byte.  The scanner finds the digits, the decimal point, the exponent and the suffix
first, and hands the first significant digit and the count of the digits to the parser of the base.  The
parser of decimal numbers fills a buffer with digits of base 100 and uses the buffer as a ring.

Main definitions:

* `Strscan.strscanDouble`, `Strscan.strscanHex`, `Strscan.strscanOct`, `Strscan.strscanDec`, `Strscan.strscanBin` —
  the parsers;
* `Strscan.scan` — the scanner;
* `Strscan.strscanNum` — the conversion of a string to a number.
-/

import LuaJit.Float64
import LuaJit.StrMatch

set_option relaxedAutoImplicit false
set_option autoImplicit false

namespace Strscan

open StrMatch (isa isdigit)

/-! ### Options, formats and values -/

/-- The options. -/
abbrev Opt := BitVec 32

def optToint : Opt := 0x01
def optTonum : Opt := 0x02
def optImag : Opt := 0x04
def optLl : Opt := 0x08
def optC : Opt := 0x10

/-- `opt & flag`. -/
def has (opt flag : Opt) : Bool := opt &&& flag != 0

/-- `StrScanFmt`, but for the error. -/
inductive StrScanFmt
  | num | imag | int | u32 | i64 | u64
  deriving DecidableEq

/-- `fmt += STRSCAN_I64 - STRSCAN_INT`. -/
def StrScanFmt.addI64 : StrScanFmt → StrScanFmt
  | .int => .i64
  | .u32 => .u64
  | fmt => fmt

/-- `fmt += STRSCAN_U32 - STRSCAN_INT`. -/
def StrScanFmt.addU32 : StrScanFmt → StrScanFmt
  | .int => .u32
  | .i64 => .u64
  | fmt => fmt

/-- What is stored to `o`. -/
inductive TValue
  | n (d : F64)
  | i (v : BitVec 32)
  | u64 (v : BitVec 64)
  deriving DecidableEq

/-- What differs between the targets: `lj_num2int`, and whether a `long` has eight bytes. -/
structure Target where
  num2int : F64.ToInt32
  long8 : Bool

/-- `STRSCAN_ERROR`; `fuel` is no error of the source. -/
inductive Err
  | error | fuel
  deriving DecidableEq

abbrev Result := Except Err (StrScanFmt × TValue)

/-- `int32_t` arithmetic. -/
def i32 (z : ℤ) : ℤ := Int.bmod z (2 ^ 32)

/-- The code of a character. -/
def ch (c : Char) : UInt8 := UInt8.ofNat c.toNat

/-- `casecmp`. -/
def casecmp (c : UInt8) (k : Char) : Bool := c ||| 0x20 == ch k

def isspace (c : UInt8) : Bool := isa c 0x02

/-! ### The final conversion -/

/-- `strscan_double`. -/
def strscanDouble (x : BitVec 64) (ex2 : ℤ) (neg : Bool) : F64 :=
  -- Avoid double rounding for denormals.
  let x :=
    if ex2 ≤ -1075 ∧ x ≠ 0 then
      let b : ℤ := x.toNat.log2
      if b + ex2 ≤ -1023 ∧ b + ex2 ≥ -1075 then
        let rb : BitVec 64 := 1#64 <<< (-1075 - ex2).toNat
        let x := if x &&& rb ≠ 0 ∧ x &&& (rb + rb + rb - 1) ≠ 0 then x + (rb + rb) else x
        x &&& ~~~(rb + rb - 1)
      else x
    else x
  let n := F64.ofInt x.toInt
  let n := if neg then n.neg else n
  if ex2 ≠ 0 then n.ldexp ex2 else n

/-- `(int32_t)x`, with the sign. -/
def signed32 (x : BitVec 64) (neg : Bool) : BitVec 32 :=
  if neg then -(x.setWidth 32) else x.setWidth 32

/-- `x`, with the sign. -/
def signed64 (x : BitVec 64) (neg : Bool) : BitVec 64 := if neg then -x else x

/-- `x < 0x80000000u+neg`. -/
def below31 (x : ℕ) (neg : Bool) : Prop := x < 2 ^ 31 + neg.toNat

instance (x : ℕ) (neg : Bool) : Decidable (below31 x neg) := inferInstanceAs (Decidable (x < _))

/-- The end of `strscan_hex` and `strscan_bin`: reduce the range, then convert to a double. -/
def reduceDouble (x : BitVec 64) (fmt : StrScanFmt) (ex2 : ℤ) (neg : Bool) : Result :=
  if x &&& 0xc000000000000000 ≠ 0 then
    .ok (fmt, .n (strscanDouble (x >>> 2 ||| x &&& 3) (i32 (ex2 + 2)) neg))
  else .ok (fmt, .n (strscanDouble x ex2 neg))

/-! ### The parsers of hexadecimal, octal and binary numbers -/

/-- `(*p != '.' ? *p : *++p)` and `p++`. -/
def readDigit : List UInt8 → UInt8 × List UInt8
  | [] => (0, [])
  | c :: p => if c = ch '.' then (p.headD 0, p.tail) else (c, p)

/-- The first loop of `strscan_hex`. -/
def hexDigits : ℕ → List UInt8 → BitVec 64 → BitVec 64 × List UInt8
  | 0, p, x => (x, p)
  | i + 1, p, x =>
    let d := (readDigit p).1
    let d := if d > ch '9' then d.toNat + 9 else d.toNat
    hexDigits i (readDigit p).2 ((x <<< 4) + BitVec.ofNat 64 (d % 16))

/-- The second one, over the excess digits. -/
def hexExcess : ℕ → List UInt8 → BitVec 64 → ℤ → BitVec 64 × ℤ
  | 0, _, x, ex2 => (x, ex2)
  | i + 1, p, x, ex2 =>
    hexExcess i (readDigit p).2 (x ||| if (readDigit p).1 ≠ ch '0' then 1 else 0) (i32 (ex2 + 4))

/-- `strscan_hex`. -/
def strscanHex (p : List UInt8) (fmt : StrScanFmt) (opt : Opt) (ex2 : ℤ) (neg : Bool) (dig : ℕ) :
    Result :=
  let (x, p) := hexDigits (min dig 16) p 0
  let (x, ex2) := hexExcess (dig - 16) p x ex2
  let u32 : Result := if dig > 8 then .error .error else .ok (.u32, .i (signed32 x neg))
  match fmt with
  | .int =>
    if !has opt optTonum ∧ below31 x.toNat neg then .ok (.int, .i (signed32 x neg))
    else if !has opt optC then reduceDouble x .num ex2 neg
    else u32
  | .u32 => u32
  | .i64 | .u64 => if dig > 16 then .error .error else .ok (fmt, .u64 (signed64 x neg))
  | .num | .imag => reduceDouble x fmt ex2 neg

/-- The loop of `strscan_oct`. -/
def octDigits : ℕ → List UInt8 → BitVec 64 → Except Err (BitVec 64)
  | 0, _, x => .ok x
  | dig + 1, p, x =>
    let c := p.headD 0
    if ¬(c ≥ ch '0' ∧ c ≤ ch '7') then .error .error
    else octDigits dig p.tail ((x <<< 3) + BitVec.ofNat 64 (c.toNat % 8))

/-- `strscan_oct`. -/
def strscanOct (p : List UInt8) (fmt : StrScanFmt) (neg : Bool) (dig : ℕ) : Result :=
  if dig > 22 ∨ dig = 22 ∧ p.headD 0 > ch '1' then .error .error
  else do
    let x ← octDigits dig p 0
    let u32 (fmt : StrScanFmt) : Result :=
      if x >>> 32 ≠ 0 then .error .error else .ok (fmt, .i (signed32 x neg))
    match fmt with
    | .int => if below31 x.toNat neg then u32 .int else u32 .u32
    | .u32 => u32 .u32
    | _ => .ok (fmt, .u64 (signed64 x neg))

/-- The loop of `strscan_bin`. -/
def binDigits : ℕ → List UInt8 → BitVec 64 → Except Err (BitVec 64)
  | 0, _, x => .ok x
  | i + 1, p, x =>
    let c := p.headD 0
    if c &&& 0xfe ≠ ch '0' then .error .error
    else binDigits i p.tail (x <<< 1 ||| BitVec.ofNat 64 (c.toNat % 2))

/-- `strscan_bin`. -/
def strscanBin (p : List UInt8) (fmt : StrScanFmt) (opt : Opt) (ex2 : ℤ) (neg : Bool) (dig : ℕ) :
    Result :=
  if ex2 ≠ 0 ∨ dig > 64 then .error .error
  else do
    let x ← binDigits dig p 0
    let u32 : Result := if dig > 32 then .error .error else .ok (.u32, .i (signed32 x neg))
    match fmt with
    | .int =>
      if !has opt optTonum ∧ below31 x.toNat neg then .ok (.int, .i (signed32 x neg))
      else if !has opt optC then reduceDouble x .num ex2 neg
      else u32
    | .u32 => u32
    | .i64 | .u64 => .ok (fmt, .u64 (signed64 x neg))
    | .num | .imag => reduceDouble x fmt ex2 neg

/-! ### The parser of decimal numbers: the digits -/

/-- `STRSCAN_MAXDIG`, `STRSCAN_DDIG`. -/
def maxdig : ℕ := 800
def ddig : ℕ := 512

/-- `(… & 15)` of the next digit. -/
def decDigit (p : List UInt8) : ℕ := (readDigit p).1.toNat % 16

/-- Scan aligned double-digits. -/
def decPairs : ℕ → List UInt8 → List ℕ → List ℕ × List UInt8
  | 0, p, xi => (xi, p)
  | i + 1, p, xi =>
    let d := 10 * decDigit p
    let p := (readDigit p).2
    decPairs i (readDigit p).2 (xi ++ [d + decDigit p])

/-- Set the last bit of the last digit. -/
def setLast (xi : List ℕ) : List ℕ := xi.dropLast ++ [xi.getLastD 0 ||| 1]

/-- Summarize the rounding effect of the excess digits; the count is that of the digits. -/
def decExcess : ℕ → List UInt8 → List ℕ → List ℕ
  | 0, _, xi => xi
  | i + 1, p, xi => if (readDigit p).1 ≠ ch '0' then setLast xi else decExcess i (readDigit p).2 xi

/-- Simplify the exponent; there are fewer than ten steps from one digit to nineteen. -/
def decZeros : ℕ → List ℕ → ℤ → ℕ → List ℕ × ℤ × ℕ
  | 0, xi, ex10, dig => (xi, ex10, dig)
  | fuel + 1, xi, ex10, dig =>
    if ex10 > 0 ∧ dig ≤ 18 then decZeros fuel (xi ++ [0]) (ex10 - 2) (dig + 2) else (xi, ex10, dig)

/-- The number of the digits that are read, and the exponent. -/
def decCut (ex10 : ℤ) (dig : ℕ) : ℕ × ℤ :=
  if dig > maxdig then (maxdig, i32 (ex10 + (dig - maxdig : ℕ))) else (dig, ex10)

/-- Scan unaligned leading digit. -/
def decLead (p : List UInt8) (ex10 : ℤ) (i : ℕ) : List ℕ × ℕ × List UInt8 :=
  if (ex10 + i) % 2 ≠ 0 then ([decDigit p], i - 1, (readDigit p).2) else ([], i, p)

/-- Scan and realign trailing digit. -/
def decTrail (i : ℕ) (xi : List ℕ) (p : List UInt8) (ex10 : ℤ) (dig : ℕ) :
    List ℕ × ℤ × ℕ × List UInt8 :=
  if i % 2 ≠ 0 then (xi ++ [10 * decDigit p], i32 (ex10 - 1), dig + 1, (readDigit p).2)
  else (xi, ex10, dig, p)

/-- The digits of a number that has some: the buffer, the exponent and the count. -/
def decBuffer (p : List UInt8) (ex10 : ℤ) (dig : ℕ) : List ℕ × ℤ × ℕ :=
  let (i, ex10) := decCut ex10 dig
  let (xi, i, p) := decLead p ex10 i
  let (xi, p) := decPairs (i / 2) p xi
  let (xi, ex10, dig, p) := decTrail i xi p ex10 dig
  if dig > maxdig then (decExcess (dig - maxdig) p xi, ex10, maxdig)
  else decZeros 10 xi ex10 dig

/-! ### The parser of decimal numbers: the ring -/

/-- The circular buffer, and the counters of the rescaling.  The entry of an index is a `uint8_t`. -/
structure Ring where
  xi : ℕ → ℕ
  hi : ℕ
  lo : ℕ
  ex2 : ℤ
  idig : ℤ

/-- `DNEXT`, `DPREV`, `DLEN`. -/
def dnext (a : ℕ) : ℕ := (a + 1) % ddig
@[irreducible] def dprev (a : ℕ) : ℕ := (a + (ddig - 1)) % ddig
def dlen (lo hi : ℕ) : ℕ := (lo + (ddig - hi)) % ddig

/-- A digit is stored. -/
def Ring.set (r : Ring) (i d : ℕ) : Ring := { r with xi := Function.update r.xi i (d % 256) }

/-- The inner loop of scaling up, from the last digit to the first. -/
def upDigits : ℕ → ℕ → ℕ → Ring → Except Err (ℕ × Ring)
  | 0, _, _, _ => .error .fuel
  | fuel + 1, i, cy, r =>
    let d := (r.xi i <<< 6) + cy
    let cy := ((d >>> 2) * 5243) >>> 17
    let d := d - cy * 100
    let r := r.set i d
    if i = r.hi then .ok (cy, r)
    else
      let r := if d = 0 ∧ i = dprev r.lo then { r with lo := i } else r
      upDigits fuel (dprev i) cy r

/-- The carry of scaling up becomes the first digit. -/
def upCarry (cy : ℕ) (r : Ring) : Ring :=
  let r := { r with hi := dprev r.hi }
  let r :=
    if r.xi (dprev r.lo) = 0 then { r with lo := dprev r.lo }
    else if r.hi = r.lo then
      let r := { r with lo := dprev r.lo }
      r.set (dprev r.lo) (r.xi (dprev r.lo) ||| r.xi r.lo)
    else r
  let r := r.set r.hi cy
  { r with idig := r.idig + 1 }

/-- Scale up until there are at least 17 or 18 digits of the integer part. -/
def scaleUp : ℕ → Ring → Except Err Ring
  | 0, _ => .error .fuel
  | fuel + 1, r =>
    if r.idig < 9 ∧ r.idig < dlen r.lo r.hi then do
      let (cy, r) ← upDigits ddig (dprev r.lo) 0 { r with ex2 := r.ex2 - 6 }
      scaleUp fuel (if cy ≠ 0 then upCarry cy r else r)
    else .ok r

/-- The inner loop of scaling down, from the first digit to the last. -/
@[grind =]
def downDigits : ℕ → ℕ → ℕ → Ring → Except Err (ℕ × Ring)
  | 0, _, _, _ => .error .fuel
  | fuel + 1, i, cy, r =>
    let cy := cy + r.xi i
    let r := r.set i (cy >>> 6)
    let cy := 100 * (cy &&& 0x3f)
    let r := if r.xi i = 0 ∧ i = r.hi then { r with hi := dnext r.hi, idig := r.idig - 1 } else r
    if dnext i ≠ r.lo then downDigits fuel (dnext i) cy r else .ok (cy, r)

/-- The digits behind the last one. -/
def downTail : ℕ → ℕ → Ring → Except Err Ring
  | 0, _, _ => .error .fuel
  | fuel + 1, cy, r =>
    if cy = 0 then .ok r
    else if r.hi = r.lo then .ok (r.set (dprev r.lo) (r.xi (dprev r.lo) ||| 1))
    else
      let r := r.set r.lo (cy >>> 6)
      downTail fuel (100 * (cy &&& 0x3f)) { r with lo := dnext r.lo }

/-- Scale down until no more than 17 or 18 digits of the integer part remain. -/
def scaleDown : ℕ → Ring → Except Err Ring
  | 0, _ => .error .fuel
  | fuel + 1, r =>
    if r.idig > 9 then do
      let (cy, r) ← downDigits ddig r.hi 0 { r with ex2 := r.ex2 + 6 }
      let r ← downTail 4 cy r
      scaleDown fuel r
    else .ok r

/-- Collect the digits of the integer part; `idig` has been counted down. -/
def collect : ℕ → ℕ → ℤ → BitVec 64 → Ring → Except Err (ℕ × ℤ × BitVec 64)
  | 0, _, _, _, _ => .error .fuel
  | fuel + 1, i, idig, x, r =>
    let idig := idig - 1
    if idig > 0 ∧ i ≠ r.lo then
      collect fuel (dnext i) idig (x * 100 + BitVec.ofNat 64 (r.xi i)) r
    else .ok (i, idig, x)

/-- `while (--idig >= 0) x = x * 100`. -/
def shiftDigits (idig : ℤ) (x : BitVec 64) : BitVec 64 := x * 100 ^ idig.toNat

/-- Gather the round bit from the remaining digits. -/
def roundBit : ℕ → ℕ → BitVec 64 → Ring → Except Err (BitVec 64)
  | 0, _, _, _ => .error .fuel
  | fuel + 1, i, x, r =>
    if r.xi i ≠ 0 then .ok (x ||| 1)
    else if dnext i ≠ r.lo then roundBit fuel (dnext i) x r
    else .ok x

/-- The integer part of the ring and its exponent, as they are passed to `strscan_double`. -/
def ringDouble (r : Ring) : Except Err (BitVec 64 × ℤ) := do
  let (i, idig, x) ← collect ddig (dnext r.hi) r.idig (BitVec.ofNat 64 (r.xi r.hi)) r
  if i = r.lo then .ok (shiftDigits idig x, r.ex2)
  else do
    let x ← roundBit ddig i (x <<< 1) r
    .ok (x, r.ex2 - 1)

/-- The ring of the digits of a buffer. -/
def Ring.ofBuffer (xi : List ℕ) (ex10 : ℤ) : Ring where
  xi i := xi.getD i 0
  hi := 0
  lo := xi.length
  ex2 := 0
  idig := xi.length + ex10 / 2

/-- The part of `strscan_dec` behind the test of the simple overflow and underflow. -/
def rescale (r : Ring) : Except Err (BitVec 64 × ℤ) := do
  let r ← scaleUp 512 r
  let r ← scaleDown 512 r
  ringDouble r

/-- The slow path of `strscan_dec`. -/
def decSlow (xi : List ℕ) (ex10 : ℤ) (fmt : StrScanFmt) (opt : Opt) (neg : Bool) : Result :=
  let go (fmt : StrScanFmt) : Result :=
    let r := Ring.ofBuffer xi ex10
    -- Handle simple overflow/underflow.
    if r.idig > 310 / 2 then .ok (fmt, .n (.inf neg))
    else if r.idig < -163 then .ok (fmt, .n (.fin neg 0))
    else do
      let (x, ex2) ← rescale r
      .ok (fmt, .n (strscanDouble x ex2 neg))
  match fmt with
  | .int => if has opt optC then .error .error else go .num
  | .num | .imag => go fmt
  | .u32 | .i64 | .u64 => .error .error

/-- The integer in the buffer. -/
def decInt (xi : List ℕ) : BitVec 64 :=
  xi.tail.foldl (fun x d => x * 100 + BitVec.ofNat 64 d) (BitVec.ofNat 64 (xi.headD 0))

/-- The part of `strscan_dec` behind the digits. -/
def decValue (xi : List ℕ) (ex10 : ℤ) (dig : ℕ) (fmt : StrScanFmt) (opt : Opt) (neg : Bool) : Result :=
  let x := decInt xi
  let slow (fmt : StrScanFmt) : Result := decSlow xi ex10 fmt opt neg
  -- Fast path for numbers in integer format (but handles e.g. 1e6, too).
  if (dig ≤ 20 ∧ ex10 = 0) ∧ ¬(dig = 20 ∧ (xi.headD 0 > 18 ∨ x.toInt ≥ 0)) then
    let plainnumber (fmt : StrScanFmt) : Result :=
      if x.toInt < 0 then slow fmt
      else .ok (fmt, .n (if neg then (F64.ofInt x.toInt).neg else F64.ofInt x.toInt))
    let u32 : Result := if x >>> 32 ≠ 0 then .error .error else .ok (.u32, .i (signed32 x neg))
    match fmt with
    | .int =>
      if !has opt optTonum ∧ below31 x.toNat neg then .ok (.int, .i (signed32 x neg))
      else if !has opt optC then plainnumber .num
      else u32
    | .u32 => u32
    | .i64 | .u64 => .ok (fmt, .u64 (signed64 x neg))
    | .num | .imag => plainnumber fmt
  else slow fmt

/-- `strscan_dec`; a numeral of zeros leaves the buffer empty, whose first entry is a zero. -/
def strscanDec (p : List UInt8) (fmt : StrScanFmt) (opt : Opt) (ex10 : ℤ) (neg : Bool) (dig : ℕ) :
    Result :=
  let (xi, ex10, dig) := if dig ≠ 0 then decBuffer p ex10 dig else ([], 0, 0)
  decValue xi ex10 dig fmt opt neg

/-! ### The scanner -/

/-- A pointer into the string: the bytes before it, the nearest first, and the bytes from it on. -/
structure Ptr where
  seen : List UInt8
  rest : List UInt8

/-- `p[k]`. -/
def Ptr.get (p : Ptr) (k : ℕ) : UInt8 := p.rest.getD k 0

/-- `p++`. -/
def Ptr.next (p : Ptr) : Ptr :=
  match p.rest with
  | [] => p
  | c :: r => ⟨c :: p.seen, r⟩

/-- `p += k`. -/
def Ptr.add (p : Ptr) : ℕ → Ptr
  | 0 => p
  | k + 1 => p.next.add k

/-- The offset of the pointer. -/
def Ptr.pos (p : Ptr) : ℕ := p.seen.length

/-- `while (lj_char_isspace(*p)) p++`. -/
def skipSpace : List UInt8 → List UInt8 → Ptr
  | seen, [] => ⟨seen, []⟩
  | seen, c :: r => if isspace c then skipSpace (c :: seen) r else ⟨seen, c :: r⟩

def Ptr.skipSpace (p : Ptr) : Ptr := Strscan.skipSpace p.seen p.rest

/-- `if (*p == '+' || *p == '-') neg = (*p++ == '-')`. -/
def parseSign (p : Ptr) : Bool × Ptr :=
  if p.get 0 = ch '+' ∨ p.get 0 = ch '-' then (p.get 0 == ch '-', p.next) else (false, p)

/-- `casecmp` of the bytes from `p` on with the characters of a word. -/
@[grind =]
def caseword (p : Ptr) : List Char → ℕ → Bool
  | [], _ => true
  | k :: w, i => casecmp (p.get i) k && caseword p w (i + 1)

/-- Parse "inf", "infinity" or "nan". -/
def parseInfNan (neg : Bool) (p : Ptr) : Result :=
  let (tmp, p) :=
    if caseword p ['i', 'n', 'f'] 0 then
      let p := p.add 3
      (F64.inf neg, if caseword p ['i', 'n', 'i', 't', 'y'] 0 then p.add 5 else p)
    else if caseword p ['n', 'a', 'n'] 0 then (F64.nan, p.add 3)
    else (F64.nan, p)
  let p := p.skipSpace
  if p.get 0 ≠ 0 then .error .error else .ok (.num, .n tmp)

/-- Skip leading zeros: whether there were some, and the decimal point. -/
@[grind =]
def scanZeros : List UInt8 → List UInt8 → Bool → Option ℕ → Except Err (Ptr × Bool × Option ℕ)
  | seen, [], hasdig, dp => .ok (⟨seen, []⟩, hasdig, dp)
  | seen, c :: r, hasdig, dp =>
    if c = ch '0' then scanZeros (c :: seen) r true dp
    else if c = ch '.' then
      if dp.isSome then .error .error else scanZeros (c :: seen) r hasdig (some seen.length)
    else .ok (⟨seen, c :: r⟩, hasdig, dp)

/-- Preliminary digit and decimal point scan: the value for the fast path, and the count. -/
@[grind =]
def scanDigits (cmask : UInt8) :
    List UInt8 → List UInt8 → ℕ → ℕ → Option ℕ → Except Err (Ptr × ℕ × ℕ × Option ℕ)
  | seen, [], x, dig, dp => .ok (⟨seen, []⟩, x, dig, dp)
  | seen, c :: r, x, dig, dp =>
    if isa c cmask then
      scanDigits cmask (c :: seen) r ((x * 10 + c.toNat % 16) % 2 ^ 32) (dig + 1) dp
    else if c = ch '.' then
      if dp.isSome then .error .error else scanDigits cmask (c :: seen) r x dig (some seen.length)
    else .ok (⟨seen, c :: r⟩, x, dig, dp)

/-- Skip trailing zeros, from the last digit back to the decimal point. -/
@[grind =]
def stripZeros : List UInt8 → ℤ → ℕ → ℤ × ℕ
  | [], ex, dig => (ex, dig)
  | c :: seen, ex, dig =>
    if ex < 0 ∧ c = ch '0' then stripZeros seen (ex + 1) (dig - 1) else (ex, dig)

/-- Handle the decimal point: the exponent, and the count of the digits. -/
def decimalPoint (base : ℕ) (p : Ptr) (dp dig : ℕ) : ℤ × ℕ :=
  if dig ≠ 0 then
    let (ex, dig) := stripZeros p.seen (i32 (dp - ((p.pos : ℤ) - 1))) dig
    (if base = 16 then i32 (ex * 4) else ex, dig)
  else (0, dig)

/-- The digits of an exponent. -/
def scanExponent : List UInt8 → List UInt8 → ℕ → Ptr × ℕ
  | seen, [], xx => (⟨seen, []⟩, xx)
  | seen, c :: r, xx =>
    if isdigit c then scanExponent (c :: seen) r (if xx < 65536 then xx * 10 + c.toNat % 16 else xx)
    else (⟨seen, c :: r⟩, xx)

/-- Parse exponent, behind its letter. -/
def parseExponent (p : Ptr) (ex : ℤ) : Except Err (Ptr × ℤ) :=
  let (negx, p) := parseSign p
  if !isdigit (p.get 0) then .error .error
  else
    let xx := (p.get 0).toNat % 16
    let p := p.next
    let (p, xx) := scanExponent p.seen p.rest xx
    .ok (p, i32 (ex + if negx then -(xx : ℤ) else xx))

/-- The U in front of the suffix of an integer. -/
def suffixU (p : Ptr) : Ptr × StrScanFmt :=
  if casecmp (p.get 0) 'u' then (p.next, .u32) else (p, .int)

/-- The L or LL. -/
def suffixL (c : Target) (opt : Opt) (p : Ptr) (fmt : StrScanFmt) : Except Err (Ptr × StrScanFmt) :=
  if casecmp (p.get 0) 'l' then
    let p := p.next
    if casecmp (p.get 0) 'l' then .ok (p.next, fmt.addI64)
    else if !has opt optC then .error .error
    else .ok (p, if c.long8 then fmt.addI64 else fmt)
  else .ok (p, fmt)

/-- The U at the end. -/
def suffixLastU (p : Ptr) (fmt : StrScanFmt) : Ptr × StrScanFmt :=
  if casecmp (p.get 0) 'u' ∧ (fmt = .int ∨ fmt = .i64) then (p.next, fmt.addU32) else (p, fmt)

/-- The formats that the options rule out. -/
def suffixBad (opt : Opt) (fmt : StrScanFmt) : Prop :=
  fmt = .u32 ∧ !has opt optC ∨ (fmt = .i64 ∨ fmt = .u64) ∧ !has opt optLl

instance (opt : Opt) (fmt : StrScanFmt) : Decidable (suffixBad opt fmt) :=
  inferInstanceAs (Decidable (_ ∨ _))

/-- The suffix of an integer: U, LL, ULL, L, UL. -/
def integerSuffix (c : Target) (opt : Opt) (p : Ptr) : Except Err (Ptr × StrScanFmt) := do
  let (p, fmt) := suffixU p
  let (p, fmt) ← suffixL c opt p fmt
  let (p, fmt) := suffixLastU p fmt
  if suffixBad opt fmt then .error .error else .ok (p, fmt)

/-- Parse suffix, and the white space behind it. -/
def parseSuffix (c : Target) (opt : Opt) (fmt : StrScanFmt) (p : Ptr) : Except Err StrScanFmt :=
  if p.get 0 ≠ 0 then do
    let (p, fmt) ←
      if casecmp (p.get 0) 'i' then
        if !has opt optImag then .error .error else .ok (p.next, StrScanFmt.imag)
      else if fmt = .int then integerSuffix c opt p
      else .ok (p, fmt)
    let p := p.skipSpace
    if p.get 0 ≠ 0 then .error .error else .ok fmt
  else .ok fmt

/-- Try to convert number to integer, if requested. -/
def tryInteger (c : Target) (opt : Opt) : StrScanFmt × TValue → StrScanFmt × TValue
  | (.num, .n n) =>
    if has opt optToint then
      let i := c.num2int.conv n
      if n.toRat? = some (i.toInt : ℚ) then (.int, .i i) else (.num, .n n)
    else (.num, .n n)
  | r => r

/-- The fast path for decimal 32 bit integers and the dispatch to the base-specific parser. -/
def dispatch (c : Target) (opt : Opt) (neg : Bool) (base : ℕ) (sp : List UInt8)
    (fmt : StrScanFmt) (x : ℕ) (ex : ℤ) (dig : ℕ) : Result :=
  if fmt = .int ∧ base = 10 ∧ (dig < 10 ∨ dig = 10 ∧ sp.headD 0 ≤ ch '2' ∧ below31 x neg) then
    let y := signed32 (BitVec.ofNat 64 x) neg
    if has opt optTonum then .ok (.num, .n (F64.ofInt y.toInt)) else .ok (.int, .i y)
  else if base = 0 ∧ ¬(fmt = .num ∨ fmt = .imag) then strscanOct sp fmt neg dig
  else do
    let r ←
      if base = 16 then strscanHex sp fmt opt ex neg dig
      else if base = 2 then strscanBin sp fmt opt ex neg dig
      else strscanDec sp fmt opt ex neg dig
    .ok (tryInteger c opt r)

/-- The base, and the pointer behind its prefix. -/
def parseBase (opt : Opt) (p : Ptr) : ℕ × Ptr :=
  if p.get 0 = ch '0' then
    if casecmp (p.get 1) 'x' then (16, p.add 2)
    else if casecmp (p.get 1) 'b' then (2, p.add 2)
    else (if has opt optC then 0 else 10, p)
  else (10, p)

/-- Parse exponent, where its letter stands. -/
def exponentPart (base : ℕ) (fmt : StrScanFmt) (p : Ptr) (ex : ℤ) :
    Except Err (StrScanFmt × Ptr × ℤ) :=
  if base ≥ 10 ∧ casecmp (p.get 0) (if base = 16 then 'p' else 'e') then do
    let (p, ex) ← parseExponent p.next ex
    .ok (.num, p, ex)
  else .ok (fmt, p, ex)

/-- Parse regular number, behind its digits. -/
def parseTail (c : Target) (opt : Opt) (neg : Bool) (base : ℕ) (sp : List UInt8) (p : Ptr) (x dig : ℕ)
    (dp : Option ℕ) : Result := do
  let fmt := if dp.isSome then StrScanFmt.num else .int
  let (ex, dig) := (dp.map fun dp => decimalPoint base p dp dig).getD (0, dig)
  let (fmt, p, ex) ← exponentPart base fmt p ex
  let fmt ← parseSuffix c opt fmt p
  dispatch c opt neg base sp fmt x ex dig

/-- Parse regular number. -/
def parseNumber (c : Target) (opt : Opt) (neg : Bool) (p : Ptr) : Result := do
  let (base, p) := parseBase opt p
  let cmask : UInt8 := if base = 16 then 0x10 else 0x08
  -- Skip leading zeros.
  let (p, hasdig, dp) ← scanZeros p.seen p.rest false none
  let sp := p.rest
  let (p, x, dig, dp) ← scanDigits cmask p.seen p.rest 0 0 dp
  if hasdig = false ∧ dig = 0 then .error .error
  else parseTail c opt neg base sp p x dig dp

/-- `lj_strscan_scan`. -/
def scan (c : Target) (opt : Opt) (s : List UInt8) : Result :=
  let p : Ptr := ⟨[], s⟩
  -- Remove leading space, parse sign and non-numbers.
  if !isdigit (p.get 0) then
    let (neg, p) := parseSign p.skipSpace
    if p.get 0 ≥ ch 'A' then parseInfNan neg p else parseNumber c opt neg p
  else parseNumber c opt false p

/-- `lj_strscan_num`. -/
def strscanNum (c : Target) (s : List UInt8) : Result := scan c optTonum s

end Strscan
