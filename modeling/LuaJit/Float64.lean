/-
**Double precision values.**

A double that is a number is a sign and a rational magnitude, so a zero has a sign.  Rounding takes a
rational to the nearest multiple of its quantum, with ties to the even one; the quantum leaves 53 bits, and
below the normal range it is that of the subnormals.

Main definitions:

* `F64` — doubles;
* `F64.round` — rounding a rational to nearest, ties to even, with overflow to infinity;
* `F64.ofInt`, `F64.ldexp`, `F64.neg` — the operations of C that round at most once;
* `F64.ToInt32` — a conversion to `int32_t`: exact where C defines it and arbitrary elsewhere.
-/

import Mathlib

set_option relaxedAutoImplicit false
set_option autoImplicit false

/-- A double.  The magnitude of a number is not negative. -/
inductive F64
  | nan
  | inf (neg : Bool)
  | fin (neg : Bool) (v : ℚ)
  deriving DecidableEq

namespace F64

/-- The nearest natural number, and the even one of two. -/
def halfEven (q : ℚ) : ℕ :=
  let m := ⌊q⌋₊
  if q - m < 1 / 2 then m else if 1 / 2 < q - m then m + 1 else if m % 2 = 0 then m else m + 1

/-- The exponent of the last bit of a magnitude. -/
def quantum (v : ℚ) : ℤ := max (Int.log 2 v - 52) (-1074)

/-- The double nearest to a magnitude. -/
def round (neg : Bool) (v : ℚ) : F64 :=
  let r : ℚ := halfEven (v / 2 ^ quantum v) * 2 ^ quantum v
  if r < 2 ^ 1024 then .fin neg r else .inf neg

/-- `(double)` of an integer. -/
def ofInt (z : ℤ) : F64 := round (decide (z < 0)) z.natAbs

/-- The sign changed. -/
def neg : F64 → F64
  | .nan => .nan
  | .inf s => .inf (!s)
  | .fin s v => .fin (!s) v

/-- `ldexp`. -/
def ldexp : F64 → ℤ → F64
  | .fin s v, k => round s (v * 2 ^ k)
  | d, _ => d

/-- The value of a number. -/
def toRat? : F64 → Option ℚ
  | .fin s v => some (if s then -v else v)
  | _ => none

/-- A conversion to `int32_t`: exact on the values that are one. -/
structure ToInt32 where
  conv : F64 → BitVec 32
  exact : ∀ d (k : BitVec 32), d.toRat? = some (k.toInt : ℚ) → conv d = k

end F64
