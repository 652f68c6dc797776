/-
**Integer formatting is that of C.**

A directive is a set of flags, a width, an optional precision and a conversion.  Its text is parsed to one
word; the fields of the word are those of the directive; and the conversion writes what the standard
prescribes, into exactly the space that it asked for.

Main definitions:

* `Strfmt.Directive`, `Strfmt.Directive.Spells` — directives and their texts;
* `Strfmt.Directive.print` — the characters that the standard prescribes;
* `Strfmt.pack` — the descriptor of a directive.

Main results:

* `Strfmt.parse_spells`, `Strfmt.parse_directive` — the texts of directives are what is parsed to their
  descriptors, and nothing else is;
* `Strfmt.fxint_pack` — the conversion of a descriptor;
* `Strfmt.putfxint_prints` — **the characters for any text and any number**.
-/

import LuaJit.Strfmt

set_option relaxedAutoImplicit false
set_option autoImplicit false

namespace Strfmt

open Buf (SBuf)

/-! ### The standard -/

/-- The integer conversions. -/
inductive Conv where
  | d | i | u | x | X | o
  deriving DecidableEq

/-- The conversion character. -/
def Conv.char : Conv → UInt8
  | .d => ch 'd'
  | .i => ch 'i'
  | .u => ch 'u'
  | .x => ch 'x'
  | .X => ch 'X'
  | .o => ch 'o'

/-- The conversions of a signed number. -/
def Conv.signed : Conv → Bool
  | .d | .i => true
  | _ => false

def Conv.base : Conv → ℕ
  | .x | .X => 16
  | .o => 8
  | _ => 10

/-- A directive. -/
structure Directive where
  flags : List UInt8
  width : ℕ
  prec : Option ℕ
  conv : Conv
  known : ∀ c ∈ flags, (flagBit c).isSome
  width_lt : width < 100
  prec_lt : ∀ p ∈ prec, p < 100

/-- A directive has a flag. -/
def Directive.has (d : Directive) (c : Char) : Bool := decide (ch c ∈ d.flags)

/-- A digit of a base up to sixteen. -/
def digitChar (upper : Bool) (n : ℕ) : UInt8 :=
  if n < 10 then UInt8.ofNat (48 + n) else UInt8.ofNat ((if upper then 65 else 97) + (n - 10))

/-- A number without leading zeros; nothing for zero. -/
def numeral (c : Conv) (n : ℕ) : List UInt8 := (Nat.digits c.base n).reverse.map (digitChar (c == .X))

/-- The number that is printed. -/
def Conv.magnitude (c : Conv) (k : BitVec 64) : ℕ := if c.signed then k.toInt.natAbs else k.toNat

/-- The sign: a minus sign, or what the flags say for a number that is not negative. -/
def Directive.sign (d : Directive) (k : BitVec 64) : List UInt8 :=
  if d.conv.signed then
    if k.toInt < 0 then [ch '-'] else if d.has '+' then [ch '+'] else if d.has ' ' then [ch ' '] else []
  else []

/-- The prefix of the alternative form in base sixteen, of a number that is not zero. -/
def Directive.alt (d : Directive) (k : BitVec 64) : List UInt8 :=
  if d.has '#' ∧ d.conv.magnitude k ≠ 0 then
    if d.conv = .x then [ch '0', ch 'x'] else if d.conv = .X then [ch '0', ch 'X'] else []
  else []

/-- The digits: at least as many as the precision, which is one if there is none; the alternative form in
base eight makes the first one a zero. -/
def Directive.digits (d : Directive) (k : BitVec 64) : List UInt8 :=
  let q := numeral d.conv (d.conv.magnitude k)
  let q := .replicate (d.prec.getD 1 - q.length) (ch '0') ++ q
  if d.conv = .o ∧ d.has '#' ∧ q.head? ≠ some (ch '0') then ch '0' :: q else q

/-- What is printed.  The field is filled up with spaces on the right for the flag `-`, with zeros behind
the sign and the prefix for the flag `0` without a precision, and with spaces on the left otherwise. -/
def Directive.print (d : Directive) (k : BitVec 64) : List UInt8 :=
  let front := d.sign k ++ d.alt k
  let fill := d.width - (front.length + (d.digits k).length)
  if d.has '-' then front ++ d.digits k ++ .replicate fill (ch ' ')
  else if d.has '0' ∧ d.prec = none then front ++ .replicate fill (ch '0') ++ d.digits k
  else .replicate fill (ch ' ') ++ front ++ d.digits k

/-! ### The text of a directive -/

/-- A decimal digit. -/
def digit (a : ℕ) : UInt8 := UInt8.ofNat (48 + a)

/-- At most two digits. -/
inductive DigitsText : ℕ → List UInt8 → Prop
  | none : DigitsText 0 []
  | one (a : ℕ) : a < 10 → DigitsText a [digit a]
  | two (a b : ℕ) : a < 10 → b < 10 → DigitsText (10 * a + b) [digit a, digit b]

/-- A precision: a point and at most two digits. -/
inductive PrecText : Option ℕ → List UInt8 → Prop
  | none : PrecText none []
  | some (p : ℕ) (t : List UInt8) : DigitsText p t → PrecText (some p) (ch '.' :: t)

/-- The text of a directive.  A width does not begin with a zero, which would be a flag. -/
inductive Directive.Spells (d : Directive) : List UInt8 → Prop
  | intro (wt pt : List UInt8) : DigitsText d.width wt → wt.head? ≠ some (ch '0') → PrecText d.prec pt →
      Spells d (ch '%' :: (d.flags ++ (wt ++ (pt ++ [d.conv.char]))))

/-! ### Descriptors -/

/-- The flags of a descriptor. -/
def flagWord (l p z s a : Bool) : SFormat :=
  (if l then fLeft else 0) ||| (if p then fPlus else 0) ||| (if z then fZero else 0) ||| (if s then fSpace else 0) |||
    (if a then fAlt else 0)

/-- The type, the subtype and the case of a conversion. -/
def Conv.bits : Conv → SFormat
  | .d | .i => strfmtInt
  | .u => strfmtUint
  | .x => strfmtX
  | .X => strfmtX ||| fUpper
  | .o => strfmtO

/-- A descriptor; the field of the precision is larger by one. -/
def pack (l p z s a : Bool) (w q : ℕ) (c : Conv) : SFormat :=
  flagWord l p z s a ||| BitVec.ofNat 32 w <<< 16 ||| BitVec.ofNat 32 q <<< 24 ||| c.bits

variable {l p z s a : Bool} {w q : ℕ} {c : Conv}

theorem shiftLeft_and {x m : SFormat} {n : ℕ} (hm : m.toNat < 2 ^ n) : x <<< n &&& m = 0 := by
  refine BitVec.eq_of_getLsbD_eq fun i hi => ?_
  rw [BitVec.getLsbD_and, BitVec.getLsbD_shiftLeft]
  by_cases hin : i < n
  · simp [hin]
  · have hbit : m.getLsbD i = false := by
      rw [BitVec.getLsbD]
      exact Nat.testBit_lt_two_pow (hm.trans_le (Nat.pow_le_pow_right (by decide) (not_lt.1 hin)))
    rw [hbit, Bool.and_false]
    simp

/-- The low half of a descriptor. -/
theorem pack_and {m : SFormat} (hm : m.toNat < 2 ^ 16) :
    pack l p z s a w q c &&& m = (flagWord l p z s a ||| c.bits) &&& m := by
  have hm' : m.toNat < 2 ^ 24 := hm.trans (by decide)
  have h1 := shiftLeft_and (x := BitVec.ofNat 32 w) hm
  have h2 := shiftLeft_and (x := BitVec.ofNat 32 q) hm'
  rw [pack, BitVec.and_or_distrib_right, BitVec.and_or_distrib_right, BitVec.and_or_distrib_right, h1, h2,
    BitVec.and_or_distrib_right]
  simp

theorem pack_type : strfmtType (pack l p z s a w q c) = if c.signed then strfmtInt else strfmtUint := by
  rw [strfmtType, pack_and (by decide)]
  revert l p z s a
  cases c <;> decide

theorem pack_left : pack l p z s a w q c &&& fLeft = if l then fLeft else 0 := by
  rw [pack_and (by decide)]
  revert l p z s a
  cases c <;> decide

theorem pack_plus : pack l p z s a w q c &&& fPlus = if p then fPlus else 0 := by
  rw [pack_and (by decide)]
  revert l p z s a
  cases c <;> decide

theorem pack_space : pack l p z s a w q c &&& fSpace = if s then fSpace else 0 := by
  rw [pack_and (by decide)]
  revert l p z s a
  cases c <;> decide

theorem pack_alt : pack l p z s a w q c &&& fAlt = if a then fAlt else 0 := by
  rw [pack_and (by decide)]
  revert l p z s a
  cases c <;> decide

theorem pack_upper : pack l p z s a w q c &&& fUpper = if c = .X then fUpper else 0 := by
  rw [pack_and (by decide)]
  revert l p z s a
  cases c <;> decide

theorem pack_adjust : pack l p z s a w q c &&& (fLeft ||| fZero) =
    (if l then fLeft else 0) ||| if z then fZero else 0 := by
  rw [pack_and (by decide)]
  revert l p z s a
  cases c <;> decide

theorem pack_octAlt : pack l p z s a w q c &&& (tOct ||| fAlt) =
    (if c = .o then tOct else 0) ||| if a then fAlt else 0 := by
  rw [pack_and (by decide)]
  revert l p z s a
  cases c <;> decide

theorem pack_hexOct : pack l p z s a w q c &&& (tHex ||| tOct) =
    if c.base = 16 then tHex else if c.base = 8 then tOct else 0 := by
  rw [pack_and (by decide)]
  revert l p z s a
  cases c <;> decide

theorem pack_hex : pack l p z s a w q c &&& tHex = if c.base = 16 then tHex else 0 := by
  rw [pack_and (by decide)]
  revert l p z s a
  cases c <;> decide

/-- Without the flag for zeros. -/
theorem pack_clear : pack l p z s a w q c &&& ~~~fZero = pack l p false s a w q c := by
  refine BitVec.eq_of_getLsbD_eq fun i hi => ?_
  have hflag : (flagWord l p z s a &&& ~~~fZero) = flagWord l p false s a := by
    revert l p z s a
    decide
  have hbits : (c.bits &&& ~~~fZero) = c.bits := by
    cases c <;> decide
  have hhigh : ∀ (x : SFormat) (n : ℕ), 16 ≤ n → x <<< n &&& ~~~fZero = x <<< n := by
    intro x n hn
    have hzero := shiftLeft_and (x := x) (m := fZero) (n := n)
      (lt_of_lt_of_le (by decide) (Nat.pow_le_pow_right (by decide : 1 ≤ 2) hn))
    refine BitVec.eq_of_getLsbD_eq fun i hi => ?_
    have hbit := congrArg (fun x => x.getLsbD i) hzero
    simp only [BitVec.getLsbD_and, BitVec.ofNat_eq_ofNat, BitVec.getLsbD_zero] at hbit
    simp only [BitVec.getLsbD_and, BitVec.getLsbD_not, decide_eq_true hi, Bool.true_and]
    cases hx : (x <<< n).getLsbD i with
    | false => rfl
    | true =>
        rw [hx, Bool.true_and] at hbit
        rw [hbit]
        rfl
  rw [pack, pack, BitVec.and_or_distrib_right, BitVec.and_or_distrib_right, BitVec.and_or_distrib_right, hflag, hbits,
    hhigh _ _ le_rfl, hhigh _ _ (by decide)]

theorem flagWord_lt : (flagWord l p z s a).toNat < 2 ^ 16 := by
  revert l p z s a
  decide

theorem bits_lt : c.bits.toNat < 2 ^ 16 := by
  cases c <;> decide

theorem getLsbD_of_lt {x : BitVec 32} {n i : ℕ} (hx : x.toNat < 2 ^ n) (hi : n ≤ i) : x.getLsbD i = false :=
  Nat.testBit_lt_two_pow (hx.trans_le (Nat.pow_le_pow_right (by decide) hi))

theorem ofNat_getLsbD {n i : ℕ} (hn : n < 256) (hi : 8 ≤ i) : (BitVec.ofNat 32 n).getLsbD i = false := by
  refine getLsbD_of_lt (n := 8) ?_ hi
  rw [BitVec.toNat_ofNat, Nat.mod_eq_of_lt (by omega)]
  exact hn

theorem byteMask_getLsbD {i : ℕ} : (255 : BitVec 32).getLsbD i = decide (i < 8) := by
  by_cases hi : i < 8
  · interval_cases i <;> decide
  · rw [getLsbD_of_lt (n := 8) (by decide) (not_lt.1 hi), decide_eq_false hi]

/-- The width. -/
theorem pack_width (hw : w < 256) : strfmtWidth (pack l p z s a w q c) = BitVec.ofNat 32 w := by
  refine BitVec.eq_of_getLsbD_eq fun i hi => ?_
  rw [strfmtWidth, pack, BitVec.getLsbD_and, BitVec.getLsbD_ushiftRight, BitVec.getLsbD_or, BitVec.getLsbD_or,
    BitVec.getLsbD_or, getLsbD_of_lt flagWord_lt (Nat.le_add_right ..), getLsbD_of_lt bits_lt (Nat.le_add_right ..),
    BitVec.getLsbD_shiftLeft, BitVec.getLsbD_shiftLeft, byteMask_getLsbD]
  by_cases h8 : i < 8
  · have h24 : 16 + i < 24 := by omega
    have h32 : 16 + i < 32 := by omega
    simp [h8, h24, h32]
  · rw [ofNat_getLsbD hw (not_lt.1 h8), decide_eq_false h8, Bool.and_false]

/-- The precision, or the largest word if there is none. -/
theorem pack_prec (hw : w < 256) (hq : q < 256) : strfmtPrec (pack l p z s a w q c) = BitVec.ofNat 32 q - 1 := by
  rw [strfmtPrec]
  refine congrArg (· - 1) (BitVec.eq_of_getLsbD_eq fun i hi => ?_)
  rw [pack, BitVec.getLsbD_and, BitVec.getLsbD_ushiftRight, BitVec.getLsbD_or, BitVec.getLsbD_or,
    BitVec.getLsbD_or, getLsbD_of_lt flagWord_lt (by omega), getLsbD_of_lt bits_lt (by omega),
    BitVec.getLsbD_shiftLeft, BitVec.getLsbD_shiftLeft, byteMask_getLsbD, show 24 + i - 16 = 8 + i by lia,
    ofNat_getLsbD hw (Nat.le_add_right ..)]
  by_cases h8 : i < 8
  · have h32 : 24 + i < 32 := by omega
    simp [h8, h32]
  · rw [ofNat_getLsbD hq (not_lt.1 h8), decide_eq_false h8, Bool.and_false]

/-! ### Digits -/

section Digits

variable {n : ℕ} {low : BitVec n → UInt8} {next : BitVec n → BitVec n} {f : ℕ → UInt8} {b : ℕ} {t : List UInt8}

/-- A loop of digits gives the numeral. -/
theorem digitLoop_spec (hb : 1 < b) (hlow : ∀ k, low k = f (k.toNat % b)) (hnext : ∀ k, (next k).toNat = k.toNat / b)
    (fuel : ℕ) {k : BitVec n} (hk : k.toNat ≠ 0) (hfuel : k.toNat < b ^ fuel) :
    digitLoop low next fuel k t = (Nat.digits b k.toNat).reverse.map f ++ t := by
  induction fuel generalizing k t with
  | zero =>
      rw [pow_zero] at hfuel
      omega
  | succ fuel ih =>
      rw [digitLoop, Nat.digits_def' hb (Nat.pos_of_ne_zero hk), ← hnext, List.reverse_cons, List.map_append,
        List.map_singleton, ← hlow, List.append_assoc, List.singleton_append]
      by_cases hz : next k = 0
      · have hzero : (next k).toNat = 0 := by
          rw [hz]
          exact BitVec.toNat_zero
        rw [if_neg (not_not.2 hz), hzero, Nat.digits_zero]
        rfl
      · rw [if_pos hz]
        have hne : (next k).toNat ≠ 0 := fun h => hz (BitVec.eq_of_toNat_eq h)
        refine ih hne ?_
        rw [hnext, Nat.div_lt_iff_lt_mul (by omega)]
        rwa [pow_succ] at hfuel

/-- The first decimal loop leaves a number of 32 bits, and the digits of the whole. -/
theorem decLoop64_spec (fuel : ℕ) {k : BitVec 64} (hk : k.toNat ≠ 0) (hfuel : k.toNat < 2 ^ 32 * 10 ^ fuel) :
    (decLoop64 fuel k t).1.toNat ≠ 0 ∧ (decLoop64 fuel k t).1.toNat < 2 ^ 32 ∧
      (Nat.digits 10 (decLoop64 fuel k t).1.toNat).reverse.map digit ++ (decLoop64 fuel k t).2 =
        (Nat.digits 10 k.toNat).reverse.map digit ++ t := by
  induction fuel generalizing k t with
  | zero =>
      rw [pow_zero, Nat.mul_one] at hfuel
      exact ⟨hk, hfuel, rfl⟩
  | succ fuel ih =>
      have hshift : k >>> 32 ≠ 0 ↔ 2 ^ 32 ≤ k.toNat := by
        rw [ne_eq, ← BitVec.toNat_inj, BitVec.toNat_ushiftRight, Nat.shiftRight_eq_div_pow,
          show BitVec.toNat (0 : BitVec 64) = 0 from rfl]
        lia
      rw [decLoop64]
      by_cases hbig : k >>> 32 ≠ 0
      · rw [if_pos hbig]
        have hle := hshift.1 hbig
        have hdiv : (k / 10).toNat = k.toNat / 10 := BitVec.toNat_udiv
        have hmod : (k % 10).toNat = k.toNat % 10 := BitVec.toNat_umod
        obtain ⟨h1, h2, h3⟩ := @ih (UInt8.ofNat (48 + (k % 10).toNat) :: t) (k / 10) (by lia)
          (by rw [hdiv, Nat.div_lt_iff_lt_mul (by decide), Nat.mul_assoc, ← pow_succ]; exact hfuel)
        refine ⟨h1, h2, h3.trans ?_⟩
        rw [hdiv, hmod, Nat.digits_def' (by decide) (Nat.pos_of_ne_zero hk), List.reverse_cons, List.map_append,
          List.map_singleton, List.append_assoc, List.singleton_append]
        rfl
      · rw [if_neg hbig]
        rw [hshift, not_le] at hbig
        exact ⟨hk, hbig, rfl⟩

theorem digit_of_lt {u : ℕ} (hu : u < 10) (upper : Bool) : digitChar upper u = digit u := if_pos hu

theorem map_digit (m : ℕ) (upper : Bool) :
    (Nat.digits 10 m).reverse.map (digitChar upper) = (Nat.digits 10 m).reverse.map digit := by
  refine List.map_congr_left fun u hu => digit_of_lt ?_ upper
  exact Nat.digits_lt_base (by decide) (List.mem_reverse.1 hu)

theorem decDigits_spec {k : BitVec 64} (hk : k.toNat ≠ 0) (upper : Bool) :
    decDigits k = (Nat.digits 10 k.toNat).reverse.map (digitChar upper) := by
  have hlt := k.isLt
  obtain ⟨h1, h2, h3⟩ := @decLoop64_spec [] 64 k hk (hlt.trans (by decide))
  have hset : ((decLoop64 64 k []).1.setWidth 32).toNat = (decLoop64 64 k []).1.toNat := by
    rw [BitVec.toNat_setWidth, Nat.mod_eq_of_lt h2]
  rw [List.append_nil] at h3
  rw [map_digit, ← h3, ← hset]
  exact digitLoop_spec (by decide) (fun k => by rw [BitVec.toNat_umod]; rfl) (fun k => BitVec.toNat_udiv) 32
    (hset ▸ h1) (hset ▸ h2.trans (by decide))

theorem hexDigits_spec {k : BitVec 64} (hk : k.toNat ≠ 0) (upper : Bool) :
    hexDigits upper k = (Nat.digits 16 k.toNat).reverse.map (digitChar upper) := by
  have hlow : ∀ k : BitVec 64, (hexdig upper).getD (k &&& 15).toNat 0 = digitChar upper (k.toNat % 16) := by
    intro k
    have hmod : (k &&& 15).toNat = k.toNat % 16 := by
      rw [BitVec.toNat_and]
      exact Nat.and_two_pow_sub_one_eq_mod _ 4
    rw [hmod]
    have hlt : k.toNat % 16 < 16 := Nat.mod_lt _ (by decide)
    generalize k.toNat % 16 = u at hlt
    revert u upper
    decide
  have hnext : ∀ k : BitVec 64, (k >>> 4).toNat = k.toNat / 16 := by
    intro k
    rw [BitVec.toNat_ushiftRight, Nat.shiftRight_eq_div_pow]
  have hspec := digitLoop_spec (t := []) (by decide) hlow hnext 64 hk (k.isLt.trans (by decide))
  rw [List.append_nil] at hspec
  exact hspec

theorem octDigits_spec {k : BitVec 64} (hk : k.toNat ≠ 0) (upper : Bool) :
    octDigits k = (Nat.digits 8 k.toNat).reverse.map (digitChar upper) := by
  have hlow : ∀ k : BitVec 64, UInt8.ofNat (48 + (k &&& 7).toNat) = digitChar upper (k.toNat % 8) := by
    intro k
    have hmod : (k &&& 7).toNat = k.toNat % 8 := by
      rw [BitVec.toNat_and]
      exact Nat.and_two_pow_sub_one_eq_mod _ 3
    rw [hmod, digit_of_lt (by lia), digit]
  have hnext : ∀ k : BitVec 64, (k >>> 3).toNat = k.toNat / 8 := by
    intro k
    rw [BitVec.toNat_ushiftRight, Nat.shiftRight_eq_div_pow]
  have hspec := digitLoop_spec (t := []) (by decide) hlow hnext 64 hk (k.isLt.trans (by decide))
  rw [List.append_nil] at hspec
  exact hspec

end Digits

/-- The loops on the three bases. -/
def rawDigits (c : Conv) (k : BitVec 64) : List UInt8 :=
  if c.base = 16 then hexDigits (c == .X) k else if c.base = 8 then octDigits k else decDigits k

theorem rawDigits_spec {k : BitVec 64} (hk : k.toNat ≠ 0) : rawDigits c k = numeral c k.toNat := by
  cases c
  all_goals first
    | exact hexDigits_spec hk _
    | exact octDigits_spec hk _
    | exact decDigits_spec hk _

/-- A numeral does not begin with a zero. -/
theorem numeral_head (c : Conv) (m : ℕ) : (numeral c m).head? ≠ some (ch '0') := by
  by_cases hm : m = 0
  · rw [hm, numeral, Nat.digits_zero]
    exact nofun
  · have hb : 1 < c.base := by cases c <;> decide
    have hne : Nat.digits c.base m ≠ [] := Nat.digits_ne_nil_iff_ne_zero.2 hm
    rw [numeral, List.head?_map, List.head?_reverse, List.getLast?_eq_getLast_of_ne_nil hne, Option.map_some]
    have hlast := Nat.getLast_digit_ne_zero c.base hm
    have hlt := Nat.digits_lt_base hb (List.getLast_mem hne)
    have hle : c.base ≤ 16 := by cases c <;> decide
    generalize (Nat.digits c.base m).getLast hne = u at hlast hlt
    have hu : u < 16 := by omega
    intro h
    revert h
    generalize (c == Conv.X) = upper
    revert upper
    interval_cases u
    · exact absurd rfl hlast
    all_goals decide

/-- A numeral of 64 bits fits the buffer, with one more digit. -/
theorem numeral_length (c : Conv) {m : ℕ} (hm : m < 2 ^ 64) : (numeral c m).length ≤ 22 := by
  rw [numeral, List.length_map, List.length_reverse]
  have hb : 8 ≤ c.base := by cases c <;> decide
  by_cases hz : m = 0
  · rw [hz, Nat.digits_zero]
    exact Nat.zero_le _
  · have hpow : m < c.base ^ 22 := lt_of_lt_of_le (hm.trans (by decide)) (Nat.pow_le_pow_left hb 22)
    exact (Nat.digits_length_le_iff (by omega) m).2 hpow

/-! ### The conversion of a descriptor -/

section Conversion

variable {d : Directive} {k : BitVec 64}

/-- The field of the precision. -/
def Directive.precField (d : Directive) : ℕ := d.prec.elim 0 (· + 1)

/-- The descriptor, with the flag for zeros or without it. -/
def Directive.packed (d : Directive) (zero : Bool) : SFormat :=
  pack (d.has '-') (d.has '+') zero (d.has ' ') (d.has '#') d.width d.precField d.conv

/-- The descriptor of a directive. -/
def Directive.descriptor (d : Directive) : SFormat := d.packed (d.has '0')

theorem precField_lt (d : Directive) : d.precField < 256 := by
  rw [Directive.precField]
  cases hp : d.prec with
  | none => decide
  | some p =>
      have := d.prec_lt p hp
      rw [Option.elim_some]
      omega

theorem magnitude_lt (c : Conv) (k : BitVec 64) : c.magnitude k < 2 ^ 64 := by
  have hk := k.isLt
  rw [Conv.magnitude]
  split
  · rw [BitVec.toInt_eq_toNat_cond]
    split <;> lia
  · exact hk

/-- The sign and the magnitude. -/
theorem signOf_spec (d : Directive) (k : BitVec 64) :
    ∃ front, signOf d.descriptor k = (BitVec.ofNat 64 (d.conv.magnitude k), front) ∧ frontChars front = d.sign k ∧
      (front >>> 8).toNat = (d.sign k).length ∧ (d.conv.signed = false → front = 0) := by
  have hk := k.isLt
  rw [signOf, Directive.descriptor, Directive.packed, pack_type, pack_plus, pack_space, Directive.sign, Conv.magnitude]
  cases hs : d.conv.signed with
  | false => exact ⟨0, by simp [strfmtUint, strfmtInt], rfl, rfl, fun _ => rfl⟩
  | true =>
      simp only [if_true]
      by_cases hneg : k.toInt < 0
      · refine ⟨256 + wch '-', ?_, ?_, ?_, nofun⟩
        · rw [if_pos hneg, Prod.mk.injEq]
          refine ⟨BitVec.eq_of_toNat_eq ?_, rfl⟩
          rw [BitVec.toInt_eq_toNat_cond] at hneg ⊢
          rw [BitVec.toNat_neg, BitVec.toNat_ofNat]
          split at hneg <;> split <;> lia
        · rw [if_pos hneg]
          decide
        · rw [if_pos hneg]
          rfl
      · have hnat : BitVec.ofNat 64 k.toInt.natAbs = k := by
          refine BitVec.eq_of_toNat_eq ?_
          rw [BitVec.toInt_eq_toNat_cond] at hneg ⊢
          rw [BitVec.toNat_ofNat]
          split at hneg <;> split <;> lia
        rw [hnat]
        simp only [if_neg hneg]
        cases d.has '+' with
        | true => exact ⟨256 + wch '+', by simp [fPlus], rfl, rfl, nofun⟩
        | false =>
            cases d.has ' ' with
            | true => exact ⟨256 + wch ' ', by simp [fSpace], rfl, rfl, nofun⟩
            | false => exact ⟨0, by simp, rfl, rfl, nofun⟩

/-- The precision as a word. -/
theorem prec_ne_zero (d : Directive) : BitVec.ofNat 32 d.precField - 1 ≠ 0 ↔ d.prec ≠ some 0 := by
  rw [Directive.precField]
  cases hp : d.prec with
  | none => exact iff_of_true (by decide) nofun
  | some p =>
      have := d.prec_lt p hp
      rw [Option.elim_some, BitVec.ofNat_add, ne_eq, ne_eq, Option.some_inj]
      refine not_congr ?_
      rw [show BitVec.ofNat 32 p + BitVec.ofNat 32 1 - 1 = BitVec.ofNat 32 p from BitVec.add_sub_cancel _ _,
        ← BitVec.toNat_inj, BitVec.toNat_ofNat, Nat.mod_eq_of_lt (by omega)]
      rfl

/-- The test for the alternative form of octal zero. -/
theorem packed_octAlt (z : Bool) : d.packed z &&& (tOct ||| fAlt) = tOct ||| fAlt ↔ d.conv = .o ∧ d.has '#' := by
  rw [Directive.packed, pack_octAlt]
  by_cases ho : d.conv = .o
  · cases d.has '#' <;> simp [ho, tOct, fAlt]
  · cases d.has '#' <;> simp [ho, tOct, fAlt]

theorem replicate_append_zero {p : ℕ} {t : List UInt8} :
    List.replicate (p + 1) (ch '0') ++ t = .replicate p (ch '0') ++ ch '0' :: t := by
  rw [List.replicate_succ', List.append_assoc, List.singleton_append]

/-- **Zero**: nothing, or one digit. -/
theorem digits_zero (hk : d.conv.magnitude k = 0) :
    ∃ q, (if d.prec ≠ some 0 ∨ d.conv = .o ∧ d.has '#' then [ch '0'] else []) = q ∧ q.length ≤ 23 ∧
      d.digits k = .replicate (d.prec.getD 0 - q.length) (ch '0') ++ q := by
  refine ⟨_, rfl, by split <;> decide, ?_⟩
  rw [Directive.digits, hk, numeral, Nat.digits_zero]
  cases hp : d.prec with
  | none => simp
  | some p =>
      cases p with
      | zero =>
          by_cases ho : d.conv = .o ∧ d.has '#' = true
          · simp [ho.1, ho.2]
          · simp [ho]
      | succ p =>
          have hhead : (List.replicate (p + 1) (ch '0') ++ []).head? = some (ch '0') := rfl
          have hsome : some (p + 1) ≠ some 0 := nofun
          simp only [List.map_nil, List.reverse_nil, List.length_nil, Nat.sub_zero, Option.getD_some, hhead, ne_eq,
            not_true_eq_false, and_false, if_false, if_pos (Or.inl hsome)]
          rw [replicate_append_zero]
          rfl

/-- **A number that is not zero**: the numeral, behind a zero in the alternative form of octal. -/
theorem digits_pos (hk : d.conv.magnitude k ≠ 0) :
    ∃ q, (if d.conv = .o ∧ d.has '#' then ch '0' :: numeral d.conv (d.conv.magnitude k)
        else numeral d.conv (d.conv.magnitude k)) = q ∧ q.length ≤ 23 ∧
      d.digits k = .replicate (d.prec.getD 0 - q.length) (ch '0') ++ q := by
  have hlen := numeral_length d.conv (magnitude_lt d.conv k)
  have hhead := numeral_head d.conv (d.conv.magnitude k)
  have hpos : 0 < (numeral d.conv (d.conv.magnitude k)).length := by
    rw [numeral, List.length_map, List.length_reverse]
    exact List.length_pos_of_ne_nil (Nat.digits_ne_nil_iff_ne_zero.2 hk)
  rw [Directive.digits]
  generalize numeral d.conv (d.conv.magnitude k) = t at hlen hhead hpos
  have hfill : d.prec.getD 1 - t.length = d.prec.getD 0 - t.length := by
    cases d.prec with
    | none =>
        rw [Option.getD_none, Option.getD_none]
        lia
    | some p => rfl
  refine ⟨_, rfl, ?_, ?_⟩
  · split
    · rw [List.length_cons]
      omega
    · omega
  · rw [hfill]
    by_cases ho : d.conv = .o ∧ d.has '#' = true
    · rw [if_pos ho, List.length_cons]
      cases hp : d.prec.getD 0 - t.length with
      | zero =>
          rw [List.replicate_zero, List.nil_append, if_pos ⟨ho.1, ho.2, hhead⟩,
            show d.prec.getD 0 - (t.length + 1) = 0 by lia]
          rfl
      | succ p =>
          rw [if_neg, replicate_append_zero, show d.prec.getD 0 - (t.length + 1) = p by lia]
          rintro ⟨-, -, hne⟩
          exact hne rfl
    · rw [if_neg ho, if_neg fun h => ho ⟨h.1, h.2.1⟩]

/-- The digits, and what is in front of them. -/
theorem convert_spec (d : Directive) (k : BitVec 64) (z : Bool) {front : BitVec 32}
    (hfront : frontChars front = d.sign k) (hsize : (front >>> 8).toNat = (d.sign k).length)
    (hzero : d.conv.signed = false → front = 0) :
    ∃ q front', convert (d.packed z) (BitVec.ofNat 32 d.precField - 1) (BitVec.ofNat 64 (d.conv.magnitude k)) front =
        (q, front') ∧ frontChars front' = d.sign k ++ d.alt k ∧
      (front' >>> 8).toNat = (d.sign k ++ d.alt k).length ∧ q.length ≤ 23 ∧
      d.digits k = .replicate (d.prec.getD 0 - q.length) (ch '0') ++ q := by
  have hmag := magnitude_lt d.conv k
  have hnat : (BitVec.ofNat 64 (d.conv.magnitude k)).toNat = d.conv.magnitude k := Nat.mod_eq_of_lt hmag
  have hupper : (d.packed z &&& fUpper != 0) = (d.conv == .X) := by
    rw [Directive.packed, pack_upper]
    cases d.conv <;> rfl
  have halt : (d.packed z &&& fAlt != 0) = d.has '#' := by
    rw [Directive.packed, pack_alt]
    cases d.has '#' <;> rfl
  rw [convert, hupper, halt]
  by_cases hk : d.conv.magnitude k = 0
  · obtain ⟨q, hq, hlen, hdigits⟩ := digits_zero hk
    have hnone : d.alt k = [] := if_neg fun h => h.2 hk
    refine ⟨q, front, ?_, ?_, ?_, hlen, hdigits⟩
    · rw [hk, if_pos (show BitVec.ofNat 64 0 = 0 from rfl)]
      simp only [packed_octAlt, prec_ne_zero]
      rw [hq]
    · rw [hnone, List.append_nil, hfront]
    · rw [hnone, List.append_nil, hsize]
  · obtain ⟨q, hq, hlen, hdigits⟩ := digits_pos hk
    have hne : BitVec.ofNat 64 (d.conv.magnitude k) ≠ 0 := by
      intro h
      have := congrArg BitVec.toNat h
      rw [hnat] at this
      exact hk this
    have hraw : rawDigits d.conv (BitVec.ofNat 64 (d.conv.magnitude k)) = numeral d.conv (d.conv.magnitude k) := by
      rw [rawDigits_spec (hnat.symm ▸ hk), hnat]
    rw [if_neg hne, Directive.packed, pack_hexOct, pack_hex]
    rw [rawDigits] at hraw
    by_cases h16 : d.conv.base = 16
    · have hcases : d.conv = .x ∨ d.conv = .X := by
        cases hc : d.conv <;> rw [hc] at h16 <;> first | exact .inl rfl | exact .inr rfl | exact absurd h16 (by decide)
      have hunsigned : d.conv.signed = false := by rcases hcases with hc | hc <;> rw [hc] <;> rfl
      have hocta : d.conv ≠ .o := by rcases hcases with hc | hc <;> rw [hc] <;> decide
      have hsign : d.sign k = [] := by rw [Directive.sign, hunsigned]; rfl
      have hf := hzero hunsigned
      have hbase : d.alt k = if d.has '#' then [ch '0', if d.conv == .X then ch 'X' else ch 'x'] else [] := by
        rw [Directive.alt]
        simp only [hk, ne_eq, not_false_eq_true, and_true]
        rcases hcases with hc | hc <;> rw [hc] <;> rfl
      rw [if_pos h16] at hraw
      rw [if_neg fun h => hocta h.1] at hq
      refine ⟨q, if d.has '#' then 512 + if d.conv == .X then wch 'X' else wch 'x' else 0, ?_, ?_, ?_, hlen, hdigits⟩
      · rw [if_pos h16, if_pos h16, if_neg (by decide), if_pos (by decide), hraw, hq, hf]
      all_goals
        rw [hsign, List.nil_append, hbase]
        cases d.has '#' <;> cases (d.conv == .X) <;> rfl
    · have hnone : d.alt k = [] := by
        have hx : d.conv ≠ .x := fun hc => h16 (hc ▸ rfl)
        have hX : d.conv ≠ .X := fun hc => h16 (hc ▸ rfl)
        rw [Directive.alt, if_neg hx, if_neg hX, ite_self]
      rw [if_neg h16] at hraw
      refine ⟨q, front, ?_, by rw [hnone, List.append_nil, hfront], by rw [hnone, List.append_nil, hsize], hlen, hdigits⟩
      rw [if_neg h16, if_neg h16]
      by_cases h8 : d.conv.base = 8
      · have ho : d.conv = .o := by
          cases hc : d.conv <;> rw [hc] at h8 <;> first | rfl | exact absurd h8 (by decide)
        rw [if_pos h8] at hraw
        rw [if_pos h8, if_neg (by decide), if_neg (not_not.2 rfl), hraw, ← hq]
        simp only [ho, true_and]
      · have ho : d.conv ≠ .o := fun hc => h8 (hc ▸ rfl)
        rw [if_neg h8] at hraw
        rw [if_neg h8, if_pos rfl, hraw, ← hq, if_neg fun h => ho h.1]

/-- A counter that goes down to a bound, and past it. -/
theorem padLoop_spec {c : UInt8} {bound n : BitVec 32} {t : List UInt8} (fuel : ℕ) (hfuel : n.toNat - bound.toNat < fuel) :
    (padLoop c bound fuel n t).1 = t ++ .replicate (n.toNat - bound.toNat) c := by
  induction fuel generalizing n t with
  | zero => omega
  | succ fuel ih =>
      rw [padLoop]
      by_cases hgt : n > bound
      · rw [if_pos hgt]
        have hlt : bound.toNat < n.toNat := hgt
        have hsub : (n - 1).toNat = n.toNat - 1 := by
          have hn := n.isLt
          rw [BitVec.toNat_sub, show BitVec.toNat (1 : BitVec 32) = 1 from rfl]
          lia
        have hstep : n.toNat - bound.toNat = (n.toNat - 1 - bound.toNat) + 1 := by lia
        rw [ih (by lia), hsub, List.append_assoc, hstep]
        rfl
      · have hle : n.toNat ≤ bound.toNat := not_lt.1 hgt
        rw [if_neg hgt, Nat.sub_eq_zero_of_le hle, List.replicate_zero, List.append_nil]

theorem pad_true (c : UInt8) (bound n : BitVec 32) (t : List UInt8) :
    (pad true c bound n t).1 = t ++ .replicate (n.toNat - bound.toNat) c :=
  padLoop_spec _ (by have := n.isLt; lia)

theorem pad_false (c : UInt8) (bound n : BitVec 32) (t : List UInt8) : pad false c bound n t = (t, n) := rfl

theorem width_toNat (d : Directive) (z : Bool) : (strfmtWidth (d.packed z)).toNat = d.width := by
  have hw := d.width_lt
  rw [Directive.packed, pack_width (by omega), BitVec.toNat_ofNat]
  exact Nat.mod_eq_of_lt (by omega)

theorem prec_eq (d : Directive) (z : Bool) : strfmtPrec (d.packed z) = BitVec.ofNat 32 d.precField - 1 := by
  have hw := d.width_lt
  exact pack_prec (by omega) (precField_lt d)

/-- The precision is negative as a signed word if there is none. -/
theorem prec_toInt (d : Directive) :
    (BitVec.ofNat 32 d.precField - 1).toInt = d.prec.elim (-1) fun p => (p : ℤ) := by
  rw [Directive.precField]
  cases hp : d.prec with
  | none => rfl
  | some p =>
      have := d.prec_lt p hp
      rw [Option.elim_some, Option.elim_some, BitVec.ofNat_add,
        show BitVec.ofNat 32 p + BitVec.ofNat 32 1 - 1 = BitVec.ofNat 32 p from BitVec.add_sub_cancel _ _,
        BitVec.toInt_eq_toNat_cond, BitVec.toNat_ofNat]
      split <;> lia

/-- The larger one of the precision and the number of digits. -/
theorem prec_max (d : Directive) {n : ℕ} (hn : n ≤ 23) :
    (if (BitVec.ofNat 32 n).toInt ≥ (BitVec.ofNat 32 d.precField - 1).toInt then BitVec.ofNat 32 n
      else BitVec.ofNat 32 d.precField - 1).toNat = max n (d.prec.getD 0) := by
  have hlen : (BitVec.ofNat 32 n).toNat = n := Nat.mod_eq_of_lt (by omega)
  have hint : (BitVec.ofNat 32 n).toInt = n := by
    rw [BitVec.toInt_eq_toNat_cond, hlen]
    split <;> lia
  rw [prec_toInt, hint]
  cases hp : d.prec with
  | none =>
      rw [Option.elim_none, if_pos (by lia), hlen, Option.getD_none, Nat.max_zero]
  | some p =>
      have hlt := d.prec_lt p hp
      have hfield : (BitVec.ofNat 32 d.precField - 1).toNat = p := by
        rw [Directive.precField, hp, Option.elim_some, BitVec.ofNat_add,
          show BitVec.ofNat 32 p + BitVec.ofNat 32 1 - 1 = BitVec.ofNat 32 p from BitVec.add_sub_cancel _ _,
          BitVec.toNat_ofNat]
        exact Nat.mod_eq_of_lt (by omega)
      rw [Option.elim_some, Option.getD_some]
      split
      · rw [hlen]
        lia
      · rw [hfield]
        lia

/-- The flag for zeros, as it is left when the precision is known. -/
theorem clear_spec (d : Directive) :
    (if (BitVec.ofNat 32 d.precField - 1).toInt ≥ 0 then d.descriptor &&& ~~~fZero else d.descriptor) =
      d.packed (d.has '0' && d.prec.isNone) := by
  rw [prec_toInt, Directive.descriptor]
  cases d.prec with
  | none =>
      rw [Option.elim_none, if_neg (by decide), Option.isNone_none, Bool.and_true]
  | some p =>
      rw [Option.elim_some, if_pos (Int.natCast_nonneg p), Option.isNone_some, Bool.and_false]
      exact pack_clear

/-- The three tests for the side of the padding. -/
theorem packed_adjust (d : Directive) (z : Bool) :
    (d.packed z &&& (fLeft ||| fZero) == 0) = (!d.has '-' && !z) ∧
      (d.packed z &&& (fLeft ||| fZero) == fZero) = (!d.has '-' && z) ∧
      (d.packed z &&& fLeft != 0) = d.has '-' := by
  rw [Directive.packed, pack_adjust, pack_left]
  cases d.has '-' <;> cases z <;> exact ⟨by decide, by decide, by decide⟩

/-- **The field**: the padding on its side, and the digits behind what is in front of them. -/
theorem layout_spec (d : Directive) (z : Bool) {q t u : List UInt8} {front : BitVec 32} (hchars : frontChars front = t)
    (hsize : (front >>> 8).toNat = t.length) (ht : t.length ≤ 3) (hlen : q.length ≤ 23)
    (hu : u = .replicate (d.prec.getD 0 - q.length) (ch '0') ++ q) :
    (layout (d.packed z) (BitVec.ofNat 32 d.precField - 1) q front).2 =
        (if d.has '-' then t ++ u ++ .replicate (d.width - (t.length + u.length)) (ch ' ')
          else if z then t ++ .replicate (d.width - (t.length + u.length)) (ch '0') ++ u
          else .replicate (d.width - (t.length + u.length)) (ch ' ') ++ t ++ u) ∧
      (layout (d.packed z) (BitVec.ofNat 32 d.precField - 1) q front).1.toNat = max d.width (t.length + u.length) := by
  have hmax := prec_max d hlen
  have hwidth := width_toNat d z
  have hqlen : (BitVec.ofNat 32 q.length).toNat = q.length := Nat.mod_eq_of_lt (by omega)
  have hulen : u.length = max q.length (d.prec.getD 0) := by
    rw [hu, List.length_append, List.length_replicate]
    lia
  have hp100 : d.prec.getD 0 < 100 := by
    cases hp : d.prec with
    | none => decide
    | some p => exact d.prec_lt p hp
  obtain ⟨hleft, hright, htail⟩ := packed_adjust d z
  rw [layout, hchars, hleft, hright, htail]
  generalize (if (BitVec.ofNat 32 q.length).toInt ≥ (BitVec.ofNat 32 d.precField - 1).toInt then
    BitVec.ofNat 32 q.length else BitVec.ofNat 32 d.precField - 1) = prec at hmax
  have hpprec : (prec + front >>> 8).toNat = t.length + u.length := by
    rw [BitVec.toNat_add, hmax, hsize]
    lia
  have hmid : ∀ v, (pad true (ch '0') (BitVec.ofNat 32 q.length) prec v).1 ++ q = v ++ u := by
    intro v
    rw [pad_true, hmax, hqlen, List.append_assoc, hu,
      show max q.length (d.prec.getD 0) - q.length = d.prec.getD 0 - q.length by lia]
  generalize strfmtWidth (d.packed z) = width at hwidth
  generalize prec + front >>> 8 = pprec at hpprec
  have hneed : (if width > pprec then width else pprec).toNat = max d.width (t.length + u.length) := by
    split
    · next hgt =>
        have hlt : pprec.toNat < width.toNat := hgt
        lia
    · next hle =>
        have hge : width.toNat ≤ pprec.toNat := not_lt.1 hle
        lia
  refine ⟨?_, hneed⟩
  dsimp only
  rw [hmid]
  cases d.has '-' with
  | true =>
      simp only [Bool.not_true, Bool.false_and, pad_false, if_true, List.nil_append]
      rw [pad_true, hwidth, hpprec]
  | false =>
      cases z with
      | true =>
          simp only [Bool.not_false, Bool.not_true, Bool.and_false, Bool.and_self, pad_false, if_true, List.nil_append,
            Bool.false_eq_true, if_false]
          rw [pad_true, hwidth, hpprec]
      | false =>
          simp only [Bool.not_false, Bool.and_self, Bool.and_false, pad_false, Bool.false_eq_true, if_false]
          rw [pad_true, hwidth, hpprec, List.nil_append]

/-- **The conversion of a descriptor** prints what the standard says, into as much space as it asks for. -/
theorem fxint_pack (d : Directive) (k : BitVec 64) :
    (fxint d.descriptor k).2 = d.print k ∧ (fxint d.descriptor k).1.toNat = (d.print k).length := by
  obtain ⟨front, hsign, hchars, hsize, hzero⟩ := signOf_spec d k
  obtain ⟨q, front', hconv, hchars', hsize', hlen, hdigits⟩ :=
    convert_spec d k (d.has '0' && d.prec.isNone) hchars hsize hzero
  have hprec : strfmtPrec d.descriptor = BitVec.ofNat 32 d.precField - 1 := prec_eq d _
  have hfront : (d.sign k ++ d.alt k).length ≤ 3 := by
    rw [← hchars', frontChars]
    split
    · rw [List.length_append]
      split <;> simp
    · simp
  obtain ⟨htext, hneed⟩ := layout_spec d (d.has '0' && d.prec.isNone) hchars' hsize' hfront hlen hdigits
  have hfx : fxint d.descriptor k =
      layout (d.packed (d.has '0' && d.prec.isNone)) (BitVec.ofNat 32 d.precField - 1) q front' := by
    rw [fxint, hsign]
    dsimp only
    rw [hprec, clear_spec, hconv]
  have hnone : d.prec = none ↔ d.prec.isNone = true := Option.isNone_iff_eq_none.symm
  have hprint : (layout (d.packed (d.has '0' && d.prec.isNone)) (BitVec.ofNat 32 d.precField - 1) q front').2 =
      d.print k := by
    rw [htext, Directive.print]
    simp only [hnone, Bool.and_eq_true]
  refine ⟨by rw [hfx, hprint], ?_⟩
  rw [hfx, hneed, ← hprint, htext]
  split
  · simp only [List.length_append, List.length_replicate]
    lia
  · split <;> simp only [List.length_append, List.length_replicate] <;> lia

end Conversion

/-! ### The parser -/

section Parser

variable {t rest fl : List UInt8} {sf : SFormat}

/-- The characters of a list that are no flags in front. -/
def NoFlag (t : List UInt8) : Prop := ∀ b ∈ t.head?, flagBit b = none

theorem flagBit_cases {b : UInt8} (hb : (flagBit b).isSome) :
    b = ch '-' ∨ b = ch '+' ∨ b = ch '0' ∨ b = ch ' ' ∨ b = ch '#' := by
  rw [flagBit] at hb
  split_ifs at hb with hl hp hz hs ha
  · exact .inl hl
  · exact .inr (.inl hp)
  · exact .inr (.inr (.inl hz))
  · exact .inr (.inr (.inr (.inl hs)))
  · exact .inr (.inr (.inr (.inr ha)))
  · cases hb

theorem flagBit_inRange {b : UInt8} (hb : (flagBit b).isSome) : deref (b :: t) - wch ' ' ≤ wch '0' - wch ' ' := by
  have hderef : deref (b :: t) = deref [b] := rfl
  rw [hderef]
  rcases flagBit_cases hb with rfl | rfl | rfl | rfl | rfl <;> decide

theorem deref_cons (b : UInt8) : (deref (b :: t)).toNat = b.toNat := by
  have hlt := b.toNat_lt
  rw [deref, List.headD_cons, BitVec.toNat_ofNat]
  lia

theorem parseFlags_flag {b : UInt8} {f : SFormat} (hb : flagBit b = some f) :
    parseFlags (b :: t) sf = parseFlags t (sf ||| f) := by
  rw [parseFlags, if_pos (flagBit_inRange (hb ▸ rfl)), hb]

theorem parseFlags_stop (ht : NoFlag t) : parseFlags t sf = (t, sf) := by
  cases t with
  | nil => rfl
  | cons b t =>
      rw [parseFlags, ht b rfl]
      exact ite_self _

theorem parseFlags_append (hfl : ∀ b ∈ fl, (flagBit b).isSome) (ht : NoFlag t) :
    parseFlags (fl ++ t) sf = (t, fl.foldl (fun x b => x ||| (flagBit b).getD 0) sf) := by
  induction fl generalizing sf with
  | nil => exact parseFlags_stop ht
  | cons b fl ih =>
      obtain ⟨f, hf⟩ := Option.isSome_iff_exists.1 (hfl b (List.mem_cons_self ..))
      rw [List.cons_append, parseFlags_flag hf, ih fun b hb => hfl b (List.mem_cons_of_mem _ hb), List.foldl_cons, hf,
        Option.getD_some]

/-- The flags of a list. -/
theorem foldl_flags (fl : List UInt8) (l p z s a : Bool) (hfl : ∀ b ∈ fl, (flagBit b).isSome) :
    fl.foldl (fun x b => x ||| (flagBit b).getD 0) (flagWord l p z s a) =
      flagWord (l || decide (ch '-' ∈ fl)) (p || decide (ch '+' ∈ fl)) (z || decide (ch '0' ∈ fl))
        (s || decide (ch ' ' ∈ fl)) (a || decide (ch '#' ∈ fl)) := by
  induction fl generalizing l p z s a with
  | nil => simp
  | cons b fl ih =>
      have hstep : flagWord l p z s a ||| (flagBit b).getD 0 =
          flagWord (l || decide (ch '-' = b)) (p || decide (ch '+' = b)) (z || decide (ch '0' = b))
            (s || decide (ch ' ' = b)) (a || decide (ch '#' = b)) := by
        rcases flagBit_cases (hfl b (List.mem_cons_self ..)) with rfl | rfl | rfl | rfl | rfl <;>
          revert l p z s a <;> decide
      rw [List.foldl_cons, hstep, ih _ _ _ _ _ fun b hb => hfl b (List.mem_cons_of_mem _ hb)]
      simp only [List.mem_cons, Bool.decide_or, Bool.or_assoc]

/-- Every list has its flags in front. -/
theorem exists_flags (t : List UInt8) : ∃ fl t', t = fl ++ t' ∧ (∀ b ∈ fl, (flagBit b).isSome) ∧ NoFlag t' := by
  induction t with
  | nil => exact ⟨[], [], rfl, nofun, nofun⟩
  | cons b t ih =>
      cases hb : flagBit b with
      | none =>
          refine ⟨[], b :: t, rfl, nofun, fun b' hb' => ?_⟩
          obtain rfl := Option.some.inj hb'
          exact hb
      | some f =>
          obtain ⟨fl, t', ht, hfl, hno⟩ := ih
          refine ⟨b :: fl, t', by rw [ht]; rfl, fun b' hb' => ?_, hno⟩
          rcases List.mem_cons.1 hb' with rfl | hb'
          · rw [hb]
            rfl
          · exact hfl b' hb'

/-! ### Numbers -/

theorem deref_digit {u : ℕ} (hu : u < 10) : deref (digit u :: t) - wch '0' = BitVec.ofNat 32 u := by
  have hderef : deref (digit u :: t) = deref [digit u] := rfl
  rw [hderef]
  interval_cases u <;> decide

theorem atDigit_digit {u : ℕ} (hu : u < 10) : atDigit (digit u :: t) = true := by
  rw [atDigit, deref_digit hu, decide_eq_true_iff]
  interval_cases u <;> decide

/-- A digit that is next. -/
theorem exists_digit (h : atDigit t = true) : ∃ u < 10, ∃ t', t = digit u :: t' := by
  cases t with
  | nil => exact absurd h (by decide)
  | cons b t =>
      have hlt := b.toNat_lt
      rw [atDigit, decide_eq_true_iff, BitVec.lt_def, BitVec.toNat_sub, deref_cons,
        show (wch '0').toNat = 48 from rfl, show BitVec.toNat (10 : BitVec 32) = 10 from rfl] at h
      have hb : b = digit (b.toNat - 48) := by
        rw [digit, show 48 + (b.toNat - 48) = b.toNat by lia, UInt8.ofNat_toNat]
      exact ⟨b.toNat - 48, by lia, t, congrArg (· :: t) hb⟩

theorem ofNat_dec (u v : ℕ) : BitVec.ofNat 32 v + BitVec.ofNat 32 u * 10 = BitVec.ofNat 32 (10 * u + v) := by
  rw [Nat.mul_comm, Nat.add_comm, BitVec.ofNat_add, BitVec.ofNat_mul]
  rfl

theorem parseDigits_one {u : ℕ} (hu : u < 10) (ht : atDigit t = false) :
    parseDigits (digit u :: t) = (t, BitVec.ofNat 32 u) := by
  rw [parseDigits, List.tail_cons, if_neg (Bool.eq_false_iff.1 ht), deref_digit hu]

theorem parseDigits_two {u v : ℕ} (hu : u < 10) (hv : v < 10) :
    parseDigits (digit u :: digit v :: t) = (t, BitVec.ofNat 32 (10 * u + v)) := by
  rw [parseDigits, List.tail_cons, if_pos (atDigit_digit hv), deref_digit hu, deref_digit hv, List.tail_cons, ofNat_dec]

/-- A number of one or two digits is read off. -/
theorem exists_number (h : atDigit t = true) :
    ∃ n u nt t', t = nt ++ t' ∧ DigitsText n nt ∧ n < 100 ∧ nt.head? = some (digit u) ∧ t.head? = some (digit u) ∧
      parseDigits t = (t', BitVec.ofNat 32 n) := by
  obtain ⟨u, hu, t, rfl⟩ := exists_digit h
  cases ht : atDigit t with
  | false => exact ⟨u, u, [digit u], t, rfl, .one u hu, by omega, rfl, rfl, parseDigits_one hu ht⟩
  | true =>
      obtain ⟨v, hv, t, rfl⟩ := exists_digit ht
      exact ⟨10 * u + v, u, [digit u, digit v], t, rfl, .two u v hu hv, by omega, rfl, rfl, parseDigits_two hu hv⟩

/-- A number before something else. -/
theorem parseDigits_text {n : ℕ} {nt : List UInt8} (hn : DigitsText n nt) (ht : atDigit t = false) :
    (nt = [] ∧ n = 0) ∨ (atDigit (nt ++ t) = true ∧ parseDigits (nt ++ t) = (t, BitVec.ofNat 32 n)) := by
  cases hn with
  | none => exact .inl ⟨rfl, rfl⟩
  | one u hu => exact .inr ⟨atDigit_digit hu, parseDigits_one hu ht⟩
  | two u v hu hv => exact .inr ⟨atDigit_digit hu, parseDigits_two hu hv⟩

theorem parseWidth_text {n : ℕ} {nt : List UInt8} (hn : DigitsText n nt) (ht : atDigit t = false) :
    parseWidth (nt ++ t) sf = (t, sf ||| BitVec.ofNat 32 n <<< 16) := by
  rw [parseWidth]
  rcases parseDigits_text hn ht with ⟨rfl, rfl⟩ | ⟨hd, hp⟩
  · rw [List.nil_append, ht, if_neg (by decide)]
    simp
  · rw [hd, if_pos rfl, hp]

theorem parsePrec_text {p : Option ℕ} {pt : List UInt8} (hp : PrecText p pt) (ht : atDigit t = false)
    (hdot : deref t ≠ wch '.') :
    parsePrec (pt ++ t) sf = (t, sf ||| BitVec.ofNat 32 (p.elim 0 (· + 1)) <<< 24) := by
  rw [parsePrec]
  cases hp with
  | none =>
      rw [List.nil_append, if_neg hdot]
      simp
  | some n nt hn =>
      rw [List.cons_append, if_pos (show deref (ch '.' :: (nt ++ t)) = wch '.' from rfl), List.tail_cons]
      rcases parseDigits_text hn ht with ⟨rfl, rfl⟩ | ⟨hd, hn⟩
      · dsimp only [List.nil_append]
        rw [ht, if_neg (by decide)]
        rfl
      · dsimp only
        rw [hd, if_pos rfl, hn, Option.elim_some, BitVec.ofNat_add]
        rfl

/-- The bits of a conversion, from the map and the case of the character. -/
theorem convEntry_char (c : Conv) : convEntry (deref (c.char :: rest) - wch 'A') ≠ 0 ∧
    (convEntry (deref (c.char :: rest) - wch 'A') |||
      if deref (c.char :: rest) - wch 'A' &&& 0x20 ≠ 0 then 0 else fUpper) = c.bits := by
  have hderef : deref (c.char :: rest) = deref [c.char] := rfl
  rw [hderef]
  cases c <;> decide

theorem parseConv_char (c : Conv) (fs : FormatState) :
    parseConv fs (c.char :: rest) sf = ({ fs with p := rest }, sf ||| c.bits) := by
  obtain ⟨hne, hbits⟩ := @convEntry_char rest c
  rw [parseConv, List.tail_cons]
  dsimp only
  rw [if_pos hne, BitVec.or_assoc, hbits]

theorem atDigit_char (c : Conv) : atDigit (c.char :: rest) = false := by
  have hat : atDigit (c.char :: rest) = atDigit [c.char] := rfl
  rw [hat]
  cases c <;> decide

theorem deref_char (c : Conv) : deref (c.char :: rest) ≠ wch '.' := by
  have hderef : deref (c.char :: rest) = deref [c.char] := rfl
  rw [hderef]
  cases c <;> decide

theorem atDigit_prec {p : Option ℕ} {pt : List UInt8} (hp : PrecText p pt) (ht : atDigit t = false) :
    atDigit (pt ++ t) = false := by
  cases hp with
  | none => exact ht
  | some n nt _ => exact (show atDigit (ch '.' :: (nt ++ t)) = atDigit [ch '.'] from rfl).trans (by decide)

/-- Behind the flags there is no other flag, and behind the percent sign there is no other one. -/
theorem head_width {n : ℕ} {wt pt : List UInt8} {p : Option ℕ} (hw : DigitsText n wt) (hzero : wt.head? ≠ some (ch '0'))
    (hp : PrecText p pt) (c : Conv) :
    ∃ b t', wt ++ (pt ++ (c.char :: rest)) = b :: t' ∧ flagBit b = none ∧ b ≠ ch '%' := by
  have hdigit : ∀ v < 10, digit v ≠ ch '0' → flagBit (digit v) = none ∧ digit v ≠ ch '%' := by
    decide
  cases hw with
  | none =>
      cases hp with
      | none => exact ⟨c.char, rest, rfl, by cases c <;> decide, by cases c <;> decide⟩
      | some m nt _ => exact ⟨ch '.', nt ++ (c.char :: rest), rfl, by decide, by decide⟩
  | one _ hu =>
      obtain ⟨h1, h2⟩ := hdigit _ hu fun h => hzero (congrArg some h)
      exact ⟨digit _, _, rfl, h1, h2⟩
  | two u v hu hv =>
      obtain ⟨h1, h2⟩ := hdigit u hu fun h => hzero (congrArg some h)
      exact ⟨digit u, _, rfl, h1, h2⟩

theorem flag_ne_percent {b : UInt8} (hb : (flagBit b).isSome) : b ≠ ch '%' := by
  rintro rfl
  exact absurd hb (by decide)

/-- The flags, the width and the precision of a text. -/
theorem parseSpec_text {d : Directive} {wt pt : List UInt8} (hw : DigitsText d.width wt)
    (hzero : wt.head? ≠ some (ch '0')) (hp : PrecText d.prec pt) (fs : FormatState) :
    parseSpec fs (d.flags ++ (wt ++ (pt ++ (d.conv.char :: rest)))) = ({ fs with p := rest }, d.descriptor) := by
  obtain ⟨b, t', ht', hno, -⟩ := @head_width rest _ _ _ _ hw hzero hp d.conv
  have hstop : NoFlag (wt ++ (pt ++ (d.conv.char :: rest))) := by
    rw [ht']
    intro b' hb'
    obtain rfl := Option.some.inj hb'
    exact hno
  have hat := atDigit_prec hp (@atDigit_char rest d.conv)
  have hfold := foldl_flags d.flags false false false false false d.known
  rw [show flagWord false false false false false = 0 by decide] at hfold
  rw [parseSpec, parseFlags_append d.known hstop, hfold]
  dsimp only
  rw [parseWidth_text hw hat]
  dsimp only
  rw [parsePrec_text hp (atDigit_char d.conv) (deref_char d.conv)]
  dsimp only
  rw [parseConv_char]
  simp only [Bool.false_or]
  rfl

/-- **The text of a directive is parsed to its descriptor**, before any other text. -/
theorem parse_spells {d : Directive} (ht : d.Spells t) {fs : FormatState} (hfs : fs.p = t ++ rest) :
    strfmtParse fs = ({ fs with str := fs.p, p := rest }, d.descriptor) := by
  obtain ⟨wt, pt, hw, hzero, hp⟩ := ht
  have htext : fs.p = ch '%' :: (d.flags ++ (wt ++ (pt ++ (d.conv.char :: rest)))) := by
    rw [hfs]
    simp
  have hhead : (d.flags ++ (wt ++ (pt ++ (d.conv.char :: rest)))).headD 0 ≠ ch '%' := by
    obtain ⟨b, t', ht', -, hne⟩ := @head_width rest _ _ _ _ hw hzero hp d.conv
    rw [ht']
    cases hfl : d.flags with
    | nil => exact hne
    | cons b' fl => exact flag_ne_percent (d.known b' (hfl ▸ List.mem_cons_self ..))
  rw [strfmtParse, htext, parseLoop, if_pos rfl, if_neg hhead, if_neg (not_not.2 rfl)]
  exact parseSpec_text hw hzero hp _

/-! ### What is parsed -/

/-- A literal is returned behind the first character. -/
theorem parseLit_type (fs : FormatState) (p next : List UInt8) :
    (parseLit fs p next).2 = strfmtLit ∨ (parseLit fs p next).2 = strfmtEof := by
  rw [parseLit]
  dsimp only
  split
  · exact .inl rfl
  · exact .inr rfl

theorem parseLoop_lit {fs : FormatState} (hlen : t.length < fs.str.length) :
    (parseLoop fs t).2 = strfmtLit ∨ (parseLoop fs t).2 = strfmtEof := by
  induction t with
  | nil => exact parseLit_type ..
  | cons c t ih =>
      have hlen' : t.length < fs.str.length := (Nat.lt_succ_self _).trans hlen
      rw [parseLoop]
      split
      · split
        · exact parseLit_type ..
        · rw [if_pos hlen.ne]
          exact parseLit_type ..
      · exact ih hlen'

/-- The descriptors of the integer conversions. -/
def IsInt (sf : SFormat) : Prop := strfmtType sf = strfmtInt ∨ strfmtType sf = strfmtUint

set_option maxRecDepth 4000 in
/-- The characters of the integer conversions, from the map. -/
theorem convEntry_isInt (hint : IsInt (convEntry (deref t - wch 'A'))) : ∃ c : Conv, ∃ t', t = c.char :: t' := by
  cases t with
  | nil => exact absurd hint (by unfold IsInt; decide)
  | cons b t =>
      have hb : b = ch 'd' ∨ b = ch 'i' ∨ b = ch 'u' ∨ b = ch 'x' ∨ b = ch 'X' ∨ b = ch 'o' := by
        have hderef : deref (b :: t) = deref [b] := rfl
        rw [hderef, IsInt] at hint
        clear hderef
        revert b
        decide
      rcases hb with rfl | rfl | rfl | rfl | rfl | rfl
      · exact ⟨.d, t, rfl⟩
      · exact ⟨.i, t, rfl⟩
      · exact ⟨.u, t, rfl⟩
      · exact ⟨.x, t, rfl⟩
      · exact ⟨.X, t, rfl⟩
      · exact ⟨.o, t, rfl⟩

/-- A conversion of an integer type has one of the characters. -/
theorem parseConv_isInt {fs : FormatState} (hsf : sf &&& 15 = 0) (hint : IsInt (parseConv fs t sf).2) :
    ∃ c : Conv, ∃ t', t = c.char :: t' := by
  refine convEntry_isInt ?_
  rw [parseConv] at hint
  dsimp only at hint
  split at hint
  · have hcase : (if deref t - wch 'A' &&& 0x20 ≠ 0 then 0 else fUpper) &&& 15 = (0 : SFormat) := by
      split <;> decide
    have htype : strfmtType (sf ||| convEntry (deref t - wch 'A') |||
        if deref t - wch 'A' &&& 0x20 ≠ 0 then 0 else fUpper) = strfmtType (convEntry (deref t - wch 'A')) := by
      rw [strfmtType, strfmtType, BitVec.and_or_distrib_right, BitVec.and_or_distrib_right, hsf, hcase]
      simp
    rwa [IsInt, htype] at hint
  · exact absurd (show IsInt strfmtErr from hint) (by unfold IsInt; decide)

/-- The width of any text. -/
theorem exists_width (hno : NoFlag t) :
    ∃ n wt t', t = wt ++ t' ∧ DigitsText n wt ∧ n < 100 ∧ wt.head? ≠ some (ch '0') ∧
      parseWidth t sf = (t', sf ||| BitVec.ofNat 32 n <<< 16) := by
  rw [parseWidth]
  by_cases hd : atDigit t = true
  · obtain ⟨n, u, nt, t', ht, hn, hlt, hhead, hhead', hp⟩ := exists_number hd
    refine ⟨n, nt, t', ht, hn, hlt, ?_, by rw [if_pos hd, hp]⟩
    rw [hhead, ← hhead']
    intro hzero
    have := hno (ch '0') hzero
    revert this
    decide
  · refine ⟨0, [], t, rfl, .none, by decide, nofun, ?_⟩
    rw [if_neg hd]
    simp

/-- The precision of any text. -/
theorem exists_prec (t : List UInt8) (sf : SFormat) :
    ∃ p pt t', t = pt ++ t' ∧ PrecText p pt ∧ (∀ n ∈ p, n < 100) ∧
      parsePrec t sf = (t', sf ||| BitVec.ofNat 32 (p.elim 0 (· + 1)) <<< 24) := by
  rw [parsePrec]
  by_cases hdot : deref t = wch '.'
  · rw [if_pos hdot]
    cases t with
    | nil => exact absurd hdot (by decide)
    | cons b t =>
        have hb : b = ch '.' := by
          rw [← UInt8.toNat_inj, ← deref_cons (t := t), hdot]
          rfl
        subst hb
        rw [List.tail_cons]
        dsimp only
        by_cases hd : atDigit t = true
        · obtain ⟨n, -, nt, t', ht, hn, hlt, -, -, hp⟩ := exists_number hd
          refine ⟨some n, ch '.' :: nt, t', by rw [ht]; rfl, .some n nt hn, fun m hm => Option.some.inj hm ▸ hlt, ?_⟩
          rw [if_pos hd, hp, Option.elim_some, BitVec.ofNat_add]
          rfl
        · refine ⟨some 0, [ch '.'], t, rfl, .some 0 [] .none, fun m hm => Option.some.inj hm ▸ by decide, ?_⟩
          rw [if_neg hd]
          rfl
  · refine ⟨none, [], t, rfl, .none, nofun, ?_⟩
    rw [if_neg hdot]
    simp

/-- **A descriptor of an integer conversion is that of a directive**, and its text was next. -/
theorem parse_directive {fs : FormatState} (hint : IsInt (strfmtParse fs).2) :
    ∃ d : Directive, ∃ t, d.Spells t ∧ fs.p = t ++ (strfmtParse fs).1.p ∧ (strfmtParse fs).2 = d.descriptor := by
  have hlit : ∀ r : FormatState × SFormat, r.2 = strfmtLit ∨ r.2 = strfmtEof → ¬IsInt r.2 := by
    intro r hr
    rcases hr with hr | hr <;> rw [hr, IsInt] <;> decide
  cases hfs : fs.p with
  | nil =>
      rw [strfmtParse, hfs] at hint
      exact absurd hint (hlit _ (parseLit_type ..))
  | cons b p =>
      have hstart := hint
      rw [strfmtParse, hfs, parseLoop] at hstart
      by_cases hb : b = ch '%'
      · subst hb
        rw [if_pos rfl] at hstart
        by_cases hpp : p.headD 0 = ch '%'
        · rw [if_pos hpp] at hstart
          exact absurd hstart (hlit _ (parseLit_type ..))
        · rw [if_neg hpp, if_neg (not_not.2 rfl)] at hstart
          obtain ⟨fl, t₁, rfl, hfl, hno⟩ := exists_flags p
          have hfold := foldl_flags fl false false false false false hfl
          rw [show flagWord false false false false false = 0 by decide] at hfold
          obtain ⟨n, wt, t₂, rfl, hw, hn, hzero, hwidth⟩ := @exists_width t₁
            (fl.foldl (fun x b => x ||| (flagBit b).getD 0) 0) hno
          obtain ⟨q, pt, t₃, rfl, hp, hq, hprec⟩ := exists_prec t₂
            (fl.foldl (fun x b => x ||| (flagBit b).getD 0) 0 ||| BitVec.ofNat 32 n <<< 16)
          rw [parseSpec, parseFlags_append hfl hno] at hstart
          dsimp only at hstart
          rw [hwidth] at hstart
          dsimp only at hstart
          rw [hprec] at hstart
          dsimp only at hstart
          have hlow : (fl.foldl (fun x b => x ||| (flagBit b).getD 0) 0 ||| BitVec.ofNat 32 n <<< 16 |||
              BitVec.ofNat 32 (q.elim 0 (· + 1)) <<< 24) &&& 15 = 0 := by
            have hflags : ∀ l p z s a : Bool, flagWord l p z s a &&& 15 = 0 := by decide
            rw [hfold, BitVec.and_or_distrib_right, BitVec.and_or_distrib_right, hflags, shiftLeft_and (by decide),
              shiftLeft_and (by decide)]
            rfl
          obtain ⟨c, t₄, rfl⟩ := parseConv_isInt hlow hstart
          have hspells := Directive.Spells.intro (d := ⟨fl, n, q, c, hfl, hn, hq⟩) wt pt hw hzero hp
          have hsplit : ch '%' :: (fl ++ (wt ++ (pt ++ (c.char :: t₄)))) =
              (ch '%' :: (fl ++ (wt ++ (pt ++ [c.char])))) ++ t₄ := by simp
          rw [hsplit] at hfs
          have hparse := parse_spells hspells hfs
          exact ⟨_, _, hspells, by rw [hparse]; exact hsplit, by rw [hparse]⟩
      · rw [if_neg hb] at hstart
        exact absurd hstart (hlit _ (parseLoop_lit (Nat.lt_succ_self _)))

end Parser

/-! ### The whole -/

/-- **Integer formatting.**  The text of every directive is parsed to a descriptor of an integer conversion,
and every such descriptor comes from the text of a directive.  With it, every number is printed as the
standard says, into exactly the space that was asked for, unless that does not fit a buffer. -/
theorem putfxint_prints :
    (∀ (d : Directive) (t rest : List UInt8) (fs : FormatState), d.Spells t → fs.p = t ++ rest →
      strfmtParse fs = ({ fs with str := fs.p, p := rest }, d.descriptor) ∧ IsInt d.descriptor) ∧
      ∀ fs : FormatState, IsInt (strfmtParse fs).2 →
        ∃ d : Directive, ∃ t, d.Spells t ∧ fs.p = t ++ (strfmtParse fs).1.p ∧ ∀ k : BitVec 64,
          (fxint (strfmtParse fs).2 k).2 = d.print k ∧
          (fxint (strfmtParse fs).2 k).1.toNat = (d.print k).length ∧
          ∀ sb : SBuf, sb.Wf → (∃ sb', putfxint sb (strfmtParse fs).2 k = .ok sb' ∧ sb'.b = sb.b ++ d.print k ∧ sb'.Wf) ∨
            (putfxint sb (strfmtParse fs).2 k = .error .mem ∧ Buf.ljMaxBuf < sb.len + (d.print k).length) := by
  refine ⟨fun d t rest fs ht hfs => ⟨parse_spells ht hfs, ?_⟩, fun fs hint => ?_⟩
  · rw [IsInt, Directive.descriptor, Directive.packed, pack_type]
    cases d.conv.signed
    · exact .inr rfl
    · exact .inl rfl
  · obtain ⟨d, t, ht, hfs, hd⟩ := parse_directive hint
    refine ⟨d, t, ht, hfs, fun k => ?_⟩
    obtain ⟨htext, hneed⟩ := fxint_pack d k
    rw [hd]
    refine ⟨htext, hneed, fun sb hwf => ?_⟩
    rw [putfxint]
    dsimp only
    rw [hneed, htext]
    by_cases hroom : (d.print k).length ≤ sb.left ∨ sb.len + (d.print k).length ≤ Buf.ljMaxBuf
    · obtain ⟨sb', hmore, hwf', hb, hsz⟩ := Buf.more_ok hwf hroom
      have hlen : sb'.len = sb.len := by rw [SBuf.len, hb, SBuf.len]
      refine .inl ⟨sb'.append (d.print k), ?_, ?_, Buf.append_wf hwf' (by omega)⟩
      · rw [hmore]
        rfl
      · rw [SBuf.append, hb]
    · rw [not_or, not_le, not_le] at hroom
      refine .inr ⟨?_, hroom.2⟩
      rw [Buf.more_error hroom.1 hroom.2]
      rfl

example : (fxint (strfmtParse ⟨[ch '%', ch '+', ch '0', ch '5', ch 'd'], [], 0⟩).2 42).2 =
    [ch '+', ch '0', ch '0', ch '4', ch '2'] := by decide

end Strfmt
