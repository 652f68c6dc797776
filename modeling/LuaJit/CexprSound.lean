/-
**C declarations: constant expressions have their values in C.**

The grammar of C has one nonterminal for each level of precedence.  Its expressions have a value, an
integer of type `int` or `unsigned int`, with the usual arithmetic conversions.  The parser reads
exactly the expression and computes its value modulo `2 ^ 32` and its type.

Main definitions:

* `Cexpr.Ty`, `Cexpr.Val` — the types, and typed integers;
* `Cexpr.Expr`, `Cexpr.Expr.eval` — expressions and their values;
* `Cexpr.Gram` — the grammar;
* `Cexpr.Runs` — a function returns, given enough calls.

Main results:

* `Cexpr.result_rep` — an operator computes its value in C;
* `Cexpr.Gram.parses` — what an expression of each level does to the parser;
* `Cexpr.exprSub_value` — **the parser evaluates constant expressions as C does**.
-/

import LuaJit.Cexpr

set_option relaxedAutoImplicit false
set_option autoImplicit false

namespace Cexpr

open CparseNest (maxDecldepth)

/-! ### Values in C -/

/-- The types of the integers. -/
inductive Ty
  | int | uint
  deriving DecidableEq

/-- An integer with its type. -/
structure Val where
  ty : Ty
  val : ℤ
  deriving DecidableEq

/-- The conversion of an integer to a type. -/
def Ty.conv : Ty → ℤ → ℤ
  | .int, z => Int.bmod z (2 ^ 32)
  | .uint, z => z % 2 ^ 32

/-- The common type of the usual arithmetic conversions. -/
def Ty.common : Ty → Ty → Ty
  | .int, .int => .int
  | _, _ => .uint

/-- A value fits its type. -/
def Val.Fits (v : Val) : Prop := v.ty.conv v.val = v.val

/-- A truth value. -/
def Val.truth (p : Prop) [Decidable p] : Val := ⟨.int, if p then 1 else 0⟩

/-- The unary operators. -/
inductive UnOp
  | plus | minus | compl | not
  deriving DecidableEq

/-- The value of a unary operator. -/
def UnOp.eval (v : Val) : UnOp → Val
  | .plus => v
  | .minus => ⟨v.ty, v.ty.conv (-v.val)⟩
  | .compl => ⟨v.ty, v.ty.conv (-v.val - 1)⟩
  | .not => .truth (v.val = 0)

/-- The value of an operation on the bits of two integers. -/
def bitwise (f : BitVec 32 → BitVec 32 → BitVec 32) (a b : ℤ) : ℤ :=
  (f (BitVec.ofInt 32 a) (BitVec.ofInt 32 b)).toInt

/-- The value of a binary operator.  `none` is a division by zero, a quotient that does not fit, or a
shift by a count outside of the width. -/
def Op.eval (l r : Val) (o : Op) : Option Val :=
  let t := Ty.common l.ty r.ty
  let a := t.conv l.val
  let b := t.conv r.val
  match o with
  | .oror => some (.truth (l.val ≠ 0 ∨ r.val ≠ 0))
  | .andand => some (.truth (l.val ≠ 0 ∧ r.val ≠ 0))
  | .or => some ⟨t, t.conv (bitwise (· ||| ·) a b)⟩
  | .xor => some ⟨t, t.conv (bitwise (· ^^^ ·) a b)⟩
  | .and => some ⟨t, t.conv (bitwise (· &&& ·) a b)⟩
  | .eq => some (.truth (a = b))
  | .ne => some (.truth (a ≠ b))
  | .lt => some (.truth (a < b))
  | .gt => some (.truth (b < a))
  | .le => some (.truth (a ≤ b))
  | .ge => some (.truth (b ≤ a))
  -- the type of a shift is that of its left operand
  | .shl => if 0 ≤ r.val ∧ r.val < 32 then some ⟨l.ty, l.ty.conv (l.val * 2 ^ r.val.toNat)⟩ else none
  | .shr => if 0 ≤ r.val ∧ r.val < 32 then some ⟨l.ty, l.ty.conv (l.val / 2 ^ r.val.toNat)⟩ else none
  | .add => some ⟨t, t.conv (a + b)⟩
  | .sub => some ⟨t, t.conv (a - b)⟩
  | .mul => some ⟨t, t.conv (a * b)⟩
  | .div =>
      if b = 0 ∨ (t = .int ∧ a = -2 ^ 31 ∧ b = -1) then none else some ⟨t, t.conv (a.tdiv b)⟩
  | .mod =>
      if b = 0 ∨ (t = .int ∧ a = -2 ^ 31 ∧ b = -1) then none else some ⟨t, t.conv (a.tmod b)⟩

/-! ### Expressions in C -/

/-- The constant expressions. -/
inductive Expr
  | lit (v : Val)
  | paren (e : Expr)
  | un (o : UnOp) (e : Expr)
  | bin (o : Op) (l r : Expr)
  | cond (c a b : Expr)

/-- The value of an expression, where no operand, evaluated or skipped, is without a value. -/
def Expr.eval : Expr → Option Val
  | .lit v => some v
  | .paren e => e.eval
  | .un o e => e.eval.map fun v => o.eval v
  | .bin o l r => l.eval.bind fun x => r.eval.bind fun y => o.eval x y
  | .cond c a b =>
      c.eval.bind fun x => a.eval.bind fun y => b.eval.map fun z =>
        let t := Ty.common y.ty z.ty
        ⟨t, t.conv (if x.val ≠ 0 then y.val else z.val)⟩

/-- The nesting of unary operators and parentheses. -/
def Expr.depth : Expr → ℕ
  | .lit _ => 1
  | .paren e | .un _ e => e.depth + 1
  | .bin _ l r => max l.depth r.depth
  | .cond c a b => max c.depth (max a.depth b.depth)

/-- The nonterminal of a binary operator: from 1 for `logical-OR-expression` to 10 for
`multiplicative-expression`. -/
def Op.nonterminal : Op → ℕ
  | .mul | .div | .mod => 10
  | .add | .sub => 9
  | .shl | .shr => 8
  | .lt | .gt | .le | .ge => 7
  | .eq | .ne => 6
  | .and => 5
  | .xor => 4
  | .or => 3
  | .andand => 2
  | .oror => 1

/-- The token of a unary operator. -/
def UnOp.tok : UnOp → Tok
  | .plus => .op .add
  | .minus => .op .sub
  | .compl => .compl
  | .not => .not

/-- A value as the parser has it. -/
def Val.rep (v : Val) : CPValue :=
  ⟨BitVec.ofInt 32 v.val, match v.ty with | .int => ctidInt32 | .uint => ctidUint32⟩

/-- The grammar of C, by the nonterminal: 0 is `conditional-expression`, 11 is `unary-expression`, and
between them are those of the binary operators. -/
inductive Gram : ℕ → List Tok → Expr → Prop
  | lit (v : Val) : v.Fits → Gram 11 [.integer v.rep] (.lit v)
  | paren {ts : List Tok} {e : Expr} : Gram 0 ts e →
      Gram 11 (.lparen :: (ts ++ [.rparen])) (.paren e)
  | un (o : UnOp) {ts : List Tok} {e : Expr} : Gram 11 ts e → Gram 11 (o.tok :: ts) (.un o e)
  | bin (o : Op) {tl tr : List Tok} {l r : Expr} : Gram o.nonterminal tl l →
      Gram (o.nonterminal + 1) tr r → Gram o.nonterminal (tl ++ .op o :: tr) (.bin o l r)
  | cond {tc ta tb : List Tok} {c a b : Expr} : Gram 1 tc c → Gram 0 ta a → Gram 0 tb b →
      Gram 0 (tc ++ .question :: (ta ++ .colon :: tb)) (.cond c a b)
  | lift {p : ℕ} {ts : List Tok} {e : Expr} : p ≤ 10 → Gram (p + 1) ts e → Gram p ts e

/-! ### Operators -/

/-- The integer that 32 bits stand for. -/
def Ty.read : Ty → BitVec 32 → ℤ
  | .int, x => x.toInt
  | .uint, x => x.toNat

theorem conv_eq (t : Ty) (z : ℤ) : t.conv z = t.read (BitVec.ofInt 32 z) := by
  cases t with
  | int => exact (BitVec.toInt_ofInt z).symm
  | uint =>
      simp only [Ty.conv, Ty.read, BitVec.toNat_ofInt]
      lia

@[simp] theorem ofInt_read (t : Ty) (x : BitVec 32) : BitVec.ofInt 32 (t.read x) = x := by
  cases t with
  | int => exact BitVec.ofInt_toInt
  | uint => simp [Ty.read]

@[simp] theorem ofInt_conv (t : Ty) (z : ℤ) : BitVec.ofInt 32 (t.conv z) = BitVec.ofInt 32 z := by
  rw [conv_eq, ofInt_read]

@[simp] theorem conv_conv (t : Ty) (z : ℤ) : t.conv (t.conv z) = t.conv z := by
  rw [conv_eq t (t.conv z), ofInt_conv, ← conv_eq]

@[simp] theorem conv_read (t t' : Ty) (x : BitVec 32) : t.conv (t'.read x) = t.read x := by
  rw [conv_eq, ofInt_read]

theorem read_inj (t : Ty) {x y : BitVec 32} : t.read x = t.read y ↔ x = y :=
  ⟨fun h => by rw [← ofInt_read t x, h, ofInt_read], congrArg _⟩

theorem read_eq_zero (t : Ty) {x : BitVec 32} : t.read x = 0 ↔ x = 0 := by
  have hzero : t.read 0 = 0 := by cases t <;> rfl
  rw [← hzero, read_inj]

/-- The id of a type. -/
def Ty.id : Ty → ℕ
  | .int => ctidInt32
  | .uint => ctidUint32

/-- The value of 32 bits. -/
def Val.of (t : Ty) (x : BitVec 32) : Val := ⟨t, t.read x⟩

theorem rep_mk (t : Ty) (z : ℤ) : (⟨t, z⟩ : Val).rep = ⟨BitVec.ofInt 32 z, t.id⟩ := by
  cases t <;> rfl

theorem rep_of (t : Ty) (x : BitVec 32) : (Val.of t x).rep = ⟨x, t.id⟩ := by
  rw [Val.of, rep_mk, ofInt_read]

theorem Val.Fits.eq_of {v : Val} (h : v.Fits) : v = Val.of v.ty (BitVec.ofInt 32 v.val) := by
  obtain ⟨t, z⟩ := v
  have hz : t.conv z = z := h
  rw [Val.of, ← conv_eq, hz]

theorem fits_conv (t : Ty) (z : ℤ) : (⟨t, t.conv z⟩ : Val).Fits := conv_conv t z

theorem fits_truth (p : Prop) [Decidable p] : (Val.truth p).Fits := by
  unfold Val.truth Val.Fits
  split <;> rfl

theorem rep_truth (p : Prop) [Decidable p] : (Val.truth p).rep = flag (decide p) := by
  by_cases h : p <;> simp [Val.truth, h, rep_mk, flag, Ty.id]

theorem id_eq_int {t : Ty} : t.id = ctidInt32 ↔ t = .int := by cases t <;> decide

theorem promote_id (t t' : Ty) (x y : BitVec 32) :
    promote ⟨x, t.id⟩ ⟨y, t'.id⟩ = (t.common t').id := by
  cases t <;> cases t' <;> rfl

/-- A comparison of the bits is one of the converted values. -/
theorem compare_id (t t' : Ty) (x y : BitVec 32) {signed unsigned : BitVec 32 → BitVec 32 → Bool}
    {R : ℤ → ℤ → Prop} [DecidableRel R] (hs : signed x y = decide (R x.toInt y.toInt))
    (hu : unsigned x y = decide (R x.toNat y.toNat)) :
    compare signed unsigned ⟨x, t.id⟩ ⟨y, t'.id⟩ =
      (Val.truth (R ((t.common t').read x) ((t.common t').read y))).rep := by
  rw [rep_truth]
  cases t <;> cases t'
  case int.int => exact congrArg flag hs
  all_goals exact congrArg flag hu

/-- A division of the bits is one of the converted values. -/
theorem divide_id (t t' : Ty) (x y : BitVec 32)
    {signed unsigned : BitVec 32 → BitVec 32 → BitVec 32} {f : ℤ → ℤ → ℤ}
    (hs : signed x y = BitVec.ofInt 32 (f x.toInt y.toInt))
    (hu : unsigned x y = BitVec.ofInt 32 (f x.toNat y.toNat))
    (hdef : ¬((t.common t').read y = 0 ∨
      (t.common t' = .int ∧ (t.common t').read x = -2 ^ 31 ∧ (t.common t').read y = -1))) :
    divide signed unsigned ⟨x, t.id⟩ ⟨y, t'.id⟩ =
      some ⟨BitVec.ofInt 32 (f ((t.common t').read x) ((t.common t').read y)),
        (t.common t').id⟩ := by
  rw [read_eq_zero] at hdef
  simp only [divide, promote_id, id_eq_int]
  rw [if_neg]
  · cases t <;> cases t'
    case int.int =>
      rw [if_pos (by decide), hs]
      rfl
    all_goals
      rw [if_neg (by decide), hu]
      rfl
  · rintro (h | ⟨ht, hx, hy⟩)
    · exact hdef (.inl h)
    · refine hdef (.inr ⟨ht, ?_, ?_⟩)
      · rw [ht, hx]; rfl
      · rw [ht, hy]; rfl

theorem ofInt_sub (a b : ℤ) : BitVec.ofInt 32 (a - b) = BitVec.ofInt 32 a - BitVec.ofInt 32 b := by
  rw [Int.sub_eq_add_neg, BitVec.ofInt_add, BitVec.ofInt_neg, BitVec.sub_eq_add_neg]

/-- A number that 32 bits stand for gives them back. -/
theorem ofNat_eq {z : BitVec 32} {m : ℕ} (h : z.toNat = m) : BitVec.ofNat 32 m = z := by
  simp [← h]

theorem ofInt_mul_two_pow (t : Ty) (x : BitVec 32) (n : ℕ) :
    BitVec.ofInt 32 (t.read x * 2 ^ n) = x <<< n := by
  rw [BitVec.ofInt_mul, ofInt_read, BitVec.shiftLeft_eq_mul_twoPow]
  refine congrArg _ (BitVec.eq_of_toNat_eq ?_)
  have hpow : BitVec.ofInt 32 (2 ^ n) = BitVec.ofNat 32 (2 ^ n) := by
    rw [← BitVec.ofInt_natCast]
    simp
  rw [hpow, BitVec.toNat_twoPow, BitVec.toNat_ofNat]

theorem ofInt_int_div (x : BitVec 32) (n : ℕ) :
    BitVec.ofInt 32 (x.toInt / 2 ^ n) = x.sshiftRight n := by
  rw [BitVec.sshiftRight_eq, Int.shiftRight_eq_div_pow]
  simp

theorem ofInt_nat_div (x : BitVec 32) (n : ℕ) :
    BitVec.ofInt 32 ((x.toNat : ℤ) / 2 ^ n) = x >>> n := by
  have hdiv : (x.toNat : ℤ) / 2 ^ n = ((x.toNat >>> n : ℕ) : ℤ) := by
    rw [Nat.shiftRight_eq_div_pow]
    simp
  rw [hdiv, BitVec.ofInt_natCast]
  exact ofNat_eq (BitVec.toNat_ushiftRight x n)

/-- A shift count that fits the width is the same as bits. -/
theorem toNat_read {t : Ty} {y : BitVec 32} (h : 0 ≤ t.read y ∧ t.read y < 32) :
    (t.read y).toNat = y.toNat := by
  cases t with
  | uint => simp [Ty.read]
  | int =>
      simp only [Ty.read] at h ⊢
      rw [BitVec.toInt_eq_toNat_cond] at h ⊢
      split at h <;> split <;> omega

theorem result_of {o : Op} {t t' : Ty} {x y : BitVec 32} {v : Val}
    (h : o.eval (.of t x) (.of t' y) = some v) :
    o.result ⟨x, t.id⟩ ⟨y, t'.id⟩ = some v.rep ∧ v.Fits := by
  simp only [Op.eval, Val.of, conv_read] at h
  cases o with
  | oror =>
      cases h
      refine ⟨congrArg some (Eq.trans (congrArg flag ?_) (rep_truth _).symm), fits_truth _⟩
      exact Bool.eq_iff_iff.2 (by simp [read_eq_zero])
  | andand =>
      cases h
      refine ⟨congrArg some (Eq.trans (congrArg flag ?_) (rep_truth _).symm), fits_truth _⟩
      exact Bool.eq_iff_iff.2 (by simp [read_eq_zero])
  | eq =>
      cases h
      refine ⟨congrArg some (Eq.trans (congrArg flag ?_) (rep_truth _).symm), fits_truth _⟩
      by_cases hxy : x = y <;> simp [read_inj, hxy]
  | ne =>
      cases h
      refine ⟨congrArg some (Eq.trans (congrArg flag ?_) (rep_truth _).symm), fits_truth _⟩
      by_cases hxy : x = y <;> simp [read_inj, hxy]
  | or | xor | and =>
      cases h
      refine ⟨congrArg some ?_, fits_conv _ _⟩
      rw [rep_mk, ofInt_conv, bitwise, BitVec.ofInt_toInt, ofInt_read, ofInt_read, promote_id]
  | add =>
      cases h
      refine ⟨congrArg some ?_, fits_conv _ _⟩
      rw [rep_mk, ofInt_conv, BitVec.ofInt_add, ofInt_read, ofInt_read, promote_id]
  | sub =>
      cases h
      refine ⟨congrArg some ?_, fits_conv _ _⟩
      rw [rep_mk, ofInt_conv, ofInt_sub, ofInt_read, ofInt_read, promote_id]
  | mul =>
      cases h
      refine ⟨congrArg some ?_, fits_conv _ _⟩
      rw [rep_mk, ofInt_conv, BitVec.ofInt_mul, ofInt_read, ofInt_read, promote_id]
  | lt =>
      cases h
      exact ⟨congrArg some (compare_id t t' x y rfl (by simp [BitVec.ult])), fits_truth _⟩
  | gt =>
      cases h
      exact ⟨congrArg some (compare_id (R := fun a b => b < a) t t' x y rfl
        (by simp [BitVec.ult])), fits_truth _⟩
  | le =>
      cases h
      exact ⟨congrArg some (compare_id t t' x y rfl (by simp [BitVec.ule])), fits_truth _⟩
  | ge =>
      cases h
      exact ⟨congrArg some (compare_id (R := fun a b => b ≤ a) t t' x y rfl
        (by simp [BitVec.ule])), fits_truth _⟩
  | shl =>
      obtain ⟨hn, h⟩ := Option.ite_none_right_eq_some.1 h
      cases h
      refine ⟨congrArg some ?_, fits_conv _ _⟩
      rw [rep_mk, ofInt_conv, toNat_read hn, ofInt_mul_two_pow]
  | shr =>
      obtain ⟨hn, h⟩ := Option.ite_none_right_eq_some.1 h
      cases h
      refine ⟨congrArg some ?_, fits_conv _ _⟩
      rw [rep_mk, ofInt_conv, toNat_read hn]
      cases t with
      | int => exact congrArg (CPValue.mk · _) (ofInt_int_div x _).symm
      | uint => exact congrArg (CPValue.mk · _) (ofInt_nat_div x _).symm
  | div =>
      obtain ⟨hdef, h⟩ := Option.ite_none_left_eq_some.1 h
      cases h
      refine ⟨?_, fits_conv _ _⟩
      rw [rep_mk, ofInt_conv]
      refine divide_id t t' x y (f := Int.tdiv) ?_ ?_ hdef
      · apply BitVec.eq_of_toInt_eq
        rw [BitVec.toInt_sdiv, BitVec.toInt_ofInt]
      · rw [← Int.ofNat_tdiv, BitVec.ofInt_natCast]
        exact (ofNat_eq BitVec.toNat_udiv).symm
  | mod =>
      obtain ⟨hdef, h⟩ := Option.ite_none_left_eq_some.1 h
      cases h
      refine ⟨?_, fits_conv _ _⟩
      rw [rep_mk, ofInt_conv]
      refine divide_id t t' x y (f := Int.tmod) ?_ ?_ hdef
      · rw [← BitVec.toInt_srem, BitVec.ofInt_toInt]
      · rw [← Int.ofNat_tmod, BitVec.ofInt_natCast]
        exact (ofNat_eq BitVec.toNat_umod).symm

/-- An operator computes its value in C. -/
theorem result_rep {o : Op} {l r v : Val} (hl : l.Fits) (hr : r.Fits) (h : o.eval l r = some v) :
    o.result l.rep r.rep = some v.rep ∧ v.Fits := by
  rw [hl.eq_of, hr.eq_of] at h ⊢
  rw [rep_of, rep_of]
  exact result_of h

/-- The conversion of a value to another type only reads its bits. -/
theorem rep_conv {v : Val} (t : Ty) : (⟨t, t.conv v.val⟩ : Val).rep = ⟨v.rep.u32, t.id⟩ := by
  rw [rep_mk, ofInt_conv]
  rfl

theorem rep_id (v : Val) : v.rep.id = v.ty.id := by
  obtain ⟨t, z⟩ := v
  cases t <;> rfl

theorem rep_eq_zero {v : Val} (h : v.Fits) : v.rep.u32 = 0 ↔ v.val = 0 := by
  rw [h.eq_of, rep_of]
  exact (read_eq_zero _).symm

/-- The unary operators of the parser. -/
def UnOp.result (k : CPValue) : UnOp → CPValue
  | .plus => k
  | .minus => { k with u32 := -k.u32 }
  | .compl => { k with u32 := ~~~k.u32 }
  | .not => flag (k.u32 == 0)

theorem unary_rep (o : UnOp) {v : Val} (hv : v.Fits) :
    o.result v.rep = (o.eval v).rep ∧ (o.eval v).Fits := by
  cases o with
  | plus => exact ⟨rfl, hv⟩
  | minus =>
      refine ⟨?_, fits_conv _ _⟩
      simp only [UnOp.result, UnOp.eval]
      rw [rep_mk v.ty (v.ty.conv _), ofInt_conv, BitVec.ofInt_neg, rep_id]
      rfl
  | compl =>
      refine ⟨?_, fits_conv _ _⟩
      simp only [UnOp.result, UnOp.eval]
      rw [rep_mk v.ty (v.ty.conv _), ofInt_conv, ofInt_sub, BitVec.ofInt_neg, BitVec.not_eq_neg_add,
        rep_id]
      rfl
  | not =>
      refine ⟨?_, fits_truth _⟩
      simp only [UnOp.result, UnOp.eval]
      rw [rep_truth]
      refine congrArg flag (Bool.eq_iff_iff.2 ?_)
      simp [← rep_eq_zero hv]

/-! ### Runs of the parser -/

/-- A function with a number of calls returns `r` if it may make enough of them. -/
def Runs {α : Type} (p : ℕ → Option α) (r : α) : Prop := ∃ n, ∀ m ≥ n, p m = some r

theorem Runs.step {α β : Type} {p : ℕ → Option α} {q : ℕ → Option β} {r : α} {r' : β}
    (h : Runs q r') (hpq : ∀ n, q n = some r' → p (n + 1) = some r) : Runs p r := by
  obtain ⟨n, hn⟩ := h
  refine ⟨n + 1, fun m hm => ?_⟩
  obtain ⟨m, rfl⟩ : ∃ m', m = m' + 1 := ⟨m - 1, by lia⟩
  exact hpq m (hn m (by omega))

theorem Runs.of_succ {α : Type} {p : ℕ → Option α} {r : α} (h : ∀ n, p (n + 1) = some r) :
    Runs p r := by
  refine ⟨1, fun m hm => ?_⟩
  obtain ⟨m, rfl⟩ : ∃ m', m = m' + 1 := ⟨m - 1, by lia⟩
  exact h m

theorem Runs.bind {α β : Type} {p : ℕ → Option α} {q : α → ℕ → Option β} {a : α} {r : β}
    (hp : Runs p a) (hq : Runs (q a) r) : Runs (fun n => (p n).bind fun x => q x n) r := by
  obtain ⟨n, hn⟩ := hp
  obtain ⟨n', hn'⟩ := hq
  refine ⟨max n n', fun m hm => ?_⟩
  simp only [hn m (by lia), Option.bind_some, hn' m (by lia)]

theorem Runs.map {α β : Type} {p : ℕ → Option α} {a : α} (f : α → β) (hp : Runs p a) :
    Runs (fun n => (p n).map f) (f a) := by
  obtain ⟨n, hn⟩ := hp
  exact ⟨n, fun m hm => by simp only [hn m hm, Option.map_some]⟩

variable {σ : Type} (types : Types σ)

/-- A token that may stand behind an expression of a nonterminal. -/
def Follows (p : ℕ) : Tok → Prop
  | .lbrack | .dot | .deref => False
  | .question => 0 < p
  | .op o => 0 < p ∧ o.level ≤ p
  | _ => True

theorem Follows.mono {p : ℕ} {t : Tok} (h : Follows p t) : Follows (p + 1) t := by
  cases t <;> simp only [Follows] at h ⊢ <;> lia

/-- No postfix operator follows. -/
theorem runs_postfix {p : ℕ} {s : CPState σ} (h : Follows p s.tok) (k : CPValue) :
    Runs (fun n => exprPostfix types n s k) (k, s) := by
  refine .of_succ fun n => ?_
  unfold exprPostfix
  split <;> simp_all [Follows]

/-- No infix operator of the level follows. -/
theorem runs_infix_stop {p : ℕ} {s : CPState σ} (h : Follows p s.tok) (k : CPValue) {q : ℕ}
    (hq : p < q ∨ p = 0) : Runs (fun n => exprInfix types n s k q) (k, s) := by
  refine .of_succ fun n => ?_
  unfold exprInfix
  split
  · next ht =>
      rw [ht] at h
      exact if_neg (by simp only [Follows] at h; omega)
  · next o ht =>
      rw [ht] at h
      exact if_neg (by simp only [Follows] at h; omega)
  · rfl

/-- What an expression does to the parser: it is read as a whole, and its value goes on as the left
operand of what follows. -/
structure Parses (p : ℕ) (ts : List Tok) (e : Expr) (v : Val) : Prop where
  fits : v.Fits
  unary : p = 11 → ∀ (s : CPState σ) (rest : List Tok), s.toks = ts ++ rest →
    s.depth + e.depth ≤ maxDecldepth → Follows p (rest.headD .eof) →
    Runs (fun n => exprUnary types n s) (v.rep, { s with toks := rest })
  sub : p ≤ 10 → ∀ (s : CPState σ) (rest : List Tok), s.toks = ts ++ rest →
    s.depth + e.depth ≤ maxDecldepth → Follows p (rest.headD .eof) →
    ∀ q ≤ p, ∀ r, Runs (fun n => exprInfix types n { s with toks := rest } v.rep q) r →
      Runs (fun n => exprSub types n s q) r

variable {types}

theorem Parses.lift {p : ℕ} {ts : List Tok} {e : Expr} {v : Val} (hp : p ≤ 10)
    (h : Parses types (p + 1) ts e v) : Parses types p ts e v where
  fits := h.fits
  unary h11 := by omega
  sub _ s rest hs hd hf q hq r hr := by
    by_cases hp' : p = 10
    · subst hp'
      have hu := h.unary rfl s rest hs hd hf.mono
      refine Runs.step (hu.bind (q := fun (x : CPValue × CPState σ) n =>
        exprInfix types n x.2 x.1 q) hr) fun n hn => ?_
      rw [exprSub]
      exact hn
    · exact h.sub (by lia) s rest hs hd hf.mono q (by omega) r hr

/-- A unary expression, where its prefix is read as a whole. -/
theorem runs_unary {p : ℕ} {s : CPState σ} {rest : List Tok} {k : CPValue}
    (hd : s.depth + 1 ≤ maxDecldepth) (hf : Follows p (rest.headD .eof))
    (hpre : Runs (fun n => exprPrefix types n { s with depth := s.depth + 1 })
      (k, { s with toks := rest, depth := s.depth + 1 })) :
    Runs (fun n => exprUnary types n s) (k, { s with toks := rest }) := by
  have hpost := runs_postfix types (s := { s with toks := rest, depth := s.depth + 1 }) hf k
  have hdone := hpost.map fun x : CPValue × CPState σ => (x.1, { x.2 with depth := x.2.depth - 1 })
  refine Runs.step (hpre.bind (q := fun (x : CPValue × CPState σ) n =>
    (exprPostfix types n x.2 x.1).map fun x => (x.1, { x.2 with depth := x.2.depth - 1 })) hdone)
    fun n hn => ?_
  rw [exprUnary, if_neg (not_lt.2 hd)]
  exact hn

/-- An expression behind which no operator of the level stands. -/
theorem Parses.runs {p p' q : ℕ} {ts : List Tok} {e : Expr} {v : Val} (h : Parses types p ts e v)
    (hp : p ≤ 10) {s : CPState σ} {rest : List Tok} (hs : s.toks = ts ++ rest)
    (hd : s.depth + e.depth ≤ maxDecldepth) (hf : Follows p (rest.headD .eof))
    (hf' : Follows p' (rest.headD .eof)) (hq : q ≤ p) (hstop : p' < q ∨ p' = 0) :
    Runs (fun n => exprSub types n s q) (v.rep, { s with toks := rest }) :=
  h.sub hp s rest hs hd hf q hq _
    (runs_infix_stop types (s := { s with toks := rest }) hf' v.rep hstop)

/-- A full expression without a comma behind it. -/
theorem Parses.runs_comma {ts : List Tok} {e : Expr} {v : Val} (h : Parses types 0 ts e v)
    {s : CPState σ} {rest : List Tok} (hs : s.toks = ts ++ rest)
    (hd : s.depth + e.depth ≤ maxDecldepth) (hf : Follows 0 (rest.headD .eof))
    (hcomma : rest.headD .eof ≠ .comma) :
    Runs (fun n => exprComma types n s) (v.rep, { s with toks := rest }) := by
  refine (h.runs (by omega) hs hd hf hf le_rfl (.inr rfl)).step fun n hn => ?_
  rw [exprComma, hn, Option.bind_some]
  exact if_neg hcomma

theorem Parses.lit {v : Val} (hv : v.Fits) :
    Parses types 11 [.integer v.rep] (.lit v) v where
  fits := hv
  unary _ s rest hs hd hf := by
    refine runs_unary hd hf (.of_succ fun n => ?_)
    simp [exprPrefix, CPState.tok, CPState.next, hs]
  sub h := by omega

theorem Parses.un (o : UnOp) {ts : List Tok} {e : Expr} {v : Val} (h : Parses types 11 ts e v) :
    Parses types 11 (o.tok :: ts) (.un o e) (o.eval v) where
  fits := (unary_rep o h.fits).2
  unary _ s rest hs hd hf := by
    have hd' : s.depth + 1 + e.depth ≤ maxDecldepth := by
      simp only [Expr.depth] at hd
      omega
    have hoperand := h.unary rfl { s with toks := ts ++ rest, depth := s.depth + 1 } rest rfl hd' hf
    rw [← (unary_rep o h.fits).1]
    refine runs_unary (by omega) hf ((hoperand.map fun x => (o.result x.1, x.2)).step fun n hn => ?_)
    cases o <;> simpa [exprPrefix, CPState.tok, CPState.next, hs, UnOp.tok, UnOp.result] using hn
  sub h := by omega

theorem Gram.head {p : ℕ} {ts : List Tok} {e : Expr} (h : Gram p ts e) (rest : List Tok) :
    istypedecl ((ts ++ rest).headD .eof) = false ∧ ts ≠ [] := by
  induction h generalizing rest with
  | lit => exact ⟨rfl, nofun⟩
  | paren => exact ⟨rfl, nofun⟩
  | un o => exact ⟨by cases o <;> rfl, nofun⟩
  | bin o _ _ ihl _ =>
      rw [List.append_assoc]
      exact ⟨(ihl _).1, by simp⟩
  | cond _ _ _ ihc _ _ =>
      rw [List.append_assoc]
      exact ⟨(ihc _).1, by simp⟩
  | lift _ _ ih => exact ih rest

theorem Parses.paren {ts : List Tok} {e : Expr} {v : Val} (hg : Gram 0 ts e)
    (h : Parses types 0 ts e v) :
    Parses types 11 (.lparen :: (ts ++ [.rparen])) (.paren e) v where
  fits := h.fits
  unary _ s rest hs hd hf := by
    have hd' : s.depth + 1 + e.depth ≤ maxDecldepth := by
      simp only [Expr.depth] at hd
      omega
    have hinner := h.runs_comma (s := { s with toks := ts ++ .rparen :: rest, depth := s.depth + 1 })
      rfl hd' trivial nofun
    refine runs_unary (by omega) hf (hinner.step fun n hn => ?_)
    have htype := (hg.head (.rparen :: rest)).1
    simp only [exprPrefix, CPState.tok, CPState.next, hs, List.cons_append, List.headD_cons,
      List.tail_cons, List.append_assoc, List.nil_append]
    rw [if_neg (by simpa using htype), hn]
    rfl
  sub h := by omega

theorem level_eq (o : Op) : o.level = o.nonterminal := by cases o <;> rfl

theorem Parses.bin (o : Op) {tl tr : List Tok} {l r : Expr} {x y v : Val}
    (hl : Parses types o.nonterminal tl l x) (hr : Parses types (o.nonterminal + 1) tr r y)
    (hv : o.eval x y = some v) :
    Parses types o.nonterminal (tl ++ .op o :: tr) (.bin o l r) v where
  fits := (result_rep hl.fits hr.fits hv).2
  unary h := by cases o <;> cases h
  sub hp s rest hs hd hf q hq res hres := by
    have hlevel := level_eq o
    have hdl : s.depth + l.depth ≤ maxDecldepth := by
      simp only [Expr.depth] at hd
      lia
    have hdr : s.depth + r.depth ≤ maxDecldepth := by
      simp only [Expr.depth] at hd
      lia
    have hpos : 0 < o.nonterminal := by cases o <;> decide
    refine hl.sub hp s (.op o :: (tr ++ rest)) (by simpa using hs) hdl
      ⟨hpos, hlevel.le⟩ q hq res ?_
    have hright : Runs (fun n => if o.level = 10 then
        exprUnary types n { s with toks := tr ++ rest } else
        exprSub types n { s with toks := tr ++ rest } (o.level + 1))
        (y.rep, { s with toks := rest }) := by
      by_cases h10 : o.level = 10
      · simp only [if_pos h10]
        exact hr.unary (by lia) _ rest rfl hdr hf.mono
      · simp only [if_neg h10]
        exact hr.runs (by lia) rfl hdr hf.mono hf (by lia) (.inl (by lia))
    refine Runs.step (hright.bind (q := fun (x' : CPValue × CPState σ) n =>
      (o.result x.rep x'.1).bind fun k => exprInfix types n x'.2 k q) (r := res) ?_) fun n hn => ?_
    · simp only [(result_rep hl.fits hr.fits hv).1, Option.bind_some]
      exact hres
    · simp only [exprInfix, CPState.tok, CPState.next, List.headD_cons, List.tail_cons]
      rw [if_pos (by omega)]
      exact hn

theorem Parses.cond {tc ta tb : List Tok} {c a b : Expr} {x y z : Val}
    (hc : Parses types 1 tc c x) (ha : Parses types 0 ta a y) (hb : Parses types 0 tb b z) :
    Parses types 0 (tc ++ .question :: (ta ++ .colon :: tb)) (.cond c a b)
      ⟨y.ty.common z.ty, (y.ty.common z.ty).conv (if x.val ≠ 0 then y.val else z.val)⟩ where
  fits := fits_conv _ _
  unary h := by cases h
  sub _ s rest hs hd hf q hq res hres := by
    obtain rfl : q = 0 := by omega
    simp only [Expr.depth] at hd
    refine hc.sub (by omega) s (.question :: (ta ++ .colon :: (tb ++ rest))) (by simpa using hs)
      (by lia) Nat.one_pos 0 (by omega) res ?_
    have hsecond := ha.runs_comma (s := { s with toks := ta ++ .colon :: (tb ++ rest) }) rfl
      (by dsimp only; lia) trivial nofun
    have hthird := hb.runs (s := { s with toks := tb ++ rest }) (by omega) rfl
      (by dsimp only; lia) hf hf le_rfl (.inr rfl)
    -- the value of the conditional operator
    have hid : (if z.rep.id < y.rep.id then y.rep.id else z.rep.id) = (y.ty.common z.ty).id := by
      rw [rep_id, rep_id]
      cases y.ty <;> cases z.ty <;> rfl
    have hval : (⟨if x.rep.u32 ≠ 0 then y.rep.u32 else z.rep.u32,
        if z.rep.id < y.rep.id then y.rep.id else z.rep.id⟩ : CPValue) =
        (⟨y.ty.common z.ty, (y.ty.common z.ty).conv (if x.val ≠ 0 then y.val else z.val)⟩ :
          Val).rep := by
      rw [hid]
      by_cases hx : x.val = 0
      · rw [if_neg (not_not.2 ((rep_eq_zero hc.fits).2 hx)), if_neg (not_not.2 hx)]
        exact (rep_conv _).symm
      · rw [if_pos (mt (rep_eq_zero hc.fits).1 hx), if_pos hx]
        exact (rep_conv _).symm
    have hrest := hthird.bind (q := fun (w : CPValue × CPState σ) n => exprInfix types n w.2
      ⟨if x.rep.u32 ≠ 0 then y.rep.u32 else w.1.u32,
        if w.1.id < y.rep.id then y.rep.id else w.1.id⟩ 0) (by rw [hval]; exact hres)
    refine Runs.step (hsecond.bind (q := fun (u : CPValue × CPState σ) n =>
      (u.2.check .colon).bind fun s => (exprSub types n s 0).bind fun (w : CPValue × CPState σ) =>
        exprInfix types n w.2 ⟨if x.rep.u32 ≠ 0 then u.1.u32 else w.1.u32,
          if w.1.id < u.1.id then u.1.id else w.1.id⟩ 0) (r := res) ?_) fun n hn => ?_
    · exact hrest
    · simp only [exprInfix, CPState.tok, CPState.next, List.headD_cons, List.tail_cons]
      exact hn

/-- An expression of a nonterminal is one of each nonterminal of lower precedence. -/
theorem Gram.lifts {p q : ℕ} {ts : List Tok} {e : Expr} (h : Gram q ts e) (hpq : p ≤ q)
    (hq : q ≤ 11) : Gram p ts e := by
  induction q, hpq using Nat.le_induction with
  | base => exact h
  | succ q _ ih => exact ih (.lift (by omega) h) (by omega)

/-- What an expression of each nonterminal does to the parser. -/
theorem Gram.parses {p : ℕ} {ts : List Tok} {e : Expr} (h : Gram p ts e) {v : Val}
    (hv : e.eval = some v) : Parses types p ts e v := by
  induction h generalizing v with
  | lit x hx =>
      cases hv
      exact .lit hx
  | paren hg ih => exact .paren hg (ih hv)
  | un o _ ih =>
      obtain ⟨x, hx, rfl⟩ := Option.map_eq_some_iff.1 hv
      exact .un o (ih hx)
  | bin o _ _ ihl ihr =>
      obtain ⟨x, hx, hv⟩ := Option.bind_eq_some_iff.1 hv
      obtain ⟨y, hy, hv⟩ := Option.bind_eq_some_iff.1 hv
      exact .bin o (ihl hx) (ihr hy) hv
  | cond _ _ _ ihc iha ihb =>
      obtain ⟨x, hx, hv⟩ := Option.bind_eq_some_iff.1 hv
      obtain ⟨y, hy, hv⟩ := Option.bind_eq_some_iff.1 hv
      obtain ⟨z, hz, rfl⟩ := Option.map_eq_some_iff.1 hv
      exact .cond (ihc hx) (iha hy) (ihb hz)
  | lift hp _ ih => exact .lift hp (ih hv)

/-- A constant expression whose operands have values, within the depth limit, is read exactly, and it
has its value in C, modulo `2 ^ 32`, and its type. -/
theorem exprSub_value (types : Types σ) (s : CPState σ) {ts rest : List Tok} {e : Expr} {v : Val}
    (hg : Gram 0 ts e) (hv : e.eval = some v) (hs : s.toks = ts ++ rest)
    (hdepth : s.depth + e.depth ≤ maxDecldepth) (hrest : Follows 0 (rest.headD .eof)) :
    ∃ n, ∀ fuel ≥ n,
      exprSub types fuel s 0 =
        some (⟨BitVec.ofInt 32 v.val, v.ty.id⟩, { s with toks := rest }) := by
  rw [← rep_mk]
  exact (hg.parses hv).runs (by omega) hs hdepth hrest hrest le_rfl (.inr rfl)

/-- `1 - 2 < 3u ? 4 : 5` without anything behind it: 4294967295 is not less than 3. -/
theorem exprSub_value_cond : ∃ n, ∀ fuel ≥ n,
    exprSub (σ := Unit) ⟨fun _ => none, fun _ _ => (0, 0), fun _ _ => none, fun _ _ => none,
        fun _ _ _ _ => none⟩ fuel
      ⟨[.integer ⟨1, 9⟩, .op .sub, .integer ⟨2, 9⟩, .op .lt, .integer ⟨3, 10⟩, .question,
        .integer ⟨4, 9⟩, .colon, .integer ⟨5, 9⟩], 0, ()⟩ 0 =
    some (⟨5, 9⟩, ⟨[], 0, ()⟩) := by
  have hlit (p : ℕ) (hp : p ≤ 11) (t : Ty) (z : ℤ) (h : (⟨t, z⟩ : Val).Fits) :
      Gram p [.integer (⟨t, z⟩ : Val).rep] (.lit ⟨t, z⟩) := (Gram.lit _ h).lifts hp le_rfl
  have hsub : Gram 7 _ _ := (Gram.bin .sub (hlit 9 (by decide) .int 1 rfl)
    (hlit 10 (by decide) .int 2 rfl)).lifts (by decide) (by decide)
  have hlt : Gram 1 _ _ := (Gram.bin .lt hsub (hlit 8 (by decide) .uint 3 rfl)).lifts
    (by decide) (by decide)
  have hcond := Gram.cond hlt (hlit 0 (by decide) .int 4 rfl) (hlit 0 (by decide) .int 5 rfl)
  exact exprSub_value _ _ hcond (v := ⟨.int, 5⟩) rfl rfl (by decide) trivial

end Cexpr
