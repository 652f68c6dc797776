/-
**The expression parser.**

The parser of binary and unary operators reads a token at a time and climbs the priorities.  An operand is
one token, whatever the parser of simple expressions makes of it; in the place of an `ExpDesc` there is the
tree of the calls of `bcemit_unop` and `bcemit_binop` that built it.  The current token is the head of the
list, and behind the end there is the end of the file.

Main definitions:

* `ExprBinop.priority` — the table of the left and right priorities;
* `ExprBinop.exprUnop`, `ExprBinop.exprBinop`, `ExprBinop.binopLoop` — the parser;
* `ExprBinop.expr` — the parser of a whole expression.
-/

import Mathlib.Data.List.Basic
import Mathlib.Order.Basic
import Mathlib.Tactic.Common

set_option relaxedAutoImplicit false
set_option autoImplicit false

namespace ExprBinop

/-! ### Tokens and operators -/

/-- `BinOpr`, in its order. -/
inductive BinOpr
  | add | sub | mul | div | mod | pow | concat
  | ne | eq | lt | ge | le | gt
  | and | or
  deriving DecidableEq

/-- The operators of `expr_unop`: `BC_NOT`, `BC_UNM`, `BC_LEN`. -/
inductive UnOp
  | not | unm | len
  deriving DecidableEq

/-- A token.  `other` is one that begins no operand and is no operator. -/
inductive Tok (α β : Type)
  | operand (a : α)
  | plus | minus | star | slash | percent | caret | concat
  | ne | eq | lt | le | gt | ge
  | and | or
  | not | hash
  | other (b : β)
  deriving DecidableEq

variable {α β : Type}

/-- `token2binop`; `none` is `OPR_NOBINOPR`. -/
def token2binop : Tok α β → Option BinOpr
  | .plus => some .add
  | .minus => some .sub
  | .star => some .mul
  | .slash => some .div
  | .percent => some .mod
  | .caret => some .pow
  | .concat => some .concat
  | .ne => some .ne
  | .eq => some .eq
  | .lt => some .lt
  | .le => some .le
  | .gt => some .gt
  | .ge => some .ge
  | .and => some .and
  | .or => some .or
  | _ => none

/-- The operator that `expr_unop` makes of a token. -/
def token2unop : Tok α β → Option UnOp
  | .not => some .not
  | .minus => some .unm
  | .hash => some .len
  | _ => none

/-- `priority`, the left and the right one. -/
def priority : BinOpr → ℕ × ℕ
  | .add => (6, 6)
  | .sub => (6, 6)
  | .mul => (7, 7)
  | .div => (7, 7)
  | .mod => (7, 7)
  | .pow => (10, 9)
  | .concat => (5, 4)
  | .ne => (3, 3)
  | .eq => (3, 3)
  | .lt => (3, 3)
  | .ge => (3, 3)
  | .le => (3, 3)
  | .gt => (3, 3)
  | .and => (2, 2)
  | .or => (1, 1)

/-- `priority[op].left`. -/
def BinOpr.left (op : BinOpr) : ℕ := (priority op).1

/-- `priority[op].right`. -/
def BinOpr.right (op : BinOpr) : ℕ := (priority op).2

/-- `UNARY_PRIORITY`. -/
def unaryPriority : ℕ := 8

/-! ### The parser -/

/-- What was parsed. -/
inductive Expr (α : Type)
  | operand (a : α)
  | unop (op : UnOp) (e : Expr α)
  | binop (op : BinOpr) (e₁ e₂ : Expr α)
  deriving DecidableEq

/-- The part of `LexState` that is read: the tokens from `ls->tok` on, and `ls->level`. -/
structure LexState (α β : Type) where
  toks : List (Tok α β)
  level : ℕ
  deriving DecidableEq

/-- `LJ_ERR_XLEVELS`, `LJ_ERR_XSYMBOL`; `fuel` is no error of the source. -/
inductive Err
  | xlevels | xsymbol | fuel
  deriving DecidableEq

/-- `token2binop(ls->tok)`. -/
def LexState.binop (ls : LexState α β) : Option BinOpr := ls.toks.head?.bind token2binop

/-- `lj_lex_next`. -/
def LexState.next (ls : LexState α β) : LexState α β := { ls with toks := ls.toks.tail }

/-- `synlevel_begin`, with `LJ_MAX_XLEVEL` for `max`. -/
def synlevelBegin (max : ℕ) (ls : LexState α β) : Except Err (LexState α β) :=
  if ls.level + 1 ≥ max then .error .xlevels else .ok { ls with level := ls.level + 1 }

/-- `synlevel_end`. -/
def synlevelEnd (ls : LexState α β) : LexState α β := { ls with level := ls.level - 1 }

/-- `expr_simple` on an operand. -/
def exprSimple (ls : LexState α β) : Except Err (Expr α × LexState α β) :=
  match ls.toks.head? with
  | some (.operand a) => .ok (.operand a, ls.next)
  | _ => .error .xsymbol

mutual

/-- `expr_unop`. -/
@[grind =]
def exprUnop (max : ℕ) : ℕ → LexState α β → Except Err (Expr α × LexState α β)
  | 0, _ => .error .fuel
  | fuel + 1, ls =>
    match ls.toks.head?.bind token2unop with
    | some op => do
      let (v, _, ls) ← exprBinop max fuel unaryPriority ls.next
      .ok (.unop op v, ls)
    | none => exprSimple ls

/-- `expr_binop`, with the operator it returns. -/
@[grind =]
def exprBinop (max : ℕ) :
    ℕ → ℕ → LexState α β → Except Err (Expr α × Option BinOpr × LexState α β)
  | 0, _, _ => .error .fuel
  | fuel + 1, limit, ls => do
    let ls ← synlevelBegin max ls
    let (v, ls) ← exprUnop max fuel ls
    let (v, op, ls) ← binopLoop max fuel limit v ls.binop ls
    .ok (v, op, synlevelEnd ls)

/-- The loop of `expr_binop`. -/
@[grind =]
def binopLoop (max : ℕ) :
    ℕ → ℕ → Expr α → Option BinOpr → LexState α β →
      Except Err (Expr α × Option BinOpr × LexState α β)
  | 0, _, _, _, _ => .error .fuel
  | fuel + 1, limit, v, op, ls =>
    match op with
    | none => .ok (v, none, ls)
    | some op =>
      if op.left > limit then do
        let (v₂, nextop, ls) ← exprBinop max fuel op.right ls.next
        binopLoop max fuel limit (.binop op v v₂) nextop ls
      else .ok (v, some op, ls)

end

/-- `LJ_MAX_XLEVEL`. -/
def ljMaxXlevel : ℕ := 200

/-- `expr`, with the fuel that the tokens take. -/
def expr (ls : LexState α β) : Except Err (Expr α × Option BinOpr × LexState α β) :=
  exprBinop ljMaxXlevel (2 * ls.toks.length + 2) 0 ls

/-! ### One step of each function -/

@[simp] theorem ok_bind {ε σ τ : Type} (a : σ) (f : σ → Except ε τ) : (Except.ok a >>= f) = f a := rfl

@[simp] theorem error_bind {ε σ τ : Type} (e : ε) (f : σ → Except ε τ) :
    (Except.error e >>= f) = .error e := rfl

section Steps

variable {max fuel limit : ℕ} {ls ls' : LexState α β} {ts : List (Tok α β)} {lv : ℕ}
  {v v' : Expr α} {o : BinOpr} {u : UnOp}

@[simp] theorem LexState.binop_nil : (⟨[], lv⟩ : LexState α β).binop = none := rfl

@[simp] theorem LexState.binop_cons (t : Tok α β) :
    (⟨t :: ts, lv⟩ : LexState α β).binop = token2binop t := rfl

@[simp] theorem LexState.next_cons (t : Tok α β) :
    (⟨t :: ts, lv⟩ : LexState α β).next = ⟨ts, lv⟩ := rfl

@[simp] theorem LexState.next_toks : ls.next.toks = ls.toks.tail := rfl

@[simp] theorem LexState.next_level : ls.next.level = ls.level := rfl

@[simp] theorem synlevelEnd_toks : (synlevelEnd ls).toks = ls.toks := rfl

@[simp] theorem synlevelEnd_level : (synlevelEnd ls).level = ls.level - 1 := rfl

@[simp] theorem synlevelEnd_binop : (synlevelEnd ls).binop = ls.binop := rfl

/-- The operator at the head is one of a token. -/
theorem LexState.binop_eq_some (h : ls.binop = some o) :
    ∃ t ts, ls.toks = t :: ts ∧ token2binop t = some o := by
  unfold LexState.binop at h
  cases hts : ls.toks with
  | nil => rw [hts] at h; cases h
  | cons t ts => rw [hts] at h; exact ⟨t, ts, rfl, h⟩

theorem synlevelBegin_ok (h : ls.level + 1 < max) :
    synlevelBegin max ls = .ok { ls with level := ls.level + 1 } := by
  rw [synlevelBegin, if_neg (by omega)]

theorem synlevelBegin_error (h : max ≤ ls.level + 1) :
    synlevelBegin max ls = .error .xlevels := by
  rw [synlevelBegin, if_pos h]

theorem exprSimple_cases (ls : LexState α β) :
    (∃ a ts, ls.toks = .operand a :: ts ∧
      exprSimple ls = .ok (.operand a, { ls with toks := ts })) ∨
    exprSimple ls = .error .xsymbol := by
  unfold exprSimple
  split
  · next a h =>
      obtain ⟨ts, hts⟩ := List.head?_eq_some_iff.mp h
      exact .inl ⟨a, ts, hts, by rw [LexState.next, hts, List.tail_cons]⟩
  · exact .inr rfl

/-- A level that is not left open: the call fails at once. -/
theorem exprBinop_deep (h : max ≤ lv + 1) :
    exprBinop max (fuel + 1) limit (⟨ts, lv⟩ : LexState α β) = .error .xlevels := by
  rw [exprBinop, synlevelBegin_error h]
  rfl

/-- The call of a level that is open. -/
theorem exprBinop_open (h : lv + 1 < max) :
    exprBinop max (fuel + 1) limit (⟨ts, lv⟩ : LexState α β) =
      exprUnop max fuel ⟨ts, lv + 1⟩ >>= fun (p : Expr α × LexState α β) =>
        binopLoop max fuel limit p.1 p.2.binop p.2 >>=
          fun (q : Expr α × Option BinOpr × LexState α β) =>
            .ok (q.1, q.2.1, synlevelEnd q.2.2) := by
  rw [exprBinop, synlevelBegin_ok h]
  rfl

/-- An operand is parsed by `expr_simple`. -/
theorem exprUnop_operand (a : α) :
    exprUnop max (fuel + 1) (⟨.operand a :: ts, lv⟩ : LexState α β) = .ok (.operand a, ⟨ts, lv⟩) := by
  rw [exprUnop]
  rfl

/-- A unary operator parses its operand with its own priority. -/
theorem exprUnop_unop {t : Tok α β} (h : token2unop t = some u) :
    exprUnop max (fuel + 1) (⟨t :: ts, lv⟩ : LexState α β) =
      exprBinop max fuel unaryPriority ⟨ts, lv⟩ >>=
        fun (q : Expr α × Option BinOpr × LexState α β) => .ok (.unop u q.1, q.2.2) := by
  rw [exprUnop, List.head?_cons, Option.bind_some, h]
  rfl

/-- The loop stops at an operator that is not above the limit, and where there is none. -/
theorem binopLoop_stop {op : Option BinOpr} (h : ∀ o, op = some o → o.left ≤ limit) :
    binopLoop max (fuel + 1) limit v op ls = .ok (v, op, ls) := by
  cases op with
  | none => rw [binopLoop]
  | some o =>
      rw [binopLoop]
      exact if_neg (by have := h o rfl; omega)

/-- The loop goes on behind an operator above the limit. -/
theorem binopLoop_go (h : limit < o.left) :
    binopLoop max (fuel + 1) limit v (some o) ls =
      exprBinop max fuel o.right ls.next >>=
        fun (q : Expr α × Option BinOpr × LexState α β) =>
          binopLoop max fuel limit (.binop o v q.1) q.2.1 q.2.2 := by
  rw [binopLoop]
  exact if_pos h

end Steps

end ExprBinop
