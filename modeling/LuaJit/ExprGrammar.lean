/-
**The grammar of expressions.**

The grammar has one nonterminal for each level of precedence.  A tree is derived from exactly one word, and
whether it is derived at a level is a condition on its nodes.  Read from left to right a word alternates
between the places of operands and of operators, so a longer word goes on with an operator.

Main definitions:

* `ExprBinop.Derives` — the stratified grammar;
* `ExprBinop.Expr.Fits`, `ExprBinop.Expr.top`, `ExprBinop.Expr.yield` — the trees of the grammar and their words;
* `ExprBinop.Expr.nesting` — how many levels of the parser a tree opens above its first;
* `ExprBinop.scan` — the words, read from left to right.

Main results:

* `ExprBinop.derives_iff` — the grammar in terms of trees;
* `ExprBinop.length_le_of_stops` — a word before a token that is no binary operator is the longest one.
-/

import LuaJit.ExprBinop

set_option relaxedAutoImplicit false
set_option autoImplicit false

namespace ExprBinop

variable {α β : Type}

/-! ### The grammar -/

/-- The levels of the unary operators and of the operands. -/
def unaryLevel : ℕ := 7
def operandLevel : ℕ := 9

/-- The level of a binary operator. -/
def BinOpr.level : BinOpr → ℕ
  | .or => 1
  | .and => 2
  | .ne | .eq | .lt | .ge | .le | .gt => 3
  | .concat => 4
  | .add | .sub => 5
  | .mul | .div | .mod => 6
  | .pow => 8

/-- The operators that associate to the left. -/
def BinOpr.leftAssoc : BinOpr → Bool
  | .concat | .pow => false
  | _ => true

/-- The grammar: `or < and < comparison < .. < additive < multiplicative < unary < ^`. -/
inductive Derives : ℕ → List (Tok α β) → Expr α → Prop
  | operand (a : α) : Derives operandLevel [.operand a] (.operand a)
  | unop {t : Tok α β} {u : UnOp} {w : List (Tok α β)} {e : Expr α} :
      token2unop t = some u → Derives unaryLevel w e → Derives unaryLevel (t :: w) (.unop u e)
  | left {t : Tok α β} {o : BinOpr} {w₁ w₂ : List (Tok α β)} {e₁ e₂ : Expr α} :
      token2binop t = some o → o.leftAssoc = true →
        Derives o.level w₁ e₁ → Derives (o.level + 1) w₂ e₂ →
          Derives o.level (w₁ ++ t :: w₂) (.binop o e₁ e₂)
  | concat {w₁ w₂ : List (Tok α β)} {e₁ e₂ : Expr α} :
      Derives (BinOpr.concat.level + 1) w₁ e₁ → Derives BinOpr.concat.level w₂ e₂ →
        Derives BinOpr.concat.level (w₁ ++ .concat :: w₂) (.binop .concat e₁ e₂)
  | pow {w₁ w₂ : List (Tok α β)} {e₁ e₂ : Expr α} :
      Derives operandLevel w₁ e₁ → Derives unaryLevel w₂ e₂ →
        Derives BinOpr.pow.level (w₁ ++ .caret :: w₂) (.binop .pow e₁ e₂)
  | lift {l : ℕ} {w : List (Tok α β)} {e : Expr α} : Derives (l + 1) w e → Derives l w e

/-! ### Trees -/

/-- The token of a binary operator. -/
def BinOpr.tok : BinOpr → Tok α β
  | .add => .plus
  | .sub => .minus
  | .mul => .star
  | .div => .slash
  | .mod => .percent
  | .pow => .caret
  | .concat => .concat
  | .ne => .ne
  | .eq => .eq
  | .lt => .lt
  | .ge => .ge
  | .le => .le
  | .gt => .gt
  | .and => .and
  | .or => .or

/-- The token of a unary operator. -/
def UnOp.tok : UnOp → Tok α β
  | .not => .not
  | .unm => .minus
  | .len => .hash

@[simp] theorem token2binop_tok (o : BinOpr) : token2binop (o.tok : Tok α β) = some o := by
  cases o <;> rfl

@[simp] theorem token2unop_tok (u : UnOp) : token2unop (u.tok : Tok α β) = some u := by
  cases u <;> rfl

theorem token2binop_eq_some {t : Tok α β} {o : BinOpr} (h : token2binop t = some o) : t = o.tok := by
  cases t <;> cases h <;> rfl

theorem token2unop_eq_some {t : Tok α β} {u : UnOp} (h : token2unop t = some u) : t = u.tok := by
  cases t <;> cases h <;> rfl

/-- The levels of the two operands of an operator. -/
def BinOpr.leftLevel : BinOpr → ℕ
  | .concat => BinOpr.concat.level + 1
  | .pow => operandLevel
  | o => o.level

def BinOpr.rightLevel : BinOpr → ℕ
  | .concat => BinOpr.concat.level
  | .pow => unaryLevel
  | o => o.level + 1

namespace Expr

/-- The word of a tree. -/
@[grind =]
def yield : Expr α → List (Tok α β)
  | .operand a => [.operand a]
  | .unop u e => u.tok :: e.yield
  | .binop o e₁ e₂ => e₁.yield ++ o.tok :: e₂.yield

/-- The highest level at which a tree is derived. -/
def top : Expr α → ℕ
  | .operand _ => operandLevel
  | .unop _ _ => unaryLevel
  | .binop o _ _ => o.level

/-- The operands of each node are of its levels. -/
def Fits : Expr α → Prop
  | .operand _ => True
  | .unop _ e => e.Fits ∧ unaryLevel ≤ e.top
  | .binop o e₁ e₂ => e₁.Fits ∧ e₂.Fits ∧ o.leftLevel ≤ e₁.top ∧ o.rightLevel ≤ e₂.top

/-- The levels that the parser opens above its first. -/
@[grind =]
def nesting : Expr α → ℕ
  | .operand _ => 0
  | .unop _ e => e.nesting + 1
  | .binop _ e₁ e₂ => max e₁.nesting (e₂.nesting + 1)

/-- The operators on the left edge. -/
def spine : Expr α → ℕ
  | .operand _ => 0
  | .unop _ _ => 0
  | .binop _ e₁ _ => e₁.spine + 1

/-- The length of the word. -/
@[grind =]
def size : Expr α → ℕ
  | .operand _ => 1
  | .unop _ e => e.size + 1
  | .binop _ e₁ e₂ => e₁.size + (e₂.size + 1)

end Expr

@[simp] theorem length_yield (e : Expr α) : (e.yield : List (Tok α β)).length = e.size := by
  induction e with
  | operand a => rfl
  | unop u e ih => rw [Expr.yield, List.length_cons, ih, Expr.size]
  | binop o e₁ e₂ ih₁ ih₂ => rw [Expr.yield, List.length_append, List.length_cons, ih₁, ih₂, Expr.size]

theorem Expr.size_pos (e : Expr α) : 0 < e.size := by
  cases e with
  | operand a => exact Nat.one_pos
  | unop u e => exact Nat.succ_pos _
  | binop o e₁ e₂ => rw [Expr.size]; omega

theorem BinOpr.level_pos (o : BinOpr) : 0 < o.level := by cases o <;> decide

theorem Expr.top_pos (e : Expr α) : 0 < e.top := by
  cases e with
  | operand a => exact Nat.succ_pos _
  | unop u e => exact Nat.succ_pos _
  | binop o e₁ e₂ => exact o.level_pos

theorem Derives.of_le {l l' : ℕ} {w : List (Tok α β)} {e : Expr α} (h : Derives l w e) (hl : l' ≤ l) :
    Derives l' w e := by
  induction hl with
  | refl => exact h
  | step _ ih => exact ih h.lift

theorem Derives.yield_eq {l : ℕ} {w : List (Tok α β)} {e : Expr α} (h : Derives l w e) :
    w = e.yield := by
  induction h with
  | operand a => rfl
  | unop ht _ ih => rw [Expr.yield, ← ih, token2unop_eq_some ht]
  | left ht _ _ _ ih₁ ih₂ => rw [Expr.yield, ← ih₁, ← ih₂, token2binop_eq_some ht]
  | concat _ _ ih₁ ih₂ => rw [Expr.yield, ← ih₁, ← ih₂]; rfl
  | pow _ _ ih₁ ih₂ => rw [Expr.yield, ← ih₁, ← ih₂]; rfl
  | lift _ ih => exact ih

theorem BinOpr.levels_of_leftAssoc {o : BinOpr} (h : o.leftAssoc = true) :
    o.leftLevel = o.level ∧ o.rightLevel = o.level + 1 := by
  cases o <;> first | exact ⟨rfl, rfl⟩ | exact absurd h (by decide)

theorem Derives.fits {l : ℕ} {w : List (Tok α β)} {e : Expr α} (h : Derives l w e) :
    e.Fits ∧ l ≤ e.top := by
  induction h with
  | operand a => exact ⟨trivial, Nat.le_refl _⟩
  | unop _ _ ih => exact ⟨ih, Nat.le_refl _⟩
  | @left t o _ _ _ _ _ ho _ _ ih₁ ih₂ =>
      obtain ⟨hl, hr⟩ := BinOpr.levels_of_leftAssoc ho
      refine ⟨⟨ih₁.1, ih₂.1, ?_, ?_⟩, Nat.le_refl _⟩
      · rw [hl]; exact ih₁.2
      · rw [hr]; exact ih₂.2
  | concat _ _ ih₁ ih₂ => exact ⟨⟨ih₁.1, ih₂.1, ih₁.2, ih₂.2⟩, Nat.le_refl _⟩
  | pow _ _ ih₁ ih₂ => exact ⟨⟨ih₁.1, ih₂.1, ih₁.2, ih₂.2⟩, Nat.le_refl _⟩
  | lift _ ih => exact ⟨ih.1, by have := ih.2; omega⟩

theorem derives_of_fits {e : Expr α} (h : e.Fits) : Derives e.top (e.yield : List (Tok α β)) e := by
  induction e with
  | operand a => exact .operand a
  | unop u e ih => exact .unop (token2unop_tok u) ((ih h.1).of_le h.2)
  | binop o e₁ e₂ ih₁ ih₂ =>
      obtain ⟨h₁, h₂, hl, hr⟩ := h
      have d₁ := (ih₁ h₁).of_le hl
      have d₂ := (ih₂ h₂).of_le hr
      cases ho : o.leftAssoc with
      | true =>
          rw [(BinOpr.levels_of_leftAssoc ho).1] at d₁
          rw [(BinOpr.levels_of_leftAssoc ho).2] at d₂
          exact .left (token2binop_tok o) ho d₁ d₂
      | false =>
          cases o with
          | concat => exact .concat d₁ d₂
          | pow => exact .pow d₁ d₂
          | _ => cases ho

/-- A tree is derived from its own word, at the levels up to its top, when its nodes fit. -/
theorem derives_iff {l : ℕ} {w : List (Tok α β)} {e : Expr α} :
    Derives l w e ↔ w = e.yield ∧ e.Fits ∧ l ≤ e.top := by
  constructor
  · intro h
    exact ⟨h.yield_eq, h.fits⟩
  · rintro ⟨rfl, h, hl⟩
    exact (derives_of_fits h).of_le hl

/-! ### The longest prefix -/

/-- The words of the grammar, read from left to right: `false` where an operand is to come, `true` where an
operator may come. -/
@[grind =]
def scan : Bool → List (Tok α β) → Option Bool
  | b, [] => some b
  | false, .operand _ :: w => scan true w
  | false, t :: w => if (token2unop t).isSome then scan false w else none
  | true, t :: w => if (token2binop t).isSome then scan false w else none

theorem scan_append (b : Bool) (w w' : List (Tok α β)) :
    scan b (w ++ w') = (scan b w).bind (fun b' => scan b' w') := by
  induction w generalizing b with
  | nil => rfl
  | cons t w ih =>
      rw [List.cons_append]
      cases b with
      | true =>
          rw [scan, scan]
          split
          · exact ih false
          · rfl
      | false =>
          cases t <;> simp only [scan] <;> first | exact ih _ | (split <;> first | exact ih _ | rfl)

theorem scan_yield (e : Expr α) : scan false (e.yield : List (Tok α β)) = some true := by
  induction e with
  | operand a => rfl
  | unop u e ih => cases u <;> exact ih
  | binop o e₁ e₂ ih₁ ih₂ =>
      rw [Expr.yield, scan_append, ih₁, Option.bind_some, scan, token2binop_tok]
      exact ih₂

/-- A longer word of the grammar goes on with a binary operator. -/
theorem binop_of_longer {e e' : Expr α} {t : Tok α β} {w : List (Tok α β)}
    (h : e'.yield = e.yield ++ t :: w) : ∃ o, token2binop t = some o := by
  have hs := scan_yield (β := β) e'
  rw [h, scan_append, scan_yield, Option.bind_some, scan] at hs
  split at hs
  · next ht => exact Option.isSome_iff_exists.mp ht
  · cases hs

/-- The operator at the head of the tokens, if there is one, is of this priority at most. -/
def Stops (p : ℕ) (r : List (Tok α β)) : Prop :=
  ∀ o, r.head?.bind token2binop = some o → o.left ≤ p

theorem Stops.mono {p p' : ℕ} {r : List (Tok α β)} (h : Stops p r) (hp : p ≤ p') : Stops p' r :=
  fun o ho => Nat.le_trans (h o ho) hp

theorem stops_tok {p : ℕ} {o : BinOpr} {r : List (Tok α β)} (h : o.left ≤ p) :
    Stops p (o.tok :: r) := by
  intro o' ho
  rw [List.head?_cons, Option.bind_some, token2binop_tok] at ho
  cases ho
  exact h

/-- A word before a token that is no binary operator is the longest one. -/
theorem length_le_of_stops {e e' : Expr α} {r r' : List (Tok α β)}
    (h : e.yield ++ r = e'.yield ++ r') (hr : Stops 0 r) : e'.size ≤ e.size := by
  by_contra hlt
  obtain ⟨w, hw, hr'⟩ : ∃ w, e'.yield = e.yield ++ w ∧ r = w ++ r' := by
    rcases List.append_eq_append_iff.mp h with ⟨w, hw, hr'⟩ | ⟨w, hw, hr'⟩
    · exact ⟨w, hw, hr'⟩
    · have := congrArg List.length hw
      rw [List.length_append, length_yield, length_yield] at this
      omega
  cases w with
  | nil =>
      have := congrArg List.length hw
      rw [List.append_nil, length_yield, length_yield] at this
      omega
  | cons t w =>
      obtain ⟨o, ho⟩ := binop_of_longer hw
      have := hr o (by rw [hr', List.cons_append, List.head?_cons, Option.bind_some, ho])
      have hpos : 0 < o.left := by cases o <;> decide
      omega

end ExprBinop
