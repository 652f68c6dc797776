/-
**The expression parser and the grammar.**

The parser is followed along the tree.  Each level of the grammar has a priority that calls for it and a
priority of the next operator that ends it, and the two tables meet on every node that the grammar permits.

Main definitions:

* `ExprBinop.callPriority`, `ExprBinop.stopPriority` — the priorities of a level;
* `ExprBinop.Parsed` — what a call returns.

Main results:

* `ExprBinop.exprBinop_yield`, `ExprBinop.exprBinop_yield_deep` — the parser on the word of a tree;
* `ExprBinop.exprBinop_sound` — what the parser returns is a tree of the grammar for what it consumed;
* `ExprBinop.Derives.unique` — the grammar is unambiguous;
* `ExprBinop.expr_groups` — **the parser returns the tree of the longest derivable prefix**.
-/

import LuaJit.ExprGrammar
import Mathlib.Order.Monotone.Basic

set_option relaxedAutoImplicit false
set_option autoImplicit false

namespace ExprBinop

variable {α β : Type}

/-! ### The priorities of a level -/

/-- The left priority of the operators of a level. -/
def callPriority (l : ℕ) : ℕ :=
  if l ≤ 1 then 1 else if l ≤ 2 then 2 else if l ≤ 3 then 3 else if l ≤ 4 then 5
  else if l ≤ 5 then 6 else if l ≤ 6 then 7 else 10

/-- The highest left priority of a next operator that ends a tree of a level. -/
def stopPriority (l : ℕ) : ℕ :=
  if l ≤ 1 then 1 else if l ≤ 2 then 2 else if l ≤ 3 then 3 else if l ≤ 4 then 4
  else if l ≤ 5 then 6 else if l ≤ 6 then 7 else if l ≤ 8 then 8 else 10

/-- A limit in front of priorities that grow. -/
theorem monotone_below {k a : ℕ} {f : ℕ → ℕ} (hf : Monotone f) (ha : a ≤ f 0) :
    Monotone fun l => if l ≤ k then a else f l := by
  intro l l' hl
  dsimp only
  split_ifs with h h' h'
  · exact le_rfl
  · exact ha.trans (hf (Nat.zero_le _))
  · exact absurd (hl.trans h') h
  · exact hf hl

theorem callPriority_mono {l l' : ℕ} (h : l ≤ l') : callPriority l ≤ callPriority l' := by
  have hmono : Monotone callPriority := by
    unfold callPriority
    repeat refine monotone_below ?_ (by decide)
    exact monotone_const
  exact hmono h

theorem stopPriority_mono {l l' : ℕ} (h : l ≤ l') : stopPriority l ≤ stopPriority l' := by
  have hmono : Monotone stopPriority := by
    unfold stopPriority
    repeat refine monotone_below ?_ (by decide)
    exact monotone_const
  exact hmono h

theorem BinOpr.callPriority_level (o : BinOpr) : callPriority o.level = o.left := by
  cases o <;> rfl

/-- The left operand of a node ends where the operator of the node stands. -/
theorem BinOpr.left_le_stop (o : BinOpr) : o.left ≤ stopPriority o.leftLevel := by
  cases o <;> decide

/-- The right operand of a node is what is called for. -/
theorem BinOpr.right_lt_call (o : BinOpr) : o.right < callPriority o.rightLevel := by
  cases o <;> decide

theorem BinOpr.stop_le_right (o : BinOpr) : stopPriority o.level ≤ o.right := by
  cases o <;> decide

theorem BinOpr.stop_le_rightLevel (o : BinOpr) :
    stopPriority o.level ≤ stopPriority o.rightLevel := by
  cases o <;> decide

theorem BinOpr.level_le_leftLevel (o : BinOpr) : o.level ≤ o.leftLevel := by
  cases o <;> decide

/-- Conversely, a tree that ends at an operator is of the level of its left operand. -/
theorem BinOpr.leftLevel_le {o : BinOpr} {l : ℕ} (hl : 0 < l) (h : o.left ≤ stopPriority l) :
    o.leftLevel ≤ l := by
  by_contra hlt
  have hm : l ≤ o.leftLevel - 1 := by lia
  have := stopPriority_mono hm
  have hs : stopPriority (o.leftLevel - 1) < o.left ∨ o.leftLevel = 1 := by cases o <;> decide
  lia

/-- A tree that was called for by an operator is of the level of its right operand. -/
theorem BinOpr.rightLevel_le {o : BinOpr} {l : ℕ} (h : o.right < callPriority l) :
    o.rightLevel ≤ l := by
  by_contra hlt
  have hm : l ≤ o.rightLevel - 1 := by lia
  have := callPriority_mono hm
  have hs : callPriority (o.rightLevel - 1) ≤ o.right := by cases o <;> decide
  omega

theorem BinOpr.left_le_operand (o : BinOpr) : o.left ≤ stopPriority operandLevel := by
  cases o <;> decide

/-- An operator that ends the right operand of a node ends the node. -/
theorem BinOpr.le_stop_of_le_right {o o' : BinOpr} (h : o'.left ≤ o.right) :
    o'.left ≤ stopPriority o.level := by
  revert h
  cases o <;> cases o' <;> decide

/-! ### The parser on the word of a tree -/

theorem Expr.spine_lt_size (e : Expr α) : e.spine < e.size := by
  induction e with
  | operand a => exact Nat.one_pos
  | unop u e ih => exact Nat.succ_pos _
  | binop o e₁ e₂ ih₁ ih₂ => rw [Expr.spine, Expr.size]; omega

/-- The call ends: the level is closed again. -/
def closeLevel (q : Expr α × Option BinOpr × LexState α β) :
    Except Err (Expr α × Option BinOpr × LexState α β) :=
  .ok (q.1, q.2.1, synlevelEnd q.2.2)

section Yield

variable {max limit : ℕ}

/-- The call of an operand of an operator returns the operand and stops where the tree ends. -/
theorem exprBinop_operand {e : Expr α} {lv k : ℕ} {r : List (Tok α β)} (hk : e.spine < k)
    (hr : Stops limit r)
    (h : exprBinop max (k + 1) limit ⟨e.yield ++ r, lv⟩ =
      binopLoop max (k - e.spine) limit e (r.head?.bind token2binop) ⟨r, lv + 1⟩ >>= closeLevel) :
    exprBinop max (k + 1) limit ⟨e.yield ++ r, lv⟩ =
      .ok (e, r.head?.bind token2binop, ⟨r, lv⟩) := by
  obtain ⟨j, hj⟩ : ∃ j, k - e.spine = j + 1 := ⟨k - e.spine - 1, by lia⟩
  rw [h, hj, binopLoop_stop hr, ok_bind]
  rfl

/-- On the word of a tree that is called for, and before a token that ends the tree, the parser arrives at
its loop with the tree. -/
theorem exprBinop_yield {e : Expr α} (he : e.Fits) :
    ∀ {limit lv n : ℕ} {r : List (Tok α β)}, limit < callPriority e.top →
      Stops (stopPriority e.top) r → lv + 1 + e.nesting < max → 2 * e.size ≤ n →
      exprBinop max (n + 1) limit ⟨e.yield ++ r, lv⟩ =
        binopLoop max (n - e.spine) limit e (r.head?.bind token2binop) ⟨r, lv + 1⟩ >>= closeLevel := by
  induction e with
  | operand a =>
      intro limit lv n r _ _ hlv hn
      rw [Expr.nesting] at hlv
      rw [Expr.size] at hn
      obtain ⟨m, rfl⟩ : ∃ m, n = m + 1 := ⟨n - 1, by lia⟩
      rw [exprBinop_open (by omega), Expr.yield, List.singleton_append, exprUnop_operand, ok_bind]
      rfl
  | unop u e ih =>
      intro limit lv n r _ hr hlv hn
      rw [Expr.nesting] at hlv
      rw [Expr.size] at hn
      obtain ⟨m, rfl⟩ : ∃ m, n = m + 1 + 1 := ⟨n - 2, by lia⟩
      have hs := e.spine_lt_size
      have hr' : Stops unaryPriority r := hr
      have hcall : unaryPriority < callPriority e.top :=
        Nat.lt_of_lt_of_le (by decide) (callPriority_mono he.2)
      have hrun : exprBinop max (m + 1) unaryPriority ⟨e.yield ++ r, lv + 1⟩ = _ :=
        ih he.1 hcall ((show Stops (stopPriority unaryLevel) r from hr).mono (stopPriority_mono he.2))
          (by lia) (by lia)
      have hin := exprBinop_operand (by lia) hr' hrun
      rw [exprBinop_open (by lia), Expr.yield, List.cons_append, exprUnop_unop (token2unop_tok u)]
      rw [hin, ok_bind, ok_bind]
      rfl
  | binop o e₁ e₂ ih₁ ih₂ =>
      intro limit lv n r hlimit hr hlv hn
      obtain ⟨h₁, h₂, hl₁, hl₂⟩ := he
      rw [Expr.nesting] at hlv
      rw [Expr.size] at hn
      have hs₁ := e₁.spine_lt_size
      have hs₂ := e₂.spine_lt_size
      rw [Expr.top, BinOpr.callPriority_level] at hlimit
      have hlevel : o.level ≤ e₁.top := Nat.le_trans o.level_le_leftLevel hl₁
      have hleft : exprBinop max (n + 1) limit ⟨e₁.yield ++ (o.tok :: (e₂.yield ++ r)), lv⟩ = _ :=
        ih₁ h₁ (Nat.lt_of_lt_of_le hlimit (o.callPriority_level ▸ callPriority_mono hlevel))
          (stops_tok (Nat.le_trans o.left_le_stop (stopPriority_mono hl₁))) (by lia) (by lia)
      obtain ⟨m, hm⟩ : ∃ m, n - e₁.spine = m + 1 + 1 := ⟨n - e₁.spine - 2, by lia⟩
      have hr' : Stops (stopPriority o.level) r := hr
      have hrun : exprBinop max (m + 1) o.right ⟨e₂.yield ++ r, lv + 1⟩ = _ :=
        ih₂ h₂ (Nat.lt_of_lt_of_le o.right_lt_call (callPriority_mono hl₂))
          (hr'.mono (Nat.le_trans o.stop_le_rightLevel (stopPriority_mono hl₂))) (by lia) (by lia)
      have hin := exprBinop_operand (by lia) (hr'.mono o.stop_le_right) hrun
      have hloop : n - (e₁.spine + 1) = m + 1 := by lia
      rw [Expr.yield, List.append_assoc, List.cons_append, hleft, hm, List.head?_cons, Option.bind_some,
        token2binop_tok, binopLoop_go hlimit, LexState.next_cons, hin, ok_bind, Expr.spine, hloop]

/-- Where the word of a tree nests too deep, the parser fails. -/
theorem exprBinop_yield_deep {e : Expr α} (he : e.Fits) :
    ∀ {limit lv n : ℕ} {r : List (Tok α β)}, limit < callPriority e.top →
      Stops (stopPriority e.top) r → max ≤ lv + 1 + e.nesting → 2 * e.size ≤ n →
      exprBinop max (n + 1) limit ⟨e.yield ++ r, lv⟩ = .error .xlevels := by
  induction e with
  | operand a =>
      intro limit lv n r _ _ hlv _
      exact exprBinop_deep hlv
  | unop u e ih =>
      intro limit lv n r _ hr hlv hn
      rw [Expr.nesting] at hlv
      rw [Expr.size] at hn
      obtain ⟨m, rfl⟩ : ∃ m, n = m + 1 + 1 := ⟨n - 2, by lia⟩
      rcases Nat.lt_or_ge (lv + 1) max with hopen | hdeep
      · have hin : exprBinop max (m + 1) unaryPriority ⟨e.yield ++ r, lv + 1⟩ = .error .xlevels :=
          ih he.1 (Nat.lt_of_lt_of_le (by decide) (callPriority_mono he.2))
            ((show Stops (stopPriority unaryLevel) r from hr).mono (stopPriority_mono he.2))
            (by lia) (by lia)
        rw [exprBinop_open hopen, Expr.yield, List.cons_append, exprUnop_unop (token2unop_tok u), hin]
        rfl
      · exact exprBinop_deep hdeep
  | binop o e₁ e₂ ih₁ ih₂ =>
      intro limit lv n r hlimit hr hlv hn
      obtain ⟨h₁, h₂, hl₁, hl₂⟩ := he
      rw [Expr.nesting] at hlv
      rw [Expr.size] at hn
      have hs₁ := e₁.spine_lt_size
      rw [Expr.top, BinOpr.callPriority_level] at hlimit
      have hcall : limit < callPriority e₁.top :=
        Nat.lt_of_lt_of_le hlimit
          (o.callPriority_level ▸ callPriority_mono (Nat.le_trans o.level_le_leftLevel hl₁))
      have hstop : Stops (stopPriority e₁.top) (o.tok :: (e₂.yield ++ r)) :=
        stops_tok (Nat.le_trans o.left_le_stop (stopPriority_mono hl₁))
      rw [Expr.yield, List.append_assoc, List.cons_append]
      rcases Nat.lt_or_ge (lv + 1 + e₁.nesting) max with hopen | hdeep
      · obtain ⟨m, hm⟩ : ∃ m, n - e₁.spine = m + 1 + 1 := ⟨n - e₁.spine - 2, by lia⟩
        have hin : exprBinop max (m + 1) o.right ⟨e₂.yield ++ r, lv + 1⟩ = .error .xlevels :=
          ih₂ h₂ (Nat.lt_of_lt_of_le o.right_lt_call (callPriority_mono hl₂))
            ((show Stops (stopPriority o.level) r from hr).mono
              (Nat.le_trans o.stop_le_rightLevel (stopPriority_mono hl₂))) (by lia) (by lia)
        rw [exprBinop_yield h₁ hcall hstop hopen (by lia), hm, List.head?_cons, Option.bind_some,
          token2binop_tok, binopLoop_go hlimit, LexState.next_cons, hin]
        rfl
      · exact ih₁ h₁ hcall hstop hdeep (by lia)

end Yield

/-! ### What the parser returns -/

section Sound

variable {max : ℕ}

/-- What a call with a limit returned: a tree for the tokens that it consumed, called for by the limit and
ended by the next token. -/
structure Parsed (limit : ℕ) (ls : LexState α β) (v : Expr α) (op : Option BinOpr)
    (ls' : LexState α β) : Prop where
  toks : ls.toks = v.yield ++ ls'.toks
  fits : v.Fits
  called : limit < callPriority v.top
  level : ls'.level = ls.level
  op_eq : op = ls'.binop
  stops : Stops limit ls'.toks

/-- The limits that occur. -/
abbrev Limit (limit : ℕ) : Prop := limit < callPriority unaryLevel

theorem BinOpr.right_limit (o : BinOpr) : Limit o.right := by cases o <;> decide

/-- `expr_unop` returns a tree of the level of the unary operators. -/
def UnopSound (α β : Type) (max fuel : ℕ) : Prop :=
  ∀ {ls ls' : LexState α β} {v : Expr α}, exprUnop max fuel ls = .ok (v, ls') →
    ls.toks = v.yield ++ ls'.toks ∧ v.Fits ∧ unaryLevel ≤ v.top ∧ ls'.level = ls.level ∧
      Stops (stopPriority v.top) ls'.toks

def BinopSound (α β : Type) (max fuel : ℕ) : Prop :=
  ∀ {limit : ℕ} {ls ls' : LexState α β} {v : Expr α} {op : Option BinOpr}, Limit limit →
    exprBinop max fuel limit ls = .ok (v, op, ls') → Parsed limit ls v op ls'

/-- The loop extends a tree that the limit called for. -/
def LoopSound (α β : Type) (max fuel : ℕ) : Prop :=
  ∀ {limit : ℕ} {ls₀ ls ls' : LexState α β} {v v' : Expr α} {op op' : Option BinOpr},
    ls₀.toks = v.yield ++ ls.toks → ls.level = ls₀.level → v.Fits → limit < callPriority v.top →
      op = ls.binop → Stops (stopPriority v.top) ls.toks →
        binopLoop max fuel limit v op ls = .ok (v', op', ls') → Parsed limit ls₀ v' op' ls'

variable {fuel : ℕ}

theorem bind_eq_ok {ε σ τ : Type} {m : Except ε σ} {f : σ → Except ε τ} {b : τ} (h : m >>= f = .ok b) :
    ∃ a, m = .ok a ∧ f a = .ok b := by
  cases m with
  | error e => cases h
  | ok a => exact ⟨a, rfl, h⟩

theorem unopSound_succ (h : BinopSound α β max fuel) : UnopSound α β max (fuel + 1) := by
  intro ls ls' v hv
  obtain ⟨toks, lv⟩ := ls
  rw [exprUnop] at hv
  split at hv
  · next u hu =>
      obtain ⟨⟨v₁, op, ls₁⟩, h₁, h₂⟩ := bind_eq_ok hv
      cases h₂
      cases toks with
      | nil => cases hu
      | cons t ts =>
          have hp := h (by decide) h₁
          have ht : t = u.tok := token2unop_eq_some hu
          refine ⟨?_, ⟨hp.fits, ?_⟩, Nat.le_refl _, hp.level, hp.stops⟩
          · have hts : ts = v₁.yield ++ ls'.toks := hp.toks
            rw [Expr.yield, ht, hts, List.cons_append]
          · by_contra hlt
            have hm : v₁.top ≤ unaryLevel - 1 := by lia
            have hcall := hp.called
            have := callPriority_mono hm
            have hs : callPriority (unaryLevel - 1) ≤ unaryPriority := by decide
            omega
  · rcases exprSimple_cases ⟨toks, lv⟩ with ⟨a, ts, hts, he⟩ | he
    · rw [he] at hv
      cases hv
      exact ⟨hts, trivial, show unaryLevel ≤ operandLevel by decide, rfl,
        fun o _ => o.left_le_operand⟩
    · rw [he] at hv
      cases hv

theorem loopSound_succ (hb : BinopSound α β max fuel) (hl : LoopSound α β max fuel) :
    LoopSound α β max (fuel + 1) := by
  intro limit ls₀ ls ls' v v' op op' htoks hlevel hv hcall hop hstop h
  by_cases hgo : ∃ o, op = some o ∧ limit < o.left
  · obtain ⟨o, rfl, hlt⟩ := hgo
    obtain ⟨t, ts, hts, ht⟩ := LexState.binop_eq_some hop.symm
    rw [binopLoop_go hlt] at h
    obtain ⟨⟨v₂, nextop, ls₂⟩, h₂, h⟩ := bind_eq_ok h
    have hp := hb o.right_limit h₂
    have htok : t = o.tok := token2binop_eq_some ht
    have hts₂ : ts = v₂.yield ++ ls₂.toks := by
      have := hp.toks
      rwa [LexState.next_toks, hts, List.tail_cons] at this
    have hleft : o.leftLevel ≤ v.top := by
      refine BinOpr.leftLevel_le v.top_pos (hstop o ?_)
      rw [hts, List.head?_cons, Option.bind_some, ht]
    have hfits : (Expr.binop o v v₂).Fits := ⟨hv, hp.fits, hleft, BinOpr.rightLevel_le hp.called⟩
    refine hl ?_ ?_ hfits ?_ hp.op_eq ?_ h
    · rw [htoks, hts, Expr.yield, htok, hts₂, List.append_assoc, List.cons_append]
    · rw [hp.level, LexState.next_level, hlevel]
    · rw [Expr.top, BinOpr.callPriority_level]
      exact hlt
    · exact fun o' ho => BinOpr.le_stop_of_le_right (hp.stops o' ho)
  · have hstops : ∀ o, op = some o → o.left ≤ limit := by
      intro o ho
      by_contra hlt
      exact hgo ⟨o, ho, by omega⟩
    rw [binopLoop_stop hstops] at h
    cases h
    exact ⟨htoks, hv, hcall, hlevel, hop, fun o ho => hstops o (hop.trans ho)⟩

theorem binopSound_succ (hu : UnopSound α β max fuel) (hl : LoopSound α β max fuel) :
    BinopSound α β max (fuel + 1) := by
  intro limit ls ls' v op hlimit h
  obtain ⟨toks, lv⟩ := ls
  rcases Nat.lt_or_ge (lv + 1) max with hopen | hdeep
  · rw [exprBinop_open hopen] at h
    obtain ⟨⟨v₁, ls₁⟩, h₁, h⟩ := bind_eq_ok h
    obtain ⟨⟨v₂, op₂, ls₂⟩, h₂, h⟩ := bind_eq_ok h
    cases h
    obtain ⟨htoks, hfits, htop, hlevel, hstop⟩ := hu h₁
    have hcall : limit < callPriority v₁.top := Nat.lt_of_lt_of_le hlimit (callPriority_mono htop)
    have hp := hl htoks hlevel hfits hcall rfl hstop h₂
    refine ⟨hp.toks, hp.fits, hp.called, ?_, hp.op_eq, hp.stops⟩
    have := hp.level
    rw [synlevelEnd_level, this, Nat.add_sub_cancel]
  · rw [exprBinop_deep hdeep] at h
    cases h

/-- The three functions return trees of the grammar. -/
theorem sound (fuel : ℕ) :
    UnopSound α β max fuel ∧ BinopSound α β max fuel ∧ LoopSound α β max fuel := by
  induction fuel with
  | zero =>
      refine ⟨fun h => ?_, fun _ h => ?_, fun _ _ _ _ _ _ h => ?_⟩
      · rw [exprUnop] at h; cases h
      · rw [exprBinop] at h; cases h
      · rw [binopLoop] at h; cases h
  | succ n ih =>
      obtain ⟨hu, hb, hl⟩ := ih
      exact ⟨unopSound_succ hb, binopSound_succ hu hl, loopSound_succ hb hl⟩

/-- What a call returns is a tree of the grammar for the tokens that it consumed. -/
theorem exprBinop_sound {limit : ℕ} {ls ls' : LexState α β} {v : Expr α} {op : Option BinOpr}
    (hlimit : Limit limit) (h : exprBinop max fuel limit ls = .ok (v, op, ls')) :
    Parsed limit ls v op ls' :=
  (sound fuel).2.1 hlimit h

/-- A call consumes a token. -/
theorem Parsed.length_lt {limit : ℕ} {ls ls' : LexState α β} {v : Expr α} {op : Option BinOpr}
    (h : Parsed limit ls v op ls') : ls'.toks.length < ls.toks.length := by
  have := v.size_pos
  rw [h.toks, List.length_append, length_yield]
  omega

/-! ### The fuel is enough -/

/-- The calls do not run out of fuel on this many tokens. -/
def UnopTotal (α β : Type) (max fuel : ℕ) : Prop :=
  ∀ {ls : LexState α β}, 2 * ls.toks.length + 1 ≤ fuel → exprUnop max fuel ls ≠ .error .fuel

def BinopTotal (α β : Type) (max fuel : ℕ) : Prop :=
  ∀ {limit : ℕ} {ls : LexState α β}, Limit limit → 2 * ls.toks.length + 2 ≤ fuel →
    exprBinop max fuel limit ls ≠ .error .fuel

def LoopTotal (α β : Type) (max fuel : ℕ) : Prop :=
  ∀ {limit : ℕ} {v : Expr α} {op : Option BinOpr} {ls : LexState α β}, op = ls.binop →
    2 * ls.toks.length + 1 ≤ fuel → binopLoop max fuel limit v op ls ≠ .error .fuel

theorem bind_ne_error {ε σ τ : Type} {m : Except ε σ} {f : σ → Except ε τ} {e : ε} (hm : m ≠ .error e)
    (hf : ∀ a, m = .ok a → f a ≠ .error e) : m >>= f ≠ .error e := by
  cases m with
  | error e' =>
      intro h
      cases h
      exact hm rfl
  | ok a => exact hf a rfl

theorem unopTotal_succ (h : BinopTotal α β max fuel) : UnopTotal α β max (fuel + 1) := by
  intro ls hfuel
  obtain ⟨toks, lv⟩ := ls
  rw [exprUnop]
  split
  · next u hu =>
      cases toks with
      | nil => cases hu
      | cons t ts =>
          have hlen : (t :: ts).length = ts.length + 1 := rfl
          dsimp only at hfuel
          exact bind_ne_error (h (by decide) (show 2 * ts.length + 2 ≤ fuel by lia))
            (fun a _ he => by cases he)
  · rcases exprSimple_cases ⟨toks, lv⟩ with ⟨a, ts, _, he⟩ | he <;>
      rw [he] <;> intro hne <;> cases hne

theorem loopTotal_succ (hb : BinopTotal α β max fuel) (hl : LoopTotal α β max fuel) :
    LoopTotal α β max (fuel + 1) := by
  intro limit v op ls hop hfuel
  by_cases hgo : ∃ o, op = some o ∧ limit < o.left
  · obtain ⟨o, rfl, hlt⟩ := hgo
    obtain ⟨t, ts, hts, _⟩ := LexState.binop_eq_some hop.symm
    have hnext : ls.next.toks.length + 1 = ls.toks.length := by
      rw [LexState.next_toks, hts, List.tail_cons, List.length_cons]
    rw [binopLoop_go hlt]
    refine bind_ne_error (hb o.right_limit (by lia)) ?_
    rintro ⟨v₂, nextop, ls₂⟩ h₂
    have hp := exprBinop_sound o.right_limit h₂
    have hlen := hp.length_lt
    exact hl hp.op_eq (by dsimp only; lia)
  · rw [binopLoop_stop]
    · intro h
      cases h
    · intro o ho
      by_contra hlt
      exact hgo ⟨o, ho, by omega⟩

theorem binopTotal_succ (hu : UnopTotal α β max fuel) (hl : LoopTotal α β max fuel) :
    BinopTotal α β max (fuel + 1) := by
  intro limit ls hlimit hfuel
  obtain ⟨toks, lv⟩ := ls
  dsimp only at hfuel
  rcases Nat.lt_or_ge (lv + 1) max with hopen | hdeep
  · rw [exprBinop_open hopen]
    refine bind_ne_error (hu (by dsimp only; omega)) ?_
    rintro ⟨v₁, ls₁⟩ h₁
    obtain ⟨htoks, -⟩ := (sound fuel).1 h₁
    dsimp only at htoks
    have hlen : ls₁.toks.length ≤ toks.length := by
      rw [htoks, List.length_append]
      omega
    exact bind_ne_error (hl rfl (by dsimp only; lia)) (fun a _ he => by cases he)
  · rw [exprBinop_deep hdeep]
    intro h
    cases h

theorem total (fuel : ℕ) :
    UnopTotal α β max fuel ∧ BinopTotal α β max fuel ∧ LoopTotal α β max fuel := by
  induction fuel with
  | zero => exact ⟨fun h => by omega, fun _ h => by omega, fun _ h => by omega⟩
  | succ n ih =>
      obtain ⟨hu, hb, hl⟩ := ih
      exact ⟨unopTotal_succ hb, binopTotal_succ hu hl, loopTotal_succ hb hl⟩

end Sound

/-! ### The parser of a whole expression -/

theorem stops_zero {r : List (Tok α β)} : Stops 0 r ↔ r.head?.bind token2binop = none := by
  constructor
  · intro h
    by_contra hne
    obtain ⟨o, ho⟩ := Option.ne_none_iff_exists'.mp hne
    have := h o ho
    have hpos : 0 < o.left := by cases o <;> decide
    omega
  · intro h o ho
    rw [h] at ho
    cases ho

theorem Expr.called (e : Expr α) : 0 < callPriority e.top :=
  Nat.lt_of_lt_of_le (by decide) (callPriority_mono e.top_pos)

/-- The parser on a word before a token that is no binary operator. -/
theorem exprBinop_whole (max n lv : ℕ) {e : Expr α} {r : List (Tok α β)} (he : e.Fits)
    (hr : r.head?.bind token2binop = none) (hn : 2 * e.size ≤ n) :
    exprBinop max (n + 1) 0 ⟨e.yield ++ r, lv⟩ =
      if lv + 1 + e.nesting < max then .ok (e, none, ⟨r, lv⟩) else .error .xlevels := by
  have hstop := stops_zero.mpr hr
  have hs := e.spine_lt_size
  split
  · next hlv =>
      have hrun := exprBinop_yield he e.called (hstop.mono (Nat.zero_le _)) hlv hn
      rw [exprBinop_operand (by omega) hstop hrun, hr]
  · next hlv => exact exprBinop_yield_deep he e.called (hstop.mono (Nat.zero_le _)) (by omega) hn

/-- The grammar is unambiguous. -/
theorem Derives.unique {l l' : ℕ} {w : List (Tok α β)} {e e' : Expr α} (h : Derives l w e)
    (h' : Derives l' w e') : e = e' := by
  obtain ⟨hw, he, -⟩ := derives_iff.mp h
  obtain ⟨hw', he', -⟩ := derives_iff.mp h'
  have hy : (e.yield : List (Tok α β)) = e'.yield := hw.symm.trans hw'
  have hsize : e.size = e'.size := by
    rw [← length_yield (β := β) e, hy, length_yield]
  let m := 1 + e.nesting + e'.nesting + 1
  have h₁ := exprBinop_whole m (2 * e.size) 0 he (show ([] : List (Tok α β)).head?.bind _ = none from rfl)
    (Nat.le_refl _)
  have h₂ := exprBinop_whole m (2 * e.size) 0 he' (show ([] : List (Tok α β)).head?.bind _ = none from rfl)
    (by omega)
  rw [if_pos (by lia)] at h₁ h₂
  rw [← hy, h₁] at h₂
  cases h₂
  rfl

/-- An expression of the grammar before a token that is no binary operator is the longest prefix of the
tokens that is one, and its tree is the only one.  The parser returns the tree and leaves the token, unless
the levels that the tree opens are too many.  Where no expression stands before such a token, the parser
fails. -/
theorem expr_groups (ls : LexState α β) :
    (∀ w r v, ls.toks = w ++ r → Derives BinOpr.or.level w v → r.head?.bind token2binop = none →
      (∀ w' r' v', ls.toks = w' ++ r' → Derives BinOpr.or.level w' v' →
        w'.length ≤ w.length ∧ (w' = w → v' = v)) ∧
      expr ls = if ls.level + 1 + v.nesting < ljMaxXlevel then .ok (v, none, ⟨r, ls.level⟩)
        else .error .xlevels) ∧
    ((∀ w r v, ls.toks = w ++ r → Derives BinOpr.or.level w v → r.head?.bind token2binop ≠ none) →
      expr ls = .error .xsymbol ∨ expr ls = .error .xlevels) := by
  obtain ⟨toks, lv⟩ := ls
  constructor
  · intro w r v htoks hw hr
    obtain ⟨rfl, hv, -⟩ := derives_iff.mp hw
    dsimp only at htoks
    subst htoks
    constructor
    · intro w' r' v' hsplit hw'
      obtain ⟨rfl, -, -⟩ := derives_iff.mp hw'
      rw [length_yield, length_yield]
      refine ⟨length_le_of_stops hsplit (stops_zero.mpr hr), fun heq => ?_⟩
      rw [heq] at hw'
      exact hw'.unique hw
    · refine exprBinop_whole _ _ _ hv hr ?_
      dsimp only
      rw [List.length_append, length_yield]
      omega
  · intro hnone
    have htotal : expr (⟨toks, lv⟩ : LexState α β) ≠ .error .fuel :=
      (total _).2.1 (by decide) (Nat.le_refl _)
    cases h : expr (⟨toks, lv⟩ : LexState α β) with
    | error e =>
        cases e with
        | xlevels => exact .inr rfl
        | xsymbol => exact .inl rfl
        | fuel => exact absurd h htotal
    | ok p =>
        obtain ⟨v, op, ls'⟩ := p
        have hp := exprBinop_sound (by decide) h
        exact absurd (stops_zero.mp hp.stops)
          (hnone v.yield ls'.toks v hp.toks (derives_iff.mpr ⟨rfl, hp.fits, v.top_pos⟩))

/-- `- - … x`. -/
def negations : ℕ → Expr ℕ
  | 0 => .operand 0
  | n + 1 => .unop .unm (negations n)

theorem negations_fits (n : ℕ) : (negations n).Fits ∧ unaryLevel ≤ (negations n).top := by
  induction n with
  | zero => exact ⟨trivial, by decide⟩
  | succ n ih => exact ⟨ih, Nat.le_refl _⟩

theorem negations_nesting (n : ℕ) : (negations n).nesting = n := by
  induction n with
  | zero => rfl
  | succ n ih => rw [negations, Expr.nesting, ih]

/-- As many negations as there are levels are too many. -/
theorem expr_negations {n lv : ℕ} (h : ljMaxXlevel ≤ lv + 1 + n) :
    expr (⟨(negations n).yield, lv⟩ : LexState ℕ ℕ) = .error .xlevels := by
  have hw := exprBinop_whole ljMaxXlevel (2 * (negations n).size + 1) lv (negations_fits n).1
    (show ([] : List (Tok ℕ ℕ)).head?.bind _ = none from rfl) (by omega)
  rw [negations_nesting, List.append_nil, if_neg (by omega)] at hw
  rw [expr, length_yield]
  exact hw

/-- Two hundred negations are an expression that is not parsed; behind a whole expression an operator
without its right operand is not left alone. -/
theorem expr_rejects_negations :
    (∃ v : Expr ℕ, Derives BinOpr.or.level (v.yield : List (Tok ℕ ℕ)) v ∧
      expr (⟨v.yield, 0⟩ : LexState ℕ ℕ) = .error .xlevels) ∧
    Derives BinOpr.or.level [(.operand 1 : Tok ℕ ℕ)] (.operand 1) ∧
      expr (⟨[.operand 1, .plus], 0⟩ : LexState ℕ ℕ) = .error .xsymbol := by
  have hfits := (negations_fits 200).1
  exact ⟨⟨negations 200, derives_iff.mpr ⟨rfl, hfits, Expr.top_pos _⟩, expr_negations (by decide)⟩,
    derives_iff.mpr ⟨rfl, trivial, by decide⟩, rfl⟩

end ExprBinop
