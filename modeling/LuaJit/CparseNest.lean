/-
**The limits of the C parser.**

The C parser is a recursive descent parser with three fixed limits: a counter for the depth of the
recursion, the size of the stack for `#pragma pack(push)`, and the size of the stack that a declaration
is assembled on.  Two of the functions that call each other count the depth, `cp_declarator` and
`cp_expr_unary`.

The model has one frame for each active function of the parser and one event for each call, each
return, each pragma and each operation on a declaration stack.  A text determines a list of events:
its tokens decide which of the calls of a function are made.  The runs here are all those that the
functions' calls allow.

Main definitions:

* `CparseNest.Fn`, `CparseNest.callees` — the functions, and the calls between them;
* `CparseNest.CPDecl`, `CparseNest.CPDecl.step` — a declaration stack;
* `CparseNest.CPState`, `CparseNest.step`, `CparseNest.run` — the parser;
* `CparseNest.Respects` — every index is below its limit, and at most `N` functions are active;
* `CparseNest.Within` — at most `M` bodies of structs and operands of `?:` are open, and at most 6 pack
  pragmas.

Main results:

* `CparseNest.rank_lt` — every other cycle of calls goes through a function that counts the depth;
* `CparseNest.length_le` — a bound for the nesting of the functions;
* `CparseNest.respects_iff` — **the limits hold for a set of texts exactly if these nest only so far**;
* `CparseNest.not_respects`, `CparseNest.nest_bodies`, `CparseNest.nest_conds` — texts that do not.
-/

import Mathlib

set_option relaxedAutoImplicit false
set_option autoImplicit false

namespace CparseNest

/-! ### Limits -/

/-- `CPARSE_MAX_DECLSTACK`. -/
def maxDeclstack : ℕ := 100

/-- `CPARSE_MAX_DECLDEPTH`. -/
def maxDecldepth : ℕ := 20

/-- `CPARSE_MAX_PACKSTACK`. -/
def maxPackstack : ℕ := 7

/-! ### Functions -/

/-- The functions of the parser that call each other. -/
inductive Fn
  | declMulti | declSingle | declAbstract | declSpec | declStruct | declEnum | structName
  | declAttributes | declGccattribute | declMsvcattribute | declAlign | declSizeattr
  | declarator | declArray | declFunc | declConstinit | pragma
  | exprComma | exprSizeof | exprPrefix | exprPostfix | exprUnary | exprKint | exprKsize
  | exprInfix (pri : Fin 11)
  | exprSub (pri : Fin 11)
  deriving DecidableEq

/-- The functions that a function calls.  The calls for the bodies of structs and for the operands of
`?:` are events of their own. -/
def callees : Fn → List Fn
  | .declMulti => [.pragma, .declSpec, .declarator, .declConstinit]
  | .declSingle | .declAbstract => [.declSpec, .declarator]
  | .declSpec => [.declAttributes, .declStruct, .declEnum]
  | .declStruct => [.structName, .declarator, .declConstinit, .declAttributes]
  | .declEnum => [.structName, .exprKint]
  | .structName => [.declAttributes]
  | .declAttributes => [.declGccattribute, .declMsvcattribute]
  | .declGccattribute => [.declAlign, .declSizeattr]
  | .declMsvcattribute => [.declAlign]
  | .declAlign => [.declSizeattr]
  | .declSizeattr => [.exprKsize]
  | .declarator => [.declAttributes, .declarator, .declArray, .declFunc, .exprKsize]
  | .declArray => [.declAttributes, .exprKsize]
  | .declFunc => [.declSpec, .declarator]
  | .declConstinit => [.exprSub 0]
  | .pragma => []
  | .exprComma => [.exprSub 0]
  | .exprSizeof => [.declAbstract, .exprComma, .exprUnary]
  | .exprPrefix => [.exprUnary, .declAbstract, .exprComma, .exprSizeof]
  | .exprPostfix => [.exprComma]
  | .exprUnary => [.exprPrefix, .exprPostfix]
  | .exprKint => [.exprSub 0]
  | .exprKsize => [.exprKint]
  -- the cases of the `switch` fall through, each operator has the next level to its right
  | .exprInfix pri =>
      .exprUnary :: ((List.finRange 11).filter fun q => pri < q ∧ 2 ≤ q).map .exprSub
  | .exprSub pri => [.exprUnary, .exprInfix pri]

/-- The functions that count the depth. -/
def counts : Fn → Bool
  | .declarator | .exprUnary => true
  | _ => false

/-! ### Declaration stacks -/

/-- A `CPDecl`, with the chain of its elements, the element that `cp_decl_intern` visits next, and the
insertion positions that active calls of `cp_declarator` have saved. -/
structure CPDecl where
  top : ℕ := 0
  pos : ℕ := 0
  specpos : ℕ := 0
  next : ℕ → ℕ := fun _ => 0
  idx : ℕ := 0
  saved : List ℕ := []

/-- The operations on a declaration stack. -/
inductive DeclOp
  /-- `cp_decl_spec` begins. -/
  | spec
  /-- `cp_add`. -/
  | add
  /-- `cp_push`. -/
  | push
  /-- `cp_decl_spec` ends. -/
  | specEnd
  /-- `cp_decl_reset`. -/
  | reset
  /-- `cp_declarator`: before an inner declarator. -/
  | enter
  /-- `cp_declarator`: after an inner declarator. -/
  | leave
  /-- `cp_push_attributes` looks at the element at the insertion position. -/
  | attributes
  /-- `cp_decl_intern` begins. -/
  | first
  /-- `cp_decl_intern`: the next element of the chain. -/
  | visit
  deriving DecidableEq

/-- The indexes into the declaration stack that an operation uses. -/
def CPDecl.indexes (d : CPDecl) : DeclOp → List ℕ
  | .spec => [0]
  | .add | .push => if maxDeclstack ≤ d.top then [] else [d.top, d.pos]
  | .reset => [d.specpos]
  | .attributes => [d.pos]
  | .visit => [d.idx]
  | .specEnd | .enter | .leave | .first => []

/-- `cp_add`. -/
def CPDecl.add (d : CPDecl) : Option CPDecl :=
  if maxDeclstack ≤ d.top then none
  else
    some
      { d with
        next := Function.update (Function.update d.next d.top (d.next d.pos)) d.pos d.top
        top := d.top + 1 }

/-- An operation on a declaration stack. -/
def CPDecl.step (d : CPDecl) : DeclOp → Option CPDecl
  | .spec => some { d with pos := 0, top := 0, next := Function.update d.next 0 0 }
  | .add => d.add
  | .push => d.add.map fun d' => { d' with pos := d.top }
  | .specEnd => some { d with specpos := d.pos }
  | .reset =>
      some
        { d with
          pos := d.specpos, top := d.specpos + 1, next := Function.update d.next d.specpos 0 }
  | .enter => some { d with saved := d.pos :: d.saved }
  | .leave =>
      match d.saved with
      | pos :: saved => some { d with pos := pos, saved := saved }
      | [] => none
  | .attributes => some d
  | .first => some { d with idx := 0 }
  | .visit => some { d with idx := d.next d.idx }

/-! ### The parser -/

/-- An active function, whether its call was one of those for a body or for an operand of `?:`, and
its declaration stack, if it has one. -/
structure Frame where
  fn : Fn
  uncounted : Bool := false
  decl : CPDecl := {}

/-- The state of the parser: the active functions, the innermost one first, the depth, and the index
into the stack for pack pragmas. -/
structure CPState where
  stack : List Frame
  depth : ℕ := 0
  curpack : ℕ := 0

/-- The events of a parse. -/
inductive Event
  /-- The active function calls another one. -/
  | call (f : Fn)
  /-- `cp_decl_struct` calls `cp_decl_spec` for a member. -/
  | body
  /-- `cp_expr_infix` calls `cp_expr_comma` for the second operand of `?:`. -/
  | second
  /-- `cp_expr_infix` calls `cp_expr_sub` for the third operand of `?:`. -/
  | third
  /-- The active function returns. -/
  | ret
  /-- `cp_pragma`: `push`. -/
  | push
  /-- `cp_pragma`: `pop`. -/
  | pop
  /-- `cp_pragma`: set the current entry. -/
  | setPack
  /-- `cp_struct_layout`: use the current entry. -/
  | layout
  /-- An operation on the declaration stack of an active function. -/
  | decl (i : ℕ) (op : DeclOp)
  deriving DecidableEq

/-- Call a function. -/
def CPState.enter (s : CPState) (f : Fn) (uncounted : Bool) : Option CPState :=
  if counts f = true then
    if maxDecldepth < s.depth + 1 then none
    else some { s with stack := ⟨f, uncounted, {}⟩ :: s.stack, depth := s.depth + 1 }
  else some { s with stack := ⟨f, uncounted, {}⟩ :: s.stack }

/-- The innermost active function. -/
def CPState.active (s : CPState) : Option Fn := s.stack.head?.map Frame.fn

/-- One event.  `none` is an error, or an event that the active function does not have. -/
def step (s : CPState) : Event → Option CPState
  | .call f =>
      match s.active with
      | some t => if f ∈ callees t then s.enter f false else none
      | none => none
  | .body => if s.active = some .declStruct then s.enter .declSpec true else none
  | .second => if s.active = some (.exprInfix 0) then s.enter .exprComma true else none
  | .third => if s.active = some (.exprInfix 0) then s.enter (.exprSub 0) true else none
  | .ret =>
      match s.stack with
      | t :: stack =>
          some { s with stack := stack, depth := if counts t.fn = true then s.depth - 1 else s.depth }
      | [] => none
  | .push =>
      if s.active = some .pragma then
        if s.curpack < maxPackstack then some { s with curpack := s.curpack + 1 } else some s
      else none
  | .pop =>
      if s.active = some .pragma then
        if 0 < s.curpack then some { s with curpack := s.curpack - 1 } else some s
      else none
  | .setPack => if s.active = some .pragma then some s else none
  | .layout => if s.active = some .declStruct then some s else none
  | .decl i op =>
      match s.stack[i]? with
      | some t =>
          (t.decl.step op).map fun d => { s with stack := s.stack.set i { t with decl := d } }
      | none => none

/-- The indexes into the stack for pack pragmas that an event uses. -/
def packIndexes (s : CPState) : Event → List ℕ
  | .push => if s.curpack < maxPackstack then [s.curpack, s.curpack + 1] else []
  | .setPack | .layout => [s.curpack]
  | _ => []

/-- The indexes into a declaration stack that an event uses. -/
def declIndexes (s : CPState) : Event → List ℕ
  | .decl i op => match s.stack[i]? with
      | some t => t.decl.indexes op
      | none => []
  | _ => []

/-- The events of a text. -/
def run (s : CPState) : List Event → Option CPState
  | [] => some s
  | e :: es => (step s e).bind fun s' => run s' es

/-- The start of `lj_cparse`, by `CPARSE_MODE_MULTI`. -/
def init (multi : Bool) : CPState :=
  { stack := [⟨if multi = true then .declMulti else .declSingle, false, {}⟩] }

theorem run_append (s : CPState) (es es' : List Event) :
    run s (es ++ es') = (run s es).bind fun s' => run s' es' := by
  induction es generalizing s with
  | nil => rfl
  | cons e es ih =>
      simp only [List.cons_append, run, Option.bind_assoc]
      exact congrArg _ (funext ih)

/-- All along the events, every index is below its limit and at most `N` functions are active. -/
def Respects (N : ℕ) (s : CPState) : List Event → Prop
  | [] => s.stack.length ≤ N
  | e :: es =>
      s.stack.length ≤ N ∧ ∀ s', step s e = some s' →
        (∀ i ∈ packIndexes s e, i < maxPackstack) ∧ (∀ i ∈ declIndexes s e, i < maxDeclstack) ∧
          Respects N s' es

/-! ### Nesting -/

/-- What is open: the calls, each with whether it is for a body or for an operand of `?:`, and the
number of pack pragmas. -/
@[grind =]
def track (m : List Bool × ℕ) : Event → List Bool × ℕ
  | .call _ => (false :: m.1, m.2)
  | .body | .second | .third => (true :: m.1, m.2)
  | .ret => (m.1.tail, m.2)
  | .push => (m.1, m.2 + 1)
  | .pop => (m.1, m.2 - 1)
  | .setPack | .layout | .decl .. => m

/-- All along the events, at most `M` bodies and operands of `?:` are open and fewer than seven pack
pragmas. -/
def Within (M : ℕ) (m : List Bool × ℕ) : List Event → Prop
  | [] => m.1.count true ≤ M ∧ m.2 < maxPackstack
  | e :: es => m.1.count true ≤ M ∧ m.2 < maxPackstack ∧ Within M (track m e) es

/-! ### Declaration stacks stay in their bounds -/

/-- All that an operation uses as an index is below the limit. -/
structure CPDecl.Ok (d : CPDecl) : Prop where
  top_le : d.top ≤ maxDeclstack
  pos_lt : d.pos < maxDeclstack
  specpos_lt : d.specpos < maxDeclstack
  next_lt : ∀ i, d.next i < maxDeclstack
  idx_lt : d.idx < maxDeclstack
  saved_lt : ∀ pos ∈ d.saved, pos < maxDeclstack

theorem CPDecl.ok_init : CPDecl.Ok {} where
  top_le := by decide
  pos_lt := by decide
  specpos_lt := by decide
  next_lt _ := (by decide : 0 < maxDeclstack)
  idx_lt := by decide
  saved_lt := nofun

theorem CPDecl.Ok.indexes_lt {d : CPDecl} (hd : d.Ok) (op : DeclOp) :
    ∀ i ∈ d.indexes op, i < maxDeclstack := by
  have hzero : 0 < maxDeclstack := by decide
  cases op with
  | add | push =>
      simp only [CPDecl.indexes]
      split
      · exact nofun
      · next htop => exact List.forall_mem_cons.2 ⟨not_le.1 htop, by simpa using hd.pos_lt⟩
  | spec => simpa [CPDecl.indexes] using hzero
  | reset => simpa [CPDecl.indexes] using hd.specpos_lt
  | attributes => simpa [CPDecl.indexes] using hd.pos_lt
  | visit => simpa [CPDecl.indexes] using hd.idx_lt
  | specEnd | enter | leave | first => exact nofun

theorem update_lt {next : ℕ → ℕ} {n : ℕ} (h : ∀ i, next i < n) (j : ℕ) {v : ℕ} (hv : v < n)
    (i : ℕ) : Function.update next j v i < n := by
  rw [Function.update_apply]
  split
  exacts [hv, h i]

theorem CPDecl.Ok.add {d d' : CPDecl} (hd : d.Ok) (h : d.add = some d') :
    d'.Ok ∧ d.top < maxDeclstack := by
  obtain ⟨htop, h⟩ := Option.ite_none_left_eq_some.1 h
  cases h
  exact ⟨{ hd with
    top_le := not_le.1 htop
    next_lt := update_lt (update_lt hd.next_lt _ (hd.next_lt _)) _ (not_le.1 htop) }, not_le.1 htop⟩

theorem CPDecl.Ok.step {d d' : CPDecl} (hd : d.Ok) {op : DeclOp} (h : d.step op = some d') :
    d'.Ok := by
  have hzero : 0 < maxDeclstack := by decide
  cases op with
  | spec =>
      cases h
      exact { hd with
        top_le := Nat.zero_le _, pos_lt := hzero, next_lt := update_lt hd.next_lt _ hzero }
  | add => exact (hd.add h).1
  | push =>
      obtain ⟨d₁, hadd, rfl⟩ := Option.map_eq_some_iff.1 h
      obtain ⟨hd₁, htop⟩ := hd.add hadd
      exact { hd₁ with pos_lt := htop }
  | specEnd =>
      cases h
      exact { hd with specpos_lt := hd.pos_lt }
  | reset =>
      cases h
      exact { hd with
        top_le := hd.specpos_lt, pos_lt := hd.specpos_lt, next_lt := update_lt hd.next_lt _ hzero }
  | enter =>
      cases h
      exact { hd with saved_lt := List.forall_mem_cons.2 ⟨hd.pos_lt, hd.saved_lt⟩ }
  | leave =>
      simp only [CPDecl.step] at h
      split at h
      · next hsaved =>
          cases h
          have hall := hd.saved_lt
          rw [hsaved] at hall
          obtain ⟨hpos, hrest⟩ := List.forall_mem_cons.1 hall
          exact { hd with pos_lt := hpos, saved_lt := hrest }
      · exact nomatch h
  | attributes =>
      cases h
      exact hd
  | first =>
      cases h
      exact { hd with idx_lt := hzero }
  | visit =>
      cases h
      exact { hd with idx_lt := hd.next_lt _ }

/-! ### The nesting of the functions -/

/-- A measure that goes down with each call to a function that does not count the depth. -/
def rank : Fn → ℕ
  | .exprInfix pri => 21 - 2 * pri
  | .exprSub pri => 22 - 2 * pri
  | .exprComma | .exprKint | .declConstinit => 23
  | .exprKsize | .exprPostfix => 24
  | .declSizeattr => 25
  | .declAlign => 26
  | .declGccattribute | .declMsvcattribute => 27
  | .declAttributes => 28
  | .structName | .declArray => 29
  | .declStruct | .declEnum => 30
  | .declSpec => 31
  | .declFunc | .declAbstract => 32
  | .declarator | .declMulti | .declSingle | .exprSizeof => 33
  | .exprPrefix => 34
  | .exprUnary => 35
  | .pragma => 0

theorem rank_le (f : Fn) : rank f ≤ 35 := by
  cases f <;> simp only [rank] <;> lia

/-- A call goes down or to a function that counts the depth. -/
theorem rank_lt {f g : Fn} (h : g ∈ callees f) (hg : counts g = false) : rank g < rank f := by
  cases f with
  | exprInfix pri =>
      simp only [callees, List.mem_cons, List.mem_map, List.mem_filter, decide_eq_true_eq] at h
      obtain rfl | ⟨q, ⟨-, hlt, -⟩, rfl⟩ := h
      · exact nomatch hg
      · have : (pri : ℕ) < q := hlt
        simp only [rank]
        lia
  | exprSub pri =>
      have : (pri : ℕ) < 11 := pri.isLt
      simp only [callees, List.mem_cons, List.not_mem_nil, or_false] at h
      obtain rfl | rfl := h
      · exact nomatch hg
      · simp only [rank]
        lia
  | pragma => exact nomatch h
  | _ =>
      simp only [callees, List.mem_cons, List.not_mem_nil, or_false] at h
      revert hg
      rcases h with rfl | rfl | rfl | rfl | rfl <;> decide

/-- The active functions, each with whether its call was for a body or for an operand of `?:`. -/
def CPState.fns (s : CPState) : List (Fn × Bool) := s.stack.map fun t => (t.fn, t.uncounted)

/-- A function over another one comes from one of its calls. -/
def Calls (above below : Fn × Bool) : Prop := above.2 = true ∨ above.1 ∈ callees below.1

/-- The nesting of the functions, by the depth and the open bodies and operands of `?:`. -/
theorem length_le {f : Fn × Bool} {fs : List (Fn × Bool)} (h : (f :: fs).IsChain Calls) :
    (f :: fs).length + rank f.1 ≤
      36 * ((f :: fs).countP (fun t => counts t.1) + ((f :: fs).map Prod.snd).count true + 1) := by
  induction fs generalizing f with
  | nil =>
      have := rank_le f.1
      simp only [List.length_singleton]
      lia
  | cons g fs ih =>
      obtain ⟨hfg, hrest⟩ := List.isChain_cons_cons.1 h
      have hg := ih hrest
      have hf := rank_le f.1
      rw [List.length_cons, List.countP_cons, List.map_cons, List.count_cons]
      by_cases hc : counts f.1 = true
      · rw [if_pos hc]
        lia
      · rcases hfg with hu | hcall
        · rw [hu]
          simp only [beq_self_eq_true, if_true]
          lia
        · have := rank_lt hcall (Bool.eq_false_iff.2 hc)
          lia

/-- What holds of the parser: the calls, the depth, the declaration stacks. -/
structure Inv (s : CPState) : Prop where
  calls : s.fns.IsChain Calls
  depth_eq : s.depth = s.fns.countP fun t => counts t.1
  depth_le : s.depth ≤ maxDecldepth
  decl : ∀ t ∈ s.stack, t.decl.Ok

theorem Inv.init (multi : Bool) : Inv (init multi) where
  calls := .singleton _
  depth_eq := by cases multi <;> rfl
  depth_le := Nat.zero_le _
  decl := by
    intro t ht
    obtain rfl := List.mem_singleton.1 ht
    exact CPDecl.ok_init

/-- The number of active functions. -/
theorem Inv.length_le {s : CPState} (hi : Inv s) :
    s.stack.length ≤ 36 * (maxDecldepth + (s.fns.map Prod.snd).count true + 1) := by
  have hlen : s.stack.length = s.fns.length := (List.length_map _).symm
  have hcalls := hi.calls
  have hdepth := hi.depth_eq ▸ hi.depth_le
  rw [hlen]
  cases hfs : s.fns with
  | nil => exact Nat.zero_le _
  | cons f fs =>
      rw [hfs] at hcalls hdepth
      have := CparseNest.length_le hcalls
      lia

/-- A call. -/
theorem Inv.enter {s s' : CPState} (hi : Inv s) {t : Fn} (ht : s.active = some t) {f : Fn}
    {u : Bool} (hcall : u = true ∨ f ∈ callees t) (h : s.enter f u = some s') :
    Inv s' ∧ s'.fns = (f, u) :: s.fns := by
  have hcalls : ((f, u) :: s.fns).IsChain Calls := by
    refine List.isChain_cons.2 ⟨fun y hy => ?_, hi.calls⟩
    rw [CPState.fns, List.head?_map] at hy
    obtain ⟨b, hb, rfl⟩ := Option.map_eq_some_iff.1 hy
    rw [CPState.active, hb] at ht
    exact Option.some.inj ht ▸ hcall
  have hdecl : ∀ t ∈ (⟨f, u, {}⟩ :: s.stack : List Frame), t.decl.Ok :=
    List.forall_mem_cons.2 ⟨CPDecl.ok_init, hi.decl⟩
  have hcount := @List.countP_cons _ (fun t : Fn × Bool => counts t.1) (f, u) s.fns
  rw [← hi.depth_eq] at hcount
  unfold CPState.enter at h
  split at h
  · next hc =>
      obtain ⟨hle, h⟩ := Option.ite_none_left_eq_some.1 h
      cases h
      rw [if_pos hc] at hcount
      exact ⟨⟨hcalls, hcount.symm, not_lt.1 hle, hdecl⟩, rfl⟩
  · next hc =>
      cases h
      rw [if_neg hc] at hcount
      exact ⟨⟨hcalls, hcount.symm, hi.depth_le, hdecl⟩, rfl⟩

/-- Every event keeps the invariant, and what is open is as the events say. -/
theorem Inv.step {s s' : CPState} {e : Event} (hi : Inv s) (h : step s e = some s') (n : ℕ) :
    Inv s' ∧ s'.fns.map Prod.snd = (track (s.fns.map Prod.snd, n) e).1 := by
  cases e with
  | call f =>
      simp only [CparseNest.step] at h
      split at h
      · next t ht =>
          obtain ⟨hcall, h⟩ := Option.ite_none_right_eq_some.1 h
          obtain ⟨hi', hfns⟩ := hi.enter ht (.inr hcall) h
          exact ⟨hi', congrArg (List.map Prod.snd) hfns⟩
      · exact nomatch h
  | body | second | third =>
      obtain ⟨ht, h⟩ := Option.ite_none_right_eq_some.1 h
      obtain ⟨hi', hfns⟩ := hi.enter ht (.inl rfl) h
      exact ⟨hi', congrArg (List.map Prod.snd) hfns⟩
  | ret =>
      obtain ⟨stack, depth, curpack⟩ := s
      cases stack with
      | nil => exact nomatch h
      | cons t stack =>
          cases h
          have hcount : depth = (stack.map fun t => (t.fn, t.uncounted)).countP (fun t => counts t.1) +
              if counts t.fn = true then 1 else 0 := hi.depth_eq.trans List.countP_cons
          have hle : depth ≤ maxDecldepth := hi.depth_le
          refine ⟨⟨hi.calls.tail, ?_, ?_, fun t' ht' => hi.decl t' (List.mem_cons_of_mem _ ht')⟩, rfl⟩
          · change (if counts t.fn = true then depth - 1 else depth) = _
            split at hcount <;> simp_all [CPState.fns]
          · change (if counts t.fn = true then depth - 1 else depth) ≤ _
            split <;> lia
  | push | pop =>
      obtain ⟨-, h⟩ := Option.ite_none_right_eq_some.1 h
      split at h <;> cases h <;> exact ⟨{ hi with }, rfl⟩
  | setPack | layout =>
      obtain ⟨-, h⟩ := Option.ite_none_right_eq_some.1 h
      cases h
      exact ⟨hi, rfl⟩
  | decl i op =>
      simp only [CparseNest.step] at h
      split at h
      · next t ht =>
          obtain ⟨d, hd, rfl⟩ := Option.map_eq_some_iff.1 h
          obtain ⟨hlt, hget⟩ := List.getElem?_eq_some_iff.1 ht
          have hfns : CPState.fns { s with stack := s.stack.set i { t with decl := d } } = s.fns := by
            have hlt' : i < s.fns.length := by simpa [CPState.fns] using hlt
            have hget' : s.fns[i] = (t.fn, t.uncounted) := by simp [CPState.fns, hget]
            refine List.map_set.trans ?_
            rw [← CPState.fns, ← hget', List.set_getElem_self]
          refine ⟨⟨?_, ?_, hi.depth_le, fun t' ht' => ?_⟩, congrArg (List.map Prod.snd) hfns⟩
          · rw [hfns]
            exact hi.calls
          · rw [hfns]
            exact hi.depth_eq
          · rcases List.mem_or_eq_of_mem_set ht' with ht' | rfl
            · exact hi.decl t' ht'
            · exact (hi.decl t (List.mem_of_getElem? ht)).step hd
      · exact nomatch h

theorem Inv.declIndexes_lt {s : CPState} (hi : Inv s) (e : Event) :
    ∀ i ∈ declIndexes s e, i < maxDeclstack := by
  cases e with
  | decl j op =>
      simp only [declIndexes]
      split
      · next t ht => exact (hi.decl t (List.mem_of_getElem? ht)).indexes_lt op
      · exact nofun
  | _ => exact nofun

/-! ### Pack pragmas -/

theorem curpack_enter {s s' : CPState} {f : Fn} {u : Bool} (h : s.enter f u = some s') :
    s'.curpack = s.curpack := by
  unfold CPState.enter at h
  split at h
  · cases (Option.ite_none_left_eq_some.1 h).2
    rfl
  · cases h
    rfl

/-- While fewer than seven pragmas are open, the index is their number. -/
theorem curpack_step {s s' : CPState} {e : Event} (h : step s e = some s') (st : List Bool)
    (hlt : s.curpack < maxPackstack) : s'.curpack = (track (st, s.curpack) e).2 := by
  cases e with
  | call f =>
      simp only [step] at h
      split at h
      · exact curpack_enter (Option.ite_none_right_eq_some.1 h).2
      · exact nomatch h
  | body | second | third => exact curpack_enter (Option.ite_none_right_eq_some.1 h).2
  | ret =>
      simp only [step] at h
      split at h <;> cases h
      rfl
  | push =>
      have h := (Option.ite_none_right_eq_some.1 h).2
      rw [if_pos hlt] at h
      cases h
      rfl
  | pop =>
      have h := (Option.ite_none_right_eq_some.1 h).2
      split at h
      · cases h
        rfl
      · next hzero =>
          cases h
          simp only [track]
          lia
  | setPack | layout =>
      cases (Option.ite_none_right_eq_some.1 h).2
      rfl
  | decl i op =>
      simp only [step] at h
      split at h
      · obtain ⟨d, -, rfl⟩ := Option.map_eq_some_iff.1 h
        rfl
      · exact nomatch h

/-- The indexes that an event uses are below the limit exactly if it is not the seventh pragma. -/
theorem packIndexes_lt_iff {s s' : CPState} {e : Event} (h : step s e = some s')
    (hlt : s.curpack < maxPackstack) :
    (∀ i ∈ packIndexes s e, i < maxPackstack) ↔ s'.curpack < maxPackstack := by
  have hs' := curpack_step h [] hlt
  cases e with
  | push =>
      rw [hs']
      simp only [packIndexes, if_pos hlt, List.forall_mem_cons]
      exact ⟨fun hall => hall.2.1, fun hs => ⟨hlt, hs, nofun⟩⟩
  | setPack | layout =>
      rw [hs']
      simp [packIndexes, track]
  | pop =>
      refine iff_of_true nofun ?_
      rw [hs']
      exact (Nat.sub_le _ _).trans_lt hlt
  | _ =>
      refine iff_of_true nofun ?_
      rw [hs']
      exact hlt

/-! ### The limits -/

theorem Within.head {M : ℕ} {m : List Bool × ℕ} {es : List Event} (h : Within M m es) :
    m.1.count true ≤ M ∧ m.2 < maxPackstack := by
  cases es with
  | nil => exact h
  | cons => exact ⟨h.1, h.2.1⟩

theorem respects_of_within {M : ℕ} {es : List Event} {s : CPState} (hi : Inv s)
    (h : Within M (s.fns.map Prod.snd, s.curpack) es) :
    Respects (36 * (maxDecldepth + M + 1)) s es := by
  have hnest : s.stack.length ≤ 36 * (maxDecldepth + M + 1) :=
    hi.length_le.trans (Nat.mul_le_mul_left _ (by have := h.head.1; dsimp only at this; omega))
  induction es generalizing s with
  | nil => exact hnest
  | cons e es ih =>
      obtain ⟨-, hpack, hrest⟩ := h
      refine ⟨hnest, fun s' hs' => ?_⟩
      obtain ⟨hi', hfns⟩ := hi.step hs' s.curpack
      have hcur := curpack_step hs' (s.fns.map Prod.snd) hpack
      have hrest' : Within M (s'.fns.map Prod.snd, s'.curpack) es := by
        rw [hfns, hcur]
        exact hrest
      refine ⟨(packIndexes_lt_iff hs' hpack).2 hrest'.head.2, hi.declIndexes_lt e, ih hi' hrest' ?_⟩
      have := hrest'.head.1
      dsimp only at this
      exact hi'.length_le.trans (Nat.mul_le_mul_left _ (by omega))

theorem within_of_respects {N : ℕ} {es : List Event} {s s₁ : CPState} (hi : Inv s)
    (hpack : s.curpack < maxPackstack) (hrun : run s es = some s₁) (h : Respects N s es) :
    Within N (s.fns.map Prod.snd, s.curpack) es := by
  have hcount : (s.fns.map Prod.snd).count true ≤ s.stack.length :=
    List.count_le_length.trans (by simp [CPState.fns])
  induction es generalizing s with
  | nil => exact ⟨hcount.trans h, hpack⟩
  | cons e es ih =>
      obtain ⟨s', hs', hrun⟩ := Option.bind_eq_some_iff.1 hrun
      obtain ⟨hlen, h⟩ := h
      obtain ⟨hidx, -, hrest⟩ := h s' hs'
      obtain ⟨hi', hfns⟩ := hi.step hs' s.curpack
      refine ⟨hcount.trans hlen, hpack, ?_⟩
      have hw := ih hi' ((packIndexes_lt_iff hs' hpack).1 hidx) hrun hrest
        (List.count_le_length.trans (by simp [CPState.fns]))
      rw [hfns, curpack_step hs' (s.fns.map Prod.snd) hpack] at hw
      exact hw

/-- For a set of texts, the parser's indexes are always below their limits and the nesting of its
functions has a bound, exactly if the nesting of the bodies of structs and of the operands of `?:` in
these texts has a bound and they never have seven pack pragmas open. -/
theorem respects_iff (texts : Set (Bool × List Event)) :
    (∃ N, ∀ t ∈ texts, ∀ s, run (init t.1) t.2 = some s → Respects N (init t.1) t.2) ↔
      ∃ M, ∀ t ∈ texts, ∀ s, run (init t.1) t.2 = some s → Within M ([false], 0) t.2 := by
  constructor
  · rintro ⟨N, h⟩
    have hzero (t : Bool × List Event) : (init t.1).curpack < maxPackstack :=
      (by decide : 0 < maxPackstack)
    exact ⟨N, fun t ht s hs => within_of_respects (Inv.init t.1) (hzero t) hs (h t ht s hs)⟩
  · rintro ⟨M, h⟩
    exact ⟨_, fun t ht s hs => respects_of_within (Inv.init t.1) (h t ht s hs)⟩

/-- `#pragma pack(push)`, seven times. -/
theorem not_respects :
    ¬ ∃ N, ∀ multi es s, run (init multi) es = some s → Respects N (init multi) es := by
  rintro ⟨N, h⟩
  have hw := within_of_respects (Inv.init true) (by decide) rfl
    (h true (List.replicate 7 [.call .pragma, .push, .ret]).flatten _ rfl)
  revert hw
  simp [List.replicate, Within, track, maxPackstack, init]

/-- A call to a function that does not count the depth. -/
theorem step_call {s : CPState} {t f : Fn} (hs : s.active = some t) (hf : f ∈ callees t)
    (hc : counts f = false) :
    step s (.call f) = some { s with stack := ⟨f, false, {}⟩ :: s.stack } := by
  simp only [step, hs, if_pos hf, CPState.enter, hc, Bool.false_eq_true, if_false]

/-- The calls that a cycle makes again and again. -/
theorem run_cycle {a : Fn} {es : List Event}
    (h : ∀ s, s.active = some a → ∃ s', run s es = some s' ∧ s'.active = some a ∧
      s'.stack.length = s.stack.length + es.length) (n : ℕ) (s : CPState)
    (hs : s.active = some a) :
    ∃ s', run s (List.replicate n es).flatten = some s' ∧
      s'.stack.length = s.stack.length + n * es.length := by
  induction n generalizing s with
  | zero => exact ⟨s, rfl, by simp⟩
  | succ n ih =>
      obtain ⟨s₁, hrun, hact, hlen⟩ := h s hs
      obtain ⟨s', hrun', hlen'⟩ := ih s₁ hact
      refine ⟨s', ?_, by rw [hlen', hlen, Nat.succ_mul]; lia⟩
      rw [List.replicate_succ, List.flatten_cons, run_append, hrun]
      exact hrun'

/-- `struct { struct { …`: the bodies of structs nest without a bound. -/
theorem nest_bodies (n : ℕ) :
    ∃ s, run (init true) (.call .declSpec :: (List.replicate n [.call .declStruct, .body]).flatten) =
      some s ∧ n ≤ s.stack.length := by
  obtain ⟨s, hrun, hlen⟩ := @run_cycle .declSpec [.call .declStruct, .body]
    (fun s hs => by
      refine ⟨{ s with stack := ⟨.declSpec, true, {}⟩ :: ⟨.declStruct, false, {}⟩ :: s.stack },
        ?_, rfl, rfl⟩
      rw [run, step_call hs (by decide) rfl]
      rfl) n
    { stack := [⟨.declSpec, false, {}⟩, ⟨.declMulti, false, {}⟩] } rfl
  exact ⟨s, hrun, by simp at hlen; omega⟩

/-- `static const int x = 1 ? 1 : 1 ? 1 : …`: the operands of `?:` nest without a bound (the events leave
out the calls that have returned). -/
theorem nest_conds (n : ℕ) :
    ∃ s, run (init true) (.call .declConstinit :: .call (.exprSub 0) ::
        (List.replicate n [.call (.exprInfix 0), .third]).flatten) = some s ∧
      n ≤ s.stack.length := by
  obtain ⟨s, hrun, hlen⟩ := @run_cycle (.exprSub 0) [.call (.exprInfix 0), .third]
    (fun s hs => by
      refine ⟨{ s with stack := ⟨.exprSub 0, true, {}⟩ :: ⟨.exprInfix 0, false, {}⟩ :: s.stack },
        ?_, rfl, rfl⟩
      rw [run, step_call hs (by decide) rfl]
      rfl) n
    { stack := [⟨.exprSub 0, false, {}⟩, ⟨.declConstinit, false, {}⟩, ⟨.declMulti, false, {}⟩] } rfl
  exact ⟨s, hrun, by simp at hlen; omega⟩

end CparseNest
