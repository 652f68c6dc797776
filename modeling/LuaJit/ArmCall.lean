/-
**Arguments of C calls on ARM, interpreted and compiled.**

The interpreter places the arguments of a C call with `ccall_set_args`, in one pass over the C types.
The compiler records a tree of `CARG` instructions, the split pass turns a 64 bit argument into two
words of the tree and pads it, and the code generator places the operands of the tree one by one; the
stack words it needs are counted by yet another function, before any code is generated.

Main definitions:

* `ArmCall.ccallSetArgs` — the interpreter's side;
* `ArmCall.crecCallArgs`, `ArmCall.splitCallxs`, `ArmCall.asmGencall`, `ArmCall.asmSetupCallSlots` —
  the passes of the compiler, and `ArmCall.compiledCall`, all of them together;
* `ArmCall.PlaceOk`, `ArmCall.CallOk` — where an argument, and where all arguments, are safe, in terms
  of the procedure call standard.

Main results:

* `ArmCall.collect_split` — the operands of the split tree, as blocks of one argument each;
* `ArmCall.setArg_iff`, `ArmCall.gencall_iff` — both sides follow the procedure call standard, except
  for back-filled singles and for the padding of 64 bit arguments;
* `ArmCall.call_agrees_iff` — **the compiled call places its arguments as the interpreted call does,
  below the spill slots, exactly when `CallOk` holds**.
-/

import LuaJit.Aapcs

set_option relaxedAutoImplicit false
set_option autoImplicit false

namespace ArmCall

open Aapcs (Place Kind State)

/-! ### Arguments -/

/-- The build: `soft` is `LJ_SOFTFP`, `softfp` has an FPU but passes floating point arguments in core
registers (`LJ_ABI_SOFTFP`), `hard` passes them in VFP registers. -/
inductive Abi where
  | soft
  | softfp
  | hard
  deriving DecidableEq

/-- The C type of an argument. -/
inductive ArgType where
  | int32
  | ptr
  | int64
  | float
  | double
  deriving DecidableEq

namespace ArgType

/-- `CTF_FP`. -/
def isFp : ArgType → Bool
  | float | double => true
  | _ => false

/-- The size in units of `CTSIZE_PTR`, and whether the alignment is above `CTALIGN_PTR`. -/
def words : ArgType → ℕ
  | int64 | double => 2
  | _ => 1

def align8 : ArgType → Bool
  | int64 | double => true
  | _ => false

end ArgType

/-- An argument: the value it holds, and its type. -/
structure Arg where
  ref : ℕ
  type : ArgType
  deriving DecidableEq

/-- The places of the words of arguments: `((r, j), p)` is word `j` of the value `r` in place `p`. -/
abbrev Placement := List ((ℕ × ℕ) × Place)

/-- Successive words of an argument in the given places. -/
def wordsAt (a : Arg) (ps : List Place) : Placement :=
  ps.zipIdx.map fun p => ((a.ref, p.2), p.1)

/-! ### The interpreter -/

/-- The counters of `ccall_set_args`. -/
structure SetArgs where
  ngpr : ℕ
  nsp : ℕ
  nfpr : ℕ
  fprodd : ℕ
  deriving DecidableEq

/-- `CCALL_NARG_GPR`, `CCALL_NARG_FPR` and `CCALL_MAXSTACK`. -/
def nargGpr : ℕ := 4
def nargFpr : ℕ := 8
def maxStack : ℕ := 32

/-- `CCALL_HANDLE_REGARG_FP1`: the index of the first single-precision register, if the argument goes
to VFP registers. -/
def regargFp1 (st : SetArgs) (t : ArgType) (n : ℕ) : Option (ℕ × SetArgs) :=
  if t.align8 then
    if st.nfpr + n / 2 ≤ nargFpr then some (2 * st.nfpr, { st with nfpr := st.nfpr + n / 2 })
    else none
  else
    -- `sz` is a number of bytes, so `sz > 1` always holds
    let fprodd := if 4 * n > 1 ∧ st.fprodd ≠ st.nfpr then 0 else st.fprodd
    if fprodd ≠ 0 then
      if 2 * st.nfpr + n ≤ 2 * nargFpr + 1 then
        some (2 * (fprodd - 1) + 1,
          { st with
            nfpr := st.nfpr + n / 2
            fprodd := if n % 2 = 1 then 0 else st.nfpr + n / 2 - 1 })
      else none
    else
      if 2 * st.nfpr + n ≤ 2 * nargFpr then
        some (2 * st.nfpr,
          if n % 2 = 1 then
            { st with nfpr := st.nfpr + n / 2 + 1, fprodd := st.nfpr + n / 2 + 1 }
          else { st with nfpr := st.nfpr + n / 2, fprodd := 0 })
      else none

/-- Pass an argument on the stack. -/
def setStack (st : SetArgs) (a : Arg) (n : ℕ) : Option (SetArgs × Placement) :=
  let nsp := if a.type.align8 then Align.up 2 st.nsp else st.nsp
  if nsp + n > maxStack then none
  else
    some ({ st with nsp := nsp + n },
      wordsAt a ((List.range n).map fun j => .stack (nsp + j)))

/-- `gpr` and `stack` are adjacent fields. -/
def gprField (i : ℕ) : Place :=
  if i < nargGpr then .gpr i else .stack (i - nargGpr)

/-- One round of the loop over the arguments. -/
def ccallSetArg (abi : Abi) (st : SetArgs) (a : Arg) : Option (SetArgs × Placement) :=
  let n := a.type.words
  if abi = .hard ∧ a.type.isFp then
    match regargFp1 st a.type n with
    | some (s, st') => some (st', wordsAt a ((List.range n).map fun j => .vfp (s + j)))
    | none => setStack { st with fprodd := 0 } a n
  else
    let ngpr := if a.type.align8 ∧ st.ngpr < nargGpr then Align.up 2 st.ngpr else st.ngpr
    if ngpr < nargGpr then
      let ps := wordsAt a ((List.range n).map fun j => gprField (ngpr + j))
      if ngpr + n > nargGpr then
        let nsp := st.nsp + (ngpr + n - nargGpr)
        if nsp > maxStack then none else some ({ st with ngpr := nargGpr, nsp := nsp }, ps)
      else some ({ st with ngpr := ngpr + n }, ps)
    else setStack { st with ngpr := ngpr } a n

/-- The loop over the arguments. -/
def ccallSetArgsFrom (abi : Abi) (st : SetArgs) : List Arg → Option Placement
  | [] => some []
  | a :: as =>
      match ccallSetArg abi st a with
      | none => none
      | some (st', ps) => (ccallSetArgsFrom abi st' as).map (ps ++ ·)

/-- `ccall_set_args`, for a function that is not variadic and has no result in memory. -/
def ccallSetArgs (abi : Abi) (args : List Arg) : Option Placement :=
  ccallSetArgsFrom abi { ngpr := 0, nsp := 0, nfpr := 0, fprodd := 0 } args

/-! ### The recorded tree -/

/-- An operand of a `CARG`: `REF_NIL`, a value, or a word of a split value. -/
inductive Operand where
  | nil
  | val (a : Arg)
  | lo (ref : ℕ)
  | hi (ref : ℕ)
  deriving DecidableEq

/-- The left operand of a `CALLXS`: an operand, or a `CARG`. -/
inductive Carg where
  | leaf (o : Operand)
  | carg (op1 : Carg) (op2 : Operand)
  deriving DecidableEq

/-- `CCI_NARGS_MAX`. -/
def nargsMax : ℕ := 32

/-- `crec_call_args`, after the conversions. -/
def crecCallArgs (args : List Arg) : Option Carg :=
  if args.length > nargsMax then none
  else
    match args with
    | [] => some (.leaf .nil)
    | a :: as => some (as.foldl (fun tr b => .carg tr (.val b)) (.leaf (.val a)))

/-! ### The split pass -/

/-- The types that are split in two words. -/
def split64 (abi : Abi) : ArgType → Bool
  | .int64 => true
  | .double => abi = .soft
  | _ => false

/-- The reference that replaces a value, and `hisubst`. -/
@[grind =]
def subst (abi : Abi) : Operand → Operand
  | .val a => if split64 abi a.type then .lo a.ref else .val a
  | o => o

def hisubst (abi : Abi) : Operand → Option Operand
  | .val a => if split64 abi a.type then some (.hi a.ref) else none
  | _ => none

/-- The number of `CARG` instructions in a tree. -/
@[grind =]
def cargCount : Carg → ℕ
  | .leaf _ => 0
  | .carg op1 _ => cargCount op1 + 1

/-- The replacement of the left operand of a `CARG` or a `CALLXS`.  The high word of a split value
follows it; a `CARG` has no high word. -/
def splitOp1 (abi : Abi) (t : Carg) (t' : Carg) : Carg :=
  match t with
  | .leaf o =>
      match hisubst abi o with
      | some hi => .carg (.leaf (subst abi o)) hi
      | none => .leaf (subst abi o)
  | .carg _ _ => t'

/-- `split_ir` for the `CARG` instructions of a tree. -/
def splitCarg (abi : Abi) : Carg → Carg
  | .leaf o => .leaf (subst abi o)
  | .carg op1 op2 =>
      let nir1 := splitOp1 abi op1 (splitCarg abi op1)
      match hisubst abi op2 with
      | some hi =>
          -- Align 64 bit arguments.
          let nir1 := if cargCount nir1 % 2 = 0 then .carg nir1 .nil else nir1
          .carg (.carg nir1 (subst abi op2)) hi
      | none => .carg nir1 (subst abi op2)

/-- `split_ir` for a `CALLXS`.  It is the identity if nothing has to be split, and is not run then. -/
def splitCallxs (abi : Abi) (t : Carg) : Carg := splitOp1 abi t (splitCarg abi t)

/-! ### Code generation -/

/-- `asm_callx_flags` and `asm_collectargs`: the arguments of a tree. -/
@[grind =]
def asmCollectargs : Carg → List Operand
  | .leaf .nil => []
  | .leaf o => [o]
  | .carg op1 op2 => asmCollectargs op1 ++ [op2]

/-- `REGARG_LASTGPR` and `REGARG_LASTFPR`, counted from the first one. -/
def lastGpr : ℕ := 3
def lastFpr : ℕ := 7

/-- The counters of `asm_gencall`; `ofs` counts words. -/
structure Gencall where
  gpr : ℕ
  fpr : ℕ
  fprodd : Option ℕ
  ofs : ℕ
  deriving DecidableEq

/-- `stackfp`. -/
@[grind =]
def genStackfp (st : Gencall) (a : Arg) : Gencall × Placement :=
  if a.type = .double then
    let ofs := Align.up 2 st.ofs
    ({ st with ofs := ofs + 2 }, wordsAt a [.stack ofs, .stack (ofs + 1)])
  else ({ st with ofs := st.ofs + 1 }, wordsAt a [.stack st.ofs])

/-- A floating point argument, with an FPU. -/
def genFp (abi : Abi) (st : Gencall) (a : Arg) : Gencall × Placement :=
  if abi = .hard then
    if a.type = .double then
      if st.fpr ≤ lastFpr then
        ({ st with fpr := st.fpr + 1 }, wordsAt a [.vfp (2 * st.fpr), .vfp (2 * st.fpr + 1)])
      else genStackfp { st with fprodd := none } a
    else
      match st.fprodd with
      | some d => ({ st with fprodd := none }, wordsAt a [.vfp (2 * d + 1)])
      | none =>
          if st.fpr ≤ lastFpr then
            ({ st with fprodd := some st.fpr, fpr := st.fpr + 1 }, wordsAt a [.vfp (2 * st.fpr)])
          else genStackfp { st with fprodd := none } a
  else
    let gpr := if a.type = .double then Align.up 2 st.gpr else st.gpr
    if gpr ≤ lastGpr then
      if a.type = .double then
        ({ st with gpr := gpr + 2 }, wordsAt a [.gpr gpr, .gpr (gpr + 1)])
      else ({ st with gpr := gpr + 1 }, wordsAt a [.gpr gpr])
    else genStackfp { st with gpr := gpr } a

/-- The next core register or word of the stack. -/
def genWord (st : Gencall) : Gencall × Place :=
  if st.gpr ≤ lastGpr then ({ st with gpr := st.gpr + 1 }, .gpr st.gpr)
  else ({ st with ofs := st.ofs + 1 }, .stack st.ofs)

/-- One argument of `asm_gencall`. -/
def gencallArg (abi : Abi) (st : Gencall) : Operand → Gencall × Placement
  | .nil => ((genWord st).1, [])
  | .lo ref => ((genWord st).1, [((ref, 0), (genWord st).2)])
  | .hi ref => ((genWord st).1, [((ref, 1), (genWord st).2)])
  | .val a =>
      if abi ≠ .soft ∧ a.type.isFp then genFp abi st a
      else ((genWord st).1, [((a.ref, 0), (genWord st).2)])

/-- The loop over the arguments. -/
@[grind =]
def gencallFrom (abi : Abi) (st : Gencall) : List Operand → Gencall × Placement
  | [] => (st, [])
  | o :: os =>
      let r := gencallFrom abi (gencallArg abi st o).1 os
      (r.1, (gencallArg abi st o).2 ++ r.2)

/-- `asm_gencall`. -/
def asmGencall (abi : Abi) (args : List Operand) : Placement :=
  (gencallFrom abi { gpr := 0, fpr := 0, fprodd := none, ofs := 0 } args).2

/-! ### Stack slots -/

/-- The counters of `asm_setup_call_slots`. -/
structure Slots where
  nslots : ℕ
  ngpr : ℕ
  nfpr : ℕ
  fprodd : ℕ
  deriving DecidableEq

/-- A word of the core registers or of the stack. -/
def slotsWord (st : Slots) : Slots :=
  if st.ngpr > 0 then { st with ngpr := st.ngpr - 1 } else { st with nslots := st.nslots + 1 }

/-- A floating point argument, with an FPU. -/
def slotsFp (abi : Abi) (st : Slots) (t : ArgType) : Slots :=
  if abi = .hard then
    if t = .double then
      if st.nfpr > 0 then { st with nfpr := st.nfpr - 1 }
      else { st with fprodd := 0, nslots := (st.nslots + 3) / 2 * 2 }
    else if st.fprodd ≠ 0 then { st with fprodd := st.fprodd - 1 }
    else if st.nfpr > 0 then { st with fprodd := 1, nfpr := st.nfpr - 1 }
    else { st with nslots := st.nslots + 1 }
  else if t = .double then
    let ngpr := st.ngpr / 2 * 2
    -- the words are not aligned here
    if ngpr > 0 then { st with ngpr := ngpr - 2 }
    else { st with ngpr := ngpr, nslots := st.nslots + 2 }
  else slotsWord st

/-- One argument of `asm_setup_call_slots`. -/
def slotsArg (abi : Abi) (st : Slots) : Operand → Slots
  | .val a => if abi ≠ .soft ∧ a.type.isFp then slotsFp abi st a.type else slotsWord st
  | _ => slotsWord st

/-- `asm_setup_call_slots`: the first slot that is left for spilling. -/
def asmSetupCallSlots (abi : Abi) (args : List Operand) (evenspill : ℕ) : ℕ :=
  let st := args.foldl (slotsArg abi) { nslots := 0, ngpr := 4, nfpr := 8, fprodd := 0 }
  if st.nslots > evenspill then st.nslots else evenspill

/-- The compiled call: the places of the words, and the first slot that is left for spilling. -/
def compiledCall (abi : Abi) (args : List Arg) (evenspill : ℕ) : Option (Placement × ℕ) :=
  (crecCallArgs args).map fun t =>
    let os := asmCollectargs (splitCallxs abi t)
    (asmGencall abi os, asmSetupCallSlots abi os evenspill)

/-! ### The operands of the split tree -/

/-- The operands of an argument that stands after `n` others: a 64 bit argument is padded. -/
def block (abi : Abi) (n : ℕ) (a : Arg) : List Operand :=
  if split64 abi a.type then
    (if n % 2 = 1 then [.nil] else []) ++ [.lo a.ref, .hi a.ref]
  else [.val a]

/-- The operands of a list of arguments. -/
def operandsFrom (abi : Abi) (n : ℕ) : List Arg → List Operand
  | [] => []
  | a :: as => block abi n a ++ operandsFrom abi (n + (block abi n a).length) as

theorem operandsFrom_append_singleton (abi : Abi) (n : ℕ) (as : List Arg) (b : Arg) :
    operandsFrom abi n (as ++ [b]) =
      operandsFrom abi n as ++ block abi (n + (operandsFrom abi n as).length) b := by
  induction as generalizing n with
  | nil => simp [operandsFrom]
  | cons a as ih =>
      simp only [List.cons_append, operandsFrom, ih, List.length_append, List.append_assoc]
      rw [Nat.add_assoc]

/-- A further argument of the tree adds its block to the operands. -/
theorem collect_split_carg (abi : Abi) (t : Carg) (b : Arg)
    (hlen : (asmCollectargs (splitCallxs abi t)).length = cargCount (splitCallxs abi t) + 1) :
    asmCollectargs (splitCallxs abi (.carg t (.val b))) =
      asmCollectargs (splitCallxs abi t) ++
        block abi (asmCollectargs (splitCallxs abi t)).length b ∧
    (asmCollectargs (splitCallxs abi (.carg t (.val b)))).length =
      cargCount (splitCallxs abi (.carg t (.val b))) + 1 := by
  have hstep : splitCallxs abi (.carg t (.val b)) = splitCarg abi (.carg t (.val b)) := rfl
  have ht : splitOp1 abi t (splitCarg abi t) = splitCallxs abi t := rfl
  rw [hstep, hlen]
  cases hb : split64 abi b.type with
  | false =>
      simp [splitCarg, hisubst, subst, block, hb, ht, asmCollectargs, cargCount, hlen]
  | true =>
      by_cases hpar : cargCount (splitCallxs abi t) % 2 = 0
      · have hodd : (cargCount (splitCallxs abi t) + 1) % 2 = 1 := by lia
        simp [splitCarg, hisubst, subst, block, hb, ht, asmCollectargs, cargCount, hlen, hpar, hodd]
      · have heven : (cargCount (splitCallxs abi t) + 1) % 2 ≠ 1 := by lia
        simp [splitCarg, hisubst, subst, block, hb, ht, asmCollectargs, cargCount, hlen, hpar,
          heven]

theorem collect_split_foldl (abi : Abi) (a : Arg) (as : List Arg) :
    asmCollectargs (splitCallxs abi (as.foldl (fun tr b => .carg tr (.val b)) (.leaf (.val a)))) =
      operandsFrom abi 0 (a :: as) ∧
    (asmCollectargs
      (splitCallxs abi (as.foldl (fun tr b => .carg tr (.val b)) (.leaf (.val a))))).length =
      cargCount (splitCallxs abi (as.foldl (fun tr b => .carg tr (.val b)) (.leaf (.val a)))) + 1 := by
  induction as using List.reverseRecOn with
  | nil =>
      cases ha : split64 abi a.type <;>
        simp [splitCallxs, splitOp1, hisubst, subst, operandsFrom, block, ha, asmCollectargs, cargCount]
  | append_singleton as b ih =>
      obtain ⟨ih, ihlen⟩ := ih
      have h := collect_split_carg abi _ b ihlen
      rw [List.foldl_append, List.foldl_cons, List.foldl_nil]
      refine ⟨?_, h.2⟩
      rw [h.1, ih, ← List.cons_append, operandsFrom_append_singleton, Nat.zero_add]

/-- The operands that the code generator sees are the blocks of the arguments. -/
theorem collect_split {abi : Abi} {args : List Arg} {t : Carg} (h : crecCallArgs args = some t) :
    asmCollectargs (splitCallxs abi t) = operandsFrom abi 0 args := by
  obtain ⟨-, h⟩ := Option.ite_none_left_eq_some.1 h
  cases args with
  | nil =>
      obtain rfl := Option.some.inj h
      rfl
  | cons a as =>
      obtain rfl := Option.some.inj h
      exact (collect_split_foldl abi a as).1

/-! ### The procedure call standard -/

/-- The kind of an argument. -/
def kind (abi : Abi) : ArgType → Kind
  | .int32 | .ptr => .word
  | .int64 => .pair
  | .float => if abi = .hard then .single else .word
  | .double => if abi = .hard then .double else .pair

/-- The kind of an argument tells how many words it has, and whether VFP registers are for it. -/
theorem kind_spec (abi : Abi) (t : ArgType) :
    (kind abi t = .word → t.words = 1 ∧ t.align8 = false ∧ ¬ (abi = .hard ∧ t.isFp = true)) ∧
    (kind abi t = .pair → t.words = 2 ∧ t.align8 = true ∧ ¬ (abi = .hard ∧ t.isFp = true)) ∧
    (kind abi t = .single → t.words = 1 ∧ t.align8 = false ∧ abi = .hard ∧ t.isFp = true) ∧
    (kind abi t = .double → t.words = 2 ∧ t.align8 = true ∧ abi = .hard ∧ t.isFp = true) := by
  cases abi <;> cases t <;> decide

/-- The places that the procedure call standard gives to an argument. -/
def aapcsArg (abi : Abi) (s : State) (a : Arg) : Placement :=
  wordsAt a (Aapcs.alloc s (kind abi a.type)).2

/-- The state of the standard after an argument. -/
def aapcsNext (abi : Abi) (s : State) (t : ArgType) : State := (Aapcs.alloc s (kind abi t)).1

/-- The words in front of an argument, if every argument took core registers: one for a value that is
not split, an aligned pair for one that is. -/
def paddedWords (abi : Abi) (n : ℕ) (t : ArgType) : ℕ :=
  if split64 abi t then Align.up 2 n + 2 else n + 1

/-- An argument that both sides place alike: `s` is the state of the standard in front of it, `n` the
padded words in front of it. -/
structure PlaceOk (abi : Abi) (n : ℕ) (s : State) (t : ArgType) : Prop where
  /-- a single that fills the upper half of a register follows the single in the lower half, but for
  words in core registers -/
  single : kind abi t = .single → ∀ k, s.half = some k → s.nd = k + 1
  /-- a 64 bit argument is padded exactly if the register or the word of the stack is odd -/
  padGpr : split64 abi t = true → s.ncrn < 4 →
    (n % 2 = 1 ↔ s.ncrn % 2 = 1) ∧ (s.ncrn = 3 → s.nsaa % 2 = 0)
  padStack : split64 abi t = true → s.ncrn = 4 → (n % 2 = 1 ↔ s.nsaa % 2 = 1)

@[simp] theorem wordsAt_one (a : Arg) (p : Place) : wordsAt a [p] = [((a.ref, 0), p)] := rfl

@[simp] theorem wordsAt_two (a : Arg) (p q : Place) :
    wordsAt a [p, q] = [((a.ref, 0), p), ((a.ref, 1), q)] := rfl

@[simp] theorem wordsAt_length (a : Arg) (ps : List Place) : (wordsAt a ps).length = ps.length := by
  simp [wordsAt]

/-! ### The interpreter follows the standard -/

/-- The counters of the interpreter in a state of the standard. -/
structure SetArgs.Rel (s : State) (st : SetArgs) : Prop where
  ngpr : st.ngpr = s.ncrn
  nsp : st.nsp = s.nsaa
  nfpr : st.nfpr = s.nd
  fprodd : st.fprodd = (s.half.map (· + 1)).getD 0

/-- Passing an argument of one word on the stack. -/
theorem setStack_one {st st' : SetArgs} {a : Arg} {P : Placement} (ha : a.type.align8 = false)
    (h : setStack st a 1 = some (st', P)) :
    P = wordsAt a [.stack st.nsp] ∧ st' = { st with nsp := st.nsp + 1 } := by
  simp only [setStack, ha, Bool.false_eq_true, if_false] at h
  obtain ⟨-, h⟩ := Option.ite_none_left_eq_some.1 h
  simp only [Option.some.injEq, Prod.mk.injEq] at h
  exact ⟨h.2.symm, h.1.symm⟩

/-- Passing an argument of two words on the stack. -/
theorem setStack_two {st st' : SetArgs} {a : Arg} {P : Placement} (ha : a.type.align8 = true)
    (h : setStack st a 2 = some (st', P)) :
    P = wordsAt a [.stack (Align.up 2 st.nsp), .stack (Align.up 2 st.nsp + 1)] ∧
      st' = { st with nsp := Align.up 2 st.nsp + 2 } := by
  simp only [setStack, ha, if_true] at h
  obtain ⟨-, h⟩ := Option.ite_none_left_eq_some.1 h
  simp only [Option.some.injEq, Prod.mk.injEq] at h
  exact ⟨h.2.symm, h.1.symm⟩

/-- An argument of one word that is not passed in VFP registers. -/
theorem setArg_word {abi : Abi} {s : State} {st st' : SetArgs} {a : Arg} {P : Placement}
    (hr : st.Rel s) (hk : kind abi a.type = .word) (h : ccallSetArg abi st a = some (st', P)) :
    P = aapcsArg abi s a ∧ st'.Rel (aapcsNext abi s a.type) := by
  obtain ⟨hw, hal, hfp⟩ := (kind_spec abi a.type).1 hk
  unfold ccallSetArg at h
  rw [if_neg hfp] at h
  simp only [hw, hal, Bool.false_eq_true, false_and, if_false, nargGpr] at h
  unfold aapcsArg aapcsNext
  rw [hk]
  simp only [Aapcs.alloc]
  by_cases hlt : s.ncrn < 4
  · rw [if_pos (by rw [hr.ngpr]; exact hlt), if_neg (by rw [hr.ngpr]; omega)] at h
    simp only [Option.some.injEq, Prod.mk.injEq] at h
    obtain ⟨rfl, rfl⟩ := h
    rw [dif_pos hlt, hr.ngpr]
    refine ⟨?_, ⟨rfl, hr.nsp, hr.nfpr, hr.fprodd⟩⟩
    simp [List.range_succ, gprField, nargGpr, hlt]
  · rw [if_neg (by rw [hr.ngpr]; exact hlt)] at h
    obtain ⟨rfl, rfl⟩ := setStack_one hal h
    rw [dif_neg hlt, Aapcs.up_one, hr.nsp]
    exact ⟨rfl, ⟨hr.ngpr, by simp [State.takeStack], hr.nfpr, hr.fprodd⟩⟩

/-- An argument of two words that is not passed in VFP registers. -/
theorem setArg_pair {abi : Abi} {s : State} {st st' : SetArgs} {a : Arg} {P : Placement}
    (hr : st.Rel s) (hk : kind abi a.type = .pair) (h : ccallSetArg abi st a = some (st', P)) :
    P = aapcsArg abi s a ∧ st'.Rel (aapcsNext abi s a.type) := by
  obtain ⟨hw, hal, hfp⟩ := (kind_spec abi a.type).2.1 hk
  have hle := s.ncrn_le
  have hup : Align.up 2 s.ncrn < 4 ∨ Align.up 2 s.ncrn = 4 := by unfold Align.up; lia
  have heven : Align.up 2 s.ncrn % 2 = 0 := Nat.mod_eq_zero_of_dvd (Align.dvd_up 2 s.ncrn)
  -- the register that the interpreter arrives at
  have hng : (if st.ngpr < 4 then Align.up 2 st.ngpr else st.ngpr) = Align.up 2 s.ncrn := by
    rw [hr.ngpr]
    split
    · rfl
    · have : s.ncrn = 4 := by lia
      rw [this]
      rfl
  unfold ccallSetArg at h
  rw [if_neg hfp] at h
  simp only [hw, hal, nargGpr, true_and, hng] at h
  unfold aapcsArg aapcsNext
  rw [hk]
  simp only [Aapcs.alloc]
  by_cases hlt : Align.up 2 s.ncrn < 4
  · rw [if_pos hlt, if_neg (by lia)] at h
    simp only [Option.some.injEq, Prod.mk.injEq] at h
    obtain ⟨rfl, rfl⟩ := h
    rw [dif_pos hlt]
    refine ⟨?_, ⟨rfl, hr.nsp, hr.nfpr, hr.fprodd⟩⟩
    have h1 : Align.up 2 s.ncrn + 1 < 4 := by lia
    simp [List.range_succ, gprField, nargGpr, hlt, h1]
  · rw [if_neg hlt] at h
    obtain ⟨rfl, rfl⟩ := setStack_two hal h
    rw [dif_neg hlt]
    rw [hr.nsp]
    exact ⟨rfl, ⟨hup.resolve_left hlt, rfl, hr.nfpr, hr.fprodd⟩⟩

/-- A double in VFP registers or on the stack. -/
theorem setArg_double {abi : Abi} {s : State} {st st' : SetArgs} {a : Arg} {P : Placement}
    (hr : st.Rel s) (hk : kind abi a.type = .double) (h : ccallSetArg abi st a = some (st', P)) :
    P = aapcsArg abi s a ∧ st'.Rel (aapcsNext abi s a.type) := by
  obtain ⟨hw, hal, hfp⟩ := (kind_spec abi a.type).2.2.2 hk
  have hle := s.nd_le
  unfold ccallSetArg at h
  rw [if_pos hfp] at h
  simp only [hw, regargFp1, hal, if_true, hr.nfpr, nargFpr] at h
  unfold aapcsArg aapcsNext
  rw [hk]
  simp only [Aapcs.alloc]
  by_cases hlt : s.nd < 8
  · rw [if_pos (by omega)] at h
    simp only [Option.some.injEq, Prod.mk.injEq] at h
    obtain ⟨rfl, rfl⟩ := h
    rw [dif_pos hlt]
    exact ⟨rfl, ⟨hr.ngpr, hr.nsp, rfl, hr.fprodd⟩⟩
  · rw [if_neg (by omega)] at h
    obtain ⟨rfl, rfl⟩ := setStack_two hal h
    rw [dif_neg hlt]
    rw [hr.nsp]
    exact ⟨rfl, ⟨hr.ngpr, rfl, rfl, rfl⟩⟩

/-- A single.  The counter `fprodd` outlives a double between two singles, and is dropped then. -/
theorem setArg_single {abi : Abi} {s : State} {st st' : SetArgs} {a : Arg} {P : Placement}
    (hr : st.Rel s) (hk : kind abi a.type = .single) (h : ccallSetArg abi st a = some (st', P)) :
    (P = aapcsArg abi s a ↔ ∀ k, s.half = some k → s.nd = k + 1) ∧
    ((∀ k, s.half = some k → s.nd = k + 1) → st'.Rel (aapcsNext abi s a.type)) := by
  obtain ⟨hw, hal, hfp⟩ := (kind_spec abi a.type).2.2.1 hk
  have hle := s.nd_le
  unfold ccallSetArg at h
  rw [if_pos hfp] at h
  unfold aapcsArg aapcsNext
  rw [hk]
  simp only [hw, regargFp1, hal, Bool.false_eq_true, if_false, hr.nfpr, hr.fprodd, nargFpr] at h
  simp only [Aapcs.alloc]
  -- a single that starts a new register, or goes to the stack
  have hfresh : ∀ (_ : s.half = none ∨ ∃ k, s.half = some k ∧ s.nd ≠ k + 1),
      (if h : s.nd < 8 then P = wordsAt a [.vfp (2 * s.nd)] ∧ st'.Rel (s.takeSingle h)
       else P = wordsAt a [.stack s.nsaa] ∧ st'.Rel (s.noHalf.takeStack 1)) := by
    intro hhalf
    have hz : (if 4 * 1 > 1 ∧ ¬ (s.half.map (· + 1)).getD 0 = s.nd then 0
        else (s.half.map (· + 1)).getD 0) = 0 := by
      rcases hhalf with hn | ⟨k, hks, hne⟩
      · simp [hn]
      · simp [hks, Ne.symm hne]
    simp only [ne_eq, hz, not_true_eq_false, if_false] at h
    by_cases hlt : s.nd < 8
    · rw [if_pos (by omega)] at h
      simp only [Option.some.injEq, Prod.mk.injEq] at h
      obtain ⟨rfl, rfl⟩ := h
      rw [dif_pos hlt]
      exact ⟨rfl, ⟨hr.ngpr, hr.nsp, rfl, rfl⟩⟩
    · rw [if_neg (by omega)] at h
      obtain ⟨rfl, rfl⟩ := setStack_one hal h
      rw [dif_neg hlt]
      rw [hr.nsp]
      exact ⟨rfl, ⟨hr.ngpr, by simp [State.takeStack, State.noHalf], rfl, rfl⟩⟩
  cases hhalf : s.half with
  | none =>
      have hf := hfresh (.inl hhalf)
      simp only [reduceCtorEq, false_imp_iff, implies_true, iff_true, true_imp_iff]
      by_cases hlt : s.nd < 8
      · rw [dif_pos hlt] at hf ⊢
        exact hf
      · rw [dif_neg hlt] at hf ⊢
        have hno : s.noHalf = s := by ext <;> simp [State.noHalf, hhalf]
        rw [hno] at hf
        simpa using hf
  | some k =>
      simp only [Option.some.injEq, forall_eq']
      have hkd := s.half_lt k hhalf
      by_cases hnd : s.nd = k + 1
      · simp only [hhalf, hnd, Option.map_some, Option.getD_some] at h
        have hk8 : 2 * (k + 1) < 17 := by omega
        simp [hk8] at h
        obtain ⟨rfl, rfl⟩ := h
        simp only [hnd, true_imp_iff, iff_true]
        exact ⟨rfl, ⟨hr.ngpr, hr.nsp, by simp [State.noHalf, hnd], by simp [State.noHalf]⟩⟩
      · have hf := hfresh (.inr ⟨k, hhalf, hnd⟩)
        simp only [hnd, iff_false, false_imp_iff, and_true]
        intro hP
        by_cases hlt : s.nd < 8
        · rw [dif_pos hlt, hP] at hf
          have := hf.1
          simp at this
          omega
        · rw [dif_neg hlt, hP] at hf
          simp at hf

/-- The interpreter follows the procedure call standard, but for singles behind doubles. -/
theorem setArg_iff {abi : Abi} {s : State} {st st' : SetArgs} {a : Arg} {P : Placement}
    (hr : st.Rel s) (h : ccallSetArg abi st a = some (st', P)) :
    (P = aapcsArg abi s a ↔ (kind abi a.type = .single → ∀ k, s.half = some k → s.nd = k + 1)) ∧
    (P = aapcsArg abi s a → st'.Rel (aapcsNext abi s a.type)) := by
  cases hk : kind abi a.type with
  | word =>
      obtain ⟨hP, hr'⟩ := setArg_word hr hk h
      exact ⟨by simp [hP], fun _ => hr'⟩
  | pair =>
      obtain ⟨hP, hr'⟩ := setArg_pair hr hk h
      exact ⟨by simp [hP], fun _ => hr'⟩
  | single =>
      obtain ⟨hP, hr'⟩ := setArg_single hr hk h
      exact ⟨by simpa using hP, fun h => hr' (hP.1 h)⟩
  | double =>
      obtain ⟨hP, hr'⟩ := setArg_double hr hk h
      exact ⟨by simp [hP], fun _ => hr'⟩

/-! ### The code generator follows the standard -/

/-- The counters of the code generator in a state of the standard. -/
def Gencall.ofState (s : State) : Gencall :=
  { gpr := s.ncrn, fpr := s.nd, fprodd := s.half, ofs := s.nsaa }

/-- A word in a core register or on the stack. -/
theorem genWord_spec (s : State) :
    (Aapcs.alloc s .word).2 = [(genWord (.ofState s)).2] ∧
      (genWord (.ofState s)).1 = .ofState (Aapcs.alloc s .word).1 := by
  unfold genWord
  simp only [Aapcs.alloc]
  by_cases hlt : s.ncrn < 4
  · have hg : (Gencall.ofState s).gpr ≤ lastGpr := Nat.le_of_lt_succ hlt
    rw [dif_pos hlt, if_pos hg]
    exact ⟨rfl, rfl⟩
  · have hg : ¬ (Gencall.ofState s).gpr ≤ lastGpr := fun h => hlt (Nat.lt_succ_of_le h)
    rw [dif_neg hlt, if_neg hg, Aapcs.up_one]
    simp [State.takeStack, Gencall.ofState]

/-- A value of one word that is not passed in VFP registers. -/
theorem gencall_word {abi : Abi} (s : State) {a : Arg} (hk : kind abi a.type = .word) :
    gencallArg abi (.ofState s) (.val a) =
      (.ofState (aapcsNext abi s a.type), aapcsArg abi s a) := by
  obtain ⟨hp, hr⟩ := genWord_spec s
  unfold aapcsArg aapcsNext
  rw [hk, hp, ← hr]
  simp only [gencallArg]
  split
  next hfp =>
    -- with an FPU and the soft-float ABI, a float takes the same word as an integer
    have hdbl : a.type ≠ .double := by
      intro ht
      rw [ht] at hk
      simp only [kind] at hk
      split at hk <;> simp at hk
    have hhard : abi ≠ .hard := fun h => ((kind_spec abi a.type).1 hk).2.2 ⟨h, hfp.2⟩
    simp only [genFp, if_neg hhard, if_neg hdbl, genWord, genStackfp]
    split <;> rfl
  next => rfl

/-- A double in a pair of core registers, with an FPU and the soft-float ABI. -/
theorem gencall_pair {abi : Abi} (s : State) {a : Arg} (hk : kind abi a.type = .pair)
    (hs : split64 abi a.type = false) :
    gencallArg abi (.ofState s) (.val a) =
      (.ofState (aapcsNext abi s a.type), aapcsArg abi s a) := by
  have hab : abi = .softfp ∧ a.type = .double := by
    revert hk hs
    cases abi <;> cases a.type <;> decide
  obtain ⟨rfl, ht⟩ := hab
  have hle := s.ncrn_le
  have hup : Align.up 2 s.ncrn < 4 ∨ Align.up 2 s.ncrn = 4 := by unfold Align.up; lia
  unfold aapcsArg aapcsNext
  rw [hk]
  simp only [gencallArg, ht, genFp, genStackfp, Aapcs.alloc, lastGpr, Gencall.ofState, ne_eq,
    reduceCtorEq, not_false_eq_true, ArgType.isFp, and_self, if_true, if_false]
  by_cases hlt : Align.up 2 s.ncrn < 4
  · rw [dif_pos hlt, if_pos (by omega)]
    rfl
  · rw [dif_neg hlt, if_neg (by omega), hup.resolve_left hlt]
    rfl

/-- A single, in the order of the standard. -/
theorem gencall_single {abi : Abi} (s : State) {a : Arg} (hk : kind abi a.type = .single) :
    gencallArg abi (.ofState s) (.val a) =
      (.ofState (aapcsNext abi s a.type), aapcsArg abi s a) := by
  have hab : abi = .hard ∧ a.type = .float := by
    revert hk
    cases abi <;> cases a.type <;> decide
  obtain ⟨rfl, ht⟩ := hab
  unfold aapcsArg aapcsNext
  rw [hk]
  simp only [gencallArg, ht, genFp, genStackfp, Aapcs.alloc, lastFpr, Gencall.ofState, ne_eq,
    reduceCtorEq, not_false_eq_true, ArgType.isFp, and_self, if_true, if_false]
  cases hhalf : s.half with
  | some k => rfl
  | none =>
      by_cases hlt : s.nd < 8
      · simp only [dif_pos hlt, if_pos (show s.nd ≤ 7 by omega)]
        rfl
      · simp only [dif_neg hlt, if_neg (show ¬ s.nd ≤ 7 by omega), Aapcs.up_one]
        simp [State.takeStack, hhalf]

/-- A double in VFP registers or on the stack. -/
theorem gencall_double {abi : Abi} (s : State) {a : Arg} (hk : kind abi a.type = .double) :
    gencallArg abi (.ofState s) (.val a) =
      (.ofState (aapcsNext abi s a.type), aapcsArg abi s a) := by
  have hab : abi = .hard ∧ a.type = .double := by
    revert hk
    cases abi <;> cases a.type <;> decide
  obtain ⟨rfl, ht⟩ := hab
  unfold aapcsArg aapcsNext
  rw [hk]
  simp only [gencallArg, ht, genFp, genStackfp, Aapcs.alloc, lastFpr, Gencall.ofState, ne_eq,
    reduceCtorEq, not_false_eq_true, ArgType.isFp, and_self, if_true]
  by_cases hlt : s.nd < 8
  · rw [dif_pos hlt, if_pos (by omega)]
    rfl
  · rw [dif_neg hlt, if_neg (by omega)]
    rfl

/-- A value that is not split. -/
theorem gencall_val {abi : Abi} (s : State) {a : Arg} (hs : split64 abi a.type = false) :
    gencallArg abi (.ofState s) (.val a) =
      (.ofState (aapcsNext abi s a.type), aapcsArg abi s a) := by
  cases hk : kind abi a.type with
  | word => exact gencall_word s hk
  | pair => exact gencall_pair s hk hs
  | single => exact gencall_single s hk
  | double => exact gencall_double s hk

/-- Padding and splitting give an aligned pair exactly if the parity of the operands is the parity of
the registers, or of the words of the stack once the registers are used up. -/
theorem gencall_split {abi : Abi} (s : State) (n : ℕ) {a : Arg} (hs : split64 abi a.type = true) :
    ((gencallFrom abi (.ofState s) (block abi n a)).2 = aapcsArg abi s a ↔
      PlaceOk abi n s a.type) ∧
    (PlaceOk abi n s a.type →
      (gencallFrom abi (.ofState s) (block abi n a)).1 = .ofState (aapcsNext abi s a.type)) := by
  have hk : kind abi a.type = .pair := by
    revert hs
    cases abi <;> cases a.type <;> decide
  have hok : PlaceOk abi n s a.type ↔
      (s.ncrn < 4 → (n % 2 = 1 ↔ s.ncrn % 2 = 1) ∧ (s.ncrn = 3 → s.nsaa % 2 = 0)) ∧
      (s.ncrn = 4 → (n % 2 = 1 ↔ s.nsaa % 2 = 1)) :=
    ⟨fun h => ⟨h.padGpr hs, h.padStack hs⟩,
      fun h => ⟨fun h' => by rw [hk] at h'; simp at h', fun _ => h.1, fun _ => h.2⟩⟩
  rw [hok]
  unfold aapcsArg aapcsNext
  rw [hk]
  have hle := s.ncrn_le
  have hcases : s.ncrn = 0 ∨ s.ncrn = 1 ∨ s.ncrn = 2 ∨ s.ncrn = 3 ∨ s.ncrn = 4 := by lia
  by_cases hn : n % 2 = 1
  · rcases hcases with h | h | h | h | h <;>
      simp [block, hs, hn, gencallFrom, gencallArg, genWord, lastGpr, Gencall.ofState, Aapcs.alloc, h,
        Align.up, State.takePair, State.takeStack, State.noGpr] <;> lia
  · rcases hcases with h | h | h | h | h <;>
      simp [block, hs, hn, gencallFrom, gencallArg, genWord, lastGpr, Gencall.ofState, Aapcs.alloc, h,
        Align.up, State.takePair, State.takeStack, State.noGpr]
    lia

/-! ### Both sides, argument by argument -/

/-- One argument: both sides place it alike exactly if it is safe, and then as the standard does. -/
theorem placeArg_iff {abi : Abi} {s : State} {st st' : SetArgs} {a : Arg} {P : Placement} (n : ℕ)
    (hr : st.Rel s) (h : ccallSetArg abi st a = some (st', P)) :
    ((gencallFrom abi (.ofState s) (block abi n a)).2 = P ↔ PlaceOk abi n s a.type) ∧
    (PlaceOk abi n s a.type →
      P = aapcsArg abi s a ∧ st'.Rel (aapcsNext abi s a.type) ∧
      (gencallFrom abi (.ofState s) (block abi n a)).1 = .ofState (aapcsNext abi s a.type)) := by
  obtain ⟨hiff, hnext⟩ := setArg_iff hr h
  cases hs : split64 abi a.type with
  | true =>
      -- a split argument is a pair, and the interpreter follows the standard
      obtain ⟨hgen, hgnext⟩ := gencall_split s n hs
      have hk : kind abi a.type ≠ .single := by
        revert hs
        cases abi <;> cases a.type <;> decide
      have hP : P = aapcsArg abi s a := hiff.2 fun h => absurd h hk
      exact ⟨by rw [hP]; exact hgen, fun hok => ⟨hP, hnext hP, hgnext hok⟩⟩
  | false =>
      have hgen : gencallFrom abi (.ofState s) (block abi n a) =
          (.ofState (aapcsNext abi s a.type), aapcsArg abi s a) := by
        simp [block, hs, gencallFrom, gencall_val s hs]
      have hok : PlaceOk abi n s a.type ↔ P = aapcsArg abi s a := by
        rw [hiff]
        exact ⟨fun h => h.single,
          fun h => ⟨h, fun h' => by simp [hs] at h', fun h' => by simp [hs] at h'⟩⟩
      rw [hgen, hok]
      exact ⟨eq_comm, fun hP => ⟨hP, hnext hP, rfl⟩⟩

theorem setStack_length {st st' : SetArgs} {a : Arg} {n : ℕ} {P : Placement}
    (h : setStack st a n = some (st', P)) : P.length = n := by
  obtain ⟨-, h⟩ := Option.ite_none_left_eq_some.1 h
  simp only [Option.some.injEq, Prod.mk.injEq] at h
  rw [← h.2, wordsAt_length, List.length_map, List.length_range]

/-- The interpreter places as many words as the argument has. -/
theorem setArg_length {abi : Abi} {st st' : SetArgs} {a : Arg} {P : Placement}
    (h : ccallSetArg abi st a = some (st', P)) : P.length = a.type.words := by
  unfold ccallSetArg at h
  split at h
  · simp only at h
    split at h
    · simp only [Option.some.injEq, Prod.mk.injEq] at h
      rw [← h.2, wordsAt_length, List.length_map, List.length_range]
    · exact setStack_length h
  · simp only at h
    generalize (if a.type.align8 = true ∧ st.ngpr < nargGpr then Align.up 2 st.ngpr
      else st.ngpr) = ngpr at h
    split at h
    · split at h
      · obtain ⟨-, h⟩ := Option.ite_none_left_eq_some.1 h
        simp only [Option.some.injEq, Prod.mk.injEq] at h
        rw [← h.2, wordsAt_length, List.length_map, List.length_range]
      · simp only [Option.some.injEq, Prod.mk.injEq] at h
        rw [← h.2, wordsAt_length, List.length_map, List.length_range]
    · exact setStack_length h

theorem genFp_length (abi : Abi) (g : Gencall) {a : Arg} (hfp : a.type.isFp = true) :
    (genFp abi g a).2.length = a.type.words := by
  have hstack (g : Gencall) : (genStackfp g a).2.length = a.type.words := by
    unfold genStackfp
    cases ht : a.type <;> simp [ht, ArgType.isFp] at hfp ⊢ <;> rfl
  unfold genFp
  cases ht : a.type <;> simp only [ht, ArgType.isFp, Bool.false_eq_true] at hfp hstack ⊢ <;>
    repeat' split
  all_goals first | exact hstack _ | rfl | contradiction

/-- The code generator places as many words as the argument has. -/
theorem gencall_block_length (abi : Abi) (g : Gencall) (n : ℕ) (a : Arg) :
    (gencallFrom abi g (block abi n a)).2.length = a.type.words := by
  cases hs : split64 abi a.type with
  | true =>
      have hw : a.type.words = 2 := by
        revert hs
        cases abi <;> cases a.type <;> decide
      unfold block
      rw [if_pos hs, hw]
      split <;> rfl
  | false =>
      simp only [block, hs, Bool.false_eq_true, if_false, gencallFrom, gencallArg, List.append_nil]
      split
      next h => exact genFp_length abi g h.2
      next h =>
        have hw : a.type.words = 1 := by
          revert hs h
          cases abi <;> cases a.type <;> decide
        rw [hw]
        rfl

theorem gencallFrom_append (abi : Abi) (g : Gencall) (os os' : List Operand) :
    gencallFrom abi g (os ++ os') =
      ((gencallFrom abi (gencallFrom abi g os).1 os').1,
        (gencallFrom abi g os).2 ++ (gencallFrom abi (gencallFrom abi g os).1 os').2) := by
  induction os generalizing g with
  | nil => rfl
  | cons o os ih =>
      simp only [List.cons_append, gencallFrom, ih, List.append_assoc]

theorem add_block_length (abi : Abi) (n : ℕ) (a : Arg) :
    n + (block abi n a).length = paddedWords abi n a.type := by
  unfold block paddedWords
  cases hs : split64 abi a.type with
  | false => rfl
  | true =>
      simp only [if_true, Align.up]
      split <;> simp <;> lia

/-! ### Whole calls -/

/-- The state of the standard after some arguments. -/
def stateFrom (abi : Abi) (s : State) (args : List Arg) : State :=
  (Aapcs.run s (args.map fun a => kind abi a.type)).1

/-- The padded words of some arguments. -/
def paddedFrom (abi : Abi) (n : ℕ) (args : List Arg) : ℕ :=
  args.foldl (fun n a => paddedWords abi n a.type) n

@[simp] theorem stateFrom_cons (abi : Abi) (s : State) (a : Arg) (as : List Arg) :
    stateFrom abi s (a :: as) = stateFrom abi (aapcsNext abi s a.type) as := rfl

@[simp] theorem paddedFrom_cons (abi : Abi) (n : ℕ) (a : Arg) (as : List Arg) :
    paddedFrom abi n (a :: as) = paddedFrom abi (paddedWords abi n a.type) as := rfl

/-- A property of every argument and of the arguments in front of it. -/
theorem forall_split_cons {α : Type*} {p : List α → α → Prop} {b : α} {l : List α} :
    (∀ pre a post, b :: l = pre ++ a :: post → p pre a) ↔
      p [] b ∧ ∀ pre a post, l = pre ++ a :: post → p (b :: pre) a := by
  constructor
  · intro h
    exact ⟨h [] b l rfl, fun pre a post hl => h (b :: pre) a post (by rw [hl, List.cons_append])⟩
  · rintro ⟨hb, hl⟩ pre a post h
    cases pre with
    | nil =>
        obtain ⟨rfl, -⟩ := List.cons.inj h
        exact hb
    | cons c pre =>
        obtain ⟨rfl, h'⟩ := List.cons.inj h
        exact hl pre a post h'

/-- Every argument is safe, after arguments that led to `s` and took `n` padded words. -/
def AllPlaceOk (abi : Abi) (n : ℕ) (s : State) (args : List Arg) : Prop :=
  ∀ pre a post, args = pre ++ a :: post →
    PlaceOk abi (paddedFrom abi n pre) (stateFrom abi s pre) a.type

theorem allPlaceOk_cons {abi : Abi} {n : ℕ} {s : State} {a : Arg} {as : List Arg} :
    AllPlaceOk abi n s (a :: as) ↔
      PlaceOk abi n s a.type ∧
        AllPlaceOk abi (paddedWords abi n a.type) (aapcsNext abi s a.type) as :=
  forall_split_cons

/-- The places are equal exactly if every argument is safe; then they are those of the standard. -/
theorem places_iff {abi : Abi} {args : List Arg} {s : State} {st : SetArgs} {P : Placement} (n : ℕ)
    (hr : st.Rel s) (h : ccallSetArgsFrom abi st args = some P) :
    ((gencallFrom abi (.ofState s) (operandsFrom abi n args)).2 = P ↔ AllPlaceOk abi n s args) ∧
    (AllPlaceOk abi n s args →
      P.map Prod.snd = (Aapcs.run s (args.map fun a => kind abi a.type)).2) := by
  induction args generalizing s st P n with
  | nil =>
      obtain rfl := Option.some.inj h
      exact ⟨by simp [operandsFrom, gencallFrom, AllPlaceOk], fun _ => rfl⟩
  | cons a as ih =>
      rw [ccallSetArgsFrom] at h
      cases ha : ccallSetArg abi st a with
      | none => simp [ha] at h
      | some r =>
          obtain ⟨st', p⟩ := r
          simp only [ha, Option.map_eq_some_iff] at h
          obtain ⟨P', hP', rfl⟩ := h
          obtain ⟨hiff, hnext⟩ := placeArg_iff n hr ha
          have hlen : (gencallFrom abi (.ofState s) (block abi n a)).2.length = p.length := by
            rw [gencall_block_length, setArg_length ha]
          rw [allPlaceOk_cons, operandsFrom, gencallFrom_append, add_block_length]
          simp only
          constructor
          · constructor
            · intro heq
              obtain ⟨h1, h2⟩ := List.append_inj heq hlen
              have hok := hiff.1 h1
              obtain ⟨-, hr', hg⟩ := hnext hok
              rw [hg] at h2
              exact ⟨hok, (ih _ hr' hP').1.1 h2⟩
            · rintro ⟨hok, hall⟩
              obtain ⟨-, hr', hg⟩ := hnext hok
              rw [hiff.2 hok, hg, (ih _ hr' hP').1.2 hall]
          · rintro ⟨hok, hall⟩
            obtain ⟨hp, hr', -⟩ := hnext hok
            have hps : p.map Prod.snd = (Aapcs.alloc s (kind abi a.type)).2 := by
              rw [hp, aapcsArg, wordsAt, List.map_map]
              exact List.zipIdx_map_fst _ _
            rw [List.map_append, (ih _ hr' hP').2 hall, hps]
            rfl

/-! ### The count of the stack slots -/

/-- A double that goes to the stack at an odd word, with an FPU and the soft-float ABI. -/
def Misaligned (abi : Abi) (s : State) (t : ArgType) : Prop :=
  abi = .softfp ∧ t = .double ∧ Align.up 2 s.ncrn = 4 ∧ s.nsaa % 2 = 1

/-- The words that `asm_setup_call_slots` does not count for an operand. -/
def padArg (abi : Abi) (g : Gencall) : Operand → ℕ
  | .val a =>
      if abi = .softfp ∧ a.type = .double ∧ Align.up 2 g.gpr = 4 ∧ g.ofs % 2 = 1 then 1 else 0
  | _ => 0

/-- The words that are not counted for a list of operands. -/
@[grind =]
def padsFrom (abi : Abi) (g : Gencall) : List Operand → ℕ
  | [] => 0
  | o :: os => padArg abi g o + padsFrom abi (gencallArg abi g o).1 os

/-- The counters of the two passes, when `p` words have not been counted. -/
structure Slots.Rel (abi : Abi) (g : Gencall) (p : ℕ) (sl : Slots) : Prop where
  ngpr : sl.ngpr + g.gpr = 4
  nfpr : sl.nfpr + g.fpr = 8
  fprodd : sl.fprodd = if g.fprodd.isSome then 1 else 0
  nslots : sl.nslots + p = g.ofs
  pads : abi ≠ .softfp → p = 0

theorem slotsWord_rel {abi : Abi} {g : Gencall} {p : ℕ} {sl : Slots} (hr : sl.Rel abi g p) :
    (slotsWord sl).Rel abi (genWord g).1 p := by
  obtain ⟨h1, h2, h3, h4, h5⟩ := hr
  unfold slotsWord genWord lastGpr
  by_cases hlt : g.gpr ≤ 3
  · rw [if_pos hlt, if_pos (by omega)]
    exact ⟨by simp only; lia, h2, h3, h4, h5⟩
  · rw [if_neg hlt, if_neg (by omega)]
    exact ⟨h1, h2, h3, by simp only; lia, h5⟩

/-- A floating point argument in the core registers: a double that is moved to an even word of the
stack leaves one word uncounted. -/
theorem slotsFp_rel_softfp {g : Gencall} {p : ℕ} {sl : Slots} {a : Arg}
    (hr : sl.Rel .softfp g p) :
    (slotsFp .softfp sl a.type).Rel .softfp (genFp .softfp g a).1 (p + padArg .softfp g (.val a)) := by
  have hr' := hr
  obtain ⟨h1, h2, h3, h4, h5⟩ := hr
  unfold slotsFp genFp padArg
  by_cases hd : a.type = .double
  · simp only [reduceCtorEq, if_false, hd, if_true, lastGpr, true_and, genStackfp]
    have heven : Align.up 2 g.gpr % 2 = 0 := Nat.mod_eq_zero_of_dvd (Align.dvd_up 2 g.gpr)
    have hng : sl.ngpr / 2 * 2 = 4 - Align.up 2 g.gpr := by
      unfold Align.up
      lia
    by_cases hlt : Align.up 2 g.gpr ≤ 3
    · rw [if_pos hlt, if_pos (show sl.ngpr / 2 * 2 > 0 by lia),
        if_neg (show ¬ (Align.up 2 g.gpr = 4 ∧ g.ofs % 2 = 1) by lia)]
      exact ⟨by simp only; lia, h2, h3, h4, by simp⟩
    · have hup : Align.up 2 g.gpr = 4 := by unfold Align.up at hlt ⊢; lia
      rw [if_neg hlt, if_neg (show ¬ sl.ngpr / 2 * 2 > 0 by lia)]
      refine ⟨by simp only; lia, h2, h3, ?_, by simp⟩
      have hofs : Align.up 2 g.ofs = g.ofs + g.ofs % 2 := by unfold Align.up; lia
      simp only [hup, true_and, hofs]
      by_cases hodd : g.ofs % 2 = 1
      · rw [if_pos hodd]
        lia
      · rw [if_neg hodd]
        lia
  · simp only [reduceCtorEq, if_false, hd, genStackfp, false_and, and_false, Nat.add_zero]
    have hw := slotsWord_rel hr'
    unfold genWord at hw
    by_cases hlt : g.gpr ≤ lastGpr
    · rw [if_pos hlt] at hw ⊢
      exact hw
    · rw [if_neg hlt] at hw ⊢
      exact hw

/-- A floating point argument in the VFP registers. -/
theorem slotsFp_rel_hard {g : Gencall} {p : ℕ} {sl : Slots} {a : Arg} (hr : sl.Rel .hard g p) :
    (slotsFp .hard sl a.type).Rel .hard (genFp .hard g a).1 p := by
  obtain ⟨h1, h2, h3, h4, h5⟩ := hr
  have hp : p = 0 := h5 (by decide)
  unfold slotsFp genFp
  simp only [if_true, genStackfp, lastFpr]
  by_cases hd : a.type = .double
  · simp only [hd, if_true]
    by_cases hlt : g.fpr ≤ 7
    · rw [if_pos hlt, if_pos (by lia)]
      exact ⟨h1, by simp only; lia, h3, h4, h5⟩
    · rw [if_neg hlt, if_neg (by lia)]
      exact ⟨h1, h2, rfl, by simp only [Align.up]; lia, h5⟩
  · simp only [hd, if_false, h3]
    cases hodd : g.fprodd with
    | some d => exact ⟨h1, h2, rfl, h4, h5⟩
    | none =>
        simp only [Option.isSome_none, Bool.false_eq_true, if_false, ne_eq, not_true_eq_false]
        by_cases hlt : g.fpr ≤ 7
        · rw [if_pos hlt, if_pos (by lia)]
          exact ⟨h1, by simp only; lia, rfl, h4, h5⟩
        · rw [if_neg hlt, if_neg (by lia)]
          exact ⟨h1, h2, by simp, by simp only; lia, h5⟩

/-- One operand. -/
theorem slotsArg_rel {abi : Abi} {g : Gencall} {p : ℕ} {sl : Slots} (hr : sl.Rel abi g p)
    (o : Operand) :
    (slotsArg abi sl o).Rel abi (gencallArg abi g o).1 (p + padArg abi g o) := by
  cases o with
  | nil => exact slotsWord_rel hr
  | lo ref => exact slotsWord_rel hr
  | hi ref => exact slotsWord_rel hr
  | val a =>
      unfold slotsArg gencallArg
      by_cases hfp : abi ≠ .soft ∧ a.type.isFp = true
      · simp only [if_pos hfp]
        cases abi with
        | soft => exact absurd rfl hfp.1
        | softfp => exact slotsFp_rel_softfp hr
        | hard => exact slotsFp_rel_hard hr
      · simp only [if_neg hfp]
        have hpad : padArg abi g (.val a) = 0 := by
          refine if_neg ?_
          rintro ⟨rfl, ht, -⟩
          exact hfp ⟨by decide, by rw [ht]; rfl⟩
        rw [hpad]
        exact slotsWord_rel hr

/-- All operands. -/
theorem slots_rel {abi : Abi} (os : List Operand) {g : Gencall} {p : ℕ} {sl : Slots}
    (hr : sl.Rel abi g p) :
    (os.foldl (slotsArg abi) sl).Rel abi (gencallFrom abi g os).1 (p + padsFrom abi g os) := by
  induction os generalizing g p sl with
  | nil => exact hr
  | cons o os ih =>
      have h := ih (slotsArg_rel hr o)
      rw [Nat.add_assoc] at h
      exact h

theorem padsFrom_append (abi : Abi) (g : Gencall) (os os' : List Operand) :
    padsFrom abi g (os ++ os') =
      padsFrom abi g os + padsFrom abi (gencallFrom abi g os).1 os' := by
  induction os generalizing g with
  | nil => simp [padsFrom, gencallFrom]
  | cons o os ih =>
      simp only [List.cons_append, padsFrom, gencallFrom, ih, Nat.add_assoc]

/-- Only a misaligned double leaves a word uncounted. -/
theorem padsFrom_block (abi : Abi) (n : ℕ) (s : State) (a : Arg) :
    padsFrom abi (.ofState s) (block abi n a) = 0 ↔ ¬ Misaligned abi s a.type := by
  cases hs : split64 abi a.type with
  | true =>
      have hno : ¬ Misaligned abi s a.type := by
        rintro ⟨rfl, ht, -⟩
        rw [ht] at hs
        exact absurd hs (by decide)
      simp only [block, hs, if_true, hno, not_false_eq_true, iff_true]
      split <;> rfl
  | false =>
      simp only [block, hs, Bool.false_eq_true, if_false, padsFrom, Nat.add_zero, padArg]
      rw [ite_eq_right_iff]
      simp only [Nat.one_ne_zero, imp_false]
      rfl

/-- The code generator reaches the counters of the standard behind a safe argument. -/
theorem gencall_block_state {abi : Abi} {n : ℕ} {s : State} {a : Arg}
    (hok : PlaceOk abi n s a.type) :
    (gencallFrom abi (.ofState s) (block abi n a)).1 = .ofState (aapcsNext abi s a.type) := by
  cases hs : split64 abi a.type with
  | true => exact (gencall_split s n hs).2 hok
  | false =>
      simp only [block, hs, Bool.false_eq_true, if_false, gencallFrom]
      rw [gencall_val s hs]

/-- Nothing is left uncounted exactly if no double is misaligned. -/
theorem pads_iff {abi : Abi} {args : List Arg} {n : ℕ} {s : State} (hok : AllPlaceOk abi n s args) :
    (gencallFrom abi (.ofState s) (operandsFrom abi n args)).1 =
        .ofState (stateFrom abi s args) ∧
    (padsFrom abi (.ofState s) (operandsFrom abi n args) = 0 ↔
      ∀ pre a post, args = pre ++ a :: post → ¬ Misaligned abi (stateFrom abi s pre) a.type) := by
  induction args generalizing n s with
  | nil => exact ⟨rfl, by simp [operandsFrom, padsFrom]⟩
  | cons a as ih =>
      obtain ⟨ha, has⟩ := allPlaceOk_cons.1 hok
      obtain ⟨ihg, ihp⟩ := ih has
      have hcons : (∀ pre b post, a :: as = pre ++ b :: post →
          ¬ Misaligned abi (stateFrom abi s pre) b.type) ↔
          ¬ Misaligned abi s a.type ∧ ∀ pre b post, as = pre ++ b :: post →
            ¬ Misaligned abi (stateFrom abi (aapcsNext abi s a.type) pre) b.type :=
        forall_split_cons
      rw [operandsFrom, gencallFrom_append, padsFrom_append, add_block_length,
        gencall_block_state ha, stateFrom_cons, Nat.add_eq_zero_iff, padsFrom_block, ihp, hcons]
      exact ⟨ihg, Iff.rfl⟩

/-! ### The calls that agree -/

/-- The calls that are compiled as they are interpreted. -/
structure CallOk (abi : Abi) (args : List Arg) (evenspill : ℕ) : Prop where
  /-- every argument is placed alike -/
  place : AllPlaceOk abi 0 .init args
  /-- no padding on the stack goes uncounted, or enough slots are left out for other calls -/
  slots : (∀ pre a post, args = pre ++ a :: post → ¬ Misaligned abi (stateFrom abi .init pre) a.type) ∨
    (stateFrom abi .init args).nsaa ≤ evenspill

/-- **The compiled call places its arguments as the interpreted call does, below the spill slots,
exactly when `CallOk` holds.** -/
theorem call_agrees_iff {abi : Abi} {args : List Arg} {evenspill : ℕ} {P Q : Placement} {first : ℕ}
    (hP : ccallSetArgs abi args = some P)
    (hQ : compiledCall abi args evenspill = some (Q, first)) :
    (Q = P ∧ ∀ w ∈ Q, ∀ k, w.2 = .stack k → k < first) ↔ CallOk abi args evenspill := by
  obtain ⟨t, ht, hQ⟩ := Option.map_eq_some_iff.1 hQ
  rw [collect_split ht] at hQ
  obtain ⟨hQ, hfirst⟩ := Prod.mk.inj hQ
  have hg0 : ({ gpr := 0, fpr := 0, fprodd := none, ofs := 0 } : Gencall) = .ofState .init := rfl
  rw [asmGencall, hg0] at hQ
  obtain ⟨hiff, hstd⟩ := places_iff 0
    (⟨rfl, rfl, rfl, rfl⟩ : SetArgs.Rel .init { ngpr := 0, nsp := 0, nfpr := 0, fprodd := 0 }) hP
  rw [hQ] at hiff
  have hsl : Slots.Rel abi (.ofState .init) 0 { nslots := 0, ngpr := 4, nfpr := 8, fprodd := 0 } :=
    ⟨rfl, rfl, rfl, rfl, fun _ => rfl⟩
  have hns := (slots_rel (operandsFrom abi 0 args) hsl).nslots
  -- the words of the stack lie below the first slot exactly if the next word does
  have hslots (hall : AllPlaceOk abi 0 .init args) :
      (∀ w ∈ P, ∀ k, w.2 = .stack k → k < first) ↔
        ((∀ pre a post, args = pre ++ a :: post →
          ¬ Misaligned abi (stateFrom abi .init pre) a.type) ∨
        (stateFrom abi .init args).nsaa ≤ evenspill) := by
    obtain ⟨hg, hpads⟩ := pads_iff hall
    have hwords : (∀ w ∈ P, ∀ k, w.2 = .stack k → k < first) ↔
        ∀ k, Place.stack k ∈ P.map Prod.snd → k < first := by
      simp only [List.mem_map]
      exact ⟨fun h k ⟨w, hw, hk⟩ => h w hw k hk, fun h w hw k hk => h k ⟨w, hw, hk⟩⟩
    rw [hwords, hstd hall, Aapcs.forall_stack_lt_iff, ← hpads, ← hfirst]
    rw [hg] at hns
    simp only [asmSetupCallSlots]
    change _ + _ = (stateFrom abi .init args).nsaa at hns
    change (stateFrom abi .init args).nsaa ≤ _ ↔ _
    split <;> lia
  constructor
  · rintro ⟨rfl, hlt⟩
    have hall := hiff.1 rfl
    exact ⟨hall, (hslots hall).1 hlt⟩
  · rintro ⟨hall, hsl⟩
    have hQP := hiff.2 hall
    rw [hQP]
    exact ⟨rfl, (hslots hall).2 hsl⟩

/-- A call with arguments of all sizes, one of them on the stack. -/
theorem call_agrees_iff_mixed :
    CallOk .hard [⟨0, .int32⟩, ⟨1, .int64⟩, ⟨2, .float⟩, ⟨3, .double⟩, ⟨4, .ptr⟩] 2 := by
  have hP : ccallSetArgs .hard [⟨0, .int32⟩, ⟨1, .int64⟩, ⟨2, .float⟩, ⟨3, .double⟩, ⟨4, .ptr⟩] =
      some [((0, 0), .gpr 0), ((1, 0), .gpr 2), ((1, 1), .gpr 3), ((2, 0), .vfp 0),
        ((3, 0), .vfp 2), ((3, 1), .vfp 3), ((4, 0), .stack 0)] := by decide
  have hQ : compiledCall .hard
      [⟨0, .int32⟩, ⟨1, .int64⟩, ⟨2, .float⟩, ⟨3, .double⟩, ⟨4, .ptr⟩] 2 =
      some ([((0, 0), .gpr 0), ((1, 0), .gpr 2), ((1, 1), .gpr 3), ((2, 0), .vfp 0),
        ((3, 0), .vfp 2), ((3, 1), .vfp 3), ((4, 0), .stack 0)], 2) := by decide
  refine (call_agrees_iff hP hQ).1 ⟨rfl, ?_⟩
  simp

/-- `f(double, int64_t)` with an FPU and the soft-float ABI: the double is one operand of the tree, but
takes two registers, and the padding for the other argument moves it to `r3` and the stack. -/
theorem call_not_agrees :
    ∃ P Q, ccallSetArgs .softfp [⟨0, .double⟩, ⟨1, .int64⟩] = some P ∧
      compiledCall .softfp [⟨0, .double⟩, ⟨1, .int64⟩] 2 = some (Q, 2) ∧
      P = [((0, 0), .gpr 0), ((0, 1), .gpr 1), ((1, 0), .gpr 2), ((1, 1), .gpr 3)] ∧
      Q = [((0, 0), .gpr 0), ((0, 1), .gpr 1), ((1, 0), .gpr 3), ((1, 1), .stack 0)] ∧ Q ≠ P := by
  refine ⟨_, _, ?_, ?_, rfl, rfl, ?_⟩ <;> decide

-- `f(float, double, float)` in VFP registers: the interpreter leaves the upper half of `d0` free
example : ccallSetArgs .hard [⟨0, .float⟩, ⟨1, .double⟩, ⟨2, .float⟩] =
    some [((0, 0), .vfp 0), ((1, 0), .vfp 2), ((1, 1), .vfp 3), ((2, 0), .vfp 4)] := by decide
example : compiledCall .hard [⟨0, .float⟩, ⟨1, .double⟩, ⟨2, .float⟩] 2 =
    some ([((0, 0), .vfp 0), ((1, 0), .vfp 2), ((1, 1), .vfp 3), ((2, 0), .vfp 1)], 2) := by decide

/-- Without an FPU, and for arguments that are not floating point numbers, the padded words are the
words of the standard. -/
structure CoreWords (n : ℕ) (s : State) : Prop where
  gpr : s.ncrn < 4 → n = s.ncrn ∧ s.nsaa = 0
  stack : s.ncrn = 4 → n % 2 = s.nsaa % 2

theorem coreWords_next {abi : Abi} {n : ℕ} {s : State} {t : ArgType}
    (ht : abi = .soft ∨ t.isFp = false) (h : CoreWords n s) :
    CoreWords (paddedWords abi n t) (aapcsNext abi s t) := by
  obtain ⟨hg, hst⟩ := h
  have hle := s.ncrn_le
  have hk : kind abi t = if split64 abi t then .pair else .word := by
    revert ht
    cases abi <;> cases t <;> decide
  unfold paddedWords aapcsNext
  rw [hk]
  cases split64 abi t with
  | false =>
      simp only [Bool.false_eq_true, if_false, Aapcs.alloc]
      by_cases hlt : s.ncrn < 4
      · rw [dif_pos hlt]
        exact ⟨by simp only [State.takeGpr]; lia, by simp only [State.takeGpr]; lia⟩
      · rw [dif_neg hlt]
        exact ⟨by simp only [State.takeStack]; omega,
          by simp only [State.takeStack, Aapcs.up_one]; lia⟩
  | true =>
      simp only [if_true, Aapcs.alloc]
      have hup (m : ℕ) : Align.up 2 m = m + m % 2 := by unfold Align.up; lia
      by_cases hlt : Align.up 2 s.ncrn < 4
      · rw [dif_pos hlt]
        rw [hup] at hlt
        exact ⟨by simp only [State.takePair, hup]; lia, by simp only [State.takePair, hup]; lia⟩
      · rw [dif_neg hlt]
        rw [hup] at hlt
        exact ⟨by simp only [State.takeStack, State.noGpr]; omega,
          by simp only [State.takeStack, State.noGpr, hup]; lia⟩

/-- The call is safe if no argument is a floating point number in a build with an FPU. -/
theorem callOk_of_core {abi : Abi} {args : List Arg}
    (h : abi = .soft ∨ ∀ a ∈ args, a.type.isFp = false) (evenspill : ℕ) :
    CallOk abi args evenspill := by
  have hplace : ∀ (args : List Arg) (n : ℕ) (s : State), CoreWords n s →
      (abi = .soft ∨ ∀ a ∈ args, a.type.isFp = false) → AllPlaceOk abi n s args := by
    intro args
    induction args with
    | nil => exact fun n s _ _ pre a post h => by simp at h
    | cons a as ih =>
        intro n s hcw h
        have ha : abi = .soft ∨ a.type.isFp = false := h.imp_right fun h => h a List.mem_cons_self
        refine allPlaceOk_cons.2 ⟨?_, ih _ _ (coreWords_next ha hcw) (h.imp_right fun h b hb =>
          h b (List.mem_cons_of_mem _ hb))⟩
        refine ⟨fun hk => ?_, fun _ hlt => ?_, fun _ h4 => ?_⟩
        · revert hk ha
          cases abi <;> cases a.type <;> simp [kind, ArgType.isFp]
        · obtain ⟨hn, hz⟩ := hcw.gpr hlt
          rw [hn, hz]
          exact ⟨Iff.rfl, fun _ => rfl⟩
        · rw [hcw.stack h4]
  refine ⟨hplace args 0 .init ⟨fun _ => ⟨rfl, rfl⟩, fun h => by simp [State.init] at h⟩ h, .inl ?_⟩
  rintro pre a post rfl ⟨rfl, ht, -⟩
  have := h.resolve_left (by decide) a (by simp)
  rw [ht] at this
  exact absurd this (by decide)

end ArmCall
