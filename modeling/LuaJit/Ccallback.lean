/-
**Calls and callbacks use one calling convention.**

`callback_conv_args` of `lj_ccallback.c` finds the arguments of a C callback in the registers and
stack words that `lj_vm_ffi_callback` has saved, and `callback_conv_result` stores the result.  The
macros that decide where an argument is are a second set beside those of `lj_ccall.c`.  On every
target but one the two agree.  With the hard-float ABI of ARM a single may be passed in the upper half
of a register that an earlier single has begun, and the callback reads its lower half.

Main definitions:

* `Ccallback.regarg`, `Ccallback.convArg`, `Ccallback.convArgs` — `callback_conv_args`;
* `Ccallback.convResult`, `Ccallback.resultPlace` — `callback_conv_result`, `ccall_get_results`;
* `Ccallback.checkfunc` — `callback_checkfunc`;
* `Ccallback.ArgsAgree`, `Ccallback.ResultAgrees` — both sides mean the same places.

Main results:

* `Ccallback.convArg_agrees` — one argument, from equal counters;
* `Ccallback.convArgs_agree`, `Ccallback.armArgs_agree_iff` — the run lemmas;
* `Ccallback.callback_agrees_iff` — **calls and callbacks agree, except for functions of the
  hard-float ABI of ARM with two singles among the first nine FP parameters**.
-/

import LuaJit.CcallSlots

set_option relaxedAutoImplicit false
set_option autoImplicit false

namespace Ccallback

open Ccall

/-! ### Places -/

/-- `LJ_BE`. -/
def be : Target → Bool
  | .ppc => true
  | .mips _ be => be
  | _ => false

/-- Bytes in a register or a stack word. -/
structure Place where
  region : Region
  index : ℕ
  ofs : ℕ
  len : ℕ
  deriving DecidableEq

/-! ### Arguments of callbacks -/

/-- What `CALLBACK_HANDLE_REGARG` does: it sets `sp`, given by a register and a byte in it, and
leaves for `done`, or falls through to the stack. -/
inductive CbArg where
  | done (r : Region) (index ofs : ℕ) (st : State)
  | onStack (st : State)
  deriving DecidableEq

section RegArg

variable (t : Target) (f : FuncType) (st : State) (isfp : Bool) (n : ℕ)

/-- x86. -/
def regargX86 (abi : X86Abi) : CbArg :=
  if ¬ isfp then
    if 1 < n then .onStack (if abi = .win then st else { st with ngpr := maxgpr t f })
    else if st.ngpr + 1 ≤ maxgpr t f then .done .gpr st.ngpr 0 { st with ngpr := st.ngpr + n }
    else .onStack st
  else .onStack st

/-- POSIX/x64. -/
def regargX64 : CbArg :=
  if isfp then
    if st.nfpr + n ≤ t.nargFpr then .done .fpr st.nfpr 0 { st with nfpr := st.nfpr + n }
    else .onStack st
  else if st.ngpr + n ≤ maxgpr t f then .done .gpr st.ngpr 0 { st with ngpr := st.ngpr + n }
  else .onStack st

/-- The core registers of ARM and MIPS. -/
def regargGpr : CbArg :=
  let ngpr := if 1 < n then regpair st.ngpr else st.ngpr
  if ngpr + n ≤ maxgpr t f then .done .gpr ngpr 0 { st with ngpr := ngpr + n }
  else .onStack { st with ngpr := ngpr }

/-- `CALLBACK_HANDLE_REGARG_FP1` of ARM. -/
def regargArmFpr : CbArg :=
  if n = 1 then
    if st.fprodd ≠ 0 then .done .fpr (st.fprodd - 1) 0 { st with fprodd := 0 }
    else if st.nfpr + 1 ≤ t.nargFpr then
      .done .fpr st.nfpr 0 { st with nfpr := st.nfpr + 1, fprodd := st.nfpr + 1 }
    else .onStack { st with fprodd := 0 }
  else if st.nfpr + 1 ≤ t.nargFpr then .done .fpr st.nfpr 0 { st with nfpr := st.nfpr + 1 }
  else .onStack { st with fprodd := 0 }

/-- ARM. -/
def regargArm (soft : Bool) : CbArg :=
  if ¬ soft ∧ isfp then regargArmFpr t st n else regargGpr t f st n

/-- ARM64. -/
def regargArm64 (ios : Bool) : CbArg :=
  if isfp then
    if st.nfpr + n ≤ t.nargFpr then .done .fpr st.nfpr 0 { st with nfpr := st.nfpr + n }
    else .onStack { st with nfpr := t.nargFpr }
  else
    let ngpr := if ¬ ios ∧ 1 < n then regpair st.ngpr else st.ngpr
    if ngpr + n ≤ maxgpr t f then .done .gpr ngpr 0 { st with ngpr := ngpr + n }
    else .onStack { st with ngpr := t.nargGpr }

/-- PPC. -/
def regargPpc : CbArg :=
  if isfp then
    if st.nfpr + 1 ≤ t.nargFpr then .done .fpr st.nfpr 0 { st with nfpr := st.nfpr + 1 }
    else .onStack st
  else regargGpr t f st n

/-- MIPS. -/
def regargMips (soft be : Bool) : CbArg :=
  if soft then regargGpr t f st n
  else if isfp ∧ st.nfpr < t.nargFpr then
    .done .fpr st.nfpr (if be ∧ n = 1 then 4 else 0)
      { st with nfpr := st.nfpr + 1, ngpr := st.ngpr + n }
  else regargGpr t f { st with nfpr := t.nargFpr } n

/-- `CALLBACK_HANDLE_REGARG`. -/
def regarg : CbArg :=
  match t with
  | .x86 abi => regargX86 t f st isfp n abi
  | .x64 => regargX64 t f st isfp n
  | .arm soft => regargArm t f st isfp n soft
  | .arm64 ios => regargArm64 t f st isfp n ios
  | .ppc => regargPpc t f st isfp n
  | .mips soft be => regargMips t f st isfp n soft be

end RegArg

/-- `n`: the number of registers or stack slots needed. -/
def numSlots (t : Target) (d : CType) : ℕ := (d.size t + t.ptr - 1) / t.ptr

/-- The bytes of a value of the size at `sp`.  In the big-endian byte order a small one is at the end
of its word. -/
def valueAt (t : Target) (r : Region) (index ofs size : ℕ) : Place :=
  ⟨r, index, if be t ∧ size < t.ptr then ofs + (t.ptr - size) else ofs, size⟩

/-- One argument in `callback_conv_args`.  The FP registers of PPC hold doubles. -/
def convArg (t : Target) (f : FuncType) (st : State) (d : CType) : Place × State :=
  let n := numSlots t d
  match regarg t f st d.isFp n with
  | .done r index ofs st' =>
      (valueAt t r index ofs (if t = .ppc ∧ r = .fpr then 8 else d.size t), st')
  | .onStack st' =>
      let nsp := if t.alignStackarg ∧ t.ptr = 4 ∧ t.ptr * n = 8 then Align.up 2 st'.nsp else st'.nsp
      (valueAt t .stack nsp 0 (d.size t), { st' with nsp := nsp + n })

/-- `callback_conv_args`. -/
def convArgs (t : Target) (f : FuncType) : State → List CType → List Place
  | _, [] => []
  | st, d :: ds => (convArg t f st d).1 :: convArgs t f (convArg t f st d).2 ds

/-- The argument types that a callback supports. -/
def argOk (t : Target) (d : CType) : Bool :=
  match d with
  | .enum | .ptr => true
  | .int .. | .bool | .fp _ => decide (d.size t ≤ 8)
  | _ => false

/-- `callback_checkfunc`, of the function type. -/
def checkfunc (t : Target) (f : FuncType) : Bool :=
  (f.ret = .void ∨ argOk t f.ret) ∧ ¬ f.vararg ∧ f.params.all (argOk t) ∧ f.params.length < 20 - 3

/-! ### Results -/

section Result

/-- The bytes at an offset. -/
def readAt (mem : ℕ → UInt8) (ofs len : ℕ) : List UInt8 := (List.range len).map fun i => mem (ofs + i)

/-- Store bytes at an offset. -/
def writeAt (mem : ℕ → UInt8) (ofs : ℕ) (bs : List UInt8) : ℕ → UInt8 :=
  fun i => if ofs ≤ i ∧ i < ofs + bs.length then bs.getD (i - ofs) 0 else mem i

/-- `ctype_isinteger_or_bool(d->info) && d->size < 4`. -/
def isSmall (t : Target) (d : CType) : Bool := d.isIntegerOrBool ∧ d.size t < 4

/-- The bytes that extend a small integer to 32 bits. -/
def fillBytes (t : Target) (unsigned : Bool) (val : List UInt8) : List UInt8 :=
  let msb := if be t then val.headD 0 else val.getLastD 0
  List.replicate (4 - val.length) (if ¬ unsigned ∧ 0x80 ≤ msb then 0xff else 0)

/-- A small integer that is extended to 32 bits. -/
def extend (t : Target) (unsigned : Bool) (val : List UInt8) : List UInt8 :=
  if be t then fillBytes t unsigned val ++ val else val ++ fillBytes t unsigned val

/-- `CTF_UNSIGNED`. -/
def isUnsigned : CType → Bool
  | .int unsigned _ => unsigned
  | .bool => true
  | _ => false

/-- Where the result is, and which numbers the x87 registers return. -/
structure ResultPlace where
  region : Region
  ofs : ℕ
  len : ℕ
  x87 : ℕ
  deriving DecidableEq

/-- What the x87 registers hold on x86: 1 for a float, 2 for a double. -/
def x87 (t : Target) (ret : CType) : ℕ :=
  match t with
  | .x86 _ => if ret.isFp then if ret.size t = 4 then 1 else 2 else 0
  | _ => 0

/-- `ccall_get_results`, for the results that are not structs or complex numbers. -/
def resultPlace (t : Target) (f : FuncType) : ResultPlace :=
  let size := f.ret.size t
  let gpr : ResultPlace :=
    ⟨.gpr, if be t ∧ f.ret.isIntegerOrBool ∧ size < t.ptr then t.ptr - size else 0, size, x87 t f.ret⟩
  let fpr : ResultPlace := ⟨.fpr, 0, size, x87 t f.ret⟩
  let dfl := if 0 < t.numFpr ∧ (f.ret.isFp ∨ f.ret.isVector) then fpr else gpr
  match t with
  | .arm _ => if f.vararg then { dfl with region := .gpr, ofs := 0 } else dfl
  | .ppc => if f.ret.isFp ∧ size = 4 then { dfl with len := 8 } else dfl
  | .mips false be => if f.ret.isFp ∧ size = 4 then { dfl with ofs := if be then 4 else 0 } else dfl
  | _ => dfl

/-- The array that `callback_conv_result` writes to, its contents and the code for the x87
registers.  `val` are the bytes of the result and `widen` converts a float to a double. -/
def convResult (t : Target) (ret : CType) (widen : List UInt8 → List UInt8) (val : List UInt8)
    (mem : ℕ → UInt8) : Region × (ℕ → UInt8) × ℕ :=
  let region := if 0 < t.numFpr ∧ ret.isFp then Region.fpr else .gpr
  let mem := writeAt mem 0 val
  let mem :=
    if ret.isFp ∧ ret.size t = 4 then
      match t with
      | .ppc => writeAt mem 0 (widen val)
      | .mips .. => writeAt mem 4 val
      | _ => mem
    else mem
  let mem := if isSmall t ret then writeAt mem 0 (extend t (isUnsigned ret) val) else mem
  (region, mem, x87 t ret)

end Result

/-! ### Agreement -/

/-- `sizeof(GPRArg)` and `sizeof(FPRArg)`. -/
def wordSize (t : Target) : Region → ℕ
  | .fpr => t.fprSize
  | _ => t.ptr

/-- Where `ccall_set_args` has stored the value of an argument.  A small integer has been extended. -/
def callPlace (t : Target) (d : CType) (s : Span Region) : Place :=
  let ofs := s.start % wordSize t s.region
  ⟨s.region, s.start / wordSize t s.region,
    if be t ∧ isSmall t d then ofs + (4 - d.size t) else ofs,
    if isSmall t d then d.size t else s.len⟩

/-- The callback reads every argument where the call has stored it. -/
def ArgsAgree (t : Target) (st : State) (f : FuncType) (ds : List CType) (ps : List Placed) : Prop :=
  List.zipWith (fun d (q : Placed) => q.spans.map (callPlace t d)) ds ps =
    (convArgs t f st ds).map fun p => [p]

/-- The call finds the result where the callback has stored it.  The FP registers of PPC hold
doubles. -/
def ResultAgrees (t : Target) (f : FuncType) : Prop :=
  f.ret ≠ .void → ∀ (widen : List UInt8 → List UInt8) (val : List UInt8) (mem : ℕ → UInt8),
    val.length = f.ret.size t → (widen val).length = 8 →
      let res := convResult t f.ret widen val mem
      let p := resultPlace t f
      res.1 = p.region ∧ res.2.2 = p.x87 ∧
        readAt res.2.1 p.ofs p.len =
          if t = .ppc ∧ f.ret.isFp ∧ f.ret.size t = 4 then widen val else val

/-- The singles among the first nine FP parameters. -/
def numSingles (f : FuncType) : ℕ := ((f.params.filter CType.isFp).take 9).count (.fp 0)

/-! ### The types -/

section Types

variable {t : Target} {f : FuncType} {d : CType}

/-- A word has 32 or 64 bits. -/
theorem word_cases (t : Target) : (t.ptr = 4 ∧ t.ptrAlign = 2) ∨ (t.ptr = 8 ∧ t.ptrAlign = 3) := by
  cases t with
  | x86 abi | arm soft | ppc | mips soft be => exact .inl ⟨rfl, rfl⟩
  | x64 | arm64 ios => exact .inr ⟨rfl, rfl⟩

/-- A type of `2 ^ k` bytes that is aligned to its size. -/
theorem natural_cases {k : ℕ} (hk : k ≤ 3) (hs : d.size t = 2 ^ k) (ha : d.align t = k) :
    (numSlots t d = 1 ∧ d.overAligned t = false ∧ d.size t ≤ t.ptr) ∨
      (numSlots t d = 2 ∧ d.overAligned t = true ∧ t.ptr = 4 ∧ d.size t = 8 ∧
        d.align t - t.ptrAlign = 1) := by
  unfold numSlots CType.overAligned
  rw [hs, ha]
  rcases word_cases t with ⟨hp, hpa⟩ | ⟨hp, hpa⟩
  · rw [hp, hpa]
    interval_cases k <;> decide
  · rw [hp, hpa]
    interval_cases k <;> decide

/-- An argument of a callback takes one word, or is an integer or number that takes two and is
aligned to them. -/
theorem argOk_cases (h : argOk t d = true) (f : FuncType) :
    pass t f d = some { isfp := if d.isFp then 1 else 0, sz := if d.isNum then d.size t else t.ptr } ∧
      ((numSlots t d = 1 ∧ d.overAligned t = false ∧ d.size t ≤ t.ptr) ∨
        (numSlots t d = 2 ∧ d.overAligned t = true ∧ t.ptr = 4 ∧ d.size t = 8 ∧
          d.align t - t.ptrAlign = 1)) := by
  have hpow {k : ℕ} (h : 2 ^ k ≤ 8) : k ≤ 3 :=
    (Nat.pow_le_pow_iff_right (by norm_num)).1 (h.trans (by norm_num : 8 ≤ 2 ^ 3))
  cases d with
  | int u k =>
    have h8 : 2 ^ k ≤ 8 := of_decide_eq_true h
    exact ⟨if_neg (Nat.not_lt.2 h8), natural_cases (hpow h8) rfl rfl⟩
  | bool => exact ⟨rfl, natural_cases (k := 0) (by decide) rfl rfl⟩
  | fp k =>
    have h8 : 2 ^ (k + 2) ≤ 8 := of_decide_eq_true h
    exact ⟨if_neg (Nat.not_lt.2 h8), natural_cases (hpow h8) rfl rfl⟩
  | «enum» => exact ⟨rfl, natural_cases (k := 2) (by decide) rfl rfl⟩
  | ptr =>
    refine ⟨rfl, natural_cases (k := t.ptrAlign) ?_ ?_ rfl⟩
    · rcases word_cases t with ⟨-, hpa⟩ | ⟨-, hpa⟩ <;> omega
    · rcases word_cases t with ⟨hp, hpa⟩ | ⟨hp, hpa⟩
      · rw [hpa]
        exact hp
      · rw [hpa]
        exact hp
  | void | vector k | complex k | struct => cases h

/-- The words that the call counts are those the callback counts. -/
theorem pass_n (h : argOk t d = true) (isfp : ℕ) :
    Pass.n t { isfp := isfp, sz := if d.isNum then d.size t else t.ptr } = numSlots t d := by
  have hone : (t.ptr + t.ptr - 1) / t.ptr = 1 := by
    rcases word_cases t with ⟨hp, -⟩ | ⟨hp, -⟩ <;> rw [hp]
  cases d with
  | int u k | bool | fp k => rfl
  | «enum» =>
    show (t.ptr + t.ptr - 1) / t.ptr = (4 + t.ptr - 1) / t.ptr
    rcases word_cases t with ⟨hp, -⟩ | ⟨hp, -⟩ <;> rw [hp]
  | ptr => rfl
  | void | vector k | complex k | struct => cases h

/-- A value that is smaller than a word of 32 bits is an integer or a boolean. -/
theorem isSmall_iff (h : argOk t d = true) : isSmall t d = true ↔ d.size t < 4 := by
  cases d with
  | int u k | bool => simp [isSmall, CType.isIntegerOrBool]
  | fp k =>
    have : 2 ^ 2 ≤ 2 ^ (k + 2) := Nat.pow_le_pow_right (by norm_num) (by omega)
    simp only [isSmall, CType.isIntegerOrBool, CType.size]
    simpa using this
  | «enum» => simp [isSmall, CType.isIntegerOrBool, CType.size]
  | ptr =>
    have : 4 ≤ t.ptr := t.four_le_ptr
    simp [isSmall, CType.isIntegerOrBool, CType.size, this]
  | void | vector k | complex k | struct => cases h

/-- Where a value is stored, and where it is read. -/
theorem callPlace_eq {r : Region} {i o : ℕ} (hd : argOk t d = true) (ho : o < wordSize t r) :
    callPlace t d ⟨r, wordSize t r * i + o, d.stored t⟩ = valueAt t r i o (d.size t) := by
  have hdiv : (wordSize t r * i + o) / wordSize t r = i := by
    rw [Nat.mul_add_div (by omega), Nat.div_eq_of_lt ho, Nat.add_zero]
  have hmod : (wordSize t r * i + o) % wordSize t r = o := by
    rw [Nat.mul_add_mod, Nat.mod_eq_of_lt ho]
  have hbe (h : be t = true) : t.ptr = 4 := by
    cases t with
    | x86 abi | x64 | arm soft | arm64 ios => cases h
    | ppc | mips soft b => rfl
  have hsmall := isSmall_iff hd
  have hlen : (if isSmall t d = true then d.size t else d.stored t) = d.size t := by
    split
    · rfl
    case isFalse hns =>
      unfold CType.stored
      rw [if_neg]
      rintro ⟨-, hlt⟩
      exact hns (hsmall.2 hlt)
  have hofs : (if be t = true ∧ isSmall t d = true then o + (4 - d.size t) else o) =
      if be t = true ∧ d.size t < t.ptr then o + (t.ptr - d.size t) else o := by
    by_cases hb : be t = true
    · simp only [hsmall, hbe hb]
    · rw [if_neg fun h => hb h.1, if_neg fun h => hb h.1]
  unfold callPlace valueAt
  simp only
  rw [hdiv, hmod, hlen, hofs]

/-- The FP registers of PPC hold doubles. -/
theorem callPlace_ppc {i o : ℕ} (hfp : d.isFp = true) (ho : o < wordSize .ppc .fpr) :
    callPlace .ppc d ⟨.fpr, wordSize .ppc .fpr * i + o, 8⟩ = valueAt .ppc .fpr i o 8 := by
  have hdiv : (wordSize .ppc .fpr * i + o) / wordSize .ppc .fpr = i := by
    rw [Nat.mul_add_div (by omega), Nat.div_eq_of_lt ho, Nat.add_zero]
  have hmod : (wordSize .ppc .fpr * i + o) % wordSize .ppc .fpr = o := by
    rw [Nat.mul_add_mod, Nat.mod_eq_of_lt ho]
  have hsmall : isSmall .ppc d = false := by
    cases d with
    | fp k => rfl
    | void | int | bool | «enum» | ptr | vector | complex | struct => cases hfp
  unfold callPlace valueAt
  simp only
  rw [hdiv, hmod, hsmall, if_neg (by decide), if_neg (by decide), if_neg (by decide)]

end Types

/-! ### One argument -/

/-- The call and the callback have decided for the same register, or both for the stack. -/
inductive Same (t : Target) : RegArg → CbArg → Prop
  | nyi (c : CbArg) : Same t .nyi c
  | done (r : Region) (i o : ℕ) (st : State) (ho : o < wordSize t r) :
      Same t (.done r (wordSize t r * i + o) st) (.done r i o st)
  | onStack (st : State) : Same t (.onStack st) (.onStack st)

section Step

variable {t : Target} {f : FuncType} {st st' : State} {d : CType} {q : Placed} {n isfp : ℕ}

theorem Same.first (r : Region) (i : ℕ) (st : State) :
    Same t (.done r (wordSize t r * i) st) (.done r i 0 st) := by
  refine .done r i 0 st ?_
  cases t <;> cases r <;> simp [wordSize, Target.fprSize, Target.ptr]

theorem same_x86 (abi : X86Abi) (hf : isfp ≠ 0 ↔ d.isFp = true) :
    Same (.x86 abi) (Ccall.regargX86 (.x86 abi) f st isfp n abi)
      (regargX86 (.x86 abi) f st d.isFp n abi) := by
  unfold Ccall.regargX86 regargX86
  by_cases h0 : isfp = 0
  · have hfp : ¬ d.isFp = true := fun h => hf.2 h h0
    rw [if_pos h0, if_pos hfp]
    split
    · exact .onStack _
    · split
      · exact .first .gpr _ _
      · exact .onStack _
  · have hfp : ¬ ¬ d.isFp = true := not_not.2 (hf.1 h0)
    rw [if_neg h0, if_neg hfp]
    exact .onStack _

theorem same_x64 (hf : isfp ≠ 0 ↔ d.isFp = true) (hn : n = 1) (hv : d.isVector = false) :
    Same .x64 (Ccall.regargX64 .x64 f st d isfp n) (regargX64 .x64 f st d.isFp n) := by
  have hn2 : n2 d n = n := if_neg (by rw [hv]; decide)
  subst hn
  unfold Ccall.regargX64 regargX64
  by_cases h0 : isfp ≠ 0
  · rw [if_pos h0, if_pos (hf.1 h0), hn2]
    split
    · exact .first .fpr _ _
    · exact .onStack _
  · rw [if_neg h0, if_neg fun h => h0 (hf.2 h)]
    by_cases hle : st.ngpr + 1 ≤ maxgpr .x64 f
    · rw [if_pos ⟨by decide, hle⟩, if_pos hle]
      exact .first .gpr _ _
    · rw [if_neg fun h => hle h.2, if_neg hle]
      exact .onStack _

theorem same_arm64 (ios : Bool) (hf : isfp = if d.isFp then 1 else 0) (hn : n = 1)
    (hv : d.isVector = false) (ha : d.overAligned (.arm64 ios) = false) :
    Same (.arm64 ios) (Ccall.regargArm64 (.arm64 ios) f st d false isfp n ios)
      (regargArm64 (.arm64 ios) f st d.isFp n ios) := by
  subst hn
  have hg : arm64Gpr (.arm64 ios) st d ios = st.ngpr := if_neg fun h => by rw [ha] at h; cases h.2
  have hva : ¬ (ios = true ∧ false = true) := fun h => by cases h.2
  unfold Ccall.regargArm64 regargArm64
  rw [if_neg hva]
  by_cases hfp : d.isFp = true
  · rw [if_pos hfp] at hf
    subst hf
    have hn2 : n2 d (1 * 1) = 1 := if_neg (by rw [hv]; decide)
    rw [if_pos (by decide), if_pos hfp, hn2]
    split
    · exact .first .fpr _ _
    · split
      · exact .nyi _
      · exact .onStack _
  · rw [if_neg hfp] at hf
    subst hf
    have h1 : ¬ (¬ ios = true ∧ 1 < 1) := fun h => absurd h.2 (by decide)
    rw [if_neg (by decide), if_neg hfp, hg]
    simp only [if_neg h1]
    split
    · exact .first .gpr _ _
    · split
      · exact .nyi _
      · exact .onStack _

/-- The core registers of ARM and MIPS: what takes two is aligned, so nothing is split. -/
theorem same_split {g : ℕ} (hm : maxgpr t f = 4) (hn : n = 1 ∨ n = 2)
    (hg : g = if 1 < n then regpair st.ngpr else st.ngpr) :
    Same t (regargSplit t f st n g) (regargGpr t f st n) := by
  have hsplit : ¬ (g < 4 ∧ 4 < g + n) := by
    rintro ⟨h1, h2⟩
    have h2' : n = 2 := by lia
    subst h2'
    rw [if_pos (by decide)] at hg
    have hd : 2 ∣ g := hg ▸ Align.dvd_up 2 st.ngpr
    lia
  unfold regargSplit regargGpr
  rw [hm]
  simp only [← hg]
  by_cases hlt : g < 4
  · have hle : ¬ 4 < g + n := fun h => hsplit ⟨hlt, h⟩
    rw [if_pos hlt, if_neg hle, if_pos (by omega)]
    exact .first .gpr _ _
  · rw [if_neg hlt, if_neg (by lia)]
    exact .onStack _

theorem same_ppc (hf : isfp ≠ 0 ↔ d.isFp = true) (hint : d.isFp = false → 1 < n → d.isInteger = true) :
    Same .ppc (Ccall.regargPpc .ppc f st d isfp n) (regargPpc .ppc f st d.isFp n) := by
  unfold Ccall.regargPpc regargPpc
  by_cases h0 : isfp ≠ 0
  · rw [if_pos h0, if_pos (hf.1 h0)]
    split
    · exact .first .fpr _ _
    · exact .onStack _
  · have hfp : ¬ d.isFp = true := fun h => h0 (hf.2 h)
    have hg : ppcGpr .ppc f st d n = if 1 < n then regpair st.ngpr else st.ngpr := by
      unfold ppcGpr
      split
      case isTrue h1 => rw [if_pos (hint (by simpa using hfp) h1)]
      case isFalse => rfl
    rw [if_neg h0, if_neg hfp, hg]
    unfold regargGpr
    generalize (if 1 < n then regpair st.ngpr else st.ngpr) = g
    simp only
    split
    · exact .first .gpr _ _
    · exact .onStack _

theorem same_mips (soft b : Bool) (hf : isfp ≠ 0 ↔ d.isFp = true) (hv : f.vararg = false)
    (hn : n = 1 ∨ n = 2) (ha : d.overAligned (.mips soft b) = true ↔ 1 < n) :
    Same (.mips soft b) (Ccall.regargMips (.mips soft b) f st d isfp n soft b)
      (regargMips (.mips soft b) f st d.isFp n soft b) := by
  have hgpr (st : State) : Same (.mips soft b) (regargMipsGpr (.mips soft b) f st d n)
      (regargGpr (.mips soft b) f st n) := by
    refine same_split rfl hn ?_
    by_cases h1 : 1 < n
    · rw [if_pos h1, if_pos (ha.2 h1)]
    · rw [if_neg h1, if_neg fun h => h1 (ha.1 h)]
  unfold Ccall.regargMips regargMips
  split
  · exact hgpr st
  · by_cases h0 : isfp ≠ 0 ∧ st.nfpr < (Target.mips soft b).nargFpr
    · have h1 : isfp ≠ 0 ∧ st.nfpr < (Target.mips soft b).nargFpr ∧ ¬ f.vararg = true :=
        ⟨h0.1, h0.2, by rw [hv]; decide⟩
      have h2 : d.isFp = true ∧ st.nfpr < (Target.mips soft b).nargFpr := ⟨hf.1 h0.1, h0.2⟩
      rw [if_pos h1, if_pos h2]
      refine .done .fpr _ _ _ ?_
      show _ < 8
      split <;> omega
    · rw [if_neg fun h => h0 ⟨h.1, h.2.1⟩, if_neg fun h => h0 ⟨hf.2 h.1, h.2⟩]
      exact hgpr _

/-- The single of ARM that takes the second half of a register. -/
def SecondSingle (t : Target) (st : State) (d : CType) : Prop :=
  t = .arm false ∧ d = .fp 0 ∧ st.fprodd ≠ 0

theorem same_armFpr (hn : (n = 1 ∧ d.overAligned (.arm false) = false) ∨
      (n = 2 ∧ d.overAligned (.arm false) = true)) (hs : n = 1 → st.fprodd = 0) :
    Same (.arm false) (Ccall.regargArmFpr (.arm false) st d n) (regargArmFpr (.arm false) st n) := by
  unfold Ccall.regargArmFpr regargArmFpr
  rcases hn with ⟨rfl, ha⟩ | ⟨rfl, ha⟩
  · have h0 := hs rfl
    have hodd : ¬ armFprodd (.arm false) st 1 ≠ 0 := by
      unfold armFprodd
      rw [h0]
      split <;> exact not_not.2 rfl
    have hroom : 2 * st.nfpr + 1 ≤ 2 * (Target.arm false).nargFpr ↔
        st.nfpr + 1 ≤ (Target.arm false).nargFpr := by
      have : (Target.arm false).nargFpr = 8 := rfl
      lia
    rw [if_neg (by rw [ha]; decide), if_neg hodd, if_pos rfl, if_neg (not_not.2 h0)]
    by_cases hle : st.nfpr + 1 ≤ (Target.arm false).nargFpr
    · rw [if_pos (hroom.2 hle), if_pos hle]
      exact .first .fpr _ _
    · rw [if_neg fun h => hle (hroom.1 h), if_neg hle]
      exact .onStack _
  · rw [if_pos ha, if_neg (by decide : ¬ 2 = 1)]
    split
    · exact .first .fpr _ _
    · exact .onStack _

theorem same_arm (soft : Bool) (hf : isfp ≠ 0 ↔ d.isFp = true) (hv : f.vararg = false)
    (hn : (n = 1 ∧ d.overAligned (.arm soft) = false) ∨
      (n = 2 ∧ d.overAligned (.arm soft) = true))
    (hg : st.ngpr ≤ 4) (hs : soft = false → d.isFp = true → n = 1 → st.fprodd = 0) :
    Same (.arm soft) (Ccall.regargArm (.arm soft) f st d isfp n soft)
      (regargArm (.arm soft) f st d.isFp n soft) := by
  unfold Ccall.regargArm regargArm
  by_cases h : ¬ soft = true ∧ d.isFp = true
  · obtain ⟨hsoft, hfp⟩ := h
    obtain rfl : soft = false := by simpa using hsoft
    have h1 : ¬ false = true ∧ isfp ≠ 0 ∧ ¬ f.vararg = true :=
      ⟨by decide, hf.2 hfp, by rw [hv]; decide⟩
    rw [if_pos h1, if_pos ⟨hsoft, hfp⟩]
    exact same_armFpr hn (hs rfl hfp)
  · have h1 : ¬ (¬ soft = true ∧ isfp ≠ 0 ∧ ¬ f.vararg = true) := fun hc => h ⟨hc.1, hf.1 hc.2.1⟩
    rw [if_neg h1, if_neg h]
    refine same_split rfl (by lia) ?_
    unfold armGpr
    rcases hn with ⟨rfl, ha⟩ | ⟨rfl, ha⟩
    · have hno : ¬ (d.overAligned (.arm soft) = true ∧ st.ngpr < maxgpr (.arm soft) f) := by
        rw [ha]
        exact fun hc => absurd hc.1 (by decide)
      rw [if_neg hno, if_neg (by decide : ¬ 1 < 1)]
    · rw [if_pos (by decide : 1 < 2)]
      split
      · rfl
      case isFalse hc =>
        have hlt : ¬ st.ngpr < 4 := fun hlt => hc ⟨ha, hlt⟩
        have h4 : st.ngpr = 4 := by omega
        rw [h4]
        rfl

/-- **The two agree about the registers.** -/
theorem regarg_same (hd : argOk t d = true) (hv : f.vararg = false) (hi : Inv t f st)
    (hs : ¬ SecondSingle t st d) :
    Same t (Ccall.regarg t f st d false (if d.isFp then 1 else 0) (numSlots t d))
      (regarg t f st d.isFp (numSlots t d)) := by
  have hf : (if d.isFp = true then 1 else 0) ≠ 0 ↔ d.isFp = true := by
    split
    case isTrue h => exact ⟨fun _ => h, fun _ => by decide⟩
    case isFalse h => exact ⟨fun h0 => absurd rfl h0, fun h1 => absurd h1 h⟩
  have hvec : d.isVector = false := by
    cases d with
    | vector k => cases hd
    | void | int | bool | fp | «enum» | ptr | complex | struct => rfl
  have hcases := (argOk_cases hd f).2
  have hone (h8 : t.ptr = 8) : numSlots t d = 1 := by
    rcases hcases with ⟨h, -⟩ | ⟨-, -, h, -⟩
    · exact h
    · omega
  cases t with
  | x86 abi => exact same_x86 abi hf
  | x64 => exact same_x64 hf (hone rfl) hvec
  | arm soft =>
    refine same_arm soft hf hv ?_ (hi.ngpr_le (by simp)) fun hsoft hfp hn => ?_
    · exact hcases.imp (fun h => ⟨h.1, h.2.1⟩) fun h => ⟨h.1, h.2.1⟩
    · subst hsoft
      by_contra h0
      refine hs ⟨rfl, ?_, h0⟩
      cases d with
      | fp k =>
        have hk : (2 ^ (k + 2) + 4 - 1) / 4 = 1 := hn
        have hlt : 2 ^ (k + 2) < 2 ^ 3 := by lia
        have := (Nat.pow_lt_pow_iff_right (by norm_num)).1 hlt
        have hk0 : k = 0 := by lia
        rw [hk0]
      | void | int | bool | «enum» | ptr | vector | complex | struct => cases hfp
  | arm64 ios =>
    refine same_arm64 ios rfl (hone rfl) hvec ?_
    rcases hcases with ⟨-, h, -⟩ | ⟨-, -, h, -⟩
    · exact h
    · cases h
  | ppc =>
    refine same_ppc hf fun hfp hn => ?_
    rcases hcases with ⟨h, -⟩ | ⟨-, -, -, h8, -⟩
    · omega
    · cases d with
      | int u k => rfl
      | fp k => cases hfp
      | bool | «enum» | ptr => cases h8
      | void | vector | complex | struct => cases hd
  | mips soft b =>
    refine same_mips soft b hf hv ?_ ?_
    · exact hcases.imp (fun h => h.1) fun h => h.1
    · rcases hcases with ⟨h, ha, -⟩ | ⟨h, ha, -⟩
      · rw [h, ha]
        decide
      · rw [h, ha]
        decide

/-- A core register of a callback has room for the argument, and an FP register holds a number. -/
theorem regarg_done {r : Region} {i o : ℕ} {isfp : Bool}
    (h : regarg t f st isfp n = .done r i o st') :
    (r = .gpr ∧ i + n ≤ t.numGpr ∧ o = 0) ∨ (r = .fpr ∧ isfp = true) := by
  have hmax : maxgpr t f ≤ t.numGpr := by
    cases t with
    | x86 abi => exact maxgpr_x86 abi
    | x64 | arm soft | arm64 ios | ppc | mips soft b => exact le_rfl
  have hgpr (st : State) (h : regargGpr t f st n = .done r i o st') :
      r = .gpr ∧ i + n ≤ t.numGpr ∧ o = 0 := by
    unfold regargGpr at h
    generalize (if 1 < n then regpair st.ngpr else st.ngpr) = g at h
    simp only at h
    split at h
    case isTrue hle =>
      obtain ⟨rfl, rfl, rfl, -⟩ := CbArg.done.inj h
      exact ⟨rfl, hle.trans hmax, rfl⟩
    case isFalse => cases h
  cases t with
  | x86 abi =>
    simp only [regarg, regargX86] at h
    split at h
    · split at h
      · cases h
      · split at h
        · obtain ⟨rfl, rfl, rfl, -⟩ := CbArg.done.inj h
          exact .inl ⟨rfl, by lia, rfl⟩
        · cases h
    · cases h
  | x64 =>
    simp only [regarg, regargX64] at h
    split at h
    case isTrue hfp =>
      split at h
      · obtain ⟨rfl, -, -, -⟩ := CbArg.done.inj h
        exact .inr ⟨rfl, hfp⟩
      · cases h
    case isFalse =>
      split at h
      case isTrue hle =>
        obtain ⟨rfl, rfl, rfl, -⟩ := CbArg.done.inj h
        exact .inl ⟨rfl, hle.trans hmax, rfl⟩
      case isFalse => cases h
  | arm soft =>
    simp only [regarg, regargArm] at h
    split at h
    case isTrue hfp =>
      refine .inr ⟨?_, hfp.2⟩
      unfold regargArmFpr at h
      split at h
      · split at h
        · exact (CbArg.done.inj h).1.symm
        · split at h
          · exact (CbArg.done.inj h).1.symm
          · cases h
      · split at h
        · exact (CbArg.done.inj h).1.symm
        · cases h
    case isFalse => exact .inl (hgpr st h)
  | arm64 ios =>
    simp only [regarg, regargArm64] at h
    split at h
    case isTrue hfp =>
      split at h
      · obtain ⟨rfl, -, -, -⟩ := CbArg.done.inj h
        exact .inr ⟨rfl, hfp⟩
      · cases h
    case isFalse =>
      generalize (if ¬ ios = true ∧ 1 < n then regpair st.ngpr else st.ngpr) = g at h
      split at h
      case isTrue hle =>
        obtain ⟨rfl, rfl, rfl, -⟩ := CbArg.done.inj h
        exact .inl ⟨rfl, hle.trans hmax, rfl⟩
      case isFalse => cases h
  | ppc =>
    simp only [regarg, regargPpc] at h
    split at h
    case isTrue hfp =>
      split at h
      · obtain ⟨rfl, -, -, -⟩ := CbArg.done.inj h
        exact .inr ⟨rfl, hfp⟩
      · cases h
    case isFalse => exact .inl (hgpr st h)
  | mips soft b =>
    simp only [regarg, regargMips] at h
    split at h
    · exact .inl (hgpr st h)
    · split at h
      case isTrue hfp =>
        obtain ⟨rfl, -, -, -⟩ := CbArg.done.inj h
        exact .inr ⟨rfl, hfp.1⟩
      case isFalse => exact .inl (hgpr _ h)

/-- What the call stores in registers is in one piece. -/
theorem argSpans_ok {p : Pass} {r : Region} {byte : ℕ} (hp : pass t f d = some p) (h2 : p.isfp ≤ 1)
    (hb : p.byref = false) (hr : r = .gpr → byte + d.stored t ≤ t.ptr * t.numGpr)
    (hfp : r = .fpr → d.isFp = true) :
    argSpans t d p r byte = [⟨r, byte, if t = .ppc ∧ r = .fpr then 8 else d.stored t⟩] := by
  have hc := contiguous_single hr
  cases t with
  | x86 abi | arm soft | mips soft b => exact hc
  | x64 =>
    have h : ¬ (p.isfp = 2 ∧ p.n .x64 = 2 ∧ r = .fpr) := by omega
    rw [argSpans, if_neg h, hc]
    rfl
  | arm64 ios =>
    have h : ¬ (p.isfp = 2 ∧ r ≠ .stack) := by omega
    rw [argSpans, hb, if_neg (by decide), if_neg h, hc]
    rfl
  | ppc =>
    rw [argSpans, hb, if_neg (by decide)]
    by_cases h : r = .fpr
    · rw [if_pos ⟨hfp h, h⟩, if_pos ⟨rfl, h⟩, h]
    · rw [if_neg fun hh => h hh.2, if_neg fun hh => h hh.2, hc]

/-- The stack slots of an argument, as the callback counts them. -/
theorem stackArg_agrees {p : Pass} (hcases : (numSlots t d = 1 ∧ d.overAligned t = false ∧
        d.size t ≤ t.ptr) ∨
      (numSlots t d = 2 ∧ d.overAligned t = true ∧ t.ptr = 4 ∧ d.size t = 8 ∧
        d.align t - t.ptrAlign = 1)) (hb : p.byref = false) (hn : p.n t = numSlots t d) :
    stackArg t d p st =
      let nsp := if t.alignStackarg ∧ t.ptr = 4 ∧ t.ptr * numSlots t d = 8 then Align.up 2 st.nsp
        else st.nsp
      if maxstack < nsp + numSlots t d then none
      else some (t.ptr * nsp, { st with nsp := nsp + numSlots t d }) := by
  have hnsp : (if t.alignStackarg ∧ ¬ p.byref ∧ d.overAligned t then
        Align.up (2 ^ (d.align t - t.ptrAlign)) st.nsp else st.nsp) =
      if t.alignStackarg ∧ t.ptr = 4 ∧ t.ptr * numSlots t d = 8 then Align.up 2 st.nsp
      else st.nsp := by
    rcases hcases with ⟨h1, ha, -⟩ | ⟨h1, ha, hptr, -, hal⟩
    · have hno : ¬ (t.alignStackarg = true ∧ ¬ p.byref = true ∧ d.overAligned t = true) := by
        rw [ha]
        exact fun h => absurd h.2.2 (by decide)
      have hno' : ¬ (t.alignStackarg = true ∧ t.ptr = 4 ∧ t.ptr * numSlots t d = 8) := by
        rw [h1]
        omega
      rw [if_neg hno, if_neg hno']
    · rw [h1, hptr, hal, ha, hb]
      simp
  unfold stackArg
  simp only
  rw [hnsp, hn]

/-- **One argument, from equal counters.** -/
theorem convArg_agrees (hd : argOk t d = true) (hv : f.vararg = false) (hi : Inv t f st)
    (hs : ¬ SecondSingle t st d) (h : setArg t f st ⟨d, false⟩ = some (q, st')) :
    q.spans.map (callPlace t d) = [(convArg t f st d).1] ∧ st' = (convArg t f st d).2 := by
  obtain ⟨hp, hcases⟩ := argOk_cases hd f
  have hn := pass_n hd (if d.isFp then 1 else 0)
  have hsame := regarg_same hd hv hi hs
  have hsplit : splitStruct t d = none := by
    cases d with
    | struct => cases hd
    | void | int | bool | fp | «enum» | ptr | complex | vector => cases t <;> rfl
  have hst : structState t f st d = st := by
    cases d with
    | struct => cases hd
    | void | int | bool | fp | «enum» | ptr | complex | vector => cases t <;> rfl
  simp only [setArg, hsplit, hp] at h
  obtain ⟨out, ho, heq⟩ := Option.map_eq_some_iff.1 h
  obtain ⟨rfl, rfl⟩ := Prod.mk.inj heq
  simp only [placeArg, hst, hn] at ho
  have hb : (⟨if d.isFp then 1 else 0, false, if d.isNum then d.size t else t.ptr⟩ : Pass).byref =
      false := rfl
  have h1 : (⟨if d.isFp then 1 else 0, false, if d.isNum then d.size t else t.ptr⟩ : Pass).isfp ≤ 1 := by
    simp only
    split <;> decide
  have hlen := stored_le hp hb
  rw [hn] at hlen
  simp only [convArg]
  generalize Ccall.regarg t f st d false (if d.isFp then 1 else 0) (numSlots t d) = ra at ho hsame
  generalize hcb : regarg t f st d.isFp (numSlots t d) = rc at hsame
  cases hsame with
  | nyi c => cases ho
  | done r i o st1 hlt =>
    obtain rfl := Option.some.inj ho
    refine ⟨?_, rfl⟩
    simp only
    rcases regarg_done hcb with ⟨rfl, hroom, rfl⟩ | ⟨rfl, hfp⟩
    · have hbound : wordSize t .gpr * i + 0 + d.stored t ≤ t.ptr * t.numGpr := by
        have hmul := Nat.mul_le_mul_left t.ptr hroom
        rw [Nat.mul_add] at hmul
        show t.ptr * i + 0 + d.stored t ≤ _
        lia
      rw [argSpans_ok hp h1 hb (fun _ => hbound) (by simp), if_neg (by simp), if_neg (by simp)]
      exact congrArg (fun p => [p]) (callPlace_eq hd hlt)
    · rw [argSpans_ok hp h1 hb (by simp) (fun _ => hfp)]
      by_cases ht : t = .ppc
      · subst ht
        rw [if_pos ⟨rfl, rfl⟩, if_pos ⟨rfl, rfl⟩]
        exact congrArg (fun p => [p]) (callPlace_ppc hfp hlt)
      · rw [if_neg fun hh => ht hh.1, if_neg fun hh => ht hh.1]
        exact congrArg (fun p => [p]) (callPlace_eq hd hlt)
  | onStack st1 =>
    simp only at ho ⊢
    have hstack := @stackArg_agrees t st1 d _ hcases hb hn
    generalize (if t.alignStackarg = true ∧ t.ptr = 4 ∧ t.ptr * numSlots t d = 8 then
      Align.up 2 st1.nsp else st1.nsp) = nsp at hstack ⊢
    simp only at hstack
    rw [hstack] at ho
    by_cases hmax : maxstack < nsp + numSlots t d
    · rw [if_pos hmax] at ho
      cases ho
    · rw [if_neg hmax] at ho
      obtain rfl := Option.some.inj ho
      refine ⟨?_, rfl⟩
      simp only
      rw [argSpans_ok hp h1 hb (by simp) (by simp), if_neg (by simp)]
      have hw : 0 < wordSize t .stack := by
        have := t.four_le_ptr
        show 0 < t.ptr
        omega
      exact congrArg (fun p => [p]) (callPlace_eq hd hw)

end Step

/-! ### All arguments -/

section Run

variable {t : Target} {f : FuncType} {st st' : State} {d : CType} {q : Placed} {ds : List CType}
  {ps : List Placed}

/-- What takes two core registers is aligned to them, so nothing is split. -/
theorem not_clash (hd : argOk t d = true) : ¬ Clash t f st d := by
  rintro ⟨rfl, -, hlt, p, hp, -, hn⟩
  obtain ⟨hp', hcases⟩ := argOk_cases hd f
  obtain rfl := Option.some.inj (hp.symm.trans hp')
  rw [pass_n hd] at hn
  rcases hcases with ⟨h1, -⟩ | ⟨h1, ha, -⟩
  · omega
  · have hg : armGpr (.arm false) f st d = regpair st.ngpr := by
      unfold armGpr at hlt ⊢
      split
      · rfl
      case isFalse hno =>
        rw [if_neg hno] at hlt
        exact absurd ⟨ha, hlt⟩ hno
    have hdvd : 2 ∣ armGpr (.arm false) f st d := hg ▸ Align.dvd_up 2 st.ngpr
    lia

theorem setArg_inv (hd : argOk t d = true) (hi : Inv t f st)
    (h : setArg t f st ⟨d, false⟩ = some (q, st')) : Inv t f st' :=
  (setArg_ok hi (not_clash hd) h).1.inv

/-- All arguments, on the targets that have no half registers. -/
theorem convArgs_agree (ht : t ≠ .arm false) (hv : f.vararg = false) (hd : ds.all (argOk t) = true)
    (hi : Inv t f st) (h : setArgs t f st (ds.map fun d => ⟨d, false⟩) = some (ps, st')) :
    ArgsAgree t st f ds ps := by
  induction ds generalizing st ps with
  | nil =>
    obtain ⟨rfl, rfl⟩ := Prod.mk.inj (Option.some.inj h)
    rfl
  | cons d ds ih =>
    rw [List.all_cons, Bool.and_eq_true] at hd
    simp only [List.map_cons, setArgs] at h
    split at h
    case h_1 => cases h
    case h_2 q st1 hq =>
      split at h
      case h_1 => cases h
      case h_2 qs st2 hqs =>
        obtain ⟨rfl, rfl⟩ := Prod.mk.inj (Option.some.inj h)
        obtain ⟨hplace, rfl⟩ := convArg_agrees hd.1 hv hi (fun hs => ht hs.1) hq
        have htail := ih hd.2 (setArg_inv hd.1 hi hq) hqs
        unfold ArgsAgree at htail ⊢
        rw [List.zipWith_cons_cons, hplace, htail]
        rfl

/-! ### The hard-float ABI of ARM -/

theorem argOk_fp (hd : argOk t d = true) (hf : d.isFp = true) : d = .fp 0 ∨ d = .fp 1 := by
  cases d with
  | fp k =>
    have h8 : 2 ^ (k + 2) ≤ 2 ^ 3 := of_decide_eq_true hd
    have := (Nat.pow_le_pow_iff_right (by norm_num)).1 h8
    have hk : k = 0 ∨ k = 1 := by lia
    rcases hk with rfl | rfl
    · exact .inl rfl
    · exact .inr rfl
  | void | int | bool | «enum» | ptr | vector | complex | struct => cases hf

/-- The FP counters of ARM after an argument that is not an FP number. -/
theorem arm_state_gpr (hd : d.isFp = false) :
    (convArg (.arm false) f st d).2.nfpr = st.nfpr ∧
      (convArg (.arm false) f st d).2.fprodd = st.fprodd := by
  have hno : ¬ (¬ false = true ∧ d.isFp = true) := by
    rw [hd]
    decide
  simp only [convArg, regarg, regargArm]
  rw [if_neg hno]
  unfold regargGpr
  generalize (if 1 < numSlots (.arm false) d then regpair st.ngpr else st.ngpr) = g
  simp only
  by_cases hle : g + numSlots (.arm false) d ≤ maxgpr (.arm false) f
  · rw [if_pos hle]
    exact ⟨rfl, rfl⟩
  · rw [if_neg hle]
    exact ⟨rfl, rfl⟩

/-- The FP counters of ARM after an FP number. -/
theorem arm_state_fpr (hd : d.isFp = true) :
    (convArg (.arm false) f st d).2.nfpr =
        (match regargArmFpr (.arm false) st (numSlots (.arm false) d) with
          | .done _ _ _ st' => st'.nfpr
          | .onStack st' => st'.nfpr) ∧
      (convArg (.arm false) f st d).2.fprodd =
        match regargArmFpr (.arm false) st (numSlots (.arm false) d) with
          | .done _ _ _ st' => st'.fprodd
          | .onStack st' => st'.fprodd := by
  have hyes : ¬ false = true ∧ d.isFp = true := ⟨by decide, hd⟩
  simp only [convArg, regarg, regargArm]
  rw [if_pos hyes]
  cases regargArmFpr (.arm false) st (numSlots (.arm false) d) with
  | done r i o st' => exact ⟨rfl, rfl⟩
  | onStack st' => exact ⟨rfl, rfl⟩

theorem arm_state_double :
    let st1 := (convArg (.arm false) f st (.fp 1)).2
    (st.nfpr < 8 → st1.nfpr = st.nfpr + 1 ∧ st1.fprodd = st.fprodd) ∧
      (¬ st.nfpr < 8 → st1.nfpr = st.nfpr ∧ st1.fprodd = 0) := by
  have hn : numSlots (.arm false) (.fp 1) = 2 := rfl
  obtain ⟨h1, h2⟩ := @arm_state_fpr f st (.fp 1) rfl
  simp only
  rw [h1, h2, hn, regargArmFpr, if_neg (by decide : ¬ 2 = 1)]
  refine ⟨fun h => ?_, fun h => ?_⟩
  · rw [if_pos (show st.nfpr + 1 ≤ (Target.arm false).nargFpr from h)]
    exact ⟨rfl, rfl⟩
  · rw [if_neg (show ¬ st.nfpr + 1 ≤ (Target.arm false).nargFpr from h)]
    exact ⟨rfl, rfl⟩

theorem arm_state_single (h0 : st.fprodd = 0) :
    let st1 := (convArg (.arm false) f st (.fp 0)).2
    (st.nfpr < 8 → st1.nfpr = st.nfpr + 1 ∧ st1.fprodd = st.nfpr + 1) ∧
      (¬ st.nfpr < 8 → st1.nfpr = st.nfpr ∧ st1.fprodd = 0) := by
  have hn : numSlots (.arm false) (.fp 0) = 1 := rfl
  obtain ⟨h1, h2⟩ := @arm_state_fpr f st (.fp 0) rfl
  simp only
  rw [h1, h2, hn, regargArmFpr, if_pos rfl, if_neg (not_not.2 h0)]
  refine ⟨fun h => ?_, fun h => ?_⟩
  · rw [if_pos (show st.nfpr + 1 ≤ (Target.arm false).nargFpr from h)]
    exact ⟨rfl, rfl⟩
  · rw [if_neg (show ¬ st.nfpr + 1 ≤ (Target.arm false).nargFpr from h)]
    exact ⟨rfl, rfl⟩

/-- A second single is in the upper half of a register, or not in a register that holds a single. -/
theorem secondSingle_differs (hi : Inv (.arm false) f st) (hv : f.vararg = false)
    (h0 : st.fprodd ≠ 0) (h : setArg (.arm false) f st ⟨.fp 0, false⟩ = some (q, st')) :
    q.spans.map (callPlace (.arm false) (.fp 0)) ≠ [(convArg (.arm false) f st (.fp 0)).1] := by
  have hread : (convArg (.arm false) f st (.fp 0)).1 = ⟨.fpr, st.fprodd - 1, 0, 4⟩ := by
    have hyes : ¬ false = true ∧ CType.isFp (.fp 0) = true := ⟨by decide, rfl⟩
    have hn : numSlots (.arm false) (.fp 0) = 1 := rfl
    simp only [convArg, regarg, regargArm]
    rw [if_pos hyes, hn, regargArmFpr, if_pos rfl, if_pos h0]
    rfl
  rw [hread]
  obtain ⟨p, out, hp, ho, rfl, rfl⟩ := arm_pass h
  obtain rfl : p = { isfp := 1, sz := 4 } := (Option.some.inj hp).symm
  have hreg : Ccall.regarg (.arm false) f st (.fp 0) false 1 (Pass.n (.arm false) { isfp := 1, sz := 4 }) =
      Ccall.regargArmFpr (.arm false) st (.fp 0) 1 := by
    have hyes : ¬ false = true ∧ 1 ≠ 0 ∧ ¬ f.vararg = true := ⟨by decide, by decide, by rw [hv]; decide⟩
    exact if_pos hyes
  have hle := hi.fprodd_le
  have hnf : st.nfpr ≤ 8 := hi.nfpr_le
  simp only [placeArg, arm_structState, hreg] at ho
  unfold Ccall.regargArmFpr at ho
  rw [if_neg (by decide : ¬ CType.overAligned (.arm false) (.fp 0) = true)] at ho
  have hspans (r : Region) (b : ℕ) (hr : r ≠ .gpr) :
      argSpans (.arm false) (.fp 0) { isfp := 1, sz := 4 } r b = [⟨r, b, 4⟩] :=
    contiguous_single (t := .arm false) fun h => absurd h hr
  by_cases heq : st.fprodd = st.nfpr
  · -- the upper half of the last register
    have hodd : armFprodd (.arm false) st 1 = st.fprodd := if_neg fun h => h.2 heq
    have hroom : 2 * st.nfpr + 1 ≤ 2 * (Target.arm false).nargFpr + 1 := by
      show _ ≤ 2 * 8 + 1
      lia
    rw [hodd, if_pos h0, if_pos hroom] at ho
    obtain rfl := Option.some.inj ho
    simp only
    rw [hspans _ _ (by simp)]
    intro hcon
    have hofs : (8 * (st.fprodd - 1) + 4) % 8 = 0 := congrArg Place.ofs (List.cons.inj hcon).1
    omega
  · have hodd : armFprodd (.arm false) st 1 = 0 := if_pos ⟨by decide, heq⟩
    rw [hodd, if_neg (by decide)] at ho
    by_cases hroom : 2 * st.nfpr + 1 ≤ 2 * (Target.arm false).nargFpr
    · -- the next register
      rw [if_pos hroom] at ho
      obtain rfl := Option.some.inj ho
      simp only
      rw [hspans _ _ (by simp)]
      intro hcon
      have hidx : 8 * st.nfpr / 8 = st.fprodd - 1 := congrArg Place.index (List.cons.inj hcon).1
      lia
    · -- the stack
      rw [if_neg hroom] at ho
      simp only at ho
      split at ho
      case h_1 => cases ho
      case h_2 byte st2 _ =>
        obtain rfl := Option.some.inj ho
        simp only
        rw [hspans _ _ (by simp)]
        intro hcon
        cases congrArg Place.region (List.cons.inj hcon).1

/-- All arguments, with the hard-float ABI of ARM.  `k` FP arguments have been passed. -/
theorem armArgs_agree_iff {k : ℕ} (hv : f.vararg = false) (hd : ds.all (argOk (.arm false)) = true)
    (hi : Inv (.arm false) f st) (hk : st.nfpr = min k 8) (hk9 : 9 ≤ k → st.fprodd = 0)
    (h : setArgs (.arm false) f st (ds.map fun d => ⟨d, false⟩) = some (ps, st')) :
    ArgsAgree (.arm false) st f ds ps ↔
      ((ds.filter CType.isFp).take (9 - k)).count (.fp 0) + (if st.fprodd ≠ 0 then 1 else 0) ≤ 1 := by
  induction ds generalizing st ps k with
  | nil =>
    obtain ⟨rfl, rfl⟩ := Prod.mk.inj (Option.some.inj h)
    refine iff_of_true rfl ?_
    simp only [List.filter_nil, List.take_nil, List.count_nil, Nat.zero_add]
    split <;> omega
  | cons d ds ih =>
    rw [List.all_cons, Bool.and_eq_true] at hd
    simp only [List.map_cons, setArgs] at h
    split at h
    case h_1 => cases h
    case h_2 q st1 hq =>
      split at h
      case h_1 => cases h
      case h_2 qs st2 hqs =>
        obtain ⟨rfl, rfl⟩ := Prod.mk.inj (Option.some.inj h)
        have hcons : ArgsAgree (.arm false) st f (d :: ds) (q :: qs) ↔
            q.spans.map (callPlace (.arm false) d) = [(convArg (.arm false) f st d).1] ∧
              ArgsAgree (.arm false) (convArg (.arm false) f st d).2 f ds qs := by
          unfold ArgsAgree
          rw [List.zipWith_cons_cons, convArgs, List.map_cons, List.cons.injEq]
        rw [hcons]
        by_cases hs : SecondSingle (.arm false) st d
        · obtain ⟨-, rfl, h0⟩ := hs
          refine iff_of_false (fun hh => secondSingle_differs hi hv h0 hq hh.1) ?_
          obtain ⟨j, hj⟩ : ∃ j, 9 - k = j + 1 := ⟨8 - k, by by_contra; exact h0 (hk9 (by lia))⟩
          rw [hj, List.filter_cons_of_pos rfl, List.take_succ_cons, List.count_cons_self, if_pos h0]
          omega
        · obtain ⟨hplace, rfl⟩ := convArg_agrees hd.1 hv hi hs hq
          have hi1 := setArg_inv hd.1 hi hq
          rw [and_iff_right hplace]
          by_cases hfp : d.isFp = true
          · rw [List.filter_cons_of_pos hfp]
            by_cases hlt : k < 8
            · -- in a register
              have hnf : st.nfpr < 8 := by lia
              obtain ⟨j, hj, hj'⟩ : ∃ j, 9 - k = j + 1 ∧ 9 - (k + 1) = j := ⟨8 - k, by lia, by lia⟩
              rcases argOk_fp hd.1 hfp with rfl | rfl
              · have h0 : st.fprodd = 0 := by
                  by_contra h0
                  exact hs ⟨rfl, rfl, h0⟩
                obtain ⟨h1, h2⟩ := (@arm_state_single f st h0).1 hnf
                rw [ih (k := k + 1) hd.2 hi1 (by lia) (by omega) hqs, hj, hj', h2, h0,
                  List.take_succ_cons, List.count_cons_self, if_pos (Nat.succ_ne_zero _),
                  if_neg (by decide)]
              · obtain ⟨h1, h2⟩ := (@arm_state_double f st).1 hnf
                rw [ih (k := k + 1) hd.2 hi1 (by lia) (by omega) hqs, hj, hj', h2,
                  List.take_succ_cons, List.count_cons_of_ne (by decide)]
            · -- on the stack, as all numbers from here on
              have hnf : ¬ st.nfpr < 8 := by lia
              have hstate : (convArg (.arm false) f st d).2.nfpr = st.nfpr ∧
                  (convArg (.arm false) f st d).2.fprodd = 0 := by
                rcases argOk_fp hd.1 hfp with rfl | rfl
                · have h0 : st.fprodd = 0 := by
                    by_contra h0
                    exact hs ⟨rfl, rfl, h0⟩
                  exact (@arm_state_single f st h0).2 hnf
                · exact (@arm_state_double f st).2 hnf
              have h9 : 9 - (k + 1) = 0 := by lia
              rw [ih (k := k + 1) hd.2 hi1 (by lia) (fun _ => hstate.2) hqs, hstate.2, h9,
                List.take_zero, List.count_nil, if_neg (by decide)]
              refine iff_of_true (by decide) ?_
              have hone : (if st.fprodd ≠ 0 then 1 else 0) ≤ 1 := by
                split <;> decide
              obtain hk8 | hk8 : 9 - k = 1 ∨ 9 - k = 0 := by lia
              · rw [hk8, List.take_succ_cons, List.take_zero]
                rcases argOk_fp hd.1 hfp with rfl | rfl
                · have h0 : st.fprodd = 0 := by
                    by_contra h0
                    exact hs ⟨rfl, rfl, h0⟩
                  rw [h0]
                  decide
                · rw [List.count_cons_of_ne (by decide), List.count_nil, Nat.zero_add]
                  exact hone
              · rw [hk8, List.take_zero, List.count_nil, Nat.zero_add]
                exact hone
          · obtain ⟨h1, h2⟩ := @arm_state_gpr f st d (by simpa using hfp)
            rw [ih hd.2 hi1 (h1.trans hk) (fun h9 => h2.trans (hk9 h9)) hqs, h2,
              List.filter_cons_of_neg hfp]

end Run

/-! ### Results -/

section ResultLemmas

variable {t : Target} {f : FuncType} {mem : ℕ → UInt8} {bs bs' : List UInt8} {o o' n : ℕ}

theorem readAt_writeAt : readAt (writeAt mem o bs) o bs.length = bs := by
  refine List.ext_getElem (by simp [readAt]) fun i h1 h2 => ?_
  simp only [readAt, writeAt, List.getElem_map, List.getElem_range]
  rw [if_pos ⟨by omega, by omega⟩, Nat.add_sub_cancel_left, List.getD_eq_getElem _ _ h2]

/-- Bytes that are not written keep their values. -/
theorem readAt_writeAt_of_le (h : o + n ≤ o') : readAt (writeAt mem o' bs) o n = readAt mem o n := by
  refine List.map_congr_left fun i hi => ?_
  rw [List.mem_range] at hi
  exact if_neg fun hh => by omega

/-- A part of what is written. -/
theorem readAt_writeAt_drop (a : List UInt8) (h : bs = a ++ bs') :
    readAt (writeAt mem o bs) (o + a.length) bs'.length = bs' := by
  subst h
  refine List.ext_getElem (by simp [readAt]) fun i h1 h2 => ?_
  simp only [readAt, writeAt, List.getElem_map, List.getElem_range, List.length_append]
  rw [if_pos ⟨by omega, by omega⟩, List.getD_eq_getElem?_getD,
    List.getElem?_append_right (by lia)]
  have hidx : o + a.length + i - o - a.length = i := by lia
  rw [hidx, List.getElem?_eq_getElem h2]
  rfl

theorem readAt_writeAt_take (b : List UInt8) (h : bs = bs' ++ b) :
    readAt (writeAt mem o bs) o bs'.length = bs' := by
  subst h
  refine List.ext_getElem (by simp [readAt]) fun i h1 h2 => ?_
  simp only [readAt, writeAt, List.getElem_map, List.getElem_range, List.length_append]
  rw [if_pos ⟨by omega, by omega⟩, Nat.add_sub_cancel_left, List.getD_eq_getElem?_getD,
    List.getElem?_append_left h2, List.getElem?_eq_getElem h2]
  rfl

/-- Where a result that is no FP number is read. -/
theorem resultPlace_gpr (hv : f.vararg = false) (hf : f.ret.isFp = false)
    (hvec : f.ret.isVector = false) :
    resultPlace t f = ⟨.gpr, if be t ∧ f.ret.isIntegerOrBool ∧ f.ret.size t < t.ptr then
      t.ptr - f.ret.size t else 0, f.ret.size t, x87 t f.ret⟩ := by
  have h1 : ¬ (0 < t.numFpr ∧ (f.ret.isFp = true ∨ f.ret.isVector = true)) := by
    rw [hf, hvec]
    exact fun h => h.2.elim (by decide) (by decide)
  have h2 (n : ℕ) : ¬ (f.ret.isFp = true ∧ n = 4) := by
    rw [hf]
    exact fun h => absurd h.1 (by decide)
  unfold resultPlace
  simp only [if_neg h1]
  cases t with
  | arm soft =>
    simp only
    rw [if_neg (by rw [hv]; decide)]
  | ppc =>
    simp only
    rw [if_neg (h2 _)]
  | mips soft b =>
    cases soft with
    | true => rfl
    | false =>
      simp only
      rw [if_neg (h2 _)]
  | x86 abi | x64 | arm64 ios => rfl

theorem ptr_of_be (h : be t = true) : t.ptr = 4 := by
  cases t with
  | x86 abi | x64 | arm soft | arm64 ios => cases h
  | ppc | mips soft b => rfl

/-- A small integer is read from the low bytes of the extended one. -/
theorem read_extend {val : List UInt8} (u : Bool) :
    readAt (writeAt mem 0 (extend t u val)) (if be t then 4 - val.length else 0) val.length = val := by
  have hl : (fillBytes t u val).length = 4 - val.length := List.length_replicate
  unfold extend
  by_cases hb : be t = true
  · rw [if_pos hb, if_pos hb, ← hl]
    have key := @readAt_writeAt_drop mem _ val 0 (fillBytes t u val) rfl
    rwa [Nat.zero_add] at key
  · rw [if_neg hb, if_neg hb]
    exact readAt_writeAt_take _ rfl

theorem resultAgrees_int (hv : f.vararg = false) (hd : argOk t f.ret = true)
    (hf : f.ret.isFp = false) : ResultAgrees t f := by
  intro _ widen val mem hval hwiden
  have hsmall := isSmall_iff hd
  have hvec : f.ret.isVector = false := by
    revert hd
    cases f.ret with
    | vector k => exact fun h => by cases h
    | void | int | bool | fp | «enum» | ptr | complex | struct => exact fun _ => rfl
  have hno : ¬ (f.ret.isFp = true ∧ f.ret.size t = 4) := by
    rw [hf]
    exact fun h => absurd h.1 (by decide)
  have hno' : ¬ (0 < t.numFpr ∧ f.ret.isFp = true) := by
    rw [hf]
    exact fun h => absurd h.2 (by decide)
  have hppc : ¬ (t = .ppc ∧ f.ret.isFp = true ∧ f.ret.size t = 4) := fun h => hno h.2
  simp only [convResult, resultPlace_gpr hv hf hvec, if_neg hno, if_neg hno', if_neg hppc]
  refine ⟨trivial, trivial, ?_⟩
  by_cases hs : isSmall t f.ret = true
  · have hlt := hsmall.1 hs
    have hint : f.ret.isIntegerOrBool = true := by
      have := of_decide_eq_true hs
      exact this.1
    have hofs : (if be t = true ∧ f.ret.isIntegerOrBool = true ∧ f.ret.size t < t.ptr then
        t.ptr - f.ret.size t else 0) = if be t then 4 - val.length else 0 := by
      by_cases hb : be t = true
      · have hp := ptr_of_be hb
        rw [if_pos hb, if_pos ⟨hb, hint, by omega⟩, hp, hval]
      · rw [if_neg hb, if_neg fun h => hb h.1]
    rw [if_pos hs, hofs, ← hval]
    exact read_extend _
  · have hge : 4 ≤ f.ret.size t := by
      by_contra h
      exact hs (hsmall.2 (by omega))
    have hofs : ¬ (be t = true ∧ f.ret.isIntegerOrBool = true ∧ f.ret.size t < t.ptr) := by
      rintro ⟨hb, -, hlt⟩
      have := ptr_of_be hb
      omega
    rw [if_neg hs, if_neg hofs, ← hval]
    exact readAt_writeAt

theorem resultAgrees_fp (hv : f.vararg = false) (hd : argOk t f.ret = true)
    (hf : f.ret.isFp = true) : ResultAgrees t f := by
  obtain ⟨cc, va, ret, params⟩ := f
  subst hv
  intro _ widen val mem hval hwiden
  have hfirst {n : ℕ} (hl : val.length = n) : readAt (writeAt mem 0 val) 0 n = val := by
    rw [← hl]
    exact readAt_writeAt
  have hlow (hl : val.length = 4) : readAt (writeAt (writeAt mem 0 val) 4 val) 0 4 = val := by
    rw [readAt_writeAt_of_le (by decide)]
    exact hfirst hl
  have hhigh (hl : val.length = 4) : readAt (writeAt (writeAt mem 0 val) 4 val) 4 4 = val := by
    have key := @readAt_writeAt (writeAt mem 0 val) val 4
    rwa [hl] at key
  rcases argOk_fp hd hf with rfl | rfl
  · have hl : val.length = 4 := hval
    cases t with
    | x86 abi => exact ⟨rfl, rfl, hfirst hl⟩
    | x64 => exact ⟨rfl, rfl, hfirst hl⟩
    | arm soft =>
      cases soft with
      | true => exact ⟨rfl, rfl, hfirst hl⟩
      | false => exact ⟨rfl, rfl, hfirst hl⟩
    | arm64 ios => exact ⟨rfl, rfl, hfirst hl⟩
    | ppc =>
      have key := @readAt_writeAt (writeAt mem 0 val) (widen val) 0
      rw [hwiden] at key
      exact ⟨rfl, rfl, key⟩
    | mips soft b =>
      cases soft with
      | true =>
        cases b with
        | true => exact ⟨rfl, rfl, hlow hl⟩
        | false => exact ⟨rfl, rfl, hlow hl⟩
      | false =>
        cases b with
        | true => exact ⟨rfl, rfl, hhigh hl⟩
        | false => exact ⟨rfl, rfl, hlow hl⟩
  · have hl : val.length = 8 := hval
    cases t with
    | x86 abi => exact ⟨rfl, rfl, hfirst hl⟩
    | x64 => exact ⟨rfl, rfl, hfirst hl⟩
    | arm soft =>
      cases soft with
      | true => exact ⟨rfl, rfl, hfirst hl⟩
      | false => exact ⟨rfl, rfl, hfirst hl⟩
    | arm64 ios => exact ⟨rfl, rfl, hfirst hl⟩
    | ppc => exact ⟨rfl, rfl, hfirst hl⟩
    | mips soft b =>
      cases soft with
      | true =>
        cases b with
        | true => exact ⟨rfl, rfl, hfirst hl⟩
        | false => exact ⟨rfl, rfl, hfirst hl⟩
      | false =>
        cases b with
        | true => exact ⟨rfl, rfl, hfirst hl⟩
        | false => exact ⟨rfl, rfl, hfirst hl⟩

/-- **The call finds the result where the callback has stored it.** -/
theorem resultAgrees (hv : f.vararg = false) (hd : f.ret = .void ∨ argOk t f.ret = true) :
    ResultAgrees t f := by
  intro hvoid
  have hd := hd.resolve_left hvoid
  by_cases hf : f.ret.isFp = true
  · exact resultAgrees_fp hv hd hf hvoid
  · exact resultAgrees_int hv hd (by simpa using hf) hvoid

end ResultLemmas

/-! ### Calls of callbacks -/

section Main

variable {t : Target} {f : FuncType} {ret ps : List Placed} {st : State}

/-- A result that callbacks support needs no argument. -/
theorem setRet_plain (hd : f.ret = .void ∨ argOk t f.ret = true) : setRet t f = some ([], {}) := by
  have hvec : ¬ (f.ret.isVector = true ∧
      ¬ (t.vectorReg = true ∧ (f.ret.size t = 8 ∨ f.ret.size t = 16))) := by
    revert hd
    cases f.ret with
    | vector k => exact fun h => h.elim (fun h => by cases h) fun h => by cases h
    | void | int | bool | fp | «enum» | ptr | complex | struct => exact fun _ h => by cases h.1
  have href : ¬ retrefArg t f.ret = true := by
    revert hd
    cases f.ret with
    | complex k => exact fun h => h.elim (fun h => by cases h) fun h => by cases h
    | struct => exact fun h => h.elim (fun h => by cases h) fun h => by cases h
    | void | int | bool | fp | «enum» | ptr | vector =>
      cases t with
      | x86 abi => cases abi <;> exact fun _ h => by cases h
      | arm soft => cases soft <;> exact fun _ h => by cases h
      | x64 | arm64 | ppc | mips => exact fun _ h => by cases h
  rw [setRet, if_neg hvec, if_neg href]

/-- **A call and a callback of the same function type agree about all arguments and the result,
except with the hard-float ABI of ARM for two singles among the first nine FP parameters.** -/
theorem callback_agrees_iff (hf : checkfunc t f = true) (h : ccallSetArgs t f [] = some (ret, ps, st)) :
    (ArgsAgree t {} f f.params ps ∧ ResultAgrees t f) ↔ (t = .arm false → numSingles f ≤ 1) := by
  obtain ⟨hret, hv, hall, -⟩ := of_decide_eq_true hf
  have hv : f.vararg = false := by simpa using hv
  have hset := setRet_plain hret
  have hargs : callArgs f [] = f.params.map fun d => ⟨d, false⟩ := List.append_nil _
  rw [and_iff_left (resultAgrees hv hret)]
  simp only [ccallSetArgs, hset, hargs] at h
  split at h
  case isTrue => cases h
  case isFalse =>
    split at h
    case h_1 => cases h
    case h_2 ps' st1 hps =>
      obtain ⟨rfl, heq⟩ := Prod.mk.inj (Option.some.inj h)
      obtain ⟨rfl, rfl⟩ := Prod.mk.inj heq
      have hi := (setRet_ok hset).1
      by_cases ht : t = .arm false
      · subst ht
        rw [armArgs_agree_iff (k := 0) hv hall hi rfl (by omega) hps]
        exact ⟨fun h _ => h, fun h => h rfl⟩
      · exact iff_of_true (convArgs_agree ht hv hall hi hps) fun h => absurd h ht

/-- Two singles: the second is passed in the upper half of the register of the first. -/
def singlesFunc : FuncType where
  ret := .void
  params := [.fp 0, .fp 0]

theorem singlesFunc_run : ccallSetArgs (.arm false) singlesFunc [] =
    some ([], [⟨[⟨.fpr, 0, 4⟩], []⟩, ⟨[⟨.fpr, 4, 4⟩], []⟩], { nfpr := 1 }) := by
  decide

/-- The callback reads the second single of `singlesFunc` from the place of the first. -/
theorem singlesFunc_differs :
    ¬ ∀ (t : Target) (f : FuncType) (ret ps : List Placed) (st : State), checkfunc t f = true →
      ccallSetArgs t f [] = some (ret, ps, st) → ArgsAgree t {} f f.params ps ∧ ResultAgrees t f := by
  intro h
  have hargs := (h _ _ _ _ _ (by decide) singlesFunc_run).1
  exact absurd hargs (by unfold ArgsAgree; decide)

theorem singlesFunc_agrees_iff :
    (ArgsAgree (.arm false) {} singlesFunc singlesFunc.params
        [⟨[⟨.fpr, 0, 4⟩], []⟩, ⟨[⟨.fpr, 4, 4⟩], []⟩] ∧ ResultAgrees (.arm false) singlesFunc) ↔
      (Target.arm false = .arm false → numSingles singlesFunc ≤ 1) :=
  callback_agrees_iff (by decide) singlesFunc_run

end Main

end Ccallback
