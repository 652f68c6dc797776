/-
**What narrowing promises.**

FP references have exact rational values and integer references are 32 bit words; an execution gives a value
to every reference such that every instruction has its meaning and every guard passes.  `TOBIT` adds a bias and
takes the low word of the sum, as `lj_num2bit`: that is the integer modulo `2 ^ 32` as long as the sum
keeps its last bit.

Main definitions:

* `Ir.knumVal`, `Ir.num2bit` — the value of an FP constant, and `lj_num2bit` of an integer;
* `Ir.Exec`, `Ir.Runs` — executions;
* `Ir.Good` — well-formed and well-typed stores;
* `Ir.IntegralTree` — the operands of an expression are integers;
* `Ir.ValueOk` — an integer reference holds the value of an expression, as strictly as a mode asks for;
* `Ir.EntryOk`, `Ir.CacheOk` — the backpropagation cache only holds such references.

Main results:

* `Ir.num2bit_eq` — the range of `TOBIT`;
* `Ir.ValueOk.ext`, `Ir.CacheOk.ext` — what is promised stays true when the store grows.
-/

import LuaJit.FoldConv
import LuaJit.FoldAbc

set_option relaxedAutoImplicit false
set_option autoImplicit false

namespace Ir

open JitState

/-! ### Numbers -/

/-- The value of a double, unless it is infinite or no number. -/
def knumVal (n : BitVec 64) : Option ℚ :=
  let m : ℕ := n.toNat % 2 ^ 52
  let e : ℕ := n.toNat / 2 ^ 52 % 2 ^ 11
  let s : ℚ := if n.msb then -1 else 1
  if e = 2047 then none
  else if e = 0 then some (s * m / 2 ^ 1074)
  else some (s * (2 ^ 52 + m) * 2 ^ e / 2 ^ 1075)

/-- The low word of the significand of the double nearest to an integer. -/
def lowWord (z : ℤ) : BitVec 32 :=
  let a := (Dbl.roundInt z).natAbs
  if a < 2 ^ 53 then BitVec.ofNat 32 (a * 2 ^ (52 - a.log2)) else BitVec.ofNat 32 (a / 2 ^ (a.log2 - 52))

/-- `lj_num2bit` of an integer: the low word after adding `2^52 + 2^51`. -/
def num2bit (z : ℤ) : BitVec 32 := lowWord (z + (2 ^ 52 + 2 ^ 51))

/-- **The range of `TOBIT`.** -/
theorem num2bit_eq {z : ℤ} (hlo : -2 ^ 51 ≤ z) (hhi : z < 2 ^ 51) : num2bit z = BitVec.ofInt 32 z := by
  have ha : ((z + (2 ^ 52 + 2 ^ 51)).natAbs : ℤ) = z + (2 ^ 52 + 2 ^ 51) := by lia
  have hlt : (z + (2 ^ 52 + 2 ^ 51)).natAbs < 2 ^ 53 := by omega
  have hlog : (z + (2 ^ 52 + 2 ^ 51)).natAbs.log2 = 52 := by
    rw [Nat.log2_eq_iff (by omega)]
    lia
  have hofInt : BitVec.ofNat 32 (z + (2 ^ 52 + 2 ^ 51)).natAbs =
      BitVec.ofInt 32 ((z + (2 ^ 52 + 2 ^ 51)).natAbs : ℤ) := (BitVec.ofInt_natCast _ _).symm
  rw [num2bit, lowWord, Dbl.roundInt_of_lt hlt]
  rw [if_pos hlt, hlog, Nat.sub_self, pow_zero, mul_one, hofInt, ha]
  apply BitVec.eq_of_toInt_eq
  rw [BitVec.toInt_ofInt, BitVec.toInt_ofInt]
  have hbias : (2 ^ 52 + 2 ^ 51 : ℤ) = 1572864 * 2 ^ 32 := by norm_num
  rw [hbias]
  exact Int.add_mul_bmod_self_right _ _ _

/-! ### Executions -/

/-- The values of the FP references and of the integer references in an execution. -/
structure Exec where
  num : ℕ → ℚ
  int : ℕ → BitVec 32

/-- The instruction has its meaning, and passes if it is a guard, with its result at a reference. -/
def InsRuns (x : Exec) (ins : IRIns) (ref : ℕ) : Prop :=
  match ins.o with
  | .kint => x.int ref = ins.i
  | .knum => ∀ q, knumVal ins.u64 = some q → x.num ref = q
  | .conv =>
      (ins.t.type = .num → convSrc ins.op2 = IRType.int.code → x.num ref = (x.int ins.op1).toInt) ∧
      (ins.t.type = .int → convSrc ins.op2 = IRType.num.code → ins.t.isguard = true →
        x.num ins.op1 = (x.int ref).toInt)
  | .tobit => ∀ z : ℤ, x.num ins.op1 = z → x.int ref = num2bit z
  | .add =>
      (ins.t.type = .num → x.num ref = x.num ins.op1 + x.num ins.op2) ∧
      (ins.t.type = .int → x.int ref = x.int ins.op1 + x.int ins.op2)
  | .sub =>
      (ins.t.type = .num → x.num ref = x.num ins.op1 - x.num ins.op2) ∧
      (ins.t.type = .int → x.int ref = x.int ins.op1 - x.int ins.op2)
  | .mul => ins.t.type = .int → x.int ref = x.int ins.op1 * x.int ins.op2
  | .addov => (x.int ref).toInt = (x.int ins.op1).toInt + (x.int ins.op2).toInt
  | .subov => (x.int ref).toInt = (x.int ins.op1).toInt - (x.int ins.op2).toInt
  | .mulov => (x.int ref).toInt = (x.int ins.op1).toInt * (x.int ins.op2).toInt
  | _ => True

/-- An execution of the store in which its guards pass. -/
def Runs (J : JitState) (x : Exec) : Prop := ∀ ref, J.Valid ref → InsRuns x (J.ir ref) ref

theorem JitState.Ext.runs {J J' : JitState} (he : J.Ext J') {x : Exec} (h : Runs J' x) : Runs J x := by
  intro ref hv
  rw [← he.ir_eq hv]
  exact h ref (he.valid hv)

/-! ### Well-typed FP instructions -/

/-- `ref` can be an operand of an FP instruction. -/
def JitState.NumOperand (J : JitState) (ref : ℕ) : Prop := J.Valid ref ∧ (J.ir ref).t.type = .num

theorem JitState.Ext.numOperand {J J' : JitState} (he : J.Ext J') {ref : ℕ} (h : J.NumOperand ref) :
    J'.NumOperand ref :=
  ⟨he.valid h.1, by rw [he.ir_eq h.1]; exact h.2⟩

/-- The operands of FP additions and subtractions are numbers, and a conversion has the types of its
literal. -/
structure NumIns (J : JitState) (ins : IRIns) : Prop where
  arith : ins.t.type = .num → ins.o = .add ∨ ins.o = .sub → J.NumOperand ins.op1 ∧ J.NumOperand ins.op2
  conv : ins.t.type = .num → ins.o = .conv → convSrc ins.op2 = IRType.int.code → J.IntOperand 32 ins.op1
  dst : ins.o = .conv → convDst ins.op2 = ins.t.type.code
  tobit : ins.o = .tobit → ins.t.type = .int

theorem NumIns.ext {J J' : JitState} (he : J.Ext J') {ins : IRIns} (h : NumIns J ins) : NumIns J' ins :=
  ⟨fun ht ho => (h.arith ht ho).imp he.numOperand he.numOperand,
    fun ht ho hs => he.intOperand (h.conv ht ho hs), h.dst, h.tobit⟩

/-- Well-formed and well-typed stores. -/
structure Good (J : JitState) : Prop where
  wf : J.WF
  typed : J.Typed
  num : ∀ ref, J.Valid ref → refBias ≤ ref → NumIns J (J.ir ref)

/-- A reference of a number is no constant if it is not a `KNUM`. -/
theorem Good.ins {J : JitState} (hJ : Good J) {ref : ℕ} (hv : J.Valid ref) (hk : (J.ir ref).o.isConst = false) :
    refBias ≤ ref := by
  by_contra hlt
  rw [(hJ.wf.const_iff hv).2 (by omega)] at hk
  cases hk

/-! ### What a mode promises -/

/-- The operands of an expression of additions and subtractions are integers. -/
inductive IntegralTree (J : JitState) (x : Exec) : ℕ → Prop
  | leaf {ref : ℕ} (ho : (J.ir ref).o ≠ .add ∧ (J.ir ref).o ≠ .sub) (z : ℤ) (hz : x.num ref = z) :
      IntegralTree J x ref
  | node {ref : ℕ} (ho : (J.ir ref).o = .add ∨ (J.ir ref).o = .sub)
      (h1 : IntegralTree J x (J.ir ref).op1) (h2 : IntegralTree J x (J.ir ref).op2) : IntegralTree J x ref

/-- A smaller store has the same expressions. -/
theorem IntegralTree.of_ext {J J' : JitState} (hJ : Good J) (he : J.Ext J') {x : Exec} {ref : ℕ}
    (h : IntegralTree J' x ref) (hn : J.NumOperand ref) : IntegralTree J x ref := by
  induction h with
  | leaf ho z hz =>
    rw [he.ir_eq hn.1] at ho
    exact .leaf ho z hz
  | @node ref ho _ _ ih1 ih2 =>
    rw [he.ir_eq hn.1] at ho ih1 ih2
    have hb : refBias ≤ ref := hJ.ins hn.1 (by rcases ho with ho | ho <;> rw [ho] <;> rfl)
    obtain ⟨h1, h2⟩ := (hJ.num ref hn.1 hb).arith hn.2 ho
    exact .node ho (ih1 h1) (ih2 h2)

/-- Integral operands have integral results. -/
theorem IntegralTree.integral {J : JitState} (hJ : Good J) {x : Exec} (hx : Runs J x) {ref : ℕ}
    (h : IntegralTree J x ref) (hn : J.NumOperand ref) : ∃ z : ℤ, x.num ref = z := by
  induction h with
  | leaf _ z hz => exact ⟨z, hz⟩
  | @node ref ho _ _ ih1 ih2 =>
    have hb : refBias ≤ ref := hJ.ins hn.1 (by rcases ho with ho | ho <;> rw [ho] <;> rfl)
    obtain ⟨h1, h2⟩ := (hJ.num ref hn.1 hb).arith hn.2 ho
    obtain ⟨z1, hz1⟩ := ih1 h1
    obtain ⟨z2, hz2⟩ := ih2 h2
    have hrun := hx ref hn.1
    rcases ho with ho | ho
    · rw [InsRuns, ho] at hrun
      exact ⟨z1 + z2, by rw [hrun.1 hn.2, hz1, hz2, Int.cast_add]⟩
    · rw [InsRuns, ho] at hrun
      exact ⟨z1 - z2, by rw [hrun.1 hn.2, hz1, hz2, Int.cast_sub]⟩

/-- Every integer that is converted by a `TOBIT` is in its range. -/
def TobitInRange (J : JitState) (x : Exec) : Prop :=
  ∀ ref, J.Valid ref → (J.ir ref).o = .tobit → ∀ z : ℤ, x.num (J.ir ref).op1 = z → num2bit z = BitVec.ofInt 32 z

theorem TobitInRange.of_ext {J J' : JitState} (he : J.Ext J') {x : Exec} (h : TobitInRange J' x) : TobitInRange J x := by
  intro ref hv ho z hz
  rw [← he.ir_eq hv] at ho hz
  exact h ref (he.valid hv) ho z hz

/-- A checked array index: the exact value, or a wrapped one that no bounds check accepts. -/
def IndexOk (q : ℚ) (r : BitVec 32) : Prop :=
  ∃ z : ℤ, q = z ∧ r = BitVec.ofInt 32 z ∧ (r.toInt = z ∨ maxAsize ≤ r.toNat)

theorem IndexOk.of_eq {q : ℚ} {r : BitVec 32} (h : q = r.toInt) : IndexOk q r :=
  ⟨r.toInt, h, (BitVec.ofInt_toInt).symm, .inl rfl⟩

/-- The reference `r` holds the value of the expression `ref`, as strictly as the mode asks for. -/
structure ValueOk (J : JitState) (mode ref r : ℕ) : Prop where
  tobit : convMode mode = 0 → ∀ x, Runs J x → TobitInRange J x → IntegralTree J x ref → ∀ z : ℤ, x.num ref = z →
    x.int r = BitVec.ofInt 32 z
  index : convMode mode = irconv .int .num → irconvIndex ≤ convCheck mode → ∀ x, Runs J x → IndexOk (x.num ref) (x.int r)
  check : convMode mode = irconv .int .num → irconvCheck ≤ convCheck mode → ∀ x, Runs J x → x.num ref = (x.int r).toInt

theorem ValueOk.ext {J J' : JitState} (hJ : Good J) (he : J.Ext J') {mode ref r : ℕ} (hn : J.NumOperand ref)
    (h : ValueOk J mode ref r) : ValueOk J' mode ref r :=
  ⟨fun hm x hx ht hi => h.tobit hm x (he.runs hx) (ht.of_ext he) (hi.of_ext hJ he hn),
    fun hm hc x hx => h.index hm hc x (he.runs hx), fun hm hc x hx => h.check hm hc x (he.runs hx)⟩

/-- A stronger check is ok, too. -/
theorem ValueOk.mono {J : JitState} {mode mode' ref r : ℕ} (hle : mode ≤ mode') (hm : convMode mode' = convMode mode)
    (h : ValueOk J mode' ref r) : ValueOk J mode ref r := by
  have hcheck : convCheck mode ≤ convCheck mode' := Nat.mul_le_mul_right _ (Nat.div_le_div_right hle)
  exact ⟨fun hz => h.tobit (hm.trans hz), fun hz hc => h.index (hm.trans hz) (hc.trans hcheck),
    fun hz hc => h.check (hm.trans hz) (hc.trans hcheck)⟩

/-! ### The backpropagation cache -/

/-- An overflow-checking instruction. -/
def IROp.isOv (o : IROp) : Prop := o = .addov ∨ o = .subov ∨ o = .mulov

/-- An entry of the cache for a conversion to int or a bit operand: it holds the value of the expression, or
the result of an overflow-checking instruction. -/
structure EntryOk (J : JitState) (bp : BPropEntry) : Prop where
  key : J.Valid bp.key
  val : J.IntOperand 32 bp.val
  num : J.NumOperand bp.key → ValueOk J bp.mode bp.key bp.val
  ov : (J.ir bp.key).o.isOv → convMode bp.mode = 0 → ∀ x, Runs J x → x.int bp.val = x.int bp.key

theorem EntryOk.ext {J J' : JitState} (hJ : Good J) (he : J.Ext J') {bp : BPropEntry} (h : EntryOk J bp) :
    EntryOk J' bp where
  key := he.valid h.key
  val := he.intOperand h.val
  num hn := by
    have hn' : J.NumOperand bp.key := ⟨h.key, by rw [← he.ir_eq h.key]; exact hn.2⟩
    exact (h.num hn').ext hJ he hn'
  ov ho hm x hx := h.ov (by rw [← he.ir_eq h.key]; exact ho) hm x (he.runs hx)

/-- The cache: unused entries have key 0, and the entries for other conversions do not matter here. -/
def CacheOk (J : JitState) : Prop :=
  ∀ bp ∈ J.bpropcache, bp.key = 0 ∨ (convMode bp.mode = 0 ∨ convMode bp.mode = irconv .int .num → EntryOk J bp)

theorem CacheOk.ext {J J' : JitState} (hJ : Good J) (he : J.Ext J') (hc : J'.bpropcache = J.bpropcache)
    (h : CacheOk J) : CacheOk J' := by
  intro bp hbp
  rw [hc] at hbp
  exact (h bp hbp).imp_right fun hok hm => (hok hm).ext hJ he

/-- A lookup. -/
theorem CacheOk.get {J : JitState} (h : CacheOk J) (h0 : 0 < J.nk) {key mode : ℕ} {bp : BPropEntry}
    (hv : J.Valid key) (hm : convMode mode = 0 ∨ convMode mode = irconv .int .num)
    (hget : narrowBpcGet J key mode = some bp) :
    bp.key = key ∧ mode ≤ bp.mode ∧ convMode bp.mode = convMode mode ∧ EntryOk J bp := by
  have hp := List.find?_some hget
  have hmem := List.mem_of_find?_eq_some hget
  simp only [decide_eq_true_eq] at hp
  obtain ⟨rfl, hle, hmode⟩ := hp
  have hne : bp.key ≠ 0 := by
    have := hv.1
    omega
  exact ⟨rfl, hle, hmode, (h bp hmem).resolve_left hne (by rwa [hmode])⟩

/-- The store without its cache. -/
theorem Good.congr {J J' : JitState} (hJ : Good J) (h1 : J'.ir = J.ir) (h2 : J'.nk = J.nk) (h3 : J'.nins = J.nins)
    (h4 : J'.chain = J.chain) : Good J' := by
  have he : J.Ext J' := ⟨h2.le, h3.ge, fun _ => by rw [h1]⟩
  refine ⟨hJ.wf.congr h1 h2 h3 h4, hJ.typed.congr h1 h2 h3, fun ref hv hb => ?_⟩
  rw [h1]
  exact (hJ.num ref ⟨by rw [← h2]; exact hv.1, by rw [← h3]; exact hv.2⟩ hb).ext he

/-- A new entry. -/
theorem CacheOk.set {J : JitState} (hJ : Good J) (h : CacheOk J) {key val mode : ℕ}
    (hok : convMode mode = 0 ∨ convMode mode = irconv .int .num → EntryOk J { key := key, val := val, mode := mode }) :
    CacheOk (narrowBpcSet J key val mode) := by
  have he : J.Ext (narrowBpcSet J key val mode) := ⟨le_rfl, le_rfl, fun _ => rfl⟩
  intro bp hbp
  rcases List.mem_or_eq_of_mem_set hbp with hbp | rfl
  · exact (h bp hbp).imp_right fun hok hm => (hok hm).ext hJ he
  · exact .inr fun hm => (hok hm).ext hJ he

end Ir
