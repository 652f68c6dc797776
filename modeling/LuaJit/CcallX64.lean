/-
**Small structs in registers on x64.**

`ccall_classify_struct` of `lj_ccall.c` walks the fields of a struct and marks the class of each
eightbyte in which a scalar begins.  `ccall_struct_arg` and `ccall_struct_ret` then move the words
that have a class.  A scalar marks no more than the eightbyte it begins in, so long doubles and
packed bitfields leave their second eightbyte without a class, as does trailing padding.  The loop
over the elements of an array takes its end from the size of the array, which is a marker for arrays
without a length.

Main definitions:

* `CcallX64.Ty`, `CcallX64.Fields` — C types with the offsets the type parser gave the fields;
* `CcallX64.classifyCt`, `CcallX64.classifyStruct` — `ccall_classify_ct`, `ccall_classify_struct`;
* `CcallX64.structReg`, `CcallX64.structArg`, `CcallX64.structRet` — the moves;
* `CcallX64.Ty.Part` — the scalars of a type;
* `CcallX64.Ok` — classes and moves are those of the calling convention.

Main results:

* `CcallX64.classifyFields_marks` — the marks are those of the scalars that are reached;
* `CcallX64.exists_classifyFields_iff` — the walk ends if and only if each loop it enters does;
* `CcallX64.ok_iff` — **the classes and the moves are right exactly for the adequate structs**;
* `CcallX64.adequate_of_plain` — structs of scalars of up to eight bytes are adequate.
-/

import LuaJit.Ccall
import LuaJit.Stride

set_option relaxedAutoImplicit false
set_option autoImplicit false

namespace CcallX64

/-! ### Types -/

/-- `CTSIZE_INVALID`, the size of arrays without a length. -/
def invalidSize : ℕ := 2 ^ 32 - 1

mutual

/-- A raw C type.  Integers, pointers and enums are numbers that are not `fp`; complex numbers and
vectors are arrays of their parts. -/
inductive Ty where
  | num (k : ℕ) (fp : Bool)
  | array (size : ℕ) (elem : Ty)
  | struct (size : ℕ) (fields : Fields)

/-- The chain of the fields of a struct, with the offsets from `cp_struct_layout`.  Transparent
structs are fields; constants and transparent enums are `other`. -/
inductive Fields where
  | nil
  | field (ofs : ℕ) (t : Ty) (sib : Fields)
  | bitfield (ofs pos bsz : ℕ) (sib : Fields)
  | other (sib : Fields)

end

/-- `ct->size`. -/
def Ty.size : Ty → ℕ
  | .num k _ => 2 ^ k
  | .array size _ => size
  | .struct size _ => size

/-! ### Classification -/

/-- `CCALL_RCL_INT`, `CCALL_RCL_SSE` and `CCALL_RCL_MEM`. -/
inductive Cl where
  | int
  | sse
  | mem
  deriving DecidableEq

/-- The bit of the class. -/
def Cl.bit : Cl → ℕ
  | int => 0
  | sse => 1
  | mem => 2

/-- The array `rcl`. -/
abbrev Rcl := ℕ → ℕ

/-- The index of the eightbyte, `ofs >= 8`. -/
def eightbyte (ofs : ℕ) : ℕ := if 8 ≤ ofs then 1 else 0

/-- `rcl[(ofs >= 8)] |= cl`. -/
def mark (rcl : Rcl) (ofs : ℕ) (cl : Cl) : Rcl := fun i =>
  if i = eightbyte ofs then rcl i ||| 2 ^ cl.bit else rcl i

/-- The class of a number at an offset. -/
def numCl (k : ℕ) (fp : Bool) (ofs : ℕ) : Cl :=
  if ofs &&& (2 ^ k - 1) ≠ 0 then .mem else if fp then .sse else .int

mutual

/-- `ccall_classify_ct`.  Each loop over the elements of an array gets `fuel` rounds. -/
def classifyCt (fuel : ℕ) : Ty → ℕ → Rcl → Option Rcl
  | .array asz cct, ofs, rcl =>
      Stride.run (fun eofs rcl => classifyCt fuel cct ((ofs + eofs) % 2 ^ 32) rcl) (2 ^ 32) cct.size
        asz fuel 0 rcl
  | .struct size fs, ofs, rcl => if 16 < size then some rcl else classifyFields fuel fs ofs rcl
  | .num k fp, ofs, rcl => some (mark rcl ofs (numCl k fp ofs))

/-- The loop of `ccall_classify_struct`. -/
def classifyFields (fuel : ℕ) : Fields → ℕ → Rcl → Option Rcl
  | .nil, _, rcl => some rcl
  | .field fofs t sib, ofs, rcl =>
      (classifyCt fuel t ((ofs + fofs) % 2 ^ 32) rcl).bind (classifyFields fuel sib ofs)
  | .bitfield fofs _ _ sib, ofs, rcl =>
      classifyFields fuel sib ofs (mark rcl ((ofs + fofs) % 2 ^ 32) .int)
  | .other sib, ofs, rcl => classifyFields fuel sib ofs rcl

end

/-- `ccall_classify_struct`: the classes, and whether the memory class is returned. -/
def classifyStruct (fuel size : ℕ) (fs : Fields) (ofs : ℕ) (rcl : Rcl) : Option (Rcl × Bool) :=
  if 16 < size then some (rcl, true)
  else (classifyFields fuel fs ofs rcl).map fun rcl =>
    (rcl, (rcl 0 ||| rcl 1).testBit Cl.mem.bit)

/-! ### Moves -/

/-- A register or a stack slot. -/
inductive Slot where
  | gpr (k : ℕ)
  | fpr (k : ℕ)
  | stack (k : ℕ)
  deriving DecidableEq

/-- A word of a struct, and where it is copied to or from. -/
abbrev Move := Slot × ℕ

/-- The counters of `CCallState`. -/
structure Counters where
  ngpr : ℕ
  nfpr : ℕ
  nsp : ℕ
  deriving DecidableEq

/-- One round of the loop of `ccall_struct_reg` for the eightbyte `i`: nothing at all when the
registers have run out. -/
def regStep (rcl : Rcl) (i : ℕ) (cc : Counters) : Option (List Move × Counters) :=
  if (rcl i).testBit Cl.int.bit then
    if Ccall.Target.x64.nargGpr ≤ cc.ngpr then none
    else some ([(.gpr cc.ngpr, i)], { cc with ngpr := cc.ngpr + 1 })
  else if (rcl i).testBit Cl.sse.bit then
    if Ccall.Target.x64.nargFpr ≤ cc.nfpr then none
    else some ([(.fpr cc.nfpr, i)], { cc with nfpr := cc.nfpr + 1 })
  else some ([], cc)

/-- `ccall_struct_reg`. -/
def structReg (rcl : Rcl) (cc : Counters) : Option (List Move × Counters) :=
  (regStep rcl 0 cc).bind fun (m₀, cc₀) =>
    (regStep rcl 1 cc₀).map fun (m₁, cc₁) => (m₀ ++ m₁, cc₁)

/-- The words `0` to `n - 1` to consecutive stack slots. -/
def stackMoves (nsp n : ℕ) : List Move := (List.range n).map fun i => (.stack (nsp + i), i)

/-- `ccall_struct_arg`: nothing for too many arguments. -/
def structArg (rcl : Rcl) (cc : Counters) : Option (List Move × Counters) :=
  match structReg rcl cc with
  | some r => some r
  | none =>
    let n := if rcl 1 ≠ 0 then 2 else 1
    if Ccall.maxstack < cc.nsp + n then none
    else some (stackMoves cc.nsp n, { cc with nsp := cc.nsp + n })

/-- A struct of the memory class in the common part of `ccall_set_args`: up to two words still go to
GPRs, and others to the stack, with the alignment of the type. -/
def memArg (size align : ℕ) (cc : Counters) : Option (List Move × Counters) :=
  let n := (size + 7) / 8
  if n ≤ 2 ∧ cc.ngpr + n ≤ Ccall.Target.x64.nargGpr then
    some ((List.range n).map fun i => (.gpr (cc.ngpr + i), i), { cc with ngpr := cc.ngpr + n })
  else
    let a := 2 ^ (align - 3)
    let nsp := if 3 < align then (cc.nsp + (a - 1)) / a * a else cc.nsp
    if Ccall.maxstack < nsp + n then none
    else some (stackMoves nsp n, { cc with nsp := nsp + n })

/-- One round of the loop of `ccall_struct_ret`. -/
def retStep (rcl : Rcl) (i : ℕ) (ngpr nfpr : ℕ) : List Move × ℕ × ℕ :=
  if (rcl i).testBit Cl.int.bit then ([(.gpr ngpr, i)], ngpr + 1, nfpr)
  else if (rcl i).testBit Cl.sse.bit then ([(.fpr nfpr, i)], ngpr, nfpr + 1)
  else ([], ngpr, nfpr)

/-- `ccall_struct_ret`.  Words without a move are not initialised. -/
def structRet (rcl : Rcl) : List Move :=
  let r₀ := retStep rcl 0 0 0
  r₀.1 ++ (retStep rcl 1 r₀.2.1 r₀.2.2).1

/-! ### What is reached -/

mutual

/-- A scalar with this class begins at the offset `o`, for a type at `ofs`: a number, or the
container of a bitfield.  Arrays are walked as the loop walks them. -/
def Ty.Begins : Ty → ℕ → ℕ → Cl → Prop
  | .num k fp, ofs, o, c => o = ofs ∧ c = numCl k fp ofs
  | .array asz cct, ofs, o, c =>
      ∃ j, Stride.Reached (2 ^ 32) cct.size asz 0 j ∧
        cct.Begins ((ofs + Stride.counter (2 ^ 32) cct.size 0 j) % 2 ^ 32) o c
  | .struct size fs, ofs, o, c => size ≤ 16 ∧ fs.Begins ofs o c

def Fields.Begins : Fields → ℕ → ℕ → Cl → Prop
  | .nil, _, _, _ => False
  | .field fofs t sib, ofs, o, c => t.Begins ((ofs + fofs) % 2 ^ 32) o c ∨ sib.Begins ofs o c
  | .bitfield fofs _ _ sib, ofs, o, c =>
      (o = (ofs + fofs) % 2 ^ 32 ∧ c = .int) ∨ sib.Begins ofs o c
  | .other sib, ofs, o, c => sib.Begins ofs o c

end

mutual

/-- The loop over the elements of every array that is reached comes to its end. -/
def Ty.Stops : Ty → Prop
  | .num _ _ => True
  | .array asz cct => Stride.Stops (2 ^ 32) cct.size asz ∧ (asz = 0 ∨ cct.Stops)
  | .struct size fs => 16 < size ∨ fs.Stops

def Fields.Stops : Fields → Prop
  | .nil => True
  | .field _ t sib => t.Stops ∧ sib.Stops
  | .bitfield _ _ _ sib => sib.Stops
  | .other sib => sib.Stops

end

theorem Cl.bit_injective : Function.Injective Cl.bit := by
  intro a b h
  cases a <;> cases b <;> simp_all [Cl.bit]

theorem testBit_mark (rcl : Rcl) (ofs : ℕ) (cl : Cl) (i b : ℕ) :
    (mark rcl ofs cl i).testBit b ↔ (rcl i).testBit b ∨ (i = eightbyte ofs ∧ cl.bit = b) := by
  unfold mark
  by_cases hi : i = eightbyte ofs
  · rw [if_pos hi, Nat.testBit_or, Bool.or_eq_true, Nat.testBit_two_pow, decide_eq_true_eq]
    simp only [hi, true_and]
  · simp [hi]

/-- Marks for the scalars that begin in the eightbyte. -/
def Marks (B : ℕ → Cl → Prop) (i b : ℕ) : Prop := ∃ o c, B o c ∧ i = eightbyte o ∧ c.bit = b

theorem marks_or {B B' : ℕ → Cl → Prop} (i b : ℕ) :
    Marks (fun o c => B o c ∨ B' o c) i b ↔ Marks B i b ∨ Marks B' i b := by
  constructor
  · rintro ⟨o, c, h | h, hi⟩
    · exact .inl ⟨o, c, h, hi⟩
    · exact .inr ⟨o, c, h, hi⟩
  · rintro (⟨o, c, h, hi⟩ | ⟨o, c, h, hi⟩)
    · exact ⟨o, c, .inl h, hi⟩
    · exact ⟨o, c, .inr h, hi⟩

/-- One call adds the marks of the scalars that begin in it. -/
def Adds (B : ℕ → Cl → Prop) (rcl rcl' : Rcl) : Prop :=
  ∀ i b, (rcl' i).testBit b ↔ (rcl i).testBit b ∨ Marks B i b

theorem Adds.trans {B B' : ℕ → Cl → Prop} {r r' r'' : Rcl} (h : Adds B r r') (h' : Adds B' r' r'') :
    Adds (fun o c => B o c ∨ B' o c) r r'' := fun i b => by
  rw [h' i b, h i b, marks_or, or_assoc]

theorem Adds.of_not {B : ℕ → Cl → Prop} (h : ∀ o c, ¬ B o c) (r : Rcl) : Adds B r r := fun i b => by
  have hno : ¬ Marks B i b := fun ⟨o, c, ho, _⟩ => h o c ho
  simp [hno]

theorem Adds.congr {B B' : ℕ → Cl → Prop} {r r' : Rcl} (h : Adds B r r')
    (hB : ∀ o c, B o c ↔ B' o c) : Adds B' r r' := by
  obtain rfl : B = B' := funext fun o => funext fun c => propext (hB o c)
  exact h

theorem adds_mark (rcl : Rcl) (ofs : ℕ) (cl : Cl) :
    Adds (fun o c => o = ofs ∧ c = cl) rcl (mark rcl ofs cl) := fun i b => by
  rw [testBit_mark]
  refine or_congr_right ⟨fun h => ⟨ofs, cl, ⟨rfl, rfl⟩, h⟩, ?_⟩
  rintro ⟨o, c, ⟨rfl, rfl⟩, hi⟩
  exact hi

mutual

/-- The marks are those of the scalars that begin in the type. -/
theorem classifyCt_marks (fuel : ℕ) : ∀ (t : Ty) (ofs : ℕ) (rcl rcl' : Rcl),
    classifyCt fuel t ofs rcl = some rcl' → Adds (t.Begins ofs) rcl rcl'
  | .num k fp, ofs, rcl, rcl', h => by
    rw [classifyCt, Option.some.injEq] at h
    subst h
    exact adds_mark rcl ofs _
  | .array asz cct, ofs, rcl, rcl', h => by
    rw [classifyCt] at h
    have hrun := Stride.run_collects (P := fun (r : Rcl) (x : ℕ × ℕ) => (r x.1).testBit x.2)
      (M := fun c x => Marks (cct.Begins ((ofs + c) % 2 ^ 32)) x.1 x.2)
      (fun c s s' hs x => classifyCt_marks fuel cct _ s s' hs x.1 x.2) (by positivity) fuel 0 rcl rcl'
      (by positivity) h
    intro i b
    refine (hrun (i, b)).trans (or_congr_right ⟨?_, ?_⟩)
    · rintro ⟨j, hj, o, c, ho, hi⟩
      exact ⟨o, c, ⟨j, hj, ho⟩, hi⟩
    · rintro ⟨o, c, ⟨j, hj, ho⟩, hi⟩
      exact ⟨j, hj, o, c, ho, hi⟩
  | .struct size fs, ofs, rcl, rcl', h => by
    rw [classifyCt] at h
    by_cases hsz : 16 < size
    · rw [if_pos hsz, Option.some.injEq] at h
      subst h
      refine Adds.of_not (fun o c hb => ?_) rcl
      exact absurd hb.1 (by omega)
    · rw [if_neg hsz] at h
      refine (classifyFields_marks fuel fs ofs rcl rcl' h).congr fun o c => ?_
      exact ⟨fun ho => ⟨by omega, ho⟩, fun ho => ho.2⟩

theorem classifyFields_marks (fuel : ℕ) : ∀ (fs : Fields) (ofs : ℕ) (rcl rcl' : Rcl),
    classifyFields fuel fs ofs rcl = some rcl' → Adds (fs.Begins ofs) rcl rcl'
  | .nil, ofs, rcl, rcl', h => by
    rw [classifyFields, Option.some.injEq] at h
    subst h
    exact Adds.of_not (fun _ _ => id) rcl
  | .field fofs t sib, ofs, rcl, rcl', h => by
    rw [classifyFields, Option.bind_eq_some_iff] at h
    obtain ⟨rcl₁, h₁, h₂⟩ := h
    exact (classifyCt_marks fuel t _ rcl rcl₁ h₁).trans
      (classifyFields_marks fuel sib ofs rcl₁ rcl' h₂)
  | .bitfield fofs pos bsz sib, ofs, rcl, rcl', h => by
    rw [classifyFields] at h
    exact (adds_mark rcl _ .int).trans (classifyFields_marks fuel sib ofs _ rcl' h)
  | .other sib, ofs, rcl, rcl', h => by
    rw [classifyFields] at h
    exact classifyFields_marks fuel sib ofs rcl rcl' h

end

mutual

theorem Ty.Stops.exists_fuel : ∀ t : Ty, t.Stops →
    ∃ F, ∀ fuel, F ≤ fuel → ∀ ofs rcl, (classifyCt fuel t ofs rcl).isSome
  | .num k fp, _ => ⟨0, fun fuel _ ofs rcl => by rw [classifyCt]; rfl⟩
  | .array asz cct, h => by
    obtain ⟨⟨j, hj⟩, hcct⟩ := h
    rcases hcct with rfl | hcct
    · refine ⟨1, fun fuel hf ofs rcl => ?_⟩
      obtain ⟨n, rfl⟩ : ∃ n, fuel = n + 1 := ⟨fuel - 1, by lia⟩
      rw [classifyCt, Stride.run, if_neg (by omega)]
      rfl
    · obtain ⟨F, hF⟩ := Ty.Stops.exists_fuel cct hcct
      refine ⟨max F (j + 1), fun fuel hf ofs rcl => ?_⟩
      rw [classifyCt]
      exact Stride.run_isSome (fun c s => hF fuel (by lia) _ s) (by positivity) fuel 0 j rcl
        (by positivity) hj (by lia)
  | .struct size fs, h => by
    by_cases hsz : 16 < size
    · refine ⟨0, fun fuel _ ofs rcl => ?_⟩
      rw [classifyCt, if_pos hsz]
      rfl
    · obtain ⟨F, hF⟩ := Fields.Stops.exists_fuel fs (h.resolve_left hsz)
      refine ⟨F, fun fuel hf ofs rcl => ?_⟩
      rw [classifyCt, if_neg hsz]
      exact hF fuel hf ofs rcl

/-- Loops that end do so within some number of rounds. -/
theorem Fields.Stops.exists_fuel : ∀ fs : Fields, fs.Stops →
    ∃ F, ∀ fuel, F ≤ fuel → ∀ ofs rcl, (classifyFields fuel fs ofs rcl).isSome
  | .nil, _ => ⟨0, fun fuel _ ofs rcl => by rw [classifyFields]; rfl⟩
  | .field fofs t sib, h => by
    obtain ⟨F, hF⟩ := Ty.Stops.exists_fuel t h.1
    obtain ⟨G, hG⟩ := Fields.Stops.exists_fuel sib h.2
    refine ⟨max F G, fun fuel hf ofs rcl => ?_⟩
    obtain ⟨rcl₁, h₁⟩ := Option.isSome_iff_exists.mp (hF fuel (by lia) ((ofs + fofs) % 2 ^ 32) rcl)
    rw [classifyFields, h₁, Option.bind_some]
    exact hG fuel (by lia) ofs rcl₁
  | .bitfield fofs pos bsz sib, h => by
    obtain ⟨F, hF⟩ := Fields.Stops.exists_fuel sib h
    refine ⟨F, fun fuel hf ofs rcl => ?_⟩
    rw [classifyFields]
    exact hF fuel hf ofs _
  | .other sib, h => by
    obtain ⟨F, hF⟩ := Fields.Stops.exists_fuel sib h
    refine ⟨F, fun fuel hf ofs rcl => ?_⟩
    rw [classifyFields]
    exact hF fuel hf ofs rcl

end

mutual

theorem stops_of_classifyCt (fuel : ℕ) : ∀ (t : Ty) (ofs : ℕ) (rcl rcl' : Rcl),
    classifyCt fuel t ofs rcl = some rcl' → t.Stops
  | .num k fp, _, _, _, _ => trivial
  | .array asz cct, ofs, rcl, rcl', h => by
    rw [classifyCt] at h
    refine ⟨Stride.Stops.of_run (by positivity) h, ?_⟩
    rcases Nat.eq_zero_or_pos asz with h0 | hpos
    · exact .inl h0
    · obtain ⟨s₁, h₁⟩ := Stride.first_of_run hpos h
      exact .inr (stops_of_classifyCt fuel cct _ rcl s₁ h₁)
  | .struct size fs, ofs, rcl, rcl', h => by
    rw [classifyCt] at h
    by_cases hsz : 16 < size
    · exact .inl hsz
    · rw [if_neg hsz] at h
      exact .inr (stops_of_classifyFields fuel fs ofs rcl rcl' h)

theorem stops_of_classifyFields (fuel : ℕ) : ∀ (fs : Fields) (ofs : ℕ) (rcl rcl' : Rcl),
    classifyFields fuel fs ofs rcl = some rcl' → fs.Stops
  | .nil, _, _, _, _ => trivial
  | .field fofs t sib, ofs, rcl, rcl', h => by
    rw [classifyFields, Option.bind_eq_some_iff] at h
    obtain ⟨rcl₁, h₁, h₂⟩ := h
    exact ⟨stops_of_classifyCt fuel t _ rcl rcl₁ h₁, stops_of_classifyFields fuel sib ofs rcl₁ rcl' h₂⟩
  | .bitfield fofs pos bsz sib, ofs, rcl, rcl', h => by
    rw [classifyFields] at h
    exact stops_of_classifyFields fuel sib ofs _ rcl' h
  | .other sib, ofs, rcl, rcl', h => by
    rw [classifyFields] at h
    exact stops_of_classifyFields fuel sib ofs rcl rcl' h

end

/-- The loop over an array without a length ends for elements of odd size only. -/
theorem stops_invalidSize_iff {cct : Ty} :
    (Ty.array invalidSize cct).Stops ↔ cct.size % 2 = 1 ∧ cct.Stops := by
  rw [Ty.Stops, invalidSize, Stride.stops_pred_iff (by omega)]
  simp

/-- The walk ends if and only if each loop it enters does. -/
theorem exists_classifyFields_iff (fs : Fields) (ofs : ℕ) (rcl : Rcl) :
    (∃ fuel rcl', classifyFields fuel fs ofs rcl = some rcl') ↔ fs.Stops := by
  constructor
  · rintro ⟨fuel, rcl', h⟩
    exact stops_of_classifyFields fuel fs ofs rcl rcl' h
  · intro h
    obtain ⟨F, hF⟩ := Fields.Stops.exists_fuel fs h
    exact ⟨F, Option.isSome_iff_exists.mp (hF F le_rfl ofs rcl)⟩

/-! ### The calling convention -/

/-- A scalar of a type: where its bits are, whether it is a floating-point number, and whether it is
misaligned. -/
structure Scalar where
  bit : ℕ
  len : ℕ
  fp : Bool
  mis : Bool

mutual

/-- The scalars of a type at the offset `ofs`.  Arrays without a length have none. -/
def Ty.Contains : Ty → ℕ → Scalar → Prop
  | .num k fp, ofs, s => s = ⟨8 * ofs, 8 * 2 ^ k, fp, decide (¬ 2 ^ k ∣ ofs)⟩
  | .array asz cct, ofs, s =>
      asz ≠ invalidSize ∧ ∃ j < asz / cct.size, cct.Contains (ofs + j * cct.size) s
  | .struct _ fs, ofs, s => fs.Contains ofs s

def Fields.Contains : Fields → ℕ → Scalar → Prop
  | .nil, _, _ => False
  | .field fofs t sib, ofs, s => t.Contains (ofs + fofs) s ∨ sib.Contains ofs s
  | .bitfield fofs pos bsz sib, ofs, s =>
      s = ⟨8 * (ofs + fofs) + pos, bsz, false, false⟩ ∨ sib.Contains ofs s
  | .other sib, ofs, s => sib.Contains ofs s

end

/-- A bit of the scalar lies in the eightbyte. -/
def Scalar.Overlaps (s : Scalar) (i : ℕ) : Prop :=
  0 < s.len ∧ s.bit < 64 * (i + 1) ∧ 64 * i < s.bit + s.len

namespace Fields

/-- A scalar overlaps the eightbyte. -/
def Covers (fs : Fields) (i : ℕ) : Prop := ∃ s, fs.Contains 0 s ∧ s.Overlaps i

/-- An integer or pointer overlaps the eightbyte. -/
def CoversInt (fs : Fields) (i : ℕ) : Prop := ∃ s, fs.Contains 0 s ∧ s.Overlaps i ∧ s.fp = false

/-- Some scalar is misaligned. -/
def Misaligned (fs : Fields) : Prop := ∃ s, fs.Contains 0 s ∧ s.mis = true

/-- A scalar with the class begins in the eightbyte. -/
def BeginsIn (fs : Fields) (i : ℕ) (c : Cl) : Prop := ∃ o, fs.Begins 0 o c ∧ i = eightbyte o

end Fields

/-- The class of an eightbyte, if it has one.  The integer class takes precedence. -/
def classOf (rcl : Rcl) (i : ℕ) : Option Cl :=
  if (rcl i).testBit Cl.int.bit then some .int
  else if (rcl i).testBit Cl.sse.bit then some .sse
  else none

/-- The integer class for an eightbyte with a byte of an integer, and the SSE class for others with a
scalar. -/
structure ClassOk (fs : Fields) (rcl : Rcl) (i : ℕ) : Prop where
  int : classOf rcl i = some .int ↔ fs.CoversInt i
  sse : classOf rcl i = some .sse ↔ fs.Covers i ∧ ¬ fs.CoversInt i

/-- Each byte is copied once, and no two words share a place. -/
def Copies (size : ℕ) (ms : List Move) : Prop :=
  (∀ b < size, (ms.map Prod.snd).count (b / 8) = 1) ∧ (ms.map Prod.fst).Nodup

/-- What the calling convention asks of a struct: the classification ends and leaves everything but
two classes alone, the memory class is returned for large structs and those with a misaligned
scalar, the classes of the others are right, and the moves copy the struct. -/
def Ok (size : ℕ) (fs : Fields) : Prop :=
  ∃ fuel rcl m, classifyStruct fuel size fs 0 (fun _ => 0) = some (rcl, m) ∧
    (∀ i, 2 ≤ i → rcl i = 0) ∧
    (m = true ↔ 16 < size ∨ fs.Misaligned) ∧
    (m = false → (∀ i < 2, ClassOk fs rcl i) ∧ Copies size (structRet rcl) ∧
      ∀ cc ms cc', structArg rcl cc = some (ms, cc') → Copies size ms) ∧
    (m = true → ∀ align cc ms cc', memArg size align cc = some (ms, cc') → Copies size ms)

/-- The structs for which it is enough to look at where scalars begin. -/
def Adequate (size : ℕ) (fs : Fields) : Prop :=
  16 < size ∨
    (fs.Stops ∧ ((∃ o, fs.Begins 0 o .mem) ↔ fs.Misaligned) ∧
      (¬ fs.Misaligned → ∀ i < 2, (fs.BeginsIn i .int ↔ fs.CoversInt i) ∧
        ((∃ c, fs.BeginsIn i c) ↔ fs.Covers i) ∧ (8 * i < size → fs.Covers i)))

/-! ### The result of the walk -/

theorem eightbyte_lt (ofs : ℕ) : eightbyte ofs < 2 := by
  unfold eightbyte
  split <;> omega

variable {fuel size : ℕ} {fs : Fields} {rcl : Rcl}

/-- Without marks before the walk there are only those of the scalars. -/
theorem testBit_classified (h : classifyFields fuel fs 0 (fun _ => 0) = some rcl) (i b : ℕ) :
    (rcl i).testBit b ↔ Marks (fs.Begins 0) i b := by
  rw [classifyFields_marks fuel fs 0 _ rcl h i b]
  simp

theorem testBit_cl (h : classifyFields fuel fs 0 (fun _ => 0) = some rcl) (i : ℕ) (c : Cl) :
    (rcl i).testBit c.bit ↔ fs.BeginsIn i c := by
  rw [testBit_classified h]
  constructor
  · rintro ⟨o, c', ho, hi, hc⟩
    obtain rfl := Cl.bit_injective hc
    exact ⟨o, ho, hi⟩
  · rintro ⟨o, ho, hi⟩
    exact ⟨o, c, ho, hi, rfl⟩

/-- Only the first two classes are touched. -/
theorem classified_eq_zero (h : classifyFields fuel fs 0 (fun _ => 0) = some rcl) {i : ℕ}
    (hi : 2 ≤ i) : rcl i = 0 := by
  refine Nat.eq_of_testBit_eq fun b => ?_
  rw [Nat.zero_testBit, Bool.eq_false_iff, ne_eq, testBit_classified h]
  rintro ⟨o, c, -, rfl, -⟩
  exact absurd (eightbyte_lt o) (by omega)

theorem classified_ne_zero (h : classifyFields fuel fs 0 (fun _ => 0) = some rcl) (i : ℕ) :
    rcl i ≠ 0 ↔ ∃ c, fs.BeginsIn i c := by
  constructor
  · intro hne
    obtain ⟨b, hb⟩ := Nat.exists_testBit_of_ne_zero hne
    obtain ⟨o, c, ho, hi, -⟩ := (testBit_classified h i b).mp hb
    exact ⟨c, o, ho, hi⟩
  · rintro ⟨c, hc⟩ h0
    have := (testBit_cl h i c).mpr hc
    rw [h0] at this
    simp at this

/-- The memory class. -/
theorem testBit_mem (h : classifyFields fuel fs 0 (fun _ => 0) = some rcl) :
    (rcl 0 ||| rcl 1).testBit Cl.mem.bit = true ↔ ∃ o, fs.Begins 0 o .mem := by
  rw [Nat.testBit_or, Bool.or_eq_true, testBit_cl h, testBit_cl h]
  constructor
  · rintro (⟨o, ho, -⟩ | ⟨o, ho, -⟩)
    · exact ⟨o, ho⟩
    · exact ⟨o, ho⟩
  · rintro ⟨o, ho⟩
    have hlt := eightbyte_lt o
    rcases Nat.lt_or_ge (eightbyte o) 1 with h0 | h1
    · exact .inl ⟨o, ho, by lia⟩
    · exact .inr ⟨o, ho, by omega⟩

theorem classOf_int (h : classifyFields fuel fs 0 (fun _ => 0) = some rcl) (i : ℕ) :
    classOf rcl i = some .int ↔ fs.BeginsIn i .int := by
  rw [← testBit_cl h]
  unfold classOf
  split
  · simp_all
  · split <;> simp_all

/-- Without the memory class, an eightbyte in which a scalar begins has a class. -/
theorem classOf_ne_none (h : classifyFields fuel fs 0 (fun _ => 0) = some rcl)
    (hmem : ¬ ∃ o, fs.Begins 0 o .mem) (i : ℕ) : classOf rcl i ≠ none ↔ ∃ c, fs.BeginsIn i c := by
  have hno : ¬ fs.BeginsIn i .mem := fun ⟨o, ho, _⟩ => hmem ⟨o, ho⟩
  unfold classOf
  by_cases hint : (rcl i).testBit Cl.int.bit
  · rw [if_pos hint]
    simpa using ⟨_, (testBit_cl h i .int).mp hint⟩
  · rw [if_neg hint]
    by_cases hsse : (rcl i).testBit Cl.sse.bit
    · rw [if_pos hsse]
      simpa using ⟨_, (testBit_cl h i .sse).mp hsse⟩
    · rw [if_neg hsse]
      refine ⟨fun hne => absurd rfl hne, ?_⟩
      rintro ⟨c, hc⟩
      cases c with
      | int => exact absurd ((testBit_cl h i .int).mpr hc) hint
      | sse => exact absurd ((testBit_cl h i .sse).mpr hc) hsse
      | mem => exact absurd hc hno

/-- An eightbyte has no class, or one of two. -/
theorem classOf_cases (rcl : Rcl) (i : ℕ) :
    classOf rcl i = none ∨ classOf rcl i = some .int ∨ classOf rcl i = some .sse := by
  unfold classOf
  split
  · simp
  · split <;> simp

/-! ### The moves -/

/-- The words that have a class, in order. -/
def words (rcl : Rcl) : List ℕ :=
  (if classOf rcl 0 = none then [] else [0]) ++ (if classOf rcl 1 = none then [] else [1])

theorem count_words (rcl : Rcl) {i : ℕ} (hi : i < 2) :
    (words rcl).count i = 1 ↔ classOf rcl i ≠ none := by
  unfold words
  obtain rfl | rfl : i = 0 ∨ i = 1 := by lia
  · by_cases h0 : classOf rcl 0 = none <;> by_cases h1 : classOf rcl 1 = none <;> simp [h0, h1]
  · by_cases h0 : classOf rcl 0 = none <;> by_cases h1 : classOf rcl 1 = none <;> simp [h0, h1]

theorem retStep_cases (rcl : Rcl) (i ngpr nfpr : ℕ) :
    (classOf rcl i = none ∧ retStep rcl i ngpr nfpr = ([], ngpr, nfpr)) ∨
    (classOf rcl i ≠ none ∧ retStep rcl i ngpr nfpr = ([(.gpr ngpr, i)], ngpr + 1, nfpr)) ∨
    (classOf rcl i ≠ none ∧ retStep rcl i ngpr nfpr = ([(.fpr nfpr, i)], ngpr, nfpr + 1)) := by
  unfold classOf retStep
  split
  · simp
  · split <;> simp

theorem regStep_cases {i : ℕ} {cc cc' : Counters} {ms : List Move}
    (h : regStep rcl i cc = some (ms, cc')) :
    (classOf rcl i = none ∧ ms = [] ∧ cc' = cc) ∨
    (classOf rcl i ≠ none ∧ ms = [(.gpr cc.ngpr, i)] ∧ cc' = { cc with ngpr := cc.ngpr + 1 }) ∨
    (classOf rcl i ≠ none ∧ ms = [(.fpr cc.nfpr, i)] ∧ cc' = { cc with nfpr := cc.nfpr + 1 }) := by
  unfold regStep at h
  unfold classOf
  by_cases hint : (rcl i).testBit Cl.int.bit
  · rw [if_pos hint] at h ⊢
    split at h
    · cases h
    · cases h
      simp
  · rw [if_neg hint] at h ⊢
    by_cases hsse : (rcl i).testBit Cl.sse.bit
    · rw [if_pos hsse] at h ⊢
      split at h
      · cases h
      · cases h
        simp
    · rw [if_neg hsse] at h ⊢
      cases h
      simp

/-- The returned words, from different registers. -/
theorem structRet_words (rcl : Rcl) :
    (structRet rcl).map Prod.snd = words rcl ∧ ((structRet rcl).map Prod.fst).Nodup := by
  unfold structRet words
  rcases retStep_cases rcl 0 0 0 with ⟨h0, e0⟩ | ⟨h0, e0⟩ | ⟨h0, e0⟩ <;> rw [e0] <;>
    simp only [h0, if_true, if_false]
  · rcases retStep_cases rcl 1 0 0 with ⟨h1, e1⟩ | ⟨h1, e1⟩ | ⟨h1, e1⟩ <;> simp [e1, h1]
  · rcases retStep_cases rcl 1 1 0 with ⟨h1, e1⟩ | ⟨h1, e1⟩ | ⟨h1, e1⟩ <;> simp [e1, h1]
  · rcases retStep_cases rcl 1 0 1 with ⟨h1, e1⟩ | ⟨h1, e1⟩ | ⟨h1, e1⟩ <;> simp [e1, h1]

/-- The words passed in registers, in different ones. -/
theorem structReg_words {cc cc' : Counters} {ms : List Move}
    (h : structReg rcl cc = some (ms, cc')) :
    ms.map Prod.snd = words rcl ∧ (ms.map Prod.fst).Nodup := by
  unfold structReg at h
  obtain ⟨⟨m₀, cc₀⟩, h₀, h⟩ := Option.bind_eq_some_iff.mp h
  obtain ⟨⟨m₁, cc₁⟩, h₁, h⟩ := Option.map_eq_some_iff.mp h
  cases h
  unfold words
  rcases regStep_cases h₀ with ⟨c0, rfl, rfl⟩ | ⟨c0, rfl, rfl⟩ | ⟨c0, rfl, rfl⟩ <;>
    rcases regStep_cases h₁ with ⟨c1, rfl, rfl⟩ | ⟨c1, rfl, rfl⟩ | ⟨c1, rfl, rfl⟩ <;>
    simp [c0, c1]

/-- A struct is returned whole if and only if each of its eightbytes has a class. -/
theorem copies_structRet_iff (rcl : Rcl) (hsize : size ≤ 16) :
    Copies size (structRet rcl) ↔ ∀ i < 2, 8 * i < size → classOf rcl i ≠ none := by
  obtain ⟨hw, hd⟩ := structRet_words rcl
  unfold Copies
  rw [hw]
  constructor
  · rintro ⟨h, -⟩ i hi hlt
    have := h (8 * i) hlt
    rw [Nat.mul_div_cancel_left i (by omega)] at this
    exact (count_words rcl hi).mp this
  · intro h
    exact ⟨fun b hb => (count_words rcl (by lia)).mpr (h (b / 8) (by lia) (by omega)), hd⟩

theorem Copies.range {size n : ℕ} {f : ℕ → Slot} (hn : ∀ b < size, b / 8 < n)
    (hf : Function.Injective f) : Copies size ((List.range n).map fun i => (f i, i)) := by
  refine ⟨fun b hb => ?_, ?_⟩
  · rw [List.map_map]
    show ((List.range n).map id).count (b / 8) = 1
    rw [List.map_id, List.count_eq_one_of_mem List.nodup_range (List.mem_range.mpr (hn b hb))]
  · rw [List.map_map]
    exact (List.nodup_range).map hf

/-- Words on the stack, if there is room. -/
theorem copies_stack {n nsp : ℕ} (hn : ∀ b < size, b / 8 < n) {cc cc' : Counters} {ms : List Move}
    (h : (if Ccall.maxstack < nsp + n then none else some (stackMoves nsp n, cc)) = some (ms, cc')) :
    Copies size ms := by
  split at h
  · cases h
  · cases h
    exact Copies.range hn fun i j hij => by simpa using hij

/-- Then it is passed whole, too. -/
theorem copies_structArg (hsize : size ≤ 16) (h1 : rcl 1 ≠ 0 ↔ classOf rcl 1 ≠ none)
    (h : ∀ i < 2, 8 * i < size → classOf rcl i ≠ none) {cc cc' : Counters} {ms : List Move}
    (ha : structArg rcl cc = some (ms, cc')) : Copies size ms := by
  unfold structArg at ha
  split at ha
  · rename_i r hr
    cases ha
    obtain ⟨hw, hd⟩ := structReg_words hr
    refine ⟨fun b hb => ?_, hd⟩
    rw [hw]
    exact (count_words rcl (by lia)).mpr (h (b / 8) (by lia) (by omega))
  · rename_i hr
    refine copies_stack (fun b hb => ?_) ha
    by_cases hb8 : b / 8 = 0
    · split <;> omega
    · rw [if_pos (h1.mpr (h 1 (by omega) (by lia)))]
      lia

/-- Structs of the memory class are always copied whole. -/
theorem copies_memArg {align : ℕ} {cc cc' : Counters} {ms : List Move}
    (h : memArg size align cc = some (ms, cc')) : Copies size ms := by
  have hn : ∀ b < size, b / 8 < (size + 7) / 8 := fun b hb => by lia
  unfold memArg at h
  simp only at h
  split at h
  · cases h
    exact Copies.range hn fun i j hij => by simpa using hij
  · exact copies_stack hn h

/-! ### Structs of up to 16 bytes -/

/-- The classes are right if and only if integers begin where they are, and scalars begin in each
eightbyte that they overlap. -/
theorem classOk_iff (h : classifyFields fuel fs 0 (fun _ => 0) = some rcl)
    (hmem : ¬ ∃ o, fs.Begins 0 o .mem) (i : ℕ) :
    ClassOk fs rcl i ↔
      (fs.BeginsIn i .int ↔ fs.CoversInt i) ∧ ((∃ c, fs.BeginsIn i c) ↔ fs.Covers i) := by
  have hsub : fs.CoversInt i → fs.Covers i := fun ⟨s, hs, ho, _⟩ => ⟨s, hs, ho⟩
  have hnone := classOf_ne_none h hmem i
  have hint := classOf_int h i
  constructor
  · intro hok
    refine ⟨hint.symm.trans hok.int, ?_⟩
    rw [← hnone]
    rcases classOf_cases rcl i with hc | hc | hc
    · refine ⟨fun hne => absurd hc hne, fun hcov => ?_⟩
      by_cases hci : fs.CoversInt i
      · rw [hok.int.mpr hci]
        simp
      · rw [hok.sse.mpr ⟨hcov, hci⟩]
        simp
    · exact ⟨fun _ => hsub (hok.int.mp hc), fun _ => by simp [hc]⟩
    · exact ⟨fun _ => (hok.sse.mp hc).1, fun _ => by simp [hc]⟩
  · rintro ⟨hi, hc⟩
    refine ⟨hint.trans hi, ⟨fun hs => ⟨?_, fun hci => ?_⟩, fun ⟨hcov, hni⟩ => ?_⟩⟩
    · exact hc.mp (hnone.mp (by simp [hs]))
    · rw [hint.mpr (hi.mpr hci)] at hs
      cases hs
    · rcases classOf_cases rcl i with hn | hn | hn
      · exact absurd hn (hnone.mpr (hc.mpr hcov))
      · exact absurd (hi.mp (hint.mp hn)) hni
      · exact hn

/-- The moves, once the classes are right. -/
theorem copies_iff (h : classifyFields fuel fs 0 (fun _ => 0) = some rcl)
    (hmem : ¬ ∃ o, fs.Begins 0 o .mem) (hsize : size ≤ 16) :
    (Copies size (structRet rcl) ∧
      ∀ cc ms cc', structArg rcl cc = some (ms, cc') → Copies size ms) ↔
      ∀ i < 2, 8 * i < size → ∃ c, fs.BeginsIn i c := by
  have hnone : ∀ i, classOf rcl i ≠ none ↔ ∃ c, fs.BeginsIn i c := classOf_ne_none h hmem
  rw [copies_structRet_iff rcl hsize]
  constructor
  · rintro ⟨hr, -⟩ i hi hlt
    exact (hnone i).mp (hr i hi hlt)
  · intro hb
    have hr : ∀ i < 2, 8 * i < size → classOf rcl i ≠ none :=
      fun i hi hlt => (hnone i).mpr (hb i hi hlt)
    exact ⟨hr, fun cc ms cc' ha =>
      copies_structArg hsize ((classified_ne_zero h 1).trans (hnone 1).symm) hr ha⟩

/-- The struct is passed and returned as the calling convention asks if and only if it has more than
16 bytes or is adequate. -/
theorem ok_iff (size : ℕ) (fs : Fields) : Ok size fs ↔ Adequate size fs := by
  by_cases hsize : 16 < size
  · refine ⟨fun _ => .inl hsize, fun _ => ?_⟩
    refine ⟨0, fun _ => 0, true, ?_, fun _ _ => rfl, ?_, ?_, ?_⟩
    · rw [classifyStruct, if_pos hsize]
    · simp [hsize]
    · simp
    · exact fun _ align cc ms cc' h => copies_memArg h
  · constructor
    · rintro ⟨fuel, rcl, m, hcl, -, hm, hsmall, -⟩
      rw [classifyStruct, if_neg hsize] at hcl
      obtain ⟨rcl', hrun, heq⟩ := Option.map_eq_some_iff.mp hcl
      obtain ⟨rfl, rfl⟩ := Prod.mk.inj heq
      rw [testBit_mem hrun] at hm
      have hmem : (∃ o, fs.Begins 0 o .mem) ↔ fs.Misaligned := by
        rw [hm]
        exact or_iff_right hsize
      refine .inr ⟨stops_of_classifyFields fuel fs 0 _ rcl' hrun, hmem, fun hmis i hi => ?_⟩
      have hno : ¬ ∃ o, fs.Begins 0 o .mem := fun hb => hmis (hmem.mp hb)
      have hfalse : (rcl' 0 ||| rcl' 1).testBit Cl.mem.bit = false := by
        rw [Bool.eq_false_iff]
        exact fun ht => hno ((testBit_mem hrun).mp ht)
      obtain ⟨hcls, hmoves⟩ := hsmall hfalse
      obtain ⟨hint, hcov⟩ := (classOk_iff hrun hno i).mp (hcls i hi)
      exact ⟨hint, hcov, fun hlt =>
        hcov.mp ((copies_iff hrun hno (by omega)).mp hmoves i hi hlt)⟩
    · rintro (hbig | ⟨hstop, hmem, hok⟩)
      · exact absurd hbig hsize
      · obtain ⟨fuel, rcl, hrun⟩ := (exists_classifyFields_iff fs 0 fun _ => 0).mpr hstop
        refine ⟨fuel, rcl, (rcl 0 ||| rcl 1).testBit Cl.mem.bit, ?_, ?_, ?_, ?_, ?_⟩
        · rw [classifyStruct, if_neg hsize, hrun]
          rfl
        · exact fun i hi => classified_eq_zero hrun hi
        · rw [testBit_mem hrun, hmem]
          exact (or_iff_right hsize).symm
        · intro hfalse
          have hno : ¬ ∃ o, fs.Begins 0 o .mem := by
            rw [← testBit_mem hrun, hfalse]
            simp
          have hmis : ¬ fs.Misaligned := fun hm => hno (hmem.mpr hm)
          refine ⟨fun i hi => (classOk_iff hrun hno i).mpr ⟨(hok hmis i hi).1, (hok hmis i hi).2.1⟩, ?_⟩
          refine (copies_iff hrun hno (by omega)).mpr fun i hi hlt => ?_
          exact (hok hmis i hi).2.1.mpr ((hok hmis i hi).2.2 hlt)
        · exact fun _ align cc ms cc' h => copies_memArg h

/-! ### Plain structs -/

mutual

/-- Scalars have up to eight bytes, arrays have a length, and the bits of a bitfield lie in the
eightbyte in which its container begins. -/
def Ty.Plain : Ty → ℕ → Prop
  | .num k _, ofs => k ≤ 3 ∧ ofs + 2 ^ k ≤ 16
  | .array asz cct, ofs =>
      ofs + asz ≤ 16 ∧ ∃ n, asz = n * cct.size ∧ (0 < cct.size ∨ n = 0) ∧
        ∀ j < n, cct.Plain (ofs + j * cct.size)
  | .struct size fs, ofs => size ≤ 16 ∧ fs.Plain ofs

def Fields.Plain : Fields → ℕ → Prop
  | .nil, _ => True
  | .field fofs t sib, ofs => ofs + fofs ≤ 16 ∧ t.Plain (ofs + fofs) ∧ sib.Plain ofs
  | .bitfield fofs pos bsz sib, ofs =>
      (ofs + fofs < 16 ∧ 0 < bsz ∧ 8 * (ofs + fofs) + pos + bsz ≤ 64 * ((ofs + fofs) / 8 + 1)) ∧
        sib.Plain ofs
  | .other sib, ofs => sib.Plain ofs

end

/-- The class of a scalar on its own. -/
def Scalar.cl (s : Scalar) : Cl := if s.mis then .mem else if s.fp then .sse else .int

/-- What begins at `o` is the scalar, and it stays in that eightbyte unless it is misaligned. -/
structure Matches (o : ℕ) (c : Cl) (s : Scalar) : Prop where
  lt : o < 16
  cl : c = s.cl
  len : 0 < s.len
  ge : 64 * (o / 8) ≤ s.bit
  le : s.mis = false → s.bit + s.len ≤ 64 * (o / 8 + 1)

/-- What begins in a type are its scalars. -/
def Faithful (B : ℕ → Cl → Prop) (C : Scalar → Prop) : Prop :=
  (∀ o c, B o c → ∃ s, C s ∧ Matches o c s) ∧ (∀ s, C s → ∃ o c, B o c ∧ Matches o c s)

theorem Faithful.or {B B' : ℕ → Cl → Prop} {C C' : Scalar → Prop} (h : Faithful B C)
    (h' : Faithful B' C') : Faithful (fun o c => B o c ∨ B' o c) (fun s => C s ∨ C' s) := by
  refine ⟨fun o c hb => ?_, fun s hs => ?_⟩
  · rcases hb with hb | hb
    · obtain ⟨s, hs, hm⟩ := h.1 o c hb
      exact ⟨s, .inl hs, hm⟩
    · obtain ⟨s, hs, hm⟩ := h'.1 o c hb
      exact ⟨s, .inr hs, hm⟩
  · rcases hs with hs | hs
    · obtain ⟨o, c, hb, hm⟩ := h.2 s hs
      exact ⟨o, c, .inl hb, hm⟩
    · obtain ⟨o, c, hb, hm⟩ := h'.2 s hs
      exact ⟨o, c, .inr hb, hm⟩

theorem Faithful.single {o : ℕ} {c : Cl} {s : Scalar} (h : Matches o c s) :
    Faithful (fun o' c' => o' = o ∧ c' = c) (fun s' => s' = s) := by
  refine ⟨?_, ?_⟩
  · rintro _ _ ⟨rfl, rfl⟩
    exact ⟨s, rfl, h⟩
  · rintro _ rfl
    exact ⟨o, c, ⟨rfl, rfl⟩, h⟩

theorem numCl_eq (k : ℕ) (fp : Bool) (ofs bit len : ℕ) :
    numCl k fp ofs = Scalar.cl ⟨bit, len, fp, decide (¬ 2 ^ k ∣ ofs)⟩ := by
  have hmask : ofs &&& (2 ^ k - 1) ≠ 0 ↔ ¬ 2 ^ k ∣ ofs := by
    rw [Nat.and_two_pow_sub_one_eq_mod, Nat.dvd_iff_mod_eq_zero]
  unfold numCl Scalar.cl
  simp only [hmask, decide_eq_true_eq]

/-- A scalar of up to eight bytes that is aligned stays in its eightbyte. -/
theorem matches_num {k ofs : ℕ} (fp : Bool) (hk : k ≤ 3) (hofs : ofs + 2 ^ k ≤ 16) :
    Matches ofs (numCl k fp ofs) ⟨8 * ofs, 8 * 2 ^ k, fp, decide (¬ 2 ^ k ∣ ofs)⟩ := by
  have hpos : 0 < 2 ^ k := by positivity
  refine ⟨by omega, numCl_eq k fp ofs _ _, by positivity, ?_, fun hal => ?_⟩
  · show 64 * (ofs / 8) ≤ 8 * ofs
    omega
  · show 8 * ofs + 8 * 2 ^ k ≤ 64 * (ofs / 8 + 1)
    have hdvd : 2 ^ k ∣ ofs := by simpa using hal
    have hle : ofs % 8 + 2 ^ k ≤ 8 := by
      have : k = 0 ∨ k = 1 ∨ k = 2 ∨ k = 3 := by lia
      rcases this with rfl | rfl | rfl | rfl <;> lia
    lia

mutual

theorem Ty.Plain.faithful : ∀ (t : Ty) (ofs : ℕ), t.Plain ofs →
    t.Stops ∧ Faithful (t.Begins ofs) (t.Contains ofs)
  | .num k fp, ofs, h => ⟨trivial, Faithful.single (matches_num fp h.1 h.2)⟩
  | .array asz cct, ofs, h => by
    obtain ⟨hle, n, rfl, hpos, helem⟩ := h
    have ih : ∀ j < n, cct.Stops ∧
        Faithful (cct.Begins (ofs + j * cct.size)) (cct.Contains (ofs + j * cct.size)) :=
      fun j hj => Ty.Plain.faithful cct _ (helem j hj)
    refine ⟨⟨Stride.stops_mul n (by omega), ?_⟩, ?_⟩
    · rcases Nat.eq_zero_or_pos n with rfl | hn
      · exact .inl (by omega)
      · exact .inr (ih 0 hn).1
    rcases hpos with hpos | rfl
    · have hreach := fun j => Stride.reached_mul (m := 2 ^ 32) (n := n) (j := j) hpos (by omega)
      have hcount : n * cct.size / cct.size = n := Nat.mul_div_cancel n hpos
      have hin : ∀ j < n, (ofs + Stride.counter (2 ^ 32) cct.size 0 j) % 2 ^ 32
          = ofs + j * cct.size := fun j hj => by
        have hlt : j * cct.size < n * cct.size := Nat.mul_lt_mul_of_pos_right hj hpos
        unfold Stride.counter
        lia
      refine ⟨?_, ?_⟩
      · rintro o c ⟨j, hj, hb⟩
        have hjn := (hreach j).mp hj
        rw [hin j hjn] at hb
        obtain ⟨s, hs, hm⟩ := (ih j hjn).2.1 o c hb
        exact ⟨s, ⟨by unfold invalidSize; omega, j, by rwa [hcount], hs⟩, hm⟩
      · rintro s ⟨-, j, hj, hs⟩
        rw [hcount] at hj
        obtain ⟨o, c, hb, hm⟩ := (ih j hj).2.2 s hs
        exact ⟨o, c, ⟨j, (hreach j).mpr hj, by rwa [hin j hj]⟩, hm⟩
    · refine ⟨?_, ?_⟩
      · rintro o c ⟨j, hj, -⟩
        exact absurd (hj 0 (by omega)) (by simp)
      · rintro s ⟨-, j, hj, -⟩
        simp at hj
  | .struct size fs, ofs, h => by
    obtain ⟨hstop, hb, hc⟩ := Fields.Plain.faithful fs ofs h.2
    refine ⟨.inr hstop, ?_, ?_⟩
    · rintro o c ⟨-, ho⟩
      exact hb o c ho
    · intro s hs
      obtain ⟨o, c, ho, hm⟩ := hc s hs
      exact ⟨o, c, ⟨h.1, ho⟩, hm⟩

/-- The walk of a plain type ends, and what it reaches are the scalars of the type. -/
theorem Fields.Plain.faithful : ∀ (fs : Fields) (ofs : ℕ), fs.Plain ofs →
    fs.Stops ∧ Faithful (fs.Begins ofs) (fs.Contains ofs)
  | .nil, ofs, h => ⟨trivial, fun o c hb => hb.elim, fun s hs => hs.elim⟩
  | .field fofs t sib, ofs, h => by
    obtain ⟨hle, ht, hsib⟩ := h
    obtain ⟨hst, hft⟩ := Ty.Plain.faithful t _ ht
    obtain ⟨hss, hfs⟩ := Fields.Plain.faithful sib ofs hsib
    have hmod : (ofs + fofs) % 2 ^ 32 = ofs + fofs := Nat.mod_eq_of_lt (by omega)
    refine ⟨⟨hst, hss⟩, ?_⟩
    rw [← hmod] at hft
    have hor := hft.or hfs
    rw [hmod] at hor
    exact ⟨fun o c hb => hor.1 o c (by rwa [Fields.Begins, hmod] at hb), fun s hs => by
      obtain ⟨o, c, hb, hm⟩ := hor.2 s hs
      exact ⟨o, c, by rwa [Fields.Begins, hmod], hm⟩⟩
  | .bitfield fofs pos bsz sib, ofs, h => by
    obtain ⟨⟨hlt, hbsz, hin⟩, hsib⟩ := h
    obtain ⟨hss, hfs⟩ := Fields.Plain.faithful sib ofs hsib
    have hmod : (ofs + fofs) % 2 ^ 32 = ofs + fofs := Nat.mod_eq_of_lt (by omega)
    refine ⟨hss, ?_⟩
    have hm : Matches ((ofs + fofs) % 2 ^ 32) .int ⟨8 * (ofs + fofs) + pos, bsz, false, false⟩ := by
      rw [hmod]
      exact ⟨hlt, rfl, hbsz, by show 64 * ((ofs + fofs) / 8) ≤ 8 * (ofs + fofs) + pos; lia,
        fun _ => hin⟩
    exact (Faithful.single hm).or hfs
  | .other sib, ofs, h => Fields.Plain.faithful sib ofs h

end

/-- A scalar that stays in its eightbyte overlaps no other. -/
theorem Matches.overlaps_iff {o : ℕ} {c : Cl} {s : Scalar} (h : Matches o c s) (hmis : s.mis = false)
    (i : ℕ) : s.Overlaps i ↔ i = eightbyte o := by
  have h1 := h.lt
  have h2 := h.ge
  have h3 := h.le hmis
  have h4 := h.len
  unfold Scalar.Overlaps eightbyte
  split <;> lia

/-- Structs of up to 16 bytes are adequate when they are plain and no eightbyte is padding. -/
theorem adequate_of_plain {size : ℕ} {fs : Fields} (hfs : fs.Plain 0)
    (hpad : ∀ i < 2, 8 * i < size → fs.Covers i) : Adequate size fs := by
  obtain ⟨hstop, hB, hC⟩ := Fields.Plain.faithful fs 0 hfs
  have hal : ¬ fs.Misaligned → ∀ s, fs.Contains 0 s → s.mis = false := fun hno s hs => by
    rw [Bool.eq_false_iff]
    exact fun hm => hno ⟨s, hs, hm⟩
  refine .inr ⟨hstop, ⟨?_, ?_⟩, fun hno i hi => ⟨⟨?_, ?_⟩, ⟨?_, ?_⟩, hpad i hi⟩⟩
  · rintro ⟨o, ho⟩
    obtain ⟨s, hs, hm⟩ := hB o .mem ho
    refine ⟨s, hs, ?_⟩
    have hcl := hm.cl
    unfold Scalar.cl at hcl
    split at hcl
    · assumption
    · split at hcl <;> cases hcl
  · rintro ⟨s, hs, hmis⟩
    obtain ⟨o, c, ho, hm⟩ := hC s hs
    have hcl := hm.cl
    rw [Scalar.cl, if_pos hmis] at hcl
    exact ⟨o, hcl ▸ ho⟩
  · rintro ⟨o, ho, hio⟩
    obtain ⟨s, hs, hm⟩ := hB o .int ho
    refine ⟨s, hs, (hm.overlaps_iff (hal hno s hs) i).mpr hio, ?_⟩
    have hcl := hm.cl
    rw [Scalar.cl, hal hno s hs, if_neg (by simp)] at hcl
    split at hcl
    · cases hcl
    · rwa [Bool.not_eq_true] at *
  · rintro ⟨s, hs, hov, hfp⟩
    obtain ⟨o, c, ho, hm⟩ := hC s hs
    have hcl := hm.cl
    rw [Scalar.cl, hal hno s hs, hfp, if_neg (by simp), if_neg (by simp)] at hcl
    exact ⟨o, hcl ▸ ho, (hm.overlaps_iff (hal hno s hs) i).mp hov⟩
  · rintro ⟨c, o, ho, hio⟩
    obtain ⟨s, hs, hm⟩ := hB o c ho
    exact ⟨s, hs, (hm.overlaps_iff (hal hno s hs) i).mpr hio⟩
  · rintro ⟨s, hs, hov⟩
    obtain ⟨o, c, ho, hm⟩ := hC s hs
    exact ⟨c, o, ho, (hm.overlaps_iff (hal hno s hs) i).mp hov⟩

/-- `struct { int n; int a[]; }`, which has four bytes. -/
def flexible : Fields := .field 0 (.num 2 false) (.field 4 (.array invalidSize (.num 2 false)) .nil)

/-- The loop over the elements never ends. -/
theorem flexible_not_ok : ¬ Ok 4 flexible := by
  rintro ⟨fuel, rcl, m, hcl, -⟩
  rw [classifyStruct, if_neg (by omega)] at hcl
  obtain ⟨rcl', hrun, -⟩ := Option.map_eq_some_iff.mp hcl
  have hstop := stops_of_classifyFields fuel flexible 0 _ rcl' hrun
  exact absurd (stops_invalidSize_iff.mp hstop.2.1).1 (by decide)

end CcallX64
