/-
**Structs and complex numbers as arguments on ARM64.**

`ccall_classify_struct` of `lj_ccall.c` looks for aggregates of up to four floats, or of up to four
doubles, and packs the size and the number of the members into one word.  The size selects whether
`ccall_set_args` spreads the words of the argument over FP registers.  The number is not used: the
registers are counted from the size of the argument, two for every eight bytes of floats.  The macro
for complex numbers looks at the size of the result of the function, not of the argument.

Main definitions:

* `CcallArm64.Member`, `CcallArm64.classify` — `ccall_classify_struct`;
* `CcallArm64.Member.Uniform`, `CcallArm64.Member.count` — the members of an aggregate;
* `CcallArm64.spread` — the loop that spreads words over registers;
* `CcallArm64.PassedOk` — the rules of the procedure call standard.

Main results:

* `CcallArm64.classify_hfa` — what is found is an aggregate of floats or of doubles;
* `CcallArm64.spread_even`, `CcallArm64.spread_odd` — a word to a register;
* `CcallArm64.passedOk_iff` — **the rules hold exactly for the aggregates whose members fill their
  registers, and the complex numbers with the right size of the result**.
-/

import LuaJit.CcallSlots

set_option relaxedAutoImplicit false
set_option autoImplicit false

namespace CcallArm64

open Ccall

/-! ### Classification -/

/-- A member of a struct.  Arrays, integers, bitfields and transparent enums are `other`, constants
are skipped. -/
inductive Member where
  | fp (k : ℕ)
  | complex (k : ℕ)
  | struct (size : ℕ) (isu : Bool) (ms : List Member)
  | other
  | skip

/-- `noth`: structs of up to 16 bytes are passed in core registers. -/
def noth (size : ℕ) : ℕ := if size ≤ 16 then 1 else 0

/-- One round of the loop of `ccall_classify_struct`, with the class `s` of a struct: the sizes and
the number of members, or nothing for `noth`. -/
def addMember (isu : Bool) (s : ℕ) (r n : ℕ) : Member → Option (ℕ × ℕ)
  | .fp k => some (r ||| 2 ^ (k + 2), if ¬ isu then n + 1 else if n = 0 then 1 else n)
  | .complex k => some (r ||| 2 ^ (k + 2), if ¬ isu then n + 2 else if n < 2 then 2 else n)
  | .struct size _ _ =>
      if 0 < size then
        if s ≤ 1 then none
        else some (r ||| s % 256, if ¬ isu then n + s / 256 else if n < s / 256 then s / 256 else n)
      else some (r, n)
  | .other => none
  | .skip => some (r, n)

mutual

/-- `ccall_classify_struct`. -/
def classify : Member → ℕ
  | .struct size isu ms =>
      match walk ms isu 0 0 with
      | some (r, n) => if (r = 4 ∨ r = 8) ∧ n ≤ 4 then r + n * 256 else noth size
      | none => noth size
  | _ => 0

/-- The loop of `ccall_classify_struct`. -/
@[grind =]
def walk : List Member → Bool → ℕ → ℕ → Option (ℕ × ℕ)
  | [], _, r, n => some (r, n)
  | m :: ms, isu, r, n =>
      match addMember isu (classify m) r n m with
      | none => none
      | some (r', n') => walk ms isu r' n'

end

/-! ### Aggregates -/

mutual

/-- All floating-point parts have `r` bytes, and there are no others. -/
def Member.Uniform (r : ℕ) : Member → Prop
  | .fp k => 2 ^ (k + 2) = r
  | .complex k => 2 ^ (k + 2) = r
  | .struct size _ ms => size = 0 ∨ UniformAll r ms
  | .other => False
  | .skip => True

def UniformAll (r : ℕ) : List Member → Prop
  | [] => True
  | m :: ms => m.Uniform r ∧ UniformAll r ms

end

mutual

/-- The number of floating-point parts.  Those of a union share their place. -/
def Member.count : Member → ℕ
  | .fp _ => 1
  | .complex _ => 2
  | .struct size isu ms => if size = 0 then 0 else countAll ms isu
  | .other => 0
  | .skip => 0

def countAll : List Member → Bool → ℕ
  | [], _ => 0
  | m :: ms, isu => if isu then max m.count (countAll ms isu) else m.count + countAll ms isu

end

/-- The parts of a bitwise or that is one bit. -/
theorem or_eq_bit {a b p : ℕ} (hp : p = 4 ∨ p = 8) (h : a ||| b = p) :
    (a = 0 ∨ a = p) ∧ (b = 0 ∨ b = p) := by
  have ha : a ≤ p := h ▸ Nat.left_le_or
  have hb : b ≤ p := h ▸ Nat.right_le_or
  have key : ∀ a < 9, ∀ b < 9, ∀ p ∈ [4, 8], a ||| b = p → (a = 0 ∨ a = p) ∧ (b = 0 ∨ b = p) := by
    decide
  refine key a (by lia) b (by lia) p ?_ h
  rcases hp with rfl | rfl <;> simp

/-- The number of members after one more, which has `c`. -/
def addCount (isu : Bool) (n c : ℕ) : ℕ := if ¬ isu then n + c else if n < c then c else n

theorem addCount_pos (isu : Bool) (n : ℕ) {c : ℕ} (h : 0 < c) : 0 < addCount isu n c := by
  unfold addCount
  split
  · omega
  · split <;> omega

theorem le_addCount (isu : Bool) (n c : ℕ) : n ≤ addCount isu n c := by
  unfold addCount
  split
  · omega
  · split <;> omega

/-- The members that follow are counted on. -/
theorem addCount_eq (isu : Bool) (n c total : ℕ) :
    (if isu then max (addCount isu n c) total else addCount isu n c + total) =
      if isu then max n (if isu then max c total else c + total)
      else n + (if isu then max c total else c + total) := by
  unfold addCount
  cases isu with
  | false =>
    simp only [Bool.false_eq_true, not_false_eq_true, if_true, if_false]
    omega
  | true =>
    simp only [not_true_eq_false, if_true, if_false]
    split <;> lia

/-- What the classification says about a struct: its members are all floats or all doubles. -/
def Hfa (s r : ℕ) (ms : List Member) (isu : Bool) : Prop :=
  (r = 4 ∨ r = 8) ∧ s = r + countAll ms isu * 256 ∧ UniformAll r ms ∧ 1 ≤ countAll ms isu ∧
    countAll ms isu ≤ 4

/-- The classification of a member that is a struct. -/
def ClassifyOk (m : Member) : Prop :=
  ∀ size isu ms, m = .struct size isu ms → 1 < classify m → ∃ r, Hfa (classify m) r ms isu

/-- The loop over the rest of the members. -/
def WalkOk (ms : List Member) : Prop :=
  ∀ (isu : Bool) (r n r' n' : ℕ), walk ms isu r n = some (r', n') → r' = 4 ∨ r' = 8 →
    (r = 0 ∨ r = r') ∧ UniformAll r' ms ∧
      (n' = if isu then max n (countAll ms isu) else n + countAll ms isu) ∧
      ((r ≠ 0 → 0 < n) → 0 < n')

theorem classifyOk_struct {size : ℕ} {isu : Bool} {ms : List Member} (hms : WalkOk ms) :
    ClassifyOk (.struct size isu ms) := by
  intro size' isu' ms' heq h
  obtain ⟨rfl, rfl, rfl⟩ := Member.struct.inj heq
  have hnoth : noth size ≤ 1 := by
    unfold noth
    split <;> decide
  cases hw : walk ms isu 0 0 with
  | none =>
    rw [classify, hw] at h
    simp only at h
    omega
  | some rn =>
    obtain ⟨r, n⟩ := rn
    rw [classify, hw] at h ⊢
    simp only at h ⊢
    by_cases hrn : (r = 4 ∨ r = 8) ∧ n ≤ 4
    · obtain ⟨-, hu, hn, hpos⟩ := hms isu 0 0 r n hw hrn.1
      have hpos := hpos fun h0 => absurd rfl h0
      have hn : n = countAll ms isu := by
        rw [hn]
        split <;> lia
      rw [if_pos hrn]
      exact ⟨r, hrn.1, by rw [hn], hu, hn ▸ hpos, hn ▸ hrn.2⟩
    · rw [if_neg hrn] at h
      omega

theorem walkOk_nil : WalkOk [] := by
  intro isu r n r' n' h hr
  rw [walk] at h
  obtain ⟨rfl, rfl⟩ := Prod.mk.inj (Option.some.inj h)
  refine ⟨.inr rfl, trivial, ?_, fun h => h (by omega)⟩
  rw [countAll]
  split <;> lia

theorem walkOk_cons {m : Member} {ms : List Member} (hm : ClassifyOk m) (hms : WalkOk ms) :
    WalkOk (m :: ms) := by
  intro isu r n r' n' h hr
  rw [walk] at h
  split at h
  case h_1 => cases h
  case h_2 r1 n1 hadd =>
    obtain ⟨hr1, hu, hn, hpos⟩ := hms isu r1 n1 r' n' h hr
    -- a part of `b` bytes that is added to the sizes
    have hbits {b : ℕ} (hb : 0 < b) (h : r ||| b = 0 ∨ r ||| b = r') :
        (r = 0 ∨ r = r') ∧ b = r' := by
      have hle : b ≤ r ||| b := Nat.right_le_or
      obtain ⟨h1, h2⟩ := or_eq_bit hr (h.resolve_left (by omega))
      exact ⟨h1, h2.resolve_left (by omega)⟩
    have hcount {c : ℕ} (hc : m.count = c) (h1 : n1 = addCount isu n c)
        (h0 : 0 < c ∨ r1 = r) :
        (n' = if isu then max n (countAll (m :: ms) isu) else n + countAll (m :: ms) isu) ∧
          ((r ≠ 0 → 0 < n) → 0 < n') := by
      refine ⟨by rw [hn, h1, addCount_eq, countAll, hc], fun hr0 => hpos fun hr1' => ?_⟩
      rw [h1]
      rcases h0 with h0 | rfl
      · exact addCount_pos isu n h0
      · exact (hr0 hr1').trans_le (le_addCount isu n c)
    cases m with
    | fp k =>
      obtain ⟨rfl, hn1⟩ := Prod.mk.inj (Option.some.inj hadd)
      obtain ⟨h1, h2⟩ := hbits (by positivity) hr1
      refine ⟨h1, ⟨h2, hu⟩, hcount (c := 1) rfl ?_ (.inl (by decide))⟩
      rw [← hn1]
      unfold addCount
      simp only [Nat.lt_one_iff]
    | complex k =>
      obtain ⟨rfl, hn1⟩ := Prod.mk.inj (Option.some.inj hadd)
      obtain ⟨h1, h2⟩ := hbits (by positivity) hr1
      exact ⟨h1, ⟨h2, hu⟩, hcount (c := 2) rfl hn1.symm (.inl (by decide))⟩
    | struct size isu' ms' =>
      rw [addMember] at hadd
      split at hadd
      case isTrue hsize =>
        split at hadd
        case isTrue => cases hadd
        case isFalse hs =>
          obtain ⟨p, hp, hsum, hup, hone, -⟩ := hm size isu' ms' rfl (by omega)
          have hmod : classify (.struct size isu' ms') % 256 = p := by lia
          have hdiv : classify (.struct size isu' ms') / 256 = countAll ms' isu' := by lia
          rw [hmod, hdiv] at hadd
          obtain ⟨rfl, hn1⟩ := Prod.mk.inj (Option.some.inj hadd)
          obtain ⟨h1, rfl⟩ := hbits (by lia) hr1
          refine ⟨h1, ⟨.inr hup, hu⟩, hcount ?_ hn1.symm (.inl hone)⟩
          rw [Member.count, if_neg (by omega)]
      case isFalse hsize =>
        obtain ⟨rfl, rfl⟩ := Prod.mk.inj (Option.some.inj hadd)
        refine ⟨hr1, ⟨.inl (by omega), hu⟩, hcount (c := 0) ?_ ?_ (.inr rfl)⟩
        · rw [Member.count, if_pos (by omega)]
        · unfold addCount
          split <;> simp
    | other => cases hadd
    | skip =>
      obtain ⟨rfl, rfl⟩ := Prod.mk.inj (Option.some.inj hadd)
      refine ⟨hr1, ⟨trivial, hu⟩, hcount (c := 0) rfl ?_ (.inr rfl)⟩
      unfold addCount
      split <;> simp

theorem walkOk (ms : List Member) : WalkOk ms :=
  @Member.rec_1 ClassifyOk WalkOk
    (fun _ _ _ _ h => by cases h)
    (fun _ _ _ _ h => by cases h)
    (fun _ _ _ h => classifyOk_struct h)
    (fun _ _ _ h => by cases h)
    (fun _ _ _ h => by cases h)
    walkOk_nil (fun _ _ hm hms => walkOk_cons hm hms) ms

/-- **What the classification finds is an aggregate of one to four floats, or of as many doubles.** -/
theorem classify_hfa {size : ℕ} {isu : Bool} {ms : List Member}
    (h : 1 < classify (.struct size isu ms)) : ∃ r, Hfa (classify (.struct size isu ms)) r ms isu :=
  classifyOk_struct (walkOk ms) size isu ms rfl h

/-! ### Spreading words over registers -/

section Spread

variable {α : Type} (z : α)

/-- The loop that spreads `k` words of 32 bits over registers of 64 bits, in place and from the last
word on: `((uint64_t *)dp)[i] = ((uint32_t *)dp)[i]`. -/
@[grind =]
def spread : ℕ → (ℕ → α) → ℕ → α
  | 0, w => w
  | i + 1, w => spread i (Function.update (Function.update w (2 * i) (w i)) (2 * i + 1) z)

/-- The words of the later registers keep their values. -/
theorem spread_of_le {k j : ℕ} (w : ℕ → α) (h : 2 * k ≤ j) : spread z k w j = w j := by
  induction k generalizing w with
  | zero => rfl
  | succ k ih =>
    rw [spread, ih _ (by omega), Function.update_of_ne (by omega), Function.update_of_ne (by omega)]

/-- Each word is in the low half of its register. -/
theorem spread_even {k i : ℕ} (w : ℕ → α) (h : i < k) : spread z k w (2 * i) = w i := by
  induction k generalizing w with
  | zero => omega
  | succ k ih =>
    rw [spread]
    by_cases hik : i = k
    · subst hik
      rw [spread_of_le z _ le_rfl, Function.update_of_ne (by omega), Function.update_self]
    · rw [ih _ (by lia), Function.update_of_ne (by omega), Function.update_of_ne (by lia)]

/-- The high halves are clear. -/
theorem spread_odd {k i : ℕ} (w : ℕ → α) (h : i < k) : spread z k w (2 * i + 1) = z := by
  induction k generalizing w with
  | zero => omega
  | succ k ih =>
    rw [spread]
    by_cases hik : i = k
    · subst hik
      rw [spread_of_le z _ (by omega), Function.update_self]
    · exact ih _ (by lia)

end Spread

/-! ### The rules of the procedure call standard -/

/-- An argument that is a struct, a union or a complex number. -/
inductive Aggregate where
  | struct (size align : ℕ) (h : 2 ^ align ∣ size) (isu : Bool) (ms : List Member)
  | complex (k : ℕ)

/-- The type of the argument. -/
def Aggregate.ctype : Aggregate → CType
  | .struct size align h isu ms => .struct size align h ⟨none, classify (.struct size isu ms)⟩
  | .complex k => .complex k

/-- The words from `dp` on, for an argument with the words `v`. -/
def argWords (t : Target) (p : Pass) (r : Region) (v : ℕ → UInt32) : ℕ → UInt32 :=
  if p.isfp = 2 ∧ r ≠ .stack then spread 0 (p.n t * t.ptr / 4) v else v

/-- Register `i` from `dp` on holds member `i`, where the members have `r` bytes. -/
def HoldsMember (r : ℕ) (w v : ℕ → UInt32) (i : ℕ) : Prop :=
  if r = 4 then w (2 * i) = v i else w (2 * i) = v (2 * i) ∧ w (2 * i + 1) = v (2 * i + 1)

section Rules

variable (ios : Bool) (f : FuncType) (st : State) (isva : Bool)

/-- An aggregate of `m` floats or doubles takes `m` FP registers, a member each, or is on the stack.
iOS passes all arguments of a variadic function that are not declared on the stack. -/
def HfaOk (r m : ℕ) (p : Pass) (out : ArgOut) : Prop :=
  if ¬ (ios ∧ isva) ∧ st.nfpr + m ≤ 8 then
    out.region = .fpr ∧ out.byte = 8 * st.nfpr ∧ out.st = { st with nfpr := st.nfpr + m } ∧
      ∀ v i, i < m → HoldsMember r (argWords (.arm64 ios) p out.region v) v i
  else out.region = .stack

/-- Another struct takes the core registers of its size, or is on the stack. -/
def SmallOk (size : ℕ) (out : ArgOut) : Prop :=
  (∃ g, st.ngpr ≤ g ∧ g ≤ st.ngpr + 1 ∧ g + (size + 7) / 8 ≤ 8 ∧
      out.st = { st with ngpr := g + (size + 7) / 8 } ∧
      out.placed.spans = [⟨.gpr, 8 * g, size⟩]) ∨
    out.placed.spans = [⟨.stack, out.byte, size⟩]

/-- How a complex number is passed by its own size. -/
def ownPass (k : ℕ) : Pass := { isfp := if k = 0 then 2 else 1, sz := 2 * 2 ^ (k + 2) }

/-- The rules.  A struct of more than 16 bytes is passed by reference, in one word. -/
def PassedOk (p : Pass) (out : ArgOut) : Aggregate → Prop
  | .struct size _ _ isu ms =>
      let cl := classify (.struct size isu ms)
      if 1 < cl then HfaOk ios st isva (cl % 256) (countAll ms isu) p out
      else if size ≤ 16 then SmallOk st size out
      else p.byref = true ∧ out.placed.spans = [⟨out.region, out.byte, 8⟩]
  | .complex k => placeArg (.arm64 ios) f st ⟨.complex k, isva⟩ (ownPass k) = some out

/-- The FP registers that are taken for an aggregate of members of `r` bytes. -/
def fprsTaken (size r : ℕ) : ℕ := (size + 7) / 8 * if r = 4 then 2 else 1

/-- When the rules hold: an aggregate of floats or doubles fills the registers that are taken for it,
and the result of the function does not change how a complex number is passed; or there are too few
FP registers either way. -/
def Fills : Aggregate → Prop
  | .struct size _ _ isu ms =>
      let cl := classify (.struct size isu ms)
      let m := countAll ms isu
      1 < cl → (ios ∧ isva) ∨ fprsTaken size (cl % 256) = m ∨
        (8 < st.nfpr + m ∧ 8 < st.nfpr + fprsTaken size (cl % 256))
  | .complex k => (ios ∧ isva) ∨ (k = 0 ↔ f.ret.size (.arm64 ios) = 8) ∨ 8 < st.nfpr + 2 ^ k

end Rules

/-! ### Proof -/

section Proof

variable {ios : Bool} {f : FuncType} {st : State} {isva : Bool} {p : Pass} {out : ArgOut}

/-- An argument in FP registers. -/
theorem regarg_fpr {d : CType} {j n : ℕ} (hv : d.isVector = false) (hj : j ≠ 0) :
    regarg (.arm64 ios) f st d isva j n =
      if ios ∧ isva then .onStack st
      else if st.nfpr + n * j ≤ 8 then .done .fpr (8 * st.nfpr) { st with nfpr := st.nfpr + n * j }
      else if ios ∧ d.size (.arm64 ios) < 8 then .nyi
      else .onStack { st with nfpr := 8 } := by
  have hn2 : n2 d (n * j) = n * j := if_neg (by rw [hv]; decide)
  unfold regarg regargArm64
  simp only [hn2, if_pos hj]
  rfl

/-- A struct that is neither an aggregate of floats nor one of doubles is classified by its size. -/
theorem classify_small {size : ℕ} {isu : Bool} {ms : List Member}
    (h : ¬ 1 < classify (.struct size isu ms)) :
    classify (.struct size isu ms) = if size ≤ 16 then 1 else 0 := by
  cases hw : walk ms isu 0 0 with
  | none =>
    rw [classify, hw]
    rfl
  | some rn =>
    obtain ⟨r, n⟩ := rn
    rw [classify, hw] at h ⊢
    simp only at h ⊢
    by_cases hrn : (r = 4 ∨ r = 8) ∧ n ≤ 4
    · rw [if_pos hrn] at h
      lia
    · rw [if_neg hrn]
      rfl

theorem structState_arm64 (d : CType) : structState (.arm64 ios) f st d = st :=
  structState_eq (by simp) d

/-- What is left for the stack is there. -/
theorem placeArg_stack {a : Arg} {st1 : State}
    (hr : regarg (.arm64 ios) f st a.d a.isva p.isfp (p.n (.arm64 ios)) = .onStack st1)
    (h : placeArg (.arm64 ios) f st a p = some out) : out.region = .stack := by
  rw [placeArg, structState_arm64, hr] at h
  simp only at h
  split at h
  case h_1 => cases h
  case h_2 =>
    obtain rfl := Option.some.inj h
    rfl

/-- What is passed in registers is there. -/
theorem placeArg_regs {a : Arg} {st1 : State} {r : Region} {byte : ℕ}
    (hr : regarg (.arm64 ios) f st a.d a.isva p.isfp (p.n (.arm64 ios)) = .done r byte st1)
    (h : placeArg (.arm64 ios) f st a p = some out) :
    out = ⟨r, byte, ⟨argSpans (.arm64 ios) a.d p r byte, []⟩, st1⟩ := by
  rw [placeArg, structState_arm64, hr] at h
  exact (Option.some.inj h).symm

/-- Aggregates of floats and of doubles. -/
theorem hfaOk_iff {d : CType} {size r m : ℕ} (hr : r = 4 ∨ r = 8) (hv : d.isVector = false)
    (hp : p = { isfp := if r = 4 then 2 else 1, sz := size })
    (h : placeArg (.arm64 ios) f st ⟨d, isva⟩ p = some out) :
    HfaOk ios st isva r m p out ↔ (ios ∧ isva) ∨ fprsTaken size r = m ∨
      (8 < st.nfpr + m ∧ 8 < st.nfpr + fprsTaken size r) := by
  have hj : p.isfp ≠ 0 := by
    rw [hp]
    simp only
    split <;> decide
  have hn : p.n (.arm64 ios) = (size + 7) / 8 := by
    rw [hp]
    rfl
  have htaken : p.n (.arm64 ios) * p.isfp = fprsTaken size r := by
    rw [hn, hp]
    rfl
  have hreg := @regarg_fpr ios f st isva d p.isfp (p.n (.arm64 ios)) hv hj
  rw [htaken] at hreg
  unfold HfaOk
  by_cases hva : ios = true ∧ isva = true
  · rw [if_pos hva] at hreg
    rw [if_neg fun hh => hh.1 hva]
    exact iff_of_true (placeArg_stack hreg h) (.inl hva)
  · rw [if_neg hva] at hreg
    by_cases hfit : st.nfpr + fprsTaken size r ≤ 8
    · rw [if_pos hfit] at hreg
      obtain rfl := placeArg_regs hreg h
      by_cases hm : st.nfpr + m ≤ 8
      · rw [if_pos ⟨hva, hm⟩]
        constructor
        · rintro ⟨-, -, hst, -⟩
          have := congrArg State.nfpr hst
          simp only at this
          exact .inr (.inl (by lia))
        · intro hcond
          have heq : fprsTaken size r = m := by
            rcases hcond with hc | hc | hc
            · exact absurd hc hva
            · exact hc
            · omega
          refine ⟨rfl, rfl, by rw [heq], fun v i hi => ?_⟩
          rcases hr with rfl | rfl
          · have h2 : p.isfp = 2 ∧ Region.fpr ≠ .stack := by
              rw [hp]
              exact ⟨rfl, by simp⟩
            have hwords : p.n (.arm64 ios) * (Target.arm64 ios).ptr / 4 = m := by
              rw [hn, ← heq]
              show (size + 7) / 8 * 8 / 4 = (size + 7) / 8 * 2
              lia
            unfold HoldsMember argWords
            rw [if_pos rfl, if_pos h2, hwords]
            exact spread_even 0 v hi
          · have h2 : ¬ (p.isfp = 2 ∧ Region.fpr ≠ .stack) := by
              rw [hp]
              exact fun hh => absurd (show 1 = 2 from hh.1) (by decide)
            unfold HoldsMember argWords
            rw [if_neg (by decide), if_neg h2]
            exact ⟨rfl, rfl⟩
      · rw [if_neg fun hh => hm hh.2]
        refine iff_of_false (by simp) fun hcond => ?_
        rcases hcond with hc | hc | hc
        · exact hva hc
        · omega
        · omega
    · rw [if_neg hfit] at hreg
      split at hreg
      case isTrue =>
        rw [placeArg, structState_arm64] at h
        simp only at h
        rw [hreg] at h
        cases h
      case isFalse =>
        have hstack := placeArg_stack hreg h
        by_cases hm : st.nfpr + m ≤ 8
        · rw [if_pos ⟨hva, hm⟩]
          refine iff_of_false (fun hh => by rw [hstack] at hh; cases hh.1) fun hcond => ?_
          rcases hcond with hc | hc | hc
          · exact hva hc
          · omega
          · omega
        · rw [if_neg fun hh => hm hh.2]
          exact iff_of_true hstack (.inr (.inr ⟨by omega, by omega⟩))

/-- An argument in core registers. -/
theorem regarg_gpr {d : CType} {n : ℕ} :
    regarg (.arm64 ios) f st d isva 0 n =
      if ios ∧ isva then .onStack st
      else if arm64Gpr (.arm64 ios) st d ios + n ≤ 8 then
        .done .gpr (8 * arm64Gpr (.arm64 ios) st d ios)
          { st with ngpr := arm64Gpr (.arm64 ios) st d ios + n }
      else if ios ∧ d.size (.arm64 ios) < 8 then .nyi
      else .onStack { st with ngpr := 8 } := by
  unfold regarg regargArm64
  simp only [if_neg (by decide : ¬ 0 ≠ 0)]
  rfl

theorem arm64Gpr_bounds (d : CType) :
    st.ngpr ≤ arm64Gpr (.arm64 ios) st d ios ∧ arm64Gpr (.arm64 ios) st d ios ≤ st.ngpr + 1 := by
  unfold arm64Gpr
  split
  · refine ⟨le_regpair _, ?_⟩
    unfold regpair Align.up
    lia
  · omega

/-- An argument in core registers is stored in one piece. -/
theorem placeArg_gpr {d : CType} {len : ℕ} (hj : p.isfp = 0)
    (hspans : ∀ r byte, argSpans (.arm64 ios) d p r byte = contiguous (.arm64 ios) r byte len)
    (hlen : len ≤ 8 * p.n (.arm64 ios)) (h : placeArg (.arm64 ios) f st ⟨d, isva⟩ p = some out) :
    (∃ g, st.ngpr ≤ g ∧ g ≤ st.ngpr + 1 ∧ g + p.n (.arm64 ios) ≤ 8 ∧
        out = ⟨.gpr, 8 * g, ⟨[⟨.gpr, 8 * g, len⟩], []⟩,
          { st with ngpr := g + p.n (.arm64 ios) }⟩) ∨
      (out.region = .stack ∧ out.placed.spans = [⟨.stack, out.byte, len⟩]) := by
  have hreg := @regarg_gpr ios f st isva d (p.n (.arm64 ios))
  rw [← hj] at hreg
  have stack {st1 : State} (hr : regarg (.arm64 ios) f st d isva p.isfp (p.n (.arm64 ios)) =
      .onStack st1) : out.region = .stack ∧ out.placed.spans = [⟨.stack, out.byte, len⟩] := by
    rw [placeArg, structState_arm64, hr] at h
    simp only at h
    split at h
    case h_1 => cases h
    case h_2 =>
      obtain rfl := Option.some.inj h
      refine ⟨rfl, ?_⟩
      simp only
      rw [hspans, contiguous_single (by simp)]
  split at hreg
  case isTrue => exact .inr (stack hreg)
  case isFalse =>
    split at hreg
    case isTrue hle =>
      obtain ⟨h1, h2⟩ := @arm64Gpr_bounds ios st d
      have hout := placeArg_regs hreg h
      refine .inl ⟨arm64Gpr (.arm64 ios) st d ios, h1, h2, hle, ?_⟩
      rw [hout, hspans, contiguous_single fun _ => ?_]
      show _ ≤ 8 * 8
      omega
    case isFalse =>
      split at hreg
      case isTrue =>
        rw [placeArg, structState_arm64] at h
        simp only at h
        rw [hreg] at h
        cases h
      case isFalse => exact .inr (stack hreg)

section Complex

variable {k : ℕ}

/-- A complex number that is passed with `isfp`. -/
def complexPass (k isfp : ℕ) : Pass := { isfp := isfp, sz := 2 * 2 ^ (k + 2) }

theorem complexPass_n (k isfp : ℕ) : (complexPass k isfp).n (.arm64 ios) = 2 ^ k := by
  have hpow : 2 * 2 ^ (k + 2) = 8 * 2 ^ k := by
    rw [pow_succ, pow_succ]
    omega
  show (2 * 2 ^ (k + 2) + 8 - 1) / 8 = 2 ^ k
  rw [hpow]
  lia

theorem regarg_complex {j : ℕ} (hj : j ≠ 0) :
    regarg (.arm64 ios) f st (.complex k) isva (complexPass k j).isfp ((complexPass k j).n (.arm64 ios)) =
      if ios ∧ isva then .onStack st
      else if st.nfpr + 2 ^ k * j ≤ 8 then
        .done .fpr (8 * st.nfpr) { st with nfpr := st.nfpr + 2 ^ k * j }
      else .onStack { st with nfpr := 8 } := by
  have hsize : ¬ (ios = true ∧ CType.size (.arm64 ios) (.complex k) < 8) := by
    rintro ⟨-, hlt⟩
    have hpos : 2 ^ 2 ≤ 2 ^ (k + 2) := Nat.pow_le_pow_right (by decide) (by omega)
    have hlt : 2 * 2 ^ (k + 2) < 8 := hlt
    omega
  have key := @regarg_fpr ios f st isva (.complex k) j (2 ^ k) rfl hj
  rw [if_neg hsize] at key
  rw [complexPass_n]
  exact key

/-- On the stack it makes no difference how a complex number would be passed in registers. -/
theorem placeArg_complex_stack {j j' : ℕ} {st1 : State}
    (hr : regarg (.arm64 ios) f st (.complex k) isva (complexPass k j).isfp
      ((complexPass k j).n (.arm64 ios)) = .onStack st1)
    (hr' : regarg (.arm64 ios) f st (.complex k) isva (complexPass k j').isfp
      ((complexPass k j').n (.arm64 ios)) = .onStack st1) :
    placeArg (.arm64 ios) f st ⟨.complex k, isva⟩ (complexPass k j) =
      placeArg (.arm64 ios) f st ⟨.complex k, isva⟩ (complexPass k j') := by
  have hspans (j byte : ℕ) : argSpans (.arm64 ios) (.complex k) (complexPass k j) .stack byte =
      contiguous (.arm64 ios) .stack byte (CType.stored (.arm64 ios) (.complex k)) := by
    have h2 : ¬ ((complexPass k j).isfp = 2 ∧ Region.stack ≠ .stack) := fun hh => hh.2 rfl
    simp only [argSpans, if_neg h2]
    rfl
  have hstack (j : ℕ) : stackArg (.arm64 ios) (.complex k) (complexPass k j) st1 =
      stackArg (.arm64 ios) (.complex k) (complexPass k j') st1 := rfl
  simp only [placeArg, structState_arm64, hr, hr', hstack j, hspans]

/-- A complex number that fits in the registers takes `j` registers for every eight bytes. -/
theorem placeArg_complex_fpr {j : ℕ} (hj : j ≠ 0) (hva : ¬ (ios = true ∧ isva = true))
    (h : placeArg (.arm64 ios) f st ⟨.complex k, isva⟩ (complexPass k j) = some out) :
    (st.nfpr + 2 ^ k * j ≤ 8 → out.region = .fpr ∧ out.st.nfpr = st.nfpr + 2 ^ k * j) ∧
      (¬ st.nfpr + 2 ^ k * j ≤ 8 → out.region = .stack) := by
  have hreg := @regarg_complex ios f st isva k j hj
  rw [if_neg hva] at hreg
  refine ⟨fun hfit => ?_, fun hfit => ?_⟩
  · rw [if_pos hfit] at hreg
    rw [placeArg_regs hreg h]
    exact ⟨rfl, rfl⟩
  · rw [if_neg hfit] at hreg
    exact placeArg_stack hreg h

/-- Complex numbers. -/
theorem complexOk_iff
    (h : placeArg (.arm64 ios) f st ⟨.complex k, isva⟩ (complexarg (.arm64 ios) f (2 * 2 ^ (k + 2))) =
      some out) :
    placeArg (.arm64 ios) f st ⟨.complex k, isva⟩ (ownPass k) = some out ↔
      (ios ∧ isva) ∨ (k = 0 ↔ f.ret.size (.arm64 ios) = 8) ∨ 8 < st.nfpr + 2 ^ k := by
  have hcases (p : Prop) [Decidable p] : (if p then 2 else 1) = 1 ∨ (if p then 2 else 1) = 2 := by
    split <;> decide
  by_cases hiff : k = 0 ↔ f.ret.size (.arm64 ios) = 8
  · have hp : complexarg (.arm64 ios) f (2 * 2 ^ (k + 2)) = ownPass k := by
      unfold complexarg ownPass
      simp only [hiff]
    rw [← hp]
    exact iff_of_true h (.inr (.inl hiff))
  · -- the two take different numbers of registers, one of them one for every eight bytes
    have hne : (if k = 0 then 2 else 1) ≠ if f.ret.size (.arm64 ios) = 8 then 2 else 1 := by
      by_cases hk : k = 0
      · rw [if_pos hk, if_neg fun h8 => hiff ⟨fun _ => h8, fun _ => hk⟩]
        decide
      · rw [if_neg hk]
        split
        · decide
        case isFalse h8 => exact absurd ⟨fun h0 => absurd h0 hk, fun h0 => absurd h0 h8⟩ hiff
    have hj := hcases (k = 0)
    have hj' := hcases (f.ret.size (.arm64 ios) = 8)
    change placeArg _ f st _ (complexPass k (if f.ret.size (.arm64 ios) = 8 then 2 else 1)) = _ at h
    change placeArg _ f st _ (complexPass k (if k = 0 then 2 else 1)) = _ ↔ _
    generalize (if k = 0 then 2 else 1) = j at hj hne ⊢
    generalize (if f.ret.size (.arm64 ios) = 8 then 2 else 1) = j' at hj' hne h
    have hpos : 0 < 2 ^ k := by positivity
    have hreg := @regarg_complex ios f st isva k j (by lia)
    have hreg' := @regarg_complex ios f st isva k j' (by lia)
    by_cases hva : ios = true ∧ isva = true
    · rw [if_pos hva] at hreg hreg'
      rw [placeArg_complex_stack hreg hreg']
      exact iff_of_true h (.inl hva)
    · by_cases hfull : 8 < st.nfpr + 2 ^ k
      · rw [if_neg hva, if_neg (by rcases hj with rfl | rfl <;> lia)] at hreg
        rw [if_neg hva, if_neg (by rcases hj' with rfl | rfl <;> lia)] at hreg'
        rw [placeArg_complex_stack hreg hreg']
        exact iff_of_true h (.inr (.inr hfull))
      · refine iff_of_false (fun hown => ?_) fun hh => hh.elim hva fun hh => hh.elim hiff hfull
        obtain ⟨h1, h2⟩ := placeArg_complex_fpr (by lia) hva hown
        obtain ⟨h1', h2'⟩ := placeArg_complex_fpr (by lia) hva h
        have hone : j = 1 ∧ j' = 2 ∨ j = 2 ∧ j' = 1 := by
          rcases hj with rfl | rfl <;> rcases hj' with rfl | rfl
          · exact absurd rfl hne
          · exact .inl ⟨rfl, rfl⟩
          · exact .inr ⟨rfl, rfl⟩
          · exact absurd rfl hne
        rcases hone with ⟨rfl, rfl⟩ | ⟨rfl, rfl⟩
        · obtain ⟨hr, hn⟩ := h1 (by omega)
          by_cases hfit : st.nfpr + 2 ^ k * 2 ≤ 8
          · have := (h1' hfit).2
            omega
          · rw [h2' hfit] at hr
            cases hr
        · obtain ⟨hr, hn⟩ := h1' (by omega)
          by_cases hfit : st.nfpr + 2 ^ k * 2 ≤ 8
          · have := (h1 hfit).2
            omega
          · rw [h2 hfit] at hr
            cases hr

end Complex

/-- **The rules of the procedure call standard hold exactly for the aggregates that fill the
registers that are taken for them.** -/
theorem passedOk_iff {x : Aggregate} (hp : pass (.arm64 ios) f x.ctype = some p)
    (h : placeArg (.arm64 ios) f st ⟨x.ctype, isva⟩ p = some out) :
    PassedOk ios f st isva p out x ↔ Fills ios f st isva x := by
  cases x with
  | complex k =>
    obtain rfl := Option.some.inj hp
    exact complexOk_iff h
  | struct size align hal isu ms =>
    obtain rfl := Option.some.inj hp
    unfold PassedOk Fills
    simp only
    by_cases hcl : 1 < classify (.struct size isu ms)
    · obtain ⟨r, hr, hsum, -⟩ := classify_hfa hcl
      have hmod : classify (.struct size isu ms) % 256 = r := by lia
      have hpass : structarg (.arm64 ios) size ⟨none, classify (.struct size isu ms)⟩ =
          { isfp := if r = 4 then 2 else 1, sz := size } := by
        simp only [structarg]
        rw [if_neg (by lia), if_pos hcl]
        congr 1
        rcases hr with rfl | rfl
        · rw [if_pos (by lia), if_pos rfl]
        · rw [if_neg (by lia), if_neg (by decide)]
      rw [if_pos hcl, hmod, hfaOk_iff hr rfl hpass h]
      exact ⟨fun hh _ => hh, fun hh => hh hcl⟩
    · have hsmall := classify_small hcl
      rw [if_neg hcl]
      refine iff_of_true ?_ fun hh => absurd hh hcl
      have hst : CType.stored (.arm64 ios) (Aggregate.struct size align hal isu ms).ctype = size := by
        simp [CType.stored, CType.isIntegerOrBool, Aggregate.ctype, CType.size]
      by_cases h16 : size ≤ 16
      · rw [if_pos h16]
        rw [if_pos h16] at hsmall
        have hpass : structarg (.arm64 ios) size ⟨none, classify (.struct size isu ms)⟩ =
            { sz := size } := by
          simp only [structarg]
          rw [hsmall, if_neg (by decide), if_neg (by decide)]
        rw [hpass] at h
        have hspans (r : Region) (byte : ℕ) :
            argSpans (.arm64 ios) (Aggregate.struct size align hal isu ms).ctype { sz := size } r byte =
              contiguous (.arm64 ios) r byte size := by
          have h2 : ¬ (0 = 2 ∧ r ≠ .stack) := fun hh => absurd hh.1 (by decide)
          simp only [argSpans, if_neg h2, hst]
          rfl
        have hlen : size ≤ 8 * Pass.n (.arm64 ios) { sz := size } := by
          show size ≤ 8 * ((size + 8 - 1) / 8)
          lia
        rcases placeArg_gpr rfl hspans hlen h with ⟨g, h1, h2, h3, hout⟩ | ⟨-, hout⟩
        · exact .inl ⟨g, h1, h2, h3, by rw [hout]; rfl, by rw [hout]⟩
        · exact .inr hout
      · rw [if_neg h16]
        rw [if_neg h16] at hsmall
        have hpass : structarg (.arm64 ios) size ⟨none, classify (.struct size isu ms)⟩ =
            { byref := true, sz := 8 } := by
          simp only [structarg]
          rw [hsmall, if_pos rfl]
          rfl
        rw [hpass] at h ⊢
        refine ⟨rfl, ?_⟩
        have hspans (r : Region) (byte : ℕ) :
            argSpans (.arm64 ios) (Aggregate.struct size align hal isu ms).ctype
              { byref := true, sz := 8 } r byte = contiguous (.arm64 ios) r byte 8 := rfl
        have hlen : 8 ≤ 8 * Pass.n (.arm64 ios) { byref := true, sz := 8 } := by
          show 8 ≤ 8 * ((8 + 8 - 1) / 8)
          decide
        rcases placeArg_gpr rfl hspans hlen h with ⟨g, -, -, -, hout⟩ | ⟨hreg, hout⟩
        · rw [hout]
        · rw [hreg]
          exact hout

/-- A struct with one float. -/
def oneFloat : Aggregate := .struct 4 2 (by decide) false [.fp 0]

theorem oneFloat_run : placeArg (.arm64 false) { ret := .void, params := [] } {} ⟨oneFloat.ctype, false⟩
    { isfp := 2, sz := 4 } = some ⟨.fpr, 0, ⟨[⟨.fpr, 0, 16⟩], []⟩, { nfpr := 2 }⟩ := by
  decide

/-- A struct with one float takes two FP registers. -/
theorem oneFloat_not_ok :
    ¬ ∀ (ios : Bool) (f : FuncType) (st : State) (isva : Bool) (x : Aggregate) (p : Pass)
      (out : ArgOut), pass (.arm64 ios) f x.ctype = some p →
        placeArg (.arm64 ios) f st ⟨x.ctype, isva⟩ p = some out → PassedOk ios f st isva p out x := by
  intro h
  have hok := h _ _ _ _ oneFloat _ _ (by decide) oneFloat_run
  have hst : ({ nfpr := 2 } : State) = { nfpr := 1 } := hok.2.2.1
  cases hst

theorem oneFloat_passedOk_iff :
    PassedOk false { ret := .void, params := [] } {} false { isfp := 2, sz := 4 }
        ⟨.fpr, 0, ⟨[⟨.fpr, 0, 16⟩], []⟩, { nfpr := 2 }⟩ oneFloat ↔
      Fills false { ret := .void, params := [] } {} false oneFloat :=
  passedOk_iff (by decide) oneFloat_run

end Proof

end CcallArm64
