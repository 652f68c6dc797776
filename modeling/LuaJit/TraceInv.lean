/-
**The invariant of trace management.**

What holds between the trace array, the chains of root traces and the patched bytecode, whatever
the trace compiler, its users and the collector have done.  The invariant speaks about prototypes
that are not dead, and compares three things: the original bytecode, the state, and the *live* root
traces, a map from trace numbers to prototypes that is kept outside the state.

Main definitions:

* `Trace.Original` — what the parser promises about bytecode;
* `Trace.RootChain` — the chain of root traces anchored in a prototype;
* `Trace.Patched` — the ways in which an instruction may differ from the original;
* `Trace.ProtoOk`, `Trace.Slots`, `Trace.Core` — the invariant.

Main results:

* `Trace.traceUnpatch_cases` — unpatching only restores original instructions;
* `Trace.Core.traceFlushroot` — **flushing a root trace** keeps the invariant and takes the trace
  out of the live ones;
* `Trace.Core.flushproto`, `Trace.Core.flushall` — the flushing loops.
-/

import LuaJit.Trace

set_option relaxedAutoImplicit false
set_option autoImplicit false

namespace Trace

open Bc

/-! ### Kinds of instructions -/

/-- The instructions that count how often they are executed. -/
@[grind =]
def hotOp (op : BCOp) : Bool := op matches .forl | .iterl | .loop | .funcf

/-- The return instructions that a trace can start with. -/
@[grind =]
def retOp (op : BCOp) : Bool := op matches .ret | .ret0 | .ret1

/-- The calls that a stitched trace can start with. -/
def stitchOp (op : BCOp) : Bool := op matches .callm | .call | .iterc

/-- The forms an instruction has only after it was patched. -/
def patchedOp (op : BCOp) : Bool :=
  op matches .jfori | .iforl | .jforl | .iiterl | .jiterl | .iloop | .jloop | .ifuncf | .jfuncf

/-- The interpreted form of a loop or function header. -/
def iForm (ins : BCIns) : BCIns := { ins with op := ins.op.shift .iloop .loop }

/-- The compiled form of a loop or function header that enters trace `n`. -/
def jForm (ins : BCIns) (n : ℕ) : BCIns :=
  { ins with op := ins.op.shift .jloop .loop, d := BitVec.ofNat 16 n }

theorem iForm_forl (a : BitVec 8) (d : BitVec 16) : iForm ⟨.forl, a, d⟩ = ⟨.iforl, a, d⟩ := rfl
theorem iForm_iterl (a : BitVec 8) (d : BitVec 16) : iForm ⟨.iterl, a, d⟩ = ⟨.iiterl, a, d⟩ := rfl
theorem iForm_loop (a : BitVec 8) (d : BitVec 16) : iForm ⟨.loop, a, d⟩ = ⟨.iloop, a, d⟩ := rfl

/-- The `FORI` that belongs to the `FORL` at `i`. -/
def foriOf (bc : ℕ → BCIns) (i : ℕ) : ℕ := jumpTo i (bcJ (bc i))

/-- What the parser promises about the bytecode of a prototype: no patched forms, a function header
at the start and only there, and a `FORI` for each `FORL`, which jumps back to it. -/
structure Original (bc : ℕ → BCIns) : Prop where
  plain : ∀ i, patchedOp (bc i).op = false
  header : (bc 0).op = .funcf ∨ (bc 0).op = .funcv
  body : ∀ i, 0 < i → (bc i).op ≠ .funcf
  fori : ∀ i, (bc i).op = .forl → (bc (foriOf bc i)).op = .fori ∧ foriOf bc (foriOf bc i) = i

theorem hotOp_cases {op : BCOp} (h : hotOp op) :
    op = .forl ∨ op = .iterl ∨ op = .loop ∨ op = .funcf := by
  revert h
  cases op <;> simp [hotOp]

theorem retOp_cases {op : BCOp} (h : retOp op) : op = .ret ∨ op = .ret0 ∨ op = .ret1 := by
  revert h
  cases op <;> simp [retOp]

/-- A patched form is no instruction that can start a trace. -/
theorem patchedOp_of_start {op : BCOp} (h : hotOp op ∨ retOp op ∨ stitchOp op) :
    patchedOp op = false := by
  revert h
  cases op <;> simp [hotOp, retOp, stitchOp, patchedOp]

theorem patchedOp_iForm {ins : BCIns} (h : hotOp ins.op) : patchedOp (iForm ins).op := by
  rcases hotOp_cases h with h | h | h | h <;> simp only [iForm, h] <;> decide

theorem patchedOp_jForm {ins : BCIns} (n : ℕ) (h : hotOp ins.op) : patchedOp (jForm ins n).op := by
  rcases hotOp_cases h with h | h | h | h <;> simp only [jForm, h] <;> decide

theorem Original.foriOf_ne {bc : ℕ → BCIns} (ho : Original bc) {i : ℕ} (h : (bc i).op = .forl) :
    foriOf bc i ≠ i := by
  intro he
  have h₁ := (ho.fori i h).1
  rw [he, h] at h₁
  cases h₁

theorem Original.foriOf_inj {bc : ℕ → BCIns} (ho : Original bc) {i k : ℕ} (hi : (bc i).op = .forl)
    (hk : (bc k).op = .forl) (h : foriOf bc i = foriOf bc k) : i = k := by
  rw [← (ho.fori i hi).2, h, (ho.fori k hk).2]

/-! ### Chains of root traces -/

/-- The chain of saved traces that starts with number `n`. -/
inductive RootChain (trace : ℕ → Slot) : ℕ → List ℕ → Prop
  | nil : RootChain trace 0 []
  | cons {n : ℕ} {T : GCtrace} {l : List ℕ} (hn : n ≠ 0) (hT : trace n = .saved T)
      (h : RootChain trace T.nextroot l) : RootChain trace n (n :: l)

/-- A chain depends only on the links of its members. -/
theorem RootChain.congr {tr tr' : ℕ → Slot} {n : ℕ} {l : List ℕ} (h : RootChain tr n l)
    (hc : ∀ m ∈ l, ∀ T, tr m = .saved T → ∃ T', tr' m = .saved T' ∧ T'.nextroot = T.nextroot) :
    RootChain tr' n l := by
  induction h with
  | nil => exact .nil
  | @cons n T l hn hT _ ih =>
      obtain ⟨T', hT', he⟩ := hc n (by simp) T hT
      refine .cons hn hT' ?_
      rw [he]
      exact ih fun m hm => hc m (by simp [hm])

theorem RootChain.saved {tr : ℕ → Slot} {n m : ℕ} {l : List ℕ} (h : RootChain tr n l)
    (hm : m ∈ l) : m ≠ 0 ∧ ∃ T, tr m = .saved T := by
  induction h with
  | nil => simp at hm
  | @cons n T l hn hT _ ih =>
      rcases List.mem_cons.mp hm with rfl | hm
      · exact ⟨hn, T, hT⟩
      · exact ih hm

theorem RootChain.eq_nil {tr : ℕ → Slot} {l : List ℕ} (h : RootChain tr 0 l) : l = [] := by
  cases h with
  | nil => rfl
  | cons hn _ _ => exact absurd rfl hn

theorem RootChain.head_mem {tr : ℕ → Slot} {n : ℕ} {l : List ℕ} (h : RootChain tr n l)
    (hn : n ≠ 0) : n ∈ l := by
  cases h with
  | nil => exact absurd rfl hn
  | cons _ _ _ => simp

theorem RootChain.inv {tr : ℕ → Slot} {n : ℕ} {l : List ℕ} (h : RootChain tr n l) (hn : n ≠ 0) :
    ∃ T l', l = n :: l' ∧ tr n = .saved T ∧ RootChain tr T.nextroot l' := by
  cases h with
  | nil => exact absurd rfl hn
  | @cons _ T l _ hT h => exact ⟨T, l, rfl, hT, h⟩

/-- The successor of a member is a member. -/
theorem RootChain.next_mem {tr : ℕ → Slot} {n m : ℕ} {T : GCtrace} {l : List ℕ}
    (h : RootChain tr n l) (hm : m ∈ l) (hT : tr m = .saved T) (h0 : T.nextroot ≠ 0) :
    T.nextroot ∈ l := by
  induction h with
  | nil => simp at hm
  | @cons n T' l hn hT' h ih =>
      rcases List.mem_cons.mp hm with rfl | hm
      · obtain rfl : T' = T := by simpa using hT'.symm.trans hT
        exact List.mem_cons_of_mem _ (h.head_mem h0)
      · exact List.mem_cons_of_mem _ (ih hm)

/-! ### Patched bytecode -/

/-- The ways in which instruction `i` of prototype `p` may differ from the original: it was
blacklisted, or a live root trace replaced it, or it is the `FORI` of a replaced `FORL`. -/
inductive Patched (orig : ℕ → BCIns) (live : ℕ → Option ℕ) (J : JitState) (p i : ℕ) : Prop
  | plain (h : (J.pt p).bc i = orig i)
  | blacklisted (hop : hotOp (orig i).op) (hi : i < (J.pt p).sizebc) (hf : (J.pt p).iloop = true)
      (h : (J.pt p).bc i = iForm (orig i))
  | loop (n : ℕ) (T : GCtrace) (hop : hotOp (orig i).op) (hl : live n = some p)
      (hT : J.trace n = .saved T) (hs : T.startpc = i) (h : (J.pt p).bc i = jForm (orig i) n)
  | ret (n : ℕ) (T : GCtrace) (hop : retOp (orig i).op) (hl : live n = some p)
      (hT : J.trace n = .saved T) (hs : T.startpc = i)
      (h : (J.pt p).bc i = ⟨.jloop, T.nslots, BitVec.ofNat 16 n⟩)
  | fori (k : ℕ) (hk : (orig k).op = .forl) (hi : foriOf orig k = i)
      (hj : ((J.pt p).bc k).op = .jforl) (h : (J.pt p).bc i = { orig i with op := .jfori })

/-- An instruction that does not look patched is the original one. -/
theorem Patched.eq_orig {orig : ℕ → BCIns} {live : ℕ → Option ℕ} {J : JitState} {p i : ℕ}
    (h : Patched orig live J p i) (hop : patchedOp ((J.pt p).bc i).op = false) :
    (J.pt p).bc i = orig i := by
  cases h with
  | plain h => exact h
  | blacklisted ho _ _ h =>
      rw [h, patchedOp_iForm ho] at hop
      cases hop
  | loop n T ho _ _ _ h =>
      rw [h, patchedOp_jForm n ho] at hop
      cases hop
  | ret n T _ _ _ _ h =>
      rw [h] at hop
      cases hop
  | fori k _ _ _ h =>
      rw [h] at hop
      cases hop

/-- What holds of a prototype that is not dead. -/
structure ProtoOk (orig : ℕ → BCIns) (live : ℕ → Option ℕ) (J : JitState) (p : ℕ) : Prop where
  chain : ∃ l, RootChain J.trace (J.pt p).trace l ∧ l.Nodup ∧ ∀ n, n ∈ l ↔ live n = some p
  member : ∀ n, live n = some p →
    ∃ T, J.trace n = .saved T ∧ T.root = 0 ∧ T.startpt = p ∧ T.dead = false ∧
      (hotOp T.startins.op ∨ retOp T.startins.op)
  started : ∀ n T, J.trace n = .saved T → T.root = 0 → T.startpt = p →
    T.startins = orig T.startpc
  patched : ∀ i, Patched orig live J p i
  pair : ∀ i, ((J.pt p).bc i).op = .jforl → ((J.pt p).bc (foriOf orig i)).op = .jfori

/-- The trace array. -/
structure Slots (J : JitState) : Prop where
  zero : J.trace 0 = .null
  range : ∀ n, J.sizetrace ≤ n → J.trace n = .null
  size : J.sizetrace ≤ 65535
  no : ∀ n T, J.trace n = .saved T → T.traceno = n
  cur : ∀ n, J.trace n = .cur ↔ n = J.cur.traceno ∧ n ≠ 0

/-- The part of the invariant that holds at every step of a flush. -/
structure Core (orig : ℕ → ℕ → BCIns) (live : ℕ → Option ℕ) (J : JitState) : Prop where
  slots : Slots J
  proto : ∀ p, (J.pt p).dead = false → ProtoOk (orig p) live J p

/-! ### Unpatching -/

/-- The compiled forms of instructions that can start a trace. -/
def compiledOp (op : BCOp) : Bool := op matches .jforl | .jiterl | .jloop | .jfuncf

/-- What unpatching the instruction `pc` does to bytecode. -/
inductive Restored (orig bc : ℕ → BCIns) (pc : ℕ) : (ℕ → BCIns) → Prop
  | same (h : compiledOp (bc pc).op = false) : Restored orig bc pc bc
  | ins (hc : compiledOp (bc pc).op) (hn : (bc pc).op ≠ .jforl) :
      Restored orig bc pc (Function.update bc pc (orig pc))
  | loop (h : (orig pc).op = .forl) :
      Restored orig bc pc
        (Function.update (Function.update bc pc (orig pc)) (foriOf orig pc)
          (orig (foriOf orig pc)))

section Restored

variable {orig bc bc' : ℕ → BCIns} {pc : ℕ}

theorem Restored.eq_or (h : Restored orig bc pc bc') (i : ℕ) : bc' i = bc i ∨ bc' i = orig i := by
  cases h with
  | same _ => exact .inl rfl
  | ins _ _ =>
      by_cases hi : i = pc
      · subst hi
        exact .inr (Function.update_self ..)
      · exact .inl (Function.update_of_ne hi ..)
  | loop _ =>
      by_cases hf : i = foriOf orig pc
      · subst hf
        exact .inr (Function.update_self ..)
      · rw [Function.update_of_ne hf]
        by_cases hi : i = pc
        · subst hi
          exact .inr (Function.update_self ..)
        · exact .inl (Function.update_of_ne hi ..)

theorem compiledOp_orig (ho : Original orig) (i : ℕ) : compiledOp (orig i).op = false := by
  have h := ho.plain i
  revert h
  cases (orig i).op <;> simp [patchedOp, compiledOp]

theorem Restored.not_compiled (ho : Original orig) (h : Restored orig bc pc bc') :
    compiledOp (bc' pc).op = false := by
  cases h with
  | same h => exact h
  | ins _ _ =>
      rw [Function.update_self]
      exact compiledOp_orig ho pc
  | loop h =>
      rw [Function.update_of_ne (ho.foriOf_ne h).symm, Function.update_self]
      exact compiledOp_orig ho pc

/-- A `FORL` that is still compiled was not touched, and neither was its `FORI`. -/
theorem Restored.jforl (ho : Original orig)
    (hp : ∀ i, (bc i).op = .jforl → (bc (foriOf orig i)).op = .jfori)
    (h : Restored orig bc pc bc') {k : ℕ} (hk : (orig k).op = .forl) (hj : (bc' k).op = .jforl) :
    (bc k).op = .jforl ∧ bc' (foriOf orig k) = bc (foriOf orig k) := by
  have hkc : k ≠ pc := by
    rintro rfl
    have := h.not_compiled ho
    rw [hj] at this
    cases this
  cases h with
  | same _ => exact ⟨hj, rfl⟩
  | ins hc _ =>
      rw [Function.update_of_ne hkc] at hj
      refine ⟨hj, Function.update_of_ne ?_ ..⟩
      rintro rfl
      rw [hp k hj] at hc
      cases hc
  | loop hpc =>
      have hkf : k ≠ foriOf orig pc := by
        rintro rfl
        rw [(ho.fori pc hpc).1] at hk
        cases hk
      rw [Function.update_of_ne hkf, Function.update_of_ne hkc] at hj
      refine ⟨hj, ?_⟩
      rw [Function.update_of_ne, Function.update_of_ne]
      · rintro rfl
        rw [(ho.fori k hk).1] at hpc
        cases hpc
      · intro hf
        exact hkc (ho.foriOf_inj hk hpc hf)

/-- If the `FORI` is still compiled, then so is its `FORL`. -/
theorem Restored.jforl_of_jfori (ho : Original orig) (h : Restored orig bc pc bc') {k : ℕ}
    (hk : (orig k).op = .forl) (hj : (bc k).op = .jforl)
    (hi : (bc' (foriOf orig k)).op = .jfori) : (bc' k).op = .jforl := by
  cases h with
  | same _ => exact hj
  | ins _ hn =>
      rw [Function.update_of_ne]
      · exact hj
      · rintro rfl
        exact hn hj
  | loop hpc =>
      have hkc : k ≠ pc := by
        rintro rfl
        rw [Function.update_self, (ho.fori k hk).1] at hi
        cases hi
      have hkf : k ≠ foriOf orig pc := by
        rintro rfl
        rw [(ho.fori pc hpc).1] at hk
        cases hk
      rw [Function.update_of_ne hkf, Function.update_of_ne hkc]
      exact hj

end Restored

/-- Compiled forms come from loops, function headers and returns. -/
theorem Patched.compiled {orig : ℕ → BCIns} {live : ℕ → Option ℕ} {J : JitState} {p i : ℕ}
    (ho : Original orig) (h : Patched orig live J p i) (hop : compiledOp ((J.pt p).bc i).op) :
    ∃ n T, live n = some p ∧ J.trace n = .saved T ∧ T.startpc = i ∧
      (hotOp (orig i).op ∧ (J.pt p).bc i = jForm (orig i) n ∨
        retOp (orig i).op ∧ (J.pt p).bc i = ⟨.jloop, T.nslots, BitVec.ofNat 16 n⟩) := by
  cases h with
  | plain h =>
      rw [h, compiledOp_orig ho] at hop
      cases hop
  | blacklisted ho' _ _ h =>
      rw [h] at hop
      rcases hotOp_cases ho' with h | h | h | h <;> rw [iForm, h] at hop <;> cases hop
  | loop n T ho' hl hT hs h => exact ⟨n, T, hl, hT, hs, .inl ⟨ho', h⟩⟩
  | ret n T ho' hl hT hs h => exact ⟨n, T, hl, hT, hs, .inr ⟨ho', h⟩⟩
  | fori k _ _ _ h =>
      rw [h] at hop
      cases hop

/-- A compiled `FORL` was a `FORL`. -/
theorem Patched.forl {orig : ℕ → BCIns} {live : ℕ → Option ℕ} {J : JitState} {p i : ℕ}
    (ho : Original orig) (h : Patched orig live J p i) (hop : ((J.pt p).bc i).op = .jforl) :
    (orig i).op = .forl := by
  obtain ⟨n, T, _, _, _, ⟨hh, he⟩ | ⟨_, he⟩⟩ := h.compiled ho (by rw [hop]; rfl)
  · rw [he] at hop
    rcases hotOp_cases hh with h | h | h | h
    · exact h
    all_goals
      rw [jForm, h] at hop
      cases hop
  · rw [he] at hop
    cases hop

/-- Unpatching only restores original instructions: none, the starting instruction of the trace, or
a `FORL` together with its `FORI`. -/
theorem traceUnpatch_cases {orig : ℕ → BCIns} {live : ℕ → Option ℕ} {J : JitState} {p : ℕ}
    {T : GCtrace} (ho : Original orig) (hp : ProtoOk orig live J p)
    (hs : T.startins = orig T.startpc) :
    ∃ bc, traceUnpatch T (J.pt p) = { J.pt p with bc := bc } ∧
      Restored orig (J.pt p).bc T.startpc bc := by
  unfold traceUnpatch
  by_cases hj : T.startins.op = .jmp
  · -- the starting instruction is not one of those that are ever patched
    refine ⟨(J.pt p).bc, by rw [if_pos hj], .same ?_⟩
    by_contra hc
    rw [Bool.not_eq_false] at hc
    obtain ⟨_, _, _, _, _, ⟨h, _⟩ | ⟨h, _⟩⟩ := (hp.patched _).compiled ho hc
    all_goals
      rw [← hs, hj] at h
      cases h
  · rw [if_neg hj]
    split
    next h =>
      have hf := (hp.patched _).forl ho h
      have hne := ho.foriOf_ne hf
      refine ⟨_, ?_, .loop hf⟩
      have hfo : jumpTo T.startpc (bcJ T.startins) = foriOf orig T.startpc := by
        rw [hs]
        rfl
      have hins : (J.pt p).bc (foriOf orig T.startpc) =
          { orig (foriOf orig T.startpc) with op := .jfori } := by
        have hop := hp.pair _ h
        cases hp.patched (foriOf orig T.startpc) with
        | fori _ _ _ _ h => exact h
        | plain h' =>
            rw [h', (ho.fori _ hf).1] at hop
            cases hop
        | blacklisted h' _ _ _ =>
            rw [(ho.fori _ hf).1] at h'
            cases h'
        | loop _ _ h' _ _ _ _ =>
            rw [(ho.fori _ hf).1] at h'
            cases h'
        | ret _ _ h' _ _ _ _ =>
            rw [(ho.fori _ hf).1] at h'
            cases h'
      simp only [setbcOp, setbc, hfo, Function.update_of_ne hne, hins, ← hs]
      congr 2
      rw [← (ho.fori _ hf).1]
    next h => exact ⟨_, rfl, hs ▸ .ins (by rw [h]; rfl) (by rw [h]; decide)⟩
    next h => exact ⟨_, rfl, hs ▸ .ins (by rw [h]; rfl) (by rw [h]; decide)⟩
    next h =>
      -- a jump is never patched, so this would be the starting instruction itself
      have he := (hp.patched _).eq_orig (by rw [h]; rfl)
      rw [hs, ← he] at hj
      exact absurd h hj
    next h => exact ⟨_, rfl, hs ▸ .ins (by rw [h]; rfl) (by rw [h]; decide)⟩
    next h₁ h₂ h₃ _ h₄ =>
      refine ⟨_, rfl, .same ?_⟩
      revert h₁ h₂ h₃ h₄
      cases ((J.pt p).bc T.startpc).op <;> simp [compiledOp]

/-! ### Taking a trace out of its chain -/

theorem modifyTrace_saved {J : JitState} {n : ℕ} {T : GCtrace} (f : GCtrace → GCtrace)
    (h : J.trace n = .saved T) :
    modifyTrace J n f = { J with trace := Function.update J.trace n (.saved (f T)) } := by
  simp only [modifyTrace, h]

theorem traceref_saved {J : JitState} {n : ℕ} {T : GCtrace} (h : J.trace n = .saved T) :
    traceref J n = some T := by
  simp only [traceref, h]

/-- Whatever it walks over, the search changes at most the link that leads to the trace. -/
theorem unlinkRoot_cases {no next fuel : ℕ} {J J' : JitState} {n : ℕ}
    (h : unlinkRoot no next fuel J n = some J') :
    J' = J ∨ ∃ m T, traceref J m = some T ∧ T.nextroot = no ∧ no ≠ 0 ∧
      J' = modifyTrace J m fun T => { T with nextroot := next } := by
  induction fuel generalizing n with
  | zero => cases h
  | succ fuel ih =>
      simp only [unlinkRoot] at h
      split at h
      · cases h
      · next T hT =>
          split at h
          · exact .inl (Option.some_injective _ h).symm
          · next h0 =>
              split at h
              · next hn =>
                  refine .inr ⟨n, T, hT, hn, ?_, (Option.some_injective _ h).symm⟩
                  rw [← hn]
                  exact h0
              · exact ih h

/-- On a chain the search ends, and takes out the trace it looks for. -/
theorem unlinkRoot_chain (no next : ℕ) {fuel : ℕ} {J : JitState} {n : ℕ} {l : List ℕ}
    (h : RootChain J.trace n l) (hd : l.Nodup) (hf : l.length ≤ fuel) (h0 : n ≠ 0) (hn : n ≠ no)
    (hT : no ∈ l → ∃ T, J.trace no = .saved T ∧ T.nextroot = next) :
    ∃ J', unlinkRoot no next fuel J n = some J' ∧ RootChain J'.trace n (l.erase no) := by
  induction fuel generalizing n l with
  | zero =>
      cases h with
      | nil => exact absurd rfl h0
      | cons _ _ _ => simp at hf
  | succ fuel ih =>
      cases h with
      | nil => exact absurd rfl h0
      | @cons _ T l _ hs h =>
          have hd' := List.nodup_cons.mp hd
          rw [List.erase_cons_tail (by simpa using hn)]
          simp only [unlinkRoot, traceref_saved hs]
          split
          · next hz =>
              rw [hz] at h
              obtain rfl := h.eq_nil
              exact ⟨J, rfl, .cons h0 hs (hz ▸ .nil)⟩
          · next hz =>
              split
              · next he =>
                  -- the trace is the next one
                  obtain ⟨T', l', rfl, hs', h⟩ := h.inv hz
                  obtain ⟨T'', hs'', rfl⟩ := hT (by simp [he])
                  rw [he] at hs'
                  obtain rfl : T' = T'' := by simpa using hs'.symm.trans hs''
                  refine ⟨_, rfl, ?_⟩
                  rw [modifyTrace_saved _ hs, he, List.erase_cons_head]
                  refine .cons h0 (Function.update_self ..) (h.congr ?_)
                  intro m hm T hT
                  refine ⟨T, ?_, rfl⟩
                  rw [← hT]
                  refine Function.update_of_ne ?_ ..
                  rintro rfl
                  exact hd'.1 (List.mem_cons_of_mem _ hm)
              · next he =>
                  obtain ⟨J', hJ', hc⟩ := ih h hd'.2 (by simpa using hf) hz he
                    fun hm => hT (List.mem_cons_of_mem _ hm)
                  refine ⟨J', hJ', ?_⟩
                  -- the link of the first trace is not the one that changed
                  rcases unlinkRoot_cases hJ' with rfl | ⟨m, T', hT', hno, _, rfl⟩
                  · exact .cons h0 hs hc
                  · refine .cons h0 (T := T) ?_ hc
                    have hmn : n ≠ m := by
                      rintro rfl
                      rw [traceref_saved hs] at hT'
                      obtain rfl := Option.some_injective _ hT'
                      exact he hno
                    unfold modifyTrace
                    split
                    · exact hs
                    · exact hs
                    · rw [← hs]
                      exact Function.update_of_ne hmn ..

/-- A chain without repetition is not longer than the trace array. -/
theorem RootChain.length_le {J : JitState} {n : ℕ} {l : List ℕ} (hs : Slots J)
    (h : RootChain J.trace n l) (hd : l.Nodup) : l.length ≤ J.sizetrace := by
  have hsub : l.toFinset ⊆ Finset.range J.sizetrace := by
    intro m hm
    obtain ⟨_, T, hT⟩ := h.saved (List.mem_toFinset.mp hm)
    rw [Finset.mem_range]
    by_contra hge
    rw [hs.range m (by omega)] at hT
    cases hT
  calc l.length = l.toFinset.card := (List.toFinset_card_of_nodup hd).symm
    _ ≤ (Finset.range J.sizetrace).card := Finset.card_le_card hsub
    _ = J.sizetrace := Finset.card_range _

/-! ### What flushing leaves alone -/

/-- Saved traces stay where they are; only links to the next root trace may change. -/
def SlotFrame (tr tr' : ℕ → Slot) : Prop :=
  ∀ n, tr' n = tr n ∨ ∃ T x, tr n = .saved T ∧ tr' n = .saved { T with nextroot := x }

/-- What a flush changes: links between root traces, chain anchors, and instructions, which are
set back to the original. -/
structure Flushed (orig : ℕ → ℕ → BCIns) (J J' : JitState) : Prop where
  sizetrace : J'.sizetrace = J.sizetrace
  freetrace : J'.freetrace = J.freetrace
  state : J'.state = J.state
  parent : J'.parent = J.parent
  exitno : J'.exitno = J.exitno
  cur : ∃ x, J'.cur = { J.cur with nextroot := x }
  slot : SlotFrame J.trace J'.trace
  pt : ∀ p, ∃ bc tr, J'.pt p = { J.pt p with bc := bc, trace := tr } ∧
    ((J.pt p).dead = false → ∀ i, bc i = (J.pt p).bc i ∨ bc i = orig p i)

theorem SlotFrame.refl (tr : ℕ → Slot) : SlotFrame tr tr := fun _ => .inl rfl

theorem SlotFrame.trans {tr₁ tr₂ tr₃ : ℕ → Slot} (h : SlotFrame tr₁ tr₂) (h' : SlotFrame tr₂ tr₃) :
    SlotFrame tr₁ tr₃ := by
  intro n
  rcases h' n with he | ⟨T, x, hT, he⟩
  · rw [he]
    exact h n
  · rcases h n with he' | ⟨T', x', hT', he'⟩
    · exact .inr ⟨T, x, he' ▸ hT, he⟩
    · obtain rfl : { T' with nextroot := x' } = T := by simpa using he'.symm.trans hT
      exact .inr ⟨T', x, hT', he⟩

theorem SlotFrame.saved {tr tr' : ℕ → Slot} (h : SlotFrame tr tr') {n : ℕ} {T : GCtrace}
    (hT : tr n = .saved T) : ∃ x, tr' n = .saved { T with nextroot := x } := by
  rcases h n with he | ⟨T', x, hT', he⟩
  · exact ⟨T.nextroot, he.trans hT⟩
  · obtain rfl : T' = T := by simpa using hT'.symm.trans hT
    exact ⟨x, he⟩

theorem SlotFrame.of_saved {tr tr' : ℕ → Slot} (h : SlotFrame tr tr') {n : ℕ} {T : GCtrace}
    (hT : tr' n = .saved T) : ∃ x, tr n = .saved { T with nextroot := x } := by
  rcases h n with he | ⟨T', x, hT', he⟩
  · exact ⟨T.nextroot, he.symm.trans hT⟩
  · obtain rfl : { T' with nextroot := x } = T := by simpa using he.symm.trans hT
    exact ⟨T'.nextroot, hT'⟩

theorem SlotFrame.null_iff {tr tr' : ℕ → Slot} (h : SlotFrame tr tr') (n : ℕ) :
    tr' n = .null ↔ tr n = .null := by
  rcases h n with he | ⟨T, x, hT, he⟩
  · rw [he]
  · simp [hT, he]

theorem SlotFrame.cur_iff {tr tr' : ℕ → Slot} (h : SlotFrame tr tr') (n : ℕ) :
    tr' n = .cur ↔ tr n = .cur := by
  rcases h n with he | ⟨T, x, hT, he⟩
  · rw [he]
  · simp [hT, he]

theorem Flushed.refl (orig : ℕ → ℕ → BCIns) (J : JitState) : Flushed orig J J where
  sizetrace := rfl
  freetrace := rfl
  state := rfl
  parent := rfl
  exitno := rfl
  cur := ⟨J.cur.nextroot, rfl⟩
  slot := SlotFrame.refl _
  pt p := ⟨(J.pt p).bc, (J.pt p).trace, rfl, fun _ _ => .inl rfl⟩

theorem Flushed.trans {orig : ℕ → ℕ → BCIns} {J₁ J₂ J₃ : JitState} (h : Flushed orig J₁ J₂)
    (h' : Flushed orig J₂ J₃) : Flushed orig J₁ J₃ where
  sizetrace := h'.sizetrace.trans h.sizetrace
  freetrace := h'.freetrace.trans h.freetrace
  state := h'.state.trans h.state
  parent := h'.parent.trans h.parent
  exitno := h'.exitno.trans h.exitno
  cur := by
    obtain ⟨x, hx⟩ := h.cur
    obtain ⟨y, hy⟩ := h'.cur
    exact ⟨y, by rw [hy, hx]⟩
  slot := h.slot.trans h'.slot
  pt p := by
    obtain ⟨bc, tr, he, hb⟩ := h.pt p
    obtain ⟨bc', tr', he', hb'⟩ := h'.pt p
    refine ⟨bc', tr', by rw [he', he], ?_⟩
    intro hd i
    rcases hb' (by rw [he]; exact hd) i with h₁ | h₁
    · rw [h₁, he]
      exact hb hd i
    · exact .inr h₁

theorem Flushed.dead {orig : ℕ → ℕ → BCIns} {J J' : JitState} (h : Flushed orig J J') (p : ℕ) :
    (J'.pt p).dead = (J.pt p).dead := by
  obtain ⟨bc, tr, he, _⟩ := h.pt p
  rw [he]

theorem Slots.flushed {orig : ℕ → ℕ → BCIns} {J J' : JitState} (hs : Slots J)
    (h : Flushed orig J J') : Slots J' where
  zero := (h.slot.null_iff 0).mpr hs.zero
  range n hn := (h.slot.null_iff n).mpr (hs.range n (h.sizetrace ▸ hn))
  size := h.sizetrace ▸ hs.size
  no n T hT := by
    obtain ⟨x, hx⟩ := h.slot.of_saved hT
    have he := hs.no n _ hx
    exact he
  cur n := by
    obtain ⟨x, hx⟩ := h.cur
    rw [h.slot.cur_iff, hs.cur, hx]

/-! ### Steps that leave a prototype alone -/

/-- Two traces that differ at most in their links to other traces. -/
def SameTrace (T T' : GCtrace) : Prop :=
  T' = { T with link := T'.link, nextside := T'.nextside, nchild := T'.nchild }

theorem SameTrace.refl (T : GCtrace) : SameTrace T T := rfl

section Frame

variable {orig : ℕ → BCIns} {live live' : ℕ → Option ℕ} {J J' : JitState} {p : ℕ}

/-- The state keeps the bytecode and the chain anchor of `p`, and the live root traces of `p`. -/
structure Untouched (live live' : ℕ → Option ℕ) (J J' : JitState) (p : ℕ) : Prop where
  sizebc : (J'.pt p).sizebc = (J.pt p).sizebc
  bc : (J'.pt p).bc = (J.pt p).bc
  iloop : (J'.pt p).iloop = (J.pt p).iloop
  trace : (J'.pt p).trace = (J.pt p).trace
  alive : ∀ n, live' n = some p ↔ live n = some p
  slot : ∀ n T, live n = some p → J.trace n = .saved T →
    ∃ T', J'.trace n = .saved T' ∧ SameTrace T T'

theorem Patched.untouched {i : ℕ} (h : Patched orig live J p i) (hu : Untouched live live' J J' p) :
    Patched orig live' J' p i := by
  cases h with
  | plain h => exact .plain (by rw [hu.bc, h])
  | blacklisted ho hi hf h =>
      exact .blacklisted ho (by rw [hu.sizebc]; exact hi) (by rw [hu.iloop, hf]) (by rw [hu.bc, h])
  | loop n T ho hl hT hs h =>
      obtain ⟨T', hT', he⟩ := hu.slot n T hl hT
      exact .loop n T' ho ((hu.alive n).mpr hl) hT' (by rw [he, hs]) (by rw [hu.bc, h])
  | ret n T ho hl hT hs h =>
      obtain ⟨T', hT', he⟩ := hu.slot n T hl hT
      exact .ret n T' ho ((hu.alive n).mpr hl) hT' (by rw [he, hs]) (by rw [hu.bc, h, he])
  | fori k hk hi hj h => exact .fori k hk hi (by rw [hu.bc, hj]) (by rw [hu.bc, h])

theorem ProtoOk.untouched (h : ProtoOk orig live J p) (hu : Untouched live live' J J' p)
    (hst : ∀ n T, J'.trace n = .saved T → T.root = 0 → T.startpt = p →
      T.startins = orig T.startpc) :
    ProtoOk orig live' J' p where
  chain := by
    obtain ⟨l, hl, hd, hm⟩ := h.chain
    refine ⟨l, ?_, hd, fun n => (hm n).trans (hu.alive n).symm⟩
    rw [hu.trace]
    refine hl.congr ?_
    intro n hn T hT
    obtain ⟨T', hT', he⟩ := hu.slot n T ((hm n).mp hn) hT
    exact ⟨T', hT', by rw [he]⟩
  member n hn := by
    obtain ⟨T, hT, hr, hp, hd, ho⟩ := h.member n ((hu.alive n).mp hn)
    obtain ⟨T', hT', he⟩ := hu.slot n T ((hu.alive n).mp hn) hT
    refine ⟨T', hT', ?_⟩
    rw [he]
    exact ⟨hr, hp, hd, ho⟩
  started := hst
  patched i := (h.patched i).untouched hu
  pair i hi := by
    rw [hu.bc] at hi ⊢
    exact h.pair i hi

end Frame

/-! ### Flushing a root trace -/

section Flush

variable {orig : ℕ → ℕ → BCIns} {live : ℕ → Option ℕ} {J J' : JitState}

/-- Restoring instructions leaves only patches of traces that stay live. -/
theorem Patched.restored {orig : ℕ → BCIns} {live' : ℕ → Option ℕ} {p i pc tr : ℕ}
    {bc : ℕ → BCIns} (ho : Original orig) (h : Patched orig live J p i)
    (hb : Restored orig (J.pt p).bc pc bc) (hpt : J'.pt p = { J.pt p with bc := bc, trace := tr })
    (hf : SlotFrame J.trace J'.trace)
    (hl : ∀ n T, live n = some p → J.trace n = .saved T → live' n = some p ∨ T.startpc = pc) :
    Patched orig live' J' p i := by
  rcases hb.eq_or i with he | he
  · -- an instruction that was not restored; if compiled, it is not the one that was unpatched
    have hpc : compiledOp ((J.pt p).bc i).op → i ≠ pc := by
      rintro hc rfl
      rw [← he, hb.not_compiled ho] at hc
      cases hc
    cases h with
    | plain h => exact .plain (by rw [hpt, ← h, ← he])
    | blacklisted hop hi hfl h =>
        exact .blacklisted hop (by rw [hpt]; exact hi) (by rw [hpt]; exact hfl)
          (by rw [hpt, ← h, ← he])
    | loop n T hop hln hT hs h =>
        obtain ⟨x, hx⟩ := hf.saved hT
        refine .loop n _ hop ?_ hx hs (by rw [hpt, ← h, ← he])
        rcases hl n T hln hT with hl | hl
        · exact hl
        · refine absurd (hs.symm.trans hl) (hpc ?_)
          rw [h]
          rcases hotOp_cases hop with h | h | h | h <;> rw [jForm, h] <;> rfl
    | ret n T hop hln hT hs h =>
        obtain ⟨x, hx⟩ := hf.saved hT
        refine .ret n _ hop ?_ hx hs (by rw [hpt, ← h, ← he])
        rcases hl n T hln hT with hl | hl
        · exact hl
        · refine absurd (hs.symm.trans hl) (hpc ?_)
          rw [h]
          rfl
    | fori k hk hi hj h =>
        refine .fori k hk hi ?_ (by rw [hpt, ← h, ← he])
        rw [hpt]
        refine hb.jforl_of_jfori ho hk hj ?_
        rw [hi, he, h]
  · exact .plain (by rw [hpt, ← he])

/-- After its number is taken out, the other live traces stay live. -/
theorem update_none_iff {n m p : ℕ} :
    Function.update live n none m = some p ↔ m ≠ n ∧ live m = some p := by
  by_cases h : m = n
  · subst h
    simp
  · simp [Function.update_of_ne h, h]

/-- The prototype of the flushed trace. -/
theorem ProtoOk.restored {orig : ℕ → BCIns} {p n tr : ℕ} {T : GCtrace} {bc : ℕ → BCIns}
    (ho : Original orig) (h : ProtoOk orig live J p)
    (hb : Restored orig (J.pt p).bc T.startpc bc)
    (hpt : J'.pt p = { J.pt p with bc := bc, trace := tr })
    (hf : SlotFrame J.trace J'.trace) (hT : traceref J n = some T)
    (hc : ∃ l, RootChain J'.trace tr l ∧ l.Nodup ∧ ∀ m, m ∈ l ↔ m ≠ n ∧ live m = some p) :
    ProtoOk orig (Function.update live n none) J' p where
  chain := by
    obtain ⟨l, hl, hd, hm⟩ := hc
    refine ⟨l, by rw [hpt]; exact hl, hd, fun m => ?_⟩
    rw [hm, update_none_iff]
  member m hm := by
    obtain ⟨T', hT', hr, hp, hd, hop⟩ := h.member m (update_none_iff.mp hm).2
    obtain ⟨x, hx⟩ := hf.saved hT'
    exact ⟨_, hx, hr, hp, hd, hop⟩
  started m T' hT' hr hp := by
    obtain ⟨x, hx⟩ := hf.of_saved hT'
    have he := h.started m _ hx hr hp
    exact he
  patched i := by
    refine (h.patched i).restored ho hb hpt hf ?_
    intro m T' hm hT'
    by_cases hmn : m = n
    · subst hmn
      rw [traceref_saved hT'] at hT
      obtain rfl := Option.some_injective _ hT
      exact .inr rfl
    · exact .inl (update_none_iff.mpr ⟨hmn, hm⟩)
  pair i hi := by
    rw [hpt] at hi ⊢
    have hi' : ((J.pt p).bc i).op = .jforl := by
      rcases hb.eq_or i with he | he
      · rw [← he]
        exact hi
      · have := compiledOp_orig ho i
        rw [← he, hi] at this
        cases this
    have hk := (h.patched i).forl ho hi'
    obtain ⟨_, he⟩ := hb.jforl ho h.pair hk hi
    change (bc (foriOf orig i)).op = _
    rw [he]
    exact h.pair i hi'

theorem traceUnpatch_eq (T : GCtrace) (pt : Proto) :
    ∃ bc, traceUnpatch T pt = { pt with bc := bc } := by
  simp only [traceUnpatch]
  split
  · exact ⟨pt.bc, rfl⟩
  · split
    · exact ⟨_, rfl⟩
    · exact ⟨_, rfl⟩
    · exact ⟨_, rfl⟩
    · split
      · exact ⟨_, rfl⟩
      · exact ⟨pt.bc, rfl⟩
    · exact ⟨_, rfl⟩
    · exact ⟨pt.bc, rfl⟩

/-- Everything a flush of a root trace can do: it unpatches, and then either moves the anchor of the
chain, or changes nothing else, or redirects the link that led to the trace. -/
theorem traceFlushroot_cases {T : GCtrace} (h : traceFlushroot J T = some J') :
    ∃ bc tr, traceUnpatch T (J.pt T.startpt) = { J.pt T.startpt with bc := bc } ∧
      ((J.pt T.startpt).trace = T.traceno ∧ tr = T.nextroot ∧
          J' = setPt J T.startpt { J.pt T.startpt with bc := bc, trace := tr } ∨
        (J.pt T.startpt).trace ≠ T.traceno ∧ tr = (J.pt T.startpt).trace ∧
          J' = setPt J T.startpt { J.pt T.startpt with bc := bc, trace := tr } ∨
        (J.pt T.startpt).trace ≠ T.traceno ∧ tr = (J.pt T.startpt).trace ∧
          (∃ m T2, traceref J m = some T2 ∧ T2.nextroot = T.traceno ∧ T.traceno ≠ 0 ∧
            J' = modifyTrace (setPt J T.startpt { J.pt T.startpt with bc := bc, trace := tr }) m
              fun T2 => { T2 with nextroot := T.nextroot })) := by
  obtain ⟨bc, hbc⟩ := traceUnpatch_eq T (J.pt T.startpt)
  simp only [traceFlushroot, hbc] at h
  split at h
  · next hn => exact ⟨bc, T.nextroot, hbc, .inl ⟨hn, rfl, (Option.some_injective _ h).symm⟩⟩
  · next hn =>
      refine ⟨bc, (J.pt T.startpt).trace, hbc, .inr ?_⟩
      split at h
      · split at h
        · exact .inl ⟨hn, rfl, (Option.some_injective _ h).symm⟩
        · rcases unlinkRoot_cases h with rfl | ⟨m, T2, hT2, hno, h0, rfl⟩
          · exact .inl ⟨hn, rfl, rfl⟩
          · exact .inr ⟨hn, rfl, m, T2, hT2, hno, h0, rfl⟩
      · exact .inl ⟨hn, rfl, (Option.some_injective _ h).symm⟩

/-- Redirecting a link changes links only. -/
theorem flushed_modifyTrace (orig : ℕ → ℕ → BCIns) (J : JitState) (m x : ℕ) :
    Flushed orig J (modifyTrace J m fun T => { T with nextroot := x }) := by
  unfold modifyTrace
  split
  · exact Flushed.refl orig J
  · exact { Flushed.refl orig J with cur := ⟨x, rfl⟩ }
  · next T hT =>
      refine { Flushed.refl orig J with slot := ?_ }
      intro n
      by_cases hn : n = m
      · subst hn
        exact .inr ⟨T, x, hT, Function.update_self ..⟩
      · exact .inl (Function.update_of_ne hn ..)

theorem flushed_setPt {p tr : ℕ} {bc : ℕ → BCIns}
    (hb : (J.pt p).dead = false → ∀ i, bc i = (J.pt p).bc i ∨ bc i = orig p i) :
    Flushed orig J (setPt J p { J.pt p with bc := bc, trace := tr }) := by
  refine { Flushed.refl orig J with pt := ?_ }
  intro q
  by_cases hq : q = p
  · subst hq
    exact ⟨bc, tr, Function.update_self .., hb⟩
  · exact ⟨(J.pt q).bc, (J.pt q).trace, Function.update_of_ne hq .., fun _ _ => .inl rfl⟩

theorem Slots.traceref_no (hs : Slots J) {n : ℕ} {T : GCtrace} (h : traceref J n = some T) :
    T.traceno = n ∧ n ≠ 0 := by
  unfold traceref at h
  split at h
  · cases h
  · next hc =>
      obtain rfl := Option.some_injective _ h
      obtain ⟨rfl, h0⟩ := (hs.cur n).mp hc
      exact ⟨rfl, h0⟩
  · next T' hT' =>
      obtain rfl := Option.some_injective _ h
      refine ⟨hs.no n _ hT', ?_⟩
      rintro rfl
      rw [hs.zero] at hT'
      cases hT'

/-- A live root trace is a trace of its own prototype. -/
theorem Core.startpt_eq (hc : Core orig live J) {n q : ℕ} {T : GCtrace}
    (hT : traceref J n = some T) (hl : live n = some q) (hq : (J.pt q).dead = false) :
    T.startpt = q := by
  obtain ⟨T', hT', _, hp, _⟩ := (hc.proto q hq).member n hl
  rw [traceref_saved hT'] at hT
  obtain rfl := Option.some_injective _ hT
  exact hp

/-- A link that leads to a trace of another prototype is not in a live chain. -/
theorem Core.next_startpt (hc : Core orig live J) {n m q : ℕ} {T T2 : GCtrace}
    (hT : traceref J n = some T) (hn : n ≠ 0) (hT2 : J.trace m = .saved T2)
    (hno : T2.nextroot = n) (hl : live m = some q) (hq : (J.pt q).dead = false) :
    T.startpt = q := by
  obtain ⟨l, hch, _, hm⟩ := (hc.proto q hq).chain
  have hmem := hch.next_mem ((hm m).mpr hl) hT2 (by rw [hno]; exact hn)
  rw [hno] at hmem
  exact hc.startpt_eq hT ((hm n).mp hmem) hq

/-- A flush of a root trace leaves the other prototypes alone. -/
theorem Core.untouched_flushroot (hc : Core orig live J) {n q : ℕ} {T : GCtrace}
    (hT : traceref J n = some T) (hq : (J.pt q).dead = false) (hne : q ≠ T.startpt)
    (h : Trace.traceFlushroot J T = some J') :
    Untouched live (Function.update live n none) J J' q := by
  obtain ⟨hno, hn⟩ := hc.slots.traceref_no hT
  have hlive : ∀ m, Function.update live n none m = some q ↔ live m = some q := by
    intro m
    rw [update_none_iff, and_iff_right_iff_imp]
    rintro hl rfl
    exact hne (hc.startpt_eq hT hl hq).symm
  have hframe : ∀ pt', Untouched live (Function.update live n none) J (setPt J T.startpt pt') q := by
    intro pt'
    have hpt : (setPt J T.startpt pt').pt q = J.pt q := Function.update_of_ne hne ..
    constructor
    · rw [hpt]
    · rw [hpt]
    · rw [hpt]
    · rw [hpt]
    · exact hlive
    · exact fun m T' _ hT' => ⟨T', hT', .refl T'⟩
  obtain ⟨bc, tr, _, ⟨_, _, rfl⟩ | ⟨_, _, rfl⟩ | ⟨_, _, m, T2, hT2, hno2, _, rfl⟩⟩ :=
    traceFlushroot_cases h
  · exact hframe _
  · exact hframe _
  · have hu := hframe { J.pt T.startpt with bc := bc, trace := tr }
    unfold modifyTrace
    split
    · exact hu
    · exact { hu with }
    · next T3 hT3 =>
        refine { hu with slot := ?_ }
        intro k T' hk hT'
        refine ⟨T', ?_, .refl T'⟩
        rw [← hT']
        refine Function.update_of_ne ?_ ..
        rintro rfl
        have hT3' : J.trace k = .saved T3 := hT3
        rw [traceref_saved hT3'] at hT2
        obtain rfl := Option.some_injective _ hT2
        exact hne (hc.next_startpt hT hn hT3' (hno2.trans hno) hk hq).symm

/-- The frame of a flush of a root trace. -/
theorem Core.flushed_flushroot (ho : ∀ p, Original (orig p)) (hc : Core orig live J)
    {T : GCtrace}
    (hs : (J.pt T.startpt).dead = false → T.startins = orig T.startpt T.startpc)
    (h : Trace.traceFlushroot J T = some J') : Flushed orig J J' := by
  obtain ⟨bc, tr, hu, hcase⟩ := traceFlushroot_cases h
  have hb : (J.pt T.startpt).dead = false → ∀ i, bc i = (J.pt T.startpt).bc i ∨
      bc i = orig T.startpt i := by
    intro hd i
    obtain ⟨bc', hu', hr⟩ := traceUnpatch_cases (ho _) (hc.proto _ hd) (hs hd)
    obtain rfl : bc = bc' := congrArg Proto.bc (hu.symm.trans hu')
    exact hr.eq_or i
  rcases hcase with ⟨_, _, rfl⟩ | ⟨_, _, rfl⟩ | ⟨_, _, m, T2, _, _, _, rfl⟩
  · exact flushed_setPt hb
  · exact flushed_setPt hb
  · exact (flushed_setPt hb).trans (flushed_modifyTrace orig _ m _)

/-- The chain of the flushed trace: the trace is taken out. -/
theorem Core.chain_flushroot (hc : Core orig live J) {n : ℕ} {T : GCtrace}
    (hT : traceref J n = some T) (hd : (J.pt T.startpt).dead = false) :
    ∃ J', Trace.traceFlushroot J T = some J' ∧
      ∃ l, RootChain J'.trace (J'.pt T.startpt).trace l ∧ l.Nodup ∧
        ∀ m, m ∈ l ↔ m ≠ n ∧ live m = some T.startpt := by
  obtain ⟨hno, hn⟩ := hc.slots.traceref_no hT
  obtain ⟨l, hl, hdup, hm⟩ := (hc.proto _ hd).chain
  obtain ⟨bc, hbc⟩ := traceUnpatch_eq T (J.pt T.startpt)
  have herase : ∀ m, m ∈ l.erase n ↔ m ≠ n ∧ live m = some T.startpt := by
    intro m
    rw [hdup.mem_erase_iff, hm]
  simp only [Trace.traceFlushroot, hbc]
  split
  · next he =>
      -- the trace is first in its chain
      rw [he, hno] at hl
      obtain ⟨T', l', rfl, hT', hl'⟩ := hl.inv hn
      rw [traceref_saved hT'] at hT
      obtain rfl := Option.some_injective _ hT
      refine ⟨_, rfl, l', ?_, hdup.of_cons, ?_⟩
      · simpa [setPt] using hl'
      · simpa using herase
  · next he =>
      split
      · next h0 =>
          obtain ⟨T', l', rfl, hT', _⟩ := hl.inv h0
          rw [traceref_saved hT']
          -- the search starts behind the anchor
          set J₀ := setPt J T.startpt { J.pt T.startpt with bc := bc } with hJ₀
          have hl₀ : RootChain J₀.trace (J.pt T.startpt).trace _ := hl
          obtain ⟨J', hJ', hch⟩ := unlinkRoot_chain T.traceno T.nextroot hl₀ hdup
            (hl.length_le hc.slots hdup) h0 he (by
              intro hmem
              rw [hno] at hmem
              obtain ⟨_, T'', hT''⟩ := hl.saved hmem
              rw [traceref_saved hT''] at hT
              obtain rfl := Option.some_injective _ hT
              exact ⟨T'', by rw [hno]; exact hT'', rfl⟩)
          rw [hno] at hch
          refine ⟨J', hJ', _, ?_, hdup.erase n, herase⟩
          have hpt : (J'.pt T.startpt).trace = (J.pt T.startpt).trace := by
            rcases unlinkRoot_cases hJ' with rfl | ⟨m, _, _, _, _, rfl⟩
            · simp [hJ₀, setPt]
            · unfold modifyTrace
              split <;> simp [hJ₀, setPt]
          rw [hpt]
          exact hch
      · next h0 =>
          rw [not_not] at h0
          rw [h0] at hl
          obtain rfl := hl.eq_nil
          refine ⟨_, rfl, [], ?_, List.nodup_nil, by simpa using herase⟩
          simpa [setPt, h0] using RootChain.nil

/-- Flushing a root trace keeps the invariant and takes the trace out of the live ones. -/
theorem Core.traceFlushroot (ho : ∀ p, Original (orig p)) (hc : Core orig live J) {n : ℕ}
    {T : GCtrace} (hT : traceref J n = some T)
    (hs : (J.pt T.startpt).dead = false → T.startins = orig T.startpt T.startpc)
    (h : Trace.traceFlushroot J T = some J') :
    Core orig (Function.update live n none) J' ∧ Flushed orig J J' := by
  have hf := hc.flushed_flushroot ho hs h
  refine ⟨⟨hc.slots.flushed hf, ?_⟩, hf⟩
  intro q hq
  rw [hf.dead] at hq
  by_cases hqp : q = T.startpt
  · -- the prototype of the trace
    subst hqp
    have hp := hc.proto _ hq
    obtain ⟨bc, tr, hpt, hb⟩ := hf.pt T.startpt
    obtain ⟨bc₁, hu, hr⟩ := traceUnpatch_cases (ho _) hp (hs hq)
    obtain ⟨J₂, hJ₂, hch⟩ := hc.chain_flushroot hT hq
    obtain rfl : J' = J₂ := Option.some_injective _ (h.symm.trans hJ₂)
    have hbc : bc = bc₁ := by
      have hpt₂ : (J'.pt T.startpt).bc = bc₁ := by
        obtain ⟨bc', tr', hu', hcase⟩ := traceFlushroot_cases h
        obtain rfl : bc₁ = bc' := congrArg Proto.bc (hu.symm.trans hu')
        rcases hcase with ⟨_, _, rfl⟩ | ⟨_, _, rfl⟩ | ⟨_, _, m, T2, _, _, _, rfl⟩
        · simp [setPt]
        · simp [setPt]
        · unfold modifyTrace
          split <;> simp [setPt]
      rw [hpt] at hpt₂
      exact hpt₂
    subst hbc
    rw [hpt] at hch
    exact hp.restored (ho _) hr hpt hf.slot hT hch
  · refine (hc.proto q hq).untouched (hc.untouched_flushroot hT hq hqp h) ?_
    intro m T' hT' hr hp
    obtain ⟨x, hx⟩ := hf.slot.of_saved hT'
    have he := (hc.proto q hq).started m _ hx hr hp
    exact he

/-! ### The flushing loops -/

/-- What every flush keeps: the recording in progress, and all of a prototype but patches and the
anchor of its chain. -/
structure FlushFrame (orig : ℕ → ℕ → BCIns) (J J' : JitState) : Prop where
  sizetrace : J'.sizetrace = J.sizetrace
  state : J'.state = J.state
  parent : J'.parent = J.parent
  exitno : J'.exitno = J.exitno
  root : J'.cur.root = J.cur.root
  startpt : J'.cur.startpt = J.cur.startpt
  startpc : J'.cur.startpc = J.cur.startpc
  startins : J'.cur.startins = J.cur.startins
  curDead : J'.cur.dead = J.cur.dead
  traceno : J'.cur.traceno ≠ 0 → J'.cur.traceno = J.cur.traceno
  pt : ∀ p, ∃ bc tr, J'.pt p = { J.pt p with bc := bc, trace := tr } ∧
    ((J.pt p).dead = false → ∀ i, bc i = (J.pt p).bc i ∨ bc i = orig p i)

theorem Flushed.frame (h : Flushed orig J J') : FlushFrame orig J J' := by
  obtain ⟨x, hx⟩ := h.cur
  exact ⟨h.sizetrace, h.state, h.parent, h.exitno, by rw [hx], by rw [hx], by rw [hx], by rw [hx],
    by rw [hx], fun _ => by rw [hx], h.pt⟩

theorem FlushFrame.refl (orig : ℕ → ℕ → BCIns) (J : JitState) : FlushFrame orig J J :=
  (Flushed.refl orig J).frame

theorem FlushFrame.trans {J₁ J₂ J₃ : JitState} (h : FlushFrame orig J₁ J₂)
    (h' : FlushFrame orig J₂ J₃) : FlushFrame orig J₁ J₃ where
  sizetrace := h'.sizetrace.trans h.sizetrace
  state := h'.state.trans h.state
  parent := h'.parent.trans h.parent
  exitno := h'.exitno.trans h.exitno
  root := h'.root.trans h.root
  startpt := h'.startpt.trans h.startpt
  startpc := h'.startpc.trans h.startpc
  startins := h'.startins.trans h.startins
  curDead := h'.curDead.trans h.curDead
  traceno h0 := (h'.traceno h0).trans (h.traceno (h'.traceno h0 ▸ h0))
  pt p := by
    obtain ⟨bc, tr, he, hb⟩ := h.pt p
    obtain ⟨bc', tr', he', hb'⟩ := h'.pt p
    refine ⟨bc', tr', by rw [he', he], ?_⟩
    intro hd i
    rcases hb' (by rw [he]; exact hd) i with h₁ | h₁
    · rw [h₁, he]
      exact hb hd i
    · exact .inr h₁

theorem FlushFrame.dead (h : FlushFrame orig J J') (p : ℕ) :
    (J'.pt p).dead = (J.pt p).dead := by
  obtain ⟨bc, tr, he, _⟩ := h.pt p
  rw [he]

/-- The trace under construction, if it is a root trace, knows the original of the instruction it
started at. -/
def CurOk (orig : ℕ → ℕ → BCIns) (J : JitState) : Prop :=
  J.cur.traceno ≠ 0 → J.cur.root = 0 → (J.pt J.cur.startpt).dead = false →
    J.cur.startins = orig J.cur.startpt J.cur.startpc

theorem CurOk.frame (h : CurOk orig J) (hf : FlushFrame orig J J') : CurOk orig J' := by
  intro h0 hr hd
  rw [hf.startpt, hf.startpc, hf.startins]
  refine h ?_ ?_ ?_
  · rw [← hf.traceno h0]
    exact h0
  · rw [← hf.root]
    exact hr
  · rw [← hf.dead, ← hf.startpt]
    exact hd

/-- Every root trace in the array knows the original of its starting instruction. -/
theorem Core.traceref_startins (hc : Core orig live J) (hcur : CurOk orig J) {n : ℕ} {T : GCtrace}
    (hT : traceref J n = some T) (hr : T.root = 0) (hd : (J.pt T.startpt).dead = false) :
    T.startins = orig T.startpt T.startpc := by
  obtain ⟨hno, hn⟩ := hc.slots.traceref_no hT
  unfold traceref at hT
  split at hT
  · cases hT
  · obtain rfl := Option.some_injective _ hT
    exact hcur (by rw [hno]; exact hn) hr hd
  · next T' hT' =>
      obtain rfl := Option.some_injective _ hT
      exact (hc.proto _ hd).started n _ hT' hr rfl

/-- Only the live traces of prototypes that are not dead matter. -/
theorem Core.congr_live {live' : ℕ → Option ℕ} (hc : Core orig live J)
    (hl : ∀ q, (J.pt q).dead = false → ∀ n, live' n = some q ↔ live n = some q) :
    Core orig live' J where
  slots := hc.slots
  proto q hq :=
    (hc.proto q hq).untouched
      ⟨rfl, rfl, rfl, rfl, hl q hq, fun _ T _ hT => ⟨T, hT, .refl T⟩⟩ (hc.proto q hq).started

/-- A number that is no live root trace may be forgotten. -/
theorem Core.forget (hc : Core orig live J) {n : ℕ}
    (hn : ∀ q, (J.pt q).dead = false → live n ≠ some q) :
    Core orig (Function.update live n none) J := by
  refine hc.congr_live ?_
  intro q hq m
  rw [update_none_iff, and_iff_right_iff_imp]
  rintro hm rfl
  exact hn q hq hm

theorem Core.ne_some_of_root (hc : Core orig live J) {n : ℕ} {T : GCtrace}
    (hT : traceref J n = some T) (hr : T.root ≠ 0) :
    ∀ q, (J.pt q).dead = false → live n ≠ some q := by
  intro q hq hl
  obtain ⟨T', hT', hr', _⟩ := (hc.proto q hq).member n hl
  rw [traceref_saved hT'] at hT
  obtain rfl := Option.some_injective _ hT
  exact hr hr'

theorem Core.ne_some_of_none (hc : Core orig live J) {n : ℕ} (hT : traceref J n = none) :
    ∀ q, (J.pt q).dead = false → live n ≠ some q := by
  intro q hq hl
  obtain ⟨T', hT', _⟩ := (hc.proto q hq).member n hl
  rw [traceref_saved hT'] at hT
  cases hT

/-- `lj_trace_flush` keeps the invariant. -/
theorem Core.flush (ho : ∀ p, Original (orig p)) (hc : Core orig live J) (hcur : CurOk orig J)
    {n : ℕ} (h : ljTraceFlush J n = some J') :
    Core orig (Function.update live n none) J' ∧ Flushed orig J J' := by
  unfold ljTraceFlush at h
  split at h
  · split at h
    · next hT =>
        obtain rfl := Option.some_injective _ h
        exact ⟨hc.forget (hc.ne_some_of_none hT), .refl ..⟩
    · next T hT =>
        split at h
        · next hr => exact hc.traceFlushroot ho hT (hc.traceref_startins hcur hT hr) h
        · next hr =>
            obtain rfl := Option.some_injective _ h
            exact ⟨hc.forget (hc.ne_some_of_root hT hr), .refl ..⟩
  · next hlt =>
      obtain rfl := Option.some_injective _ h
      refine ⟨hc.forget (hc.ne_some_of_none ?_), .refl ..⟩
      have hnull : J.trace n = .null := by
        by_cases hn : n = 0
        · rw [hn]
          exact hc.slots.zero
        · exact hc.slots.range n (by omega)
      simp only [traceref, hnull]

/-- The loop over the chain of a prototype ends, with all its root traces flushed. -/
theorem Core.flushprotoLoop (ho : ∀ p, Original (orig p)) {p fuel : ℕ} {l : List ℕ}
    (hc : Core orig live J) (hcur : CurOk orig J) (hd : (J.pt p).dead = false)
    (hl : RootChain J.trace (J.pt p).trace l) (hdup : l.Nodup)
    (hm : ∀ n, n ∈ l ↔ live n = some p) (hf : l.length ≤ fuel) :
    ∃ J' live', Trace.flushprotoLoop fuel J p = some J' ∧ Core orig live' J' ∧ Flushed orig J J' ∧
      ∀ n, live' n = if live n = some p then none else live n := by
  induction fuel generalizing J live l with
  | zero =>
      obtain rfl := List.length_eq_zero_iff.mp (Nat.le_zero.mp hf)
      have h0 : (J.pt p).trace = 0 := by
        by_contra h0
        exact absurd (hl.head_mem h0) (by simp)
      refine ⟨J, live, by simp [Trace.flushprotoLoop, h0], hc, .refl .., fun n => ?_⟩
      rw [if_neg]
      exact fun h => by simpa using (hm n).mpr h
  | succ fuel ih =>
      unfold Trace.flushprotoLoop
      split
      · next h0 =>
          rw [h0] at hl
          obtain rfl := hl.eq_nil
          refine ⟨J, live, rfl, hc, .refl .., fun n => ?_⟩
          rw [if_neg]
          exact fun h => by simpa using (hm n).mpr h
      · next h0 =>
          -- the first trace of the chain is flushed
          have hmem := hl.head_mem h0
          obtain ⟨T, hT, hr, hp, _, _⟩ := (hc.proto p hd).member _ ((hm _).mp hmem)
          subst hp
          have hT' := traceref_saved hT
          simp only [hT']
          obtain ⟨J₁, hJ₁, l₁, hl₁, hdup₁, hm₁⟩ := hc.chain_flushroot hT' hd
          obtain ⟨hc₁, hf₁⟩ := hc.traceFlushroot ho hT' (hc.traceref_startins hcur hT' hr) hJ₁
          simp only [hJ₁]
          have hlen : l₁.length ≤ fuel := by
            have hperm : l₁.Perm (l.erase (J.pt T.startpt).trace) := by
              refine (List.perm_ext_iff_of_nodup hdup₁ (hdup.erase _)).mpr ?_
              intro m
              rw [hm₁, hdup.mem_erase_iff, hm]
            rw [hperm.length_eq, List.length_erase_of_mem hmem]
            lia
          obtain ⟨J₂, live₂, h₂, hc₂, hf₂, hl₂⟩ := ih hc₁ (hcur.frame hf₁.frame)
            (by rw [hf₁.dead]; exact hd) hl₁ hdup₁ (fun m => by rw [hm₁, update_none_iff]) hlen
          refine ⟨J₂, live₂, h₂, hc₂, hf₁.trans hf₂, fun n => ?_⟩
          rw [hl₂ n]
          by_cases hn : n = (J.pt T.startpt).trace
          · subst hn
            simp [(hm _).mp hmem]
          · simp [Function.update_of_ne hn]

/-- `lj_trace_flushproto` ends, and flushes all root traces of the prototype. -/
theorem Core.flushproto (ho : ∀ p, Original (orig p)) {p : ℕ} (hc : Core orig live J)
    (hcur : CurOk orig J) (hd : (J.pt p).dead = false) :
    ∃ J', ljTraceFlushproto J p = some J' ∧
      Core orig (fun n => if live n = some p then none else live n) J' ∧ Flushed orig J J' := by
  obtain ⟨l, hl, hdup, hm⟩ := (hc.proto p hd).chain
  obtain ⟨J', live', h, hc', hf, hl'⟩ :=
    hc.flushprotoLoop ho hcur hd hl hdup hm (hl.length_le hc.slots hdup)
  obtain rfl : live' = _ := funext hl'
  exact ⟨J', h, hc', hf⟩

/-- Emptying a slot that holds no live root trace. -/
theorem Core.clear (hc : Core orig live J) {n : ℕ}
    (hn : ∀ q, (J.pt q).dead = false → live n ≠ some q)
    (htr : J'.trace = Function.update J.trace n .null) (hpt : J'.pt = J.pt)
    (hsz : J'.sizetrace = J.sizetrace)
    (hcur : J'.cur.traceno = if J.trace n = .cur then 0 else J.cur.traceno) : Core orig live J' where
  slots := by
    have hs := hc.slots
    constructor
    · rw [htr]
      by_cases h : 0 = n
      · rw [← h, Function.update_self]
      · rw [Function.update_of_ne h]
        exact hs.zero
    · intro m hm
      rw [htr]
      by_cases h : m = n
      · rw [h, Function.update_self]
      · rw [Function.update_of_ne h]
        exact hs.range m (hsz ▸ hm)
    · rw [hsz]
      exact hs.size
    · intro m T hT
      rw [htr] at hT
      by_cases h : m = n
      · rw [h, Function.update_self] at hT
        cases hT
      · rw [Function.update_of_ne h] at hT
        exact hs.no m T hT
    · intro m
      rw [htr, hcur]
      have hm := hs.cur m
      have hn := hs.cur n
      by_cases h : m = n
      · subst h
        rw [Function.update_self]
        split
        · simp
        · next hne => simp only [reduceCtorEq, false_iff, ← hn, hne, not_false_eq_true]
      · rw [Function.update_of_ne h, hm]
        split
        · next he =>
            rw [hn] at he
            constructor
            · rintro ⟨rfl, _⟩
              exact absurd he.1.symm h
            · rintro ⟨rfl, h0⟩
              exact absurd rfl h0
        · rfl
  proto q hq := by
    rw [hpt] at hq
    have hslot : ∀ m T, J'.trace m = .saved T → J.trace m = .saved T := by
      intro m T hT
      rw [htr] at hT
      by_cases h : m = n
      · rw [h, Function.update_self] at hT
        cases hT
      · rwa [Function.update_of_ne h] at hT
    refine (hc.proto q hq).untouched ⟨?_, ?_, ?_, ?_, fun _ => Iff.rfl, ?_⟩ ?_
    · rw [hpt]
    · rw [hpt]
    · rw [hpt]
    · rw [hpt]
    · intro m T hm hT
      refine ⟨T, ?_, .refl T⟩
      rw [htr, ← hT]
      refine Function.update_of_ne ?_ ..
      rintro rfl
      exact hn q hq hm
    · intro m T hT
      exact (hc.proto q hq).started m T (hslot m T hT)

/-- What `lj_trace_flushall` does to one slot. -/
theorem Core.flushSlot (ho : ∀ p, Original (orig p)) (hc : Core orig live J) (hcur : CurOk orig J)
    {n : ℕ} (h : Trace.flushSlot J n = some J') :
    Core orig (Function.update live n none) J' ∧ FlushFrame orig J J' ∧ J'.trace n = .null ∧
      ∀ m, J.trace m = .null → J'.trace m = .null := by
  unfold Trace.flushSlot at h
  split at h
  · next hT =>
      obtain rfl := Option.some_injective _ h
      refine ⟨hc.forget (hc.ne_some_of_none hT), .refl .., ?_, fun _ h => h⟩
      unfold traceref at hT
      split at hT
      · assumption
      · cases hT
      · cases hT
  · next T hT =>
      -- the trace is flushed if it is a root trace, and then dropped
      have hflush : ∀ J₁, (if T.root = 0 then Trace.traceFlushroot J T else some J) = some J₁ →
          Core orig (Function.update live n none) J₁ ∧ Flushed orig J J₁ := by
        intro J₁ h₁
        split at h₁
        · next hr => exact hc.traceFlushroot ho hT (hc.traceref_startins hcur hT hr) h₁
        · next hr =>
            obtain rfl := Option.some_injective _ h₁
            exact ⟨hc.forget (hc.ne_some_of_root hT hr), .refl ..⟩
      split at h
      · cases h
      · next J₁ h₁ =>
          obtain rfl := Option.some_injective _ h
          obtain ⟨hc₁, hf₁⟩ := hflush J₁ h₁
          set J₂ := setSlot (modifyTrace J₁ n fun T => { T with traceno := 0, link := 0 }) n .null
            with hJ₂
          have htr : J₂.trace = Function.update J₁.trace n .null := by
            rw [hJ₂]
            unfold modifyTrace setSlot
            split <;> simp [Function.update_idem]
          refine ⟨hc₁.clear (n := n) ?_ htr ?_ ?_ ?_, hf₁.frame.trans ?_, ?_, ?_⟩
          · simp
          · rw [hJ₂]
            unfold modifyTrace setSlot
            split <;> rfl
          · rw [hJ₂]
            unfold modifyTrace setSlot
            split <;> rfl
          · rw [hJ₂]
            unfold modifyTrace setSlot
            split
            · next hs => simp [hs]
            · next hs => simp [hs]
            · next hs => simp [hs]
          · rw [hJ₂]
            unfold modifyTrace setSlot
            split
            · exact { FlushFrame.refl orig J₁ with }
            · exact { FlushFrame.refl orig J₁ with traceno := fun h => absurd rfl h }
            · exact { FlushFrame.refl orig J₁ with }
          · rw [htr, Function.update_self]
          · intro m hm
            rw [htr]
            by_cases hmn : m = n
            · rw [hmn, Function.update_self]
            · rw [Function.update_of_ne hmn]
              exact (hf₁.slot.null_iff m).mpr hm

/-- The loop of `lj_trace_flushall`. -/
theorem Core.flushSlots (ho : ∀ p, Original (orig p)) {n : ℕ} (hc : Core orig live J)
    (hcur : CurOk orig J) (hl : ∀ m, n < m → J.trace m = .null)
    (h : Trace.flushSlots n J = some J') :
    ∃ live', Core orig live' J' ∧ FlushFrame orig J J' ∧ ∀ m, J'.trace m = .null := by
  induction n generalizing J live with
  | zero =>
      obtain rfl := Option.some_injective _ h
      refine ⟨live, hc, .refl .., ?_⟩
      intro m
      rcases Nat.eq_zero_or_pos m with rfl | hm
      · exact hc.slots.zero
      · exact hl m hm
  | succ n ih =>
      unfold Trace.flushSlots at h
      split at h
      · cases h
      · next J₁ h₁ =>
          obtain ⟨hc₁, hf₁, hn, hm⟩ := hc.flushSlot ho hcur h₁
          obtain ⟨live', hc₂, hf₂, hnull⟩ := ih hc₁ (hcur.frame hf₁) (by
            intro m hlt
            rcases Nat.lt_or_ge (n + 1) m with hlt' | hge
            · exact hm m (hl m hlt')
            · obtain rfl : m = n + 1 := by lia
              exact hn) h
          exact ⟨live', hc₂, hf₁.trans hf₂, hnull⟩

/-- `lj_trace_flushall` leaves no trace in the array. -/
theorem Core.flushall (ho : ∀ p, Original (orig p)) (hc : Core orig live J) (hcur : CurOk orig J)
    (h : ljTraceFlushall false J = some J') :
    Core orig (fun _ => none) J' ∧ FlushFrame orig J J' ∧ J'.cur.traceno = 0 ∧
      J'.freetrace = 0 := by
  unfold ljTraceFlushall at h
  simp only [Bool.false_eq_true, if_false] at h
  split at h
  · cases h
  · next J₁ h₁ =>
      obtain rfl := Option.some_injective _ h
      obtain ⟨live', hc₁, hf₁, hnull⟩ := hc.flushSlots ho hcur (by
        intro m hm
        exact hc.slots.range m (by lia)) h₁
      have hcur₁ : J₁.cur.traceno = 0 := by
        by_contra h0
        have := (hc₁.slots.cur _).mpr ⟨rfl, h0⟩
        rw [hnull] at this
        cases this
      have hc₂ : Core orig (fun _ => none) J₁ := by
        refine hc₁.congr_live ?_
        intro q hq m
        simp only [reduceCtorEq, false_iff]
        intro hm
        obtain ⟨T, hT, _⟩ := (hc₁.proto q hq).member m hm
        rw [hnull] at hT
        cases hT
      refine ⟨hc₂.clear (n := 0) (by simp) ?_ rfl rfl ?_, hf₁.trans ?_, rfl, rfl⟩
      · refine (Function.update_eq_self_iff.mpr ?_).symm
        exact (hnull 0).symm
      · simp [hnull, hcur₁]
      · exact { FlushFrame.refl orig J₁ with traceno := fun h => absurd rfl h }

end Flush

end Trace
