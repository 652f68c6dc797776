/-
**The operations of the IR store keep its instructions and its chains.**

The block of the IR is the same for a reader before and after it grows: every reference between the last constant and
the next instruction holds what it held.  An operation then adds one instruction at either end or takes
instructions off the top, and the chain of an opcode is the list of its references from the latest one on.

Main definitions:

* `IrStore.Geom`, `IrStore.Moved` — the pointers fit the block, and a block that has moved;
* `IrStore.Linked`, `IrStore.JitState.refs` — a chain, and the references that it should have;
* `IrStore.K64Wf`, `IrStore.Slot` — the arrays of 64 bit constants;
* `IrStore.Wf` — the invariant of the store.

Main results:

* `IrStore.growtop_spec`, `IrStore.growbot_spec` — growth moves the block;
* `IrStore.emit_spec`, `IrStore.internk_spec`, `IrStore.rollback_spec` — the operations.
-/

import LuaJit.IrStore
import LuaJit.Effect

set_option relaxedAutoImplicit false
set_option autoImplicit false

namespace IrStore

open Ir (IROp)
open Effect

variable {J J' : JitState} {ref n : ℕ} {o : IROp} {ins : IRIns}

/-- The allocator has no memory, and the store is as before. -/
def NoMem {α : Type} (alloc : Option α) (J : JitState) (e : Stop) (J' : JitState) : Prop :=
  alloc = none ∧ e = .mem ∧ J' = J

theorem add32_eq {a b : ℕ} (h : a + b < 2 ^ 32) : add32 a b = a + b := if_pos h

theorem sub32_eq {a b : ℕ} (h : b ≤ a) : sub32 a b = a - b := if_pos h

/-! ### The block -/

/-- The base pointer and the limits fit the block, and the fixed references are in it. -/
structure Geom (J : JitState) : Prop where
  biased : J.irbuf = J.base - J.irbotlim
  size : J.irbotlim + J.mem.length = J.irtoplim
  bot : J.irbotlim + 8 ≤ refBase
  top : refFirst ≤ J.irtoplim
  bound : J.irtoplim ≤ 2 ^ 19

theorem Geom.ofs_eq (g : Geom J) (ref : ℕ) : J.ofs ref = (ref : ℤ) - J.irbotlim := by
  rw [JitState.ofs, g.biased]
  omega

/-- What is at a reference of the block. -/
theorem Geom.at_eq (g : Geom J) (hbot : J.irbotlim ≤ ref) : J.at ref = (J.mem[ref - J.irbotlim]?).join := by
  rw [JitState.at, g.ofs_eq, if_pos (by omega), show ((ref : ℤ) - J.irbotlim).toNat = ref - J.irbotlim by lia]

theorem Geom.szins_eq (g : Geom J) : sub32 J.irtoplim J.irbotlim = J.mem.length := by
  have hsize := g.size
  rw [sub32_eq (by omega)]
  lia

/-- Writing a reference of the block. -/
theorem setIr_spec (g : Geom J) (hbot : J.irbotlim ≤ ref) (htop : ref < J.irtoplim) (ins : IRIns) :
    ∃ mem', setIr ref ins J = .ok () { J with mem := mem' } ∧ Geom { J with mem := mem' } ∧
      ∀ r, J.irbotlim ≤ r → ({ J with mem := mem' } : JitState).at r = Function.update J.at ref (some ins) r := by
  have hsize := g.size
  have hlen : (J.mem.set (ref - J.irbotlim) (some ins)).length = J.mem.length := List.length_set
  have g' : Geom { J with mem := J.mem.set (ref - J.irbotlim) (some ins) } :=
    ⟨g.biased, by rw [hlen]; exact hsize, g.bot, g.top, g.bound⟩
  refine ⟨_, ?_, g', fun r hr => ?_⟩
  · rw [setIr, g.ofs_eq, if_pos (by lia), show ((ref : ℤ) - J.irbotlim).toNat = ref - J.irbotlim by lia]
  · rw [g'.at_eq hr]
    by_cases hrr : r = ref
    · rw [hrr, Function.update_self]
      change ((J.mem.set (ref - J.irbotlim) (some ins))[ref - J.irbotlim]?).join = _
      rw [List.getElem?_set_self (by lia)]
      rfl
    · rw [Function.update_of_ne hrr, g.at_eq hr]
      change ((J.mem.set (ref - J.irbotlim) (some ins))[r - J.irbotlim]?).join = _
      rw [List.getElem?_set_ne (by lia)]

/-! ### Growth -/

/-- The block has moved: it has room for what was there, every reference holds what it held, and all
else is the same. -/
structure Moved (J J' : JitState) : Prop where
  geom : Geom J'
  bot : J'.irbotlim ≤ J.nk
  top : J.nins ≤ J'.irtoplim
  at_eq : ∀ ref, J.nk ≤ ref → ref < J.nins → J'.at ref = J.at ref
  nins : J'.nins = J.nins
  nk : J'.nk = J.nk
  chain : J'.chain = J.chain
  k64 : J'.k64 = J.k64

theorem Moved.refl (g : Geom J) (hbot : J.irbotlim ≤ J.nk) (htop : J.nins ≤ J.irtoplim) : Moved J J :=
  ⟨g, hbot, htop, fun _ _ _ => rfl, rfl, rfl, rfl, rfl⟩

/-- **Growth at the top.** -/
theorem growtop_spec (g : Geom J) (hbot : J.irbotlim ≤ J.nk) (hfull : J.irtoplim = J.nins) (hmax : J.nins ≤ 2 ^ 16)
    (alloc : Option ℤ) :
    Meets (growtop alloc) J (fun _ J' => Moved J J' ∧ J.nins < J'.irtoplim ∧ J'.irbotlim = J.irbotlim) (NoMem alloc J) := by
  have hsize := g.size
  have hlow := g.bot
  have htop := g.top
  rw [refBase] at hlow
  rw [refFirst] at htop
  have hnew : add32 J.irbotlim (2 * J.mem.length) = J.irbotlim + 2 * J.mem.length := add32_eq (by lia)
  unfold Meets growtop
  dsimp only
  rw [g.szins_eq, if_pos (by lia), if_neg (by rw [g.biased]; lia)]
  cases alloc with
  | none => exact ⟨rfl, rfl, rfl⟩
  | some a =>
      dsimp only
      rw [hnew]
      have g' : Geom { J with
          base := a
          mem := J.mem ++ List.replicate J.mem.length none
          irtoplim := J.irbotlim + 2 * J.mem.length
          irbuf := a - J.irbotlim } := by
        refine ⟨rfl, ?_, g.bot, ?_, ?_⟩
        · change J.irbotlim + (J.mem ++ _).length = J.irbotlim + 2 * J.mem.length
          rw [List.length_append, List.length_replicate]
          lia
        · change refFirst ≤ J.irbotlim + 2 * J.mem.length
          rw [refFirst]
          lia
        · change J.irbotlim + 2 * J.mem.length ≤ 2 ^ 19
          lia
      refine ⟨⟨g', hbot, ?_, fun ref h₁ h₂ => ?_, rfl, rfl, rfl, rfl⟩, ?_, rfl⟩
      · change J.nins ≤ J.irbotlim + 2 * J.mem.length
        lia
      · rw [g.at_eq (by lia), g'.at_eq (show J.irbotlim ≤ ref by lia)]
        change ((J.mem ++ _)[ref - J.irbotlim]?).join = _
        rw [List.getElem?_append_left (by lia)]
      · lia

/-- The room below. -/
theorem botOfs_eq (g : Geom J) (hmax : J.nins ≤ 2 ^ 16) :
    (J.shifts ↔ J.nins + J.mem.length / 2 < J.irtoplim) ∧ J.botOfs =
      if J.shifts then J.mem.length / 4 else if J.mem.length ≥ 256 then 128 else J.mem.length / 2 := by
  have hsize := g.size
  have hbound := g.bound
  refine ⟨?_, by rw [JitState.botOfs, g.szins_eq]⟩
  rw [JitState.shifts, g.szins_eq, add32_eq (by lia)]

/-- What was in use is behind the new room. -/
theorem getElem?_behind {α : Type} {room mem rest : List α} {k i : ℕ} (hroom : room.length = k) (hn : n ≤ mem.length)
    (hi : i < n) : (room ++ mem.take n ++ rest)[k + i]? = mem[i]? := by
  rw [List.append_assoc, List.getElem?_append_right (by omega), hroom, Nat.add_sub_cancel_left,
    List.getElem?_append_left (by rw [List.length_take_of_le hn]; exact hi), List.getElem?_take_of_lt hi]

/-- **Growth at the bottom**, when the lower limit does not pass zero. -/
theorem growbot_spec (g : Geom J) (hbot : J.nk = J.irbotlim) (hfirst : refFirst ≤ J.nins) (htop : J.nins ≤ J.irtoplim)
    (hmax : J.nins ≤ 2 ^ 16) (hofs : J.botOfs ≤ J.irbotlim) (alloc : Option ℤ) :
    Meets (growbot alloc) J (fun _ J' => Moved J J' ∧ J'.irbotlim < J.nk) (NoMem alloc J) := by
  have hsize := g.size
  have hlow := g.bot
  have hbound := g.bound
  obtain ⟨hshift, hval⟩ := botOfs_eq g hmax
  rw [refBase] at hlow
  rw [refFirst] at hfirst
  -- the new limit and the part in use, so that no difference is left
  obtain ⟨bot, hnew⟩ := Nat.exists_eq_add_of_le' hofs
  obtain ⟨used, hused⟩ := Nat.exists_eq_add_of_le (show J.irbotlim ≤ J.nins by lia)
  have hle : used ≤ J.mem.length := by lia
  have hn : sub32 J.nins J.irbotlim = used := by rw [sub32_eq (by lia), hused, Nat.add_sub_cancel_left]
  have hb : sub32 J.irbotlim J.botOfs = bot := by rw [sub32_eq hofs, hnew, Nat.add_sub_cancel]
  unfold Meets growbot
  dsimp only
  rw [g.szins_eq, hn, hb, if_neg (by rw [g.biased]; lia)]
  clear hn hb
  by_cases hs : J.shifts
  · have hroom := hshift.1 hs
    rw [if_pos hs] at hval
    clear hshift
    have hhalf : J.botOfs ≤ J.mem.length / 2 := hval.trans_le (Nat.div_le_div_left (by decide) (by decide))
    have hpos : 0 < J.botOfs := hval ▸ Nat.div_pos (by lia) (by decide)
    clear hval
    have hfits : J.botOfs + used ≤ J.mem.length := by
      clear hlow hbound hfirst hmax hnew htop
      lia
    clear hroom hhalf
    obtain ⟨top, htop'⟩ := Nat.exists_eq_add_of_le' (show J.botOfs ≤ J.irtoplim by lia)
    have ht : sub32 J.irtoplim J.botOfs = top := by rw [sub32_eq (by lia), htop', Nat.add_sub_cancel]
    rw [if_pos hs, if_neg (not_lt.2 hfits)]
    dsimp only
    rw [ht]
    clear ht
    have hlen : (J.mem.take J.botOfs ++ J.mem.take used ++ J.mem.drop (J.botOfs + used)).length = J.mem.length := by
      rw [List.length_append, List.length_append, List.length_take_of_le (by lia), List.length_take_of_le (by omega),
        List.length_drop, Nat.add_sub_cancel' hfits]
    have g' : Geom { J with
        mem := J.mem.take J.botOfs ++ J.mem.take used ++ J.mem.drop (J.botOfs + used)
        irbotlim := bot
        irtoplim := top
        irbuf := J.irbuf + J.irbotlim - bot } := by
      refine ⟨?_, ?_, ?_, ?_, ?_⟩
      · change J.irbuf + J.irbotlim - _ = J.base - _
        rw [g.biased, sub_add_cancel]
      · change bot + List.length _ = top
        rw [hlen]
        lia
      · change bot + 8 ≤ refBase
        rw [refBase]
        lia
      · change refFirst ≤ top
        rw [refFirst]
        lia
      · change top ≤ 2 ^ 19
        lia
    refine ⟨⟨g', ?_, ?_, fun ref h₁ h₂ => ?_, rfl, rfl, rfl, rfl⟩, ?_⟩
    · change bot ≤ J.nk
      lia
    · change J.nins ≤ top
      lia
    · obtain ⟨i, rfl⟩ := Nat.exists_eq_add_of_le (hbot ▸ h₁)
      have hidx : J.irbotlim + i - bot = J.botOfs + i := by rw [hnew, Nat.add_assoc, Nat.add_sub_cancel_left]
      rw [g.at_eq (Nat.le_add_right _ _), g'.at_eq (show bot ≤ J.irbotlim + i by lia), Nat.add_sub_cancel_left]
      change ((J.mem.take J.botOfs ++ J.mem.take used ++ _)[J.irbotlim + i - bot]?).join = _
      rw [hidx, getElem?_behind (List.length_take_of_le (by lia)) (by omega) (by lia)]
    · lia
  · have hroom : ¬J.nins + J.mem.length / 2 < J.irtoplim := fun h => hs (hshift.2 h)
    rw [if_neg hs] at hval
    clear hshift
    have hofs' : J.botOfs ≤ J.mem.length ∧ 0 < J.botOfs := by
      rw [hval]
      split_ifs <;> lia
    clear hval
    have ht : add32 bot (2 * J.mem.length) = bot + 2 * J.mem.length := add32_eq (by lia)
    rw [if_neg hs]
    cases alloc with
    | none => exact ⟨rfl, rfl, rfl⟩
    | some a =>
        have hfits : J.botOfs + used ≤ 2 * J.mem.length := (Nat.add_le_add hofs'.1 hle).trans_eq (two_mul _).symm
        have hlim : bot + 2 * J.mem.length ≤ 2 ^ 19 := by
          clear hlow hfirst htop hle hfits
          lia
        dsimp only
        rw [if_neg (not_lt.2 hfits)]
        dsimp only
        rw [ht]
        clear ht hroom
        have hlen : (List.replicate J.botOfs (none : Option IRIns) ++ J.mem.take used ++
            List.replicate (2 * J.mem.length - (J.botOfs + used)) none).length = 2 * J.mem.length := by
          rw [List.length_append, List.length_append, List.length_take_of_le (by omega), List.length_replicate,
            List.length_replicate, Nat.add_sub_cancel' hfits]
        have g' : Geom { J with
            base := a
            mem := List.replicate J.botOfs none ++ J.mem.take used ++
              List.replicate (2 * J.mem.length - (J.botOfs + used)) none
            irbotlim := bot
            irtoplim := bot + 2 * J.mem.length
            irbuf := a - bot } := by
          refine ⟨rfl, ?_, ?_, ?_, ?_⟩
          · change bot + List.length _ = _
            rw [hlen]
          · change bot + 8 ≤ refBase
            rw [refBase]
            lia
          · change refFirst ≤ bot + 2 * J.mem.length
            rw [refFirst]
            lia
          · exact hlim
        refine ⟨⟨g', ?_, ?_, fun ref h₁ h₂ => ?_, rfl, rfl, rfl, rfl⟩, ?_⟩
        · change bot ≤ J.nk
          lia
        · change J.nins ≤ bot + 2 * J.mem.length
          lia
        · obtain ⟨i, rfl⟩ := Nat.exists_eq_add_of_le (hbot ▸ h₁)
          have hidx : J.irbotlim + i - bot = J.botOfs + i := by rw [hnew, Nat.add_assoc, Nat.add_sub_cancel_left]
          rw [g.at_eq (Nat.le_add_right _ _), g'.at_eq (show bot ≤ J.irbotlim + i by lia), Nat.add_sub_cancel_left]
          change ((List.replicate J.botOfs none ++ J.mem.take used ++ _)[J.irbotlim + i - bot]?).join = _
          rw [hidx, getElem?_behind List.length_replicate (by omega) (by lia)]
        · lia

/-! ### Chains -/

/-- The links lead from a head through the references to the end of the chain. -/
inductive Linked (f : ℕ → Option IRIns) : ℕ → List ℕ → Prop where
  | nil : Linked f 0 []
  | cons {ref : ℕ} {ins : IRIns} {l : List ℕ} : f ref = some ins → Linked f ins.prev l → Linked f ref (ref :: l)

/-- The references in use except for the fixed ones below the base: the instructions from the latest one
on, and the constants from the latest one on. -/
def JitState.live (J : JitState) : List ℕ :=
  (List.range' refBase (J.nins - refBase)).reverse ++ List.range' J.nk (refTrue - J.nk)

/-- The references in use with an opcode, from the latest one on. -/
def JitState.refs (J : JitState) (o : IROp) : List ℕ :=
  J.live.filter fun ref => (J.at ref).map IRIns.o = some o

theorem Linked.congr {f f' : ℕ → Option IRIns} {head : ℕ} {l : List ℕ} (h : Linked f head l)
    (heq : ∀ ref ∈ l, f' ref = f ref) : Linked f' head l := by
  induction h with
  | nil => exact .nil
  | cons hins _ ih =>
      refine .cons ?_ (ih fun r hr => heq r (List.mem_cons_of_mem _ hr))
      rw [heq _ List.mem_cons_self, hins]

/-- What is behind the head. -/
theorem Linked.tail {f : ℕ → Option IRIns} {head : ℕ} {l : List ℕ} (h : Linked f head (ref :: l)) (hins : f ref = some ins) :
    Linked f ins.prev l := by
  cases h with
  | cons hn htail =>
      rw [hins, Option.some.injEq] at hn
      rw [hn]
      exact htail

theorem mem_live : ref ∈ J.live ↔ (refBase ≤ ref ∧ ref < J.nins) ∨ (J.nk ≤ ref ∧ ref < refTrue) := by
  rw [JitState.live, List.mem_append, List.mem_reverse, List.mem_range'_1, List.mem_range'_1]
  lia

theorem mem_refs : ref ∈ J.refs o ↔ ref ∈ J.live ∧ ∃ ins, J.at ref = some ins ∧ ins.o = o := by
  rw [JitState.refs, List.mem_filter, decide_eq_true_iff, Option.map_eq_some_iff]

/-- References that hold the same are in the same chains. -/
theorem refs_congr (hlive : J'.live = J.live) (hat : ∀ ref ∈ J.live, J'.at ref = J.at ref) : J'.refs o = J.refs o := by
  rw [JitState.refs, hlive, JitState.refs]
  refine List.filter_congr fun ref hr => ?_
  rw [hat ref hr]

/-- One more instruction. -/
theorem live_nins (hfirst : refBase ≤ J.nins) (hnins : J'.nins = J.nins + 1) (hnk : J'.nk = J.nk) :
    J'.live = J.nins :: J.live := by
  have hlen : J.nins + 1 - refBase = J.nins - refBase + 1 := Nat.sub_add_comm hfirst
  have hlast : refBase + 1 * (J.nins - refBase) = J.nins := by rw [one_mul, Nat.add_sub_cancel' hfirst]
  rw [JitState.live, JitState.live, hnins, hnk, hlen, List.range'_concat, hlast, List.reverse_append,
    List.reverse_singleton, List.singleton_append, List.cons_append]

/-- The references of the instructions, and those of the constants. -/
def JitState.codeRefs (J : JitState) (o : IROp) : List ℕ :=
  (List.range' refBase (J.nins - refBase)).reverse.filter fun ref => (J.at ref).map IRIns.o = some o

def JitState.constRefs (J : JitState) (o : IROp) : List ℕ :=
  (List.range' J.nk (refTrue - J.nk)).filter fun ref => (J.at ref).map IRIns.o = some o

theorem refs_append (o : IROp) : J.refs o = J.codeRefs o ++ J.constRefs o := by
  rw [JitState.refs, JitState.live, List.filter_append, JitState.codeRefs, JitState.constRefs]

/-! ### 64 bit constants -/

/-- Two arrays do not overlap. -/
def Disj (a b : K64Array) : Prop := a.addr + sizeofK64Array ≤ b.addr ∨ b.addr + sizeofK64Array ≤ a.addr

instance : Std.Symm Disj := ⟨fun _ _ => Or.symm⟩

/-- A constant is at an address. -/
def Slot (l : List K64Array) (tv : ℕ) (u64 : BitVec 64) : Prop :=
  ∃ a ∈ l, ∃ idx, a.k[idx]? = some u64 ∧ tv = a.slot idx

/-- The arrays of constants do not overlap and are in the address space, and every constant is there once. -/
structure K64Wf (l : List K64Array) : Prop where
  disj : l.Pairwise Disj
  fits : ∀ a ∈ l, a.addr + sizeofK64Array ≤ 2 ^ 32 ∧ a.k.length ≤ ljMinK64sz
  once : ∀ {tv tv' u64}, Slot l tv u64 → Slot l tv' u64 → tv = tv'

/-- A new array is in the address space and does not overlap with the others. -/
def Alloc.Fresh (alloc : Alloc) (J : JitState) : Prop :=
  ∀ a ∈ alloc.k64, a + sizeofK64Array ≤ 2 ^ 32 ∧ ∀ b ∈ J.k64, Disj b ⟨a, []⟩

section K64

variable {l : List K64Array} {tv tv' : ℕ} {u64 v64 : BitVec 64}

theorem K64Wf.nil : K64Wf [] :=
  ⟨.nil, nofun, fun h => absurd h.choose_spec.1 List.not_mem_nil⟩

theorem Slot.lt (hl : K64Wf l) (h : Slot l tv u64) : tv < 2 ^ 32 := by
  obtain ⟨a, ha, idx, hidx, rfl⟩ := h
  have hlt := (List.getElem?_eq_some_iff.1 hidx).1
  have hfits := hl.fits a ha
  rw [sizeofK64Array, ljMinK64sz] at hfits
  rw [K64Array.slot]
  lia

/-- **One constant is at an address.** -/
theorem Slot.unique (hl : K64Wf l) (h : Slot l tv u64) (h' : Slot l tv v64) : u64 = v64 := by
  obtain ⟨a, ha, idx, hidx, rfl⟩ := h
  obtain ⟨b, hb, jdx, hjdx, heq⟩ := h'
  have hi := (List.getElem?_eq_some_iff.1 hidx).1
  have hj := (List.getElem?_eq_some_iff.1 hjdx).1
  have hfa := (hl.fits a ha).2
  have hfb := (hl.fits b hb).2
  rw [K64Array.slot, K64Array.slot] at heq
  have hab : a = b := by
    by_contra hne
    have hdisj : Disj a b := hl.disj.forall ha hb hne
    rw [Disj, sizeofK64Array] at hdisj
    lia
  subst hab
  obtain rfl : idx = jdx := by lia
  exact Option.some.inj (hidx.symm.trans hjdx)

theorem findSlot_some (h : findSlot u64 l = some tv) : Slot l tv u64 := by
  induction l with
  | nil => cases h
  | cons a l ih =>
      rw [findSlot] at h
      cases hf : a.k.findIdx? (· == u64) with
      | some idx =>
          rw [hf] at h
          obtain ⟨hlt, hp, -⟩ := List.findIdx?_eq_some_iff_getElem.1 hf
          refine ⟨a, List.mem_cons_self, idx, ?_, (Option.some.inj h).symm⟩
          rw [List.getElem?_eq_getElem hlt, eq_of_beq hp]
      | none =>
          rw [hf] at h
          obtain ⟨b, hb, hidx⟩ := ih h
          exact ⟨b, List.mem_cons_of_mem _ hb, hidx⟩

theorem findSlot_none (h : findSlot u64 l = none) : ¬Slot l tv u64 := by
  induction l with
  | nil => exact fun hs => absurd hs.choose_spec.1 List.not_mem_nil
  | cons a l ih =>
      rw [findSlot] at h
      cases hf : a.k.findIdx? (· == u64) with
      | some idx =>
          rw [hf] at h
          cases h
      | none =>
          rw [hf] at h
          rintro ⟨b, hb, idx, hidx, htv⟩
          rcases List.mem_cons.1 hb with rfl | hb
          · have hne := List.findIdx?_eq_none_iff.1 hf u64 (List.mem_of_getElem? hidx)
            rw [beq_self_eq_true] at hne
            cases hne
          · exact ih h ⟨b, hb, idx, hidx, htv⟩

/-- An array that is last and has room gets one more constant. -/
theorem slot_push {ys : List K64Array} {kp : K64Array} :
    Slot (ys ++ [{ kp with k := kp.k ++ [u64] }]) tv v64 ↔
      Slot (ys ++ [kp]) tv v64 ∨ tv = kp.slot kp.k.length ∧ v64 = u64 := by
  constructor
  · rintro ⟨a, ha, idx, hidx, rfl⟩
    rcases List.mem_append.1 ha with ha | ha
    · exact .inl ⟨a, List.mem_append_left _ ha, idx, hidx, rfl⟩
    · rw [List.mem_singleton] at ha
      subst ha
      rcases lt_or_ge idx kp.k.length with hlt | hge
      · rw [List.getElem?_append_left hlt] at hidx
        exact .inl ⟨kp, List.mem_append_right _ List.mem_cons_self, idx, hidx, rfl⟩
      · rw [List.getElem?_append_right hge, List.getElem?_singleton] at hidx
        split_ifs at hidx with h0
        obtain rfl : idx = kp.k.length := by lia
        exact .inr ⟨rfl, (Option.some.inj hidx).symm⟩
  · rintro (⟨a, ha, idx, hidx, rfl⟩ | ⟨rfl, rfl⟩)
    · rcases List.mem_append.1 ha with ha | ha
      · exact ⟨a, List.mem_append_left _ ha, idx, hidx, rfl⟩
      · rw [List.mem_singleton] at ha
        subst ha
        have hlt := (List.getElem?_eq_some_iff.1 hidx).1
        refine ⟨_, List.mem_append_right _ List.mem_cons_self, idx, ?_, rfl⟩
        rw [List.getElem?_append_left hlt]
        exact hidx
    · refine ⟨_, List.mem_append_right _ List.mem_cons_self, kp.k.length, ?_, rfl⟩
      rw [List.getElem?_concat_length]

/-- A new array has one constant. -/
theorem slot_new {a : ℕ} : Slot (l ++ [⟨a, [u64]⟩]) tv v64 ↔
    Slot l tv v64 ∨ tv = (⟨a, [u64]⟩ : K64Array).slot 0 ∧ v64 = u64 := by
  constructor
  · rintro ⟨b, hb, idx, hidx, rfl⟩
    rcases List.mem_append.1 hb with hb | hb
    · exact .inl ⟨b, hb, idx, hidx, rfl⟩
    · rw [List.mem_singleton] at hb
      subst hb
      rw [List.getElem?_singleton] at hidx
      split_ifs at hidx with h0
      subst h0
      exact .inr ⟨rfl, (Option.some.inj hidx).symm⟩
  · rintro (⟨b, hb, idx, hidx, rfl⟩ | ⟨rfl, rfl⟩)
    · exact ⟨b, List.mem_append_left _ hb, idx, hidx, rfl⟩
    · exact ⟨_, List.mem_append_right _ List.mem_cons_self, 0, rfl, rfl⟩

/-- A constant that was not there is there once. -/
theorem once_added {l' : List K64Array} {tv₀ : ℕ} (hl : K64Wf l) (hnone : ∀ tv, ¬Slot l tv u64)
    (hadd : ∀ tv v64, Slot l' tv v64 ↔ Slot l tv v64 ∨ tv = tv₀ ∧ v64 = u64) (h : Slot l' tv v64)
    (h' : Slot l' tv' v64) : tv = tv' := by
  rcases (hadd _ _).1 h with h | ⟨rfl, rfl⟩ <;> rcases (hadd _ _).1 h' with h' | ⟨rfl, hv⟩
  · exact hl.once h h'
  · exact absurd (hv ▸ h) (hnone tv)
  · exact absurd h' (hnone tv')
  · rfl

/-- What the search of a constant leaves behind: the constant is at the address, and all others are where they
were. -/
def Found (J : JitState) (u64 : BitVec 64) (tv : ℕ) (J' : JitState) : Prop :=
  ∃ l', J' = { J with k64 := l' } ∧ K64Wf l' ∧ (∀ tv v64, Slot J.k64 tv v64 → Slot l' tv v64) ∧ Slot l' tv u64

theorem k64New_spec (hl : K64Wf J.k64) (hnone : ∀ tv, ¬Slot J.k64 tv u64) {alloc : Alloc} (hf : alloc.Fresh J) :
    Meets (k64New alloc.k64 u64) J (Found J u64) (NoMem alloc.k64 J) := by
  cases halloc : alloc.k64 with
  | none => exact ⟨rfl, rfl, rfl⟩
  | some a =>
      obtain ⟨hfit, hdisj⟩ := hf a halloc
      refine ⟨_, rfl, ⟨?_, ?_, once_added hl hnone fun _ _ => slot_new⟩, fun _ _ h => slot_new.2 (.inl h),
        slot_new.2 (.inr ⟨rfl, rfl⟩)⟩
      · refine List.pairwise_append.2 ⟨hl.disj, List.pairwise_singleton _ _, fun b hb c hc => ?_⟩
        rw [List.mem_singleton] at hc
        subst hc
        exact hdisj b hb
      · intro b hb
        rcases List.mem_append.1 hb with hb | hb
        · exact hl.fits b hb
        · rw [List.mem_singleton] at hb
          subst hb
          exact ⟨hfit, show 1 ≤ ljMinK64sz by decide⟩

theorem k64Push_spec (hl : K64Wf J.k64) (hnone : ∀ tv, ¬Slot J.k64 tv u64) {kp : K64Array}
    (hlast : J.k64.getLast? = some kp) (hroom : kp.k.length < ljMinK64sz) :
    Meets (k64Push kp u64) J (Found J u64) fun _ _ => False := by
  obtain ⟨ys, hys⟩ := List.getLast?_eq_some_iff.1 hlast
  have hrun : k64Push kp u64 J = .ok (kp.slot kp.k.length) { J with k64 := ys ++ [{ kp with k := kp.k ++ [u64] }] } := by
    rw [k64Push, hys, List.dropLast_concat]
  rw [meets_ok hrun]
  have hadd : ∀ tv v64, Slot (ys ++ [{ kp with k := kp.k ++ [u64] }]) tv v64 ↔
      Slot J.k64 tv v64 ∨ tv = kp.slot kp.k.length ∧ v64 = u64 := by
    intro tv v64
    rw [hys]
    exact slot_push
  have hl' := hl
  rw [hys] at hl'
  obtain ⟨hd₁, -, hd₂⟩ := List.pairwise_append.1 hl'.disj
  refine ⟨_, rfl, ⟨?_, ?_, once_added hl hnone hadd⟩, fun _ _ h => (hadd _ _).2 (.inl h),
    (hadd _ _).2 (.inr ⟨rfl, rfl⟩)⟩
  · refine List.pairwise_append.2 ⟨hd₁, List.pairwise_singleton _ _, fun b hb c hc => ?_⟩
    rw [List.mem_singleton] at hc
    subst hc
    exact hd₂ b hb kp List.mem_cons_self
  · intro b hb
    rcases List.mem_append.1 hb with hb | hb
    · exact hl'.fits b (List.mem_append_left _ hb)
    · rw [List.mem_singleton] at hb
      subst hb
      refine ⟨(hl'.fits kp (List.mem_append_right _ List.mem_cons_self)).1, ?_⟩
      rw [List.length_append, List.length_singleton]
      exact hroom

/-- **A constant is added.** -/
theorem k64Add_spec (hl : K64Wf J.k64) (hnone : ∀ tv, ¬Slot J.k64 tv u64) {alloc : Alloc} (hf : alloc.Fresh J) :
    Meets (k64Add alloc.k64 u64) J (Found J u64) (NoMem alloc.k64 J) := by
  rw [k64Add, meets_read (show (get : M JitState) J = .ok J J from rfl)]
  cases hlast : J.k64.getLast? with
  | none => exact k64New_spec hl hnone hf
  | some kp =>
      rw [meets_ite]
      refine ⟨fun hroom => ?_, fun _ => k64New_spec hl hnone hf⟩
      exact (k64Push_spec hl hnone hlast hroom).mono (fun _ _ h' => h') fun _ _ => False.elim

/-- **A constant is found or added.** -/
theorem k64Find_spec (hl : K64Wf J.k64) {alloc : Alloc} (hf : alloc.Fresh J) :
    Meets (k64Find alloc.k64 u64) J (Found J u64) (NoMem alloc.k64 J) := by
  rw [k64Find, meets_read (show (get : M JitState) J = .ok J J from rfl)]
  cases hfind : findSlot u64 J.k64 with
  | some tv => exact ⟨J.k64, rfl, hl, fun _ _ h => h, findSlot_some hfind⟩
  | none => exact k64Add_spec hl (fun _ => findSlot_none hfind) hf

end K64

/-! ### The invariant -/

/-- What the constants of a kind are compared by. -/
def IRIns.key (ins : IRIns) : BitVec 32 := if ins.o = .knull then ins.t.setWidth 32 else ins.op12

/-- **The invariant of the store** while a trace is recorded. -/
structure Wf (J : JitState) : Prop where
  geom : Geom J
  bot : J.irbotlim ≤ J.nk
  top : J.nins ≤ J.irtoplim
  nk_pos : 0 < J.nk
  nk_le : J.nk ≤ refTrue
  first : refFirst ≤ J.nins
  max : J.nins ≤ 2 ^ 16
  cell : ∀ ref ∈ J.live, ∃ ins, J.at ref = some ins ∧ (ins.o.isConst = true ↔ ref < refBase)
  linked : ∀ o, Linked J.at (J.chain o) (J.refs o)
  once : ∀ {r r' : ℕ} {i i' : IRIns}, J.nk ≤ r → r < refTrue → J.nk ≤ r' → r' < refTrue → J.at r = some i →
    J.at r' = some i' → i.o = i'.o → i.key = i'.key → r = r'
  k64 : K64Wf J.k64

theorem Wf.live_mem (h : Wf J) (hr : ref ∈ J.live) : J.nk ≤ ref ∧ ref < J.nins := by
  have hnk := h.nk_le
  have hfirst := h.first
  rw [refTrue] at hnk
  rw [refFirst] at hfirst
  rw [mem_live, refBase, refTrue] at hr
  lia

/-- A block that has moved. -/
theorem Wf.moved (h : Wf J) (m : Moved J J') : Wf J' := by
  have hlive : J'.live = J.live := by rw [JitState.live, m.nins, m.nk, JitState.live]
  have hat : ∀ ref ∈ J.live, J'.at ref = J.at ref := fun ref hr => m.at_eq ref (h.live_mem hr).1 (h.live_mem hr).2
  have hconst : ∀ r, J.nk ≤ r → r < refTrue → J'.at r = J.at r := fun r h₁ h₂ => hat r (mem_live.2 (.inr ⟨h₁, h₂⟩))
  refine ⟨m.geom, by rw [m.nk]; exact m.bot, by rw [m.nins]; exact m.top, by rw [m.nk]; exact h.nk_pos,
    by rw [m.nk]; exact h.nk_le, by rw [m.nins]; exact h.first, by rw [m.nins]; exact h.max, ?_, ?_, ?_,
    by rw [m.k64]; exact h.k64⟩
  · intro ref hr
    rw [hlive] at hr
    rw [hat ref hr]
    exact h.cell ref hr
  · intro o
    rw [refs_congr hlive hat, m.chain]
    exact (h.linked o).congr fun ref hr => hat ref (mem_refs.1 hr).1
  · intro r r' i i' h₁ h₂ h₃ h₄ hi hi'
    rw [m.nk] at h₁ h₃
    rw [hconst r h₁ h₂] at hi
    rw [hconst r' h₃ h₄] at hi'
    exact h.once h₁ h₂ h₃ h₄ hi hi'

/-! ### One more instruction -/

/-- An instruction is added to the block and to its chain. -/
structure Added (J J' : JitState) (ref : ℕ) (ins : IRIns) : Prop where
  geom : Geom J'
  bot : J'.irbotlim = J.irbotlim
  top : J'.irtoplim = J.irtoplim
  at_eq : ∀ r, J.irbotlim ≤ r → J'.at r = Function.update J.at ref (some ins) r
  chain : J'.chain = Function.update J.chain ins.o (irref1 ref)
  k64 : J'.k64 = J.k64
  prev : ins.prev = J.chain ins.o

/-- A reference that is stored as it is. -/
theorem irref1_eq (h : ref < 2 ^ 16) : irref1 ref = ref := Nat.mod_eq_of_lt h

theorem Wf.bot_le (h : Wf J) (hr : ref ∈ J.live) : J.irbotlim ≤ ref := h.bot.trans (h.live_mem hr).1

theorem Added.old (a : Added J J' ref ins) (h : Wf J) (hnot : ref ∉ J.live) : ∀ r ∈ J.live, J'.at r = J.at r := by
  intro r hr
  rw [a.at_eq r (h.bot_le hr), Function.update_of_ne (ne_of_mem_of_not_mem hr hnot)]

theorem Added.new (a : Added J J' ref ins) (hbot : J.irbotlim ≤ ref) : J'.at ref = some ins := by
  rw [a.at_eq ref hbot, Function.update_self]

/-- The chains with one more reference. -/
theorem Added.linked (a : Added J J' ref ins) (h : Wf J) (hnot : ref ∉ J.live) (hbot : J.irbotlim ≤ ref) (hmax : ref < 2 ^ 16)
    (hrefs : J'.refs o = if ins.o = o then ref :: J.refs o else J.refs o) : Linked J'.at (J'.chain o) (J'.refs o) := by
  have hold : Linked J'.at (J.chain o) (J.refs o) :=
    (h.linked o).congr fun r hr => a.old h hnot r (mem_refs.1 hr).1
  rw [hrefs, a.chain, irref1_eq hmax]
  by_cases heq : ins.o = o
  · subst heq
    rw [if_pos rfl, Function.update_self]
    refine .cons (a.new hbot) ?_
    rw [a.prev]
    exact hold
  · rw [if_neg heq, Function.update_of_ne (Ne.symm heq)]
    exact hold

/-- **An instruction at the top.** -/
theorem Wf.addIns (h : Wf J) (a : Added J J' J.nins ins) (hnins : J'.nins = J.nins + 1) (hnk : J'.nk = J.nk)
    (hconst : ins.o.isConst = false) (hroom : J.nins < J.irtoplim) (hmax : J.nins < 2 ^ 16) : Wf J' := by
  have hfirst : refBase + 1 ≤ J.nins := h.first
  have hbot : J.irbotlim ≤ J.nins := h.bot.trans (h.nk_le.trans ((show refTrue ≤ refBase + 1 by decide).trans hfirst))
  have hlive := live_nins (by omega) hnins hnk
  have hnot : J.nins ∉ J.live := fun hm => lt_irrefl _ (h.live_mem hm).2
  have hold := a.old h hnot
  have hk : ∀ r, J.nk ≤ r → r < refTrue → J'.at r = J.at r := fun r h₁ h₂ => hold r (mem_live.2 (.inr ⟨h₁, h₂⟩))
  refine ⟨a.geom, by rw [a.bot, hnk]; exact h.bot, by rw [a.top, hnins]; exact hroom, by rw [hnk]; exact h.nk_pos,
    by rw [hnk]; exact h.nk_le, by rw [hnins]; exact h.first.trans (Nat.le_succ _), by rw [hnins]; exact hmax, ?_, ?_, ?_,
    by rw [a.k64]; exact h.k64⟩
  · intro r hr
    rw [hlive, List.mem_cons] at hr
    rcases hr with rfl | hr
    · refine ⟨ins, a.new hbot, ?_⟩
      rw [hconst]
      exact ⟨nofun, fun hlt => absurd hlt (by omega)⟩
    · rw [hold r hr]
      exact h.cell r hr
  · intro o
    refine a.linked h hnot hbot hmax ?_
    rw [JitState.refs, hlive, List.filter_cons, a.new hbot, JitState.refs,
      List.filter_congr fun r hr => by rw [hold r hr]]
    by_cases heq : ins.o = o
    · rw [if_pos heq, if_pos]
      rw [decide_eq_true_iff, Option.map_some, heq]
    · rw [if_neg heq, if_neg]
      rw [decide_eq_true_iff, Option.map_some]
      exact fun h' => heq (Option.some.inj h')
  · intro r r' i i' h₁ h₂ h₃ h₄ hi hi'
    rw [hnk] at h₁ h₃
    rw [hk r h₁ h₂] at hi
    rw [hk r' h₃ h₄] at hi'
    exact h.once h₁ h₂ h₃ h₄ hi hi'

/-- No instruction is in the chain of a constant. -/
theorem Wf.codeRefs_nil (h : Wf J) (ho : o.isConst = true) : J.codeRefs o = [] := by
  refine List.filter_eq_nil_iff.2 fun ref hr hop => ?_
  rw [List.mem_reverse, List.mem_range'_1] at hr
  obtain ⟨ins, hins, hiff⟩ := h.cell ref (mem_live.2 (.inl ⟨hr.1, by lia⟩))
  rw [decide_eq_true_iff, hins, Option.map_some] at hop
  rw [Option.some.inj hop, ho] at hiff
  have hlt := hiff.1 rfl
  omega

theorem live_nk (hpos : 0 < J.nk) (hle : J.nk ≤ refTrue) (hnk : J'.nk = J.nk - 1) :
    List.range' J'.nk (refTrue - J'.nk) = (J.nk - 1) :: List.range' J.nk (refTrue - J.nk) := by
  rw [hnk, show refTrue - (J.nk - 1) = refTrue - J.nk + 1 by lia, List.range'_succ, Nat.sub_add_cancel hpos]

/-- **A constant at the bottom**, which is not there yet. -/
theorem Wf.addK (h : Wf J) (a : Added J J' (J.nk - 1) ins) (hnins : J'.nins = J.nins) (hnk : J'.nk = J.nk - 1)
    (hconst : ins.o.isConst = true) (hroom : J.irbotlim < J.nk) (hpos : 1 < J.nk)
    (hnew : ∀ r i, J.nk ≤ r → r < refTrue → J.at r = some i → i.o = ins.o → i.key ≠ ins.key) : Wf J' := by
  have hle := h.nk_le
  have hbase : refTrue ≤ refBase := by decide
  have hrange := @live_nk J J' h.nk_pos hle hnk
  have hbot : J.irbotlim ≤ J.nk - 1 := by lia
  have hnot : J.nk - 1 ∉ J.live := fun hm => absurd (h.live_mem hm).1 (by omega)
  have hold := a.old h hnot
  have hk : ∀ r, J.nk ≤ r → r < refTrue → J'.at r = J.at r := fun r h₁ h₂ => hold r (mem_live.2 (.inr ⟨h₁, h₂⟩))
  have hcode : J'.codeRefs = J.codeRefs := by
    funext o
    rw [JitState.codeRefs, JitState.codeRefs, hnins]
    refine List.filter_congr fun r hr => ?_
    rw [List.mem_reverse, List.mem_range'_1] at hr
    rw [hold r (mem_live.2 (.inl ⟨hr.1, by lia⟩))]
  refine ⟨a.geom, by rw [a.bot, hnk]; exact hbot, by rw [a.top, hnins]; exact h.top, by lia, by lia,
    by rw [hnins]; exact h.first, by rw [hnins]; exact h.max, ?_, ?_, ?_, by rw [a.k64]; exact h.k64⟩
  · intro r hr
    rw [mem_live, hnins, hnk] at hr
    by_cases hr' : r = J.nk - 1
    · subst hr'
      exact ⟨ins, a.new hbot, by rw [hconst]; exact ⟨fun _ => by lia, fun _ => rfl⟩⟩
    · have hmem : r ∈ J.live := mem_live.2 (by lia)
      rw [hold r hmem]
      exact h.cell r hmem
  · intro o
    refine a.linked h hnot hbot (by rw [refTrue] at hle; lia) ?_
    have hfilter : ((List.range' J.nk (refTrue - J.nk)).filter fun ref => (J'.at ref).map IRIns.o = some o) =
        J.constRefs o := by
      refine List.filter_congr fun r hr => ?_
      rw [List.mem_range'_1] at hr
      rw [hk r hr.1 (by lia)]
    rw [refs_append, refs_append, hcode, JitState.constRefs, hrange, List.filter_cons, a.new hbot, hfilter]
    by_cases heq : ins.o = o
    · subst heq
      rw [if_pos rfl, if_pos (by rw [decide_eq_true_iff, Option.map_some]), h.codeRefs_nil hconst, List.nil_append,
        List.nil_append]
    · rw [if_neg heq, if_neg]
      rw [decide_eq_true_iff, Option.map_some]
      exact fun h' => heq (Option.some.inj h')
  · intro r r' i i' h₁ h₂ h₃ h₄ hi hi' ho hkey
    rw [hnk] at h₁ h₃
    by_cases hr : r = J.nk - 1 <;> by_cases hr' : r' = J.nk - 1
    · rw [hr, hr']
    · rw [hk r' (by lia) h₄] at hi'
      rw [hr, a.new hbot, Option.some.injEq] at hi
      subst hi
      exact absurd hkey.symm (hnew r' i' (by lia) h₄ hi' ho.symm)
    · rw [hk r (by lia) h₂] at hi
      rw [hr', a.new hbot, Option.some.injEq] at hi'
      subst hi'
      exact absurd hkey (hnew r i (by lia) h₂ hi ho)
    · rw [hk r (by lia) h₂] at hi
      rw [hk r' (by lia) h₄] at hi'
      exact h.once (by lia) h₂ (by lia) h₄ hi hi' ho hkey

/-! ### Emission -/

/-- The references below a bound hold what they held, and so do the addresses of constants. -/
structure Kept (n : ℕ) (J J' : JitState) : Prop where
  nk_le : J'.nk ≤ J.nk
  at_eq : ∀ ref, J.nk ≤ ref → ref < n → J'.at ref = J.at ref
  slots : ∀ tv u64, Slot J.k64 tv u64 → Slot J'.k64 tv u64

theorem Kept.trans {J'' : JitState} {m : ℕ} (h : Kept n J J') (h' : Kept m J' J'') (hn : n ≤ m) : Kept n J J'' := by
  refine ⟨h'.nk_le.trans h.nk_le, fun ref h₁ h₂ => ?_, fun tv u64 hs => h'.slots tv u64 (h.slots tv u64 hs)⟩
  rw [h'.at_eq ref (h.nk_le.trans h₁) (h₂.trans_le hn), h.at_eq ref h₁ h₂]

theorem Moved.kept (m : Moved J J') : Kept J.nins J J' :=
  ⟨m.nk.le, m.at_eq, fun tv u64 hs => by rw [m.k64]; exact hs⟩

theorem Added.kept (a : Added J J' ref ins) (hnk : J'.nk ≤ J.nk) (hbot : J.irbotlim ≤ J.nk)
    (hout : ref < J.nk ∨ n ≤ ref) : Kept n J J' := by
  refine ⟨hnk, fun r h₁ h₂ => ?_, fun tv u64 hs => by rw [a.k64]; exact hs⟩
  rw [a.at_eq r (hbot.trans h₁), Function.update_of_ne (by lia)]

theorem meets_get {α : Type} {f : JitState → M α} {Q : α → JitState → Prop} {E : Stop → JitState → Prop} :
    Meets (get >>= f) J Q E ↔ Meets (f J) J Q E := meets_read rfl

theorem meets_modify {α : Type} {g : JitState → JitState} {f : PUnit → M α} {Q : α → JitState → Prop}
    {E : Stop → JitState → Prop} : Meets (modify g >>= f) J Q E ↔ Meets (f ⟨⟩) (g J) Q E := meets_read rfl

/-- **The next reference**, for which the block has room. -/
theorem nextins_spec (h : Wf J) (alloc : Option ℤ) :
    Meets (nextins alloc) J (fun ref J' => ref = J.nins ∧ ∃ J₀, Moved J J₀ ∧ J.nins < J₀.irtoplim ∧
      J' = { J₀ with nins := J.nins + 1 }) (NoMem alloc J) := by
  have hmax := h.max
  have hadd : add32 J.nins 1 = J.nins + 1 := add32_eq (by omega)
  rw [nextins, meets_get, meets_get]
  dsimp only
  rw [hadd, meets_ite]
  refine ⟨fun hfull => ?_, fun hroom => ⟨rfl, J, .refl h.geom h.bot h.top, not_le.1 hroom, rfl⟩⟩
  refine Meets.bind ((growtop_spec h.geom h.bot (le_antisymm hfull h.top) h.max alloc).mono ?_ fun _ _ h' => h')
  intro _ J₀ hJ₀
  exact ⟨rfl, J₀, hJ₀.1, hJ₀.2.1, rfl⟩

/-- An instruction is added at the top of a block that may have moved. -/
theorem emit_added (h : Wf J) (alloc : Option ℤ) (op12 : BitVec 32) (t : BitVec 8) (o : IROp) :
    Meets (emit alloc op12 t o) J (fun r J' => r = ⟨J.nins, t⟩ ∧ ∃ J₀, Moved J J₀ ∧ J₀.nins < J₀.irtoplim ∧
      Added J₀ J' J₀.nins ⟨op12, t, o, J.chain o⟩ ∧ J'.nins = J₀.nins + 1 ∧ J'.nk = J₀.nk) (NoMem alloc J) := by
  rw [emit]
  refine Meets.bind ((nextins_spec h alloc).mono ?_ fun _ _ h' => h')
  rintro ref _ ⟨rfl, J₀, hmoved, hroom, rfl⟩
  have hg := hmoved.geom
  have hbot : J₀.irbotlim ≤ J.nins := by
    have hfirst : refFirst ≤ J.nins := h.first
    exact hmoved.bot.trans (h.nk_le.trans ((show refTrue ≤ refFirst by decide).trans hfirst))
  have g₁ : Geom { J₀ with nins := J.nins + 1 } := ⟨hg.biased, hg.size, hg.bot, hg.top, hg.bound⟩
  rw [meets_get]
  dsimp only
  obtain ⟨mem', hset, g₂, hat⟩ := setIr_spec g₁ hbot hroom ⟨op12, t, o, J₀.chain o⟩
  rw [meets_read hset, meets_read (show setChain o (irref1 J.nins) _ = .ok () _ from rfl)]
  refine ⟨rfl, J₀, hmoved, by rw [hmoved.nins]; exact hroom, ?_, by rw [hmoved.nins], rfl⟩
  rw [hmoved.nins, ← hmoved.chain]
  exact ⟨⟨g₂.biased, g₂.size, g₂.bot, g₂.top, g₂.bound⟩, rfl, rfl, hat, rfl, rfl, rfl⟩

/-- **Emission** adds the instruction with the link to the one before. -/
theorem emit_spec (h : Wf J) (hmax : J.nins < 2 ^ 16) (ho : o.isConst = false) (alloc : Option ℤ) (op12 : BitVec 32)
    (t : BitVec 8) :
    Meets (emit alloc op12 t o) J (fun r J' => Wf J' ∧ Kept J.nins J J' ∧ r = ⟨J.nins, t⟩ ∧ J'.nins = J.nins + 1 ∧
      J'.at J.nins = some ⟨op12, t, o, J.chain o⟩) (NoMem alloc J) := by
  refine (emit_added h alloc op12 t o).mono ?_ fun _ _ h' => h'
  rintro r J' ⟨rfl, J₀, hmoved, hroom, ha, hnins, hnk⟩
  have hwf := h.moved hmoved
  have hbot : J₀.irbotlim ≤ J₀.nins :=
    hwf.bot.trans (hwf.nk_le.trans ((show refTrue ≤ refFirst by decide).trans hwf.first))
  rw [← hmoved.nins] at hmax ⊢
  refine ⟨hwf.addIns ha hnins hnk ho hroom hmax, ?_, rfl, hnins, ha.new hbot⟩
  rw [hmoved.nins]
  exact hmoved.kept.trans (ha.kept hnk.le hwf.bot (.inr (le_refl J₀.nins))) hmoved.nins.ge

/-! ### Interning -/

/-- **The search of a chain**: the first reference that satisfies the test. -/
theorem findk_spec {p : IRIns → Bool} {head fuel : ℕ} {l : List ℕ} (h : Linked J.at head l) (hpos : ∀ ref ∈ l, ref ≠ 0)
    (hfuel : l.length < fuel) :
    ∃ found, findk p fuel head J = .ok found J ∧ (∀ ref, found = some ref → ref ∈ l ∧ ∃ ins, J.at ref = some ins ∧ p ins) ∧
      (found = none → ∀ ref ∈ l, ∀ ins, J.at ref = some ins → ¬p ins) := by
  induction h generalizing fuel with
  | nil =>
      cases fuel with
      | zero => exact absurd hfuel (Nat.not_lt_zero _)
      | succ fuel => exact ⟨none, rfl, nofun, fun _ => nofun⟩
  | @cons ref ins l hins _ ih =>
      cases fuel with
      | zero => exact absurd hfuel (Nat.not_lt_zero _)
      | succ fuel =>
          have hread : ir ref J = .ok ins J := by
            rw [ir, hins]
          rw [findk, if_neg (hpos ref List.mem_cons_self), bind_ok hread]
          cases hp : p ins with
          | true =>
              refine ⟨some ref, rfl, fun r hr => ?_, nofun⟩
              obtain rfl := Option.some.inj hr
              exact ⟨List.mem_cons_self, ins, hins, hp⟩
          | false =>
              obtain ⟨found, hrun, hsome, hnone⟩ :=
                @ih fuel (fun r hr => hpos r (List.mem_cons_of_mem _ hr)) (Nat.lt_of_succ_lt_succ hfuel)
              refine ⟨found, hrun, fun r hr => ?_, fun hn r hr i hi => ?_⟩
              · exact ⟨List.mem_cons_of_mem _ (hsome r hr).1, (hsome r hr).2⟩
              · rcases List.mem_cons.1 hr with rfl | hr
                · rw [hins, Option.some.injEq] at hi
                  rw [← hi, hp]
                  exact Bool.false_ne_true
                · exact hnone hn r hr i hi

/-- There is a reference for one more constant, and the lower limit does not pass zero for it. -/
def KRoom (J : JitState) : Prop := 1 < J.nk ∧ (J.nk ≤ J.irbotlim → J.botOfs ≤ J.irbotlim)

/-- **The next reference of a constant**, for which the block has room. -/
theorem nextk_spec (h : Wf J) (hroom : KRoom J) (alloc : Option ℤ) :
    Meets (nextk alloc) J (fun ref J' => ref = J.nk - 1 ∧ ∃ J₀, Moved J J₀ ∧ J₀.irbotlim < J.nk ∧
      J' = { J₀ with nk := J.nk - 1 }) (NoMem alloc J) := by
  have hsub : sub32 J.nk 1 = J.nk - 1 := sub32_eq h.nk_pos
  rw [nextk, meets_get, meets_get]
  dsimp only
  rw [hsub, meets_ite]
  refine ⟨fun hfull => ?_, fun hfree => ⟨rfl, J, .refl h.geom h.bot h.top, not_le.1 hfree, rfl⟩⟩
  refine Meets.bind ((growbot_spec h.geom (le_antisymm hfull h.bot) h.first h.top h.max (hroom.2 hfull) alloc).mono ?_
    fun _ _ h' => h')
  intro _ J₀ hJ₀
  exact ⟨rfl, J₀, hJ₀.1, hJ₀.2, rfl⟩

/-- The references of constants. -/
theorem Wf.mem_refs_const (h : Wf J) (ho : o.isConst = true) (hr : ref ∈ J.refs o) :
    J.nk ≤ ref ∧ ref < refTrue ∧ ∃ ins, J.at ref = some ins ∧ ins.o = o := by
  obtain ⟨hlive, ins, hins, hop⟩ := mem_refs.1 hr
  obtain ⟨ins', hins', hiff⟩ := h.cell ref hlive
  rw [hins, Option.some.injEq] at hins'
  rw [← hins', hop] at hiff
  have hlt := hiff.1 ho
  rcases mem_live.1 hlive with hcode | hk
  · omega
  · exact ⟨hk.1, hk.2, ins, hins, hop⟩

theorem Wf.length_refs_const (h : Wf J) (ho : o.isConst = true) : (J.refs o).length < refBase := by
  have hle : (J.constRefs o).length ≤ (List.range' J.nk (refTrue - J.nk)).length := List.length_filter_le _ _
  have hbase : refTrue < refBase := by decide
  rw [List.length_range'] at hle
  rw [refs_append, h.codeRefs_nil ho, List.nil_append]
  lia

/-- **Interning of a constant**: the reference of an instruction that passes the test, which is added if there is
none. -/
theorem internk_spec (h : Wf J) (ho : o.isConst = true) {p : IRIns → Bool} {op12 : BitVec 32} {t : BitVec 8}
    (hp : ∀ i : IRIns, i.o = o → (p i = true ↔ i.key = (⟨op12, t, o, 0⟩ : IRIns).key))
    (hroom : (∀ r i, J.nk ≤ r → r < refTrue → J.at r = some i → i.o = o → ¬p i) → KRoom J) (alloc : Option ℤ) :
    Meets (internk alloc o p op12 t) J (fun r J' => Wf J' ∧ Kept J.nins J J' ∧ J'.nins = J.nins ∧ J'.k64 = J.k64 ∧
      J'.nk ≤ r.ref ∧ r.ref < refTrue ∧ ∃ i, J'.at r.ref = some i ∧ i.o = o ∧ p i) (NoMem alloc J) := by
  obtain ⟨found, hfind, hsome, hnone⟩ := findk_spec (p := p) (h.linked o)
    (fun ref hr => (h.nk_pos.trans_le (h.mem_refs_const ho hr).1).ne') (h.length_refs_const ho)
  rw [internk, meets_get, meets_read hfind]
  cases found with
  | some ref =>
      obtain ⟨hmem, ins, hins, hpi⟩ := hsome ref rfl
      obtain ⟨hlo, hhi, ins', hins', hop⟩ := h.mem_refs_const ho hmem
      rw [hins, Option.some.injEq] at hins'
      subst hins'
      exact ⟨h, ⟨le_rfl, fun _ _ _ => rfl, fun _ _ => id⟩, rfl, rfl, hlo, hhi, ins, hins, hop, hpi⟩
  | none =>
      have habsent : ∀ r i, J.nk ≤ r → r < refTrue → J.at r = some i → i.o = o → ¬p i := by
        intro r i h₁ h₂ hi hio
        exact hnone rfl r (mem_refs.2 ⟨mem_live.2 (.inr ⟨h₁, h₂⟩), i, hi, hio⟩) i hi
      have hk := hroom habsent
      have hle := h.nk_le
      refine Meets.bind ((nextk_spec h hk alloc).mono ?_ fun _ _ h' => h')
      rintro ref _ ⟨rfl, J₀, hmoved, hfree, rfl⟩
      have hwf := h.moved hmoved
      have hg := hwf.geom
      have g₁ : Geom { J₀ with nk := J.nk - 1 } := ⟨hg.biased, hg.size, hg.bot, hg.top, hg.bound⟩
      have hbot : J₀.irbotlim ≤ J.nk - 1 := Nat.le_sub_one_of_lt hfree
      have htop : J.nk - 1 < J₀.irtoplim := by
        have hfirst := hg.top
        rw [refTrue] at hle
        rw [refFirst] at hfirst
        lia
      rw [meets_get]
      dsimp only
      obtain ⟨mem', hset, g₂, hat⟩ := setIr_spec g₁ hbot htop ⟨op12, t, o, J₀.chain o⟩
      rw [meets_read hset, meets_read (show setChain o (irref1 (J.nk - 1)) _ = .ok () _ from rfl)]
      have ha : Added J₀ { J₀ with
          nk := J.nk - 1
          mem := mem'
          chain := Function.update J₀.chain o (irref1 (J.nk - 1)) } (J₀.nk - 1) ⟨op12, t, o, J₀.chain o⟩ := by
        rw [hmoved.nk]
        exact ⟨⟨g₂.biased, g₂.size, g₂.bot, g₂.top, g₂.bound⟩, rfl, rfl, hat, rfl, rfl, rfl⟩
      have hpnew : p ⟨op12, t, o, J₀.chain o⟩ = true := (hp _ rfl).2 rfl
      have hpos : 1 < J₀.nk := by rw [hmoved.nk]; exact hk.1
      have hfree₀ : J₀.irbotlim < J₀.nk := by rw [hmoved.nk]; exact hfree
      refine ⟨hwf.addK ha rfl (by rw [hmoved.nk]) ho hfree₀ hpos ?_, ?_, hmoved.nins, hmoved.k64, le_rfl, ?_, _,
        ?_, rfl, hpnew⟩
      · intro r i h₁ h₂ hi hio hkey
        rw [hmoved.nk] at h₁
        rw [hmoved.at_eq r h₁ (by
          have hfirst : refFirst ≤ J.nins := h.first
          exact h₂.trans ((show refTrue < refFirst by decide).trans_le hfirst))] at hi
        exact habsent r i h₁ h₂ hi hio ((hp i hio).2 hkey)
      · refine hmoved.kept.trans (ha.kept ?_ hwf.bot (.inl ?_)) (le_refl J.nins)
        · change J.nk - 1 ≤ J₀.nk
          rw [hmoved.nk]
          lia
        · lia
      · change J.nk - 1 < refTrue
        have hpos' := h.nk_pos
        omega
      · have hnew := ha.new (by rw [hmoved.nk]; exact hbot)
        rw [hmoved.nk] at hnew
        exact hnew

end IrStore
