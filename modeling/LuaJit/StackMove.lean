/-
**Moving the Lua stack.**

`resizestack` reallocates the stack of a thread, and adds the distance in bytes to every pointer into
it.  Growing, shrinking and the recovery from an error choose the new size.  A pointer keeps its slot
index when it keeps its distance from the start of the stack.

`g->jit_base` is moved when it points into the stack; the test compares a distance in bytes with a number of
slots, and the larger of both sizes.

Main definitions:

* `Stack.Thread` — a thread, with the invariant of its sizes;
* `Stack.resizestack`, `Stack.growstack`, `Stack.shrinkstack`, `Stack.relimitstack` — the functions;
* `Stack.Moved`, `Stack.StepOk` — every pointer keeps its slot index;
* `Stack.Sound` — the condition on the sizes and on `jit_base`.

Main results:

* `Stack.resize_moved_iff` — a reallocation moves all pointers exactly when `jit_base` is tested right;
* `Stack.run_ok_iff` — **all steps of a run are right exactly when they meet the condition**.
-/

import Mathlib

set_option relaxedAutoImplicit false
set_option autoImplicit false

namespace Stack

/-! ### Threads -/

/-- `LUAI_MAXSTACK`. -/
def maxStack : ℕ := 65500

/-- `LUA_MINSTACK`. -/
def minStack : ℕ := 20

/-- `LJ_STACK_EXTRA`, with `LJ_FR2` or without. -/
def extra (fr2 : Bool) : ℕ := 5 + 2 * fr2.toNat

/-- `LJ_STACK_MAXEX`. -/
def maxEx (fr2 : Bool) : ℕ := maxStack + 1 + extra fr2

/-- `LJ_STACK_START`. -/
def start : ℕ := 2 * minStack

/-- A thread: pointers have `w` bits, values are of a type `α`.  `current` is `obj2gco(L) == cur_L`. -/
structure State (α : Type) (w : ℕ) where
  stack : BitVec w
  slots : List α
  stacksize : ℕ
  maxstack : BitVec w
  base : BitVec w
  top : BitVec w
  openupval : List (BitVec w)
  jitBase : BitVec w
  current : Bool

/-- The address of a slot. -/
def slotAddr {w : ℕ} (st : BitVec w) (i : ℕ) : BitVec w := st + BitVec.ofNat w (8 * i)

section
variable {α : Type} {w : ℕ} (nil : α) (fr2 : Bool)

/-- The stack has `stacksize` slots, whose bytes were allocated, and ends with the extra slots. -/
structure WF (s : State α w) : Prop where
  length : s.slots.length = s.stacksize
  room : extra fr2 + 1 ≤ s.stacksize
  size : s.stacksize < 2 ^ 29
  maxstack : s.maxstack = slotAddr s.stack (s.stacksize - extra fr2 - 1)

/-- A thread with its invariant. -/
structure Thread (α : Type) (w : ℕ) (fr2 : Bool) extends State α w where
  wf : WF fr2 toState

/-- The distance in bytes from the start of the stack, as a `size_t`. -/
def offset (s : State α w) (p : BitVec w) : ℕ := (p - s.stack).toNat

/-- `L->top - tvref(L->stack)`, in slots. -/
def slotDiff (s : State α w) (p : BitVec w) : ℤ := (p - s.stack).toInt / 8

/-! ### The functions -/

/-- `resizestack`, to a block at `st`: nothing when it writes beyond the end of the block, of which only the lower
32 bits of the size were asked for. -/
def resizestack (s : State α w) (n : ℕ) (st : BitVec w) : Option (State α w) :=
  let realsize := (n + 1 + extra fr2) % 2 ^ 32
  let block := 8 * realsize % 2 ^ 32 / 8
  if s.stacksize < realsize ∧ block < realsize then none
  else
    let delta := st - s.stack
    let oldsize := max s.stacksize realsize
    some {
      s with
      stack := st
      slots := s.slots.take realsize ++ List.replicate (realsize - s.stacksize) nil
      stacksize := realsize
      maxstack := slotAddr st n
      -- the old size has been counted up to the new one
      jitBase := if offset s s.jitBase < oldsize then s.jitBase + delta else s.jitBase
      base := s.base + delta
      top := s.top + delta
      openupval := s.openupval.map (· + delta) }

/-- The errors that are thrown. -/
inductive Err where
  | errerr
  | stkov
  | mem
  deriving DecidableEq

/-- A reallocation: nothing when there is no memory. -/
def realloc (s : State α w) (n : ℕ) (alloc : Option (BitVec w)) : Option (State α w × Option Err) :=
  match alloc with
  | none => some (s, some .mem)
  | some st => (resizestack nil fr2 s n st).map fun s' => (s', none)

/-- The size `n` of `lj_state_growstack`, modulo `2 ^ 32`. -/
def growSize (stacksize need : ℕ) : ℕ :=
  let n := (stacksize + need) % 2 ^ 32
  if maxStack < n then (n + 2 * minStack) % 2 ^ 32
  else if n < 2 * stacksize then
    if maxStack ≤ 2 * stacksize then maxStack else 2 * stacksize
  else n

/-- `lj_state_growstack`. -/
def growstack (s : State α w) (need : BitVec 32) (alloc : Option (BitVec w)) :
    Option (State α w × Option Err) :=
  if maxEx fr2 < s.stacksize then some (s, some .errerr)
  else
    (realloc nil fr2 s (growSize s.stacksize need.toNat) alloc).map fun r =>
      (r.1, if r.2 = none ∧ maxEx fr2 < r.1.stacksize then some .stkov else r.2)

/-- `lj_state_shrinkstack`, with the number of slots in use. -/
def shrinkstack (s : State α w) (used : BitVec 32) (alloc : Option (BitVec w)) :
    Option (State α w × Option Err) :=
  if maxEx fr2 < s.stacksize then some (s, none)
  else if (4 * used).toNat < s.stacksize ∧ 2 * (start + extra fr2) < s.stacksize ∧
      (s.jitBase = 0 ∨ s.current = false) then
    realloc nil fr2 s (s.stacksize / 2) alloc
  else some (s, none)

/-- `lj_state_relimitstack`. -/
def relimitstack (s : State α w) (alloc : Option (BitVec w)) : Option (State α w × Option Err) :=
  if maxEx fr2 < s.stacksize ∧ slotDiff s s.top < maxStack - 1 then realloc nil fr2 s maxStack alloc
  else some (s, none)

/-- The steps of a run, with the result of the allocation. -/
inductive Op (w : ℕ) where
  | grow (need : BitVec 32) (alloc : Option (BitVec w))
  | shrink (used : BitVec 32) (alloc : Option (BitVec w))
  | relimit (alloc : Option (BitVec w))

def step (s : State α w) : Op w → Option (State α w × Option Err)
  | .grow need alloc => growstack nil fr2 s need alloc
  | .shrink used alloc => shrinkstack nil fr2 s used alloc
  | .relimit alloc => relimitstack nil fr2 s alloc

/-! ### What a step keeps -/

/-- A pointer points into the stack. -/
def InStack (s : State α w) (p : BitVec w) : Prop := offset s p < 8 * s.stacksize

instance (s : State α w) (p : BitVec w) : Decidable (InStack s p) :=
  inferInstanceAs (Decidable (_ < _))

/-- Slots keep their contents, and pointers their slot index. -/
structure Moved (s s' : State α w) : Prop where
  kept : ∀ i, i < min s.stacksize s'.stacksize → s'.slots[i]? = s.slots[i]?
  fresh : ∀ i, s.stacksize ≤ i → i < s'.stacksize → s'.slots[i]? = some nil
  base : s'.base - s'.stack = s.base - s.stack
  top : s'.top - s'.stack = s.top - s.stack
  openupval : s'.openupval.map (· - s'.stack) = s.openupval.map (· - s.stack)
  jitBase : if InStack s s.jitBase then s'.jitBase - s'.stack = s.jitBase - s.stack
    else s'.jitBase = s.jitBase
  wf : WF fr2 s'

/-- The slot index of `maxstack`. -/
def maxIndex (s : State α w) : ℕ := s.stacksize - extra fr2 - 1

/-- A step is defined and keeps everything; without an error, growing has made room. -/
def StepOk (s : State α w) (op : Op w) : Prop :=
  ∃ s' e, step nil fr2 s op = some (s', e) ∧ Moved nil fr2 s s' ∧
    match op with
    | .grow need _ => e = none → maxIndex fr2 s + need.toNat ≤ maxIndex fr2 s'
    | _ => True

/-- Every step of a run is right. -/
def RunOk (s : State α w) : List (Op w) → Prop
  | [] => True
  | op :: ops => StepOk nil fr2 s op ∧ ∀ s' e, step nil fr2 s op = some (s', e) → RunOk s' ops

/-! ### The condition -/

/-- A reallocation to `n` slots moves `jit_base` when it should. -/
def JitOk (s : State α w) (n : ℕ) (st : BitVec w) : Prop :=
  st = s.stack ∨ (InStack s s.jitBase ↔ offset s s.jitBase < max s.stacksize (n + 1 + extra fr2))

/-- The size is counted in 29 bits, or the overflow is noticed. -/
def NeedOk (stacksize need : ℕ) : Prop :=
  stacksize + need + 2 * minStack + 1 + extra fr2 < 2 ^ 29 ∨ 2 ^ 32 + maxStack < stacksize + need

/-- The condition on a step. -/
@[grind =]
def Sound (s : State α w) : Op w → Prop
  | .grow need alloc =>
      maxEx fr2 < s.stacksize ∨
        match alloc with
        | none => True
        | some st => NeedOk fr2 s.stacksize need.toNat ∧
            JitOk fr2 s (growSize s.stacksize need.toNat) st
  | .shrink used alloc =>
      match alloc with
      | none => True
      | some st =>
          s.stacksize ≤ maxEx fr2 → (4 * used).toNat < s.stacksize →
            2 * (start + extra fr2) < s.stacksize → (s.jitBase = 0 ∨ s.current = false) →
              JitOk fr2 s (s.stacksize / 2) st
  | .relimit alloc =>
      match alloc with
      | none => True
      | some st => maxEx fr2 < s.stacksize → slotDiff s s.top < maxStack - 1 → JitOk fr2 s maxStack st

def RunSound (s : State α w) : List (Op w) → Prop
  | [] => True
  | op :: ops => Sound fr2 s op ∧ ∀ s' e, step nil fr2 s op = some (s', e) → RunSound s' ops

end

/-! ### A reallocation -/

section
variable {α : Type} {w : ℕ} {nil : α} {fr2 : Bool}

theorem add_sub_stack (p st old : BitVec w) : p + (st - old) - st = p - old := by
  ring

theorem extra_le (fr2 : Bool) : extra fr2 ≤ 7 := by cases fr2 <;> decide

/-- A reallocation to a size that fits. -/
theorem resizestack_eq {s : State α w} {n : ℕ} (hn : n + 1 + extra fr2 < 2 ^ 29)
    (st : BitVec w) :
    resizestack nil fr2 s n st = some {
      s with
      stack := st
      slots := s.slots.take (n + 1 + extra fr2) ++
        List.replicate (n + 1 + extra fr2 - s.stacksize) nil
      stacksize := n + 1 + extra fr2
      maxstack := slotAddr st n
      jitBase := if offset s s.jitBase < max s.stacksize (n + 1 + extra fr2) then
        s.jitBase + (st - s.stack) else s.jitBase
      base := s.base + (st - s.stack)
      top := s.top + (st - s.stack)
      openupval := s.openupval.map (· + (st - s.stack)) } := by
  have hmod : (n + 1 + extra fr2) % 2 ^ 32 = n + 1 + extra fr2 := Nat.mod_eq_of_lt (by omega)
  rw [resizestack]
  simp only [hmod]
  rw [if_neg (by lia)]

/-- The size does not fit: slots are written behind the block, or the sizes do not match. -/
theorem resizestack_misfit {s s' : State α w} {n : ℕ} {st : BitVec w} (hs : WF fr2 s)
    (hn32 : n < 2 ^ 32) (hn : ¬n + 1 + extra fr2 < 2 ^ 29)
    (h : resizestack nil fr2 s n st = some s') : ¬WF fr2 s' := by
  have hx := extra_le fr2
  have hsz := hs.size
  rw [resizestack] at h
  simp only at h
  split at h
  · cases h
  · rename_i hc
    cases Option.some.inj h
    intro hw
    have h1 := hw.room
    have h2 := hw.size
    simp only at h1 h2
    lia

/-- `jit_base` is right when it is moved, and should be. -/
theorem jitBase_iff (s : State α w) (n : ℕ) (st : BitVec w) :
    (if InStack s s.jitBase then
        (if offset s s.jitBase < max s.stacksize (n + 1 + extra fr2) then
          s.jitBase + (st - s.stack) else s.jitBase) - st = s.jitBase - s.stack
      else (if offset s s.jitBase < max s.stacksize (n + 1 + extra fr2) then
          s.jitBase + (st - s.stack) else s.jitBase) = s.jitBase) ↔ JitOk fr2 s n st := by
  by_cases hst : st = s.stack
  · subst hst
    simp [JitOk]
  · have hne : st - s.stack ≠ 0 := fun h => hst (by
      have := congrArg (· + s.stack) h
      simpa using this)
    rw [JitOk]
    by_cases hin : InStack s s.jitBase
    · rw [if_pos hin]
      by_cases ht : offset s s.jitBase < max s.stacksize (n + 1 + extra fr2)
      · rw [if_pos ht, add_sub_stack]
        exact ⟨fun _ => Or.inr ⟨fun _ => ht, fun _ => hin⟩, fun _ => rfl⟩
      · rw [if_neg ht]
        constructor
        · intro h
          have h' : st = s.stack := by
            have := congrArg (fun x => s.jitBase - x) h
            simpa using this
          exact Or.inl h'
        · rintro (h | h)
          · exact absurd h hst
          · exact absurd (h.1 hin) ht
    · rw [if_neg hin]
      by_cases ht : offset s s.jitBase < max s.stacksize (n + 1 + extra fr2)
      · rw [if_pos ht]
        constructor
        · intro h
          have h' : st - s.stack = 0 := by
            have := congrArg (fun x => x - s.jitBase) h
            simpa using this
          exact absurd h' hne
        · rintro (h | h)
          · exact absurd h hst
          · exact absurd (h.2 ht) hin
      · rw [if_neg ht]
        exact ⟨fun _ => Or.inr ⟨fun h => absurd h hin, fun h => absurd h ht⟩, fun _ => rfl⟩

/-- A reallocation moves every pointer, when the size fits and `jit_base` is tested right. -/
theorem resize_moved_iff {s : State α w} (hs : WF fr2 s) {n : ℕ} (hn : n + 1 + extra fr2 < 2 ^ 29)
    {st : BitVec w} {s' : State α w} (h : resizestack nil fr2 s n st = some s') :
    Moved nil fr2 s s' ↔ JitOk fr2 s n st := by
  rw [resizestack_eq hn] at h
  cases Option.some.inj h
  constructor
  · intro hm
    exact (jitBase_iff s n st).1 hm.jitBase
  · intro hj
    constructor
    case kept =>
      intro i hi
      simp only at hi ⊢
      rw [List.getElem?_append_left (by rw [List.length_take, hs.length]; lia),
        List.getElem?_take_of_lt (by lia)]
    case fresh =>
      intro i h1 h2
      simp only at h2 ⊢
      rw [List.getElem?_append_right (by rw [List.length_take, hs.length]; lia),
        List.length_take, hs.length, List.getElem?_replicate, if_pos (by lia)]
    case base => exact add_sub_stack _ _ _
    case top => exact add_sub_stack _ _ _
    case openupval =>
      simp only [List.map_map]
      exact List.map_congr_left fun p _ => add_sub_stack _ _ _
    case jitBase => exact (jitBase_iff s n st).2 hj
    case wf =>
      constructor
      · simp only [List.length_append, List.length_take, List.length_replicate, hs.length]
        lia
      · simp only
        omega
      · exact hn
      · simp only
        congr 1
        lia

theorem moved_refl {s : State α w} (hs : WF fr2 s) : Moved nil fr2 s s where
  kept _ _ := rfl
  fresh i h1 h2 := absurd h2 (by omega)
  base := rfl
  top := rfl
  openupval := rfl
  jitBase := by split <;> rfl
  wf := hs

/-- A reallocation to a size that fits. -/
theorem realloc_ok_iff {s : State α w} (hs : WF fr2 s) {n : ℕ} (hn : n + 1 + extra fr2 < 2 ^ 29)
    (alloc : Option (BitVec w)) :
    (∃ s' e, realloc nil fr2 s n alloc = some (s', e) ∧ Moved nil fr2 s s') ↔
      match alloc with
      | none => True
      | some st => JitOk fr2 s n st := by
  cases alloc with
  | none => exact ⟨fun _ => trivial, fun _ => ⟨s, some .mem, rfl, moved_refl hs⟩⟩
  | some st =>
    have he := @resizestack_eq _ _ nil _ s _ hn st
    constructor
    · rintro ⟨s', e, h, hm⟩
      simp only [realloc, he, Option.map_some, Option.some.injEq, Prod.mk.injEq] at h
      refine (@resize_moved_iff _ _ nil _ _ hs _ hn _ s' ?_).1 hm
      rw [he, h.1]
    · intro hj
      exact ⟨_, none, by rw [realloc, he]; rfl, (resize_moved_iff hs hn he).2 hj⟩

/-! ### Steps -/

theorem shrink_iff {s : State α w} (hs : WF fr2 s) (used : BitVec 32) (alloc : Option (BitVec w)) :
    StepOk nil fr2 s (.shrink used alloc) ↔ Sound fr2 s (.shrink used alloc) := by
  have hx := extra_le fr2
  have hsz := hs.size
  have hr := @realloc_ok_iff _ _ nil _ _ hs (s.stacksize / 2) (by lia) alloc
  have hid : ∀ P : Prop, (∃ s' e, some (s, (none : Option Err)) = some (s', e) ∧ Moved nil fr2 s s' ∧ True) :=
    fun _ => ⟨s, none, rfl, moved_refl hs, trivial⟩
  simp only [StepOk, step, shrinkstack, Sound, and_true]
  by_cases h1 : maxEx fr2 < s.stacksize
  · rw [if_pos h1]
    refine iff_of_true ⟨s, none, rfl, moved_refl hs⟩ ?_
    cases alloc with
    | none => trivial
    | some st => exact fun h => absurd h1 (by omega)
  · rw [if_neg h1]
    by_cases h2 : (4 * used).toNat < s.stacksize ∧ 2 * (start + extra fr2) < s.stacksize ∧
        (s.jitBase = 0 ∨ s.current = false)
    · rw [if_pos h2, hr]
      cases alloc with
      | none => rfl
      | some st => exact ⟨fun h _ _ _ _ => h, fun h => h (by omega) h2.1 h2.2.1 h2.2.2⟩
    · rw [if_neg h2]
      refine iff_of_true ⟨s, none, rfl, moved_refl hs⟩ ?_
      cases alloc with
      | none => trivial
      | some st => exact fun _ ha hb hc => absurd ⟨ha, hb, hc⟩ h2

theorem relimit_iff {s : State α w} (hs : WF fr2 s) (alloc : Option (BitVec w)) :
    StepOk nil fr2 s (.relimit alloc) ↔ Sound fr2 s (.relimit alloc) := by
  have hx := extra_le fr2
  have hr := @realloc_ok_iff _ _ nil _ _ hs maxStack (by simp only [maxStack]; omega) alloc
  simp only [StepOk, step, relimitstack, Sound, and_true]
  by_cases h : maxEx fr2 < s.stacksize ∧ slotDiff s s.top < maxStack - 1
  · rw [if_pos h, hr]
    cases alloc with
    | none => rfl
    | some st => exact ⟨fun hj _ _ => hj, fun hj => hj h.1 h.2⟩
  · rw [if_neg h]
    refine iff_of_true ⟨s, none, rfl, moved_refl hs⟩ ?_
    cases alloc with
    | none => trivial
    | some st => exact fun h1 h2 => absurd ⟨h1, h2⟩ h

/-! ### Growing -/

/-- The chosen size fits, and without an error it makes room, when the sum does not overflow or the
overflow is an error. -/
theorem growSize_iff {S need : ℕ} (hS : S ≤ maxEx fr2) (hx : extra fr2 + 1 ≤ S) (hneed : need < 2 ^ 32) :
    NeedOk fr2 S need ↔ growSize S need + 1 + extra fr2 < 2 ^ 29 ∧
      (growSize S need + 1 + extra fr2 ≤ maxEx fr2 → S + need ≤ growSize S need + 1 + extra fr2) := by
  have hx7 := extra_le fr2
  have hmax : maxStack = 65500 := rfl
  have hmin : minStack = 20 := rfl
  simp only [NeedOk, growSize, maxEx] at *
  rcases Nat.lt_or_ge (S + need) (2 ^ 32) with h | h
  · rw [Nat.mod_eq_of_lt h]
    by_cases h1 : maxStack < S + need
    · rw [if_pos h1]
      rcases Nat.lt_or_ge (S + need + 2 * minStack) (2 ^ 32) with h2 | h2
      · rw [Nat.mod_eq_of_lt h2]
        lia
      · have h3 : (S + need + 2 * minStack) % 2 ^ 32 = S + need + 2 * minStack - 2 ^ 32 := by lia
        lia
    · rw [if_neg h1]
      split
      · split <;> lia
      · lia
  · have h3 : (S + need) % 2 ^ 32 = S + need - 2 ^ 32 := by lia
    rw [h3]
    by_cases h1 : maxStack < S + need - 2 ^ 32
    · rw [if_pos h1, Nat.mod_eq_of_lt (by lia)]
      lia
    · rw [if_neg h1]
      split
      · split <;> lia
      · lia

theorem growSize_lt (S need : ℕ) (hS : S < 2 ^ 29) : growSize S need < 2 ^ 32 := by
  have hmax : maxStack = 65500 := rfl
  rw [growSize]
  split
  · lia
  · split
    · split <;> omega
    · lia

theorem grow_iff {s : State α w} (hs : WF fr2 s) (need : BitVec 32) (alloc : Option (BitVec w)) :
    StepOk nil fr2 s (.grow need alloc) ↔ Sound fr2 s (.grow need alloc) := by
  have hroom := hs.room
  simp only [StepOk, step, growstack, Sound]
  by_cases h1 : maxEx fr2 < s.stacksize
  · rw [if_pos h1]
    refine iff_of_true ⟨s, some .errerr, rfl, moved_refl hs, fun h => by cases h⟩ (Or.inl h1)
  · rw [if_neg h1, or_iff_right h1]
    cases alloc with
    | none =>
      refine iff_of_true ⟨s, some .mem, ?_, moved_refl hs, fun h => by cases h⟩ trivial
      simp [realloc]
    | some st =>
      have hg := @growSize_iff fr2 _ _ (by omega) hroom need.isLt
      simp only
      rw [hg]
      by_cases hfit : growSize s.stacksize need.toNat + 1 + extra fr2 < 2 ^ 29
      · have he := @resizestack_eq _ _ nil _ s _ hfit st
        have hm := fun s' => @resize_moved_iff _ _ nil _ _ hs _ hfit st s'
        simp only [realloc, he, Option.map_some]
        constructor
        · rintro ⟨s', e, h, hmoved, hroom'⟩
          simp only [Option.some.injEq, Prod.mk.injEq, true_and] at h
          obtain ⟨rfl, rfl⟩ := h
          refine ⟨⟨hfit, fun hle => ?_⟩, (hm _ he).1 hmoved⟩
          have := hroom' (if_neg (by omega))
          simp only [maxIndex] at this
          lia
        · rintro ⟨⟨-, hle⟩, hj⟩
          refine ⟨_, _, rfl, (hm _ he).2 hj, ?_⟩
          intro hnone
          simp only [true_and] at hnone
          split at hnone
          · cases hnone
          · rename_i hnot
            have := hle (by omega)
            simp only [maxIndex]
            lia
      · refine iff_of_false ?_ fun h => hfit h.1.1
        rintro ⟨s', e, h, hmoved, -⟩
        simp only [realloc, Option.map_map, Option.map_eq_some_iff, Function.comp_apply,
          Prod.mk.injEq] at h
        obtain ⟨s'', hr, rfl, -⟩ := h
        exact resizestack_misfit hs (growSize_lt _ _ hs.size) hfit hr hmoved.wf

/-- A step is right exactly when it meets the condition. -/
theorem step_ok_iff {s : State α w} (hs : WF fr2 s) (op : Op w) :
    StepOk nil fr2 s op ↔ Sound fr2 s op := by
  cases op with
  | grow need alloc => exact grow_iff hs need alloc
  | shrink used alloc => exact shrink_iff hs used alloc
  | relimit alloc => exact relimit_iff hs alloc

/-- A right step keeps the invariant. -/
theorem StepOk.wf {s s' : State α w} {op : Op w} {e : Option Err} (h : StepOk nil fr2 s op)
    (hs : step nil fr2 s op = some (s', e)) : WF fr2 s' := by
  obtain ⟨t, e', ht, hm, -⟩ := h
  rw [hs] at ht
  cases ht
  exact hm.wf

end

/-! ### Runs -/

/-- **Moving the stack.**  In a run of growing, shrinking and relimiting the stack of a thread, all steps keep the
slots, the slot indexes of all pointers and the place of `maxstack`, and growing makes room, exactly when every step meets
the condition. -/
theorem run_ok_iff {α : Type} {w : ℕ} (nil : α) (fr2 : Bool) (L : Thread α w fr2) (ops : List (Op w)) :
    RunOk nil fr2 L.toState ops ↔ RunSound nil fr2 L.toState ops := by
  obtain ⟨s, hs⟩ := L
  change RunOk nil fr2 s ops ↔ RunSound nil fr2 s ops
  induction ops generalizing s with
  | nil => exact Iff.rfl
  | cons op ops ih =>
    rw [RunOk, RunSound, ← @step_ok_iff _ _ nil _ _ hs op]
    refine and_congr_right fun hok => ?_
    constructor
    · intro h s' e he
      exact (ih s' (hok.wf he)).1 (h s' e he)
    · intro h s' e he
      exact (ih s' (hok.wf he)).2 (h s' e he)

/-- A thread with 45 slots at `0x10000`, and `jit_base` in slot 20. -/
def jitThread : Thread ℕ 64 false where
  stack := 0x10000
  slots := List.replicate 45 0
  stacksize := 45
  maxstack := 0x10000 + 8 * 39
  base := 0x10000 + 8 * 20
  top := 0x10000 + 8 * 30
  openupval := [0x10000 + 8 * 25]
  jitBase := 0x10000 + 8 * 20
  current := true
  wf := ⟨by decide, by decide, by decide, by decide⟩

/-- The stack grows to 96 slots at `0x20000`: `jit_base` is 160 bytes behind the start, and stays. -/
theorem jit_base_not_moved :
    InStack jitThread.toState jitThread.jitBase ∧
      (∃ s', step 0 false jitThread.toState (.grow 1 (some 0x20000)) = some (s', none) ∧
        s'.stack = 0x20000 ∧ s'.base = 0x20000 + 8 * 20 ∧ s'.jitBase = 0x10000 + 8 * 20) ∧
      ¬StepOk 0 false jitThread.toState (.grow 1 (some 0x20000)) := by
  refine ⟨by decide, ⟨_, rfl, rfl, rfl, rfl⟩, ?_⟩
  rintro ⟨s', e, h, hm, -⟩
  cases Option.some.inj h
  have hj := hm.jitBase
  rw [if_pos (by decide)] at hj
  exact absurd hj (by decide)

end Stack
