/-
**The operands of the DynASM engine for ARM.**

`dasm_put` walks over a list of actions, checks the operands and stores them; `dasm_encode` walks over
the same actions again, emits the instruction words, and or's the operands into the last word.  The
linking of labels in between is not part of this module: the stored references to labels and the
final positions of labels are parameters.  All checks are compiled in (`DASM_CHECKS`).

What the actions mean is read off the same lists: a word, and for each operand a field of it and a
value, which is an argument of `dasm_put`, or a distance.

Main definitions:

* `Dasm.put`, `Dasm.encode` — the two passes;
* `Dasm.Field`, `Dasm.Field.decode` — the fields of ARM instructions, and what they say;
* `Dasm.items` — the instructions that are meant;
* `Dasm.Correct` — an emitted word has the operands that were meant, and no other bit differs;
* `Dasm.Edge` — the distances that the checks admit and the fields cannot hold.
-/

import Mathlib

set_option relaxedAutoImplicit false
set_option autoImplicit false

namespace Dasm

abbrev Word := BitVec 32

/-! ### Actions -/

/-- The actions.  Every other word is an instruction. -/
inductive Action where
  | stop
  | sect
  | esc
  | relExt
  | align
  | relLg
  | labelLg
  | relPc
  | labelPc
  | imm
  | imm12
  | imm16
  | imml8
  | imml12
  | immv8
  | ins
  deriving DecidableEq

/-- `action = (ins >> 16)`. -/
def action (ins : Word) : Action :=
  match (ins >>> 16).toNat with
  | 0 => .stop
  | 1 => .sect
  | 2 => .esc
  | 3 => .relExt
  | 4 => .align
  | 5 => .relLg
  | 6 => .labelLg
  | 7 => .relPc
  | 8 => .labelPc
  | 9 => .imm
  | 10 => .imm12
  | 11 => .imm16
  | 12 => .imml8
  | 13 => .imml12
  | 14 => .immv8
  | _ => .ins

/-- `(ins>>10)&31`, `(ins>>5)&31` and `ins&31`. -/
def scale (ins : Word) : ℕ := (ins.extractLsb' 10 5).toNat
def bits (ins : Word) : ℕ := (ins.extractLsb' 5 5).toNat
def shift (ins : Word) : ℕ := (ins.extractLsb' 0 5).toNat

/-- `ins & 0x8000`. -/
def signed (ins : Word) : Bool := ins.getLsbD 15

/-- The lowest bits. -/
def ones (n : ℕ) : Word := (1#32 <<< n) - 1

/-- An emitted word, or an action of the list. -/
inductive Act where
  | word (w : Word)
  | act (a : Action) (ins : Word)

/-- The actions up to the end of the list: an escape is followed by a word. -/
def parse : List Word → List Act
  | [] => []
  | [ins] =>
      match action ins with
      | .stop | .sect | .esc => []
      | .ins => [.word ins]
      | a => [.act a ins]
  | ins :: w :: p =>
      match action ins with
      | .stop | .sect => []
      | .esc => .word w :: parse p
      | .ins => .word ins :: parse (w :: p)
      | a => .act a ins :: parse (w :: p)

/-- The error codes that are reported. -/
inductive Status where
  | rangeI
  | rangeRel
  | undefLg
  | undefPc
  | phase
  deriving DecidableEq

/-! ### The first pass -/

/-- The loop of `dasm_imm12`, with `i` of the 16 rotations left. -/
def dasmImm12Loop (n : Word) : ℕ → Option Word
  | 0 => none
  | i + 1 =>
      if n.ule 255 then some (n + (BitVec.ofNat 32 (15 - i) <<< 8))
      else dasmImm12Loop ((n <<< 2) ||| (n >>> 30)) i

/-- `dasm_imm12`: nothing for -1. -/
def dasmImm12 (n : Word) : Option Word := dasmImm12Loop n 16

/-- The checks of `dasm_put` for an immediate, and what is stored. -/
def putImm (ins n : Word) : Except Status Word :=
  match action ins with
  | .imm | .imm16 =>
      if n &&& ones (scale ins) ≠ 0 then .error .rangeI
      else if signed ins then
        if (n + (1#32 <<< (bits ins - 1))).sshiftRight (bits ins) = 0 then .ok n else .error .rangeI
      else if n.sshiftRight (bits ins) = 0 then .ok n
      else .error .rangeI
  | .immv8 =>
      if n &&& 3 ≠ 0 then .error .rangeI
      else
        let n := n.sshiftRight 2
        if (if 0 ≤ n.toInt then n else -n).sshiftRight (bits ins) = 0 then .ok n
        else .error .rangeI
  | .imml8 | .imml12 =>
      if (if 0 ≤ n.toInt then n else -n).sshiftRight (bits ins) = 0 then .ok n else .error .rangeI
  | _ => if (dasmImm12 n).isSome then .ok n else .error .rangeI

/-- One more entry in the buffer. -/
def push (n : Word) (rest : Except Status (List Word)) : Except Status (List Word) :=
  match rest with
  | .ok ns => .ok (n :: ns)
  | .error e => .error e

/-- The entries of the buffer after `dasm_put` and the link pass, for the arguments of `dasm_put`;
`links` are the entries of references, labels and alignments after the link pass. -/
def put : List Act → List Word → List Word → Except Status (List Word)
  | [], _, _ => .ok []
  | .word _ :: p, args, links => put p args links
  | .act a ins :: p, args, links =>
      match a with
      | .stop | .sect => .ok []
      | .relExt | .esc | .ins => put p args links
      | .align | .relLg | .labelLg => push (links.headD 0) (put p args links.tail)
      | .relPc | .labelPc => push (links.headD 0) (put p args.tail links.tail)
      | .imm | .imm12 | .imm16 | .imml8 | .imml12 | .immv8 =>
          match putImm ins (args.headD 0) with
          | .ok n => push n (put p args.tail links)
          | .error e => .error e

/-! ### The last pass -/

/-- What the last pass reads: `*DASM_POS2PTR(D, n)`, and `DASM_EXTERN`. -/
structure Env where
  pos : Word → Word
  externAddr : ℕ → Word → Bool → Word

/-- The fields of an instruction: an immediate, a rotated constant, the halves of a 16 bit constant,
offsets with a sign of 8 split bits, of 12 bits and of 8 bits times 4, and a branch offset. -/
inductive Field where
  | imm (scale bits shift : ℕ) (signed : Bool)
  | imm12
  | imm16
  | l8
  | l12
  | v8
  | rel24
  deriving DecidableEq

/-- A value with the bit for its sign. -/
@[grind =]
def withSign (n x : Word) : Word := if 0 ≤ n.toInt then 0x00800000#32 ||| x else x

/-- `n >= 0 ? n : -n`. -/
def absWord (n : Word) : Word := if 0 ≤ n.toInt then n else -n

/-- What `dasm_encode` or's into the word. -/
@[grind =]
def Field.patch (n : Word) : Field → Word
  | imm scale bits shift _ => (n.sshiftRight scale &&& ones bits) <<< shift
  | imm12 => (dasmImm12 n).getD (BitVec.allOnes 32)
  | imm16 => ((n &&& 0xf000#32) <<< 4) ||| (n &&& 0x0fff#32)
  | l8 => withSign n ((absWord n &&& 0x0f#32) ||| ((absWord n &&& 0xf0#32) <<< 4))
  | l12 => withSign n (absWord n)
  | v8 => withSign n (absWord n)
  | rel24 => n.sshiftRight 2 &&& 0x00ffffff#32

/-- The field of an immediate. -/
def immField (ins : Word) : Field :=
  match action ins with
  | .imm => .imm (scale ins) (bits ins) (shift ins) (signed ins)
  | .imm16 => .imm16
  | .imml8 => .l8
  | .imml12 => .l12
  | .immv8 => .v8
  | _ => .imm12

/-- The field of a reference. -/
def relField (ins : Word) : Field :=
  if ins.getLsbD 11 = false then .rel24
  else if ins.getLsbD 12 then .l8
  else if ins.getLsbD 13 = false then .l12
  else .v8

/-- `patchrel`: the checks of a distance, and what is or'ed into the word. -/
def patchrel (ins n : Word) : Except Status Word :=
  if n &&& 3 ≠ 0 then .error .rangeRel
  else
    match relField ins with
    | .rel24 =>
        if (n + 0x02000000#32).sshiftRight 26 = 0 then .ok (Field.rel24.patch n) else .error .rangeRel
    | .l8 => if -256 ≤ n.toInt ∧ n.toInt ≤ 256 then .ok (Field.l8.patch n) else .error .rangeRel
    | .l12 => if -4096 ≤ n.toInt ∧ n.toInt ≤ 4096 then .ok (Field.l12.patch n) else .error .rangeRel
    | _ =>
        if -1020 ≤ n.toInt ∧ n.toInt ≤ 1020 then .ok (Field.v8.patch (n.sshiftRight 2))
        else .error .rangeRel

/-- `cp[-1] |= x`. -/
def orLast (x : Word) : List Word → List Word
  | [] => []
  | w :: ws => (w ||| x) :: ws

/-- The loop of an alignment; the emitted words stand in the reverse order. -/
def pad (mask : ℕ) : ℕ → List Word → List Word
  | 0, acc => acc
  | i + 1, acc => if 4 * acc.length &&& mask = 0 then acc else pad mask i (0xe1a00000#32 :: acc)

/-- The distance from the instruction at `cp[-1]` to a label, as the program counter has it. -/
def distance (E : Env) (n : Word) (k : ℕ) : Word := E.pos n - BitVec.ofNat 32 (4 * k) - 4

/-- `dasm_encode` for the actions of one `dasm_put`: the emitted words, behind those in `acc`. -/
def encode (E : Env) : List Act → List Word → List Word → Except Status (List Word)
  | [], _, acc => .ok acc
  | .word w :: p, b, acc => encode E p b (w :: acc)
  | .act a ins :: p, b, acc =>
      match a with
      | .stop | .sect => .ok acc
      | .esc | .ins => encode E p b acc
      | .relExt =>
          match patchrel ins (E.externAddr (4 * acc.length) (ins &&& 2047) (!ins.getLsbD 11)) with
          | .ok x => encode E p b (orLast x acc)
          | .error e => .error e
      | .align => encode E p b.tail (pad (ins &&& 255).toNat 64 acc)
      | .relLg | .relPc =>
          if (b.headD 0).toInt < 0 then .error (if a = .relLg then .undefLg else .undefPc)
          else
            match patchrel ins (distance E (b.headD 0) acc.length) with
            | .ok x => encode E p b.tail (orLast x acc)
            | .error e => .error e
      | .labelLg | .labelPc => encode E p b.tail acc
      | .imm | .imm12 | .imm16 | .imml8 | .imml12 | .immv8 =>
          encode E p b.tail (orLast ((immField ins).patch (b.headD 0)) acc)

/-- The `dasm_put` calls of all sections, in the order of the code: the start of the actions, the
arguments, and the entries after the link pass. -/
structure Call where
  actions : List Word
  args : List Word
  links : List Word

/-- `dasm_put` for all calls, and then `dasm_encode`; the emitted words stand in the reverse order. -/
def assemble (E : Env) : List Call → List Word → Except Status (List Word)
  | [], acc => .ok acc
  | c :: cs, acc =>
      match put (parse c.actions) c.args c.links with
      | .error e => .error e
      | .ok b =>
          match encode E (parse c.actions) b acc with
          | .error e => .error e
          | .ok acc => assemble E cs acc

/-! ### What is meant -/

/-- What a field of an instruction says. -/
def Field.decode (w : Word) : Field → ℤ
  | imm scale bits shift sgn =>
      let u : ℤ := ((w >>> shift) &&& ones bits).toNat
      (if sgn = true ∧ 2 ^ bits ≤ 2 * u then u - 2 ^ bits else u) * 2 ^ scale
  | imm12 => ((w.extractLsb' 0 8).setWidth 32 |>.rotateRight (2 * (w.extractLsb' 8 4).toNat)).toInt
  | imm16 => (w.extractLsb' 16 4 ++ w.extractLsb' 0 12).toNat
  | l8 =>
      let x : ℤ := (w.extractLsb' 8 4 ++ w.extractLsb' 0 4).toNat
      if w.getLsbD 23 then x else -x
  | l12 => if w.getLsbD 23 then (w.extractLsb' 0 12).toNat else -(w.extractLsb' 0 12).toNat
  | v8 => if w.getLsbD 23 then 4 * (w.extractLsb' 0 8).toNat else -4 * (w.extractLsb' 0 8).toNat
  | rel24 => 4 * (w.extractLsb' 0 24).toInt

/-- The bits of a field. -/
def Field.mask : Field → Word
  | imm _ bits shift _ => ones bits <<< shift
  | imm12 => 0x00000fff#32
  | imm16 => 0x000f0fff#32
  | l8 => 0x00800f0f#32
  | l12 => 0x00800fff#32
  | v8 => 0x008000ff#32
  | rel24 => 0x00ffffff#32

/-- An operand of an instruction: a field, its value, and whether the value is a distance. -/
structure Operand where
  field : Field
  value : ℤ
  isRel : Bool
  deriving DecidableEq

/-- An instruction that is meant: its word, and its operands. -/
structure Item where
  template : Word
  ops : List Operand

/-- One more operand for the last instruction. -/
def addOp (o : Operand) : List Item → List Item
  | [] => []
  | i :: is => { i with ops := o :: i.ops } :: is

def padItems (mask : ℕ) : ℕ → List Item → List Item
  | 0, acc => acc
  | i + 1, acc => if 4 * acc.length &&& mask = 0 then acc else padItems mask i (⟨0xe1a00000#32, []⟩ :: acc)

/-- The instructions of one `dasm_put`, with the arguments that are passed and the distances to labels. -/
def items (E : Env) : List Act → List Word → List Word → List Item → List Item
  | [], _, _, acc => acc
  | .word w :: p, args, links, acc => items E p args links (⟨w, []⟩ :: acc)
  | .act a ins :: p, args, links, acc =>
      match a with
      | .stop | .sect => acc
      | .esc | .ins => items E p args links acc
      | .relExt =>
          let n := E.externAddr (4 * acc.length) (ins &&& 2047) (!ins.getLsbD 11)
          items E p args links (addOp ⟨relField ins, n.toInt, true⟩ acc)
      | .align => items E p args links.tail (padItems (ins &&& 255).toNat 64 acc)
      | .relLg =>
          items E p args links.tail
            (addOp ⟨relField ins, (distance E (links.headD 0) acc.length).toInt, true⟩ acc)
      | .relPc =>
          items E p args.tail links.tail
            (addOp ⟨relField ins, (distance E (links.headD 0) acc.length).toInt, true⟩ acc)
      | .labelLg => items E p args links.tail acc
      | .labelPc => items E p args.tail links.tail acc
      | .imm | .imm12 | .imm16 | .imml8 | .imml12 | .immv8 =>
          items E p args.tail links (addOp ⟨immField ins, (args.headD 0).toInt, false⟩ acc)

def allItems (E : Env) : List Call → List Item → List Item
  | [], acc => acc
  | c :: cs, acc => allItems E cs (items E (parse c.actions) c.args c.links acc)

/-- The bits of all operands. -/
def Item.mask (i : Item) : Word := i.ops.foldr (fun o m => o.field.mask ||| m) 0

/-- Every operand decodes to its value, and no other bit has changed. -/
structure Correct (i : Item) (w : Word) : Prop where
  value : ∀ o ∈ i.ops, o.field.decode w = o.value
  frame : w &&& ~~~i.mask = i.template &&& ~~~i.mask

/-! ### Well-formed action lists -/

/-- An immediate fits into the word. -/
def WFImm (ins : Word) : Prop :=
  match action ins with
  | .imm => bits ins + shift ins ≤ 32 ∧ (signed ins = true → 0 < bits ins)
  | .imm16 => bits ins ≤ 16 ∧ signed ins = false
  | .imml8 => bits ins ≤ 8
  | .imml12 => bits ins ≤ 12
  | .immv8 => bits ins ≤ 8
  | _ => True

/-- The fields of an instruction are free: they have no bit of the word, and of no other field.  No
operand stands before the first instruction. -/
def WFActs (occ : Word) : List Act → Prop
  | [] => True
  | .word w :: p => WFActs w p
  | .act a ins :: p =>
      match a with
      | .align => WFActs (BitVec.allOnes 32) p
      | .relExt | .relLg | .relPc =>
          occ &&& (relField ins).mask = 0 ∧ WFActs (occ ||| (relField ins).mask) p
      | .imm | .imm12 | .imm16 | .imml8 | .imml12 | .immv8 =>
          WFImm ins ∧ occ &&& (immField ins).mask = 0 ∧ WFActs (occ ||| (immField ins).mask) p
      | _ => WFActs occ p

/-- A well-formed action list. -/
def WF (p : List Word) : Prop := WFActs (BitVec.allOnes 32) (parse p)

/-- A distance that the check admits and the field cannot hold. -/
def Edge (o : Operand) : Prop :=
  o.isRel = true ∧ ((o.field = .l8 ∧ (o.value = 256 ∨ o.value = -256)) ∨
    (o.field = .l12 ∧ (o.value = 4096 ∨ o.value = -4096)))

end Dasm
