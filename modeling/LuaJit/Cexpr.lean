/-
**Constant expressions in C declarations.**

The parser of C declarations evaluates integer constant expressions while it parses them.  The infix
operators are parsed by precedence climbing: `cp_expr_infix` is one `switch` over the levels that
falls through from the lowest level it may take to the highest one, and starts over after each operator.

The model has the tokens as a list.  What casts, `sizeof`, pointers and members need of the type table
is a parameter.  The functions call each other with a number of calls that they may still make.

Main definitions:

* `Cexpr.CPValue`, `Cexpr.Op`, `Cexpr.Tok` — values, infix operators, tokens;
* `Cexpr.Op.level`, `Cexpr.Op.result` — the level of an operator, and what it computes;
* `Cexpr.exprUnary`, `Cexpr.exprInfix`, `Cexpr.exprSub` — the parser.
-/

import LuaJit.CparseNest

set_option relaxedAutoImplicit false
set_option autoImplicit false

namespace Cexpr

open CparseNest (maxDecldepth)

/-! ### Values -/

/-- `CTID_INT32`. -/
def ctidInt32 : ℕ := 9

/-- `CTID_UINT32`. -/
def ctidUint32 : ℕ := 10

/-- `CTID_A_CCHAR`. -/
def ctidACchar : ℕ := 20

/-- A `CPValue`. -/
structure CPValue where
  u32 : BitVec 32
  id : ℕ
  deriving DecidableEq

/-- A truth value. -/
def flag (b : Bool) : CPValue := ⟨if b = true then 1 else 0, ctidInt32⟩

/-! ### Operators -/

/-- The infix operators. -/
inductive Op
  | oror | andand | or | xor | and | eq | ne | lt | gt | le | ge | shl | shr
  | add | sub | mul | div | mod
  deriving DecidableEq

/-- The `case` of an operator. -/
def Op.level : Op → ℕ
  | .oror => 1
  | .andand => 2
  | .or => 3
  | .xor => 4
  | .and => 5
  | .eq | .ne => 6
  | .lt | .gt | .le | .ge => 7
  | .shl | .shr => 8
  | .add | .sub => 9
  | .mul | .div | .mod => 10

/-- Trivial promotion to unsigned. -/
def promote (k k2 : CPValue) : ℕ := if k.id < k2.id then k2.id else k.id

/-- A comparison, signed if both operands are. -/
def compare (signed unsigned : BitVec 32 → BitVec 32 → Bool) (k k2 : CPValue) : CPValue :=
  flag (if k.id = ctidInt32 ∧ k2.id = ctidInt32 then signed k.u32 k2.u32 else unsigned k.u32 k2.u32)

/-- A division, which checks for the cases without a result. -/
def divide (signed unsigned : BitVec 32 → BitVec 32 → BitVec 32) (k k2 : CPValue) : Option CPValue :=
  let id := promote k k2
  if k2.u32 = 0 ∨ (id = ctidInt32 ∧ k.u32 = 0x80000000 ∧ k2.u32 = -1) then none
  else some ⟨if id = ctidInt32 then signed k.u32 k2.u32 else unsigned k.u32 k2.u32, id⟩

/-- What an operator computes.  In C a shift by 32 or more is undefined. -/
def Op.result (k k2 : CPValue) : Op → Option CPValue
  | .oror => some (flag (k.u32 != 0 || k2.u32 != 0))
  | .andand => some (flag (k.u32 != 0 && k2.u32 != 0))
  | .or => some ⟨k.u32 ||| k2.u32, promote k k2⟩
  | .xor => some ⟨k.u32 ^^^ k2.u32, promote k k2⟩
  | .and => some ⟨k.u32 &&& k2.u32, promote k k2⟩
  | .eq => some (flag (k.u32 == k2.u32))
  | .ne => some (flag (k.u32 != k2.u32))
  | .lt => some (compare (fun a b => a.slt b) (fun a b => a.ult b) k k2)
  | .gt => some (compare (fun a b => b.slt a) (fun a b => b.ult a) k k2)
  | .le => some (compare (fun a b => a.sle b) (fun a b => a.ule b) k k2)
  | .ge => some (compare (fun a b => b.sle a) (fun a b => b.ule a) k k2)
  | .shl => some { k with u32 := k.u32 <<< k2.u32.toNat }
  | .shr =>
      some
        { k with
          u32 := if k.id = ctidInt32 then k.u32.sshiftRight k2.u32.toNat else k.u32 >>> k2.u32.toNat }
  | .add => some ⟨k.u32 + k2.u32, promote k k2⟩
  | .sub => some ⟨k.u32 - k2.u32, promote k k2⟩
  | .mul => some ⟨k.u32 * k2.u32, promote k k2⟩
  | .div => divide BitVec.sdiv BitVec.udiv k k2
  | .mod => divide BitVec.srem BitVec.umod k k2

/-! ### Tokens -/

/-- What an identifier names. -/
inductive Ident
  | typedef
  | constval (size : BitVec 32) (cid : ℕ)
  | externDecl (id cid : ℕ)
  | func (id : ℕ)
  | other
  deriving DecidableEq

/-- The tokens.  The unary operators `+ - * &` are those of the infix operators. -/
inductive Tok
  | integer (val : CPValue)
  | string (len : BitVec 32)
  | ident (name : ℕ) (ct : Ident)
  | op (o : Op)
  | not | compl
  | lparen | rparen | lbrack | rbrack
  | question | colon | comma | dot | deref
  | sizeof | alignof
  /-- The keywords of declarations. -/
  | decl (n : ℕ)
  | dollar
  | other (c : ℕ)
  | eof
  deriving DecidableEq

/-- `cp_istypedecl`. -/
def istypedecl : Tok → Bool
  | .decl _ | .ident _ .typedef | .dollar => true
  | _ => false

/-- The state of the parser: the tokens, the current one first, the depth, and the type table. -/
structure CPState (σ : Type) where
  toks : List Tok
  depth : ℕ
  cts : σ

variable {σ : Type}

/-- The current token. -/
def CPState.tok (s : CPState σ) : Tok := s.toks.headD .eof

/-- `cp_next`. -/
def CPState.next (s : CPState σ) : CPState σ := { s with toks := s.toks.tail }

/-- `cp_check`. -/
def CPState.check (s : CPState σ) (t : Tok) : Option (CPState σ) :=
  if s.tok = t then some s.next else none

/-- What the expressions need of types: `cp_decl_abstract`; `lj_ctype_info`, with the alignment and
the size; the target of a pointer; the pointer to a type; and a member of a struct, or of the struct
that is pointed to, with its constant value. -/
structure Types (σ : Type) where
  declAbstract : CPState σ → Option (ℕ × CPState σ)
  info : σ → ℕ → ℕ × BitVec 32
  pointee : σ → ℕ → Option ℕ
  internPtr : σ → ℕ → Option (ℕ × σ)
  member : σ → Bool → ℕ → ℕ → Option (BitVec 32 × ℕ)

/-- `CTSIZE_INVALID`. -/
def ctsizeInvalid : BitVec 32 := 0xffffffff

/-- The strings that follow each other: their length, and the tokens behind. -/
def strings : List Tok → BitVec 32 × List Tok
  | .string len :: toks => (len + (strings toks).1, (strings toks).2)
  | toks => (0, toks)

/-! ### The parser -/

variable (types : Types σ)

/-- The value of `sizeof` or `alignof`. -/
def sizeofValue (s : CPState σ) (wantsz : Bool) (k : CPValue) : Option CPValue :=
  let (align, sz) := types.info s.cts k.id
  if wantsz = true then
    if sz ≠ ctsizeInvalid then some ⟨sz, ctidUint32⟩
    -- special case for `sizeof("string")`
    else if k.id = ctidACchar then some ⟨k.u32, ctidUint32⟩ else none
  else some ⟨1 <<< align, ctidUint32⟩

mutual

/-- `cp_expr_comma`. -/
def exprComma : ℕ → CPState σ → Option (CPValue × CPState σ)
  | 0, _ => none
  | n + 1, s =>
      (exprSub n s 0).bind fun (k, s) =>
        if s.tok = .comma then exprComma n s.next else some (k, s)

/-- `cp_expr_sizeof`. -/
def exprSizeof : ℕ → CPState σ → Bool → Option (CPValue × CPState σ)
  | 0, _, _ => none
  | n + 1, s, wantsz =>
      (if s.tok = .lparen then
        (if istypedecl s.next.tok = true then
          (types.declAbstract s.next).map fun (id, s) => ((⟨0, id⟩ : CPValue), s)
        else exprComma n s.next).bind fun (k, s) => (s.check .rparen).map fun s => (k, s)
      else exprUnary n s).bind fun (k, s) => (sizeofValue types s wantsz k).map fun k => (k, s)

/-- `cp_expr_prefix`. -/
@[grind =]
def exprPrefix : ℕ → CPState σ → Option (CPValue × CPState σ)
  | 0, _ => none
  | n + 1, s =>
      match s.tok with
      | .integer val => some (val, s.next)
      | .op .add => exprUnary n s.next
      | .op .sub => (exprUnary n s.next).map fun (k, s) => ({ k with u32 := -k.u32 }, s)
      | .compl => (exprUnary n s.next).map fun (k, s) => ({ k with u32 := ~~~k.u32 }, s)
      | .not => (exprUnary n s.next).map fun (k, s) => (flag (k.u32 == 0), s)
      | .lparen =>
          if istypedecl s.next.tok = true then
            (types.declAbstract s.next).bind fun (id, s) =>
              (s.check .rparen).bind fun s =>
                -- no conversion performed
                (exprUnary n s).map fun (k, s) => ({ k with id := id }, s)
          else
            (exprComma n s.next).bind fun (k, s) => (s.check .rparen).map fun s => (k, s)
      | .op .mul =>
          (exprUnary n s.next).bind fun (k, s) =>
            (types.pointee s.cts k.id).map fun cid => (⟨0, cid⟩, s)
      | .op .and =>
          (exprUnary n s.next).bind fun (k, s) =>
            (types.internPtr s.cts k.id).map fun (id, cts) =>
              ({ k with id := id }, { s with cts := cts })
      | .sizeof => exprSizeof n s.next true
      | .alignof => exprSizeof n s.next false
      | .ident _ (.constval size cid) => some (⟨size, cid⟩, s.next)
      | .ident _ (.externDecl id cid) => some (⟨BitVec.ofNat 32 id, cid⟩, s.next)
      | .ident _ (.func id) => some (⟨BitVec.ofNat 32 id, id⟩, s.next)
      | .string _ =>
          some (⟨(strings s.toks).1 + 1, ctidACchar⟩, { s with toks := (strings s.toks).2 })
      | _ => none

/-- `cp_expr_postfix`. -/
def exprPostfix : ℕ → CPState σ → CPValue → Option (CPValue × CPState σ)
  | 0, _, _ => none
  | n + 1, s, k =>
      match s.tok with
      | .lbrack =>
          (exprComma n s.next).bind fun (k2, s) =>
            ((types.pointee s.cts k.id).or (types.pointee s.cts k2.id)).bind fun cid =>
              (s.check .rbrack).bind fun s => exprPostfix n s ⟨0, cid⟩
      | .dot =>
          match s.next.tok with
          | .ident name _ =>
              (types.member s.cts false k.id name).bind fun (u32, cid) =>
                exprPostfix n s.next.next ⟨u32, cid⟩
          | _ => none
      | .deref =>
          match s.next.tok with
          | .ident name _ =>
              (types.member s.cts true k.id name).bind fun (u32, cid) =>
                exprPostfix n s.next.next ⟨u32, cid⟩
          | _ => none
      | _ => some (k, s)

/-- `cp_expr_infix`.  The cases fall through, so that an operator is taken from each level up to its
own. -/
def exprInfix : ℕ → CPState σ → CPValue → ℕ → Option (CPValue × CPState σ)
  | 0, _, _, _ => none
  | n + 1, s, k, pri =>
      match s.tok with
      | .question =>
          if pri = 0 then
            (exprComma n s.next).bind fun (k2, s) =>
              (s.check .colon).bind fun s =>
                (exprSub n s 0).bind fun (k3, s) =>
                  exprInfix n s
                    ⟨if k.u32 ≠ 0 then k2.u32 else k3.u32, if k3.id < k2.id then k2.id else k3.id⟩ pri
          else some (k, s)
      | .op o =>
          if pri ≤ o.level then
            (if o.level = 10 then exprUnary n s.next else exprSub n s.next (o.level + 1)).bind
              fun (k2, s) => (o.result k k2).bind fun k => exprInfix n s k pri
          else some (k, s)
      | _ => some (k, s)

/-- `cp_expr_unary`. -/
def exprUnary : ℕ → CPState σ → Option (CPValue × CPState σ)
  | 0, _ => none
  | n + 1, s =>
      if maxDecldepth < s.depth + 1 then none
      else
        (exprPrefix n { s with depth := s.depth + 1 }).bind fun (k, s) =>
          (exprPostfix n s k).map fun (k, s) => (k, { s with depth := s.depth - 1 })

/-- `cp_expr_sub`. -/
def exprSub : ℕ → CPState σ → ℕ → Option (CPValue × CPState σ)
  | 0, _, _ => none
  | n + 1, s, pri => (exprUnary n s).bind fun (k, s) => exprInfix n s k pri

end

end Cexpr
