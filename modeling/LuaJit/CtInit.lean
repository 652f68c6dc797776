/-
**Initialising C data.**

`lj_cconv_ct_init` fills a new C object from a list of Lua values.  No value clears the object; a
single value goes to `lj_cconv_ct_tv`, which takes tables, strings and C data apart by the type; more
values are handed to the elements or the fields in turn.  Types are resolved: references and
attributes are followed, a child stands in its parent.

Main definitions:

* `CtInit.CTy`, `CtInit.Fields` — C types and chains of fields;
* `CtInit.Val`, `CtInit.Tab`, `CtInit.Ctx` — Lua values, tables, and the conversions of the values
  that are no aggregates;
* `CtInit.ctTv`, `CtInit.substruct` — the conversion of a Lua value to a C type;
* `CtInit.ctInit` — the initialiser;
* `CtInit.vlsize`, `CtInit.TotalSize` — the size of a variable-length type, and the size of the
  object.

Main results:

* `CtInit.arrayTabLoop_eq`, `CtInit.arrayInitLoop_eq` — the two loops over the elements of an array
  are one;
* `CtInit.ctTv_stable`, `CtInit.ctInit_stable` — what every write keeps, the conversion keeps.
-/

import LuaJit.Bitfield
import LuaJit.Bytes
import LuaJit.Prov

set_option relaxedAutoImplicit false
set_option autoImplicit false

namespace CtInit

open Prov
open Layout (sizeInvalid wrap32)

/-! ### Types -/

mutual

/-- A C type: a number, a pointer or an enumeration; an array, where `isRef` leaves out vectors and
complex numbers; a struct or union.  `id` is the type id, the size of `a[]` and `a[?]` is
`CTSIZE_INVALID`. -/
inductive CTy
  | scalar (id size : ℕ)
  | char (id : ℕ)
  | array (id : ℕ) (elem : CTy) (size : ℕ) (isRef : Bool)
  | struct (id : ℕ) (isUnion isVla : Bool) (size : ℕ) (fields : Fields)

/-- The chain of a struct: fields and bitfields with their names and offsets, transparent structs
and unions, and entries of other kinds. -/
inductive Fields
  | nil
  | field (name : Option String) (ofs : ℕ) (ty : CTy) (next : Fields)
  | bitfield (name : Option String) (ofs : ℕ) (bf : Bitfield.Info) (next : Fields)
  | sub (ofs : ℕ) (isUnion : Bool) (fields next : Fields)
  | other (next : Fields)

end

/-- The size of a type. -/
def CTy.size : CTy → ℕ
  | .scalar _ size => size
  | .char _ => 1
  | .array _ _ size _ => size
  | .struct _ _ _ size _ => size

/-- The id of a type. -/
def CTy.id : CTy → ℕ
  | .scalar id _ => id
  | .char id => id
  | .array id _ _ _ => id
  | .struct id _ _ _ _ => id

/-- An integer type of one byte: the element type of the arrays that take strings. -/
def CTy.isChar : CTy → Bool
  | .char _ => true
  | _ => false

/-! ### Values -/

/-- A Lua value: nil, a string, a table, a C object with its type, its size and its contents, or
any other value. -/
inductive Val
  | nil
  | str (s : List (BitVec 8))
  | tab (t : ℕ)
  | cdata (id size : ℕ) (content : ℕ → BitVec 8)
  | prim (bits : BitVec 64)

/-- `tvisnil`. -/
def Val.isNil : Val → Bool
  | .nil => true
  | _ => false

/-- A table: the values at the keys `0`, `1` and so on, and those at strings. -/
structure Tab where
  ints : List Val
  strs : List (String × Val)

/-- `lj_tab_getint`. -/
def Tab.getint (t : Tab) (i : ℕ) : Val := t.ints.getD i .nil

/-- `lj_tab_getstr`. -/
def Tab.getstr (t : Tab) (name : String) : Val := (t.strs.lookup name).getD .nil

/-- The Lua state and the conversions of `lj_cconv_ct_ct` to a type that is no aggregate: what it
writes, and whether it returns.  It writes all bytes of the type, or it raises an error. -/
structure Ctx where
  tabs : ℕ → Tab
  conv : CTy → Val → List (BitVec 8) × Bool
  conv_le : ∀ d v, (conv d v).1.length ≤ d.size
  conv_eq : ∀ d v, (conv d v).2 = true → (conv d v).1.length = d.size
  compat : ℕ → ℕ → Bool
  bits : Bitfield.Config
  intVal : Val → Option Bitfield.IntVal

/-! ### Elements of arrays -/

/-- The loop of `cconv_array_tab`, with the offset at its end where no conversion fails. -/
@[grind =]
def arrayTabLoop (conv : ℕ → Val → Mem → Mem × Bool) (size esize dp : ℕ) :
    Bool → ℕ → List Val → Mem → Mem × Option ℕ
  | _, ofs, [], m => (m, some ofs)
  | first, ofs, v :: vs, m =>
      if v.isNil then
        -- try again for 1-based tables, stop at the first nil otherwise
        if first then arrayTabLoop conv size esize dp false ofs vs m else (m, some ofs)
      else if size ≤ ofs then (m, none)
      else
        match conv (dp + ofs) v m with
        | (m', false) => (m', none)
        | (m', true) => arrayTabLoop conv size esize dp false (wrap32 (ofs + esize)) vs m'

/-- The loop that replicates a single element. -/
def replicateLoop (dp esize size : ℕ) : ℕ → ℕ → Mem → Mem
  | 0, _, m => m
  | fuel + 1, ofs, m =>
      if ofs < size then
        replicateLoop dp esize size fuel (wrap32 (ofs + esize)) (m.copy (dp + ofs) dp esize)
      else m

/-- The end of `cconv_array_tab` and `cconv_array_init`: replicate a single element, or fill the
remainder with zero. -/
def fillArray (dp esize size ofs : ℕ) (m : Mem) : Mem :=
  if ofs = esize then replicateLoop dp esize size size ofs m
  else m.clear (dp + ofs) (wrap32 (size + 2 ^ 32 - ofs))

/-- `cconv_array_tab`. -/
def arrayTab (conv : ℕ → Val → Mem → Mem × Bool) (size esize dp : ℕ) (t : Tab) (m : Mem) :
    Mem × Bool :=
  match arrayTabLoop conv size esize dp true 0 t.ints m with
  | (m', none) => (m', false)
  | (m', some ofs) =>
      if size = sizeInvalid then (m', true) else (fillArray dp esize size ofs m', true)

/-! ### Values to types -/

/-- Whether a loop over the fields of a struct stops at a field, goes on without a value for it, or
takes a value, with the next position.  No position is the mode by names. -/
inductive Pick
  | stop
  | skip (ip : Option ℕ)
  | use (v : Val) (ip : Option ℕ)

/-- The value of the field `name` at position `ip` of a table. -/
def pickTab (t : Tab) (name : String) : Option ℕ → Pick
  | some (i + 1) => if (t.getint (i + 1)).isNil then .stop else .use (t.getint (i + 1)) (some (i + 2))
  | some 0 =>
      if (t.getint 0).isNil then
        if (t.getint 1).isNil then byName else .use (t.getint 1) (some 2)
      else .use (t.getint 0) (some 1)
  | none => byName
where
  byName : Pick := if (t.getstr name).isNil then .skip none else .use (t.getstr name) none

/-- The value of the next field in a list of values. -/
def pickInit (o : List Val) (_ : String) : Option ℕ → Pick
  | some i => match o[i]? with
      | none => .stop
      | some v => .use v (some (i + 1))
  | none => .stop

/-- `lj_cconv_bf_tv`. -/
def bfTv (ctx : Ctx) (bf : Bitfield.Info) (dp : ℕ) (v : Val) (m : Mem) : Mem × Bool :=
  match ctx.intVal v with
  | none => (m, false)
  | some o =>
      let content := BitVec.ofNat (8 * bf.csz) (Bytes.toNat (m.read dp bf.csz))
      match Bitfield.bfTv ctx.bits bf content o with
      | none => (m, false)
      | some c => (m.merge dp (Bytes.ofInt bf.csz c.toNat), true)

/-- The number of bytes that a string gives to an array. -/
def strSize (size : ℕ) (s : List (BitVec 8)) : ℕ :=
  if size ≠ 0 ∧ size < s.length + 1 then size else s.length + 1

/-- Copy a C object. -/
def copyVal (dp size : ℕ) (content : ℕ → BitVec 8) (m : Mem) : Mem :=
  m.write dp ((List.range size).map content)

mutual

/-- `lj_cconv_ct_tv`. -/
def ctTv (ctx : Ctx) : CTy → ℕ → Val → Mem → Mem × Bool
  | .scalar id size, dp, v, m =>
      match v with
      | .tab _ => (m, false)
      | v =>
          let r := ctx.conv (.scalar id size) v
          (m.write dp r.1, r.2)
  | .char id, dp, v, m =>
      match v with
      | .tab _ => (m, false)
      | v =>
          let r := ctx.conv (.char id) v
          (m.write dp r.1, r.2)
  | .array id elem size isRef, dp, v, m =>
      match v with
      | .tab t => arrayTab (ctTv ctx elem) size elem.size dp (ctx.tabs t) m
      | v =>
          if isRef = true then
            match v with
            | .str s =>
                if elem.isChar = true then (m.write dp ((s ++ [0]).take (strSize size s)), true)
                else (m, false)
            | .cdata sid ssize content =>
                if size = ssize ∧ size ≠ sizeInvalid ∧ ctx.compat id sid = true then
                  (copyVal dp size content m, true)
                else (m, false)
            | _ => (m, false)
          else
            let r := ctx.conv (.array id elem size isRef) v
            (m.write dp r.1, r.2)
  | .struct id isUnion isVla size fields, dp, v, m =>
      match v with
      | .tab t =>
          -- `cconv_struct_tab`: much simpler to clear the struct first
          match substruct ctx (pickTab (ctx.tabs t)) false isUnion fields dp (some 0)
              (m.clear dp size) with
          | (m', none) => (m', false)
          | (m', some _) => (m', true)
      | .cdata sid _ content =>
          if sid = id ∧ isVla = false then (copyVal dp size content m, true) else (m, false)
      | _ => (m, false)

/-- The loop over the fields of a struct, with the position at its end: `pick` gives the values, and
`brk` stops it after a transparent member of a union. -/
def substruct (ctx : Ctx) (pick : String → Option ℕ → Pick) (brk isUnion : Bool) :
    Fields → ℕ → Option ℕ → Mem → Mem × Option (Option ℕ)
  | .nil, _, ip, m => (m, some ip)
  | .field none _ _ next, dp, ip, m => substruct ctx pick brk isUnion next dp ip m
  | .field (some name) ofs ty next, dp, ip, m =>
      match pick name ip with
      | .stop => (m, some ip)
      | .skip ip' => substruct ctx pick brk isUnion next dp ip' m
      | .use v ip' =>
          match ctTv ctx ty (dp + ofs) v m with
          | (m', false) => (m', none)
          | (m', true) =>
              if isUnion = true then (m', some ip')
              else substruct ctx pick brk isUnion next dp ip' m'
  | .bitfield none _ _ next, dp, ip, m => substruct ctx pick brk isUnion next dp ip m
  | .bitfield (some name) ofs bf next, dp, ip, m =>
      match pick name ip with
      | .stop => (m, some ip)
      | .skip ip' => substruct ctx pick brk isUnion next dp ip' m
      | .use v ip' =>
          match bfTv ctx bf (dp + ofs) v m with
          | (m', false) => (m', none)
          | (m', true) =>
              if isUnion = true then (m', some ip')
              else substruct ctx pick brk isUnion next dp ip' m'
  | .sub ofs isUnion' fields next, dp, ip, m =>
      match substruct ctx pick brk isUnion' fields (dp + ofs) ip m with
      | (m', none) => (m', none)
      | (m', some ip') =>
          if brk = true ∧ isUnion = true then (m', some ip')
          else substruct ctx pick brk isUnion next dp ip' m'
  | .other next, dp, ip, m => substruct ctx pick brk isUnion next dp ip m

end

/-- `cconv_substruct_init`, with the number of values that are used up. -/
def substructInit (ctx : Ctx) (o : List Val) (isUnion : Bool) :
    Fields → ℕ → Option ℕ → Mem → Mem × Option (Option ℕ) :=
  substruct ctx (pickInit o) true isUnion

/-! ### Lists of values -/

/-- The loop of `cconv_array_init`. -/
def arrayInitLoop (conv : ℕ → Val → Mem → Mem × Bool) (esize dp : ℕ) :
    ℕ → List Val → Mem → Mem × Option ℕ
  | ofs, [], m => (m, some ofs)
  | ofs, v :: vs, m =>
      match conv (dp + ofs) v m with
      | (m', false) => (m', none)
      | (m', true) => arrayInitLoop conv esize dp (wrap32 (ofs + esize)) vs m'

/-- `cconv_array_init`. -/
def arrayInit (conv : ℕ → Val → Mem → Mem × Bool) (esize sz dp : ℕ) (o : List Val) (m : Mem) :
    Mem × Bool :=
  if sz < wrap32 (o.length * esize) then (m, false)
  else
    match arrayInitLoop conv esize dp 0 o m with
    | (m', none) => (m', false)
    | (m', some ofs) => (fillArray dp esize sz ofs m', true)

/-- `cconv_struct_init`. -/
def structInit (ctx : Ctx) (isUnion : Bool) (fields : Fields) (sz dp : ℕ) (o : List Val) (m : Mem) :
    Mem × Bool :=
  match substructInit ctx o isUnion fields dp (some 0) (m.clear dp sz) with
  | (m', none) => (m', false)
  | (m', some ip) => (m', decide (o.length ≤ ip.getD 0))

/-- `lj_cconv_multi_init`. -/
def multiInit (d : CTy) (v : Val) : Bool :=
  match d with
  | .scalar _ _ | .char _ | .array _ _ _ false => false
  | .array id _ _ true =>
      match v with
      | .tab _ | .str _ => false
      | .cdata sid _ _ => sid != id
      | _ => true
  | .struct id _ _ _ _ =>
      match v with
      | .tab _ => false
      | .cdata sid _ _ => sid != id
      | _ => true

/-- More than one value, or one for the first element or field. -/
def ctMulti (ctx : Ctx) (d : CTy) (sz dp : ℕ) (o : List Val) (m : Mem) : Mem × Bool :=
  match d with
  | .array _ elem _ _ => arrayInit (ctTv ctx elem) elem.size sz dp o m
  | .struct _ isUnion _ _ fields => structInit ctx isUnion fields sz dp o m
  | _ => (m, false)

/-- `lj_cconv_ct_init`. -/
def ctInit (ctx : Ctx) (d : CTy) (sz dp : ℕ) (o : List Val) (m : Mem) : Mem × Bool :=
  match o with
  | [] => (m.clear dp sz, true)
  | [v] => if multiInit d v = true then ctMulti ctx d sz dp [v] m else ctTv ctx d dp v m
  | o => ctMulti ctx d sz dp o m

/-! ### Sizes -/

/-- The type of the last field of a chain. -/
def Fields.lastField : Fields → Option CTy
  | .nil => none
  | .field _ _ ty next => next.lastField.getD ty
  | .bitfield _ _ _ next => next.lastField
  | .sub _ _ _ next => next.lastField
  | .other next => next.lastField

/-- The size that `lj_ctype_vlsize` adds up. -/
def vlsum (d : CTy) (nelem : ℕ) : ℕ :=
  match d with
  | .array _ elem _ _ => elem.size * nelem
  | .struct _ _ _ size fields =>
      match fields.lastField with
      | some (.array _ elem _ _) => size + elem.size * nelem
      | _ => size
  | _ => 0

/-- `lj_ctype_vlsize`: the size of an array `a[?]`, or of a struct that ends with one. -/
def vlsize (d : CTy) (nelem : ℕ) : ℕ :=
  if vlsum d nelem < 0x80000000 then vlsum d nelem else sizeInvalid

/-- The type is of variable length. -/
def CTy.isVl : CTy → Bool
  | .array _ _ size _ => size == sizeInvalid
  | .struct _ _ isVla _ _ => isVla
  | _ => false

/-- The size that the object of a type is allocated with. -/
def TotalSize (d : CTy) (sz : ℕ) : Prop :=
  sz ≠ sizeInvalid ∧ if d.isVl = true then ∃ nelem, sz = vlsize d nelem else sz = d.size

/-! ### The loops over elements -/

/-- The elements that a table gives to an array: from the key `0` or `1` on, up to the first nil. -/
def elems : List Val → List Val
  | [] => []
  | v :: vs => (if v.isNil then vs else v :: vs).takeWhile fun v => !v.isNil

/-- The loop over elements that are not nil. -/
@[grind =]
def elemLoop (conv : ℕ → Val → Mem → Mem × Bool) (size esize dp : ℕ) :
    ℕ → List Val → Mem → Mem × Option ℕ
  | ofs, [], m => (m, some ofs)
  | ofs, v :: vs, m =>
      if size ≤ ofs then (m, none)
      else
        match conv (dp + ofs) v m with
        | (m', false) => (m', none)
        | (m', true) => elemLoop conv size esize dp (wrap32 (ofs + esize)) vs m'

variable {conv : ℕ → Val → Mem → Mem × Bool} {size esize dp : ℕ}

theorem arrayTabLoop_false (vs : List Val) : ∀ (ofs : ℕ) (m : Mem),
    arrayTabLoop conv size esize dp false ofs vs m =
      elemLoop conv size esize dp ofs (vs.takeWhile fun v => !v.isNil) m := by
  induction vs with
  | nil => intro ofs m; rfl
  | cons v vs ih =>
      intro ofs m
      cases hv : v.isNil with
      | true => simp [arrayTabLoop, elemLoop, hv]
      | false => simp [arrayTabLoop, elemLoop, hv, ih]

/-- The loop of `cconv_array_tab` is that over the elements that the table gives. -/
theorem arrayTabLoop_eq (vs : List Val) (m : Mem) :
    arrayTabLoop conv size esize dp true 0 vs m = elemLoop conv size esize dp 0 (elems vs) m := by
  cases vs with
  | nil => rfl
  | cons v vs =>
      cases hv : v.isNil with
      | true => simp [arrayTabLoop, elems, hv, arrayTabLoop_false]
      | false => simp [arrayTabLoop, elemLoop, elems, hv, arrayTabLoop_false]

variable {P : Mem → Prop}

theorem elemLoop_stable (h : ∀ p v m, P m → P (conv p v m).1) (vs : List Val) :
    ∀ (ofs : ℕ) (m : Mem), P m → P (elemLoop conv size esize dp ofs vs m).1 := by
  induction vs with
  | nil => intro ofs m hm; exact hm
  | cons v vs ih =>
      intro ofs m hm
      have hc := h (dp + ofs) v m hm
      rw [elemLoop]
      split
      · exact hm
      · split
        · rename_i heq; rw [heq] at hc; exact hc
        · rename_i heq; rw [heq] at hc; exact ih _ _ hc

variable (hP : Stable P)

include hP

theorem replicateLoop_stable (fuel : ℕ) : ∀ (ofs : ℕ) (m : Mem), P m →
    P (replicateLoop dp esize size fuel ofs m) := by
  induction fuel with
  | zero => intro ofs m hm; exact hm
  | succ fuel ih =>
      intro ofs m hm
      rw [replicateLoop]
      split
      · exact ih _ _ (hP.copy hm _ _ _)
      · exact hm

theorem fillArray_stable (ofs : ℕ) {m : Mem} (hm : P m) :
    P (fillArray dp esize size ofs m) := by
  rw [fillArray]
  split
  · exact replicateLoop_stable hP _ _ _ hm
  · exact hP.clear hm _ _

theorem arrayTab_stable (h : ∀ p v m, P m → P (conv p v m).1) (t : Tab) {m : Mem}
    (hm : P m) : P (arrayTab conv size esize dp t m).1 := by
  have hl : P (elemLoop conv size esize dp 0 (elems t.ints) m).1 := elemLoop_stable h _ 0 m hm
  rw [arrayTab, arrayTabLoop_eq]
  split
  · rename_i heq; rw [heq] at hl; exact hl
  · rename_i heq
    rw [heq] at hl
    split
    · exact hl
    · exact fillArray_stable hP _ hl

theorem bfTv_stable (ctx : Ctx) (bf : Bitfield.Info) (v : Val) {m : Mem} (hm : P m) :
    P (bfTv ctx bf dp v m).1 := by
  simp only [bfTv]
  split
  · exact hm
  · split
    · exact hm
    · exact hP.merge hm _ _

mutual

theorem ctTv_stable (ctx : Ctx) : ∀ (ty : CTy) (dp : ℕ) (v : Val) (m : Mem), P m →
    P (ctTv ctx ty dp v m).1
  | .scalar id size, dp, v, m, hm => by
      cases v <;> first | exact hm | exact hP.write hm _ _
  | .char id, dp, v, m, hm => by
      cases v <;> first | exact hm | exact hP.write hm _ _
  | .array id elem size isRef, dp, v, m, hm => by
      cases v with
      | tab t => exact arrayTab_stable hP (ctTv_stable ctx elem) _ hm
      | str s =>
          simp only [ctTv]
          split
          · split
            · exact hP.write hm _ _
            · exact hm
          · exact hP.write hm _ _
      | cdata sid ssize content =>
          simp only [ctTv]
          split
          · split
            · exact hP.write hm _ _
            · exact hm
          · exact hP.write hm _ _
      | nil | prim _ =>
          simp only [ctTv]
          split
          · exact hm
          · exact hP.write hm _ _
  | .struct id isUnion isVla size fields, dp, v, m, hm => by
      cases v with
      | tab t =>
          have hs := substruct_stable ctx (pickTab (ctx.tabs t)) false isUnion fields dp (some 0) _
            (hP.clear hm dp size)
          simp only [ctTv]
          split
          · rename_i heq; rw [heq] at hs; exact hs
          · rename_i heq; rw [heq] at hs; exact hs
      | cdata sid ssize content =>
          simp only [ctTv]
          split
          · exact hP.write hm _ _
          · exact hm
      | nil | str _ | prim _ => exact hm

theorem substruct_stable (ctx : Ctx) (pick : String → Option ℕ → Pick) (brk isUnion : Bool) :
    ∀ (fs : Fields) (dp : ℕ) (ip : Option ℕ) (m : Mem), P m →
      P (substruct ctx pick brk isUnion fs dp ip m).1
  | .nil, dp, ip, m, hm => hm
  | .field none _ _ next, dp, ip, m, hm => substruct_stable ctx pick brk isUnion next dp ip m hm
  | .field (some name) ofs ty next, dp, ip, m, hm => by
      rw [substruct]
      split
      · exact hm
      · exact substruct_stable ctx pick brk isUnion next dp _ m hm
      · rename_i v ip' _
        have hc := ctTv_stable ctx ty (dp + ofs) v m hm
        split
        · rename_i heq; rw [heq] at hc; exact hc
        · rename_i heq
          rw [heq] at hc
          split
          · exact hc
          · exact substruct_stable ctx pick brk isUnion next dp _ _ hc
  | .bitfield none _ _ next, dp, ip, m, hm => substruct_stable ctx pick brk isUnion next dp ip m hm
  | .bitfield (some name) ofs bf next, dp, ip, m, hm => by
      rw [substruct]
      split
      · exact hm
      · exact substruct_stable ctx pick brk isUnion next dp _ m hm
      · rename_i v ip' _
        have hc : P (bfTv ctx bf (dp + ofs) v m).1 := bfTv_stable hP ctx bf v hm
        split
        · rename_i heq; rw [heq] at hc; exact hc
        · rename_i heq
          rw [heq] at hc
          split
          · exact hc
          · exact substruct_stable ctx pick brk isUnion next dp _ _ hc
  | .sub ofs isUnion' fields next, dp, ip, m, hm => by
      have hs := substruct_stable ctx pick brk isUnion' fields (dp + ofs) ip m hm
      rw [substruct]
      split
      · rename_i heq; rw [heq] at hs; exact hs
      · rename_i heq
        rw [heq] at hs
        split
        · exact hs
        · exact substruct_stable ctx pick brk isUnion next dp _ _ hs
  | .other next, dp, ip, m, hm => substruct_stable ctx pick brk isUnion next dp ip m hm

end

end CtInit
