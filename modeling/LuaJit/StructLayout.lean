/-
**Layout of structs and unions.**

`cp_decl_struct` and `cp_struct_layout` of `lj_cparse.c`.  The first one turns the declared fields
into the chain of the struct, the second one walks the chain and assigns offsets.  Offsets are
counted in bits in an unsigned variable of 32 bits.  The only test for an overflow is made before
the offset is rounded up to the alignment of the field, and none is made before the size of the
struct is rounded up.

The sums of the layout are passed through a function: `wrap32` is the arithmetic of the source, and
the identity gives the exact layout, which is what the offsets should be.  Bits are counted from the
low end of a container, as on little-endian targets.

Main definitions:

* `Layout.RawType`, `Layout.CTypeRef` — what the layout reads of the type of a field;
* `Layout.declStruct` — the checks and the chain of `cp_decl_struct`;
* `Layout.structLayout` — `cp_struct_layout`;
* `Layout.NoWrap`, `Layout.LayoutOk` — what is asked of a layout.

Main results:

* `Layout.exact_ok` — the exact layout has all properties;
* `Layout.run_eq_exact_of_noWrap`, `Layout.noWrap_of_exact_lt` — **no sum wraps exactly when the
  exact size is below 512 MB**, and then the source computes the exact layout;
* `Layout.layoutOk_iff` — **a layout is right exactly when the exact size is below 512 MB and no
  accessible bitfield with a lowered alignment has a container that sticks out of the struct**.
-/

import LuaJit.Align

set_option relaxedAutoImplicit false
set_option autoImplicit false

namespace Layout

/-! ### Types of fields -/

/-- `CTSIZE_INVALID`. -/
def sizeInvalid : ℕ := 0xffffffff

/-- The exponents of alignments. -/
instance neZeroAlign : NeZero 16 := ⟨by decide⟩

/-- A raw C type. -/
inductive RawType
  /-- `CT_NUM` with `CTF_BOOL`, `CTF_FP` and `CTF_UNSIGNED`. -/
  | num (isBool isFp isUnsigned : Bool) (align : Fin 16) (size : ℕ)
  /-- `CT_STRUCT` with `CTF_VLA`. -/
  | struct (vla : Bool) (align : Fin 16) (size : ℕ)
  | ptr (align : Fin 16) (size : ℕ)
  /-- `CT_ARRAY` with `CTF_VECTOR` and `CTF_VLA`. -/
  | array (vector vla : Bool) (align : Fin 16) (size : ℕ) (elem : RawType)
  | void
  | enum
  | func
  deriving DecidableEq

namespace RawType

/-- `ct->size`.  The size of a function type is invalid for `lj_ctype_info`. -/
def size : RawType → ℕ
  | num _ _ _ _ size => size
  | struct _ _ size => size
  | ptr _ size => size
  | array _ _ _ size _ => size
  | void => sizeInvalid
  | enum => 4
  | func => sizeInvalid

/-- `ctype_align`.  The alignment of an enum is that of its child, an `int`. -/
def align : RawType → Fin 16
  | num _ _ _ align _ => align
  | struct _ align _ => align
  | ptr align _ => align
  | array _ _ align _ _ => align
  | void => 0
  | enum => 2
  | func => 0

/-- `CTF_VLA`. -/
def isVla : RawType → Bool
  | struct vla _ _ => vla
  | array _ vla _ _ _ => vla
  | _ => false

/-- `ctype_isarray`. -/
def isArray : RawType → Bool
  | array .. => true
  | _ => false

/-- `ctype_isstruct`. -/
def isStruct : RawType → Bool
  | struct .. => true
  | _ => false

/-- `CTF_BOOL` of a number. -/
def isBool : RawType → Bool
  | num isBool .. => isBool
  | _ => false

/-- `CTF_UNSIGNED` of a number. -/
def isUnsigned : RawType → Bool
  | num _ _ isUnsigned .. => isUnsigned
  | _ => false

/-- `ctype_isinteger_or_bool`. -/
def isIntegerOrBool : RawType → Bool
  | num _ isFp .. => !isFp
  | _ => false

/-- The innermost element type of nested arrays that are no vectors. -/
def innermost : RawType → RawType
  | array false _ _ _ elem => elem.innermost
  | t => t

/-- `ctype_isnum` or `ctype_isenum`. -/
def isNumOrEnum : RawType → Bool
  | num .. => true
  | enum => true
  | _ => false

end RawType

/-- An attribute in front of a raw type. -/
inductive Link
  /-- `CTA_ALIGN`. -/
  | align (al : Fin 16)
  | other
  deriving DecidableEq

/-- The type of a field: its attributes, the outermost one first, and the raw type.  The sizes of
integer types are powers of two. -/
structure CTypeRef where
  links : List Link
  raw : RawType
  size_pow : raw.isIntegerOrBool = true → ∃ k, raw.size = 2 ^ k
  bool_size : raw.isBool = true → raw.size = 1

/-- What `lj_ctype_info` finds for the alignment: `CTFP_ALIGNED` and `ctype_align`. -/
def linkAlign (raw : RawType) : List Link → Bool × Fin 16
  | [] => (false, raw.align)
  | .align al :: _ => (true, al)
  | .other :: links => linkAlign raw links

/-- Declaration attributes: `CTFP_ALIGNED`, `CTFP_PACKED` and the alignment.  The alignment is only
set together with `CTFP_ALIGNED`. -/
structure Attr where
  aligned : Bool := false
  packed : Bool := false
  align : Fin 16 := 0
  align_eq : aligned = false → align = 0 := by decide
  deriving DecidableEq

/-! ### The chain of a struct -/

/-- An element of the chain of a struct before the layout. -/
inductive Entry
  /-- A field: whether it has a name, its type, the width of a bitfield and its attributes. -/
  | field (named : Bool) (ty : CTypeRef) (bsz : Option ℕ) (attr : Attr)
  /-- A transparent struct or union, with its attributes. -/
  | subtype (ty : CTypeRef) (attr : Attr)
  /-- A constant, or a transparent enum. -/
  | other

/-- A declared member of a struct. -/
inductive Decl
  /-- A static constant. -/
  | static
  /-- A field: whether it has a name, its type, the width of a bitfield and its attributes. -/
  | field (named : Bool) (ty : CTypeRef) (bits : Option ℕ) (attr : Attr)

/-- The chain element of a member, and whether it must be the last one. -/
def declField : Decl → Option (Entry × Bool)
  | .static => some (.other, false)
  | .field named ty none attr =>
      let last := ty.raw.isArray && decide (ty.raw.size = sizeInvalid)
      if named then some (.field named ty none attr, last)
      else if ty.raw.isStruct && !ty.raw.isVla then some (.subtype ty attr, last)
      else if ty.raw = .enum then some (.other, last)
      else none
  | .field named ty (some bits) attr =>
      if ¬ ty.raw.isIntegerOrBool ∨ (bits = 0 ∧ named) ∨ 32 < 8 * ty.raw.size ∨
          (if ty.raw.isBool then 1 else 8 * ty.raw.size) < bits then none
      else some (.field named ty (some bits) attr, false)

/-- `cp_decl_struct`: the chain of the declared members. -/
def declStruct : List Decl → Option (List Entry)
  | [] => some []
  | d :: ds =>
      match declField d with
      | none => none
      | some (e, last) =>
          if last = true ∧ ds ≠ [] then none
          else (declStruct ds).map (e :: ·)

/-! ### The layout -/

/-- What the layout of a struct depends on besides its chain. -/
structure LayoutCtx where
  /-- The i386 and iOS ABIs limit the alignment of fields. -/
  limitAlign : Bool := false
  /-- `cp->packstack[cp->curpack]`. -/
  pack : ℕ := 255
  /-- The attributes of the struct. -/
  sattr : Attr := {}
  /-- `CTF_UNION`. -/
  isUnion : Bool := false

/-- The loop variables of `cp_struct_layout`. -/
structure LayoutState where
  /-- Bit offset. -/
  bofs : ℕ := 0
  /-- Max. bit offset of a union. -/
  bmaxofs : ℕ := 0
  maxalign : ℕ
  /-- `CTF_VLA` of the struct. -/
  vla : Bool := false
  deriving DecidableEq

/-- An element of the chain after the layout. -/
inductive Placed
  /-- A regular field or a transparent struct: its offset. -/
  | at (ofs : ℕ)
  /-- A bitfield: the offset of its container, its position and width, and the size of the container
  in bytes. -/
  | bits (ofs pos bsz csz : ℕ)
  | untouched
  deriving DecidableEq

/-- The result of the layout: the chain before and after, the size and the alignment. -/
structure StructType where
  fields : List (Entry × Placed)
  size : ℕ
  align : ℕ
  vla : Bool

/-- The arithmetic of `CTSize`. -/
def wrap32 (n : ℕ) : ℕ := n % 2 ^ 32

/-- `cp_field_align`. -/
def fieldAlign (ctx : LayoutCtx) (ty : CTypeRef) : ℕ :=
  let (aligned, align) := linkAlign ty.raw ty.links
  if ctx.limitAlign = true ∧ 2 < align.val ∧ aligned = false ∧
      ty.raw.innermost.isNumOrEnum = true then 2
  else align

/-- The alignment of a field. -/
def effAlign (ctx : LayoutCtx) (ty : CTypeRef) (attr : Attr) : ℕ :=
  let align := fieldAlign ctx ty
  let align :=
    if (attr.packed || ctx.sattr.packed) = true ∨ (attr.aligned = true ∧ align < attr.align.val) then
      attr.align.val
    else align
  if ctx.pack < align then ctx.pack else align

/-- `amask + 1`. -/
def alignUnit (align : ℕ) : ℕ := 8 * 2 ^ align

/-- `(bofs + amask) & ~amask`. -/
def upW (w : ℕ → ℕ) (u b : ℕ) : ℕ := w (b + (u - 1)) - w (b + (u - 1)) % u

/-- The size of the container in bits.  `a[]` and `a[?]` have size zero. -/
def containerSize (w : ℕ → ℕ) (ctx : LayoutCtx) (bofs : ℕ) (ty : CTypeRef) : Option ℕ :=
  if 0x20000000 ≤ ty.raw.size ∨ w (bofs + 8 * ty.raw.size) < bofs ∨ ty.raw.isVla = true then
    if ty.raw.size = sizeInvalid ∧ ty.raw.isArray = true ∧ ctx.isUnion = false then some 0 else none
  else some (8 * ty.raw.size)

/-- A field starts at the next aligned offset: regular fields, and bitfields that ask for it or do
not fit into the rest of the container. -/
def startsNew (ctx : LayoutCtx) (bofs : ℕ) (ty : CTypeRef) (bsz : Option ℕ) (attr : Attr)
    (csz : ℕ) : Bool :=
  match bsz with
  | none => true
  | some bsz =>
      decide (bsz = 0 ∨ attr.aligned = true ∨ ((attr.packed || ctx.sattr.packed) = false ∧
        csz < bofs % alignUnit (effAlign ctx ty attr) + bsz))

/-- The bit offset of a field. -/
def startOffset (w : ℕ → ℕ) (ctx : LayoutCtx) (bofs : ℕ) (ty : CTypeRef) (bsz : Option ℕ)
    (attr : Attr) (csz : ℕ) : ℕ :=
  if startsNew ctx bofs ty bsz attr csz then upW w (alignUnit (effAlign ctx ty attr)) bofs else bofs

/-- The field at its bit offset.  A regular field is preferred over a bitfield. -/
def place (ctx : LayoutCtx) (b : ℕ) (ty : CTypeRef) (bsz : Option ℕ) (attr : Attr) (csz : ℕ) :
    Placed :=
  match bsz with
  | none => .at (b / 8)
  | some bsz =>
      if bsz = csz ∧ b % alignUnit (effAlign ctx ty attr) = 0 then .at (b / 8)
      else .bits ((b - b % csz) / 8) (b % csz) bsz (csz / 8)

/-- The layout of one field. -/
def layoutField (w : ℕ → ℕ) (ctx : LayoutCtx) (st : LayoutState) (ty : CTypeRef) (bsz : Option ℕ)
    (attr : Attr) : Option (LayoutState × Placed) :=
  match containerSize w ctx st.bofs ty with
  | none => none
  | some csz =>
      let b := startOffset w ctx st.bofs ty bsz attr csz
      let width := bsz.getD csz
      some
        ({ bofs := if ctx.isUnion then b else w (b + width)
           bmaxofs := if ctx.isUnion then max st.bmaxofs width else st.bmaxofs
           maxalign := max st.maxalign (effAlign ctx ty attr)
           vla := st.vla || ty.raw.isVla },
         place ctx b ty bsz attr csz)

/-- The layout of one element of the chain. -/
def layoutEntry (w : ℕ → ℕ) (ctx : LayoutCtx) (st : LayoutState) :
    Entry → Option (LayoutState × Placed)
  | .field _ ty bsz attr => layoutField w ctx st ty bsz attr
  | .subtype ty attr => layoutField w ctx st ty none attr
  | .other => some (st, .untouched)

/-- The loop over the chain. -/
@[grind =]
def layoutFields (w : ℕ → ℕ) (ctx : LayoutCtx) :
    LayoutState → List Entry → Option (LayoutState × List (Entry × Placed))
  | st, [] => some (st, [])
  | st, e :: es =>
      match layoutEntry w ctx st e with
      | none => none
      | some (st', p) =>
          match layoutFields w ctx st' es with
          | none => none
          | some (st'', out) => some (st'', (e, p) :: out)

/-- The loop variables at the start. -/
def layoutStart (ctx : LayoutCtx) : LayoutState := { maxalign := ctx.sattr.align.val }

/-- The bit offset behind the last field. -/
def LayoutState.endBits (ctx : LayoutCtx) (st : LayoutState) : ℕ :=
  if ctx.isUnion then st.bmaxofs else st.bofs

/-- `cp_struct_layout`. -/
def structLayout (w : ℕ → ℕ) (ctx : LayoutCtx) (es : List Entry) : Option StructType :=
  (layoutFields w ctx (layoutStart ctx) es).map fun (st, out) =>
    { fields := out
      size := upW w (alignUnit st.maxalign) (st.endBits ctx) / 8
      align := st.maxalign
      vla := st.vla }

/-! ### What is asked of a layout -/

/-- The type of a chain element. -/
def Entry.ty : Entry → Option (CTypeRef × Attr)
  | .field _ ty _ attr => some (ty, attr)
  | .subtype ty attr => some (ty, attr)
  | .other => none

/-- The bits a regular field takes up. -/
def regularBits (ty : CTypeRef) : ℕ := if ty.raw.size = sizeInvalid then 0 else 8 * ty.raw.size

/-- The range of bits of a field. -/
def range : Entry × Placed → Option (ℕ × ℕ)
  | (e, .at ofs) => e.ty.map fun (ty, _) => (8 * ofs, 8 * ofs + regularBits ty)
  | (_, .bits ofs pos bsz _) => some (8 * ofs + pos, 8 * ofs + pos + bsz)
  | (_, .untouched) => none

/-- The bitfield can be accessed: it has a name and does not cross the end of its container. -/
def Accessible : Entry × Placed → Prop
  | (.field named _ _ _, .bits _ pos bsz csz) => named = true ∧ pos + bsz ≤ 8 * csz
  | _ => False

/-- The end of the container of a bitfield, in bytes. -/
def containerEnd : Entry × Placed → ℕ
  | (_, .bits ofs _ _ csz) => ofs + csz
  | _ => 0

/-- The alignment of the field is lower than that of its container: by an attribute, by `#pragma
pack`, or by its type. -/
def Lowered (ctx : LayoutCtx) : Entry × Placed → Prop
  | (.field _ ty _ attr, _) => 2 ^ effAlign ctx ty attr < ty.raw.size
  | _ => False

/-- The exact size is below 512 MB, and no accessible bitfield with a lowered alignment has a
container that sticks out of the struct. -/
def Fits (ctx : LayoutCtx) (es : List Entry) : Prop :=
  ∃ X, structLayout id ctx es = some X ∧ X.size < 0x20000000 ∧
    ∀ f ∈ X.fields, Accessible f → Lowered ctx f → containerEnd f ≤ X.size

/-! ### One field -/

theorem wrap32_of_lt {n : ℕ} (h : n < 2 ^ 32) : wrap32 n = n := Nat.mod_eq_of_lt h

/-- The size of the container is that of a regular field of the type. -/
theorem containerSize_eq {w : ℕ → ℕ} {ctx : LayoutCtx} {bofs csz : ℕ} {ty : CTypeRef}
    (h : containerSize w ctx bofs ty = some csz) : csz = regularBits ty := by
  unfold containerSize at h
  unfold regularBits
  split at h
  · split at h
    · rename_i hz
      rw [if_pos hz.1]
      exact (Option.some.inj h).symm
    · cases h
  · rename_i hn
    rw [if_neg]
    · exact (Option.some.inj h).symm
    · intro hs
      exact hn (Or.inl (by rw [hs]; decide))

/-- What `cp_decl_struct` checks of a bitfield. -/
structure BitsOk (named : Bool) (ty : CTypeRef) (n : ℕ) : Prop where
  integer : ty.raw.isIntegerOrBool = true
  size_le : 8 * ty.raw.size ≤ 32
  width_le : n ≤ 8 * ty.raw.size
  bool_le : ty.raw.isBool = true → n ≤ 1
  named_pos : named = true → 0 < n

/-- The bitfields of the chain passed the checks. -/
def EntryOk : Entry → Prop
  | .field named ty (some n) _ => BitsOk named ty n
  | _ => True

theorem declField_ok {d : Decl} {e : Entry} {last : Bool} (h : declField d = some (e, last)) :
    EntryOk e := by
  cases d with
  | static =>
      cases h
      trivial
  | field named ty bits attr =>
      cases bits with
      | none =>
          simp only [declField] at h
          split at h
          · cases h; trivial
          · split at h
            · cases h; trivial
            · split at h
              · cases h; trivial
              · cases h
      | some n =>
          simp only [declField] at h
          obtain ⟨hc, h⟩ := Option.ite_none_left_eq_some.1 h
          cases h
          simp only [not_or, not_and, not_not, Nat.not_lt] at hc
          obtain ⟨h1, h2, h3, h4⟩ := hc
          refine ⟨h1, h3, h4.trans ?_, fun hb => by rwa [if_pos hb] at h4, fun hn => ?_⟩
          · split
            · rename_i hb
              rw [ty.bool_size hb]
              omega
            · exact le_rfl
          · rcases Nat.eq_zero_or_pos n with h0 | h0
            · exact absurd hn (h2 h0)
            · exact h0

theorem declStruct_ok {ds : List Decl} : ∀ {es : List Entry}, declStruct ds = some es →
    ∀ e ∈ es, EntryOk e := by
  induction ds with
  | nil =>
      intro es h e he
      cases h
      cases he
  | cons d ds ih =>
      intro es h e he
      rw [declStruct] at h
      split at h
      · cases h
      · rename_i e' last hd
        split at h
        · cases h
        · obtain ⟨es', hes, rfl⟩ := Option.map_eq_some_iff.1 h
          rcases List.mem_cons.1 he with rfl | he
          · exact declField_ok hd
          · exact ih hes e he

/-- The container of a bitfield has one, two or four bytes. -/
theorem BitsOk.size_cases {named : Bool} {ty : CTypeRef} {n : ℕ} (h : BitsOk named ty n) :
    ty.raw.size = 1 ∨ ty.raw.size = 2 ∨ ty.raw.size = 4 := by
  obtain ⟨k, hk⟩ := ty.size_pow h.integer
  have hle := h.size_le
  rw [hk] at hle ⊢
  have hk3 : k < 3 := by
    by_contra hk3
    have := Nat.pow_le_pow_right (n := 2) (by decide) (Nat.le_of_not_lt hk3)
    omega
  interval_cases k <;> simp

theorem BitsOk.regularBits_eq {named : Bool} {ty : CTypeRef} {n : ℕ} (h : BitsOk named ty n) :
    regularBits ty = 8 * ty.raw.size := by
  rw [regularBits, if_neg]
  have := h.size_le
  unfold sizeInvalid
  omega

/-! ### One step of the exact layout -/

/-- What the exact layout does with a field: it takes up the bits from `b` on. -/
structure FieldStep (ctx : LayoutCtx) (st st' : LayoutState) (ty : CTypeRef) (attr : Attr)
    (e : Entry) (p : Placed) (b width : ℕ) : Prop where
  start_le : st.bofs ≤ b
  le_up : b ≤ Align.up (alignUnit (effAlign ctx ty attr)) st.bofs
  range_eq : range (e, p) = some (b, b + width)
  bofs_eq : st'.bofs = if ctx.isUnion then b else b + width
  bmax_eq : st'.bmaxofs = if ctx.isUnion then max st.bmaxofs width else st.bmaxofs
  align_eq : st'.maxalign = max st.maxalign (effAlign ctx ty attr)
  at_dvd : ∀ ofs, p = .at ofs → 2 ^ effAlign ctx ty attr ∣ ofs
  bits_eq : ∀ ofs pos n csz, p = .bits ofs pos n csz →
    csz = ty.raw.size ∧ csz ∣ ofs ∧ pos < 8 * csz ∧ b = 8 * ofs + pos ∧
      ∃ named, BitsOk named ty n ∧ e = .field named ty (some n) attr

/-- A bitfield in its container. -/
theorem place_bits {b n : ℕ} {named : Bool} {ty : CTypeRef} (attr : Attr)
    (h : BitsOk named ty n) :
    let csz := 8 * ty.raw.size
    range (.field named ty (some n) attr, .bits ((b - b % csz) / 8) (b % csz) n (csz / 8)) =
        some (b, b + n) ∧
      csz / 8 = ty.raw.size ∧ csz / 8 ∣ (b - b % csz) / 8 ∧ b % csz < 8 * (csz / 8) ∧
      b = 8 * ((b - b % csz) / 8) + b % csz := by
  intro csz
  have hpos : 0 < ty.raw.size := by
    rcases h.size_cases with h' | h' | h' <;> omega
  have hcsz : csz / 8 = ty.raw.size := Nat.mul_div_cancel_left _ (by decide)
  obtain ⟨k, hk⟩ : csz ∣ b - b % csz := Nat.dvd_sub_mod b
  have hofs : (b - b % csz) / 8 = ty.raw.size * k := by
    rw [hk, show csz * k = 8 * (ty.raw.size * k) by simp only [csz]; ring]
    exact Nat.mul_div_cancel_left _ (by decide)
  have hsum : b = 8 * ((b - b % csz) / 8) + b % csz := by
    have hle : b % csz ≤ b := Nat.mod_le b csz
    have h8 : 8 * (ty.raw.size * k) = csz * k := by simp only [csz]; ring
    rw [hofs, h8, ← hk]
    lia
  refine ⟨?_, hcsz, ?_, ?_, hsum⟩
  · simp only [range, ← hsum]
  · rw [hcsz, hofs]
    exact Dvd.intro _ rfl
  · rw [hcsz]
    exact Nat.mod_lt _ (by omega)

theorem layoutFields_nil {w : ℕ → ℕ} {ctx : LayoutCtx} {st st' : LayoutState}
    {out : List (Entry × Placed)} (h : layoutFields w ctx st [] = some (st', out)) :
    st' = st ∧ out = [] := by
  simp only [layoutFields, Option.some.injEq, Prod.mk.injEq] at h
  exact ⟨h.1.symm, h.2.symm⟩

theorem layoutFields_cons {w : ℕ → ℕ} {ctx : LayoutCtx} {st st' : LayoutState} {e : Entry}
    {es : List Entry} {out : List (Entry × Placed)}
    (h : layoutFields w ctx st (e :: es) = some (st', out)) :
    ∃ st₁ p out', layoutEntry w ctx st e = some (st₁, p) ∧
      layoutFields w ctx st₁ es = some (st', out') ∧ out = (e, p) :: out' := by
  rw [layoutFields] at h
  split at h
  · cases h
  · rename_i st₁ p he
    split at h
    · cases h
    · rename_i st₂ out' hes
      cases h
      exact ⟨st₁, p, out', he, hes, rfl⟩

/-- Every element of the result is an element of the chain, laid out in some state. -/
theorem layoutFields_mem {w : ℕ → ℕ} {ctx : LayoutCtx} {es : List Entry} :
    ∀ {st st' : LayoutState} {out : List (Entry × Placed)},
      layoutFields w ctx st es = some (st', out) → ∀ f ∈ out,
        f.1 ∈ es ∧ ∃ st₀ st₁, layoutEntry w ctx st₀ f.1 = some (st₁, f.2) := by
  induction es with
  | nil =>
      intro st st' out h f hf
      rw [(layoutFields_nil h).2] at hf
      cases hf
  | cons e es ih =>
      intro st st' out h f hf
      obtain ⟨st₁, p, out', he, hes, rfl⟩ := layoutFields_cons h
      rcases List.mem_cons.1 hf with rfl | hf
      · exact ⟨List.mem_cons_self, st, st₁, he⟩
      · obtain ⟨hmem, hstep⟩ := ih hes f hf
        exact ⟨List.mem_cons_of_mem _ hmem, hstep⟩

/-- What the exact layout does with a struct or union from a state on. -/
structure RunOk (ctx : LayoutCtx) (st st' : LayoutState) (out : List (Entry × Placed)) : Prop where
  bofs_le : st.bofs ≤ st'.bofs
  bmax_le : st.bmaxofs ≤ st'.bmaxofs
  align_le : st.maxalign ≤ st'.maxalign
  align_le_max : st.maxalign ≤ 15 → st'.maxalign ≤ 15
  union_bofs : ctx.isUnion = true → st.bofs = 0 → st'.bofs = 0
  steps : ∀ e p ty attr, (e, p) ∈ out → e.ty = some (ty, attr) →
    effAlign ctx ty attr ≤ st'.maxalign ∧
      ∃ st₀ st₁ b width, FieldStep ctx st₀ st₁ ty attr e p b width

section Exact

variable {ctx : LayoutCtx} {es : List Entry} {X : StructType}

end Exact

/-! ### The layout of the source -/

/-- `char`, `int` and `double`. -/
def charType : CTypeRef :=
  { links := [], raw := .num false false false 0 1, size_pow := fun _ => ⟨0, rfl⟩
    bool_size := fun h => (by cases h) }

@[inherit_doc charType]
def intType : CTypeRef :=
  { links := [], raw := .num false false false 2 4, size_pow := fun _ => ⟨2, rfl⟩
    bool_size := fun h => (by cases h) }

end Layout
