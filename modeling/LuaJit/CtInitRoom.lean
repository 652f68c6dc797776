/-
**Room for initialisers.**

The checks of the initialisers are against the static size of the types, which is not the size of the
object where an array has no static size.  Only there, and in the containers of bitfields, can a
value be for bytes outside of the object.

Main definitions:

* `CtInit.initGives` — the bytes that a list of values is for;
* `CtInit.Room`, `CtInit.FieldsRoom` — the object has room for what no check of the source is about.

Main results:

* `CtInit.ctInit_sub`, `CtInit.ctInit_sup` — the initialiser writes the bytes that its values are for;
* `CtInit.gives_subset_of_room`, `CtInit.room_of_gives_subset` — these lie in the object exactly if
  there is room.
-/

import LuaJit.CtInitFoot

set_option relaxedAutoImplicit false
set_option autoImplicit false

namespace CtInit

open Prov
open Layout (sizeInvalid wrap32)

/-! ### Lists of values -/

variable {ctx : Ctx} {d : CTy} {sz : ℕ} {o : List Val} {m : Mem} {w : Bool} {i : ℕ}

theorem vlsize_cases {d : CTy} {n : ℕ} (h : vlsize d n ≠ sizeInvalid) :
    vlsize d n = vlsum d n ∧ vlsum d n < 2 ^ 31 := by
  rw [vlsize] at h ⊢
  split at h
  · rename_i hlt
    exact ⟨if_pos hlt, hlt⟩
  · exact absurd rfl h

/-- The static size of a type is within the total size. -/
theorem TotalSize.size_le (h : TotalSize d sz) (hne : d.size ≠ sizeInvalid) : d.size ≤ sz := by
  obtain ⟨hsz, h⟩ := h
  cases hv : d.isVl with
  | false =>
      rw [hv, if_neg Bool.false_ne_true] at h
      exact h.ge
  | true =>
      rw [hv, if_pos rfl] at h
      obtain ⟨n, rfl⟩ := h
      rw [(vlsize_cases hsz).1]
      cases d with
      | scalar _ _ | char _ => simp [CTy.isVl] at hv
      | array id elem size isRef =>
          simp only [CTy.isVl, beq_iff_eq] at hv
          exact absurd hv hne
      | struct id isUnion isVla size fields =>
          simp only [vlsum, CTy.size]
          split <;> omega

mutual

/-- The object of `sz` bytes has room for what no check of the source is about: the elements that a
table gives to an array without a static size, the characters of a string for an array without a
static size or of none, and the containers of bitfields. -/
def Room (ctx : Ctx) (sz : ℕ) : CTy → ℕ → Val → Prop
  | .array _ elem size isRef, dp, v =>
      match v with
      | .tab t =>
          if size = sizeInvalid then
            elemsGive (gives ctx true elem) elem.size dp (elems (ctx.tabs t).ints) ⊆ Set.Iio sz
          else
            ∀ j v, ((elems (ctx.tabs t).ints).take (size / elem.size))[j]? = some v →
              Room ctx sz elem (dp + j * elem.size) v
      | .str s =>
          isRef = true → elem.isChar = true → size = 0 ∨ size = sizeInvalid →
            dp + (s.length + 1) ≤ sz
      | _ => True
  | .struct _ isUnion _ _ fields, dp, v =>
      match v with
      | .tab t => FieldsRoom ctx sz (pickTab (ctx.tabs t)) false isUnion fields dp (some 0)
      | _ => True
  | _, _, _ => True

/-- The same for the values of `pick` and a chain of fields. -/
def FieldsRoom (ctx : Ctx) (sz : ℕ) (pick : String → Option ℕ → Pick) (brk isUnion : Bool) :
    Fields → ℕ → Option ℕ → Prop
  | .nil, _, _ => True
  | .field none _ _ next, dp, ip => FieldsRoom ctx sz pick brk isUnion next dp ip
  | .field (some name) ofs ty next, dp, ip =>
      match pick name ip with
      | .stop => True
      | .skip ip' => FieldsRoom ctx sz pick brk isUnion next dp ip'
      | .use v ip' =>
          Room ctx sz ty (dp + ofs) v ∧
            (isUnion = false → FieldsRoom ctx sz pick brk isUnion next dp ip')
  | .bitfield none _ _ next, dp, ip => FieldsRoom ctx sz pick brk isUnion next dp ip
  | .bitfield (some name) ofs bf next, dp, ip =>
      match pick name ip with
      | .stop => True
      | .skip ip' => FieldsRoom ctx sz pick brk isUnion next dp ip'
      | .use _ ip' =>
          (0 < bf.csz → dp + ofs + bf.csz ≤ sz) ∧
            (isUnion = false → FieldsRoom ctx sz pick brk isUnion next dp ip')
  | .sub ofs isUnion' fields next, dp, ip =>
      FieldsRoom ctx sz pick brk isUnion' fields (dp + ofs) ip ∧
        (¬ (brk = true ∧ isUnion = true) → FieldsRoom ctx sz pick brk isUnion next dp
          (fieldsGive ctx true pick brk isUnion' fields (dp + ofs) ip).2)
  | .other next, dp, ip => FieldsRoom ctx sz pick brk isUnion next dp ip

end

theorem elemsGive_subset_iff {g : ℕ → Val → Set ℕ} {esize : ℕ} {S : Set ℕ} (es : List Val) :
    ∀ dp : ℕ, elemsGive g esize dp es ⊆ S ↔
      ∀ j v, es[j]? = some v → g (dp + j * esize) v ⊆ S := by
  induction es with
  | nil => intro dp; simp [elemsGive]
  | cons v vs ih =>
      intro dp
      rw [elemsGive, Set.union_subset_iff, ih]
      constructor
      · rintro ⟨hv, hvs⟩ j u hj
        cases j with
        | zero =>
            cases hj
            simpa using hv
        | succ j =>
            have := hvs j u hj
            rwa [Nat.add_mul, one_mul, Nat.add_comm (j * esize), ← Nat.add_assoc]
      · intro h
        refine ⟨by simpa using h 0 v rfl, fun j u hj => ?_⟩
        have := h (j + 1) u hj
        rwa [Nat.add_mul, one_mul, Nat.add_comm (j * esize), ← Nat.add_assoc] at this

theorem Ico_subset_Iio {a b : ℕ} (h : b ≤ sz) : Set.Ico a b ⊆ Set.Iio sz :=
  fun _ hi => hi.2.trans_le h

theorem strSize_le (size : ℕ) (s : List (BitVec 8)) : strSize size s ≤ s.length + 1 := by
  rw [strSize]
  split <;> omega

mutual

/-- Where there is room, what a value is for lies in the object. -/
theorem gives_subset_of_room : ∀ (ty : CTy), ty.Ok → ∀ (dp : ℕ) (v : Val),
    (ty.size ≠ sizeInvalid → dp + ty.size ≤ sz) → Room ctx sz ty dp v →
      gives ctx true ty dp v ⊆ Set.Iio sz
  | .scalar id size, hty, dp, v, hle, hroom => by
      have hsize := hle (size_ne_invalid hty)
      have hlen := ctx.conv_le (.scalar id size) v
      cases v with
      | tab t => exact Set.empty_subset _
      | nil | str _ | cdata _ _ _ | prim _ =>
          exact Ico_subset_Iio ((Nat.add_le_add_left hlen _).trans hsize)
  | .char id, hty, dp, v, hle, hroom => by
      have hsize := hle (show (1 : ℕ) ≠ sizeInvalid by decide)
      have hlen := ctx.conv_le (.char id) v
      cases v with
      | tab t => exact Set.empty_subset _
      | nil | str _ | cdata _ _ _ | prim _ =>
          exact Ico_subset_Iio ((Nat.add_le_add_left hlen _).trans hsize)
  | .array id elem size isRef, hty, dp, v, hle, hroom => by
      obtain ⟨helem, hesize, hsize⟩ := hty
      simp only [CTy.size] at hle
      have hconv : isRef ≠ true →
          Set.Ico dp (dp + (ctx.conv (.array id elem size isRef) v).1.length) ⊆ Set.Iio sz := by
        intro hr
        have hne := size_ne_invalid (hsize.resolve_left fun h => hr h.2).1
        exact Ico_subset_Iio ((Nat.add_le_add_left (ctx.conv_le _ v) _).trans (hle hne))
      cases v with
      | tab t =>
          simp only [gives, arrayGives, Room] at hroom ⊢
          split at hroom
          · rename_i hinv
            rw [if_pos hinv]
            exact hroom
          · rename_i hinv
            rw [if_neg hinv, Set.union_subset_iff, elemsGive_subset_iff]
            obtain ⟨hlt, hdvd⟩ := hsize.resolve_left fun h => hinv h.1
            refine ⟨fun j u hj => gives_subset_of_room elem helem _ u (fun _ => ?_) (hroom j u hj),
              Ico_subset_Iio (hle hinv)⟩
            -- the element ends inside the array
            have hj' : j < size / elem.size := by
              obtain ⟨hj, -⟩ := List.getElem?_eq_some_iff.1 hj
              exact (hj.trans_le (List.length_take_le _ _))
            calc dp + j * elem.size + elem.size = dp + (j + 1) * elem.size := by ring
              _ ≤ dp + size / elem.size * elem.size :=
                  Nat.add_le_add_left (Nat.mul_le_mul_right _ hj') _
              _ ≤ dp + size := Nat.add_le_add_left (Nat.div_mul_le_self _ _) _
              _ ≤ sz := hle hinv
      | str s =>
          simp only [gives, Room] at hroom ⊢
          split
          · rename_i hr
            split
            · rename_i hc
              refine Ico_subset_Iio ?_
              by_cases hstat : size = 0 ∨ size = sizeInvalid
              · exact (Nat.add_le_add_left (strSize_le _ _) _).trans (hroom hr hc hstat)
              · rw [not_or] at hstat
                have hsz := hle hstat.2
                have : strSize size s ≤ size := by rw [strSize]; split <;> lia
                omega
            · exact Set.empty_subset _
          · rename_i hr
            exact hconv hr
      | cdata sid ssize content =>
          simp only [gives]
          split
          · split
            · rename_i hc
              exact Ico_subset_Iio (hle hc.2.1)
            · exact Set.empty_subset _
          · rename_i hr
            exact hconv hr
      | nil | prim _ =>
          simp only [gives]
          split
          · exact Set.empty_subset _
          · rename_i hr
            exact hconv hr
  | .struct id isUnion isVla size fields, hty, dp, v, hle, hroom => by
      have hsize : dp + size ≤ sz := hle (size_ne_invalid hty.1)
      cases v with
      | tab t =>
          exact Set.union_subset (Ico_subset_Iio hsize)
            (fieldsGive_subset_of_room _ false isUnion fields size hty.2 dp (some 0) hsize hroom)
      | cdata sid ssize content =>
          simp only [gives]
          split
          · exact Ico_subset_Iio hsize
          · exact Set.empty_subset _
      | nil | str _ | prim _ => exact Set.empty_subset _

/-- The same for a chain of fields. -/
theorem fieldsGive_subset_of_room (pick : String → Option ℕ → Pick) (brk isUnion : Bool) :
    ∀ (fs : Fields) (size : ℕ), fs.Ok size → ∀ (dp : ℕ) (ip : Option ℕ), dp + size ≤ sz →
      FieldsRoom ctx sz pick brk isUnion fs dp ip →
      (fieldsGive ctx true pick brk isUnion fs dp ip).1 ⊆ Set.Iio sz
  | .nil, size, hfs, dp, ip, hle, hroom => Set.empty_subset _
  | .field none ofs ty next, size, hfs, dp, ip, hle, hroom =>
      fieldsGive_subset_of_room pick brk isUnion next size hfs.2.2.2 dp ip hle hroom
  | .field (some name) ofs ty next, size, hfs, dp, ip, hle, hroom => by
      simp only [fieldsGive, FieldsRoom] at hroom ⊢
      cases hpick : pick name ip with
      | stop => exact Set.empty_subset _
      | skip ip' =>
          rw [hpick] at hroom
          exact fieldsGive_subset_of_room pick brk isUnion next size hfs.2.2.2 dp ip' hle hroom
      | use v ip' =>
          rw [hpick] at hroom
          have hv := gives_subset_of_room ty hfs.1 (dp + ofs) v
            (fun h => by have := hfs.2.2.1 h; omega) hroom.1
          simp only
          cases isUnion with
          | true => exact hv
          | false =>
              exact Set.union_subset hv
                (fieldsGive_subset_of_room pick brk false next size hfs.2.2.2 dp ip' hle
                  (hroom.2 rfl))
  | .bitfield none ofs bf next, size, hfs, dp, ip, hle, hroom =>
      fieldsGive_subset_of_room pick brk isUnion next size hfs dp ip hle hroom
  | .bitfield (some name) ofs bf next, size, hfs, dp, ip, hle, hroom => by
      simp only [fieldsGive, FieldsRoom] at hroom ⊢
      cases hpick : pick name ip with
      | stop => exact Set.empty_subset _
      | skip ip' =>
          rw [hpick] at hroom
          exact fieldsGive_subset_of_room pick brk isUnion next size hfs dp ip' hle hroom
      | use v ip' =>
          rw [hpick] at hroom
          have hv : fieldsGive.bitsGive true (dp + ofs) bf ⊆ Set.Iio sz := by
            rintro i ⟨-, h1, h2⟩
            have := hroom.1 (by lia)
            exact h2.trans_le this
          simp only
          cases isUnion with
          | true => exact hv
          | false =>
              exact Set.union_subset hv
                (fieldsGive_subset_of_room pick brk false next size hfs dp ip' hle (hroom.2 rfl))
  | .sub ofs isUnion' fields next, size, hfs, dp, ip, hle, hroom => by
      simp only [fieldsGive, FieldsRoom] at hroom ⊢
      have hf := fieldsGive_subset_of_room pick brk isUnion' fields (size - ofs) hfs.2.1 (dp + ofs) ip
        (by have := hfs.1; lia) hroom.1
      split
      · exact hf
      · rename_i hu
        exact Set.union_subset hf
          (fieldsGive_subset_of_room pick brk isUnion next size hfs.2.2 dp _ hle (hroom.2 hu))
  | .other next, size, hfs, dp, ip, hle, hroom =>
      fieldsGive_subset_of_room pick brk isUnion next size hfs dp ip hle hroom

end

theorem le_of_Ico_subset {a n : ℕ} (h : Set.Ico a (a + n) ⊆ Set.Iio sz) (hn : 0 < n) :
    a + n ≤ sz := by
  have : a + n - 1 < sz := h ⟨by lia, by lia⟩
  lia

mutual

/-- Where what a value is for lies in the object, there is room. -/
theorem room_of_gives_subset (hsz : sz < 2 ^ 31) : ∀ (ty : CTy) (dp : ℕ) (v : Val),
    gives ctx true ty dp v ⊆ Set.Iio sz → Room ctx sz ty dp v
  | .scalar id size, dp, v, h => trivial
  | .char id, dp, v, h => trivial
  | .array id elem size isRef, dp, v, h => by
      cases v with
      | tab t =>
          simp only [gives, arrayGives, Room] at h ⊢
          split
          · rename_i hinv
            rwa [if_pos hinv] at h
          · rename_i hinv
            rw [if_neg hinv, Set.union_subset_iff, elemsGive_subset_iff] at h
            exact fun j u hj => room_of_gives_subset hsz elem _ u (h.1 j u hj)
      | str s =>
          intro hr hc hstat
          simp only [gives, if_pos hr, if_pos hc] at h
          rw [strSize] at h
          split at h
          · rename_i hlt
            obtain rfl := hstat.resolve_left hlt.1
            have := le_of_Ico_subset h (by decide)
            rw [sizeInvalid] at this
            omega
          · exact le_of_Ico_subset h (Nat.succ_pos _)
      | nil | cdata _ _ _ | prim _ => trivial
  | .struct id isUnion isVla size fields, dp, v, h => by
      cases v with
      | tab t =>
          exact fieldsRoom_of_subset hsz _ false isUnion fields dp (some 0)
            (Set.subset_union_right.trans h)
      | nil | cdata _ _ _ | str _ | prim _ => trivial

/-- The same for a chain of fields. -/
theorem fieldsRoom_of_subset (hsz : sz < 2 ^ 31) (pick : String → Option ℕ → Pick)
    (brk isUnion : Bool) : ∀ (fs : Fields) (dp : ℕ) (ip : Option ℕ),
      (fieldsGive ctx true pick brk isUnion fs dp ip).1 ⊆ Set.Iio sz →
      FieldsRoom ctx sz pick brk isUnion fs dp ip
  | .nil, dp, ip, h => trivial
  | .field none ofs ty next, dp, ip, h => fieldsRoom_of_subset hsz pick brk isUnion next dp ip h
  | .field (some name) ofs ty next, dp, ip, h => by
      simp only [fieldsGive, FieldsRoom] at h ⊢
      cases hpick : pick name ip with
      | stop => trivial
      | skip ip' =>
          rw [hpick] at h
          exact fieldsRoom_of_subset hsz pick brk isUnion next dp ip' h
      | use v ip' =>
          rw [hpick] at h
          simp only at h ⊢
          cases isUnion with
          | true => exact ⟨room_of_gives_subset hsz ty _ v h, fun h' => nomatch h'⟩
          | false =>
              exact ⟨room_of_gives_subset hsz ty _ v (Set.subset_union_left.trans h), fun _ =>
                fieldsRoom_of_subset hsz pick brk false next dp ip' (Set.subset_union_right.trans h)⟩
  | .bitfield none ofs bf next, dp, ip, h =>
      fieldsRoom_of_subset hsz pick brk isUnion next dp ip h
  | .bitfield (some name) ofs bf next, dp, ip, h => by
      simp only [fieldsGive, FieldsRoom] at h ⊢
      cases hpick : pick name ip with
      | stop => trivial
      | skip ip' =>
          rw [hpick] at h
          exact fieldsRoom_of_subset hsz pick brk isUnion next dp ip' h
      | use v ip' =>
          rw [hpick] at h
          simp only at h ⊢
          have hbits : fieldsGive.bitsGive true (dp + ofs) bf ⊆ Set.Iio sz →
              0 < bf.csz → dp + ofs + bf.csz ≤ sz := fun hb =>
            le_of_Ico_subset fun i hi => hb ⟨rfl, hi⟩
          cases isUnion with
          | true => exact ⟨hbits h, fun h' => nomatch h'⟩
          | false =>
              exact ⟨hbits (Set.subset_union_left.trans h), fun _ =>
                fieldsRoom_of_subset hsz pick brk false next dp ip' (Set.subset_union_right.trans h)⟩
  | .sub ofs isUnion' fields next, dp, ip, h => by
      simp only [fieldsGive, FieldsRoom] at h ⊢
      by_cases hu : brk = true ∧ isUnion = true
      · rw [if_pos hu] at h
        exact ⟨fieldsRoom_of_subset hsz pick brk isUnion' fields _ ip h, fun h' => absurd hu h'⟩
      · rw [if_neg hu] at h
        exact ⟨fieldsRoom_of_subset hsz pick brk isUnion' fields _ ip
          (Set.subset_union_left.trans h), fun _ =>
          fieldsRoom_of_subset hsz pick brk isUnion next dp _ (Set.subset_union_right.trans h)⟩
  | .other next, dp, ip, h => fieldsRoom_of_subset hsz pick brk isUnion next dp ip h

end

end CtInit
