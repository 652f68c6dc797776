/-
**The bytes that initialisers are for.**

A Lua value that initialises a C type is for certain bytes, which the type and the value alone tell:
a number is for the bytes of its type, a string for its characters and the NUL, up to the static size
of the array, a table for the bytes of what it gives to the elements or the fields, and, where the
type has a static size, for all the bytes of the type.  The conversion writes these bytes, unless it
raises an error before or an offset wraps around.

Main definitions:

* `CtInit.CTy.Ok`, `CtInit.Fields.Ok` — what every type meets;
* `CtInit.gives`, `CtInit.fieldsGive` — the bytes that a value is for.

Main results:

* `CtInit.ctTv_sub` — where all these bytes lie in the object, **the conversion writes no others**;
* `CtInit.ctTv_sup` — where it stays in the object and returns, **it writes all of them**.
-/

import LuaJit.CtInit

set_option relaxedAutoImplicit false
set_option autoImplicit false

namespace CtInit

open Prov
open Layout (sizeInvalid wrap32)

/-! ### Types -/

mutual

/-- The sizes of a type fit together: an array is as large as its elements, a field lies inside the
struct. -/
def CTy.Ok : CTy → Prop
  | .scalar _ size => size < 2 ^ 31
  | .char _ => True
  | .array _ elem size isRef =>
      elem.Ok ∧ elem.size < 2 ^ 31 ∧
        (size = sizeInvalid ∧ isRef = true ∨ size < 2 ^ 31 ∧ elem.size ∣ size)
  | .struct _ _ _ size fields => size < 2 ^ 31 ∧ fields.Ok size

/-- The fields of a struct lie inside `size` bytes.  An array without a static size starts inside
them, and nothing is said of the containers of bitfields. -/
def Fields.Ok : Fields → ℕ → Prop
  | .nil, _ => True
  | .field _ ofs ty next, size =>
      ty.Ok ∧ ofs ≤ size ∧ (ty.size ≠ sizeInvalid → ofs + ty.size ≤ size) ∧ next.Ok size
  | .bitfield _ _ _ next, size => next.Ok size
  | .sub ofs _ fields next, size => ofs ≤ size ∧ fields.Ok (size - ofs) ∧ next.Ok size
  | .other next, size => next.Ok size

end

theorem CTy.Ok.size_lt {ty : CTy} (h : ty.Ok) (hs : ty.size ≠ sizeInvalid) : ty.size < 2 ^ 31 := by
  cases ty with
  | scalar id size => exact h
  | char id => exact Nat.one_lt_two_pow (by decide)
  | array id elem size isRef => exact (h.2.2.resolve_left fun h' => hs h'.1).1
  | struct id isUnion isVla size fields => exact h.1

/-! ### What a value is for -/

/-- What the elements of an array are for. -/
def elemsGive (g : ℕ → Val → Set ℕ) (esize : ℕ) : ℕ → List Val → Set ℕ
  | _, [] => ∅
  | dp, v :: vs => g dp v ∪ elemsGive g esize (dp + esize) vs

/-- What a table is for in an array: the elements, and all of an array with a static size. -/
def arrayGives (g : ℕ → Val → Set ℕ) (size esize dp : ℕ) (es : List Val) : Set ℕ :=
  if size = sizeInvalid then elemsGive g esize dp es
  else
    elemsGive g esize dp (es.take (size / esize)) ∪
      Set.Ico (dp + es.length * esize) (dp + size)

mutual

/-- The bytes that a value is for at `dp`: those written, or with `false` those determined. -/
@[grind =]
def gives (ctx : Ctx) (w : Bool) : CTy → ℕ → Val → Set ℕ
  | .scalar id size, dp, v =>
      match v with
      | .tab _ => ∅
      | v => Set.Ico dp (dp + (ctx.conv (.scalar id size) v).1.length)
  | .char id, dp, v =>
      match v with
      | .tab _ => ∅
      | v => Set.Ico dp (dp + (ctx.conv (.char id) v).1.length)
  | .array id elem size isRef, dp, v =>
      match v with
      | .tab t =>
          arrayGives (gives ctx w elem) size elem.size dp (elems (ctx.tabs t).ints)
      | v =>
          if isRef = true then
            match v with
            | .str s => if elem.isChar = true then Set.Ico dp (dp + strSize size s) else ∅
            | .cdata sid ssize _ =>
                if size = ssize ∧ size ≠ sizeInvalid ∧ ctx.compat id sid = true then
                  Set.Ico dp (dp + size)
                else ∅
            | _ => ∅
          else Set.Ico dp (dp + (ctx.conv (.array id elem size isRef) v).1.length)
  | .struct id isUnion isVla size fields, dp, v =>
      match v with
      | .tab t =>
          Set.Ico dp (dp + size) ∪ (fieldsGive ctx w (pickTab (ctx.tabs t)) false isUnion fields dp (some 0)).1
      | .cdata sid _ _ => if sid = id ∧ isVla = false then Set.Ico dp (dp + size) else ∅
      | _ => ∅

/-- The bytes that the values of `pick` are for in a chain of fields, with the position after
them. -/
def fieldsGive (ctx : Ctx) (w : Bool) (pick : String → Option ℕ → Pick) (brk isUnion : Bool) :
    Fields → ℕ → Option ℕ → Set ℕ × Option ℕ
  | .nil, _, ip => (∅, ip)
  | .field none _ _ next, dp, ip => fieldsGive ctx w pick brk isUnion next dp ip
  | .field (some name) ofs ty next, dp, ip =>
      match pick name ip with
      | .stop => (∅, ip)
      | .skip ip' => fieldsGive ctx w pick brk isUnion next dp ip'
      | .use v ip' =>
          if isUnion = true then (gives ctx w ty (dp + ofs) v, ip')
          else
            let r := fieldsGive ctx w pick brk isUnion next dp ip'
            (gives ctx w ty (dp + ofs) v ∪ r.1, r.2)
  | .bitfield none _ _ next, dp, ip => fieldsGive ctx w pick brk isUnion next dp ip
  | .bitfield (some name) ofs bf next, dp, ip =>
      match pick name ip with
      | .stop => (∅, ip)
      | .skip ip' => fieldsGive ctx w pick brk isUnion next dp ip'
      | .use _ ip' =>
          if isUnion = true then (bitsGive w (dp + ofs) bf, ip')
          else
            let r := fieldsGive ctx w pick brk isUnion next dp ip'
            (bitsGive w (dp + ofs) bf ∪ r.1, r.2)
  | .sub ofs isUnion' fields next, dp, ip =>
      let r := fieldsGive ctx w pick brk isUnion' fields (dp + ofs) ip
      if brk = true ∧ isUnion = true then r
      else
        let r' := fieldsGive ctx w pick brk isUnion next dp r.2
        (r.1 ∪ r'.1, r'.2)
  | .other next, dp, ip => fieldsGive ctx w pick brk isUnion next dp ip
where
  /-- The container of a bitfield, which is written but not determined. -/
  bitsGive (w : Bool) (dp : ℕ) (bf : Bitfield.Info) : Set ℕ :=
    {i | w = true ∧ i ∈ Set.Ico dp (dp + bf.csz)}

end

/-! ### Filling an array -/

variable {ctx : Ctx} {sz : ℕ} {w : Bool} {i : ℕ}

theorem wrap32_of_lt {n : ℕ} (h : n < 2 ^ 32) : wrap32 n = n := Nat.mod_eq_of_lt h

/-- The next element ends inside an array of whole elements. -/
theorem add_le_of_dvd {ofs esize size : ℕ} (ho : esize ∣ ofs) (hs : esize ∣ size) (h : ofs < size) :
    ofs + esize ≤ size := by
  obtain ⟨a, rfl⟩ := ho
  obtain ⟨b, rfl⟩ := hs
  have hab : a < b := Nat.lt_of_mul_lt_mul_left h
  calc esize * a + esize = esize * (a + 1) := by ring
    _ ≤ esize * b := Nat.mul_le_mul_left _ hab

theorem has_replicateLoop {dp esize size : ℕ} (hs : esize ∣ size) (hsz : size < 2 ^ 31)
    (fuel : ℕ) : ∀ (ofs : ℕ) (m : Mem), esize ∣ ofs → ofs ≤ size → size ≤ ofs + fuel →
      ((replicateLoop dp esize size fuel ofs m).Has w i ↔
        i ∈ Set.Ico (dp + ofs) (dp + size) ∨ m.Has w i) := by
  induction fuel with
  | zero =>
      intro ofs m ho hle hfuel
      have hempty : ofs = size := by lia
      simp [replicateLoop, hempty]
  | succ fuel ih =>
      intro ofs m ho hle hfuel
      rw [replicateLoop]
      split
      · rename_i hlt
        have hnext := add_le_of_dvd ho hs hlt
        have hpos : 0 < esize := by
          rcases Nat.eq_zero_or_pos esize with h0 | h0
          · rw [h0, Nat.zero_dvd] at hs
            omega
          · exact h0
        rw [wrap32_of_lt (by omega), ih _ _ (Dvd.dvd.add ho dvd_rfl) hnext (by lia), has_copy]
        simp only [Set.mem_Ico]
        constructor
        · rintro (⟨h1, h2⟩ | ⟨h1, h2⟩ | h)
          · exact .inl ⟨by lia, h2⟩
          · exact .inl ⟨h1, by lia⟩
          · exact .inr h
        · rintro (⟨h1, h2⟩ | h)
          · by_cases h3 : i < dp + ofs + esize
            · exact .inr (.inl ⟨h1, h3⟩)
            · exact .inl ⟨by lia, h2⟩
          · exact .inr (.inr h)
      · rename_i hge
        have hempty : ofs = size := by lia
        simp [hempty]

/-- The end of an array: all bytes after the elements. -/
theorem has_fillArray {dp esize size ofs : ℕ} (hs : esize ∣ size) (hsz : size < 2 ^ 31)
    (ho : ofs ≤ size) (m : Mem) :
    (fillArray dp esize size ofs m).Has w i ↔
      i ∈ Set.Ico (dp + ofs) (dp + size) ∨ m.Has w i := by
  rw [fillArray]
  split
  · rename_i heq
    exact has_replicateLoop hs hsz size ofs m (dvd_of_eq heq.symm) ho (Nat.le_add_left _ _)
  · have hn : wrap32 (size + 2 ^ 32 - ofs) = size - ofs := by
      rw [show size + 2 ^ 32 - ofs = size - ofs + 2 ^ 32 by lia, wrap32, Nat.add_mod_right]
      exact Nat.mod_eq_of_lt (by lia)
    rw [hn, has_clear, show dp + ofs + (size - ofs) = dp + size by lia]

/-! ### The elements of an array -/

section
variable {conv : ℕ → Val → Mem → Mem × Bool} {g : Bool → ℕ → Val → Set ℕ} {limit esize dp : ℕ}

/-- The loop writes what the elements are for, where that lies in the object, and the offset at its
end is that after the elements. -/
theorem elemLoop_sub (hsz : sz ≤ 2 ^ 31) (hes : esize < 2 ^ 31)
    (hsub : ∀ p v m, g true p v ⊆ Set.Iio sz →
      ∀ w i, (conv p v m).1.Has w i → m.Has w i ∨ i ∈ g w p v)
    (hself : ∀ p v m, (conv p v m).2 = true → 0 < esize → p ∈ g true p v) (es : List Val) :
    ∀ (n ofs : ℕ) (m : Mem), (∀ j < es.length, ofs + j * esize < limit → j < n) → ofs < 2 ^ 32 →
      elemsGive (g true) esize (dp + ofs) (es.take n) ⊆ Set.Iio sz →
      (∀ ofs', (elemLoop conv limit esize dp ofs es m).2 = some ofs' →
        ofs' = ofs + es.length * esize ∧ ofs' < 2 ^ 32 ∧ es.length ≤ n) ∧
      ∀ w i, (elemLoop conv limit esize dp ofs es m).1.Has w i →
        m.Has w i ∨ i ∈ elemsGive (g w) esize (dp + ofs) (es.take n) := by
  induction es with
  | nil =>
      intro n ofs m _ hofs _
      refine ⟨fun ofs' h => ?_, fun w i h => .inl h⟩
      cases h
      exact ⟨by simp, hofs, Nat.zero_le _⟩
  | cons v vs ih =>
      intro n ofs m hn hofs hgive
      rw [elemLoop]
      split
      · exact ⟨(fun ofs' h => absurd h.symm (Option.some_ne_none ofs')), fun w i h => .inl h⟩
      · rename_i hlt
        have hpos : 0 < n := hn 0 (Nat.succ_pos _) (by omega)
        obtain ⟨n, rfl⟩ := Nat.exists_eq_add_of_lt hpos
        rw [Nat.zero_add] at hgive hn ⊢
        rw [List.take_succ_cons] at hgive ⊢
        simp only [elemsGive] at hgive ⊢
        have hv := Set.subset_union_left.trans hgive
        have hstep := hsub (dp + ofs) v m hv
        split
        · rename_i heq
          rw [heq] at hstep
          exact ⟨(fun ofs' h => absurd h.symm (Option.some_ne_none ofs')), fun w i h => (hstep w i h).imp_right .inl⟩
        · rename_i m' heq
          rw [heq] at hstep
          have hnext : ofs + esize < 2 ^ 32 := by
            rcases Nat.eq_zero_or_pos esize with h0 | h0
            · omega
            · have := hv (hself (dp + ofs) v m (by rw [heq]) h0)
              simp only [Set.mem_Iio] at this
              lia
          rw [wrap32_of_lt hnext]
          obtain ⟨hend, hrest⟩ := ih n (ofs + esize) m'
            (fun j hj hl => by
              have := hn (j + 1) (by simpa using hj) (by rw [Nat.add_mul, one_mul]; omega)
              omega)
            hnext (by rw [← Nat.add_assoc]; exact Set.subset_union_right.trans hgive)
          refine ⟨fun ofs' h => ?_, fun w i h => ?_⟩
          · obtain ⟨rfl, hofs', hlen⟩ := hend ofs' h
            exact ⟨by rw [List.length_cons]; ring, hofs', Nat.succ_le_succ hlen⟩
          · rw [← Nat.add_assoc] at hrest
            rcases hrest w i h with h | h
            · exact (hstep w i h).imp_right .inl
            · exact .inr (.inr h)

/-- A loop that stays in the object and returns has written what the elements are for. -/
theorem elemLoop_sup (hsz : sz ≤ 2 ^ 31) (hes : esize < 2 ^ 31)
    (hmono : ∀ p v m w i, m.Has w i → (conv p v m).1.Has w i)
    (hsup : ∀ p v m, (conv p v m).2 = true → (∀ i, (conv p v m).1.Has true i → i < sz) →
      ∀ w, ∀ i ∈ g w p v, (conv p v m).1.Has w i)
    (hself : ∀ p v m, (conv p v m).2 = true → 0 < esize → p ∈ g true p v) (es : List Val) :
    ∀ (ofs ofs' : ℕ) (m m' : Mem), ofs < 2 ^ 32 →
      elemLoop conv limit esize dp ofs es m = (m', some ofs') → (∀ i, m'.Has true i → i < sz) →
      ofs' = ofs + es.length * esize ∧ ofs' < 2 ^ 32 ∧
        (∀ j < es.length, ofs + j * esize < limit) ∧
        ∀ w, ∀ i ∈ elemsGive (g w) esize (dp + ofs) es, m'.Has w i := by
  induction es with
  | nil =>
      intro ofs ofs' m m' hofs h _
      cases h
      exact ⟨by simp, hofs, by simp, fun w i hi => hi.elim⟩
  | cons v vs ih =>
      intro ofs ofs' m m' hofs h hin
      rw [elemLoop] at h
      split at h
      · cases h
      · rename_i hlt
        split at h
        · cases h
        · rename_i m₁ heq
          -- what the first element writes stays written
          have hkeep : ∀ w i, m₁.Has w i → m'.Has w i := fun w i hi => by
            have hstable : (elemLoop conv limit esize dp (wrap32 (ofs + esize)) vs m₁).1.Has w i :=
              elemLoop_stable (fun p v m => hmono p v m w i) vs _ m₁ hi
            rwa [h] at hstable
          have hv := hsup (dp + ofs) v m (by rw [heq]) fun i hi => by
            rw [heq] at hi
            exact hin i (hkeep true i hi)
          rw [heq] at hv
          have hnext : ofs + esize < 2 ^ 32 := by
            rcases Nat.eq_zero_or_pos esize with h0 | h0
            · omega
            · have := hin _ (hkeep _ _ (hv true _ (hself (dp + ofs) v m (by rw [heq]) h0)))
              lia
          rw [wrap32_of_lt hnext] at h
          obtain ⟨rfl, hofs', hlim, hrest⟩ := ih _ _ _ _ hnext h hin
          refine ⟨by rw [List.length_cons]; ring, hofs', ?_, ?_⟩
          · rintro (_ | j) hj
            · simpa using hlt
            · have := hlim j (by simpa using hj)
              rw [Nat.add_mul, one_mul]
              omega
          · rintro w i (hi | hi)
            · exact hkeep w i (hv w i hi)
            · rw [Nat.add_assoc] at hi
              exact hrest w i hi

/-- The number of elements that pass the check of a static size. -/
theorem lt_div_of_mul_lt {esize size j : ℕ} (hs : esize ∣ size) (h : j * esize < size) :
    j < size / esize := by
  obtain ⟨b, rfl⟩ := hs
  have hpos : 0 < esize := Nat.pos_of_ne_zero fun h0 => by simp [h0] at h
  rw [Nat.mul_div_cancel_left b hpos]
  rw [Nat.mul_comm j] at h
  exact Nat.lt_of_mul_lt_mul_left h

theorem arrayTab_sub {size : ℕ} (hsz : sz ≤ 2 ^ 31) (hes : esize < 2 ^ 31)
    (hs : size = sizeInvalid ∨ size < 2 ^ 31 ∧ esize ∣ size)
    (hsub : ∀ p v m, g true p v ⊆ Set.Iio sz →
      ∀ w i, (conv p v m).1.Has w i → m.Has w i ∨ i ∈ g w p v)
    (hself : ∀ p v m, (conv p v m).2 = true → 0 < esize → p ∈ g true p v) (t : Tab) (m : Mem)
    (hgive : arrayGives (g true) size esize dp (elems t.ints) ⊆ Set.Iio sz) (w : Bool) (i : ℕ)
    (h : (arrayTab conv size esize dp t m).1.Has w i) :
    m.Has w i ∨ i ∈ arrayGives (g w) size esize dp (elems t.ints) := by
  have hloop := @elemLoop_sub sz conv g size esize dp hsz hes hsub hself (elems t.ints)
  rw [arrayTab, arrayTabLoop_eq] at h
  by_cases hinv : size = sizeInvalid
  · rw [arrayGives, if_pos hinv] at hgive ⊢
    obtain ⟨-, hl⟩ := hloop (elems t.ints).length 0 m (fun j hj _ => hj) (by decide)
      (by simpa using hgive)
    rw [List.take_length] at hl
    simp only [hinv, if_true] at h hl
    refine hl w i ?_
    split at h
    · rename_i heq; rw [heq]; exact h
    · rename_i heq; rw [heq]; exact h
  · obtain ⟨hlt, hdvd⟩ := hs.resolve_left hinv
    rw [arrayGives, if_neg hinv] at hgive ⊢
    obtain ⟨hend, hl⟩ := hloop (size / esize) 0 m
      (fun j _ hj => lt_div_of_mul_lt hdvd (by simpa using hj)) (by decide)
      (Set.subset_union_left.trans hgive)
    simp only [hinv, if_false] at h
    split at h
    · rename_i heq
      rw [heq] at hl
      exact (hl w i h).imp_right .inl
    · rename_i m' ofs heq
      rw [heq] at hl hend
      obtain ⟨rfl, -, hlen⟩ := hend ofs rfl
      have hle : 0 + (elems t.ints).length * esize ≤ size := by
        calc 0 + (elems t.ints).length * esize ≤ size / esize * esize := by
              rw [Nat.zero_add]; exact Nat.mul_le_mul_right _ hlen
          _ ≤ size := Nat.div_mul_le_self _ _
      rw [has_fillArray hdvd hlt hle, Nat.zero_add] at h
      rcases h with h | h
      · exact .inr (.inr h)
      · exact (hl w i h).imp_right .inl

theorem arrayTab_sup {size : ℕ} (hsz : sz ≤ 2 ^ 31) (hes : esize < 2 ^ 31)
    (hs : size = sizeInvalid ∨ size < 2 ^ 31 ∧ esize ∣ size)
    (hmono : ∀ p v m w i, m.Has w i → (conv p v m).1.Has w i)
    (hsup : ∀ p v m, (conv p v m).2 = true → (∀ i, (conv p v m).1.Has true i → i < sz) →
      ∀ w, ∀ i ∈ g w p v, (conv p v m).1.Has w i)
    (hself : ∀ p v m, (conv p v m).2 = true → 0 < esize → p ∈ g true p v) (t : Tab) (m : Mem)
    (h : (arrayTab conv size esize dp t m).2 = true)
    (hin : ∀ i, (arrayTab conv size esize dp t m).1.Has true i → i < sz) (w : Bool) :
    ∀ i ∈ arrayGives (g w) size esize dp (elems t.ints),
      (arrayTab conv size esize dp t m).1.Has w i := by
  have hloop := @elemLoop_sup sz conv g size esize dp hsz hes hmono hsup hself (elems t.ints) 0
  rw [arrayTab, arrayTabLoop_eq] at h hin ⊢
  split at h
  · cases h
  · rename_i m' ofs heq
    rw [heq] at hin
    by_cases hinv : size = sizeInvalid
    · rw [arrayGives, if_pos hinv]
      simp only [hinv, if_true] at hin ⊢
      rw [hinv] at heq hloop
      exact (hloop ofs m m' (by decide) heq hin).2.2.2 w
    · obtain ⟨hlt, hdvd⟩ := hs.resolve_left hinv
      rw [arrayGives, if_neg hinv]
      simp only [hinv, if_false] at hin ⊢
      have hkeep : ∀ w i, m'.Has w i → (fillArray dp esize size ofs m').Has w i :=
        fun w i hi => fillArray_stable (stable_has w i) ofs hi
      obtain ⟨rfl, -, hlim, hall⟩ := hloop ofs m m' (by decide) heq fun i hi => hin i (hkeep _ i hi)
      have hlen : (elems t.ints).length ≤ size / esize := by
        rcases Nat.eq_zero_or_pos (elems t.ints).length with h0 | h0
        · rw [h0]; exact Nat.zero_le _
        · have hlast := hlim ((elems t.ints).length - 1) (by lia)
          rw [Nat.zero_add] at hlast
          have := lt_div_of_mul_lt hdvd hlast
          lia
      have hle : 0 + (elems t.ints).length * esize ≤ size := by
        calc 0 + (elems t.ints).length * esize ≤ size / esize * esize := by
              rw [Nat.zero_add]; exact Nat.mul_le_mul_right _ hlen
          _ ≤ size := Nat.div_mul_le_self _ _
      rw [List.take_of_length_le hlen]
      rintro i (hi | hi)
      · exact hkeep w i (hall w i hi)
      · rw [has_fillArray hdvd hlt hle, Nat.zero_add]
        exact .inl hi

end

/-! ### Values -/

theorem size_ne_invalid {size : ℕ} (h : size < 2 ^ 31) : size ≠ sizeInvalid := by
  rw [sizeInvalid]
  omega

/-- A value that is converted to a type that is not empty is for the first byte. -/
theorem self_mem_gives : ∀ (ty : CTy), ty.Ok → ∀ (dp : ℕ) (v : Val) (m : Mem),
    (ctTv ctx ty dp v m).2 = true → 0 < ty.size → ty.size < 2 ^ 31 → dp ∈ gives ctx w ty dp v
  | .scalar id size, hty, dp, v, m, h, hpos, hlt => by
      have hconv : (ctx.conv (.scalar id size) v).2 = true →
          dp ∈ Set.Ico dp (dp + (ctx.conv (.scalar id size) v).1.length) := fun hc => by
        rw [ctx.conv_eq _ _ hc]
        exact ⟨le_rfl, Nat.lt_add_of_pos_right hpos⟩
      cases v with
      | tab t => cases h
      | nil | str _ | cdata _ _ _ | prim _ => exact hconv h
  | .char id, hty, dp, v, m, h, hpos, hlt => by
      have hconv : (ctx.conv (.char id) v).2 = true →
          dp ∈ Set.Ico dp (dp + (ctx.conv (.char id) v).1.length) := fun hc => by
        rw [ctx.conv_eq _ _ hc]
        exact ⟨le_rfl, Nat.lt_add_of_pos_right hpos⟩
      cases v with
      | tab t => cases h
      | nil | str _ | cdata _ _ _ | prim _ => exact hconv h
  | .array id elem size isRef, hty, dp, v, m, h, hpos, hlt => by
      have hconv : (ctx.conv (.array id elem size isRef) v).2 = true →
          dp ∈ Set.Ico dp (dp + (ctx.conv (.array id elem size isRef) v).1.length) := fun hc => by
        rw [ctx.conv_eq _ _ hc]
        exact ⟨le_rfl, Nat.lt_add_of_pos_right hpos⟩
      obtain ⟨helem, hesize, hsize⟩ := hty
      simp only [CTy.size] at hpos hlt
      cases v with
      | tab t =>
          obtain ⟨-, hdvd⟩ := hsize.resolve_left fun h => size_ne_invalid hlt h.1
          have hepos : 0 < elem.size := Nat.pos_of_dvd_of_pos hdvd hpos
          simp only [ctTv, arrayTab, arrayTabLoop_eq] at h
          simp only [gives, arrayGives, if_neg (size_ne_invalid hlt)]
          cases he : elems (ctx.tabs t).ints with
          | nil => exact .inr ⟨by simp, by omega⟩
          | cons v vs =>
              obtain ⟨n, hn⟩ := Nat.exists_eq_add_of_lt
                (Nat.div_pos (Nat.le_of_dvd hpos hdvd) hepos)
              rw [he] at h
              rw [hn, Nat.zero_add, List.take_succ_cons]
              refine .inl (.inl (self_mem_gives elem helem dp v m ?_ hepos hesize))
              -- the loop only returns where its first element is converted
              simp only [elemLoop, Nat.le_zero_eq, hpos.ne', if_false, Nat.add_zero] at h
              by_contra hne
              split at h
              · cases h
              · rename_i heq
                split at heq
                · cases heq
                · rename_i heq'
                  exact hne (by rw [heq'])
      | str s =>
          simp only [ctTv] at h
          simp only [gives]
          split at h
          · rename_i hr
            rw [if_pos hr]
            split at h
            · rename_i hc
              rw [if_pos hc]
              refine ⟨le_rfl, Nat.lt_add_of_pos_right ?_⟩
              rw [strSize]
              split <;> omega
            · cases h
          · rename_i hr
            rw [if_neg hr]
            exact hconv h
      | cdata sid ssize content =>
          simp only [ctTv] at h
          simp only [gives]
          split at h
          · rename_i hr
            rw [if_pos hr]
            split at h
            · rename_i hc
              rw [if_pos hc]
              exact ⟨le_rfl, Nat.lt_add_of_pos_right hpos⟩
            · cases h
          · rename_i hr
            rw [if_neg hr]
            exact hconv h
      | nil | prim _ =>
          simp only [ctTv] at h
          simp only [gives]
          split at h
          · cases h
          · rename_i hr
            rw [if_neg hr]
            exact hconv h
  | .struct id isUnion isVla size fields, hty, dp, v, m, h, hpos, hlt => by
      simp only [CTy.size] at hpos hlt
      cases v with
      | tab t => exact .inl ⟨le_rfl, Nat.lt_add_of_pos_right hpos⟩
      | cdata sid ssize content =>
          simp only [ctTv] at h
          simp only [gives]
          split at h
          · rename_i hc
            rw [if_pos hc]
            exact ⟨le_rfl, Nat.lt_add_of_pos_right hpos⟩
          · cases h
      | nil | str _ | prim _ => cases h

theorem bfTv_sub {ctx : Ctx} {bf : Bitfield.Info} {dp : ℕ} {v : Val} {m : Mem}
    (h : (bfTv ctx bf dp v m).1.Has w i) : m.Has w i ∨ i ∈ fieldsGive.bitsGive w dp bf := by
  simp only [bfTv] at h
  split at h
  · exact .inl h
  · split at h
    · exact .inl h
    · rw [has_merge, Bytes.length_ofInt] at h
      exact h.symm

theorem bfTv_sup {ctx : Ctx} {bf : Bitfield.Info} {dp : ℕ} {v : Val} {m : Mem}
    (h : (bfTv ctx bf dp v m).2 = true) (hi : i ∈ fieldsGive.bitsGive w dp bf) :
    (bfTv ctx bf dp v m).1.Has w i := by
  simp only [bfTv] at h ⊢
  split at h
  · cases h
  · split at h
    · cases h
    · rw [has_merge, Bytes.length_ofInt]
      exact .inl hi

theorem ctTv_mono {ty : CTy} {dp : ℕ} {v : Val} {m : Mem} (h : m.Has w i) :
    (ctTv ctx ty dp v m).1.Has w i := ctTv_stable (stable_has w i) ctx ty dp v m h

mutual

/-- Where all the bytes that a value is for lie in the object, the conversion writes no others. -/
theorem ctTv_sub (hsz : sz ≤ 2 ^ 31) : ∀ (ty : CTy), ty.Ok → ∀ (dp : ℕ) (v : Val) (m : Mem),
    gives ctx true ty dp v ⊆ Set.Iio sz → ∀ w i, (ctTv ctx ty dp v m).1.Has w i →
      m.Has w i ∨ i ∈ gives ctx w ty dp v
  | .scalar id size, hty, dp, v, m, hgive, w, i, h => by
      cases v with
      | tab t => exact .inl h
      | nil | str _ | cdata _ _ _ | prim _ => exact ((has_write _ _ _ _ _).1 h).symm
  | .char id, hty, dp, v, m, hgive, w, i, h => by
      cases v with
      | tab t => exact .inl h
      | nil | str _ | cdata _ _ _ | prim _ => exact ((has_write _ _ _ _ _).1 h).symm
  | .array id elem size isRef, hty, dp, v, m, hgive, w, i, h => by
      obtain ⟨helem, hesize, hsize⟩ := hty
      cases v with
      | tab t =>
          exact arrayTab_sub (g := fun w => gives ctx w elem) hsz hesize (hsize.imp_left And.left)
            (ctTv_sub hsz elem helem)
            (fun p v m hc hpos => self_mem_gives elem helem p v m hc hpos hesize) _ m hgive w i h
      | str s =>
          simp only [ctTv] at h
          simp only [gives]
          split at h
          · rename_i hr
            rw [if_pos hr]
            split at h
            · rename_i hc
              rw [if_pos hc]
              rw [has_write, List.length_take, List.length_append, List.length_singleton] at h
              refine h.symm.imp_right fun hi => ⟨hi.1, hi.2.trans_le ?_⟩
              lia
            · exact .inl h
          · rename_i hr
            rw [if_neg hr]
            exact ((has_write _ _ _ _ _).1 h).symm
      | cdata sid ssize content =>
          simp only [ctTv] at h
          simp only [gives]
          split at h
          · rename_i hr
            rw [if_pos hr]
            split at h
            · rename_i hc
              rw [if_pos hc]
              simpa [copyVal] using ((has_write _ _ _ _ _).1 h).symm
            · exact .inl h
          · rename_i hr
            rw [if_neg hr]
            exact ((has_write _ _ _ _ _).1 h).symm
      | nil | prim _ =>
          simp only [ctTv] at h
          simp only [gives]
          split at h
          · exact .inl h
          · rename_i hr
            rw [if_neg hr]
            exact ((has_write _ _ _ _ _).1 h).symm
  | .struct id isUnion isVla size fields, hty, dp, v, m, hgive, w, i, h => by
      cases v with
      | tab t =>
          have hs := (substruct_sub hsz (pickTab (ctx.tabs t)) false isUnion fields size hty.2 dp (some 0)
            (m.clear dp size) (Set.subset_union_right.trans hgive)).1 w i
          have hclear : m.Has w i ∨ i ∈ gives ctx w (.struct id isUnion isVla size fields) dp
              (.tab t) := by
            simp only [ctTv] at h
            split at h <;>
            · rename_i heq
              rw [heq] at hs
              rcases hs h with h | h
              · exact ((has_clear _ _ _ _ _).1 h).symm.imp_right .inl
              · exact .inr (.inr h)
          exact hclear
      | cdata sid ssize content =>
          simp only [ctTv] at h
          simp only [gives]
          split at h
          · rename_i hc
            rw [if_pos hc]
            simpa [copyVal] using ((has_write _ _ _ _ _).1 h).symm
          · exact .inl h
      | nil | str _ | prim _ => exact .inl h

/-- The same for a chain of fields, with the position after it. -/
theorem substruct_sub (hsz : sz ≤ 2 ^ 31) (pick : String → Option ℕ → Pick) (brk isUnion : Bool) :
    ∀ (fs : Fields) (size : ℕ), fs.Ok size → ∀ (dp : ℕ) (ip : Option ℕ) (m : Mem),
      (fieldsGive ctx true pick brk isUnion fs dp ip).1 ⊆ Set.Iio sz →
      (∀ w i, (substruct ctx pick brk isUnion fs dp ip m).1.Has w i →
        m.Has w i ∨ i ∈ (fieldsGive ctx w pick brk isUnion fs dp ip).1) ∧
      ∀ ip', (substruct ctx pick brk isUnion fs dp ip m).2 = some ip' →
        ∀ w, (fieldsGive ctx w pick brk isUnion fs dp ip).2 = ip'
  | .nil, size, hfs, dp, ip, m, hgive => by
      exact ⟨fun w i h => .inl h, fun ip' h w => Option.some.inj h⟩
  | .field none ofs ty next, size, hfs, dp, ip, m, hgive =>
      substruct_sub hsz pick brk isUnion next size hfs.2.2.2 dp ip m hgive
  | .field (some name) ofs ty next, size, hfs, dp, ip, m, hgive => by
      simp only [substruct, fieldsGive] at hgive ⊢
      cases hpick : pick name ip with
      | stop => exact ⟨fun w i h => .inl h, fun ip' h w => Option.some.inj h⟩
      | skip ip₁ =>
          rw [hpick] at hgive
          exact substruct_sub hsz pick brk isUnion next size hfs.2.2.2 dp ip₁ m hgive
      | use v ip₁ =>
          rw [hpick] at hgive
          simp only at hgive ⊢
          have hfield : gives ctx true ty (dp + ofs) v ⊆ Set.Iio sz := by
            split at hgive
            · exact hgive
            · exact Set.subset_union_left.trans hgive
          have hv := ctTv_sub hsz ty hfs.1 (dp + ofs) v m hfield
          cases hc : ctTv ctx ty (dp + ofs) v m with
          | mk m₁ ok =>
              rw [hc] at hv
              cases ok with
              | false =>
                  refine ⟨fun w i h => (hv w i h).imp_right fun hi => ?_, fun ip' h => nomatch h⟩
                  split
                  · exact hi
                  · exact .inl hi
              | true =>
                  cases hu : isUnion with
                  | true => exact ⟨hv, fun ip' h w => Option.some.inj h⟩
                  | false =>
                      rw [hu] at hgive
                      obtain ⟨hr, hp⟩ := substruct_sub hsz pick brk false next size hfs.2.2.2 dp ip₁ m₁
                        (Set.subset_union_right.trans hgive)
                      refine ⟨fun w i h => ?_, hp⟩
                      rcases hr w i h with h | h
                      · exact (hv w i h).imp_right .inl
                      · exact .inr (.inr h)
  | .bitfield none ofs bf next, size, hfs, dp, ip, m, hgive =>
      substruct_sub hsz pick brk isUnion next size hfs dp ip m hgive
  | .bitfield (some name) ofs bf next, size, hfs, dp, ip, m, hgive => by
      simp only [substruct, fieldsGive] at hgive ⊢
      cases hpick : pick name ip with
      | stop => exact ⟨fun w i h => .inl h, fun ip' h w => Option.some.inj h⟩
      | skip ip₁ =>
          rw [hpick] at hgive
          exact substruct_sub hsz pick brk isUnion next size hfs dp ip₁ m hgive
      | use v ip₁ =>
          rw [hpick] at hgive
          simp only at hgive ⊢
          have hv : ∀ w i, (bfTv ctx bf (dp + ofs) v m).1.Has w i →
              m.Has w i ∨ i ∈ fieldsGive.bitsGive w (dp + ofs) bf := fun w i h => bfTv_sub h
          cases hc : bfTv ctx bf (dp + ofs) v m with
          | mk m₁ ok =>
              rw [hc] at hv
              cases ok with
              | false =>
                  refine ⟨fun w i h => (hv w i h).imp_right fun hi => ?_, fun ip' h => nomatch h⟩
                  split
                  · exact hi
                  · exact .inl hi
              | true =>
                  cases hu : isUnion with
                  | true => exact ⟨hv, fun ip' h w => Option.some.inj h⟩
                  | false =>
                      rw [hu] at hgive
                      obtain ⟨hr, hp⟩ := substruct_sub hsz pick brk false next size hfs dp ip₁ m₁
                        (Set.subset_union_right.trans hgive)
                      refine ⟨fun w i h => ?_, hp⟩
                      rcases hr w i h with h | h
                      · exact (hv w i h).imp_right .inl
                      · exact .inr (.inr h)
  | .sub ofs isUnion' fields next, size, hfs, dp, ip, m, hgive => by
      simp only [substruct, fieldsGive] at hgive ⊢
      have hfields : (fieldsGive ctx true pick brk isUnion' fields (dp + ofs) ip).1 ⊆ Set.Iio sz := by
        split at hgive
        · exact hgive
        · exact Set.subset_union_left.trans hgive
      have hsub := substruct_sub hsz pick brk isUnion' fields (size - ofs) hfs.2.1 (dp + ofs) ip m
        hfields
      cases hs : substruct ctx pick brk isUnion' fields (dp + ofs) ip m with
      | mk m₁ r =>
          rw [hs] at hsub
          cases r with
          | none =>
              refine ⟨fun w i h => (hsub.1 w i h).imp_right fun hi => ?_, fun ip' h => nomatch h⟩
              split
              · exact hi
              · exact .inl hi
          | some ip₁ =>
              have hpos : ∀ w, (fieldsGive ctx w pick brk isUnion' fields (dp + ofs) ip).2 = ip₁ :=
                hsub.2 ip₁ rfl
              by_cases hu : brk = true ∧ isUnion = true
              · simp only [if_pos hu]
                exact ⟨hsub.1, fun ip' h w => (hpos w).trans (Option.some.inj h)⟩
              simp only [if_neg hu, hpos] at hgive ⊢
              obtain ⟨hr, hp⟩ := substruct_sub hsz pick brk isUnion next size hfs.2.2 dp ip₁ m₁
                (Set.subset_union_right.trans hgive)
              refine ⟨fun w i h => ?_, hp⟩
              rcases hr w i h with h | h
              · exact (hsub.1 w i h).imp_right .inl
              · exact .inr (.inr h)
  | .other next, size, hfs, dp, ip, m, hgive =>
      substruct_sub hsz pick brk isUnion next size hfs dp ip m hgive

end

mutual

/-- A conversion that stays in the object and returns writes all bytes that the value is for. -/
theorem ctTv_sup (hsz : sz ≤ 2 ^ 31) : ∀ (ty : CTy), ty.Ok → ∀ (dp : ℕ) (v : Val) (m : Mem),
    (ctTv ctx ty dp v m).2 = true → (∀ i, (ctTv ctx ty dp v m).1.Has true i → i < sz) →
      ∀ w, ∀ i ∈ gives ctx w ty dp v, (ctTv ctx ty dp v m).1.Has w i
  | .scalar id size, hty, dp, v, m, h, hin, w, i, hi => by
      cases v with
      | tab t => cases h
      | nil | str _ | cdata _ _ _ | prim _ => exact (has_write _ _ _ _ _).2 (.inl hi)
  | .char id, hty, dp, v, m, h, hin, w, i, hi => by
      cases v with
      | tab t => cases h
      | nil | str _ | cdata _ _ _ | prim _ => exact (has_write _ _ _ _ _).2 (.inl hi)
  | .array id elem size isRef, hty, dp, v, m, h, hin, w, i, hi => by
      obtain ⟨helem, hesize, hsize⟩ := hty
      cases v with
      | tab t =>
          exact arrayTab_sup (g := fun w => gives ctx w elem) hsz hesize (hsize.imp_left And.left)
            (fun p v m w i => ctTv_mono) (ctTv_sup hsz elem helem)
            (fun p v m hc hpos => self_mem_gives elem helem p v m hc hpos hesize) _ m h hin w i hi
      | str s =>
          simp only [gives] at hi
          simp only [ctTv] at h ⊢
          split at h
          · rename_i hr
            rw [if_pos hr] at hi ⊢
            split at h
            · rename_i hc
              rw [if_pos hc] at hi ⊢
              have hlen : strSize size s ≤ s.length + 1 := by rw [strSize]; split <;> lia
              rw [has_write, List.length_take, List.length_append, List.length_singleton,
                Nat.min_eq_left hlen]
              exact .inl hi
            · cases h
          · rename_i hr
            rw [if_neg hr] at hi ⊢
            exact (has_write _ _ _ _ _).2 (.inl hi)
      | cdata sid ssize content =>
          simp only [gives] at hi
          simp only [ctTv] at h ⊢
          split at h
          · rename_i hr
            rw [if_pos hr] at hi ⊢
            split at h
            · rename_i hc
              rw [if_pos hc] at hi ⊢
              rw [copyVal, has_write, List.length_map, List.length_range]
              exact .inl hi
            · cases h
          · rename_i hr
            rw [if_neg hr] at hi ⊢
            exact (has_write _ _ _ _ _).2 (.inl hi)
      | nil | prim _ =>
          simp only [gives] at hi
          simp only [ctTv] at h ⊢
          split at h
          · cases h
          · rename_i hr
            rw [if_neg hr] at hi ⊢
            exact (has_write _ _ _ _ _).2 (.inl hi)
  | .struct id isUnion isVla size fields, hty, dp, v, m, h, hin, w, i, hi => by
      cases v with
      | tab t =>
          simp only [ctTv] at h hin ⊢
          cases hs : substruct ctx (pickTab (ctx.tabs t)) false isUnion fields dp (some 0) (m.clear dp size) with
          | mk m' r =>
              have hsup := substruct_sup hsz (pickTab (ctx.tabs t)) false isUnion fields size hty.2 dp (some 0)
                (m.clear dp size)
              have hkeep := substruct_stable (stable_has w i) ctx (pickTab (ctx.tabs t)) false isUnion fields dp
                (some 0) (m.clear dp size)
              rw [hs] at h hin hsup hkeep
              cases r with
              | none => cases h
              | some ip' =>
                  rcases hi with hi | hi
                  · exact hkeep ((has_clear _ _ _ _ _).2 (.inl hi))
                  · exact (hsup ip' rfl hin).1 w i hi
      | cdata sid ssize content =>
          simp only [gives] at hi
          simp only [ctTv] at h ⊢
          split at h
          · rename_i hc
            rw [if_pos hc] at hi ⊢
            rw [copyVal, has_write, List.length_map, List.length_range]
            exact .inl hi
          · cases h
      | nil | str _ | prim _ => cases h

/-- The same for a chain of fields, with the position after it. -/
theorem substruct_sup (hsz : sz ≤ 2 ^ 31) (pick : String → Option ℕ → Pick) (brk isUnion : Bool) :
    ∀ (fs : Fields) (size : ℕ), fs.Ok size → ∀ (dp : ℕ) (ip : Option ℕ) (m : Mem) (ip' : Option ℕ),
      (substruct ctx pick brk isUnion fs dp ip m).2 = some ip' →
      (∀ i, (substruct ctx pick brk isUnion fs dp ip m).1.Has true i → i < sz) →
      (∀ w, ∀ i ∈ (fieldsGive ctx w pick brk isUnion fs dp ip).1,
        (substruct ctx pick brk isUnion fs dp ip m).1.Has w i) ∧
      ∀ w, (fieldsGive ctx w pick brk isUnion fs dp ip).2 = ip'
  | .nil, size, hfs, dp, ip, m, ip', h, hin =>
      ⟨fun w i hi => hi.elim, fun w => Option.some.inj h⟩
  | .field none ofs ty next, size, hfs, dp, ip, m, ip', h, hin =>
      substruct_sup hsz pick brk isUnion next size hfs.2.2.2 dp ip m ip' h hin
  | .field (some name) ofs ty next, size, hfs, dp, ip, m, ip', h, hin => by
      simp only [substruct, fieldsGive] at h hin ⊢
      cases hpick : pick name ip with
      | stop =>
          rw [hpick] at h
          exact ⟨fun w i hi => hi.elim, fun w => Option.some.inj h⟩
      | skip ip₁ =>
          rw [hpick] at h hin
          exact substruct_sup hsz pick brk isUnion next size hfs.2.2.2 dp ip₁ m ip' h hin
      | use v ip₁ =>
          rw [hpick] at h hin
          simp only at h hin ⊢
          have hv := ctTv_sup hsz ty hfs.1 (dp + ofs) v m
          cases hc : ctTv ctx ty (dp + ofs) v m with
          | mk m₁ ok =>
              rw [hc] at h hin hv
              cases ok with
              | false => cases h
              | true =>
                  cases hu : isUnion with
                  | true =>
                      rw [hu] at h hin
                      exact ⟨hv rfl hin, fun w => Option.some.inj h⟩
                  | false =>
                      rw [hu] at h hin
                      have hkeep : ∀ w i, m₁.Has w i →
                          (substruct ctx pick brk false next dp ip₁ m₁).1.Has w i := fun w i =>
                        substruct_stable (stable_has w i) ctx pick brk false next dp ip₁ m₁
                      obtain ⟨hr, hp⟩ := substruct_sup hsz pick brk false next size hfs.2.2.2 dp ip₁ m₁
                        ip' h hin
                      refine ⟨fun w i hi => ?_, hp⟩
                      rcases hi with hi | hi
                      · exact hkeep w i (hv rfl (fun j hj => hin j (hkeep _ j hj)) w i hi)
                      · exact hr w i hi
  | .bitfield none ofs bf next, size, hfs, dp, ip, m, ip', h, hin =>
      substruct_sup hsz pick brk isUnion next size hfs dp ip m ip' h hin
  | .bitfield (some name) ofs bf next, size, hfs, dp, ip, m, ip', h, hin => by
      simp only [substruct, fieldsGive] at h hin ⊢
      cases hpick : pick name ip with
      | stop =>
          rw [hpick] at h
          exact ⟨fun w i hi => hi.elim, fun w => Option.some.inj h⟩
      | skip ip₁ =>
          rw [hpick] at h hin
          exact substruct_sup hsz pick brk isUnion next size hfs dp ip₁ m ip' h hin
      | use v ip₁ =>
          rw [hpick] at h hin
          simp only at h hin ⊢
          have hv : (bfTv ctx bf (dp + ofs) v m).2 = true → ∀ w,
              ∀ i ∈ fieldsGive.bitsGive w (dp + ofs) bf, (bfTv ctx bf (dp + ofs) v m).1.Has w i :=
            fun h w i hi => bfTv_sup h hi
          cases hc : bfTv ctx bf (dp + ofs) v m with
          | mk m₁ ok =>
              rw [hc] at h hin hv
              cases ok with
              | false => cases h
              | true =>
                  cases hu : isUnion with
                  | true =>
                      rw [hu] at h hin
                      exact ⟨hv rfl, fun w => Option.some.inj h⟩
                  | false =>
                      rw [hu] at h hin
                      have hkeep : ∀ w i, m₁.Has w i →
                          (substruct ctx pick brk false next dp ip₁ m₁).1.Has w i := fun w i =>
                        substruct_stable (stable_has w i) ctx pick brk false next dp ip₁ m₁
                      obtain ⟨hr, hp⟩ := substruct_sup hsz pick brk false next size hfs dp ip₁ m₁
                        ip' h hin
                      refine ⟨fun w i hi => ?_, hp⟩
                      rcases hi with hi | hi
                      · exact hkeep w i (hv rfl w i hi)
                      · exact hr w i hi
  | .sub ofs isUnion' fields next, size, hfs, dp, ip, m, ip', h, hin => by
      simp only [substruct, fieldsGive] at h hin ⊢
      cases hs : substruct ctx pick brk isUnion' fields (dp + ofs) ip m with
      | mk m₁ r =>
          have hsub := substruct_sup hsz pick brk isUnion' fields (size - ofs) hfs.2.1 (dp + ofs) ip m
          rw [hs] at h hin hsub
          cases r with
          | none => cases h
          | some ip₁ =>
              by_cases hu : brk = true ∧ isUnion = true
              · simp only [if_pos hu] at h hin ⊢
                cases h
                exact hsub _ rfl hin
              simp only [if_neg hu] at h hin hsub ⊢
              have hkeep : ∀ w i, m₁.Has w i →
                  (substruct ctx pick brk isUnion next dp ip₁ m₁).1.Has w i := fun w i =>
                substruct_stable (stable_has w i) ctx pick brk isUnion next dp ip₁ m₁
              obtain ⟨hf, hpos⟩ := hsub ip₁ rfl fun j hj => hin j (hkeep _ j hj)
              simp only [hpos]
              obtain ⟨hr, hp⟩ := substruct_sup hsz pick brk isUnion next size hfs.2.2 dp ip₁ m₁ ip' h hin
              refine ⟨fun w i hi => ?_, hp⟩
              rcases hi with hi | hi
              · exact hkeep w i (hf w i hi)
              · exact hr w i hi
  | .other next, size, hfs, dp, ip, m, ip', h, hin =>
      substruct_sup hsz pick brk isUnion next size hfs dp ip m ip' h hin

end

end CtInit
