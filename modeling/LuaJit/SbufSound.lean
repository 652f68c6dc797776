/-
**String buffers keep their contents.**

A put writes its bytes behind the contents, after there is room for them.  The loops of the single puts
all write a list of bytes, so that every put is the one of this list; a table is put element by element.
Only the shrinking of a block does not look at how much of it is in use, and keeps the contents if and
only if they fit in the half that is left.

Main definitions:

* `Sbuf.SBuf.Holds` — the position is in the block, and what is before it is the content;
* `Sbuf.SBuf.Filled` — the same for a position on the way, with the sizes that blocks have;
* `Sbuf.Reach` — the runs of operations on one buffer.

Main results:

* `Sbuf.more_spec`, `Sbuf.putmem_spec` — room for some bytes, and bytes that are put;
* `Sbuf.puttab_spec`, `Sbuf.shrink_spec` — the elements of a table, and the shrinking;
* `Sbuf.exec_spec` — every operation;
* `Sbuf.sbuf_sound` — every run.
-/

import LuaJit.Sbuf
import LuaJit.Effect

set_option relaxedAutoImplicit false
set_option autoImplicit false

namespace Sbuf

open Buf (ljMaxBuf ljMinSbuf)
open Effect

variable {sb sb' : SBuf} {c q s sep : List UInt8} {n p : ℕ} {avail : ℕ → Bool} {libc : Libc}

/-! ### Buffers with a content -/

/-- The position is in the block, what is before it is the content, and all sizes fitted so far. -/
structure SBuf.Holds (sb : SBuf) (c : List UInt8) : Prop where
  inside : sb.p ≤ sb.mem.length
  content : sb.mem.take sb.p = c.map some
  exact : sb.wrapped = false

/-- The block is filled with the content up to a position, and has one of the sizes of blocks. -/
structure SBuf.Filled (sb : SBuf) (p : ℕ) (c : List UInt8) : Prop where
  inside : p ≤ sb.mem.length
  content : sb.mem.take p = c.map some
  exact : sb.wrapped = false
  size : sb.mem.length = 0 ∨ ∃ k ≤ 26, sb.mem.length = ljMinSbuf * 2 ^ k

/-- A buffer is filled up to its position. -/
abbrev SBuf.Wf (sb : SBuf) (c : List UInt8) : Prop := sb.Filled sb.p c

/-- An error of the allocator, after which the buffer is as before. -/
def NoMem (sb : SBuf) (e : Stop) (sb' : SBuf) : Prop := e = .mem ∧ sb' = sb

theorem init_wf : SBuf.init.Wf [] := ⟨le_rfl, rfl, rfl, .inl rfl⟩

theorem SBuf.Filled.holds (h : sb.Wf c) : sb.Holds c := ⟨h.inside, h.content, h.exact⟩

theorem SBuf.Filled.length_le (h : sb.Filled p c) : sb.mem.length ≤ 2 ^ 31 := by
  rcases h.size with h0 | ⟨k, hk, hz⟩
  · omega
  · have hpow : 2 ^ k ≤ 2 ^ 26 := Nat.pow_le_pow_right (by decide) hk
    rw [hz, ljMinSbuf]
    omega

/-- The position is the length of the content. -/
theorem SBuf.Filled.length_eq (h : sb.Filled p c) : c.length = p := by
  have hlen := congrArg List.length h.content
  rw [List.length_take, List.length_map, Nat.min_eq_left h.inside] at hlen
  exact hlen.symm

/-- The position can be set to the end of what is filled, or to a place before. -/
theorem SBuf.Filled.setP (h : sb.Filled p c) : { sb with p := p }.Wf c := ⟨h.inside, h.content, h.exact, h.size⟩

theorem SBuf.Filled.front (h : sb.Filled p (c ++ q)) : sb.Filled c.length c := by
  have hlen := h.length_eq
  rw [List.length_append] at hlen
  have hin := h.inside
  refine ⟨by omega, ?_, h.exact, h.size⟩
  have htake := congrArg (List.take c.length) h.content
  rw [List.take_take, Nat.min_eq_left (by omega), List.map_append, List.take_left' (List.length_map ..)] at htake
  exact htake

/-! ### Sizes -/

/-- A size that fits. -/
theorem msize_eq (hn : n < 2 ^ 32) : msize (n : ℤ) = pure n := by
  have hmod : (n : ℤ) % 2 ^ 32 = n := by lia
  funext sb
  rw [msize, hmod, Int.toNat_natCast, decide_eq_false (not_not.2 rfl), Bool.or_false]
  rfl

theorem sbufsz_eq (h : sb.Filled p c) : sbufsz sb = .ok sb.mem.length sb := by
  have hlen := h.length_le
  rw [sbufsz, bind_ok (show sbufE sb = .ok sb.mem.length sb from rfl), msize_eq (by omega)]
  rfl

theorem sbuflen_eq (h : sb.Wf c) : sbuflen sb = .ok sb.p sb := by
  have hlen := h.length_le
  have hin := h.inside
  rw [sbuflen, bind_ok (show sbufP sb = .ok sb.p sb from rfl), msize_eq (by omega)]
  rfl

theorem sbufleft_eq (h : sb.Wf c) : sbufleft sb = .ok (sb.mem.length - sb.p) sb := by
  have hlen := h.length_le
  have hin := h.inside
  have hcast : (sb.mem.length : ℤ) - sb.p = ((sb.mem.length - sb.p : ℕ) : ℤ) := by lia
  rw [sbufleft, bind_ok (show sbufE sb = .ok sb.mem.length sb from rfl),
    bind_ok (show sbufP sb = .ok sb.p sb from rfl), hcast, msize_eq (by omega)]
  rfl

/-! ### Writing -/

theorem store_spec (h : sb.Filled p c) (hp : p < sb.mem.length) (x : UInt8) :
    ∃ sb', store p x sb = .ok () sb' ∧ sb'.Filled (p + 1) (c ++ [x]) ∧ sb'.mem.length = sb.mem.length := by
  refine ⟨{ sb with mem := sb.mem.set p (some x) }, if_pos hp, ⟨?_, ?_, h.exact, ?_⟩, List.length_set⟩
  · rw [List.length_set]
    exact hp
  · rw [List.take_succ_eq_append_getElem (by rw [List.length_set]; exact hp), List.take_set_of_le le_rfl,
      List.getElem_set_self, h.content, List.map_append]
    rfl
  · rw [List.length_set]
    exact h.size

/-- Bytes are written behind the content when there is room for them. -/
theorem wmem_spec (h : sb.Filled p c) (hq : p + q.length ≤ sb.mem.length) :
    ∃ sb', wmem p q sb = .ok (p + q.length) sb' ∧ sb'.Filled (p + q.length) (c ++ q) ∧
      sb'.mem.length = sb.mem.length := by
  induction q generalizing sb p c with
  | nil =>
      rw [List.append_nil]
      exact ⟨sb, rfl, h, rfl⟩
  | cons x q ih =>
      rw [List.length_cons] at hq
      obtain ⟨sb₁, hstore, hfill, hlen⟩ := store_spec h (by omega) x
      obtain ⟨sb₂, hq₂, hfill₂, hlen₂⟩ := ih hfill (by omega)
      rw [List.append_assoc, List.singleton_append] at hfill₂
      rw [List.length_cons, show p + (q.length + 1) = p + 1 + q.length by omega]
      refine ⟨sb₂, ?_, hfill₂, hlen₂.trans hlen⟩
      rw [wmem, bind_ok hstore]
      exact hq₂

theorem wmem_append (q s : List UInt8) : wmem p (q ++ s) = wmem p q >>= fun p => wmem p s := by
  induction q generalizing p with
  | nil => rfl
  | cons x q ih =>
      rw [List.cons_append, wmem, wmem, bind_assoc]
      exact congrArg _ (funext fun _ => ih)

/-! ### The block -/

theorem growLoop_spec {k fuel sz : ℕ} (hsz : sz ≤ 2 ^ 31) (hk : k ≤ 26) (hfuel : 26 < fuel + k) :
    ∃ j ≤ 26, growLoop sz fuel (ljMinSbuf * 2 ^ k) sb = .ok (ljMinSbuf * 2 ^ j) sb ∧ sz ≤ ljMinSbuf * 2 ^ j := by
  induction fuel generalizing k with
  | zero => omega
  | succ fuel ih =>
      rw [growLoop]
      by_cases hlt : ljMinSbuf * 2 ^ k < sz
      · have hk' : k < 26 := by
          by_contra hge
          obtain rfl : k = 26 := by omega
          rw [ljMinSbuf] at hlt
          omega
        have hpow : 2 ^ (k + 1) ≤ 2 ^ 26 := Nat.pow_le_pow_right (by decide) hk'
        have hdouble : ((ljMinSbuf * 2 ^ k : ℕ) : ℤ) + (ljMinSbuf * 2 ^ k : ℕ) = (ljMinSbuf * 2 ^ (k + 1) : ℕ) := by
          rw [pow_succ]
          push_cast
          ring
        rw [if_pos hlt, hdouble, msize_eq (by rw [ljMinSbuf]; omega), pure_bind]
        exact ih hk' (by omega)
      · rw [if_neg hlt]
        exact ⟨k, hk, rfl, not_lt.1 hlt⟩

/-- The size from which the loop starts. -/
theorem growStart (h : sb.Filled p c) :
    ∃ k ≤ 26, (if sb.mem.length < ljMinSbuf then ljMinSbuf else sb.mem.length) = ljMinSbuf * 2 ^ k := by
  rcases h.size with hz | ⟨k, hk, hz⟩
  · exact ⟨0, by decide, by rw [hz]; rfl⟩
  · have hpos := Nat.two_pow_pos k
    refine ⟨k, hk, ?_⟩
    rw [hz, if_neg]
    rw [ljMinSbuf]
    omega

/-- A larger block keeps what is before the position. -/
theorem bufGrow_spec (h : sb.Wf c) (hlt : sb.mem.length < n) (hn : n ≤ 2 ^ 31) :
    Meets (bufGrow avail n) sb (fun _ sb' => sb'.Wf c ∧ sb'.p = sb.p ∧ n ≤ sb'.mem.length) (NoMem sb) := by
  obtain ⟨k, hk, hstart⟩ := growStart h
  obtain ⟨j, hj, hloop, hle⟩ := @growLoop_spec sb k 32 n hn hk (by omega)
  have hin := h.inside
  rw [bufGrow, meets_read (sbufsz_eq h), meets_read (sbuflen_eq h), hstart, meets_read hloop]
  cases hav : avail (ljMinSbuf * 2 ^ j) with
  | false =>
      refine (meets_stop (by rw [memRealloc, hav]; rfl)).2 ⟨rfl, rfl⟩
  | true =>
      have hrealloc : memRealloc avail (ljMinSbuf * 2 ^ j) sb =
          .ok () { sb with mem := sb.mem ++ List.replicate (ljMinSbuf * 2 ^ j - sb.mem.length) none } := by
        rw [memRealloc, hav, List.take_of_length_le (by omega)]
        rfl
      have hlen : (sb.mem ++ List.replicate (ljMinSbuf * 2 ^ j - sb.mem.length) none).length = ljMinSbuf * 2 ^ j := by
        rw [List.length_append, List.length_replicate]
        lia
      refine (meets_read hrealloc).2 ⟨⟨?_, ?_, h.exact, .inr ⟨j, hj, hlen⟩⟩, rfl, ?_⟩
      · change sb.p ≤ (sb.mem ++ _).length
        lia
      · change (sb.mem ++ _).take sb.p = _
        rw [List.take_append_of_le_length hin]
        exact h.content
      · change n ≤ (sb.mem ++ _).length
        omega

/-- **Room** for some bytes behind the content, or an error and the buffer as before. -/
theorem more_spec (h : sb.Wf c) (hn : n < 2 ^ 32) :
    Meets (more avail n) sb (fun p sb' => p = sb.p ∧ sb'.Wf c ∧ sb'.p = sb.p ∧ sb.p + n ≤ sb'.mem.length) (NoMem sb) := by
  have hin := h.inside
  have hlen := h.length_le
  rw [more, meets_read (sbufleft_eq h), meets_ite]
  refine ⟨fun hleft => ?_, fun hleft => ⟨rfl, h, rfl, by lia⟩⟩
  rw [more2, meets_read (sbuflen_eq h)]
  by_cases hmax : n > ljMaxBuf
  · rw [if_pos hmax]
    exact ⟨rfl, rfl⟩
  · have hsum : (sb.p : ℤ) + n = (sb.p + n : ℕ) := by push_cast; rfl
    rw [if_neg hmax, hsum, msize_eq (by rw [ljMaxBuf] at hmax; lia), pure_bind]
    by_cases htotal : sb.p + n > ljMaxBuf
    · rw [if_pos htotal]
      exact ⟨rfl, rfl⟩
    · rw [if_neg htotal]
      refine Meets.bind ((bufGrow_spec h (by lia) (by rw [ljMaxBuf] at htotal; omega)).mono ?_ fun _ _ h' => h')
      intro _ sb' h'
      exact ⟨h'.2.1, h'.1, h'.2.1, h'.2.2⟩

/-- The other way round: a request that is too large. -/
theorem more_oversized (h : sb.Wf c) (hn : n < 2 ^ 32) (hleft : sb.mem.length - sb.p < n)
    (hmax : ljMaxBuf < sb.p + n) : more avail n sb = .error .mem sb := by
  have hin := h.inside
  have hlen := h.length_le
  rw [more, bind_ok (sbufleft_eq h), if_pos hleft, more2, bind_ok (sbuflen_eq h)]
  by_cases hbig : n > ljMaxBuf
  · rw [if_pos hbig]
    rfl
  · have hsum : (sb.p : ℤ) + n = (sb.p + n : ℕ) := by push_cast; rfl
    rw [if_neg hbig, hsum, msize_eq (by rw [ljMaxBuf] at hbig; lia), pure_bind, if_pos hmax]
    rfl

theorem need_spec (h : sb.Wf c) : Meets (need avail n) sb (fun _ sb' => sb'.Wf c) (NoMem sb) := by
  rw [need, meets_read (sbufsz_eq h), meets_ite]
  refine ⟨fun hsz => ?_, fun _ => h⟩
  rw [need2, meets_ite]
  refine ⟨fun _ => ⟨rfl, rfl⟩, fun hmax => ?_⟩
  exact (bufGrow_spec h hsz (by rw [ljMaxBuf] at hmax; omega)).mono (fun _ _ h' => h'.1) fun _ _ h' => h'

theorem need_oversized (h : sb.Wf c) (hsz : sb.mem.length < n) (hmax : ljMaxBuf < n) :
    need avail n sb = .error .mem sb := by
  rw [need, bind_ok (sbufsz_eq h), if_pos hsz, need2, if_pos hmax]
  rfl

/-! ### Shrinking -/

/-- At most half of a block that shrinks is in use. -/
def Keeps (sb : SBuf) : Prop := sb.mem.length ≤ 2 * ljMinSbuf ∨ sb.p ≤ sb.mem.length / 2

/-- **Shrinking** keeps the position, and the content if it fits. -/
theorem shrink_spec (h : sb.Wf c) :
    Meets (shrink avail) sb (fun _ sb' => sb'.wrapped = false ∧ (sb'.Holds c ↔ Keeps sb) ∧ (Keeps sb → sb'.Wf c))
      (NoMem sb) := by
  have hin := h.inside
  rw [shrink, meets_read (sbufsz_eq h), meets_ite]
  refine ⟨fun hbig => ?_, fun hsmall => ?_⟩
  · rw [meets_read (sbuflen_eq h)]
    cases hav : avail (sb.mem.length >>> 1) with
    | false => exact (meets_stop (by rw [memRealloc, hav]; rfl)).2 ⟨rfl, rfl⟩
    | true =>
        have hhalf : sb.mem.length >>> 1 = sb.mem.length / 2 := rfl
        have hrealloc : memRealloc avail (sb.mem.length >>> 1) sb =
            .ok () { sb with mem := sb.mem.take (sb.mem.length / 2) } := by
          rw [memRealloc, hav, hhalf, show sb.mem.length / 2 - sb.mem.length = 0 by lia, List.replicate_zero,
            List.append_nil]
          rfl
        have hlen : (sb.mem.take (sb.mem.length / 2)).length = sb.mem.length / 2 := by
          rw [List.length_take]
          lia
        have hkeeps : Keeps sb → { sb with mem := sb.mem.take (sb.mem.length / 2) }.Wf c := by
          intro hk
          have hp : sb.p ≤ sb.mem.length / 2 := hk.resolve_left (not_le.2 hbig)
          refine ⟨?_, ?_, h.exact, ?_⟩
          · change sb.p ≤ (sb.mem.take _).length
            rw [hlen]
            exact hp
          · change (sb.mem.take _).take sb.p = _
            rw [List.take_take, Nat.min_eq_left hp]
            exact h.content
          · change (sb.mem.take _).length = 0 ∨ ∃ k ≤ 26, (sb.mem.take _).length = _
            rw [hlen]
            rcases h.size with h0 | ⟨k, hk, hz⟩
            · exact .inl (by omega)
            · cases k with
              | zero =>
                  rw [hz] at hbig
                  exact absurd hbig (by decide)
              | succ k =>
                  refine .inr ⟨k, by omega, ?_⟩
                  rw [hz, pow_succ, ← mul_assoc, Nat.mul_div_cancel _ two_pos]
        refine (meets_read hrealloc).2 ⟨h.exact, ⟨fun hh => .inr ?_, fun hk => (hkeeps hk).holds⟩, hkeeps⟩
        have hp : sb.p ≤ (sb.mem.take (sb.mem.length / 2)).length := hh.inside
        rw [hlen] at hp
        exact hp
  · exact ⟨h.exact, ⟨fun _ => .inl (not_lt.1 hsmall), fun _ => h.holds⟩, fun _ => h⟩

/-! ### Puts -/

/-- **Bytes** are put behind the content. -/
theorem putmem_spec (h : sb.Wf c) (hq : q.length < 2 ^ 32) :
    Meets (putmem avail q) sb (fun _ sb' => sb'.Wf (c ++ q)) (NoMem sb) := by
  rw [putmem]
  refine Meets.bind ((more_spec h hq).mono ?_ fun _ _ h' => h')
  rintro p sb₁ ⟨rfl, hwf, hp, hroom⟩
  rw [SBuf.Wf, hp] at hwf
  obtain ⟨sb₂, hwmem, hfill, -⟩ := wmem_spec hwf hroom
  rw [meets_read hwmem]
  exact hfill.setP

/-- The loops write lists of bytes. -/
theorem reverseLoop_eq (hn : n ≤ s.length) : reverseLoop s n p = wmem p (s.take n).reverse := by
  induction n generalizing p with
  | zero => rfl
  | succ n ih =>
      rw [reverseLoop, List.take_succ_eq_append_getElem hn, List.reverse_append, List.reverse_singleton,
        List.singleton_append, wmem, List.getD_eq_getElem s 0 hn]
      exact congrArg _ (funext fun _ => ih (by omega))

theorem caseLoop_eq (f : UInt8 → UInt8) (s : List UInt8) : caseLoop f s p = wmem p (s.map f) := by
  induction s generalizing p with
  | nil => rfl
  | cons x s ih =>
      rw [caseLoop, List.map_cons, wmem]
      exact congrArg _ (funext fun _ => ih)

theorem repCharLoop_eq (x : UInt8) (n : ℕ) : repCharLoop x n p = wmem p (List.replicate n [x]).flatten := by
  induction n generalizing p with
  | zero => rfl
  | succ n ih =>
      rw [repCharLoop, List.replicate_succ, List.flatten_cons, List.singleton_append, wmem]
      exact congrArg _ (funext fun _ => ih)

theorem repLoop_eq (s : List UInt8) (n : ℕ) : repLoop s n p = wmem p (List.replicate n s).flatten := by
  induction n generalizing p with
  | zero => rfl
  | succ n ih =>
      rw [repLoop, List.replicate_succ, List.flatten_cons, wmem_append]
      exact congrArg _ (funext fun _ => ih)

/-- The other puts put the bytes of their texts. -/
theorem putchar_eq (x : UInt8) : putchar avail x = putmem avail [x] := by
  rw [putchar, putmem]
  refine congrArg _ (funext fun p => ?_)
  rw [wmem, bind_assoc]
  rfl

theorem putstrReverse_eq (s : List UInt8) : putstrReverse avail s = putmem avail s.reverse := by
  rw [putstrReverse, putmem, List.length_reverse]
  refine congrArg _ (funext fun p => ?_)
  rw [reverseLoop_eq le_rfl, List.take_length]

theorem putstrCase_eq (f : UInt8 → UInt8) (s : List UInt8) : putstrCase avail f s = putmem avail (s.map f) := by
  rw [putstrCase, putmem, List.length_map]
  exact congrArg _ (funext fun p => congrArg (· >>= setsbufP) (caseLoop_eq f s))

theorem length_rep (s : List UInt8) (n : ℕ) : (List.replicate n s).flatten.length = n * s.length := by
  rw [List.length_flatten, List.map_replicate, List.sum_replicate, smul_eq_mul]

/-- A repetition that is not too long. -/
theorem putstrRep_eq {rep : ℤ} (hrep : rep > 0 ∧ s.length ≠ 0) (hmax : rep.toNat * s.length ≤ ljMaxStr) :
    putstrRep avail s rep = putmem avail (List.replicate rep.toNat s).flatten := by
  have hmod : rep.toNat * s.length % 2 ^ 64 = rep.toNat * s.length :=
    Nat.mod_eq_of_lt (lt_of_le_of_lt hmax (by decide))
  rw [putstrRep, if_pos hrep, hmod, if_neg (not_lt.2 hmax), msize_eq (lt_of_le_of_lt hmax (by decide)), pure_bind,
    putmem, length_rep]
  refine congrArg _ (funext fun p => ?_)
  by_cases h1 : s.length = 1
  · obtain ⟨x, rfl⟩ := List.length_eq_one_iff.1 h1
    exact congrArg (· >>= setsbufP) (repCharLoop_eq x _)
  · rw [if_neg h1]
    exact congrArg (· >>= setsbufP) (repLoop_eq s _)

/-- One that is. -/
theorem putstrRep_long {rep : ℤ} (hs : s.length ≤ ljMaxStr) (hlt : rep < 2 ^ 31) (hrep : rep > 0 ∧ s.length ≠ 0)
    (hmax : ¬rep.toNat * s.length ≤ ljMaxStr) : putstrRep avail s rep = throw .mem := by
  have hmod : rep.toNat * s.length < 2 ^ 64 := by
    calc rep.toNat * s.length ≤ 2 ^ 31 * 2 ^ 31 := Nat.mul_le_mul (by lia) (hs.trans (by decide))
      _ < 2 ^ 64 := by decide
  rw [putstrRep, if_pos hrep, Nat.mod_eq_of_lt hmod, if_pos (not_le.1 hmax)]

theorem putstrRep_spec (h : sb.Wf c) {rep : ℤ} (hs : s.length ≤ ljMaxStr) (hrep : rep < 2 ^ 31) :
    Meets (putstrRep avail s rep) sb (fun _ sb' => sb'.Wf (c ++ (List.replicate rep.toNat s).flatten)) (NoMem sb) := by
  by_cases hpos : rep > 0 ∧ s.length ≠ 0
  · by_cases hmax : rep.toNat * s.length ≤ ljMaxStr
    · rw [putstrRep_eq hpos hmax]
      exact putmem_spec h (by rw [length_rep]; exact lt_of_le_of_lt hmax (by decide))
    · rw [putstrRep_long hs hrep hpos hmax]
      exact ⟨rfl, rfl⟩
  · have hnil : (List.replicate rep.toNat s).flatten = [] := by
      rw [not_and_or, not_not, List.length_eq_zero_iff] at hpos
      rcases hpos with hrep | rfl
      · rw [show rep.toNat = 0 by lia]
        rfl
      · exact List.flatten_replicate_nil
    rw [putstrRep, if_neg hpos, hnil, List.append_nil]
    exact h

/-! ### Elements of tables -/

/-- A sign and ten digits have room for an integer. -/
theorem length_wint (k : BitVec 32) : (Strfmt.wint k).length ≤ maxbufInt := by
  have hlo := BitVec.le_toInt k
  have hhi := BitVec.toInt_lt (x := k)
  have hdig : (Strfmt.numeralText k.toInt.natAbs).length ≤ 10 := Strfmt.length_numeralText (by lia)
  rw [Strfmt.wint_eq, Strfmt.decimal, List.length_append, maxbufInt]
  refine Nat.add_le_add ?_ hdig
  split_ifs
  · exact le_rfl
  · exact Nat.zero_le 1

theorem length_numText (o : BitVec 64) : (numText libc o).length ≤ maxbufNum := by
  unfold numText
  dsimp only
  split_ifs with hfin hzero hnan hinf
  · decide
  · exact (libc.fits o).le
  · decide
  · decide
  · decide

/-- The bytes of a number, and the zero byte of `sprintf` behind them. -/
theorem wnum_spec (h : sb.Filled p c) (hroom : p + maxbufNum ≤ sb.mem.length) (o : BitVec 64) :
    ∃ sb', wnum libc p o sb = .ok (p + (numText libc o).length) sb' ∧
      sb'.Filled (p + (numText libc o).length) (c ++ numText libc o) ∧ sb'.mem.length = sb.mem.length := by
  have hlen := h.length_eq
  rw [maxbufNum] at hroom
  unfold wnum numText
  dsimp only
  split_ifs with hfin hzero hnan hinf
  · exact wmem_spec h (by rw [show "-0".toUTF8.data.toList.length = 2 by decide]; omega)
  · have hfit := libc.fits o
    rw [maxbufNum] at hfit
    obtain ⟨sb', hw, hfill, hsame⟩ := @wmem_spec sb c (libc.number2str o ++ [0]) p h (by
      rw [List.length_append, List.length_singleton]; lia)
    rw [← List.append_assoc] at hfill
    have hfront := hfill.front
    rw [List.length_append, hlen] at hfront
    refine ⟨sb', ?_, hfront, hsame⟩
    rw [bind_ok hw]
    rfl
  · exact wmem_spec h (by rw [show "nan".toUTF8.data.toList.length = 3 by decide]; omega)
  · exact wmem_spec h (by rw [show "inf".toUTF8.data.toList.length = 3 by decide]; omega)
  · exact wmem_spec h (by rw [show "-inf".toUTF8.data.toList.length = 4 by decide]; omega)

/-- A writer behind the content, with more room than it needs. -/
theorem roomed_spec {m : ℕ} {text : List UInt8} {w : ℕ → M ℕ} (h : sb.Wf c) (hm : m ≤ ljMaxStr)
    (hsep : sep.length ≤ ljMaxStr) (htext : text.length ≤ m)
    (hw : ∀ p sb₁, sb₁.Filled p c → p + m ≤ sb₁.mem.length → ∃ sb₂, w p sb₁ = .ok (p + text.length) sb₂ ∧
      sb₂.Filled (p + text.length) (c ++ text) ∧ sb₂.mem.length = sb₁.mem.length) :
    Meets (do w (← more avail (← msize ((m : ℤ) + sep.length)))) sb
      (fun p sb' => sb'.Filled p (c ++ text) ∧ p + sep.length ≤ sb'.mem.length) (NoMem sb) := by
  rw [ljMaxStr] at hm hsep
  have hsum : (m : ℤ) + sep.length = (m + sep.length : ℕ) := by push_cast; rfl
  rw [hsum, msize_eq (by omega), pure_bind]
  refine Meets.bind ((more_spec h (by omega)).mono ?_ fun _ _ h' => h')
  rintro p sb₁ ⟨rfl, hwf, hp, hroom⟩
  rw [SBuf.Wf, hp] at hwf
  obtain ⟨sb₂, hrun, hfill, hlen⟩ := hw _ _ hwf (by omega)
  rw [meets_ok hrun]
  exact ⟨hfill, by lia⟩

/-- **An element** and room for the separator, or an error and the buffer as before. -/
theorem putElem_spec (h : sb.Wf c) (hsep : sep.length ≤ ljMaxStr) (i : ℤ) {o : Option Elem}
    (ho : ∀ s, o = some (.str s) → s.length ≤ ljMaxStr) :
    Meets (putElem avail libc sep i o) sb
      (fun p sb' => sb'.Filled p (c ++ elemText libc o) ∧ p + sep.length ≤ sb'.mem.length)
      (fun e sb' => NoMem sb e sb' ∨ e = .badtype i ∧ sb' = sb) := by
  have hbad : (Stop.badtype i = .mem ∧ sb = sb) ∨ Stop.badtype i = .badtype i ∧ sb = sb := .inr ⟨rfl, rfl⟩
  rcases o with _ | (s | k | o | _)
  · exact hbad
  · refine (roomed_spec h (ho s rfl) hsep le_rfl fun p sb₁ h₁ hroom => wmem_spec h₁ hroom).mono
      (fun _ _ h' => h') fun _ _ => .inl
  · refine (roomed_spec h (by decide) hsep (length_wint k) fun p sb₁ h₁ hroom => ?_).mono
      (fun _ _ h' => ?_) fun _ _ => .inl
    · exact wmem_spec h₁ ((Nat.add_le_add_left (length_wint k) p).trans hroom)
    · rw [Strfmt.wint_eq] at h'
      exact h'
  · exact (roomed_spec h (by decide) hsep (length_numText o) fun p sb₁ h₁ hroom => wnum_spec h₁ hroom o).mono
      (fun _ _ h' => h') fun _ _ => .inl
  · exact hbad

/-! ### Tables -/

theorem tabText_last (t : ℤ → Option Elem) (i : ℤ) : tabText libc t sep i i = elemText libc (t i) := by
  rw [tabText, show i - i + 1 = 1 by omega]
  change sep.intercalate [elemText libc (t (i + (0 : ℕ)))] = _
  rw [List.intercalate_singleton, Nat.cast_zero, add_zero]

theorem tabText_cons {t : ℤ → Option Elem} {i e : ℤ} (hlt : i < e) :
    tabText libc t sep i e = elemText libc (t i) ++ sep ++ tabText libc t sep (i + 1) e := by
  have hne : ((List.range (e - (i + 1) + 1).toNat).map fun j : ℕ => elemText libc (t (i + 1 + j))) ≠ [] := by
    rw [Ne, List.map_eq_nil_iff, List.range_eq_nil]
    lia
  have hshift : (fun j : ℕ => elemText libc (t (i + j))) ∘ Nat.succ = fun j : ℕ => elemText libc (t (i + 1 + j)) := by
    funext j
    rw [Function.comp_apply, Nat.succ_eq_add_one, Nat.cast_add, Nat.cast_one, add_comm (j : ℤ), add_assoc]
  rw [tabText, show (e - i + 1).toNat = (e - (i + 1) + 1).toNat + 1 by lia, List.range_succ_eq_map, List.map_cons,
    List.map_map, hshift, List.intercalate_cons_of_ne_nil hne, Nat.cast_zero, add_zero, tabText]

/-- The separator is written if there is one. -/
theorem putSep_eq (p : ℕ) : putSep sep p = wmem p sep := by
  rw [putSep]
  by_cases h0 : sep.length ≠ 0
  · rw [if_pos h0]
  · rw [if_neg h0, List.length_eq_zero_iff.1 (not_not.1 h0)]
    rfl

/-- An error of `lj_buf_puttab`: the elements before are there when the allocator fails. -/
def TabError (c : List UInt8) (e : Stop) (sb' : SBuf) : Prop :=
  (e = .mem ∨ ∃ j, e = .badtype j) ∧ ∃ d, sb'.Wf (c ++ d)

/-- **The elements of a table** are put with the separator between them. -/
theorem puttabLoop_spec {t : ℤ → Option Elem} {e i : ℤ} {fuel : ℕ} (h : sb.Wf c) (hsep : sep.length ≤ ljMaxStr)
    (ht : ∀ j, i ≤ j → j ≤ e → ∀ s, t j = some (.str s) → s.length ≤ ljMaxStr) (hie : i ≤ e)
    (hfuel : (e - i).toNat < fuel) :
    Meets (puttabLoop avail libc t sep e fuel i) sb (fun _ sb' => sb'.Wf (c ++ tabText libc t sep i e))
      (TabError c) := by
  induction fuel generalizing i c sb with
  | zero => lia
  | succ fuel ih =>
      rw [puttabLoop]
      refine Meets.bind ((putElem_spec h hsep i (ht i le_rfl hie)).mono ?_ ?_)
      · rintro p sb₁ ⟨hfill, hroom⟩
        rw [meets_ite]
        refine ⟨fun hlast => ?_, fun hmore => ?_⟩
        · rw [← hlast, tabText_last]
          exact hfill.setP
        · have hlt : i < e := lt_of_le_of_ne hie hmore
          obtain ⟨sb₂, hwsep, hfill₂, -⟩ := wmem_spec hfill hroom
          rw [putSep_eq, meets_read hwsep]
          refine (ih hfill₂.setP (fun j hj => ht j (by omega)) (by omega) (by lia)).mono (fun _ _ h' => ?_)
            fun er sb' h' => ?_
          · rw [tabText_cons hlt, ← List.append_assoc, ← List.append_assoc]
            exact h'
          · obtain ⟨her, d, hd⟩ := h'
            refine ⟨her, elemText libc (t i) ++ sep ++ d, ?_⟩
            rw [← List.append_assoc, ← List.append_assoc]
            exact hd
      · rintro er sb₁ (⟨rfl, rfl⟩ | ⟨rfl, rfl⟩)
        · exact ⟨.inl rfl, [], by rw [List.append_nil]; exact h⟩
        · exact ⟨.inr ⟨i, rfl⟩, [], by rw [List.append_nil]; exact h⟩

theorem puttab_spec {t : ℤ → Option Elem} {i e : ℤ} (h : sb.Wf c) (hsep : sep.length ≤ ljMaxStr)
    (ht : ∀ j, i ≤ j → j ≤ e → ∀ s, t j = some (.str s) → s.length ≤ ljMaxStr) :
    Meets (puttab avail libc t sep i e) sb (fun _ sb' => sb'.Wf (c ++ tabText libc t sep i e)) (TabError c) := by
  rw [puttab, meets_ite]
  refine ⟨fun hie => puttabLoop_spec h hsep ht hie (Nat.lt_succ_self _), fun hie => ?_⟩
  have hnil : tabText libc t sep i e = [] := by
    rw [tabText, show (e - i + 1).toNat = 0 by lia]
    rfl
  rw [hnil, List.append_nil]
  exact h

/-! ### Operations -/

/-- The condition of an operation: a block that shrinks is not in use beyond its half. -/
def Op.Keeps (sb : SBuf) : Op → Prop
  | .shrink => Sbuf.Keeps sb
  | _ => True

/-- A buffer in use, with a condition for the content. -/
def After (P : Prop) (c : List UInt8) (sb' : SBuf) : Prop :=
  sb'.wrapped = false ∧ (sb'.Holds c ↔ P) ∧ (P → sb'.Wf c)

theorem SBuf.Filled.after {P : Prop} (h : sb.Wf c) (hP : P) : After P c sb :=
  ⟨h.exact, ⟨fun _ => hP, fun _ => h.holds⟩, fun _ => h⟩

/-- An error: of the allocator with the buffer as before, or in the middle of a table. -/
def Failed (op : Op) (sb : SBuf) (e : Stop) (sb' : SBuf) : Prop :=
  sb'.wrapped = false ∧ (e = .mem ∧ sb' = sb ∨ (∃ t sep i j, op = .puttab t sep i j) ∧ (e = .mem ∨ ∃ i, e = .badtype i))

theorem NoMem.failed (h : sb.Wf c) {op : Op} {e : Stop} (he : NoMem sb e sb') : Failed op sb e sb' := by
  obtain ⟨rfl, rfl⟩ := he
  exact ⟨h.exact, .inl ⟨rfl, rfl⟩⟩

/-- **Every operation** has its text as its effect if its condition holds, and only then. -/
theorem exec_spec (h : sb.Wf c) {op : Op} (hop : op.Valid) :
    Meets (exec avail libc op) sb (fun _ sb' => After (op.Keeps sb) (op.apply libc c) sb') (Failed op sb) := by
  have hput : ∀ {q : List UInt8}, q.length ≤ ljMaxStr →
      Meets (putmem avail q) sb (fun _ sb' => After True (c ++ q) sb') (Failed op sb) := by
    intro q hq
    exact (putmem_spec h (lt_of_le_of_lt hq (by decide))).mono (fun _ _ h' => h'.after trivial) fun _ _ h' => h'.failed h
  cases op with
  | reset => exact (SBuf.Filled.setP ⟨Nat.zero_le _, rfl, h.exact, h.size⟩).after trivial
  | need sz =>
      refine (need_spec h).mono (fun _ sb' h' => ?_) fun _ _ h' => h'.failed h
      change After True (c ++ []) sb'
      rw [List.append_nil]
      exact h'.after trivial
  | more sz =>
      refine Meets.bind ((more_spec h hop).mono (fun _ sb' h' => ?_) fun _ _ h' => h'.failed h)
      change After True (c ++ []) sb'
      rw [List.append_nil]
      exact h'.2.1.after trivial
  | putmem q => exact hput hop
  | putchar x =>
      rw [exec, putchar_eq]
      exact hput (show 1 ≤ ljMaxStr by decide)
  | putstr s => exact hput hop
  | putstrReverse s =>
      rw [exec, putstrReverse_eq]
      exact hput (by rw [List.length_reverse]; exact hop)
  | putstrLower s =>
      rw [exec, putstrLower, putstrCase_eq]
      exact hput (by rw [List.length_map]; exact hop)
  | putstrUpper s =>
      rw [exec, putstrUpper, putstrCase_eq]
      exact hput (by rw [List.length_map]; exact hop)
  | putstrRep s rep =>
      exact (putstrRep_spec h hop.1 hop.2).mono (fun _ _ h' => h'.after trivial) fun _ _ h' => h'.failed h
  | puttab t sep i e =>
      refine (puttab_spec h hop.1 hop.2).mono (fun _ _ h' => h'.after trivial) ?_
      rintro er sb₁ ⟨her, d, hd⟩
      exact ⟨hd.exact, .inr ⟨⟨t, sep, i, e, rfl⟩, her⟩⟩
  | shrink =>
      refine (shrink_spec h).mono (fun _ sb' h' => ?_) fun _ _ h' => h'.failed h
      change After (Sbuf.Keeps sb) (c ++ []) sb'
      rw [List.append_nil]
      exact h'

/-- The bytes that an operation asks for at once, behind the content. -/
def Op.request : Op → ℕ
  | .more sz => sz
  | .putmem s | .putstr s | .putstrReverse s | .putstrLower s | .putstrUpper s => s.length
  | .putchar _ => 1
  | .putstrRep s rep => rep.toNat * s.length
  | .reset | .need _ | .puttab .. | .shrink => 0

/-- **A request that is too large** is an error, and nothing happens to the buffer. -/
theorem exec_oversized (h : sb.Wf c) {op : Op} (hop : op.Valid) (hleft : sb.mem.length - sb.p < op.request)
    (hmax : ljMaxBuf < sb.p + op.request) : exec avail libc op sb = .error .mem sb := by
  have hput : ∀ {q : List UInt8}, q.length = op.request → q.length ≤ ljMaxStr →
      putmem avail q sb = .error .mem sb := by
    intro q hq hstr
    rw [← hq] at hleft hmax
    exact bind_error (more_oversized h (lt_of_le_of_lt hstr (by decide)) hleft hmax)
  cases op with
  | reset => exact absurd hleft (Nat.not_lt_zero _)
  | need sz => exact absurd hleft (Nat.not_lt_zero _)
  | more sz => exact bind_error (more_oversized h hop hleft hmax)
  | putmem q => exact hput rfl hop
  | putchar x =>
      rw [exec, putchar_eq]
      exact hput rfl (show 1 ≤ ljMaxStr by decide)
  | putstr s => exact hput rfl hop
  | putstrReverse s =>
      rw [exec, putstrReverse_eq]
      exact hput List.length_reverse (by rw [List.length_reverse]; exact hop)
  | putstrLower s =>
      rw [exec, putstrLower, putstrCase_eq]
      exact hput (List.length_map _) (by rw [List.length_map]; exact hop)
  | putstrUpper s =>
      rw [exec, putstrUpper, putstrCase_eq]
      exact hput (List.length_map _) (by rw [List.length_map]; exact hop)
  | putstrRep s rep =>
      have hpos : 0 < rep.toNat * s.length := lt_of_le_of_lt (Nat.zero_le _) hleft
      have hrep : rep > 0 ∧ s.length ≠ 0 := by
        refine ⟨Int.pos_iff_toNat_pos.2 (Nat.pos_of_mul_pos_right hpos), (Nat.pos_of_mul_pos_left hpos).ne'⟩
      by_cases hstr : rep.toNat * s.length ≤ ljMaxStr
      · rw [exec, putstrRep_eq hrep hstr]
        exact hput (length_rep s _) (by rw [length_rep]; exact hstr)
      · rw [exec, putstrRep_long hop.1 hop.2 hrep hstr]
        rfl
  | puttab t sep i e => exact absurd hleft (Nat.not_lt_zero _)
  | shrink => exact absurd hleft (Nat.not_lt_zero _)

/-! ### Runs -/

/-- The runs on one buffer, with the content that was put since the last reset.  A table is put to its end,
and every other operation may also be stopped by the allocator. -/
inductive Reach (libc : Libc) (P : SBuf → Op → Prop) : SBuf → List UInt8 → Prop where
  | init : Reach libc P SBuf.init []
  | step {sb sb' : SBuf} {c : List UInt8} (avail : ℕ → Bool) (op : Op) : Reach libc P sb c → op.Valid → P sb op →
      exec avail libc op sb = .ok () sb' → Reach libc P sb' (op.apply libc c)
  | stop {sb sb' : SBuf} {c : List UInt8} (avail : ℕ → Bool) (op : Op) : Reach libc P sb c → op.Valid →
      (¬∃ t sep i e, op = .puttab t sep i e) → exec avail libc op sb = .error .mem sb' → Reach libc P sb' c

theorem reach_wf (h : Reach libc (fun sb op => op.Keeps sb) sb c) : sb.Wf c := by
  induction h with
  | init => exact init_wf
  | step avail op _ hop hkeeps hrun ih => exact ((meets_ok hrun).1 (exec_spec ih hop)).2.2 hkeeps
  | stop avail op _ hop htab hrun ih =>
      obtain ⟨-, ⟨-, rfl⟩ | ⟨hno, -⟩⟩ := (meets_error hrun).1 (exec_spec ih hop)
      · exact ih
      · exact absurd hno htab

/-- **String buffers**: as long as no block is shrunk of which more than the half is in use, the position
is in the block and what is before it was put since the last reset.  Then every operation writes inside of the
block only, its sizes fit, its loops end, and an error leaves the buffer as it was; a request that is too large is
such an error.  The next operation keeps the content if and only if it meets the condition as well. -/
theorem sbuf_sound (h : Reach libc (fun sb op => op.Keeps sb) sb c) :
    sb.Holds c ∧
      (∀ avail op, op.Valid → Meets (exec avail libc op) sb
        (fun _ sb' => sb'.wrapped = false ∧ (sb'.Holds (op.apply libc c) ↔ op.Keeps sb))
        (fun e sb' => sb'.wrapped = false ∧
          (e = .mem ∧ sb' = sb ∨ (∃ t sep i j, op = .puttab t sep i j) ∧ (e = .mem ∨ ∃ i, e = .badtype i)))) ∧
      (∀ avail op, op.Valid → sb.mem.length - sb.p < op.request → ljMaxBuf < sb.p + op.request →
        exec avail libc op sb = .error .mem sb) ∧
      ∀ avail n, sb.mem.length < n → ljMaxBuf < n → exec avail libc (.need n) sb = .error .mem sb := by
  have hwf := reach_wf h
  refine ⟨hwf.holds, fun avail op hop => ?_, fun avail op => exec_oversized hwf, fun avail n => need_oversized hwf⟩
  exact (exec_spec hwf hop).mono (fun _ _ h' => ⟨h'.1, h'.2.1⟩) fun _ _ h' => h'

/-- A library that is asked for one number only. -/
def oneLibc : Libc := ⟨false, fun _ => "1.5".toUTF8.data.toList, fun _ => by decide⟩

/-- A table with a string and a number. -/
def pairTab (j : ℤ) : Option Elem :=
  if j = 1 then some (.str [0x78]) else if j = 2 then some (.num 0x3ff8000000000000#64) else none

/-- The buffer of the table with a comma between its elements; the zero byte of `sprintf` is still behind them. -/
def pairBuf : SBuf := ⟨"x,1.5".toUTF8.data.toList.map some ++ some 0 :: List.replicate 58 none, 5, false⟩

theorem sbuf_sound_pair : pairBuf.Holds "x,1.5".toUTF8.data.toList ∧
    exec (fun _ => true) oneLibc (.need 0x7fffff01) pairBuf = .error .mem pairBuf := by
  have hvalid : Op.Valid (.puttab pairTab [0x2c] 1 2) := by
    refine ⟨by decide, fun j _ _ s hs => ?_⟩
    unfold pairTab at hs
    split_ifs at hs
    · rw [← Elem.str.inj (Option.some.inj hs)]
      decide
    · cases hs
  have hrun : exec (fun _ => true) oneLibc (.puttab pairTab [0x2c] 1 2) SBuf.init = .ok () pairBuf := by
    decide +kernel
  have h := sbuf_sound (.step (fun _ => true) _ .init hvalid trivial hrun)
  exact ⟨h.1, h.2.2.2 (fun _ => true) _ (by decide) (by decide)⟩

/-- A buffer with a hundred bytes, and what is left of it when its block is shrunk. -/
def fullBuf : SBuf := ⟨List.replicate 100 (some 0x61) ++ List.replicate 28 none, 100, false⟩
def cutBuf : SBuf := ⟨List.replicate 64 (some 0x61), 100, false⟩

/-- **The position is behind the block** after the shrinking, and the next byte is written there. -/
theorem shrink_cuts : Reach oneLibc (fun _ _ => True) cutBuf (List.replicate 100 0x61) ∧
    ¬cutBuf.p ≤ cutBuf.mem.length ∧ exec (fun _ => true) oneLibc (.putchar 0x61) cutBuf = .error .oob { cutBuf with wrapped := true } := by
  have hfull : exec (fun _ => true) oneLibc (.putmem (List.replicate 100 0x61)) SBuf.init = .ok () fullBuf := by
    decide +kernel
  have hcut : exec (fun _ => true) oneLibc .shrink fullBuf = .ok () cutBuf := by decide +kernel
  refine ⟨?_, by decide, by decide +kernel⟩
  exact .step _ .shrink (.step _ (.putmem _) .init (show (List.replicate 100 _).length ≤ ljMaxStr by decide) trivial hfull)
    trivial trivial hcut

end Sbuf
