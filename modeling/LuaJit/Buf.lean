/-
**String buffers.**

A buffer holds the bytes between its start and its write position, and the size of the memory behind the
start.  The size grows by doubling; a request that is too large is an out-of-memory error.  The memory
of a buffer is taken to be available otherwise.

Main definitions:

* `Buf.SBuf` — a buffer;
* `Buf.more`, `Buf.putb` — room for some bytes, and one byte.

Main results:

* `Buf.more_ok`, `Buf.more_error` — when there is room;
* `Buf.putb_ok` — single bytes can be put as long as the content is below `2 ^ 31`.
-/

import Mathlib

set_option relaxedAutoImplicit false
set_option autoImplicit false

namespace Buf

/-- `LJ_MAX_BUF`, `LJ_MIN_SBUF`. -/
def ljMaxBuf : ℕ := 0x7fffff00
def ljMinSbuf : ℕ := 32

/-- A string buffer: what `sbufB` to `sbufP` holds, and `sbufsz`. -/
structure SBuf where
  b : List UInt8
  sz : ℕ
  deriving DecidableEq

/-- `sbuflen`. -/
def SBuf.len (sb : SBuf) : ℕ := sb.b.length

/-- `sbufleft`. -/
def SBuf.left (sb : SBuf) : ℕ := sb.sz - sb.len

/-- `lj_buf_init`. -/
def SBuf.init : SBuf := ⟨[], 0⟩

/-- `lj_buf_reset`. -/
def SBuf.reset (sb : SBuf) : SBuf := { sb with b := [] }

/-- The bytes behind the write position are filled in. -/
def SBuf.append (sb : SBuf) (q : List UInt8) : SBuf := { sb with b := sb.b ++ q }

/-- Why a buffer stops: `lj_err_mem`, or the fuel of the model. -/
inductive Stop where
  | mem
  | fuel
  deriving DecidableEq

/-- The loop of `buf_grow`. -/
def growLoop (sz : ℕ) : ℕ → ℕ → Except Stop ℕ
  | 0, _ => .error .fuel
  | fuel + 1, nsz => if nsz < sz then growLoop sz fuel ((nsz + nsz) % 2 ^ 32) else .ok nsz

/-- `buf_grow`. -/
def grow (sb : SBuf) (sz : ℕ) : Except Stop SBuf := do
  let nsz ← growLoop sz 32 (if sb.sz < ljMinSbuf then ljMinSbuf else sb.sz)
  return { sb with sz := nsz }

/-- `lj_buf_more` and `lj_buf_more2`. -/
def more (sb : SBuf) (sz : ℕ) : Except Stop SBuf :=
  if sz > sb.left then
    if sz > ljMaxBuf ∨ sb.len + sz > ljMaxBuf then .error .mem else grow sb (sb.len + sz)
  else .ok sb

/-- `lj_buf_putb`. -/
def putb (sb : SBuf) (c : UInt8) : Except Stop SBuf := do
  let sb ← more sb 1
  return sb.append [c]

/-- The sizes of buffers: none, or the least size after some doublings. -/
structure SBuf.Wf (sb : SBuf) : Prop where
  fits : sb.len ≤ sb.sz
  size : sb.sz = 0 ∨ ∃ k ≤ 26, sb.sz = ljMinSbuf * 2 ^ k

variable {sb : SBuf} {n : ℕ}

theorem init_wf : SBuf.init.Wf := ⟨le_rfl, .inl rfl⟩

theorem append_wf (h : sb.Wf) {q : List UInt8} (hq : sb.len + q.length ≤ sb.sz) : (sb.append q).Wf := by
  refine ⟨?_, h.size⟩
  rw [SBuf.len, SBuf.append, List.length_append]
  exact hq

/-- The loop ends with a size that is large enough and again one of the sizes. -/
theorem growLoop_spec {sz : ℕ} (hsz : sz ≤ 2 ^ 31) {fuel k : ℕ} (hk : k ≤ 26) (hfuel : 26 < fuel + k) :
    ∃ j ≤ 26, growLoop sz fuel (ljMinSbuf * 2 ^ k) = .ok (ljMinSbuf * 2 ^ j) ∧ sz ≤ ljMinSbuf * 2 ^ j := by
  induction fuel generalizing k with
  | zero => omega
  | succ fuel ih =>
      rw [growLoop]
      by_cases hlt : ljMinSbuf * 2 ^ k < sz
      · have hk' : k < 26 := by
          by_contra hge
          obtain rfl : k = 26 := by omega
          rw [ljMinSbuf] at hlt
          omega
        have hpow : 2 ^ (k + 1) ≤ 2 ^ 26 := Nat.pow_le_pow_right (by decide) hk'
        have hdouble : (ljMinSbuf * 2 ^ k + ljMinSbuf * 2 ^ k) % 2 ^ 32 = ljMinSbuf * 2 ^ (k + 1) := by
          rw [ljMinSbuf, Nat.mod_eq_of_lt] <;> lia
        rw [if_pos hlt, hdouble]
        exact ih hk' (by omega)
      · rw [if_neg hlt]
        exact ⟨k, hk, rfl, not_lt.1 hlt⟩

theorem grow_ok (h : sb.Wf) {sz : ℕ} (hsz : sz ≤ 2 ^ 31) :
    ∃ sb', grow sb sz = .ok sb' ∧ sb'.b = sb.b ∧ sz ≤ sb'.sz ∧ (sb'.sz = 0 ∨ ∃ k ≤ 26, sb'.sz = ljMinSbuf * 2 ^ k) := by
  have hstart : ∃ k ≤ 26, (if sb.sz < ljMinSbuf then ljMinSbuf else sb.sz) = ljMinSbuf * 2 ^ k := by
    rcases h.size with hz | ⟨k, hk, hz⟩
    · exact ⟨0, by decide, by rw [hz]; rfl⟩
    · have hpos := Nat.two_pow_pos k
      refine ⟨k, hk, ?_⟩
      rw [hz, if_neg]
      rw [ljMinSbuf]
      omega
  obtain ⟨k, hk, hz⟩ := hstart
  obtain ⟨j, hj, hloop, hle⟩ := @growLoop_spec sz hsz 32 k hk (by omega)
  refine ⟨{ sb with sz := ljMinSbuf * 2 ^ j }, ?_, rfl, hle, .inr ⟨j, hj, rfl⟩⟩
  rw [grow, hz, hloop]
  rfl

/-- There is room unless the content would get too long. -/
theorem more_ok (h : sb.Wf) (hn : n ≤ sb.left ∨ sb.len + n ≤ ljMaxBuf) :
    ∃ sb', more sb n = .ok sb' ∧ sb'.Wf ∧ sb'.b = sb.b ∧ sb.len + n ≤ sb'.sz := by
  have hfits := h.fits
  rw [more]
  by_cases hleft : n > sb.left
  · have hmax := hn.resolve_left (not_le.2 hleft)
    rw [if_pos hleft, if_neg (by lia)]
    obtain ⟨sb', hgrow, hb, hsz, hsize⟩ := grow_ok h (show sb.len + n ≤ 2 ^ 31 from hmax.trans (by decide))
    refine ⟨sb', hgrow, ⟨?_, hsize⟩, hb, hsz⟩
    rw [SBuf.len, hb]
    exact (Nat.le_add_right _ n).trans hsz
  · rw [if_neg hleft]
    rw [SBuf.left] at hleft
    exact ⟨sb, rfl, h, rfl, by lia⟩

/-- The other case. -/
theorem more_error (hn : sb.left < n) (hmax : ljMaxBuf < sb.len + n) : more sb n = .error .mem := by
  rw [more, if_pos hn, if_pos (.inr hmax)]

theorem putb_room (h : sb.Wf) (hroom : 1 ≤ sb.left ∨ sb.len + 1 ≤ ljMaxBuf) (c : UInt8) :
    ∃ sb', putb sb c = .ok sb' ∧ sb'.Wf ∧ sb'.b = sb.b ++ [c] := by
  obtain ⟨sb', hmore, hwf, hb, hsz⟩ := more_ok h hroom
  have hlen : sb'.len = sb.len := by rw [SBuf.len, hb, SBuf.len]
  refine ⟨sb'.append [c], ?_, append_wf hwf ?_, ?_⟩
  · rw [putb, hmore]
    rfl
  · rw [hlen]
    exact hsz
  · rw [SBuf.append, hb]

/-- One byte, or an error. -/
theorem putb_cases (h : sb.Wf) (c : UInt8) :
    (∃ sb', putb sb c = .ok sb' ∧ sb'.Wf ∧ sb'.b = sb.b ++ [c]) ∨
      (putb sb c = .error .mem ∧ ljMaxBuf < sb.len + 1) := by
  by_cases hroom : 1 ≤ sb.left ∨ sb.len + 1 ≤ ljMaxBuf
  · exact .inl (putb_room h hroom c)
  · rw [not_or, not_le, not_le] at hroom
    refine .inr ⟨?_, hroom.2⟩
    rw [putb, more_error hroom.1 hroom.2]
    rfl

/-- **Single bytes** can be put one by one until the content has the largest size. -/
theorem putb_ok (h : sb.Wf) (hlen : sb.len < 2 ^ 31) (c : UInt8) :
    ∃ sb', putb sb c = .ok sb' ∧ sb'.Wf ∧ sb'.b = sb.b ++ [c] := by
  have hroom : 1 ≤ sb.left ∨ sb.len + 1 ≤ ljMaxBuf := by
    have hfits := h.fits
    rw [SBuf.left, ljMaxBuf]
    by_contra hno
    have hfull : sb.len = sb.sz := by lia
    rcases h.size with hz | ⟨k, hk, hz⟩
    · omega
    · rw [ljMinSbuf] at hz
      interval_cases k <;> lia
  exact putb_room h hroom c

end Buf
