/-
**Comparing strings.**

Strings are compared four bytes at a time, as words that are brought into the order of the bytes.  The
last word of the shorter string may reach up to three bytes behind the end, and these are shifted out; where
only they are different, the lengths decide.

Main definitions:

* `StrCmp.beNat` — bytes as one number, the first byte on top;
* `StrCmp.GCstr`, `StrCmp.load32` — a string in memory, and the word at an offset;
* `StrCmp.strCmp` — the comparison.

Main results:

* `StrCmp.beNat_lt_iff` — the order of the numbers is that of the bytes;
* `StrCmp.strCmp_order` — **strings are compared by the order of their bytes**.
-/

import LuaJit.Word

set_option relaxedAutoImplicit false
set_option autoImplicit false

namespace StrCmp

/-! ### The order of bytes -/

/-- The number of some bytes, the first one on top. -/
@[grind =]
def beNat : List UInt8 → ℕ
  | [] => 0
  | c :: p => c.toNat * 256 ^ p.length + beNat p

theorem beNat_lt (p : List UInt8) : beNat p < 256 ^ p.length := by
  induction p with
  | nil => exact Nat.one_pos
  | cons c p ih =>
      rw [beNat, List.length_cons, pow_succ]
      have hc : c.toNat + 1 ≤ 256 := UInt8.toNat_lt c
      have := Nat.mul_le_mul_right (256 ^ p.length) hc
      rw [Nat.add_mul] at this
      lia

/-- The first byte that differs decides. -/
theorem beNat_lt_iff : ∀ {p q : List UInt8}, p.length = q.length → (beNat p < beNat q ↔ p < q) := by
  intro p
  induction p with
  | nil =>
      intro q h
      rw [List.length_nil, eq_comm, List.length_eq_zero_iff] at h
      rw [h]
      exact ⟨fun h => absurd h (Nat.lt_irrefl _), fun h => absurd h (List.not_lt_nil _)⟩
  | cons c p ih =>
      intro q h
      cases q with
      | nil => cases h
      | cons d q =>
          have hlen : p.length = q.length := Nat.succ.inj h
          have hp := beNat_lt p
          have hq := beNat_lt q
          rw [List.cons_lt_cons_iff, ← ih hlen, UInt8.lt_iff_toNat_lt, ← UInt8.toNat_inj, beNat, beNat, hlen]
          rw [hlen] at hp
          generalize 256 ^ q.length = B at hp hq
          rcases Nat.lt_trichotomy c.toNat d.toNat with hcd | hcd | hcd
          · have := Nat.mul_le_mul_right B (Nat.succ_le_of_lt hcd)
            rw [Nat.succ_mul] at this
            exact ⟨fun _ => .inl hcd, fun _ => by lia⟩
          · rw [hcd]
            exact ⟨fun h => .inr ⟨rfl, by lia⟩, fun h => by lia⟩
          · have := Nat.mul_le_mul_right B (Nat.succ_le_of_lt hcd)
            rw [Nat.succ_mul] at this
            exact ⟨fun h => by lia, fun h => by lia⟩

theorem beNat_inj : ∀ {p q : List UInt8}, p.length = q.length → beNat p = beNat q → p = q := by
  intro p
  induction p with
  | nil => intro q h _; exact (List.length_eq_zero_iff.mp h.symm).symm
  | cons c p ih =>
      intro q h he
      cases q with
      | nil => cases h
      | cons d q =>
          have hlen : p.length = q.length := Nat.succ.inj h
          have hp := beNat_lt p
          have hq := beNat_lt q
          rw [beNat, beNat, hlen] at he
          rw [hlen] at hp
          have hcd : c.toNat = d.toNat := by
            have hdiv := congrArg (· / 256 ^ q.length) he
            rwa [Nat.mul_comm, Nat.mul_add_div (Nat.pow_pos (by decide)), Nat.div_eq_of_lt hp, Nat.mul_comm,
              Nat.mul_add_div (Nat.pow_pos (by decide)), Nat.div_eq_of_lt hq] at hdiv
          rw [hcd] at he
          rw [UInt8.toNat_inj.mp hcd, ih hlen (Nat.add_left_cancel he)]

/-- What two strings have in common at their start does not count. -/
theorem append_lt_append_iff {r p q : List UInt8} : r ++ p < r ++ q ↔ p < q := by
  induction r with
  | nil => exact Iff.rfl
  | cons c r ih =>
      rw [List.cons_append, List.cons_append, List.cons_lt_cons_iff, ih]
      exact ⟨fun h => h.elim (fun h => absurd h (UInt8.lt_irrefl c)) (fun h => h.2), fun h => .inr ⟨rfl, h⟩⟩

/-- Nor does what goes behind a difference. -/
theorem lt_append_iff : ∀ {p q p' q' : List UInt8}, p.length = q.length → p ≠ q → (p ++ p' < q ++ q' ↔ p < q) := by
  intro p
  induction p with
  | nil =>
      intro q p' q' h hne
      exact absurd (List.length_eq_zero_iff.mp h.symm).symm hne
  | cons c p ih =>
      intro q p' q' h hne
      cases q with
      | nil => cases h
      | cons d q =>
          rw [List.cons_append, List.cons_append, List.cons_lt_cons_iff, List.cons_lt_cons_iff]
          refine or_congr_right (and_congr_right fun hcd => ?_)
          exact ih (Nat.succ.inj h) fun hpq => hne (by rw [hcd, hpq])

/-- A string is below its continuations. -/
theorem lt_append (p t : List UInt8) : (p < p ++ t ↔ t ≠ []) ∧ ¬p ++ t < p := by
  constructor
  · conv_lhs => lhs; rw [← List.append_nil p]
    rw [append_lt_append_iff]
    cases t with
    | nil => exact ⟨fun h => absurd h (List.not_lt_nil _), fun h => absurd rfl h⟩
    | cons c t => exact ⟨fun _ => List.cons_ne_nil _ _, fun _ => List.nil_lt_cons _ _⟩
  · conv => arg 1; rhs; rw [← List.append_nil p]
    rw [append_lt_append_iff]
    exact List.not_lt_nil _

/-- Of two strings, one of which is the start of the other, the shorter is less. -/
theorem prefix_order {p q : List UInt8} (h : p.take p.length = q.take p.length) :
    (p < q ↔ p.length < q.length) ∧ (p = q ↔ p.length = q.length) ∧ ¬q < p := by
  rw [List.take_length] at h
  obtain ⟨t, ht⟩ : ∃ t, q = p ++ t := by
    have hsplit := List.take_append_drop p.length q
    rw [← h] at hsplit
    exact ⟨_, hsplit.symm⟩
  obtain ⟨hlt, hnlt⟩ := lt_append p t
  rw [ht, hlt, List.length_append]
  refine ⟨?_, ?_, hnlt⟩
  · rw [← List.length_pos_iff]
    omega
  · constructor
    · intro he
      have := congrArg List.length he
      rwa [List.length_append] at this
    · intro he
      have ht0 : t = [] := List.length_eq_zero_iff.mp (by omega)
      rw [ht0, List.append_nil]

/-- The first digits of a number of bytes. -/
theorem beNat_append (p q : List UInt8) : beNat (p ++ q) = beNat p * 256 ^ q.length + beNat q := by
  induction p with
  | nil => rw [List.nil_append, beNat, Nat.zero_mul, Nat.zero_add]
  | cons c p ih =>
      rw [List.cons_append, beNat, beNat, ih, List.length_append, pow_add, Nat.add_mul, Nat.mul_assoc, Nat.add_assoc]

theorem beNat_take (p : List UInt8) (k : ℕ) :
    beNat p / 256 ^ (p.length - k) = beNat (p.take k) := by
  have hpos : 0 < 256 ^ (p.length - k) := Nat.pow_pos (by decide)
  have hlt := beNat_lt (p.drop k)
  rw [List.length_drop] at hlt
  conv_lhs => rw [← List.take_append_drop k p, beNat_append, List.take_append_drop, List.length_drop]
  rw [Nat.add_comm, Nat.add_mul_div_right _ _ hpos, Nat.div_eq_of_lt hlt, Nat.zero_add]

/-! ### The comparison -/

/-- A string in memory: its bytes and the three behind them that may be read. -/
structure GCstr where
  data : List UInt8
  trail : List UInt8
  trail_length : trail.length = 3
  len_lt : data.length < 0x7fffff00

/-- `a->len`. -/
def GCstr.len (a : GCstr) : BitVec 32 := BitVec.ofNat 32 a.data.length

/-- Four bytes as a word, the first one on top. -/
def word (c₀ c₁ c₂ c₃ : UInt8) : BitVec 32 := c₀.toBitVec ++ c₁.toBitVec ++ c₂.toBitVec ++ c₃.toBitVec

/-- `*(const uint32_t *)(strdata(a)+i)`, for both orders of the bytes of a word; nothing is read behind the
memory. -/
def load32 (le : Bool) (a : GCstr) (i : BitVec 32) : Option (BitVec 32) :=
  match (a.data ++ a.trail).drop i.toNat with
  | c₀ :: c₁ :: c₂ :: c₃ :: _ => some (if le then word c₃ c₂ c₁ c₀ else word c₀ c₁ c₂ c₃)
  | _ => none

/-- The loop of `lj_str_cmp`, and what follows it. -/
def cmpLoop (le : Bool) (a b : GCstr) (n : BitVec 32) : ℕ → BitVec 32 → Option (BitVec 32)
  | 0, _ => none
  | fuel + 1, i =>
    if i < n then do
      let va ← load32 le a i
      let vb ← load32 le b i
      if va ≠ vb then
        let va := if le then Word.bswap32 va else va
        let vb := if le then Word.bswap32 vb else vb
        let i := i - n
        if (-3 : BitVec 32).sle i then
          let va := va >>> ((32 : BitVec 32) + i <<< 3).toNat
          let vb := vb >>> ((32 : BitVec 32) + i <<< 3).toNat
          if va = vb then some (a.len - b.len) else some (if va < vb then -1 else 1)
        else some (if va < vb then -1 else 1)
      else cmpLoop le a b n fuel (i + 4)
    else some (a.len - b.len)

/-- `lj_str_cmp`.  Each round goes four bytes on. -/
def strCmp (le : Bool) (a b : GCstr) : Option (BitVec 32) :=
  let n := if a.len > b.len then b.len else a.len
  cmpLoop le a b n (n.toNat / 4 + 2) 0

theorem toNat_append_byte {w : ℕ} (x : BitVec w) (c : UInt8) :
    (x ++ c.toBitVec).toNat = x.toNat * 256 + c.toNat := by
  rw [BitVec.toNat_append, Nat.shiftLeft_eq, Nat.mul_comm, UInt8.toNat_toBitVec,
    ← Nat.two_pow_add_eq_or_of_lt (UInt8.toNat_lt c), Nat.mul_comm]

theorem toNat_word (c₀ c₁ c₂ c₃ : UInt8) : (word c₀ c₁ c₂ c₃).toNat = beNat [c₀, c₁, c₂, c₃] := by
  rw [word, toNat_append_byte, toNat_append_byte, toNat_append_byte, UInt8.toNat_toBitVec]
  simp only [beNat, List.length_cons, List.length_nil]
  lia

theorem getLsbD_word (c₀ c₁ c₂ c₃ : UInt8) {j : ℕ} (hj : j < 8) :
    (word c₀ c₁ c₂ c₃).getLsbD j = c₃.toBitVec.getLsbD j ∧
    (word c₀ c₁ c₂ c₃).getLsbD (8 + j) = c₂.toBitVec.getLsbD j ∧
    (word c₀ c₁ c₂ c₃).getLsbD (16 + j) = c₁.toBitVec.getLsbD j ∧
    (word c₀ c₁ c₂ c₃).getLsbD (24 + j) = c₀.toBitVec.getLsbD j := by
  have h16 : 16 + j - 8 = 8 + j := by lia
  have h24 : 24 + j - 8 = 16 + j := by lia
  have h1 : ¬8 + j < 8 := by lia
  have h2 : ¬16 + j < 8 := by lia
  have h3 : ¬24 + j < 8 := by lia
  refine ⟨?_, ?_, ?_, ?_⟩
  · rw [word, BitVec.getLsbD_append, if_pos hj]
  · rw [word, BitVec.getLsbD_append, if_neg h1, Nat.add_sub_cancel_left, BitVec.getLsbD_append, if_pos hj]
  · rw [word, BitVec.getLsbD_append, if_neg h2, h16, BitVec.getLsbD_append, if_neg h1, Nat.add_sub_cancel_left,
      BitVec.getLsbD_append, if_pos hj]
  · rw [word, BitVec.getLsbD_append, if_neg h3, h24, BitVec.getLsbD_append, if_neg h2, h16, BitVec.getLsbD_append,
      if_neg h1, Nat.add_sub_cancel_left]

theorem bswap32_word (c₀ c₁ c₂ c₃ : UInt8) : Word.bswap32 (word c₃ c₂ c₁ c₀) = word c₀ c₁ c₂ c₃ := by
  refine BitVec.eq_of_getLsbD_eq fun i hi => ?_
  obtain ⟨h0, h1, h2, h3⟩ := getLsbD_word c₀ c₁ c₂ c₃ (j := i % 8) (by omega)
  obtain ⟨g0, g1, g2, g3⟩ := getLsbD_word c₃ c₂ c₁ c₀ (j := i % 8) (by omega)
  rw [Word.getLsbD_bswap32 _ hi]
  obtain hq | hq | hq | hq : i / 8 = 0 ∨ i / 8 = 1 ∨ i / 8 = 2 ∨ i / 8 = 3 := by lia
  · have hi : i = i % 8 := by omega
    rw [hq, g3, ← h0, ← hi]
  · have hi : i = 8 + i % 8 := by lia
    rw [hq, g2, ← h1, ← hi]
  · have hi : i = 16 + i % 8 := by lia
    rw [hq, g1, ← h2, ← hi]
  · have hi : i = 24 + i % 8 := by lia
    rw [hq]
    conv_rhs => rw [hi, h3]
    rw [← g0]
    congr 1
    omega

/-! ### One round -/

/-- The word at an offset, in the order of its bytes. -/
theorem load32_eq (le : Bool) (a : GCstr) {i : BitVec 32} (hi : i.toNat < a.data.length) :
    ∃ v, load32 le a i = some (if le then Word.bswap32 v else v) ∧
      (if le then Word.bswap32 (if le then Word.bswap32 v else v) else if le then Word.bswap32 v else v) = v ∧
      v.toNat = beNat (((a.data ++ a.trail).drop i.toNat).take 4) ∧
      (((a.data ++ a.trail).drop i.toNat).take 4).length = 4 := by
  have hlen : 4 ≤ ((a.data ++ a.trail).drop i.toNat).length := by
    rw [List.length_drop, List.length_append, a.trail_length]
    lia
  rw [load32]
  generalize (a.data ++ a.trail).drop i.toNat = m at hlen
  match m, hlen with
  | c₀ :: c₁ :: c₂ :: c₃ :: _, hlen =>
      refine ⟨word c₀ c₁ c₂ c₃, ?_, ?_, toNat_word c₀ c₁ c₂ c₃, rfl⟩
      · cases le with
        | false => rfl
        | true => exact congrArg some (bswap32_word c₃ c₂ c₁ c₀).symm
      · cases le with
        | false => rfl
        | true =>
            rw [if_pos rfl, if_pos rfl, bswap32_word, bswap32_word]

/-- The result says how two strings are ordered. -/
def Orders (r : BitVec 32) (a b : List UInt8) : Prop :=
  (r.slt 0 = true ↔ a < b) ∧ (r = 0 ↔ a = b) ∧ (BitVec.slt 0 r = true ↔ b < a)

/-- A difference at the start decides. -/
theorem orders_of_ne {r p q p' q' : List UInt8} (h : p.length = q.length) {x y : ℕ} (hx : x = beNat p)
    (hy : y = beNat q) (hne : x ≠ y) : Orders (if x < y then -1 else 1) (r ++ (p ++ p')) (r ++ (q ++ q')) := by
  have hpq : p ≠ q := fun he => hne (by rw [hx, hy, he])
  have hne' : r ++ (p ++ p') ≠ r ++ (q ++ q') := by
    intro he
    exact hpq (List.append_inj_left (List.append_cancel_left he) h)
  rw [Orders, append_lt_append_iff, append_lt_append_iff, lt_append_iff h hpq, lt_append_iff h.symm hpq.symm,
    ← beNat_lt_iff h, ← beNat_lt_iff h.symm, ← hx, ← hy, eq_false hne']
  by_cases hlt : x < y
  · rw [if_pos hlt]
    refine ⟨⟨fun _ => hlt, fun _ => by decide⟩, ⟨fun h => absurd h (by decide), False.elim⟩, ?_⟩
    exact ⟨fun h => absurd h (by decide), fun h => by lia⟩
  · rw [if_neg hlt]
    refine ⟨⟨fun h => absurd h (by decide), fun h => absurd h hlt⟩, ⟨fun h => absurd h (by decide), False.elim⟩, ?_⟩
    exact ⟨fun _ => by lia, fun _ => by decide⟩

theorem toNat_len (a : GCstr) : a.len.toNat = a.data.length := by
  have := a.len_lt
  rw [GCstr.len, BitVec.toNat_ofNat, Nat.mod_eq_of_lt (by omega)]

/-- Where all bytes of the shorter string agree, the lengths decide. -/
theorem orders_of_len {a b : GCstr} {n : ℕ} (hn : n = min a.data.length b.data.length)
    (h : a.data.take n = b.data.take n) : Orders (a.len - b.len) a.data b.data := by
  have ha := a.len_lt
  have hb := b.len_lt
  have hint : (a.len - b.len).toInt = a.data.length - b.data.length := by
    have hsub := BitVec.toNat_sub a.len b.len
    rw [toNat_len, toNat_len] at hsub
    rw [BitVec.toInt_eq_toNat_cond, hsub]
    split <;> lia
  have h0 : (0 : BitVec 32).toInt = 0 := rfl
  have hslt : (a.len - b.len).slt 0 = true ↔ a.data.length < b.data.length := by
    rw [BitVec.slt, decide_eq_true_eq, hint, h0]
    lia
  have hzero : a.len - b.len = 0 ↔ a.data.length = b.data.length := by
    rw [← BitVec.toInt_inj, hint, h0]
    lia
  have hgt : BitVec.slt 0 (a.len - b.len) = true ↔ b.data.length < a.data.length := by
    rw [BitVec.slt, decide_eq_true_eq, hint, h0]
    lia
  rw [Orders, hslt, hzero, hgt]
  rcases Nat.le_total a.data.length b.data.length with hle | hle
  · rw [Nat.min_eq_left hle] at hn
    rw [hn] at h
    obtain ⟨hlt, heq, hnlt⟩ := prefix_order h
    exact ⟨hlt.symm, heq.symm, fun hba => by omega, fun hba => absurd hba hnlt⟩
  · rw [Nat.min_eq_right hle] at hn
    rw [hn] at h
    obtain ⟨hlt, heq, hnlt⟩ := prefix_order h.symm
    refine ⟨⟨fun hab => by omega, fun hab => absurd hab hnlt⟩, ?_, hlt.symm⟩
    rw [eq_comm, ← heq, eq_comm]

/-- The bytes from an offset on, and those of them that the word has. -/
theorem take_word {a : GCstr} {i k : ℕ} (hk : k ≤ 4) (hik : i + k ≤ a.data.length) :
    (((a.data ++ a.trail).drop i).take 4).take k = (a.data.drop i).take k ∧
      a.data = a.data.take i ++ ((a.data.drop i).take k ++ a.data.drop (i + k)) := by
  constructor
  · have hle : k ≤ (a.data.drop i).length := by rw [List.length_drop]; lia
    rw [List.take_take, Nat.min_eq_left hk, List.drop_append_of_le_length (by omega),
      List.take_append_of_le_length hle]
  · rw [← List.drop_drop, List.take_append_drop, List.take_append_drop]

/-- The shift of the last word leaves its first bytes. -/
theorem shift_word {i n : BitVec 32} (hi : i < n) (hn : n.toNat < 2 ^ 31) :
    ((-3 : BitVec 32).sle (i - n) = true ↔ n.toNat - i.toNat ≤ 3) ∧
      (n.toNat - i.toNat ≤ 3 → ((32 : BitVec 32) + (i - n) <<< 3).toNat = 8 * (4 - (n.toNat - i.toNat))) := by
  rw [BitVec.lt_def] at hi
  have hsub : (i - n).toNat = 2 ^ 32 - (n.toNat - i.toNat) := by
    rw [BitVec.toNat_sub]
    lia
  have h3 : (-3 : BitVec 32).toInt = -3 := rfl
  have h32 : (32 : BitVec 32).toNat = 32 := rfl
  constructor
  · rw [BitVec.sle, decide_eq_true_eq, h3, BitVec.toInt_eq_toNat_cond, hsub]
    split <;> lia
  · intro h
    rw [BitVec.toNat_add, BitVec.toNat_shiftLeft, hsub, h32, Nat.shiftLeft_eq]
    lia

/-- The rounds of the loop: the bytes before the offset agree. -/
theorem cmpLoop_spec {le : Bool} {a b : GCstr} {n : BitVec 32} (hn : n.toNat = min a.data.length b.data.length) :
    ∀ {fuel : ℕ} {i : BitVec 32}, n.toNat + 4 ≤ i.toNat + 4 * fuel → i.toNat ≤ n.toNat + 3 →
      a.data.take (min i.toNat n.toNat) = b.data.take (min i.toNat n.toNat) →
      ∃ r, cmpLoop le a b n fuel i = some r ∧ Orders r a.data b.data := by
  have ha := a.len_lt
  have hend : a.data.take n.toNat = b.data.take n.toNat → Orders (a.len - b.len) a.data b.data := orders_of_len hn
  obtain ⟨hle, hle'⟩ : n.toNat ≤ a.data.length ∧ n.toNat ≤ b.data.length := by
    rw [hn]
    exact ⟨Nat.min_le_left _ _, Nat.min_le_right _ _⟩
  -- the minimum would be split again by each step of arithmetic
  clear hn
  intro fuel
  induction fuel with
  | zero => intro i hfuel hi _; omega
  | succ fuel ih =>
      intro i hfuel hi heq
      rw [cmpLoop]
      by_cases hin : i < n
      · have hlt : i.toNat < n.toNat := hin
        rw [Nat.min_eq_left (Nat.le_of_lt hlt)] at heq
        obtain ⟨va, hla, hva, hna, hlen⟩ := load32_eq le a (i := i) (by omega)
        obtain ⟨vb, hlb, hvb, hnb, hlen'⟩ := load32_eq le b (i := i) (by omega)
        rw [if_pos hin, hla, hlb]
        dsimp only [bind, Option.bind]
        rw [hva, hvb]
        -- the bytes of the word that belong to both strings
        obtain ⟨k, hk4, hkn, hk⟩ : ∃ k, k ≤ 4 ∧ i.toNat + k ≤ n.toNat ∧ (k = n.toNat - i.toNat ∨ k = 4) :=
          ⟨min 4 (n.toNat - i.toNat), by lia, by lia, by lia⟩
        obtain ⟨hwa, hsa⟩ := take_word (a := a) (i := i.toNat) hk4 (by lia)
        obtain ⟨hwb, hsb⟩ := take_word (a := b) (i := i.toNat) hk4 (by lia)
        have hlenk : ((a.data.drop i.toNat).take k).length = ((b.data.drop i.toNat).take k).length := by
          rw [List.length_take, List.length_take, List.length_drop, List.length_drop]
          lia
        have hdecide : ∀ {x y : ℕ}, x = beNat ((a.data.drop i.toNat).take k) →
            y = beNat ((b.data.drop i.toNat).take k) → x ≠ y → Orders (if x < y then -1 else 1) a.data b.data := by
          intro x y hx hy hxy
          rw [hsa, hsb, heq]
          exact orders_of_ne hlenk hx hy hxy
        have hagree : (a.data.drop i.toNat).take k = (b.data.drop i.toNat).take k →
            a.data.take (i.toNat + k) = b.data.take (i.toNat + k) := by
          intro he
          rw [List.take_add, List.take_add, heq, he]
        by_cases hv : va = vb
        · rw [if_neg (by rw [hv]; exact fun h => h rfl)]
          have hword : ((a.data ++ a.trail).drop i.toNat).take 4 = ((b.data ++ b.trail).drop i.toNat).take 4 :=
            beNat_inj (by rw [hlen, hlen']) (by rw [← hna, ← hnb, hv])
          have hadd : (i + 4).toNat = i.toNat + 4 := by
            have h4 : (4 : BitVec 32).toNat = 4 := rfl
            rw [BitVec.toNat_add, h4]
            lia
          refine ih (by lia) (by lia) ?_
          have hmin : min (i + 4).toNat n.toNat = i.toNat + k := by lia
          rw [hmin]
          exact hagree (by rw [← hwa, ← hwb, hword])
        · have hraw : (if le = true then Word.bswap32 va else va) ≠ if le = true then Word.bswap32 vb else vb := by
            intro he
            rw [← hva, ← hvb, he] at hv
            exact hv rfl
          obtain ⟨hsle, hshift⟩ := shift_word hin (by lia)
          rw [if_pos hraw]
          by_cases h3 : n.toNat - i.toNat ≤ 3
          · have hkm : k = n.toNat - i.toNat := by lia
            have hsa' : (va >>> ((32 : BitVec 32) + (i - n) <<< 3).toNat).toNat = beNat ((a.data.drop i.toNat).take k) := by
              rw [BitVec.toNat_ushiftRight, hshift h3, hna, Nat.shiftRight_eq_div_pow, ← hwa,
                ← beNat_take (((a.data ++ a.trail).drop i.toNat).take 4), hlen, hkm,
                Nat.pow_mul]
            have hsb' : (vb >>> ((32 : BitVec 32) + (i - n) <<< 3).toNat).toNat = beNat ((b.data.drop i.toNat).take k) := by
              rw [BitVec.toNat_ushiftRight, hshift h3, hnb, Nat.shiftRight_eq_div_pow, ← hwb,
                ← beNat_take (((b.data ++ b.trail).drop i.toNat).take 4), hlen', hkm,
                Nat.pow_mul]
            rw [if_pos (hsle.mpr h3)]
            by_cases hs : va >>> ((32 : BitVec 32) + (i - n) <<< 3).toNat = vb >>> ((32 : BitVec 32) + (i - n) <<< 3).toNat
            · rw [if_pos hs]
              have hbytes := beNat_inj hlenk (by rw [← hsa', ← hsb', hs])
              refine ⟨_, rfl, hend ?_⟩
              have hnk : n.toNat = i.toNat + k := by lia
              rw [hnk]
              exact hagree hbytes
            · rw [if_neg hs]
              exact ⟨_, rfl, hdecide hsa' hsb' fun h => hs (BitVec.eq_of_toNat_eq h)⟩
          · have hk4' : k = 4 := by lia
            have hfull : ∀ {p : List UInt8}, p.length = 4 → p.take k = p := by
              intro p hp
              rw [hk4', ← hp, List.take_length]
            rw [if_neg (fun h => h3 (hsle.mp h))]
            rw [hfull hlen] at hwa
            rw [hfull hlen'] at hwb
            exact ⟨_, rfl, hdecide (by rw [hna, hwa]) (by rw [hnb, hwb]) fun h => hv (BitVec.eq_of_toNat_eq h)⟩
      · rw [if_neg hin]
        have hge : n.toNat ≤ i.toNat := Nat.le_of_not_lt hin
        rw [Nat.min_eq_right hge] at heq
        exact ⟨_, rfl, hend heq⟩

/-- **Strings are compared by the order of their bytes**: no byte is read further than three behind the end,
and these and the order of the bytes of a word do not count. -/
theorem strCmp_order (le : Bool) (a b : GCstr) : ∃ r, strCmp le a b = some r ∧ Orders r a.data b.data := by
  have hn : (if a.len > b.len then b.len else a.len).toNat = min a.data.length b.data.length := by
    have hgt : a.len > b.len ↔ b.data.length < a.data.length := by
      rw [gt_iff_lt, BitVec.lt_def, toNat_len, toNat_len]
    split
    · next h => rw [toNat_len, Nat.min_eq_right (Nat.le_of_lt (hgt.mp h))]
    · next h => rw [toNat_len, Nat.min_eq_left (Nat.le_of_not_lt fun h' => h (hgt.mpr h'))]
  have h0 : (0 : BitVec 32).toNat = 0 := rfl
  refine cmpLoop_spec hn ?_ ?_ ?_
  · lia
  · lia
  · rw [h0, Nat.zero_min]
    rfl

end StrCmp
