/-
**The grammar of number strings.**

The scanner is followed along the parts of a numeral: white space, sign, the mantissa with its leading
zeros and its point, the exponent, and the white space behind.  Each loop takes the longest stretch of its
bytes, and the byte behind a part is none that the part goes on with, so the parts are determined.

Main definitions:

* `Strscan.Numeral`, `Strscan.NumberString` — the grammar, for a form of binary numerals;
* `Strscan.Bits`, `Strscan.IntegralBits` — two forms of binary numerals.

Main results:

* `Strscan.scan_mantissa`, `Strscan.scan_mantissa_point`, `Strscan.scan_two_points` — the scan of a mantissa;
* `Strscan.parseExponent_ok_iff` — the scan of an exponent.
-/

import LuaJit.StrscanTotal

set_option relaxedAutoImplicit false
set_option autoImplicit false

namespace Strscan

open StrMatch (isa isdigit charBits)

/-! ### The grammar -/

/-- The classes of bytes. -/
def IsDigit (c : UInt8) : Prop := ch '0' ≤ c ∧ c ≤ ch '9'

def IsXdigit (c : UInt8) : Prop := IsDigit c ∨ ch 'a' ≤ c ∧ c ≤ ch 'f' ∨ ch 'A' ≤ c ∧ c ≤ ch 'F'

def IsBit (c : UInt8) : Prop := c = ch '0' ∨ c = ch '1'

def IsSpace (c : UInt8) : Prop := c = ch ' ' ∨ ch '\t' ≤ c ∧ c ≤ ch '\r'

/-- A letter, given as a small one, in any case: the codes are 32 apart. -/
def Letter (k : Char) (c : UInt8) : Prop := c = ch k ∨ c = ch k - 32

/-- Digits with at most one point, and at least one digit. -/
inductive Mantissa (D : UInt8 → Prop) : List UInt8 → Prop
  | digits {a : List UInt8} : a ≠ [] → (∀ c ∈ a, D c) → Mantissa D a
  | point {a b : List UInt8} : a ++ b ≠ [] → (∀ c ∈ a ++ b, D c) → Mantissa D (a ++ ch '.' :: b)

/-- An optional sign. -/
inductive Sign : List UInt8 → Prop
  | none : Sign []
  | plus : Sign [ch '+']
  | minus : Sign [ch '-']

/-- An optional exponent. -/
inductive Exponent (k : Char) : List UInt8 → Prop
  | none : Exponent k []
  | some {c : UInt8} {sg ds : List UInt8} : Letter k c → Sign sg → ds ≠ [] → (∀ d ∈ ds, IsDigit d) →
      Exponent k (c :: (sg ++ ds))

/-- The words for the values that are no numerals. -/
def words : List (List Char) :=
  [['i', 'n', 'f'], ['i', 'n', 'f', 'i', 'n', 'i', 't', 'y'], ['n', 'a', 'n']]

/-- Numerals, with a form of the digits of a binary one. -/
inductive Numeral (Bin : List UInt8 → Prop) : List UInt8 → Prop
  | dec {m e : List UInt8} : Mantissa IsDigit m → Exponent 'e' e → Numeral Bin (m ++ e)
  | hex {x : UInt8} {m e : List UInt8} : Letter 'x' x → Mantissa IsXdigit m → Exponent 'p' e →
      Numeral Bin (ch '0' :: x :: (m ++ e))
  | bin {x : UInt8} {w : List UInt8} : Letter 'b' x → Bin w → Numeral Bin (ch '0' :: x :: w)
  | word {w : List Char} {s : List UInt8} : w ∈ words → List.Forall₂ Letter w s → Numeral Bin s

/-- A numeral with an optional sign, between white space. -/
inductive NumberString (Bin : List UInt8 → Prop) : List UInt8 → Prop
  | mk {a sg w b : List UInt8} : (∀ c ∈ a, IsSpace c) → Sign sg → Numeral Bin w → (∀ c ∈ b, IsSpace c) →
      NumberString Bin (a ++ (sg ++ (w ++ b)))

/-- One or more binary digits. -/
def Bits (w : List UInt8) : Prop := w ≠ [] ∧ ∀ c ∈ w, IsBit c

/-- The digits of a numeral from the first that is no zero on. -/
def significant (a : List UInt8) : List UInt8 := a.dropWhile (· = ch '0')

/-- Binary digits, of which 64 at most are significant; there may be a point with zeros behind it. -/
inductive IntegralBits : List UInt8 → Prop
  | digits {a : List UInt8} : a ≠ [] → (∀ c ∈ a, IsBit c) → (significant a).length ≤ 64 → IntegralBits a
  | point {a b : List UInt8} : a ++ b ≠ [] → (∀ c ∈ a, IsBit c) → (∀ c ∈ b, c = ch '0') →
      (significant a).length ≤ 64 → IntegralBits (a ++ ch '.' :: b)

instance (c : UInt8) : Decidable (IsDigit c) := inferInstanceAs (Decidable (_ ∧ _))
instance (c : UInt8) : Decidable (IsXdigit c) := inferInstanceAs (Decidable (_ ∨ _))
instance (c : UInt8) : Decidable (IsBit c) := inferInstanceAs (Decidable (_ ∨ _))
instance (c : UInt8) : Decidable (IsSpace c) := inferInstanceAs (Decidable (_ ∨ _))
instance (k : Char) (c : UInt8) : Decidable (Letter k c) := inferInstanceAs (Decidable (_ ∨ _))

/-! ### The character table -/

/-- A property of bytes is checked on their two halves. -/
theorem forall_byte {P : UInt8 → Prop} (h : ∀ a < 16, ∀ b < 16, P (UInt8.ofNat (16 * a + b))) (c : UInt8) :
    P c := by
  have hlt := UInt8.toNat_lt c
  have hc := h (c.toNat / 16) (by omega) (c.toNat % 16) (by omega)
  rwa [Nat.div_add_mod, UInt8.ofNat_toNat] at hc

/-- A property of the indices and entries of a table, entry by entry. -/
def AllFrom (P : ℕ → UInt8 → Prop) : ℕ → List UInt8 → Prop
  | _, [] => True
  | n, v :: l => P n v ∧ AllFrom P (n + 1) l

instance AllFrom.decidable {P : ℕ → UInt8 → Prop} [h : ∀ n v, Decidable (P n v)] :
    ∀ n l, Decidable (AllFrom P n l)
  | _, [] => .isTrue trivial
  | n, v :: l => @instDecidableAnd _ _ (h n v) (AllFrom.decidable (n + 1) l)

theorem AllFrom.getD {P : ℕ → UInt8 → Prop} {l : List UInt8} {i : ℕ} (hi : i < l.length) :
    ∀ {n : ℕ}, AllFrom P n l → P (n + i) (l.getD i 0) := by
  induction l generalizing i with
  | nil => exact absurd hi (Nat.not_lt_zero i)
  | cons v l ih =>
      intro n h
      cases i with
      | zero => exact h.1
      | succ i =>
          rw [List.getD_cons_succ, Nat.add_comm i 1, ← Nat.add_assoc]
          exact ih (Nat.lt_of_succ_lt_succ hi) h.2

/-- The classes of the bytes, checked along the table. -/
theorem byte_class (c : UInt8) : (isdigit c = true ↔ IsDigit c) ∧ (isa c 0x10 = true ↔ IsXdigit c) ∧
    (isspace c = true ↔ IsSpace c) := by
  have htab : AllFrom (fun n v => ((v &&& 0x08 != 0) = true ↔ IsDigit (UInt8.ofNat n)) ∧
      ((v &&& 0x10 != 0) = true ↔ IsXdigit (UInt8.ofNat n)) ∧
      ((v &&& 0x02 != 0) = true ↔ IsSpace (UInt8.ofNat n))) 0 charBits := by decide +kernel
  have hlen : charBits.length = 256 := by
    simp only [charBits, List.length_append, List.length_replicate, List.length_cons, Nat.reduceAdd]
  have hc := htab.getD (i := c.toNat) (by rw [hlen]; exact c.toNat_lt)
  rwa [Nat.zero_add, UInt8.ofNat_toNat] at hc

theorem isdigit_iff (c : UInt8) : isdigit c = true ↔ IsDigit c := (byte_class c).1

theorem isxdigit_iff (c : UInt8) : isa c 0x10 = true ↔ IsXdigit c := (byte_class c).2.1

theorem isspace_iff (c : UInt8) : isspace c = true ↔ IsSpace c := (byte_class c).2.2

theorem isspace_eq_false {c : UInt8} : isspace c = false ↔ ¬IsSpace c := by
  rw [← isspace_iff, Bool.not_eq_true]

/-- The letters that the scanner looks for. -/
def scanLetters : List Char := ['a', 'b', 'e', 'f', 'i', 'l', 'n', 'p', 't', 'u', 'x', 'y']

set_option maxRecDepth 4000 in
/-- The bit of lower case is set, or it is added. -/
theorem or_lower (c : UInt8) : c ||| 0x20 = c ∨ c ||| 0x20 = c + 32 := by
  revert c
  exact forall_byte (by decide)

theorem casecmp_iff {k : Char} (hk : k ∈ scanLetters) (c : UInt8) : casecmp c k = true ↔ Letter k c := by
  have hbit : ch k ||| 0x20 = ch k ∧ (ch k - 32) ||| 0x20 = ch k := by
    simp only [scanLetters, List.mem_cons, List.not_mem_nil, or_false] at hk
    rcases hk with rfl | rfl | rfl | rfl | rfl | rfl | rfl | rfl | rfl | rfl | rfl | rfl <;> decide
  rw [casecmp, beq_iff_eq]
  constructor
  · intro h
    rcases or_lower c with hc | hc
    · exact .inl (hc.symm.trans h)
    · exact .inr (eq_sub_of_add_eq (hc.symm.trans h))
  · rintro (rfl | rfl)
    · exact hbit.1
    · exact hbit.2

/-- No letter that the scanner looks for is white space, or the end of the string. -/
theorem letter_not_space {k : Char} (hk : k ∈ scanLetters) {c : UInt8} (h : Letter k c) :
    isspace c = false ∧ c ≠ 0 := by
  have hc : (isspace (ch k) = false ∧ ch k ≠ 0) ∧ isspace (ch k - 32) = false ∧ ch k - 32 ≠ 0 := by
    simp only [scanLetters, List.mem_cons, List.not_mem_nil, or_false] at hk
    simp only [isspace_eq_false]
    rcases hk with rfl | rfl | rfl | rfl | rfl | rfl | rfl | rfl | rfl | rfl | rfl | rfl <;> decide
  rcases h with rfl | rfl
  · exact hc.1
  · exact hc.2

/-! ### White space, sign and suffix -/

/-- Spaces, and what is behind them. -/
theorem skipSpace_eq (r : List UInt8) : ∀ seen, skipSpace seen r =
    ⟨(r.takeWhile (isspace ·)).reverse ++ seen, r.dropWhile (isspace ·)⟩ := by
  induction r with
  | nil => intro seen; rfl
  | cons c r ih =>
      intro seen
      rw [skipSpace]
      split
      · next hc =>
          rw [ih, List.takeWhile_cons_of_pos hc, List.dropWhile_cons_of_pos hc, List.reverse_cons,
            List.append_assoc]
          rfl
      · next hc =>
          rw [List.takeWhile_cons_of_neg (by simpa using hc), List.dropWhile_cons_of_neg (by simpa using hc)]
          rfl

theorem Ptr.skipSpace_rest (p : Ptr) : p.skipSpace.rest = p.rest.dropWhile (isspace ·) := by
  rw [Ptr.skipSpace, skipSpace_eq]

theorem Ptr.get_zero (p : Ptr) : p.get 0 = p.rest.headD 0 := by
  rw [Ptr.get]
  cases p.rest <;> rfl

/-- Behind white space the string ends. -/
def Ends (t : List UInt8) : Prop := (t.dropWhile (isspace ·)).headD 0 = 0

instance (t : List UInt8) : Decidable (Ends t) := inferInstanceAs (Decidable (_ = _))

theorem ends_iff {t : List UInt8} : Ends t ↔ ∃ b u, t = b ++ u ∧ (∀ c ∈ b, IsSpace c) ∧ u.headD 0 = 0 := by
  constructor
  · intro h
    refine ⟨t.takeWhile (isspace ·), _, (List.takeWhile_append_dropWhile).symm, ?_, h⟩
    intro c hc
    exact (isspace_iff c).mp (List.mem_takeWhile_imp hc)
  · rintro ⟨b, u, rfl, hb, hu⟩
    rw [Ends, List.dropWhile_append_of_pos fun c hc => (isspace_iff c).mpr (hb c hc)]
    cases u with
    | nil => rfl
    | cons c u =>
        rw [List.headD_cons] at hu
        subst hu
        rfl

theorem ends_of_zero {t : List UInt8} (h : t.headD 0 = 0) : Ends t :=
  ends_iff.mpr ⟨[], t, rfl, (fun _ hc => by cases hc), h⟩

theorem not_ends_of_head {t : List UInt8} (h : isspace (t.headD 0) = false) (h0 : t.headD 0 ≠ 0) : ¬Ends t := by
  cases t with
  | nil => exact absurd rfl h0
  | cons c t =>
      rw [List.headD_cons] at h h0
      rw [Ends, List.dropWhile_cons_of_neg (by simpa using h)]
      exact h0

variable {c : Target} {opt : Opt} {p : Ptr} {fmt : StrScanFmt} {neg : Bool}

/-- With the options of a conversion to a number only an integer without a suffix is left. -/
theorem suffixBad_tonum (hfmt : fmt = .u32 ∨ fmt = .i64 ∨ fmt = .u64) : suffixBad optTonum fmt := by
  rcases hfmt with rfl | rfl | rfl <;> decide

theorem suffixLastU_suffix (p : Ptr) (hfmt : fmt = .u32 ∨ fmt = .i64 ∨ fmt = .u64) :
    suffixBad optTonum (suffixLastU p fmt).2 := by
  rw [suffixLastU]
  split
  · exact suffixBad_tonum (by rcases hfmt with rfl | rfl | rfl <;> simp [StrScanFmt.addU32])
  · exact suffixBad_tonum hfmt

theorem suffixL_tonum (fmt : StrScanFmt) :
    casecmp (p.get 0) 'l' = true ∧
        (suffixL c optTonum p fmt = .error .error ∨ ∃ q, suffixL c optTonum p fmt = .ok (q, fmt.addI64)) ∨
      casecmp (p.get 0) 'l' = false ∧ suffixL c optTonum p fmt = .ok (p, fmt) := by
  have hc : has optTonum optC = false := rfl
  rw [suffixL, hc]
  cases hl : casecmp (p.get 0) 'l' with
  | true =>
      rw [if_pos rfl]
      dsimp only
      split
      · exact .inl ⟨rfl, .inr ⟨_, rfl⟩⟩
      · exact .inl ⟨rfl, .inl rfl⟩
  | false => exact .inr ⟨rfl, if_neg (by decide)⟩

theorem integerSuffix_tonum : integerSuffix c optTonum p =
    if casecmp (p.get 0) 'u' ∨ casecmp (p.get 0) 'l' then .error .error else .ok (p, .int) := by
  have hfinish : ∀ (q : Ptr) (fmt : StrScanFmt), fmt = .u32 ∨ fmt = .i64 ∨ fmt = .u64 →
      (if suffixBad optTonum (suffixLastU q fmt).2 then .error .error
        else .ok ((suffixLastU q fmt).1, (suffixLastU q fmt).2)) =
        (Except.error Err.error : Except Err (Ptr × StrScanFmt)) :=
    fun q fmt h => if_pos (suffixLastU_suffix q h)
  rw [integerSuffix, suffixU]
  by_cases hu : casecmp (p.get 0) 'u' = true
  · rw [if_pos hu, if_pos (.inl hu)]
    rcases @suffixL_tonum c p.next .u32 with ⟨-, h | ⟨q, h⟩⟩ | ⟨-, h⟩
    · dsimp only
      rw [h]
      rfl
    · dsimp only
      rw [h]
      exact hfinish q .u64 (.inr (.inr rfl))
    · dsimp only
      rw [h]
      exact hfinish p.next .u32 (.inl rfl)
  · rw [if_neg hu]
    rcases @suffixL_tonum c p .int with ⟨hl, h | ⟨q, h⟩⟩ | ⟨hl, h⟩
    · dsimp only
      rw [h, if_pos (.inr hl)]
      rfl
    · dsimp only
      rw [h, if_pos (.inr hl)]
      exact hfinish q .i64 (.inr (.inl rfl))
    · have hlast : suffixLastU p .int = (p, .int) := if_neg (fun h => hu h.1)
      dsimp only
      rw [h, if_neg (fun h => h.elim hu (by rw [hl]; decide))]
      dsimp only [bind, Except.bind]
      rw [hlast]
      exact if_neg (show ¬suffixBad optTonum .int by decide)

theorem u_mem : 'u' ∈ scanLetters := by decide
theorem l_mem : 'l' ∈ scanLetters := by decide
theorem i_mem : 'i' ∈ scanLetters := by decide

/-- Behind a letter the string does not end. -/
theorem not_ends_of_casecmp {k : Char} (hk : k ∈ scanLetters) (h : casecmp (p.get 0) k = true) :
    ¬Ends p.rest := by
  obtain ⟨hs, h0⟩ := letter_not_space hk ((casecmp_iff hk _).mp h)
  rw [Ptr.get_zero] at hs h0
  exact not_ends_of_head hs h0

/-- A number has no suffix: only white space may follow. -/
theorem parseSuffix_tonum (hfmt : fmt = .int ∨ fmt = .num) :
    parseSuffix c optTonum fmt p = if Ends p.rest then .ok fmt else .error .error := by
  have hi : has optTonum optImag = false := rfl
  have hspace : ∀ q : Ptr, (if q.skipSpace.get 0 ≠ 0 then (.error .error : Except Err StrScanFmt) else .ok fmt) =
      if Ends q.rest then .ok fmt else .error .error := by
    intro q
    rw [Ptr.get_zero, Ptr.skipSpace_rest, ite_not]
    rfl
  rw [parseSuffix]
  by_cases h0 : p.get 0 = 0
  · rw [if_neg (fun h => h h0), if_pos (ends_of_zero (by rw [← Ptr.get_zero]; exact h0))]
  · rw [if_pos h0, hi]
    cases hci : casecmp (p.get 0) 'i' with
    | true =>
        rw [if_neg (not_ends_of_casecmp i_mem hci)]
        rfl
    | false =>
        rw [if_neg (by decide)]
        rcases hfmt with rfl | rfl
        · rw [if_pos rfl, integerSuffix_tonum]
          split
          · next h =>
              have hne : ¬Ends p.rest := by
                rcases h with h | h
                · exact not_ends_of_casecmp u_mem h
                · exact not_ends_of_casecmp l_mem h
              rw [if_neg hne]
              rfl
          · exact hspace p
        · rw [if_neg (by decide)]
          exact hspace p

/-! ### The mantissa -/

/-- Leading zeros are skipped. -/
theorem scanZeros_zeros {z : List UInt8} : ∀ {seen r : List UInt8} {hasdig : Bool} {dp : Option ℕ},
    (∀ c ∈ z, c = ch '0') →
    scanZeros seen (z ++ r) hasdig dp = scanZeros (z.reverse ++ seen) r (hasdig || !z.isEmpty) dp := by
  induction z with
  | nil =>
      intro seen r hasdig dp _
      rw [List.isEmpty_nil, Bool.not_true, Bool.or_false]
      rfl
  | cons c z ih =>
      intro seen r hasdig dp h
      have hc : c = ch '0' := h c List.mem_cons_self
      rw [List.cons_append, scanZeros, if_pos hc, ih fun d hd => h d (List.mem_cons_of_mem _ hd), List.reverse_cons,
        List.append_assoc, Bool.true_or, List.isEmpty_cons, Bool.not_false, Bool.or_true]
      rfl

theorem scanZeros_stop {seen r : List UInt8} {hasdig : Bool} {dp : Option ℕ} (h0 : r.headD 0 ≠ ch '0')
    (hpt : r.headD 0 ≠ ch '.') : scanZeros seen r hasdig dp = .ok (⟨seen, r⟩, hasdig, dp) := by
  cases r with
  | nil => rfl
  | cons c r =>
      rw [List.headD_cons] at h0 hpt
      rw [scanZeros, if_neg h0, if_neg hpt]

/-- A point is taken once. -/
theorem scanZeros_point {seen r : List UInt8} {hasdig : Bool} {dp : Option ℕ} :
    scanZeros seen (ch '.' :: r) hasdig dp =
      if dp.isSome then .error .error else scanZeros (ch '.' :: seen) r hasdig (some seen.length) := by
  rw [scanZeros, if_neg (by decide), if_pos rfl]

/-- The value that is accumulated for the fast path. -/
def accum (x : ℕ) (ds : List UInt8) : ℕ := ds.foldl (fun x c => (x * 10 + c.toNat % 16) % 2 ^ 32) x

section Digits

variable {cmask : UInt8} {seen r : List UInt8} {x dig : ℕ} {dp : Option ℕ}

theorem scanDigits_digits {ds : List UInt8} : ∀ {seen : List UInt8} {x dig : ℕ},
    (∀ c ∈ ds, isa c cmask = true) →
    scanDigits cmask seen (ds ++ r) x dig dp =
      scanDigits cmask (ds.reverse ++ seen) r (accum x ds) (dig + ds.length) dp := by
  induction ds with
  | nil => intro _ _ _ _; rfl
  | cons c ds ih =>
      intro seen x dig h
      rw [List.cons_append, scanDigits, if_pos (h c List.mem_cons_self),
        ih fun d hd => h d (List.mem_cons_of_mem _ hd), List.reverse_cons, List.append_assoc,
        List.length_cons, Nat.add_right_comm, Nat.add_assoc]
      rfl

theorem scanDigits_stop (h : isa (r.headD 0) cmask = false) (hpt : r.headD 0 ≠ ch '.') :
    scanDigits cmask seen r x dig dp = .ok (⟨seen, r⟩, x, dig, dp) := by
  cases r with
  | nil => rfl
  | cons c r =>
      rw [List.headD_cons] at h hpt
      rw [scanDigits, if_neg (by rw [h]; decide), if_neg hpt]

theorem scanDigits_point (hpt : isa (ch '.') cmask = false) :
    scanDigits cmask seen (ch '.' :: r) x dig dp =
      if dp.isSome then .error .error
      else scanDigits cmask (ch '.' :: seen) r x dig (some seen.length) := by
  rw [scanDigits, if_neg (by rw [hpt]; decide), if_pos rfl]

end Digits

/-- A class of digits of the scanner: the zero is one, and the point and the end of the string are not. -/
structure Class (cmask : UInt8) : Prop where
  zero : isa (ch '0') cmask = true
  point : isa (ch '.') cmask = false
  nul : isa 0 cmask = false

theorem class_digit : Class 0x08 := ⟨by decide, by decide, by decide⟩

theorem class_xdigit : Class 0x10 := ⟨by decide, by decide, by decide⟩

/-- What stands behind a mantissa: neither a digit nor a point. -/
def Behind (cmask : UInt8) (t : List UInt8) : Prop := isa (t.headD 0) cmask = false ∧ t.headD 0 ≠ ch '.'

theorem Behind.ne_zero {cmask : UInt8} {t : List UInt8} (hc : Class cmask) (h : Behind cmask t) :
    t.headD 0 ≠ ch '0' := by
  intro h0
  have := h.1
  rw [h0, hc.zero] at this
  cases this

/-- The zeros that a numeral begins with. -/
theorem zeros_significant (a : List UInt8) :
    a.takeWhile (· = ch '0') ++ significant a = a ∧ (∀ c ∈ a.takeWhile (· = ch '0'), c = ch '0') ∧
      (significant a ≠ [] → (significant a).headD 0 ≠ ch '0') := by
  refine ⟨List.takeWhile_append_dropWhile, fun c hc => ?_, fun hne h0 => ?_⟩
  · simpa using List.mem_takeWhile_imp hc
  · have hhead := List.head_dropWhile_not (fun c => decide (c = ch '0')) hne
    obtain ⟨c, cs, hcs⟩ := List.exists_cons_of_ne_nil hne
    have hc : (significant a).headD 0 = (significant a).head hne := by
      rw [List.headD_eq_head?_getD, List.head?_eq_some_head hne]
      rfl
    rw [hc] at h0
    unfold significant at h0
    rw [h0] at hhead
    simp at hhead

theorem significant_append (a b : List UInt8) :
    significant (a ++ b) = if significant a = [] then significant b else significant a ++ b := by
  rw [significant, List.dropWhile_append]
  simp only [List.isEmpty_iff]
  rfl

section Mantissa

variable {cmask : UInt8} {a b t : List UInt8}

theorem mem_significant {c : UInt8} (h : c ∈ significant a) : c ∈ a := List.dropWhile_subset _ h

/-- The zeros and the digits of a numeral are empty together with it. -/
theorem no_digits : ((!(a.takeWhile (· = ch '0')).isEmpty) = false ∧ (significant a).length = 0) ↔ a = [] := by
  obtain ⟨hsplit, -, -⟩ := zeros_significant a
  constructor
  · rintro ⟨hz, hs⟩
    rw [Bool.not_eq_false', List.isEmpty_iff] at hz
    rw [← hsplit, hz, List.length_eq_zero_iff.mp hs]
    rfl
  · rintro rfl
    exact ⟨rfl, rfl⟩

/-- Before its first significant digit a numeral has no other byte that the skipping of zeros takes. -/
theorem significant_head (hc : Class cmask) (ha : ∀ c ∈ a, isa c cmask = true) (r : List UInt8)
    (hr : significant a = [] → r.headD 0 ≠ ch '0' ∧ r.headD 0 ≠ ch '.') :
    (significant a ++ r).headD 0 ≠ ch '0' ∧ (significant a ++ r).headD 0 ≠ ch '.' := by
  obtain ⟨-, -, hhead⟩ := zeros_significant a
  cases hs : significant a with
  | nil => exact hr hs
  | cons d ds =>
      have hd := hhead (by rw [hs]; exact List.cons_ne_nil _ _)
      rw [hs, List.headD_cons] at hd
      refine ⟨hd, fun hpt => ?_⟩
      have hmem : d ∈ a := mem_significant (by rw [hs]; exact List.mem_cons_self)
      rw [List.cons_append, List.headD_cons] at hpt
      have := ha d hmem
      rw [hpt, hc.point] at this
      cases this

/-- The scan of a mantissa without a point. -/
theorem scan_mantissa (hc : Class cmask) (ha : ∀ c ∈ a, isa c cmask = true) (ht : Behind cmask t)
    (seen : List UInt8) :
    ∃ hasdig seen', scanZeros seen (a ++ t) false none = .ok (⟨seen', significant a ++ t⟩, hasdig, none) ∧
      scanDigits cmask seen' (significant a ++ t) 0 0 none =
        .ok (⟨a.reverse ++ seen, t⟩, accum 0 (significant a), (significant a).length, none) ∧
      (hasdig = false ∧ (significant a).length = 0 ↔ a = []) := by
  obtain ⟨hsplit, hz, -⟩ := zeros_significant a
  obtain ⟨h0, hpt⟩ := significant_head hc ha t (fun _ => ⟨ht.ne_zero hc, ht.2⟩)
  refine ⟨!(a.takeWhile (· = ch '0')).isEmpty, (a.takeWhile (· = ch '0')).reverse ++ seen, ?_, ?_, no_digits⟩
  · conv_lhs => rw [← hsplit, List.append_assoc]
    rw [scanZeros_zeros hz, Bool.false_or, scanZeros_stop h0 hpt]
  · rw [scanDigits_digits (fun c hcm => ha c (mem_significant hcm)), scanDigits_stop ht.1 ht.2, Nat.zero_add,
      ← List.append_assoc, ← List.reverse_append, hsplit]

/-- The scan of a mantissa with a point. -/
theorem scan_mantissa_point (hc : Class cmask) (ha : ∀ c ∈ a ++ b, isa c cmask = true) (ht : Behind cmask t)
    (seen : List UInt8) :
    ∃ hasdig seen' sp dp, scanZeros seen (a ++ ch '.' :: (b ++ t)) false none = .ok (⟨seen', sp⟩, hasdig, dp) ∧
      scanDigits cmask seen' sp 0 0 dp =
        .ok (⟨b.reverse ++ ch '.' :: (a.reverse ++ seen), t⟩, accum 0 (significant (a ++ b)),
          (significant (a ++ b)).length, some (seen.length + a.length)) ∧
      (hasdig = false ∧ (significant (a ++ b)).length = 0 ↔ a ++ b = []) ∧
      sp = if significant a = [] then significant b ++ t else significant a ++ ch '.' :: (b ++ t) := by
  have haa : ∀ c ∈ a, isa c cmask = true := fun c h => ha c (List.mem_append_left _ h)
  have hab : ∀ c ∈ b, isa c cmask = true := fun c h => ha c (List.mem_append_right _ h)
  obtain ⟨hsplit, hz, -⟩ := zeros_significant a
  obtain ⟨hsplitb, hzb, -⟩ := zeros_significant b
  rw [significant_append]
  by_cases hs : significant a = []
  · obtain ⟨h0, hpt⟩ := significant_head hc hab t (fun _ => ⟨ht.ne_zero hc, ht.2⟩)
    have hza : a.takeWhile (· = ch '0') = a := by rw [hs, List.append_nil] at hsplit; exact hsplit
    rw [hza] at hz
    refine ⟨!a.isEmpty || !(b.takeWhile (· = ch '0')).isEmpty,
      (b.takeWhile (· = ch '0')).reverse ++ (ch '.' :: (a.reverse ++ seen)), significant b ++ t,
      some (seen.length + a.length), ?_, ?_, ?_, (if_pos hs).symm⟩
    · rw [scanZeros_zeros hz, Bool.false_or, scanZeros_point, if_neg (by decide), List.length_append,
        List.length_reverse, Nat.add_comm a.length]
      conv_lhs => rw [← hsplitb, List.append_assoc]
      rw [scanZeros_zeros hzb, scanZeros_stop h0 hpt]
    · rw [if_pos hs, scanDigits_digits (fun c hcm => hab c (mem_significant hcm)), scanDigits_stop ht.1 ht.2,
        Nat.zero_add, ← List.append_assoc, ← List.reverse_append, hsplitb]
    · rw [if_pos hs, Bool.or_eq_false_iff, and_assoc, no_digits, Bool.not_eq_false', List.isEmpty_iff,
        List.append_eq_nil_iff]
  · obtain ⟨h0, hpt⟩ := significant_head hc haa (ch '.' :: (b ++ t)) (fun h => absurd h hs)
    refine ⟨!(a.takeWhile (· = ch '0')).isEmpty, (a.takeWhile (· = ch '0')).reverse ++ seen,
      significant a ++ ch '.' :: (b ++ t), none, ?_, ?_, ?_, (if_neg hs).symm⟩
    · conv_lhs => rw [← hsplit, List.append_assoc]
      rw [scanZeros_zeros hz, Bool.false_or, scanZeros_stop h0 hpt]
    · have hrev : (significant a).reverse ++ ((a.takeWhile (· = ch '0')).reverse ++ seen) = a.reverse ++ seen := by
        rw [← List.append_assoc, ← List.reverse_append, hsplit]
      have hlen : (a.reverse ++ seen).length = seen.length + a.length := by
        rw [List.length_append, List.length_reverse, Nat.add_comm]
      rw [if_neg hs, scanDigits_digits (fun c hcm => haa c (mem_significant hcm)), hrev,
        scanDigits_point hc.point, if_neg (by decide), scanDigits_digits hab, scanDigits_stop ht.1 ht.2, hlen,
        Nat.zero_add, List.length_append, accum, accum, accum, List.foldl_append]
    · have hlen : (if significant a = [] then significant b else significant a ++ b).length ≠ 0 := by
        rw [if_neg hs, List.length_append]
        have := List.length_pos_of_ne_nil hs
        omega
      refine ⟨fun h => absurd h.2 hlen, fun h => absurd ?_ hs⟩
      rw [(List.append_eq_nil_iff.mp h).1]
      rfl

/-- A second point is an error. -/
theorem scan_two_points (hc : Class cmask) (ha : ∀ c ∈ a ++ b, isa c cmask = true) (seen : List UInt8) :
    scanZeros seen (a ++ ch '.' :: (b ++ ch '.' :: t)) false none = .error .error ∨
      ∃ q hasdig dp, scanZeros seen (a ++ ch '.' :: (b ++ ch '.' :: t)) false none = .ok (q, hasdig, dp) ∧
        scanDigits cmask q.seen q.rest 0 0 dp = .error .error := by
  have haa : ∀ c ∈ a, isa c cmask = true := fun c h => ha c (List.mem_append_left _ h)
  have hab : ∀ c ∈ b, isa c cmask = true := fun c h => ha c (List.mem_append_right _ h)
  obtain ⟨hsplit, hz, -⟩ := zeros_significant a
  obtain ⟨hsplitb, hzb, -⟩ := zeros_significant b
  by_cases hs : significant a = []
  · have hza : a.takeWhile (· = ch '0') = a := by rw [hs, List.append_nil] at hsplit; exact hsplit
    rw [hza] at hz
    have hstart : ∃ seen' hasdig n, scanZeros seen (a ++ ch '.' :: (b ++ ch '.' :: t)) false none =
        scanZeros seen' (significant b ++ ch '.' :: t) hasdig (some n) := by
      refine ⟨(b.takeWhile (· = ch '0')).reverse ++ (ch '.' :: (a.reverse ++ seen)),
        !a.isEmpty || !(b.takeWhile (· = ch '0')).isEmpty, (a.reverse ++ seen).length, ?_⟩
      rw [scanZeros_zeros hz, Bool.false_or, scanZeros_point, if_neg (by decide)]
      conv_lhs => rw [← hsplitb, List.append_assoc]
      rw [scanZeros_zeros hzb]
    obtain ⟨seen', hasdig, n, hstart⟩ := hstart
    rw [hstart]
    by_cases hsb : significant b = []
    · rw [hsb, List.nil_append, scanZeros_point]
      exact .inl (if_pos rfl)
    · obtain ⟨h0, hpt⟩ := significant_head hc hab (ch '.' :: t) (fun h => absurd h hsb)
      rw [scanZeros_stop h0 hpt]
      refine .inr ⟨_, _, _, rfl, ?_⟩
      rw [scanDigits_digits (fun c hcm => hab c (mem_significant hcm)), scanDigits_point hc.point]
      exact if_pos rfl
  · obtain ⟨h0, hpt⟩ := significant_head hc haa (ch '.' :: (b ++ ch '.' :: t)) (fun h => absurd h hs)
    have hstart : scanZeros seen (a ++ ch '.' :: (b ++ ch '.' :: t)) false none =
        .ok (⟨(a.takeWhile (· = ch '0')).reverse ++ seen, significant a ++ ch '.' :: (b ++ ch '.' :: t)⟩,
          !(a.takeWhile (· = ch '0')).isEmpty, none) := by
      conv_lhs => rw [← hsplit, List.append_assoc]
      rw [scanZeros_zeros hz, Bool.false_or, scanZeros_stop h0 hpt]
    refine .inr ⟨_, _, _, hstart, ?_⟩
    rw [scanDigits_digits (fun c hcm => haa c (mem_significant hcm)), scanDigits_point hc.point,
      if_neg (by decide), scanDigits_digits hab, scanDigits_point hc.point]
    exact if_pos rfl

end Mantissa

/-- A text begins with digits and at most two points. -/
theorem mantissa_split {cmask : UInt8} (hc : Class cmask) (r : List UInt8) :
    (∃ a t, r = a ++ t ∧ (∀ c ∈ a, isa c cmask = true) ∧ Behind cmask t) ∨
    (∃ a b t, r = a ++ ch '.' :: (b ++ t) ∧ (∀ c ∈ a ++ b, isa c cmask = true) ∧ Behind cmask t) ∨
    ∃ a b t, r = a ++ ch '.' :: (b ++ ch '.' :: t) ∧ ∀ c ∈ a ++ b, isa c cmask = true := by
  have hsplit : ∀ r : List UInt8, ∃ a t, r = a ++ t ∧ (∀ c ∈ a, isa c cmask = true) ∧
      isa (t.headD 0) cmask = false := by
    intro r
    refine ⟨r.takeWhile (isa · cmask), r.dropWhile (isa · cmask), List.takeWhile_append_dropWhile.symm,
      fun c hcm => by have := List.mem_takeWhile_imp hcm; exact this, ?_⟩
    by_cases hne : r.dropWhile (isa · cmask) = []
    · rw [hne]
      exact hc.nul
    · rw [List.headD_eq_head?_getD, List.head?_eq_some_head hne]
      exact List.head_dropWhile_not (isa · cmask) hne
  obtain ⟨a, t, rfl, ha, ht⟩ := hsplit r
  by_cases hpt : t.headD 0 = ch '.'
  · obtain ⟨t', rfl⟩ : ∃ t', t = ch '.' :: t' := by
      cases t with
      | nil => exact absurd hpt (by decide)
      | cons c t' => exact ⟨t', by rw [← hpt]; rfl⟩
    obtain ⟨b, u, rfl, hb, hu⟩ := hsplit t'
    have hab : ∀ c ∈ a ++ b, isa c cmask = true := fun c hcm => (List.mem_append.mp hcm).elim (ha c) (hb c)
    by_cases hpt' : u.headD 0 = ch '.'
    · obtain ⟨u', rfl⟩ : ∃ u', u = ch '.' :: u' := by
        cases u with
        | nil => exact absurd hpt' (by decide)
        | cons c u' => exact ⟨u', by rw [← hpt']; rfl⟩
      exact .inr (.inr ⟨a, b, u', rfl, hab⟩)
    · exact .inr (.inl ⟨a, b, u, rfl, hab, hu, hpt'⟩)
  · exact .inl ⟨a, t, rfl, ha, ht, hpt⟩

/-! ### Sign and exponent -/

theorem Ptr.next_rest (p : Ptr) : p.next.rest = p.rest.tail := by
  rw [Ptr.next]
  split
  · next h => rw [h]; rfl
  · next h => rw [h]; rfl

/-- What the sign leaves. -/
theorem parseSign_split (p : Ptr) : ∃ sg, Sign sg ∧ p.rest = sg ++ (parseSign p).2.rest := by
  rw [parseSign, Ptr.get_zero]
  split
  · next h =>
      rw [Ptr.next_rest]
      obtain ⟨c, r, hr⟩ : ∃ c r, p.rest = c :: r := by
        cases hr : p.rest with
        | nil => rw [hr] at h; exact absurd h (by decide)
        | cons c r => exact ⟨c, r, rfl⟩
      rw [hr, List.headD_cons] at h
      rcases h with rfl | rfl
      · exact ⟨_, .plus, by rw [hr]; rfl⟩
      · exact ⟨_, .minus, by rw [hr]; rfl⟩
  · exact ⟨[], .none, rfl⟩

/-- A sign that no other sign follows is taken. -/
theorem parseSign_rest {p : Ptr} {sg r : List UInt8} (hsg : Sign sg) (hp : p.rest = sg ++ r)
    (hr : r.headD 0 ≠ ch '+' ∧ r.headD 0 ≠ ch '-') : (parseSign p).2.rest = r := by
  rw [parseSign, Ptr.get_zero, hp]
  cases hsg with
  | none => rw [List.nil_append, if_neg (fun h => h.elim hr.1 hr.2)]; exact hp
  | plus => rw [if_pos (.inl rfl), Ptr.next_rest, hp]; rfl
  | minus => rw [if_pos (.inr rfl), Ptr.next_rest, hp]; rfl

theorem scanExponent_rest (r : List UInt8) : ∀ seen xx,
    (scanExponent seen r xx).1.rest = r.dropWhile (isdigit ·) := by
  induction r with
  | nil => intro _ _; rfl
  | cons c r ih =>
      intro seen xx
      rw [scanExponent]
      split
      · next hc => rw [ih, List.dropWhile_cons_of_pos hc]
      · next hc => rw [List.dropWhile_cons_of_neg hc]

/-- An exponent is a sign and digits; the rest does not begin with a digit. -/
theorem parseExponent_ok_iff {p : Ptr} {ex : ℤ} {t : List UInt8} :
    (∃ q ex', parseExponent p ex = .ok (q, ex') ∧ q.rest = t) ↔
      ∃ sg ds, p.rest = sg ++ (ds ++ t) ∧ Sign sg ∧ ds ≠ [] ∧ (∀ d ∈ ds, IsDigit d) ∧
        isdigit (t.headD 0) = false := by
  have hrun : ∀ r, (parseSign p).2.rest = r →
      ((∃ q ex', parseExponent p ex = .ok (q, ex') ∧ q.rest = t) ↔
        isdigit (r.headD 0) = true ∧ r.tail.dropWhile (isdigit ·) = t) := by
    rintro r rfl
    rw [parseExponent]
    dsimp only
    rw [Ptr.get_zero]
    cases hd : isdigit ((parseSign p).2.rest.headD 0) with
    | false =>
        rw [if_pos (by decide)]
        constructor
        · rintro ⟨_, _, h, _⟩
          cases h
        · rintro ⟨h, -⟩
          cases h
    | true =>
        rw [if_neg (by decide)]
        constructor
        · rintro ⟨q, ex', h, ht⟩
          cases h
          rw [scanExponent_rest, Ptr.next_rest] at ht
          exact ⟨rfl, ht⟩
        · rintro ⟨-, ht⟩
          refine ⟨_, _, rfl, ?_⟩
          rw [scanExponent_rest, Ptr.next_rest]
          exact ht
  rw [hrun _ rfl]
  constructor
  · rintro ⟨hd, ht⟩
    obtain ⟨sg, hsg, hp⟩ := parseSign_split p
    obtain ⟨d, r, hr⟩ : ∃ d r, (parseSign p).2.rest = d :: r := by
      cases hr : (parseSign p).2.rest with
      | nil => rw [hr] at hd; exact absurd hd (by decide)
      | cons d r => exact ⟨d, r, rfl⟩
    rw [hr] at hd ht hp
    rw [List.headD_cons] at hd
    rw [List.tail_cons] at ht
    refine ⟨sg, d :: r.takeWhile (isdigit ·), ?_, hsg, List.cons_ne_nil _ _, ?_, ?_⟩
    · rw [hp, ← ht, List.cons_append, List.takeWhile_append_dropWhile]
    · intro e he
      rcases List.mem_cons.mp he with rfl | he
      · exact (isdigit_iff _).mp hd
      · exact (isdigit_iff _).mp (by have := List.mem_takeWhile_imp he; exact this)
    · rw [← ht]
      by_cases hne : r.dropWhile (isdigit ·) = []
      · rw [hne]
        decide
      · rw [List.headD_eq_head?_getD, List.head?_eq_some_head hne]
        exact List.head_dropWhile_not (isdigit ·) hne
  · rintro ⟨sg, ds, hp, hsg, hne, hds, ht⟩
    obtain ⟨d, es, rfl⟩ := List.exists_cons_of_ne_nil hne
    have hd : isdigit d = true := (isdigit_iff d).mpr (hds d List.mem_cons_self)
    have hrest : (parseSign p).2.rest = d :: (es ++ t) := by
      refine parseSign_rest hsg hp ⟨fun h => ?_, fun h => ?_⟩ <;> rw [List.headD_cons] at h <;>
        rw [h] at hd <;> exact absurd hd (by decide)
    rw [hrest]
    refine ⟨hd, ?_⟩
    rw [List.tail_cons, List.dropWhile_append_of_pos fun e he =>
      (isdigit_iff e).mpr (hds e (List.mem_cons_of_mem _ he))]
    cases t with
    | nil => rfl
    | cons e t => exact List.dropWhile_cons_of_neg (by rw [List.headD_cons] at ht; rw [ht]; decide)

end Strscan
