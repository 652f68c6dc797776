/-
**The strings that are numbers.**

The conversion to a number takes white space, a sign, a numeral and white space, and then the string must
end.  For every branch of the scanner the texts that it takes are those of the grammar, followed by an end.
The scanner sees a C string: it ends with its first zero byte.

Main results:

* `Strscan.parseDigits_iff` — a decimal or a hexadecimal numeral behind its prefix;
* `Strscan.parseDigits_bin_iff` — a binary one;
* `Strscan.strscanNum_iff` — **the strings that are numbers**.
-/

import LuaJit.StrscanGram

set_option relaxedAutoImplicit false
set_option autoImplicit false

namespace Strscan

open StrMatch (isa isdigit)

variable {c : Target} {opt : Opt} {p : Ptr} {fmt : StrScanFmt} {neg : Bool}

/-- A computation that has a result has one in every step. -/
theorem exists_bind_ok {α β : Type} {x : Except Err α} {f : α → Except Err β} :
    (∃ r, (x >>= f) = .ok r) ↔ ∃ a, x = .ok a ∧ ∃ r, f a = .ok r := by
  cases x with
  | error e =>
      constructor
      · rintro ⟨_, h⟩
        cases h
      · rintro ⟨_, h, _⟩
        cases h
  | ok a =>
      constructor
      · rintro ⟨r, h⟩
        exact ⟨a, rfl, r, h⟩
      · rintro ⟨_, h, r, hr⟩
        cases h
        exact ⟨r, hr⟩

theorem not_error_ok {α : Type} : ¬∃ r, (.error .error : Except Err α) = .ok r := by
  rintro ⟨_, h⟩
  cases h

/-! ### The end of a number -/

/-- A number ends before white space or a zero byte. -/
theorem Ends.head {t : List UInt8} (h : Ends t) : isspace (t.headD 0) = true ∨ t.headD 0 = 0 := by
  by_contra hne
  rw [not_or, Bool.not_eq_true] at hne
  exact not_ends_of_head hne.1 hne.2 h

/-- The ranges of bytes against each other. -/
theorem byte_ranges (c : UInt8) :
    (IsSpace c → ¬IsDigit c ∧ ¬IsXdigit c ∧ c ≠ ch '.') ∧
    (IsXdigit c → c ≠ ch '0' → c ≠ ch '.' ∧ c.toNat % 16 ≠ 0) ∧
    (IsDigit c ∨ c = ch '.' → ¬IsSpace c ∧ c ≠ ch '+' ∧ c ≠ ch '-' ∧ ¬c ≥ ch 'A') ∧
    (c ≥ ch 'A' → ¬IsSpace c ∧ c ≠ 0) := by
  simp only [IsSpace, IsXdigit, IsDigit, ge_iff_le, ne_eq, UInt8.le_iff_toNat_le, ← UInt8.toNat_inj, ch,
    UInt8.toNat_ofNat', Char.reduceToNat, Nat.reducePow, Nat.reduceMod, UInt8.toNat_zero]
  omega

theorem isa_digit {c : UInt8} : isa c 0x08 = false ↔ ¬IsDigit c := by
  rw [← isdigit_iff, Bool.not_eq_true, isdigit]

theorem isa_xdigit {c : UInt8} : isa c 0x10 = false ↔ ¬IsXdigit c := by
  rw [← isxdigit_iff, Bool.not_eq_true]

/-- White space and the end of the string are no digits and no point. -/
theorem space_or_nul {c : UInt8} (h : isspace c = true ∨ c = 0) :
    isa c 0x08 = false ∧ isa c 0x10 = false ∧ c ≠ ch '.' := by
  rcases h with h | rfl
  · obtain ⟨hd, hx, hp⟩ := (byte_ranges c).1 ((isspace_iff c).mp h)
    exact ⟨isa_digit.mpr hd, isa_xdigit.mpr hx, hp⟩
  · decide

theorem Ends.not_digit {t : List UInt8} (h : Ends t) : isdigit (t.headD 0) = false :=
  (space_or_nul h.head).1

/-- The letter of the exponent is not a digit of its base. -/
theorem letter_class : (∀ c : UInt8, Letter 'e' c → isa c 0x08 = false ∧ c ≠ ch '.') ∧
    ∀ c : UInt8, Letter 'p' c → isa c 0x10 = false ∧ c ≠ ch '.' := by
  constructor
  · rintro c (rfl | rfl) <;> exact ⟨isa_digit.mpr (by decide), by decide⟩
  · rintro c (rfl | rfl) <;> exact ⟨isa_xdigit.mpr (by decide), by decide⟩

/-! ### The exponent -/

/-- The letter of the exponent, and the digits of a base. -/
def expLetter (base : ℕ) : Char := if base = 16 then 'p' else 'e'

def digitMask (base : ℕ) : UInt8 := if base = 16 then 0x10 else 0x08

theorem expLetter_mem (base : ℕ) : expLetter base ∈ scanLetters := by
  rw [expLetter]
  split <;> decide

theorem class_base (base : ℕ) : Class (digitMask base) := by
  rw [digitMask]
  split
  · exact class_xdigit
  · exact class_digit

/-- The numeral goes on with an exponent and ends. -/
def Tail (base : ℕ) (t : List UInt8) : Prop := ∃ e u, t = e ++ u ∧ Exponent (expLetter base) e ∧ Ends u

theorem Tail.behind {base : ℕ} {t : List UInt8} (h : Tail base t) : Behind (digitMask base) t := by
  obtain ⟨e, u, rfl, he, hu⟩ := h
  cases he with
  | none =>
      obtain ⟨h8, h10, hpt⟩ := space_or_nul hu.head
      refine ⟨?_, hpt⟩
      rw [List.nil_append, digitMask]
      split
      · exact h10
      · exact h8
  | @some k sg ds hk _ _ _ =>
      rw [List.cons_append, Behind, List.headD_cons, digitMask]
      rw [expLetter] at hk
      split at hk
      · next hb => rw [if_pos hb]; exact letter_class.2 k hk
      · next hb => rw [if_neg hb]; exact letter_class.1 k hk

theorem exponentPart_fmt {base : ℕ} {ex : ℤ} {q : Ptr} {fmt' : StrScanFmt} {ex' : ℤ}
    (h : exponentPart base fmt p ex = .ok (fmt', q, ex')) : fmt' = .num ∨ fmt' = fmt := by
  rw [exponentPart] at h
  by_cases hk : base ≥ 10 ∧ casecmp (p.get 0) (if base = 16 then 'p' else 'e') = true
  · rw [if_pos hk] at h
    cases hp : parseExponent p.next ex with
    | error e => rw [hp] at h; cases h
    | ok r => rw [hp] at h; cases h; exact .inl rfl
  · rw [if_neg hk] at h
    cases h
    exact .inr rfl

/-- An exponent is taken where its letter stands. -/
theorem exponentPart_iff {base : ℕ} {ex : ℤ} (hb : base ≥ 10) :
    (∃ fmt' q ex', exponentPart base fmt p ex = .ok (fmt', q, ex') ∧ Ends q.rest) ↔ Tail base p.rest := by
  rw [exponentPart]
  cases hk : casecmp (p.get 0) (expLetter base) with
  | true =>
      have hletter := (casecmp_iff (expLetter_mem base) _).mp hk
      have hyes : base ≥ 10 ∧ casecmp (p.get 0) (if base = 16 then 'p' else 'e') = true := ⟨hb, hk⟩
      rw [if_pos hyes]
      rw [Ptr.get_zero] at hletter
      have hne := (letter_not_space (expLetter_mem base) hletter).2
      obtain ⟨k, r, hr⟩ : ∃ k r, p.rest = k :: r := by
        cases hr : p.rest with
        | nil => rw [hr] at hne; exact absurd rfl hne
        | cons k r => exact ⟨k, r, rfl⟩
      rw [hr, List.headD_cons] at hletter
      have hrun : ∀ f : Ptr × ℤ → Except Err (StrScanFmt × Ptr × ℤ), (∀ q e, f (q, e) = .ok (.num, q, e)) →
          ((∃ fmt' q ex', (parseExponent p.next ex >>= f) = .ok (fmt', q, ex') ∧ Ends q.rest) ↔
            ∃ t, Ends t ∧ ∃ q ex', parseExponent p.next ex = .ok (q, ex') ∧ q.rest = t) := by
        intro f hf
        constructor
        · rintro ⟨fmt', q, ex', h, ht⟩
          cases hp : parseExponent p.next ex with
          | error e => rw [hp] at h; cases h
          | ok r => rw [hp] at h; cases (hf r.1 r.2).symm.trans h; exact ⟨_, ht, _, _, rfl, rfl⟩
        · rintro ⟨t, ht, q, ex', h, rfl⟩
          rw [h]
          exact ⟨_, _, _, hf q ex', ht⟩
      rw [hrun _ fun _ _ => by rfl]
      have hnext : p.next.rest = r := by rw [Ptr.next_rest, hr]; rfl
      simp only [parseExponent_ok_iff, hnext]
      constructor
      · rintro ⟨t, ht, sg, ds, hp, hsg, hne, hds, -⟩
        refine ⟨k :: (sg ++ ds), t, ?_, .some hletter hsg hne hds, ht⟩
        rw [hr, hp, List.cons_append, List.append_assoc]
      · rintro ⟨e, u, he, hexp, hu⟩
        rw [hr] at he
        cases hexp with
        | none =>
            rw [List.nil_append] at he
            obtain ⟨hs, h0⟩ := letter_not_space (expLetter_mem base) hletter
            rw [← he] at hu
            exact absurd hu (not_ends_of_head hs h0)
        | @some k' sg ds _ hsg hne hds =>
            rw [List.cons_append, List.append_assoc] at he
            exact ⟨u, hu, sg, ds, (List.cons.inj he).2, hsg, hne, hds, hu.not_digit⟩
  | false =>
      have hno : ¬(base ≥ 10 ∧ casecmp (p.get 0) (if base = 16 then 'p' else 'e') = true) := by
        rintro ⟨-, h⟩
        exact absurd h (Bool.eq_false_iff.mp hk)
      rw [if_neg hno]
      constructor
      · rintro ⟨fmt', q, ex', h, ht⟩
        cases h
        exact ⟨[], p.rest, rfl, .none, ht⟩
      · rintro ⟨e, u, he, hexp, hu⟩
        cases hexp with
        | none =>
            rw [List.nil_append] at he
            exact ⟨_, _, _, rfl, he ▸ hu⟩
        | @some k sg ds hletter _ _ _ =>
            have hkt := (casecmp_iff (expLetter_mem base) k).mpr hletter
            rw [Ptr.get_zero, he, List.cons_append, List.headD_cons, hkt] at hk
            cases hk

/-! ### Behind the digits -/

theorem reduceDouble_total (x : BitVec 64) (fmt : StrScanFmt) (ex2 : ℤ) (neg : Bool) :
    ∃ r, reduceDouble x fmt ex2 neg = .ok r := by
  rw [reduceDouble]
  split <;> exact ⟨_, rfl⟩

theorem strscanHex_total {sp : List UInt8} {ex2 : ℤ} {dig : ℕ} (hfmt : fmt = .int ∨ fmt = .num) :
    ∃ r, strscanHex sp fmt optTonum ex2 neg dig = .ok r := by
  rcases hfmt with rfl | rfl
  · rw [strscanHex]
    dsimp only
    rw [if_neg (fun h => absurd h.1 (by decide)), if_pos (by decide)]
    exact reduceDouble_total _ _ _ _
  · exact reduceDouble_total _ _ _ _

/-- The parsers of decimal and of hexadecimal numbers take every numeral. -/
theorem dispatch_total {base : ℕ} {sp : List UInt8} {x dig : ℕ} {ex : ℤ} (hb : base = 10 ∨ base = 16)
    (hfmt : fmt = .int ∨ fmt = .num) (hsp : dig ≠ 0 → decDigit sp ≠ 0) :
    ∃ r, dispatch c optTonum neg base sp fmt x ex dig = .ok r := by
  rw [dispatch]
  split
  · exact ⟨_, rfl⟩
  · rcases hb with rfl | rfl
    · rw [if_neg (fun h => absurd h.1 (by decide)), if_neg (by decide), if_neg (by decide), exists_bind_ok]
      have hrun : ∃ r, strscanDec sp fmt optTonum ex neg dig = .ok r := by
        refine strscanDec_total hsp ?_
        rcases hfmt with rfl | rfl
        · exact .inr ⟨rfl, by decide⟩
        · exact .inl rfl
      obtain ⟨r, hr⟩ := hrun
      exact ⟨r, hr, _, rfl⟩
    · rw [if_neg (fun h => absurd h.1 (by decide)), if_pos rfl, exists_bind_ok]
      obtain ⟨r, hr⟩ := strscanHex_total hfmt
      exact ⟨r, hr, _, rfl⟩

theorem decimalPoint_dig {base dp dig : ℕ} : (decimalPoint base p dp dig).2 ≠ 0 → dig ≠ 0 := by
  rw [decimalPoint]
  split
  · next h => exact fun _ => h
  · exact fun h => h

/-- Behind the digits of a decimal or of a hexadecimal numeral. -/
theorem parseTail_iff {base : ℕ} {sp : List UInt8} {x dig : ℕ} {dp : Option ℕ} (hb : base = 10 ∨ base = 16)
    (hsp : dig ≠ 0 → decDigit sp ≠ 0) :
    (∃ r, parseTail c optTonum neg base sp p x dig dp = .ok r) ↔ Tail base p.rest := by
  have hb10 : base ≥ 10 := by rcases hb with rfl | rfl <;> decide
  obtain ⟨fmt, hfmt, hdp⟩ : ∃ fmt, (fmt = .int ∨ fmt = .num) ∧
      (if dp.isSome then StrScanFmt.num else .int) = fmt := by
    refine ⟨_, ?_, rfl⟩
    split
    · exact .inr rfl
    · exact .inl rfl
  obtain ⟨ex, dig', hdig, hpt⟩ : ∃ ex dig', (dig' ≠ 0 → dig ≠ 0) ∧
      (dp.map fun dp => decimalPoint base p dp dig).getD (0, dig) = (ex, dig') := by
    refine ⟨_, _, ?_, rfl⟩
    cases dp with
    | none => exact fun h => h
    | some dp => exact decimalPoint_dig
  rw [parseTail, hdp, hpt]
  dsimp only
  rw [exists_bind_ok, ← @exponentPart_iff p fmt base ex hb10]
  constructor
  · rintro ⟨⟨fmt', q, ex'⟩, he, hr⟩
    have hf : fmt' = .int ∨ fmt' = .num := by
      rcases exponentPart_fmt he with rfl | rfl
      · exact .inr rfl
      · exact hfmt
    refine ⟨fmt', q, ex', he, ?_⟩
    obtain ⟨_, hs, _⟩ := exists_bind_ok.mp hr
    rw [parseSuffix_tonum hf] at hs
    by_contra hne
    rw [if_neg hne] at hs
    cases hs
  · rintro ⟨fmt', q, ex', he, ht⟩
    have hf : fmt' = .int ∨ fmt' = .num := by
      rcases exponentPart_fmt he with rfl | rfl
      · exact .inr rfl
      · exact hfmt
    refine ⟨_, he, ?_⟩
    dsimp only
    rw [parseSuffix_tonum hf, if_pos ht]
    exact dispatch_total hb hf fun h => hsp (hdig h)

/-! ### The digits -/

/-- `lj_strscan_scan` from the digits of a regular number on. -/
def parseDigits (c : Target) (opt : Opt) (neg : Bool) (base : ℕ) (p : Ptr) : Result := do
  let (p, hasdig, dp) ← scanZeros p.seen p.rest false none
  let sp := p.rest
  let (p, x, dig, dp) ← scanDigits (if base = 16 then 0x10 else 0x08) p.seen p.rest 0 0 dp
  if hasdig = false ∧ dig = 0 then .error .error else parseTail c opt neg base sp p x dig dp

theorem parseNumber_eq : parseNumber c opt neg p =
    parseDigits c opt neg (parseBase opt p).1 (parseBase opt p).2 := rfl

section Digits

variable {base : ℕ} {a b t seen : List UInt8}

/-- Digits without a point. -/
theorem parseDigits_digits (ha : ∀ d ∈ a, isa d (digitMask base) = true) (ht : Behind (digitMask base) t) :
    parseDigits c opt neg base ⟨seen, a ++ t⟩ = if a = [] then .error .error else
      parseTail c opt neg base (significant a ++ t) ⟨a.reverse ++ seen, t⟩ (accum 0 (significant a))
        (significant a).length none := by
  obtain ⟨hasdig, seen', hz, hd, hne⟩ := scan_mantissa (class_base base) ha ht seen
  rw [digitMask] at hd
  rw [parseDigits, hz]
  dsimp only [bind, Except.bind]
  rw [hd]
  dsimp only
  simp only [hne]

/-- Digits with a point. -/
theorem parseDigits_point (ha : ∀ d ∈ a ++ b, isa d (digitMask base) = true) (ht : Behind (digitMask base) t) :
    parseDigits c opt neg base ⟨seen, a ++ ch '.' :: (b ++ t)⟩ = if a ++ b = [] then .error .error else
      parseTail c opt neg base
        (if significant a = [] then significant b ++ t else significant a ++ ch '.' :: (b ++ t))
        ⟨b.reverse ++ ch '.' :: (a.reverse ++ seen), t⟩ (accum 0 (significant (a ++ b)))
        (significant (a ++ b)).length (some (seen.length + a.length)) := by
  obtain ⟨hasdig, seen', sp, dp, hz, hd, hne, hsp⟩ := scan_mantissa_point (class_base base) ha ht seen
  rw [digitMask] at hd
  rw [parseDigits, hz, ← hsp]
  dsimp only [bind, Except.bind]
  rw [hd]
  dsimp only
  simp only [hne]

/-- A second point. -/
theorem parseDigits_two_points (ha : ∀ d ∈ a ++ b, isa d (digitMask base) = true) :
    parseDigits c opt neg base ⟨seen, a ++ ch '.' :: (b ++ ch '.' :: t)⟩ = .error .error := by
  rw [parseDigits]
  rcases scan_two_points (class_base base) (t := t) ha seen with hz | ⟨q, hasdig, dp, hz, hd⟩
  · rw [hz]
    rfl
  · rw [hz]
    rw [digitMask] at hd
    dsimp only [bind, Except.bind]
    rw [hd]

/-- The first significant digit is no zero. -/
theorem decDigit_ne {d : UInt8} : isa d 0x10 = true → d ≠ ch '0' → ∀ r, decDigit (d :: r) ≠ 0 := by
  intro hx h0 r
  obtain ⟨hp, hz⟩ := (byte_ranges d).2.1 ((isxdigit_iff d).mp hx) h0
  rw [decDigit, readDigit, if_neg hp]
  exact hz

/-- The digits of a base are hexadecimal ones. -/
theorem mask_xdigit {d : UInt8} (h : isa d (digitMask base) = true) : isa d 0x10 = true := by
  rw [digitMask] at h
  split at h
  · exact h
  · exact (isxdigit_iff d).mpr (.inl ((isdigit_iff d).mp h))

theorem decDigit_significant (ha : ∀ d ∈ a, isa d (digitMask base) = true) (hne : significant a ≠ [])
    (r : List UInt8) : decDigit (significant a ++ r) ≠ 0 := by
  obtain ⟨-, -, hhead⟩ := zeros_significant a
  have hh := hhead hne
  obtain ⟨d, ds, hs⟩ := List.exists_cons_of_ne_nil hne
  rw [hs, List.headD_cons] at hh
  rw [hs]
  exact decDigit_ne (mask_xdigit (ha d (mem_significant (by rw [hs]; exact List.mem_cons_self)))) hh _

/-- A numeral of a base, behind its prefix. -/
theorem parseDigits_iff (hb : base = 10 ∨ base = 16) :
    (∃ r, parseDigits c optTonum neg base p = .ok r) ↔
      ∃ m t, p.rest = m ++ t ∧ Mantissa (isa · (digitMask base) = true) m ∧ Tail base t := by
  obtain ⟨seen, rest⟩ := p
  -- a mantissa is followed by what goes on with neither a digit nor a point
  have hdigits : ∀ a t, (∀ d ∈ a, isa d (digitMask base) = true) → Behind (digitMask base) t →
      ((∃ r, parseDigits c optTonum neg base ⟨seen, a ++ t⟩ = .ok r) ↔ a ≠ [] ∧ Tail base t) := by
    intro a t ha ht
    rw [parseDigits_digits ha ht]
    by_cases hne : a = []
    · rw [if_pos hne]
      exact ⟨fun h => absurd h not_error_ok, fun h => absurd hne h.1⟩
    · rw [if_neg hne, parseTail_iff hb fun h => decDigit_significant ha (fun h0 => h (by rw [h0]; rfl)) t]
      exact ⟨fun h => ⟨hne, h⟩, fun h => h.2⟩
  have hpoint : ∀ a b t, (∀ d ∈ a ++ b, isa d (digitMask base) = true) → Behind (digitMask base) t →
      ((∃ r, parseDigits c optTonum neg base ⟨seen, a ++ ch '.' :: (b ++ t)⟩ = .ok r) ↔
        a ++ b ≠ [] ∧ Tail base t) := by
    intro a b t ha ht
    rw [parseDigits_point ha ht]
    by_cases hne : a ++ b = []
    · rw [if_pos hne]
      exact ⟨fun h => absurd h not_error_ok, fun h => absurd hne h.1⟩
    · rw [if_neg hne, parseTail_iff hb]
      · exact ⟨fun h => ⟨hne, h⟩, fun h => h.2⟩
      · intro h
        rw [significant_append] at h
        split
        · next hs =>
            rw [if_pos hs] at h
            exact decDigit_significant (fun d hd => ha d (List.mem_append_right _ hd))
              (fun h0 => h (by rw [h0]; rfl)) t
        · next hs => exact decDigit_significant (fun d hd => ha d (List.mem_append_left _ hd)) hs _
  constructor
  · intro h
    rcases mantissa_split (class_base base) rest with ⟨a, t, rfl, ha, ht⟩ | ⟨a, b, t, rfl, ha, ht⟩ | ⟨a, b, t, rfl, ha⟩
    · obtain ⟨hne, htail⟩ := (hdigits a t ha ht).mp h
      exact ⟨a, t, rfl, .digits hne ha, htail⟩
    · obtain ⟨hne, htail⟩ := (hpoint a b t ha ht).mp h
      exact ⟨_, t, by rw [List.append_assoc]; rfl, .point hne ha, htail⟩
    · rw [parseDigits_two_points ha] at h
      exact absurd h not_error_ok
  · rintro ⟨m, t, hr, hm, htail⟩
    dsimp only at hr
    rw [hr]
    cases hm with
    | digits hne ha => exact (hdigits _ t ha htail.behind).mpr ⟨hne, htail⟩
    | point hne ha =>
        rw [List.append_assoc, List.cons_append]
        exact (hpoint _ _ t ha htail.behind).mpr ⟨hne, htail⟩

end Digits

/-! ### Binary numerals -/

section Bin

variable {a b t seen sp : List UInt8} {dig : ℕ} {ex : ℤ}

set_option maxRecDepth 4000 in
theorem isbit_iff : ∀ d : UInt8, d &&& 0xfe = ch '0' ↔ IsBit d := forall_byte (by decide)

theorem binDigits_iff {ds r : List UInt8} : ∀ {x : BitVec 64},
    (∃ y, binDigits ds.length (ds ++ r) x = .ok y) ↔ ∀ d ∈ ds, IsBit d := by
  induction ds with
  | nil =>
      intro x
      exact ⟨fun _ d h => (by cases h), fun _ => ⟨_, rfl⟩⟩
  | cons d ds ih =>
      intro x
      have hstep : binDigits (ds.length + 1) (d :: (ds ++ r)) x =
          if d &&& 0xfe ≠ ch '0' then .error .error
          else binDigits ds.length (ds ++ r) (x <<< 1 ||| BitVec.ofNat 64 (d.toNat % 2)) := rfl
      rw [List.length_cons, List.cons_append, hstep, List.forall_mem_cons, ← isbit_iff]
      by_cases hd : d &&& 0xfe = ch '0'
      · rw [if_neg (fun h => h hd), ih]
        exact ⟨fun h => ⟨hd, h⟩, fun h => h.2⟩
      · rw [if_pos hd]
        exact ⟨fun h => absurd h not_error_ok, fun h => absurd h.1 hd⟩

/-- The parser of binary numbers takes bits that fit, without a fraction. -/
theorem strscanBin_iff {ds r : List UInt8} (hfmt : fmt = .int ∨ fmt = .num) :
    (∃ y, strscanBin (ds ++ r) fmt optTonum ex neg ds.length = .ok y) ↔
      ex = 0 ∧ ds.length ≤ 64 ∧ ∀ d ∈ ds, IsBit d := by
  rw [strscanBin]
  by_cases hguard : ex ≠ 0 ∨ ds.length > 64
  · rw [if_pos hguard]
    refine ⟨fun h => absurd h not_error_ok, fun h => ?_⟩
    rcases hguard with h0 | h0
    · exact absurd h.1 h0
    · omega
  · rw [if_neg hguard, exists_bind_ok]
    have hex : ex = 0 ∧ ds.length ≤ 64 := by omega
    rw [← and_assoc, and_iff_right hex, ← @binDigits_iff ds r 0]
    refine exists_congr fun x => ⟨fun h => h.1, fun h => ⟨h, ?_⟩⟩
    rcases hfmt with rfl | rfl
    · dsimp only
      rw [if_neg (fun h => absurd h.1 (by decide)), if_pos (by decide)]
      exact reduceDouble_total _ _ _ _
    · exact reduceDouble_total _ _ _ _

/-- Behind the digits of a binary numeral. -/
theorem parseTail_bin {x : ℕ} {dp : Option ℕ} :
    (∃ r, parseTail c optTonum neg 2 sp p x dig dp = .ok r) ↔ Ends p.rest ∧
      ∃ r, strscanBin sp (if dp.isSome then .num else .int) optTonum
        ((dp.map fun dp => decimalPoint 2 p dp dig).getD (0, dig)).1 neg
        ((dp.map fun dp => decimalPoint 2 p dp dig).getD (0, dig)).2 = .ok r := by
  obtain ⟨fmt, hfmt, hdp⟩ : ∃ fmt, (fmt = .int ∨ fmt = .num) ∧
      (if dp.isSome then StrScanFmt.num else .int) = fmt := by
    refine ⟨_, ?_, rfl⟩
    split
    · exact .inr rfl
    · exact .inl rfl
  rw [parseTail, hdp]
  generalize (dp.map fun dp => decimalPoint 2 p dp dig).getD (0, dig) = ed
  obtain ⟨ex, dig'⟩ := ed
  have hexp : exponentPart 2 fmt p ex = .ok (fmt, p, ex) := if_neg (fun h => absurd h.1 (by decide))
  dsimp only
  rw [hexp, exists_bind_ok]
  have hdispatch : (∃ r, dispatch c optTonum neg 2 sp fmt x ex dig' = .ok r) ↔
      ∃ r, strscanBin sp fmt optTonum ex neg dig' = .ok r := by
    rw [dispatch, if_neg (fun h => absurd h.2.1 (by decide)), if_neg (fun h => absurd h.1 (by decide)),
      if_neg (by decide), if_pos rfl, exists_bind_ok]
    exact exists_congr fun r => ⟨fun h => h.1, fun h => ⟨h, _, rfl⟩⟩
  constructor
  · rintro ⟨r, hr, h⟩
    cases hr
    dsimp only at h
    rw [parseSuffix_tonum hfmt, exists_bind_ok] at h
    obtain ⟨fmt', hs, h⟩ := h
    by_cases ht : Ends p.rest
    · rw [if_pos ht] at hs
      cases hs
      exact ⟨ht, hdispatch.mp h⟩
    · rw [if_neg ht] at hs
      cases hs
  · rintro ⟨ht, h⟩
    refine ⟨_, rfl, ?_⟩
    dsimp only
    rw [parseSuffix_tonum hfmt, if_pos ht]
    exact hdispatch.mpr h

theorem stripZeros_zero (dig : ℕ) : stripZeros seen 0 dig = (0, dig) := by
  cases seen with
  | nil => rfl
  | cons d seen => exact if_neg (fun h => absurd h.1 (by decide))

/-- The zeros behind the point are dropped. -/
theorem stripZeros_zeros : ∀ {bs : List UInt8} {dig : ℕ}, (∀ d ∈ bs, d = ch '0') →
    stripZeros (bs ++ seen) (-(bs.length : ℤ)) dig = (0, dig - bs.length) := by
  intro bs
  induction bs with
  | nil => intro dig _; exact stripZeros_zero dig
  | cons d bs ih =>
      intro dig h
      rw [List.cons_append, stripZeros, if_pos ⟨by rw [List.length_cons]; omega, h d List.mem_cons_self⟩]
      have hlen : -((d :: bs).length : ℤ) + 1 = -(bs.length : ℤ) := by rw [List.length_cons]; omega
      rw [hlen, ih fun e he => h e (List.mem_cons_of_mem _ he), List.length_cons]
      congr 1
      lia

/-- Another digit behind the point leaves a fraction. -/
theorem stripZeros_digit : ∀ {bs : List UInt8} {dig : ℕ}, ¬(∀ d ∈ bs, d = ch '0') →
    (stripZeros (bs ++ seen) (-(bs.length : ℤ)) dig).1 ≠ 0 := by
  intro bs
  induction bs with
  | nil => intro dig h; exact absurd (fun _ hd => by cases hd) h
  | cons d bs ih =>
      intro dig h
      rw [List.cons_append, stripZeros]
      split
      · next hd =>
          have hlen : -((d :: bs).length : ℤ) + 1 = -(bs.length : ℤ) := by rw [List.length_cons]; omega
          rw [hlen]
          refine ih fun hbs => h fun e he => ?_
          rcases List.mem_cons.mp he with rfl | he
          · exact hd.2
          · exact hbs e he
      · rw [List.length_cons]
        dsimp only
        omega

theorem zeros_iff : significant a = [] ↔ ∀ d ∈ a, d = ch '0' := by
  rw [significant, List.dropWhile_eq_nil_iff]
  simp only [decide_eq_true_eq]

theorem bits_iff : (∀ d ∈ significant a, IsBit d) ↔ ∀ d ∈ a, IsBit d := by
  constructor
  · intro h d hd
    obtain ⟨hsplit, hz, -⟩ := zeros_significant a
    rw [← hsplit, List.mem_append] at hd
    rcases hd with hd | hd
    · exact .inl (hz d hd)
    · exact h d hd
  · exact fun h d hd => h d (mem_significant hd)

theorem i32_neg {n : ℕ} (h : n < 2 ^ 31) : i32 (-(n : ℤ)) = -(n : ℤ) := by
  rw [i32, Int.bmod_eq_of_le] <;> omega

/-- Behind the digits of a binary numeral without a point. -/
theorem parseDigits_bin_digits (ha : ∀ d ∈ a, isdigit d = true) (ht : Behind 0x08 t) :
    (∃ r, parseDigits c optTonum neg 2 ⟨seen, a ++ t⟩ = .ok r) ↔
      a ≠ [] ∧ Ends t ∧ (∀ d ∈ a, IsBit d) ∧ (significant a).length ≤ 64 := by
  have hd := @parseDigits_digits c optTonum neg 2 a t seen ha ht
  rw [hd]
  by_cases hne : a = []
  · rw [if_pos hne]
    exact ⟨fun h => absurd h not_error_ok, fun h => absurd hne h.1⟩
  · rw [if_neg hne, parseTail_bin]
    refine Iff.trans (and_congr_right fun _ => strscanBin_iff (.inl rfl)) ?_
    rw [bits_iff]
    exact ⟨fun h => ⟨hne, h.1, h.2.2.2, h.2.2.1⟩, fun h => ⟨h.2.1, rfl, h.2.2.2, h.2.2.1⟩⟩

/-- The point of a binary numeral. -/
theorem decimalPoint_bin (hb : b.length < 2 ^ 31) :
    ((∀ d ∈ b, d = ch '0') →
      decimalPoint 2 ⟨b.reverse ++ ch '.' :: (a.reverse ++ seen), t⟩ (seen.length + a.length)
        (significant (a ++ b)).length = (0, (significant a).length)) ∧
    (¬(∀ d ∈ b, d = ch '0') →
      (decimalPoint 2 ⟨b.reverse ++ ch '.' :: (a.reverse ++ seen), t⟩ (seen.length + a.length)
        (significant (a ++ b)).length).1 ≠ 0) := by
  have hpos : i32 ((seen.length + a.length : ℕ) - ((((b.reverse ++ ch '.' :: (a.reverse ++ seen)).length : ℕ) : ℤ) - 1)) =
      -(b.reverse.length : ℤ) := by
    rw [List.length_reverse, ← i32_neg hb]
    congr 1
    simp only [List.length_append, List.length_reverse, List.length_cons]
    lia
  rw [decimalPoint, Ptr.pos]
  dsimp only
  rw [hpos, if_neg (by decide : ¬2 = 16)]
  constructor
  · intro h0
    have hlen : (significant (a ++ b)).length - b.length = (significant a).length ∧
        ((significant (a ++ b)).length = 0 → (significant a).length = 0) := by
      rw [significant_append, zeros_iff.mpr h0]
      split
      · next hs => rw [hs]; simp
      · rw [List.length_append]
        lia
    split
    · rw [stripZeros_zeros (fun d hd => h0 d (List.mem_reverse.mp hd)), List.length_reverse, hlen.1]
    · next hz => rw [not_not.mp hz, hlen.2 (not_not.mp hz)]
  · intro h0
    have hne : (significant (a ++ b)).length ≠ 0 := by
      intro hz
      refine h0 fun d hd => ?_
      exact zeros_iff.mp (List.length_eq_zero_iff.mp hz) d (List.mem_append_right _ hd)
    rw [if_pos hne]
    exact stripZeros_digit fun h => h0 fun d hd => h d (List.mem_reverse.mpr hd)

/-- Behind the digits of a binary numeral with a point. -/
theorem parseDigits_bin_point (ha : ∀ d ∈ a ++ b, isdigit d = true) (ht : Behind 0x08 t)
    (hb : b.length < 2 ^ 31) :
    (∃ r, parseDigits c optTonum neg 2 ⟨seen, a ++ ch '.' :: (b ++ t)⟩ = .ok r) ↔
      a ++ b ≠ [] ∧ Ends t ∧ (∀ d ∈ a, IsBit d) ∧ (∀ d ∈ b, d = ch '0') ∧ (significant a).length ≤ 64 := by
  have hd := @parseDigits_point c optTonum neg 2 a b t seen ha ht
  rw [hd]
  by_cases hne : a ++ b = []
  · rw [if_pos hne]
    exact ⟨fun h => absurd h not_error_ok, fun h => absurd hne h.1⟩
  · obtain ⟨hzeros, hdigit⟩ := @decimalPoint_bin a b t seen hb
    rw [if_neg hne, parseTail_bin, Option.map_some, Option.getD_some]
    dsimp only
    by_cases h0 : ∀ d ∈ b, d = ch '0'
    · rw [hzeros h0]
      obtain ⟨r, hsp⟩ : ∃ r, (if significant a = [] then significant b ++ t
          else significant a ++ ch '.' :: (b ++ t)) = significant a ++ r := by
        split
        · next hs => exact ⟨significant b ++ t, by rw [hs]; rfl⟩
        · exact ⟨_, rfl⟩
      rw [hsp]
      refine Iff.trans (and_congr_right fun _ => strscanBin_iff (.inr rfl)) ?_
      rw [bits_iff]
      exact ⟨fun h => ⟨hne, h.1, h.2.2.2, h0, h.2.2.1⟩, fun h => ⟨h.2.1, rfl, h.2.2.2.2, h.2.2.1⟩⟩
    · constructor
      · rintro ⟨-, h⟩
        rw [strscanBin, if_pos (.inl (hdigit h0))] at h
        exact absurd h not_error_ok
      · exact fun h => absurd h.2.2.2.1 h0

theorem IsBit.isdigit {d : UInt8} (h : IsBit d) : isdigit d = true := by
  rcases h with rfl | rfl <;> decide

/-- A binary numeral, behind its prefix. -/
theorem parseDigits_bin_iff (hlen : p.rest.length < 2 ^ 31) :
    (∃ r, parseDigits c optTonum neg 2 p = .ok r) ↔ ∃ w u, p.rest = w ++ u ∧ IntegralBits w ∧ Ends u := by
  obtain ⟨seen, rest⟩ := p
  dsimp only at hlen ⊢
  constructor
  · intro h
    rcases mantissa_split class_digit rest with ⟨a, t, rfl, ha, ht⟩ | ⟨a, b, t, rfl, ha, ht⟩ | ⟨a, b, t, rfl, ha⟩
    · obtain ⟨hne, hend, hbits, h64⟩ := (parseDigits_bin_digits ha ht).mp h
      exact ⟨a, t, rfl, .digits hne hbits h64, hend⟩
    · have hb : b.length < 2 ^ 31 := by
        simp only [List.length_append, List.length_cons] at hlen
        omega
      obtain ⟨hne, hend, hbits, h0, h64⟩ := (parseDigits_bin_point ha ht hb).mp h
      exact ⟨_, t, by rw [List.append_assoc]; rfl, .point hne hbits h0 h64, hend⟩
    · rw [@parseDigits_two_points _ _ _ 2 _ _ _ _ ha] at h
      exact absurd h not_error_ok
  · rintro ⟨w, u, rfl, hw, hu⟩
    have ht : Behind 0x08 u := by
      obtain ⟨h8, -, hpt⟩ := space_or_nul hu.head
      exact ⟨h8, hpt⟩
    cases hw with
    | @digits a hne hbits h64 =>
        exact (parseDigits_bin_digits (fun d hd => (hbits d hd).isdigit) ht).mpr ⟨hne, hu, hbits, h64⟩
    | @point a b hne hbits h0 h64 =>
        have hb : b.length < 2 ^ 31 := by
          simp only [List.length_append, List.length_cons] at hlen
          omega
        have hab : ∀ d ∈ a ++ b, isdigit d = true := by
          intro d hd
          rcases List.mem_append.mp hd with hd | hd
          · exact (hbits d hd).isdigit
          · rw [h0 d hd]
            decide
        rw [List.append_assoc, List.cons_append]
        exact (parseDigits_bin_point hab ht hb).mpr ⟨hne, hu, hbits, h0, h64⟩

end Bin

/-! ### The prefix of a base -/

theorem mantissa_congr {D E : UInt8 → Prop} (h : ∀ d, D d ↔ E d) {m : List UInt8} : Mantissa D m ↔ Mantissa E m := by
  have hde : D = E := funext fun d => propext (h d)
  rw [hde]

theorem Ptr.get_one (p : Ptr) : p.get 1 = p.rest.tail.headD 0 := by
  rw [Ptr.get]
  rcases p.rest with _ | ⟨_, _ | ⟨_, _⟩⟩ <;> rfl

theorem Ptr.add_two (p : Ptr) : (p.add 2).rest = p.rest.tail.tail := by
  rw [Ptr.add, Ptr.add, Ptr.add, Ptr.next_rest, Ptr.next_rest]

/-- The mantissa of a decimal numeral has no letter, and what follows it does not begin with the letter of
a prefix. -/
theorem prefix_not_dec {k : Char} (hk : k = 'x' ∨ k = 'b') {d x : UInt8} {r m t : List UInt8} (hx : Letter k x)
    (h : d :: x :: r = m ++ t) (hm : Mantissa IsDigit m) (ht : Tail 10 t) : False := by
  have hletter : ∀ x : UInt8, (Letter 'x' x ∨ Letter 'b' x) → ¬IsDigit x ∧ x ≠ ch '.' ∧ ¬Letter 'e' x := by
    rintro x ((rfl | rfl) | rfl | rfl) <;> decide
  obtain ⟨hdig, hpt, he⟩ := hletter x (by rcases hk with rfl | rfl <;> simp [hx])
  have hmem : ∀ e ∈ m, IsDigit e ∨ e = ch '.' := by
    cases hm with
    | digits _ ha => exact fun e he => .inl (ha e he)
    | point _ ha =>
        intro e he
        rcases List.mem_append.mp he with he | he
        · exact .inl (ha e (List.mem_append_left _ he))
        · rcases List.mem_cons.mp he with he | he
          · exact .inr he
          · exact .inl (ha e (List.mem_append_right _ he))
  have hne : m ≠ [] := by
    cases hm with
    | digits hne _ => exact hne
    | point => exact List.append_ne_nil_of_right_ne_nil _ (List.cons_ne_nil _ _)
  obtain ⟨e, es, rfl⟩ := List.exists_cons_of_ne_nil hne
  rw [List.cons_append] at h
  obtain ⟨-, htail⟩ := List.cons.inj h
  cases es with
  | cons f fs =>
      rw [List.cons_append] at htail
      obtain ⟨hxf, -⟩ := List.cons.inj htail
      have := hmem f (List.mem_cons_of_mem _ List.mem_cons_self)
      rw [← hxf] at this
      exact this.elim hdig hpt
  | nil =>
      rw [List.nil_append] at htail
      obtain ⟨ex, u, rfl, hexp, hu⟩ := ht
      cases hexp with
      | none =>
          rw [List.nil_append] at htail
          rw [← htail] at hu
          have hmem : k ∈ scanLetters := by rcases hk with rfl | rfl <;> decide
          obtain ⟨hs, h0⟩ := letter_not_space hmem hx
          exact absurd hu (not_ends_of_head hs h0)
      | some hl =>
          rw [List.cons_append] at htail
          obtain ⟨rfl, -⟩ := List.cons.inj htail
          exact he hl

/-- A numeral goes on until the end of the string. -/
def Rest (r : List UInt8) : Prop := ∃ w u, r = w ++ u ∧ Numeral IntegralBits w ∧ Ends u

/-- The kinds of numerals, by what their texts begin with. -/
theorem rest_iff {r : List UInt8} : Rest r ↔
    (∃ m t, r = m ++ t ∧ Mantissa IsDigit m ∧ Tail 10 t) ∨
    (∃ x s, r = ch '0' :: x :: s ∧ Letter 'x' x ∧ ∃ m t, s = m ++ t ∧ Mantissa IsXdigit m ∧ Tail 16 t) ∨
    (∃ x s, r = ch '0' :: x :: s ∧ Letter 'b' x ∧ ∃ w u, s = w ++ u ∧ IntegralBits w ∧ Ends u) ∨
    ∃ v ∈ words, ∃ s u, r = s ++ u ∧ List.Forall₂ Letter v s ∧ Ends u := by
  constructor
  · rintro ⟨w, u, rfl, hw, hu⟩
    cases hw with
    | @dec m e hm he => exact .inl ⟨m, e ++ u, List.append_assoc _ _ _, hm, e, u, rfl, he, hu⟩
    | @hex x m e hx hm he =>
        exact .inr (.inl ⟨x, _, rfl, hx, m, e ++ u, List.append_assoc _ _ _, hm, e, u, rfl, he, hu⟩)
    | @bin x w hx hw => exact .inr (.inr (.inl ⟨x, _, rfl, hx, w, u, rfl, hw, hu⟩))
    | @word v _ hv hs => exact .inr (.inr (.inr ⟨v, hv, w, u, rfl, hs, hu⟩))
  · rintro (⟨m, t, rfl, hm, e, u, rfl, he, hu⟩ | ⟨x, s, rfl, hx, m, t, rfl, hm, e, u, rfl, he, hu⟩ |
      ⟨x, s, rfl, hx, w, u, rfl, hw, hu⟩ | ⟨v, hv, s, u, rfl, hs, hu⟩)
    · exact ⟨m ++ e, u, (List.append_assoc _ _ _).symm, .dec hm he, hu⟩
    · exact ⟨ch '0' :: x :: (m ++ e), u, by simp, .hex hx hm he, hu⟩
    · exact ⟨ch '0' :: x :: w, u, rfl, .bin hx hw, hu⟩
    · exact ⟨s, u, rfl, .word hv hs, hu⟩

/-- The first byte of a mantissa is a digit or a point. -/
theorem mantissa_head {D : UInt8 → Prop} {m : List UInt8} (h : Mantissa D m) :
    ∃ d r, m = d :: r ∧ (D d ∨ d = ch '.') := by
  cases h with
  | digits hne ha =>
      obtain ⟨d, r, rfl⟩ := List.exists_cons_of_ne_nil hne
      exact ⟨d, r, rfl, .inl (ha d List.mem_cons_self)⟩
  | @point a b hne ha =>
      cases a with
      | nil => exact ⟨_, _, rfl, .inr rfl⟩
      | cons d a => exact ⟨d, _, rfl, .inl (ha d List.mem_cons_self)⟩

/-- The first byte of a word is a letter. -/
theorem word_head {v : List Char} {s : List UInt8} (hv : v ∈ words) (hs : List.Forall₂ Letter v s) :
    ∃ d r, s = d :: r ∧ (Letter 'i' d ∨ Letter 'n' d) := by
  simp only [words, List.mem_cons, List.not_mem_nil, or_false] at hv
  rcases hv with rfl | rfl | rfl <;> cases hs with
  | cons hd _ => exact ⟨_, _, rfl, by simp [hd]⟩

/-- The bytes that a numeral begins with: those of a word are letters. -/
theorem head_byte : (∀ d : UInt8, IsDigit d ∨ d = ch '.' → isspace d = false ∧ d ≠ ch '+' ∧ d ≠ ch '-' ∧ ¬d ≥ ch 'A') ∧
    ∀ d : UInt8, Letter 'i' d ∨ Letter 'n' d →
      isspace d = false ∧ d ≠ ch '+' ∧ d ≠ ch '-' ∧ d ≥ ch 'A' ∧ isdigit d = false := by
  constructor
  · intro d hd
    obtain ⟨hs, hrest⟩ := (byte_ranges d).2.2.1 hd
    exact ⟨isspace_eq_false.mpr hs, hrest⟩
  · rintro d ((rfl | rfl) | rfl | rfl) <;>
      exact ⟨isspace_eq_false.mpr (by decide), by decide, by decide, by decide, isa_digit.mpr (by decide)⟩

/-! ### Regular numbers -/

/-- A regular number begins with no letter. -/
theorem parseNumber_iff (hhead : ¬p.get 0 ≥ ch 'A') (hlen : p.rest.length < 2 ^ 31) :
    (∃ r, parseNumber c optTonum neg p = .ok r) ↔ Rest p.rest := by
  have hcons : ∀ {k : Char}, k ∈ scanLetters → p.get 0 = ch '0' → Letter k (p.get 1) →
      ∃ x s, p.rest = ch '0' :: x :: s ∧ Letter k x ∧ (p.add 2).rest = s := by
    intro k hk h0 hx
    rw [Ptr.get_zero] at h0
    rw [Ptr.get_one] at hx
    have hne := (letter_not_space hk hx).2
    rw [Ptr.add_two]
    generalize p.rest = rest at h0 hx hne ⊢
    rcases rest with _ | ⟨d, _ | ⟨x, s⟩⟩
    · exact absurd rfl hne
    · exact absurd rfl hne
    · exact ⟨x, s, by rw [← h0]; rfl, hx, rfl⟩
  have hget : ∀ {x : UInt8} {s : List UInt8}, p.rest = ch '0' :: x :: s → p.get 0 = ch '0' ∧ p.get 1 = x := by
    intro x s h
    rw [Ptr.get_zero, Ptr.get_one, h]
    exact ⟨rfl, rfl⟩
  have hword : ¬∃ v ∈ words, ∃ s u, p.rest = s ++ u ∧ List.Forall₂ Letter v s ∧ Ends u := by
    rintro ⟨v, hv, s, u, hr, hs, -⟩
    obtain ⟨d, r, rfl, hd⟩ := word_head hv hs
    rw [Ptr.get_zero, hr] at hhead
    exact hhead (head_byte.2 d hd).2.2.2.1
  rw [parseNumber_eq, parseBase, rest_iff, or_iff_left hword]
  have hxb : ∀ x : UInt8, Letter 'x' x → ¬Letter 'b' x := by
    rintro x (rfl | rfl) <;> decide
  by_cases hx : p.get 0 = ch '0' ∧ Letter 'x' (p.get 1)
  · obtain ⟨x, s, hr, hlx, hs⟩ := hcons (by decide) hx.1 hx.2
    rw [if_pos hx.1, if_pos ((casecmp_iff (by decide) _).mpr hx.2), parseDigits_iff (.inr rfl), hs]
    simp only [digitMask, if_true, mantissa_congr isxdigit_iff]
    constructor
    · exact fun h => .inr (.inl ⟨x, s, hr, hlx, h⟩)
    · rintro (⟨m, t, hm, hmant, ht⟩ | ⟨x', s', hr', -, h⟩ | ⟨x', s', hr', hlb, -⟩)
      · rw [hr] at hm
        exact (prefix_not_dec (.inl rfl) hlx hm hmant ht).elim
      · rw [hr] at hr'
        cases hr'
        exact h
      · rw [hr] at hr'
        cases hr'
        exact absurd hlb (hxb x hlx)
  by_cases hb : p.get 0 = ch '0' ∧ Letter 'b' (p.get 1)
  · obtain ⟨x, s, hr, hlb, hs⟩ := hcons (by decide) hb.1 hb.2
    have hnx : ¬casecmp (p.get 1) 'x' = true := fun h => hx ⟨hb.1, (casecmp_iff (by decide) _).mp h⟩
    have hslen : (p.add 2).rest.length < 2 ^ 31 := by
      rw [hr] at hlen
      rw [hs]
      simp only [List.length_cons] at hlen
      omega
    rw [if_pos hb.1, if_neg hnx, if_pos ((casecmp_iff (by decide) _).mpr hb.2), parseDigits_bin_iff hslen, hs]
    constructor
    · exact fun h => .inr (.inr ⟨x, s, hr, hlb, h⟩)
    · rintro (⟨m, t, hm, hmant, ht⟩ | ⟨x', s', hr', hlx, -⟩ | ⟨x', s', hr', -, h⟩)
      · rw [hr] at hm
        exact (prefix_not_dec (.inr rfl) hlb hm hmant ht).elim
      · rw [hr] at hr'
        cases hr'
        exact absurd hlb (hxb x hlx)
      · rw [hr] at hr'
        cases hr'
        exact h
  · have hbase : (if p.get 0 = ch '0' then
        if casecmp (p.get 1) 'x' then (16, p.add 2)
        else if casecmp (p.get 1) 'b' then (2, p.add 2)
        else (if has optTonum optC then 0 else 10, p)
      else (10, p)) = (10, p) := by
      by_cases h0 : p.get 0 = ch '0'
      · rw [if_pos h0, if_neg fun h => hx ⟨h0, (casecmp_iff (by decide) _).mp h⟩,
          if_neg fun h => hb ⟨h0, (casecmp_iff (by decide) _).mp h⟩]
        rfl
      · exact if_neg h0
    rw [hbase, parseDigits_iff (.inl rfl)]
    have hmask : ∀ d, isa d (digitMask 10) = true ↔ IsDigit d := isdigit_iff
    simp only [mantissa_congr hmask]
    constructor
    · exact .inl
    · rintro (h | ⟨x', s', hr', hlx, -⟩ | ⟨x', s', hr', hlb, -⟩)
      · exact h
      · obtain ⟨h0, h1⟩ := hget hr'
        exact absurd ⟨h0, h1.symm ▸ hlx⟩ hx
      · obtain ⟨h0, h1⟩ := hget hr'
        exact absurd ⟨h0, h1.symm ▸ hlb⟩ hb

/-! ### The words -/

/-- The bytes from an offset on spell a word. -/
theorem caseword_iff : ∀ {v : List Char} {i : ℕ}, (∀ k ∈ v, k ∈ scanLetters) →
    (caseword p v i = true ↔ ∃ s u, p.rest.drop i = s ++ u ∧ List.Forall₂ Letter v s) := by
  intro v
  induction v with
  | nil =>
      intro i _
      exact ⟨fun _ => ⟨[], _, rfl, .nil⟩, fun _ => rfl⟩
  | cons k v ih =>
      intro i hv
      obtain ⟨hk, hv⟩ := List.forall_mem_cons.mp hv
      rw [caseword, Bool.and_eq_true, casecmp_iff hk, ih hv, Ptr.get, List.getD_eq_getElem?_getD]
      constructor
      · rintro ⟨hlk, s, u, hs, hall⟩
        cases hd : p.rest[i]? with
        | none =>
            rw [hd] at hlk
            exact absurd rfl (letter_not_space hk hlk).2
        | some d =>
            rw [hd] at hlk
            obtain ⟨hi, hget⟩ := List.getElem?_eq_some_iff.mp hd
            refine ⟨d :: s, u, ?_, .cons hlk hall⟩
            rw [List.drop_eq_getElem_cons hi, hget, hs]
            rfl
      · rintro ⟨s, u, hs, hall⟩
        cases hall with
        | @cons _ d _ s hlk hall =>
            have hi : p.rest[i]? = some d := by
              have := congrArg (·[0]?) hs
              simpa using this
            rw [hi]
            refine ⟨hlk, s, u, ?_, hall⟩
            rw [← List.tail_drop, hs]
            rfl

theorem Ptr.add_rest {k : ℕ} : ∀ {p : Ptr}, (p.add k).rest = p.rest.drop k := by
  induction k with
  | zero => intro p; rfl
  | succ k ih =>
      intro p
      rw [Ptr.add, ih, Ptr.next_rest, List.drop_tail]

theorem caseword_append {v w : List Char} : ∀ {i : ℕ},
    caseword p (v ++ w) i = (caseword p v i && caseword p w (i + v.length)) := by
  induction v with
  | nil => intro i; rfl
  | cons k v ih =>
      intro i
      rw [List.cons_append, caseword, caseword, ih, Bool.and_assoc, List.length_cons, Nat.add_assoc, Nat.add_comm 1]

theorem caseword_add {k : ℕ} {v : List Char} : ∀ {i : ℕ}, caseword (p.add k) v i = caseword p v (k + i) := by
  induction v with
  | nil => intro i; rfl
  | cons l v ih =>
      intro i
      rw [caseword, caseword, ih, Ptr.get, Ptr.add_rest, Ptr.get, List.getD_eq_getElem?_getD, List.getElem?_drop,
        ← List.getD_eq_getElem?_getD, Nat.add_assoc]

/-- A word that the string ends behind. -/
theorem word_iff {v : List Char} (hv : ∀ k ∈ v, k ∈ scanLetters) :
    (∃ s u, p.rest = s ++ u ∧ List.Forall₂ Letter v s ∧ Ends u) ↔
      caseword p v 0 = true ∧ Ends (p.rest.drop v.length) := by
  rw [caseword_iff hv, List.drop_zero]
  constructor
  · rintro ⟨s, u, hr, hs, hu⟩
    refine ⟨⟨s, u, hr, hs⟩, ?_⟩
    rw [hr, hs.length_eq, List.drop_left]
    exact hu
  · rintro ⟨⟨s, u, hr, hs⟩, hu⟩
    rw [hr, hs.length_eq, List.drop_left] at hu
    exact ⟨s, u, hr, hs, hu⟩

/-- The string does not end before a word. -/
theorem caseword_not_ends {k : Char} {v : List Char} {i : ℕ} (hk : k ∈ scanLetters)
    (h : caseword p (k :: v) i = true) : ¬Ends (p.rest.drop i) := by
  rw [caseword, Bool.and_eq_true, ← Nat.add_zero i] at h
  have hget : (p.add i).get 0 = p.get (i + 0) := by
    rw [Ptr.get, Ptr.add_rest, Ptr.get, List.getD_eq_getElem?_getD, List.getElem?_drop, ← List.getD_eq_getElem?_getD]
  rw [← Ptr.add_rest]
  exact not_ends_of_casecmp hk (hget ▸ h.1)

theorem words_letters : ∀ v ∈ words, ∀ k ∈ v, k ∈ scanLetters := by
  simp [words, scanLetters]

/-- A letter is the beginning of a word that the string ends behind. -/
theorem parseInfNan_iff (hhead : p.get 0 ≥ ch 'A') : (∃ r, parseInfNan neg p = .ok r) ↔ Rest p.rest := by
  -- the other kinds of numerals begin with no letter
  have hnum : Rest p.rest ↔ ∃ v ∈ words, caseword p v 0 = true ∧ Ends (p.rest.drop v.length) := by
    have hlow : ∀ {d : UInt8} {r : List UInt8}, IsDigit d ∨ d = ch '.' → p.rest ≠ d :: r := by
      intro d r hd hr
      rw [Ptr.get_zero, hr] at hhead
      exact (head_byte.1 d hd).2.2.2 hhead
    have hwords : (∃ v ∈ words, ∃ s u, p.rest = s ++ u ∧ List.Forall₂ Letter v s ∧ Ends u) ↔
        ∃ v ∈ words, caseword p v 0 = true ∧ Ends (p.rest.drop v.length) :=
      exists_congr fun v => and_congr_right fun hv => word_iff (words_letters v hv)
    rw [rest_iff, ← hwords]
    constructor
    · rintro (⟨m, t, hr, hm, -⟩ | ⟨x, s, hr, -⟩ | ⟨x, s, hr, -⟩ | h)
      · obtain ⟨d, r, rfl, hd⟩ := mantissa_head hm
        exact absurd hr (hlow hd)
      · exact absurd hr (hlow (.inl (by decide)))
      · exact absurd hr (hlow (.inl (by decide)))
      · exact h
    · exact fun h => .inr (.inr (.inr h))
  have hfin : ∀ (tmp : F64) (q : Ptr), (∃ r, (if q.skipSpace.get 0 ≠ 0 then (.error .error : Result)
      else .ok (.num, .n tmp)) = .ok r) ↔ Ends q.rest := by
    intro tmp q
    have hq : q.skipSpace.get 0 = 0 ↔ Ends q.rest := by rw [Ptr.get_zero, Ptr.skipSpace_rest]; rfl
    rw [← hq]
    by_cases h : q.skipSpace.get 0 = 0
    · exact ⟨fun _ => h, fun _ => ⟨_, if_neg (not_not.mpr h)⟩⟩
    · refine ⟨fun hr => ?_, fun hr => absurd hr h⟩
      rw [if_pos h] at hr
      exact absurd hr not_error_ok
  have hlong : caseword p ['i', 'n', 'f', 'i', 'n', 'i', 't', 'y'] 0 =
      (caseword p ['i', 'n', 'f'] 0 && caseword p ['i', 'n', 'i', 't', 'y'] 3) :=
    caseword_append (v := ['i', 'n', 'f'])
  have hadd : caseword (p.add 3) ['i', 'n', 'i', 't', 'y'] 0 = caseword p ['i', 'n', 'i', 't', 'y'] 3 := caseword_add
  have hni : caseword p ['i', 'n', 'f'] 0 = true → ¬caseword p ['n', 'a', 'n'] 0 = true := by
    intro hi hn
    have hin : ∀ d : UInt8, casecmp d 'i' = true → ¬casecmp d 'n' = true := fun d => by
      rw [casecmp_iff (by decide), casecmp_iff (by decide)]
      rintro (rfl | rfl) <;> decide
    rw [caseword, Bool.and_eq_true] at hi hn
    exact hin _ hi.1 hn.1
  simp only [hnum, words, List.mem_cons, List.not_mem_nil, or_false, exists_eq_or_imp, exists_eq_left]
  rw [hlong, parseInfNan]
  by_cases hinf : caseword p ['i', 'n', 'f'] 0 = true
  · have hnan := hni hinf
    rw [if_pos hinf]
    dsimp only
    rw [hfin, hadd]
    by_cases hinity : caseword p ['i', 'n', 'i', 't', 'y'] 3 = true
    · have hne := caseword_not_ends (by decide) hinity
      rw [if_pos hinity, Ptr.add_rest, Ptr.add_rest, List.drop_drop]
      simp [hinf, hinity, hnan, hne]
    · rw [if_neg hinity, Ptr.add_rest]
      simp [hinf, hinity, hnan]
  · rw [if_neg hinf]
    by_cases hnan : caseword p ['n', 'a', 'n'] 0 = true
    · rw [if_pos hnan]
      dsimp only
      rw [hfin, Ptr.add_rest]
      simp [hinf, hnan]
    · rw [if_neg hnan]
      dsimp only
      rw [hfin]
      have hup : ∀ d : UInt8, d ≥ ch 'A' → isspace d = false ∧ d ≠ 0 := fun d hd =>
        ⟨isspace_eq_false.mpr ((byte_ranges d).2.2.2 hd).1, ((byte_ranges d).2.2.2 hd).2⟩
      rw [Ptr.get_zero] at hhead
      have hne := not_ends_of_head (hup _ hhead).1 (hup _ hhead).2
      simp [hinf, hnan, hne]

/-! ### The strings that are numbers -/

/-- `LJ_MAX_STR`. -/
def maxStr : ℕ := 0x7fffff00

/-- A Lua string: any bytes. -/
structure GCstr where
  data : List UInt8
  len_lt : data.length < maxStr

/-- Behind its white space and its sign a number is a numeral, which the string ends behind. -/
theorem number_iff {Bin : List UInt8 → Prop} {s : List UInt8} :
    (∃ w u, s = w ++ u ∧ NumberString Bin w ∧ u.headD 0 = 0) ↔
      ∃ a sg w u, s = a ++ (sg ++ (w ++ u)) ∧ (∀ d ∈ a, IsSpace d) ∧ Sign sg ∧ Numeral Bin w ∧ Ends u := by
  constructor
  · rintro ⟨_, u, rfl, ⟨ha, hsg, hw, hb⟩, hu⟩
    refine ⟨_, _, _, _, ?_, ha, hsg, hw, ends_iff.mpr ⟨_, u, rfl, hb, hu⟩⟩
    simp only [List.append_assoc]
  · rintro ⟨a, sg, w, u, rfl, ha, hsg, hw, hu⟩
    obtain ⟨b, v, rfl, hb, hv⟩ := ends_iff.mp hu
    refine ⟨_, v, ?_, ⟨ha, hsg, hw, hb⟩, hv⟩
    simp only [List.append_assoc]

/-- The first byte of a numeral. -/
theorem rest_head {r : List UInt8} (h : Rest r) : ∃ d t, r = d :: t ∧ isspace d = false ∧ d ≠ ch '+' ∧ d ≠ ch '-' := by
  rcases rest_iff.mp h with ⟨m, t, rfl, hm, -⟩ | ⟨x, s, rfl, -⟩ | ⟨x, s, rfl, -⟩ | ⟨v, hv, s, u, rfl, hs, -⟩
  · obtain ⟨d, r, rfl, hd⟩ := mantissa_head hm
    obtain ⟨h1, h2, h3, -⟩ := head_byte.1 d hd
    exact ⟨d, r ++ t, rfl, h1, h2, h3⟩
  · exact ⟨_, _, rfl, by decide⟩
  · exact ⟨_, _, rfl, by decide⟩
  · obtain ⟨d, r, rfl, hd⟩ := word_head hv hs
    obtain ⟨h1, h2, h3, -⟩ := head_byte.2 d hd
    exact ⟨d, r ++ u, rfl, h1, h2, h3⟩

/-- The numeral behind white space and sign. -/
theorem parse_iff (hlen : p.rest.length < 2 ^ 31) :
    (∃ r, (if p.get 0 ≥ ch 'A' then parseInfNan neg p else parseNumber c optTonum neg p) = .ok r) ↔ Rest p.rest := by
  split
  · next h => exact parseInfNan_iff h
  · next h => exact parseNumber_iff h hlen

theorem digit_byte : ∀ d : UInt8, isdigit d = true → isspace d = false ∧ d ≠ ch '+' ∧ d ≠ ch '-' ∧ ¬d ≥ ch 'A' :=
  fun d hd => head_byte.1 d (.inl ((isdigit_iff d).mp hd))

/-- **The strings that are numbers**: up to their first zero byte they are a number by the grammar, where a
binary numeral has at most 64 significant digits, and may have a point with zeros behind it. -/
theorem strscanNum_iff (c : Target) (s : GCstr) :
    (∃ r, strscanNum c s.data = .ok r) ↔
      ∃ w u, s.data = w ++ u ∧ NumberString IntegralBits w ∧ u.headD 0 = 0 := by
  obtain ⟨s, hlen⟩ := s
  dsimp only
  have hlen : s.length < 2 ^ 31 := Nat.lt_trans hlen (by decide)
  rw [number_iff, strscanNum, scan]
  dsimp only
  rw [Ptr.get_zero]
  dsimp only
  cases hd : isdigit (s.headD 0) with
  | true =>
      obtain ⟨hsp, hplus, hminus, hlow⟩ := digit_byte _ hd
      rw [if_neg (by decide), parseNumber_iff (by rw [Ptr.get_zero]; exact hlow) hlen]
      dsimp only
      constructor
      · rintro ⟨w, u, hs, hw, hu⟩
        exact ⟨[], [], w, u, hs, (fun _ h => by cases h), .none, hw, hu⟩
      · rintro ⟨a, sg, w, u, rfl, ha, hsg, hw, hu⟩
        cases a with
        | cons d a =>
            rw [List.cons_append, List.headD_cons] at hsp
            rw [(isspace_iff d).mpr (ha d List.mem_cons_self)] at hsp
            cases hsp
        | nil =>
            cases hsg with
            | none => exact ⟨w, u, rfl, hw, hu⟩
            | plus => exact absurd rfl hplus
            | minus => exact absurd rfl hminus
  | false =>
      rw [if_pos (by decide)]
      generalize hp : (⟨[], s⟩ : Ptr).skipSpace = p
      have hrest : p.rest = s.dropWhile (isspace ·) := by rw [← hp, Ptr.skipSpace_rest]
      obtain ⟨sg, hsg, hsplit⟩ := parseSign_split p
      have hlen' : (parseSign p).2.rest.length < 2 ^ 31 := by
        have h1 := congrArg List.length hsplit
        have h2 := (List.dropWhile_sublist (isspace ·) (l := s)).length_le
        rw [← hrest, h1, List.length_append] at h2
        lia
      rw [parse_iff hlen']
      constructor
      · rintro ⟨w, u, hs, hw, hu⟩
        refine ⟨s.takeWhile (isspace ·), sg, w, u, ?_, ?_, hsg, hw, hu⟩
        · rw [← hs, ← hsplit, hrest, List.takeWhile_append_dropWhile]
        · intro d hdm
          exact (isspace_iff d).mp (List.mem_takeWhile_imp hdm)
      · rintro ⟨a, sg', w, u, rfl, ha, hsg', hw, hu⟩
        have hr : Rest (w ++ u) := ⟨w, u, rfl, hw, hu⟩
        obtain ⟨d, t, ht, hsp, hplus, hminus⟩ := rest_head hr
        have hp' : p.rest = sg' ++ (w ++ u) := by
          rw [hrest, List.dropWhile_append_of_pos fun d hd => (isspace_iff d).mpr (ha d hd), ht]
          cases hsg' with
          | none => exact List.dropWhile_cons_of_neg (by rw [hsp]; decide)
          | plus => exact List.dropWhile_cons_of_neg (by decide)
          | minus => exact List.dropWhile_cons_of_neg (by decide)
        rw [parseSign_rest hsg' hp' (by rw [ht]; exact ⟨hplus, hminus⟩)]
        exact hr

/-- Behind its first byte, if that is a digit, a number is a numeral and white space. -/
theorem number_digit {Bin : List UInt8 → Prop} {d : UInt8} {r : List UInt8} (hd : isdigit d = true)
    (h : NumberString Bin (d :: r)) : ∃ w b, d :: r = w ++ b ∧ Numeral Bin w ∧ ∀ e ∈ b, IsSpace e := by
  generalize hs : d :: r = s at h
  obtain ⟨ha, hsg, hw, hb⟩ := h
  obtain ⟨hsp, hplus, hminus, -⟩ := digit_byte d hd
  rename_i a sg w b
  cases a with
  | cons e a =>
      obtain ⟨rfl, -⟩ := List.cons.inj hs
      rw [(isspace_iff _).mpr (ha _ List.mem_cons_self)] at hsp
      cases hsp
  | nil =>
      cases hsg with
      | none => exact ⟨w, b, rfl, hw, hb⟩
      | plus => exact absurd (List.cons.inj hs).1 hplus
      | minus => exact absurd (List.cons.inj hs).1 hminus

/-- What goes behind the prefix `0b` are binary digits. -/
theorem number_bin {Bin : List UInt8 → Prop} {r : List UInt8} (h : NumberString Bin (ch '0' :: ch 'b' :: r)) :
    ∃ w b, r = w ++ b ∧ Bin w ∧ ∀ e ∈ b, IsSpace e := by
  obtain ⟨w, b, hs, hw, hb⟩ := number_digit (by decide) h
  have hend : Ends b := ends_iff.mpr ⟨b, [], by rw [List.append_nil], hb, rfl⟩
  have hlb : Letter 'b' (ch 'b') := .inl rfl
  cases hw with
  | @dec m e hm he =>
      rw [List.append_assoc] at hs
      exact (prefix_not_dec (.inr rfl) hlb hs hm ⟨e, b, rfl, he, hend⟩).elim
  | @hex x m e hx _ _ =>
      simp only [List.cons_append, List.cons.injEq] at hs
      rw [← hs.2.1] at hx
      exact absurd hx (by decide)
  | @bin x w hx hw =>
      simp only [List.cons_append, List.cons.injEq] at hs
      exact ⟨w, b, hs.2.2, hw, hb⟩
  | word hv hw =>
      obtain ⟨d, t, rfl, hd⟩ := word_head hv hw
      simp only [List.cons_append, List.cons.injEq] at hs
      rw [← hs.1] at hd
      exact absurd hd (by decide)

/-- The zero byte is not in the grammar. -/
theorem number_ne_zero {r : List UInt8} : ¬NumberString Bits (ch '1' :: 0 :: r) := by
  intro h
  obtain ⟨w, b, hs, hw, hb⟩ := number_digit (by decide) h
  have hend : Ends b := ends_iff.mpr ⟨b, [], by rw [List.append_nil], hb, rfl⟩
  cases hw with
  | @dec m e hm he =>
      rw [List.append_assoc] at hs
      obtain ⟨hbeh, hpt⟩ : Behind (digitMask 10) (e ++ b) := Tail.behind ⟨e, b, rfl, he, hend⟩
      have hmem : ∀ d ∈ m, d ≠ 0 := by
        cases hm with
        | digits _ ha =>
            rintro d hd rfl
            exact absurd (ha 0 hd) (by decide)
        | point _ ha =>
            rintro d hd rfl
            rcases List.mem_append.mp hd with hd | hd
            · exact absurd (ha 0 (List.mem_append_left _ hd)) (by decide)
            · rcases List.mem_cons.mp hd with hd | hd
              · exact absurd hd (by decide)
              · exact absurd (ha 0 (List.mem_append_right _ hd)) (by decide)
      obtain ⟨d, t, rfl, -⟩ := mantissa_head hm
      simp only [List.cons_append, List.cons.injEq] at hs
      cases t with
      | cons d' t =>
          simp only [List.cons_append, List.cons.injEq] at hs
          exact hmem d' (by simp) hs.2.1.symm
      | nil =>
          rw [List.nil_append] at hs
          cases he with
          | none =>
              cases b with
              | nil => cases hs.2
              | cons d' b =>
                  have hd' := hb d' List.mem_cons_self
                  rw [← (List.cons.inj hs.2).1] at hd'
                  exact absurd hd' (by decide)
          | some hk _ _ _ =>
              rw [← (List.cons.inj hs.2).1] at hk
              exact absurd hk (by decide)
  | hex _ _ _ =>
      simp only [List.cons_append, List.cons.injEq] at hs
      exact absurd hs.1 (by decide)
  | bin _ _ =>
      simp only [List.cons_append, List.cons.injEq] at hs
      exact absurd hs.1 (by decide)
  | word hv hw =>
      obtain ⟨d, t, rfl, hd⟩ := word_head hv hw
      simp only [List.cons_append, List.cons.injEq] at hs
      rw [← hs.1] at hd
      exact absurd hd (by decide)

/-- Strings that are taken and are not in the grammar without a bound on binary digits, or the other way. -/
def manyBits : GCstr := ⟨ch '0' :: ch 'b' :: List.replicate 65 (ch '1'), by decide⟩
def zeroByte : GCstr := ⟨[ch '1', 0, ch 'x'], by decide⟩
def bitPoint : GCstr := ⟨[ch '0', ch 'b', ch '1', ch '.', ch '0'], by decide⟩

/-- 65 binary digits are too many, a zero byte ends the text, and zeros may follow a point. -/
theorem strscanNum_not_grammar :
    (NumberString Bits manyBits.data ∧ ∀ c, ¬∃ r, strscanNum c manyBits.data = .ok r) ∧
    ((∀ c, ∃ r, strscanNum c zeroByte.data = .ok r) ∧ ¬NumberString Bits zeroByte.data) ∧
    ((∀ c, ∃ r, strscanNum c bitPoint.data = .ok r) ∧ ¬NumberString Bits bitPoint.data) := by
  refine ⟨⟨?_, fun c => ?_⟩, ⟨fun c => ⟨_, rfl⟩, number_ne_zero⟩, fun c => ⟨_, rfl⟩, fun h => ?_⟩
  · have hbits : Bits (List.replicate 65 (ch '1')) :=
      ⟨by decide, fun d hd => .inr (List.eq_of_mem_replicate hd)⟩
    have hnum := NumberString.mk (a := []) (b := []) (fun _ h => by cases h) .none
      (.bin (.inl rfl : Letter 'b' (ch 'b')) hbits) (fun _ h => by cases h)
    rwa [List.append_nil] at hnum
  · have herr : strscanNum c manyBits.data = .error .error := rfl
    rw [herr]
    exact not_error_ok
  · obtain ⟨w, b, hs, ⟨-, hw⟩, hb⟩ := number_bin h
    have hpt : ch '.' ∈ w ++ b := by rw [← hs]; decide
    rcases List.mem_append.mp hpt with hpt | hpt
    · exact absurd (hw _ hpt) (by decide)
    · exact absurd (hb _ hpt) (by decide)

end Strscan
