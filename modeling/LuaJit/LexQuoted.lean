/-
**Quoted strings read back.**

The formatter of `%q` writes control characters with the shortest decimal escape that the byte behind them
permits.  The scanner, on the output, takes one step of its loop for each byte, so the invariant is the
part of the string that is in its buffer.

Main definitions:

* `Lex.quotedChar`, `Lex.putquoted` — the formatter;
* `Lex.LexAt` — what the lexer has read and is about to read, whatever the pieces of the input.

Main results:

* `Lex.putquoted_spec` — what the formatter writes;
* `Lex.lexString_quoted` — the scanner on a quoted string, before any other text;
* `Lex.quoted_reads_back` — **the output of the formatter is one token, the string**.
-/

import LuaJit.Effect
import LuaJit.LexString

set_option relaxedAutoImplicit false
set_option autoImplicit false

namespace Lex

open Buf (SBuf)
open Effect

/-! ### The formatter -/

/-- A character of the output. -/
def out (c : Char) : UInt8 := UInt8.ofNat c.toNat

/-- `lj_char_iscntrl` of a byte. -/
def iscntrl (c : UInt8) : Bool := StrMatch.isa c 0x01

/-- `(c * 205) >> 11`, the tens of a number below a hundred. -/
def tens (c : ℕ) : ℕ := (c * 205) >>> 11

/-- What `lj_strfmt_putquoted` writes for one byte; `next` is the byte behind it. -/
def quotedChar (c next : UInt8) : List UInt8 :=
  if c = out '"' ∨ c = out '\\' ∨ c = out '\n' then [out '\\', c]
  else if iscntrl c then
    let c := c.toNat
    if c ≥ 100 ∨ StrMatch.isdigit next then
      let h := if c ≥ 100 then 1 else 0
      let c := if c ≥ 100 then c - 100 else c
      [out '\\', UInt8.ofNat (48 + h), UInt8.ofNat (48 + tens c), UInt8.ofNat (c - tens c * 10 + 48)]
    else if c ≥ 10 then [out '\\', UInt8.ofNat (48 + tens c), UInt8.ofNat (c - tens c * 10 + 48)]
    else [out '\\', UInt8.ofNat (c + 48)]
  else [c]

/-- The loop of `lj_strfmt_putquoted`; behind the last byte there is a zero. -/
def putquotedLoop : SBuf → List UInt8 → Except Buf.Stop SBuf
  | sb, [] => .ok sb
  | sb, c :: s => do
      let sb ← Buf.more sb 4
      putquotedLoop (sb.append (quotedChar c (s.headD 0))) s

/-- `lj_strfmt_putquoted`. -/
def putquoted (sb : SBuf) (s : List UInt8) : Except Buf.Stop SBuf := do
  let sb ← Buf.putb sb (out '"')
  let sb ← putquotedLoop sb s
  Buf.putb sb (out '"')

/-- The output between the quotes. -/
def quotedBody : List UInt8 → List UInt8
  | [] => []
  | c :: s => quotedChar c (s.headD 0) ++ quotedBody s

/-- The output. -/
def quoted (s : List UInt8) : List UInt8 := out '"' :: quotedBody s ++ [out '"']

variable {sb : SBuf} {c next x : UInt8} {s i b rest : List UInt8} {ls : LexState} {n fuel : ℕ}

/-- A decimal digit. -/
def digit (a : ℕ) : UInt8 := UInt8.ofNat (48 + a)

theorem ofNat_digit (a : ℕ) : UInt8.ofNat (a + 48) = digit a := by
  rw [digit, Nat.add_comm]

/-- The forms of the output for one byte. -/
inductive Escape (c next : UInt8) : List UInt8 → Prop
  | special : c = out '"' ∨ c = out '\\' ∨ c = out '\n' → Escape c next [out '\\', c]
  | plain : ¬(c = out '"' ∨ c = out '\\' ∨ c = out '\n') → iscntrl c = false → Escape c next [c]
  | one (u : ℕ) : u < 10 → c.toNat = u → c ≠ out '\n' → StrMatch.isdigit next = false →
      Escape c next [out '\\', digit u]
  | two (t u : ℕ) : t < 10 → u < 10 → c.toNat = 10 * t + u → c ≠ out '\n' → StrMatch.isdigit next = false →
      Escape c next [out '\\', digit t, digit u]
  | three (h t u : ℕ) : h < 2 → t < 10 → u < 10 → c.toNat = 100 * h + 10 * t + u → c ≠ out '\n' →
      Escape c next [out '\\', digit h, digit t, digit u]

theorem tens_eq {k : ℕ} (hk : k < 100) : tens k = k / 10 := by
  rw [tens, Nat.shiftRight_eq_div_pow]
  lia

theorem iscntrl_le {c : UInt8} (hc : iscntrl c = true) : c.toNat < 200 := by
  by_contra hge
  have hlt := c.toNat_lt
  have hentry : StrMatch.charBits.getD c.toNat 0 = 128 := by
    rw [StrMatch.charBits, List.getD_append_right _ _ _ _ (by simp; omega)]
    simp only [List.length_append, List.length_replicate, List.length_cons]
    rw [show c.toNat - (9 + 5 + 18 + (15 + 1) + 10 + 7 + 6 + 20 + (4 + 1 + 1) + 6 + 20 + 4) = c.toNat - 128 + 1 by lia,
      List.getD_cons_succ]
    exact List.getD_replicate _ (by lia)
  rw [iscntrl, StrMatch.isa, hentry] at hc
  exact absurd hc (by decide)

theorem quotedChar_escape (c next : UInt8) : Escape c next (quotedChar c next) := by
  rw [quotedChar]
  by_cases hspecial : c = out '"' ∨ c = out '\\' ∨ c = out '\n'
  · rw [if_pos hspecial]
    exact .special hspecial
  · have hne : c ≠ out '\n' := fun h => hspecial (.inr (.inr h))
    rw [if_neg hspecial]
    by_cases hcntrl : iscntrl c = true
    · have hle := iscntrl_le hcntrl
      rw [if_pos hcntrl]
      dsimp only
      by_cases hlong : c.toNat ≥ 100 ∨ StrMatch.isdigit next
      · rw [if_pos hlong]
        by_cases hbig : c.toNat ≥ 100
        · rw [if_pos hbig, if_pos hbig, tens_eq (by lia), ofNat_digit (c.toNat - 100 - (c.toNat - 100) / 10 * 10)]
          exact .three 1 ((c.toNat - 100) / 10) (c.toNat - 100 - (c.toNat - 100) / 10 * 10) (by omega) (by lia) (by lia) (by lia) hne
        · rw [if_neg hbig, if_neg hbig, tens_eq (by omega), ofNat_digit (c.toNat - c.toNat / 10 * 10)]
          exact .three 0 (c.toNat / 10) (c.toNat - c.toNat / 10 * 10) (by omega) (by lia) (by lia) (by lia) hne
      · have hnext : StrMatch.isdigit next = false := Bool.eq_false_iff.2 fun h => hlong (.inr h)
        have hsmall : c.toNat < 100 := by
          by_contra hge
          exact hlong (.inl (not_lt.1 hge))
        rw [if_neg hlong]
        by_cases hten : c.toNat ≥ 10
        · rw [if_pos hten, tens_eq hsmall, ofNat_digit]
          exact .two (c.toNat / 10) (c.toNat - c.toNat / 10 * 10) (by lia) (by lia) (by lia) hne hnext
        · rw [if_neg hten, ofNat_digit]
          exact .one _ (by omega) rfl hne hnext
    · rw [if_neg hcntrl]
      exact .plain hspecial (Bool.eq_false_iff.2 hcntrl)

theorem Escape.length_le {q : List UInt8} (h : Escape c next q) : q.length ≤ 4 := by
  cases h <;> simp

theorem Escape.length_pos {q : List UInt8} (h : Escape c next q) :
    1 + (if c = out '\n' then 1 else 0) ≤ q.length := by
  cases h with
  | special _ => split <;> simp
  | plain hc _ =>
      have hne : c ≠ out '\n' := fun h => hc (.inr (.inr h))
      simp [hne]
  | one _ _ _ hc _ => simp [hc]
  | two _ _ _ _ _ hc _ => simp [hc]
  | three _ _ _ _ _ _ _ hc => simp [hc]

/-- Every byte takes one place of the output, every line break two. -/
theorem quotedBody_length : s.length + s.count (out '\n') ≤ (quotedBody s).length := by
  induction s with
  | nil => exact le_rfl
  | cons c s ih =>
      have hc := (quotedChar_escape c (s.headD 0)).length_pos
      rw [quotedBody, List.length_append, List.length_cons, List.count_cons]
      simp only [beq_iff_eq]
      split_ifs at hc ⊢ <;> lia

/-- **The formatter** appends the output, or there is no room for it. -/
theorem putquotedLoop_spec (h : sb.Wf) :
    (∃ sb', putquotedLoop sb s = .ok sb' ∧ sb'.Wf ∧ sb'.b = sb.b ++ quotedBody s) ∨
      (putquotedLoop sb s = .error .mem ∧ Buf.ljMaxBuf < sb.len + (quotedBody s).length + 3) := by
  induction s generalizing sb with
  | nil => exact .inl ⟨sb, rfl, h, (List.append_nil _).symm⟩
  | cons c s ih =>
      have hpos := (quotedChar_escape c (s.headD 0)).length_pos
      have hle := (quotedChar_escape c (s.headD 0)).length_le
      rw [putquotedLoop, quotedBody, List.length_append]
      by_cases hroom : 4 ≤ sb.left ∨ sb.len + 4 ≤ Buf.ljMaxBuf
      · obtain ⟨sb₁, hmore, hwf, hb, hsz⟩ := Buf.more_ok h hroom
        have hlen : sb₁.len = sb.len := by rw [SBuf.len, hb, SBuf.len]
        have hwf' := Buf.append_wf hwf (q := quotedChar c (s.headD 0)) (by lia)
        rw [hmore]
        rcases ih hwf' with ⟨sb', hloop, hwf'', hb'⟩ | ⟨hloop, hmax⟩
        · refine .inl ⟨sb', hloop, hwf'', ?_⟩
          rw [hb', SBuf.append, hb, List.append_assoc]
        · refine .inr ⟨hloop, ?_⟩
          rw [SBuf.len, SBuf.append, List.length_append, hb] at hmax
          rw [SBuf.len]
          lia
      · rw [not_or, not_le, not_le] at hroom
        rw [Buf.more_error hroom.1 hroom.2]
        exact .inr ⟨rfl, by lia⟩

/-! ### Characters -/

/-- The current character when the input from it on is given. -/
def firstChar : List UInt8 → LexChar
  | [] => lexEof
  | b :: _ => ofByte b

theorem firstChar_cons : firstChar (x :: i) = ofByte x := rfl

theorem ofByte_toNat (x : UInt8) : (ofByte x).toNat = x.toNat := by
  have hx := x.toNat_lt
  rw [ofByte, BitVec.toNat_ofNat]
  exact Nat.mod_eq_of_lt (by omega)

theorem ofByte_inj {x y : UInt8} : ofByte x = ofByte y ↔ x = y := by
  rw [← BitVec.toNat_inj, ofByte_toNat, ofByte_toNat, UInt8.toNat_inj]

theorem ofByte_ne_eof (x : UInt8) : ofByte x ≠ lexEof := by
  intro h
  have hx := x.toNat_lt
  have := congrArg BitVec.toNat h
  rw [ofByte_toNat, show lexEof.toNat = 2 ^ 32 - 1 from rfl] at this
  omega

theorem ofNat_ofByte (x : UInt8) : UInt8.ofNat (ofByte x).toNat = x := by
  rw [ofByte_toNat, UInt8.ofNat_toNat]

/-- The table has the classes of bytes behind that of the end of the input. -/
theorem isa_ofByte (x t : UInt8) : isa (ofByte x) t = StrMatch.isa x t := by
  have hx := x.toNat_lt
  have hnat : (ofByte x + 1).toNat = x.toNat + 1 := by
    rw [BitVec.toNat_add, ofByte_toNat, show BitVec.toNat (1 : BitVec 32) = 1 from rfl]
    lia
  rw [isa, hnat, List.getD_cons_succ, StrMatch.isa]

theorem isdigit_ofByte (x : UInt8) : isdigit (ofByte x) = StrMatch.isdigit x := isa_ofByte x _

theorem isdigit_digit {u : ℕ} (hu : u < 10) : isdigit (ofByte (digit u)) = true := by
  interval_cases u <;> decide

theorem digit_value {u : ℕ} (hu : u < 10) : ofByte (digit u) - ch '0' = BitVec.ofNat 32 u := by
  interval_cases u <;> decide

theorem iseol_ofByte (x : UInt8) : iseol (ofByte x) = (x == out '\n' || x == out '\r') := by
  have hn : ch '\n' = ofByte (out '\n') := by decide
  have hr : ch '\r' = ofByte (out '\r') := by decide
  rw [Bool.eq_iff_iff, iseol, hn, hr]
  simp only [Bool.or_eq_true, beq_iff_eq, ofByte_inj]

/-! ### The input of the lexer -/

/-- The lexer is at the input `i`: its first byte is the current character, and the rest is in the pieces.
The buffer holds `b`, and the line is `n`. -/
structure LexAt (ls : LexState) (i b : List UInt8) (n : ℕ) : Prop where
  cur : ls.c = firstChar i
  rest : ls.p ++ ls.rdata.flatten = i.tail
  pieces : ∀ q ∈ ls.rdata, q ≠ []
  buf : ls.sb.b = b
  wf : ls.sb.Wf
  line : ls.linenumber = n

theorem lexCur_at (h : LexAt ls i b n) : lexCur ls = .ok (firstChar i) ls := by
  rw [lexCur, h.cur]

/-- The next character, from whatever piece it is in. -/
theorem lexNext_at (h : LexAt ls i b n) :
    ∃ ls', lexNext ls = .ok (firstChar i.tail) ls' ∧ LexAt ls' i.tail b n := by
  have hrest := h.rest
  rw [lexNext]
  cases hp : ls.p with
  | cons x q =>
      rw [hp, List.cons_append] at hrest
      refine ⟨{ ls with p := q, c := ofByte x }, ?_, ⟨?_, ?_, h.pieces, h.buf, h.wf, h.line⟩⟩
      all_goals
        rw [← hrest]
        rfl
  | nil =>
      rw [hp, List.nil_append] at hrest
      cases hr : ls.rdata with
      | nil =>
          rw [hr, List.flatten_nil] at hrest
          refine ⟨{ ls with c := lexEof }, ?_, ⟨?_, ?_, h.pieces, h.buf, h.wf, h.line⟩⟩
          · rw [← hrest]
            simp only [lexMore, hr]
            rfl
          · rw [← hrest]
            rfl
          · rw [← hrest]
            simp only [hp, hr]
            rfl
      | cons q r =>
          have hpieces : ∀ q ∈ r, q ≠ [] := fun q' hq' => h.pieces q' (hr ▸ List.mem_cons_of_mem _ hq')
          cases q with
          | nil => exact absurd rfl (h.pieces [] (hr ▸ List.mem_cons_self ..))
          | cons x q =>
              rw [hr, List.flatten_cons, List.cons_append] at hrest
              refine ⟨{ ls with p := q, rdata := r, c := ofByte x }, ?_, ⟨?_, ?_, hpieces, h.buf, h.wf, h.line⟩⟩
              · rw [← hrest]
                simp only [lexMore, hr]
                rfl
              all_goals
                rw [← hrest]
                rfl

theorem lexSave_at (h : LexAt ls i b n) (hb : b.length < 2 ^ 31) (c : LexChar) :
    ∃ ls', lexSave c ls = .ok () ls' ∧ LexAt ls' i (b ++ [UInt8.ofNat c.toNat]) n := by
  obtain ⟨sb, hput, hwf, hsb⟩ := Buf.putb_ok h.wf (by rwa [SBuf.len, h.buf]) (UInt8.ofNat c.toNat)
  rw [h.buf] at hsb
  refine ⟨{ ls with sb := sb }, ?_, ⟨h.cur, h.rest, h.pieces, hsb, hwf, h.line⟩⟩
  rw [lexSave, hput]

/-- A byte is saved, and the next one is read. -/
theorem lexSaveThen_at (h : LexAt ls i b n) (hb : b.length < 2 ^ 31) (c : LexChar) :
    ∃ ls', lexSaveThen c ls = .ok () ls' ∧ LexAt ls' i.tail (b ++ [UInt8.ofNat c.toNat]) n := by
  obtain ⟨ls₁, hsave, h₁⟩ := lexSave_at h hb c
  obtain ⟨ls₂, hnext, h₂⟩ := lexNext_at h₁
  refine ⟨ls₂, ?_, h₂⟩
  rw [lexSaveThen, bind_ok hsave, bind_ok hnext]
  rfl

theorem lexSavenext_at (h : LexAt ls (x :: i) b n) (hb : b.length < 2 ^ 31) :
    ∃ ls', lexSavenext ls = .ok (firstChar i) ls' ∧ LexAt ls' i (b ++ [x]) n := by
  obtain ⟨ls₁, hsave, h₁⟩ := lexSave_at h hb (ofByte x)
  obtain ⟨ls₂, hnext, h₂⟩ := lexNext_at h₁
  rw [ofNat_ofByte] at h₂
  refine ⟨ls₂, ?_, h₂⟩
  rw [lexSavenext, bind_ok (lexCur_at h)]
  exact (bind_ok hsave).trans hnext

/-- A line break that no other one follows. -/
theorem lexNewline_at (h : LexAt ls (x :: i) b n) (hi : iseol (firstChar i) = false) (hn : n + 1 < ljMaxLine) :
    ∃ ls', lexNewline ls = .ok () ls' ∧ LexAt ls' i b (n + 1) := by
  obtain ⟨ls₁, hnext, h₁⟩ := lexNext_at h
  refine ⟨{ ls₁ with linenumber := n + 1 }, ?_, ⟨h₁.cur, h₁.rest, h₁.pieces, h₁.buf, h₁.wf, rfl⟩⟩
  have hcount : lexCountLine ls₁ = .ok (n + 1) { ls₁ with linenumber := n + 1 } := by
    rw [lexCountLine, h₁.line]
  rw [lexNewline, bind_ok (lexCur_at h), bind_ok hnext, if_neg]
  · dsimp only
    rw [bind_ok hcount, if_neg (not_le.2 hn)]
    rfl
  · rw [List.tail_cons, hi]
    exact fun hno => Bool.false_ne_true hno.1

/-! ### Escapes -/

theorem letterEscape_none {c : LexChar} (h : letterEscape c = none) (hx : c ≠ ch 'x') (hu : c ≠ ch 'u')
    (hz : c ≠ ch 'z') (hl : iseol c = false) (hq : ¬(c = ch '\\' ∨ c = ch '"' ∨ c = ch '\'')) (he : c ≠ lexEof)
    {ls' : LexState} (hnext : lexNext ls = .ok c ls') : lexEscape ls = lexDecEscape c ls' := by
  rw [lexEscape, bind_ok hnext]
  simp only [h, if_neg hx, if_neg hu, if_neg hz, hl, Bool.false_eq_true, if_false, if_neg hq, if_neg he]

/-- A digit is none of the other escapes. -/
theorem lexEscape_digit {u : ℕ} (hu : u < 10) (h : LexAt ls (x :: digit u :: i) b n) :
    ∃ ls', lexEscape ls = lexDecEscape (ofByte (digit u)) ls' ∧ LexAt ls' (digit u :: i) b n := by
  obtain ⟨ls', hnext, h'⟩ := lexNext_at h
  refine ⟨ls', ?_, h'⟩
  interval_cases u <;>
    exact letterEscape_none (by decide) (by decide) (by decide) (by decide) (by decide) (by decide) (by decide) hnext

/-- The escape of a quote, a backslash or a line break. -/
theorem lexEscape_special {c : UInt8} (hc : c = out '"' ∨ c = out '\\' ∨ c = out '\n')
    (h : LexAt ls (x :: c :: i) b n) (hi : iseol (firstChar i) = false) (hb : b.length < 2 ^ 31)
    (hn : n + 1 < ljMaxLine) :
    ∃ ls', lexEscape ls = .ok () ls' ∧ LexAt ls' i (b ++ [c]) (n + if c = out '\n' then 1 else 0) := by
  obtain ⟨ls₁, hnext, h₁⟩ := lexNext_at h
  rcases hc with rfl | rfl | rfl
  · obtain ⟨ls₂, hsave, h₂⟩ := lexSaveThen_at h₁ hb (ofByte (out '"'))
    exact ⟨ls₂, (bind_ok hnext).trans hsave, h₂⟩
  · obtain ⟨ls₂, hsave, h₂⟩ := lexSaveThen_at h₁ hb (ofByte (out '\\'))
    exact ⟨ls₂, (bind_ok hnext).trans hsave, h₂⟩
  · obtain ⟨ls₂, hsave, h₂⟩ := lexSave_at h₁ hb (ch '\n')
    obtain ⟨ls₃, hline, h₃⟩ := lexNewline_at h₂ hi hn
    exact ⟨ls₃, (bind_ok hnext).trans ((bind_ok hsave).trans hline), h₃⟩

theorem ofNat_dec (t u : ℕ) : BitVec.ofNat 32 t * 10 + BitVec.ofNat 32 u = BitVec.ofNat 32 (10 * t + u) := by
  rw [Nat.mul_comm, BitVec.ofNat_add, BitVec.ofNat_mul]
  rfl

theorem ofNat_toNat_byte {k : ℕ} (hk : c.toNat = k) : UInt8.ofNat (BitVec.ofNat 32 k).toNat = c := by
  have hc := c.toNat_lt
  rw [BitVec.toNat_ofNat, Nat.mod_eq_of_lt (by omega), ← hk, UInt8.ofNat_toNat]

/-- One digit. -/
theorem lexDecEscape_one {u : ℕ} (hu : u < 10) (hc : c.toNat = u) (h : LexAt ls (digit u :: i) b n)
    (hi : isdigit (firstChar i) = false) (hb : b.length < 2 ^ 31) :
    ∃ ls', lexDecEscape (ofByte (digit u)) ls = .ok () ls' ∧ LexAt ls' i (b ++ [c]) n := by
  obtain ⟨ls₁, hnext, h₁⟩ := lexNext_at h
  obtain ⟨ls₂, hsave, h₂⟩ := lexSave_at h₁ hb (BitVec.ofNat 32 u)
  rw [ofNat_toNat_byte hc] at h₂
  refine ⟨ls₂, ?_, h₂⟩
  rw [List.tail_cons] at hnext
  rw [lexDecEscape, if_pos (isdigit_digit hu), digit_value hu]
  refine (bind_ok hnext).trans ?_
  rw [if_neg (Bool.eq_false_iff.1 hi)]
  exact hsave

/-- Two digits. -/
theorem lexDecEscape_two {t u : ℕ} (ht : t < 10) (hu : u < 10) (hc : c.toNat = 10 * t + u)
    (h : LexAt ls (digit t :: digit u :: i) b n) (hi : isdigit (firstChar i) = false) (hb : b.length < 2 ^ 31) :
    ∃ ls', lexDecEscape (ofByte (digit t)) ls = .ok () ls' ∧ LexAt ls' i (b ++ [c]) n := by
  obtain ⟨ls₁, hnext, h₁⟩ := lexNext_at h
  obtain ⟨ls₂, hnext', h₂⟩ := lexNext_at h₁
  obtain ⟨ls₃, hsave, h₃⟩ := lexSave_at h₂ hb (BitVec.ofNat 32 (10 * t + u))
  rw [ofNat_toNat_byte hc] at h₃
  refine ⟨ls₃, ?_, h₃⟩
  simp only [List.tail_cons, firstChar_cons] at hnext hnext'
  rw [lexDecEscape, if_pos (isdigit_digit ht), digit_value ht]
  refine (bind_ok hnext).trans ?_
  rw [if_pos (isdigit_digit hu), digit_value hu, ofNat_dec]
  refine (bind_ok hnext').trans ?_
  rw [if_neg (Bool.eq_false_iff.1 hi)]
  exact hsave

/-- Three digits, of a byte. -/
theorem lexDecEscape_three {k t u : ℕ} (hk : k < 10) (ht : t < 10) (hu : u < 10)
    (hc : c.toNat = 10 * (10 * k + t) + u) (h : LexAt ls (digit k :: digit t :: digit u :: i) b n)
    (hb : b.length < 2 ^ 31) :
    ∃ ls', lexDecEscape (ofByte (digit k)) ls = .ok () ls' ∧ LexAt ls' i (b ++ [c]) n := by
  have hbyte := c.toNat_lt
  obtain ⟨ls₁, hnext, h₁⟩ := lexNext_at h
  obtain ⟨ls₂, hnext', h₂⟩ := lexNext_at h₁
  obtain ⟨ls₃, hnext'', h₃⟩ := lexNext_at h₂
  obtain ⟨ls₄, hsave, h₄⟩ := lexSave_at h₃ hb (BitVec.ofNat 32 (10 * (10 * k + t) + u))
  rw [ofNat_toNat_byte hc] at h₄
  refine ⟨ls₄, ?_, h₄⟩
  simp only [List.tail_cons, firstChar_cons] at hnext hnext' hnext''
  rw [lexDecEscape, if_pos (isdigit_digit hk), digit_value hk]
  refine (bind_ok hnext).trans ?_
  rw [if_pos (isdigit_digit ht), digit_value ht, ofNat_dec]
  refine (bind_ok hnext').trans ?_
  rw [if_pos (isdigit_digit hu), digit_value hu, ofNat_dec, if_neg]
  · exact (bind_ok hnext'').trans hsave
  · rw [BitVec.toNat_ofNat]
    lia

/-! ### The loop -/

/-- A loop whose current character is not the end. -/
theorem lexStringLoop_escape (h : LexAt ls (out '\\' :: i) b n) {ls' : LexState}
    (hesc : lexEscape ls = .ok () ls') :
    lexStringLoop (ch '"') (fuel + 1) ls = lexStringLoop (ch '"') fuel ls' := by
  rw [lexStringLoop, bind_ok (lexCur_at h), firstChar_cons, if_neg (by decide), if_neg (by decide),
    if_neg (by decide), if_pos (by decide)]
  exact bind_ok hesc

theorem lexStringLoop_plain {c : UInt8} (hc : ¬(c = out '"' ∨ c = out '\\' ∨ c = out '\n'))
    (hcntrl : iscntrl c = false) (h : LexAt ls (c :: i) b n) (hb : b.length < 2 ^ 31) :
    ∃ ls', lexStringLoop (ch '"') (fuel + 1) ls = lexStringLoop (ch '"') fuel ls' ∧ LexAt ls' i (b ++ [c]) n := by
  obtain ⟨ls', hsave, h'⟩ := lexSavenext_at h hb
  refine ⟨ls', ?_, h'⟩
  rw [not_or, not_or] at hc
  have hquote : ofByte c ≠ ch '"' := fun h => hc.1 (ofByte_inj.1 h)
  have hslash : ofByte c ≠ ch '\\' := fun h => hc.2.1 (ofByte_inj.1 h)
  have hcr : c ≠ out '\r' := by
    rintro rfl
    exact absurd hcntrl (by decide)
  have heol : ¬iseol (ofByte c) = true := by
    rw [iseol_ofByte, Bool.or_eq_true, beq_iff_eq, beq_iff_eq, not_or]
    exact ⟨hc.2.2, hcr⟩
  rw [lexStringLoop, bind_ok (lexCur_at h), firstChar_cons, if_neg hquote, if_neg (ofByte_ne_eof c), if_neg heol,
    if_neg hslash]
  exact bind_ok hsave

/-- **One byte of the string** is one step of the loop. -/
theorem lexStringLoop_escaped (fuel : ℕ) {q : List UInt8} (hq : Escape c next q) (h : LexAt ls (q ++ i) b n)
    (hnext : isdigit (firstChar i) = true → StrMatch.isdigit next = true) (hi : iseol (firstChar i) = false)
    (hb : b.length < 2 ^ 31) (hn : n + 1 < ljMaxLine) :
    ∃ ls', lexStringLoop (ch '"') (fuel + 1) ls = lexStringLoop (ch '"') fuel ls' ∧
      LexAt ls' i (b ++ [c]) (n + if c = out '\n' then 1 else 0) := by
  have hnot : StrMatch.isdigit next = false → isdigit (firstChar i) = false := by
    intro hno
    by_contra hd
    rw [hnext (Bool.eq_true_of_not_eq_false hd)] at hno
    exact absurd hno (by decide)
  cases hq with
  | special hc =>
      obtain ⟨ls', hesc, h'⟩ := lexEscape_special hc h hi hb hn
      exact ⟨ls', lexStringLoop_escape h hesc, h'⟩
  | plain hc hcntrl =>
      rw [if_neg fun hl => hc (.inr (.inr hl))]
      exact lexStringLoop_plain hc hcntrl h hb
  | one u hu hc hne hno =>
      obtain ⟨ls₁, hesc, h₁⟩ := lexEscape_digit hu h
      obtain ⟨ls', hdec, h'⟩ := lexDecEscape_one hu hc h₁ (hnot hno) hb
      rw [if_neg hne]
      exact ⟨ls', lexStringLoop_escape h (hesc.trans hdec), h'⟩
  | two t u ht hu hc hne hno =>
      obtain ⟨ls₁, hesc, h₁⟩ := lexEscape_digit ht h
      obtain ⟨ls', hdec, h'⟩ := lexDecEscape_two ht hu hc h₁ (hnot hno) hb
      rw [if_neg hne]
      exact ⟨ls', lexStringLoop_escape h (hesc.trans hdec), h'⟩
  | three k t u hk ht hu hc hne =>
      have hk' : k < 10 := by omega
      obtain ⟨ls₁, hesc, h₁⟩ := lexEscape_digit hk' h
      obtain ⟨ls', hdec, h'⟩ := lexDecEscape_three (c := c) hk' ht hu (by lia) h₁ hb
      rw [if_neg hne]
      exact ⟨ls', lexStringLoop_escape h (hesc.trans hdec), h'⟩

/-- The output for a byte begins with a backslash or is the byte. -/
theorem Escape.head {q : List UInt8} (hq : Escape c next q) :
    (∃ t, q = out '\\' :: t) ∨ (q = [c] ∧ c ≠ out '\n' ∧ c ≠ out '\r') := by
  cases hq with
  | special _ => exact .inl ⟨_, rfl⟩
  | plain hc hcntrl =>
      refine .inr ⟨rfl, fun hl => hc (.inr (.inr hl)), ?_⟩
      rintro rfl
      exact absurd hcntrl (by decide)
  | one _ _ _ _ _ => exact .inl ⟨_, rfl⟩
  | two _ _ _ _ _ _ _ => exact .inl ⟨_, rfl⟩
  | three _ _ _ _ _ _ _ _ => exact .inl ⟨_, rfl⟩

/-- The output behind a byte is at no line break, and at a digit only if the next byte is one. -/
theorem firstChar_body :
    iseol (firstChar (quotedBody s ++ out '"' :: rest)) = false ∧
      (isdigit (firstChar (quotedBody s ++ out '"' :: rest)) = true → StrMatch.isdigit (s.headD 0) = true) := by
  cases s with
  | nil =>
      rw [quotedBody, List.nil_append, firstChar_cons]
      exact ⟨by decide, fun h => absurd h (by decide)⟩
  | cons c s =>
      rw [quotedBody, List.headD_cons]
      rcases (quotedChar_escape c (s.headD 0)).head with ⟨t, ht⟩ | ⟨hq, hl, hcr⟩
      · rw [ht, List.cons_append, List.cons_append, firstChar_cons]
        exact ⟨by decide, fun h => absurd h (by decide)⟩
      · rw [hq, List.append_assoc, List.singleton_append, firstChar_cons, isdigit_ofByte, iseol_ofByte]
        refine ⟨?_, id⟩
        rw [Bool.or_eq_false_iff, beq_eq_false_iff_ne, beq_eq_false_iff_ne]
        exact ⟨hl, hcr⟩

/-- **The loop** reads the output between the quotes: the buffer gets the string. -/
theorem lexStringLoop_body (fuel : ℕ) (h : LexAt ls (quotedBody s ++ out '"' :: rest) b n) (hfuel : s.length < fuel)
    (hb : b.length + s.length ≤ 2 ^ 31) (hn : n + s.count (out '\n') < ljMaxLine - 1) :
    ∃ ls', lexStringLoop (ch '"') fuel ls = .ok () ls' ∧
      LexAt ls' (out '"' :: rest) (b ++ s) (n + s.count (out '\n')) := by
  induction s generalizing ls b n fuel with
  | nil =>
      obtain ⟨fuel, rfl⟩ := Nat.exists_eq_succ_of_ne_zero (Nat.ne_of_gt hfuel)
      refine ⟨ls, ?_, ?_⟩
      · rw [quotedBody, List.nil_append] at h
        rw [lexStringLoop, bind_ok (lexCur_at h), firstChar_cons, if_pos (by decide)]
        rfl
      · rwa [List.append_nil]
  | cons c s ih =>
      obtain ⟨fuel, rfl⟩ := Nat.exists_eq_succ_of_ne_zero (Nat.ne_of_gt ((Nat.zero_le _).trans_lt hfuel))
      rw [List.length_cons] at hfuel hb
      have hcount : (c :: s).count (out '\n') = (if c = out '\n' then 1 else 0) + s.count (out '\n') := by
        rw [List.count_cons, Nat.add_comm]
        simp only [beq_iff_eq]
      rw [hcount] at hn ⊢
      rw [quotedBody, List.append_assoc] at h
      obtain ⟨heol, hdigit⟩ := @firstChar_body s rest
      obtain ⟨ls₁, hstep, h₁⟩ := lexStringLoop_escaped fuel (quotedChar_escape c (s.headD 0)) h hdigit heol
        (by omega) (by lia)
      obtain ⟨ls', hloop, h'⟩ := ih fuel h₁ (by omega) (by rw [List.length_append]; simp only [List.length_cons, List.length_nil]; omega)
        (by lia)
      refine ⟨ls', hstep.trans hloop, ?_⟩
      rw [List.append_assoc, List.singleton_append, Nat.add_assoc] at h'
      exact h'

/-- There is fuel for every byte of the input. -/
theorem room_ge (h : LexAt ls i b n) : i.length ≤ ls.room := by
  have hrest := congrArg List.length h.rest
  rw [List.length_append, List.length_flatten, List.length_tail] at hrest
  have hsum : (ls.rdata.map List.length).sum ≤ (ls.rdata.map fun q => q.length + 1).sum :=
    List.sum_le_sum fun q _ => Nat.le_succ _
  rw [LexState.room]
  lia

/-- **The scanner on a quoted string**, with any text behind it. -/
theorem lexString_quoted (h : LexAt ls (quoted s ++ rest) [] n) (hs : s.length < ljMaxStr)
    (hn : n + s.count (out '\n') < ljMaxLine - 1) :
    ∃ ls', lexString ls = .ok s ls' ∧ LexAt ls' rest (out '"' :: s ++ [out '"']) (n + s.count (out '\n')) := by
  have hs' : s.length < 0x7fffff00 := hs
  have hq : quoted s ++ rest = out '"' :: (quotedBody s ++ out '"' :: rest) := by
    rw [quoted, List.cons_append, List.cons_append, List.append_assoc, List.singleton_append]
  rw [hq] at h
  obtain ⟨ls₁, hopen, h₁⟩ := lexSavenext_at h (by decide)
  have hroom := room_ge h₁
  have hlen := @quotedBody_length s
  rw [List.length_append, List.length_cons] at hroom
  obtain ⟨ls₂, hloop, h₂⟩ := lexStringLoop_body ls₁.room h₁ (by lia)
    (by simp only [List.length_append, List.length_cons, List.length_nil]; omega) hn
  obtain ⟨ls₃, hclose, h₃⟩ := lexSavenext_at h₂ (by
    simp only [List.length_append, List.length_cons, List.length_nil]
    omega)
  have hroomEq : lexRoom ls₁ = .ok ls₁.room ls₁ := rfl
  refine ⟨ls₃, ?_, h₃⟩
  rw [lexString, bind_ok (lexCur_at h)]
  refine (bind_ok hopen).trans ((bind_ok hroomEq).trans ((bind_ok hloop).trans ((bind_ok hclose).trans ?_)))
  have hlen : ls₃.sb.len - 2 = s.length := by
    rw [SBuf.len, h₃.buf]
    simp
  have hstr : (ls₃.sb.b.drop 1).take (ls₃.sb.len - 2) = s := by
    rw [hlen, h₃.buf]
    simp
  rw [lexKeepstr, hstr, if_neg (not_le.2 hs)]

/-! ### The whole -/

/-- A string object. -/
structure GCstr where
  bytes : List UInt8
  short : bytes.length < ljMaxStr

/-- The lexer at the start of a source. -/
theorem lexSetup_at {rdata : List (List UInt8)} (h : ∀ q ∈ rdata, q ≠ []) :
    LexAt (lexSetup rdata) rdata.flatten [] 1 := by
  rw [lexSetup]
  cases rdata with
  | nil => exact ⟨rfl, rfl, h, rfl, Buf.init_wf, rfl⟩
  | cons q r =>
      cases q with
      | nil => exact absurd rfl (h [] (List.mem_cons_self ..))
      | cons x q => exact ⟨rfl, rfl, fun q' hq' => h q' (List.mem_cons_of_mem _ hq'), rfl, Buf.init_wf, rfl⟩

theorem wf_sz_le (h : sb.Wf) : sb.sz ≤ 2 ^ 31 := by
  rcases h.size with hz | ⟨k, hk, hz⟩
  · omega
  · have hpow : 2 ^ k ≤ 2 ^ 26 := Nat.pow_le_pow_right (by decide) hk
    rw [hz, Buf.ljMinSbuf]
    omega

/-- `lj_strfmt_putquoted` appends the output, unless it is too long. -/
theorem putquoted_spec (h : sb.Wf) :
    (∃ sb', putquoted sb s = .ok sb' ∧ sb'.b = sb.b ++ quoted s ∧ (quoted s).length ≤ 2 ^ 31) ∨
      (putquoted sb s = .error .mem ∧ Buf.ljMaxBuf < sb.len + (quoted s).length + 2) := by
  have hquoted : (quoted s).length = (quotedBody s).length + 2 := by simp [quoted]
  rcases Buf.putb_cases h (out '"') with ⟨sb₁, hput, hwf, hb⟩ | ⟨hput, hmax⟩
  · have hlen : sb₁.len = sb.len + 1 := by rw [SBuf.len, hb, List.length_append]; rfl
    rcases putquotedLoop_spec (s := s) hwf with ⟨sb₂, hloop, hwf₂, hb₂⟩ | ⟨hloop, hmax⟩
    · have hlen₂ : sb₂.len = sb₁.len + (quotedBody s).length := by rw [SBuf.len, hb₂, List.length_append]; rfl
      rcases Buf.putb_cases hwf₂ (out '"') with ⟨sb₃, hput₃, hwf₃, hb₃⟩ | ⟨hput₃, hmax⟩
      · refine .inl ⟨sb₃, ?_, ?_, ?_⟩
        · rw [putquoted, hput]
          change (putquotedLoop sb₁ s).bind _ = _
          rw [hloop]
          exact hput₃
        · rw [hb₃, hb₂, hb, quoted]
          simp
        · have hfits := hwf₃.fits.trans (wf_sz_le hwf₃)
          rw [SBuf.len, hb₃, hb₂, hb] at hfits
          simp only [List.length_append, List.length_cons, List.length_nil] at hfits
          lia
      · refine .inr ⟨?_, by lia⟩
        rw [putquoted, hput]
        change (putquotedLoop sb₁ s).bind _ = _
        rw [hloop]
        exact hput₃
    · refine .inr ⟨?_, by lia⟩
      rw [putquoted, hput]
      change (putquotedLoop sb₁ s).bind _ = _
      rw [hloop]
      rfl
  · refine .inr ⟨?_, by omega⟩
    rw [putquoted, hput]
    rfl

/-- **The output reads back.**  If the output of the formatter is not too long for a buffer, then the scanner
reads it, in whatever pieces it comes, as one token, the string, and nothing is left. -/
theorem quoted_reads_back (sb : SBuf) (hwf : sb.Wf) (str : GCstr) :
    match putquoted sb str.bytes with
    | .error e => e = .mem ∧ Buf.ljMaxBuf < sb.len + (quoted str.bytes).length + 2
    | .ok sb' => ∃ o, sb'.b = sb.b ++ o ∧ ∀ rdata : List (List UInt8), (∀ q ∈ rdata, q ≠ []) → rdata.flatten = o →
        ∃ ls, lexString (lexSetup rdata) = .ok str.bytes ls ∧ ls.c = lexEof ∧ ls.p = [] ∧ ls.rdata = [] := by
  rcases putquoted_spec (s := str.bytes) hwf with ⟨sb', hput, hb, hlen⟩ | ⟨hput, hmax⟩
  · rw [hput]
    refine ⟨quoted str.bytes, hb, fun rdata hpieces hflat => ?_⟩
    have hat := lexSetup_at hpieces
    rw [hflat, ← List.append_nil (quoted str.bytes)] at hat
    have hlines := @quotedBody_length str.bytes
    have hcount := List.count_le_length (a := out '\n') (l := str.bytes)
    have hquoted : (quoted str.bytes).length = (quotedBody str.bytes).length + 2 := by simp [quoted]
    obtain ⟨ls, hstring, hls⟩ := lexString_quoted hat str.short (by rw [ljMaxLine]; lia)
    have hrest := hls.rest
    rw [List.tail_nil, List.append_eq_nil_iff, List.flatten_eq_nil_iff] at hrest
    refine ⟨ls, hstring, hls.cur, hrest.1, List.eq_nil_iff_forall_not_mem.2 fun q hq => hls.pieces q hq (hrest.2 q hq)⟩
  · rw [hput]
    exact ⟨rfl, hmax⟩

/-- A line break, a carriage return and a digit, in two pieces. -/
theorem quoted_reads_back_three :
    ∃ ls, lexString (lexSetup [[out '"', out '\\', out '\n', out '\\'], [out '0', out '1', out '3', out '1', out '"']]) =
      .ok [out '\n', out '\r', out '1'] ls ∧ ls.c = lexEof := by
  have h := quoted_reads_back .init Buf.init_wf ⟨[out '\n', out '\r', out '1'], by decide⟩
  have hput : putquoted .init [out '\n', out '\r', out '1'] =
      .ok ⟨[out '"', out '\\', out '\n', out '\\', out '0', out '1', out '3', out '1', out '"'], 32⟩ := rfl
  dsimp only at h
  rw [hput] at h
  obtain ⟨o, ho, hread⟩ := h
  obtain ⟨ls, hstring, heof, -, -⟩ := hread [[out '"', out '\\', out '\n', out '\\'], [out '0', out '1', out '3', out '1', out '"']]
    (by decide) ho
  exact ⟨ls, hstring, heof⟩

end Lex
