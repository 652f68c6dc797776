/-
**Substitution and iteration cover the subject.**

The loop of a substitution goes on by at least one character, so it ends, and what it adds to the buffer
stands for consecutive parts of the subject.  The iterator goes on to the next position after an empty
match.

Main definitions:

* `StrMatch.Covered` — the pieces of a result cover the subject;
* `StrMatch.Leftmost` — a list of matches, each the leftmost one.

Main results:

* `StrMatch.gsub_covers`, `StrMatch.gmatch_leftmost` — both functions;
* `StrMatch.gsub_gmatch_cover` — **they cover the subject once**.
-/

import LuaJit.StrSound

set_option relaxedAutoImplicit false
set_option autoImplicit false

namespace StrMatch

variable {src : Subject} {W : Type}

/-! ### The pattern in memory -/

/-- The pattern up to its terminator. -/
def cstr (p : List UInt8) : List UInt8 := p.takeWhile (· ≠ 0)

theorem zero_not_mem_cstr (p : List UInt8) : 0 ∉ cstr p := by
  intro h
  have := List.mem_takeWhile_imp h
  simp at this

theorem exists_text (p : List UInt8) : ∃ t, p ++ [0] = text (cstr p) t := by
  induction p with
  | nil => exact ⟨[], rfl⟩
  | cons c p ih =>
    by_cases hc : c = 0
    · refine ⟨p ++ [0], ?_⟩
      rw [cstr, List.takeWhile_cons_of_neg (by simpa using hc), hc, text_nil, List.cons_append]
    · obtain ⟨t, ht⟩ := ih
      refine ⟨t, ?_⟩
      rw [cstr, List.takeWhile_cons_of_pos (by simpa using hc), text_cons, List.cons_append, ht]
      rfl

/-- The matches at a position, without captures so far. -/
def matchesAt (src : Subject) (p : List UInt8) (s : ℕ) : List Outcome := sols src (parse (cstr p)) s []

/-- The matcher raises no error. -/
def NoError (src : Subject) (p : List UInt8) : Prop :=
  ∀ s ≤ src.size, ∀ capture, ∃ r, match_ src maxXlevel ⟨0, capture⟩ s (p ++ [0]) = .ok r

/-- A call of the matcher from the outside. -/
theorem match_cases {p : List UInt8} (hp : NoError src p) {s : ℕ} (hs : s ≤ src.size) (capture : ℕ → Capture) :
    (∃ e ms caps, match_ src maxXlevel ⟨0, capture⟩ s (p ++ [0]) = .ok (some e, ms) ∧ s ≤ e ∧ e ≤ src.size ∧
      (matchesAt src p s).head? = some (.ok (e, caps))) ∨
    ∃ ms, match_ src maxXlevel ⟨0, capture⟩ s (p ++ [0]) = .ok (none, ms) ∧ matchesAt src p s = [] := by
  obtain ⟨t, ht⟩ := exists_text p
  have h : Meets _ _ (matchesAt src p s) :=
    match_meets maxXlevel ⟨0, capture⟩ s (cstr p) t ⟨Nat.zero_le _, nofun, nofun⟩ hs (zero_not_mem_cstr p)
  obtain ⟨⟨e, ms⟩, hr⟩ := hp s hs capture
  rw [ht] at hr
  rw [hr] at h
  rw [ht]
  cases e with
  | none => exact .inr ⟨ms, hr, h.1⟩
  | some e =>
    have hrange := sols_range _ hs (List.mem_of_head? h)
    exact .inl ⟨e, ms, ms.caps, hr, hrange.1, hrange.2, h⟩

/-! ### Substitution -/

/-- Pieces for consecutive parts, from one position to another. -/
def Tiles : ℕ → ℕ → List Piece → Prop
  | lo, hi, [] => lo = hi
  | lo, hi, p :: ps => p.lo = lo ∧ p.lo ≤ p.hi ∧ Tiles p.hi hi ps

theorem Tiles.append {lo mid hi : ℕ} {a b : List Piece} (ha : Tiles lo mid a) (hb : Tiles mid hi b) :
    Tiles lo hi (a ++ b) := by
  induction a generalizing lo with
  | nil =>
    cases ha
    exact hb
  | cons p ps ih => exact ⟨ha.1, ha.2.1, ih ha.2.2⟩

theorem Tiles.le {lo hi : ℕ} {a : List Piece} (h : Tiles lo hi a) : lo ≤ hi := by
  induction a generalizing lo with
  | nil => exact Nat.le_of_eq h
  | cons p ps ih => exact h.1 ▸ h.2.1.trans (ih h.2.2)

/-- The replacement gives a text for a match. -/
def Gives (src : Subject) (repl : Repl W) (s e : ℕ) (out : List UInt8) : Prop :=
  ∃ ms w w', addValue src repl ms s e w = .ok (out, w')

/-- The pieces of a result cover the subject: they stand for consecutive parts, what is matched is
replaced, what is not matched is copied, and there is one substitution for each match. -/
structure Covered (src : Subject) (repl : Repl W) (hi : ℕ) (b : List Piece) (n : ℕ) : Prop where
  tiles : Tiles 0 hi b
  replaced : ∀ p ∈ b, p.matched = true → Gives src repl p.lo p.hi p.out
  copied : ∀ p ∈ b, p.matched = false → p.out = src.sub p.lo p.hi
  count : n = b.countP fun p => p.matched

theorem Covered.snoc {repl : Repl W} {lo hi n : ℕ} {b : List Piece} (h : Covered src repl lo b n) (hle : lo ≤ hi)
    {m : Bool} {out : List UInt8} (hrepl : m = true → Gives src repl lo hi out)
    (hcopy : m = false → out = src.sub lo hi) :
    Covered src repl hi (b ++ [⟨m, lo, hi, out⟩]) (if m then n + 1 else n) := by
  refine ⟨h.tiles.append ⟨rfl, hle, rfl⟩, fun p hp hm => ?_, fun p hp hm => ?_, ?_⟩
  · rcases List.mem_append.1 hp with hp | hp
    · exact h.replaced p hp hm
    · cases List.mem_singleton.1 hp
      exact hrepl hm
  · rcases List.mem_append.1 hp with hp | hp
    · exact h.copied p hp hm
    · cases List.mem_singleton.1 hp
      exact hcopy hm
  · rw [List.countP_append, ← h.count]
    cases m <;> rfl

theorem sub_append {lo mid hi : ℕ} (h₁ : lo ≤ mid) (h₂ : mid ≤ hi) :
    src.sub lo mid ++ src.sub mid hi = src.sub lo hi := by
  have hmid : lo + (mid - lo) = mid := by lia
  have hlen : hi - lo = (mid - lo) + (hi - mid) := by lia
  rw [Subject.sub, Subject.sub, Subject.sub, hlen, List.take_add, List.drop_drop, hmid]

/-- The parts that the pieces stand for give the subject. -/
theorem Tiles.flatten {lo hi : ℕ} {b : List Piece} (h : Tiles lo hi b) :
    (b.map fun p => src.sub p.lo p.hi).flatten = src.sub lo hi := by
  induction b generalizing lo with
  | nil =>
    cases h
    rw [Subject.sub, Nat.sub_self, List.take_zero]
    rfl
  | cons p ps ih =>
    obtain ⟨rfl, hle, hps⟩ := h
    rw [List.map_cons, List.flatten_cons, ih hps, sub_append hle hps.le]

/-- The errors that the replacement raises: there is no such capture, or the code that it runs fails or
gives no string. -/
def ReplErr (src : Subject) (repl : Repl W) (x : GsubErr) : Prop :=
  (∃ ms s e w, addValue src repl ms s e w = .error x) ∧ (x = .gsrv ∨ x = .callee ∨ ∃ y, x = .err (.pat y))

theorem pushOnecapture_err {ms : MatchState} {i s e : ℕ} {x : Err} (h : pushOnecapture src ms i s e = .error x) :
    ∃ y, x = .pat y := by
  rw [pushOnecapture] at h
  split at h
  · split at h
    · cases h
    · cases h
      exact ⟨_, rfl⟩
  · dsimp only at h
    split at h
    · cases h
      exact ⟨_, rfl⟩
    · split at h <;> cases h

theorem mapM_err {α β : Type} {f : α → Except Err β} (hf : ∀ a x, f a = .error x → ∃ y, x = Err.pat y) (l : List α)
    {x : Err} (h : l.mapM f = .error x) : ∃ y, x = .pat y := by
  induction l generalizing x with
  | nil => cases h
  | cons a l ih =>
    rw [List.mapM_cons] at h
    cases ha : f a with
    | error z =>
      rw [ha] at h
      cases h
      exact hf a _ ha
    | ok b =>
      rw [ha, ok_bind] at h
      cases hl : l.mapM f with
      | error z =>
        rw [hl] at h
        cases h
        exact ih hl
      | ok bs =>
        rw [hl] at h
        cases h

theorem addS_err {ms : MatchState} {s e : ℕ} (news : List UInt8) {x : Err} (h : addS src ms s e news = .error x) :
    ∃ y, x = .pat y := by
  have hbind : ∀ {r : Except Err (List UInt8)} {f : List UInt8 → List UInt8} {x : Err},
      (r >>= fun a => pure (f a)) = .error x → r = .error x := by
    intro r f x h
    cases r with
    | error z => exact h
    | ok a => cases h
  fun_induction addS src ms s e news generalizing x with
  | case1 => cases h
  | case2 => cases h
  | case3 c d r _ ih => exact ih (hbind h)
  | case4 c d r _ _ ih => exact ih (hbind h)
  | case5 c r _ _ ih => exact ih (hbind h)
  | case6 c d r _ _ _ ih =>
    cases hv : pushOnecapture src ms (d.toNat - 49) s e with
    | error z =>
      rw [hv] at h
      cases h
      exact pushOnecapture_err hv
    | ok v =>
      rw [hv, ok_bind] at h
      exact ih (hbind h)

/-- The replacement of a match: a text, or an error of its own. -/
theorem addValue_cases (repl : Repl W) (ms : MatchState) (s e : ℕ) (w : W) :
    (∃ t w', addValue src repl ms s e w = .ok (t, w')) ∨
      ∃ x, addValue src repl ms s e w = .error x ∧ (x = .gsrv ∨ x = .callee ∨ ∃ y, x = .err (.pat y)) := by
  have hgiven : ∀ g : Option (Given × W), (∃ t w', addGiven src s e g = .ok (t, w')) ∨
      ∃ x, addGiven src s e g = .error x ∧ (x = .gsrv ∨ x = .callee ∨ ∃ y, x = .err (.pat y)) := by
    intro g
    match g with
    | none => exact .inr ⟨_, rfl, .inr (.inl rfl)⟩
    | some (.keep, w) => exact .inl ⟨_, w, rfl⟩
    | some (.text b, w) => exact .inl ⟨b, w, rfl⟩
    | some (.other, w) => exact .inr ⟨_, rfl, .inl rfl⟩
  cases repl with
  | str news =>
    rw [addValue]
    cases h : addS src ms s e news with
    | error x =>
      obtain ⟨y, rfl⟩ := addS_err news h
      exact .inr ⟨_, rfl, .inr (.inr ⟨y, rfl⟩)⟩
    | ok t => exact .inl ⟨t, w, rfl⟩
  | func f =>
    rw [addValue]
    cases h : pushCaptures src ms s e with
    | error x =>
      obtain ⟨y, rfl⟩ := mapM_err (fun _ _ => pushOnecapture_err) _ h
      exact .inr ⟨_, rfl, .inr (.inr ⟨y, rfl⟩)⟩
    | ok vs => exact hgiven (f vs w)
  | table f =>
    rw [addValue]
    cases h : pushOnecapture src ms 0 s e with
    | error x =>
      obtain ⟨y, rfl⟩ := pushOnecapture_err h
      exact .inr ⟨_, rfl, .inr (.inr ⟨y, rfl⟩)⟩
    | ok v => exact hgiven (f v w)

/-- **The loop of a substitution**: it ends, and what it adds covers the subject up to where it stops. -/
theorem gsubLoop_covers {p : List UInt8} (hp : NoError src p) (anchor : Bool) (repl : Repl W) (maxS : ℤ)
    {k s n : ℕ} (hk : src.size < s + k) (hs : s ≤ src.size) (hn : n ≤ s) (capture : ℕ → Capture) (w : W)
    {b : List Piece} (hb : Covered src repl s b.reverse n) :
    (∃ x, gsubLoop src (p ++ [0]) anchor repl maxS k s n capture w b = .error x ∧ ReplErr src repl x) ∨
      ∃ b' s' n', gsubLoop src (p ++ [0]) anchor repl maxS k s n capture w b = .ok (b', s', n') ∧
        Covered src repl s' b'.reverse n' ∧ s' ≤ src.size ∧ n' ≤ src.size + 1 := by
  induction k generalizing s n capture w b with
  | zero => omega
  | succ k ih =>
    rw [gsubLoop]
    by_cases hmax : (n : ℤ) < maxS
    swap
    · rw [if_pos hmax]
      exact .inr ⟨b, s, n, rfl, hb, hs, by omega⟩
    rw [if_neg (not_not.2 hmax)]
    -- the loop goes on at a position behind this one, or stops there
    have hnext : ∀ {s' n' : ℕ} (capture' : ℕ → Capture) (w' : W) {b' : List Piece}, s < s' → s' ≤ src.size →
        n' ≤ n + 1 → Covered src repl s' b'.reverse n' →
        let r := if anchor then .ok (b', s', n') else gsubLoop src (p ++ [0]) anchor repl maxS k s' n' capture' w' b'
        (∃ x, r = .error x ∧ ReplErr src repl x) ∨
          ∃ b' s' n', r = .ok (b', s', n') ∧ Covered src repl s' b'.reverse n' ∧ s' ≤ src.size ∧ n' ≤ src.size + 1 := by
      intro s' n' capture' w' b' hlt hle hn' hcov
      by_cases ha : anchor = true
      · simp only [if_pos ha]
        exact .inr ⟨b', s', n', rfl, hcov, hle, by lia⟩
      · simp only [if_neg ha]
        exact ih (by omega) hle (by lia) capture' w' hcov
    have hchar : ∀ {n' : ℕ} {b' : List Piece}, Covered src repl s b'.reverse n' → s < src.size →
        Covered src repl (s + 1) (⟨false, s, s + 1, src.sub s (s + 1)⟩ :: b').reverse n' := by
      intro n' b' hcov _
      rw [List.reverse_cons]
      exact hcov.snoc (Nat.le_succ s) nofun fun _ => rfl
    rcases match_cases hp hs capture with ⟨e, ms, caps, hm, hse, hes, -⟩ | ⟨ms, hm, -⟩
    · rw [hm]
      rcases addValue_cases repl ms s e w with ⟨t, w', hadd⟩ | ⟨x, hadd, hx⟩
      swap
      · simp only [liftErr, ok_bind]
        rw [hadd]
        exact .inl ⟨x, rfl, ⟨ms, s, e, w, hadd⟩, hx⟩
      simp only [liftErr, ok_bind]
      rw [hadd]
      simp only [ok_bind, pure_eq]
      have hcov : Covered src repl e (⟨true, s, e, t⟩ :: b).reverse (n + 1) := by
        rw [List.reverse_cons]
        exact hb.snoc hse (fun _ => ⟨ms, w, w', hadd⟩) nofun
      by_cases hlt : s < e
      · rw [Option.filter_some_pos (by simpa using hlt)]
        exact hnext ms.capture w' hlt hes le_rfl hcov
      · obtain rfl : e = s := by lia
        rw [Option.filter_some_neg (by simp)]
        by_cases hend : e < src.size
        · simp only [if_pos hend]
          exact hnext ms.capture w' (Nat.lt_succ_self e) hend le_rfl (hchar hcov hend)
        · simp only [if_neg hend]
          exact .inr ⟨_, e, n + 1, rfl, hcov, hs, by omega⟩
    · rw [hm]
      simp only [liftErr, ok_bind, pure_eq, Option.filter_none]
      by_cases hend : s < src.size
      · simp only [if_pos hend]
        exact hnext ms.capture w (Nat.lt_succ_self s) hend (Nat.le_succ n) (hchar hb hend)
      · simp only [if_neg hend]
        exact .inr ⟨b, s, n, rfl, hb, hs, by omega⟩

/-- The pattern without its anchor. -/
def stripAnchor (p : List UInt8) : List UInt8 := if p.head? = some (ch '^') then p.tail else p

/-- **A substitution covers the subject**, with at most one more substitution than there are characters. -/
theorem gsub_covers {p : List UInt8} (hp : NoError src (stripAnchor p)) (repl : Repl W) (maxS : ℤ) (w : W) :
    (∃ x, gsub src p repl maxS w = .error x ∧ ReplErr src repl x) ∨
      ∃ b n, gsub src p repl maxS w = .ok (b, n) ∧ Covered src repl src.size b n ∧ n ≤ src.size + 1 := by
  unfold stripAnchor at hp
  rw [gsub]
  rcases gsubLoop_covers hp (decide (p.head? = some (ch '^'))) repl maxS (k := src.size + 1) (s := 0) (n := 0)
    (by omega) (Nat.zero_le _) le_rfl (fun _ => ⟨0, 0⟩) w (b := [])
    ⟨rfl, nofun, nofun, rfl⟩ with ⟨x, hx, hrepl⟩ | ⟨b, s, n, hr, hcov, hs, hn⟩
  · rw [hx]
    exact .inl ⟨x, rfl, hrepl⟩
  · rw [hr]
    refine .inr ⟨_, n, rfl, ?_, hn⟩
    rw [List.reverse_cons]
    exact hcov.snoc hs nofun fun _ => rfl

/-- The replacement `%0`. -/
def wholeMatch : Repl Unit := .str [ch '%', ch '0']

theorem addValue_wholeMatch (ms : MatchState) (s e : ℕ) :
    addValue src wholeMatch ms s e () = .ok (src.sub s e, ()) := by
  rw [addValue.eq_def, wholeMatch]
  dsimp only
  rw [addS, if_neg (by decide), if_neg (by decide), if_pos rfl, addS]
  simp only [liftErr, ok_bind, pure_eq, List.append_nil]

/-- **The whole matches give the subject back.** -/
theorem gsub_wholeMatch {p : List UInt8} (hp : NoError src (stripAnchor p)) (maxS : ℤ) :
    ∃ b n, gsub src p wholeMatch maxS () = .ok (b, n) ∧ result b = src.bytes := by
  rcases gsub_covers hp wholeMatch maxS () with ⟨x, -, ⟨ms, s, e, w, hx⟩, -⟩ | ⟨b, n, hr, hcov, -⟩
  · rw [addValue_wholeMatch] at hx
    cases hx
  · refine ⟨b, n, hr, ?_⟩
    have hout : ∀ q ∈ b, q.out = src.sub q.lo q.hi := by
      intro q hq
      cases hm : q.matched with
      | false => exact hcov.copied q hq hm
      | true =>
        obtain ⟨ms, w, w', h⟩ := hcov.replaced q hq hm
        rw [addValue_wholeMatch] at h
        exact (Prod.mk.inj (Except.ok.inj h)).1.symm
    rw [result, List.map_congr_left hout, hcov.tiles.flatten, Subject.sub, List.drop_zero, Nat.sub_zero]
    exact List.take_length

/-! ### Iteration -/

/-- The matches that the iterator finds from a position on: each is the first one at the leftmost position
where there is one, and the next one is behind it, one further if it is empty. -/
def Leftmost (src : Subject) (p : List UInt8) : ℕ → List Found → Prop
  | pos, [] => ∀ j, pos ≤ j → j ≤ src.size → matchesAt src p j = []
  | pos, f :: fs => pos ≤ f.lo ∧ f.lo ≤ f.hi ∧ f.hi ≤ src.size ∧
      (∀ j, pos ≤ j → j < f.lo → matchesAt src p j = []) ∧
      (∃ caps, (matchesAt src p f.lo).head? = some (.ok (f.hi, caps))) ∧
      Leftmost src p (if f.hi = f.lo then f.hi + 1 else f.hi) fs

/-- One call of the iterator. -/
theorem gmatchAux_cases {p : List UInt8} (hp : NoError src p) {k pos s : ℕ} (hk : src.size + 1 < s + k)
    (hend : s ≤ src.size + 1) (capture : ℕ → Capture) (hle : pos ≤ s) (hbefore : ∀ j, pos ≤ j → j < s → matchesAt src p j = []) :
    (gmatchAux src p k s capture = .ok none ∧ ∀ j, pos ≤ j → j ≤ src.size → matchesAt src p j = []) ∨
    ∃ f caps, gmatchAux src p k s capture = .ok (some (f, if f.hi = f.lo then f.hi + 1 else f.hi)) ∧ pos ≤ f.lo ∧
      f.lo ≤ f.hi ∧ f.hi ≤ src.size ∧ (∀ j, pos ≤ j → j < f.lo → matchesAt src p j = []) ∧
      (matchesAt src p f.lo).head? = some (.ok (f.hi, caps)) := by
  have hshort : src.size < 0x7fffff00 := src.short
  induction k generalizing s capture with
  | zero => omega
  | succ k ih =>
    rw [gmatchAux]
    by_cases hs : s ≤ src.size
    swap
    · rw [if_pos hs]
      exact .inl ⟨rfl, fun j hj hjs => hbefore j hj (by omega)⟩
    rw [if_neg (not_not.2 hs)]
    rcases match_cases hp hs capture with ⟨e, ms, caps, hm, hse, hes, hfirst⟩ | ⟨ms, hm, hno⟩
    · right
      rw [hm, ok_bind]
      have hpos : (if e = s then e + 1 else e) % 2 ^ 32 = if e = s then e + 1 else e :=
        Nat.mod_eq_of_lt (by split <;> lia)
      refine ⟨⟨s, e, pushCaptures src ms s e⟩, caps, ?_, hle, hse, hes, hbefore, hfirst⟩
      dsimp only
      rw [hpos]
      rfl
    · rw [hm, ok_bind]
      refine ih (by omega) (by omega) ms.capture (by omega) fun j hj hjs => ?_
      rcases Nat.lt_succ_iff_lt_or_eq.1 hjs with hlt | rfl
      · exact hbefore j hj hlt
      · exact hno

/-- **The iterator ends, and finds the leftmost matches.** -/
theorem gmatch_leftmost {p : List UInt8} (hp : NoError src p) (frame : ℕ → ℕ → Capture) {k pos : ℕ}
    (hk : src.size + 1 < pos + k) (hpos : pos ≤ src.size + 1) :
    ∃ l, gmatch src p frame k pos = .ok l ∧ Leftmost src p pos l := by
  induction k generalizing pos with
  | zero => omega
  | succ k ih =>
    rw [gmatch]
    rcases gmatchAux_cases hp (k := src.size + 2) (s := pos) (by omega) hpos (frame k) le_rfl
      (fun j h₁ h₂ => absurd h₁ (by omega)) with ⟨hr, hno⟩ | ⟨f, caps, hr, hle, hlo, hhi, hno, hfirst⟩
    · rw [hr]
      exact ⟨[], rfl, hno⟩
    · have hnext : pos < if f.hi = f.lo then f.hi + 1 else f.hi := by split <;> lia
      have hend : (if f.hi = f.lo then f.hi + 1 else f.hi) ≤ src.size + 1 := by split <;> lia
      obtain ⟨l, hl, hleft⟩ := ih (by lia) hend
      rw [hr, ok_bind]
      dsimp only
      rw [hl]
      exact ⟨f :: l, rfl, hle, hlo, hhi, hno, ⟨caps, hfirst⟩, hleft⟩

theorem Leftmost.above {p : List UInt8} {pos : ℕ} {l : List Found} (h : Leftmost src p pos l) :
    ∀ f ∈ l, pos ≤ f.lo := by
  induction l generalizing pos with
  | nil => nofun
  | cons g l ih =>
    obtain ⟨hle, hlo, -, -, -, hl⟩ := h
    intro f hf
    rcases List.mem_cons.1 hf with rfl | hf
    · exact hle
    · have := ih hl f hf
      split at this <;> lia

/-- The matches are at increasing positions and do not overlap. -/
theorem Leftmost.increasing {p : List UInt8} {pos : ℕ} {l : List Found} (h : Leftmost src p pos l) :
    l.Pairwise fun a b => a.lo < b.lo ∧ a.hi ≤ b.lo := by
  induction l generalizing pos with
  | nil => exact .nil
  | cons f l ih =>
    obtain ⟨hle, hlo, -, -, -, hl⟩ := h
    refine .cons (fun g hg => ?_) (ih hl)
    have := hl.above g hg
    split at this <;> lia

/-- **Substitution and iteration cover the subject once.**  With a pattern for which the matcher raises no
error, a substitution ends: it raises an error of the replacement, or its pieces cover the subject and
there is at most one substitution more than there are characters.  The replacement `%0` gives the subject
back.  The iterator ends; it finds the leftmost matches, at increasing positions, without overlap. -/
theorem gsub_gmatch_cover (src : Subject) (p : List UInt8) :
    (NoError src (stripAnchor p) →
      (∀ (W : Type) (repl : Repl W) (maxS : ℤ) (w : W),
        (∃ x, gsub src p repl maxS w = .error x ∧ ReplErr src repl x) ∨
          ∃ b n, gsub src p repl maxS w = .ok (b, n) ∧ Covered src repl src.size b n ∧ n ≤ src.size + 1) ∧
      ∀ maxS, ∃ b n, gsub src p wholeMatch maxS () = .ok (b, n) ∧ result b = src.bytes) ∧
    (NoError src p → ∀ frame, ∃ l, gmatch src p frame (src.size + 2) 0 = .ok l ∧ Leftmost src p 0 l ∧
      l.Pairwise fun a b => a.lo < b.lo ∧ a.hi ≤ b.lo) := by
  refine ⟨fun hp => ⟨fun W repl maxS w => gsub_covers hp repl maxS w, fun maxS => gsub_wholeMatch hp maxS⟩,
    fun hp frame => ?_⟩
  obtain ⟨l, hl, hleft⟩ := @gmatch_leftmost _ _ hp frame (src.size + 2) 0 (by omega) (Nat.zero_le _)
  exact ⟨l, hl, hleft, hleft.increasing⟩

/-- The pattern `a*` raises no error. -/
theorem noError_aab : NoError aab [97, 42] := by
  intro s hs capture
  have hs' : s ≤ 3 := hs
  interval_cases s <;> exact ⟨_, rfl⟩

/-- `a*` in `aab`: the first two characters, the empty string before the third one, and the one behind. -/
theorem gsub_gmatch_cover_aab :
    (∀ maxS, ∃ b n, gsub aab [97, 42] wholeMatch maxS () = .ok (b, n) ∧ result b = [97, 97, 98]) ∧
      ∃ l, gmatch aab [97, 42] (fun _ _ => ⟨0, 0⟩) 5 0 = .ok l ∧
        l.map (fun f => (f.lo, f.hi)) = [(0, 2), (2, 2), (3, 3)] := by
  obtain ⟨hsub, hiter⟩ := gsub_gmatch_cover aab [97, 42]
  refine ⟨(hsub noError_aab).2, ?_⟩
  obtain ⟨l, hl, -, -⟩ := hiter noError_aab fun _ _ => ⟨0, 0⟩
  refine ⟨l, hl, ?_⟩
  obtain rfl : _ = l := Except.ok.inj hl
  rfl

end StrMatch
