/-
**The matcher follows the meaning of patterns.**

A call returns the first of the matches, in the order of their priority.  If there is none, then the level
and the captures below it are as they were; what is above the level is not seen.  A copy of a position is
as long as `size_t` allows, which is longer than any subject.

Main definitions:

* `StrMatch.Ok` — the captures of a state lie before the position;
* `StrMatch.Meets` — **the result of a call is the first of the matches**.

Main results:

* `StrMatch.matchLoop_meets` — one call;
* `StrMatch.match_meets` — all levels;
* `StrMatch.sols_range` — matches end within the subject, and not before they start.
-/

import LuaJit.StrClass

set_option relaxedAutoImplicit false
set_option autoImplicit false

namespace StrMatch

variable {src : Subject}

/-! ### Memory -/

@[simp] theorem ok_bind {ε α β : Type} (a : α) (f : α → Except ε β) : (Except.ok a >>= f) = f a := rfl

@[simp] theorem error_bind {ε α β : Type} (e : ε) (f : α → Except ε β) :
    ((Except.error e : Except ε α) >>= f) = .error e := rfl

@[simp] theorem pure_eq {ε α : Type} (a : α) : (pure a : Except ε α) = .ok a := rfl

@[simp] theorem throw_eq {α : Type} (e : Err) : (throw e : Except Err α) = .error e := rfl

theorem deref_text (q t : List UInt8) : deref (text q t) = .ok (q.headD 0) := by
  cases q <;> rfl

theorem at_eq {s : ℕ} (hs : s ≤ src.size) : src.at s = .ok (src.get s) := by
  rw [Subject.at, Subject.get]
  rcases Nat.lt_or_eq_of_le hs with h | h
  · rw [List.getElem?_append_left h, List.getD_eq_getElem?_getD, List.getElem?_eq_getElem h]
    rfl
  · rw [h, Subject.size, List.getElem?_concat_length, List.getD_eq_getElem?_getD, List.getElem?_eq_none le_rfl]
    rfl

theorem drop_eq_cons {s : ℕ} (hs : s < src.size) : src.bytes.drop s = src.get s :: src.bytes.drop (s + 1) := by
  rw [Subject.get, List.getD_eq_getElem?_getD, List.getElem?_eq_getElem hs]
  exact List.drop_eq_getElem_cons hs

theorem drop_size {s : ℕ} (hs : src.size ≤ s) : src.bytes.drop s = [] := List.drop_eq_nil_of_le hs

/-! ### The state -/

/-- The length of a capture. -/
def capLen (len : ℤ) : CapLen :=
  if len = capUnfinished then .unfinished else if len = capPosition then .position else .closed len.toNat

/-- The captures below the level. -/
def MatchState.caps (ms : MatchState) : Caps :=
  (List.range ms.level).map fun i => ((ms.capture i).init, capLen (ms.capture i).len)

/-- The captures of a state lie before the position. -/
structure Ok (ms : MatchState) (s : ℕ) : Prop where
  level : ms.level ≤ maxCaptures
  init : ∀ i < ms.level, (ms.capture i).init ≤ s
  len : ∀ i < ms.level, (ms.capture i).len = capUnfinished ∨ (ms.capture i).len = capPosition ∨
    (0 ≤ (ms.capture i).len ∧ (ms.capture i).init + (ms.capture i).len ≤ s)

/-- The level and the captures below it are the same. -/
structure Same (ms ms' : MatchState) : Prop where
  level : ms'.level = ms.level
  capture : ∀ i < ms.level, ms'.capture i = ms.capture i

theorem Same.refl (ms : MatchState) : Same ms ms := ⟨rfl, fun _ _ => rfl⟩

theorem Same.trans {ms ms' ms'' : MatchState} (h : Same ms ms') (h' : Same ms' ms'') : Same ms ms'' :=
  ⟨h'.level.trans h.level, fun i hi => (h'.capture i (h.level ▸ hi)).trans (h.capture i hi)⟩

theorem Same.caps {ms ms' : MatchState} (h : Same ms ms') : ms'.caps = ms.caps := by
  rw [MatchState.caps, MatchState.caps, h.level]
  refine List.map_congr_left fun i hi => ?_
  rw [h.capture i (List.mem_range.1 hi)]

theorem Same.ok {ms ms' : MatchState} (h : Same ms ms') {s : ℕ} (hok : Ok ms s) : Ok ms' s := by
  refine ⟨h.level ▸ hok.level, fun i hi => ?_, fun i hi => ?_⟩ <;> rw [h.level] at hi <;> rw [h.capture i hi]
  · exact hok.init i hi
  · exact hok.len i hi

theorem Ok.mono {ms : MatchState} {s s' : ℕ} (h : Ok ms s) (hs : s ≤ s') : Ok ms s' := by
  refine ⟨h.level, fun i hi => (h.init i hi).trans hs, fun i hi => ?_⟩
  rcases h.len i hi with h | h | ⟨h₀, h⟩
  · exact .inl h
  · exact .inr (.inl h)
  · exact .inr (.inr ⟨h₀, by omega⟩)

theorem caps_length (ms : MatchState) : ms.caps.length = ms.level := by
  rw [MatchState.caps, List.length_map, List.length_range]

theorem caps_getElem? (ms : MatchState) (i : ℕ) :
    ms.caps[i]? = if i < ms.level then some ((ms.capture i).init, capLen (ms.capture i).len) else none := by
  rw [MatchState.caps, List.getElem?_map]
  split
  · rename_i h
    rw [List.getElem?_range h]
    rfl
  · rename_i h
    rw [List.getElem?_eq_none (by rwa [List.length_range, ← Nat.not_lt])]
    rfl

/-! ### Results -/

/-- **The result of a call is the first of the matches**, up to the limit of the levels; a failure leaves
the state as it was. -/
def Meets (r : Res) (ms : MatchState) (l : List Outcome) : Prop :=
  match r with
  | .error .patx => True
  | .error (.pat e) => l.head? = some (.error e)
  | .error _ => False
  | .ok (some e, ms') => l.head? = some (.ok (e, ms'.caps))
  | .ok (none, ms') => l = [] ∧ Same ms ms'

/-- A call meets the meaning of a pattern. -/
def MeetsAt (src : Subject) (call : Call) (ms : MatchState) (s : ℕ) (q t : List UInt8) : Prop :=
  Ok ms s → s ≤ src.size → 0 ∉ q → Meets (call ms s (text q t)) ms (sols src (parse q) s ms.caps)

theorem Meets.of_same {r : Res} {ms ms' : MatchState} {l : List Outcome} (h : Meets r ms' l) (hs : Same ms ms') :
    Meets r ms l := by
  cases r with
  | error e => cases e <;> exact h
  | ok x =>
    obtain ⟨_ | e, ms''⟩ := x
    · exact ⟨h.1, hs.trans h.2⟩
    · exact h

/-- Another way is tried if there is none so far. -/
theorem Meets.orElse {r : Res} {ms : MatchState} {l l' : List Outcome} {k : MatchState → Res} (h : Meets r ms l)
    (hk : ∀ ms', Same ms ms' → Meets (k ms') ms' l') :
    Meets (r >>= fun x => match x with
      | (some e, ms') => .ok (some e, ms')
      | (none, ms') => k ms') ms (l ++ l') := by
  have hhead : ∀ o, l.head? = some o → (l ++ l').head? = some o := by
    intro o ho
    rw [List.head?_append, ho]
    rfl
  match r with
  | .error .patx => trivial
  | .error (.pat e) => exact hhead _ h
  | .error .oob => exact h.elim
  | .error .fuel => exact h.elim
  | .ok (some e, ms') => exact hhead _ h
  | .ok (none, ms') =>
    rw [h.1, List.nil_append]
    exact (hk ms' h.2).of_same h.2

theorem meets_none (ms : MatchState) : Meets (.ok (none, ms)) ms [] := ⟨rfl, Same.refl ms⟩

/-! ### Repetitions -/

theorem has_eq {s : ℕ} (hs : s < src.size) (S : Single) : src.has S s = S.mem (src.get s) := by
  rw [Subject.has, decide_eq_true hs, Bool.true_and]

theorem run_of_has {S : Single} {s : ℕ} (h : src.has S s = true) : src.run S s = src.run S (s + 1) + 1 := by
  rw [Subject.has, Bool.and_eq_true, decide_eq_true_eq] at h
  rw [Subject.run, drop_eq_cons h.1, List.takeWhile_cons_of_pos (p := fun x => S.mem x) h.2]
  rfl

theorem run_of_not_has {S : Single} {s : ℕ} (h : src.has S s = false) : src.run S s = 0 := by
  rw [Subject.run]
  by_cases hs : s < src.size
  · rw [has_eq hs] at h
    rw [drop_eq_cons hs, List.takeWhile_cons_of_neg (p := fun x => S.mem x) (by rw [h]; exact Bool.false_ne_true)]
    rfl
  · rw [drop_size (Nat.not_lt.1 hs)]
    rfl

/-- A class and what comes after it in the pattern. -/
theorem expandCount_text {c : UInt8} {q : List UInt8} {b : Single × List UInt8} (t : List UInt8)
    (h : parseSingle c q = .ok b) (l : List UInt8) :
    expandCount (text (c :: q) t) (text b.2 t) l = .ok (l.takeWhile fun x => b.1.mem x).length := by
  induction l with
  | nil => rfl
  | cons x l ih =>
    rw [expandCount, singlematch_text x t h, ih]
    cases hx : b.1.mem x with
    | true =>
      rw [List.takeWhile_cons_of_pos (p := fun x => b.1.mem x) hx]
      rfl
    | false =>
      rw [List.takeWhile_cons_of_neg (p := fun x => b.1.mem x) (by rw [hx]; exact Bool.false_ne_true)]
      rfl

/-- The longest repetition comes first. -/
theorem expandLoop_meets {call : Call} {s n : ℕ} {q t : List UInt8} (ms : MatchState)
    (hcall : ∀ i < n, ∀ ms', Same ms ms' →
      Meets (call ms' (s + i) (text q t)) ms' (sols src (parse q) (s + i) ms.caps)) :
    Meets (expandLoop call s (text q t) n ms) ms
      ((List.range n).reverse.flatMap fun i => sols src (parse q) (s + i) ms.caps) := by
  induction n generalizing ms with
  | zero => exact meets_none ms
  | succ n ih =>
    rw [expandLoop, List.range_succ, List.reverse_append, List.reverse_singleton, List.singleton_append,
      List.flatMap_cons]
    refine (hcall n (Nat.lt_succ_self n) ms (Same.refl ms)).orElse fun ms' hs => ?_
    rw [← hs.caps]
    refine ih ms' fun i hi ms'' hs' => ?_
    rw [hs.caps]
    exact hcall i (hi.trans (Nat.lt_succ_self n)) ms'' (hs.trans hs')

/-- The shortest repetition comes first. -/
theorem minExpand_meets {call : Call} {c : UInt8} {q q' t : List UInt8} {b : Single × List UInt8}
    (hb : parseSingle c q = .ok b) {x : UInt8} (hq' : b.2 = x :: q') (l : List UInt8) {s : ℕ}
    (hl : src.bytes.drop s = l) (hs : s ≤ src.size) (ms : MatchState)
    (hcall : ∀ i, s ≤ i → i ≤ src.size → ∀ ms', Same ms ms' →
      Meets (call ms' i (text q' t)) ms' (sols src (parse q') i ms.caps)) :
    Meets (minExpand call (text (c :: q) t) (text b.2 t) l s ms) ms
      ((List.range (src.run b.1 s + 1)).flatMap fun i => sols src (parse q') (s + i) ms.caps) := by
  have htail : (text b.2 t).tail = text q' t := by rw [hq', text_cons, List.tail_cons]
  induction l generalizing s ms with
  | nil =>
    rw [minExpand, htail, Subject.run, hl]
    simpa using hcall s le_rfl hs ms (Same.refl ms)
  | cons y l ih =>
    have hlt : s < src.size := by
      by_contra hge
      rw [drop_size (Nat.not_lt.1 hge)] at hl
      cases hl
    rw [drop_eq_cons hlt] at hl
    injection hl with hy hl
    rw [minExpand, htail, List.range_succ_eq_map, List.flatMap_cons, Nat.add_zero]
    refine (hcall s le_rfl hs ms (Same.refl ms)).orElse fun ms' hsame => ?_
    rw [singlematch_text y t hb]
    cases hm : b.1.mem y with
    | false =>
      rw [run_of_not_has (by rw [has_eq hlt, hy, hm])]
      exact meets_none ms'
    | true =>
      rw [run_of_has (by rw [has_eq hlt, hy, hm]), List.flatMap_map, ← hsame.caps]
      have hnext := ih hl hlt ms' fun i hi hi' ms'' hs' => by
        rw [hsame.caps]
        exact hcall i (by omega) hi' ms'' (hsame.trans hs')
      have hshift : (fun i => sols src (parse q') (s + Nat.succ i) ms'.caps) =
          fun i => sols src (parse q') (s + 1 + i) ms'.caps := by
        funext i
        rw [Nat.add_succ, Nat.succ_add]
      rw [hshift]
      exact hnext

/-! ### Captures -/

theorem capLen_unfinished (len : ℤ) : capLen len = .unfinished ↔ len = capUnfinished := by
  rw [capLen]
  by_cases h : len = capUnfinished
  · rw [if_pos h]
    exact iff_of_true rfl h
  · rw [if_neg h]
    refine iff_of_false ?_ h
    split <;> exact CapLen.noConfusion

/-- A new capture. -/
theorem caps_start (ms : MatchState) (s : ℕ) (what : ℤ) :
    MatchState.caps ⟨ms.level + 1, Function.update ms.capture ms.level ⟨s, what⟩⟩ = ms.caps ++ [(s, capLen what)] := by
  simp only [MatchState.caps]
  rw [List.range_succ, List.map_append, List.map_singleton, Function.update_self]
  congr 1
  refine List.map_congr_left fun i hi => ?_
  rw [Function.update_of_ne (List.mem_range.1 hi).ne]

theorem ok_start {ms : MatchState} {s : ℕ} (h : Ok ms s) (hl : ms.level < maxCaptures) {what : ℤ}
    (hw : what = capUnfinished ∨ what = capPosition) :
    Ok ⟨ms.level + 1, Function.update ms.capture ms.level ⟨s, what⟩⟩ s := by
  refine ⟨hl, fun i hi => ?_, fun i hi => ?_⟩ <;> dsimp only at hi ⊢ <;>
    rcases Nat.lt_succ_iff_lt_or_eq.1 hi with hi | rfl
  · rw [Function.update_of_ne hi.ne]
    exact h.init i hi
  · rw [Function.update_self]
  · rw [Function.update_of_ne hi.ne]
    exact h.len i hi
  · rw [Function.update_self]
    exact hw.elim .inl fun hw => .inr (.inl hw)

theorem startCapture_meets {call : Call} {ms : MatchState} {s : ℕ} {q t : List UInt8} {what : ℤ} {l : CapLen}
    (hl : capLen what = l) (hw : what = capUnfinished ∨ what = capPosition) (hok : Ok ms s) (hs : s ≤ src.size)
    (hq : 0 ∉ q) (hcall : ∀ ms', MeetsAt src call ms' s q t) :
    Meets (startCapture call ms s (text q t) what) ms
      (if maxCaptures ≤ ms.caps.length then [.error .capn] else sols src (parse q) s (ms.caps ++ [(s, l)])) := by
  rw [startCapture, caps_length]
  by_cases hlev : maxCaptures ≤ ms.level
  · rw [if_pos hlev, if_pos hlev]
    exact rfl
  · rw [if_neg hlev, if_neg hlev]
    have h := hcall _ (ok_start hok (Nat.not_le.1 hlev) hw) hs hq
    rw [caps_start, hl] at h
    simp only [pure_eq]
    revert h
    generalize call _ s (text q t) = r
    intro h
    match r with
    | .error .patx => trivial
    | .error (.pat e) => exact h
    | .error .oob => exact h.elim
    | .error .fuel => exact h.elim
    | .ok (some e, ms') => exact h
    | .ok (none, ms') =>
      refine ⟨h.1, ?_, fun i hi => ?_⟩
      · exact congrArg (· - 1) h.2.level
      · exact (h.2.capture i (Nat.lt_succ_of_lt hi)).trans (Function.update_of_ne hi.ne _ _)

theorem captureToClose_eq (capture : ℕ → Capture) (n : ℕ) :
    captureToClose capture n =
      match (List.range n).reverse.find? fun i => (capture i).len = capUnfinished with
      | none => .error (.pat .patc)
      | some l => .ok l := by
  induction n with
  | zero => rfl
  | succ n ih =>
    rw [captureToClose, List.range_succ, List.reverse_append, List.reverse_singleton, List.singleton_append]
    by_cases h : (capture n).len = capUnfinished
    · rw [if_pos h, List.find?_cons_of_pos (by simpa using h)]
    · rw [if_neg h, List.find?_cons_of_neg (by simpa using h), ih]

theorem find?_congr_mem {α : Type} {l : List α} {p p' : α → Bool} (h : ∀ x ∈ l, p x = p' x) :
    l.find? p = l.find? p' := by
  induction l with
  | nil => rfl
  | cons x l ih =>
    rw [List.find?_cons, List.find?_cons, h x (.head _), ih fun y hy => h y (.tail _ hy)]

/-- The capture that is closed. -/
theorem captureToClose_caps (ms : MatchState) :
    captureToClose ms.capture ms.level = match lastOpen ms.caps with
      | none => .error (.pat .patc)
      | some l => .ok l := by
  rw [captureToClose_eq, lastOpen, caps_length]
  rw [find?_congr_mem fun i hi => ?_]
  have hi := List.mem_range.1 (List.mem_reverse.1 hi)
  rw [caps_getElem?, if_pos hi]
  refine decide_eq_decide.2 ?_
  rw [Option.map_some, Option.some.injEq, capLen_unfinished]

theorem lastOpen_spec {ms : MatchState} {l : ℕ} (h : lastOpen ms.caps = some l) :
    l < ms.level ∧ (ms.capture l).len = capUnfinished := by
  rw [lastOpen] at h
  have hmem := List.mem_range.1 (List.mem_reverse.1 (List.mem_of_find?_eq_some h))
  have hp := List.find?_some h
  rw [caps_length] at hmem
  rw [decide_eq_true_eq, caps_getElem?, if_pos hmem, Option.map_some, Option.some.injEq, capLen_unfinished] at hp
  exact ⟨hmem, hp⟩

/-- A capture is closed. -/
theorem caps_end {ms : MatchState} {s l : ℕ} (hok : Ok ms s) (hl : l < ms.level) :
    MatchState.caps { ms with capture := Function.update ms.capture l ⟨(ms.capture l).init, s - (ms.capture l).init⟩ } =
      ms.caps.modify l fun c => (c.1, .closed (s - c.1)) := by
  have hinit := hok.init l hl
  have hlen : capLen (s - (ms.capture l).init) = .closed (s - (ms.capture l).init) := by
    have h₀ : (0 : ℤ) ≤ s - (ms.capture l).init := by omega
    rw [capLen, if_neg fun h => by rw [h, capUnfinished] at h₀; omega,
      if_neg fun h => by rw [h, capPosition] at h₀; omega]
    congr 1
    lia
  refine List.ext_getElem? fun i => ?_
  rw [List.getElem?_modify, caps_getElem?, caps_getElem?]
  dsimp only
  by_cases hi : i < ms.level
  · rw [if_pos hi, if_pos hi]
    by_cases hil : l = i
    · subst hil
      rw [Function.update_self]
      dsimp only
      rw [hlen, Option.map_eq_map, Option.map_some, if_pos rfl]
    · rw [Function.update_of_ne (Ne.symm hil), Option.map_eq_map, Option.map_some, if_neg hil]
  · rw [if_neg hi, if_neg hi]
    rfl

theorem ok_end {ms : MatchState} {s l : ℕ} (hok : Ok ms s) (hl : l < ms.level) :
    Ok { ms with capture := Function.update ms.capture l ⟨(ms.capture l).init, s - (ms.capture l).init⟩ } s := by
  have hinit := hok.init l hl
  refine ⟨hok.level, fun i hi => ?_, fun i hi => ?_⟩ <;> dsimp only at hi ⊢ <;> by_cases hil : i = l
  · rw [hil, Function.update_self]
    exact hinit
  · rw [Function.update_of_ne hil]
    exact hok.init i hi
  · rw [hil, Function.update_self]
    dsimp only
    exact .inr (.inr ⟨by omega, by omega⟩)
  · rw [Function.update_of_ne hil]
    exact hok.len i hi

theorem endCapture_meets {call : Call} {ms : MatchState} {s : ℕ} {q t : List UInt8} (hok : Ok ms s)
    (hs : s ≤ src.size) (hq : 0 ∉ q) (hcall : ∀ ms', MeetsAt src call ms' s q t) :
    Meets (endCapture call ms s (text q t)) ms (match lastOpen ms.caps with
      | none => [.error .patc]
      | some l => sols src (parse q) s (ms.caps.modify l fun c => (c.1, .closed (s - c.1)))) := by
  rw [endCapture, captureToClose_caps]
  cases hl : lastOpen ms.caps with
  | none => exact rfl
  | some l =>
    obtain ⟨hlt, hopen⟩ := lastOpen_spec hl
    have h := hcall _ (ok_end hok hlt) hs hq
    rw [caps_end hok hlt] at h
    simp only [pure_eq, ok_bind]
    revert h
    generalize call _ s (text q t) = r
    intro h
    match r with
    | .error .patx => trivial
    | .error (.pat e) => exact h
    | .error .oob => exact h.elim
    | .error .fuel => exact h.elim
    | .ok (some e, ms') => exact h
    | .ok (none, ms') =>
      refine ⟨h.1, h.2.level, fun i hi => ?_⟩
      dsimp only
      by_cases hil : i = l
      · have hcap := h.2.capture l hlt
        dsimp only at hcap
        rw [Function.update_self] at hcap
        rw [hil, Function.update_self, hcap, ← hopen]
      · rw [Function.update_of_ne hil]
        exact (h.2.capture i hi).trans (Function.update_of_ne hil _ _)

theorem size_lt (src : Subject) : (src.size : ℤ) + 2 < 2 ^ src.sizeBits := by
  have hpow : (2 : ℤ) ^ 32 ≤ 2 ^ src.sizeBits := pow_le_pow_right₀ (by decide) src.bits
  have := src.short
  have hsize : src.size = src.bytes.length := rfl
  omega

/-- The length of a position, as `size_t`. -/
theorem size_lt_position (src : Subject) : src.size < (capPosition % 2 ^ src.sizeBits).toNat := by
  have := size_lt src
  have hmod : capPosition % 2 ^ src.sizeBits = 2 ^ src.sizeBits - 2 := by
    rw [capPosition, ← Int.add_emod_right]
    exact Int.emod_eq_of_lt (by omega) (by omega)
  rw [hmod]
  lia

/-- A copy of a capture; the length of a position is longer than any subject. -/
theorem matchCapture_eq {ms : MatchState} {s : ℕ} (hok : Ok ms s) (hs : s ≤ src.size) (d : UInt8) :
    matchCapture src ms s d = match src.copyEnd ms.caps s d with
      | .error e => .error (.pat e)
      | .ok r => .ok r := by
  rw [matchCapture, checkCapture, Subject.copyEnd.eq_def, caps_getElem?]
  by_cases hd : d.toNat < 49
  · rw [if_pos hd, if_pos (.inl (by omega))]
    rfl
  have hk : ((d.toNat : ℤ) - 49).toNat = d.toNat - 49 := by lia
  rw [if_neg hd, hk]
  generalize hk' : d.toNat - 49 = k
  by_cases hlt : k < ms.level
  swap
  · rw [if_neg hlt, if_pos (.inr (.inl (by lia)))]
    rfl
  rw [if_pos hlt]
  rcases hok.len k hlt with hlen | hlen | ⟨h₀, hle⟩
  · rw [if_pos (.inr (.inr hlen)), (capLen_unfinished _).2 hlen]
    rfl
  · have hpos : capLen (ms.capture k).len = .position := by rw [hlen]; rfl
    have hnot : ¬(((d.toNat : ℤ) - 49 < 0) ∨ (ms.level : ℤ) ≤ d.toNat - 49 ∨ (ms.capture k).len = capUnfinished) := by
      rw [hlen]
      rintro (h | h | h)
      · omega
      · lia
      · cases h
    rw [if_neg hnot, hpos, ok_bind, hlen]
    have := size_lt_position src
    rw [if_neg (by lia)]
    rfl
  · have hne : (ms.capture k).len ≠ capUnfinished := fun h => by rw [h, capUnfinished] at h₀; omega
    have hne' : (ms.capture k).len ≠ capPosition := fun h => by rw [h, capPosition] at h₀; omega
    have hnot : ¬(((d.toNat : ℤ) - 49 < 0) ∨ (ms.level : ℤ) ≤ d.toNat - 49 ∨ (ms.capture k).len = capUnfinished) := by
      rintro (h | h | h)
      · omega
      · lia
      · exact hne h
    have hmod : ((ms.capture k).len % 2 ^ src.sizeBits).toNat = (ms.capture k).len.toNat := by
      rw [Int.emod_eq_of_lt h₀ (by have := size_lt src; lia)]
    rw [if_neg hnot, capLen, if_neg hne, if_neg hne', ok_bind, hmod]
    generalize hn : (ms.capture k).len.toNat = n
    generalize hi : (ms.capture k).init = i
    have hin : i + n ≤ src.size := by lia
    dsimp only
    by_cases hroom : n ≤ src.size - s
    · have hroom' : s + n ≤ src.size := by lia
      simp only [if_pos hroom, if_neg (Nat.not_lt.2 hin), pure_eq]
      by_cases heq : (src.bytes.drop i).take n = (src.bytes.drop s).take n
      · rw [if_pos heq, if_pos ⟨hroom', heq⟩]
      · rw [if_neg heq, if_neg fun h => heq h.2]
    · rw [if_neg hroom, if_neg fun h => hroom (by lia)]
      rfl

/-! ### Balanced texts and frontiers -/

/-- A text closes as many delimiters as are open. -/
def closes (b e : UInt8) (cont : ℕ) (t : List UInt8) : Bool :=
  t.count e = (if b = e then 0 else t.count b) + cont

theorem closes_nil {b e : UInt8} {cont : ℕ} : closes b e cont [] = decide (cont = 0) := by
  rw [closes, List.count_nil, List.count_nil, ite_self, Nat.zero_add]
  exact decide_eq_decide.2 eq_comm

theorem closes_end {b e : UInt8} {cont : ℕ} (hcont : 0 < cont) (t : List UInt8) :
    closes b e cont (e :: t) = closes b e (cont - 1) t := by
  rw [closes, closes, List.count_cons_self]
  refine decide_eq_decide.2 ?_
  by_cases hbe : b = e
  · rw [if_pos hbe, if_pos hbe]
    lia
  · rw [if_neg hbe, if_neg hbe, List.count_cons_of_ne (Ne.symm hbe)]
    lia

theorem closes_begin {b e : UInt8} {cont : ℕ} (hbe : b ≠ e) (t : List UInt8) :
    closes b e cont (b :: t) = closes b e (cont + 1) t := by
  rw [closes, closes, List.count_cons_self, if_neg hbe, if_neg hbe, List.count_cons_of_ne hbe]
  exact decide_eq_decide.2 (by lia)

theorem closes_other {b e c : UInt8} {cont : ℕ} (he : c ≠ e) (hb : c ≠ b) (t : List UInt8) :
    closes b e cont (c :: t) = closes b e cont t := by
  rw [closes, closes, List.count_cons_of_ne he, List.count_cons_of_ne hb]

/-- The end of the shortest text that closes what is open. -/
theorem balanceLoop_eq (b e : UInt8) {cont : ℕ} (hcont : 0 < cont) (s : ℕ) (l : List UInt8) :
    balanceLoop b e cont s l =
      ((List.range (l.length + 1)).find? fun k => closes b e cont (l.take k)).map (s + ·) := by
  induction l generalizing cont s with
  | nil =>
    rw [balanceLoop, List.length_nil, List.range_one, List.find?_cons_of_neg]
    · rfl
    · rw [List.take_nil, closes_nil]
      simpa using hcont.ne'
  | cons c r ih =>
    have hzero : ¬closes b e cont ((c :: r).take 0) = true := by
      rw [List.take_zero, closes_nil]
      simpa using hcont.ne'
    have hshift : ∀ k, s + Nat.succ k = s + 1 + k := fun k => by omega
    have hstep : ((List.range ((c :: r).length + 1)).find? fun k => closes b e cont ((c :: r).take k)).map (s + ·) =
        ((List.range (r.length + 1)).find? fun k => closes b e cont (c :: r.take k)).map (s + 1 + ·) := by
      rw [List.length_cons, List.range_succ_eq_map, 
        List.find?_cons_of_neg (p := fun k => closes b e cont ((c :: r).take k)) hzero, List.find?_map, Option.map_map]
      exact congrArg (Option.map · _) (funext hshift)
    rw [hstep, balanceLoop]
    by_cases he : c = e
    · subst he
      rw [if_pos rfl]
      simp only [closes_end hcont]
      by_cases hlast : cont - 1 = 0
      · rw [if_pos hlast, hlast, List.range_succ_eq_map, List.find?_cons_of_pos]
        · rfl
        · rw [List.take_zero, closes_nil]
          rfl
      · rw [if_neg hlast, ih (Nat.pos_of_ne_zero hlast)]
    · rw [if_neg he]
      by_cases hb : c = b
      · subst hb
        rw [if_pos rfl, ih (Nat.succ_pos cont)]
        simp only [closes_begin he]
      · rw [if_neg hb, ih hcont]
        simp only [closes_other he hb]

theorem matchbalance_eq {x y : UInt8} {s : ℕ} (hx : x ≠ 0) (hy : y ≠ 0) (hs : s ≤ src.size) (q t : List UInt8) :
    matchbalance src s (text (x :: y :: q) t) = .ok (src.balanceEnd x y s) := by
  rw [matchbalance, at_eq hs]
  simp only [text_cons, deref, List.tail_cons, ok_bind, pure_eq, if_neg hx, if_neg hy]
  rw [Subject.balanceEnd]
  by_cases hget : src.get s = x
  · have hlt : s < src.size := by
      by_contra hge
      rw [Subject.get, List.getD_eq_getElem?_getD, List.getElem?_eq_none (Nat.not_lt.1 hge)] at hget
      exact hx hget.symm
    have hlen : (src.bytes.drop (s + 1)).length + 1 = src.size - s := by
      rw [List.length_drop]
      have : src.size = src.bytes.length := rfl
      lia
    rw [if_neg (not_not.2 hget), if_pos ⟨hlt, hget⟩, balanceLoop_eq x y Nat.one_pos, hlen]
    rfl
  · rw [if_pos hget, if_neg fun h => hget h.2]

/-- A pattern that ends within the arguments of `%b`. -/
theorem matchbalance_short {q : List UInt8} (s : ℕ) (t : List UInt8) (hq : q.length < 2) (h0 : 0 ∉ q) :
    matchbalance src s (text q t) = .error (.pat .patu) := by
  match q with
  | [] => rfl
  | [x] =>
    have hx : x ≠ 0 := fun h => h0 (h ▸ .head _)
    rw [matchbalance]
    simp only [text_cons, text_nil, deref, List.tail_cons, ok_bind, pure_eq, if_neg hx, if_true, throw_eq, error_bind]
  | _ :: _ :: q => exact absurd hq (by simp)

theorem matchFrontier_eq {q : List UInt8} {b : CharSet × List UInt8} {s : ℕ} (t : List UInt8)
    (hb : parseSet q = some b) (hs : s ≤ src.size) :
    matchFrontier src s (text (ch '[' :: q) t) (text b.2 t) =
      .ok (!b.1.mem (src.prev s) && b.1.mem (src.get s)) := by
  rw [matchFrontier, at_eq hs]
  by_cases h0 : s = 0
  · rw [if_pos h0, Subject.prev, if_pos h0]
    simp only [ok_bind, matchbracketclass_text _ t hb, pure_eq]
    cases b.1.mem 0 <;> rfl
  · rw [if_neg h0, Subject.prev, if_neg h0, at_eq ((Nat.sub_le s 1).trans hs)]
    simp only [ok_bind, matchbracketclass_text _ t hb, pure_eq]
    cases b.1.mem (src.get (s - 1)) <;> rfl

/-! ### Items -/

theorem parseSet_suffix {q : List UInt8} {b : CharSet × List UInt8} (h : parseSet q = some b) : b.2 <:+ q := by
  have hbody : ∀ {q : List UInt8} {b : List UInt8 × List UInt8}, setBody true q = some b → b.2 <:+ q := by
    intro q b h
    rw [setBody_eq h]
    exact (List.suffix_cons _ _).trans (List.suffix_append _ _)
  cases q with
  | nil => cases h
  | cons d r =>
    rw [parseSet] at h
    split at h <;> obtain ⟨b', hb, rfl⟩ := Option.map_eq_some_iff.1 h
    · exact (hbody hb).trans (List.suffix_cons _ _)
    · exact hbody hb

theorem parseSingle_suffix {c : UInt8} {q : List UInt8} {b : Single × List UInt8} (h : parseSingle c q = .ok b) :
    b.2 <:+ q := by
  rw [parseSingle.eq_def] at h
  split at h
  · cases h
    exact List.suffix_rfl
  split at h
  · cases q with
    | nil => cases h
    | cons d r =>
      cases h
      exact List.suffix_cons _ _
  split at h
  · cases hb : parseSet q with
    | none =>
      rw [hb] at h
      cases h
    | some b' =>
      rw [hb] at h
      cases h
      exact parseSet_suffix hb
  · cases h
    exact List.suffix_rfl

/-- What `match` does after a class, which matches or not. -/
def matchSuffix (src : Subject) (call goto : Call) (ms : MatchState) (s : ℕ) (p ep : List UInt8) (m : Bool) : Res := do
  let x ← deref ep
  if x = ch '?' then
    if m then
      match ← call ms (s + 1) ep.tail with
      | (some e, ms) => return (some e, ms)
      | (none, ms) => goto ms s ep.tail
    else goto ms s ep.tail
  else if x = ch '*' then maxExpand src call ms s p ep
  else if x = ch '+' then
    if m then maxExpand src call ms (s + 1) p ep else return (none, ms)
  else if x = ch '-' then minExpand call p ep (src.bytes.drop s) s ms
  else if m then goto ms (s + 1) ep
  else return (none, ms)

theorem matchDefault_eq {call goto : Call} (ms : MatchState) {s : ℕ} {c : UInt8} {q t : List UInt8}
    {b : Single × List UInt8} (hs : s ≤ src.size) (h0 : 0 ∉ q) (hb : parseSingle c q = .ok b) :
    matchDefault src call goto ms s (text (c :: q) t) =
      matchSuffix src call goto ms s (text (c :: q) t) (text b.2 t) (src.has b.1 s) := by
  rw [matchDefault, classend_text t h0, hb]
  by_cases hlt : s < src.size
  · simp only [ok_bind, if_pos hlt, at_eq hs, singlematch_text _ t hb, has_eq hlt]
    rfl
  · have hnot : src.has b.1 s = false := by rw [Subject.has, decide_eq_false hlt, Bool.false_and]
    simp only [ok_bind, if_neg hlt, hnot, pure_eq]
    rfl

theorem maxExpand_meets {call : Call} {ms : MatchState} {s : ℕ} {c : UInt8} {q r t : List UInt8} {x : UInt8}
    {b : Single × List UInt8} (hb : parseSingle c q = .ok b) (hr : b.2 = x :: r) (hok : Ok ms s) (h0 : 0 ∉ r)
    (hs : s ≤ src.size) (hcall : ∀ ms' s', MeetsAt src call ms' s' r t) :
    Meets (maxExpand src call ms s (text (c :: q) t) (text b.2 t)) ms
      ((List.range (src.run b.1 s + 1)).reverse.flatMap fun i => sols src (parse r) (s + i) ms.caps) := by
  rw [maxExpand, expandCount_text t hb, ok_bind, hr, text_cons, List.tail_cons]
  refine expandLoop_meets ms fun i hi ms' hsame => ?_
  have hi' : s + i ≤ src.size := by
    have hle : src.run b.1 s ≤ (src.bytes.drop s).length := (List.takeWhile_sublist _).length_le
    rw [List.length_drop] at hle
    have hlen : src.size = src.bytes.length := rfl
    change i < src.run b.1 s + 1 at hi
    lia
  rw [← hsame.caps]
  exact hcall ms' (s + i) ((hsame.ok hok).mono (Nat.le_add_right s i)) hi' h0

/-- A class with its suffix. -/
theorem matchSuffix_meets {call goto : Call} {ms : MatchState} {s : ℕ} {c : UInt8} {q t : List UInt8}
    {b : Single × List UInt8} (hb : parseSingle c q = .ok b) (hok : Ok ms s) (hs : s ≤ src.size) (h0 : 0 ∉ q)
    (hcall : ∀ ms' s' q', MeetsAt src call ms' s' q' t)
    (hgoto : ∀ ms' s' q', q'.length ≤ q.length → MeetsAt src goto ms' s' q' t) :
    Meets (matchSuffix src call goto ms s (text (c :: q) t) (text b.2 t) (src.has b.1 s)) ms
      (sols src (.single b.1 (parseRep b.2).1 :: parse (parseRep b.2).2) s ms.caps) := by
  have hsuf := parseSingle_suffix hb
  have h0' : 0 ∉ b.2 := fun h => h0 (hsuf.mem h)
  have hnext : src.has b.1 s = true → s + 1 ≤ src.size := by
    intro h
    rw [Subject.has, Bool.and_eq_true, decide_eq_true_eq] at h
    exact h.1
  -- one character, and then the rest
  have hone : ∀ r, r = b.2 → Meets (if src.has b.1 s = true then goto ms (s + 1) (text r t) else .ok (none, ms)) ms
      (if src.has b.1 s = true then sols src (parse r) (s + 1) ms.caps else []) := by
    rintro r rfl
    by_cases hm : src.has b.1 s = true
    · rw [if_pos hm, if_pos hm]
      exact hgoto ms (s + 1) b.2 hsuf.length_le (hok.mono (Nat.le_succ s)) (hnext hm) h0'
    · rw [if_neg hm, if_neg hm]
      exact meets_none ms
  rw [matchSuffix]
  cases hr : b.2 with
  | nil => exact hone [] hr.symm
  | cons x r =>
    have hrlen : r.length ≤ q.length := by
      have := hsuf.length_le
      rw [hr, List.length_cons] at this
      omega
    have h0r : 0 ∉ r := fun h => h0' (hr ▸ .tail _ h)
    rw [text_cons, deref, ok_bind, parseRep]
    by_cases hopt : x = ch '?'
    · rw [if_pos hopt, if_pos hopt, sols, List.tail_cons]
      have hskip : ∀ ms', Same ms ms' → Meets (goto ms' s (text r t)) ms' (sols src (parse r) s ms.caps) := by
        intro ms' hsame
        rw [← hsame.caps]
        exact hgoto ms' s r hrlen (hsame.ok hok) hs h0r
      by_cases hm : src.has b.1 s = true
      · rw [if_pos hm, if_pos hm]
        exact (hcall ms (s + 1) r (hok.mono (Nat.le_succ s)) (hnext hm) h0r).orElse hskip
      · rw [if_neg hm, if_neg hm, List.nil_append]
        exact hskip ms (Same.refl ms)
    rw [if_neg hopt, if_neg hopt]
    by_cases hstar : x = ch '*'
    · rw [if_pos hstar, if_pos hstar, sols, ← text_cons, ← hr]
      exact maxExpand_meets hb hr hok h0r hs fun ms' s' => hcall ms' s' r
    rw [if_neg hstar, if_neg hstar]
    by_cases hplus : x = ch '+'
    · rw [if_pos hplus, if_pos hplus, sols, ← text_cons, ← hr]
      by_cases hm : src.has b.1 s = true
      · rw [if_pos hm, run_of_has hm]
        exact maxExpand_meets hb hr (hok.mono (Nat.le_succ s)) h0r (hnext hm) fun ms' s' => hcall ms' s' r
      · rw [if_neg hm, run_of_not_has (Bool.eq_false_iff.2 hm)]
        exact meets_none ms
    rw [if_neg hplus, if_neg hplus]
    by_cases hlazy : x = ch '-'
    · rw [if_pos hlazy, if_pos hlazy, sols, ← text_cons, ← hr]
      refine minExpand_meets hb hr _ rfl hs ms fun i hi hi' ms' hsame => ?_
      rw [← hsame.caps]
      exact hcall ms' i r ((hsame.ok hok).mono hi) hi' h0r
    rw [if_neg hlazy, if_neg hlazy, ← text_cons]
    exact hone (x :: r) hr.symm

/-- The default case. -/
theorem matchDefault_meets {call goto : Call} {ms : MatchState} {s : ℕ} {c : UInt8} {q t : List UInt8}
    (hok : Ok ms s) (hs : s ≤ src.size) (h0 : 0 ∉ q)
    (hcall : ∀ ms' s' q', MeetsAt src call ms' s' q' t)
    (hgoto : ∀ ms' s' q', q'.length ≤ q.length → MeetsAt src goto ms' s' q' t) :
    Meets (matchDefault src call goto ms s (text (c :: q) t)) ms
      (match parseSingle c q with
      | .error e => [.error e]
      | .ok b => sols src (.single b.1 (parseRep b.2).1 :: parse (parseRep b.2).2) s ms.caps) := by
  cases hb : parseSingle c q with
  | error e =>
    rw [matchDefault, classend_text t h0, hb]
    exact rfl
  | ok b =>
    rw [matchDefault_eq ms hs h0 hb]
    exact matchSuffix_meets hb hok hs h0 hcall hgoto

/-! ### The parser -/

theorem parse_single {c : UInt8} {q : List UInt8} (hopen : c ≠ ch '(') (hclose : c ≠ ch ')')
    (hesc : c = ch '%' → q.head? ≠ some (ch 'b') ∧ q.head? ≠ some (ch 'f') ∧ q.head?.any isdigit = false)
    (hend : ¬(c = ch '$' ∧ q = [])) (s : ℕ) (caps : Caps) :
    sols src (parse (c :: q)) s caps =
      match parseSingle c q with
      | .error e => [.error e]
      | .ok b => sols src (.single b.1 (parseRep b.2).1 :: parse (parseRep b.2).2) s caps := by
  have hdigit : ¬(c = ch '%' ∧ q.head?.any isdigit = true) := fun h => by
    rw [(hesc h.1).2.2] at h
    exact Bool.false_ne_true h.2
  rw [parse.eq_def]
  dsimp only
  rw [if_neg hopen, if_neg hclose, if_neg fun h => (hesc h.1).1 h.2, if_neg fun h => (hesc h.1).2.1 h.2,
    if_neg hdigit, if_neg hend]
  split <;> rename_i h <;> rw [h]
  rfl

theorem parse_frontier (q : List UInt8) (s : ℕ) (caps : Caps) :
    sols src (parse (ch '%' :: ch 'f' :: ch '[' :: q)) s caps =
      match parseSet q with
      | none => [.error .patm]
      | some b => sols src (.frontier b.1 :: parse b.2) s caps := by
  rw [parse.eq_def]
  dsimp only
  rw [if_neg (by decide), if_neg (by decide), if_neg (by simp [ch]), if_pos ⟨rfl, rfl⟩, if_neg (not_not.2 rfl)]
  split <;> rename_i h <;> rw [h]
  rfl

theorem parse_end : parse [ch '$'] = [.atEnd] := by
  rw [parse.eq_def]
  dsimp only
  rw [if_neg (by decide), if_neg (by decide), if_neg (by decide), if_neg (by decide), if_neg (by decide)]
  exact if_pos (by decide)

theorem parse_nil : parse [] = [] := by
  rw [parse.eq_def]

/-- `(`. -/
theorem matchLoop_open {call : Call} (hcall : ∀ ms s q t, MeetsAt src call ms s q t) (k : ℕ) (ms : MatchState)
    (s : ℕ) (q t : List UInt8) : MeetsAt src (matchLoop src call (k + 1)) ms s (ch '(' :: q) t := by
  intro hok hs h0
  have h0q : 0 ∉ q := fun h => h0 (.tail _ h)
  rw [matchLoop, text_cons, deref, ok_bind, if_pos rfl, List.tail_cons, deref_text, ok_bind, parse.eq_def]
  dsimp only
  rw [if_pos rfl]
  cases q with
  | nil =>
    have h := startCapture_meets rfl (.inl rfl) hok hs h0q fun ms' => hcall ms' s [] t
    rw [parse_nil] at h
    rw [if_neg (by decide), sols]
    exact h
  | cons d r =>
    rw [List.headD_cons]
    dsimp only
    by_cases hd : d = ch ')'
    · rw [if_pos hd, if_pos hd, sols]
      exact startCapture_meets rfl (.inr rfl) hok hs (fun h => h0q (.tail _ h)) fun ms' => hcall ms' s r t
    · rw [if_neg hd, if_neg hd, sols]
      exact startCapture_meets rfl (.inl rfl) hok hs h0q fun ms' => hcall ms' s (d :: r) t

theorem balanceEnd_range {x y : UInt8} {s e : ℕ} (h : src.balanceEnd x y s = some e) : s ≤ e ∧ e ≤ src.size := by
  rw [Subject.balanceEnd] at h
  split at h
  · obtain ⟨k, hk, rfl⟩ := Option.map_eq_some_iff.1 h
    have := List.mem_range.1 (List.mem_of_find?_eq_some hk)
    lia
  · cases h

theorem copyEnd_range {caps : Caps} {s e : ℕ} {d : UInt8} (h : src.copyEnd caps s d = .ok (some e)) :
    s ≤ e ∧ e ≤ src.size := by
  rw [Subject.copyEnd.eq_def] at h
  split at h
  · cases h
  · split at h
    · cases h
    · cases h
    · cases h
    · injection h with h
      split at h
      · cases h
        lia
      · cases h

/-- `%`. -/
theorem matchLoop_esc {call : Call} {k : ℕ} (hcall : ∀ ms s q t, MeetsAt src call ms s q t)
    (ih : ∀ ms s q t, q.length < k → MeetsAt src (matchLoop src call k) ms s q t) (ms : MatchState)
    (s : ℕ) (q t : List UInt8) (hk : q.length < k) :
    MeetsAt src (matchLoop src call (k + 1)) ms s (ch '%' :: q) t := by
  intro hok hs h0
  have h0q : 0 ∉ q := fun h => h0 (.tail _ h)
  have hdefault := matchDefault_meets (c := ch '%') hok hs h0q (fun ms' s' q' => hcall ms' s' q' t)
    (fun ms' s' q' hle => ih ms' s' q' t (hle.trans_lt hk))
  rw [matchLoop, text_cons, deref, ok_bind, if_neg (by decide), if_neg (by decide), if_pos rfl, List.tail_cons,
    deref_text, ok_bind, ← text_cons]
  cases q with
  | nil =>
    rw [if_neg (by decide), if_neg (by decide), if_neg (by decide)]
    rw [parse_single (by decide) (by decide) (fun _ => ⟨by simp, by simp, rfl⟩) fun h => absurd h.1 (by decide)]
    exact hdefault
  | cons d r =>
    have h0r : 0 ∉ r := fun h => h0q (.tail _ h)
    rw [List.length_cons] at hk
    rw [List.headD_cons]
    by_cases hb : d = ch 'b'
    · subst hb
      rw [if_pos rfl, parse.eq_def]
      dsimp only
      rw [if_neg (by decide), if_neg (by decide), if_pos ⟨rfl, rfl⟩]
      rcases r with _ | ⟨x, _ | ⟨y, r⟩⟩
      · rw [show (text [ch '%', ch 'b'] t).drop 2 = text [] t from rfl, matchbalance_short s t (by simp) h0r]
        exact rfl
      · rw [show (text [ch '%', ch 'b', x] t).drop 2 = text [x] t from rfl, matchbalance_short s t (by simp) h0r]
        exact rfl
      · have hx : x ≠ 0 := fun h => h0r (h ▸ .head _)
        have hy : y ≠ 0 := fun h => h0r (h ▸ .tail _ (.head _))
        rw [show (text (ch '%' :: ch 'b' :: x :: y :: r) t).drop 2 = text (x :: y :: r) t from rfl,
          matchbalance_eq hx hy hs, ok_bind]
        dsimp only
        rw [sols]
        cases he : src.balanceEnd x y s with
        | none => exact meets_none ms
        | some e =>
          obtain ⟨hle, hsize⟩ := balanceEnd_range he
          exact ih ms e r t (by simp only [List.length_cons] at hk; omega) (hok.mono hle) hsize fun h =>
            h0r (.tail _ (.tail _ h))
    rw [if_neg hb]
    by_cases hf : d = ch 'f'
    · subst hf
      rw [if_pos rfl, show (text (ch '%' :: ch 'f' :: r) t).drop 2 = text r t from rfl, deref_text, ok_bind]
      have hother : r.head? ≠ some (ch '[') → sols src (parse (ch '%' :: ch 'f' :: r)) s ms.caps = [.error .patb] := by
        intro hr
        rw [parse.eq_def]
        dsimp only
        rw [if_neg (by decide), if_neg (by decide), if_neg (by simp [ch]), if_pos ⟨rfl, rfl⟩]
        cases r with
        | nil => rfl
        | cons x r =>
          dsimp only
          rw [if_pos fun h => hr (congrArg some h)]
          rfl
      cases r with
      | nil =>
        rw [if_pos (by decide), hother (by simp)]
        exact rfl
      | cons x r =>
        rw [List.headD_cons]
        by_cases hx : x = ch '['
        · subst hx
          have h0r' : 0 ∉ r := fun h => h0r (.tail _ h)
          rw [if_neg (not_not.2 rfl), classend_set t h0r', parse_frontier]
          cases hps : parseSet r with
          | none => exact rfl
          | some b =>
            have hsuf := parseSet_suffix hps
            have hlen := hsuf.length_le
            dsimp only
            rw [ok_bind, matchFrontier_eq t hps hs, ok_bind, sols]
            split
            · exact ih ms s b.2 t (by rw [List.length_cons] at hk; omega) hok hs fun h => h0r' (hsuf.mem h)
            · exact meets_none ms
        · rw [if_pos hx, hother (by simpa using hx)]
          exact rfl
    rw [if_neg hf]
    by_cases hdig : isdigit d = true
    · rw [if_pos hdig, parse.eq_def]
      dsimp only
      rw [if_neg (by decide), if_neg (by decide), if_neg (by simp [hb]), if_neg (by simp [hf]), if_pos ⟨rfl, by simpa using hdig⟩,
        sols, matchCapture_eq hok hs]
      cases he : src.copyEnd ms.caps s d with
      | error e => exact rfl
      | ok r' =>
        cases r' with
        | none => exact meets_none ms
        | some e =>
          obtain ⟨hle, hsize⟩ := copyEnd_range he
          exact ih ms e r t (by omega) (hok.mono hle) hsize h0r
    · rw [if_neg hdig, parse_single (by decide) (by decide) (fun _ => ⟨by simpa using hb, by simpa using hf, by simpa using hdig⟩)
        fun h => absurd h.1 (by decide)]
      exact hdefault

/-- **One call**: the loop goes through the items of the pattern. -/
theorem matchLoop_meets {call : Call} (hcall : ∀ ms s q t, MeetsAt src call ms s q t) (k : ℕ) (ms : MatchState)
    (s : ℕ) (q t : List UInt8) (hk : q.length < k) : MeetsAt src (matchLoop src call k) ms s q t := by
  induction k generalizing ms s q t with
  | zero => exact absurd hk (Nat.not_lt_zero _)
  | succ k ih =>
    cases q with
    | nil =>
      intro _ _ _
      rw [matchLoop, parse.eq_def, sols]
      exact rfl
    | cons c q =>
      rw [List.length_cons] at hk
      have hkq : q.length < k := by omega
      by_cases hopen : c = ch '('
      · rw [hopen]
        exact matchLoop_open hcall k ms s q t
      by_cases hesc : c = ch '%'
      · rw [hesc]
        exact matchLoop_esc hcall ih ms s q t hkq
      intro hok hs h0
      have hc : c ≠ 0 := fun h => h0 (h ▸ .head _)
      have h0q : 0 ∉ q := fun h => h0 (.tail _ h)
      have hdefault := matchDefault_meets (c := c) hok hs h0q (fun ms' s' q' => hcall ms' s' q' t)
        (fun ms' s' q' hle => ih ms' s' q' t (hle.trans_lt hkq))
      rw [matchLoop, text_cons, deref, ok_bind, if_neg hopen, List.tail_cons, deref_text, ok_bind, ← text_cons]
      by_cases hclose : c = ch ')'
      · rw [if_pos hclose, parse.eq_def]
        dsimp only
        rw [if_neg hopen, if_pos hclose, sols]
        exact endCapture_meets hok hs h0q fun ms' => hcall ms' s q t
      rw [if_neg hclose, if_neg hesc, if_neg hc]
      by_cases hend : c = ch '$' ∧ q = []
      · obtain ⟨rfl, rfl⟩ := hend
        rw [if_pos rfl, ok_bind, List.headD_nil, if_neg (not_not.2 rfl), parse_end, sols]
        by_cases hs' : s = src.size
        · rw [if_pos hs', if_pos hs']
          exact rfl
        · rw [if_neg hs', if_neg hs']
          exact meets_none ms
      rw [parse_single hopen hclose (fun h => absurd h hesc) hend]
      by_cases hdollar : c = ch '$'
      · have hhead : q.headD 0 ≠ 0 := by
          cases q with
          | nil => exact absurd ⟨hdollar, rfl⟩ hend
          | cons d r => exact fun h => h0q (h ▸ .head _)
        rw [if_pos hdollar, ok_bind, if_pos hhead]
        exact hdefault
      · rw [if_neg hdollar]
        exact hdefault

/-- **All levels.** -/
theorem match_meets (n : ℕ) (ms : MatchState) (s : ℕ) (q t : List UInt8) : MeetsAt src (match_ src n) ms s q t := by
  induction n generalizing ms s q t with
  | zero =>
    intro _ _ _
    exact trivial
  | succ n ih =>
    rw [MeetsAt, match_]
    exact matchLoop_meets ih _ ms s q t (by rw [text, List.length_append, List.length_cons]; omega)

/-! ### The range of matches -/

theorem run_le (S : Single) (s : ℕ) : src.run S s ≤ src.size - s := by
  have hle : src.run S s ≤ (src.bytes.drop s).length := (List.takeWhile_sublist _).length_le
  rwa [List.length_drop] at hle

/-- Matches of what is left after `i` characters. -/
theorem flatMap_range {l : List ℕ} {f : ℕ → List Outcome} {s e : ℕ} {caps' : Caps}
    (hf : ∀ i ∈ l, .ok (e, caps') ∈ f i → s + i ≤ e ∧ e ≤ src.size)
    (h : .ok (e, caps') ∈ l.flatMap f) : s ≤ e ∧ e ≤ src.size := by
  obtain ⟨i, hi, h⟩ := List.mem_flatMap.1 h
  have := hf i hi h
  lia

/-- Matches end within the subject, and not before they start. -/
theorem sols_range (r : List Item) {s e : ℕ} {caps caps' : Caps} (hs : s ≤ src.size)
    (h : .ok (e, caps') ∈ sols src r s caps) : s ≤ e ∧ e ≤ src.size := by
  have hmem : ∀ {s : ℕ} {caps : Caps}, s ≤ src.size → (.ok (e, caps') : Outcome) ∈ [.ok (s, caps)] →
      s ≤ e ∧ e ≤ src.size := by
    intro s caps hs h
    cases List.mem_singleton.1 h
    exact ⟨le_rfl, hs⟩
  have herr : ∀ {x : PatErr}, (.ok (e, caps') : Outcome) ∉ [.error x] := by
    intro x h
    cases List.mem_singleton.1 h
  have hhas : ∀ {S : Single} {s : ℕ}, src.has S s = true → s + 1 ≤ src.size := by
    intro S s h
    rw [Subject.has, Bool.and_eq_true, decide_eq_true_eq] at h
    exact h.1
  induction r generalizing s caps with
  | nil => exact hmem hs h
  | cons i r ih =>
    have hone : ∀ {S : Single} {s : ℕ}, (.ok (e, caps') : Outcome) ∈
        (if src.has S s = true then sols src r (s + 1) caps else []) → s ≤ e ∧ e ≤ src.size := by
      intro S s h
      split at h
      · rename_i hm
        have := ih (hhas hm) h
        omega
      · cases h
    cases i with
    | openCap =>
      rw [sols] at h
      split at h
      · exact absurd h herr
      · exact ih hs h
    | posCap =>
      rw [sols] at h
      split at h
      · exact absurd h herr
      · exact ih hs h
    | closeCap =>
      rw [sols] at h
      split at h
      · exact absurd h herr
      · exact ih hs h
    | balance x y =>
      rw [sols] at h
      split at h
      · cases h
      · rename_i he
        have := balanceEnd_range he
        have := ih this.2 h
        omega
    | frontier S =>
      rw [sols] at h
      split at h
      · exact ih hs h
      · cases h
    | backref d =>
      rw [sols] at h
      split at h
      · exact absurd h herr
      · cases h
      · rename_i he
        have := copyEnd_range he
        have := ih this.2 h
        omega
    | atEnd =>
      rw [sols] at h
      split at h
      · exact hmem hs h
      · cases h
    | malformed x =>
      rw [sols] at h
      exact absurd h herr
    | single S rep =>
      have hrun := @run_le src S s
      cases rep with
      | one =>
        rw [sols] at h
        exact hone h
      | opt =>
        rw [sols, List.mem_append] at h
        exact h.elim hone (ih hs)
      | star =>
        rw [sols] at h
        refine flatMap_range (fun i hi h => ih ?_ h) h
        have := List.mem_range.1 (List.mem_reverse.1 hi)
        lia
      | plus =>
        rw [sols] at h
        have h' := flatMap_range (s := s + 1) (fun i hi h => ih ?_ h) h
        · omega
        · have := List.mem_range.1 (List.mem_reverse.1 hi)
          lia
      | lazy =>
        rw [sols] at h
        refine flatMap_range (fun i hi h => ih ?_ h) h
        have := List.mem_range.1 hi
        lia

/-! ### The matcher -/

/-- **The matcher follows the meaning of patterns**: its result is the first of the matches, in the order
of their priority; if there is none, then the level and the captures below it are as they were.  An error
is the one of a malformed item that comes first, or the limit of the levels; there is no read out of
bounds. -/
theorem match_first (src : Subject) (p : List UInt8) (hp : 0 ∉ p) (n : ℕ) (ms : MatchState) (s : ℕ)
    (hok : Ok ms s) (hs : s ≤ src.size) :
    match match_ src n ms s (p ++ [0]) with
    | .error e => e = .patx ∨ ∃ x, e = .pat x ∧ (sols src (parse p) s ms.caps).head? = some (.error x)
    | .ok (some e, ms') =>
        (sols src (parse p) s ms.caps).head? = some (.ok (e, ms'.caps)) ∧ s ≤ e ∧ e ≤ src.size
    | .ok (none, ms') => sols src (parse p) s ms.caps = [] ∧ ms'.level = ms.level ∧
        ∀ i < ms.level, ms'.capture i = ms.capture i := by
  have h : Meets (match_ src n ms s (p ++ [0])) ms _ := match_meets n ms s p [] hok hs hp
  revert h
  generalize match_ src n ms s (p ++ [0]) = r
  intro h
  match r with
  | .error .patx => exact .inl rfl
  | .error (.pat x) => exact .inr ⟨x, rfl, h⟩
  | .error .oob => exact h.elim
  | .error .fuel => exact h.elim
  | .ok (some e, ms') => exact ⟨h, sols_range _ hs (List.mem_of_head? h)⟩
  | .ok (none, ms') => exact ⟨h.1, h.2.level, h.2.capture⟩

/-- The subject `aab`. -/
theorem bits_sixtyFour : 32 ≤ 64 := by decide

def aab : Subject := ⟨[97, 97, 98], 64, by decide, bits_sixtyFour⟩

/-- `(a*)b` in `aab`. -/
theorem match_first_aab :
    ∃ ms', match_ aab maxXlevel ⟨0, fun _ => ⟨0, 0⟩⟩ 0 ([40, 97, 42, 41, 98] ++ [0]) = .ok (some 3, ms') ∧
      (sols aab (parse [40, 97, 42, 41, 98]) 0 []).head? = some (.ok (3, ms'.caps)) := by
  obtain ⟨ms', hms⟩ : ∃ ms', match_ aab maxXlevel ⟨0, fun _ => ⟨0, 0⟩⟩ 0 ([40, 97, 42, 41, 98] ++ [0]) =
      .ok (some 3, ms') := ⟨_, rfl⟩
  have h := match_first aab [40, 97, 42, 41, 98] (by decide) maxXlevel ⟨0, fun _ => ⟨0, 0⟩⟩ 0
    ⟨by decide, nofun, nofun⟩ (by decide)
  rw [hms] at h
  exact ⟨ms', hms, h.1⟩

end StrMatch
