/-
**Single character classes.**

The end of a class in the text of the pattern is where its parser stops, and a character is matched when
it is in the class that was parsed.

Main results:

* `StrMatch.matchClass_eq` — the table of classes;
* `StrMatch.classendSet_text`, `StrMatch.bracketLoop_body` — sets;
* `StrMatch.classend_text`, `StrMatch.singlematch_text` — **a class at the start of a pattern**.
-/

import LuaJit.StrSpec

set_option relaxedAutoImplicit false
set_option autoImplicit false

namespace StrMatch

/-! ### The table of classes -/

/-- The letters with a class. -/
def classLetters : List UInt8 :=
  ['a', 'c', 'd', 'g', 'l', 'p', 's', 'u', 'w', 'x', 'z', 'A', 'C', 'D', 'G', 'L', 'P', 'S', 'U', 'W', 'X', 'Z'].map ch

/-- A property of the indices and entries of a table, entry by entry. -/
def AllEntries (P : ℕ → UInt8 → Prop) : ℕ → List UInt8 → Prop
  | _, [] => True
  | n, v :: l => P n v ∧ AllEntries P (n + 1) l

instance AllEntries.decidable {P : ℕ → UInt8 → Prop} [h : ∀ n v, Decidable (P n v)] :
    ∀ n l, Decidable (AllEntries P n l)
  | _, [] => .isTrue trivial
  | n, v :: l => @instDecidableAnd _ _ (h n v) (AllEntries.decidable (n + 1) l)

theorem AllEntries.getD {P : ℕ → UInt8 → Prop} {l : List UInt8} {i : ℕ} (hi : i < l.length) :
    ∀ {n : ℕ}, AllEntries P n l → P (n + i) (l.getD i 0) := by
  induction l generalizing i with
  | nil => exact absurd hi (Nat.not_lt_zero i)
  | cons v l ih =>
      intro n h
      cases i with
      | zero => exact h.1
      | succ i =>
          rw [List.getD_cons_succ, Nat.add_comm i 1, ← Nat.add_assoc]
          exact ih (Nat.lt_of_succ_lt_succ hi) h.2

/-- The bits of an entry of the table are the classes of its character. -/
def ClassBits (n : ℕ) (v : UInt8) : Prop :=
  ((v &&& 0x60 != 0) = isAlpha (UInt8.ofNat n) ∧
    (v &&& 0x01 != 0) = (UInt8.ofNat n < 32 || UInt8.ofNat n = 127) ∧
    (v &&& 0x08 != 0) = between '0' '9' (UInt8.ofNat n) ∧
    (v &&& 0x6c != 0) = between '!' '~' (UInt8.ofNat n) ∧
    (v &&& 0x40 != 0) = between 'a' 'z' (UInt8.ofNat n)) ∧
  (v &&& 0x04 != 0) = isPunct (UInt8.ofNat n) ∧
    (v &&& 0x02 != 0) = (UInt8.ofNat n = 32 || (9 ≤ UInt8.ofNat n && UInt8.ofNat n ≤ 13)) ∧
    (v &&& 0x20 != 0) = between 'A' 'Z' (UInt8.ofNat n) ∧
    (v &&& 0x68 != 0) = (isAlpha (UInt8.ofNat n) || between '0' '9' (UInt8.ofNat n)) ∧
    (v &&& 0x10 != 0) = (between '0' '9' (UInt8.ofNat n) || between 'A' 'F' (UInt8.ofNat n) ||
      between 'a' 'f' (UInt8.ofNat n))

instance (n : ℕ) (v : UInt8) : Decidable (ClassBits n v) := inferInstanceAs (Decidable (_ ∧ _))

/-- The table of classes, entry by entry. -/
theorem charBits_classBits {n : ℕ} (hn : n < 256) : ClassBits n (charBits.getD (UInt8.ofNat n).toNat 0) := by
  have htab : AllEntries ClassBits 0 charBits := by decide +kernel
  have hlen : charBits.length = 256 := by
    simp only [charBits, List.length_append, List.length_replicate, List.length_cons, Nat.reduceAdd]
  have h := htab.getD (i := n) (by rw [hlen]; exact hn)
  have hval : (UInt8.ofNat n).toNat = n := by rw [UInt8.toNat_ofNat', Nat.mod_eq_of_lt hn]
  rw [Nat.zero_add] at h
  rwa [hval]

theorem matchClass_letter : ∀ cl ∈ classLetters, ∀ n < 256,
    matchClass (UInt8.ofNat n) cl = classMem cl (UInt8.ofNat n) := by
  intro cl hcl n hn
  obtain ⟨⟨ha, hc, hd, hg, hl⟩, hp, hs, hu, hw, hx⟩ := charBits_classBits hn
  simp only [classLetters, List.map_cons, List.map_nil, List.mem_cons, List.not_mem_nil, or_false] at hcl
  rcases hcl with rfl | rfl | rfl | rfl | rfl | rfl | rfl | rfl | rfl | rfl | rfl | rfl | rfl | rfl | rfl | rfl |
    rfl | rfl | rfl | rfl | rfl | rfl
  · exact ha
  · exact hc
  · exact hd
  · exact hg
  · exact hl
  · exact hp
  · exact hs
  · exact hu
  · exact hw
  · exact hx
  · rfl
  · exact congrArg (!·) ha
  · exact congrArg (!·) hc
  · exact congrArg (!·) hd
  · exact congrArg (!·) hg
  · exact congrArg (!·) hl
  · exact congrArg (!·) hp
  · exact congrArg (!·) hs
  · exact congrArg (!·) hu
  · exact congrArg (!·) hw
  · exact congrArg (!·) hx
  · exact decide_not

theorem classPred_other {cl : UInt8} (h : cl ∉ classLetters) : classPred cl = none := by
  simp only [classLetters, List.map_cons, List.map_nil, List.mem_cons, List.not_mem_nil, or_false, not_or] at h
  obtain ⟨ha, hc, hd, hg, hl, hp, hs, hu, hw, hx, hz, -⟩ := h
  rw [classPred, if_neg ha, if_neg hc, if_neg hd, if_neg hg, if_neg hl, if_neg hp, if_neg hs, if_neg hu, if_neg hw,
    if_neg hx, if_neg hz]

/-- The lower case letter of a character that is not the upper case letter of a class. -/
theorem classPred_lower {cl : UInt8} (h : cl ∉ classLetters) : classPred (cl + 32) = none := by
  have hlower : ∀ {lo up : UInt8}, cl ≠ up → lo - 32 = up → cl + 32 ≠ lo := by
    rintro lo up hup rfl hlo
    exact hup (eq_sub_of_add_eq hlo)
  simp only [classLetters, List.map_cons, List.map_nil, List.mem_cons, List.not_mem_nil, or_false, not_or] at h
  obtain ⟨-, -, -, -, -, -, -, -, -, -, -, ha, hc, hd, hg, hl, hp, hs, hu, hw, hx, hz⟩ := h
  rw [classPred, if_neg (hlower ha (by decide)), if_neg (hlower hc (by decide)), if_neg (hlower hd (by decide)),
    if_neg (hlower hg (by decide)), if_neg (hlower hl (by decide)), if_neg (hlower hp (by decide)),
    if_neg (hlower hs (by decide)), if_neg (hlower hu (by decide)), if_neg (hlower hw (by decide)),
    if_neg (hlower hx (by decide)), if_neg (hlower hz (by decide))]

/-- An entry of the map belongs to a letter, in lower and in upper case. -/
def MapLetter (n : ℕ) (v : UInt8) : Prop :=
  v = 0 ∨ (UInt8.ofNat (0x40 + n) ∈ classLetters ∧ UInt8.ofNat (0x60 + n) ∈ classLetters)

instance (n : ℕ) (v : UInt8) : Decidable (MapLetter n v) := inferInstanceAs (Decidable (_ ∨ _))

set_option maxRecDepth 4000 in
theorem letter_range : ∀ n < 256, n &&& 0xc0 = 0x40 → n = 0x40 + (n &&& 0x1f) ∨ n = 0x60 + (n &&& 0x1f) := by
  decide

/-- A character without a class is not in the map. -/
theorem matchClassMap_other {cl : UInt8} (h : cl ∉ classLetters) (hcl : cl &&& 0xc0 = 0x40) :
    matchClassMap.getD (cl &&& 0x1f).toNat 0 = 0 := by
  have htab : AllEntries MapLetter 0 matchClassMap := by decide
  have hlow : (cl &&& 0x1f).toNat < matchClassMap.length := by
    rw [UInt8.toNat_and]
    exact Nat.lt_succ_of_le Nat.and_le_right
  obtain hzero | ⟨hup, hlo⟩ := htab.getD hlow
  · exact hzero
  rw [Nat.zero_add, UInt8.toNat_and] at hup hlo
  have hrange := letter_range cl.toNat cl.toNat_lt (by rw [← UInt8.toNat_inj, UInt8.toNat_and] at hcl; exact hcl)
  have hmem : UInt8.ofNat cl.toNat ∈ classLetters := by
    rcases hrange with hn | hn
    · rw [hn]
      exact hup
    · rw [hn]
      exact hlo
  rw [UInt8.ofNat_toNat] at hmem
  exact absurd hmem h

theorem matchClass_eq (c cl : UInt8) : matchClass c cl = classMem cl c := by
  by_cases hcl : cl ∈ classLetters
  · have h := matchClass_letter cl hcl c.toNat c.toNat_lt
    rwa [UInt8.ofNat_toNat] at h
  · have hpred := classPred_other hcl
    have hupper : (if between 'A' 'Z' cl then classPred (cl + 32) else none) = none := by
      rw [classPred_lower hcl, ite_self]
    rw [classMem, hpred]
    simp only [hupper]
    rw [matchClass]
    split
    · rename_i h
      have hz : cl ≠ ch 'z' := fun h => hcl (h ▸ by decide)
      have hZ : cl ≠ ch 'Z' := fun h => hcl (h ▸ by decide)
      rw [matchClassMap_other hcl h]
      dsimp only
      rw [if_neg (fun h₀ => h₀ rfl), if_neg hz, if_neg hZ]
      simp only [eq_comm]
    · simp only [eq_comm]

/-! ### Sets -/

/-- A pattern with its terminator, and what is behind it. -/
def text (q t : List UInt8) : List UInt8 := q ++ 0 :: t

@[simp] theorem text_nil (t : List UInt8) : text [] t = 0 :: t := rfl

@[simp] theorem text_cons (c : UInt8) (q t : List UInt8) : text (c :: q) t = c :: text q t := rfl

/-- A character that is not the bracket at the end. -/
theorem setBody_cons {first : Bool} {c : UInt8} (h : ¬(c = ch ']' ∧ first = false)) (q : List UInt8) :
    setBody first (c :: q) =
      if c = ch '%' then
        match q with
        | [] => none
        | d :: r => (setBody false r).map fun b => (c :: d :: b.1, b.2)
      else (setBody false q).map fun b => (c :: b.1, b.2) := by
  rw [setBody.eq_def]
  exact if_neg h

theorem classendSet_cons (c d : UInt8) (p : List UInt8) (hc : c ≠ 0) :
    classendSet (c :: d :: p) =
      if c = ch '%' ∧ d ≠ 0 then
        match p with
        | [] => .error .oob
        | e :: q => if e ≠ ch ']' then classendSet (e :: q) else .ok q
      else if d ≠ ch ']' then classendSet (d :: p) else .ok p := by
  rw [classendSet.eq_def]
  exact if_neg hc

theorem classendSet_zero (t : List UInt8) : classendSet (0 :: t) = .error (.pat .patm) := by
  cases t with
  | nil => rfl
  | cons d t =>
    rw [classendSet.eq_def]
    exact if_pos rfl

theorem setBody_false_cons (e : UInt8) (q : List UInt8) :
    setBody false (e :: q) = if e = ch ']' then some ([], q) else setBody true (e :: q) := by
  by_cases he : e = ch ']'
  · rw [if_pos he, setBody.eq_def]
    exact if_pos ⟨he, rfl⟩
  · rw [if_neg he, setBody_cons fun h => he h.1, setBody_cons fun h => he h.1]

/-- The next character after one that was consumed: the bracket, or the rest of the body. -/
theorem classendSet_next {e : UInt8} {r t : List UInt8}
    (ih : classendSet (text (e :: r) t) = match setBody true (e :: r) with
      | none => .error (.pat .patm)
      | some b => .ok (text b.2 t)) :
    (if e ≠ ch ']' then classendSet (e :: text r t) else .ok (text r t)) = match setBody false (e :: r) with
      | none => .error (.pat .patm)
      | some b => .ok (text b.2 t) := by
  rw [setBody_false_cons]
  by_cases he : e = ch ']'
  · rw [if_neg (not_not.2 he), if_pos he]
  · rw [if_pos he, if_neg he, ← text_cons, ih]

/-- The loop of `classend` stops at the end of the body. -/
theorem classendSet_text {q : List UInt8} (t : List UInt8) (hq : 0 ∉ q) :
    classendSet (text q t) = match setBody true q with
      | none => .error (.pat .patm)
      | some b => .ok (text b.2 t) := by
  induction hn : q.length using Nat.strong_induction_on generalizing q with
  | _ n ih =>
    subst hn
    match q with
    | [] => exact classendSet_zero t
    | [c] =>
      rw [List.mem_singleton, eq_comm] at hq
      rw [text_cons, text_nil, classendSet_cons c 0 t hq, if_neg fun h => h.2 rfl, if_pos (by decide),
        classendSet_zero, setBody_cons (by simp)]
      by_cases hesc : c = ch '%'
      · rw [if_pos hesc]
      · rw [if_neg hesc]
        rfl
    | c :: d :: r =>
      rw [List.mem_cons, List.mem_cons, not_or, not_or] at hq
      obtain ⟨hc, hd, hr⟩ := hq
      have hdr : (0 : UInt8) ∉ d :: r := by
        rw [List.mem_cons, not_or]
        exact ⟨hd, hr⟩
      rw [text_cons, text_cons, classendSet_cons c d _ (Ne.symm hc), setBody_cons (by simp)]
      by_cases hesc : c = ch '%'
      · rw [if_pos ⟨hesc, Ne.symm hd⟩, if_pos hesc]
        cases r with
        | nil =>
          have hzero : (0 : UInt8) ≠ ch ']' := by decide
          exact (if_pos hzero).trans (classendSet_zero t)
        | cons e r =>
          have hnext := classendSet_next (ih (e :: r).length (by simp) hr rfl)
          rw [text_cons]
          dsimp only
          rw [hnext]
          cases setBody false (e :: r) <;> rfl
      · rw [if_neg fun h => hesc h.1, if_neg hesc, classendSet_next (ih (d :: r).length (by simp) hdr rfl)]
        cases setBody false (d :: r) <;> rfl

theorem setBody_eq {first : Bool} {q : List UInt8} {b : List UInt8 × List UInt8}
    (h : setBody first q = some b) : q = b.1 ++ ch ']' :: b.2 := by
  fun_induction setBody first q generalizing b with
  | case1 => cases h
  | case2 first c q hc =>
    cases h
    rw [hc.1, List.nil_append]
  | case3 => cases h
  | case4 first d r _ ih =>
    obtain ⟨b', hb, rfl⟩ := Option.map_eq_some_iff.1 h
    rw [ih hb]
    rfl
  | case5 first c q _ _ ih =>
    obtain ⟨b', hb, rfl⟩ := Option.map_eq_some_iff.1 h
    rw [ih hb]
    rfl

/-- Behind the body, the loop of `matchbracketclass` ends. -/
theorem bracketLoop_stop (c : UInt8) (sig : Bool) {ec : ℕ} (x : UInt8) {p : List UInt8} (h : p.length ≤ ec) :
    bracketLoop c sig ec (x :: p) = .ok !sig := by
  cases p with
  | nil => rfl
  | cons d q =>
    rw [bracketLoop.eq_def]
    exact if_pos (Nat.not_lt.2 h)

theorem bracketLoop_cons (c : UInt8) (sig : Bool) {ec : ℕ} (x d : UInt8) {q : List UInt8} :
    ec < q.length + 1 → bracketLoop c sig ec (x :: d :: q) =
      if d = ch '%' then
        match q with
        | [] => .error .oob
        | cl :: r => if matchClass c cl then .ok sig else bracketLoop c sig ec (cl :: r)
      else
        match q with
        | [] => .error .oob
        | x :: r =>
            if x = ch '-' ∧ ec < r.length then
              match r with
              | [] => .error .oob
              | hi :: t => if d ≤ c ∧ c ≤ hi then .ok sig else bracketLoop c sig ec (hi :: t)
            else if d = c then .ok sig
            else bracketLoop c sig ec (d :: x :: r) := by
  intro h
  rw [bracketLoop.eq_def]
  exact if_neg (not_not.2 h)

/-- One item of a set, and the rest. -/
theorem any_cons_result (sig : Bool) {P : Prop} [Decidable P] {m : Bool} (hm : m = true ↔ P) (b : Bool) :
    (if P then (.ok sig : Except Err Bool) else .ok (if b then sig else !sig)) =
      .ok (if m || b then sig else !sig) := by
  by_cases hP : P
  · rw [if_pos hP, hm.2 hP]
    rfl
  · rw [if_neg hP, Bool.eq_false_iff.2 fun h => hP (hm.1 h)]
    rfl

/-- **The members of a set**: `x` is what comes before the body. -/
theorem bracketLoop_body (c : UInt8) (sig : Bool) (x : UInt8) (b w : List UInt8) :
    bracketLoop c sig (w.length + 1) (x :: (b ++ ch ']' :: w)) =
      .ok (if (setItems b).any (SetItem.mem c) then sig else !sig) := by
  have hbracket : ch ']' ≠ ch '-' := by decide
  have hdash : ch '-' ≠ ch '%' := by decide
  fun_induction setItems b generalizing x with
  | case1 => exact bracketLoop_stop c sig x (by simp)
  | case2 d =>
    rw [List.singleton_append, bracketLoop_cons c sig x d (by simp), List.any_cons, List.any_nil]
    by_cases hd : d = ch '%'
    · rw [if_pos hd, if_pos hd]
      dsimp only
      rw [matchClass_eq, bracketLoop_stop c sig _ (by simp)]
      exact any_cons_result sig Iff.rfl false
    · rw [if_neg hd, if_neg hd]
      dsimp only
      rw [if_neg fun h => hbracket h.1, bracketLoop_stop c sig _ (by simp)]
      exact any_cons_result sig decide_eq_true_iff false
  | case3 d =>
    rw [List.cons_append, List.singleton_append, bracketLoop_cons c sig x _ (by simp), if_pos rfl]
    dsimp only
    rw [matchClass_eq, bracketLoop_stop c sig _ (by simp), List.any_cons, List.any_nil]
    exact any_cons_result sig Iff.rfl false
  | case4 c₀ d hc₀ ih =>
    rw [List.cons_append, List.singleton_append, bracketLoop_cons c sig x _ (by simp), if_neg hc₀]
    dsimp only
    have hrest : bracketLoop c sig (w.length + 1) (c₀ :: d :: ch ']' :: w) = _ := ih c₀
    rw [if_neg fun h => by simp at h, hrest, List.any_cons]
    exact any_cons_result sig decide_eq_true_iff _
  | case5 d hi r ih =>
    rw [List.cons_append, List.cons_append, bracketLoop_cons c sig x _ (by simp; omega), if_pos rfl]
    dsimp only
    rw [matchClass_eq, ih, List.any_cons]
    exact any_cons_result sig Iff.rfl _
  | case6 c₀ hi r hc₀ ih =>
    rw [List.cons_append, List.cons_append, List.cons_append, bracketLoop_cons c sig x _ (by simp; omega), if_neg hc₀]
    dsimp only
    rw [if_pos ⟨rfl, by simp⟩, ih, List.any_cons]
    exact any_cons_result sig decide_eq_true_iff _
  | case7 c₀ d hi r hc₀ hd ih =>
    rw [List.cons_append, List.cons_append, bracketLoop_cons c sig x _ (by simp; omega), if_neg hc₀]
    dsimp only
    rw [if_neg fun h => hd h.1, ← List.cons_append, ih, List.any_cons]
    exact any_cons_result sig decide_eq_true_iff _

/-! ### A class at the start of a pattern -/

theorem parseSingle_set (q : List UInt8) :
    parseSingle (ch '[') q = match parseSet q with
      | none => .error .patm
      | some b => .ok (.set b.1, b.2) := by
  rw [parseSingle.eq_def, if_neg (by decide), if_neg (by decide), if_pos rfl]
  cases parseSet q <;> rfl

/-- A set, and its end. -/
theorem classend_set {q : List UInt8} (t : List UInt8) (hq : 0 ∉ q) :
    classend (text (ch '[' :: q) t) = match parseSet q with
      | none => .error (.pat .patm)
      | some b => .ok (text b.2 t) := by
  rw [text_cons]
  cases q with
  | nil => exact classendSet_zero t
  | cons d r =>
    have hr : (0 : UInt8) ∉ r := fun h => hq (.tail _ h)
    rw [parseSet, text_cons]
    change (if d = ch '^' then classendSet (text r t) else classendSet (d :: text r t)) = _
    by_cases hd : d = ch '^'
    · rw [if_pos hd, if_pos hd, classendSet_text t hr]
      cases setBody true r <;> rfl
    · rw [if_neg hd, if_neg hd, ← text_cons, classendSet_text t hq]
      cases setBody true (d :: r) <;> rfl

/-- Where `classend` stops. -/
theorem classend_text {c : UInt8} {q : List UInt8} (t : List UInt8) (hq : 0 ∉ q) :
    classend (text (c :: q) t) = match parseSingle c q with
      | .error e => .error (.pat e)
      | .ok b => .ok (text b.2 t) := by
  by_cases hesc : c = ch '%'
  · rw [hesc, text_cons]
    cases q with
    | nil => rfl
    | cons d r =>
      have hd : d ≠ 0 := fun h => hq (h ▸ .head _)
      exact if_neg hd
  · by_cases hset : c = ch '['
    · rw [hset, classend_set t hq, parseSingle_set]
      cases parseSet q <;> rfl
    · rw [text_cons, classend.eq_def, parseSingle.eq_def, if_neg hesc, if_neg hset]
      dsimp only
      rw [if_neg hesc, if_neg hset]
      by_cases hdot : c = ch '.'
      · rw [if_pos hdot]
      · rw [if_neg hdot]

/-- A set matches its members. -/
theorem matchbracketclass_text {q : List UInt8} {b : CharSet × List UInt8} (x : UInt8) (t : List UInt8)
    (h : parseSet q = some b) :
    matchbracketclass x ((text b.2 t).length + 1) (text (ch '[' :: q) t) = .ok (b.1.mem x) := by
  have htext : ∀ body : List UInt8, text (body ++ ch ']' :: b.2) t = body ++ ch ']' :: text b.2 t := by
    intro body
    rw [text, text, List.append_assoc, List.cons_append]
  cases q with
  | nil => cases h
  | cons d r =>
    rw [parseSet] at h
    rw [text_cons, text_cons]
    change (if d = ch '^' then bracketLoop x false _ (d :: text r t) else bracketLoop x true _ (ch '[' :: d :: text r t)) = _
    by_cases hd : d = ch '^'
    · rw [if_pos hd] at h ⊢
      obtain ⟨b', hb, rfl⟩ := Option.map_eq_some_iff.1 h
      rw [setBody_eq hb, htext, bracketLoop_body, CharSet.mem]
      cases (setItems b'.1).any (SetItem.mem x) <;> rfl
    · rw [if_neg hd] at h ⊢
      obtain ⟨b', hb, rfl⟩ := Option.map_eq_some_iff.1 h
      rw [← text_cons, setBody_eq hb, htext, bracketLoop_body, CharSet.mem]
      cases (setItems b'.1).any (SetItem.mem x) <;> rfl

/-- **A class matches its members.** -/
theorem singlematch_text {c : UInt8} {q : List UInt8} {b : Single × List UInt8} (x : UInt8) (t : List UInt8)
    (h : parseSingle c q = .ok b) : singlematch x (text (c :: q) t) (text b.2 t) = .ok (b.1.mem x) := by
  rw [text_cons, singlematch.eq_def]
  dsimp only
  by_cases hdot : c = ch '.'
  · rw [parseSingle.eq_def, if_pos hdot] at h
    cases h
    exact if_pos hdot
  rw [if_neg hdot]
  by_cases hesc : c = ch '%'
  · rw [parseSingle.eq_def, if_neg hdot, if_pos hesc] at h
    rw [if_pos hesc]
    cases q with
    | nil => cases h
    | cons d r =>
      cases h
      rw [text_cons]
      dsimp only
      rw [matchClass_eq, Single.mem]
  rw [if_neg hesc]
  by_cases hset : c = ch '['
  · rw [hset, parseSingle_set] at h
    rw [if_pos hset, hset, ← text_cons]
    cases hb : parseSet q with
    | none =>
      rw [hb] at h
      cases h
    | some b' =>
      rw [hb] at h
      cases h
      exact matchbracketclass_text x t hb
  · rw [parseSingle.eq_def, if_neg hdot, if_neg hesc, if_neg hset] at h
    cases h
    exact if_neg hset

end StrMatch
