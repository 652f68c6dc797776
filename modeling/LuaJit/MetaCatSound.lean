/-
**Concatenation is the right fold of the binary operation.**

A run of strings and numbers that is written in one go is the string that the binary operation makes
of it one by one; its length is counted with 32 bytes for each number, so the length of the bytes that
are written is no more than that, and an overflow can be reported for a string that would fit.  At the
other steps the two do the same.

Main results:

* `MetaCat.scan_eq`, `MetaCat.writeRun_eq` — the two loops over a run;
* `MetaCat.foldRun_run` — the fold over a run;
* `MetaCat.metaCat_meets` — one call of the loop;
* `MetaCat.drive_eq_fold` — **the loop is the fold, where the check is for the whole run**;
* `MetaCat.foldRun_eq_foldCat` — and this is the fold of the operation, if there is no overflow.
-/

import LuaJit.MetaCat

set_option relaxedAutoImplicit false
set_option autoImplicit false

namespace MetaCat

variable {O W E : Type}

/-! ### Lengths -/

theorem wintDigits_length (n : ℕ) (x : BitVec 32) : (wintDigits n x).length = n + 1 := by
  induction n generalizing x with
  | zero => rfl
  | succ n ih => rw [wintDigits, List.length_cons, ih]

theorem wintLabel_le (x : BitVec 32) : wintLabel x ≤ 3 := by
  rw [wintLabel]
  split_ifs <;> decide

theorem wintAbs_length (u : BitVec 32) : (wintAbs u).length ≤ 10 := by
  simp only [wintAbs]
  split
  · have := wintLabel_le u
    rw [wintDigits_length]
    omega
  · generalize u - BitVec.ofNat 32 (u.toNat / 10000) * 10000#32 = lo
    generalize BitVec.ofNat 32 (u.toNat / 10000) = v
    split
    · have := wintLabel_le v
      rw [List.length_append, wintDigits_length, wintDigits_length]
      omega
    · rw [List.length_append, List.length_append, wintDigits_length, wintDigits_length]
      split <;> simp

theorem strfmtWint_length (k : BitVec 32) : (strfmtWint k).length ≤ 11 := by
  rw [strfmtWint]
  split
  · have := wintAbs_length (-k)
    rw [List.length_cons]
    omega
  · exact (wintAbs_length k).trans (by decide)

/-- The format of the C library keeps its bound. -/
def NumbersFit (vm : Vm O W E) : Prop := ∀ n, (vm.number2str n).length ≤ strfmtMaxbufNum

theorem bytes_length {vm : Vm O W E} (hn : NumbersFit vm) {v : TValue O} (hv : isStrNum v = true) :
    (bytes vm v).length ≤ lenMax v := by
  cases v with
  | str s => exact le_rfl
  | int k =>
    have hle : 11 ≤ strfmtMaxbufNum := by decide
    exact (strfmtWint_length k).trans hle
  | num n =>
    change (strfmtWnum vm n).length ≤ 32
    rw [strfmtWnum]
    split_ifs
    · decide
    · exact hn n
    · decide
    · decide
    · decide
  | nil | obj o | cont => cases hv

/-! ### The operands -/

theorem below_congr {st st' : Stack O} {top n : ℕ} (hn : n ≤ top) (h : ∀ i < top, st i = st' i) :
    below st top n = below st' top n := by
  induction n generalizing top with
  | zero => rfl
  | succ n ih =>
    rw [below, below, h _ (by omega), ih (by lia) fun i hi => h i (by lia)]

theorem below_drop (st : Stack O) (top n k : ℕ) : (below st top n).drop k = below st (top - k) (n - k) := by
  induction k generalizing top n with
  | zero => rfl
  | succ k ih =>
    cases n with
    | zero => simp [below]
    | succ n =>
      rw [below, List.drop_succ_cons, ih]
      congr 1 <;> lia

theorem below_length (st : Stack O) (top n : ℕ) : (below st top n).length = n := by
  induction n generalizing top with
  | zero => rfl
  | succ n ih => rw [below, List.length_cons, ih]

/-- The lengths of a run. -/
def lenRun (xs : List (TValue O)) : ℕ := (xs.map lenMax).sum

/-- The bytes of a run, which is given from the top. -/
def joined (vm : Vm O W E) : List (TValue O) → List UInt8
  | [] => []
  | a :: rest => joined vm rest ++ bytes vm a

/-- **The inner loop** goes to the end of the run. -/
theorem scan_eq (st : Stack O) (left o tlen : ℕ) (h : isStrNum (st (o - 1)) = true) (hl : 0 < left) :
    scan st left o tlen =
      (left - ((below st o left).takeWhile isStrNum).length,
        o - ((below st o left).takeWhile isStrNum).length,
        tlen + lenRun ((below st o left).takeWhile isStrNum)) := by
  induction left generalizing o tlen with
  | zero => cases hl
  | succ left ih =>
    rw [scan, below, List.takeWhile_cons_of_pos h]
    split
    · rename_i hc
      simp only [Bool.and_eq_true, decide_eq_true_eq] at hc
      rw [ih _ _ hc.2 hc.1, List.length_cons, lenRun, lenRun, List.map_cons, List.sum_cons]
      refine Prod.ext ?_ (Prod.ext ?_ ?_)
      · exact (Nat.add_sub_add_right _ 1 _).symm
      · change o - 1 - _ = o - (_ + 1)
        lia
      · exact Nat.add_assoc _ _ _
    · rename_i hc
      have hnil : (below st (o - 1) left).takeWhile isStrNum = [] := by
        cases left with
        | zero => rfl
        | succ left =>
          rw [below, List.takeWhile_cons_of_neg]
          simpa using hc
      rw [hnil]
      rfl

/-- **The writing loop** writes the run. -/
theorem writeRun_eq (vm : Vm O W E) (st : Stack O) {top n k : ℕ} (hk : k ≤ top) (hn : k ≤ n) :
    writeRun vm st (top - k) (k + 1) = joined vm (st top :: (below st top n).take k) := by
  have hlast : ∀ o m, writeRun vm st o (m + 1) = writeRun vm st o m ++ bytes vm (st (o + m)) := by
    intro o m
    induction m generalizing o with
    | zero => simp [writeRun]
    | succ m ih =>
      rw [writeRun, ih, writeRun, List.append_assoc, show o + 1 + m = o + (m + 1) by lia]
  induction k generalizing top n with
  | zero =>
    simp [writeRun, joined]
  | succ k ih =>
    obtain ⟨n, rfl⟩ : ∃ m, n = m + 1 := ⟨n - 1, by lia⟩
    rw [hlast, below, List.take_succ_cons, joined, show top - (k + 1) = top - 1 - k by lia,
      ih (by lia) (n := n) (by omega), show top - 1 - k + (k + 1) = top by lia]

/-! ### The fold over a run -/

theorem lenRun_cons (a : TValue O) (xs : List (TValue O)) : lenRun (a :: xs) = lenMax a + lenRun xs := by
  rw [lenRun, List.map_cons, List.sum_cons, lenRun]

/-- The check for the run at the top. -/
theorem runTooLong_run {xs rest : List (TValue O)} (hxs : ∀ x ∈ xs, isStrNum x = true)
    (hrest : ∀ x ∈ rest.head?, isStrNum x = false) :
    runTooLong (xs ++ rest) = decide (ljMaxStr ≤ lenRun xs) := by
  have hnil : rest.takeWhile isStrNum = [] := by
    cases rest with
    | nil => rfl
    | cons r rest => exact List.takeWhile_cons_of_neg (by simp [hrest r rfl])
  rw [runTooLong, List.takeWhile_append_of_pos hxs, hnil, List.append_nil, lenRun]

/-- **The binary operation makes one string of a run**, if the length is no overflow. -/
theorem foldRun_run {vm : Vm O W E} (hn : NumbersFit vm) {acc a : TValue O} {xs rest : List (TValue O)}
    (hacc : isStrNum acc = true) (ha : isStrNum a = true) (hxs : ∀ x ∈ xs, isStrNum x = true)
    (hrest : ∀ x ∈ rest.head?, isStrNum x = false) (w : W) :
    foldRun vm acc (a :: xs ++ rest) w =
      if ljMaxStr ≤ lenRun (acc :: a :: xs) then .error (.strov, w)
      else foldRun vm (.str (joined vm (acc :: a :: xs))) rest w := by
  induction xs generalizing acc a with
  | nil =>
    have hall : ∀ x ∈ [acc, a], isStrNum x = true := by simp [hacc, ha]
    have hlong := runTooLong_run hall hrest
    simp only [List.cons_append, List.nil_append] at hlong ⊢
    rw [foldRun, foldWith, hlong, ha, hacc]
    simp only [Bool.and_self, if_true, decide_eq_true_eq]
    split
    · rfl
    · simp [joined]
  | cons b xs ih =>
    have hall : ∀ x ∈ acc :: a :: b :: xs, isStrNum x = true := by
      simpa [hacc, ha] using hxs
    have hlong := runTooLong_run hall hrest
    simp only [List.cons_append] at hlong ih ⊢
    rw [foldRun, foldWith, hlong, ha, hacc]
    simp only [Bool.and_self, if_true, decide_eq_true_eq]
    split
    · rfl
    · rename_i hlt
      have hle := Nat.add_le_add (bytes_length hn ha) (bytes_length hn hacc)
      have hstr := @ih (.str (bytes vm a ++ bytes vm acc)) _ rfl (hxs b (.head _))
        fun x hx => hxs x (.tail _ hx)
      have hfit : ¬ljMaxStr ≤ lenRun (.str (bytes vm a ++ bytes vm acc) :: b :: xs) := by
        rw [lenRun_cons, lenMax, List.length_append]
        rw [lenRun_cons, lenRun_cons] at hlt
        lia
      rw [if_neg hfit] at hstr
      rw [← foldRun, hstr]
      simp [joined, bytes]

/-! ### One call of the loop -/

/-- What is left of the fold after `lj_meta_cat`: the value at the first operand, an error, or the call
of a metamethod, with the operands below its frame. -/
def Meets (vm : Vm O W E) (w : W) (base left : ℕ) (fold : Out O W E) : Result O E → Prop
  | .done st => fold = .ok (st base, w)
  | .err e => fold = .error (e, w)
  | .mm st mbase =>
      ∃ left' < left, mbase = base + left' + 2 * vm.frame ∧
        fold =
          match vm.call w (st (mbase - vm.frame)) (st mbase) (st (mbase + 1)) with
          | .error (e, w) => .error (.mm e, w)
          | .ok (v, w, _) => foldRun vm v (below st (base + left') left') w

theorem frame_cases (vm : Vm O W E) : vm.frame = 1 ∧ vm.fr2 = false ∨ vm.frame = 2 ∧ vm.fr2 = true := by
  rw [Vm.frame]
  cases vm.fr2 <;> simp

/-- The arguments and the metamethod lie at their places, and the slots below the frame are the same. -/
theorem setupMm_slots (vm : Vm O W E) (st : Stack O) {top : ℕ} (mo : TValue O) (h : 1 ≤ top) :
    setupMm vm st top mo (top + 2 * (vm.frame - 1) + 1) = st (top - 1) ∧
      setupMm vm st top mo (top + 2 * (vm.frame - 1) + 2) = st top ∧
      setupMm vm st top mo (top + (vm.frame - 1)) = mo ∧
      ∀ i < top - 1, setupMm vm st top mo i = st i := by
  obtain ⟨hf, hr⟩ | ⟨hf, hr⟩ := frame_cases vm
  · simp only [setupMm, hf, hr, Bool.false_eq_true, if_false]
    refine ⟨?_, ?_, ?_, fun i hi => ?_⟩
    · rw [Function.update_of_ne (by lia), Function.update_of_ne (by omega), Function.update_self,
        Function.update_of_ne (by lia)]
    · rw [Function.update_of_ne (by lia), Function.update_of_ne (by omega),
        Function.update_of_ne (by omega), Function.update_self]
    · rw [Function.update_of_ne (by lia), Function.update_self]
    · rw [Function.update_of_ne (by omega), Function.update_of_ne (by lia),
        Function.update_of_ne (by lia), Function.update_of_ne (by lia)]
  · simp only [setupMm, hf, hr, if_true]
    refine ⟨?_, ?_, ?_, fun i hi => ?_⟩
    · rw [Function.update_of_ne (by omega), Function.update_of_ne (by omega),
        Function.update_of_ne (by lia), Function.update_of_ne (by omega), Function.update_self,
        Function.update_of_ne (by lia)]
    · rw [Function.update_of_ne (by omega), Function.update_of_ne (by omega),
        Function.update_of_ne (by lia), Function.update_of_ne (by omega),
        Function.update_of_ne (by omega), Function.update_self]
    · rw [Function.update_of_ne (by omega), Function.update_of_ne (by omega),
        Function.update_of_ne (by lia), Function.update_self]
    · rw [Function.update_of_ne (by lia), Function.update_of_ne (by lia),
        Function.update_of_ne (by omega), Function.update_of_ne (by lia),
        Function.update_of_ne (by lia), Function.update_of_ne (by lia)]

/-- The step at a metamethod. -/
theorem foldRun_mm (vm : Vm O W E) {acc a : TValue O} (rest : List (TValue O)) (w : W)
    (h : (isStrNum a && isStrNum acc) = false) :
    foldRun vm acc (a :: rest) w =
      let mo := if tvisnil (vm.lookup w a) then vm.lookup w acc else vm.lookup w a
      if tvisnil mo then .error (.opcat (if isStrNum a then acc else a), w)
      else
        match vm.call w mo a acc with
        | .error (e, w) => .error (.mm e, w)
        | .ok (v, w, _) => foldRun vm v rest w := by
  rw [foldRun, foldWith, h]
  rfl

theorem Meets.mono {vm : Vm O W E} {w : W} {base left left' : ℕ} {fold : Out O W E} {r : Result O E}
    (h : Meets vm w base left fold r) (hl : left ≤ left') : Meets vm w base left' fold r := by
  cases r with
  | done st | err e => exact h
  | mm st mbase =>
    obtain ⟨n, hlt, h⟩ := h
    exact ⟨n, lt_of_lt_of_le hlt hl, h⟩

theorem take_takeWhile {α : Type} (p : α → Bool) (l : List α) :
    l.take (l.takeWhile p).length = l.takeWhile p :=
  (List.prefix_iff_eq_take.1 (List.takeWhile_prefix p)).symm

theorem drop_takeWhile {α : Type} (p : α → Bool) (l : List α) :
    l.drop (l.takeWhile p).length = l.dropWhile p := by
  have h := List.take_append_drop (l.takeWhile p).length l
  rw [take_takeWhile] at h
  exact List.append_cancel_left (h.trans List.takeWhile_append_dropWhile.symm)

/-- A run at the top, and the operands below it. -/
theorem run_split (st : Stack O) {top left : ℕ} (h : isStrNum (st (top - 1)) = true) (hl : 1 ≤ left) :
    ∃ xs, (below st top left).takeWhile isStrNum = st (top - 1) :: xs ∧ xs.length + 1 ≤ left ∧
      (∀ x ∈ xs, isStrNum x = true) ∧
      (∀ x ∈ (below st (top - (xs.length + 1)) (left - (xs.length + 1))).head?, isStrNum x = false) ∧
      (below st top left).take (xs.length + 1) = st (top - 1) :: xs ∧
      below st top left = st (top - 1) :: xs ++ below st (top - (xs.length + 1)) (left - (xs.length + 1)) := by
  obtain ⟨n, rfl⟩ : ∃ n, left = n + 1 := ⟨left - 1, by lia⟩
  have hrun : (below st top (n + 1)).takeWhile isStrNum =
      st (top - 1) :: (below st (top - 1) n).takeWhile isStrNum := by
    rw [below, List.takeWhile_cons_of_pos h]
  have hdrop : (below st top (n + 1)).dropWhile isStrNum =
      below st (top - (((below st (top - 1) n).takeWhile isStrNum).length + 1))
        (n + 1 - (((below st (top - 1) n).takeWhile isStrNum).length + 1)) := by
    rw [← below_drop, ← List.length_cons, ← hrun, drop_takeWhile]
  refine ⟨_, hrun, ?_, fun x hx => List.mem_takeWhile_imp hx, ?_, ?_, ?_⟩
  · have := (List.takeWhile_prefix isStrNum (l := below st (top - 1) n)).length_le
    rw [below_length] at this
    omega
  · rw [← hdrop]
    intro x hx
    have h := List.head?_dropWhile_not isStrNum (below st top (n + 1))
    rw [Option.mem_def.1 hx] at h
    exact h
  · rw [← List.length_cons, ← hrun]
    exact take_takeWhile _ _
  · rw [← hdrop, ← hrun, List.takeWhile_append_dropWhile]

/-- **One call of `lj_meta_cat`** does the steps of the fold up to the next metamethod. -/
theorem metaCat_meets {vm : Vm O W E} (hn : NumbersFit vm) (w : W) (st : Stack O) (base : ℕ) {left : ℕ}
    (hl : 1 ≤ left) :
    Meets vm w base left (foldRun vm (st (base + left)) (below st (base + left) left) w)
      (metaCat vm w st (base + left) left) := by
  induction left using Nat.strong_induction_on generalizing st with
  | _ left ih =>
    obtain ⟨n, rfl⟩ : ∃ n, left = n + 1 := ⟨left - 1, by lia⟩
    rw [metaCat]
    split
    · rename_i hmm
      have hnot : (isStrNum (st (base + (n + 1) - 1)) && isStrNum (st (base + (n + 1)))) = false := by
        rw [Bool.and_comm, ← Bool.not_eq_true', Bool.not_and]
        exact hmm
      rw [below, foldRun_mm vm _ w hnot]
      dsimp only
      generalize (if tvisnil (vm.lookup w (st (base + (n + 1) - 1))) = true then
        vm.lookup w (st (base + (n + 1))) else vm.lookup w (st (base + (n + 1) - 1))) = mo
      split
      · rfl
      · obtain ⟨h₁, h₂, h₃, h₄⟩ := @setupMm_slots _ _ _ vm st (base + (n + 1)) mo (by omega)
        have hbase : base + (n + 1) + 2 * (vm.frame - 1) + 1 - vm.frame =
            base + (n + 1) + (vm.frame - 1) := by
          obtain ⟨hf, -⟩ | ⟨hf, -⟩ := frame_cases vm <;> lia
        refine ⟨n, Nat.lt_succ_self n, ?_, ?_⟩
        · obtain ⟨hf, -⟩ | ⟨hf, -⟩ := frame_cases vm <;> lia
        · rw [hbase, h₁, h₃, h₂, below_congr (by omega) (fun i hi => h₄ i (by lia))]
          rfl
    · rename_i hrun
      obtain ⟨htop, hnext⟩ : isStrNum (st (base + (n + 1))) = true ∧
          isStrNum (st (base + (n + 1) - 1)) = true := by
        simpa using hrun
      obtain ⟨xs, htake, hlen, hxs, hrest, hk, hsplit⟩ := run_split st hnext hl
      have hscan := scan_eq st (n + 1) (base + (n + 1)) (lenMax (st (base + (n + 1)))) hnext hl
      rw [htake, List.length_cons, ← lenRun_cons] at hscan
      have hfold := foldRun_run hn htop hnext hxs hrest w
      rw [← hsplit] at hfold
      have hwrite := @writeRun_eq _ _ _ vm st (base + (n + 1)) (n + 1) (xs.length + 1) (by omega) hlen
      rw [hk, show xs.length + 1 + 1 = base + (n + 1) + 1 - (base + (n + 1) - (xs.length + 1)) by lia]
        at hwrite
      dsimp only
      rw [hscan, hfold]
      dsimp only
      rw [hwrite]
      split
      · rfl
      · have hpos : base + (n + 1) - (xs.length + 1) = base + (n + 1 - (xs.length + 1)) := by lia
        rw [hpos]
        split
        · rename_i hleft
          have h := ih _ (by lia) (Function.update st (base + (n + 1 - (xs.length + 1)))
            (.str (joined vm (st (base + (n + 1)) :: st (base + (n + 1) - 1) :: xs)))) hleft
          rw [Function.update_self, @below_congr _ _ st _ _ (by omega) fun i hi => by
            rw [Function.update_of_ne (by omega)]] at h
          exact h.mono (by lia)
        · rename_i hleft
          rw [show n + 1 - (xs.length + 1) = 0 by lia]
          simp only [Meets, Nat.add_zero, Function.update_self]
          rfl

/-! ### Whole executions -/

/-- **The loop and its continuation are the fold**, where the length is checked for the whole run; the
number of operands is enough fuel. -/
theorem drive_eq_fold {vm : Vm O W E} (hn : NumbersFit vm) (base fuel : ℕ) (w : W) (st : Stack O) {left : ℕ}
    (hl : 1 ≤ left) (hfuel : left ≤ fuel) :
    drive vm base fuel w st (base + left) left =
      some (foldRun vm (st (base + left)) (below st (base + left) left) w) := by
  induction fuel generalizing w st left with
  | zero => omega
  | succ fuel ih =>
    have h := metaCat_meets hn w st base hl
    rw [drive]
    split <;> rename_i hr <;> rw [hr] at h
    · rw [h]
    · rw [h]
    · rename_i st' mbase
      obtain ⟨n, hlt, hbase, hfold⟩ := h
      rw [hfold]
      split
      · rename_i hc
        simp only [hc]
      · rename_i v w' above hc
        have hslot : mbase - 2 * vm.frame = base + n := by lia
        simp only [hc, hslot]
        split
        · rename_i h₀
          obtain rfl : n = 0 := by lia
          rfl
        · rename_i h₀
          have hnext := @ih w' (fun i => if i < base + n then st' i else if i = base + n then v else above i) n
            (by lia) (by lia)
          rw [show base + n - base = n by lia, hnext]
          rw [if_neg (lt_irrefl _), if_pos rfl, @below_congr _ _ st' _ _ (by omega) fun i hi => if_pos hi]

/-- Without an overflow the check makes no difference. -/
theorem foldRun_eq_foldCat (vm : Vm O W E) (acc : TValue O) (xs : List (TValue O)) (w : W)
    (h : ∀ w', foldRun vm acc xs w ≠ .error (.strov, w')) : foldRun vm acc xs w = foldCat vm acc xs w := by
  induction xs generalizing acc w with
  | nil => rfl
  | cons a rest ih =>
    rw [foldRun, foldWith] at h ⊢
    rw [foldCat, foldWith]
    split
    · rename_i hc
      rw [if_pos hc] at h
      split
      · rename_i hlong
        rw [if_pos hlong] at h
        exact absurd rfl (h w)
      · rename_i hshort
        rw [if_neg hshort] at h
        have hpair : ¬pairTooLong (acc :: a :: rest) = true := by
          simp only [Bool.and_eq_true] at hc
          rw [runTooLong, List.takeWhile_cons_of_pos hc.2, List.takeWhile_cons_of_pos hc.1] at hshort
          simp only [pairTooLong, List.map_cons, List.sum_cons, decide_eq_true_eq, List.take_succ_cons,
            List.take_zero, List.map_nil, List.sum_nil] at hshort ⊢
          omega
        rw [if_neg hpair]
        exact ih _ _ h
    · rename_i hc
      rw [if_neg hc] at h
      dsimp only at h ⊢
      generalize (if tvisnil (vm.lookup w a) = true then vm.lookup w acc else vm.lookup w a) = mo at h ⊢
      split
      · rfl
      · rename_i hmo
        rw [if_neg hmo] at h
        split
        · rfl
        · rename_i hcall
          rw [hcall] at h
          exact ih _ _ h

/-- The bytes of a run are no more than the length that is counted, and as many if all are strings. -/
theorem joined_length {vm : Vm O W E} (hn : NumbersFit vm) {xs : List (TValue O)}
    (hxs : ∀ x ∈ xs, isStrNum x = true) :
    (joined vm xs).length ≤ lenRun xs ∧
      ((∀ x ∈ xs, ∃ s, x = .str s) → (joined vm xs).length = lenRun xs) := by
  induction xs with
  | nil => exact ⟨le_rfl, fun _ => rfl⟩
  | cons a xs ih =>
    obtain ⟨hle, heq⟩ := ih fun x hx => hxs x (.tail _ hx)
    have ha := bytes_length hn (hxs a (.head _))
    rw [joined, List.length_append, lenRun_cons]
    refine ⟨by omega, fun hs => ?_⟩
    obtain ⟨s, rfl⟩ := hs a (.head _)
    rw [heq fun x hx => hs x (.tail _ hx), bytes, lenMax, Nat.add_comm]

/-- The length that `lj_meta_cat` counts for the run at the top, and the bytes that it writes for it. -/
def countedLen (st : Stack O) (top left : ℕ) : ℕ := (scan st left top (lenMax (st top))).2.2

def writtenBytes (vm : Vm O W E) (st : Stack O) (top left : ℕ) : List UInt8 :=
  writeRun vm st (scan st left top (lenMax (st top))).2.1
    (top + 1 - (scan st left top (lenMax (st top))).2.1)

theorem mem_below_take {st : Stack O} {top n k : ℕ} (hk : k ≤ top) {x : TValue O}
    (h : x ∈ (below st top n).take k) : ∃ i, top - k ≤ i ∧ i ≤ top ∧ x = st i := by
  induction k generalizing top n with
  | zero => simp at h
  | succ k ih =>
    cases n with
    | zero => simp [below] at h
    | succ n =>
      rw [below, List.take_succ_cons] at h
      cases h with
      | head => exact ⟨top - 1, by lia, by lia, rfl⟩
      | tail _ h =>
        obtain ⟨i, h₁, h₂, h₃⟩ := ih (by lia) h
        exact ⟨i, by lia, by lia, h₃⟩

/-- **The bytes of a run** are no more than the counted length, and as many if all slots are strings. -/
theorem writtenBytes_length {vm : Vm O W E} (hn : NumbersFit vm) (st : Stack O) {top left : ℕ}
    (hl : 1 ≤ left) (hle : left ≤ top) (htop : isStrNum (st top) = true)
    (hnext : isStrNum (st (top - 1)) = true) :
    (writtenBytes vm st top left).length ≤ countedLen st top left ∧
      ((∀ i, (scan st left top (lenMax (st top))).2.1 ≤ i → i ≤ top → ∃ s, st i = .str s) →
        (writtenBytes vm st top left).length = countedLen st top left) := by
  obtain ⟨xs, htake, hlen, hxs, -, hk, -⟩ := run_split st hnext hl
  have hscan := scan_eq st left top (lenMax (st top)) hnext hl
  rw [htake, List.length_cons, ← lenRun_cons] at hscan
  have hwrite := @writeRun_eq _ _ _ vm st top left (xs.length + 1) (by omega) hlen
  rw [hk, show xs.length + 1 + 1 = top + 1 - (top - (xs.length + 1)) by lia] at hwrite
  have hall : ∀ x ∈ st top :: st (top - 1) :: xs, isStrNum x = true := by
    simpa [htop, hnext] using hxs
  have h := joined_length hn hall
  rw [countedLen, writtenBytes, hscan]
  dsimp only
  rw [hwrite]
  refine ⟨h.1, fun hs => h.2 fun x hx => ?_⟩
  cases hx with
  | head => exact hs top (by lia) le_rfl
  | tail _ hx =>
    rw [← hk] at hx
    obtain ⟨i, h₁, h₂, rfl⟩ := mem_below_take (by omega) hx
    exact hs i h₁ h₂

/-- **Concatenation of many operands.**  The value, the error and the calls are those of the fold whose
check is for the whole run, and without an overflow those of the fold of the operation; and a run has
no more bytes than are counted. -/
theorem metaCat_amended {vm : Vm O W E} (hn : NumbersFit vm) :
    (∀ (base fuel : ℕ) (w : W) (st : Stack O) (left : ℕ), 1 ≤ left → left ≤ fuel →
        drive vm base fuel w st (base + left) left =
          some (foldRun vm (st (base + left)) (below st (base + left) left) w) ∧
        ((∀ w', drive vm base fuel w st (base + left) left ≠ some (.error (.strov, w'))) →
          drive vm base fuel w st (base + left) left =
            some (foldCat vm (st (base + left)) (below st (base + left) left) w))) ∧
      ∀ (st : Stack O) (top left : ℕ), 1 ≤ left → left ≤ top → isStrNum (st top) = true →
        isStrNum (st (top - 1)) = true →
        (writtenBytes vm st top left).length ≤ countedLen st top left ∧
          ((∀ i, (scan st left top (lenMax (st top))).2.1 ≤ i → i ≤ top → ∃ s, st i = .str s) →
            (writtenBytes vm st top left).length = countedLen st top left) := by
  refine ⟨fun base fuel w st left hl hfuel => ?_, fun st top left => writtenBytes_length hn st⟩
  have h := drive_eq_fold hn base fuel w st hl hfuel
  refine ⟨h, fun hstrov => ?_⟩
  rw [h, foldRun_eq_foldCat]
  intro w' hw
  exact hstrov w' (by rw [h, hw])

/-- No metamethods, and no numbers but integers. -/
def plainVm : Vm Empty Unit Empty where
  fr2 := false
  bionic := false
  number2str _ := []
  lookup _ _ := .nil
  call _ _ _ _ := .ok (.nil, (), fun _ => .nil)

theorem plainVm_fits : NumbersFit plainVm := fun _ => Nat.zero_le _

/-- `"a" .. 1`. -/
theorem metaCat_amended_a1 :
    drive plainVm 0 1 () (fun i => if i = 0 then .str [97] else .int 1) (0 + 1) 1 =
      some (.ok (.str [97, 49], ())) :=
  ((metaCat_amended plainVm_fits).1 0 1 () (fun i => if i = 0 then .str [97] else .int 1) 1 le_rfl le_rfl).1.trans
    rfl

/-- A long string, and two numbers. -/
def longStack : Stack Empty
  | 0 => .str (List.replicate (ljMaxStr - 40) 97)
  | _ => .int 1

theorem foldCat_pair {a : TValue Empty} (ha : isStrNum a = true)
    (hpair : pairTooLong [TValue.str (bytes plainVm (.int 1) ++ bytes plainVm (.int 1)), a] = false) :
    foldCat plainVm (.int 1) [.int 1, a] () =
      .ok (.str (bytes plainVm a ++ (bytes plainVm (.int 1) ++ bytes plainVm (.int 1))), ()) := by
  change foldWith plainVm pairTooLong (.str (bytes plainVm (.int 1) ++ bytes plainVm (.int 1))) [a] () = _
  rw [foldWith, hpair, ha]
  rfl

/-- Two bytes are written for two numbers, and 64 are counted; so `s .. 1 .. 1` is an overflow, where the
operations one by one are not. -/
theorem counted_not_written :
    (writtenBytes plainVm longStack 2 1).length ≠ countedLen longStack 2 1 ∧
      drive plainVm 0 2 () longStack (0 + 2) 2 = some (.error (.strov, ())) ∧
      ∃ v, foldCat plainVm (longStack 2) (below longStack 2 2) () = .ok (v, ()) := by
  refine ⟨by decide, ?_, ?_⟩
  · rw [drive_eq_fold plainVm_fits 0 2 () longStack (by decide) le_rfl]
    have h := @foldRun_run _ _ _ _ plainVm_fits (longStack 2) (longStack 1) [longStack 0] [] rfl rfl (by simp [longStack, isStrNum]) (by simp) ()
    rw [if_pos] at h
    · exact congrArg some h
    · simp only [lenRun, longStack, List.map_cons, List.map_nil, lenMax, List.sum_cons, List.sum_nil,
        List.length_replicate]
      decide
  · have hpair : pairTooLong [TValue.str (bytes plainVm (.int 1) ++ bytes plainVm (.int 1)), longStack 0] =
        false := by
      simp only [pairTooLong, longStack, List.take_succ_cons, List.take_zero, List.map_cons, List.map_nil,
        lenMax, List.sum_cons, List.sum_nil, List.length_replicate, List.length_append]
      decide
    exact ⟨_, foldCat_pair rfl hpair⟩

end MetaCat
