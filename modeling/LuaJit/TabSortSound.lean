/-
**The sort is safe and sorts.**

Every loop of the sort exchanges two elements of the range it works on, so wherever the sort stops, the
range is a rearrangement of what it was.  The comparison is not assumed to be an order for that: the
checks of the two loops around the pivot keep the indexes inside.  For a strict weak order the pivot and
the ends are sentinels, the checks never fail, and the parts around the pivot are sorted one by one.

The midpoint is a sum of two C integers.  It is exact as long as the array has no more than `2 ^ 30`
elements; for every longer array there is an order for which the sort leaves its range.

Main definitions:

* `TabSort.Rearranged`, `TabSort.StrictWeak`, `TabSort.Sorted` — what the sort is about;
* `TabSort.SortOk` — **the sort does what it should** on an array;
* `TabSort.steep` — an array whose last three elements are a part of their own.

Main results:

* `TabSort.partition_meets`, `TabSort.auxsort_meets` — the loops, and one range;
* `TabSort.sort_iff` — **the sort is correct for every array exactly up to `2 ^ 30` elements**.
-/

import LuaJit.TabSort
import LuaJit.Effect

set_option relaxedAutoImplicit false
set_option autoImplicit false

namespace TabSort

open Effect

variable {ε α : Type} {cmp : Cmp ε α} {l u i j k : ℤ} {a a' b : ℤ → α}

/-! ### Rearrangements -/

/-- The values at `l..u` are rearranged, and the others are where they were. -/
def Rearranged (l u : ℤ) (a a' : ℤ → α) : Prop :=
  ∃ σ : Equiv.Perm ℤ, (∀ k, k < l ∨ u < k → σ k = k) ∧ ∀ k, a' k = a (σ k)

theorem Rearranged.refl (l u : ℤ) (a : ℤ → α) : Rearranged l u a a :=
  ⟨1, fun _ _ => rfl, fun _ => rfl⟩

theorem Rearranged.trans (h : Rearranged l u a a') (h' : Rearranged l u a' b) : Rearranged l u a b := by
  obtain ⟨σ, hσ, ha⟩ := h
  obtain ⟨τ, hτ, hb⟩ := h'
  refine ⟨τ.trans σ, fun k hk => ?_, fun k => ?_⟩
  · rw [Equiv.trans_apply, hτ k hk, hσ k hk]
  · rw [hb, ha]
    rfl

theorem Rearranged.mono (h : Rearranged i j a a') (hl : l ≤ i) (hu : j ≤ u) : Rearranged l u a a' := by
  obtain ⟨σ, hσ, ha⟩ := h
  exact ⟨σ, fun k hk => hσ k (by lia), ha⟩

theorem rearranged_swap (hi : l ≤ i ∧ i ≤ u) (hj : l ≤ j ∧ j ≤ u) (a : ℤ → α) :
    Rearranged l u a (a ∘ Equiv.swap i j) := by
  refine ⟨Equiv.swap i j, fun k hk => Equiv.swap_apply_of_ne_of_ne ?_ ?_, fun k => rfl⟩
  · rintro rfl
    omega
  · rintro rfl
    omega

theorem Rearranged.outside (h : Rearranged l u a a') (hk : k < l ∨ u < k) : a' k = a k := by
  obtain ⟨σ, hσ, ha⟩ := h
  rw [ha, hσ k hk]

/-- What holds of all values of the range holds of them after a rearrangement. -/
theorem Rearranged.all (h : Rearranged l u a a') {P : α → Prop} (hP : ∀ k, l ≤ k → k ≤ u → P (a k)) :
    ∀ k, l ≤ k → k ≤ u → P (a' k) := by
  obtain ⟨σ, hσ, ha⟩ := h
  intro k hl hu
  rw [ha]
  by_cases hout : σ k < l ∨ u < σ k
  · -- a place outside is the place of nothing else
    have := σ.injective (hσ _ hout)
    lia
  · exact hP _ (by omega) (by omega)

/-! ### Orders -/

/-- The comparison is a strict weak order: it never fails, and incomparable values are interchangeable. -/
structure StrictWeak (cmp : Cmp ε α) : Prop where
  total : ∀ x y, ∃ b, cmp x y = .ok b
  irrefl : ∀ x, cmp x x ≠ .ok true
  trans : ∀ x y z, cmp x y = .ok true → cmp y z = .ok true → cmp x z = .ok true
  incomp : ∀ x y z, cmp x y ≠ .ok true → cmp y x ≠ .ok true → cmp y z ≠ .ok true → cmp z y ≠ .ok true →
    cmp x z ≠ .ok true

theorem StrictWeak.asymm (h : StrictWeak cmp) {x y : α} (hxy : cmp x y = .ok true) : cmp y x ≠ .ok true :=
  fun hyx => h.irrefl x (h.trans x y x hxy hyx)

/-- A value between two others is above the lower or below the higher one. -/
theorem StrictWeak.cotrans (h : StrictWeak cmp) {x y z : α} (hxz : cmp x z = .ok true) :
    cmp x y = .ok true ∨ cmp y z = .ok true := by
  by_contra hno
  rw [not_or] at hno
  obtain ⟨hxy, hyz⟩ := hno
  by_cases hyx : cmp y x = .ok true
  · exact hyz (h.trans y x z hyx hxz)
  by_cases hzy : cmp z y = .ok true
  · exact hxy (h.trans x z y hxz hzy)
  exact h.incomp x y z hxy hyx hyz hzy hxz

/-- No value of the range is less than an earlier one. -/
def Sorted (cmp : Cmp ε α) (l u : ℤ) (a : ℤ → α) : Prop :=
  ∀ i j, l ≤ i → i < j → j ≤ u → cmp (a j) (a i) ≠ .ok true

/-- A range is sorted if its parts below and above a pivot are. -/
theorem Sorted.glue (h : StrictWeak cmp) (hlo : Sorted cmp l (k - 1) a) (hhi : Sorted cmp (k + 1) u a)
    (hbelow : ∀ i, l ≤ i → i ≤ k - 1 → cmp (a k) (a i) ≠ .ok true)
    (habove : ∀ i, k + 1 ≤ i → i ≤ u → cmp (a i) (a k) ≠ .ok true) : Sorted cmp l u a := by
  intro i j hi hij hj
  rcases lt_trichotomy j k with hjk | rfl | hjk
  · exact hlo i j hi hij (by omega)
  · exact hbelow i hi (by omega)
  rcases lt_trichotomy i k with hik | rfl | hik
  · intro hlt
    rcases h.cotrans (y := a k) hlt with h1 | h1
    · exact habove j (by omega) hj h1
    · exact hbelow i hi (by omega) h1
  · exact habove j (by omega) hj
  · exact hhi i j (by omega) hij hj

/-! ### Steps -/

theorem rawgeti_eq (h : l ≤ k ∧ k ≤ u) : (rawgeti l u k : SortM ε α α) a = .ok (a k) a := if_pos h

theorem set2_eq (hi : l ≤ i ∧ i ≤ u) (hj : l ≤ j ∧ j ≤ u) :
    (set2 l u i j (a j) (a i) : SortM ε α Unit) a = .ok () (a ∘ Equiv.swap i j) := by
  have hupd : Function.update (Function.update a i (a j)) j (a i) = a ∘ Equiv.swap i j := by
    funext k
    rw [Function.comp_apply, Equiv.swap_apply_def]
    by_cases hkj : k = j
    · subst hkj
      by_cases hki : k = i
      · subst hki
        simp
      · simp [hki]
    · by_cases hki : k = i
      · subst hki
        simp [hkj]
      · simp [hki, hkj]
  change EStateM.bind (rawseti l u i (a j)) _ a = _
  rw [EStateM.bind, rawseti, if_pos hi]
  change rawseti l u j (a i) _ = _
  rw [rawseti, if_pos hj, hupd]

/-- A stop that only a comparison which is no order causes. -/
def Faulty (cmp : Cmp ε α) (l u : ℤ) (a : ℤ → α) (e : Stop ε) (a' : ℤ → α) : Prop :=
  Rearranged l u a a' ∧ ¬StrictWeak cmp ∧ (e = .order ∨ ∃ x, e = .raised x)

theorem Faulty.after {e : Stop ε} (h : Faulty cmp i j a' e b) (ha : Rearranged l u a a') (hl : l ≤ i) (hu : j ≤ u) :
    Faulty cmp l u a e b :=
  ⟨ha.trans (h.1.mono hl hu), h.2⟩

/-- A comparison, with its two outcomes. -/
theorem sortComp_meets {x y : α} {β : Type} {f : Bool → SortM ε α β} {Q : β → (ℤ → α) → Prop}
    (ht : cmp x y = .ok true → Meets (f true) a Q (Faulty cmp l u b))
    (hf : cmp x y = .ok false → Meets (f false) a Q (Faulty cmp l u b)) (hb : Rearranged l u b a) :
    Meets (sortComp cmp x y >>= f) a Q (Faulty cmp l u b) := by
  cases hc : cmp x y with
  | ok c =>
      have hrun : sortComp cmp x y a = .ok c a := by rw [sortComp, hc]
      rw [meets_read hrun]
      cases c with
      | true => exact ht hc
      | false => exact hf hc
  | error e =>
      have hrun : sortComp cmp x y a = .error (.raised e) a := by rw [sortComp, hc]
      rw [meets_stop hrun]
      refine ⟨hb, fun hsw => ?_, .inr ⟨e, rfl⟩⟩
      obtain ⟨c, hc'⟩ := hsw.total x y
      rw [hc] at hc'
      cases hc'

theorem not_lt_of_false {x y : α} (h : cmp x y = .ok false) : cmp x y ≠ .ok true := by
  rw [h]
  nofun

/-! ### The loops around the pivot -/

/-- The first `i` that is not below the pivot; or the check fails, and all of them are below. -/
theorem scanUp_meets {p : α} {fuel : ℕ} (hl : l ≤ i) (hu : i < u) (hfuel : u - i ≤ fuel)
    (hsent : StrictWeak cmp → cmp (a u) p ≠ .ok true) :
    Meets (scanUp cmp l u p fuel i) a
      (fun r a' => a' = a ∧ i < r.1 ∧ r.1 ≤ u ∧ r.2 = a r.1 ∧ cmp (a r.1) p ≠ .ok true ∧
        ∀ k, i < k → k < r.1 → cmp (a k) p = .ok true)
      (Faulty cmp l u a) := by
  induction fuel generalizing i with
  | zero => omega
  | succ fuel ih =>
      rw [scanUp, meets_read (rawgeti_eq ⟨by omega, by omega⟩)]
      refine sortComp_meets (fun ht => ?_) (fun hf => ?_) (.refl l u a)
      · rw [if_pos rfl, meets_ite]
        refine ⟨fun hge => ?_, fun hlt => ?_⟩
        · obtain rfl : i + 1 = u := by lia
          exact ⟨.refl _ _ _, fun hsw => hsent hsw ht, .inl rfl⟩
        · refine (ih (by omega) (by omega) (by omega)).mono ?_ fun _ _ h => h
          rintro ⟨r, x⟩ b ⟨rfl, hir, hru, hx, hnot, hall⟩
          refine ⟨rfl, by omega, hru, hx, hnot, fun k hik hkr => ?_⟩
          rcases (show i + 1 = k ∨ i + 1 < k by lia) with rfl | hk
          · exact ht
          · exact hall k hk hkr
      · rw [if_neg (by decide), meets_pure]
        exact ⟨rfl, by omega, by omega, rfl, not_lt_of_false hf, fun k h1 h2 => by omega⟩

/-- The last `j` that is not above the pivot; or the check fails, and all of them are above. -/
theorem scanDown_meets {p : α} {fuel : ℕ} (hl : l < j) (hu : j ≤ u) (hfuel : j - l ≤ fuel)
    (hsent : StrictWeak cmp → cmp p (a l) ≠ .ok true) :
    Meets (scanDown cmp l u p fuel j) a
      (fun r a' => a' = a ∧ l ≤ r.1 ∧ r.1 < j ∧ r.2 = a r.1 ∧ cmp p (a r.1) ≠ .ok true ∧
        ∀ k, r.1 < k → k < j → cmp p (a k) = .ok true)
      (Faulty cmp l u a) := by
  induction fuel generalizing j with
  | zero => omega
  | succ fuel ih =>
      rw [scanDown, meets_read (rawgeti_eq ⟨by omega, by omega⟩)]
      refine sortComp_meets (fun ht => ?_) (fun hf => ?_) (.refl l u a)
      · rw [if_pos rfl, meets_ite]
        refine ⟨fun hge => ?_, fun hlt => ?_⟩
        · obtain rfl : j - 1 = l := by lia
          exact ⟨.refl _ _ _, fun hsw => hsent hsw ht, .inl rfl⟩
        · refine (ih (by omega) (by omega) (by omega)).mono ?_ fun _ _ h => h
          rintro ⟨r, x⟩ b ⟨rfl, hlr, hrj, hx, hnot, hall⟩
          refine ⟨rfl, hlr, by omega, hx, hnot, fun k hrk hkj => ?_⟩
          rcases (show j - 1 = k ∨ k < j - 1 by lia) with rfl | hk
          · exact ht
          · exact hall k hrk hk
      · rw [if_neg (by decide), meets_pure]
        exact ⟨rfl, by omega, by omega, rfl, not_lt_of_false hf, fun k h1 h2 => by omega⟩

/-- "a[l..i] <= P <= a[j..u]" -/
def Around (cmp : Cmp ε α) (l u : ℤ) (p : α) (i j : ℤ) (a : ℤ → α) : Prop :=
  (∀ k, l ≤ k → k ≤ i → cmp p (a k) ≠ .ok true) ∧ ∀ k, j ≤ k → k ≤ u → cmp (a k) p ≠ .ok true

/-- The exchange of a value that is not below with one that is not above the pivot. -/
theorem Around.swap (hsw : StrictWeak cmp) {p : α} {i' j' : ℤ} (h : Around cmp l u p i j a) (hi : i < i') (hij : i' ≤ j')
    (hj : j' < j) (hup : ∀ k, i < k → k < i' → cmp (a k) p = .ok true)
    (hdown : ∀ k, j' < k → k < j → cmp p (a k) = .ok true) (hai : cmp (a i') p ≠ .ok true)
    (haj : cmp p (a j') ≠ .ok true) : Around cmp l u p i' j' (a ∘ Equiv.swap i' j') := by
  refine ⟨fun k hlk hki => ?_, fun k hjk hku => ?_⟩
  · rw [Function.comp_apply]
    rcases (show k = i' ∨ k < i' by lia) with rfl | hlt
    · rwa [Equiv.swap_apply_left]
    · rw [Equiv.swap_apply_of_ne_of_ne (by omega) (by omega)]
      by_cases hk : k ≤ i
      · exact h.1 k hlk hk
      · exact hsw.asymm (hup k (by omega) hlt)
  · rw [Function.comp_apply]
    rcases (show k = j' ∨ j' < k by lia) with rfl | hlt
    · rwa [Equiv.swap_apply_right]
    · rw [Equiv.swap_apply_of_ne_of_ne (by omega) (by omega)]
      by_cases hk : j ≤ k
      · exact h.2 k hk hku
      · exact hsw.asymm (hdown k hlt (by omega))

/-- **The loop around the pivot** ends inside of the range; for an order, at the place of the pivot. -/
theorem partition_meets {p : α} {fuel : ℕ} (hl : l ≤ i) (hij : i ≤ j) (hlj : l < j) (hiu : i ≤ u - 2) (hju : j ≤ u - 1)
    (hfuel : j - i < fuel) (hinv : StrictWeak cmp → Around cmp l u p i j a) :
    Meets (partition cmp l u p fuel i j) a
      (fun r a' => Rearranged l u a a' ∧ a' (u - 1) = a (u - 1) ∧ l < r ∧ r ≤ u ∧
        (StrictWeak cmp → r ≤ u - 1 ∧ Around cmp l u p (r - 1) r a'))
      (Faulty cmp l u a) := by
  induction fuel generalizing i j a with
  | zero => omega
  | succ fuel ih =>
      rw [partition]
      refine (scanUp_meets hl (by omega) (by lia) fun hsw => (hinv hsw).2 u (by omega) le_rfl).mono ?_
        (fun _ _ h => h) |>.bind
      rintro ⟨i', ai⟩ b ⟨rfl, hi', hi'u, hival, hai, hup⟩
      obtain rfl : ai = b i' := hival
      refine (scanDown_meets hlj (by omega) (by lia) fun hsw => (hinv hsw).1 l le_rfl hl).mono ?_
        (fun _ _ h => h) |>.bind
      rintro ⟨j', aj⟩ b ⟨rfl, hlj', hj', hjval, haj, hdown⟩
      obtain rfl : aj = b j' := hjval
      dsimp only at *
      rw [meets_ite]
      refine ⟨fun hlt => ?_, fun hge => ?_⟩
      · rw [meets_pure]
        refine ⟨.refl _ _ _, rfl, by omega, by omega, fun hsw => ⟨?_, fun k hlk hki => ?_, fun k hik hku => ?_⟩⟩
        · -- the pivot itself stops the first loop
          by_contra hu1
          exact (hinv hsw).2 (u - 1) hju (by omega) (hup (u - 1) (by lia) (by omega))
        · by_cases hk : k ≤ i
          · exact (hinv hsw).1 k hlk hk
          · exact hsw.asymm (hup k (by omega) (by omega))
        · by_cases hk : j ≤ k
          · exact (hinv hsw).2 k hk hku
          · exact hsw.asymm (hdown k (by omega) (by omega))
      · rw [meets_read (set2_eq ⟨by omega, by omega⟩ ⟨by omega, by omega⟩)]
        have hswap := rearranged_swap (l := l) (u := u) (i := i') (j := j') ⟨by omega, by omega⟩ ⟨by omega, by omega⟩ b
        refine (ih (by omega) (by omega) (by lia) (by lia) (by lia) (by lia) fun hsw =>
          (hinv hsw).swap hsw hi' (by omega) hj' hup hdown hai haj).mono ?_
          fun _ _ h => h.after hswap le_rfl le_rfl
        rintro r b' ⟨hr, hlast, hlr, hru, hsort⟩
        refine ⟨hswap.trans hr, ?_, hlr, hru, hsort⟩
        rw [hlast, Function.comp_apply, Equiv.swap_apply_of_ne_of_ne (by lia) (by lia)]

/-! ### One range -/

/-- What the three elements at the ends and in the middle are afterwards. -/
theorem median_meets (hl : l < i) (hu : i < u) (hlu : StrictWeak cmp → cmp (a u) (a l) ≠ .ok true) :
    Meets (median cmp l u i) a
      (fun _ a' => Rearranged l u a a' ∧ (StrictWeak cmp → cmp (a' i) (a' l) ≠ .ok true ∧
        cmp (a' u) (a' i) ≠ .ok true ∧ cmp (a' u) (a' l) ≠ .ok true))
      (Faulty cmp l u a) := by
  rw [median, meets_read (rawgeti_eq ⟨by omega, by omega⟩), meets_read (rawgeti_eq ⟨by omega, by omega⟩)]
  refine sortComp_meets (fun ht => ?_) (fun hf => ?_) (.refl l u a)
  · rw [if_pos rfl, meets_ok (set2_eq ⟨by omega, by omega⟩ ⟨by omega, by omega⟩)]
    refine ⟨rearranged_swap ⟨by omega, by omega⟩ ⟨by omega, by omega⟩ a, fun hsw => ?_⟩
    simp only [Function.comp_apply, Equiv.swap_apply_left, Equiv.swap_apply_right,
      Equiv.swap_apply_of_ne_of_ne (show u ≠ i by omega) (show u ≠ l by omega)]
    refine ⟨hsw.asymm ht, hlu hsw, fun hlt => ?_⟩
    exact hlu hsw (hsw.trans _ _ _ hlt ht)
  rw [if_neg (by decide), meets_read (rawgeti_eq ⟨by omega, by omega⟩)]
  refine sortComp_meets (fun ht => ?_) (fun hf' => ?_) (.refl l u a)
  · rw [if_pos rfl, meets_ok (set2_eq ⟨by omega, by omega⟩ ⟨by omega, by omega⟩)]
    refine ⟨rearranged_swap ⟨by omega, by omega⟩ ⟨by omega, by omega⟩ a, fun hsw => ?_⟩
    simp only [Function.comp_apply, Equiv.swap_apply_left, Equiv.swap_apply_right,
      Equiv.swap_apply_of_ne_of_ne (show l ≠ i by omega) (show l ≠ u by omega)]
    exact ⟨hlu hsw, hsw.asymm ht, not_lt_of_false hf⟩
  · rw [if_neg (by decide), meets_pure]
    refine ⟨.refl _ _ _, fun hsw => ⟨not_lt_of_false hf, not_lt_of_false hf', hlu hsw⟩⟩

/-- The values around the place `r` where the pivot ends up. -/
def Parted (cmp : Cmp ε α) (l u r : ℤ) (a : ℤ → α) : Prop :=
  (∀ k, l ≤ k → k ≤ r - 1 → cmp (a r) (a k) ≠ .ok true) ∧ ∀ k, r + 1 ≤ k → k ≤ u → cmp (a k) (a r) ≠ .ok true

/-- **The partition of a range** of at least four elements. -/
theorem split_meets (hl : l < i) (hiu : i < u - 1) (hlu : l + 3 ≤ u)
    (hmed : StrictWeak cmp → cmp (a i) (a l) ≠ .ok true ∧ cmp (a u) (a i) ≠ .ok true) :
    Meets (split cmp l u i) a
      (fun r a' => Rearranged l u a a' ∧ a' r = a i ∧ l < r ∧ r ≤ u ∧ (StrictWeak cmp → Parted cmp l u r a'))
      (Faulty cmp l u a) := by
  rw [split, meets_read (rawgeti_eq ⟨by omega, by omega⟩), meets_read (rawgeti_eq ⟨by omega, by omega⟩),
    meets_read (set2_eq ⟨by omega, by omega⟩ ⟨by omega, by omega⟩)]
  have hswap := rearranged_swap (l := l) (u := u) (i := i) (j := u - 1) ⟨by omega, by omega⟩ ⟨by omega, by omega⟩ a
  have hlast : (a ∘ Equiv.swap i (u - 1)) (u - 1) = a i := by
    rw [Function.comp_apply, Equiv.swap_apply_right]
  have hfirst : (a ∘ Equiv.swap i (u - 1)) l = a l := by
    rw [Function.comp_apply, Equiv.swap_apply_of_ne_of_ne (by omega) (by omega)]
  have hend : (a ∘ Equiv.swap i (u - 1)) u = a u := by
    rw [Function.comp_apply, Equiv.swap_apply_of_ne_of_ne (by omega) (by omega)]
  generalize a ∘ Equiv.swap i (u - 1) = b at hswap hlast hfirst hend
  refine (partition_meets le_rfl (by omega) (by omega) (by omega) le_rfl (by lia) fun hsw => ?_).mono ?_
    (fun _ _ h => h.after hswap le_rfl le_rfl) |>.bind
  · -- the ends and the pivot itself are the sentinels
    refine ⟨fun k h1 h2 => ?_, fun k h1 h2 => ?_⟩
    · obtain rfl : k = l := by lia
      rw [hfirst]
      exact (hmed hsw).1
    · rcases (show k = u - 1 ∨ k = u by lia) with rfl | rfl
      · rw [hlast]
        exact hsw.irrefl _
      · rw [hend]
        exact (hmed hsw).2
  rintro r c ⟨hrear, hpivot, hlr, hru, haround⟩
  rw [meets_read (rawgeti_eq ⟨by omega, by omega⟩), meets_read (rawgeti_eq ⟨by omega, by omega⟩),
    meets_read (set2_eq ⟨by omega, by omega⟩ ⟨by omega, by omega⟩), meets_pure]
  have hcr : (c ∘ Equiv.swap (u - 1) r) r = a i := by
    rw [Function.comp_apply, Equiv.swap_apply_right, hpivot, hlast]
  refine ⟨hswap.trans (hrear.trans (rearranged_swap ⟨by omega, by omega⟩ ⟨by omega, by omega⟩ c)), hcr, hlr, hru,
    fun hsw => ?_⟩
  obtain ⟨hr, hlo, hhi⟩ := haround hsw
  refine ⟨fun k h1 h2 => ?_, fun k h1 h2 => ?_⟩
  · rw [hcr, Function.comp_apply, Equiv.swap_apply_of_ne_of_ne (by omega) (by omega)]
    exact hlo k h1 h2
  · rw [hcr, Function.comp_apply]
    rcases (show k = u - 1 ∨ k ≠ u - 1 by lia) with rfl | hk
    · rw [Equiv.swap_apply_left]
      exact hhi r le_rfl hru
    · rw [Equiv.swap_apply_of_ne_of_ne hk (by omega)]
      exact hhi k (by omega) h2

/-- A part of the range is rearranged below or above the pivot. -/
theorem Parted.part (hp : Parted cmp l u k a) (h : Rearranged i j a b) (hij : (l ≤ i ∧ j < k) ∨ (k < i ∧ j ≤ u)) :
    Parted cmp l u k b := by
  have hk : b k = a k := h.outside (by omega)
  have hall : ∀ P : α → Prop, (∀ m, i ≤ m → m ≤ j → P (a m)) → ∀ m, (P (a m)) → P (b m) := by
    intro P hP m hm
    by_cases hout : m < i ∨ j < m
    · rwa [h.outside hout]
    · exact h.all hP m (by omega) (by omega)
  rcases hij with ⟨hl, hj⟩ | ⟨hi, hu⟩
  · refine ⟨fun m h1 h2 => ?_, fun m h1 h2 => ?_⟩
    · rw [hk]
      exact hall (fun x => cmp (a k) x ≠ .ok true) (fun m' h3 h4 => hp.1 m' (by omega) (by omega)) m (hp.1 m h1 h2)
    · rw [hk, h.outside (by omega)]
      exact hp.2 m h1 h2
  · refine ⟨fun m h1 h2 => ?_, fun m h1 h2 => ?_⟩
    · rw [hk, h.outside (by omega)]
      exact hp.1 m h1 h2
    · rw [hk]
      exact hall (fun x => cmp x (a k) ≠ .ok true) (fun m' h3 h4 => hp.2 m' (by omega) (by omega)) m (hp.2 m h1 h2)

theorem Sorted.part (hs : Sorted cmp l u a) (h : Rearranged i j a b) (hij : u < i ∨ j < l) : Sorted cmp l u b := by
  intro m n hm hmn hn
  rw [h.outside (by lia), h.outside (by lia)]
  exact hs m n hm hmn hn

/-- The midpoint of a range is exact for indexes up to `2 ^ 30`. -/
theorem midpoint_eq (hl : 1 ≤ l) (hlu : l + 2 ≤ u) (hu : u ≤ 2 ^ 30) : (int32 (l + u)).tdiv 2 = (l + u) / 2 := by
  rw [int32, Int.bmod_eq_of_le (by omega) (by omega), Int.tdiv_eq_ediv_of_nonneg (by omega)]

/-- What the sort of a range leaves. -/
def Done (cmp : Cmp ε α) (l u : ℤ) (a : ℤ → α) (_ : Unit) (a' : ℤ → α) : Prop :=
  Rearranged l u a a' ∧ (StrictWeak cmp → Sorted cmp l u a')

/-- Two parts are sorted one after the other. -/
theorem Done.both (hp : StrictWeak cmp → Parted cmp l u k a) (hk : l ≤ k ∧ k ≤ u) {c : ℤ → α}
    (h : (Done cmp l (k - 1) a () b ∧ Done cmp (k + 1) u b () c) ∨
      (Done cmp (k + 1) u a () b ∧ Done cmp l (k - 1) b () c)) : Done cmp l u a () c := by
  rcases h with ⟨h1, h2⟩ | ⟨h1, h2⟩
  · refine ⟨(h1.1.mono le_rfl (by omega)).trans (h2.1.mono (by omega) le_rfl), fun hsw => ?_⟩
    have hc := ((hp hsw).part h1.1 (.inl ⟨le_rfl, by omega⟩)).part h2.1 (.inr ⟨by omega, le_rfl⟩)
    exact .glue hsw ((h1.2 hsw).part h2.1 (.inl (by omega))) (h2.2 hsw) hc.1 hc.2
  · refine ⟨(h1.1.mono (by omega) le_rfl).trans (h2.1.mono le_rfl (by omega)), fun hsw => ?_⟩
    have hc := ((hp hsw).part h1.1 (.inr ⟨by omega, le_rfl⟩)).part h2.1 (.inl ⟨le_rfl, by omega⟩)
    exact .glue hsw (h2.2 hsw) ((h1.2 hsw).part h2.1 (.inr (by omega))) hc.1 hc.2

/-- The first comparison. -/
theorem ends_meets (hlu : l < u) :
    Meets (ends cmp l u) a
      (fun _ a' => Rearranged l u a a' ∧ (StrictWeak cmp → cmp (a' u) (a' l) ≠ .ok true)) (Faulty cmp l u a) := by
  rw [ends, meets_read (rawgeti_eq ⟨by omega, by omega⟩), meets_read (rawgeti_eq ⟨by omega, by omega⟩)]
  refine sortComp_meets (fun ht => ?_) (fun hf => ?_) (.refl l u a)
  · rw [if_pos rfl, meets_ok (set2_eq ⟨by omega, by omega⟩ ⟨by omega, by omega⟩)]
    refine ⟨rearranged_swap ⟨by omega, by omega⟩ ⟨by omega, by omega⟩ a, fun hsw => ?_⟩
    rw [Function.comp_apply, Equiv.swap_apply_right, Function.comp_apply, Equiv.swap_apply_left]
    exact hsw.asymm ht
  · rw [if_neg (by decide), meets_pure]
    exact ⟨.refl l u a, fun _ => not_lt_of_false hf⟩

/-- **One range**: the sort ends, keeps to the range, and sorts it if the comparison is an order. -/
theorem auxsort_meets {fuel : ℕ} (hl : 1 ≤ l) (hu : u ≤ 2 ^ 30) (h0 : 0 < fuel) (hfuel : u - l < fuel) :
    Meets (auxsort cmp fuel l u) a (Done cmp l u a) (Faulty cmp l u a) := by
  induction fuel generalizing l u a with
  | zero => omega
  | succ fuel ih =>
      rw [auxsort, meets_ite]
      refine ⟨fun hlu => ?_, fun hge => ?_⟩
      · refine (ends_meets hlu).mono ?_ (fun _ _ h => h) |>.bind
        rintro - b ⟨hb, hends⟩
        rw [meets_ite]
        refine ⟨fun htwo => ?_, fun hmore => ?_⟩
        · rw [meets_pure]
          refine ⟨hb, fun hsw i j h1 h2 h3 => ?_⟩
          obtain rfl : i = l := by lia
          obtain rfl : j = u := by lia
          exact hends hsw
        have hmid := midpoint_eq hl (show l + 2 ≤ u by lia) hu
        rw [hmid]
        refine (median_meets (by lia) (by lia) hends).mono ?_ (fun _ _ h => h.after hb le_rfl le_rfl) |>.bind
        rintro - c ⟨hc, hmed⟩
        rw [meets_ite]
        refine ⟨fun hthree => ?_, fun hmore' => ?_⟩
        · rw [meets_pure]
          refine ⟨hb.trans hc, fun hsw i j h1 h2 h3 => ?_⟩
          obtain ⟨hm1, hm2, hm3⟩ := hmed hsw
          -- the three pairs of three elements
          rcases (show (i = l ∧ j = (l + u) / 2) ∨ (i = (l + u) / 2 ∧ j = u) ∨ (i = l ∧ j = u) by lia) with
            ⟨rfl, rfl⟩ | ⟨rfl, rfl⟩ | ⟨rfl, rfl⟩
          · exact hm1
          · exact hm2
          · exact hm3
        refine (split_meets (by lia) (by lia) (by lia) fun hsw => ⟨(hmed hsw).1, (hmed hsw).2.1⟩).mono ?_
          (fun _ _ h => h.after (hb.trans hc) le_rfl le_rfl) |>.bind
        rintro r d ⟨hd, -, hlr, hru, hparted⟩
        have hbd := hb.trans (hc.trans hd)
        rw [meets_ite]
        refine ⟨fun _ => ?_, fun _ => ?_⟩
        · refine (ih hl (by lia) (by lia) (by lia)).mono (fun _ e he => ?_)
            (fun _ _ h => h.after hbd le_rfl (by omega)) |>.bind
          refine (ih (by omega) hu (by lia) (by lia)).mono (fun _ g hg => ?_) fun _ _ h =>
            h.after (hbd.trans (he.1.mono le_rfl (by omega))) (by omega) le_rfl
          have hdone := Done.both hparted ⟨hlr.le, hru⟩ (.inl ⟨he, hg⟩)
          exact ⟨hbd.trans hdone.1, hdone.2⟩
        · refine (ih (by omega) hu (by lia) (by lia)).mono (fun _ e he => ?_)
            (fun _ _ h => h.after hbd (by omega) le_rfl) |>.bind
          refine (ih hl (by omega) (by lia) (by lia)).mono (fun _ g hg => ?_) fun _ _ h =>
            h.after (hbd.trans (he.1.mono (by omega) le_rfl)) le_rfl (by omega)
          have hdone := Done.both hparted ⟨hlr.le, hru⟩ (.inr ⟨he, hg⟩)
          exact ⟨hbd.trans hdone.1, hdone.2⟩
      · rw [meets_pure]
        exact ⟨.refl _ _ _, fun _ i j h1 h2 h3 => by omega⟩

/-! ### The whole array -/

/-- **The sort does what it should** on the array `a[1..n]`: it ends; wherever it stops, no access was
outside of the range, the array is a rearrangement of what it was, and the stop is the invalid order or
an error of the comparison; for a strict weak order it does not stop, and the array is sorted. -/
def SortOk (cmp : Cmp ε α) (n : ℤ) (a : ℤ → α) : Prop :=
  Meets (tableSort cmp n) a (Done cmp 1 n a) (Faulty cmp 1 n a)

/-- The order of the natural numbers. -/
def natCmp : Cmp Empty ℕ := fun x y => .ok (decide (x < y))

theorem natCmp_eq_true {x y : ℕ} : natCmp x y = .ok true ↔ x < y := by
  simp [natCmp]

theorem strictWeak_natCmp : StrictWeak natCmp where
  total x y := ⟨decide (x < y), rfl⟩
  irrefl x := by simp [natCmp_eq_true]
  trans x y z := by
    simp only [natCmp_eq_true]
    omega
  incomp x y z := by
    simp only [natCmp_eq_true, ne_eq]
    omega

/-- An array with one element in the middle that is less than the last three only. -/
def steep (n : ℤ) (k : ℤ) : ℕ := if k = (1 + n) / 2 then 1 else if n - 2 ≤ k then 2 else 0

/-- The partition of the steep array leaves its last three elements as a part of their own. -/
theorem steep_split {n r : ℤ} {b : ℤ → ℕ} (hn : 8 ≤ n) (hb : Rearranged 1 n (steep n) b) (hr : b r = 1)
    (hr1 : 1 ≤ r) (hrn : r ≤ n) (hp : Parted natCmp 1 n r b) : r = n - 3 := by
  obtain ⟨σ, hσ, hval⟩ := hb
  have hin : ∀ k, 1 ≤ σ k ∧ σ k ≤ n ↔ 1 ≤ k ∧ k ≤ n := by
    intro k
    by_cases hk : k < 1 ∨ n < k
    · rw [hσ k hk]
    by_cases hk' : σ k < 1 ∨ n < σ k
    · have := σ.injective (hσ _ hk')
      lia
    · lia
  have hone : ∀ k, b k = 1 ↔ σ k = (1 + n) / 2 := by
    intro k
    rw [hval, steep]
    split_ifs with h1 h2 <;> simp [h1]
  have htwo : ∀ k, b k = 2 ↔ n - 2 ≤ σ k := by
    intro k
    rw [hval, steep]
    split_ifs with h1 h2
    · rw [h1]
      simp only [OfNat.one_ne_ofNat, false_iff]
      lia
    · simp [h2]
    · simp [h2]
  have hle : ∀ k, b k ≤ 2 := by
    intro k
    rw [hval, steep]
    split_ifs <;> decide
  have hne : ∀ k, k ≠ r → b k ≠ 1 := fun k hk h1 =>
    hk (σ.injective (((hone k).1 h1).trans ((hone r).1 hr).symm))
  -- the elements behind the pivot are the last three of the array
  have hmap : (Finset.Icc (r + 1) n).map σ.toEmbedding = Finset.Icc (n - 2) n := by
    ext x
    simp only [Finset.mem_map_equiv, Finset.mem_Icc]
    obtain ⟨k, rfl⟩ := σ.surjective x
    rw [Equiv.symm_apply_apply]
    have hkin := hin k
    constructor
    · rintro ⟨h1, h2⟩
      have hge := hp.2 k h1 h2
      rw [ne_eq, natCmp_eq_true, hr] at hge
      have h3 := hle k
      have h4 := hne k (by omega)
      exact ⟨(htwo k).1 (by lia), by lia⟩
    · rintro ⟨h1, h2⟩
      have hk2 := (htwo k).2 h1
      refine ⟨?_, by lia⟩
      by_contra hlt
      rcases (show k = r ∨ k ≤ r - 1 by lia) with rfl | hkr
      · omega
      · have hbelow := hp.1 k (by lia) hkr
        rw [ne_eq, natCmp_eq_true, hr] at hbelow
        omega
  have hcard := congrArg Finset.card hmap
  rw [Finset.card_map, Int.card_Icc, Int.card_Icc] at hcard
  lia

theorem sortComp_natCmp {x y : ℕ} {a : ℤ → ℕ} (h : ¬x < y) : sortComp natCmp x y a = .ok false a := by
  simp [sortComp, natCmp, h]

theorem steep_one {n : ℤ} (hn : 8 ≤ n) : steep n 1 = 0 := by
  rw [steep, if_neg (by lia), if_neg (by omega)]

theorem steep_mid (n : ℤ) : steep n ((1 + n) / 2) = 1 := if_pos rfl

theorem steep_last {n : ℤ} (hn : 8 ≤ n) : steep n n = 2 := by
  rw [steep, if_neg (by omega), if_pos (by omega)]

theorem ends_steep {n : ℤ} (hn : 8 ≤ n) : ends natCmp 1 n (steep n) = .ok () (steep n) := by
  have h : Meets (ends natCmp 1 n) (steep n) (fun _ a => a = steep n) fun _ _ => False := by
    rw [ends, meets_read (rawgeti_eq ⟨by omega, by omega⟩), meets_read (rawgeti_eq ⟨by omega, by omega⟩),
      meets_read (sortComp_natCmp (by rw [steep_one hn]; omega)), if_neg (by decide), meets_pure]
  unfold Meets at h
  cases hrun : ends natCmp 1 n (steep n) with
  | ok x b =>
      rw [hrun] at h
      rw [show b = steep n from h]
  | error e b =>
      rw [hrun] at h
      exact h.elim

/-- The middle of the steep array is its median. -/
theorem median_steep {n : ℤ} (hn : 8 ≤ n) :
    Meets (median natCmp 1 n ((1 + n) / 2)) (steep n) (fun _ a => a = steep n) fun _ _ => False := by
  rw [median, meets_read (rawgeti_eq ⟨by omega, by lia⟩), meets_read (rawgeti_eq ⟨by omega, by omega⟩),
    meets_read (sortComp_natCmp (by rw [steep_one hn]; omega)), if_neg (by decide),
    meets_read (rawgeti_eq ⟨by omega, by omega⟩),
    meets_read (sortComp_natCmp (by rw [steep_last hn, steep_mid]; omega)), if_neg (by decide), meets_pure]

/-- The midpoint of the last three elements of an array of more than `2 ^ 30`. -/
theorem midpoint_wraps {n : ℤ} (h : 2 ^ 30 < n) (h' : n < 2 ^ 31) : (int32 (n - 2 + n)).tdiv 2 < 0 := by
  have hwrap : int32 (n - 2 + n) = 2 * (n - 1 - 2 ^ 31) := by
    rw [int32, Int.bmod_def]
    lia
  rw [hwrap, Int.mul_tdiv_cancel_left _ (by decide)]
  omega

theorem median_outside {β : Type} {f : Unit → SortM ε α β} {Q : β → (ℤ → α) → Prop} (h : i < l) :
    Meets (median cmp l u i >>= f) a Q fun e _ => ∃ k, e = .outside k := by
  have hread : (rawgeti l u i : SortM ε α α) a = .error (.outside i) a := if_neg (by omega)
  refine Meets.bind ?_
  rw [median, meets_stop hread]
  exact ⟨i, rfl⟩

/-- **In an array of more than `2 ^ 30` elements the sort can leave its range.** -/
theorem tableSort_leaves {n : ℤ} (h : 2 ^ 30 < n) (h' : n < 2 ^ 31) :
    Meets (tableSort natCmp n) (steep n) (fun _ _ => False) fun e _ => ∃ k, e = .outside k := by
  have hnone : ∀ {l u : ℤ} {b c : ℤ → ℕ} {e : Stop Empty}, Faulty natCmp l u b e c → ∃ k, e = .outside k :=
    fun hf => absurd strictWeak_natCmp hf.2.1
  obtain ⟨m, hm⟩ : ∃ m, (n + 1).toNat = m + 2 := ⟨(n + 1).toNat - 2, by lia⟩
  rw [tableSort, hm, auxsort, if_pos (by omega), meets_read (ends_steep (by omega)), if_neg (by omega)]
  rcases (show n = 2 ^ 31 - 1 ∨ n < 2 ^ 31 - 1 by lia) with rfl | hlt
  · -- already the sum of the first and the last index is too large
    have hwrap : int32 (1 + (2 ^ 31 - 1)) = 2 * (-2 ^ 30) := by norm_num [int32, Int.bmod_def]
    rw [hwrap, Int.mul_tdiv_cancel_left _ (by norm_num)]
    exact median_outside (by norm_num)
  have hmid : (int32 (1 + n)).tdiv 2 = (1 + n) / 2 := by
    rw [int32, Int.bmod_eq_of_le (by omega) (by omega), Int.tdiv_eq_ediv_of_nonneg (by omega)]
  rw [hmid]
  refine ((median_steep (by omega)).mono ?_ fun _ _ hf => hf.elim).bind
  rintro - b rfl
  rw [if_neg (by omega)]
  refine ((split_meets (by lia) (by lia) (by omega) fun _ => ?_).mono ?_ fun _ _ hf => hnone hf).bind
  · rw [steep_one (by omega), steep_mid, steep_last (by omega)]
    simp only [ne_eq, natCmp_eq_true]
    omega
  rintro r c ⟨hrear, hpivot, hr1, hrn, hparted⟩
  obtain rfl := steep_split (by omega) hrear (hpivot.trans (steep_mid n)) hr1.le hrn (hparted strictWeak_natCmp)
  rw [if_neg (by omega)]
  refine Meets.bind ?_
  rw [show n - 3 + 1 = n - 2 by omega, auxsort, if_pos (by omega)]
  refine ((ends_meets (by omega)).mono ?_ fun _ _ hf => hnone hf).bind
  rintro - d -
  rw [if_neg (by omega)]
  exact median_outside (by have := midpoint_wraps h h'; lia)

theorem not_sortOk_steep {n : ℤ} (h : 2 ^ 30 < n) (h' : n < 2 ^ 31) : ¬SortOk natCmp n (steep n) := by
  intro hok
  have hleaves := tableSort_leaves h h'
  unfold SortOk Meets at hok
  unfold Meets at hleaves
  cases hrun : tableSort natCmp n (steep n) with
  | ok x b =>
      rw [hrun] at hleaves
      exact hleaves
  | error e b =>
      rw [hrun] at hok
      exact hok.2.1 strictWeak_natCmp

/-- **The sort is correct for every array and every comparison exactly up to `2 ^ 30` elements.** -/
theorem sort_iff (n : ℕ) (hn : n < 2 ^ 31) :
    (∀ (ε α : Type) (cmp : Cmp ε α) (a : ℤ → α), SortOk cmp n a) ↔ n ≤ 2 ^ 30 := by
  refine ⟨fun h => ?_, fun h ε α cmp a => auxsort_meets le_rfl (by exact_mod_cast h) (by lia) (by omega)⟩
  by_contra hgt
  exact not_sortOk_steep (by omega) (by omega) (h Empty ℕ natCmp (steep n))

/-- Three elements. -/
theorem sort_iff_three :
    (∀ (ε α : Type) (cmp : Cmp ε α) (a : ℤ → α), SortOk cmp (3 : ℕ) a) ↔ 3 ≤ 2 ^ 30 :=
  sort_iff 3 (by decide)

/-- An array of `2 ^ 30 + 1` elements. -/
theorem sort_leaves_range : ¬SortOk natCmp (2 ^ 30 + 1) (steep (2 ^ 30 + 1)) :=
  not_sortOk_steep (by norm_num) (by norm_num)

end TabSort
