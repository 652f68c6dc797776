/-
**Loops whose counter wraps around.**

A loop starts its counter at zero, adds a fixed step modulo `m` after each round and runs while the
counter is below a bound.  When the step does not divide `m` the counter may come back below the
bound for ever.  Nothing here mentions a particular program.

Main definitions:

* `Stride.run` — the loop, with the number of rounds it may take;
* `Stride.Reached` — the counters of the rounds.

Main results:

* `Stride.run_collects` — a loop whose rounds collect marks collects those of every counter reached;
* `Stride.run_isSome`, `Stride.Stops.of_run` — the loop ends if and only if a counter reaches the
  bound;
* `Stride.stops_pred_iff` — with the largest bound and an even `m` that is a power of two, the step
  is odd.
-/

import Mathlib

set_option relaxedAutoImplicit false
set_option autoImplicit false

namespace Stride

variable {σ : Type}

/-- `for (c = c₀; c < bound; c += step) f(c)`, with the counter modulo `m`, in at most as many
rounds as the first argument. -/
@[grind =]
def run (f : ℕ → σ → Option σ) (m step bound : ℕ) : ℕ → ℕ → σ → Option σ
  | 0, _, _ => none
  | n + 1, c, s => if c < bound then (f c s).bind (run f m step bound n ((c + step) % m)) else some s

/-- The counter after `j` rounds. -/
def counter (m step c j : ℕ) : ℕ := (c + j * step) % m

/-- The loop has a round with the counter after `j` others. -/
def Reached (m step bound c j : ℕ) : Prop := ∀ k ≤ j, counter m step c k < bound

/-- Some counter ends the loop. -/
def Stops (m step bound : ℕ) : Prop := ∃ j, bound ≤ counter m step 0 j

theorem counter_succ (m step c j : ℕ) :
    counter m step ((c + step) % m) j = counter m step c (j + 1) := by
  unfold counter
  rw [Nat.mod_add_mod]
  congr 1
  ring

theorem counter_zero {m step c : ℕ} (hc : c < m) : counter m step c 0 = c := by
  simp [counter, Nat.mod_eq_of_lt hc]

theorem reached_zero {m step bound c : ℕ} (hc : c < m) : Reached m step bound c 0 ↔ c < bound := by
  constructor
  · intro h
    have := h 0 le_rfl
    rwa [counter_zero hc] at this
  · intro h k hk
    obtain rfl : k = 0 := by omega
    rwa [counter_zero hc]

theorem reached_succ {m step bound c j : ℕ} (hc : c < m) :
    Reached m step bound c (j + 1) ↔ c < bound ∧ Reached m step bound ((c + step) % m) j := by
  constructor
  · intro h
    refine ⟨(reached_zero hc).mp fun k hk => h k (by omega), fun k hk => ?_⟩
    rw [counter_succ]
    exact h (k + 1) (by omega)
  · rintro ⟨h0, h⟩ k hk
    cases k with
    | zero => rwa [counter_zero hc]
    | succ k =>
      rw [← counter_succ]
      exact h k (by omega)

/-- What the rounds collect, the loop collects. -/
theorem run_collects {ι : Type} {f : ℕ → σ → Option σ} {P : σ → ι → Prop} {M : ℕ → ι → Prop}
    (hf : ∀ c s s', f c s = some s' → ∀ x, P s' x ↔ P s x ∨ M c x) {m step bound : ℕ} (hm : 0 < m) :
    ∀ (n c : ℕ) (s s' : σ), c < m → run f m step bound n c s = some s' →
      ∀ x, P s' x ↔ P s x ∨ ∃ j, Reached m step bound c j ∧ M (counter m step c j) x := by
  intro n
  induction n with
  | zero => intro c s s' _ h; simp [run] at h
  | succ n ih =>
    intro c s s' hc h x
    rw [run] at h
    by_cases hb : c < bound
    · rw [if_pos hb, Option.bind_eq_some_iff] at h
      obtain ⟨s₁, h₁, h₂⟩ := h
      have hrest := ih _ s₁ s' (Nat.mod_lt _ hm) h₂ x
      rw [hrest, hf c s s₁ h₁ x, or_assoc]
      refine or_congr_right ⟨?_, ?_⟩
      · rintro (h0 | ⟨j, hj, hM⟩)
        · exact ⟨0, (reached_zero hc).mpr hb, by rwa [counter_zero hc]⟩
        · exact ⟨j + 1, (reached_succ hc).mpr ⟨hb, hj⟩, by rwa [← counter_succ]⟩
      · rintro ⟨j, hj, hM⟩
        cases j with
        | zero => left; rwa [counter_zero hc] at hM
        | succ j => exact .inr ⟨j, ((reached_succ hc).mp hj).2, by rwa [counter_succ]⟩
    · rw [if_neg hb, Option.some.injEq] at h
      subst h
      refine ⟨.inl, ?_⟩
      rintro (h0 | ⟨j, hj, -⟩)
      · exact h0
      · exact absurd ((reached_zero hc).mp fun k hk => hj k (by omega)) hb

theorem run_isSome {f : ℕ → σ → Option σ} (hf : ∀ c s, (f c s).isSome) {m step bound : ℕ}
    (hm : 0 < m) : ∀ (n c j : ℕ) (s : σ), c < m → bound ≤ counter m step c j → j < n →
      (run f m step bound n c s).isSome := by
  intro n
  induction n with
  | zero => intro c j s _ _ hj; omega
  | succ n ih =>
    intro c j s hc hb hj
    rw [run]
    by_cases hcb : c < bound
    · rw [if_pos hcb]
      obtain ⟨s₁, h₁⟩ := Option.isSome_iff_exists.mp (hf c s)
      rw [h₁, Option.bind_some]
      cases j with
      | zero => rw [counter_zero hc] at hb; omega
      | succ j => exact ih _ j s₁ (Nat.mod_lt _ hm) (by rwa [counter_succ]) (by omega)
    · simp [if_neg hcb]

theorem exists_of_run {f : ℕ → σ → Option σ} {m step bound : ℕ} (hm : 0 < m) :
    ∀ (n c : ℕ) (s s' : σ), c < m → run f m step bound n c s = some s' →
      ∃ j, bound ≤ counter m step c j := by
  intro n
  induction n with
  | zero => intro c s s' _ h; simp [run] at h
  | succ n ih =>
    intro c s s' hc h
    rw [run] at h
    by_cases hb : c < bound
    · rw [if_pos hb, Option.bind_eq_some_iff] at h
      obtain ⟨s₁, -, h₂⟩ := h
      obtain ⟨j, hj⟩ := ih _ s₁ s' (Nat.mod_lt _ hm) h₂
      exact ⟨j + 1, by rwa [← counter_succ]⟩
    · exact ⟨0, by rw [counter_zero hc]; omega⟩

theorem Stops.of_run {f : ℕ → σ → Option σ} {m step bound n : ℕ} {s s' : σ} (hm : 0 < m)
    (h : run f m step bound n 0 s = some s') : Stops m step bound :=
  exists_of_run hm n 0 s s' hm h

/-- A loop that ends has had its first round. -/
theorem first_of_run {f : ℕ → σ → Option σ} {m step bound n c : ℕ} {s s' : σ} (hc : c < bound)
    (h : run f m step bound n c s = some s') : ∃ s₁, f c s = some s₁ := by
  cases n with
  | zero => simp [run] at h
  | succ n =>
    rw [run, if_pos hc, Option.bind_eq_some_iff] at h
    exact ⟨_, h.choose_spec.1⟩

/-! ### Bounds -/

/-- A multiple of the step is reached. -/
theorem stops_mul {m step : ℕ} (n : ℕ) (h : n * step < m) : Stops m step (n * step) :=
  ⟨n, by simp [counter, Nat.mod_eq_of_lt h]⟩

/-- Up to a multiple of the step the counters are the multiples below it. -/
theorem reached_mul {m step n j : ℕ} (hs : 0 < step) (h : n * step < m) :
    Reached m step (n * step) 0 j ↔ j < n := by
  constructor
  · intro hr
    by_contra hj
    have := hr n (by omega)
    simp [counter, Nat.mod_eq_of_lt h] at this
  · intro hj k hk
    have hk' : k * step < n * step := Nat.mul_lt_mul_of_pos_right (by omega) hs
    simpa [counter, Nat.mod_eq_of_lt (hk'.trans h)] using hk'

/-- The largest bound is only reached by odd steps. -/
theorem stops_pred_iff {k step : ℕ} (hk : 0 < k) : Stops (2 ^ k) step (2 ^ k - 1) ↔ step % 2 = 1 := by
  have hpos : 0 < 2 ^ k := by positivity
  constructor
  · rintro ⟨j, hj⟩
    unfold counter at hj
    have hlt := Nat.mod_lt (0 + j * step) hpos
    have heq : (0 + j * step) % 2 ^ k = 2 ^ k - 1 := by lia
    have h2 : (2 : ℕ) ∣ 2 ^ k := dvd_pow_self 2 (by omega)
    have hpar : (0 + j * step) % 2 = (2 ^ k - 1) % 2 := by rw [← heq, Nat.mod_mod_of_dvd _ h2]
    by_contra hev
    have : (j * step) % 2 = 0 := by rw [Nat.mul_mod]; simp [show step % 2 = 0 by lia]
    lia
  · intro hodd
    have hco : Nat.Coprime step (2 ^ k) :=
      Nat.Coprime.pow_right k (Nat.coprime_two_right.mpr (Nat.odd_iff.mpr hodd))
    obtain ⟨j, hj⟩ := Nat.exists_mul_mod_eq_one_of_coprime hco (Nat.one_lt_two_pow (by omega))
    have hmod : step * j ≡ 1 [MOD 2 ^ k] := by
      rw [Nat.ModEq, hj.2, Nat.mod_eq_of_lt (Nat.one_lt_two_pow (by omega))]
    refine ⟨j * (2 ^ k - 1), ?_⟩
    unfold counter
    have hcalc : (0 + j * (2 ^ k - 1) * step) % 2 ^ k = 2 ^ k - 1 := by
      calc (0 + j * (2 ^ k - 1) * step) % 2 ^ k
          = ((step * j) * (2 ^ k - 1)) % 2 ^ k := by congr 1; ring
        _ = (1 * (2 ^ k - 1)) % 2 ^ k := hmod.mul_right _
        _ = 2 ^ k - 1 := by rw [one_mul]; exact Nat.mod_eq_of_lt (by lia)
    omega

end Stride
