/-
**Postconditions of computations with a state and errors.**

A computation over a state either returns a value or stops with an error, and in both cases there is a
state that it leaves behind.  Its postcondition has two parts: one for the value and the state at the
end, one for the error and the state at the stop.

Main definitions:

* `Effect.Meets` — from a state, a computation ends in one part of its postcondition.

Main results:

* `Effect.Meets.bind`, `Effect.Meets.mono` — composition and weakening;
* `Effect.meets_read` — a step that returns a value and keeps the state.
-/

import Mathlib

set_option relaxedAutoImplicit false
set_option autoImplicit false

namespace Effect

universe u

variable {ε σ α β : Type u} {m : EStateM ε σ α} {f : α → EStateM ε σ β} {s s' : σ}
variable {Q Q' : α → σ → Prop} {R : β → σ → Prop} {E E' : ε → σ → Prop}

/-- From `s` the computation ends with a value in `Q` or stops with an error in `E`. -/
def Meets (m : EStateM ε σ α) (s : σ) (Q : α → σ → Prop) (E : ε → σ → Prop) : Prop :=
  match m s with
  | .ok x s' => Q x s'
  | .error e s' => E e s'

theorem meets_ok {x : α} (h : m s = .ok x s') : Meets m s Q E ↔ Q x s' := by
  rw [Meets, h]

theorem meets_error {e : ε} (h : m s = .error e s') : Meets m s Q E ↔ E e s' := by
  rw [Meets, h]

theorem meets_pure {x : α} : Meets (pure x : EStateM ε σ α) s Q E ↔ Q x s := Iff.rfl

/-- **Composition**: the postcondition of the first part is the precondition of the second. -/
theorem Meets.bind (h : Meets m s (fun x s' => Meets (f x) s' R E) E) : Meets (m >>= f) s R E := by
  unfold Meets at h ⊢
  change match EStateM.bind m f s with | .ok x s' => R x s' | .error e s' => E e s'
  rw [EStateM.bind]
  cases hm : m s with
  | ok x s' =>
      rw [hm] at h
      exact h
  | error e s' =>
      rw [hm] at h
      exact h

theorem Meets.mono (h : Meets m s Q E) (hQ : ∀ x s', Q x s' → Q' x s') (hE : ∀ e s', E e s' → E' e s') :
    Meets m s Q' E' := by
  unfold Meets at h ⊢
  cases hm : m s with
  | ok x s' =>
      rw [hm] at h
      exact hQ x s' h
  | error e s' =>
      rw [hm] at h
      exact hE e s' h

/-- A run, step by step. -/
theorem bind_ok {x : α} (h : m s = .ok x s') : (m >>= f) s = f x s' := by
  change EStateM.bind m f s = _
  rw [EStateM.bind, h]

theorem bind_error {e : ε} (h : m s = .error e s') : (m >>= f) s = .error e s' := by
  change EStateM.bind m f s = _
  rw [EStateM.bind, h]

/-- A step that returns a value, or writes the state, is followed by the rest. -/
theorem meets_read {x : α} (h : m s = .ok x s') : Meets (m >>= f) s R E ↔ Meets (f x) s' R E := by
  rw [Meets, Meets, bind_ok h]

/-- A step that stops ends the computation. -/
theorem meets_stop {e : ε} (h : m s = .error e s') : Meets (m >>= f) s R E ↔ E e s' := by
  rw [Meets, bind_error h]

theorem meets_ite {c : Prop} [Decidable c] {n : EStateM ε σ α} :
    Meets (if c then m else n) s Q E ↔ (c → Meets m s Q E) ∧ (¬c → Meets n s Q E) := by
  by_cases h : c <;> simp [h]

end Effect
