/-
**Byte ranges in named regions of memory.**

A span is a range of bytes in one of several regions.  Spans that are given out one after the other
from the bottom of each region never meet.  Nothing here mentions a particular program.

Main definitions:

* `Span` — a region, the first byte and the length;
* `Span.Apart` — no byte is in both;
* `Span.Below`, `Span.Above` — all bytes lie below, or at and above, a mark for each region.

Main results:

* `Span.Apart.of_below_above` — what lies below the marks is apart from what lies above them;
* `Span.not_apart_of_byte` — spans that share a byte are not apart.
-/

import Mathlib

set_option relaxedAutoImplicit false
set_option autoImplicit false

/-- A range of bytes of a region. -/
structure Span (ρ : Type) where
  region : ρ
  start : ℕ
  len : ℕ
  deriving DecidableEq

namespace Span

variable {ρ : Type}

/-- The byte is in the span. -/
def Covers (s : Span ρ) (r : ρ) (b : ℕ) : Prop := s.region = r ∧ s.start ≤ b ∧ b < s.start + s.len

/-- No byte is in both spans. -/
def Apart (s u : Span ρ) : Prop := ∀ r b, s.Covers r b → ¬ u.Covers r b

/-- Every byte lies below the mark of its region. -/
def Below (s : Span ρ) (mark : ρ → ℕ) : Prop := 0 < s.len → s.start + s.len ≤ mark s.region

/-- Every byte lies at or above the mark of its region. -/
def Above (s : Span ρ) (mark : ρ → ℕ) : Prop := 0 < s.len → mark s.region ≤ s.start

theorem Apart.of_below_above {s u : Span ρ} {mark : ρ → ℕ} (hs : s.Below mark) (hu : u.Above mark) :
    s.Apart u := by
  rintro r b ⟨rfl, hb, hb'⟩ ⟨hr, hu1, hu2⟩
  have h1 := hs (by omega)
  have h2 := hu (by omega)
  rw [hr] at h2
  omega

theorem not_apart_of_byte {s u : Span ρ} {r : ρ} {b : ℕ} (hs : s.Covers r b) (hu : u.Covers r b) :
    ¬ s.Apart u := fun h => h r b hs hu

theorem Below.mono {s : Span ρ} {mark mark' : ρ → ℕ} (h : s.Below mark) (hm : ∀ r, mark r ≤ mark' r) :
    s.Below mark' := fun h0 => (h h0).trans (hm _)

theorem Above.mono {s : Span ρ} {mark mark' : ρ → ℕ} (h : s.Above mark') (hm : ∀ r, mark r ≤ mark' r) :
    s.Above mark := fun h0 => (hm _).trans (h h0)

end Span
