/-
**Sorting of a table in place.**

The sort reads and writes the table with raw accesses to its integer keys.  The values that the library
function keeps on the stack of the interpreter are variables here, in the order in which `set2` pops
them.  Every access names the range that the loop works on, and an access outside of it is a stop of
the model.  The indexes are C integers; the only sum of two of them that can leave 32 bits is the one
under the midpoint.

Main definitions:

* `TabSort.scanUp`, `TabSort.scanDown`, `TabSort.partition` — the loops around the pivot;
* `TabSort.auxsort` — one range, by recursion on the smaller part and a loop for the larger one;
* `TabSort.tableSort` — the whole array.
-/

import Mathlib

set_option relaxedAutoImplicit false
set_option autoImplicit false

namespace TabSort

/-- Why the sort stops early: the comparison says that the order is invalid, the comparison raises an
error, an access is outside of the range, or the fuel of the model is used up. -/
inductive Stop (ε : Type) where
  | order
  | raised (e : ε)
  | outside (k : ℤ)
  | fuel
  deriving DecidableEq

/-- A computation on the table, which is the function from its integer keys to their values. -/
abbrev SortM (ε α : Type) := EStateM (Stop ε) (ℤ → α)

variable {ε α : Type}

/-- The outcome of a comparison: an error, or whether the first value is less than the second. -/
abbrev Cmp (ε α : Type) := α → α → Except ε Bool

/-- `lua_rawgeti`, while the loop works on `l..u`. -/
def rawgeti (l u k : ℤ) : SortM ε α α := fun a =>
  if l ≤ k ∧ k ≤ u then .ok (a k) a else .error (.outside k) a

/-- `lua_rawseti`, while the loop works on `l..u`. -/
def rawseti (l u k : ℤ) (x : α) : SortM ε α Unit := fun a =>
  if l ≤ k ∧ k ≤ u then .ok () (Function.update a k x) else .error (.outside k) a

/-- `set2`, with `top` and `below` at the top of the stack. -/
def set2 (l u i j : ℤ) (top below : α) : SortM ε α Unit := do
  rawseti l u i top
  rawseti l u j below

/-- `sort_comp`. -/
def sortComp (cmp : Cmp ε α) (x y : α) : SortM ε α Bool := fun a =>
  match cmp x y with
  | .ok b => .ok b a
  | .error e => .error (.raised e) a

/-- "repeat ++i until a[i] >= P" -/
def scanUp (cmp : Cmp ε α) (l u : ℤ) (p : α) : ℕ → ℤ → SortM ε α (ℤ × α)
  | 0, _ => throw .fuel
  | fuel + 1, i => do
      let i := i + 1
      let ai ← rawgeti l u i
      if ← sortComp cmp ai p then
        if i ≥ u then throw .order else scanUp cmp l u p fuel i
      else pure (i, ai)

/-- "repeat --j until a[j] <= P" -/
def scanDown (cmp : Cmp ε α) (l u : ℤ) (p : α) : ℕ → ℤ → SortM ε α (ℤ × α)
  | 0, _ => throw .fuel
  | fuel + 1, j => do
      let j := j - 1
      let aj ← rawgeti l u j
      if ← sortComp cmp p aj then
        if j ≤ l then throw .order else scanDown cmp l u p fuel j
      else pure (j, aj)

/-- The loop around the pivot `p`; it returns the last `i`. -/
def partition (cmp : Cmp ε α) (l u : ℤ) (p : α) : ℕ → ℤ → ℤ → SortM ε α ℤ
  | 0, _, _ => throw .fuel
  | fuel + 1, i, j => do
      let (i, ai) ← scanUp cmp l u p (u - i + 1).toNat i
      let (j, aj) ← scanDown cmp l u p (j - l + 1).toNat j
      if j < i then pure i
      else do
        set2 l u i j aj ai
        partition cmp l u p fuel i j

/-- The 32 bit integer that a sum of two becomes. -/
def int32 (z : ℤ) : ℤ := z.bmod (2 ^ 32)

/-- The smaller end goes to the front. -/
def ends (cmp : Cmp ε α) (l u : ℤ) : SortM ε α Unit := do
  let al ← rawgeti l u l
  let au ← rawgeti l u u
  if ← sortComp cmp au al then set2 l u l u au al else pure ()

/-- The median of the ends and the middle goes to the middle `i`. -/
def median (cmp : Cmp ε α) (l u i : ℤ) : SortM ε α Unit := do
  let ai ← rawgeti l u i
  let al ← rawgeti l u l
  if ← sortComp cmp ai al then set2 l u i l al ai
  else do
    let au ← rawgeti l u u
    if ← sortComp cmp au ai then set2 l u i u au ai else pure ()

/-- The partition of a range of more than three elements around its middle `i`; the place where the
pivot ends up. -/
def split (cmp : Cmp ε α) (l u i : ℤ) : SortM ε α ℤ := do
  let p ← rawgeti l u i
  let au ← rawgeti l u (u - 1)
  set2 l u i (u - 1) au p
  let i ← partition cmp l u p (u - l + 1).toNat l (u - 1)
  let au ← rawgeti l u (u - 1)
  let ai ← rawgeti l u i
  set2 l u (u - 1) i ai au
  pure i

/-- `auxsort`. -/
def auxsort (cmp : Cmp ε α) : ℕ → ℤ → ℤ → SortM ε α Unit
  | 0, _, _ => throw .fuel
  | fuel + 1, l, u =>
      if l < u then do
        ends cmp l u
        if u - l = 1 then pure ()
        else do
          let i := (int32 (l + u)).tdiv 2
          median cmp l u i
          if u - l = 2 then pure ()
          else do
            let i ← split cmp l u i
            -- the smaller part first, the larger one by the loop
            if i - l < u - i then do
              auxsort cmp fuel l (i - 1)
              auxsort cmp fuel (i + 1) u
            else do
              auxsort cmp fuel (i + 1) u
              auxsort cmp fuel l (i - 1)
      else pure ()

/-- `table_sort`, for an array of length `n`. -/
def tableSort (cmp : Cmp ε α) (n : ℤ) : SortM ε α Unit := auxsort cmp (n + 1).toNat 1 n

end TabSort
