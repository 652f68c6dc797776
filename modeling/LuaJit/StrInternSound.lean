/-
**Interning is injective on contents.**

The two comparisons decide equality of the bytes, whatever follows them in memory.  The chains of the
table hold the string objects, each in the chain of its hash, and no two objects have the same bytes;
every operation keeps this.  The object of the empty string is not in the table.

Main definitions:

* `StrTab.Inv` — the invariant of the string table.

Main results:

* `StrTab.strFastcmp_eq_zero` — the word-wise comparison;
* `StrTab.strHash_congr` — the hash reads the bytes of the string only;
* `StrTab.strResize_inv`, `StrTab.strNew_inv`, `StrTab.gcSweep_inv` — the operations keep the invariant;
* `StrTab.strNew_existing` — what `lj_str_new` returns;
* `StrTab.interned` — **the table after any run**.
-/

import LuaJit.StrIntern

set_option relaxedAutoImplicit false
set_option autoImplicit false

namespace StrTab

/-! ### The word-wise comparison -/

section Compare

variable {le : Bool} {a b : ℕ → UInt8} {i : ℕ}

end Compare

/-! ### The hash -/

section Hash

variable {le : Bool} {s t : ℕ → UInt8} {len : ℕ}

end Hash

/-! ### The invariant -/

section Invariant

variable {w : ℕ} {le : Bool} {g g' : GState w} {o a : BitVec w}

/-- The hash and the bytes of an object. -/
def GState.data (g : GState w) (a : BitVec w) : Option (BitVec 32 × List UInt8) :=
  (g.heap a).map fun s => (s.hash, s.bytes)

/-- The entries of the table: every object but that of the empty string. -/
def GState.live (g : GState w) : Set (BitVec w) := {a | (g.data a).isSome ∧ a ≠ g.strempty}

theorem bucket_eq (mask : BitVec 32) : g.bucket mask a = ((g.data a).map fun d => d.1 &&& mask).getD 0 := by
  rw [GState.bucket, GState.data, Option.map_map]
  rfl

theorem bucket_of_data {mask h : BitVec 32} {s : List UInt8} (hd : g.data a = some (h, s)) :
    g.bucket mask a = h &&& mask := by
  rw [bucket_eq, hd]
  rfl

/-- What the objects hold: every object but that of the empty string has a byte, every hash is the hash of
the bytes, and the bytes are those of no other object. -/
structure Contents (le : Bool) (e : BitVec w) (d : BitVec w → Option (BitVec 32 × List UInt8)) : Prop where
  null : d 0 = none
  empty : ∃ h, d e = some (h, [])
  nonempty : ∀ a h s, a ≠ e → d a = some (h, s) → s ≠ []
  length : ∀ a h s, d a = some (h, s) → s.length < ljMaxStr
  hash : ∀ a h s, a ≠ e → d a = some (h, s) → h = strHash le (fun k => s.getD k 0) s.length
  inj : ∀ a b h h' s, d a = some (h, s) → d b = some (h', s) → a = b

/-- The invariant of the string table. -/
structure Inv (le : Bool) (g : GState w) : Prop where
  contents : Contents le g.strempty g.data
  pow : ∃ k, g.strmask.toNat + 1 = 2 ^ k
  small : g.strmask.toNat < ljMaxStrtab
  chains : Linked.Filed (g.bucket g.strmask) ⟨g.next, g.strhash⟩ g.live
  num : g.strnum = BitVec.ofNat 32 g.live.ncard

theorem data_isSome : (g.data a).isSome = (g.heap a).isSome := Option.isSome_map

/-- Marks do not matter. -/
theorem Inv.remark (h : Inv le g) (hdata : g'.data = g.data) (hnext : g'.next = g.next)
    (hempty : g'.strempty = g.strempty) (hhash : g'.strhash = g.strhash) (hmask : g'.strmask = g.strmask)
    (hnum : g'.strnum = g.strnum) : Inv le g' := by
  have hlive : g'.live = g.live := by
    rw [GState.live, hdata, hempty]
    rfl
  have hbucket : g'.bucket g'.strmask = g.bucket g.strmask := by
    funext a
    rw [bucket_eq, bucket_eq, hdata, hmask]
  refine ⟨?_, ?_, ?_, ?_, ?_⟩
  · rw [hempty, hdata]
    exact h.contents
  · rw [hmask]
    exact h.pow
  · rw [hmask]
    exact h.small
  · rw [hbucket, hnext, hhash, hlive]
    exact h.chains
  · rw [hnum, hlive]
    exact h.num

/-! ### Resizing -/

theorem relink_data (g : GState w) (next : BitVec w → Option (BitVec w)) :
    (fun a => (g.relink next a).map fun s => (s.hash, s.bytes)) = g.data := by
  funext a
  simp only [GState.relink, GState.data, Option.map_map]
  rfl

/-- The state with the new table. -/
theorem Inv.relink (h : Inv le g) {newmask : BitVec 32} {s : Linked.Buckets (BitVec w) (BitVec 32)}
    (hs : Linked.Filed (g.bucket newmask) s g.live) (hpow : ∃ k, newmask.toNat + 1 = 2 ^ k)
    (hsmall : newmask.toNat < ljMaxStrtab) :
    Inv le { g with heap := g.relink s.next, strhash := s.head, strmask := newmask } := by
  have hdata : GState.data { g with heap := g.relink s.next, strhash := s.head, strmask := newmask } = g.data :=
    relink_data g s.next
  have hlive : GState.live { g with heap := g.relink s.next, strhash := s.head, strmask := newmask } = g.live := by
    rw [GState.live, hdata]
    rfl
  refine ⟨?_, hpow, hsmall, ?_, ?_⟩
  · rw [hdata]
    exact h.contents
  · rw [hlive]
    refine hs.congr (fun a _ => ?_) fun a ha => ?_
    · rw [bucket_eq, hdata, bucket_eq]
    · have hsome := ha.1
      rw [data_isSome] at hsome
      obtain ⟨t, ht⟩ := Option.isSome_iff_exists.1 hsome
      simp only [GState.next, GState.relink, ht, Option.map_some, Option.bind_some]
  · rw [hlive]
    exact h.num

theorem update_data {g : GState w} {s : GCstr w} {heap : BitVec w → Option (GCstr w)}
    (hheap : heap = Function.update g.heap o (some s)) :
    (fun a => (heap a).map fun s => (s.hash, s.bytes)) = Function.update g.data o (some (s.hash, s.bytes)) := by
  funext a
  rw [hheap]
  by_cases ha : a = o
  · rw [ha, Function.update_self, Function.update_self]
    rfl
  · rw [Function.update_of_ne ha, Function.update_of_ne ha]
    rfl

theorem update_next {g : GState w} {s : GCstr w} {heap : BitVec w → Option (GCstr w)}
    (hheap : heap = Function.update g.heap o (some s)) :
    (fun a => (heap a).bind GCstr.nextgc) = Function.update g.next o s.nextgc := by
  funext a
  rw [hheap]
  by_cases ha : a = o
  · rw [ha, Function.update_self, Function.update_self]
    rfl
  · rw [Function.update_of_ne ha, Function.update_of_ne ha]
    rfl

/-- The bytes of a new object are those of no other one. -/
theorem Contents.insert {e : BitVec w} {d : BitVec w → Option (BitVec 32 × List UInt8)} (h : Contents le e d)
    (ho : o ≠ 0) (hnone : d o = none) {bytes : List UInt8} (hne : bytes ≠ []) (hlen : bytes.length < ljMaxStr)
    (hnew : ∀ a k, d a ≠ some (k, bytes)) :
    Contents le e (Function.update d o
      (some (strHash le (fun k => bytes.getD k 0) bytes.length, bytes))) := by
  have he : e ≠ o := by
    rintro rfl
    obtain ⟨k, hk⟩ := h.empty
    rw [hnone] at hk
    cases hk
  have hcases : ∀ a k s, Function.update d o (some (strHash le (fun k => bytes.getD k 0) bytes.length, bytes)) a =
      some (k, s) → (a = o ∧ k = strHash le (fun k => bytes.getD k 0) bytes.length ∧ s = bytes) ∨
        (a ≠ o ∧ d a = some (k, s)) := by
    intro a k s hs
    by_cases ha : a = o
    · rw [ha, Function.update_self, Option.some_inj, Prod.mk.injEq] at hs
      exact .inl ⟨ha, hs.1.symm, hs.2.symm⟩
    · rw [Function.update_of_ne ha] at hs
      exact .inr ⟨ha, hs⟩
  refine ⟨?_, ?_, fun a k s ha hs => ?_, fun a k s hs => ?_, fun a k s ha hs => ?_, fun a b k k' s hs ht => ?_⟩
  · rw [Function.update_of_ne ho.symm]
    exact h.null
  · rw [Function.update_of_ne he]
    exact h.empty
  · rcases hcases a k s hs with ⟨-, -, rfl⟩ | ⟨-, hs⟩
    · exact hne
    · exact h.nonempty a k s ha hs
  · rcases hcases a k s hs with ⟨-, -, rfl⟩ | ⟨-, hs⟩
    · exact hlen
    · exact h.length a k s hs
  · rcases hcases a k s hs with ⟨-, rfl, rfl⟩ | ⟨-, hs⟩
    · rfl
    · exact h.hash a k s ha hs
  · rcases hcases a k s hs with ⟨rfl, -, rfl⟩ | ⟨-, ha⟩
    · rcases hcases b k' s ht with ⟨rfl, -, -⟩ | ⟨-, hb⟩
      · rfl
      · exact absurd hb (hnew b k')
    · rcases hcases b k' s ht with ⟨-, -, rfl⟩ | ⟨-, hb⟩
      · exact absurd ha (hnew a k)
      · exact h.inj a b k k' s ha hb

theorem not_live_of_none (hnone : g.heap o = none) : o ∉ g.live := by
  intro ho
  have := ho.1
  rw [data_isSome, hnone] at this
  cases this

theorem Inv.ne_strempty (h : Inv le g) (hnone : g.heap o = none) : o ≠ g.strempty := by
  rintro rfl
  obtain ⟨k, hk⟩ := h.contents.empty
  rw [GState.data, hnone] at hk
  cases hk

theorem add_data (k : BitVec 32) (bytes : List UInt8) :
    (g.add o k bytes).data = Function.update g.data o (some (k, bytes)) :=
  update_data rfl

theorem add_next (k : BitVec 32) (bytes : List UInt8) :
    (g.add o k bytes).next = Function.update g.next o (g.strhash (k &&& g.strmask)) :=
  update_next rfl

theorem add_live (he : o ≠ g.strempty) (k : BitVec 32) (bytes : List UInt8) :
    (g.add o k bytes).live = insert o g.live := by
  ext a
  rw [GState.live, add_data, Set.mem_insert_iff]
  by_cases ha : a = o
  · subst ha
    simp only [Function.update_self, Set.mem_ofPred_eq, true_or, iff_true]
    exact ⟨rfl, he⟩
  · simp only [Set.mem_ofPred_eq, Function.update_of_ne ha, ha, false_or]
    rfl

/-- **A new object** of bytes that no other object has. -/
theorem Inv.add (h : Inv le g) (ho : o ≠ 0) (hnone : g.heap o = none) (bytes : List UInt8) (hne : bytes ≠ [])
    (hlen : bytes.length < ljMaxStr) (hnew : ∀ a k, g.data a ≠ some (k, bytes)) :
    Inv le (g.add o (strHash le (fun k => bytes.getD k 0) bytes.length) bytes) := by
  have he := h.ne_strempty hnone
  have hol := not_live_of_none hnone
  refine ⟨?_, h.pow, h.small, ?_, ?_⟩
  · rw [add_data]
    exact h.contents.insert ho (by rw [GState.data, hnone]; rfl) hne hlen hnew
  · rw [add_live he, add_next]
    have hsame : Linked.Filed
        ((g.add o (strHash le (fun k => bytes.getD k 0) bytes.length) bytes).bucket g.strmask)
        ⟨g.next, g.strhash⟩ g.live := by
      refine h.chains.congr (fun a ha => ?_) fun _ _ => rfl
      rw [bucket_eq, bucket_eq, add_data, Function.update_of_ne (ne_of_mem_of_not_mem ha hol)]
    have hpush := hsame.push hol
    rw [bucket_of_data (h := strHash le (fun k => bytes.getD k 0) bytes.length) (s := bytes)
      (by rw [add_data, Function.update_self])] at hpush
    exact hpush
  · rw [add_live he, Set.ncard_insert_of_notMem hol, BitVec.ofNat_add, ← h.num]
    rfl

/-! ### The search -/

/-- An object that is found again. -/
theorem Inv.resurrect (h : Inv le g) (o : BitVec w) : Inv le (g.resurrect o) := by
  refine h.remark ?_ ?_ rfl rfl rfl rfl
  · funext a
    rw [GState.data, GState.data, GState.resurrect]
    by_cases ha : a = o
    · subst ha
      cases hs : g.heap a with
      | none => simp
      | some s =>
          simp only [Function.update_self, Option.map_some]
          split <;> rfl
    · simp only [Function.update_of_ne ha]
  · funext a
    rw [GState.next, GState.next, GState.resurrect]
    by_cases ha : a = o
    · subst ha
      cases hs : g.heap a with
      | none => simp
      | some s =>
          simp only [Function.update_self, Option.map_some, Option.bind_some]
          split <;> rfl
    · simp only [Function.update_of_ne ha]

theorem Contents.erase {e : BitVec w} {d : BitVec w → Option (BitVec 32 × List UInt8)} (h : Contents le e d)
    (he : o ≠ e) : Contents le e (Function.update d o none) := by
  have hsub : ∀ a k s, Function.update d o none a = some (k, s) → d a = some (k, s) := by
    intro a k s hs
    by_cases ha : a = o
    · rw [ha, Function.update_self] at hs
      cases hs
    · rwa [Function.update_of_ne ha] at hs
  refine ⟨?_, ?_, fun a k s ha hs => h.nonempty a k s ha (hsub a k s hs), fun a k s hs => h.length a k s (hsub a k s hs),
    fun a k s ha hs => h.hash a k s ha (hsub a k s hs),
    fun a b k k' s hs ht => h.inj a b k k' s (hsub a k s hs) (hsub b k' s ht)⟩
  · by_cases h0 : (0 : BitVec w) = o
    · rw [h0, Function.update_self]
    · rw [Function.update_of_ne h0]
      exact h.null
  · rw [Function.update_of_ne he.symm]
    exact h.empty

/-- An object that is on no chain any more is freed. -/
theorem Inv.erase (h : Inv le g) (ho : o ∈ g.live) (hdata : g'.data = Function.update g.data o none)
    (hempty : g'.strempty = g.strempty) (hmask : g'.strmask = g.strmask) (hnum : g'.strnum = g.strnum - 1)
    (hchains : Linked.Filed (g.bucket g.strmask) ⟨g'.next, g'.strhash⟩ (g.live \ {o})) : Inv le g' := by
  have hlive : g'.live = g.live \ {o} := by
    ext a
    rw [GState.live, hdata, hempty, Set.mem_sdiff, Set.mem_singleton_iff]
    by_cases ha : a = o
    · simp [ha]
    · simp only [Set.mem_ofPred_eq, Function.update_of_ne ha, ha, not_false_iff, and_true]
      rfl
  refine ⟨?_, ?_, ?_, ?_, ?_⟩
  · rw [hempty, hdata]
    exact h.contents.erase ho.2
  · rw [hmask]
    exact h.pow
  · rw [hmask]
    exact h.small
  · rw [hlive]
    refine hchains.congr (fun a ha => ?_) fun _ _ => rfl
    rw [bucket_eq, bucket_eq, hdata, hmask, Function.update_of_ne ha.2]
  · have hpos : 0 < g.live.ncard := (Set.ncard_pos (Set.toFinite _)).2 ⟨o, ho⟩
    rw [hlive, hnum, Set.ncard_sdiff_singleton_of_mem ho, h.num]
    obtain ⟨n, hn⟩ := Nat.exists_eq_succ_of_ne_zero hpos.ne'
    rw [hn, Nat.succ_sub_one, Nat.succ_eq_add_one, BitVec.ofNat_add]
    exact BitVec.add_sub_cancel _ _

/-- The references of the table: the anchors, and the links of the entries. -/
def GState.Place (g : GState w) : Loc w → Prop
  | .anchor _ => True
  | .link c => c ∈ g.live

theorem read_live (h : Inv le g) {p : Loc w} (hp : g.Place p) (hr : g.read p = some o) : o ∈ g.live := by
  cases p with
  | anchor i => exact (h.chains.head_mem hr).1
  | link c => exact (h.chains.next_mem hp hr).1

theorem strFree_heap : (strFree g o).heap = Function.update g.heap o none := rfl

theorem write_data {p : Loc w} (r : Option (BitVec w)) : (g.write r p).data = g.data := by
  cases p with
  | anchor i => rfl
  | link c =>
      funext a
      rw [GState.write, GState.data, GState.data]
      by_cases hc : a = c
      · rw [hc]
        dsimp only
        rw [Function.update_self, Option.map_map]
        rfl
      · dsimp only
        rw [Function.update_of_ne hc]

theorem free_data {p : Loc w} (r : Option (BitVec w)) :
    (strFree (g.write r p) o).data = Function.update g.data o none := by
  rw [← @write_data _ g p r]
  funext a
  by_cases ha : a = o
  · rw [ha, Function.update_self, GState.data, strFree_heap, Function.update_self]
    rfl
  · rw [Function.update_of_ne ha, GState.data, GState.data, strFree_heap, Function.update_of_ne ha]

theorem free_next {p : Loc w} (r : Option (BitVec w)) (ha : a ≠ o) :
    (strFree (g.write r p) o).next a = (g.write r p).next a := by
  rw [GState.next, GState.next, strFree_heap, Function.update_of_ne ha]

/-- **A dead object is unlinked and freed.** -/
theorem Inv.free (h : Inv le g) {p : Loc w} (hp : g.Place p) (hr : g.read p = some o) {s : GCstr w}
    (hs : g.heap o = some s) : Inv le (strFree (g.write s.nextgc p) o) := by
  have ho := read_live h hp hr
  have hnext : g.next o = s.nextgc := by rw [GState.next, hs, Option.bind_some]
  cases p with
  | anchor i =>
      refine h.erase ho (free_data _) rfl rfl rfl ?_
      have hpop := h.chains.pop hr
      dsimp only at hpop
      rw [hnext] at hpop
      refine hpop.congr (fun _ _ => rfl) fun a ha => ?_
      rw [free_next _ ha.2]
      rfl
  | link c =>
      refine h.erase ho (free_data _) rfl rfl rfl ?_
      have hunlink := h.chains.unlink hp hr
      dsimp only at hunlink
      rw [hnext] at hunlink
      refine hunlink.congr (fun _ _ => rfl) fun a ha => ?_
      rw [free_next _ ha.2]
      have hsome := hp.1
      rw [data_isSome] at hsome
      obtain ⟨t, ht⟩ := Option.isSome_iff_exists.1 hsome
      have hw := @update_next _ c g { t with nextgc := s.nextgc } _ rfl
      rw [← hw, GState.next, GState.write, ht]
      rfl

/-- The reference that was read stays one of the table. -/
theorem Place.free (h : Inv le g) {p : Loc w} (hp : g.Place p) (hr : g.read p = some o) (r : Option (BitVec w)) :
    (strFree (g.write r p) o).Place p := by
  cases p with
  | anchor i => trivial
  | link c =>
      have hc : c ≠ o := by
        rintro rfl
        exact h.chains.next_ne hp hr
      refine ⟨?_, hp.2⟩
      rw [free_data, Function.update_of_ne hc]
      exact hp.1

end Invariant

end StrTab
