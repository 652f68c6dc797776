/-
**Recycled string addresses.**

A key of a table whose value is nil does not keep its string alive.  The collector frees the string,
another one with another hash may be allocated at the same address, and a lookup of the new string
can then find the dead key, on a chain that does not belong to its main position, and revive it.
`lj_tab_newkey` repairs the chains when it relocates a node: the revived keys behind the node whose
main position it is are moved to a chain of their own.

The repair is not complete.  A key that was revived *behind one of the moved keys*, because its main
position is that node, stays on the old chain and can no longer be reached.

Strings are their addresses here, and the hash attached to an address is part of the state.

Main definitions:

* `Tab.RcState`, `Tab.Event` — tables with recycled addresses;
* `Tab.freeable` — the strings the collector may free;
* `Tab.Strands` — inserting a string relocates a node and leaves a key behind;
* `Tab.AllReachable` — every live key is found by `lj_tab_getstr`.

Main results:

* `Tab.rcStep_spec` — an insertion that strands no key keeps every live key reachable;
* `Tab.rcRun_allReachable` — **so does every run of such steps**;
* `Tab.rcRun_strands` — a run that loses a key.
-/

import LuaJit.TabRun

set_option relaxedAutoImplicit false
set_option autoImplicit false

namespace Tab

open Obj
open Chain (Reach)

variable {S : Type} [DecidableEq S]

/-! ### Tables with recycled addresses -/

/-- A table together with the hashes of the strings. -/
structure RcState (S : Type) where
  cfg : Cfg S
  tab : GCtab S

/-- What happens to a table: the string at an address is freed and another one with another hash is
allocated there, or a value, nil or not, is stored under a string. -/
inductive Event (S : Type)
  | recycle (s : S) (hash : BitVec 32)
  | setstr (s : S) (v : TValue S)

/-- The collector may free a string that is a key with a nil value only. -/
def freeable (t : GCtab S) (s : S) : Bool :=
  (List.range (t.hmask + 1)).all fun i =>
    (decide (t.key i ≠ .str s) || (t.val i).isNil) && decide (t.val i ≠ .str s)

/-- Other hashes for the same addresses. -/
def RcState.rehashed (st : RcState S) (s : S) (hash : BitVec 32) : RcState S :=
  { st with cfg := { st.cfg with strHash := Function.update st.cfg.strHash s hash } }

/-- One event, with at most `fuel` nested rehashes.  A string that is in use is not recycled. -/
def rcStep (fuel : ℕ) (st : RcState S) : Event S → Except TabErr (RcState S)
  | .recycle s hash => .ok (if freeable st.tab s then st.rehashed s hash else st)
  | .setstr s v => do
    let (t, slot) ← setstr st.cfg fuel st.tab s
    pure { st with tab := t.store v slot }

/-- A run of events. -/
def rcRun (fuel : ℕ) (cfg : Cfg S) (asize hbits : ℕ) (evs : List (Event S)) :
    Except TabErr (RcState S) := do
  let t ← new asize hbits
  evs.foldlM (rcStep fuel) ⟨cfg, t⟩

/-- Inserting `s` relocates the node at its main position, and some live key has its main position
at a node behind it that holds a live key of the main position of `s`. -/
def Strands (cfg : Cfg S) (t : GCtab S) (s : S) : Prop :=
  Absent cfg t (.str s) ∧ t.val (t.main cfg (.str s)) ≠ .nil ∧
  freeScan t.key t.freetop ≠ none ∧
  t.main cfg (t.key (t.main cfg (.str s))) ≠ t.main cfg (.str s) ∧
  ∃ x w, Reach t.next (t.main cfg (.str s)) x ∧ x ≠ t.main cfg (.str s) ∧ t.val x ≠ .nil ∧
    t.main cfg (t.key x) = t.main cfg (.str s) ∧ t.val w ≠ .nil ∧ t.main cfg (t.key w) = x

/-- The event strands no key. -/
def Event.Safe (st : RcState S) : Event S → Prop
  | .recycle _ _ => True
  | .setstr s _ => ¬ Strands st.cfg st.tab s

/-- No event of a run strands a key. -/
def RunSafe (fuel : ℕ) (st : RcState S) : List (Event S) → Prop
  | [] => True
  | ev :: evs => ev.Safe st ∧ ∀ st', rcStep fuel st ev = .ok st' → RunSafe fuel st' evs

/-- Every live key is reached from its main position, and `lj_tab_getstr` finds it. -/
def AllReachable (st : RcState S) : Prop :=
  ∀ i s, st.tab.key i = .str s → st.tab.val i ≠ .nil →
    Reach st.tab.next (st.tab.main st.cfg (.str s)) i ∧
      getstr st.cfg st.tab s = .ok (some (st.tab.val i))

/-! ### The invariant -/

/-- The invariant of a table under the present hashes; all its keys are strings. -/
structure RcInv (st : RcState S) : Prop where
  inv : TInv st.cfg st.tab
  str : ∀ k v, st.tab.Pair k v → k.isStr = true

section Step

variable {st : RcState S} {fuel : ℕ}

theorem RcInv.allReachable (h : RcInv st) : AllReachable st := by
  intro i s hk hv
  refine ⟨?_, ?_⟩
  · have hr := h.inv.reach i hv
    rwa [hk] at hr
  · obtain ⟨tv, htv, hreads⟩ := h.inv.getstr_spec s
    have hget := (hreads _ hv).2 (.inr ⟨i, hk, rfl, hv⟩)
    cases tv with
    | none => exact absurd hget.symm hv
    | some v => rw [htv, ← hget]; rfl

/-- A live key is not recycled, so its main position stays where it is. -/
theorem main_rehashed (st : RcState S) {s : S} (hash : BitVec 32) {k : TValue S} (hk : k ≠ .str s) :
    st.tab.main (st.rehashed s hash).cfg k = st.tab.main st.cfg k := by
  have hhash : hashkey (st.rehashed s hash).cfg k = hashkey st.cfg k := by
    cases k with
    | str s' =>
        have hne : s' ≠ s := by
          rintro rfl
          exact hk rfl
        simp [hashkey, RcState.rehashed, Function.update_of_ne hne]
    | _ => rfl
  rw [GCtab.main, GCtab.main, hhash]

theorem RcInv.rehashed (h : RcInv st) {s : S} (hfree : freeable st.tab s = true)
    (hash : BitVec 32) : RcInv (st.rehashed s hash) := by
  have hlive : ∀ i, st.tab.val i ≠ .nil → st.tab.key i ≠ .str s := by
    intro i hv hk
    rw [freeable, List.all_eq_true] at hfree
    have hi := hfree i (List.mem_range.2 (h.inv.live_lt hv))
    simp [hk, hv] at hi
  refine ⟨⟨{ h.inv.toHInv with reach := ?_, first := ?_ }, h.inv.asize_le, h.inv.hmask_eq,
    h.inv.notArray⟩, h.str⟩
  · intro i hv
    have hmain := main_rehashed st hash (hlive i hv)
    change Reach st.tab.next (st.tab.main (st.rehashed s hash).cfg (st.tab.key i)) i
    rw [hmain]
    exact h.inv.reach i hv
  · intro i j hv hk hr
    have hmain := main_rehashed st hash (hlive i hv)
    change Reach st.tab.next (st.tab.main (st.rehashed s hash).cfg (st.tab.key i)) j at hr
    rw [hmain] at hr
    exact h.inv.first i j hv hk hr

omit [DecidableEq S] in
theorem RcInv.newkeySafe (h : RcInv st) {s : S} (hs : ¬ Strands st.cfg st.tab s)
    (ha : Absent st.cfg st.tab (.str s)) : NewkeySafe st.cfg st.tab (.str s) := by
  intro hv hfree hm
  refine ⟨?_, ?_⟩
  · intro w hw _ _
    exact h.str _ _ (.inr ⟨w, rfl, rfl, hw⟩)
  · intro x w hr hne hx hmx hw hmw
    exact hs ⟨ha, hv, hfree, hm, x, w, hr, hne, hx, hmx, hw, hmw⟩

/-- Storing under a string that strands no key. -/
theorem RcInv.afterSetstr (h : RcInv st) {s : S} (v : TValue S) (hs : ¬ Strands st.cfg st.tab s) :
    (∃ st', rcStep (fuel + 1) st (.setstr s v) = .ok st' ∧ RcInv st') ∨
    (rcStep (fuel + 1) st (.setstr s v) = .error .tabov ∧ 2 ^ maxHbits ≤ usedCount st.tab) := by
  have hcases : SetCases st.cfg st.tab (.str s) (newkey st.cfg (fuel + 1))
      (setstr st.cfg (fuel + 1) st.tab s) := h.inv.setstrWith_cases s
  have hpost : (∃ t' slot, setstr st.cfg (fuel + 1) st.tab s = .ok (t', slot) ∧
      SetPost st.cfg st.tab (.str s) t' slot) ∨
      (setstr st.cfg (fuel + 1) st.tab s = .error .tabov ∧ 2 ^ maxHbits ≤ usedCount st.tab) := by
    rcases hcases with ⟨slot, heq, hslot⟩ | ⟨heq, ha, hk⟩
    · exact .inl ⟨st.tab, slot, heq, h.inv, id, hslot, fun _ _ => Iff.rfl⟩
    · rcases nkSpec_newkey st.cfg fuel st.tab (.str s) h.inv ha hk trivial (by simp)
        (h.newkeySafe hs ha) (fun hr => hr.elim) with ⟨t', slot, heq', hpost, -⟩ | ⟨-, heq', hle⟩
      · exact .inl ⟨t', slot, heq.trans heq', hpost⟩
      · exact .inr ⟨heq.trans heq', hle⟩
  rw [rcStep]
  rcases hpost with ⟨t', slot, heq, hpost⟩ | ⟨heq, hle⟩
  · refine .inl ⟨_, by rw [heq]; rfl, hpost.inv.store hpost.slot, ?_⟩
    intro k v' hp
    rw [hpost.inv.store_pair_iff hpost.slot, hpost.pair_iff] at hp
    rcases hp with ⟨rfl, -⟩ | ⟨-, hp⟩
    · rfl
    · exact h.str k v' hp
  · exact .inr ⟨by rw [heq]; rfl, hle⟩

/-- One event: the keys stay reachable, or the table overflows. -/
theorem rcStep_spec (h : RcInv st) (ev : Event S) (hs : ev.Safe st) :
    (∃ st', rcStep (fuel + 1) st ev = .ok st' ∧ RcInv st') ∨
    (rcStep (fuel + 1) st ev = .error .tabov ∧ 2 ^ maxHbits ≤ usedCount st.tab) := by
  cases ev with
  | recycle s hash =>
      refine .inl ⟨_, rfl, ?_⟩
      cases hfree : freeable st.tab s with
      | true =>
          rw [if_pos rfl]
          exact h.rehashed hfree hash
      | false =>
          rw [if_neg Bool.false_ne_true]
          exact h
  | setstr s v => exact h.afterSetstr v hs

/-- A run of events from any table. -/
theorem rcStep_run_spec (h : RcInv st) (evs : List (Event S)) (hs : RunSafe (fuel + 1) st evs) :
    (∃ st', evs.foldlM (rcStep (fuel + 1)) st = .ok st' ∧ RcInv st') ∨
    (evs.foldlM (rcStep (fuel + 1)) st = .error .tabov ∧
      ∃ p q st', evs = p ++ q ∧ p.foldlM (rcStep (fuel + 1)) st = .ok st' ∧
        2 ^ maxHbits ≤ usedCount st'.tab) := by
  induction evs generalizing st with
  | nil => exact .inl ⟨st, rfl, h⟩
  | cons ev evs ih =>
      obtain ⟨hsafe, hrest⟩ := hs
      rw [List.foldlM_cons]
      rcases rcStep_spec h ev hsafe with ⟨st', heq, h'⟩ | ⟨heq, hle⟩
      · rw [heq]
        rcases ih h' (hrest st' heq) with hok | ⟨heq', p, q, st'', rfl, hp, hle⟩
        · exact .inl hok
        · refine .inr ⟨heq', ev :: p, q, st'', rfl, ?_, hle⟩
          rw [List.foldlM_cons, heq]
          exact hp
      · exact .inr ⟨by rw [heq]; rfl, [], ev :: evs, st, rfl, rfl, hle⟩

end Step

omit [DecidableEq S] in
/-- A new table satisfies the invariant. -/
theorem new_rcInv (cfg : Cfg S) (asize hbits : ℕ) :
    (new asize hbits = (.error .tabov : Except TabErr (GCtab S)) ∧
      (maxAsize < asize ∨ maxHbits < hbits)) ∨
    ∃ t, new asize hbits = .ok t ∧ RcInv ⟨cfg, t⟩ := by
  rcases @new_cases S cfg asize hbits with hlim | ⟨t, heq, ht⟩
  · exact .inl hlim
  · refine .inr ⟨t, heq, ht.inv, ?_⟩
    intro k v hp
    exfalso
    obtain ⟨hc, hne⟩ := ht.inv.canon_of_pair hp
    have hv : v ≠ .nil := by
      rcases hp with ⟨i, -, -, -, hv⟩ | ⟨i, -, -, hv⟩ <;> exact hv
    rw [← canonKey_of_canon hc, ht.pair_iff k (validKey_of_canon hc hne) v hv] at hp
    exact hv hp.symm

/-- In every run whose insertions strand no key, every live key stays reachable and is found. -/
theorem rcRun_allReachable (fuel : ℕ) (cfg : Cfg S) (asize hbits : ℕ) (evs : List (Event S))
    (hs : ∀ t, new asize hbits = .ok t → RunSafe (fuel + 1) ⟨cfg, t⟩ evs) :
    (∃ st, rcRun (fuel + 1) cfg asize hbits evs = .ok st ∧ AllReachable st) ∨
    (rcRun (fuel + 1) cfg asize hbits evs = .error .tabov ∧
      (maxAsize < asize ∨ maxHbits < hbits ∨
        ∃ p q st, evs = p ++ q ∧ rcRun (fuel + 1) cfg asize hbits p = .ok st ∧
          2 ^ maxHbits ≤ usedCount st.tab)) := by
  simp only [rcRun]
  rcases new_rcInv cfg asize hbits with ⟨heq, hlim⟩ | ⟨t, heq, ht⟩
  · refine .inr ⟨by rw [heq]; rfl, ?_⟩
    rcases hlim with hlim | hlim
    · exact .inl hlim
    · exact .inr (.inl hlim)
  · rw [heq]
    rcases rcStep_run_spec ht evs (hs t heq) with ⟨st, heq', h'⟩ | ⟨heq', p, q, st, hp, hrun, hle⟩
    · exact .inl ⟨st, heq', h'.allReachable⟩
    · exact .inr ⟨heq', .inr (.inr ⟨p, q, st, hp, hrun, hle⟩)⟩

/-- Strings whose hash is their address. -/
def addressCfg : Cfg ℕ := ⟨fun s => BitVec.ofNat 32 s, false, Num2Int.trunc⟩

/-- A string whose value becomes nil, and whose address is reused with another hash. -/
def revivedEvents : List (Event ℕ) :=
  [.setstr 0 (.bool true), .setstr 0 .nil, .recycle 0 3, .setstr 0 (.bool false)]

theorem rcRun_revived :
    ∃ st, rcRun 2 addressCfg 0 3 revivedEvents = .ok st ∧ AllReachable st := by
  have hrun := rcRun_allReachable 1 addressCfg 0 3 revivedEvents ?_
  · rcases hrun with hok | ⟨heq, -⟩
    · exact hok
    · have hok : (rcRun 2 addressCfg 0 3 revivedEvents).toBool = true := by decide
      rw [heq] at hok
      exact Bool.noConfusion hok
  · intro t ht
    obtain rfl := Except.ok.inj ht
    refine ⟨fun hs => hs.2.1 rfl, ?_⟩
    intro st₁ h₁
    obtain rfl := Except.ok.inj h₁
    refine ⟨fun hs => hs.2.2.2.1 rfl, ?_⟩
    intro st₂ h₂
    obtain rfl := Except.ok.inj h₂
    refine ⟨trivial, ?_⟩
    intro st₃ h₃
    obtain rfl := Except.ok.inj h₃
    exact ⟨fun hs => hs.2.1 rfl, fun _ _ => trivial⟩

/-- The strings `0, 8, 16, 24` share a main position; the nodes of `16` and `8` are revived with
main positions at the nodes of `24` and `16`.  Inserting a string at the main position `5` then
relocates `24`, takes `16` along and leaves `8` behind. -/
def strandingEvents : List (Event ℕ) :=
  [.setstr 0 (.bool true), .setstr 8 (.bool true), .setstr 16 (.bool true),
    .setstr 24 (.bool true), .setstr 16 .nil, .recycle 16 5, .setstr 16 (.bool true),
    .setstr 8 .nil, .recycle 8 6, .setstr 8 (.bool true), .setstr 5 (.bool true)]

/-- A run that loses a key: the value of the string `8` is in the table, but its lookup finds
nothing. -/
theorem rcRun_strands :
    (rcRun 2 addressCfg 0 3 strandingEvents).toOption.map (fun st =>
      (st.tab.key 7, st.tab.val 7, (getstr st.cfg st.tab 8).toOption)) =
    some (.str 8, .bool true, some none) := by
  decide

end Tab
