/-
**The lists of the open upvalues.**

The open upvalues of a thread are sorted by their slots, and those of all threads make up the global
ring.  A search for a slot finds the upvalue of the slot, which it resurrects if the collector has
condemned it, or puts a new one on both lists.

Main definitions:

* `Upval.LinksOnly`, `Upval.SameButLists` — what two states have in common;
* `Upval.Shape` — the lists of the threads and the global ring;
* `Upval.Extends` — what a search leaves.

Main results:

* `Upval.unlinkuv_spec` — an upvalue is taken off the ring;
* `Upval.Shape.transfer`, `Upval.Shape.insert` — the lists stay, or get a new upvalue;
* `Upval.funcFinduv_spec` — **the search finds or makes the upvalue of a slot**.
-/

import LuaJit.Upval

set_option relaxedAutoImplicit false
set_option autoImplicit false

namespace Upval

variable {V : Type} {s s' s₁ s₂ : State V} {r new : Ref} {L : Thread} {uv uv' : GCupval V} {n p q : Node}

/-! ### What is seen of a state -/

/-- The successors on the list of a thread. -/
def State.nextgcOf (s : State V) (r : Ref) : Option Ref := (s.heap r).bind (·.nextgc)

/-- An upvalue without its links in the ring. -/
def GCupval.core (uv : GCupval V) : GCupval V :=
  { uv with u := match uv.u with
    | .tv x => .tv x
    | .links _ _ => .links .uvhead .uvhead }

/-- An open upvalue with its slot. -/
def State.OpenAt (s : State V) (r : Ref) (a : Slot) : Prop :=
  ∃ uv, s.heap r = some uv ∧ uv.closed = false ∧ uv.v = .slot a ∧ ∃ p q, uv.u = .links p q

/-- A closed upvalue with its value. -/
def GCupval.ClosedWith (uv : GCupval V) (x : V) : Prop := uv.closed = true ∧ uv.v = .tv ∧ uv.u = .tv x

/-- Only links of the ring differ. -/
structure LinksOnly (s s' : State V) : Prop where
  root : s'.root = s.root
  currentwhite : s'.currentwhite = s.currentwhite
  gcstate : s'.gcstate = s.gcstate
  openupval : s'.openupval = s.openupval
  stack : s'.stack = s.stack
  heap : ∀ r, (s'.heap r).map GCupval.core = (s.heap r).map GCupval.core

theorem LinksOnly.trans (h : LinksOnly s s₁) (h' : LinksOnly s₁ s₂) : LinksOnly s s₂ where
  root := h'.root.trans h.root
  currentwhite := h'.currentwhite.trans h.currentwhite
  gcstate := h'.gcstate.trans h.gcstate
  openupval := h'.openupval.trans h.openupval
  stack := h'.stack.trans h.stack
  heap r := (h'.heap r).trans (h.heap r)

/-- An upvalue with other links. -/
theorem LinksOnly.heap_some (h : LinksOnly s s') (hr : s.heap r = some uv) :
    ∃ uv', s'.heap r = some uv' ∧ uv'.core = uv.core := by
  have hc := h.heap r
  rw [hr] at hc
  obtain ⟨uv', hr', hu⟩ := Option.map_eq_some_iff.mp hc
  exact ⟨uv', hr', hu⟩

theorem LinksOnly.nextgcOf (h : LinksOnly s s') : s'.nextgcOf = s.nextgcOf := by
  funext r
  have hc := congrArg (fun o => o.bind (·.nextgc)) (h.heap r)
  rw [State.nextgcOf, State.nextgcOf]
  cases hr : s.heap r with
  | none =>
      rw [hr] at hc
      cases hr' : s'.heap r with
      | none => rfl
      | some uv' => rw [hr'] at hc; exact hc
  | some uv =>
      rw [hr] at hc
      cases hr' : s'.heap r with
      | none => rw [hr'] at hc; exact hc
      | some uv' => rw [hr'] at hc; exact hc

/-- What tells whether an upvalue is open, and its slot or its value. -/
def GCupval.face (uv : GCupval V) : Bool × MRef × Option V :=
  (uv.closed, uv.v, match uv.u with
    | .tv x => some x
    | .links _ _ => none)

def State.face (s : State V) (r : Ref) : Option (Bool × MRef × Option V) := (s.heap r).map GCupval.face

theorem openAt_iff_face {a : Slot} : s.OpenAt r a ↔ s.face r = some (false, .slot a, none) := by
  rw [State.face, Option.map_eq_some_iff]
  constructor
  · rintro ⟨uv, hr, hc, hv, p, q, hu⟩
    refine ⟨uv, hr, ?_⟩
    rw [GCupval.face, hc, hv, hu]
  · rintro ⟨uv, hr, hf⟩
    obtain ⟨nextgc, marked, closed, immutable, u, v, dhash⟩ := uv
    cases u with
    | tv x => cases hf
    | links p q => cases hf; exact ⟨_, hr, rfl, rfl, p, q, rfl⟩

theorem closedWith_iff_face {x : V} : uv.ClosedWith x ↔ uv.face = (true, .tv, some x) := by
  obtain ⟨nextgc, marked, closed, immutable, u, v, dhash⟩ := uv
  constructor
  · rintro ⟨hc, hv, hu⟩
    cases hc
    cases hv
    cases hu
    rfl
  · intro h
    cases u with
    | tv y => cases h; exact ⟨rfl, rfl, rfl⟩
    | links p q => cases h

theorem face_core (uv : GCupval V) : uv.core.face = uv.face := by
  obtain ⟨nextgc, marked, closed, immutable, u, v, dhash⟩ := uv
  cases u <;> rfl

theorem LinksOnly.face (h : LinksOnly s s') (r : Ref) : s'.face r = s.face r := by
  have hc := congrArg (Option.map GCupval.face) (h.heap r)
  rw [Option.map_map, Option.map_map] at hc
  have hcomp : (GCupval.face ∘ GCupval.core : GCupval V → _) = GCupval.face := funext face_core
  rwa [hcomp] at hc

/-! ### Links of the ring -/

/-- The links of an upvalue. -/
def GCupval.nextLink (uv : GCupval V) : Option Node :=
  match uv.u with
  | .tv _ => none
  | .links _ next => some next

def GCupval.prevLink (uv : GCupval V) : Option Node :=
  match uv.u with
  | .tv _ => none
  | .links prev _ => some prev

theorem nextOf_uv (s : State V) (r : Ref) : s.nextOf (.uv r) = (s.heap r).bind GCupval.nextLink := by
  rw [State.nextOf]
  cases hr : s.heap r with
  | none => rfl
  | some uv =>
      obtain ⟨nextgc, marked, closed, immutable, u, v, dhash⟩ := uv
      cases u <;> rfl

theorem prevOf_uv (s : State V) (r : Ref) : s.prevOf (.uv r) = (s.heap r).bind GCupval.prevLink := by
  rw [State.prevOf]
  cases hr : s.heap r with
  | none => rfl
  | some uv =>
      obtain ⟨nextgc, marked, closed, immutable, u, v, dhash⟩ := uv
      cases u <;> rfl

/-- An object is written, or freed. -/
def State.write (s : State V) (r : Ref) (o : Option (GCupval V)) : State V :=
  { s with heap := Function.update s.heap r o }

theorem put_eq_write (s : State V) (r : Ref) (uv : GCupval V) : s.put r uv = s.write r (some uv) := rfl

section Write

variable {o : Option (GCupval V)}

theorem write_nextgcOf : (s.write r o).nextgcOf = Function.update s.nextgcOf r (o.bind (·.nextgc)) := by
  funext r'
  rw [State.nextgcOf, State.write]
  dsimp only
  rcases eq_or_ne r' r with rfl | hne
  · rw [Function.update_self, Function.update_self]
  · rw [Function.update_of_ne hne, Function.update_of_ne hne, State.nextgcOf]

theorem write_face : (s.write r o).face = Function.update s.face r (o.map GCupval.face) := by
  funext r'
  rw [State.face, State.write]
  dsimp only
  rcases eq_or_ne r' r with rfl | hne
  · rw [Function.update_self, Function.update_self]
  · rw [Function.update_of_ne hne, Function.update_of_ne hne, State.face]

theorem write_nextOf : (s.write r o).nextOf = Function.update s.nextOf (.uv r) (o.bind GCupval.nextLink) := by
  funext n
  cases n with
  | uvhead => rfl
  | uv r' =>
      rw [nextOf_uv, State.write]
      dsimp only
      rcases eq_or_ne r' r with rfl | hne
      · rw [Function.update_self, Function.update_self]
      · have hne' : Node.uv r' ≠ .uv r := fun h => hne (Node.uv.inj h)
        rw [Function.update_of_ne hne, Function.update_of_ne hne', nextOf_uv]

theorem write_prevOf : (s.write r o).prevOf = Function.update s.prevOf (.uv r) (o.bind GCupval.prevLink) := by
  funext n
  cases n with
  | uvhead => rfl
  | uv r' =>
      rw [prevOf_uv, State.write]
      dsimp only
      rcases eq_or_ne r' r with rfl | hne
      · rw [Function.update_self, Function.update_self]
      · have hne' : Node.uv r' ≠ .uv r := fun h => hne (Node.uv.inj h)
        rw [Function.update_of_ne hne, Function.update_of_ne hne', prevOf_uv]

end Write

/-- A write of an upvalue with other links. -/
theorem put_linksOnly (hr : s.heap r = some uv) (hc : uv'.core = uv.core) : LinksOnly s (s.put r uv') where
  root := rfl
  currentwhite := rfl
  gcstate := rfl
  openupval := rfl
  stack := rfl
  heap r' := by
    rw [State.put]
    dsimp only
    rcases eq_or_ne r' r with rfl | hne
    · rw [Function.update_self, hr, Option.map_some, Option.map_some, hc]
    · rw [Function.update_of_ne hne]

/-- A node with a link is an upvalue with links. -/
theorem links_of_prevOf (h : s.prevOf (.uv r) = some p) : ∃ uv q, s.heap r = some uv ∧ uv.u = .links p q := by
  rw [prevOf_uv, Option.bind_eq_some_iff] at h
  obtain ⟨⟨nextgc, marked, closed, immutable, u, v, dhash⟩, hr, hu⟩ := h
  cases u with
  | tv x => cases hu
  | links p' q => cases hu; exact ⟨_, q, hr, rfl⟩

theorem links_of_nextOf (h : s.nextOf (.uv r) = some q) : ∃ uv p, s.heap r = some uv ∧ uv.u = .links p q := by
  rw [nextOf_uv, Option.bind_eq_some_iff] at h
  obtain ⟨⟨nextgc, marked, closed, immutable, u, v, dhash⟩, hr, hu⟩ := h
  cases u with
  | tv x => cases hu
  | links p q' => cases hu; exact ⟨_, p, hr, rfl⟩

theorem setPrev_spec {p' : Node} (h : s.prevOf n = some p') : ∃ s', s.setPrev n p = some s' ∧ LinksOnly s s' ∧
    s'.nextOf = s.nextOf ∧ s'.prevOf = Function.update s.prevOf n (some p) := by
  cases n with
  | uvhead =>
      refine ⟨_, rfl, ⟨rfl, rfl, rfl, rfl, rfl, fun _ => rfl⟩, ?_, ?_⟩
      · funext n
        cases n <;> rfl
      · funext n
        cases n with
        | uvhead => rw [Function.update_self]; rfl
        | uv r => rw [Function.update_of_ne (by simp)]; rfl
  | uv r =>
      obtain ⟨uv, q', hr, hu⟩ := links_of_prevOf h
      obtain ⟨nextgc, marked, closed, immutable, u, v, dhash⟩ := uv
      cases hu
      refine ⟨s.put r ⟨nextgc, marked, closed, immutable, .links p q', v, dhash⟩, ?_, put_linksOnly hr rfl, ?_, ?_⟩
      · rw [State.setPrev, hr]
      · rw [put_eq_write, write_nextOf, Function.update_eq_iff]
        exact ⟨by rw [nextOf_uv, hr]; rfl, fun _ _ => rfl⟩
      · rw [put_eq_write, write_prevOf]
        rfl

theorem setNext_spec {q' : Node} (h : s.nextOf n = some q') : ∃ s', s.setNext n q = some s' ∧ LinksOnly s s' ∧
    s'.nextOf = Function.update s.nextOf n (some q) ∧ s'.prevOf = s.prevOf := by
  cases n with
  | uvhead =>
      refine ⟨_, rfl, ⟨rfl, rfl, rfl, rfl, rfl, fun _ => rfl⟩, ?_, ?_⟩
      · funext n
        cases n with
        | uvhead => rw [Function.update_self]; rfl
        | uv r => rw [Function.update_of_ne (by simp)]; rfl
      · funext n
        cases n <;> rfl
  | uv r =>
      obtain ⟨uv, p', hr, hu⟩ := links_of_nextOf h
      obtain ⟨nextgc, marked, closed, immutable, u, v, dhash⟩ := uv
      cases hu
      refine ⟨s.put r ⟨nextgc, marked, closed, immutable, .links p' q, v, dhash⟩, ?_, put_linksOnly hr rfl, ?_, ?_⟩
      · rw [State.setNext, hr]
      · rw [put_eq_write, write_nextOf]
        rfl
      · rw [put_eq_write, write_prevOf, Function.update_eq_iff]
        exact ⟨by rw [prevOf_uv, hr]; rfl, fun _ _ => rfl⟩

/-- An upvalue is taken off the ring. -/
theorem unlinkuv_spec {l m : List Node} (hr : LinkedRing.Ring s.nextOf s.prevOf .uvhead (l ++ .uv r :: m)) :
    ∃ s', unlinkuv s r = some s' ∧ LinksOnly s s' ∧ LinkedRing.Ring s'.nextOf s'.prevOf .uvhead (l ++ m) := by
  obtain ⟨hn, hp⟩ := hr.neighbours
  obtain ⟨hpn, hnp⟩ := hr.neighbours_back
  obtain ⟨s₁, h₁, hl₁, hn₁, hp₁⟩ := setPrev_spec (p := l.getLastD .uvhead) hpn
  have hne : Node.uv r ≠ m.headD .uvhead := by
    have hnd := (List.nodup_append.mp (List.nodup_cons.mp hr.nodup).2).2.1
    cases m with
    | nil => exact Node.noConfusion
    | cons d m =>
        rw [List.headD_cons]
        exact fun h => (List.nodup_cons.mp hnd).1 (h ▸ List.mem_cons_self)
  have hprev : s₁.prevOf (.uv r) = some (l.getLastD .uvhead) := by
    rw [hp₁, Function.update_of_ne hne, hp]
  have hnext : s₁.nextOf (.uv r) = some (m.headD .uvhead) := by
    rw [hn₁, hn]
  obtain ⟨s₂, h₂, hl₂, hn₂, hp₂⟩ := setNext_spec (s := s₁) (q := m.headD .uvhead) (by rw [hn₁]; exact hnp)
  refine ⟨s₂, ?_, hl₁.trans hl₂, ?_⟩
  · rw [unlinkuv, hn, hp]
    dsimp only [bind, Option.bind]
    rw [h₁]
    dsimp only
    rw [hprev, hnext]
    exact h₂
  · have hu := hr.unlink
    rw [hn, hp] at hu
    rwa [hn₂, hp₂, hn₁, hp₁]

/-! ### The lists -/

/-- The lists `l` of the threads, with the slots of the upvalues, and the upvalues of the global ring. -/
structure Shape (s : State V) (l : Thread → List (Ref × Slot)) (ring : List Ref) : Prop where
  spells : ∀ L, Linked.Spells s.nextgcOf (s.openupval L) ((l L).map Prod.fst)
  openAt : ∀ L, ∀ x ∈ l L, s.OpenAt x.1 x.2
  sorted : ∀ L, (l L).Pairwise fun x y => y.2 < x.2
  disjoint : ∀ L L' x y, x ∈ l L → y ∈ l L' → x.1 = y.1 → L = L'
  linked : LinkedRing.Ring s.nextOf s.prevOf .uvhead (ring.map .uv)
  mem_ring : ∀ r, r ∈ ring ↔ ∃ L a, (r, a) ∈ l L
  rest : ∀ r uv, s.heap r = some uv → (∃ L a, (r, a) ∈ l L) ∨ ∃ x, uv.ClosedWith x
  white : OneWhite s.currentwhite

theorem openAt_unique {a a' : Slot} (h : s.OpenAt r a) (h' : s.OpenAt r a') : a = a' := by
  obtain ⟨uv, hr, -, hv, -⟩ := h
  obtain ⟨uv', hr', -, hv', -⟩ := h'
  cases hr.symm.trans hr'
  exact MRef.slot.inj (hv.symm.trans hv')

/-- The open upvalues are those on the lists. -/
theorem Shape.openAt_iff {l : Thread → List (Ref × Slot)} {ring : List Ref} (hs : Shape s l ring) {a : Slot} :
    s.OpenAt r a ↔ ∃ L, (r, a) ∈ l L := by
  constructor
  · intro ho
    obtain ⟨uv, hr, hc, -, -⟩ := id ho
    rcases hs.rest r uv hr with ⟨L, a', hm⟩ | ⟨x, hx⟩
    · obtain rfl := openAt_unique ho (hs.openAt L _ hm)
      exact ⟨L, hm⟩
    · rw [hx.1] at hc
      cases hc
  · rintro ⟨L, hm⟩
    exact hs.openAt L _ hm

/-- The lists stay, where the lists themselves and what tells the open upvalues stay. -/
theorem Shape.transfer {l : Thread → List (Ref × Slot)} {ring : List Ref} (hs : Shape s l ring)
    (hop : s'.openupval = s.openupval) (hnext : s'.nextgcOf = s.nextgcOf) (hface : ∀ r, s'.face r = s.face r)
    (hlinked : LinkedRing.Ring s'.nextOf s'.prevOf .uvhead (ring.map .uv)) (hw : OneWhite s'.currentwhite) :
    Shape s' l ring where
  spells L := by
    rw [hop, hnext]
    exact hs.spells L
  openAt L x hx := by
    rw [openAt_iff_face, hface, ← openAt_iff_face]
    exact hs.openAt L x hx
  sorted := hs.sorted
  disjoint := hs.disjoint
  linked := hlinked
  mem_ring := hs.mem_ring
  rest r uv hr := by
    have hf := hface r
    rw [State.face, hr, State.face] at hf
    obtain ⟨uv', hr', hu⟩ := Option.map_eq_some_iff.mp hf.symm
    refine (hs.rest r uv' hr').imp_right ?_
    rintro ⟨x, hx⟩
    rw [closedWith_iff_face, hu, ← closedWith_iff_face] at hx
    exact ⟨x, hx⟩
  white := hw

/-- An upvalue gets other marks. -/
theorem Shape.put_marks {l : Thread → List (Ref × Slot)} {ring : List Ref} (hs : Shape s l ring)
    (hr : s.heap r = some uv) (hn : uv'.nextgc = uv.nextgc) (hc : uv'.closed = uv.closed) (hu : uv'.u = uv.u)
    (hv : uv'.v = uv.v) : Shape (s.put r uv') l ring := by
  have hface : uv'.face = uv.face := by
    rw [GCupval.face, GCupval.face, hc, hu, hv]
  have hnl : uv'.nextLink = uv.nextLink := by
    rw [GCupval.nextLink, GCupval.nextLink, hu]
  have hpl : uv'.prevLink = uv.prevLink := by
    rw [GCupval.prevLink, GCupval.prevLink, hu]
  rw [put_eq_write]
  refine hs.transfer rfl ?_ (congrFun ?_) ?_ hs.white
  · rw [write_nextgcOf, Function.update_eq_iff]
    exact ⟨by rw [State.nextgcOf, hr]; exact hn, fun _ _ => rfl⟩
  · rw [write_face, Function.update_eq_iff]
    exact ⟨by rw [State.face, hr, Option.map_some, Option.map_some, hface], fun _ _ => rfl⟩
  · have hnext : (s.write r (some uv')).nextOf = s.nextOf := by
      rw [write_nextOf, Function.update_eq_iff]
      exact ⟨by rw [nextOf_uv, hr]; exact hnl, fun _ _ => rfl⟩
    have hprev : (s.write r (some uv')).prevOf = s.prevOf := by
      rw [write_prevOf, Function.update_eq_iff]
      exact ⟨by rw [prevOf_uv, hr]; exact hpl, fun _ _ => rfl⟩
    rw [hnext, hprev]
    exact hs.linked

/-- The collector changes no list. -/
theorem Shape.recolor {l : Thread → List (Ref × Slot)} {ring : List Ref} (hs : Shape s l ring)
    (marked : Ref → BitVec 8) {currentwhite : BitVec 8} (hw : OneWhite currentwhite) (gcstate : GCState)
    (root : Option Ref) : Shape (s.recolor marked currentwhite gcstate root) l ring := by
  refine hs.transfer rfl ?_ ?_ ?_ hw
  · funext r
    rw [State.nextgcOf, State.nextgcOf, State.recolor]
    dsimp only
    cases s.heap r <;> rfl
  · intro r
    rw [State.face, State.face, State.recolor]
    dsimp only
    cases s.heap r <;> rfl
  · have hnext : (s.recolor marked currentwhite gcstate root).nextOf = s.nextOf := by
      funext n
      cases n with
      | uvhead => rfl
      | uv r =>
          rw [nextOf_uv, nextOf_uv, State.recolor]
          dsimp only
          cases s.heap r <;> rfl
    have hprev : (s.recolor marked currentwhite gcstate root).prevOf = s.prevOf := by
      funext n
      cases n with
      | uvhead => rfl
      | uv r =>
          rw [prevOf_uv, prevOf_uv, State.recolor]
          dsimp only
          cases s.heap r <;> rfl
    rw [hnext, hprev]
    exact hs.linked

/-- At the start all lists are empty. -/
theorem shape_initial (stack : Slot → V) : Shape (initial stack) (fun _ => []) [] where
  spells _ := rfl
  openAt _ x hx := by cases hx
  sorted _ := List.Pairwise.nil
  disjoint _ _ x _ hx := by cases hx
  linked := ⟨rfl, rfl, List.nodup_cons.mpr ⟨List.not_mem_nil, List.nodup_nil⟩⟩
  mem_ring r := by
    constructor
    · intro h
      cases h
    · rintro ⟨_, _, h⟩
      cases h
  rest r uv h := by cases h
  white := .inl (by decide : 0x21#8 &&& gcWhites = 1#8)

/-! ### The search -/

/-- The place behind the upvalues `hi`, from `pp` on. -/
def locAfter : Loc → List (Ref × Slot) → Loc
  | pp, [] => pp
  | _, x :: hi => locAfter (.nextgc x.1) hi

theorem locAfter_snoc (x : Ref × Slot) : ∀ (hi : List (Ref × Slot)) (pp : Loc), locAfter pp (hi ++ [x]) = .nextgc x.1
  | [], _ => rfl
  | _ :: hi, _ => locAfter_snoc x hi _

/-- The search finds the upvalue of the slot, or the place between the higher and the lower ones. -/
theorem finduvLoop_spec (slot : Slot) {m : List (Ref × Slot)} : ∀ {pp : Loc} {p : Option Ref},
    s.load pp = some p → Linked.Spells s.nextgcOf p (m.map Prod.fst) → (∀ x ∈ m, s.OpenAt x.1 x.2) →
    (∃ r, (r, slot) ∈ m ∧ ∀ fuel > m.length, finduvLoop s slot fuel pp = some (.inr r)) ∨
      ∃ hi lo, m = hi ++ lo ∧ (∀ x ∈ hi, slot < x.2) ∧ (∀ x ∈ lo.head?, x.2 < slot) ∧
        ∀ fuel > m.length, finduvLoop s slot fuel pp = some (.inl (locAfter pp hi)) := by
  induction m with
  | nil =>
      intro pp p hload hsp _
      cases hsp
      refine .inr ⟨[], [], rfl, nofun, nofun, fun fuel hfuel => ?_⟩
      obtain ⟨fuel, rfl⟩ := Nat.exists_eq_add_of_lt hfuel
      rw [finduvLoop, hload]
      rfl
  | cons x m ih =>
      intro pp p hload hsp hopen
      obtain ⟨r, a⟩ := x
      obtain ⟨rfl, hsp⟩ := hsp
      obtain ⟨uv, hr, -, hv, -⟩ := hopen _ List.mem_cons_self
      dsimp only at hr hv hsp
      have hstep (fuel : ℕ) (hfuel : fuel > m.length + 1) : ∃ k > m.length, finduvLoop s slot fuel pp =
          if a < slot then some (.inl pp) else if a = slot then some (.inr r)
          else finduvLoop s slot k (.nextgc r) := by
        obtain ⟨k, rfl⟩ : ∃ k, fuel = k + 1 := ⟨fuel - 1, by lia⟩
        refine ⟨k, Nat.lt_of_succ_lt_succ hfuel, ?_⟩
        rw [finduvLoop, hload]
        dsimp only [bind, Option.bind]
        rw [hr]
        dsimp only
        rw [GCupval.slot, hv]
      rcases Nat.lt_trichotomy a slot with hlt | rfl | hgt
      · refine .inr ⟨[], (r, a) :: m, rfl, nofun, fun x hx => ?_, fun fuel hfuel => ?_⟩
        · cases hx
          exact hlt
        · obtain ⟨k, -, hk⟩ := hstep fuel hfuel
          rw [hk, if_pos hlt]
          rfl
      · refine .inl ⟨r, List.mem_cons_self, fun fuel hfuel => ?_⟩
        obtain ⟨k, -, hk⟩ := hstep fuel hfuel
        rw [hk, if_neg (Nat.lt_irrefl _), if_pos rfl]
      · have hload' : s.load (.nextgc r) = some (s.nextgcOf r) := by
          rw [State.load, State.nextgcOf, hr]
          rfl
        have hgo (fuel : ℕ) (hfuel : fuel > m.length + 1) : ∃ k > m.length,
            finduvLoop s slot fuel pp = finduvLoop s slot k (.nextgc r) := by
          obtain ⟨k, hk, he⟩ := hstep fuel hfuel
          refine ⟨k, hk, ?_⟩
          rw [he, if_neg (Nat.not_lt_of_gt hgt), if_neg (Nat.ne_of_gt hgt)]
        rcases ih hload' hsp fun x hx => hopen x (List.mem_cons_of_mem _ hx) with
          ⟨r', hmem, hf⟩ | ⟨hi, lo, rfl, hhi, hlo, hf⟩
        · refine .inl ⟨r', List.mem_cons_of_mem _ hmem, fun fuel hfuel => ?_⟩
          obtain ⟨k, hk, he⟩ := hgo fuel hfuel
          rw [he, hf k hk]
        · refine .inr ⟨(r, a) :: hi, lo, rfl, ?_, hlo, fun fuel hfuel => ?_⟩
          · intro x hx
            rcases List.mem_cons.mp hx with rfl | hx
            · exact hgt
            · exact hhi x hx
          · obtain ⟨k, hk, he⟩ := hgo fuel hfuel
            rw [he, hf k hk]
            rfl

/-! ### A new upvalue -/

section Insert

variable {l : Thread → List (Ref × Slot)} {ring : List Ref} {hi lo : List (Ref × Slot)} {slot : Slot}

/-- A reference that is on a list is in use. -/
theorem Shape.ne_new (hs : Shape s l ring) (hnew : s.heap new = none) {x : Ref × Slot} (hx : x ∈ l L) : x.1 ≠ new := by
  obtain ⟨uv, hr, -⟩ := hs.openAt L x hx
  rintro rfl
  rw [hnew] at hr
  cases hr

theorem Shape.not_mem_new (hs : Shape s l ring) (hnew : s.heap new = none) (L : Thread) :
    new ∉ (l L).map Prod.fst := by
  intro hm
  obtain ⟨x, hx, he⟩ := List.mem_map.mp hm
  exact hs.ne_new hnew hx he

/-- The part of a state that the lists of the threads do not depend on. -/
structure SameButLists (s s' : State V) : Prop where
  face : s'.face = s.face
  nextOf : s'.nextOf = s.nextOf
  prevOf : s'.prevOf = s.prevOf
  currentwhite : s'.currentwhite = s.currentwhite
  stack : s'.stack = s.stack
  marked : ∀ r, (s'.heap r).map GCupval.marked = (s.heap r).map GCupval.marked

/-- The new upvalue is linked in behind the upvalues of the higher slots. -/
theorem store_insert (hs : Shape s l ring) (hl : l L = hi ++ lo) (hnew : s.heap new = none) (slot : Slot) :
    ∃ rest, s.load (locAfter (.openupval L) hi) = some rest ∧ ∀ uv : GCupval V, uv.nextgc = rest →
      ∃ s', (s.put new uv).store (locAfter (.openupval L) hi) (some new) = some s' ∧
        (∀ L', Linked.Spells s'.nextgcOf (s'.openupval L')
          ((Function.update l L (hi ++ (new, slot) :: lo) L').map Prod.fst)) ∧
        SameButLists (s.put new uv) s' ∧ s'.heap new = some uv := by
  rcases List.eq_nil_or_concat hi with rfl | ⟨hi, x, rfl⟩
  · refine ⟨s.openupval L, rfl, fun uv huv => ⟨_, rfl, fun L' => ?_, ⟨rfl, rfl, rfl, rfl, rfl, fun _ => rfl⟩, ?_⟩⟩
    · have hnext : (s.put new uv).nextgcOf = Function.update s.nextgcOf new (s.openupval L) := by
        rw [put_eq_write, write_nextgcOf, Option.bind_some, huv]
      change Linked.Spells (s.put new uv).nextgcOf (Function.update s.openupval L (some new) L') _
      rw [hnext]
      rcases eq_or_ne L' L with rfl | hne
      · rw [Function.update_self, Function.update_self, List.nil_append, List.map_cons]
        have hsp := (hs.spells L').push (hs.not_mem_new hnew L')
        rwa [hl, List.nil_append] at hsp
      · rw [Function.update_of_ne hne, Function.update_of_ne hne]
        exact (hs.spells L').update (hs.not_mem_new hnew L') _
    · exact Function.update_self ..
  · rw [List.concat_eq_append] at hl ⊢
    rw [locAfter_snoc]
    have hx : x ∈ l L := by
      rw [hl]
      simp
    obtain ⟨uvx, hr, -⟩ := hs.openAt L x hx
    have hxn : x.1 ≠ new := hs.ne_new hnew hx
    refine ⟨uvx.nextgc, by rw [State.load, hr]; rfl, fun uv huv => ?_⟩
    have hrput : (s.put new uv).heap x.1 = some uvx := (Function.update_of_ne hxn ..).trans hr
    have hstore : (s.put new uv).store (.nextgc x.1) (some new) =
        some ((s.put new uv).write x.1 (some { uvx with nextgc := some new })) := by
      rw [State.store, hrput]
      rfl
    refine ⟨_, hstore, fun L' => ?_, ⟨?_, ?_, ?_, rfl, rfl, fun r => ?_⟩, ?_⟩
    · have hnx : s.nextgcOf x.1 = uvx.nextgc := by
        rw [State.nextgcOf, hr]
        rfl
      have hnext : ((s.put new uv).write x.1 (some { uvx with nextgc := some new })).nextgcOf =
          Function.update (Function.update s.nextgcOf new (s.nextgcOf x.1)) x.1 (some new) := by
        rw [write_nextgcOf, put_eq_write, write_nextgcOf, Option.bind_some, Option.bind_some, huv, hnx]
      rw [hnext]
      change Linked.Spells _ (s.openupval L') _
      rcases eq_or_ne L' L with rfl | hne
      · have hsp := hs.spells L'
        have hnm := hs.not_mem_new hnew L'
        rw [hl, List.append_assoc, List.singleton_append, List.map_append, List.map_cons] at hsp hnm
        have hins := hsp.insert hnm
        rw [Function.update_self, List.append_assoc, List.singleton_append, List.map_append, List.map_cons,
          List.map_cons]
        exact hins
      · rw [Function.update_of_ne hne]
        refine ((hs.spells L').update (hs.not_mem_new hnew L') _).update (fun hm => ?_) _
        obtain ⟨y, hy, he⟩ := List.mem_map.mp hm
        exact hne (hs.disjoint L' L y x hy hx he)
    · rw [write_face, Function.update_eq_iff]
      exact ⟨by rw [State.face, hrput]; rfl, fun _ _ => rfl⟩
    · rw [write_nextOf, Function.update_eq_iff]
      exact ⟨by rw [nextOf_uv, hrput]; rfl, fun _ _ => rfl⟩
    · rw [write_prevOf, Function.update_eq_iff]
      exact ⟨by rw [prevOf_uv, hrput]; rfl, fun _ _ => rfl⟩
    · change (Function.update (s.put new uv).heap x.1 _ r).map GCupval.marked = _
      rcases eq_or_ne r x.1 with rfl | hne
      · rw [Function.update_self, hrput]
        rfl
      · rw [Function.update_of_ne hne]
    · exact (Function.update_of_ne hxn.symm ..).trans (Function.update_self ..)

/-- Between the higher and the lower slots the list stays sorted. -/
theorem sorted_insert (hsorted : (hi ++ lo).Pairwise fun x y => y.2 < x.2) (hhi : ∀ x ∈ hi, slot < x.2)
    (hlo : ∀ x ∈ lo.head?, x.2 < slot) : (hi ++ (new, slot) :: lo).Pairwise fun x y => y.2 < x.2 := by
  obtain ⟨h1, h2, h3⟩ := List.pairwise_append.mp hsorted
  have hlo' : ∀ y ∈ lo, y.2 < slot := by
    cases lo with
    | nil => exact fun y hy => nomatch hy
    | cons z lo =>
        have hz : z.2 < slot := hlo z rfl
        intro y hy
        rcases List.mem_cons.mp hy with rfl | hy
        · exact hz
        · exact ((List.pairwise_cons.mp h2).1 y hy).trans hz
  refine List.pairwise_append.mpr ⟨h1, List.pairwise_cons.mpr ⟨hlo', h2⟩, fun x hx y hy => ?_⟩
  rcases List.mem_cons.mp hy with rfl | hy
  · exact hhi x hx
  · exact h3 x hx y hy

theorem mem_insert_list {x : Ref × Slot} (hl : l L = hi ++ lo) (L' : Thread) :
    x ∈ Function.update l L (hi ++ (new, slot) :: lo) L' ↔ x ∈ l L' ∨ L' = L ∧ x = (new, slot) := by
  rcases eq_or_ne L' L with rfl | hne
  · rw [Function.update_self, hl, List.mem_append, List.mem_cons, List.mem_append]
    tauto
  · rw [Function.update_of_ne hne]
    exact ⟨.inl, fun h => h.resolve_right fun h => hne h.1⟩

/-- The lists with a new upvalue. -/
theorem Shape.insert (hs : Shape s l ring) (hl : l L = hi ++ lo) (hnew : s.heap new = none)
    (hhi : ∀ x ∈ hi, slot < x.2) (hlo : ∀ x ∈ lo.head?, x.2 < slot)
    (hspells : ∀ L', Linked.Spells s'.nextgcOf (s'.openupval L')
      ((Function.update l L (hi ++ (new, slot) :: lo) L').map Prod.fst))
    (hface : s'.face = Function.update s.face new (some (false, .slot slot, none)))
    (hlinked : LinkedRing.Ring s'.nextOf s'.prevOf .uvhead ((new :: ring).map .uv))
    (hw : s'.currentwhite = s.currentwhite) :
    Shape s' (Function.update l L (hi ++ (new, slot) :: lo)) (new :: ring) where
  spells := hspells
  openAt L' x hx := by
    rw [openAt_iff_face, hface]
    rcases (mem_insert_list hl L').mp hx with hx | ⟨-, rfl⟩
    · rw [Function.update_of_ne (hs.ne_new hnew hx), ← openAt_iff_face]
      exact hs.openAt L' x hx
    · exact Function.update_self ..
  sorted L' := by
    rcases eq_or_ne L' L with rfl | hne
    · rw [Function.update_self]
      exact sorted_insert (hl ▸ hs.sorted L') hhi hlo
    · rw [Function.update_of_ne hne]
      exact hs.sorted L'
  disjoint L₁ L₂ x y hx hy he := by
    rcases (mem_insert_list hl L₁).mp hx with hx' | ⟨rfl, rfl⟩ <;>
      rcases (mem_insert_list hl L₂).mp hy with hy' | ⟨rfl, rfl⟩
    · exact hs.disjoint L₁ L₂ x y hx' hy' he
    · exact absurd he (hs.ne_new hnew hx')
    · exact absurd he.symm (hs.ne_new hnew hy')
    · rfl
  linked := hlinked
  mem_ring r := by
    rw [List.mem_cons, hs.mem_ring]
    constructor
    · rintro (rfl | ⟨L', a, hm⟩)
      · exact ⟨L, slot, (mem_insert_list hl L).mpr (.inr ⟨rfl, rfl⟩)⟩
      · exact ⟨L', a, (mem_insert_list hl L').mpr (.inl hm)⟩
    · rintro ⟨L', a, hm⟩
      rcases (mem_insert_list hl L').mp hm with hm | ⟨-, he⟩
      · exact .inr ⟨L', a, hm⟩
      · exact .inl (Prod.mk.inj he).1
  rest r uv hr := by
    have hf := congrFun hface r
    rw [State.face, hr, Option.map_some] at hf
    rcases eq_or_ne r new with rfl | hne
    · exact .inl ⟨L, slot, (mem_insert_list hl L).mpr (.inr ⟨rfl, rfl⟩)⟩
    · rw [Function.update_of_ne hne] at hf
      obtain ⟨uv', hr', hu⟩ := Option.map_eq_some_iff.mp hf.symm
      rcases hs.rest r uv' hr' with ⟨L', a, hm⟩ | ⟨x, hx⟩
      · exact .inl ⟨L', a, (mem_insert_list hl L').mpr (.inl hm)⟩
      · rw [closedWith_iff_face, hu, ← closedWith_iff_face] at hx
        exact .inr ⟨x, hx⟩
  white := hw ▸ hs.white

end Insert

/-! ### Colours -/

theorem otherwhite_and (h : OneWhite s.currentwhite) :
    s.curwhite = 1#8 ∧ s.otherwhite &&& gcWhites = 2#8 ∨ s.curwhite = 2#8 ∧ s.otherwhite &&& gcWhites = 1#8 := by
  have hx : ∀ c : BitVec 8, (c ^^^ gcWhites) &&& gcWhites = (c &&& gcWhites) ^^^ gcWhites := by decide
  rw [State.otherwhite, hx, State.curwhite]
  rcases h with h | h
  · rw [h]
    exact .inl ⟨rfl, by decide⟩
  · rw [h]
    exact .inr ⟨rfl, by decide⟩

/-- The test for death looks at one bit. -/
theorem isdead_iff : s.isdead uv = true ↔ uv.marked &&& (s.otherwhite &&& gcWhites) ≠ 0 := by
  rw [State.isdead, BitVec.and_assoc, bne_iff_ne]

/-- An upvalue that the collector has not condemned. -/
def State.Alive (s : State V) (r : Ref) : Prop := ∃ uv, s.heap r = some uv ∧ s.isdead uv = false

/-- What is alive tells from the marks. -/
theorem alive_marked (hw : s'.currentwhite = s.currentwhite)
    (hm : (s'.heap r).map GCupval.marked = (s.heap r).map GCupval.marked) (h : s.Alive r) : s'.Alive r := by
  obtain ⟨uv, hr, hd⟩ := h
  rw [hr] at hm
  obtain ⟨uv', hr', hm⟩ := Option.map_eq_some_iff.mp hm
  refine ⟨uv', hr', ?_⟩
  rw [State.isdead, State.otherwhite, hw, hm]
  exact hd

theorem alive_core (hw : s'.currentwhite = s.currentwhite)
    (hc : (s'.heap r).map GCupval.core = (s.heap r).map GCupval.core) (h : s.Alive r) : s'.Alive r := by
  refine alive_marked hw ?_ h
  have hm := congrArg (Option.map GCupval.marked) hc
  rwa [Option.map_map, Option.map_map] at hm

/-- A dead upvalue that is resurrected is not dead. -/
theorem isdead_flipwhite (h : OneWhite s.currentwhite) (hd : s.isdead uv = true) : s.isdead uv.flipwhite = false := by
  have hflip : ∀ m : BitVec 8, (m &&& 2#8 ≠ 0 → (m ^^^ gcWhites) &&& 2#8 = 0) ∧
      (m &&& 1#8 ≠ 0 → (m ^^^ gcWhites) &&& 1#8 = 0) := by decide
  rw [isdead_iff] at hd
  rw [← Bool.not_eq_true, isdead_iff, not_not, GCupval.flipwhite]
  rcases otherwhite_and h with ⟨-, ho⟩ | ⟨-, ho⟩
  · rw [ho] at hd ⊢
    exact (hflip _).1 hd
  · rw [ho] at hd ⊢
    exact (hflip _).2 hd

/-- A new upvalue is not dead. -/
theorem isdead_curwhite (h : OneWhite s.currentwhite) (hm : uv.marked = s.curwhite) : s.isdead uv = false := by
  rw [← Bool.not_eq_true, isdead_iff, not_not, hm]
  rcases otherwhite_and h with ⟨hc, ho⟩ | ⟨hc, ho⟩
  · rw [hc, ho]
    rfl
  · rw [hc, ho]
    rfl

/-! ### `func_finduv` -/

section Finduv

variable {l : Thread → List (Ref × Slot)} {ring : List Ref}

/-- What a step that adds upvalues leaves: the lists with more upvalues on them, and the free addresses
other than the new ones. -/
structure Extends (s : State V) (l : Thread → List (Ref × Slot)) (news : List Ref) (s' : State V)
    (l' : Thread → List (Ref × Slot)) : Prop where
  keeps : ∀ L x, x ∈ l L → x ∈ l' L
  stack : s'.stack = s.stack
  free : ∀ r, r ∉ news → s.heap r = none → s'.heap r = none
  alive : ∀ r, s.Alive r → s'.Alive r

theorem Extends.refl (s : State V) (l : Thread → List (Ref × Slot)) (news : List Ref) : Extends s l news s l :=
  ⟨fun _ _ hx => hx, rfl, fun _ _ hr => hr, fun _ hr => hr⟩

theorem SameButLists.free (h : SameButLists s s') (hr : s.heap r = none) : s'.heap r = none := by
  have hf := congrFun h.face r
  rwa [State.face, State.face, hr, Option.map_none, Option.map_eq_none_iff] at hf

theorem LinksOnly.free (h : LinksOnly s s') (hr : s.heap r = none) : s'.heap r = none := by
  have hc := h.heap r
  rwa [hr, Option.map_none, Option.map_eq_none_iff] at hc

/-- The links of the new upvalue are put into the ring. -/
theorem link_new (hs : Shape s l ring) (hnew : s.heap new = none) {uv : GCupval V}
    (hu : uv.u = .links .uvhead s.headNext) (hsame : SameButLists (s.put new uv) s₁) :
    ∃ s₂ s₃, s₁.nextOf (.uv new) = some s.headNext ∧ s₁.setPrev s.headNext (.uv new) = some s₂ ∧
      s₂.setNext .uvhead (.uv new) = some s₃ ∧ LinksOnly s₁ s₃ ∧
      LinkedRing.Ring s₃.nextOf s₃.prevOf .uvhead ((new :: ring).map .uv) := by
  have hhead : s.headNext = (ring.map Node.uv).headD .uvhead := Option.some.inj hs.linked.forward.next_first
  have hfresh : Node.uv new ∉ Node.uvhead :: ring.map .uv := by
    rw [List.mem_cons, not_or]
    refine ⟨Node.noConfusion, fun hm => ?_⟩
    obtain ⟨r, hr, he⟩ := List.mem_map.mp hm
    obtain ⟨L, a, hm⟩ := (hs.mem_ring r).mp hr
    exact hs.ne_new hnew hm (Node.uv.inj he)
  have hheadmem : s.headNext ∈ Node.uvhead :: ring.map .uv := by
    rw [hhead]
    cases ring with
    | nil => exact List.mem_cons_self
    | cons r ring => exact List.mem_cons_of_mem _ List.mem_cons_self
  have hne : s.headNext ≠ .uv new := ne_of_mem_of_not_mem hheadmem hfresh
  have hnext : s₁.nextOf = Function.update s.nextOf (.uv new) (some s.headNext) := by
    rw [hsame.nextOf, put_eq_write, write_nextOf, Option.bind_some, GCupval.nextLink, hu]
  have hprev : s₁.prevOf = Function.update s.prevOf (.uv new) (some .uvhead) := by
    rw [hsame.prevOf, put_eq_write, write_prevOf, Option.bind_some, GCupval.prevLink, hu]
  have hback : s.prevOf s.headNext = some .uvhead := by
    have hlast := hs.linked.backward.next_last
    rwa [List.getLastD_eq_getLast?, List.getLast?_reverse, ← List.headD_eq_head?_getD, ← hhead] at hlast
  have hback₁ : s₁.prevOf s.headNext = some .uvhead := by
    rw [hprev, Function.update_of_ne hne]
    exact hback
  obtain ⟨s₂, h₂, hl₂, hn₂, hp₂⟩ := setPrev_spec (p := .uv new) hback₁
  obtain ⟨s₃, h₃, hl₃, hn₃, hp₃⟩ := setNext_spec (s := s₂) (n := .uvhead) (q := .uv new) rfl
  refine ⟨s₂, s₃, by rw [hnext, Function.update_self], h₂, h₃, hl₂.trans hl₃, ?_⟩
  have hins := hs.linked.insert hfresh
  rw [← hhead] at hins
  rw [hn₃, hp₃, hn₂, hp₂, hnext, hprev]
  exact hins

/-- The upvalue of a slot is found or made, and is not dead. -/
theorem funcFinduv_spec (hs : Shape s l ring) (L : Thread) (slot : Slot) (hnew : s.heap new = none) :
    ∃ s' r l' ring', (∀ fuel > (l L).length, funcFinduv fuel s L slot new = some (s', r)) ∧
      Shape s' l' ring' ∧ Extends s l [new] s' l' ∧ (r, slot) ∈ l' L ∧ s'.Alive r := by
  have hload₀ : s.load (.openupval L) = some (s.openupval L) := rfl
  rcases finduvLoop_spec slot hload₀ (hs.spells L) (hs.openAt L) with
    ⟨r, hm, hf⟩ | ⟨hi, lo, hl, hhi, hlo, hf⟩
  · obtain ⟨uv, hr, -⟩ := hs.openAt L _ hm
    dsimp only at hr
    by_cases hd : s.isdead uv = true
    · have hflip : (s.put r uv.flipwhite).Alive r :=
        ⟨uv.flipwhite, Function.update_self .., isdead_flipwhite hs.white hd⟩
      refine ⟨s.put r uv.flipwhite, r, l, ring, fun fuel hfuel => ?_, hs.put_marks hr rfl rfl rfl rfl,
        ⟨fun _ _ hx => hx, rfl, fun r' _ hr' => ?_, fun r' hr' => ?_⟩, hm, hflip⟩
      · rw [funcFinduv, hf fuel hfuel]
        dsimp only [bind, Option.bind]
        rw [hr]
        dsimp only
        rw [if_pos hd]
      · have hne : r' ≠ r := by
          rintro rfl
          rw [hr] at hr'
          cases hr'
        exact (Function.update_of_ne hne ..).trans hr'
      · rcases eq_or_ne r' r with rfl | hne
        · exact hflip
        · obtain ⟨uv', hr', hd'⟩ := hr'
          exact ⟨uv', (Function.update_of_ne hne ..).trans hr', hd'⟩
    · refine ⟨s, r, l, ring, fun fuel hfuel => ?_, hs, Extends.refl .., hm, uv, hr, Bool.not_eq_true _ ▸ hd⟩
      rw [funcFinduv, hf fuel hfuel]
      dsimp only [bind, Option.bind]
      rw [hr]
      dsimp only
      rw [if_neg hd]
  · obtain ⟨rest, hload, hstore⟩ := store_insert hs hl hnew slot
    obtain ⟨s₁, h₁, hspells, hsame, hnew₁⟩ := hstore
      { nextgc := rest, marked := s.curwhite, closed := false, immutable := false,
        u := .links .uvhead s.headNext, v := .slot slot, dhash := 0 } rfl
    obtain ⟨s₂, s₃, hn, h₂, h₃, hlinks, hring⟩ := link_new hs hnew rfl hsame
    obtain ⟨uv, hr, hcore⟩ := hlinks.heap_some hnew₁
    have hw : s₃.currentwhite = s.currentwhite := hlinks.currentwhite.trans hsame.currentwhite
    refine ⟨s₃, new, Function.update l L (hi ++ (new, slot) :: lo), new :: ring, fun fuel hfuel => ?_, ?_,
      ⟨fun L' x hx => (mem_insert_list hl L').mpr (.inl hx), hlinks.stack.trans hsame.stack, fun r' hr' hfree => ?_,
        fun r' hr' => ?_⟩, (mem_insert_list hl L).mpr (.inr ⟨rfl, rfl⟩), uv, hr, ?_⟩
    · rw [funcFinduv, hf fuel hfuel]
      dsimp only [bind, Option.bind]
      rw [hload]
      dsimp only
      rw [h₁]
      dsimp only
      rw [hn]
      dsimp only
      rw [h₂]
      dsimp only
      rw [h₃]
    · refine hs.insert hl hnew hhi hlo (fun L' => ?_) ?_ hring hw
      · rw [hlinks.nextgcOf, hlinks.openupval]
        exact hspells L'
      · rw [funext hlinks.face, hsame.face, put_eq_write, write_face]
        rfl
    · have hne : r' ≠ new := fun h => hr' (List.mem_singleton.mpr h)
      exact hlinks.free (hsame.free ((Function.update_of_ne hne ..).trans hfree))
    · have hne : r' ≠ new := by
        obtain ⟨uv', hr', -⟩ := hr'
        rintro rfl
        rw [hnew] at hr'
        cases hr'
      refine alive_core hlinks.currentwhite (hlinks.heap r') (alive_marked hsame.currentwhite (hsame.marked r') ?_)
      obtain ⟨uv', hr', hd⟩ := hr'
      exact ⟨uv', (Function.update_of_ne hne ..).trans hr', hd⟩
    · refine isdead_curwhite (hw ▸ hs.white) ?_
      have hm : uv.marked = s.curwhite := congrArg GCupval.marked hcore
      rw [hm, State.curwhite, State.curwhite, hw]

end Finduv

end Upval
