/-
**Runs with open upvalues.**

Closing takes the upvalues from a level on off both lists, one by one, and frees them or keeps the values
of their slots.  With the search and the making of functions these are the steps that change the lists;
the collector only changes colours.

Main definitions:

* `Upval.Closes` — what closing does to the upvalues of a thread;
* `Upval.Gives` — the upvalues that a step gives for a slot;
* `Upval.Run` — runs.

Main results:

* `Upval.funcCloseuv_spec`, `Upval.newLUpvals_spec` — the functions;
* `Upval.step_shape`, `Upval.run_shape` — steps and runs keep the lists;
* `Upval.openupval_sound` — **the lists of the open upvalues, in every run**.
-/

import LuaJit.UpvalSound

set_option relaxedAutoImplicit false
set_option autoImplicit false

namespace Upval

variable {V : Type} {s s' s₁ s₂ : State V} {r new : Ref} {L : Thread} {uv uv' : GCupval V} {n p q : Node}

/-! ### `lj_func_closeuv` -/

section Closeuv

variable {l : Thread → List (Ref × Slot)} {ring : List Ref} {x : Ref × Slot} {tl : List (Ref × Slot)} {level : Slot}

theorem face_closedWith {y : V} (h : uv'.core = uv.core) (hc : uv.ClosedWith y) : uv'.ClosedWith y := by
  rw [closedWith_iff_face, ← face_core, h, face_core]
  exact closedWith_iff_face.mp hc

/-- What is left on the lists when the first upvalue of a thread is taken off. -/
theorem mem_pop (hs : Shape s l ring) (hl : l L = x :: tl) {y : Ref × Slot} (L' : Thread) :
    y ∈ Function.update l L tl L' ↔ y ∈ l L' ∧ y.1 ≠ x.1 := by
  rcases eq_or_ne L' L with rfl | hne
  · have hnd := (hs.spells L').nodup
    rw [hl, List.map_cons, List.nodup_cons] at hnd
    rw [Function.update_self, hl, List.mem_cons]
    constructor
    · intro hy
      refine ⟨.inr hy, fun he => hnd.1 ?_⟩
      rw [← he]
      exact List.mem_map_of_mem hy
    · rintro ⟨rfl | hy, he⟩
      · exact absurd rfl he
      · exact hy
  · rw [Function.update_of_ne hne]
    refine ⟨fun hy => ⟨hy, fun he => ?_⟩, fun h => h.1⟩
    exact hne (hs.disjoint L' L y x hy (hl ▸ List.mem_cons_self) he)

/-- An upvalue is taken out of the ring. -/
theorem mem_unlink {r₁ r₂ : List Ref} (hring : ring = r₁ ++ r :: r₂) (hnd : ring.Nodup) {r' : Ref} :
    r' ∈ r₁ ++ r₂ ↔ r' ∈ ring ∧ r' ≠ r := by
  rw [hring] at hnd ⊢
  have hnot : r ∉ r₁ ++ r₂ := (List.nodup_cons.mp (List.nodup_middle.mp hnd)).1
  rw [List.mem_append, List.mem_append, List.mem_cons]
  rw [List.mem_append] at hnot
  constructor
  · intro hm
    refine ⟨hm.imp_right .inr, ?_⟩
    rintro rfl
    exact hnot hm
  · rintro ⟨hm, hne⟩
    exact hm.imp_right fun h => h.resolve_left hne

theorem Shape.nodup_ring (hs : Shape s l ring) : ring.Nodup :=
  List.Nodup.of_map _ (List.nodup_cons.mp hs.linked.nodup).2

/-- The lists without the first upvalue of a thread, which is freed or closed. -/
theorem Shape.remove {r₁ r₂ : List Ref} (hs : Shape s l ring) (hl : l L = x :: tl)
    (hring : ring = r₁ ++ x.1 :: r₂) {f : Option (Bool × MRef × Option V)}
    (hf : ∀ b, f = some b → ∃ y, b = (true, .tv, some y))
    (hspells : ∀ L', Linked.Spells s'.nextgcOf (s'.openupval L') ((Function.update l L tl L').map Prod.fst))
    (hface : s'.face = Function.update s.face x.1 f)
    (hlinked : LinkedRing.Ring s'.nextOf s'.prevOf .uvhead ((r₁ ++ r₂).map .uv))
    (hw : s'.currentwhite = s.currentwhite) : Shape s' (Function.update l L tl) (r₁ ++ r₂) where
  spells := hspells
  openAt L' y hy := by
    obtain ⟨hy, hne⟩ := (mem_pop hs hl L').mp hy
    rw [openAt_iff_face, hface, Function.update_of_ne hne, ← openAt_iff_face]
    exact hs.openAt L' y hy
  sorted L' := by
    rcases eq_or_ne L' L with rfl | hne
    · rw [Function.update_self]
      have hsorted := hs.sorted L'
      rw [hl] at hsorted
      exact (List.pairwise_cons.mp hsorted).2
    · rw [Function.update_of_ne hne]
      exact hs.sorted L'
  disjoint L₁ L₂ y z hy hz he :=
    hs.disjoint L₁ L₂ y z ((mem_pop hs hl L₁).mp hy).1 ((mem_pop hs hl L₂).mp hz).1 he
  linked := hlinked
  mem_ring r := by
    rw [mem_unlink hring hs.nodup_ring, hs.mem_ring]
    constructor
    · rintro ⟨⟨L', a, hm⟩, hne⟩
      exact ⟨L', a, (mem_pop hs hl L').mpr ⟨hm, hne⟩⟩
    · rintro ⟨L', a, hm⟩
      obtain ⟨hm, hne⟩ := (mem_pop hs hl L').mp hm
      exact ⟨⟨L', a, hm⟩, hne⟩
  rest r uv' hr' := by
    have hr := congrFun hface r
    rw [State.face, hr', Option.map_some] at hr
    rcases eq_or_ne r x.1 with rfl | hne
    · rw [Function.update_self] at hr
      obtain ⟨y, hy⟩ := hf _ hr.symm
      exact .inr ⟨y, closedWith_iff_face.mpr hy⟩
    · rw [Function.update_of_ne hne] at hr
      obtain ⟨uv₀, hr₀, hu⟩ := Option.map_eq_some_iff.mp hr.symm
      rcases hs.rest r uv₀ hr₀ with ⟨L', a, hm⟩ | ⟨y, hy⟩
      · exact .inl ⟨L', a, (mem_pop hs hl L').mpr ⟨hm, hne⟩⟩
      · rw [closedWith_iff_face, hu, ← closedWith_iff_face] at hy
        exact .inr ⟨y, hy⟩
  white := hw ▸ hs.white

/-- The first upvalue of a thread is taken off both lists, and then freed or closed. -/
theorem Shape.pop (hs : Shape s l ring) (hl : l L = x :: tl) (hr : s.heap x.1 = some uv) :
    ∃ s₂ ring', unlinkuv { s with openupval := Function.update s.openupval L uv.nextgc } x.1 = some s₂ ∧
      LinksOnly { s with openupval := Function.update s.openupval L uv.nextgc } s₂ ∧
      ∀ o : Option (GCupval V), (∀ uv', o = some uv' → ∃ y, uv'.ClosedWith y) → ∀ root,
        Shape { s₂.write x.1 o with root := root } (Function.update l L tl) ring' := by
  have hx : x ∈ l L := hl ▸ List.mem_cons_self
  obtain ⟨r₁, r₂, hring⟩ := List.append_of_mem ((hs.mem_ring x.1).mpr ⟨L, x.2, hx⟩)
  have hlinked := hs.linked
  rw [hring, List.map_append, List.map_cons] at hlinked
  obtain ⟨s₂, h₂, hlinks, hring₂⟩ :=
    unlinkuv_spec (s := { s with openupval := Function.update s.openupval L uv.nextgc }) hlinked
  rw [← List.map_append] at hring₂
  refine ⟨s₂, r₁ ++ r₂, h₂, hlinks, fun o ho root => ?_⟩
  have hface : s₂.face = s.face := funext hlinks.face
  refine hs.remove (f := o.map GCupval.face) hl hring (fun b hb => ?_) (fun L' => ?_) ?_ ?_ hlinks.currentwhite
  · obtain ⟨uv', ho', rfl⟩ := Option.map_eq_some_iff.mp hb
    obtain ⟨y, hy⟩ := ho uv' ho'
    exact ⟨y, closedWith_iff_face.mp hy⟩
  · have hnext : s₂.nextgcOf = s.nextgcOf := hlinks.nextgcOf
    change Linked.Spells (s₂.write x.1 o).nextgcOf (s₂.openupval L') _
    rw [write_nextgcOf, hnext, hlinks.openupval]
    dsimp only
    refine Linked.Spells.update ?_ (fun hm => ?_) _
    · rcases eq_or_ne L' L with rfl | hne
      · have hsp := hs.spells L'
        rw [hl] at hsp
        have hn : s.nextgcOf x.1 = uv.nextgc := by
          rw [State.nextgcOf, hr]
          rfl
        rw [Function.update_self, Function.update_self, ← hn]
        exact hsp.2
      · rw [Function.update_of_ne hne, Function.update_of_ne hne]
        exact hs.spells L'
    · obtain ⟨y, hy, he⟩ := List.mem_map.mp hm
      exact ((mem_pop hs hl L').mp hy).2 he
  · change (s₂.write x.1 o).face = _
    rw [write_face, hface]
  · change LinkedRing.Ring (s₂.write x.1 o).nextOf (s₂.write x.1 o).prevOf _ _
    rw [write_nextOf, write_prevOf]
    refine hring₂.update ?_ _ _
    rw [List.mem_cons, not_or]
    refine ⟨Node.noConfusion, fun hm => ?_⟩
    obtain ⟨r, hm, he⟩ := List.mem_map.mp hm
    exact ((mem_unlink hring hs.nodup_ring).mp hm).2 (Node.uv.inj he)

/-- What closing does to the upvalues `m` of a thread: those from the level on are freed, if they are dead, or
keep the value of their slots; all others only get other links. -/
structure Closes (s : State V) (m : List (Ref × Slot)) (level : Slot) (s' : State V) : Prop where
  stack : s'.stack = s.stack
  currentwhite : s'.currentwhite = s.currentwhite
  closed : ∀ x ∈ m, level ≤ x.2 → ∀ uv, s.heap x.1 = some uv →
    if s.isdead uv then s'.heap x.1 = none else ∃ uv', s'.heap x.1 = some uv' ∧ uv'.ClosedWith (s.stack x.2)
  others : ∀ r, (∀ x ∈ m, level ≤ x.2 → x.1 ≠ r) → (s'.heap r).map GCupval.core = (s.heap r).map GCupval.core

/-- One round of closing. -/
theorem closeuv_round (hs : Shape s l ring) (hl : l L = x :: tl) (hlevel : level ≤ x.2) : ∃ s₃ ring',
    (∀ fuel, funcCloseuv (fuel + 1) s L level = funcCloseuv fuel s₃ L level) ∧
      Shape s₃ (Function.update l L tl) ring' ∧ Closes s [x] level s₃ := by
  obtain ⟨uv, hr, hc, hv, -⟩ := hs.openAt L x (hl ▸ List.mem_cons_self)
  have hop : s.openupval L = some x.1 := by
    have hsp := hs.spells L
    rw [hl] at hsp
    exact hsp.1
  obtain ⟨s₂, ring', h₂, hlinks, hshape⟩ := hs.pop hl hr
  obtain ⟨uv₂, hr₂, hcore⟩ := hlinks.heap_some hr
  have hc₂ : uv₂.closed = false := (congrArg GCupval.closed hcore).trans hc
  have hv₂ : uv₂.v = .slot x.2 := (congrArg GCupval.v hcore).trans hv
  have hothers (o : Option (GCupval V)) (root : Option Ref) (r : Ref) (hne : ∀ y ∈ [x], level ≤ y.2 → y.1 ≠ r) :
      (({ s₂.write x.1 o with root := root } : State V).heap r).map GCupval.core = (s.heap r).map GCupval.core := by
    have hxr : r ≠ x.1 := (hne x List.mem_cons_self hlevel).symm
    change (Function.update s₂.heap x.1 o r).map GCupval.core = _
    rw [Function.update_of_ne hxr]
    exact hlinks.heap r
  have hround (fuel : ℕ) : funcCloseuv (fuel + 1) s L level =
      let s := { s with openupval := Function.update s.openupval L uv.nextgc }
      if s.isdead uv then (funcFreeuv s x.1).bind fun s => funcCloseuv fuel s L level
      else (unlinkuv s x.1).bind fun s => (gcCloseuv s x.1).bind fun s => funcCloseuv fuel s L level := by
    rw [funcCloseuv, hop]
    dsimp only [bind, Option.bind]
    rw [hr]
    dsimp only
    rw [GCupval.slot, hv]
    exact if_neg (Nat.not_lt_of_ge hlevel)
  by_cases hd : s.isdead uv = true
  · have hfree : funcFreeuv { s with openupval := Function.update s.openupval L uv.nextgc } x.1 =
        some (s₂.free x.1) := by
      rw [funcFreeuv]
      dsimp only [bind, Option.bind]
      rw [hr]
      dsimp only
      rw [hc, if_neg (by decide), h₂]
    refine ⟨s₂.free x.1, ring', fun fuel => ?_, hshape none (fun uv' h => by cases h) s₂.root, ?_⟩
    · rw [hround]
      refine (if_pos hd).trans ?_
      rw [hfree]
      rfl
    · refine ⟨hlinks.stack, hlinks.currentwhite, fun y hy _ uv' hr' => ?_, hothers none s₂.root⟩
      obtain rfl := List.mem_singleton.mp hy
      cases hr.symm.trans hr'
      rw [if_pos hd]
      exact Function.update_self ..
  · obtain ⟨uv₃, hclose, huv₃⟩ : ∃ uv₃, gcCloseuv s₂ x.1 = some { s₂.put x.1 uv₃ with root := some x.1 } ∧
        uv₃.ClosedWith (s.stack x.2) := by
      refine ⟨{ uv₂ with
        u := .tv (s.stack x.2), v := .tv, closed := true, nextgc := s₂.root, marked := closeMarked s₂ uv₂ },
        ?_, rfl, rfl, rfl⟩
      rw [gcCloseuv]
      dsimp only [bind, Option.bind]
      rw [hr₂]
      dsimp only
      rw [State.value, hv₂, hlinks.stack]
    refine ⟨_, ring', fun fuel => ?_, hshape (some uv₃) (fun uv' h => ⟨_, Option.some.inj h ▸ huv₃⟩) (some x.1), ?_⟩
    · rw [hround]
      refine (if_neg hd).trans ?_
      rw [h₂, Option.bind_some, hclose]
      rfl
    · refine ⟨hlinks.stack, hlinks.currentwhite, fun y hy _ uv' hr' => ?_, hothers (some uv₃) (some x.1)⟩
      obtain rfl := List.mem_singleton.mp hy
      cases hr.symm.trans hr'
      rw [if_neg hd]
      exact ⟨uv₃, Function.update_self .., huv₃⟩

/-- An upvalue that only gets other links is dead if it was. -/
theorem isdead_core (hw : s'.currentwhite = s.currentwhite) (h : uv'.core = uv.core) : s'.isdead uv' = s.isdead uv := by
  have hm : uv'.core.marked = uv.core.marked := congrArg GCupval.marked h
  change uv'.marked = uv.marked at hm
  rw [State.isdead, State.isdead, State.otherwhite, State.otherwhite, hw, hm]

/-- One round, and then the others. -/
theorem Closes.cons (hnd : ((x :: tl).map Prod.fst).Nodup) (h : Closes s [x] level s₁) (h' : Closes s₁ tl level s₂) :
    Closes s (x :: tl) level s₂ where
  stack := h'.stack.trans h.stack
  currentwhite := h'.currentwhite.trans h.currentwhite
  closed y hy hlevel uv hr := by
    rw [List.map_cons, List.nodup_cons] at hnd
    rcases List.mem_cons.mp hy with rfl | hy
    · have hx := h.closed y List.mem_cons_self hlevel uv hr
      have hkeep := h'.others y.1 fun z hz _ he => hnd.1 (he ▸ List.mem_map_of_mem hz)
      split at hx
      · next hd =>
          rw [hx, Option.map_none, Option.map_eq_none_iff] at hkeep
          rwa [if_pos hd]
      · next hd =>
          obtain ⟨uv₁, hr₁, hc₁⟩ := hx
          rw [hr₁] at hkeep
          obtain ⟨uv₂, hr₂, hcore⟩ := Option.map_eq_some_iff.mp hkeep
          rw [if_neg hd]
          exact ⟨uv₂, hr₂, face_closedWith hcore hc₁⟩
    · have hne : x.1 ≠ y.1 := fun he => hnd.1 (he ▸ List.mem_map_of_mem hy)
      have hkeep := h.others y.1 fun z hz _ => by
        rw [List.mem_singleton.mp hz]
        exact hne
      rw [hr] at hkeep
      obtain ⟨uv₁, hr₁, hcore⟩ := Option.map_eq_some_iff.mp hkeep
      have hy := h'.closed y hy hlevel uv₁ hr₁
      rwa [isdead_core h.currentwhite hcore, h.stack] at hy
  others r hne := by
    rw [h'.others r fun y hy => hne y (List.mem_cons_of_mem _ hy)]
    refine h.others r fun y hy => ?_
    rw [List.mem_singleton.mp hy]
    exact hne x List.mem_cons_self

/-- Closing takes the upvalues from the level on off the lists. -/
theorem funcCloseuv_spec (L : Thread) (level : Slot) {m : List (Ref × Slot)} : ∀ {s : State V} {l : Thread → List (Ref × Slot)} {ring : List Ref},
    Shape s l ring → l L = m → ∃ s' ring', (∀ fuel > m.length, funcCloseuv fuel s L level = some s') ∧
      Shape s' (Function.update l L (m.filter fun x => x.2 < level)) ring' ∧ Closes s m level s' := by
  induction m with
  | nil =>
      intro s l ring hs hl
      have hop : s.openupval L = none := by
        have hsp := hs.spells L
        rw [hl] at hsp
        exact hsp
      have hnil : Function.update l L [] = l := by
        rw [← hl, Function.update_eq_self]
      refine ⟨s, ring, fun fuel hfuel => ?_, ?_, rfl, rfl, nofun, fun _ _ => rfl⟩
      · obtain ⟨fuel, rfl⟩ := Nat.exists_eq_add_of_lt hfuel
        rw [funcCloseuv, hop]
      · rw [List.filter_nil, hnil]
        exact hs
  | cons x m ih =>
      intro s l ring hs hl
      have hsorted := hs.sorted L
      rw [hl, List.pairwise_cons] at hsorted
      rcases Nat.lt_or_ge x.2 level with hlt | hge
      · obtain ⟨uv, hr, -, hv, -⟩ := hs.openAt L x (hl ▸ List.mem_cons_self)
        have hop : s.openupval L = some x.1 := by
          have hsp := hs.spells L
          rw [hl] at hsp
          exact hsp.1
        have hlow : ∀ y ∈ x :: m, y.2 < level := by
          intro y hy
          rcases List.mem_cons.mp hy with rfl | hy
          · exact hlt
          · exact (hsorted.1 y hy).trans hlt
        refine ⟨s, ring, fun fuel hfuel => ?_, ?_, rfl, rfl,
          fun y hy hle => absurd (hlow y hy) (Nat.not_lt_of_ge hle), fun _ _ => rfl⟩
        · obtain ⟨fuel, rfl⟩ := Nat.exists_eq_add_of_lt hfuel
          rw [funcCloseuv, hop]
          dsimp only [bind, Option.bind]
          rw [hr]
          dsimp only
          rw [GCupval.slot, hv]
          exact if_pos hlt
        · rw [List.filter_eq_self.mpr fun y hy => decide_eq_true (hlow y hy), ← hl, Function.update_eq_self]
          exact hs
      · obtain ⟨s₃, ring₃, hround, hs₃, hclose⟩ := closeuv_round hs hl hge
        obtain ⟨s', ring', hf, hs', hcloses⟩ := ih hs₃ (Function.update_self ..)
        refine ⟨s', ring', fun fuel hfuel => ?_, ?_, hclose.cons ?_ hcloses⟩
        · obtain ⟨k, rfl⟩ : ∃ k, fuel = k + 1 := ⟨fuel - 1, by lia⟩
          exact (hround k).trans (hf k (Nat.lt_of_succ_lt_succ hfuel))
        · rw [Function.update_idem] at hs'
          rw [List.filter_cons_of_neg (by rw [decide_eq_true_eq]; exact Nat.not_lt_of_ge hge)]
          exact hs'
        · rw [← hl]
          exact (hs.spells L).nodup

end Closeuv

/-! ### New functions -/

/-- `v & PROTO_UV_LOCAL`. -/
def IsLocal (v : BitVec 16) : Prop := v.setWidth 32 &&& protoUvLocal ≠ 0

/-- The slot of a local variable. -/
def localSlot (base : Slot) (v : BitVec 16) : Slot := base + (v.setWidth 32 &&& 0xff#32).toNat

section NewL

variable {l l₁ l₂ : Thread → List (Ref × Slot)} {ring : List Ref} {news news' : List Ref}

theorem Extends.trans (h : Extends s l news s₁ l₁) (h' : Extends s₁ l₁ news' s₂ l₂) :
    Extends s l (news ++ news') s₂ l₂ where
  keeps L x hx := h'.keeps L x (h.keeps L x hx)
  stack := h'.stack.trans h.stack
  free r hr hfree := by
    rw [List.mem_append, not_or] at hr
    exact h'.free r hr.2 (h.free r hr.1 hfree)
  alive r hr := h'.alive r (h.alive r hr)

/-- The upvalue of a local variable in a new function. -/
theorem newLocal_spec (hs : Shape s l ring) (L : Thread) (slot : Slot) (hnew : s.heap new = none) (immutable : Bool)
    (dhash : BitVec 32) : ∃ s₁ r uv l' ring', (∀ fuel > (l L).length, funcFinduv fuel s L slot new = some (s₁, r)) ∧
      s₁.heap r = some uv ∧ Shape (s₁.put r { uv with immutable := immutable, dhash := dhash }) l' ring' ∧
      Extends s l [new] (s₁.put r { uv with immutable := immutable, dhash := dhash }) l' ∧ (r, slot) ∈ l' L ∧
      (s₁.put r { uv with immutable := immutable, dhash := dhash }).Alive r := by
  obtain ⟨s₁, r, l', ring', hf, hs₁, hext, hm, uv, hr, hd⟩ := funcFinduv_spec hs L slot hnew
  have halive : (s₁.put r { uv with immutable := immutable, dhash := dhash }).Alive r :=
    ⟨_, Function.update_self .., hd⟩
  refine ⟨s₁, r, uv, l', ring', hf, hr, hs₁.put_marks hr rfl rfl rfl rfl,
    ⟨hext.keeps, hext.stack, fun r' hr' hfree => ?_, fun r' hr' => ?_⟩, hm, halive⟩
  · have hfree₁ := hext.free r' hr' hfree
    have hne : r' ≠ r := by
      rintro rfl
      rw [hr] at hfree₁
      cases hfree₁
    exact (Function.update_of_ne hne ..).trans hfree₁
  · rcases eq_or_ne r' r with rfl | hne
    · exact halive
    · obtain ⟨uv', hr₁, hd₁⟩ := hext.alive r' hr'
      exact ⟨uv', (Function.update_of_ne hne ..).trans hr₁, hd₁⟩

/-- The upvalues of a new function. -/
theorem newLUpvals_spec (L : Thread) (base : Slot) (pc : BitVec 32) (puv : List Ref)
    {uvs : List (BitVec 16 × Ref)} : ∀ {s : State V} {l : Thread → List (Ref × Slot)} {ring : List Ref},
    Shape s l ring → (uvs.map Prod.snd).Nodup → (∀ e ∈ uvs, s.heap e.2 = none) →
    (∀ e ∈ uvs, e.1.setWidth 32 &&& protoUvLocal = 0 → e.1.toNat < puv.length) →
    ∃ s' rs l' ring', (∃ n, ∀ fuel ≥ n, newLUpvals fuel L base pc puv uvs s = some (s', rs)) ∧ Shape s' l' ring' ∧
      Extends s l (uvs.map Prod.snd) s' l' ∧ ∀ (i : ℕ) e r, uvs[i]? = some e → IsLocal e.1 → rs[i]? = some r →
        (r, localSlot base e.1) ∈ l' L ∧ s'.Alive r := by
  induction uvs with
  | nil =>
      intro s l ring hs _ _ _
      exact ⟨s, [], l, ring, ⟨0, fun _ _ => rfl⟩, hs, Extends.refl .., nofun⟩
  | cons e uvs ih =>
      intro s l ring hs hnd hfree hpuv
      obtain ⟨v, new⟩ := e
      rw [List.map_cons, List.nodup_cons] at hnd
      have hrest : ∀ e ∈ uvs, e.2 ∉ [new] := fun e he hm =>
        hnd.1 (List.mem_map.mpr ⟨e, he, List.mem_singleton.mp hm⟩)
      by_cases hlocal : IsLocal v
      · obtain ⟨s₁, r, uv, l₁, ring₁, hf, hr, hs₁, hext, hmem, halive⟩ :=
          newLocal_spec hs L (localSlot base v) (hfree _ List.mem_cons_self)
            ((v.setWidth 32 / protoUvImmutable) &&& 1 != 0) (pc ^^^ v.setWidth 32 <<< 24)
        obtain ⟨s', rs, l', ring', ⟨n, hn⟩, hs', hext', hrs⟩ := ih hs₁ hnd.2
          (fun e he => hext.free e.2 (hrest e he) (hfree e (List.mem_cons_of_mem _ he)))
          (fun e he => hpuv e (List.mem_cons_of_mem _ he))
        refine ⟨s', r :: rs, l', ring', ⟨max n ((l L).length + 1), fun fuel hfuel => ?_⟩, hs', hext.trans hext', ?_⟩
        · have h1 : (l L).length < fuel := by lia
          have h2 : n ≤ fuel := by lia
          have hcond : v.setWidth 32 &&& protoUvLocal ≠ 0 := hlocal
          have hf' : funcFinduv fuel s L (base + (v.setWidth 32 &&& 0xff#32).toNat) new = some (s₁, r) := hf fuel h1
          rw [newLUpvals]
          dsimp only [bind, Option.bind]
          rw [if_pos hcond, hf']
          dsimp only
          rw [hr]
          dsimp only
          rw [hn fuel h2]
        · intro i e r' hi hl hr'
          cases i with
          | zero =>
              cases hi
              cases hr'
              exact ⟨hext'.keeps L _ hmem, hext'.alive r halive⟩
          | succ i => exact hrs i e r' hi hl hr'
      · have hzero : v.setWidth 32 &&& protoUvLocal = 0 := not_not.mp hlocal
        have hlt : (v.setWidth 32).toNat < puv.length := by
          rw [BitVec.toNat_setWidth_of_le (by decide)]
          exact hpuv _ List.mem_cons_self hzero
        obtain ⟨s', rs, l', ring', ⟨n, hn⟩, hs', hext', hrs⟩ := ih hs hnd.2
          (fun e he => hfree e (List.mem_cons_of_mem _ he)) (fun e he => hpuv e (List.mem_cons_of_mem _ he))
        refine ⟨s', puv[(v.setWidth 32).toNat] :: rs, l', ring', ⟨n, fun fuel hfuel => ?_⟩, hs',
          (Extends.refl s l [new]).trans hext', ?_⟩
        · rw [newLUpvals]
          dsimp only [bind, Option.bind]
          rw [if_neg (not_not.mpr hzero), List.getElem?_eq_getElem hlt]
          dsimp only
          rw [hn fuel hfuel]
        · intro i e r' hi hl hr'
          cases i with
          | zero =>
              cases hi
              exact absurd hl hlocal
          | succ i => exact hrs i e r' hi hl hr'

end NewL

/-! ### Steps and runs -/

/-- A step gives the upvalue `r` for a slot of a thread: it is the result of a search, or an upvalue of a new
function for a local variable in the slot. -/
def Gives (op : Op V) (rs : List Ref) (L : Thread) (slot : Slot) (r : Ref) : Prop :=
  match op with
  | .finduv L' slot' _ => L' = L ∧ slot' = slot ∧ rs = [r]
  | .newL L' base _ _ uvs => L' = L ∧ ∃ (i : ℕ) (e : BitVec 16 × Ref),
      uvs[i]? = some e ∧ IsLocal e.1 ∧ localSlot base e.1 = slot ∧ rs[i]? = some r
  | _ => False

/-- A step ends the life of a slot. -/
def Op.Closes (op : Op V) (L : Thread) (slot : Slot) : Prop :=
  match op with
  | .closeuv L' level => L' = L ∧ level ≤ slot
  | _ => False

/-- Runs of steps with a property. -/
inductive Run (P : Op V → Prop) : State V → State V → Prop
  | refl (s : State V) : Run P s s
  | step {s s₁ s₂ : State V} {op : Op V} {rs : List Ref} : Run P s s₁ → P op → Step s₁ op rs s₂ → Run P s s₂

section Steps

variable {l : Thread → List (Ref × Slot)} {ring : List Ref} {op : Op V} {rs : List Ref}

/-- **Every step ends** and keeps the lists: upvalues stay on them, unless they are closed, and those that the step
gives are on them and not condemned. -/
theorem exec_spec (hs : Shape s l ring) (hv : op.Valid s) : ∃ s' rs l' ring',
    (∃ n, ∀ fuel ≥ n, op.exec fuel s = some (s', rs)) ∧ Shape s' l' ring' ∧
      (∀ L x, x ∈ l L → ¬op.Closes L x.2 → x ∈ l' L) ∧
      ∀ L slot r, Gives op rs L slot r → (r, slot) ∈ l' L ∧ s'.Alive r := by
  cases op with
  | finduv L slot new =>
      obtain ⟨s', r, l', ring', hf, hs', hext, hm, halive⟩ := funcFinduv_spec hs L slot hv
      refine ⟨s', [r], l', ring', ⟨(l L).length + 1, fun fuel hfuel => ?_⟩, hs', fun L' x hx _ => hext.keeps L' x hx, ?_⟩
      · rw [Op.exec, hf fuel hfuel]
        rfl
      · rintro L' slot' r' ⟨rfl, rfl, he⟩
        cases he
        exact ⟨hm, halive⟩
  | newL L base pc puv uvs =>
      obtain ⟨hnd, hfree, hpuv⟩ := hv
      obtain ⟨s', rs, l', ring', hf, hs', hext, hrs⟩ := newLUpvals_spec L base pc puv hs hnd hfree hpuv
      refine ⟨s', rs, l', ring', hf, hs', fun L' x hx _ => hext.keeps L' x hx, ?_⟩
      rintro L' slot r ⟨rfl, i, e, hi, hl, rfl, hr⟩
      exact hrs i e r hi hl hr
  | closeuv L level =>
      obtain ⟨s', ring', hf, hs', -⟩ := funcCloseuv_spec L level hs rfl
      refine ⟨s', [], _, ring', ⟨(l L).length + 1, fun fuel hfuel => ?_⟩, hs', fun L' x hx hc => ?_,
        fun _ _ _ h => False.elim h⟩
      · rw [Op.exec, hf fuel hfuel]
        rfl
      · rcases eq_or_ne L' L with rfl | hne
        · rw [Function.update_self, List.mem_filter, decide_eq_true_eq]
          exact ⟨hx, Nat.lt_of_not_le fun hle => hc ⟨rfl, hle⟩⟩
        · rwa [Function.update_of_ne hne]
  | gc marked currentwhite gcstate root =>
      exact ⟨_, [], l, ring, ⟨0, fun _ _ => rfl⟩, hs.recolor marked hv gcstate root, fun _ _ hx _ => hx,
        fun _ _ _ h => False.elim h⟩
  | store a x =>
      refine ⟨_, [], l, ring, ⟨0, fun _ _ => rfl⟩, ?_, fun _ _ hx _ => hx, fun _ _ _ h => False.elim h⟩
      exact hs.transfer rfl rfl (fun _ => rfl) hs.linked hs.white

/-- What a step does with enough fuel is determined. -/
theorem step_unique (h : Step s op rs s') {s₁ : State V} {rs₁ : List Ref}
    (h₁ : ∃ n, ∀ fuel ≥ n, op.exec fuel s = some (s₁, rs₁)) : s₁ = s' ∧ rs₁ = rs := by
  obtain ⟨-, n, hn⟩ := h
  obtain ⟨n₁, hn₁⟩ := h₁
  have he := (hn₁ (max n n₁) (Nat.le_max_right ..)).symm.trans (hn (max n n₁) (Nat.le_max_left ..))
  cases he
  exact ⟨rfl, rfl⟩

/-- A step keeps the lists. -/
theorem step_shape (hs : Shape s l ring) (h : Step s op rs s') : ∃ l' ring', Shape s' l' ring' ∧
    (∀ L x, x ∈ l L → ¬op.Closes L x.2 → x ∈ l' L) ∧
    ∀ L slot r, Gives op rs L slot r → (r, slot) ∈ l' L ∧ s'.Alive r := by
  obtain ⟨s₁, rs₁, l', ring', hf, hs₁, hkeep, hgive⟩ := exec_spec hs h.1
  obtain ⟨rfl, rfl⟩ := step_unique h hf
  exact ⟨l', ring', hs₁, hkeep, hgive⟩

/-- A run keeps the lists, and an upvalue as long as its slot lives. -/
theorem run_shape {P : Op V → Prop} (hrun : Run P s s') : ∀ {l : Thread → List (Ref × Slot)} {ring : List Ref},
    Shape s l ring → ∃ l' ring', Shape s' l' ring' ∧
      ∀ L x, x ∈ l L → (∀ op, P op → ¬op.Closes L x.2) → x ∈ l' L := by
  induction hrun with
  | refl => exact fun hs => ⟨_, _, hs, fun _ _ hx _ => hx⟩
  | step _ hP hstep ih =>
      intro l ring hs
      obtain ⟨l₁, ring₁, hs₁, hkeep₁⟩ := ih hs
      obtain ⟨l₂, ring₂, hs₂, hkeep₂, -⟩ := step_shape hs₁ hstep
      exact ⟨l₂, ring₂, hs₂, fun L x hx hnc => hkeep₂ L x (hkeep₁ L x hx hnc) (hnc _ hP)⟩

/-- There is one upvalue for a slot of a thread. -/
theorem Shape.slot_unique (hs : Shape s l ring) {L : Thread} {r r' : Ref} {slot : Slot} (h : (r, slot) ∈ l L)
    (h' : (r', slot) ∈ l L) : r' = r := by
  have hne : (l L).Pairwise fun x y => x.2 ≠ y.2 := (hs.sorted L).imp Nat.ne_of_gt
  have : Std.Symm fun x y : Ref × Slot => x.2 ≠ y.2 := ⟨fun _ _ h => h.symm⟩
  by_contra hrr
  exact hne.forall h' h (fun he => hrr (Prod.mk.inj he).1) rfl

/-- A new function gets the upvalue that there is for a live slot. -/
theorem gives_shared {L : Thread} {slot : Slot} {r r' : Ref} {s₃ : State V} {op' : Op V} {rs' : List Ref}
    (hs : Shape s l ring) (h : (r, slot) ∈ l L) (hrun : Run (fun op => ¬op.Closes L slot) s s₂)
    (hstep : Step s₂ op' rs' s₃) (hg : Gives op' rs' L slot r') : r' = r := by
  obtain ⟨l₂, ring₂, hs₂, hkeep₂⟩ := run_shape hrun hs
  obtain ⟨l₃, ring₃, hs₃, hkeep₃, hgive⟩ := step_shape hs₂ hstep
  have hnc : ¬op'.Closes L slot := by
    cases op' with
    | closeuv L' level => exact False.elim hg
    | finduv _ _ _ => exact id
    | newL _ _ _ _ _ => exact id
    | gc _ _ _ _ => exact id
    | store _ _ => exact id
  exact hs₃.slot_unique (hkeep₃ L _ (hkeep₂ L _ h fun _ hP => hP) hnc) (hgive L slot r' hg).1

/-- **The lists of the open upvalues, in every run.**  The list of every thread is sorted by descending slots and
the ring is made up of the open upvalues; every step ends; closing closes or frees exactly the upvalues from the
level on, which keep the values of their slots; the upvalue that a step gives for a slot is not condemned, and
as long as the slot lives later steps give the same one. -/
theorem openupval_sound (stack : Slot → V) (hrun : Run (fun _ => True) (initial stack) s) :
    ∃ l ring, Shape s l ring ∧ (∀ r, r ∈ ring ↔ ∃ a, s.OpenAt r a) ∧
      (∀ op : Op V, op.Valid s → ∃ rs s', Step s op rs s') ∧
      (∀ L level rs s', Step s (.closeuv L level) rs s' → Closes s (l L) level s' ∧
        ∃ ring', Shape s' (Function.update l L ((l L).filter fun x => x.2 < level)) ring') ∧
      ∀ op rs s₁ L slot r, Step s op rs s₁ → Gives op rs L slot r → s₁.Alive r ∧
        ∀ s₂ op' rs' s₃ r', Run (fun op => ¬op.Closes L slot) s₁ s₂ → Step s₂ op' rs' s₃ →
          Gives op' rs' L slot r' → r' = r := by
  obtain ⟨l, ring, hs, -⟩ := run_shape hrun (shape_initial stack)
  refine ⟨l, ring, hs, fun r => ?_, fun op hv => ?_, fun L level rs s' hstep => ?_, ?_⟩
  · rw [hs.mem_ring]
    constructor
    · rintro ⟨L, a, hm⟩
      exact ⟨a, hs.openAt L _ hm⟩
    · rintro ⟨a, ha⟩
      obtain ⟨L, hm⟩ := hs.openAt_iff.mp ha
      exact ⟨L, a, hm⟩
  · obtain ⟨s', rs, -, -, hf, -⟩ := exec_spec hs hv
    exact ⟨rs, s', hv, hf⟩
  · obtain ⟨s₁, ring', hf, hs₁, hcloses⟩ := funcCloseuv_spec L level hs rfl
    have hexec : ∃ n, ∀ fuel ≥ n, (Op.closeuv L level).exec fuel s = some (s₁, []) :=
      ⟨(l L).length + 1, fun fuel hfuel => by rw [Op.exec, hf fuel hfuel]; rfl⟩
    obtain ⟨rfl, -⟩ := step_unique hstep hexec
    exact ⟨hcloses, ring', hs₁⟩
  · intro op rs s₁ L slot r hstep hg
    obtain ⟨l₁, ring₁, hs₁, -, hgive⟩ := step_shape hs hstep
    obtain ⟨hm, halive⟩ := hgive L slot r hg
    exact ⟨halive, fun s₂ op' rs' s₃ r' hrun' hstep' hg' => gives_shared hs₁ hm hrun' hstep' hg'⟩

end Steps

/-- The upvalue of slot 5 of a thread is made, and then all upvalues are condemned. -/
theorem openupval_sound_condemned : ∃ s : State ℕ, Run (fun _ => True) (initial fun a => a) s ∧
    ∃ l ring, Shape s l ring := by
  have hnew : ∃ n, ∀ fuel ≥ n, (Op.finduv 0 5 100).exec fuel (initial fun a : ℕ => a) = _ :=
    ⟨1, fun fuel hfuel => by
      obtain ⟨k, rfl⟩ : ∃ k, fuel = k + 1 := ⟨fuel - 1, by lia⟩
      rfl⟩
  have hvalid : (Op.finduv 0 5 100).Valid (initial fun a : ℕ => a) := rfl
  have hwhite : OneWhite 0x22#8 := .inr (by decide)
  have hrun : Run (fun _ => True) (initial fun a : ℕ => a) _ :=
    ((Run.refl _).step trivial ⟨hvalid, hnew⟩).step trivial
      (show Step _ (.gc (fun _ => 0x01#8) 0x22#8 .atomic none) _ _ from ⟨hwhite, 0, fun _ _ => rfl⟩)
  obtain ⟨l, ring, hs, -⟩ := openupval_sound _ hrun
  exact ⟨_, hrun, l, ring, hs⟩

end Upval
