/-
**Linked chains.**

A set of nodes linked by a partial successor function, as the collision chains of a hash table
are.  Chains are *linear* when no two nodes share a successor and no node is reachable from its own
successor.  The operations that relink chains are studied only through the reachability relation:
which nodes can be found by following links from which others.

Main definitions:

* `Chain.Reach` — reachability along the links;
* `Chain.Linear` — the chains neither join nor close;
* `Chain.Isolated` — a node outside every chain;
* `Chain.insertAfter`, `Chain.unlinkAfter`, `Chain.rename` — relinking;
* `Chain.walk` — the search loop: the first node of a chain that satisfies a test;
* `Chain.sift` — the loop that moves the nodes satisfying a test from one chain to another.

Main results:

* `Chain.reach_insertAfter_iff`, `Chain.reach_unlinkAfter_iff`, `Chain.reach_rename_iff` — what
  relinking does to reachability;
* `Chain.walk_spec` — **the search loop ends** and returns the first hit;
* `Chain.sift_spec` — **the moving loop ends**, moves exactly the nodes that satisfy the test, and
  does not change reachability between the others.
-/

import Mathlib

set_option relaxedAutoImplicit false
set_option autoImplicit false

namespace Chain

variable {α : Type*}

/-- `b` is the successor of `a`. -/
def Link (next : α → Option α) (a b : α) : Prop := next a = some b

/-- `b` is found by following links from `a`. -/
def Reach (next : α → Option α) : α → α → Prop := Relation.ReflTransGen (Link next)

/-- The chains neither join nor close. -/
structure Linear (next : α → Option α) : Prop where
  inj : ∀ a b c, next a = some c → next b = some c → a = b
  acyclic : ∀ a b, next a = some b → ¬ Reach next b a

/-- The node `f` is in no chain. -/
def Isolated (next : α → Option α) (f : α) : Prop := next f = none ∧ ∀ a, next a ≠ some f

section Reach

variable {next : α → Option α} {a b c : α}

theorem Reach.refl (next : α → Option α) (a : α) : Reach next a a := Relation.ReflTransGen.refl

theorem Reach.trans (h : Reach next a b) (h' : Reach next b c) : Reach next a c :=
  Relation.ReflTransGen.trans h h'

theorem Reach.single (h : next a = some b) : Reach next a b := Relation.ReflTransGen.single h

theorem Reach.cases_head (h : Reach next a c) : a = c ∨ ∃ b, next a = some b ∧ Reach next b c :=
  Relation.ReflTransGen.cases_head h

theorem Reach.cases_tail (h : Reach next a c) : a = c ∨ ∃ b, Reach next a b ∧ next b = some c := by
  rcases Relation.ReflTransGen.cases_tail h with h | ⟨b, hb, hbc⟩
  · exact .inl h.symm
  · exact .inr ⟨b, hb, hbc⟩

theorem Reach.eq_of_none (h : Reach next a b) (ha : next a = none) : b = a := by
  rcases h.cases_head with h | ⟨c, hc, _⟩
  · exact h.symm
  · simp [ha] at hc

theorem Reach.eq_of_no_pred (h : Reach next a b) (hb : ∀ c, next c ≠ some b) : a = b := by
  rcases h.cases_tail with h | ⟨c, _, hc⟩
  · exact h
  · exact absurd hc (hb c)

theorem Isolated.eq_of_reach (h : Isolated next a) (hr : Reach next a b) : b = a :=
  hr.eq_of_none h.1

theorem Isolated.eq_of_reach' (h : Isolated next b) (hr : Reach next a b) : a = b :=
  hr.eq_of_no_pred h.2

theorem Linear.antisymm (hl : Linear next) (h : Reach next a b) (h' : Reach next b a) :
    a = b := by
  rcases h.cases_head with h | ⟨c, hc, hcb⟩
  · exact h
  · exact absurd (hcb.trans h') (hl.acyclic a c hc)

theorem Linear.ne_next (hl : Linear next) (h : next a = some b) : a ≠ b := by
  rintro rfl
  exact hl.acyclic a a h (Reach.refl _ _)

end Reach

/-! ### Relinking -/

section Relink

variable [DecidableEq α]

/-- Insert `f` behind `n`. -/
@[grind =]
def insertAfter (next : α → Option α) (n f : α) : α → Option α :=
  Function.update (Function.update next f (next n)) n (some f)

/-- Take `q`, the successor of `p`, out of its chain. -/
def unlinkAfter (next : α → Option α) (p q : α) : α → Option α :=
  Function.update (Function.update next p (next q)) q none

variable {next : α → Option α} {n f p q a b : α}

theorem insertAfter_self (next : α → Option α) (n f : α) : insertAfter next n f n = some f := by
  simp [insertAfter]

theorem insertAfter_new (hnf : n ≠ f) : insertAfter next n f f = next n := by
  simp [insertAfter, Function.update_of_ne hnf.symm]

theorem insertAfter_of_ne (han : a ≠ n) (haf : a ≠ f) : insertAfter next n f a = next a := by
  simp [insertAfter, Function.update_of_ne han, Function.update_of_ne haf]

/-- Following links after the insertion: old nodes are reached as before, the new node where `n`
is. -/
theorem reach_of_insertAfter (hf : Isolated next f) (hnf : n ≠ f) (ha : a ≠ f)
    (h : Reach (insertAfter next n f) a b) :
    (b ≠ f → Reach next a b) ∧ (b = f → Reach next a n) := by
  induction h with
  | refl => exact ⟨fun _ => Reach.refl _ _, fun h => absurd h ha⟩
  | @tail b c _ hbc ih =>
      have hbc' : insertAfter next n f b = some c := hbc
      by_cases hb : b = n
      · subst hb
        rw [insertAfter_self, Option.some.injEq] at hbc'
        subst hbc'
        exact ⟨fun h => absurd rfl h, fun _ => ih.1 hnf⟩
      · by_cases hbf : b = f
        · -- leaving the new node: the old link of `n`
          subst hbf
          rw [insertAfter_new hnf] at hbc'
          refine ⟨fun _ => (ih.2 rfl).trans (Reach.single hbc'), ?_⟩
          rintro rfl
          exact absurd hbc' (hf.2 _)
        · rw [insertAfter_of_ne hb hbf] at hbc'
          refine ⟨fun _ => (ih.1 hbf).trans (Reach.single hbc'), ?_⟩
          rintro rfl
          exact absurd hbc' (hf.2 _)

theorem reach_insertAfter (hf : Isolated next f) (hnf : n ≠ f) (h : Reach next a b) :
    Reach (insertAfter next n f) a b := by
  induction h with
  | refl => exact Reach.refl _ _
  | @tail b c _ hbc ih =>
      have hbc' : next b = some c := hbc
      have hbf : b ≠ f := by
        rintro rfl
        simp [hf.1] at hbc'
      by_cases hb : b = n
      · subst hb
        refine ih.trans ((Reach.single (insertAfter_self _ _ _)).trans (Reach.single ?_))
        rw [insertAfter_new hnf, hbc']
      · exact ih.trans (Reach.single (by rw [insertAfter_of_ne hb hbf, hbc']))

/-- Insertion does not change reachability between the other nodes. -/
theorem reach_insertAfter_iff (hf : Isolated next f) (hnf : n ≠ f) (ha : a ≠ f) (hb : b ≠ f) :
    Reach (insertAfter next n f) a b ↔ Reach next a b :=
  ⟨fun h => (reach_of_insertAfter hf hnf ha h).1 hb, reach_insertAfter hf hnf⟩

theorem reach_insertAfter_new_iff (hf : Isolated next f) (hnf : n ≠ f) (ha : a ≠ f) :
    Reach (insertAfter next n f) a f ↔ Reach next a n := by
  constructor
  · intro h
    exact (reach_of_insertAfter hf hnf ha h).2 rfl
  · intro h
    exact (reach_insertAfter hf hnf h).trans (Reach.single (insertAfter_self _ _ _))

theorem Linear.insertAfter (hl : Linear next) (hf : Isolated next f) (hnf : n ≠ f) :
    Linear (insertAfter next n f) where
  inj := by
    intro a b c ha hb
    by_cases han : a = n
    · by_cases hbn : b = n
      · rw [han, hbn]
      · subst han
        rw [insertAfter_self, Option.some.injEq] at ha
        subst ha
        by_cases hbf : b = f
        · subst hbf
          rw [insertAfter_new hnf] at hb
          exact absurd hb (hf.2 _)
        · rw [insertAfter_of_ne hbn hbf] at hb
          exact absurd hb (hf.2 _)
    · by_cases hbn : b = n
      · subst hbn
        rw [insertAfter_self, Option.some.injEq] at hb
        subst hb
        by_cases haf : a = f
        · subst haf
          rw [insertAfter_new hnf] at ha
          exact absurd ha (hf.2 _)
        · rw [insertAfter_of_ne han haf] at ha
          exact absurd ha (hf.2 _)
      · by_cases haf : a = f
        · by_cases hbf : b = f
          · rw [haf, hbf]
          · subst haf
            rw [insertAfter_new hnf] at ha
            rw [insertAfter_of_ne hbn hbf] at hb
            exact absurd (hl.inj _ _ _ ha hb).symm hbn
        · by_cases hbf : b = f
          · subst hbf
            rw [insertAfter_new hnf] at hb
            rw [insertAfter_of_ne han haf] at ha
            exact absurd (hl.inj _ _ _ ha hb) han
          · rw [insertAfter_of_ne han haf] at ha
            rw [insertAfter_of_ne hbn hbf] at hb
            exact hl.inj _ _ _ ha hb
  acyclic := by
    intro a b ha hr
    by_cases han : a = n
    · subst han
      rw [insertAfter_self, Option.some.injEq] at ha
      subst ha
      rcases hr.cases_head with h | ⟨c, hc, hca⟩
      · exact hnf h.symm
      · rw [insertAfter_new hnf] at hc
        have hcf : c ≠ f := by
          rintro rfl
          exact hf.2 _ hc
        exact hl.acyclic _ _ hc ((reach_insertAfter_iff hf hnf hcf hnf).1 hca)
    · by_cases haf : a = f
      · subst haf
        rw [insertAfter_new hnf] at ha
        have hbf : b ≠ a := by
          rintro rfl
          exact hf.2 _ ha
        exact hl.acyclic _ _ ha ((reach_insertAfter_new_iff hf hnf hbf).1 hr)
      · rw [insertAfter_of_ne han haf] at ha
        have hbf : b ≠ f := by
          rintro rfl
          exact hf.2 _ ha
        exact hl.acyclic _ _ ha ((reach_insertAfter_iff hf hnf hbf haf).1 hr)

theorem unlinkAfter_pred (hpq : p ≠ q) : unlinkAfter next p q p = next q := by
  simp [unlinkAfter, Function.update_of_ne hpq]

theorem unlinkAfter_self (next : α → Option α) (p q : α) : unlinkAfter next p q q = none := by
  simp [unlinkAfter]

theorem unlinkAfter_of_ne (hap : a ≠ p) (haq : a ≠ q) : unlinkAfter next p q a = next a := by
  simp [unlinkAfter, Function.update_of_ne hap, Function.update_of_ne haq]

theorem isolated_unlinkAfter (hl : Linear next) (hpq : next p = some q) :
    Isolated (unlinkAfter next p q) q := by
  have hne := hl.ne_next hpq
  refine ⟨unlinkAfter_self _ _ _, ?_⟩
  intro a ha
  by_cases hap : a = p
  · subst hap
    rw [unlinkAfter_pred hne] at ha
    exact hl.acyclic _ _ ha (Reach.refl _ _)
  · by_cases haq : a = q
    · subst haq
      simp [unlinkAfter_self] at ha
    · rw [unlinkAfter_of_ne hap haq] at ha
      exact hap (hl.inj _ _ _ ha hpq)

/-- Unlinking is undone by inserting again, so it inherits what is known of insertion. -/
theorem insertAfter_unlinkAfter (hl : Linear next) (hpq : next p = some q) :
    insertAfter (unlinkAfter next p q) p q = next := by
  have hne := hl.ne_next hpq
  funext a
  by_cases hap : a = p
  · subst hap
    rw [insertAfter_self, hpq]
  · by_cases haq : a = q
    · subst haq
      rw [insertAfter_new hne, unlinkAfter_pred hne]
    · rw [insertAfter_of_ne hap haq, unlinkAfter_of_ne hap haq]

/-- Unlinking does not change reachability between the other nodes. -/
theorem reach_unlinkAfter_iff (hl : Linear next) (hpq : next p = some q) (ha : a ≠ q)
    (hb : b ≠ q) : Reach (unlinkAfter next p q) a b ↔ Reach next a b := by
  have h := reach_insertAfter_iff (isolated_unlinkAfter hl hpq) (hl.ne_next hpq) ha hb
  rw [insertAfter_unlinkAfter hl hpq] at h
  exact h.symm

theorem Linear.unlinkAfter (hl : Linear next) (hpq : next p = some q) :
    Linear (unlinkAfter next p q) where
  inj := by
    intro a b c ha hb
    have hne := hl.ne_next hpq
    have hcq : c ≠ q := by
      rintro rfl
      exact (isolated_unlinkAfter hl hpq).2 _ ha
    by_cases haq : a = q
    · subst haq
      simp [unlinkAfter_self] at ha
    by_cases hbq : b = q
    · subst hbq
      simp [unlinkAfter_self] at hb
    by_cases hap : a = p
    · by_cases hbp : b = p
      · rw [hap, hbp]
      · subst hap
        rw [unlinkAfter_pred hne] at ha
        rw [unlinkAfter_of_ne hbp hbq] at hb
        exact absurd (hl.inj _ _ _ ha hb).symm hbq
    · rw [unlinkAfter_of_ne hap haq] at ha
      by_cases hbp : b = p
      · subst hbp
        rw [unlinkAfter_pred hne] at hb
        exact absurd (hl.inj _ _ _ ha hb) haq
      · rw [unlinkAfter_of_ne hbp hbq] at hb
        exact hl.inj _ _ _ ha hb
  acyclic := by
    intro a b ha hr
    have hne := hl.ne_next hpq
    have hiso := isolated_unlinkAfter hl hpq
    have haq : a ≠ q := by
      rintro rfl
      simp [unlinkAfter_self] at ha
    have hbq : b ≠ q := by
      rintro rfl
      exact hiso.2 _ ha
    have hr' := (reach_unlinkAfter_iff hl hpq hbq haq).1 hr
    by_cases hap : a = p
    · subst hap
      rw [unlinkAfter_pred hne] at ha
      exact hl.acyclic _ _ hpq ((Reach.single ha).trans hr')
    · rw [unlinkAfter_of_ne hap haq] at ha
      exact hl.acyclic _ _ ha hr'

/-- Move the successor `q` of `p` behind `n`. -/
def moveAfter (next : α → Option α) (p q n : α) : α → Option α :=
  insertAfter (unlinkAfter next p q) n q

end Relink

section Rename

variable {next : α → Option α} {a b : α}

/-- The chains with their nodes renamed. -/
def rename (e : Equiv.Perm α) (next : α → Option α) (a : α) : Option α :=
  (next (e.symm a)).map e

theorem rename_eq_some_iff {e : Equiv.Perm α} :
    rename e next a = some b ↔ next (e.symm a) = some (e.symm b) := by
  rw [rename, Option.map_eq_some_iff]
  constructor
  · rintro ⟨c, hc, rfl⟩
    simpa using hc
  · intro h
    exact ⟨_, h, by simp⟩

theorem reach_rename_iff {e : Equiv.Perm α} :
    Reach (rename e next) a b ↔ Reach next (e.symm a) (e.symm b) := by
  constructor
  · intro h
    refine Relation.ReflTransGen.lift e.symm ?_ _ _ h
    intro x y hxy
    exact rename_eq_some_iff.1 hxy
  · intro h
    have hlink : ∀ x y, Link next x y → Link (rename e next) (e x) (e y) := by
      intro x y hxy
      refine rename_eq_some_iff.2 ?_
      rw [e.symm_apply_apply, e.symm_apply_apply]
      exact hxy
    have h' : Reach (rename e next) (e (e.symm a)) (e (e.symm b)) :=
      Relation.ReflTransGen.lift e hlink _ _ h
    simpa using h'

theorem Linear.rename (hl : Linear next) (e : Equiv.Perm α) : Linear (rename e next) where
  inj := by
    intro a b c ha hb
    rw [rename_eq_some_iff] at ha hb
    exact e.symm.injective (hl.inj _ _ _ ha hb)
  acyclic := by
    intro a b ha hr
    rw [rename_eq_some_iff] at ha
    rw [reach_rename_iff] at hr
    exact hl.acyclic _ _ ha hr

end Rename

/-! ### Search loops -/

/-- The nodes of `s` that a node reaches. -/
noncomputable def reachSet (next : α → Option α) (s : Finset α) (a : α) : Finset α :=
  open Classical in s.filter (Reach next a)

section Search

variable {next : α → Option α} {s : Finset α} {a b : α}

/-- No link leaves the set. -/
def Closed (next : α → Option α) (s : Finset α) : Prop := ∀ a b, next a = some b → b ∈ s

theorem card_reachSet_le (next : α → Option α) (s : Finset α) (a : α) :
    (reachSet next s a).card ≤ s.card := by
  classical
  exact Finset.card_filter_le _ _

theorem card_reachSet_pos (ha : a ∈ s) : 0 < (reachSet next s a).card := by
  classical
  refine Finset.card_pos.2 ⟨a, ?_⟩
  simp [reachSet, ha, Reach.refl]

theorem card_reachSet_lt (hl : Linear next) (ha : a ∈ s) (hab : next a = some b) :
    (reachSet next s b).card < (reachSet next s a).card := by
  classical
  refine Finset.card_lt_card (Finset.ssubset_iff_subset_ne.2 ⟨?_, ?_⟩)
  · intro c hc
    simp only [reachSet, Finset.mem_filter] at hc ⊢
    exact ⟨hc.1, (Reach.single hab).trans hc.2⟩
  · intro heq
    have hmem : a ∈ reachSet next s a := by simp [reachSet, ha, Reach.refl]
    rw [← heq] at hmem
    simp only [reachSet, Finset.mem_filter] at hmem
    exact hl.acyclic _ _ hab hmem.2

/-- Follow the links from a node to the first one that passes the test; `none` when the fuel runs
out. -/
def walk (next : α → Option α) (test : α → Bool) : ℕ → α → Option (Option α)
  | 0, _ => none
  | fuel + 1, a =>
    if test a then some (some a)
    else match next a with
      | none => some none
      | some b => walk next test fuel b

/-- What the search loop returns: the first hit of the chain, if there is one. -/
def FirstHit (next : α → Option α) (test : α → Bool) (a : α) : Option α → Prop
  | none => ∀ b, Reach next a b → test b = false
  | some c => Reach next a c ∧ test c = true ∧ ∀ b, Reach next a b → test b = true → Reach next c b

/-- The search loop ends and returns the first hit. -/
theorem walk_spec (hl : Linear next) (hc : Closed next s) (test : α → Bool) {fuel : ℕ}
    (ha : a ∈ s) (hfuel : (reachSet next s a).card ≤ fuel) :
    ∃ r, walk next test fuel a = some r ∧ FirstHit next test a r := by
  induction fuel generalizing a with
  | zero =>
      have hpos : 0 < (reachSet next s a).card := card_reachSet_pos ha
      omega
  | succ fuel ih =>
      rw [walk]
      by_cases ht : test a = true
      · refine ⟨some a, by simp [ht], Reach.refl _ _, ht, ?_⟩
        intro b hb _
        exact hb
      · cases hn : next a with
        | none =>
            refine ⟨none, by simp [ht], ?_⟩
            intro b hb
            rw [hb.eq_of_none hn]
            simpa using ht
        | some b =>
            have hlt := card_reachSet_lt hl ha hn
            obtain ⟨r, hr, hhit⟩ := ih (hc _ _ hn) (by omega)
            refine ⟨r, by simpa [ht] using hr, ?_⟩
            cases r with
            | none =>
                intro c hac
                rcases hac.cases_head with rfl | ⟨b', hb', hbc⟩
                · simpa using ht
                · obtain rfl : b = b' := Option.some_injective _ (hn.symm.trans hb')
                  exact hhit c hbc
            | some d =>
                obtain ⟨hbd, htd, hfirst⟩ := hhit
                refine ⟨(Reach.single hn).trans hbd, htd, ?_⟩
                intro c hac htc
                rcases hac.cases_head with rfl | ⟨b', hb', hbc⟩
                · exact absurd htc ht
                · obtain rfl : b = b' := Option.some_injective _ (hn.symm.trans hb')
                  exact hfirst c hbc htc

end Search

/-! ### Moving nodes to another chain -/

section Sift

variable [DecidableEq α]

/-- Walk the chain behind `p` and move every node that passes the test behind `n`; `none` when the
fuel runs out. -/
@[grind =]
def sift (test : α → Bool) (n : α) : ℕ → (α → Option α) → α → Option (α → Option α)
  | 0, _, _ => none
  | fuel + 1, next, p =>
    match next p with
    | none => some next
    | some q =>
      if test q then sift test n fuel (moveAfter next p q n) p
      else sift test n fuel next q

/-- The nodes that the loop moves: those behind `f` that pass the test. -/
def Sifted (next : α → Option α) (test : α → Bool) (f b : α) : Prop :=
  Reach next f b ∧ b ≠ f ∧ test b = true

variable {next : α → Option α} {test : α → Bool} {n f p q : α} {s : Finset α}

/-- What holds whenever the moving loop is at the node `p`: the nodes in `moved` are behind `n`,
everything else is linked as at the start, and what remains to be moved is behind `p`. -/
structure SiftInv (next₀ next : α → Option α) (test : α → Bool) (n f p : α) (s : Finset α)
    (moved : Set α) : Prop where
  linear : Linear next
  closed : Closed next s
  mem : p ∈ s
  noPred : ∀ a, next a ≠ some n
  reach_iff : ∀ a b, a ∉ moved → b ∉ moved → (Reach next a b ↔ Reach next₀ a b)
  reach_moved : ∀ b ∈ moved, Reach next n b
  sifted : ∀ b ∈ moved, Sifted next₀ test f b
  not_mem : n ∉ moved
  cursor : p ∉ moved
  reach_cursor : Reach next f p
  ne_cursor : p ≠ n
  rest : ∀ b, Sifted next₀ test f b → b ∉ moved → Reach next p b ∧ b ≠ p

namespace SiftInv

variable {next₀ : α → Option α} {moved : Set α}

omit [DecidableEq α] in
theorem start (hl : Linear next) (hc : Closed next s) (hn : Isolated next n) (hf : f ∈ s)
    (hfn : f ≠ n) : SiftInv next next test n f f s ∅ where
  linear := hl
  closed := hc
  mem := hf
  noPred := hn.2
  reach_iff _ _ _ _ := Iff.rfl
  reach_moved _ hb := absurd hb (Set.notMem_empty _)
  sifted _ hb := absurd hb (Set.notMem_empty _)
  not_mem := Set.notMem_empty _
  cursor := Set.notMem_empty _
  reach_cursor := Reach.refl _ _
  ne_cursor := hfn
  rest _ hb _ := ⟨hb.1, hb.2.1⟩

omit [DecidableEq α] in
/-- The successor of the cursor has not been moved yet. -/
theorem next_not_mem (hi : SiftInv next₀ next test n f p s moved) (hn : Isolated next₀ n)
    (hpq : next p = some q) : q ∉ moved := by
  intro hq
  rcases (hi.reach_moved q hq).cases_tail with rfl | ⟨p', hp', hpq'⟩
  · exact hi.noPred _ hpq
  · -- otherwise the cursor itself would be behind `n`
    obtain rfl := hi.linear.inj _ _ _ hpq hpq'
    have h := (hi.reach_iff _ _ hi.not_mem hi.cursor).1 hp'
    exact hi.ne_cursor (hn.eq_of_reach h)

omit [DecidableEq α] in
theorem skip (hi : SiftInv next₀ next test n f p s moved) (hn : Isolated next₀ n)
    (hpq : next p = some q) (ht : test q = false) : SiftInv next₀ next test n f q s moved :=
  { hi with
    mem := hi.closed _ _ hpq
    cursor := hi.next_not_mem hn hpq
    reach_cursor := hi.reach_cursor.trans (Reach.single hpq)
    ne_cursor := by
      rintro rfl
      exact hi.noPred _ hpq
    rest := by
      intro b hb hbm
      obtain ⟨hr, hne⟩ := hi.rest b hb hbm
      rcases hr.cases_head with h | ⟨q', hq', hqb⟩
      · exact absurd h.symm hne
      · obtain rfl : q = q' := Option.some_injective _ (hpq.symm.trans hq')
        refine ⟨hqb, ?_⟩
        rintro rfl
        simp [hb.2.2] at ht }

omit [DecidableEq α] in
theorem next_ne (hi : SiftInv next₀ next test n f p s moved) (hpq : next p = some q) : n ≠ q := by
  rintro rfl
  exact hi.noPred _ hpq

theorem reach_moveAfter_iff (hi : SiftInv next₀ next test n f p s moved) (hpq : next p = some q)
    {a b : α} (ha : a ≠ q) (hb : b ≠ q) : Reach (moveAfter next p q n) a b ↔ Reach next a b := by
  rw [moveAfter, reach_insertAfter_iff (isolated_unlinkAfter hi.linear hpq) (hi.next_ne hpq) ha hb,
    reach_unlinkAfter_iff hi.linear hpq ha hb]

theorem closed_moveAfter (hc : Closed next s) (hpq : next p = some q) :
    Closed (moveAfter next p q n) s := by
  intro a b hab
  simp only [moveAfter, insertAfter, unlinkAfter, Function.update_apply] at hab
  have hq := hc _ _ hpq
  split_ifs at hab <;> first | exact hc _ _ hab | simp_all

theorem noPred_moveAfter (hi : SiftInv next₀ next test n f p s moved) (hpq : next p = some q)
    (a : α) : moveAfter next p q n a ≠ some n := by
  intro h
  have hn := hi.noPred
  have hne := hi.next_ne hpq
  simp only [moveAfter, insertAfter, unlinkAfter, Function.update_apply] at h
  split_ifs at h <;> simp_all

theorem move (hi : SiftInv next₀ next test n f p s moved) (hn : Isolated next₀ n)
    (hpq : next p = some q) (ht : test q = true) :
    SiftInv next₀ (moveAfter next p q n) test n f p s (insert q moved) := by
  have hpne : p ≠ q := hi.linear.ne_next hpq
  have hnne : n ≠ q := hi.next_ne hpq
  have hqm : q ∉ moved := hi.next_not_mem hn hpq
  have hfm : f ∉ moved := fun h => (hi.sifted f h).2.1 rfl
  have hfq : f ≠ q := by
    rintro rfl
    exact hi.linear.acyclic _ _ hpq hi.reach_cursor
  have hiso := isolated_unlinkAfter hi.linear hpq
  exact
    { linear := (hi.linear.unlinkAfter hpq).insertAfter hiso hnne
      closed := closed_moveAfter hi.closed hpq
      mem := hi.mem
      noPred := hi.noPred_moveAfter hpq
      reach_iff := by
        intro a b ha hb
        rw [Set.mem_insert_iff, not_or] at ha hb
        rw [hi.reach_moveAfter_iff hpq ha.1 hb.1, hi.reach_iff a b ha.2 hb.2]
      reach_moved := by
        intro b hb
        rcases Set.mem_insert_iff.1 hb with rfl | hbm
        · exact Reach.single (insertAfter_self _ _ _)
        · have hbq : b ≠ q := by
            rintro rfl
            exact hqm hbm
          exact (hi.reach_moveAfter_iff hpq hnne hbq).2 (hi.reach_moved b hbm)
      sifted := by
        intro b hb
        rcases Set.mem_insert_iff.1 hb with rfl | hb
        · have hr := hi.reach_cursor.trans (Reach.single hpq)
          exact ⟨(hi.reach_iff _ _ hfm hqm).1 hr, hfq.symm, ht⟩
        · exact hi.sifted b hb
      not_mem := by
        rw [Set.mem_insert_iff, not_or]
        exact ⟨hnne, hi.not_mem⟩
      cursor := by
        rw [Set.mem_insert_iff, not_or]
        exact ⟨hpne, hi.cursor⟩
      reach_cursor := (hi.reach_moveAfter_iff hpq hfq hpne).2 hi.reach_cursor
      ne_cursor := hi.ne_cursor
      rest := by
        intro b hb hbm
        rw [Set.mem_insert_iff, not_or] at hbm
        obtain ⟨hr, hne⟩ := hi.rest b hb hbm.2
        exact ⟨(hi.reach_moveAfter_iff hpq hpne hbm.1).2 hr, hne⟩ }

/-- Moving a node shortens what is left behind the cursor. -/
theorem card_reachSet_moveAfter_lt (hi : SiftInv next₀ next test n f p s moved)
    (hpq : next p = some q) :
    (reachSet (moveAfter next p q n) s p).card < (reachSet next s p).card := by
  classical
  have hpne : p ≠ q := hi.linear.ne_next hpq
  have hgone : ¬ Reach (moveAfter next p q n) p q := by
    intro h
    rw [moveAfter, reach_insertAfter_new_iff (isolated_unlinkAfter hi.linear hpq)
      (hi.next_ne hpq) hpne, reach_unlinkAfter_iff hi.linear hpq hpne (hi.next_ne hpq)] at h
    exact hi.ne_cursor (h.eq_of_no_pred hi.noPred)
  refine Finset.card_lt_card (Finset.ssubset_iff_subset_ne.2 ⟨?_, ?_⟩)
  · intro c hc
    simp only [reachSet, Finset.mem_filter] at hc ⊢
    have hcq : c ≠ q := by
      rintro rfl
      exact hgone hc.2
    exact ⟨hc.1, (hi.reach_moveAfter_iff hpq hpne hcq).1 hc.2⟩
  · intro heq
    have hmem : q ∈ reachSet next s p := by
      simp [reachSet, hi.closed _ _ hpq, Reach.single hpq]
    rw [← heq] at hmem
    simp only [reachSet, Finset.mem_filter] at hmem
    exact hgone hmem.2

/-- The moving loop from any of its states. -/
theorem run (hn : Isolated next₀ n) {fuel : ℕ} (hi : SiftInv next₀ next test n f p s moved)
    (hfuel : (reachSet next s p).card ≤ fuel) :
    ∃ next' p', sift test n fuel next p = some next' ∧ next' p' = none ∧
      ∃ moved', SiftInv next₀ next' test n f p' s moved' := by
  induction fuel generalizing next p moved with
  | zero =>
      have hpos : 0 < (reachSet next s p).card := card_reachSet_pos hi.mem
      omega
  | succ fuel ih =>
      rw [sift]
      cases hpq : next p with
      | none => exact ⟨next, p, by simp, hpq, moved, hi⟩
      | some q =>
          cases ht : test q with
          | true =>
              have hlt := hi.card_reachSet_moveAfter_lt hpq
              simpa [ht] using ih (hi.move hn hpq ht) (by omega)
          | false =>
              have hlt := card_reachSet_lt hi.linear hi.mem hpq
              simpa [ht] using ih (hi.skip hn hpq ht) (by omega)

omit [DecidableEq α] in
/-- A node outside every chain stays outside. -/
theorem isolated (hi : SiftInv next₀ next test n f p s moved) (hn : Isolated next₀ n) {a : α}
    (ha : Isolated next₀ a) (han : a ≠ n) (haf : a ≠ f) : Isolated next a := by
  have ham : a ∉ moved := fun h => haf (ha.eq_of_reach' (hi.sifted a h).1).symm
  -- the chain of `n` does not come by
  have hna : ¬ Reach next n a := by
    intro h
    exact han (hn.eq_of_reach ((hi.reach_iff _ _ hi.not_mem ham).1 h))
  constructor
  · cases hab : next a with
    | none => rfl
    | some b =>
        exfalso
        by_cases hbm : b ∈ moved
        · rcases (hi.reach_moved b hbm).cases_tail with rfl | ⟨c, hnc, hcb⟩
          · exact hi.not_mem hbm
          · obtain rfl := hi.linear.inj _ _ _ hab hcb
            exact hna hnc
        · have h := (hi.reach_iff _ _ ham hbm).1 (Reach.single hab)
          exact hi.linear.ne_next hab (ha.eq_of_reach h).symm
  · intro b hba
    by_cases hbm : b ∈ moved
    · exact hna ((hi.reach_moved b hbm).trans (Reach.single hba))
    · have h := (hi.reach_iff _ _ hbm ham).1 (Reach.single hba)
      exact hi.linear.ne_next hba (ha.eq_of_reach' h)

end SiftInv

/-- The moving loop ends; the nodes that pass the test are behind `n`, and reachability between the
others is as before. -/
theorem sift_spec (test : α → Bool) (hl : Linear next) (hc : Closed next s) (hn : Isolated next n) (hf : f ∈ s)
    (hfn : f ≠ n) {fuel : ℕ} (hfuel : s.card ≤ fuel) :
    ∃ next', sift test n fuel next f = some next' ∧ Linear next' ∧ Closed next' s ∧
      (∀ a, next' a ≠ some n) ∧
      (∀ a b, ¬ Sifted next test f a → ¬ Sifted next test f b →
        (Reach next' a b ↔ Reach next a b)) ∧
      (∀ b, Sifted next test f b → Reach next' n b) ∧
      ∀ a, Isolated next a → a ≠ n → a ≠ f → Isolated next' a := by
  have hstart : SiftInv next next test n f f s ∅ := SiftInv.start hl hc hn hf hfn
  obtain ⟨next', p', hrun, hend, moved, hi⟩ :=
    hstart.run hn (le_trans (card_reachSet_le _ _ _) hfuel)
  -- nothing is left behind the cursor, so every candidate has been moved
  have hmoved : ∀ b, Sifted next test f b → b ∈ moved := by
    intro b hb
    by_contra hbm
    obtain ⟨hr, hne⟩ := hi.rest b hb hbm
    exact hne (hr.eq_of_none hend)
  refine ⟨next', hrun, hi.linear, hi.closed, hi.noPred, ?_, ?_, ?_⟩
  · intro a b ha hb
    exact hi.reach_iff a b (fun h => ha (hi.sifted a h)) (fun h => hb (hi.sifted b h))
  · intro b hb
    exact hi.reach_moved b (hmoved b hb)
  · intro a ha han haf
    exact hi.isolated hn ha han haf

end Sift

end Chain
