/-
**The protection of machine code, and what is kept of it.**

An operation changes the protection of one area at a time, and the area that it leaves writable has a
bracket.  What is committed comes out of the free part of the current area, which gets smaller, or is
that of a fresh area.

Main results:

* `Mcode.Inv.step` — what one operation keeps;
* `Mcode.run_inv` — **the cache is right, nothing is writable outside of brackets, and code is kept**.
-/

import LuaJit.Mcode

set_option relaxedAutoImplicit false
set_option autoImplicit false

namespace Mcode

variable {T : Target}

/-! ### Areas without their protection -/

/-- Base and size. -/
def Area.shape (a : Area T) : Addr T × Addr T := (a.base, a.size)

/-- Two areas are apart. -/
def ApartAreas (a b : Addr T × Addr T) : Prop :=
  a.1 ≠ b.1 ∧ Apart a.1.toNat (a.1.toNat + a.2.toNat) b.1.toNat (b.1.toNat + b.2.toNat)

theorem setprot_shape (areas : List (Area T)) (p : Addr T) (prot : Prot) :
    (setprot areas p prot).map Area.shape = areas.map Area.shape := by
  rw [setprot, List.map_map]
  refine List.map_congr_left fun a _ => ?_
  rw [Function.comp_apply]
  split <;> rfl

/-- What two states have in common if only protections and brackets differ. -/
structure SameCode (J J' : JState T) : Prop where
  areas : J'.areas.map Area.shape = J.areas.map Area.shape
  committed : J'.committed = J.committed
  mcbot : J'.mcbot = J.mcbot
  mctop : J'.mctop = J.mctop
  szallmcarea : J'.szallmcarea = J.szallmcarea

theorem SameCode.mcarea {J J' : JState T} (h : SameCode J J') : J'.mcarea = J.mcarea := by
  have ha := h.areas
  rw [JState.mcarea, JState.mcarea]
  cases h' : J'.areas <;> cases h₀ : J.areas <;> rw [h', h₀] at ha
  case cons.cons a as b bs => exact congrArg Prod.fst (List.cons.inj ha).1
  all_goals cases ha

/-- The ranges of the code, in terms of the shapes. -/
theorem kept_iff {J : JState T} : Kept J ↔
    (J.areas.map Area.shape).Pairwise ApartAreas ∧
      (∀ r ∈ J.committed, ∃ a ∈ J.areas.map Area.shape, Inside r a.1.toNat (a.1.toNat + a.2.toNat)) ∧
      (J.committed.Pairwise fun r r' => Apart r.1.toNat r.2.toNat r'.1.toNat r'.2.toNat) ∧
      (∀ r ∈ J.committed, Apart r.1.toNat r.2.toNat J.mcbot.toNat J.mctop.toNat) ∧
      ∀ a ∈ (J.areas.map Area.shape).head?, a.1.toNat + T.szlink ≤ J.mcbot.toNat ∧
        J.mctop.toNat ≤ a.1.toNat + a.2.toNat := by
  have hhead : (J.areas.map Area.shape).head? = J.areas.head?.map Area.shape := List.head?_map
  constructor
  · rintro ⟨h₁, h₂, h₃, h₄, h₅⟩
    refine ⟨List.pairwise_map.2 h₁, fun r hr => ?_, h₃, h₄, ?_⟩
    · obtain ⟨a, ha, hr⟩ := h₂ r hr
      exact ⟨a.shape, List.mem_map_of_mem ha, hr⟩
    · rw [hhead]
      intro a ha
      obtain ⟨b, hb, rfl⟩ := Option.map_eq_some_iff.1 ha
      exact h₅ b hb
  · rintro ⟨h₁, h₂, h₃, h₄, h₅⟩
    refine ⟨List.pairwise_map.1 h₁, fun r hr => ?_, h₃, h₄, fun a ha => ?_⟩
    · obtain ⟨a, ha, hr⟩ := h₂ r hr
      obtain ⟨b, hb, rfl⟩ := List.mem_map.1 ha
      exact ⟨b, hb, hr⟩
    · rw [hhead] at h₅
      exact h₅ a.shape (Option.map_eq_some_iff.2 ⟨a, ha, rfl⟩)

theorem SameCode.kept {J J' : JState T} (h : SameCode J J') (hk : Kept J) : Kept J' := by
  rw [kept_iff] at hk ⊢
  rw [h.areas, h.committed, h.mcbot, h.mctop]
  exact hk

theorem SameCode.summed {J J' : JState T} (h : SameCode J J') (hs : Summed J) : Summed J' := by
  have hsize : ∀ as : List (Area T), as.map Area.size = (as.map Area.shape).map Prod.snd := by
    intro as
    rw [List.map_map]
    rfl
  rw [Summed, hsize] at hs ⊢
  rw [h.areas, h.szallmcarea]
  exact hs

theorem sameCode_refl (J : JState T) : SameCode J J := ⟨rfl, rfl, rfl, rfl, rfl⟩

theorem sameCode_protect (J : JState T) (prot : Prot) : SameCode J (mcodeProtect J prot) := by
  rw [mcodeProtect]
  split
  · exact ⟨setprot_shape _ _ _, rfl, rfl, rfl, rfl⟩
  · exact sameCode_refl J

theorem SameCode.open_ {J J' : JState T} (h : SameCode J J') (p : Addr T) : SameCode J (J'.open_ p) :=
  ⟨h.areas, h.committed, h.mcbot, h.mctop, h.szallmcarea⟩

theorem SameCode.close {J J' : JState T} (h : SameCode J J') (p : Addr T) : SameCode J (J'.close p) :=
  ⟨h.areas, h.committed, h.mcbot, h.mctop, h.szallmcarea⟩

theorem sameCode_setprot (J : JState T) (p : Addr T) (prot : Prot) :
    SameCode J { J with areas := setprot J.areas p prot } :=
  ⟨setprot_shape _ _ _, rfl, rfl, rfl, rfl⟩

theorem sameCode_abort (J : JState T) : SameCode J (mcodeAbort J) := by
  rw [mcodeAbort]
  split
  · exact sameCode_refl J
  · exact (sameCode_protect J .rx).close J.mcarea

/-! ### Protections -/

/-- The bases of areas differ. -/
def Distinct (J : JState T) : Prop := (J.areas.map Area.base).Nodup

theorem Kept.distinct {J : JState T} (h : Kept J) : Distinct J := by
  rw [Distinct, List.Nodup, List.pairwise_map]
  exact h.areas.imp fun h => h.1

theorem mem_setprot {areas : List (Area T)} {p : Addr T} {prot : Prot} {a : Area T}
    (h : a ∈ setprot areas p prot) :
    (a.base = p ∧ a.prot = prot) ∨ (a.base ≠ p ∧ a ∈ areas) := by
  obtain ⟨b, hb, rfl⟩ := List.mem_map.1 h
  split
  · rename_i hp
    exact .inl ⟨hp, rfl⟩
  · rename_i hp
    exact .inr ⟨hp, hb⟩

/-- The current area has the protection of the cache, whatever it is switched to. -/
theorem Protected.current {J : JState T} (h : Protected J) (hd : Distinct J) {a : Area T}
    (ha : a ∈ J.areas) (hbase : a.base = J.mcarea) : a.prot = J.mcprot := by
  rw [Distinct] at hd
  rw [JState.mcarea] at hbase
  have hcache := h.cache
  cases hareas : J.areas with
  | nil =>
    rw [hareas] at ha
    cases ha
  | cons b bs =>
    rw [hareas] at ha hbase hd hcache
    cases ha with
    | head => exact hcache a rfl
    | tail _ ha =>
      rw [List.map_cons, List.nodup_cons] at hd
      have hmem : a.base ∈ bs.map Area.base := List.mem_map_of_mem ha
      rw [hbase] at hmem
      exact absurd hmem hd.1

theorem protect_prot {J : JState T} (h : Protected J) (hd : Distinct J) (prot : Prot) {a : Area T}
    (ha : a ∈ (mcodeProtect J prot).areas) :
    (a.base = J.mcarea ∧ a.prot = prot) ∨ (a.base ≠ J.mcarea ∧ a ∈ J.areas) := by
  rw [mcodeProtect] at ha
  split at ha
  · exact mem_setprot ha
  · rename_i hp
    by_cases hb : a.base = J.mcarea
    · exact .inl ⟨hb, (h.current hd ha hb).trans (not_not.1 hp)⟩
    · exact .inr ⟨hb, ha⟩

theorem protect_mcprot (J : JState T) (prot : Prot) : (mcodeProtect J prot).mcprot = prot := by
  rw [mcodeProtect]
  split
  · rfl
  · rename_i h
    exact not_not.1 h

theorem protect_opened (J : JState T) (prot : Prot) : (mcodeProtect J prot).opened = J.opened := by
  rw [mcodeProtect]
  split <;> rfl

theorem protect_cache {J : JState T} (h : Protected J) (hd : Distinct J) (prot : Prot) :
    ∀ a ∈ (mcodeProtect J prot).areas.head?, a.prot = (mcodeProtect J prot).mcprot := by
  intro a ha
  have hmem := List.mem_of_mem_head? ha
  have hbase : a.base = (mcodeProtect J prot).mcarea := by
    rw [JState.mcarea]
    cases hareas : (mcodeProtect J prot).areas with
    | nil =>
      rw [hareas] at ha
      cases ha
    | cons b bs =>
      rw [hareas] at ha
      cases ha
      rfl
  rw [(sameCode_protect J prot).mcarea] at hbase
  rw [protect_mcprot]
  obtain ⟨-, hp⟩ | ⟨hne, -⟩ := protect_prot h hd prot hmem
  · exact hp
  · exact absurd hbase hne

/-- A bracket for the current area. -/
theorem protected_open {J : JState T} (h : Protected J) (hd : Distinct J) :
    Protected ((mcodeProtect J .rw).open_ J.mcarea) where
  cache := protect_cache h hd .rw
  closed := by
    intro a ha hop
    rw [JState.open_, List.mem_cons, not_or, protect_opened] at hop
    obtain ⟨hb, -⟩ | ⟨-, ha⟩ := protect_prot h hd .rw ha
    · exact absurd hb hop.1
    · exact h.closed a ha hop.2

/-- The end of the brackets of the current area. -/
theorem protected_close {J : JState T} (h : Protected J) (hd : Distinct J) :
    Protected ((mcodeProtect J .rx).close J.mcarea) where
  cache := protect_cache h hd .rx
  closed := by
    intro a ha hop
    obtain ⟨-, hp⟩ | ⟨hne, ha⟩ := protect_prot h hd .rx ha
    · exact hp
    · refine h.closed a ha fun hmem => hop ?_
      rw [JState.close, protect_opened]
      exact List.mem_filter.2 ⟨hmem, by simpa using hne⟩

theorem protected_abort {J : JState T} (h : Protected J) (hd : Distinct J) : Protected (mcodeAbort J) := by
  rw [mcodeAbort]
  split
  · exact h
  · exact protected_close h hd

theorem head_setprot {J : JState T} {mc : Addr T} (h : J.mcarea ≠ mc) (prot : Prot) :
    (setprot J.areas mc prot).head? = J.areas.head? := by
  rw [JState.mcarea] at h
  cases hareas : J.areas with
  | nil => rfl
  | cons b bs =>
    rw [hareas] at h
    rw [setprot, List.map_cons, if_neg h]
    rfl

/-- A bracket for an older area, behind the cache. -/
theorem protected_older {J : JState T} (h : Protected J) {mc : Addr T} (hne : J.mcarea ≠ mc) :
    Protected ({ J with areas := setprot J.areas mc .rw }.open_ mc) where
  cache a ha := h.cache a ((head_setprot hne .rw) ▸ ha)
  closed := by
    intro a ha hop
    rw [JState.open_, List.mem_cons, not_or] at hop
    obtain ⟨hb, -⟩ | ⟨-, ha⟩ := mem_setprot ha
    · exact absurd hb hop.1
    · exact h.closed a ha hop.2

/-- The end of the brackets of an older area. -/
theorem protected_finish {J : JState T} (h : Protected J) {mc : Addr T} (hne : J.mcarea ≠ mc) :
    Protected ({ J with areas := setprot J.areas mc .rx }.close mc) where
  cache a ha := h.cache a ((head_setprot hne .rx) ▸ ha)
  closed := by
    intro a ha hop
    obtain ⟨-, hp⟩ | ⟨hb, ha⟩ := mem_setprot ha
    · exact hp
    · refine h.closed a ha fun hmem => hop ?_
      exact List.mem_filter.2 ⟨hmem, by simpa using hb⟩

/-! ### One operation -/

/-- What holds in every state. -/
structure Inv (J : JState T) : Prop where
  prot : Protected J
  kept : Kept J
  summed : Summed J

theorem Inv.of_sameCode {J J' : JState T} (hi : Inv J) (h : SameCode J J') (hp : Protected J') : Inv J' :=
  ⟨hp, h.kept hi.kept, h.summed hi.summed⟩

/-- An address of `mcode_alloc` is one that was mapped. -/
theorem mcodeAllocLoop_mapped {mmap : ℕ → Addr T → Addr T} {sz : Addr T} {fuel : ℕ} (n : ℕ) {hint p : Addr T}
    {s s' : BitVec 32} (h : mcodeAllocLoop T mmap sz fuel n hint s = some (some p, s')) :
    ∃ i hint, p = mmap i hint ∧ near p sz = true := by
  induction n generalizing hint s with
  | zero => cases h
  | succ n ih =>
    rw [mcodeAllocLoop] at h
    split at h
    · rename_i hok
      cases h
      simp only [Bool.and_eq_true] at hok
      exact ⟨n, hint, rfl, hok.2.2⟩
    · split at h
      · cases h
      · exact ih h

theorem mcodeAlloc_mapped {mmap : ℕ → Addr T → Addr T} {J : JState T} {sz : Addr T} {fuel : ℕ} {p : Addr T}
    {s : BitVec 32} (h : mcodeAlloc mmap fuel J sz = some (some p, s)) :
    ∃ i hint, p = mmap i hint ∧ (T.limited = true → near p sz = true) := by
  rw [mcodeAlloc] at h
  split at h
  · obtain ⟨i, hint, hp, hn⟩ := mcodeAllocLoop_mapped 32 h
    exact ⟨i, hint, hp, fun _ => hn⟩
  · rename_i hl
    cases h
    exact ⟨0, 0, rfl, fun h => absurd h hl⟩

/-- What `mcode_allocarea` does. -/
theorem mcodeAllocarea_cases {mmap : ℕ → Addr T → Addr T} {J J' : JState T} {fuel : ℕ}
    {e : Option TraceError} (h : mcodeAllocarea mmap fuel J = some (J', e)) :
    (∃ s, J' = { J with prngstate := s } ∧ e = some .mcodeal) ∨
      ∃ p s i hint, p = mmap i hint ∧ (T.limited = true → near p (szmcode T J.sizemcode) = true) ∧ e = none ∧
        J' = { J with
          prngstate := s
          areas := ⟨p, szmcode T J.sizemcode, .rw⟩ :: J.areas
          szmcarea := szmcode T J.sizemcode
          mcprot := .rw
          mctop := p + szmcode T J.sizemcode
          mcbot := p + BitVec.ofNat T.w T.szlink
          szallmcarea := J.szallmcarea + szmcode T J.sizemcode
          opened := p :: J.opened } := by
  rw [mcodeAllocarea] at h
  split at h
  · cases h
  · rename_i s hs
    cases h
    exact .inl ⟨s, rfl, rfl⟩
  · rename_i p s hs
    cases h
    obtain ⟨i, hint, hp, hn⟩ := mcodeAlloc_mapped hs
    exact .inr ⟨p, s, i, hint, hp, hn, rfl, rfl⟩

/-- A fresh area. -/
theorem Inv.alloc {J J' : JState T} (hi : Inv J) {mmap : ℕ → Addr T → Addr T} {fuel : ℕ}
    {e : Option TraceError} (hf : ∀ i hint, Fresh J.areas (mmap i hint) (szmcode T J.sizemcode))
    (h : mcodeAllocarea mmap fuel J = some (J', e)) : Inv J' := by
  obtain ⟨s, rfl, -⟩ | ⟨p, s, i, hint, hp, -, -, rfl⟩ := mcodeAllocarea_cases h
  · exact hi.of_sameCode ⟨rfl, rfl, rfl, rfl, rfl⟩ ⟨hi.prot.cache, hi.prot.closed⟩
  · have hfresh := hf i hint
    rw [← hp] at hfresh
    have htop : (p + szmcode T J.sizemcode).toNat = p.toNat + (szmcode T J.sizemcode).toNat :=
      BitVec.toNat_add_of_lt hfresh.end_le
    have hbot : (p + BitVec.ofNat T.w T.szlink).toNat = p.toNat + T.szlink := by
      have hlink : (BitVec.ofNat T.w T.szlink).toNat = T.szlink := by
        rw [BitVec.toNat_ofNat, Nat.mod_eq_of_lt (by have := hfresh.link_le; omega)]
      rw [BitVec.toNat_add_of_lt (by rw [hlink]; exact hfresh.link_le), hlink]
    refine ⟨⟨?_, ?_⟩, ⟨?_, ?_, hi.kept.pairwise, ?_, ?_⟩, ?_⟩
    · rintro a ⟨⟩
      rfl
    · intro a ha hop
      rw [List.mem_cons, not_or] at hop
      cases ha with
      | head => exact absurd rfl hop.1
      | tail _ ha => exact hi.prot.closed a ha hop.2
    · refine List.pairwise_cons.2 ⟨fun a ha => ?_, hi.kept.areas⟩
      obtain ⟨hne, hapart⟩ := hfresh.apart a ha
      exact ⟨hne.symm, fun x h₁ h₂ h₃ h₄ => hapart x h₃ h₄ h₁ h₂⟩
    · intro r hr
      obtain ⟨a, ha, hin⟩ := hi.kept.inside r hr
      exact ⟨a, .tail _ ha, hin⟩
    · intro r hr
      obtain ⟨a, ha, hin⟩ := hi.kept.inside r hr
      intro x h₁ h₂ h₃ h₄
      dsimp only at h₃ h₄
      rw [htop] at h₄
      rw [hbot] at h₃
      exact (hfresh.apart a ha).2 x (hin.1.trans h₁) (lt_of_lt_of_le h₂ hin.2) (by lia) h₄
    · rintro a ⟨⟩
      exact ⟨hbot.ge, htop.le⟩
    · have hs := hi.summed
      rw [Summed, List.map_cons, List.sum_cons]
      exact (congrArg (· + _) hs).trans (add_comm _ _)

/-- Code out of the free part of the current area. -/
theorem Kept.commit {J J' : JState T} (hk : Kept J) (hne : J.areas ≠ []) {lo hi : Addr T}
    (hareas : J'.areas.map Area.shape = J.areas.map Area.shape) (hc : J'.committed = (lo, hi) :: J.committed)
    (hlo : J.mcbot.toNat ≤ lo.toNat) (hhi : hi.toNat ≤ J.mctop.toNat)
    (hbot : J.mcbot.toNat ≤ J'.mcbot.toNat) (htop : J'.mctop.toNat ≤ J.mctop.toNat)
    (hfree : hi.toNat ≤ J'.mcbot.toNat ∨ J'.mctop.toNat ≤ lo.toNat) : Kept J' := by
  rw [kept_iff] at hk ⊢
  obtain ⟨h₁, h₂, h₃, h₄, h₅⟩ := hk
  rw [hareas, hc]
  obtain ⟨a, as, ha⟩ : ∃ a as, J.areas = a :: as := List.exists_cons_of_ne_nil hne
  have hwin := h₅ a.shape (by rw [ha]; rfl)
  refine ⟨h₁, ?_, List.pairwise_cons.2 ⟨?_, h₃⟩, ?_, ?_⟩
  · intro r hr
    cases hr with
    | head =>
      refine ⟨a.shape, by rw [ha]; exact .head _, ?_, ?_⟩
      · exact (Nat.le_add_right _ T.szlink).trans (hwin.1.trans hlo)
      · exact hhi.trans hwin.2
    | tail _ hr => exact h₂ r hr
  · intro r hr x hx₁ hx₂ hr₁ hr₂
    exact h₄ r hr x hr₁ hr₂ (hlo.trans hx₁) (lt_of_lt_of_le hx₂ hhi)
  · intro r hr x hr₁ hr₂ hx₁ hx₂
    cases hr with
    | head =>
      dsimp only at hr₁ hr₂
      lia
    | tail _ hr => exact h₄ r hr x hr₁ hr₂ (hbot.trans hx₁) (lt_of_lt_of_le hx₂ htop)
  · intro b hb
    obtain ⟨hb₁, hb₂⟩ := h₅ b hb
    exact ⟨hb₁.trans hbot, htop.trans hb₂⟩

theorem findArea_mem {ptr mc : Addr T} {as : List (Area T)} (h : findArea ptr as = some mc) :
    mc ∈ as.map Area.base := by
  induction as with
  | nil => cases h
  | cons a as ih =>
    rw [findArea] at h
    split at h
    · cases h
      exact .head _
    · exact .tail _ (ih h)

theorem abort_sizemcode (J : JState T) : (mcodeAbort J).sizemcode = J.sizemcode := by
  rw [mcodeAbort]
  split
  · rfl
  · rw [JState.close, mcodeProtect]
    split <;> rfl

theorem Fresh.of_sameCode {J J' : JState T} {p sz : Addr T} (h : Fresh J.areas p sz) (hs : SameCode J J') :
    Fresh J'.areas p sz := by
  refine ⟨h.end_le, h.link_le, fun a ha => ?_⟩
  have hmem : a.shape ∈ J.areas.map Area.shape := hs.areas ▸ List.mem_map_of_mem ha
  obtain ⟨b, hb, hshape⟩ := List.mem_map.1 hmem
  have := h.apart b hb
  rw [show b.base = a.base from congrArg Prod.fst hshape,
    show b.size = a.size from congrArg Prod.snd hshape] at this
  exact this

/-- **What one operation keeps.** -/
theorem Inv.step {J J' : JState T} {op : Op T} {fuel : ℕ} {e : Option TraceError} (hi : Inv J)
    (hl : Legal J op) (h : step fuel J op = some (J', e)) : Inv J' := by
  have hd := hi.kept.distinct
  cases op with
  | param a b =>
    cases h
    exact hi.of_sameCode ⟨rfl, rfl, rfl, rfl, rfl⟩ ⟨hi.prot.cache, hi.prot.closed⟩
  | reserve mmap =>
    rw [Mcode.step] at h
    split at h
    · rename_i hnil
      exact hi.alloc (hl (List.isEmpty_iff.1 hnil)) h
    · cases h
      exact hi.of_sameCode ((sameCode_protect J .rw).open_ _) (protected_open hi.prot hd)
  | commit top =>
    obtain ⟨hne, hbot, htop⟩ := hl
    cases h
    have hp : Protected { J with committed := (top, J.mctop) :: J.committed, mctop := top } :=
      ⟨hi.prot.cache, hi.prot.closed⟩
    have hsame := (sameCode_protect
      { J with committed := (top, J.mctop) :: J.committed, mctop := top } .rx).close J.mcarea
    refine ⟨protected_close hp hd, hsame.kept ?_, hsame.summed hi.summed⟩
    exact hi.kept.commit hne rfl rfl hbot le_rfl le_rfl htop (.inr le_rfl)
  | commitbot m =>
    obtain ⟨hne, hbot, htop⟩ := hl
    cases h
    refine ⟨⟨hi.prot.cache, hi.prot.closed⟩, ?_, hi.summed⟩
    exact hi.kept.commit hne rfl rfl le_rfl htop hbot le_rfl (.inl le_rfl)
  | abort =>
    cases h
    exact hi.of_sameCode (sameCode_abort J) (protected_abort hi.prot hd)
  | patchBegin ptr =>
    rw [Mcode.step] at h
    split at h
    · cases h
      exact hi
    · rename_i a as hareas
      have hmc : J.mcarea = a.base := by rw [JState.mcarea, hareas]
      split at h
      · cases h
        rw [← hmc]
        exact hi.of_sameCode ((sameCode_protect J .rw).open_ _) (protected_open hi.prot hd)
      · split at h
        · cases h
          exact hi
        · rename_i mc hfind
          cases h
          have hne : J.mcarea ≠ mc := by
            rw [Distinct, hareas, List.map_cons, List.nodup_cons] at hd
            rintro rfl
            rw [hmc] at hfind
            exact hd.1 (findArea_mem hfind)
          exact hi.of_sameCode ((sameCode_setprot J mc .rw).open_ mc) (protected_older hi.prot hne)
  | patchFinish ptr =>
    rw [Mcode.step] at h
    split at h
    · rename_i hptr
      cases h
      rw [← hptr]
      exact hi.of_sameCode ((sameCode_protect J .rx).close _) (protected_close hi.prot hd)
    · rename_i hne
      cases h
      exact hi.of_sameCode ((sameCode_setprot J ptr .rx).close ptr) (protected_finish hi.prot hne)
  | limiterr mmap need =>
    have habort : Inv (mcodeAbort J) := hi.of_sameCode (sameCode_abort J) (protected_abort hi.prot hd)
    rw [Mcode.step] at h
    split at h
    · cases h
      exact habort
    · rename_i hneed
      split at h
      · cases h
        exact habort
      · have hf := fun i hint => (hl (by rwa [abort_sizemcode] at hneed) i hint).of_sameCode (sameCode_abort J)
        rw [← abort_sizemcode J] at hf
        split at h
        · cases h
        · rename_i ha
          cases h
          exact habort.alloc hf ha
        · rename_i _ ha
          cases h
          exact habort.alloc hf ha

/-- **What holds in every state.** -/
theorem run_inv {C : BitVec 32 → Prop} {J : JState T} (h : Run T C J) : Inv J := by
  induction h with
  | init s a b _ =>
    refine ⟨⟨?_, ?_⟩, ⟨?_, ?_, ?_, ?_, ?_⟩, ?_⟩
    · rintro a ⟨⟩
    · rintro a ⟨⟩
    · exact .nil
    · rintro r ⟨⟩
    · exact .nil
    · rintro r ⟨⟩
    · rintro a ⟨⟩
    · rfl
  | step _ hl _ hs ih => exact ih.step hl hs

end Mcode
