/-
**Failed C declarations.**

`lj_cparse` parses C declarations straight into the table of types.  When it fails, at any token, it
cuts the table back to the old top and restores the hash anchors.  That undoes what it added, but
not what it changed in place: the body of a struct, union or enum that was declared before is linked
to the old element.

The model has one action for each place where the parser touches the table.  A text determines a run
of actions: its tokens decide which of them come, with which values.  The runs here are all those that
nest as the parser's functions call each other.

Main definitions:

* `Cparse.Action`, `Cparse.Frame`, `Cparse.PState` — the actions, the functions that are under way,
  and the state of the parser;
* `Cparse.step`, `Cparse.run` — an action, and a run;
* `Cparse.fail` — `lj_cparse`, where the run ends in an error.

Main results:

* `Cparse.Inv.step` — what an action keeps: only elements whose body was begun differ from the saved
  ones;
* `Cparse.fail_unchanged_iff` — **a failed declaration changes nothing exactly if it has not begun to
  define a struct, union or enum that was declared before**;
* `Cparse.fail_not_unchanged` — one that did.
-/

import LuaJit.Ctype

set_option relaxedAutoImplicit false
set_option autoImplicit false

namespace Cparse

open Ctype

variable {Str : Type}

/-! ### The parser -/

/-- What the actions depend on: the hash of a name, `CPARSE_MODE_NOIMPLICIT`, and `cp_struct_layout`,
which turns the temporary fields of a struct into the final ones and gives its type and its size, a
number of bits by 8. -/
structure Cfg (Str : Type) where
  hashName : Str → ℕ
  noImplicit : Bool
  layout : BitVec 32 → BitVec 32 → List (CType Str) →
    Option (List (BitVec 32 × BitVec 32) × BitVec 32 × BitVec 32)
  layout_size : ∀ sinfo sattr fields r, layout sinfo sattr fields = some r → r.2.2 ≠ ctsizeInvalid

/-- A function of the parser that is under way: the body of a struct with its fields, the last one
first; the attributes after a body; the body of an enum with its constants; the parameters of a
function. -/
inductive Frame
  | body (sid : ℕ) (fields : List ℕ)
  | attribs (sid : ℕ) (fields : List ℕ)
  | enum (eid : ℕ) (consts : List ℕ)
  | params (ids : List ℕ)
  deriving DecidableEq

/-- The state of the parser.  `begun` lists the types whose definition was begun, without those that
only have an empty body so far. -/
structure PState (Str : Type) where
  cts : CTState Str
  stack : List Frame := []
  begun : List ℕ := []

/-- Where the parser touches the table. -/
inductive Action (Str : Type)
  /-- `cp_decl_intern`, `cp_decl_func`: intern a type. -/
  | intern (info size : BitVec 32)
  /-- `cp_decl_intern`, `cp_decl_multi`: a new function, typedef, external reference or constant,
  with the parameters that it shares, its name, and the attribute for a redirected symbol. -/
  | declare (info size : BitVec 32) (sib : ℕ) (name redir : Option Str)
  /-- `cp_struct_name`: look up or create a named type, or create an anonymous one. -/
  | structName (info : BitVec 32) (name : Option Str)
  /-- `cp_struct_name`: the body begins. -/
  | openBody (sid : ℕ)
  /-- `cp_decl_struct`: add a field, a bitfield, a transparent struct or a constant. -/
  | field (info size : BitVec 32) (name : Option Str)
  /-- `cp_decl_struct`: the body ends. -/
  | closeBody
  /-- `cp_decl_struct`: the layout, after the postfix attributes. -/
  | layout (sattr : BitVec 32)
  /-- `cp_decl_enum`: the body begins. -/
  | openEnum (eid : ℕ)
  /-- `cp_decl_enum`: add a constant. -/
  | enumConst (info size : BitVec 32) (name : Str)
  /-- `cp_decl_enum`: complete the enum. -/
  | closeEnum (einfo : BitVec 32)
  /-- `cp_decl_func`: the parameters begin. -/
  | openParams
  /-- `cp_decl_func`: add a parameter. -/
  | param (info size : BitVec 32) (name : Option Str)
  /-- `cp_decl_func`: the parameters end. -/
  | closeParams

/-- `CPNS_STRUCT`. -/
def cpnsStruct : BitVec 32 :=
  1 <<< CT.kw.ctorIdx ||| 1 <<< CT.struct.ctorIdx ||| 1 <<< CT.enum.ctorIdx

/-- A new sibling. -/
def setSib (cts : CTState Str) (id sib : ℕ) : CTState Str :=
  cts.set id { cts.tab id with sib := sib }

/-- A new type and size. -/
def setInfo (cts : CTState Str) (id : ℕ) (info size : BitVec 32) : CTState Str :=
  cts.set id { cts.tab id with info := info, size := size }

/-- Add an element behind the last one of a chain. -/
def append (cts : CTState Str) (last : ℕ) (ct : CType Str) : Option (ℕ × CTState Str) :=
  (ctypeNew cts ct).map fun r => (r.1, setSib r.2 last r.1)

/-- The incomplete type with the given name, which is looked up first. -/
def structName [DecidableEq Str] (cfg : Cfg Str) (cts : CTState Str) (info : BitVec 32) :
    Option Str → Option (CTState Str)
  | none => (ctypeNew cts { info := info, size := ctsizeInvalid }).map Prod.snd
  | some name =>
      let sid := getname cfg.hashName cts name cpnsStruct
      if sid ≠ 0 then
        -- a struct, union or enum must be the same again
        if ctypeType (cts.tab sid).info ≠ ctypeType info ∨
            ((cts.tab sid).info ^^^ info) &&& ctfUnion ≠ 0 then none
        else some cts
      else if cfg.noImplicit = true then none
      else
        (ctypeNew cts { info := info, size := ctsizeInvalid, name := some name }).map fun r =>
          addname cfg.hashName r.2 name r.1

/-- Mark an incomplete type as being defined. -/
def openType (cts : CTState Str) (sid : ℕ) : Option (CTState Str) :=
  if sid < cts.top ∧ 0 < sid then
    if (cts.tab sid).size ≠ ctsizeInvalid ∨ (cts.tab sid).sib ≠ 0 then none
    else some (setSib cts sid 1)
  else none

/-- A declaration with its name and its redirection. -/
def declare (cfg : Cfg Str) (cts : CTState Str) (ct : CType Str) (redir : Option Str) :
    Option (CTState Str) := do
  let (id, cts) ← ctypeNew cts ct
  let cts ← match redir with
    | none => some cts
    | some _ =>
        (ctypeNew cts { info := ctinfo .attrib 0x00040000, sib := ct.sib, name := redir }).map
          fun r => setSib r.2 id r.1
  match ct.name with
  | none => some cts
  | some name => some (addname cfg.hashName cts name id)

/-- The final fields of a struct. -/
def setFields (cts : CTState Str) : List ℕ → List (BitVec 32 × BitVec 32) → CTState Str
  | id :: ids, (info, size) :: fs => setFields (setInfo cts id info size) ids fs
  | _, _ => cts

/-- One action.  `none` is an error. -/
@[grind =]
def step [DecidableEq Str] (cfg : Cfg Str) (s : PState Str) : Action Str → Option (PState Str)
  | .intern info size => (ctypeIntern s.cts info size).map fun r => { s with cts := r.2 }
  | .declare info size sib name redir =>
      if sib < s.cts.top then
        (declare cfg s.cts { info := info, size := size, sib := sib, name := name } redir).map
          fun cts => { s with cts := cts }
      else none
  | .structName info name => (structName cfg s.cts info name).map fun cts => { s with cts := cts }
  | .openBody sid =>
      if ctypeType (s.cts.tab sid).info = CT.struct.ctorIdx then
        (openType s.cts sid).map fun cts =>
          { cts := cts, stack := .body sid [] :: s.stack, begun := sid :: s.begun }
      else none
  | .field info size name =>
      match s.stack with
      | .body sid ids :: stack =>
          (append s.cts (ids.headD sid) { info := info, size := size, name := name }).map fun r =>
            { s with cts := r.2, stack := .body sid (r.1 :: ids) :: stack }
      | _ => none
  | .closeBody =>
      match s.stack with
      | .body sid ids :: stack =>
          -- drop `sib = 1` for empty structs
          some
            { cts := setSib s.cts (ids.headD sid) 0
              stack := .attribs sid ids :: stack
              begun := if ids = [] then s.begun.filter (· != sid) else s.begun }
      | _ => none
  | .layout sattr =>
      match s.stack with
      | .attribs sid ids :: stack =>
          (cfg.layout (s.cts.tab sid).info sattr (ids.reverse.map s.cts.tab)).map fun r =>
            { cts := setInfo (setFields s.cts ids.reverse r.1) sid r.2.1 r.2.2
              stack := stack
              begun := sid :: s.begun }
      | _ => none
  | .openEnum eid =>
      if ctypeType (s.cts.tab eid).info = CT.enum.ctorIdx then
        (openType s.cts eid).map fun cts =>
          { cts := cts, stack := .enum eid [] :: s.stack, begun := eid :: s.begun }
      else none
  | .enumConst info size name =>
      match s.stack with
      | .enum eid ids :: stack =>
          (append s.cts (ids.headD eid) { info := info, size := size, name := some name }).map
            fun r =>
              { s with
                cts := addname cfg.hashName r.2 name r.1, stack := .enum eid (r.1 :: ids) :: stack }
      | _ => none
  | .closeEnum einfo =>
      match s.stack with
      | .enum eid (_ :: _) :: stack =>
          some { s with cts := setInfo s.cts eid einfo 4, stack := stack }
      | _ => none
  | .openParams => some { s with stack := .params [] :: s.stack }
  | .param info size name =>
      match s.stack with
      | .params [] :: stack =>
          (ctypeNew s.cts { info := info, size := size, name := name }).map fun r =>
            { s with cts := r.2, stack := .params [r.1] :: stack }
      | .params (last :: ids) :: stack =>
          (append s.cts last { info := info, size := size, name := name }).map fun r =>
            { s with cts := r.2, stack := .params (r.1 :: last :: ids) :: stack }
      | _ => none
  | .closeParams =>
      match s.stack with
      | .params _ :: stack => some { s with stack := stack }
      | _ => none

/-- The actions up to an error. -/
def run [DecidableEq Str] (cfg : Cfg Str) (s : PState Str) : List (Action Str) → Option (PState Str)
  | [] => some s
  | a :: as => (step cfg s a).bind fun s' => run cfg s' as

/-- `lj_cparse` with an error after the actions. -/
def fail [DecidableEq Str] (cfg : Cfg Str) (saved : CTState Str) (as : List (Action Str)) :
    Option (CTState Str) :=
  (run cfg { cts := saved } as).map fun s => saved.restore s.cts

/-! ### Operations that only add -/

/-- An operation that leaves the elements below `n` alone. -/
structure Grows (n : ℕ) (cts cts' : CTState Str) : Prop where
  top_le : cts.top ≤ cts'.top
  tab_eq : ∀ id < n, cts'.tab id = cts.tab id

theorem Grows.refl (n : ℕ) (cts : CTState Str) : Grows n cts cts := ⟨le_rfl, fun _ _ => rfl⟩

theorem Grows.trans {n : ℕ} {a b c : CTState Str} (hab : Grows n a b) (hbc : Grows n b c) :
    Grows n a c :=
  ⟨hab.top_le.trans hbc.top_le, fun id hid => (hbc.tab_eq id hid).trans (hab.tab_eq id hid)⟩

theorem grows_set {n : ℕ} (cts : CTState Str) (id : ℕ) (ct : CType Str) (hid : n ≤ id) :
    Grows n cts (cts.set id ct) :=
  ⟨le_rfl, fun _ hi => Function.update_of_ne (by omega) _ _⟩

theorem grows_chain {n : ℕ} (cts : CTState Str) (h id : ℕ) (hid : n ≤ id) :
    Grows n cts (cts.chain h id) :=
  ⟨le_rfl, fun _ hi => Function.update_of_ne (by omega) _ _⟩

/-- A new element is the one at the top. -/
theorem ctypeNew_eq {cts cts' : CTState Str} {ct : CType Str} {id : ℕ}
    (h : ctypeNew cts ct = some (id, cts')) :
    id = cts.top ∧ cts' = { cts.set cts.top ct with top := cts.top + 1 } := by
  have h' := (Option.ite_none_left_eq_some.1 h).2
  simp only [Option.some.injEq, Prod.mk.injEq] at h'
  exact ⟨h'.1.symm, h'.2.symm⟩

theorem grows_ctypeNew {n : ℕ} {cts cts' : CTState Str} {ct : CType Str} {id : ℕ}
    (hn : n ≤ cts.top) (h : ctypeNew cts ct = some (id, cts')) : n ≤ id ∧ Grows n cts cts' := by
  obtain ⟨rfl, rfl⟩ := ctypeNew_eq h
  exact ⟨hn, Nat.le_succ _, (grows_set cts _ ct hn).tab_eq⟩

theorem grows_ctypeIntern {n : ℕ} {cts cts' : CTState Str} {info size : BitVec 32} {id : ℕ}
    (hn : n ≤ cts.top) (h : ctypeIntern cts info size = some (id, cts')) : Grows n cts cts' := by
  unfold ctypeIntern at h
  split at h
  · cases h
    exact .refl n _
  · obtain ⟨⟨id', cts₁⟩, hnew, heq⟩ := Option.map_eq_some_iff.1 h
    cases heq
    obtain ⟨hid, hg⟩ := grows_ctypeNew hn hnew
    exact hg.trans (grows_chain _ _ _ hid)

theorem grows_structName [DecidableEq Str] {n : ℕ} {cfg : Cfg Str} {cts cts' : CTState Str}
    {info : BitVec 32} {name : Option Str} (hn : n ≤ cts.top)
    (h : structName cfg cts info name = some cts') : Grows n cts cts' := by
  cases name with
  | none =>
      obtain ⟨⟨id, cts₁⟩, hnew, rfl⟩ := Option.map_eq_some_iff.1 h
      exact (grows_ctypeNew hn hnew).2
  | some name =>
      simp only [structName] at h
      split at h
      · cases (Option.ite_none_left_eq_some.1 h).2
        exact .refl n _
      · obtain ⟨⟨id, cts₁⟩, hnew, rfl⟩ :=
          Option.map_eq_some_iff.1 (Option.ite_none_left_eq_some.1 h).2
        obtain ⟨hid, hg⟩ := grows_ctypeNew hn hnew
        exact hg.trans (grows_chain _ _ _ hid)

theorem grows_declare {n : ℕ} {cfg : Cfg Str} {cts cts' : CTState Str} {ct : CType Str}
    {redir : Option Str} (hn : n ≤ cts.top) (h : declare cfg cts ct redir = some cts') :
    Grows n cts cts' := by
  obtain ⟨⟨id, cts₁⟩, hnew, h⟩ := Option.bind_eq_some_iff.1 h
  obtain ⟨hid, hg₁⟩ := grows_ctypeNew hn hnew
  have hname : ∀ cts₂, (match ct.name with
      | none => some cts₂
      | some name => some (addname cfg.hashName cts₂ name id)) = some cts' → Grows n cts₂ cts' := by
    intro cts₂ h₂
    split at h₂
    · cases h₂
      exact .refl n _
    · cases h₂
      exact grows_chain _ _ _ hid
  cases redir with
  | none => exact hg₁.trans (hname cts₁ h)
  | some r =>
      obtain ⟨cts₂, hredir, h⟩ := Option.bind_eq_some_iff.1 h
      obtain ⟨⟨id', cts₃⟩, hnew', rfl⟩ := Option.map_eq_some_iff.1 hredir
      have hg₃ := (grows_ctypeNew (hn.trans hg₁.top_le) hnew').2
      exact ((hg₁.trans hg₃).trans (grows_set cts₃ id _ hid)).trans (hname _ h)

/-- A new element behind the last one, which only gets its sibling. -/
theorem append_eq {n : ℕ} {cts cts' : CTState Str} {last id : ℕ} {ct : CType Str}
    (hn : n ≤ cts.top) (h : append cts last ct = some (id, cts')) :
    n ≤ id ∧ cts.top ≤ cts'.top ∧
      ∀ i < n, cts'.tab i = if i = last then { cts.tab i with sib := id } else cts.tab i := by
  obtain ⟨⟨id', cts₁⟩, hnew, heq⟩ := Option.map_eq_some_iff.1 h
  cases heq
  obtain ⟨hid, hg⟩ := grows_ctypeNew hn hnew
  refine ⟨hid, hg.top_le, fun i hi => ?_⟩
  simp only [setSib, CTState.set, Function.update_apply]
  split
  · next hlast => rw [← hlast, hg.tab_eq i hi]
  · exact hg.tab_eq i hi

theorem grows_setFields {n : ℕ} (cts : CTState Str) (ids : List ℕ) (hids : ∀ id ∈ ids, n ≤ id)
    (fs : List (BitVec 32 × BitVec 32)) : Grows n cts (setFields cts ids fs) := by
  induction ids generalizing cts fs with
  | nil => exact .refl n _
  | cons id ids ih =>
      cases fs with
      | nil => exact .refl n _
      | cons f fs =>
          have hid := hids id List.mem_cons_self
          exact (grows_set cts id _ hid).trans
            (ih _ (fun i hi => hids i (List.mem_cons_of_mem _ hi)) fs)

/-! ### What a run keeps -/

/-- The type that a frame is about. -/
def Frame.touches : Frame → Option ℕ
  | .body sid _ | .attribs sid _ => some sid
  | .enum eid _ => some eid
  | .params _ => none

/-- The type that nothing else can open before the frame is done. -/
def Frame.holds : Frame → Option ℕ
  | .body sid _ | .attribs sid (_ :: _) => some sid
  | .enum eid _ => some eid
  | .attribs _ [] | .params _ => none

/-- The elements that a frame has added. -/
def Frame.ids : Frame → List ℕ
  | .body _ ids | .attribs _ ids | .enum _ ids | .params ids => ids

/-- A frame over another one does not touch what that one holds. -/
def Apart (n : ℕ) (above below : Frame) : Prop :=
  ∀ id < n, below.holds = some id → above.touches ≠ some id

/-- What holds of the state of the parser, where `saved` is the table at the start. -/
structure Inv (saved : CTState Str) (s : PState Str) : Prop where
  top_le : saved.top ≤ s.cts.top
  next_eq : ∀ id < saved.top, (s.cts.tab id).next = (saved.tab id).next
  same : ∀ id < saved.top, id ∉ s.begun → s.cts.tab id = saved.tab id
  differs : ∀ id < saved.top, id ∈ s.begun →
    (s.cts.tab id).size ≠ ctsizeInvalid ∨ (s.cts.tab id).sib ≠ 0
  incomplete : ∀ id < saved.top, (id ∈ s.begun ∨ ∃ f ∈ s.stack, f.touches = some id) →
    (saved.tab id).size = ctsizeInvalid ∧ (saved.tab id).sib = 0
  held : ∀ f ∈ s.stack, ∀ id < saved.top, f.holds = some id →
    id ∈ s.begun ∧ (s.cts.tab id).sib ≠ 0
  empty : ∀ id < saved.top, .body id [] ∈ s.stack →
    s.cts.tab id = { saved.tab id with sib := 1 }
  fresh : ∀ f ∈ s.stack, ∀ id ∈ f.ids, saved.top ≤ id
  apart : s.stack.Pairwise (Apart saved.top)

theorem Inv.init (saved : CTState Str) : Inv saved { cts := saved } where
  top_le := le_rfl
  next_eq _ _ := rfl
  same _ _ _ := rfl
  differs _ _ h := nomatch h
  incomplete _ _ h := by simp at h
  held _ h := nomatch h
  empty _ _ h := nomatch h
  fresh _ h := nomatch h
  apart := .nil

/-- Only elements were added. -/
theorem Inv.grows {saved : CTState Str} {s : PState Str} (hi : Inv saved s) {cts : CTState Str}
    (hg : Grows saved.top s.cts cts) : Inv saved { s with cts := cts } where
  top_le := hi.top_le.trans hg.top_le
  next_eq id hid := by rw [hg.tab_eq id hid, hi.next_eq id hid]
  same id hid h := by rw [hg.tab_eq id hid, hi.same id hid h]
  differs id hid h := by
    rw [hg.tab_eq id hid]
    exact hi.differs id hid h
  incomplete := hi.incomplete
  held f hf id hid h := by
    rw [hg.tab_eq id hid]
    exact hi.held f hf id hid h
  empty id hid h := by rw [hg.tab_eq id hid, hi.empty id hid h]
  fresh := hi.fresh
  apart := hi.apart

/-- The frame at the top goes on with another element. -/
theorem Inv.more {saved : CTState Str} {cts : CTState Str} {f g : Frame} {stack : List Frame}
    {begun : List ℕ} (hi : Inv saved ⟨cts, f :: stack, begun⟩) (htouches : g.touches = f.touches)
    (hholds : g.holds = f.holds) (hids : ∀ id ∈ g.ids, saved.top ≤ id)
    (hne : ∀ sid, g ≠ .body sid []) : Inv saved ⟨cts, g :: stack, begun⟩ where
  top_le := hi.top_le
  next_eq := hi.next_eq
  same := hi.same
  differs := hi.differs
  incomplete id hid h := by
    refine hi.incomplete id hid ?_
    simp only [List.exists_mem_cons_iff, htouches] at h ⊢
    exact h
  held f' hf' id hid h := by
    rcases List.mem_cons.1 hf' with rfl | hf'
    · exact hi.held f List.mem_cons_self id hid (hholds ▸ h)
    · exact hi.held f' (List.mem_cons_of_mem _ hf') id hid h
  empty id hid h := by
    rcases List.mem_cons.1 h with h | h
    · exact absurd h.symm (hne id)
    · exact hi.empty id hid (List.mem_cons_of_mem _ h)
  fresh f' hf' := by
    rcases List.mem_cons.1 hf' with rfl | hf'
    · exact hids
    · exact hi.fresh f' (List.mem_cons_of_mem _ hf')
  apart := by
    obtain ⟨hf, hstack⟩ := List.pairwise_cons.1 hi.apart
    exact List.pairwise_cons.2 ⟨fun b hb id hid h => htouches ▸ hf b hb id hid h, hstack⟩

/-- The parameters of a function begin. -/
theorem Inv.params {saved : CTState Str} {cts : CTState Str} {stack : List Frame}
    {begun : List ℕ} (hi : Inv saved ⟨cts, stack, begun⟩) :
    Inv saved ⟨cts, .params [] :: stack, begun⟩ where
  top_le := hi.top_le
  next_eq := hi.next_eq
  same := hi.same
  differs := hi.differs
  incomplete id hid h := hi.incomplete id hid <| by simpa [Frame.touches] using h
  held f hf id hid h := by
    rcases List.mem_cons.1 hf with rfl | hf
    · exact nomatch h
    · exact hi.held f hf id hid h
  empty id hid h := hi.empty id hid ((List.mem_cons.1 h).resolve_left nofun)
  fresh f hf := by
    rcases List.mem_cons.1 hf with rfl | hf
    · exact nofun
    · exact hi.fresh f hf
  apart := List.pairwise_cons.2 ⟨fun _ _ _ _ _ => nofun, hi.apart⟩

/-- The frame at the top is done. -/
theorem Inv.pop {saved : CTState Str} {cts : CTState Str} {f : Frame} {stack : List Frame}
    {begun : List ℕ} (hi : Inv saved ⟨cts, f :: stack, begun⟩) : Inv saved ⟨cts, stack, begun⟩ where
  top_le := hi.top_le
  next_eq := hi.next_eq
  same := hi.same
  differs := hi.differs
  incomplete id hid h := hi.incomplete id hid <| h.imp_right fun ⟨f', hf', h'⟩ =>
    ⟨f', List.mem_cons_of_mem _ hf', h'⟩
  held f' hf' := hi.held f' (List.mem_cons_of_mem _ hf')
  empty id hid h := hi.empty id hid (List.mem_cons_of_mem _ h)
  fresh f' hf' := hi.fresh f' (List.mem_cons_of_mem _ hf')
  apart := (List.pairwise_cons.1 hi.apart).2

/-- The body of an incomplete type begins. -/
theorem Inv.open {saved cts cts' : CTState Str} {stack : List Frame} {begun : List ℕ} {sid : ℕ}
    (hi : Inv saved ⟨cts, stack, begun⟩) (h : openType cts sid = some cts') (f : Frame)
    (hf : f = .body sid [] ∨ f = .enum sid []) : Inv saved ⟨cts', f :: stack, sid :: begun⟩ := by
  obtain ⟨hopen, rfl⟩ : ((cts.tab sid).size = ctsizeInvalid ∧ (cts.tab sid).sib = 0) ∧
      setSib cts sid 1 = cts' := by
    have h' := (Option.ite_none_right_eq_some.1 h).2
    obtain ⟨hne, heq⟩ := Option.ite_none_left_eq_some.1 h'
    exact ⟨by simpa using hne, by simpa using heq⟩
  have htouch : f.touches = some sid ∧ f.holds = some sid ∧ f.ids = [] := by
    rcases hf with rfl | rfl <;> exact ⟨rfl, rfl, rfl⟩
  -- the type was as at the start, and no other frame holds it
  have hnot : sid < saved.top → sid ∉ begun := fun hid hb =>
    (hi.differs sid hid hb).elim (· hopen.1) (· hopen.2)
  have hfree : ∀ b ∈ stack, ∀ id < saved.top, b.holds = some id → id ≠ sid := by
    rintro b hb id hid hh rfl
    exact (hi.held b hb id hid hh).2 hopen.2
  have hother : ∀ id, id ≠ sid → (setSib cts sid 1).tab id = cts.tab id := fun id hne =>
    Function.update_of_ne hne _ _
  have hself : (setSib cts sid 1).tab sid = { cts.tab sid with sib := 1 } := Function.update_self ..
  constructor
  case top_le => exact hi.top_le
  case next_eq =>
    intro id hid
    rw [← hi.next_eq id hid]
    by_cases hne : id = sid
    · rw [hne, hself]
    · rw [hother id hne]
  case same =>
    intro id hid hb
    rw [List.mem_cons, not_or] at hb
    exact (hother id hb.1).trans (hi.same id hid hb.2)
  case differs =>
    intro id hid hb
    by_cases hne : id = sid
    · rw [hne, hself]
      exact .inr (by simp)
    · rw [hother id hne]
      exact hi.differs id hid ((List.mem_cons.1 hb).resolve_left hne)
  case incomplete =>
    intro id hid hb
    by_cases hne : id = sid
    · subst hne
      rw [← hi.same id hid (hnot hid)]
      exact hopen
    · refine hi.incomplete id hid (hb.imp (fun h => (List.mem_cons.1 h).resolve_left hne) ?_)
      rintro ⟨f', hf', ht⟩
      rcases List.mem_cons.1 hf' with rfl | hf'
      · exact absurd (Option.some.inj (ht.symm.trans htouch.1)) hne
      · exact ⟨f', hf', ht⟩
  case held =>
    intro f' hf' id hid hh
    rcases List.mem_cons.1 hf' with rfl | hf'
    · obtain rfl := Option.some.inj (htouch.2.1.symm.trans hh)
      exact ⟨List.mem_cons_self, by simp [hself]⟩
    · rw [hother id (hfree f' hf' id hid hh)]
      obtain ⟨hb, hsib⟩ := hi.held f' hf' id hid hh
      exact ⟨List.mem_cons_of_mem _ hb, hsib⟩
  case empty =>
    intro id hid hm
    by_cases hne : id = sid
    · rw [hne, hself, hi.same sid (hne ▸ hid) (hnot (hne ▸ hid))]
    · rw [hother id hne]
      refine hi.empty id hid ((List.mem_cons.1 hm).resolve_left fun heq => hne ?_)
      exact Option.some.inj (htouch.1 ▸ heq ▸ rfl)
  case fresh =>
    intro f' hf' id hid
    rcases List.mem_cons.1 hf' with rfl | hf'
    · simp [htouch.2.2] at hid
    · exact hi.fresh f' hf' id hid
  case apart =>
    refine List.pairwise_cons.2 ⟨fun b hb id hid hh ht => hfree b hb id hid hh ?_, hi.apart⟩
    exact Option.some.inj (ht.symm.trans htouch.1)

/-- The type of the frame at the top is changed in place. -/
theorem Inv.write {saved cts cts' : CTState Str} {f : Frame} {stack : List Frame}
    {begun begun' : List ℕ} {sid : ℕ} (hi : Inv saved ⟨cts, f :: stack, begun⟩)
    (hf : f.touches = some sid) (hne : f ≠ .body sid []) (htop : cts.top ≤ cts'.top)
    (hother : ∀ id < saved.top, id ≠ sid → cts'.tab id = cts.tab id)
    (hnext : sid < saved.top → (cts'.tab sid).next = (cts.tab sid).next)
    (hdiff : sid < saved.top →
      (cts'.tab sid).size ≠ ctsizeInvalid ∨ (cts'.tab sid).sib ≠ 0)
    (hsib : sid < saved.top → f.holds = some sid → (cts'.tab sid).sib ≠ 0)
    (hbegun : ∀ id, id ∈ begun' ↔ id = sid ∨ id ∈ begun) :
    Inv saved ⟨cts', f :: stack, begun'⟩ := by
  have happ := (List.pairwise_cons.1 hi.apart).1
  have hfree : ∀ b ∈ stack, ∀ id < saved.top, b.holds = some id → id ≠ sid := by
    rintro b hb id hid hh rfl
    exact happ b hb id hid hh hf
  constructor
  case top_le => exact hi.top_le.trans htop
  case next_eq =>
    intro id hid
    rw [← hi.next_eq id hid]
    by_cases hid' : id = sid
    · subst hid'
      exact hnext hid
    · rw [hother id hid hid']
  case same =>
    intro id hid hb
    rw [hbegun, not_or] at hb
    exact (hother id hid hb.1).trans (hi.same id hid hb.2)
  case differs =>
    intro id hid hb
    by_cases hid' : id = sid
    · subst hid'
      exact hdiff hid
    · rw [hother id hid hid']
      exact hi.differs id hid (((hbegun id).1 hb).resolve_left hid')
  case incomplete =>
    intro id hid hb
    refine hi.incomplete id hid ?_
    by_cases hid' : id = sid
    · exact .inr ⟨f, List.mem_cons_self, hid' ▸ hf⟩
    · exact hb.imp_left fun h => ((hbegun id).1 h).resolve_left hid'
  case held =>
    intro f' hf' id hid hh
    rcases List.mem_cons.1 hf' with rfl | hf'
    · obtain ⟨hb, hs⟩ := hi.held f' List.mem_cons_self id hid hh
      refine ⟨(hbegun id).2 (.inr hb), ?_⟩
      by_cases hid' : id = sid
      · subst hid'
        exact hsib hid hh
      · rw [hother id hid hid']
        exact hs
    · rw [hother id hid (hfree f' hf' id hid hh)]
      obtain ⟨hb, hs⟩ := hi.held f' (List.mem_cons_of_mem _ hf') id hid hh
      exact ⟨(hbegun id).2 (.inr hb), hs⟩
  case empty =>
    intro id hid hm
    have hid' : id ≠ sid := by
      rintro rfl
      rcases List.mem_cons.1 hm with heq | hm
      · exact hne heq.symm
      · exact hfree _ hm id hid rfl rfl
    exact (hother id hid hid').trans (hi.empty id hid hm)
  case fresh => exact hi.fresh
  case apart => exact hi.apart

/-- The body of an empty struct ends. -/
theorem Inv.closeEmpty {saved cts : CTState Str} {stack : List Frame} {begun : List ℕ} {sid : ℕ}
    (hi : Inv saved ⟨cts, .body sid [] :: stack, begun⟩) :
    Inv saved ⟨setSib cts sid 0, .attribs sid [] :: stack, begun.filter (· != sid)⟩ := by
  have happ := (List.pairwise_cons.1 hi.apart).1
  have hfree : ∀ b ∈ stack, ∀ id < saved.top, b.holds = some id → id ≠ sid := by
    rintro b hb id hid hh rfl
    exact happ b hb id hid hh rfl
  have hother : ∀ id, id ≠ sid → (setSib cts sid 0).tab id = cts.tab id := fun id hne =>
    Function.update_of_ne hne _ _
  have hself : sid < saved.top → (setSib cts sid 0).tab sid = saved.tab sid := by
    intro hid
    have hinc := hi.incomplete sid hid (.inr ⟨_, List.mem_cons_self, rfl⟩)
    have hone : cts.tab sid = { saved.tab sid with sib := 1 } := hi.empty sid hid List.mem_cons_self
    simp only [setSib, CTState.set, Function.update_self, hone, ← hinc.2]
  have hbegun : ∀ id, id ∈ begun.filter (· != sid) ↔ id ≠ sid ∧ id ∈ begun := by
    simp [and_comm]
  constructor
  case top_le => exact hi.top_le
  case next_eq =>
    intro id hid
    by_cases hid' : id = sid
    · rw [hid', hself (hid' ▸ hid)]
    · rw [hother id hid', hi.next_eq id hid]
  case same =>
    intro id hid hb
    by_cases hid' : id = sid
    · rw [hid', hself (hid' ▸ hid)]
    · exact (hother id hid').trans (hi.same id hid fun h => hb ((hbegun id).2 ⟨hid', h⟩))
  case differs =>
    intro id hid hb
    obtain ⟨hid', hb⟩ := (hbegun id).1 hb
    rw [hother id hid']
    exact hi.differs id hid hb
  case incomplete =>
    intro id hid hb
    refine hi.incomplete id hid (hb.imp (fun h => ((hbegun id).1 h).2) ?_)
    simp [Frame.touches]
  case held =>
    intro f' hf' id hid hh
    rcases List.mem_cons.1 hf' with rfl | hf'
    · exact nomatch hh
    · have hid' := hfree f' hf' id hid hh
      obtain ⟨hb, hs⟩ := hi.held f' (List.mem_cons_of_mem _ hf') id hid hh
      exact ⟨(hbegun id).2 ⟨hid', hb⟩, hother id hid' ▸ hs⟩
  case empty =>
    intro id hid hm
    have hm : Frame.body id [] ∈ stack := (List.mem_cons.1 hm).resolve_left nofun
    rw [hother id (hfree _ hm id hid rfl)]
    exact hi.empty id hid (List.mem_cons_of_mem _ hm)
  case fresh =>
    intro f' hf'
    rcases List.mem_cons.1 hf' with rfl | hf'
    · exact nofun
    · exact hi.fresh f' (List.mem_cons_of_mem _ hf')
  case apart =>
    obtain ⟨-, hstack⟩ := List.pairwise_cons.1 hi.apart
    exact List.pairwise_cons.2 ⟨fun b hb id hid hh => happ b hb id hid hh, hstack⟩

/-- A new element behind the last one of the frame at the top. -/
theorem Inv.append {saved cts cts' : CTState Str} {f g : Frame} {stack : List Frame}
    {begun : List ℕ} {sid id : ℕ} {ids : List ℕ} {ct : CType Str}
    (hi : Inv saved ⟨cts, f :: stack, begun⟩) (hids : f.ids = ids)
    (happend : append cts (ids.headD sid) ct = some (id, cts'))
    (hsid : f.touches = some sid ∧ f.holds = some sid) (hgids : g.ids = id :: ids)
    (hg : g.touches = some sid ∧ g.holds = some sid) : Inv saved ⟨cts', g :: stack, begun⟩ := by
  obtain ⟨hid, htop, htab⟩ := append_eq hi.top_le happend
  have hfresh := hi.fresh f List.mem_cons_self
  have hnew : ∀ i ∈ g.ids, saved.top ≤ i := by
    intro i hi'
    rw [hgids] at hi'
    rcases List.mem_cons.1 hi' with rfl | hi'
    · exact hid
    · exact hfresh i (hids ▸ hi')
  have hne : ∀ sid', g ≠ .body sid' [] := by
    rintro sid' rfl
    exact nomatch hgids
  have hmore := hi.more (hg.1.trans hsid.1.symm) (hg.2.trans hsid.2.symm) hnew hne
  cases ids with
  | nil =>
      -- the first one changes the type itself
      have hself : sid < saved.top → cts'.tab sid = { cts.tab sid with sib := id } := fun h =>
        (htab sid h).trans (if_pos rfl)
      have hb : sid < saved.top → sid ∈ begun := fun h =>
        (hi.held f List.mem_cons_self sid h hsid.2).1
      have hsib : sid < saved.top → (cts'.tab sid).sib ≠ 0 := fun h => by
        rw [hself h]
        have : id ≠ 0 := by omega
        exact this
      by_cases hold : sid < saved.top
      · refine hmore.write hg.1 (hne sid) htop (fun i hi' hi'' => (htab i hi').trans (if_neg hi''))
          (fun h => by rw [hself h]) (fun h => .inr (hsib h)) (fun h _ => hsib h) fun i => ?_
        refine ⟨.inr, ?_⟩
        rintro (rfl | h)
        exacts [hb hold, h]
      · refine hmore.grows ⟨htop, fun i hi' => (htab i hi').trans (if_neg ?_)⟩
        rintro rfl
        exact hold hi'
  | cons last ids =>
      refine hmore.grows ⟨htop, fun i hi' => (htab i hi').trans (if_neg ?_)⟩
      rintro rfl
      exact absurd hi' (not_lt.2 (hfresh _ (hids ▸ List.mem_cons_self)))

/-- Every action keeps the invariant. -/
theorem Inv.step [DecidableEq Str] {cfg : Cfg Str} {saved : CTState Str} {s s' : PState Str}
    {a : Action Str} (hi : Inv saved s) (h : Cparse.step cfg s a = some s') : Inv saved s' := by
  obtain ⟨cts, stack, begun⟩ := s
  cases a with
  | intern info size =>
      obtain ⟨⟨id, cts'⟩, hr, rfl⟩ := Option.map_eq_some_iff.1 h
      exact hi.grows (grows_ctypeIntern hi.top_le hr)
  | declare info size sib name redir =>
      obtain ⟨cts', hr, rfl⟩ := Option.map_eq_some_iff.1 (Option.ite_none_right_eq_some.1 h).2
      exact hi.grows (grows_declare hi.top_le hr)
  | structName info name =>
      obtain ⟨cts', hr, rfl⟩ := Option.map_eq_some_iff.1 h
      exact hi.grows (grows_structName hi.top_le hr)
  | openBody sid =>
      obtain ⟨cts', hr, rfl⟩ := Option.map_eq_some_iff.1 (Option.ite_none_right_eq_some.1 h).2
      exact hi.open hr _ (.inl rfl)
  | openEnum eid =>
      obtain ⟨cts', hr, rfl⟩ := Option.map_eq_some_iff.1 (Option.ite_none_right_eq_some.1 h).2
      exact hi.open hr _ (.inr rfl)
  | field info size name =>
      simp only [Cparse.step] at h
      split at h
      · obtain ⟨⟨id, cts'⟩, hr, rfl⟩ := Option.map_eq_some_iff.1 h
        exact hi.append rfl hr ⟨rfl, rfl⟩ rfl ⟨rfl, rfl⟩
      · exact nomatch h
  | enumConst info size name =>
      simp only [Cparse.step] at h
      split at h
      · obtain ⟨⟨id, cts'⟩, hr, rfl⟩ := Option.map_eq_some_iff.1 h
        obtain ⟨hid, -⟩ := append_eq hi.top_le hr
        have happ : Inv saved ⟨cts', .enum _ (id :: _) :: _, begun⟩ :=
          hi.append rfl hr ⟨rfl, rfl⟩ rfl ⟨rfl, rfl⟩
        exact happ.grows (grows_chain _ _ _ hid)
      · exact nomatch h
  | closeBody =>
      simp only [Cparse.step] at h
      split at h
      · next sid ids _ =>
          cases h
          cases ids with
          | nil => exact hi.closeEmpty
          | cons last ids =>
              have hfresh := hi.fresh _ List.mem_cons_self
              have hclose : Inv saved ⟨cts, .attribs sid (last :: ids) :: _, begun⟩ :=
                hi.more rfl rfl hfresh nofun
              exact hclose.grows (grows_set _ _ _ (hfresh last List.mem_cons_self))
      · exact nomatch h
  | layout sattr =>
      simp only [Cparse.step] at h
      split at h
      · next sid ids _ =>
          obtain ⟨r, hr, rfl⟩ := Option.map_eq_some_iff.1 h
          have hfresh := hi.fresh _ List.mem_cons_self
          have hfields : Grows saved.top cts (setFields cts ids.reverse r.1) :=
            grows_setFields cts _ (fun i hi' => hfresh i (List.mem_reverse.1 hi')) r.1
          have hself : (setInfo (setFields cts ids.reverse r.1) sid r.2.1 r.2.2).tab sid =
              { (setFields cts ids.reverse r.1).tab sid with info := r.2.1, size := r.2.2 } :=
            Function.update_self ..
          suffices hw : Inv saved ⟨setInfo (setFields cts ids.reverse r.1) sid r.2.1 r.2.2,
              .attribs sid ids :: _, sid :: begun⟩ from hw.pop
          refine hi.write rfl nofun hfields.top_le (fun i hi' hne => ?_) (fun hsid => ?_)
            (fun _ => .inl ?_) (fun hsid hh => ?_) fun i => List.mem_cons
          · exact (Function.update_of_ne hne _ _).trans (hfields.tab_eq i hi')
          · rw [hself, hfields.tab_eq sid hsid]
          · rw [hself]
            exact cfg.layout_size _ _ _ _ hr
          · rw [hself, hfields.tab_eq sid hsid]
            exact (hi.held _ List.mem_cons_self sid hsid hh).2
      · exact nomatch h
  | closeEnum einfo =>
      simp only [Cparse.step] at h
      split at h
      · next eid last ids stack =>
          cases h
          have hself : (setInfo cts eid einfo 4).tab eid =
              { cts.tab eid with info := einfo, size := 4 } := Function.update_self ..
          have hother : ∀ i, i ≠ eid → (setInfo cts eid einfo 4).tab i = cts.tab i := fun i hne =>
            Function.update_of_ne hne _ _
          have hfour : (4 : BitVec 32) ≠ ctsizeInvalid := by decide
          suffices hw : Inv saved ⟨setInfo cts eid einfo 4, .enum eid (last :: ids) :: stack, begun⟩
            from hw.pop
          by_cases hold : eid < saved.top
          · have hheld := hi.held _ List.mem_cons_self eid hold rfl
            refine hi.write rfl nofun le_rfl (fun i _ => hother i) (fun _ => by rw [hself])
              (fun _ => .inl (by rw [hself]; exact hfour)) (fun _ _ => by rw [hself]; exact hheld.2)
              fun i => ⟨.inr, ?_⟩
            rintro (rfl | hb)
            exacts [hheld.1, hb]
          · refine hi.grows ⟨le_rfl, fun i hi' => hother i ?_⟩
            rintro rfl
            exact hold hi'
      · exact nomatch h
  | openParams =>
      cases h
      exact hi.params
  | param info size name =>
      simp only [Cparse.step] at h
      split at h
      · obtain ⟨⟨id, cts'⟩, hr, rfl⟩ := Option.map_eq_some_iff.1 h
        obtain ⟨hid, hg⟩ := grows_ctypeNew hi.top_le hr
        exact (hi.grows hg).more rfl rfl (by simpa [Frame.ids] using hid) nofun
      · obtain ⟨⟨id, cts'⟩, hr, rfl⟩ := Option.map_eq_some_iff.1 h
        obtain ⟨hid, htop, htab⟩ := append_eq hi.top_le hr
        have hfresh := hi.fresh _ List.mem_cons_self
        refine (hi.grows ⟨htop, fun i hi' => (htab i hi').trans (if_neg ?_)⟩).more rfl rfl
          (List.forall_mem_cons.2 ⟨hid, hfresh⟩) nofun
        rintro rfl
        exact absurd hi' (not_lt.2 (hfresh _ List.mem_cons_self))
      · exact nomatch h
  | closeParams =>
      simp only [Cparse.step] at h
      split at h
      · cases h
        exact hi.pop
      · exact nomatch h

theorem Inv.run [DecidableEq Str] {cfg : Cfg Str} {saved : CTState Str}
    {as : List (Action Str)} {s s' : PState Str} (hi : Inv saved s)
    (h : Cparse.run cfg s as = some s') : Inv saved s' := by
  induction as generalizing s with
  | nil =>
      cases h
      exact hi
  | cons a as ih =>
      obtain ⟨s₁, hs, h⟩ := Option.bind_eq_some_iff.1 h
      exact ih (hi.step hs) h

/-! ### Failed declarations -/

/-- An element below the old top is as before exactly if its definition was not begun. -/
theorem Inv.tab_eq_iff {saved : CTState Str} {s : PState Str} (hi : Inv saved s) {id : ℕ}
    (hid : id < saved.top) : s.cts.tab id = saved.tab id ↔ id ∉ s.begun := by
  refine ⟨fun heq hb => ?_, hi.same id hid⟩
  obtain ⟨hsize, hsib⟩ := hi.incomplete id hid (.inl hb)
  rcases hi.differs id hid hb with h | h
  · exact h (heq ▸ hsize)
  · exact h (heq ▸ hsib)

/-- The types whose definition a list of actions begins: the stack has the types of the bodies that are
under way, each with whether it is empty so far. -/
def track : List (Option (ℕ × Bool)) × List ℕ → Action Str → List (Option (ℕ × Bool)) × List ℕ
  | (stack, begun), .openBody sid | (stack, begun), .openEnum sid =>
      (some (sid, true) :: stack, sid :: begun)
  | (some (sid, _) :: stack, begun), .field .. | (some (sid, _) :: stack, begun), .enumConst .. =>
      (some (sid, false) :: stack, begun)
  | (some (sid, true) :: stack, begun), .closeBody =>
      -- an empty body has changed nothing before the layout
      (some (sid, true) :: stack, begun.filter (· != sid))
  | (some (sid, _) :: stack, begun), .layout _ => (stack, sid :: begun)
  | (stack, begun), .openParams => (none :: stack, begun)
  | (_ :: stack, begun), .closeEnum _ | (_ :: stack, begun), .closeParams => (stack, begun)
  | st, _ => st

/-- The types that the actions begin to define. -/
def begins (as : List (Action Str)) : List ℕ := (as.foldl track ([], [])).2

/-- What `track` keeps of a frame. -/
def Frame.track : Frame → Option (ℕ × Bool)
  | .body sid ids | .attribs sid ids | .enum sid ids => some (sid, ids.isEmpty)
  | .params _ => none

/-- What `track` keeps of a state. -/
def PState.track (s : PState Str) : List (Option (ℕ × Bool)) × List ℕ :=
  (s.stack.map Frame.track, s.begun)

theorem track_step [DecidableEq Str] {cfg : Cfg Str} {s s' : PState Str} {a : Action Str}
    (h : Cparse.step cfg s a = some s') : s'.track = Cparse.track s.track a := by
  obtain ⟨cts, stack, begun⟩ := s
  cases a with
  | intern | structName =>
      obtain ⟨r, -, rfl⟩ := Option.map_eq_some_iff.1 h
      rfl
  | declare =>
      obtain ⟨r, -, rfl⟩ := Option.map_eq_some_iff.1 (Option.ite_none_right_eq_some.1 h).2
      rfl
  | openBody | openEnum =>
      obtain ⟨r, -, rfl⟩ := Option.map_eq_some_iff.1 (Option.ite_none_right_eq_some.1 h).2
      rfl
  | openParams =>
      cases h
      rfl
  | field | enumConst | layout =>
      simp only [Cparse.step] at h
      split at h
      · obtain ⟨r, -, rfl⟩ := Option.map_eq_some_iff.1 h
        rfl
      · exact nomatch h
  | closeBody =>
      simp only [Cparse.step] at h
      split at h
      · next sid ids _ =>
          cases h
          cases ids <;> rfl
      · exact nomatch h
  | closeEnum | closeParams =>
      simp only [Cparse.step] at h
      split at h
      · cases h
        rfl
      · exact nomatch h
  | param =>
      simp only [Cparse.step] at h
      split at h
      iterate 2
        · obtain ⟨r, -, rfl⟩ := Option.map_eq_some_iff.1 h
          rfl
      · exact nomatch h

theorem begun_run [DecidableEq Str] {cfg : Cfg Str} {s s' : PState Str} {as : List (Action Str)}
    (h : Cparse.run cfg s as = some s') : s'.begun = (as.foldl Cparse.track s.track).2 := by
  induction as generalizing s with
  | nil =>
      cases h
      rfl
  | cons a as ih =>
      obtain ⟨s₁, hs, h⟩ := Option.bind_eq_some_iff.1 h
      rw [ih h, List.foldl_cons, track_step hs]

/-- A failed declaration leaves everything as it was exactly if it has not begun to define a struct,
union or enum that was declared before. -/
theorem fail_unchanged_iff [DecidableEq Str] (cfg : Cfg Str) (saved cts : CTState Str)
    (hok : saved.Ok) (as : List (Action Str)) (h : fail cfg saved as = some cts) :
    Unchanged cfg.hashName saved cts ↔ ∀ id ∈ begins as, saved.top ≤ id := by
  obtain ⟨s, hrun, rfl⟩ := Option.map_eq_some_iff.1 h
  have hi := (Inv.init saved).run hrun
  have hbegun : s.begun = begins as := begun_run hrun
  rw [unchanged_restore_iff hok hi.next_eq, ← hbegun]
  constructor
  · intro heq id hb
    by_contra hid
    exact (hi.tab_eq_iff (not_le.1 hid)).1 (heq id (not_le.1 hid)) hb
  · exact fun hb id hid => (hi.tab_eq_iff hid).2 fun hmem => absurd hid (not_lt.2 (hb id hmem))

/-- A table with `struct S;`, where a name is a number. -/
def declared : CTState ℕ where
  tab id :=
    if id = 1 then { info := ctinfo .struct 0, size := ctsizeInvalid, name := some 0 } else {}
  top := 2
  hash h := if h = 0 then 1 else 0

theorem declared_ok : declared.Ok where
  top_pos := by decide
  sib_lt := by decide
  next_lt := by decide
  hash_lt h := by
    unfold declared
    dsimp only
    split <;> decide

/-- A layout with fields that stay as they are. -/
def plain : Cfg ℕ where
  hashName := id
  noImplicit := false
  layout sinfo _ fields := some (fields.map fun ct => (ct.info, ct.size), sinfo, 4)
  layout_size := by
    rintro sinfo sattr fields r h
    cases h
    exact (by decide : (4 : BitVec 32) ≠ ctsizeInvalid)

/-- `struct { int x; <error>`. -/
theorem fail_unchanged_anonymous :
    Unchanged plain.hashName declared
      (declared.restore ((fail plain declared [.structName (ctinfo .struct 0) none, .openBody 2,
        .field (ctinfo .field 9) 0 (some 1)]).getD declared)) :=
  (fail_unchanged_iff plain declared _ declared_ok
    [.structName (ctinfo .struct 0) none, .openBody 2, .field (ctinfo .field 9) 0 (some 1)]
    rfl).2 (by decide)

/-- `struct S { int x; <error>`: the sibling of `struct S` is an element that is gone. -/
theorem fail_not_unchanged :
    ¬ ∀ (cfg : Cfg ℕ) (saved cts : CTState ℕ), saved.Ok → ∀ as : List (Action ℕ),
      fail cfg saved as = some cts → Unchanged cfg.hashName saved cts := by
  intro h
  have hsib := (h plain declared _ declared_ok
    [.openBody 1, .field (ctinfo .field 9) 0 (some 1)] rfl).sib_lt 1 (by decide)
  exact absurd hsib (by decide)

end Cparse
