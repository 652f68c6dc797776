/-
**Global names are indices of `_ENV`.**

`Parse` gives what the parser does to its variable stack.  This module compares it with lexical
scoping, stated over lists of names: a function has variables that are active and variables that are
declared but not yet active, and a name refers to the last active variable of that name in the
innermost function that has one.

Main definitions:

* `Parse.AFun`, `Parse.astep` — scopes as the reader of a chunk sees them;
* `Parse.resolve` — the variable a name refers to, where `_ENV` always refers to something;
* `Parse.StackOk` — the invariant that ties the variable stack to the scopes;
* `Parse.Captures` — an upvalue leads to a variable, as closures are made at run time;
* `Parse.Compiled` — the code for the use of a name is right.

Main results:

* `Parse.step_ok`, `Parse.run_ok` — the invariant holds along every run of the parser;
* `Parse.global_env` — every use of a name is compiled right, the outermost function has `_ENV` as
  upvalue 0, and the store of the environment by the loader hits an upvalue iff the loaded prototype
  has one;
* `Parse.load_stripped_child` — a dump of a function without upvalues is loaded, and has none.
-/

import LuaJit.Parse

set_option relaxedAutoImplicit false
set_option autoImplicit false

namespace Parse

open Bc

/-! ### Lexical scoping -/

/-- A function as the reader of a chunk sees it: its active variables, those that are declared but
not yet active, and for each open scope the number of variables outside of it. -/
structure AFun where
  active : List VName
  pending : List VName
  levels : List ℕ
  deriving DecidableEq

/-- What an operation does to the scopes; the innermost function comes first. -/
def astep : List AFun → Op → Option (List AFun)
  | [], _ => none
  | f :: rest, .func => some (⟨[], [], []⟩ :: f :: rest)
  | _ :: rest, .endfunc => if rest = [] then none else some rest
  | f :: rest, .scope => some ({ f with levels := f.active.length :: f.levels } :: rest)
  | f :: rest, .endscope =>
      match f.pending, f.levels with
      | [], l :: levels => some ({ f with active := f.active.take l, levels := levels } :: rest)
      | _, _ => none
  | f :: rest, .new names =>
      if f.pending = [] then some ({ f with pending := names } :: rest) else none
  | f :: rest, .add n =>
      if n ≤ f.pending.length then
        some ({ f with active := f.active ++ f.pending.take n, pending := f.pending.drop n } :: rest)
      else none
  | f :: rest, _ => some (f :: rest)

/-- The scopes of a chunk at its start. -/
def achunk : List AFun := [⟨[], [], [0]⟩]

/-- The position of the last `x`. -/
@[grind =]
def innermost (x : VName) : List VName → Option ℕ
  | [] => none
  | y :: ys =>
      match innermost x ys with
      | some i => some (i + 1)
      | none => if y = x then some 0 else none

/-- A variable: a register of the function with `level` functions around it, or the environment the
chunk is loaded with. -/
inductive Target
  | loc (level reg : ℕ)
  | env
  deriving DecidableEq

/-- The variable that a name refers to.  Outside of all functions there is only `_ENV`. -/
def resolve (x : String) : List AFun → Option Target
  | [] => if x = envName then some .env else none
  | f :: rest =>
      match innermost (.str x) f.active with
      | some r => some (.loc rest.length r)
      | none => resolve x rest

theorem innermost_append (x : VName) (ys : List VName) (y : VName) :
    innermost x (ys ++ [y]) = if y = x then some ys.length else innermost x ys := by
  induction ys with
  | nil => simp [innermost]
  | cons z zs ih =>
      by_cases hy : y = x
      · subst hy
        simp [innermost, ih]
      · simp [innermost, ih, hy]

theorem innermost_lt {x : VName} {ys : List VName} {i : ℕ} (h : innermost x ys = some i) :
    i < ys.length := by
  induction ys generalizing i with
  | nil => simp [innermost] at h
  | cons y ys ih =>
      simp only [innermost] at h
      split at h
      next j hj =>
        have := ih hj
        simp only [Option.some.injEq] at h
        simp only [List.length_cons]
        omega
      next =>
        split at h
        · simp only [Option.some.injEq] at h
          simp only [List.length_cons]
          omega
        · cases h

theorem resolve_env_ne_none (fns : List AFun) : resolve envName fns ≠ none := by
  induction fns with
  | nil => simp [resolve]
  | cons f rest ih =>
      simp only [resolve]
      split
      · simp
      · exact ih

/-! ### The invariant -/

/-- The variable stack below `top` and the registers of `fs` hold the variables of `f`. -/
structure FunOk (vs : ℕ → VarInfo) (top : ℕ) (f : AFun) (fs : FuncState) : Prop where
  nactvar : fs.nactvar = f.active.length
  base : fs.vbase ≤ top
  levels : fs.bl.map (·.nactvar) = f.levels
  bound : (f.active ++ f.pending).length ≤ maxLocvar
  entry : ∀ i < (f.active ++ f.pending).length,
    fs.vbase ≤ fs.varmap i ∧ 0 < fs.varmap i ∧ fs.varmap i < top
  name : ∀ i n, (f.active ++ f.pending)[i]? = some n → (vs (fs.varmap i)).name = n
  slot : ∀ i < f.active.length, (vs (fs.varmap i)).slot = i
  inj : ∀ i < (f.active ++ f.pending).length, ∀ j < (f.active ++ f.pending).length,
    fs.varmap i = fs.varmap j → i = j

/-- The entry `v` of the variable stack is a variable of these functions, or stands for the
environment of the chunk. -/
inductive VarAt : List FuncState → ℕ → Target → Prop
  | env (fss : List FuncState) : VarAt fss 0 .env
  | loc {fs : FuncState} {rest : List FuncState} {r : ℕ} (h : r < fs.nactvar) :
      VarAt (fs :: rest) (fs.varmap r) (.loc rest.length r)
  | outer {fs : FuncState} {rest : List FuncState} {v : ℕ} {t : Target} (h : VarAt rest v t) :
      VarAt (fs :: rest) v t

/-- Upvalue `i` of the innermost function leads to a variable. -/
inductive Leads : List FuncState → ℕ → Target → Prop
  | env {fs : FuncState} (h : 0 < fs.nuv) : Leads [fs] 0 .env
  | loc {fs par : FuncState} {rest : List FuncState} {i r : ℕ} (hi : i < fs.nuv)
      (hmax : i < maxUpval) (hr : r < par.nactvar) (h : fs.uvtmp i = par.varmap r) :
      Leads (fs :: par :: rest) i (.loc rest.length r)
  | up {fs par : FuncState} {rest : List FuncState} {i j : ℕ} {t : Target} (hi : i < fs.nuv)
      (hmax : i < maxUpval) (h : fs.uvtmp i = maxVstack + j) (hl : Leads (par :: rest) j t) :
      Leads (fs :: par :: rest) i t

/-- The variable stack below `top` and the functions under construction fit the scopes. -/
inductive StackOk (vs : ℕ → VarInfo) : ℕ → List AFun → List FuncState → Prop
  | main {top : ℕ} {f : AFun} {fs : FuncState} (hf : FunOk vs top f fs) (htop : 0 < top)
      (hnuv : fs.nuv = 1) (huv : fs.uvmap 0 = 0) (henv : (vs 0).name = .str envName) :
      StackOk vs top [f] [fs]
  | child {top : ℕ} {f : AFun} {fs par : FuncState} {fns : List AFun} {rest : List FuncState}
      (hf : FunOk vs top f fs) (hs : StackOk vs fs.vbase fns (par :: rest))
      (huv : ∀ i < fs.nuv, ∃ t, VarAt (par :: rest) (fs.uvmap i) t ∧ Leads (fs :: par :: rest) i t) :
      StackOk vs top (f :: fns) (fs :: par :: rest)

theorem StackOk.pos {vs : ℕ → VarInfo} {top : ℕ} {fns : List AFun} {fss : List FuncState}
    (h : StackOk vs top fns fss) : 0 < top := by
  induction h with
  | main hf htop hnuv huv henv => exact htop
  | child hf hs huv ih => exact lt_of_lt_of_le ih hf.base

theorem StackOk.length_eq {vs : ℕ → VarInfo} {top : ℕ} {fns : List AFun} {fss : List FuncState}
    (h : StackOk vs top fns fss) : fns.length = fss.length := by
  induction h with
  | main hf htop hnuv huv henv => rfl
  | child hf hs huv ih => simp only [List.length_cons] at ih ⊢; lia

/-- The innermost function. -/
theorem StackOk.head {vs : ℕ → VarInfo} {top : ℕ} {f : AFun} {fns : List AFun} {fs : FuncState}
    {rest : List FuncState} (h : StackOk vs top (f :: fns) (fs :: rest)) : FunOk vs top f fs := by
  cases h with
  | main hf htop hnuv huv henv => exact hf
  | child hf hs huv => exact hf

/-- Replace the innermost function by one with the same upvalues. -/
theorem StackOk.setHead {vs : ℕ → VarInfo} {top top' : ℕ} {f f' : AFun} {fns : List AFun}
    {fs fs' : FuncState} {rest : List FuncState} (h : StackOk vs top (f :: fns) (fs :: rest))
    (hf : FunOk vs top' f' fs') (htop : top ≤ top') (hb : fs'.vbase = fs.vbase)
    (hn : fs'.nuv = fs.nuv) (hm : fs'.uvmap = fs.uvmap) (ht : fs'.uvtmp = fs.uvtmp) :
    StackOk vs top' (f' :: fns) (fs' :: rest) := by
  cases h with
  | main hf' htop' hnuv huv henv =>
      exact .main hf (by omega) (by rw [hn, hnuv]) (by rw [hm, huv]) henv
  | child hf' hs huv =>
      refine .child hf (by rw [hb]; exact hs) ?_
      intro i hi
      rw [hn] at hi
      obtain ⟨t, hv, hl⟩ := huv i hi
      refine ⟨t, by rw [hm]; exact hv, ?_⟩
      cases hl with
      | loc hi hmax hr h => exact .loc (by rw [hn]; exact hi) hmax hr (by rw [ht]; exact h)
      | up hi hmax h hl => exact .up (by rw [hn]; exact hi) hmax (by rw [ht]; exact h) hl

/-- Only names and slots of the variable stack matter. -/
theorem FunOk.congr {vs vs' : ℕ → VarInfo} {top : ℕ} {f : AFun} {fs : FuncState}
    (h : FunOk vs top f fs)
    (hv : ∀ v < top, (vs' v).name = (vs v).name ∧ (vs' v).slot = (vs v).slot) :
    FunOk vs' top f fs := by
  refine { h with name := ?_, slot := ?_ }
  · intro i n hi
    have hlt := (List.getElem?_eq_some_iff.1 hi).1
    rw [(hv _ (h.entry i hlt).2.2).1]
    exact h.name i n hi
  · intro i hi
    have hlt : i < (f.active ++ f.pending).length := by
      rw [List.length_append]
      omega
    rw [(hv _ (h.entry i hlt).2.2).2]
    exact h.slot i hi

theorem StackOk.congr {vs vs' : ℕ → VarInfo} {top : ℕ} {fns : List AFun} {fss : List FuncState}
    (h : StackOk vs top fns fss)
    (hv : ∀ v < top, (vs' v).name = (vs v).name ∧ (vs' v).slot = (vs v).slot) :
    StackOk vs' top fns fss := by
  induction h with
  | main hf htop hnuv huv henv =>
      exact .main (hf.congr hv) htop hnuv huv (by rw [(hv 0 htop).1]; exact henv)
  | child hf hs huv ih =>
      exact .child (hf.congr hv) (ih fun v hlt => hv v (lt_of_lt_of_le hlt hf.base)) huv

/-- The entries of variables are below `top`, and only the environment has entry 0. -/
theorem VarAt.entry {vs : ℕ → VarInfo} {top : ℕ} {fns : List AFun} {fss : List FuncState}
    (h : StackOk vs top fns fss) {v : ℕ} {t : Target} (hv : VarAt fss v t) :
    v < top ∧ (t = .env → v = 0) ∧ ∀ l r, t = .loc l r → 0 < v ∧ l < fss.length := by
  induction hv generalizing top fns with
  | env fss => exact ⟨h.pos, fun _ => rfl, fun l r ht => by cases ht⟩
  | @loc fs rest r hr =>
      cases fns with
      | nil => exact absurd h.length_eq (by simp)
      | cons f fns =>
          have hr' : r < (f.active ++ f.pending).length := by
            rw [List.length_append, ← h.head.nactvar]
            omega
          have he := h.head.entry r hr'
          refine ⟨he.2.2, fun ht => (by cases ht), ?_⟩
          intro l r' ht
          cases ht
          exact ⟨he.2.1, by simp⟩
  | @outer fs rest v t hv ih =>
      cases h with
      | main hf htop hnuv huv henv =>
          cases hv with
          | env => exact ⟨htop, fun _ => rfl, fun l r ht => by cases ht⟩
      | child hf hs huv =>
          obtain ⟨h₁, h₂, h₃⟩ := ih hs
          refine ⟨lt_of_lt_of_le h₁ hf.base, h₂, ?_⟩
          intro l r ht
          have := h₃ l r ht
          simp only [List.length_cons] at this ⊢
          omega

/-- Two variables with the same entry are the same. -/
theorem VarAt.unique {vs : ℕ → VarInfo} {top : ℕ} {fns : List AFun} {fss : List FuncState}
    (h : StackOk vs top fns fss) {v : ℕ} {t t' : Target} (hv : VarAt fss v t)
    (hv' : VarAt fss v t') : t = t' := by
  induction hv generalizing top fns t' with
  | env fss =>
      cases t' with
      | env => rfl
      | loc l r => exact absurd ((hv'.entry h).2.2 l r rfl).1 (by omega)
  | @loc fs rest r hr =>
      have hpos := ((@VarAt.loc fs rest r hr).entry h).2.2 _ _ rfl
      cases fns with
      | nil => exact absurd h.length_eq (by simp)
      | cons f fns =>
          have hfo := h.head
          have hlen : ∀ r < fs.nactvar, r < (f.active ++ f.pending).length := by
            intro r hr
            rw [List.length_append, ← hfo.nactvar]
            omega
          generalize hw : fs.varmap r = w at hv' hpos
          cases hv' with
          | env => omega
          | @loc _ _ r' hr' => rw [hfo.inj r (hlen r hr) r' (hlen r' hr') hw]
          | outer hv' =>
              -- an entry of an enclosing function is below the base of this one
              have hge := (hfo.entry r (hlen r hr)).1
              cases h with
              | main hf htop hnuv huv henv =>
                  cases hv' with
                  | env => omega
              | child hf hs huv =>
                  have := (hv'.entry hs).1
                  omega
  | @outer fs rest v t hv ih =>
      cases h with
      | main hf htop hnuv huv henv =>
          cases hv with
          | env =>
              cases t' with
              | env => rfl
              | loc l r =>
                  have h' := StackOk.main hf htop hnuv huv henv
                  exact absurd ((hv'.entry h').2.2 l r rfl).1 (by omega)
      | @child _ f _ par fns rest hf hs huv =>
          have hlt := (hv.entry hs).1
          have hz := (hv.entry hs).2
          have hv'' := hv'
          cases hv' with
          | env =>
              cases t with
              | env => rfl
              | loc l r => exact absurd (hz.2 l r rfl).1 (by omega)
          | @loc _ _ r' hr' =>
              have hr'' : r' < (f.active ++ f.pending).length := by
                rw [List.length_append, ← hf.nactvar]
                omega
              have := (hf.entry r' hr'').1
              omega
          | outer hv' => exact ih hs hv'

/-! ### Lookup -/

/-- `fs'` is `fs` with new upvalues and marks, and with other code. -/
structure FunLe (fs fs' : FuncState) : Prop where
  nactvar : fs'.nactvar = fs.nactvar
  vbase : fs'.vbase = fs.vbase
  varmap : fs'.varmap = fs.varmap
  levels : fs'.bl.map (·.nactvar) = fs.bl.map (·.nactvar)
  nuv : fs.nuv ≤ fs'.nuv
  uvmap : ∀ i < fs.nuv, fs'.uvmap i = fs.uvmap i
  uvtmp : ∀ i < fs.nuv, fs'.uvtmp i = fs.uvtmp i

theorem FunLe.refl (fs : FuncState) : FunLe fs fs where
  nactvar := rfl
  vbase := rfl
  varmap := rfl
  levels := rfl
  nuv := le_rfl
  uvmap _ _ := rfl
  uvtmp _ _ := rfl

theorem FunLe.uvmark (fs : FuncState) (level : ℕ) : FunLe fs (fscopeUvmark fs level) := by
  have hm : ∀ bl : List FuncScope, (Parse.uvmark level bl).map (·.nactvar) = bl.map (·.nactvar) := by
    intro bl
    induction bl with
    | nil => rfl
    | cons b bl ih =>
        simp only [Parse.uvmark]
        split
        · simp only [List.map_cons, ih]
        · simp only [List.map_cons]
  exact { FunLe.refl fs with levels := hm fs.bl }

theorem FunOk.mono {vs : ℕ → VarInfo} {top : ℕ} {f : AFun} {fs fs' : FuncState}
    (h : FunOk vs top f fs) (hle : FunLe fs fs') : FunOk vs top f fs' where
  nactvar := by rw [hle.nactvar, h.nactvar]
  base := by rw [hle.vbase]; exact h.base
  levels := by rw [hle.levels, h.levels]
  bound := h.bound
  entry := by rw [hle.vbase, hle.varmap]; exact h.entry
  name := by rw [hle.varmap]; exact h.name
  slot := by rw [hle.varmap]; exact h.slot
  inj := by rw [hle.varmap]; exact h.inj

theorem VarAt.mono {fss fss' : List FuncState} (hle : List.Forall₂ FunLe fss fss') {v : ℕ}
    {t : Target} (h : VarAt fss v t) : VarAt fss' v t := by
  induction h generalizing fss' with
  | env => exact .env _
  | @loc fs rest r hr =>
      cases hle with
      | @cons _ fs' _ rest' hf hrest =>
          rw [← hf.varmap, hrest.length_eq]
          exact .loc (by rw [hf.nactvar]; exact hr)
  | outer hv ih =>
      cases hle with
      | cons hf hrest => exact .outer (ih hrest)

theorem Leads.mono {fss fss' : List FuncState} (hle : List.Forall₂ FunLe fss fss') {i : ℕ}
    {t : Target} (h : Leads fss i t) : Leads fss' i t := by
  induction h generalizing fss' with
  | env hn =>
      cases hle with
      | cons hf hrest =>
          cases hrest with
          | nil => exact .env (lt_of_lt_of_le hn hf.nuv)
  | @loc fs par rest i r hi hmax hr h =>
      cases hle with
      | cons hf hrest =>
          cases hrest with
          | @cons _ par' _ rest' hp hrest =>
              rw [hrest.length_eq]
              exact .loc (lt_of_lt_of_le hi hf.nuv) hmax (by rw [hp.nactvar]; exact hr)
                (by rw [hf.uvtmp i hi, h, hp.varmap])
  | up hi hmax h hl ih =>
      cases hle with
      | cons hf hrest =>
          have hl' := ih hrest
          cases hrest with
          | cons hp hrest =>
              exact .up (lt_of_lt_of_le hi hf.nuv) hmax (by rw [hf.uvtmp _ hi, h]) hl'

/-- The innermost function changes its code and marks; the outer ones may also get upvalues. -/
theorem StackOk.child_mono {vs : ℕ → VarInfo} {top : ℕ} {f : AFun} {fs fs' : FuncState}
    {fns : List AFun} {rest rest' : List FuncState} (hf : FunOk vs top f fs) (hne : rest ≠ [])
    (huv : ∀ i < fs.nuv, ∃ t, VarAt rest (fs.uvmap i) t ∧ Leads (fs :: rest) i t)
    (hle : FunLe fs fs') (hn : fs'.nuv = fs.nuv) (hrest : List.Forall₂ FunLe rest rest')
    (hs : StackOk vs fs.vbase fns rest') : StackOk vs top (f :: fns) (fs' :: rest') := by
  cases hrest with
  | nil => exact absurd rfl hne
  | cons hp hrest =>
      have hrest' := List.Forall₂.cons hp hrest
      refine .child (hf.mono hle) (by rw [hle.vbase]; exact hs) ?_
      intro i hi
      rw [hn] at hi
      obtain ⟨t, hv, hl⟩ := huv i hi
      refine ⟨t, ?_, hl.mono (.cons hle hrest')⟩
      rw [hle.uvmap i hi]
      exact hv.mono hrest'

/-- Lookup in the current function finds the last variable of the name. -/
theorem varLookupLocal_eq {vs : ℕ → VarInfo} {top : ℕ} {f : AFun} {fs : FuncState}
    (h : FunOk vs top f fs) (x : String) (i : ℕ) (hi : i ≤ f.active.length) :
    varLookupLocal vs fs x i = innermost (.str x) (f.active.take i) := by
  induction i with
  | zero => simp [varLookupLocal, innermost]
  | succ i ih =>
      have hlt : i < f.active.length := by omega
      have hname := h.name i f.active[i] (by
        rw [List.getElem?_append_left hlt, List.getElem?_eq_getElem hlt])
      rw [List.take_succ_eq_append_getElem hlt, innermost_append, varLookupLocal, hname,
        ih (by omega), List.length_take, min_eq_left (by omega)]

theorem varLookupLocal_nactvar {vs : ℕ → VarInfo} {top : ℕ} {f : AFun} {fs : FuncState}
    (h : FunOk vs top f fs) (x : String) :
    varLookupLocal vs fs x fs.nactvar = innermost (.str x) f.active := by
  rw [h.nactvar, varLookupLocal_eq h x _ le_rfl, List.take_length]

/-- The expression for the variable `t` with entry `v`. -/
inductive Found : List FuncState → ℕ → ExpDesc → Target → Prop
  | loc {fs : FuncState} {rest : List FuncState} {r : ℕ} (h : r < fs.nactvar) :
      Found (fs :: rest) (fs.varmap r) (.vlocal r (fs.varmap r)) (.loc rest.length r)
  | up {fss : List FuncState} {i v : ℕ} {t : Target} (hv : VarAt fss v t) (hl : Leads fss i t)
      (hfar : ∀ r, t ≠ .loc (fss.length - 1) r) : Found fss v (.vupval i v) t

theorem Found.varAt {fss : List FuncState} {v : ℕ} {e : ExpDesc} {t : Target}
    (h : Found fss v e t) : VarAt fss v t := by
  cases h with
  | loc h => exact .loc h
  | up hv hl hfar => exact hv

/-- What a new upvalue refers to. -/
theorem Found.leads {fs par : FuncState} {rest : List FuncState} {v : ℕ} {e : ExpDesc} {t : Target}
    (h : Found (par :: rest) v e t) {i : ℕ} (hi : i < fs.nuv) (hmax : i < maxUpval)
    (ht : fs.uvtmp i = uvTmp v e) : Leads (fs :: par :: rest) i t := by
  cases h with
  | loc h => exact .loc hi hmax h ht
  | up hv hl hfar => exact .up hi hmax ht hl

/-- The result of looking up or adding an upvalue. -/
theorem varLookupUv_ok {vs : ℕ → VarInfo} {top : ℕ} {fns : List AFun} {fs fs' par : FuncState}
    {rest : List FuncState} {v i : ℕ} {e : ExpDesc} {t : Target}
    (hs : StackOk vs top fns (par :: rest))
    (huv : ∀ i < fs.nuv, ∃ t, VarAt (par :: rest) (fs.uvmap i) t ∧ Leads (fs :: par :: rest) i t)
    (hf : Found (par :: rest) v e t) (h : varLookupUv fs v e = some (i, fs')) :
    FunLe fs fs' ∧ fs'.bc = fs.bc ∧ Leads (fs' :: par :: rest) i t ∧
      ∀ i < fs'.nuv, ∃ t, VarAt (par :: rest) (fs'.uvmap i) t ∧ Leads (fs' :: par :: rest) i t := by
  simp only [varLookupUv] at h
  split at h
  next j hj =>
    -- the upvalue exists: its entry determines the variable
    simp only [Option.some.injEq, Prod.mk.injEq] at h
    obtain ⟨rfl, rfl⟩ := h
    have hlt : j < fs.nuv := List.mem_range.1 (List.mem_of_find?_eq_some hj)
    have heq : fs.uvmap j = v := by simpa using List.find?_some hj
    obtain ⟨t', hv, hl⟩ := huv j hlt
    rw [heq] at hv
    rw [hv.unique hs hf.varAt] at hl
    exact ⟨FunLe.refl fs, rfl, hl, huv⟩
  next =>
    split at h
    next => cases h
    next hmax =>
      simp only [Option.some.injEq, Prod.mk.injEq] at h
      obtain ⟨rfl, rfl⟩ := h
      have hle : FunLe fs { fs with
          uvmap := Function.update fs.uvmap fs.nuv v
          uvtmp := Function.update fs.uvtmp fs.nuv (uvTmp v e)
          nuv := fs.nuv + 1 } :=
        { FunLe.refl fs with
          nuv := Nat.le_succ _
          uvmap := fun i hi => Function.update_of_ne (by omega) _ _
          uvtmp := fun i hi => Function.update_of_ne (by omega) _ _ }
      refine ⟨hle, rfl, hf.leads (Nat.lt_succ_self _) (by omega) (Function.update_self _ _ _), ?_⟩
      intro i hi
      rcases Nat.lt_succ_iff_lt_or_eq.1 hi with hlt | rfl
      · obtain ⟨t', hv, hl⟩ := huv i hlt
        refine ⟨t', by rw [hle.uvmap i hlt]; exact hv, hl.mono (.cons hle ?_)⟩
        exact List.forall₂_same.2 fun fs _ => FunLe.refl fs
      · exact ⟨t, by simpa using hf.varAt,
          hf.leads (Nat.lt_succ_self _) (by omega) (Function.update_self _ _ _)⟩

theorem funLe_refl_list (fss : List FuncState) : List.Forall₂ FunLe fss fss :=
  List.forall₂_same.2 fun fs _ => FunLe.refl fs

/-- What lookup of a name does: it keeps the invariant, changes no code, and finds the variable the
name refers to. -/
structure LookupOk (vs : ℕ → VarInfo) (top : ℕ) (fns : List AFun) (fss : List FuncState) (x : String)
    (v : Option ℕ) (e : ExpDesc) (fss' : List FuncState) : Prop where
  stack : StackOk vs top fns fss'
  le : List.Forall₂ FunLe fss fss'
  code : fss'.map (·.bc) = fss.map (·.bc)
  global : resolve x fns = none → v = none ∧ e = .vglobal x
  found : ∀ t, resolve x fns = some t → ∃ vidx, v = some vidx ∧ Found fss' vidx e t

/-- The name refers to a variable of the current function. -/
theorem lookupOk_local {vs : ℕ → VarInfo} {top : ℕ} {f : AFun} {fns : List AFun} {fs : FuncState}
    {rest : List FuncState} (h : StackOk vs top (f :: fns) (fs :: rest)) {x : String} {r : ℕ}
    (hr : innermost (.str x) f.active = some r) {fs' : FuncState}
    (hfs : fs' = fs ∨ fs' = fscopeUvmark fs r) :
    LookupOk vs top (f :: fns) (fs :: rest) x (some (fs.varmap r)) (.vlocal r (fs.varmap r))
      (fs' :: rest) := by
  have hle : FunLe fs fs' := by
    rcases hfs with rfl | rfl
    · exact FunLe.refl _
    · exact FunLe.uvmark _ _
  have hcode : fs'.bc = fs.bc ∧ fs'.nuv = fs.nuv ∧ fs'.uvmap = fs.uvmap ∧ fs'.uvtmp = fs.uvtmp := by
    rcases hfs with rfl | rfl
    · exact ⟨rfl, rfl, rfl, rfl⟩
    · exact ⟨rfl, rfl, rfl, rfl⟩
  obtain ⟨hbc, hn, hm, ht⟩ := hcode
  have hlen : fns.length = rest.length := by simpa using h.length_eq
  have hres : resolve x (f :: fns) = some (.loc rest.length r) := by
    simp only [resolve, hr, hlen]
  refine ⟨h.setHead (h.head.mono hle) le_rfl hle.vbase hn hm ht,
    .cons hle (funLe_refl_list rest), by simp [hbc], ?_, ?_⟩
  · intro hn
    rw [hres] at hn
    cases hn
  · intro t ht
    rw [hres] at ht
    cases ht
    have hlt : r < fs'.nactvar := by
      rw [hle.nactvar, h.head.nactvar]
      exact innermost_lt hr
    refine ⟨fs.varmap r, rfl, ?_⟩
    rw [← hle.varmap]
    exact .loc hlt

/-- The name is not a variable of the outermost function: `_ENV` is its upvalue 0, and any other
name is global. -/
theorem lookupOk_main {vs : ℕ → VarInfo} {top : ℕ} {f : AFun} {fs : FuncState}
    (h : StackOk vs top [f] [fs]) {x : String} (hr : innermost (.str x) f.active = none) :
    if x = envName then LookupOk vs top [f] [fs] x (some 0) (.vupval 0 0) [fscopeUvmark fs 0]
    else LookupOk vs top [f] [fs] x none (.vglobal x) [fs] := by
  split
  next hx =>
    have hres : resolve x [f] = some .env := by
      rw [resolve, hr]
      simp [resolve, hx]
    have hle := FunLe.uvmark fs 0
    refine ⟨h.setHead (h.head.mono hle) le_rfl rfl rfl rfl rfl, .cons hle .nil, rfl, ?_, ?_⟩
    · intro hn
      rw [hres] at hn
      cases hn
    · intro t ht
      rw [hres] at ht
      cases ht
      cases h with
      | main hf htop hnuv huv henv =>
          have hpos : 0 < (fscopeUvmark fs 0).nuv := by
            show 0 < fs.nuv
            omega
          exact ⟨0, rfl, .up (.env _) (.env hpos) (by simp)⟩
  next hx =>
    have hres : resolve x [f] = none := by simp [resolve, hr, hx]
    refine ⟨h, funLe_refl_list _, rfl, fun _ => ⟨rfl, rfl⟩, ?_⟩
    intro t ht
    rw [hres] at ht
    cases ht

/-- The name is not a variable of this function: look into the enclosing ones. -/
theorem lookupOk_outer {vs : ℕ → VarInfo} {top : ℕ} {f : AFun} {fns : List AFun} {fs fs' : FuncState}
    {rest rest' : List FuncState} {x : String} {v : Option ℕ} {e e' : ExpDesc}
    (hf : FunOk vs top f fs) (hne : rest ≠ [])
    (huv : ∀ i < fs.nuv, ∃ t, VarAt rest (fs.uvmap i) t ∧ Leads (fs :: rest) i t)
    (hr : innermost (.str x) f.active = none)
    (ho : LookupOk vs fs.vbase fns rest x v e rest')
    (hup : (v = none ∧ fs' = fs ∧ e' = e) ∨
      ∃ vidx i, v = some vidx ∧ varLookupUv fs vidx e = some (i, fs') ∧ e' = .vupval i vidx) :
    LookupOk vs top (f :: fns) (fs :: rest) x v e' (fs' :: rest') := by
  have hres : resolve x (f :: fns) = resolve x fns := by rw [resolve, hr]
  rcases hup with ⟨rfl, rfl, rfl⟩ | ⟨vidx, i, rfl, hi, rfl⟩
  · refine ⟨.child_mono hf hne huv (FunLe.refl _) rfl ho.le ho.stack,
      .cons (FunLe.refl _) ho.le, by simp [ho.code], ?_, ?_⟩
    · intro hn
      rw [hres] at hn
      exact ho.global hn
    · intro t ht
      rw [hres] at ht
      obtain ⟨vidx, hv, -⟩ := ho.found t ht
      cases hv
  · have hsome : ∃ t, resolve x fns = some t := by
      cases ht : resolve x fns with
      | none => exact absurd (ho.global ht).1 (by simp)
      | some t => exact ⟨t, rfl⟩
    obtain ⟨t, ht⟩ := hsome
    obtain ⟨vidx', hv, hfound⟩ := ho.found t ht
    cases hv
    obtain ⟨par, rest, rfl⟩ := List.exists_cons_of_ne_nil hne
    obtain ⟨par', rest', rfl, -⟩ : ∃ par' rest'', rest' = par' :: rest'' ∧ True := by
      cases ho.le with
      | cons hp hrest => exact ⟨_, _, rfl, trivial⟩
    have hleads : ∀ i < fs.nuv, ∃ t, VarAt (par' :: rest') (fs.uvmap i) t ∧
        Leads (fs :: par' :: rest') i t := by
      intro i hi
      obtain ⟨t, hv, hl⟩ := huv i hi
      exact ⟨t, hv.mono ho.le, hl.mono (.cons (FunLe.refl fs) ho.le)⟩
    obtain ⟨hle, hbc, hl, huv'⟩ := varLookupUv_ok ho.stack hleads hfound hi
    refine ⟨.child (hf.mono hle) (by rw [hle.vbase]; exact ho.stack) huv',
      .cons hle ho.le, ?_, ?_, ?_⟩
    · have hcode := ho.code
      simp only [List.map_cons] at hcode ⊢
      rw [hbc, hcode]
    · intro hn
      rw [hres, ht] at hn
      cases hn
    · intro t' ht'
      rw [hres, ht] at ht'
      cases ht'
      refine ⟨vidx, rfl, .up (.outer hfound.varAt) hl ?_⟩
      intro r hr
      have := (hfound.varAt.entry ho.stack).2.2 _ _ hr
      simp only [List.length_cons] at this
      lia

theorem varLookup_rec_ok {vs : ℕ → VarInfo} {top : ℕ} {fns : List AFun} {fss : List FuncState}
    (h : StackOk vs top fns fss) (x : String) {first : Bool} {v : Option ℕ} {e : ExpDesc}
    {fss' : List FuncState} (hl : varLookup_ vs x first fss = some (v, e, fss')) :
    LookupOk vs top fns fss x v e fss' := by
  induction h generalizing first v e fss' with
  | @main top f fs hf htop hnuv huv henv =>
      have h := StackOk.main hf htop hnuv huv henv
      simp only [varLookup_, varLookupLocal_nactvar hf] at hl
      split at hl
      next r hr =>
        simp only [Option.some.injEq, Prod.mk.injEq] at hl
        obtain ⟨rfl, rfl, rfl⟩ := hl
        exact lookupOk_local h hr (by cases first <;> simp)
      next hr =>
        have hm := lookupOk_main h hr
        split at hl
        next hx =>
          simp only [Option.some.injEq, Prod.mk.injEq] at hl
          obtain ⟨rfl, rfl, rfl⟩ := hl
          rwa [if_pos hx.1] at hm
        next hx =>
          simp only [Option.some.injEq, Prod.mk.injEq] at hl
          obtain ⟨rfl, rfl, rfl⟩ := hl
          rwa [if_neg fun h => hx ⟨h, rfl⟩] at hm
  | @child top f fs par fns rest hf hs huv ih =>
      have h := StackOk.child hf hs huv
      rw [varLookup_] at hl
      simp only [varLookupLocal_nactvar hf, List.isEmpty_cons, Bool.false_eq_true, and_false,
        if_false] at hl
      split at hl
      next r hr =>
        simp only [Option.some.injEq, Prod.mk.injEq] at hl
        obtain ⟨rfl, rfl, rfl⟩ := hl
        exact lookupOk_local h hr (by cases first <;> simp)
      next hr =>
        split at hl
        next => cases hl
        next e' rest' ho =>
          simp only [Option.some.injEq, Prod.mk.injEq] at hl
          obtain ⟨rfl, rfl, rfl⟩ := hl
          exact lookupOk_outer hf (by simp) huv hr (ih ho) (.inl ⟨rfl, rfl, rfl⟩)
        next vidx e' rest' ho =>
          split at hl
          next => cases hl
          next i fs' hi =>
            simp only [Option.some.injEq, Prod.mk.injEq] at hl
            obtain ⟨rfl, rfl, rfl⟩ := hl
            exact lookupOk_outer hf (by simp) huv hr (ih ho) (.inr ⟨vidx, i, rfl, hi, rfl⟩)

/-! ### Code for global names -/

/-- `fs'` is `fs` with other code, registers and constants. -/
structure CodeOnly (fs fs' : FuncState) : Prop where
  nactvar : fs'.nactvar = fs.nactvar
  vbase : fs'.vbase = fs.vbase
  varmap : fs'.varmap = fs.varmap
  bl : fs'.bl = fs.bl
  nuv : fs'.nuv = fs.nuv
  uvmap : fs'.uvmap = fs.uvmap
  uvtmp : fs'.uvtmp = fs.uvtmp

theorem CodeOnly.refl (fs : FuncState) : CodeOnly fs fs := ⟨rfl, rfl, rfl, rfl, rfl, rfl, rfl⟩

theorem CodeOnly.trans {fs₁ fs₂ fs₃ : FuncState} (h : CodeOnly fs₁ fs₂) (h' : CodeOnly fs₂ fs₃) :
    CodeOnly fs₁ fs₃ where
  nactvar := by rw [h'.nactvar, h.nactvar]
  vbase := by rw [h'.vbase, h.vbase]
  varmap := by rw [h'.varmap, h.varmap]
  bl := by rw [h'.bl, h.bl]
  nuv := by rw [h'.nuv, h.nuv]
  uvmap := by rw [h'.uvmap, h.uvmap]
  uvtmp := by rw [h'.uvtmp, h.uvtmp]

theorem CodeOnly.funLe {fs fs' : FuncState} (h : CodeOnly fs fs') : FunLe fs fs' where
  nactvar := h.nactvar
  vbase := h.vbase
  varmap := h.varmap
  levels := by rw [h.bl]
  nuv := h.nuv.ge
  uvmap i _ := by rw [h.uvmap]
  uvtmp i _ := by rw [h.uvtmp]

theorem StackOk.codeOnly {vs : ℕ → VarInfo} {top : ℕ} {fns : List AFun} {fs fs' : FuncState}
    {rest : List FuncState} (h : StackOk vs top fns (fs :: rest)) (hc : CodeOnly fs fs') :
    StackOk vs top fns (fs' :: rest) := by
  cases fns with
  | nil => exact absurd h.length_eq (by simp)
  | cons f fns =>
      exact h.setHead (h.head.mono hc.funLe) le_rfl hc.vbase hc.nuv hc.uvmap hc.uvtmp

theorem bcregReserve_ok {fs fs' : FuncState} {n : ℕ} (h : bcregReserve fs n = some fs') :
    CodeOnly fs fs' ∧ fs'.bc = fs.bc ∧ fs'.kgc = fs.kgc := by
  simp only [bcregReserve] at h
  split at h
  · split at h
    · cases h
    · cases h
      exact ⟨⟨rfl, rfl, rfl, rfl, rfl, rfl, rfl⟩, rfl, rfl⟩
  · cases h
    exact ⟨⟨rfl, rfl, rfl, rfl, rfl, rfl, rfl⟩, rfl, rfl⟩

/-- The constant is there after it was added; adding it again changes nothing. -/
theorem constStr_ok (fs : FuncState) (x : String) :
    CodeOnly fs (constStr fs x).2 ∧ (constStr fs x).2.bc = fs.bc ∧
      (constStr fs x).2.kgc[(constStr fs x).1]? = some (.str x) ∧
      ∀ fs' : FuncState, fs'.kgc = (constStr fs x).2.kgc →
        constStr fs' x = ((constStr fs x).1, fs') := by
  by_cases hx : Kgc.str x ∈ fs.kgc
  · have hlt := List.idxOf_lt_length_of_mem hx
    have h : constStr fs x = (fs.kgc.idxOf (.str x), fs) := by simp only [constStr, if_pos hx]
    rw [h]
    refine ⟨CodeOnly.refl fs, rfl, ?_, ?_⟩
    · rw [List.getElem?_eq_getElem hlt, List.getElem_idxOf hlt]
    · intro fs' hk
      simp only [constStr, hk, if_pos hx]
  · have h : constStr fs x = (fs.kgc.length, { fs with kgc := fs.kgc ++ [.str x] }) := by
      simp only [constStr, if_neg hx]
    rw [h]
    refine ⟨⟨rfl, rfl, rfl, rfl, rfl, rfl, rfl⟩, rfl, by simp, ?_⟩
    intro fs' hk
    have hmem : Kgc.str x ∈ fs'.kgc := by rw [hk]; simp
    simp only [constStr, if_pos hmem]
    rw [hk, List.idxOf_append_of_notMem hx]
    simp

/-- The key of an index expression is the constant `x`. -/
inductive KeyIs (fs fs' : FuncState) (x : String) : ℤ → Prop
  /-- An operand of the instruction. -/
  | const {k : ℕ} (hk : k ≤ 255) (h : fs'.kgc[k]? = some (.str x)) (hbc : fs'.bc = fs.bc) :
      KeyIs fs fs' x (-(k : ℤ) - 1)
  /-- Loaded to a register. -/
  | reg {r k : ℕ} (h : fs'.kgc[k]? = some (.str x)) (hbc : fs'.bc = fs.bc ++ [insAD .kstr r k]) :
      KeyIs fs fs' x r

theorem exprIndex_ok {fs fs' : FuncState} {t : ℕ} {x : String} {e : ExpDesc}
    (h : exprIndex fs t x = some (e, fs')) :
    ∃ aux, e = .vindexed t aux ∧ CodeOnly fs fs' ∧ KeyIs fs fs' x aux := by
  obtain ⟨hc, hbc, hk, hagain⟩ := constStr_ok fs x
  simp only [exprIndex] at h
  split at h
  next hle =>
    simp only [Option.some.injEq, Prod.mk.injEq] at h
    obtain ⟨rfl, rfl⟩ := h
    exact ⟨_, rfl, hc, .const hle hk hbc⟩
  next hgt =>
    split at h
    next => cases h
    next r hr =>
      simp only [Option.some.injEq, Prod.mk.injEq] at h
      obtain ⟨rfl, rfl⟩ := h
      simp only [exprToanyreg, exprDischarge, exprTonextreg] at hr
      split at hr
      next => cases hr
      next fs₂ hres =>
        obtain ⟨hc₂, hbc₂, hk₂⟩ := bcregReserve_ok hres
        simp only [Option.some.injEq] at hr
        subst hr
        simp only [exprToreg, exprDischarge, hagain fs₂ hk₂, bcemitIns]
        refine ⟨_, rfl, hc.trans (hc₂.trans ⟨rfl, rfl, rfl, rfl, rfl, rfl, rfl⟩), ?_⟩
        refine @KeyIs.reg _ _ _ _ (constStr fs x).1 ?_ ?_
        · simp only [hk₂]
          exact hk
        · simp only [hbc₂, hbc]

/-- A register holds the variable: its own register, or loaded from an upvalue. -/
inductive RegIs (fs fs' : FuncState) : ExpDesc → ℕ → Prop
  | loc {r v : ℕ} (hbc : fs'.bc = fs.bc) : RegIs fs fs' (.vlocal r v) r
  | up {i v reg : ℕ} (hbc : fs'.bc = fs.bc ++ [insAD .uget reg i]) : RegIs fs fs' (.vupval i v) reg

theorem exprToanyreg_ok {fs fs' : FuncState} {fss : List FuncState} {e : ExpDesc} {v reg : ℕ}
    {t : Target} (hf : Found fss v e t) (h : exprToanyreg fs e = some (reg, fs')) :
    CodeOnly fs fs' ∧ RegIs fs fs' e reg := by
  cases hf with
  | loc hr =>
      simp only [exprToanyreg, exprDischarge, Option.some.injEq, Prod.mk.injEq] at h
      obtain ⟨rfl, rfl⟩ := h
      exact ⟨CodeOnly.refl fs, .loc rfl⟩
  | @up _ i _ _ hv hl hfar =>
      simp only [exprToanyreg, exprDischarge, bcemitIns, exprTonextreg] at h
      split at h
      next => cases h
      next fs₂ hres =>
        obtain ⟨hc₂, hbc₂, -⟩ := bcregReserve_ok hres
        simp only [exprToreg, exprDischarge, Option.some.injEq, Prod.mk.injEq] at h
        obtain ⟨rfl, rfl⟩ := h
        have hc : CodeOnly fs { fs with bc := fs.bc ++ [insAD .uget 0 i] } :=
          ⟨rfl, rfl, rfl, rfl, rfl, rfl, rfl⟩
        refine ⟨hc.trans (hc₂.trans ⟨rfl, rfl, rfl, rfl, rfl, rfl, rfl⟩), .up ?_⟩
        simp only [hbc₂]
        rw [List.modify_eq_take_drop]
        simp [insAD]

/-! ### The code is right -/

/-- Upvalue `i` of a closure of the innermost function is the variable `t`, by the way closures of
the finished prototypes are made. -/
inductive Captures (vs : ℕ → VarInfo) : List FuncState → ℕ → Target → Prop
  | env {fs : FuncState} (h : 0 < fs.nuv) : Captures vs [fs] 0 .env
  | loc {fs par : FuncState} {rest : List FuncState} {i r : ℕ} (hi : i < fs.nuv)
      (hr : r < par.nactvar) (h : newLRef (fixupUv2 vs (fs.uvtmp i)) = .slot r) :
      Captures vs (fs :: par :: rest) i (.loc rest.length r)
  | up {fs par : FuncState} {rest : List FuncState} {i j : ℕ} {t : Target} (hi : i < fs.nuv)
      (h : newLRef (fixupUv2 vs (fs.uvtmp i)) = .up j) (hl : Captures vs (par :: rest) j t) :
      Captures vs (fs :: par :: rest) i t

/-- The expression stands for the variable `t`. -/
inductive IsVar (vs : ℕ → VarInfo) (fss : List FuncState) : ExpDesc → Target → Prop
  | loc {r v : ℕ} : IsVar vs fss (.vlocal r v) (.loc (fss.length - 1) r)
  | up {i v : ℕ} {t : Target} (hc : Captures vs fss i t) (hfar : ∀ r, t ≠ .loc (fss.length - 1) r) :
      IsVar vs fss (.vupval i v) t

/-- The use of the name `x` becomes this expression, with the code that `ls'` has more than `ls`. -/
inductive Compiled (fns : List AFun) (ls ls' : LexState) (x : String) : ExpDesc → Prop
  | var {e : ExpDesc} {t : Target} (hx : resolve x fns = some t) (he : IsVar ls'.vstack ls'.fs e t)
      (hbc : ls'.fs.map (·.bc) = ls.fs.map (·.bc)) : Compiled fns ls ls' x e
  | global {e : ExpDesc} {t : Target} {reg : ℕ} {aux : ℤ} {fs fs₁ fs' : FuncState}
      {rest rest' : List FuncState} (hx : resolve x fns = none) (ht : resolve envName fns = some t)
      (he : IsVar ls'.vstack ls'.fs e t) (hfs : ls.fs = fs :: rest) (hfs' : ls'.fs = fs' :: rest')
      (hreg : RegIs fs fs₁ e reg) (hkey : KeyIs fs₁ fs' x aux) :
      Compiled fns ls ls' x (.vindexed reg aux)

theorem Leads.lt {fss : List FuncState} {i : ℕ} {t : Target} (h : Leads fss i t) : i < maxUpval := by
  cases h with
  | env h => decide
  | loc hi hmax hr h => exact hmax
  | up hi hmax h hl => exact hmax

set_option maxRecDepth 4000 in
theorem newLRef_fixupUv2_local {vs : ℕ → VarInfo} {v : ℕ} (hv : v < maxVstack)
    (hs : (vs v).slot < 256) : newLRef (fixupUv2 vs v) = .slot (vs v).slot := by
  have key : ∀ s < 256, newLRef (s ||| protoUvLocal) = .slot s ∧
      newLRef (s ||| protoUvLocal ||| protoUvImmutable) = .slot s := by decide
  rw [fixupUv2, if_neg (by omega)]
  split
  · exact (key _ hs).1
  · exact (key _ hs).2

theorem newLRef_fixupUv2_up (vs : ℕ → VarInfo) {j : ℕ} (hj : j < maxUpval) :
    newLRef (fixupUv2 vs (maxVstack + j)) = .up j := by
  have key : ∀ j < maxUpval, newLRef j = .up j := by decide
  rw [fixupUv2, if_pos (by omega), Nat.add_sub_cancel_left]
  exact key j hj

/-- The entry of an active variable of the innermost function. -/
theorem StackOk.reg {vs : ℕ → VarInfo} {top : ℕ} {fns : List AFun} {fs : FuncState}
    {rest : List FuncState} (h : StackOk vs top fns (fs :: rest)) {r : ℕ} (hr : r < fs.nactvar) :
    fs.varmap r < top ∧ (vs (fs.varmap r)).slot = r ∧ r < maxLocvar := by
  cases fns with
  | nil => exact absurd h.length_eq (by simp)
  | cons f fns =>
      have hf := h.head
      have hlen : r < (f.active ++ f.pending).length := by
        rw [List.length_append, ← hf.nactvar]
        omega
      exact ⟨(hf.entry r hlen).2.2, hf.slot r (by rw [← hf.nactvar]; exact hr),
        lt_of_lt_of_le hlen hf.bound⟩

theorem Leads.captures {vs : ℕ → VarInfo} {top : ℕ} {fns : List AFun} {fss : List FuncState}
    (h : StackOk vs top fns fss) (htop : top ≤ maxVstack) {i : ℕ} {t : Target}
    (hl : Leads fss i t) : Captures vs fss i t := by
  induction hl generalizing top fns with
  | env hn => exact .env hn
  | @loc fs par rest i r hi hmax hr he =>
      cases h with
      | child hf hs huv =>
          obtain ⟨hlt, hslot, hmaxr⟩ := hs.reg hr
          refine .loc hi hr ?_
          have hmaxr' : r < 256 := lt_trans hmaxr (by decide)
          have hv : par.varmap r < maxVstack := lt_of_lt_of_le hlt (le_trans hf.base htop)
          rw [he, newLRef_fixupUv2_local hv (by rw [hslot]; exact hmaxr'), hslot]
  | @up fs par rest i j t hi hmax he hl ih =>
      cases h with
      | child hf hs huv =>
          refine .up hi ?_ (ih hs (le_trans hf.base htop))
          rw [he]
          exact newLRef_fixupUv2_up vs hl.lt

theorem Found.isVar {vs : ℕ → VarInfo} {top : ℕ} {fns : List AFun} {fss : List FuncState}
    (h : StackOk vs top fns fss) (htop : top ≤ maxVstack) {v : ℕ} {e : ExpDesc} {t : Target}
    (hf : Found fss v e t) : IsVar vs fss e t := by
  cases hf with
  | loc hr => exact .loc
  | up hv hl hfar => exact .up (hl.captures h htop) hfar

/-- The invariant of the parser. -/
structure Ok (fns : List AFun) (ls : LexState) : Prop where
  stack : StackOk ls.vstack ls.vtop fns ls.fs
  top : ls.vtop ≤ maxVstack

/-- Code of the innermost function does not change what variables are. -/
theorem Captures.codeOnly {vs : ℕ → VarInfo} {fs fs' : FuncState} {rest : List FuncState} {i : ℕ}
    {t : Target} (h : Captures vs (fs :: rest) i t) (hc : CodeOnly fs fs') :
    Captures vs (fs' :: rest) i t := by
  cases h with
  | env h => exact .env (by rw [hc.nuv]; exact h)
  | loc hi hr h => exact .loc (by rw [hc.nuv]; exact hi) hr (by rw [hc.uvtmp]; exact h)
  | up hi h hl => exact .up (by rw [hc.nuv]; exact hi) (by rw [hc.uvtmp]; exact h) hl

theorem IsVar.codeOnly {vs : ℕ → VarInfo} {fs fs' : FuncState} {rest : List FuncState} {e : ExpDesc}
    {t : Target} (h : IsVar vs (fs :: rest) e t) (hc : CodeOnly fs fs') :
    IsVar vs (fs' :: rest) e t := by
  cases h with
  | loc => exact .loc
  | up hcap hfar => exact .up (hcap.codeOnly hc) hfar

/-- **Lookup of a name.** -/
theorem varLookup_ok {fns : List AFun} {ls ls' : LexState} (h : Ok fns ls) {x : String}
    {e : ExpDesc} (hl : varLookup ls x = some (e, ls')) :
    Ok fns ls' ∧ Compiled fns ls ls' x e := by
  simp only [varLookup] at hl
  split at hl
  next => cases hl
  next v y fss hfirst =>
    have hok := varLookup_rec_ok h.stack x hfirst
    -- only a global gives this kind of expression
    have hx : resolve x fns = none ∧ y = x := by
      cases ht : resolve x fns with
      | none =>
          have := (hok.global ht).2
          simp only [ExpDesc.vglobal.injEq] at this
          exact ⟨rfl, this⟩
      | some t =>
          obtain ⟨vidx, -, hf⟩ := hok.found t ht
          cases hf
    obtain ⟨hx, rfl⟩ := hx
    simp only [varGlobal_] at hl
    split at hl
    next v₂ e₂ fs rest hsecond =>
      have hok₂ := varLookup_rec_ok hok.stack envName hsecond
      cases ht : resolve envName fns with
      | none => exact absurd ht (resolve_env_ne_none fns)
      | some t =>
          obtain ⟨vidx, -, hf⟩ := hok₂.found t ht
          have hbc : (fs :: rest).map (·.bc) = ls.fs.map (·.bc) := hok₂.code.trans hok.code
          split at hl
          next => cases hl
          next reg fs₁ hany =>
            obtain ⟨hc₁, hreg⟩ := exprToanyreg_ok hf hany
            split at hl
            next => cases hl
            next e₃ fs₃ hidx =>
              obtain ⟨aux, rfl, hc₃, hkey⟩ := exprIndex_ok hidx
              simp only [Option.some.injEq, Prod.mk.injEq] at hl
              obtain ⟨rfl, rfl⟩ := hl
              have hc := hc₁.trans hc₃
              refine ⟨⟨hok₂.stack.codeOnly hc, h.top⟩, ?_⟩
              cases hfs : ls.fs with
              | nil => rw [hfs] at hbc; cases hbc
              | cons fs₀ rest₀ =>
                  rw [hfs] at hbc
                  simp only [List.map_cons, List.cons.injEq] at hbc
                  have hreg₀ : RegIs fs₀ fs₁ e₂ reg := by
                    cases hreg with
                    | loc h => exact .loc (by rw [h, hbc.1])
                    | up h => exact .up (by rw [h, hbc.1])
                  exact .global hx ht ((hf.isVar hok₂.stack h.top).codeOnly hc) hfs rfl hreg₀ hkey
    next => cases hl
  next v e₀ fss hne hfirst =>
    have hok := varLookup_rec_ok h.stack x hfirst
    simp only [Option.some.injEq, Prod.mk.injEq] at hl
    obtain ⟨rfl, rfl⟩ := hl
    refine ⟨⟨hok.stack, h.top⟩, ?_⟩
    cases ht : resolve x fns with
    | none => exact absurd (hok.global ht).2 (hne x)
    | some t =>
        obtain ⟨vidx, -, hf⟩ := hok.found t ht
        exact .var ht (hf.isVar hok.stack h.top) hok.code

/-! ### Steps -/

theorem FunOk.weaken {vs : ℕ → VarInfo} {top top' : ℕ} {f : AFun} {fs : FuncState}
    (h : FunOk vs top f fs) (ht : top ≤ top') : FunOk vs top' f fs :=
  { h with
    base := le_trans h.base ht
    entry := fun i hi => ⟨(h.entry i hi).1, (h.entry i hi).2.1, lt_of_lt_of_le (h.entry i hi).2.2 ht⟩ }

theorem StackOk.weaken {vs : ℕ → VarInfo} {top top' : ℕ} {fns : List AFun} {fss : List FuncState}
    (h : StackOk vs top fns fss) (ht : top ≤ top') : StackOk vs top' fns fss := by
  cases h with
  | main hf htop hnuv huv henv => exact .main (hf.weaken ht) (by omega) hnuv huv henv
  | child hf hs huv => exact .child (hf.weaken ht) hs huv

/-- A change at or above `top` does not matter. -/
theorem StackOk.update {vs : ℕ → VarInfo} {top : ℕ} {fns : List AFun} {fss : List FuncState}
    (h : StackOk vs top fns fss) (i : VarInfo) : StackOk (Function.update vs top i) top fns fss := by
  apply h.congr
  intro v hv
  rw [Function.update_of_ne (by omega)]
  exact ⟨rfl, rfl⟩

theorem varNew_ok {f : AFun} {fns : List AFun} {ls ls' : LexState} {name : VName}
    (h : Ok (f :: fns) ls) (hl : varNew ls f.pending.length name = some ls') :
    Ok ({ f with pending := f.pending ++ [name] } :: fns) ls' := by
  obtain ⟨vs, top, fss⟩ := ls
  have hs : StackOk vs top (f :: fns) fss := h.stack
  simp only [varNew] at hl
  cases fss with
  | nil => exact absurd hs.length_eq (by simp)
  | cons fs rest =>
      simp only at hl
      split at hl
      next => cases hl
      next hloc =>
        split at hl
        next => cases hl
        next hmax =>
          cases hl
          have hf := hs.head
          have hn : fs.nactvar + f.pending.length = (f.active ++ f.pending).length := by
            rw [List.length_append, hf.nactvar]
          refine ⟨?_, by simp only; omega⟩
          simp only [hn]
          have hs' := (hs.update { vs top with name := name }).weaken (Nat.le_succ top)
          refine hs'.setHead ?_ le_rfl rfl rfl rfl rfl
          have happ : f.active ++ (f.pending ++ [name]) = (f.active ++ f.pending) ++ [name] := by
            rw [List.append_assoc]
          have hlen : (f.active ++ (f.pending ++ [name])).length =
              (f.active ++ f.pending).length + 1 := by rw [happ, List.length_append]; rfl
          have hf' := hs'.head
          constructor
          · exact hf'.nactvar
          · exact hf'.base
          · exact hf'.levels
          · rw [hlen]
            lia
          · intro i hi
            rw [hlen] at hi
            rcases Nat.lt_succ_iff_lt_or_eq.1 hi with hlt | rfl
            · simp only [Function.update_of_ne (Nat.ne_of_lt hlt)]
              exact hf'.entry i hlt
            · simp only [Function.update_self]
              exact ⟨hf.base, hs.pos, Nat.lt_succ_self _⟩
          · intro i n hi
            rw [happ] at hi
            have hlt := (List.getElem?_eq_some_iff.1 hi).1
            rw [List.length_append] at hlt
            rcases Nat.lt_succ_iff_lt_or_eq.1 hlt with hlt' | rfl
            · simp only [Function.update_of_ne (Nat.ne_of_lt hlt')]
              rw [List.getElem?_append_left hlt'] at hi
              exact hf'.name i n hi
            · simp only [Function.update_self]
              simpa using hi
          · intro i hi
            have hlt : i < (f.active ++ f.pending).length := by
              rw [List.length_append]
              exact Nat.lt_add_right _ hi
            simp only [Function.update_of_ne (Nat.ne_of_lt hlt)]
            exact hf'.slot i hi
          · intro i hi j hj hij
            rw [hlen] at hi hj
            rcases Nat.lt_succ_iff_lt_or_eq.1 hi with hi' | rfl
            · rcases Nat.lt_succ_iff_lt_or_eq.1 hj with hj' | rfl
              · simp only [Function.update_of_ne (Nat.ne_of_lt hi'),
                  Function.update_of_ne (Nat.ne_of_lt hj')] at hij
                exact hf.inj i hi' j hj' hij
              · simp only [Function.update_of_ne (Nat.ne_of_lt hi'), Function.update_self] at hij
                have := (hf.entry i hi').2.2
                omega
            · rcases Nat.lt_succ_iff_lt_or_eq.1 hj with hj' | rfl
              · simp only [Function.update_of_ne (Nat.ne_of_lt hj'), Function.update_self] at hij
                have := (hf.entry j hj').2.2
                omega
              · rfl

theorem varNews_ok {f : AFun} {fns : List AFun} {ls ls' : LexState} {names : List VName}
    (h : Ok (f :: fns) ls) (hl : varNews ls f.pending.length names = some ls') :
    Ok ({ f with pending := f.pending ++ names } :: fns) ls' := by
  induction names generalizing f ls with
  | nil =>
      simp only [varNews, Option.some.injEq] at hl
      subst hl
      simpa using h
  | cons name names ih =>
      simp only [varNews] at hl
      split at hl
      next => cases hl
      next ls₁ h₁ =>
        have hok := varNew_ok h h₁
        have hnext := @ih { f with pending := f.pending ++ [name] } ls₁ hok (by simpa using hl)
        simpa using hnext

theorem varAdd1_ok {f : AFun} {fns : List AFun} {ls : LexState} {name : VName} {names : List VName}
    (h : Ok (f :: fns) ls) (hp : f.pending = name :: names) :
    Ok ({ f with active := f.active ++ [name], pending := names } :: fns) (varAdd1 ls) := by
  obtain ⟨vs, top, fss⟩ := ls
  have hs : StackOk vs top (f :: fns) fss := h.stack
  cases fss with
  | nil => exact absurd hs.length_eq (by simp)
  | cons fs rest =>
      have hf := hs.head
      have happ : f.active ++ [name] ++ names = f.active ++ f.pending := by rw [hp]; simp
      have hlt : fs.nactvar < (f.active ++ f.pending).length := by
        rw [hf.nactvar, hp]
        simp
      have hentry := hf.entry _ hlt
      refine ⟨?_, h.top⟩
      simp only [varAdd1]
      -- the change is at an entry of this function, so the enclosing ones do not see it
      have hf' : FunOk (Function.update vs (fs.varmap fs.nactvar)
          { vs (fs.varmap fs.nactvar) with slot := fs.nactvar, rw := false }) top
          { f with active := f.active ++ [name], pending := names }
          { fs with nactvar := fs.nactvar + 1 } := by
        constructor
        · simp [hf.nactvar]
        · exact hf.base
        · exact hf.levels
        · simp only [happ]
          exact hf.bound
        · simp only [happ]
          exact hf.entry
        · intro i n hi
          simp only [happ] at hi
          by_cases he : fs.varmap i = fs.varmap fs.nactvar
          · rw [he, Function.update_self, ← he]
            exact hf.name i n hi
          · rw [Function.update_of_ne he]
            exact hf.name i n hi
        · intro i hi
          simp only [List.length_append, List.length_singleton] at hi
          by_cases he : fs.varmap i = fs.varmap fs.nactvar
          · have hi' : i < (f.active ++ f.pending).length := by
              rw [List.length_append, hp]
              simp only [List.length_cons]
              lia
            have := hf.inj i hi' _ hlt he
            rw [he, Function.update_self, this]
          · rw [Function.update_of_ne he]
            apply hf.slot
            have hne : i ≠ f.active.length := by
              intro hi'
              apply he
              rw [hi', hf.nactvar]
            lia
        · simp only [happ]
          exact hf.inj
      cases hs with
      | main hf₀ htop hnuv huv henv =>
          refine .main hf' htop hnuv huv ?_
          rw [Function.update_of_ne (by omega)]
          exact henv
      | child hf₀ hs₀ huv =>
          refine .child hf' (hs₀.congr ?_) ?_
          · intro v hv
            rw [Function.update_of_ne (by omega)]
            exact ⟨rfl, rfl⟩
          · intro i hi
            obtain ⟨t, hv, hl⟩ := huv i hi
            refine ⟨t, hv, ?_⟩
            cases hl with
            | loc hi hmax hr h => exact .loc hi hmax hr h
            | up hi hmax h hl => exact .up hi hmax h hl

theorem varAdd_ok {f : AFun} {fns : List AFun} {ls : LexState} {n : ℕ}
    (h : Ok (f :: fns) ls) (hn : n ≤ f.pending.length) :
    Ok ({ f with active := f.active ++ f.pending.take n, pending := f.pending.drop n } :: fns)
      (varAdd ls n) := by
  induction n generalizing f ls with
  | zero => simpa [varAdd] using h
  | succ n ih =>
      cases hp : f.pending with
      | nil => simp [hp] at hn
      | cons name names =>
          have h₁ := varAdd1_ok h hp
          have h₂ := ih h₁ (by simp only [hp, List.length_cons] at hn; simpa using hn)
          simpa [varAdd] using h₂

theorem golaNew_ok {fns : List AFun} {ls ls' : LexState} {name : VName} (h : Ok fns ls)
    (hl : golaNew ls name = some ls') :
    Ok fns ls' ∧ StackOk ls'.vstack ls.vtop fns ls'.fs := by
  simp only [golaNew] at hl
  split at hl
  next => cases hl
  next fs rest hfs =>
    split at hl
    next => cases hl
    next hmax =>
      simp only [Option.some.injEq] at hl
      subst hl
      have hs := h.stack.update ⟨name, fs.nactvar, false⟩
      exact ⟨⟨hs.weaken (Nat.le_succ _), by simp only; omega⟩, hs⟩

theorem fscopeEnd_ok {vs : ℕ → VarInfo} {top l : ℕ} {f : AFun} {fs : FuncState} {levels : List ℕ}
    (h : FunOk vs top f fs) (hp : f.pending = []) (hl : f.levels = l :: levels) :
    FunOk vs top { f with active := f.active.take l, levels := levels } (fscopeEnd fs) := by
  have hbl := h.levels
  rw [hl] at hbl
  cases hfs : fs.bl with
  | nil => rw [hfs] at hbl; cases hbl
  | cons b bl =>
      rw [hfs] at hbl
      simp only [List.map_cons, List.cons.injEq] at hbl
      obtain ⟨rfl, hbl⟩ := hbl
      simp only [fscopeEnd, hfs]
      have hle : (f.active.take b.nactvar ++ f.pending).length ≤ (f.active ++ f.pending).length := by
        rw [hp]
        simp
      constructor
      · simp [h.nactvar, min_comm]
      · exact h.base
      · exact hbl
      · exact le_trans hle h.bound
      · intro i hi
        exact h.entry i (lt_of_lt_of_le hi hle)
      · intro i n hi
        apply h.name i n
        simp only [hp, List.append_nil] at hi ⊢
        rw [List.getElem?_take] at hi
        split at hi
        · exact hi
        · cases hi
      · intro i hi
        apply h.slot
        simp only [List.length_take] at hi
        lia
      · intro i hi j hj
        exact h.inj i (lt_of_lt_of_le hi hle) j (lt_of_lt_of_le hj hle)

/-- **One operation of the parser keeps the invariant.** -/
theorem step_ok {fns fns' : List AFun} {ls ls' : LexState} {op : Op} (h : Ok fns ls)
    (hl : step ls op = some ls') (ha : astep fns op = some fns') : Ok fns' ls' := by
  obtain ⟨vs, top, fss⟩ := ls
  have hs : StackOk vs top fns fss := h.stack
  have htop : top ≤ maxVstack := h.top
  cases fns with
  | nil => simp [astep] at ha
  | cons f fns =>
  cases fss with
  | nil => exact absurd hs.length_eq (by simp)
  | cons fs rest =>
  cases op with
  | func =>
      simp only [step, Option.some.injEq] at hl
      simp only [astep, Option.some.injEq] at ha
      subst hl ha
      refine ⟨.child ?_ hs ?_, htop⟩
      · constructor <;> simp [fsInit]
      · intro i hi
        simp [fsInit] at hi
  | endfunc =>
      cases hs with
      | main => simp [step] at hl
      | child hf hs huv =>
          simp only [step, Option.some.injEq] at hl
          simp only [astep] at ha
          split at ha
          · cases ha
          · simp only [Option.some.injEq] at ha
            subst hl ha
            exact ⟨hs, le_trans hf.base htop⟩
  | scope =>
      simp only [step, withFs, Option.some.injEq] at hl
      simp only [astep, Option.some.injEq] at ha
      subst hl ha
      refine ⟨hs.setHead ?_ le_rfl rfl rfl rfl rfl, htop⟩
      exact { hs.head with levels := by simp [fscopeBegin, hs.head.levels, hs.head.nactvar] }
  | endscope =>
      simp only [step, withFs, Option.some.injEq] at hl
      simp only [astep] at ha
      split at ha
      next l levels hp hlev =>
        simp only [Option.some.injEq] at ha
        subst hl ha
        have hf := fscopeEnd_ok hs.head hp hlev
        refine ⟨hs.setHead hf le_rfl ?_ ?_ ?_ ?_, htop⟩ <;>
        · simp only [fscopeEnd]
          split <;> rfl
      next => cases ha
  | new names =>
      simp only [astep] at ha
      split at ha
      next hp =>
        simp only [Option.some.injEq] at ha
        subst ha
        have := @varNews_ok f fns _ ls' names h (by rw [hp]; exact hl)
        rwa [hp] at this
      next => cases ha
  | add n =>
      simp only [astep] at ha
      split at ha
      next hn =>
        simp only [Option.some.injEq] at ha
        simp only [step, Option.some.injEq] at hl
        subst hl ha
        exact varAdd_ok h hn
      next => cases ha
  | gola name =>
      simp only [astep, Option.some.injEq] at ha
      subst ha
      exact (golaNew_ok h hl).1
  | brk =>
      simp only [astep, Option.some.injEq] at ha
      subst ha
      simp only [step, Option.map_eq_some_iff] at hl
      obtain ⟨ls₁, h₁, rfl⟩ := hl
      exact ⟨(golaNew_ok h h₁).2, htop⟩
  | store vidx =>
      simp only [astep, Option.some.injEq] at ha
      simp only [step, Option.some.injEq] at hl
      subst hl ha
      refine ⟨hs.congr ?_, htop⟩
      intro v hv
      by_cases he : v = vidx
      · subst he
        simp
      · simp only [Function.update_of_ne he]
        exact ⟨trivial, trivial⟩
  | code bc freereg framesize kgc =>
      simp only [astep, Option.some.injEq] at ha
      simp only [step, withFs, Option.some.injEq] at hl
      subst hl ha
      exact ⟨hs.codeOnly ⟨rfl, rfl, rfl, rfl, rfl, rfl, rfl⟩, htop⟩
  | use name =>
      simp only [astep, Option.some.injEq] at ha
      subst ha
      simp only [step, Option.map_eq_some_iff] at hl
      obtain ⟨⟨e, ls₁⟩, h₁, rfl⟩ := hl
      exact (varLookup_ok h h₁).1

/-! ### Runs -/

/-- The parser and the scopes after a sequence of operations; `none` if one of them is refused. -/
def run : List Op → LexState × List AFun → Option (LexState × List AFun)
  | [], s => some s
  | op :: ops, s =>
      match step s.1 op, astep s.2 op with
      | some ls, some fns => run ops (ls, fns)
      | _, _ => none

theorem ljParse_ok (vstack : ℕ → VarInfo) : Ok achunk (ljParse vstack) := by
  have htop : 1 ≤ maxVstack := by decide
  refine ⟨.main ?_ Nat.one_pos rfl rfl ?_, htop⟩
  · constructor <;> simp [ljParse, fscopeBegin, fsInit]
  · simp [ljParse]

theorem run_ok {ops : List Op} {s s' : LexState × List AFun} (h : Ok s.2 s.1)
    (hr : run ops s = some s') : Ok s'.2 s'.1 := by
  induction ops generalizing s with
  | nil =>
      simp only [run, Option.some.injEq] at hr
      subst hr
      exact h
  | cons op ops ih =>
      simp only [run] at hr
      split at hr
      next ls fns hl ha => exact ih (step_ok h hl ha) hr
      next => cases hr

/-- The outermost function has one upvalue. -/
theorem StackOk.main_env {vs : ℕ → VarInfo} {top : ℕ} {fns : List AFun} {fss : List FuncState}
    (h : StackOk vs top fns fss) :
    ∃ main, fss.getLast? = some main ∧ main.nuv = 1 ∧ main.uvmap 0 = 0 ∧
      (vs 0).name = .str envName := by
  induction h with
  | @main top f fs hf htop hnuv huv henv => exact ⟨fs, rfl, hnuv, huv, henv⟩
  | @child top f fs par fns rest hf hs huv ih =>
      obtain ⟨main, hlast, hrest⟩ := ih
      exact ⟨main, by simpa using hlast, hrest⟩

theorem cpparser_eq_some_iff {α : Type} (nil env : α) (pt : ProtoHead) :
    (∃ uvs, cpparser nil env pt = some (env :: uvs)) ↔ 0 < pt.sizeuv.toNat := by
  simp only [cpparser, newLEmpty]
  cases pt.sizeuv.toNat with
  | zero => simp
  | succ n => simp [List.replicate_succ]

theorem bcreadHead_bcwriteHead (pt : ProtoHead) :
    bcreadHead (bcwriteHead pt) = some { pt with flags := pt.flags &&& dumpFlags } := rfl

/-- **Global names.**  At every point of every run of the parser, a use of a name is compiled to the
variable that the name refers to, and if there is none, to an index of the variable that `_ENV`
refers to.  The outermost function has `_ENV` as upvalue 0, so the loader finds an upvalue for the
environment table in every chunk of source; in a dump it finds one iff the dumped function has an
upvalue. -/
theorem global_env {vstack : ℕ → VarInfo} {ops : List Op} {ls : LexState} {fns : List AFun}
    (hr : run ops (ljParse vstack, achunk) = some (ls, fns)) :
    (∀ x e ls', varLookup ls x = some (e, ls') → Compiled fns ls ls' x e) ∧
    (∃ main, ls.fs.getLast? = some main ∧ main.nuv = 1 ∧ main.uvmap 0 = 0 ∧
      (ls.vstack 0).name = .str envName ∧
      ∀ (α : Type) (nil env : α) (flags numparams : ℕ),
        ∃ uvs, cpparser nil env (fsFinish flags numparams main) = some (env :: uvs)) ∧
    ∀ (α : Type) (nil env : α) (pt : ProtoHead),
      (∃ pt' uvs, bcreadHead (bcwriteHead pt) = some pt' ∧
        cpparser nil env pt' = some (env :: uvs)) ↔ 0 < pt.sizeuv.toNat := by
  have hok : Ok fns ls := run_ok (ljParse_ok vstack) hr
  refine ⟨fun x e ls' hl => (varLookup_ok hok hl).2, ?_, ?_⟩
  · obtain ⟨main, hlast, hnuv, huv, henv⟩ := hok.stack.main_env
    refine ⟨main, hlast, hnuv, huv, henv, ?_⟩
    intro α nil env flags numparams
    rw [cpparser_eq_some_iff]
    simp [fsFinish, hnuv]
  · intro α nil env pt
    simp only [bcreadHead_bcwriteHead, Option.some.injEq]
    constructor
    · rintro ⟨pt', uvs, rfl, h⟩
      exact (cpparser_eq_some_iff nil env _).1 ⟨uvs, h⟩
    · intro h
      obtain ⟨uvs, hu⟩ :=
        (cpparser_eq_some_iff nil env { pt with flags := pt.flags &&& dumpFlags }).2 h
      exact ⟨_, uvs, rfl, hu⟩

/-- A chunk with a local variable and a function that uses it and a global name. -/
def exampleOps : List Op :=
  [.new [.str "a"], .add 1, .func, .scope, .use "a", .use "print"]

theorem global_env_example : ∃ ls,
    run exampleOps (ljParse fun _ => ⟨.fixed 0, 0, false⟩, achunk) =
      some (ls, [⟨[], [], [0]⟩, ⟨[.str "a"], [], [0]⟩]) ∧
    ∀ x e ls', varLookup ls x = some (e, ls') →
      Compiled [⟨[], [], [0]⟩, ⟨[.str "a"], [], [0]⟩] ls ls' x e :=
  ⟨_, rfl, (@global_env (fun _ => ⟨.fixed 0, 0, false⟩) exampleOps _ _ rfl).1⟩

/-- A dump of `function() end` can be read, and has no upvalue to store the environment to. -/
theorem load_stripped_child :
    bcreadHead (bcwriteHead ⟨0, 0, 1, 0⟩) = some ⟨0, 0, 1, 0⟩ ∧
      ¬ ∃ pt' uvs, bcreadHead (bcwriteHead ⟨0, 0, 1, 0⟩) = some pt' ∧
        cpparser 0 1 pt' = some (1 :: uvs) := by
  refine ⟨rfl, ?_⟩
  rintro ⟨pt', uvs, h, hc⟩
  cases h
  cases hc

end Parse
