/-
**Matching of patterns.**

The matcher walks over the text of the pattern.  A pointer into the pattern is what is left of it, with
its terminator; a read past the terminator, and one outside of the subject, is an error of the model.
Tail calls are a loop; other calls of `match` go one level deeper, and the levels are limited.

Main definitions:

* `StrMatch.classend`, `StrMatch.singlematch` — a single character class;
* `StrMatch.matchLoop`, `StrMatch.match_` — the matcher;
* `StrMatch.gsub`, `StrMatch.gmatchAux` — substitution and iteration.
-/

import Mathlib

set_option relaxedAutoImplicit false
set_option autoImplicit false

namespace StrMatch

/-! ### Memory -/

/-- The errors for patterns: an escape at the end, a missing bracket, the arguments of `%b` and of `%f`,
no capture to close, an invalid capture, too many captures, an unfinished capture. -/
inductive PatErr where
  | pate | patm | patu | patb | patc | capi | capn | capu
  deriving DecidableEq

/-- An error: one for the pattern, the limit of the levels, a read out of bounds, and no fuel. -/
inductive Err where
  | pat (e : PatErr)
  | patx
  | oob
  | fuel
  deriving DecidableEq

/-- The subject, and the width of `size_t`; `LJ_MAX_STR` limits its length. -/
structure Subject where
  bytes : List UInt8
  sizeBits : ℕ
  short : bytes.length < 0x7fffff00
  bits : 32 ≤ sizeBits

def ch (c : Char) : UInt8 := c.toNat.toUInt8

/-- `*p`. -/
def deref : List UInt8 → Except Err UInt8
  | [] => .error .oob
  | c :: _ => .ok c

/-- `*s`. -/
def Subject.at (src : Subject) (s : ℕ) : Except Err UInt8 :=
  match (src.bytes ++ [0])[s]? with
  | none => .error .oob
  | some c => .ok c

/-- `src_end`. -/
def Subject.size (src : Subject) : ℕ := src.bytes.length

/-! ### Character classes -/

/-- `lj_char_bits`. -/
def charBits : List UInt8 :=
  List.replicate 9 1 ++ List.replicate 5 3 ++ List.replicate 18 1 ++ 2 :: List.replicate 15 4 ++
    List.replicate 10 152 ++ List.replicate 7 4 ++ List.replicate 6 176 ++ List.replicate 20 160 ++
    List.replicate 4 4 ++ 132 :: 4 :: List.replicate 6 208 ++ List.replicate 20 192 ++
    List.replicate 4 4 ++ 1 :: List.replicate 128 128

/-- `lj_char_isa`. -/
def isa (c t : UInt8) : Bool := charBits.getD c.toNat 0 &&& t != 0

/-- `lj_char_isdigit`. -/
def isdigit (c : UInt8) : Bool := isa c 0x08

/-- `match_class_map`. -/
def matchClassMap : List UInt8 :=
  [0, 0x60, 0, 0x01, 0x08, 0, 0, 0x6c, 0, 0, 0, 0, 0x40, 0, 0, 0, 0x04, 0, 0, 0x02, 0, 0x20, 0, 0x68, 0x10,
    0, 0, 0, 0, 0, 0, 0]

/-- `match_class`. -/
def matchClass (c cl : UInt8) : Bool :=
  if cl &&& 0xc0 = 0x40 then
    let t := matchClassMap.getD (cl &&& 0x1f).toNat 0
    if t ≠ 0 then if cl &&& 0x20 ≠ 0 then isa c t else !isa c t
    else if cl = ch 'z' then c = 0
    else if cl = ch 'Z' then c ≠ 0
    else cl = c
  else cl = c

/-- The loop of `classend`. -/
@[grind =]
def classendSet : List UInt8 → Except Err (List UInt8)
  | [] => .error .oob
  | [c] => if c = 0 then .error (.pat .patm) else .error .oob
  | c :: d :: p =>
      if c = 0 then .error (.pat .patm)
      else if c = ch '%' ∧ d ≠ 0 then
        match p with
        | [] => .error .oob
        | e :: q => if e ≠ ch ']' then classendSet (e :: q) else .ok q
      else if d ≠ ch ']' then classendSet (d :: p) else .ok p

/-- `classend`. -/
def classend : List UInt8 → Except Err (List UInt8)
  | [] => .error .oob
  | c :: p =>
      if c = ch '%' then
        match p with
        | [] => .error .oob
        | d :: q => if d = 0 then .error (.pat .pate) else .ok q
      else if c = ch '[' then
        match p with
        | [] => .error .oob
        | d :: q => if d = ch '^' then classendSet q else classendSet (d :: q)
      else .ok p

/-- The loop of `matchbracketclass`; `ec` is the number of bytes from there on. -/
@[grind =]
def bracketLoop (c : UInt8) (sig : Bool) (ec : ℕ) : List UInt8 → Except Err Bool
  | [] => .error .oob
  | [_] => .ok !sig
  | _ :: d :: q =>
      if ¬ec < q.length + 1 then .ok !sig
      else if d = ch '%' then
        match q with
        | [] => .error .oob
        | cl :: r => if matchClass c cl then .ok sig else bracketLoop c sig ec (cl :: r)
      else
        match q with
        | [] => .error .oob
        | x :: r =>
            if x = ch '-' ∧ ec < r.length then
              match r with
              | [] => .error .oob
              | hi :: t => if d ≤ c ∧ c ≤ hi then .ok sig else bracketLoop c sig ec (hi :: t)
            else if d = c then .ok sig
            else bracketLoop c sig ec (d :: x :: r)

/-- `matchbracketclass`. -/
def matchbracketclass (c : UInt8) (ec : ℕ) : List UInt8 → Except Err Bool
  | p :: d :: q =>
      if d = ch '^' then bracketLoop c false ec (d :: q) else bracketLoop c true ec (p :: d :: q)
  | _ => .error .oob

/-- `singlematch`. -/
def singlematch (c : UInt8) (p ep : List UInt8) : Except Err Bool :=
  match p with
  | [] => .error .oob
  | x :: q =>
      if x = ch '.' then .ok true
      else if x = ch '%' then
        match q with
        | [] => .error .oob
        | cl :: _ => .ok (matchClass c cl)
      else if x = ch '[' then matchbracketclass c (ep.length + 1) p
      else .ok (x = c)

/-! ### The state -/

/-- A capture; the length is negative for an unfinished capture and for a position. -/
structure Capture where
  init : ℕ
  len : ℤ

def capUnfinished : ℤ := -1

def capPosition : ℤ := -2

/-- `LUA_MAXCAPTURES`. -/
def maxCaptures : ℕ := 32

/-- What `match` writes to in `MatchState`. -/
structure MatchState where
  level : ℕ
  capture : ℕ → Capture

/-- The result of a call: an end of the match, or a failure. -/
abbrev Res := Except Err (Option ℕ × MatchState)

/-- A call of `match`, which gets the subject and the pattern. -/
abbrev Call := MatchState → ℕ → List UInt8 → Res

/-- `check_capture`. -/
def checkCapture (ms : MatchState) (d : UInt8) : Except Err ℕ :=
  let l : ℤ := d.toNat - 49
  if l < 0 ∨ ms.level ≤ l ∨ (ms.capture l.toNat).len = capUnfinished then .error (.pat .capi) else .ok l.toNat

/-- `capture_to_close`, below a level. -/
def captureToClose (capture : ℕ → Capture) : ℕ → Except Err ℕ
  | 0 => .error (.pat .patc)
  | level + 1 => if (capture level).len = capUnfinished then .ok level else captureToClose capture level

/-! ### Items -/

/-- The loop of `matchbalance`, over what is left of the subject from `s` on. -/
def balanceLoop (b e : UInt8) : ℕ → ℕ → List UInt8 → Option ℕ
  | _, _, [] => none
  | cont, s, c :: r =>
      if c = e then if cont - 1 = 0 then some (s + 1) else balanceLoop b e (cont - 1) (s + 1) r
      else if c = b then balanceLoop b e (cont + 1) (s + 1) r
      else balanceLoop b e cont (s + 1) r

/-- `matchbalance`. -/
def matchbalance (src : Subject) (s : ℕ) (p : List UInt8) : Except Err (Option ℕ) := do
  let b ← deref p
  if b = 0 then throw (.pat .patu)
  let e ← deref p.tail
  if e = 0 then throw (.pat .patu)
  let c ← src.at s
  if c ≠ b then return none
  return balanceLoop b e 1 (s + 1) (src.bytes.drop (s + 1))

/-- The first loop of `max_expand`, over what is left of the subject. -/
def expandCount (p ep : List UInt8) : List UInt8 → Except Err ℕ
  | [] => .ok 0
  | c :: r => do
      if ← singlematch c p ep then return (← expandCount p ep r) + 1
      return 0

/-- The second loop of `max_expand`, for the counts below a number. -/
def expandLoop (call : Call) (s : ℕ) (q : List UInt8) : ℕ → MatchState → Res
  | 0, ms => .ok (none, ms)
  | i + 1, ms => do
      match ← call ms (s + i) q with
      | (some e, ms) => return (some e, ms)
      | (none, ms) => expandLoop call s q i ms

/-- `max_expand`. -/
def maxExpand (src : Subject) (call : Call) (ms : MatchState) (s : ℕ) (p ep : List UInt8) : Res := do
  let i ← expandCount p ep (src.bytes.drop s)
  expandLoop call s ep.tail (i + 1) ms

/-- `min_expand`, over what is left of the subject from `s` on. -/
def minExpand (call : Call) (p ep : List UInt8) : List UInt8 → ℕ → MatchState → Res
  | [], s, ms => call ms s ep.tail
  | c :: r, s, ms => do
      match ← call ms s ep.tail with
      | (some e, ms) => return (some e, ms)
      | (none, ms) =>
          if ← singlematch c p ep then minExpand call p ep r (s + 1) ms
          else return (none, ms)

/-- `start_capture`. -/
def startCapture (call : Call) (ms : MatchState) (s : ℕ) (p : List UInt8) (what : ℤ) : Res := do
  if maxCaptures ≤ ms.level then throw (.pat .capn)
  match ← call ⟨ms.level + 1, Function.update ms.capture ms.level ⟨s, what⟩⟩ s p with
  | (none, ms) => return (none, { ms with level := ms.level - 1 })
  | (some e, ms) => return (some e, ms)

/-- `end_capture`. -/
def endCapture (call : Call) (ms : MatchState) (s : ℕ) (p : List UInt8) : Res := do
  let l ← captureToClose ms.capture ms.level
  let init := (ms.capture l).init
  match ← call { ms with capture := Function.update ms.capture l ⟨init, s - init⟩ } s p with
  | (none, ms) =>
      return (none, { ms with capture := Function.update ms.capture l ⟨(ms.capture l).init, capUnfinished⟩ })
  | (some e, ms) => return (some e, ms)

/-- `match_capture`; the comparison is that of `memcmp`. -/
def matchCapture (src : Subject) (ms : MatchState) (s : ℕ) (d : UInt8) : Except Err (Option ℕ) := do
  let l ← checkCapture ms d
  let init := (ms.capture l).init
  let len := ((ms.capture l).len % 2 ^ src.sizeBits).toNat
  if len ≤ src.size - s then
    if src.size < init + len then throw .oob
    if (src.bytes.drop init).take len = (src.bytes.drop s).take len then return some (s + len)
  return none

/-- The frontier `%f`. -/
def matchFrontier (src : Subject) (s : ℕ) (p ep : List UInt8) : Except Err Bool := do
  let previous ← if s = 0 then pure 0 else src.at (s - 1)
  if ← matchbracketclass previous (ep.length + 1) p then return false
  matchbracketclass (← src.at s) (ep.length + 1) p

/-- A pattern item, with its suffix: the default case of `match`. -/
def matchDefault (src : Subject) (call goto : Call) (ms : MatchState) (s : ℕ) (p : List UInt8) : Res := do
  let ep ← classend p
  let m ← if s < src.size then singlematch (← src.at s) p ep else pure false
  let x ← deref ep
  if x = ch '?' then
    if m then
      match ← call ms (s + 1) ep.tail with
      | (some e, ms) => return (some e, ms)
      | (none, ms) => goto ms s ep.tail
    else goto ms s ep.tail
  else if x = ch '*' then maxExpand src call ms s p ep
  else if x = ch '+' then
    if m then maxExpand src call ms (s + 1) p ep else return (none, ms)
  else if x = ch '-' then minExpand call p ep (src.bytes.drop s) s ms
  else if m then goto ms (s + 1) ep
  else return (none, ms)

/-- The body of `match`, with its loop and with the call of the next level. -/
@[grind =]
def matchLoop (src : Subject) (call : Call) : ℕ → Call
  | 0, _, _, _ => .error .fuel
  | k + 1, ms, s, p => do
      let c ← deref p
      if c = ch '(' then
        if (← deref p.tail) = ch ')' then startCapture call ms s (p.drop 2) capPosition
        else startCapture call ms s p.tail capUnfinished
      else if c = ch ')' then endCapture call ms s p.tail
      else if c = ch '%' then
        let d ← deref p.tail
        if d = ch 'b' then
          match ← matchbalance src s (p.drop 2) with
          | none => return (none, ms)
          | some s => matchLoop src call k ms s (p.drop 4)
        else if d = ch 'f' then
          if (← deref (p.drop 2)) ≠ ch '[' then throw (.pat .patb)
          let ep ← classend (p.drop 2)
          if ← matchFrontier src s (p.drop 2) ep then matchLoop src call k ms s ep
          else return (none, ms)
        else if isdigit d then
          match ← matchCapture src ms s d with
          | none => return (none, ms)
          | some s => matchLoop src call k ms s (p.drop 2)
        else matchDefault src call (matchLoop src call k) ms s p
      else if c = 0 then return (some s, ms)
      else if c = ch '$' then
        if (← deref p.tail) ≠ 0 then matchDefault src call (matchLoop src call k) ms s p
        else return (if s = src.size then some s else none, ms)
      else matchDefault src call (matchLoop src call k) ms s p

/-- `match`, with the number of levels that are left; the pattern bounds its loop. -/
def match_ (src : Subject) : ℕ → Call
  | 0, _, _, _ => .error .patx
  | n + 1, ms, s, p => matchLoop src (match_ src n) p.length ms s p

/-- `LJ_MAX_XLEVEL`. -/
def maxXlevel : ℕ := 200

/-! ### Substitution -/

/-- A value that is pushed for a capture. -/
inductive Val where
  | str (b : List UInt8)
  | pos (n : ℕ)
  deriving DecidableEq

/-- A part of the subject. -/
def Subject.sub (src : Subject) (s e : ℕ) : List UInt8 := (src.bytes.drop s).take (e - s)

/-- `push_onecapture`. -/
def pushOnecapture (src : Subject) (ms : MatchState) (i s e : ℕ) : Except Err Val :=
  if ms.level ≤ i then if i = 0 then .ok (.str (src.sub s e)) else .error (.pat .capi)
  else
    let l := (ms.capture i).len
    if l = capUnfinished then .error (.pat .capu)
    else if l = capPosition then .ok (.pos ((ms.capture i).init + 1))
    else .ok (.str (src.sub (ms.capture i).init ((ms.capture i).init + l.toNat)))

/-- `push_captures`, of a match. -/
def pushCaptures (src : Subject) (ms : MatchState) (s e : ℕ) : Except Err (List Val) :=
  (List.range (if ms.level = 0 then 1 else ms.level)).mapM fun i => pushOnecapture src ms i s e

/-- The text of a value. -/
def Val.text : Val → List UInt8
  | .str b => b
  | .pos n => (Nat.toDigits 10 n).map ch

/-- `add_s`, over what is left of the replacement; behind its end there is a terminator. -/
def addS (src : Subject) (ms : MatchState) (s e : ℕ) : List UInt8 → Except Err (List UInt8)
  | [] => .ok []
  | [c] => .ok [if c = ch '%' then 0 else c]
  | c :: d :: r =>
      if c ≠ ch '%' then do return c :: (← addS src ms s e (d :: r))
      else if !isdigit d then do return d :: (← addS src ms s e r)
      else if d = ch '0' then do return src.sub s e ++ (← addS src ms s e r)
      else do
        let v ← pushOnecapture src ms (d.toNat - 49) s e
        return v.text ++ (← addS src ms s e r)

/-- What a function or a table gives for a match: nothing, a string or a number as text, or another
value. -/
inductive Given where
  | keep
  | text (b : List UInt8)
  | other
  deriving DecidableEq

/-- The replacement.  A function and a table run code, with a state of its own, and may fail. -/
inductive Repl (W : Type) where
  | str (news : List UInt8)
  | func (f : List Val → W → Option (Given × W))
  | table (f : Val → W → Option (Given × W))

/-- The errors of a substitution: one of the matcher, an invalid value, or one of the code that is run. -/
inductive GsubErr where
  | err (e : Err)
  | gsrv
  | callee
  deriving DecidableEq

variable {W : Type}

def liftErr {α : Type} : Except Err α → Except GsubErr α
  | .error e => .error (.err e)
  | .ok a => .ok a

/-- The second part of `add_value`. -/
def addGiven (src : Subject) (s e : ℕ) : Option (Given × W) → Except GsubErr (List UInt8 × W)
  | none => .error .callee
  | some (.keep, w) => .ok (src.sub s e, w)
  | some (.text b, w) => .ok (b, w)
  | some (.other, _) => .error .gsrv

/-- `add_value`. -/
def addValue (src : Subject) (repl : Repl W) (ms : MatchState) (s e : ℕ) (w : W) :
    Except GsubErr (List UInt8 × W) :=
  match repl with
  | .str news => do return (← liftErr (addS src ms s e news), w)
  | .func f => do addGiven src s e (f (← liftErr (pushCaptures src ms s e)) w)
  | .table f => do addGiven src s e (f (← liftErr (pushOnecapture src ms 0 s e)) w)

/-- What was added to the buffer, with the part of the subject that it stands for. -/
structure Piece where
  matched : Bool
  lo : ℕ
  hi : ℕ
  out : List UInt8

/-- The loop of `string_gsub`; the result has the pieces in the buffer, the last one first, and the
number of substitutions. -/
def gsubLoop (src : Subject) (p : List UInt8) (anchor : Bool) (repl : Repl W) (maxS : ℤ) :
    ℕ → ℕ → ℕ → (ℕ → Capture) → W → List Piece → Except GsubErr (List Piece × ℕ × ℕ)
  | 0, _, _, _, _, _ => .error (.err .fuel)
  | k + 1, s, n, capture, w, b =>
      if ¬(n : ℤ) < maxS then .ok (b, s, n)
      else do
        let (e, ms) ← liftErr (match_ src maxXlevel ⟨0, capture⟩ s p)
        let (n, w, b) ← match e with
          | none => pure (n, w, b)
          | some e => do
              let (t, w) ← addValue src repl ms s e w
              pure (n + 1, w, ⟨true, s, e, t⟩ :: b)
        match e.filter (s < ·) with
        | some e => if anchor then return (b, e, n) else gsubLoop src p anchor repl maxS k e n ms.capture w b
        | none =>
            if s < src.size then
              let b := ⟨false, s, s + 1, src.sub s (s + 1)⟩ :: b
              if anchor then return (b, s + 1, n) else gsubLoop src p anchor repl maxS k (s + 1) n ms.capture w b
            else return (b, s, n)

/-- `string_gsub`: the pieces of the result, and the number of substitutions. -/
def gsub (src : Subject) (p : List UInt8) (repl : Repl W) (maxS : ℤ) (w : W) : Except GsubErr (List Piece × ℕ) := do
  let anchor := p.head? = some (ch '^')
  let p := if anchor then p.tail else p
  let (b, s, n) ← gsubLoop src (p ++ [0]) anchor repl maxS (src.size + 1) 0 0 (fun _ => ⟨0, 0⟩) w []
  return ((⟨false, s, src.size, src.sub s src.size⟩ :: b).reverse, n)

/-- The string that is pushed. -/
def result (b : List Piece) : List UInt8 := (b.map Piece.out).flatten

/-! ### Iteration -/

/-- What a call of the iterator finds, and the values that it pushes, which may fail. -/
structure Found where
  lo : ℕ
  hi : ℕ
  vals : Except Err (List Val)

/-- `string_gmatch_aux`, from a position on, and the position that is stored. -/
def gmatchAux (src : Subject) (p : List UInt8) : ℕ → ℕ → (ℕ → Capture) → Except Err (Option (Found × ℕ))
  | 0, _, _ => .error .fuel
  | k + 1, s, capture =>
      if ¬s ≤ src.size then .ok none
      else do
        match ← match_ src maxXlevel ⟨0, capture⟩ s (p ++ [0]) with
        | (some e, ms) => return some (⟨s, e, pushCaptures src ms s e⟩, (if e = s then e + 1 else e) % 2 ^ 32)
        | (none, ms) => gmatchAux src p k (s + 1) ms.capture

/-- Calls of the iterator, until there is no match; the captures are in the stack frame of each call. -/
def gmatch (src : Subject) (p : List UInt8) (frame : ℕ → ℕ → Capture) : ℕ → ℕ → Except Err (List Found)
  | 0, _ => .error .fuel
  | k + 1, pos => do
      match ← gmatchAux src p (src.size + 2) pos (frame k) with
      | none => return []
      | some (f, pos) => return f :: (← gmatch src p frame k pos)

end StrMatch
