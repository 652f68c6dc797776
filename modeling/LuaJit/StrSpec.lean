/-
**The meaning of patterns.**

A pattern is a list of items.  The meaning of a list of items at a position is the list of all the ways
to match it, in the order of their priority: a greedy repetition has the longest first, a lazy one the
shortest, and an optional item is there before it is not.  A malformed item is an error, which ends the
list.

Main definitions:

* `StrMatch.Single.mem` — the characters of a class;
* `StrMatch.parse` — the items of a pattern;
* `StrMatch.sols` — **the matches, in the order of their priority**.
-/

import LuaJit.StrMatch

set_option relaxedAutoImplicit false
set_option autoImplicit false

namespace StrMatch

/-! ### Classes -/

/-- The characters from one to another. -/
def between (lo hi : Char) (c : UInt8) : Bool := ch lo ≤ c ∧ c ≤ ch hi

def isPunct (c : UInt8) : Bool :=
  between '!' '/' c || between ':' '@' c || between '[' (Char.ofNat 96) c || between '\x7b' '~' c

def isAlpha (c : UInt8) : Bool := between 'A' 'Z' c || between 'a' 'z' c

/-- The classes by their letters: letters, control characters, digits, printable characters but the
space, lower case, punctuation, spaces, upper case, letters and digits, hexadecimal digits, zero. -/
def classPred (cl : UInt8) : Option (UInt8 → Bool) :=
  if cl = ch 'a' then some isAlpha
  else if cl = ch 'c' then some fun c => c < 32 || c = 127
  else if cl = ch 'd' then some (between '0' '9')
  else if cl = ch 'g' then some (between '!' '~')
  else if cl = ch 'l' then some (between 'a' 'z')
  else if cl = ch 'p' then some isPunct
  else if cl = ch 's' then some fun c => c = 32 || (9 ≤ c && c ≤ 13)
  else if cl = ch 'u' then some (between 'A' 'Z')
  else if cl = ch 'w' then some fun c => isAlpha c || between '0' '9' c
  else if cl = ch 'x' then some fun c => between '0' '9' c || between 'A' 'F' c || between 'a' 'f' c
  else if cl = ch 'z' then some (· = 0)
  else none

/-- The meaning of `%` and a character: a class, the complement of a class for an upper case letter, or
the character itself. -/
def classMem (cl c : UInt8) : Bool :=
  match classPred cl with
  | some p => p c
  | none =>
      match if between 'A' 'Z' cl then classPred (cl + 32) else none with
      | some p => !p c
      | none => c = cl

/-- What a set contains. -/
inductive SetItem where
  | cls (cl : UInt8)
  | range (lo hi : UInt8)
  | chr (c : UInt8)
  deriving DecidableEq

def SetItem.mem (c : UInt8) : SetItem → Bool
  | .cls cl => classMem cl c
  | .range lo hi => lo ≤ c ∧ c ≤ hi
  | .chr x => x = c

/-- The body of a set, up to its bracket; a bracket that comes first is a character. -/
def setBody (first : Bool) : List UInt8 → Option (List UInt8 × List UInt8)
  | [] => none
  | c :: q =>
      if c = ch ']' ∧ first = false then some ([], q)
      else if c = ch '%' then
        match q with
        | [] => none
        | d :: r => (setBody false r).map fun b => (c :: d :: b.1, b.2)
      else (setBody false q).map fun b => (c :: b.1, b.2)

/-- The items of the body of a set.  (An escape as the end of a range leaves its character over, which is
the bracket at the end: ranges do not go together with classes.) -/
def setItems : List UInt8 → List SetItem
  | [] => []
  | [c] => [if c = ch '%' then .cls (ch ']') else .chr c]
  | [c, d] => if c = ch '%' then [.cls d] else .chr c :: setItems [d]
  | c :: d :: hi :: r =>
      if c = ch '%' then .cls d :: setItems (hi :: r)
      else if d = ch '-' then .range c hi :: setItems r
      else .chr c :: setItems (d :: hi :: r)

/-- A set, or its complement. -/
structure CharSet where
  neg : Bool
  items : List SetItem
  deriving DecidableEq

def CharSet.mem (c : UInt8) (S : CharSet) : Bool := (S.items.any (SetItem.mem c)) != S.neg

/-- A single character class. -/
inductive Single where
  | any
  | cls (cl : UInt8)
  | set (S : CharSet)
  | chr (c : UInt8)
  deriving DecidableEq

def Single.mem (c : UInt8) : Single → Bool
  | .any => true
  | .cls cl => classMem cl c
  | .set S => S.mem c
  | .chr x => x = c

/-! ### Items -/

/-- How often a single character class is repeated. -/
inductive Rep where
  | one | opt | star | plus | lazy
  deriving DecidableEq

inductive Item where
  | openCap
  | posCap
  | closeCap
  | balance (x y : UInt8)
  | frontier (S : CharSet)
  | backref (d : UInt8)
  | atEnd
  | single (c : Single) (r : Rep)
  | malformed (e : PatErr)
  deriving DecidableEq

/-- A set, after its bracket, and what is left. -/
def parseSet : List UInt8 → Option (CharSet × List UInt8)
  | [] => none
  | c :: q =>
      if c = ch '^' then (setBody true q).map fun b => (⟨true, setItems b.1⟩, b.2)
      else (setBody true (c :: q)).map fun b => (⟨false, setItems b.1⟩, b.2)

/-- A single character class, and what is left. -/
def parseSingle (c : UInt8) (q : List UInt8) : Except PatErr (Single × List UInt8) :=
  if c = ch '.' then .ok (.any, q)
  else if c = ch '%' then
    match q with
    | [] => .error .pate
    | d :: r => .ok (.cls d, r)
  else if c = ch '[' then
    match parseSet q with
    | none => .error .patm
    | some (S, r) => .ok (.set S, r)
  else .ok (.chr c, q)

/-- A suffix. -/
def parseRep : List UInt8 → Rep × List UInt8
  | [] => (.one, [])
  | x :: q =>
      if x = ch '?' then (.opt, q)
      else if x = ch '*' then (.star, q)
      else if x = ch '+' then (.plus, q)
      else if x = ch '-' then (.lazy, q)
      else (.one, x :: q)

theorem setBody_length {first : Bool} {q : List UInt8} {b : List UInt8 × List UInt8}
    (h : setBody first q = some b) : b.2.length < q.length := by
  fun_induction setBody first q generalizing b with
  | case1 => cases h
  | case2 first c q hc =>
    cases h
    exact Nat.lt_succ_self _
  | case3 => cases h
  | case4 first d r _ ih =>
    obtain ⟨b', hb, rfl⟩ := Option.map_eq_some_iff.1 h
    exact (ih hb).trans (by simp only [List.length_cons]; omega)
  | case5 first c q _ _ ih =>
    obtain ⟨b', hb, rfl⟩ := Option.map_eq_some_iff.1 h
    exact (ih hb).trans (Nat.lt_succ_self _)

theorem parseSet_length {q : List UInt8} {b : CharSet × List UInt8} (h : parseSet q = some b) :
    b.2.length < q.length := by
  unfold parseSet at h
  split at h
  · cases h
  · split at h <;> obtain ⟨b', hb, rfl⟩ := Option.map_eq_some_iff.1 h
    · exact (setBody_length hb).trans (Nat.lt_succ_self _)
    · exact setBody_length hb

theorem parseSingle_length {c : UInt8} {q : List UInt8} {b : Single × List UInt8}
    (h : parseSingle c q = .ok b) : b.2.length ≤ q.length := by
  unfold parseSingle at h
  split at h
  · cases h
    exact le_rfl
  · split at h
    · split at h
      · cases h
      · cases h
        exact Nat.le_succ _
    · split at h
      · split at h
        · cases h
        · rename_i hset
          cases h
          exact (parseSet_length hset).le
      · cases h
        exact le_rfl

theorem parseRep_length (q : List UInt8) : (parseRep q).2.length ≤ q.length := by
  unfold parseRep
  split
  · exact le_rfl
  · split_ifs <;> first | exact Nat.le_succ _ | exact le_rfl

/-- **The items of a pattern.** -/
def parse : List UInt8 → List Item
  | [] => []
  | c :: q =>
      if c = ch '(' then
        match q with
        | d :: r => if d = ch ')' then .posCap :: parse r else .openCap :: parse (d :: r)
        | [] => [.openCap]
      else if c = ch ')' then .closeCap :: parse q
      else if c = ch '%' ∧ q.head? = some (ch 'b') then
        match q with
        | _ :: x :: y :: r => .balance x y :: parse r
        | _ => [.malformed .patu]
      else if c = ch '%' ∧ q.head? = some (ch 'f') then
        match q with
        | _ :: x :: r =>
            if x ≠ ch '[' then [.malformed .patb]
            else
              match _h : parseSet r with
              | none => [.malformed .patm]
              | some (S, t) => .frontier S :: parse t
        | _ => [.malformed .patb]
      else if c = ch '%' ∧ q.head?.any isdigit then
        match q with
        | d :: r => .backref d :: parse r
        | [] => []
      else if c = ch '$' ∧ q = [] then [.atEnd]
      else
        match _h : parseSingle c q with
        | .error e => [.malformed e]
        | .ok (S, r) => .single S (parseRep r).1 :: parse (parseRep r).2
termination_by q => q.length
decreasing_by
  all_goals simp only [List.length_cons]
  · omega
  · omega
  · omega
  · omega
  · have := parseSet_length _h
    dsimp only at this
    omega
  · omega
  · have := parseSingle_length _h
    have := parseRep_length r
    dsimp only at *
    omega

/-! ### Matches -/

/-- The length of a capture: none yet, none at all for a position, or a number. -/
inductive CapLen where
  | unfinished
  | position
  | closed (n : ℕ)
  deriving DecidableEq

/-- The captures, the first one first: where they start, and their lengths. -/
abbrev Caps := List (ℕ × CapLen)

/-- One way to match: an end with the captures, or an error. -/
abbrev Outcome := Except PatErr (ℕ × Caps)

/-- The character at a position, which is zero at the end. -/
def Subject.get (src : Subject) (s : ℕ) : UInt8 := src.bytes.getD s 0

/-- There is a character at the position, and it is in the class. -/
def Subject.has (src : Subject) (c : Single) (s : ℕ) : Bool := s < src.size && c.mem (src.get s)

/-- How many characters of a class there are from a position on. -/
def Subject.run (src : Subject) (c : Single) (s : ℕ) : ℕ :=
  ((src.bytes.drop s).takeWhile fun x => c.mem x).length

/-- Whether a text after a delimiter `x` balances it: it has as many `x` as `y`, but for the first one. -/
def balanced (x y : UInt8) (t : List UInt8) : Bool :=
  t.count y = (if x = y then 0 else t.count x) + 1

/-- The end of the shortest balanced text. -/
def Subject.balanceEnd (src : Subject) (x y : UInt8) (s : ℕ) : Option ℕ :=
  if s < src.size ∧ src.get s = x then
    ((List.range (src.size - s)).find? fun k => balanced x y ((src.bytes.drop (s + 1)).take k)).map (s + 1 + ·)
  else none

/-- The character before a position, which is zero at the start. -/
def Subject.prev (src : Subject) (s : ℕ) : UInt8 := if s = 0 then 0 else src.get (s - 1)

/-- The last capture that is open. -/
def lastOpen (caps : Caps) : Option ℕ :=
  (List.range caps.length).reverse.find? fun i => caps[i]?.map Prod.snd = some .unfinished

/-- The end of a copy of a capture: an error if there is no such capture, and no end for a position. -/
def Subject.copyEnd (src : Subject) (caps : Caps) (s : ℕ) (d : UInt8) : Except PatErr (Option ℕ) :=
  if d.toNat < 49 then .error .capi
  else
    match caps[d.toNat - 49]? with
    | none | some (_, .unfinished) => .error .capi
    | some (_, .position) => .ok none
    | some (i, .closed n) =>
        .ok (if s + n ≤ src.size ∧ (src.bytes.drop i).take n = (src.bytes.drop s).take n then some (s + n) else none)

/-- **The matches of items, in the order of their priority.** -/
@[grind =]
def sols (src : Subject) : List Item → ℕ → Caps → List Outcome
  | [], s, caps => [.ok (s, caps)]
  | .openCap :: r, s, caps =>
      if maxCaptures ≤ caps.length then [.error .capn] else sols src r s (caps ++ [(s, .unfinished)])
  | .posCap :: r, s, caps =>
      if maxCaptures ≤ caps.length then [.error .capn] else sols src r s (caps ++ [(s, .position)])
  | .closeCap :: r, s, caps =>
      match lastOpen caps with
      | none => [.error .patc]
      | some l => sols src r s (caps.modify l fun c => (c.1, .closed (s - c.1)))
  | .balance x y :: r, s, caps =>
      match src.balanceEnd x y s with
      | none => []
      | some e => sols src r e caps
  | .frontier S :: r, s, caps =>
      if !S.mem (src.prev s) && S.mem (src.get s) then sols src r s caps else []
  | .backref d :: r, s, caps =>
      match src.copyEnd caps s d with
      | .error e => [.error e]
      | .ok none => []
      | .ok (some e) => sols src r e caps
  | .atEnd :: _, s, caps => if s = src.size then [.ok (s, caps)] else []
  | .single c .one :: r, s, caps => if src.has c s then sols src r (s + 1) caps else []
  | .single c .opt :: r, s, caps =>
      (if src.has c s then sols src r (s + 1) caps else []) ++ sols src r s caps
  | .single c .star :: r, s, caps =>
      (List.range (src.run c s + 1)).reverse.flatMap fun i => sols src r (s + i) caps
  | .single c .plus :: r, s, caps =>
      (List.range (src.run c s)).reverse.flatMap fun i => sols src r (s + 1 + i) caps
  | .single c .lazy :: r, s, caps =>
      (List.range (src.run c s + 1)).flatMap fun i => sols src r (s + i) caps
  | .malformed e :: _, _, _ => [.error e]

end StrMatch
