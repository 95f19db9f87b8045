import Blkit.Text.Trim

/-!
# Scanning source text

The source-level passes share one kind of loop: it walks over the bytes of a text,
jumps over string literals, counts brackets, and looks for keywords and commas
where no bracket is open.  `scan` is that loop; the functions of `normalise.go` and
`comprehensions.go` that are such a loop are instances of it.
-/

namespace Blkit

/-- `skipString`: how far the closing quote of a string literal is from its opening quote,
which has just been passed.  The byte after a backslash is taken as it is, also when the
text has ended before it. -/
def skipBody (escaped : Bool) : Text → Nat
  | [] => if escaped then 1 else 0
  | c :: s =>
    if escaped then skipBody false s + 1
    else if c == '"' then 1
    else skipBody (c == '\\') s + 1

/-- An opening bracket. -/
def isOpen (c : Char) : Bool := c == '(' || c == '[' || c == '\x7b'

/-- A closing bracket. -/
def isClose (c : Char) : Bool := c == ')' || c == ']' || c == '\x7d'

/-- What a byte adds to the number of open brackets. -/
def nesting (c : Char) : Int := if isOpen c then 1 else if isClose c then -1 else 0

/-- `matchKeyword`: the word stands at `i`, and is not part of a longer one. -/
def matchKeyword (s : Text) (i : Nat) (kw : Text) : Bool :=
  (s.drop i).take kw.length == kw && !(decide (0 < i) && (s[i - 1]?).any isIdentByte) &&
    !(s[i + kw.length]?).any isIdentByte

/-! ## The loop -/

/-- What the body of a loop decides at a byte: leave the loop with a result, or go
on some bytes further. -/
inductive Step (σ ρ : Type) where
  | stop (result : ρ)
  | next (bytes : Nat) (state : σ)

section Scan

variable {σ ρ : Type} (visit : Nat → Char → Int → σ → Step σ ρ)

/-- The loop over the bytes that are left, `skip` of which have been dealt with
already.  `i` is the index of the first of them and `depth` the number of open
brackets.  The body sees the depth after its own byte has been counted. -/
def scanLoop : Text → (skip i : Nat) → Int → σ → ρ ⊕ σ
  | [], _, _, _, state => .inr state
  | _ :: s, skip + 1, i, depth, state => scanLoop s skip (i + 1) depth state
  | c :: s, 0, i, depth, state =>
    if c == '"' then scanLoop s (skipBody false s) (i + 1) depth state
    else
      match visit i c (depth + nesting c) state with
      | .stop r => .inl r
      | .next n state => scanLoop s (n - 1) (i + 1) (depth + nesting c) state

/-- The loop over `s[start:limit]`. -/
def scan (s : Text) (start limit : Nat) (state : σ) : ρ ⊕ σ :=
  scanLoop visit ((s.take limit).drop start) 0 start 0 state

end Scan

/-! ## The loops of the passes -/

/-- `indexTopLevelKeyword`. -/
def indexTopLevelKeyword (s kw : Text) (start : Nat) : Option Nat :=
  let visit (i : Nat) (_ : Char) (depth : Int) (_ : Unit) : Step Unit Nat :=
    if depth == 0 && matchKeyword s i kw then .stop i else .next 1 ()
  (scan visit s start s.length ()).getLeft?

/-- `leftOperandStart`.  A connective is passed two bytes at a time. -/
def leftOperandStart (s : Text) (between : Nat) : Nat :=
  let visit (i : Nat) (c : Char) (depth : Int) (start : Nat) : Step Nat Empty :=
    if isOpen c || isClose c then .next 1 start
    else if depth == 0 && c == ',' then .next 1 (i + 1)
    else if depth == 0 && matchKeyword s i "or".toList then .next 2 (i + 2)
    else if depth == 0 && matchKeyword s i "and".toList then .next 2 (i + 3)
    else .next 1 start
  (scan visit s 0 between 0).elim nofun id

/-- `rightOperandEnd`. -/
def rightOperandEnd (s : Text) (start : Nat) : Nat :=
  let visit (i : Nat) (c : Char) (depth : Int) (_ : Unit) : Step Unit Nat :=
    if isClose c && depth == -1 then .stop i
    else if depth == 0 && c == ',' then .stop i
    else if depth == 0 && (matchKeyword s i "and".toList || matchKeyword s i "or".toList)
      then .stop i
    else .next 1 ()
  (scan visit s start s.length ()).getLeft?.getD s.length

/-- `matchingClose`. -/
def matchingClose (c : Char) : Char := if c == '(' then ')' else if c == '[' then ']' else '\x7d'

/-- The inner loop of `mapTopLevelGroups`: where the bracket that has just been
opened is closed.  Only brackets of its own kind are counted.  The index is that of
the end when the bracket is not closed, or the one after it when the last thing is a
string literal that is not closed and ends in a backslash. -/
def closeAt (open_ close : Char) : Text → (skip : Nat) → (depth j : Nat) → Nat
  | [], skip, _, j => j + skip
  | _ :: s, skip + 1, depth, j => closeAt open_ close s skip depth (j + 1)
  | c :: s, 0, depth, j =>
    if c == '"' then closeAt open_ close s (skipBody false s) depth (j + 1)
    else if c == open_ then closeAt open_ close s 0 (depth + 1) (j + 1)
    else if c == close then
      if depth == 1 then j else closeAt open_ close s 0 (depth - 1) (j + 1)
    else closeAt open_ close s 0 depth (j + 1)

/-- `mapTopLevelGroups`, from a byte on, `skip` bytes having been written already. -/
def mapGroupsLoop (fn : Text → Text) : Text → (skip : Nat) → Text
  | [], _ => []
  | _ :: s, skip + 1 => mapGroupsLoop fn s skip
  | c :: s, 0 =>
    if c == '"' then c :: s.take (skipBody false s) ++ mapGroupsLoop fn s (skipBody false s)
    else if isOpen c then
      let j := closeAt c (matchingClose c) s 0 1 0
      c :: (if j ≤ s.length then fn (s.take j) else []) ++
        (if j < s.length then [matchingClose c] else []) ++ mapGroupsLoop fn s (j + 1)
    else c :: mapGroupsLoop fn s 0

/-- `mapTopLevelGroups`. -/
def mapTopLevelGroups (s : Text) (fn : Text → Text) : Text := mapGroupsLoop fn s 0

end Blkit
