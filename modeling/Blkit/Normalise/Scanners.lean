import Blkit.Control.Fuel
import Blkit.Text.Scan

/-!
# The helpers of the passes

The functions of `normalise.go` that search a text for the borders of what a pass
rewrites.  A search that Go code answers with `-1` is answered with `none`.  A slice
of a text is taken with `slice`, which stops the run where Go panics; the slices whose
bounds a test in front of them guarantees are written as they are.
-/

namespace Blkit

/-- The bytes from one index to another. -/
def part (s : Text) (i j : Nat) : Text := (s.take j).drop i

/-- `s[i:j]`. -/
def slice (s : Text) (i j : Nat) : Run Text :=
  if i ≤ j ∧ j ≤ s.length then .ok (part s i j) else .error .outOfRange

/-- The blanks that the loops between tokens pass over. -/
def isBlankByte (c : Char) : Bool := c == ' ' || c == '\t'

/-- The loop `for i < len(s) && p(s[i]) { i++ }`. -/
def skipWhile (p : Char → Bool) (s : Text) (i : Nat) : Nat := i + ((s.drop i).takeWhile p).length

/-! ## Groups and calls -/

/-- `matchGroupEnd`. -/
def matchGroupEnd (s : Text) (i : Nat) : Option Nat :=
  let visit (j : Nat) (c : Char) (depth : Int) (_ : Unit) : Step Unit Nat :=
    if isClose c && depth == 0 then .stop j else .next 1 ()
  (scan visit s i s.length ()).getLeft?

/-- The next byte that is not blank opens a call. -/
def callFollows (s : Text) (i : Nat) : Bool := s[skipWhile isBlankByte s i]? == some '('

/-- The loop of `indexTopLevelCall` and `indexTopLevelCallFrom`. -/
def indexCallLoop (s name : Text) : (rounds : Nat) → (start : Nat) → Option Nat
  | 0, _ => none
  | rounds + 1, start =>
    match indexTopLevelKeyword s name start with
    | none => none
    | some idx =>
      if callFollows s (idx + name.length) then some idx
      else indexCallLoop s name rounds (idx + name.length)

/-- `indexTopLevelCallFrom`.  Every round starts further right, so that there are not
more rounds than bytes. -/
def indexTopLevelCallFrom (s name : Text) (start : Nat) : Option Nat :=
  indexCallLoop s name (s.length + 1) start

/-- `indexTopLevelCall`. -/
def indexTopLevelCall (s name : Text) : Option Nat := indexTopLevelCallFrom s name 0

/-- `findKeywordCall`, which also looks into brackets. -/
def findKeywordCall (s name : Text) (start : Nat) : Option Nat :=
  let visit (i : Nat) (_ : Char) (_ : Int) (_ : Unit) : Step Unit Nat :=
    if matchKeyword s i name && callFollows s (i + name.length) then .stop i else .next 1 ()
  (scan visit s start s.length ()).getLeft?

/-- `indexTopLevelComma`. -/
def indexTopLevelComma (s : Text) : Option Nat :=
  let visit (i : Nat) (c : Char) (depth : Int) (_ : Unit) : Step Unit Nat :=
    if depth == 0 && c == ',' then .stop i else .next 1 ()
  (scan visit s 0 s.length ()).getLeft?

/-- `indexTopLevelDotDot`. -/
def indexTopLevelDotDot (s : Text) : Option Nat :=
  let visit (i : Nat) (c : Char) (depth : Int) (_ : Unit) : Step Unit Nat :=
    if depth == 0 && c == '.' && s[i + 1]? == some '.' then .stop i else .next 1 ()
  (scan visit s 0 (s.length - 1) ()).getLeft?

/-! ## Sequences -/

/-- `firstSequenceColon`.  The loop keeps the brackets that are open. -/
def firstSequenceColon (s : Text) : Option Nat :=
  let visit (i : Nat) (c : Char) (_ : Int) (stack : List Char) : Step (List Char) Nat :=
    if isOpen c then .next 1 (c :: stack)
    else if isClose c then .next 1 stack.tail
    else if c == ':' && stack.head? != some '\x7b' then .stop i
    else .next 1 stack
  (scan visit s 0 s.length []).getLeft?

/-- `seqBoundaryKeywords`. -/
def seqBoundaryKeywords : List Text :=
  ["and".toList, "or".toList, "in".toList, "between".toList, "return".toList,
    "satisfies".toList, "then".toList, "else".toList]

/-- `seqKeywordAt`. -/
def seqKeywordAt (s : Text) (i : Nat) : Option Nat :=
  (seqBoundaryKeywords.find? fun k => matchKeyword s i k).map List.length

/-- `seqGroupStart`. -/
def seqGroupStart (s : Text) (colon : Nat) : Nat :=
  let visit (i : Nat) (c : Char) (_ : Int) (stack : List Nat) : Step (List Nat) Empty :=
    if isOpen c then .next 1 (i :: stack)
    else if isClose c then .next 1 stack.tail
    else .next 1 stack
  match (scan visit s 0 colon []).elim nofun id with
  | [] => 0
  | i :: _ => i + 1

/-- A byte of a comparison. -/
def isComparison (c : Char) : Bool := c == '<' || c == '>' || c == '=' || c == '!'

/-- `seqOperandLeft`. -/
def seqOperandLeft (s : Text) (colon : Nat) : Nat :=
  let visit (i : Nat) (c : Char) (depth : Int) (start : Nat) : Step Nat Empty :=
    if isOpen c || isClose c then .next 1 start
    else if depth == 0 && (c == ',' || c == ':') then .next 1 (i + 1)
    else if depth == 0 && isComparison c then
      .next 1 (if decide (i + 1 < colon) && s[i + 1]? == some '=' then i + 2 else i + 1)
    else if depth == 0 then
      match seqKeywordAt s i with
      | some n => .next n (i + n)
      | none => .next 1 start
    else .next 1 start
  (scan visit s (seqGroupStart s colon) colon (seqGroupStart s colon)).elim nofun id

/-- `seqOperandRight`. -/
def seqOperandRight (s : Text) (start : Nat) : Nat :=
  let visit (i : Nat) (c : Char) (depth : Int) (_ : Unit) : Step Unit Nat :=
    if isClose c && depth == -1 then .stop i
    else if isOpen c || isClose c then .next 1 ()
    else if depth == 0 && (c == ',' || c == ':' || isComparison c || (seqKeywordAt s i).isSome) then
      .stop i
    else .next 1 ()
  (scan visit s start s.length ()).getLeft?.getD s.length

/-! ## Inline functions -/

/-- `funcBodyEnd`. -/
def funcBodyEnd (s : Text) (start : Nat) : Nat :=
  let visit (i : Nat) (c : Char) (depth : Int) (_ : Unit) : Step Unit Nat :=
    if isClose c && depth == -1 then .stop i
    else if depth == 0 && c == ',' then .stop i
    else .next 1 ()
  (scan visit s start s.length ()).getLeft?.getD s.length

/-- The byte is between the two. -/
def isBetween (lo hi c : Char) : Bool := decide (lo ≤ c) && decide (c ≤ hi)

/-- How many bytes the UTF-8 sequence takes with which the text begins; none when
there is no valid one. -/
def runeWidth : Text → Nat
  | [] => 0
  | c :: s =>
    let tail (n : Nat) : Bool := decide (n ≤ s.length) && (s.take n).all (isBetween '\x80' '\xbf')
    let next (lo hi : Char) : Bool := s.head?.any (isBetween lo hi)
    if isAscii c then 1
    else if isBetween '\xc2' '\xdf' c && tail 1 then 2
    else if c == '\xe0' && next '\xa0' '\xbf' && tail 2 then 3
    else if c == '\xed' && next '\x80' '\x9f' && tail 2 then 3
    else if isBetween '\xe1' '\xef' c && c != '\xed' && tail 2 then 3
    else if c == '\xf0' && next '\x90' '\xbf' && tail 3 then 4
    else if c == '\xf4' && next '\x80' '\x8f' && tail 3 then 4
    else if isBetween '\xf1' '\xf3' c && tail 3 then 4
    else 0

/-- `escapeStringLiteral`, `skip` bytes having been written already.  Ranging over a
string replaces what is not valid UTF-8 by the replacement character. -/
def escapeLoop : Text → (skip : Nat) → Text
  | [], _ => []
  | c :: s, skip + 1 => c :: escapeLoop s skip
  | c :: s, 0 =>
    if c == '\\' || c == '"' then '\\' :: c :: escapeLoop s 0
    else
      match runeWidth (c :: s) with
      | 0 => '\xef' :: '\xbf' :: '\xbd' :: escapeLoop s 0
      | n + 1 => c :: escapeLoop s n

/-- `escapeStringLiteral`. -/
def escapeStringLiteral (s : Text) : Text := escapeLoop s 0

/-! ## Two-slot brackets -/

/-- `bracketKeywords`. -/
def bracketKeywords : List Text :=
  ["in".toList, "and".toList, "or".toList, "not".toList, "return".toList, "satisfies".toList,
    "then".toList, "else".toList, "if".toList, "instance".toList, "of".toList, "between".toList,
    "true".toList, "false".toList, "null".toList, "nil".toList]

/-- `isIndexBracket`: what is before the bracket, read backwards. -/
def isIndexBracket (s : Text) (i : Nat) : Bool :=
  match (s.take i).reverse.dropWhile isBlankByte with
  | [] => false
  | c :: before =>
    if c == ')' || c == ']' || c == '"' then true
    else if !isIdentByte c then false
    else !bracketKeywords.contains (c :: before.takeWhile isIdentByte).reverse

/-- `firstTwoSlotBracket`. -/
def firstTwoSlotBracket (s : Text) : Option Nat :=
  let visit (i : Nat) (c : Char) (_ : Int) (_ : Unit) : Step Unit Nat :=
    if c == '[' && isIndexBracket s i then
      match matchGroupEnd s i with
      | some close =>
        if decide (i < close) && (indexTopLevelComma (part s (i + 1) close)).isSome then .stop i
        else .next 1 ()
      | none => .next 1 ()
    else .next 1 ()
  (scan visit s 0 s.length ()).getLeft?

/-- `matchOpenBackward`: how far the opening bracket is from the closing one with which
the text begins.  The text is read backwards; when no bracket is the matching one, the
answer is the last byte. -/
def matchOpenBackward : Text → (depth distance : Nat) → Nat
  | [], _, distance => distance - 1
  | c :: before, depth, distance =>
    if isClose c then matchOpenBackward before (depth + 1) (distance + 1)
    else if isOpen c then
      if depth == 1 then distance else matchOpenBackward before (depth - 1) (distance + 1)
    else matchOpenBackward before depth (distance + 1)

/-- The length of the receiver that ends a text, the text being read backwards and
`skip` of its bytes being part of the receiver already. -/
def receiverLength : Text → (skip : Nat) → Nat
  | [], _ => 0
  | _ :: before, skip + 1 => receiverLength before skip + 1
  | c :: before, 0 =>
    if isClose c then receiverLength before (matchOpenBackward (c :: before) 0 0) + 1
    else if isIdentByte c || c == '.' then receiverLength before 0 + 1
    else 0

/-- `scanReceiverStart`. -/
def scanReceiverStart (s : Text) (bracket : Nat) : Nat :=
  bracket - receiverLength (s.take bracket).reverse 0

end Blkit
