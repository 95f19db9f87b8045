import Blkit.Normalise.Scanners

/-!
# The passes of `normalise`

`normalise` turns a source text into the text that the parser is given, by passes over
the text.  Those that rewrite until nothing is left to rewrite are here as the code has
them, in the monad of runs: a slice out of range stops the run, and so does using up the
fuel that bounds the loops and the recursion of a pass.  The text of a pass that needs
fuel is the one that it returns with enough of it.
-/

namespace Blkit

/-! ## Passes that copy -/

/-- The loop of the passes that write a new text from left to right.  String literals
are copied; at any other byte `emit`, which is given the byte before it, the byte and
what follows it, says what is written, and how many of the bytes that follow have been
read for it. -/
def copyLoop (emit : Option Char → Char → Text → Run (Text × Nat)) :
    Option Char → Text → (skip : Nat) → Run Text
  | _, [], _ => pure []
  | _, c :: s, skip + 1 => copyLoop emit (some c) s skip
  | prev, c :: s, 0 =>
    if c == '"' then do
      let literal ← slice s 0 (skipBody false s)
      let out ← copyLoop emit (some c) s (skipBody false s)
      return c :: literal ++ out
    else do
      let (word, n) ← emit prev c s
      let out ← copyLoop emit (some c) s n
      return word ++ out

/-- `mapTopLevelGroups`, when `fn` may fail. -/
def Checked.mapTopLevelGroups (s : Text) (fn : Text → Run Text) : Run Text :=
  let emit (_ : Option Char) (c : Char) (s : Text) : Run (Text × Nat) :=
    if isOpen c then do
      let j := closeAt c (matchingClose c) s 0 1 0
      let inner ← if j ≤ s.length then fn (s.take j) else pure []
      return (c :: inner ++ if j < s.length then [matchingClose c] else [], j + 1)
    else return ([c], 0)
  copyLoop emit none s 0

/-- `boolLit`. -/
def boolLit (b : Bool) : Text := if b then "true".toList else "false".toList

/-- `lowerRanges`, with `lower` for the recursive call. -/
def rangesIn (lower : Text → Run Text) (s : Text) : Run Text :=
  let emit (_ : Option Char) (c : Char) (s : Text) : Run (Text × Nat) :=
    if c == '(' || c == '[' then
      match matchGroupEnd (c :: s) 0 with
      | none => return ([c], 0)
      | some j => do
        let inner ← slice (c :: s) 1 j
        let closing ← slice (c :: s) j (j + 1)
        match indexTopLevelDotDot inner with
        | some dd => do
          let left ← lower (trimSpace (← slice inner 0 dd))
          let right ← lower (trimSpace (← slice inner (dd + 2) inner.length))
          return ("newRange(".toList ++ left ++ ", ".toList ++ right ++ ", ".toList ++
            boolLit (c == '[') ++ ", ".toList ++ boolLit (closing == [']']) ++ ")".toList, j)
        | none => do
          let inner ← lower inner
          return (c :: inner ++ closing, j)
    else return ([c], 0)
  copyLoop emit none s 0

/-- `lowerRanges`. -/
def lowerRanges : (fuel : Nat) → Text → Run Text
  | 0, _ => .error .outOfFuel
  | n + 1, s => rangesIn (lowerRanges n) s

/-! ## Passes that repeat until nothing changes -/

/-- A round of `lowerInlineFunctions`. -/
def inlineFunctionRound (s : Text) : Run (Text ⊕ Text) :=
  match findKeywordCall s "function".toList 0 with
  | none => return .inl s
  | some idx =>
    let start := skipWhile isBlankByte s (idx + 8)
    match matchGroupEnd s start with
    | none => return .inl s
    | some paramClose => do
      let params := trimSpace (← slice s (start + 1) paramClose)
      let bodyEnd := funcBodyEnd s (paramClose + 1)
      let body := trimSpace (← slice s (paramClose + 1) bodyEnd)
      if body.isEmpty then return .inl s
      let repl := "__mkfunc(\"".toList ++ params ++ "\", \"".toList ++ escapeStringLiteral body ++
        "\")".toList
      return .inr ((← slice s 0 idx) ++ repl ++ (← slice s bodyEnd s.length))

/-- `lowerInlineFunctions`. -/
def lowerInlineFunctions (fuel : Nat) (s : Text) : Run Text := loop inlineFunctionRound fuel s

/-- The loop `for ls < colon && blank(s[ls]) { ls++ }`. -/
def skipBlanksBefore (s : Text) (ls colon : Nat) : Nat :=
  ls + (((s.take colon).drop ls).takeWhile isBlankByte).length

/-- The loop `for re > colon+1 && blank(s[re-1]) { re-- }`. -/
def skipBlanksBack (s : Text) (re start : Nat) : Nat :=
  re - (((s.take re).drop start).reverse.takeWhile isBlankByte).length

/-- A round of `lowerSequence`. -/
def sequenceRound (s : Text) : Run (Text ⊕ Text) :=
  match firstSequenceColon s with
  | none => return .inl s
  | some colon => do
    let ls := skipBlanksBefore s (seqOperandLeft s colon) colon
    let re := skipBlanksBack s (seqOperandRight s (colon + 1)) (colon + 1)
    let left := trimSpace (← slice s ls colon)
    let right := trimSpace (← slice s (colon + 1) re)
    if left.isEmpty || right.isEmpty then return .inl s
    let replacement := "seq(".toList ++ left ++ ", ".toList ++ right ++ ", 1)".toList
    return .inr ((← slice s 0 ls) ++ replacement ++ (← slice s re s.length))

/-- `lowerSequence`. -/
def lowerSequence (fuel : Nat) (s : Text) : Run Text := loop sequenceRound fuel s

/-- A round of `lowerTableIndex`, with `lower` for the recursive calls. -/
def tableIndexRound (lower : Text → Run Text) (s : Text) : Run (Text ⊕ Text) :=
  match firstTwoSlotBracket s with
  | none => return .inl s
  | some bracket =>
    match matchGroupEnd s bracket with
    | none => return .inl s
    | some close => do
      let inner ← slice s (bracket + 1) close
      match indexTopLevelComma inner with
      | none => .error .outOfRange
      | some commaIdx => do
        let recvStart := scanReceiverStart s bracket
        let recv ← lower (← slice s recvStart bracket)
        let first := trimSpace (← slice inner 0 commaIdx)
        let second := trimSpace (← slice inner (commaIdx + 1) inner.length)
        let replacement ←
          if commaIdx == 0 || first.isEmpty then do
            let col ← lower second
            pure ("tableCols(".toList ++ recv ++ ", ".toList ++ col ++ ")".toList)
          else do
            let row ← lower first
            let col ← lower second
            pure ("tableIndex(".toList ++ recv ++ ", ".toList ++ row ++ ", ".toList ++ col ++
              ")".toList)
        return .inr ((← slice s 0 recvStart) ++ replacement ++ (← slice s (close + 1) s.length))

/-- `lowerTableIndex`. -/
def lowerTableIndex : (fuel : Nat) → Text → Run Text
  | 0, _ => .error .outOfFuel
  | n + 1, s => do
    match ← tableIndexRound (lowerTableIndex n) s with
    | .inl s => return s
    | .inr s => lowerTableIndex n s

/-- A round of `lowerInstanceOf`. -/
def instanceOfRound (s : Text) : Run (Text ⊕ Text) :=
  match indexTopLevelKeyword s "instance".toList 0 with
  | none => return .inl s
  | some idx =>
    match indexTopLevelKeyword s "of".toList (idx + 8) with
    | none => return .inl s
    | some ofIdx => do
      if ofIdx > idx + 8 + 3 then return .inl s
      let leftStart := leftOperandStart s idx
      let left := trimSpace (← slice s leftStart idx)
      let tStart := skipWhile isBlankByte s (ofIdx + 2)
      let i := skipWhile isIdentByte s tStart
      let typeName ← slice s tStart i
      if typeName.isEmpty then return .inl s
      let replacement := "__instanceOf(".toList ++ left ++ ", \"".toList ++ typeName ++ "\")".toList
      return .inr ((← slice s 0 leftStart) ++ replacement ++ (← slice s i s.length))

/-- `lowerInstanceOf`. -/
def lowerInstanceOf (fuel : Nat) (s : Text) : Run Text := loop instanceOfRound fuel s

/-- `isDottedIdentifierPath`. -/
def isDottedIdentifierPath (s : Text) : Bool :=
  !s.isEmpty && (s.splitOn '.').all fun part => isIdentifier (trimSpace part)

/-- `splitTrailingKey`. -/
def splitTrailingKey (arg : Text) : Run (Option (Text × Text)) :=
  match arg.reverse.findIdx? (· == '.') with
  | none => return none
  | some back => do
    let dot := arg.length - 1 - back
    if dot == 0 || dot == arg.length - 1 then return none
    let parent := trimSpace (← slice arg 0 dot)
    let leaf := trimSpace (← slice arg (dot + 1) arg.length)
    if !isDottedIdentifierPath parent || !isIdentifier leaf then return none
    return some (parent, leaf)

/-- `isDefinedReplacement`; empty when there is none. -/
def isDefinedReplacement (arg : Text) : Run Text := do
  if arg.isEmpty then return []
  match ← splitTrailingKey arg with
  | some (parent, leaf) =>
    return "__hasKey(".toList ++ parent ++ ", \"".toList ++ leaf ++ "\")".toList
  | none => return "__isBound(".toList ++ arg ++ ")".toList

/-- A round of the loop of `lowerIsDefined`. -/
def isDefinedRound (s : Text) : Run (Text ⊕ Text) :=
  match indexTopLevelCall s "isDefined".toList with
  | none => return .inl s
  | some idx =>
    let j := skipWhile isBlankByte s (idx + 9)
    if s[j]? != some '(' then return .inl s
    else
      match matchGroupEnd s j with
      | none => return .inl s
      | some close => do
        let replacement ← isDefinedReplacement (trimSpace (← slice s (j + 1) close))
        if replacement.isEmpty then return .inl s
        return .inr ((← slice s 0 idx) ++ replacement ++ (← slice s (close + 1) s.length))

/-- `lowerIsDefined`. -/
def lowerIsDefined : (fuel : Nat) → Text → Run Text
  | 0, _ => .error .outOfFuel
  | n + 1, s => do
    let s ← Checked.mapTopLevelGroups s (lowerIsDefined n)
    loop isDefinedRound n s

/-- A round of `lowerBetween`. -/
def betweenRound (s : Text) : Run (Text ⊕ Text) :=
  match indexTopLevelKeyword s "between".toList 0 with
  | none => return .inl s
  | some idx =>
    let leftStart := leftOperandStart s idx
    match indexTopLevelKeyword s "and".toList (idx + 7) with
    | none => do
      let _ ← slice s leftStart idx
      return .inl s
    | some andIdx => do
      let left := trimSpace (← slice s leftStart idx)
      let a := trimSpace (← slice s (idx + 7) andIdx)
      let bEnd := rightOperandEnd s (andIdx + 3)
      let b := trimSpace (← slice s (andIdx + 3) bEnd)
      let replacement := "(".toList ++ left ++ " >= ".toList ++ a ++ " and ".toList ++ left ++
        " <= ".toList ++ b ++ ")".toList
      return .inr ((← slice s 0 leftStart) ++ replacement ++ (← slice s bEnd s.length))

/-- `lowerBetween`. -/
def lowerBetween (fuel : Nat) (s : Text) : Run Text := loop betweenRound fuel s

end Blkit
