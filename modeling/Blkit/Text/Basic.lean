import Mathlib.Data.List.Basic

/-!
# Source text

The passes of `normalise.go` index a Go string byte by byte.  A text is the list
of its bytes, each as the character with that code.
-/

namespace Blkit

/-- A Go string, byte by byte. -/
abbrev Text := List Char

/-- An ASCII digit. -/
def isDigit (c : Char) : Bool := decide ('0' ≤ c) && decide (c ≤ '9')

/-- `isIdentStart`. -/
def isIdentStart (c : Char) : Bool :=
  c == '_' || (decide ('a' ≤ c) && decide (c ≤ 'z')) || (decide ('A' ≤ c) && decide (c ≤ 'Z'))

/-- `isIdentByte`. -/
def isIdentByte (c : Char) : Bool := isIdentStart c || isDigit c

/-- `isIdentifier`: a name an expression can use for a variable. -/
def isIdentifier (s : Text) : Bool := !s.isEmpty && !(s.head?.any isDigit) && s.all isIdentByte

end Blkit
