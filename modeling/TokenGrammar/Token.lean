/-!
# Tokens and token tests

Tokens are numeric codes. A token test compares a token with a fixed code; nothing else about a
token is ever looked at.
-/

namespace TokenGrammar

abbrev Token := Nat

namespace Token

def ofChar (c : Char) : Token := c.toNat

/-- The tokens of a text, one for each code point. -/
def ofString (s : String) : List Token := s.toList.map ofChar

/-- The codes of printable ASCII characters other than the blank. -/
def isGraphic (t : Token) : Bool := 33 ≤ t && t ≤ 126

/-- A graphic character between single quotes, with a backslash before a quote or a backslash. -/
def quoted (c : Char) : String :=
  if c = '\'' || c = '\\' then String.ofList ['\'', '\\', c, '\''] else String.ofList ['\'', c, '\'']

/-- A graphic ASCII character is written in quotes, every other code as a decimal number. -/
def print (t : Token) : String :=
  if t.isGraphic then quoted (Char.ofNat t) else toString t

end Token

inductive TokenTest
  | equal (code : Token)
  | atMost (code : Token)
  | atLeast (code : Token)
  | any
  deriving DecidableEq, Repr

namespace TokenTest

def accepts : TokenTest → Token → Bool
  | equal v, t => t == v
  | atMost v, t => decide (t ≤ v)
  | atLeast v, t => decide (v ≤ t)
  | any, _ => true

def print : TokenTest → String
  | equal v => "eq(" ++ v.print ++ ")"
  | atMost v => "le(" ++ v.print ++ ")"
  | atLeast v => "ge(" ++ v.print ++ ")"
  | any => "any"

end TokenTest

end TokenGrammar
