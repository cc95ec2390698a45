/-!
# Documents

Structured values as they come from a configuration or a stored result: the shapes that options and
verdicts are read from.
-/

namespace TokenGrammar

inductive Document
  | null
  | bool (b : Bool)
  /-- A number written as a non-negative integer. -/
  | natural (n : Nat)
  /-- Any other number. -/
  | number
  | text (s : String)
  | list (items : List Document)
  | record (fields : List (String × Document))
  deriving Inhabited, Repr

namespace Document

def field? (name : String) (fields : List (String × Document)) : Option Document :=
  fields.lookup name

def bool? : Document → Option Bool
  | bool b => some b
  | _ => none

end Document

end TokenGrammar
