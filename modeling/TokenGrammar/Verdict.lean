import TokenGrammar.Document

/-!
# Verdicts

The outcome of running a recognizer over a whole input, and how it is read from a document.
-/

namespace TokenGrammar

inductive Verdict
  | accept
  /-- No derivation can go on with the token at `offset`. At the end of the input, the input is a
  beginning of a sentence, but no sentence. -/
  | reject (offset : Nat)
  deriving DecidableEq, Repr

namespace Verdict

def isAccept (v : Verdict) : Bool := v == .accept

def rejectOffset? : Verdict → Option Nat
  | accept => none
  | reject offset => some offset

/-- Offsets are stored in 64 bits. -/
def offsetLimit : Nat := 18446744073709551616

/-- Reads a verdict from its name, or from a record with the name as the only field. -/
def ofDocument? : Document → Option Verdict
  | .text "Accept" => some .accept
  | .record [("Accept", .null)] => some .accept
  | .record [("Reject", .record fields)] =>
    match Document.field? "offset" fields with
    | some (.natural n) => if n < offsetLimit then some (.reject n) else none
    | _ => none
  | _ => none

end Verdict

end TokenGrammar
