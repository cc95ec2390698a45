import TokenGrammar.Handle

/-!
# Why an operation fails

A refusal answers a request that the caller may make in good faith, such as finishing a grammar with
a rule that has no body. A defect is a broken obligation: a handle used with the wrong builder, or an
internal state that the library promises never to reach.
-/

namespace TokenGrammar

inductive Refusal
  | foreignRule (rule : RuleRef)
  | foreignBody (body : NodeRef)
  | foreignRoot (root : NodeRef)
  | bodyAlreadySet (name : String)
  | missingBody (name : String)
  | unsupportedConjunction (whole operand : String)
  | notACall (printed : String)
  deriving DecidableEq, Repr

inductive Defect
  | foreignNode (node : NodeRef)
  | foreignRule (rule : RuleRef)
  | notATerminal (printed : String)
  | unsupported (printed : String)
  | readBeforeFrozen (context : Nat)
  | writtenAfterFrozen (context : Nat)
  | outOfRange
  | unbalancedRounds
  | roundsExhausted
  | checkFailed
  deriving DecidableEq, Repr

inductive Failure
  | refusal (cause : Refusal)
  | defect (cause : Defect)
  deriving DecidableEq, Repr

instance decEqExcept {ε α : Type} [DecidableEq ε] [DecidableEq α] : DecidableEq (Except ε α)
  | .ok a, .ok b => decidable_of_iff (a = b) (by simp)
  | .error e, .error f => decidable_of_iff (e = f) (by simp)
  | .ok _, .error _ => isFalse (by simp)
  | .error _, .ok _ => isFalse (by simp)

namespace Refusal

def message : Refusal → String
  | foreignRule r => "rule " ++ r.print ++ " does not belong to this builder"
  | foreignBody e => "body " ++ e.print ++ " does not belong to this builder"
  | foreignRoot e => "root " ++ e.print ++ " does not belong to this builder"
  | bodyAlreadySet name => "rule <" ++ name ++ "> already has a body"
  | missingBody name => "rule <" ++ name ++ "> has no body"
  | unsupportedConjunction whole operand =>
    "unsupported grammar construct: " ++ whole ++ " (conjunction operand " ++ operand ++
      " is not a terminal)"
  | notACall printed => "call_set() needs a rule call, got " ++ printed

end Refusal

namespace Defect

/-- The text of a defect, for those that have one. -/
def message? : Defect → Option String
  | foreignNode e => some ("node " ++ e.print ++ " does not belong to this builder")
  | foreignRule r => some ("rule " ++ r.print ++ " does not belong to this builder")
  | notATerminal printed => some ("internal error: " ++ printed ++ " is not a terminal position")
  | unsupported printed => some ("internal error: unsupported grammar construct: " ++ printed)
  | readBeforeFrozen c =>
    some ("internal error: context ContextId(" ++ toString c ++ ") read before it was sealed")
  | writtenAfterFrozen c =>
    some ("internal error: context ContextId(" ++ toString c ++ ") written after it was sealed")
  | outOfRange | unbalancedRounds | roundsExhausted | checkFailed => none

end Defect

def refuse {m : Type → Type} [MonadExceptOf Failure m] {α : Type} (cause : Refusal) : m α :=
  throw (.refusal cause)

def fault {m : Type → Type} [MonadExceptOf Failure m] {α : Type} (cause : Defect) : m α :=
  throw (.defect cause)

/-- The value, or a defect when an index names nothing. -/
def inRange {m : Type → Type} [Monad m] [MonadExceptOf Failure m] {α : Type} : Option α → m α
  | some a => pure a
  | none => fault .outOfRange

end TokenGrammar
