import TokenGrammar.Analysis.Queries

/-!
# Recognizer tables

What a recognizer has to know about a grammar: one row for each node, the terminals that each rule
may start with, and how the root starts.
-/

namespace TokenGrammar

/-- What is known about one node. Only the positions of the root and of reachable bodies have more
than an empty row. -/
structure Row where
  /-- The positions that may come next in the same body. -/
  successors : List Nat
  /-- Whether the body that owns the position may be complete after it. -/
  inTail : Bool
  /-- The call set of a call site, without what was pruned. -/
  entries : List CallEntry
  /-- The rules that a call site enters for its own caller. -/
  children : List Nat
  isCall : Bool
  deriving DecidableEq, Repr

structure TableStats where
  rules : Nat
  positions : Nat
  transitions : Nat
  callEntries : Nat
  prunedCallEntries : Nat
  rounds : Nat
  deriving DecidableEq, Repr

structure Tables where
  grammar : Grammar
  /-- The rules that can be reached from the root. -/
  rules : RuleSet
  rows : Array Row
  /-- For each rule the terminals that may come first in its body. -/
  ruleFirsts : Array (List Nat)
  rootFirsts : List Nat
  rootNullable : Bool
  stats : TableStats
  deriving DecidableEq

namespace Tables

def row (t : Tables) (i : Nat) : Except Failure Row := inRange t.rows[i]?

def firstsOfRule (t : Tables) (rule : Nat) : Except Failure (List Nat) := inRange t.ruleFirsts[rule]?

/-- Whether a token passes the test at a position. -/
def accepts (t : Tables) (pos : Nat) (token : Token) : Except Failure Bool := do
  t.grammar.accepts (← t.grammar.node pos) token

end Tables

end TokenGrammar
