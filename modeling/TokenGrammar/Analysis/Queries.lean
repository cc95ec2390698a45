import TokenGrammar.Analysis.CallSet
import TokenGrammar.Analysis.Reachable

/-!
# Queries about a grammar

An analysis is a validated grammar together with the memo tables of the questions asked so far. The
answer to a question does not depend on the earlier ones; the number of rounds does.
-/

namespace TokenGrammar

structure Analysis where
  grammar : Grammar
  positions : PositionMemo
  reachables : Memo RuleSet
  callSets : Memo CallSet

abbrev AnalysisM := StateT Analysis (Except Failure)

namespace Analysis

/-- An analysis that has not been asked anything yet. Refuses a grammar with an unsupported
construct. -/
def start (g : Grammar) : Except Failure Analysis := do
  g.validate
  return ⟨g, .new, .new .empty, .new .empty⟩

private def onPositions {α : Type} (act : Grammar → PositionM α) : AnalysisM α := fun a => do
  let (x, m) ← act a.grammar a.positions
  return (x, { a with positions := m })

def nullable (e : Expr) : AnalysisM Bool := onPositions fun g => g.nullable e

def firsts (e : Expr) : AnalysisM PosSet := onPositions fun g => g.firsts e

def lasts (e : Expr) : AnalysisM PosSet := onPositions fun g => g.lasts e

def joints (e : Expr) : AnalysisM (List Joint) := onPositions fun g => g.joints e

/-- The positions of an expression that may follow each other. -/
def follow (e : Expr) : AnalysisM Follow := do
  let g := (← get).grammar
  let found ← joints e
  g.requireNodes (found.flatMap (·.lasts.toList))
  return .ofJoints g.nodes.size found

def reachable (e : Expr) : AnalysisM RuleSet := fun a => do
  let (rules, (_, m)) ← a.grammar.reachableSystem.solveIn (← a.grammar.reachableEquation e)
    ((), a.reachables)
  return (rules, { a with reachables := m })

def callSetAt (key : Nat) : AnalysisM CallSet := fun a => do
  let (s, (p, c)) ← a.grammar.callSystem.solve key (a.positions, a.callSets)
  return (s, { a with positions := p, callSets := c })

def callSet (e : Expr) : AnalysisM CallSet := do
  if e.isCall then callSetAt e.ref.index
  else refuse (.notACall ((← get).grammar.print e))

def rounds (a : Analysis) : Nat :=
  a.positions.nullables.rounds + a.reachables.rounds + a.callSets.rounds

/-- How many call sets are final. -/
def settledCalls (a : Analysis) : Nat := a.callSets.settled.size

end Analysis

end TokenGrammar
