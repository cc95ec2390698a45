import TokenGrammar.Equations.Solve
import TokenGrammar.Grammar

/-!
# Expressions that derive the empty string

Whether an expression derives the empty string depends on whether its calls do. The calls are the
unknowns, one for each call site, and the equation of a call is that of the body of its rule.
-/

namespace TokenGrammar

namespace Grammar

/-- The body of the rule that is called at a call site. -/
def calledBody (g : Grammar) (key : Nat) : Except Failure (RuleRef × Expr) := do
  let e ← g.node key
  match e.callee? with
  | none => fault (.unsupported (g.print e))
  | some r => return (r, (← g.rule r.index).body)

/-- What an expression says about the empty string, as an equation in its calls. -/
def nullableEquation (g : Grammar) (e : Expr) : Except Failure (Equation Bool) := do
  if ← g.isTerminal e then return .known false
  match e with
  | .alt _ a b => return .combine (· || ·) (← g.nullableEquation a) (← g.nullableEquation b)
  | .seq _ a b => return .combine (· && ·) (← g.nullableEquation a) (← g.nullableEquation b)
  | .plus _ c => g.nullableEquation c
  | .eps _ => return .known true
  | .call ref _ _ => return .unknown ref.index
  | .endMark _ => return .known false
  | .token _ _ | .conj _ _ _ => fault (.unsupported (g.print e))

def nullableSystem (g : Grammar) : System Unit Bool where
  equation key := do
    let (_, body) ← g.calledBody key
    g.nullableEquation body
  depth := g.nodes.size + 1
  rounds := g.nodes.size + 2

end Grammar

end TokenGrammar
