import TokenGrammar.Analysis.Nullable
import TokenGrammar.AscSet

/-!
# Reachable rules

The rules that an expression can lead to: those it calls, those that their bodies call, and so on.
-/

namespace TokenGrammar

/-- A set of rules, by index. -/
abbrev RuleSet := AscSet Nat

namespace Grammar

/-- Where an expression leads, as an equation in its calls. -/
def reachableEquation (g : Grammar) (e : Expr) : Except Failure (Equation RuleSet) := do
  if ← g.isTerminal e then return .known .empty
  match e with
  | .alt _ a b | .seq _ a b =>
    return .combine .union (← g.reachableEquation a) (← g.reachableEquation b)
  | .plus _ c => g.reachableEquation c
  | .eps _ | .endMark _ => return .known .empty
  | .call ref _ _ => return .unknown ref.index
  | .token _ _ | .conj _ _ _ => fault (.unsupported (g.print e))

def reachableSystem (g : Grammar) : System Unit RuleSet where
  equation key := do
    let (rule, body) ← g.calledBody key
    let eq ← g.reachableEquation body
    return ⟨eq.reads, fun calls => (eq.value calls).insert rule.index⟩
  depth := g.nodes.size + 1
  rounds := g.nodes.size * g.rules.size + 2

end Grammar

end TokenGrammar
