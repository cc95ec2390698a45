import TokenGrammar.Expr
import TokenGrammar.Failure

/-!
# Grammars

A finished grammar: every node its builder ever made, the end mark after them, which of the nodes are
terminals, the rules with their bodies, and the root expression. A terminal counts as a single
position of an expression, and so does a call.
-/

namespace TokenGrammar

structure Rule where
  name : String
  body : Expr
  deriving DecidableEq, Repr

/-- A finished grammar. The last of `nodes` is the end mark. -/
structure Grammar where
  id : Nat
  nodes : Array Expr
  /-- For each node whether its builder has marked it as a terminal. -/
  terminals : Array Bool
  rules : Array Rule
  root : Expr
  deriving DecidableEq, Repr

namespace Grammar

def endIndex (g : Grammar) : Nat := g.nodes.size - 1

def node (g : Grammar) (i : Nat) : Except Failure Expr := inRange g.nodes[i]?

/-- Fails unless all the indices name nodes. -/
def requireNodes (g : Grammar) (indices : List Nat) : Except Failure Unit :=
  indices.forM fun i => discard (g.node i)

def isTerminal (g : Grammar) (e : Expr) : Except Failure Bool := inRange g.terminals[e.ref.index]?

def rule (g : Grammar) (i : Nat) : Except Failure Rule := inRange g.rules[i]?

/-- The name of a rule, empty for a rule that the grammar does not have. -/
def ruleName (g : Grammar) (r : RuleRef) : String := (g.rules[r.index]?.map (·.name)).getD ""

def ruleByName? (g : Grammar) (name : String) : Option Nat :=
  g.rules.findIdx? fun r => r.name == name

def print (g : Grammar) (e : Expr) : String := e.print g.ruleName

/-- The name of a call site; the written form of any other expression. -/
def callName (g : Grammar) (e : Expr) : String :=
  match e with
  | .call _ rule site => Expr.callName g.ruleName rule site
  | e => g.print e

def printRule (g : Grammar) (r : Rule) : String := r.name ++ " ::= " ++ g.print r.body

def accepts (g : Grammar) (e : Expr) (t : Token) : Except Failure Bool :=
  match e.accepts t with
  | .ok b => .ok b
  | .error culprit => fault (.notATerminal (g.print culprit))

/-- Lists the positions of the expressions on a stack. What is taken off the stack is a position, or
its operands are put on the stack, the left one on top. -/
def walk (g : Grammar) : List Expr → Except Failure (List Expr)
  | [] => return []
  | e :: todo => do
    if (← g.isTerminal e) || e.isCall then return e :: (← g.walk todo)
    match e with
    | .alt _ a b | .seq _ a b | .conj _ a b => g.walk (a :: b :: todo)
    | .plus _ a => g.walk (a :: todo)
    | .token _ _ | .eps _ | .call _ _ _ | .endMark _ => g.walk todo
termination_by todo => todo.foldr (fun e size => sizeOf e + size) 0
decreasing_by
  -- where a position is taken off it is not known yet which operator that is
  all_goals try cases e
  all_goals simp only [List.foldr_cons, Expr.token.sizeOf_spec, Expr.eps.sizeOf_spec,
    Expr.alt.sizeOf_spec, Expr.seq.sizeOf_spec, Expr.conj.sizeOf_spec, Expr.plus.sizeOf_spec,
    Expr.call.sizeOf_spec, Expr.endMark.sizeOf_spec]
  all_goals omega

/-- Terminals and call sites from left to right; a terminal hides what it is made of. -/
def positions (g : Grammar) (e : Expr) : Except Failure (List Expr) := g.walk [e]

/-- Refuses a conjunction that is no terminal and names the operand that it is refused for. -/
def requireSupported (g : Grammar) : Expr → Except Failure Unit
  | .conj ref a b => do
    if ← g.isTerminal (.conj ref a b) then return
    let operand := if ← g.isTerminal a then b else a
    refuse (.unsupportedConjunction (g.print (.conj ref a b)) (g.print operand))
  | _ => return

/-- Refuses a grammar with a conjunction over anything but terminals and names the first such node,
whether the root reaches it or not. -/
def validate (g : Grammar) : Except Failure Unit := g.nodes.toList.forM g.requireSupported

end Grammar

end TokenGrammar
