import TokenGrammar.Handle
import TokenGrammar.Token

/-!
# Expressions

Grammar expressions as trees whose nodes carry their handles, the tests of tokens that they stand
for, and their written form. Everything here is by recursion on the tree.
-/

namespace TokenGrammar

/-- A grammar expression; every node carries its own handle. -/
inductive Expr
  | token (ref : NodeRef) (test : TokenTest)
  | eps (ref : NodeRef)
  | alt (ref : NodeRef) (left right : Expr)
  | seq (ref : NodeRef) (left right : Expr)
  | conj (ref : NodeRef) (left right : Expr)
  | plus (ref : NodeRef) (body : Expr)
  /-- A call site; `site` numbers the calls of one rule. -/
  | call (ref : NodeRef) (rule : RuleRef) (site : Nat)
  /-- Marks the end of the root expression and accepts no token. -/
  | endMark (ref : NodeRef)
  deriving DecidableEq, Repr

namespace Expr

def ref : Expr → NodeRef
  | token r _ | eps r | alt r _ _ | seq r _ _ | conj r _ _ | plus r _ | call r _ _ | endMark r => r

def callee? : Expr → Option RuleRef
  | call _ rule _ => some rule
  | _ => none

def isCall (e : Expr) : Bool := e.callee?.isSome

/-- Whether a token passes the test that the expression is. An operand is only looked at when the
one before it leaves the answer open; an operand that is no token test is the error. -/
def accepts (t : Token) : Expr → Except Expr Bool
  | token _ test => pure (test.accepts t)
  | alt _ l r => do if ← l.accepts t then pure true else r.accepts t
  | conj _ l r => do if ← l.accepts t then r.accepts t else pure false
  | endMark _ => pure false
  | eps r => throw (eps r)
  | seq r a b => throw (seq r a b)
  | plus r a => throw (plus r a)
  | call r k s => throw (call r k s)

/-- The name of a call site is the rule's name and the number of the site. -/
def callName (ruleName : RuleRef → String) (rule : RuleRef) (site : Nat) : String :=
  ruleName rule ++ "_" ++ toString site

def print (ruleName : RuleRef → String) : Expr → String
  | token _ test => test.print
  | eps _ => "eps"
  | alt _ l r => "alt(" ++ l.print ruleName ++ ", " ++ r.print ruleName ++ ")"
  | seq _ l r => "seq(" ++ l.print ruleName ++ ", " ++ r.print ruleName ++ ")"
  | conj _ l r => "conj(" ++ l.print ruleName ++ ", " ++ r.print ruleName ++ ")"
  | plus _ c => "plus(" ++ c.print ruleName ++ ")"
  | call _ rule site => "<" ++ callName ruleName rule site ++ ">"
  | endMark _ => "$final"

end Expr

end TokenGrammar
