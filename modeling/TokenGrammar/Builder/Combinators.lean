import TokenGrammar.Builder.Basic

/-!
# Combinators

The ways to make an expression out of tokens and of other expressions: single tokens, ranges and
texts, alternatives, sequences and conjunctions, and repetition. Operands are given away from left to
right before the new node is made.
-/

namespace TokenGrammar.Builder

def token (test : TokenTest) : BuildM NodeRef := do return (← add fun ref => .token ref test).ref

def equal (t : Token) : BuildM NodeRef := token (.equal t)

/-- Any token up to `t`. -/
def atMost (t : Token) : BuildM NodeRef := token (.atMost t)

/-- Any token from `t` on. -/
def atLeast (t : Token) : BuildM NodeRef := token (.atLeast t)

def any : BuildM NodeRef := token .any

def eps : BuildM NodeRef := do return (← add .eps).ref

def alt (l r : NodeRef) : BuildM NodeRef := do
  let l ← take l
  let r ← take r
  return (← add fun ref => .alt ref l r).ref

def seq (l r : NodeRef) : BuildM NodeRef := do
  let l ← take l
  let r ← take r
  return (← add fun ref => .seq ref l r).ref

/-- Both at once; only terminals can be used, which is checked when the grammar is analyzed. -/
def conj (l r : NodeRef) : BuildM NodeRef := do
  let l ← take l
  let r ← take r
  return (← add fun ref => .conj ref l r).ref

def plus (e : NodeRef) : BuildM NodeRef := do
  let e ← take e
  return (← add fun ref => .plus ref e).ref

def maybe (e : NodeRef) : BuildM NodeRef := do
  let nothing ← eps
  alt e nothing

def star (e : NodeRef) : BuildM NodeRef := do
  let many ← plus e
  maybe many

/-- One of the options, grouped to the left; the empty string if there are none. -/
def select : List NodeRef → BuildM NodeRef
  | [] => eps
  | e :: es => es.foldlM alt e

/-- All the values in order, grouped to the left; the empty string if there are none. -/
def join : List NodeRef → BuildM NodeRef
  | [] => eps
  | e :: es => es.foldlM seq e

def literal (s : String) : BuildM NodeRef := do join (← (Token.ofString s).mapM equal)

def tokenRange (lo hi : Token) : BuildM NodeRef := do
  let ge ← atLeast lo
  let le ← atMost hi
  conj ge le

end TokenGrammar.Builder
