import TokenGrammar.Builder.Combinators

/-!
# Rules and finished grammars

A rule is declared first, may be called at once, and gets its body later, exactly once. A grammar is
finished when its root is known and every declared rule has a body.
-/

namespace TokenGrammar.Builder

def rule (name : String) : BuildM RuleRef :=
  modifyGet fun b => (⟨b.id, b.rules.size⟩, { b with rules := b.rules.push ⟨name, none, 0⟩ })

def call (r : RuleRef) : BuildM NodeRef := do return (← addCall r).ref

def hasBody (r : RuleRef) : BuildM Bool := do return (← ruleDecl r).body.isSome

/-- Gives a rule its body. All refusals come before the body is given away. -/
def setBody (r : RuleRef) (body : NodeRef) : BuildM Unit := do
  let b ← get
  match b.ruleDecl? r with
  | none => refuse (.foreignRule r)
  | some d =>
    if !b.owns body then refuse (.foreignBody body)
    if d.body.isSome then refuse (.bodyAlreadySet d.name)
    let tree ← take body
    setRule r { (← ruleDecl r) with body := some tree }

/-- Declares a rule and builds its body, which may call the rule. -/
def define (name : String) (body : RuleRef → BuildM NodeRef) : BuildM RuleRef := do
  let r ← rule name
  setBody r (← body r)
  return r

/-- The rules with their bodies, or the first rule that has none. -/
def closeRules : List RuleDecl → Except Failure (List Rule)
  | [] => .ok []
  | d :: ds =>
    match d.body with
    | none => refuse (.missingBody d.name)
    | some body => do return ⟨d.name, body⟩ :: (← closeRules ds)

/-- Gives away the root, closes the rules and puts the end mark after the nodes. -/
def close (root : NodeRef) : BuildM Grammar := do
  if !(← get).owns root then refuse (.foreignRoot root)
  let root ← take root
  let b ← get
  let rules ← closeRules b.rules.toList
  let endMark := Expr.endMark ⟨b.id, b.slots.size⟩
  return ⟨b.id, (b.slots.map (·.expr)).push endMark, (b.slots.map (·.terminal)).push false,
    rules.toArray, root⟩

def finalize (b : Builder) (root : NodeRef) : Except Failure Grammar := ((close root).run.run b).1

/-- The grammar that a program on an empty builder describes by returning its root. -/
def grammarOf (id : Nat) (program : BuildM NodeRef) : Except Failure Grammar :=
  ((do close (← program) : BuildM Grammar).run.run (new id)).1

end TokenGrammar.Builder
