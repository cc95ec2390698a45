import TokenGrammar.Grammar

/-!
# Builders and node ownership

A builder holds the nodes made so far and the rules declared so far. Nodes are used linearly: the
first use of a node as an operand installs the node itself, and every later use installs a copy, so
that no node ever has two parents. Actions that fail keep what they did before the failure.
-/

namespace TokenGrammar

/-- A node of a builder. -/
structure Slot where
  expr : Expr
  /-- Whether the node is a test of single tokens. -/
  terminal : Bool
  /-- Whether it has been given to a parent or a rule. -/
  installed : Bool
  deriving DecidableEq, Repr

/-- A declared rule. `sites` counts the call sites made for it. -/
structure RuleDecl where
  name : String
  body : Option Expr
  sites : Nat
  deriving DecidableEq, Repr

structure Builder where
  id : Nat
  slots : Array Slot
  rules : Array RuleDecl
  deriving DecidableEq, Repr

/-- A builder action; what it changed stays changed when it fails. -/
abbrev BuildM := ExceptT Failure (StateM Builder)

namespace Builder

def new (id : Nat) : Builder := ⟨id, #[], #[]⟩

def slot? (b : Builder) (e : NodeRef) : Option Slot :=
  if e.owner = b.id then b.slots[e.index]? else none

def ruleDecl? (b : Builder) (r : RuleRef) : Option RuleDecl :=
  if r.owner = b.id then b.rules[r.index]? else none

def owns (b : Builder) (e : NodeRef) : Bool := (b.slot? e).isSome

def ownsRule (b : Builder) (r : RuleRef) : Bool := (b.ruleDecl? r).isSome

def slot (e : NodeRef) : BuildM Slot := do
  match (← get).slot? e with
  | some s => pure s
  | none => fault (.foreignNode e)

def ruleDecl (r : RuleRef) : BuildM RuleDecl := do
  match (← get).ruleDecl? r with
  | some d => pure d
  | none => fault (.foreignRule r)

def node (e : NodeRef) : BuildM Expr := do return (← slot e).expr

def isTerminal (e : NodeRef) : BuildM Bool := do return (← slot e).terminal

def isInstalled (e : NodeRef) : BuildM Bool := do return (← slot e).installed

/-- Whether a new node is a terminal, going by what its operands are marked as. -/
def terminalFlag : Expr → BuildM Bool
  | .token _ _ => return true
  | .alt _ l r | .conj _ l r => do if ← isTerminal l.ref then isTerminal r.ref else return false
  | .eps _ | .seq _ _ _ | .plus _ _ | .call _ _ _ | .endMark _ => return false

/-- Makes a node, which gets the next free index. -/
def add (make : NodeRef → Expr) : BuildM Expr := do
  let b ← get
  let e := make ⟨b.id, b.slots.size⟩
  let terminal ← terminalFlag e
  modify fun b => { b with slots := b.slots.push ⟨e, terminal, false⟩ }
  return e

def markInstalled (e : NodeRef) : BuildM Unit :=
  modify fun b => { b with slots := b.slots.modify e.index fun s => { s with installed := true } }

def setRule (r : RuleRef) (d : RuleDecl) : BuildM Unit :=
  modify fun b => { b with rules := b.rules.modify r.index fun _ => d }

/-- A fresh call site of a rule. -/
def addCall (rule : RuleRef) : BuildM Expr := do
  let d ← ruleDecl rule
  setRule rule { d with sites := d.sites + 1 }
  add fun ref => .call ref rule d.sites

/-- Gives `e` to a parent: `e` itself when it is free, what `copied` makes when it is not. -/
def install (e : Expr) (copied : BuildM Expr) : BuildM Expr := do
  let e ← if ← isInstalled e.ref then copied else pure e
  markInstalled e.ref
  return e

/-- Copies a tree. The parts of the copy are installed in it, and copied calls get new sites. -/
def copyTree : Expr → BuildM Expr
  | .token _ test => add fun ref => .token ref test
  | .eps _ => add .eps
  | .endMark _ => add .endMark
  | .alt _ l r => do
    let l ← install l (copyTree l)
    let r ← install r (copyTree r)
    add fun ref => .alt ref l r
  | .seq _ l r => do
    let l ← install l (copyTree l)
    let r ← install r (copyTree r)
    add fun ref => .seq ref l r
  | .conj _ l r => do
    let l ← install l (copyTree l)
    let r ← install r (copyTree r)
    add fun ref => .conj ref l r
  | .plus _ c => do
    let c ← install c (copyTree c)
    add fun ref => .plus ref c
  | .call _ rule _ => addCall rule

def take (e : NodeRef) : BuildM Expr := do
  let tree ← node e
  install tree (copyTree tree)

/-- Gives a node away: the node itself the first time, a copy of it later. -/
def consume (e : NodeRef) : BuildM NodeRef := do return (← take e).ref

def copy (e : NodeRef) : BuildM NodeRef := do return (← copyTree (← node e)).ref

end Builder

end TokenGrammar
