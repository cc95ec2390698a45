import TokenGrammar.Analysis.Nullable
import TokenGrammar.AscSet

/-!
# First, last and neighbouring positions

The positions of an expression are its terminals and its call sites. For each expression this module
computes which positions may come first, which may come last, and which may follow which. The sets
stay inside one rule body: a call is a position like any other. What has been found for a node is
kept.
-/

namespace TokenGrammar

/-- A set of positions, by node index. -/
abbrev PosSet := AscSet Nat

/-- Each of the positions `lasts` may be followed by each of the positions `firsts`. -/
structure Joint where
  lasts : PosSet
  firsts : PosSet
  deriving DecidableEq

/-- What is known so far: which calls derive the empty string, and what has been found for nodes. -/
structure PositionMemo where
  nullables : Memo Bool
  nullable : NatMap Bool
  firsts : NatMap PosSet
  lasts : NatMap PosSet

abbrev PositionM := StateT PositionMemo (Except Failure)

namespace PositionMemo

def new : PositionMemo := ⟨.new false, ∅, ∅, ∅⟩

/-- What is kept for a node, or what `find` finds, which is then kept. -/
def remember {α : Type} (kept : PositionMemo → NatMap α)
    (keep : PositionMemo → NatMap α → PositionMemo) (ref : NodeRef) (find : PositionM α) :
    PositionM α := do
  match (kept (← get))[ref.index]? with
  | some a => return a
  | none =>
    let a ← find
    modify fun m => keep m ((kept m).insert ref.index a)
    return a

def rememberNullable : NodeRef → PositionM Bool → PositionM Bool :=
  remember (·.nullable) fun m known => { m with nullable := known }

def rememberFirsts : NodeRef → PositionM PosSet → PositionM PosSet :=
  remember (·.firsts) fun m known => { m with firsts := known }

def rememberLasts : NodeRef → PositionM PosSet → PositionM PosSet :=
  remember (·.lasts) fun m known => { m with lasts := known }

end PositionMemo

namespace Grammar

open PositionMemo

/-- Whether a call derives the empty string. -/
def callNullable (g : Grammar) (key : Nat) : PositionM Bool := fun s => do
  let (b, (_, m)) ← g.nullableSystem.solve key ((), s.nullables)
  return (b, { s with nullables := m })

/-- Whether an expression derives the empty string. All its calls are looked at, from left to
right. -/
def nullable (g : Grammar) (e : Expr) : PositionM Bool := do
  if ← g.isTerminal e then return false
  match e with
  | .alt ref a b => rememberNullable ref do
    let l ← g.nullable a
    let r ← g.nullable b
    return l || r
  | .seq ref a b => rememberNullable ref do
    let l ← g.nullable a
    let r ← g.nullable b
    return l && r
  | .plus ref c => rememberNullable ref (g.nullable c)
  | .eps _ => return true
  | .call ref _ _ => g.callNullable ref.index
  | .endMark _ => return false
  | .token _ _ | .conj _ _ _ => fault (.unsupported (g.print e))

def firsts (g : Grammar) (e : Expr) : PositionM PosSet := do
  if ← g.isTerminal e then return .single e.ref.index
  match e with
  | .alt ref a b => rememberFirsts ref do return (← g.firsts a).union (← g.firsts b)
  | .seq ref a b => rememberFirsts ref do
    let s ← g.firsts a
    if ← g.nullable a then return s.union (← g.firsts b) else return s
  | .plus ref c => rememberFirsts ref (g.firsts c)
  | .eps _ => return .empty
  | .call ref _ _ | .endMark ref => return .single ref.index
  | .token _ _ | .conj _ _ _ => fault (.unsupported (g.print e))

def lasts (g : Grammar) (e : Expr) : PositionM PosSet := do
  if ← g.isTerminal e then return .single e.ref.index
  match e with
  | .alt ref a b => rememberLasts ref do return (← g.lasts a).union (← g.lasts b)
  | .seq ref a b => rememberLasts ref do
    let s ← g.lasts b
    if ← g.nullable b then return s.union (← g.lasts a) else return s
  | .plus ref c => rememberLasts ref (g.lasts c)
  | .eps _ => return .empty
  | .call ref _ _ | .endMark ref => return .single ref.index
  | .token _ _ | .conj _ _ _ => fault (.unsupported (g.print e))

def joint (g : Grammar) (a b : Expr) : PositionM Joint := do
  let lasts ← g.lasts a
  let firsts ← g.firsts b
  return ⟨lasts, firsts⟩

/-- Adds to `found` where one part of an expression follows another. -/
def addJoints (g : Grammar) (found : List Joint) (e : Expr) : PositionM (List Joint) := do
  if ← g.isTerminal e then return found
  match e with
  | .alt _ a b => do
    let found ← g.addJoints found a
    g.addJoints found b
  | .seq _ a b => do
    let found ← g.addJoints found a
    let found ← g.addJoints found b
    return (← g.joint a b) :: found
  | .plus _ c => do
    let found ← g.addJoints found c
    return (← g.joint c c) :: found
  | .eps _ | .call _ _ _ | .endMark _ => return found
  | .token _ _ | .conj _ _ _ => fault (.unsupported (g.print e))

def joints (g : Grammar) (e : Expr) : PositionM (List Joint) := g.addJoints [] e

end Grammar

/-- For each node the positions that may follow it. -/
abbrev Follow := Array PosSet

namespace Follow

/-- Lists for each node the sets of positions that follow it at some joint. -/
def collect (size : Nat) (joints : List Joint) : Array (List PosSet) :=
  joints.foldl
    (fun found j => j.lasts.toList.foldl (fun found p => found.modify p (j.firsts :: ·)) found)
    (Array.replicate size [])

def ofJoints (size : Nat) (joints : List Joint) : Follow :=
  (collect size joints).map AscSet.unionAll

def after (f : Follow) (i : Nat) : PosSet := f[i]?.getD .empty

/-- Each position with each that may follow it, in ascending order. -/
def pairs (f : Follow) : List (Nat × Nat) :=
  f.toList.zipIdx.flatMap fun (s, i) => s.toList.map fun j => (i, j)

end Follow

end TokenGrammar
