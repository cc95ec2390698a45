import Mathlib.Data.Set.Functor
import TokenGrammar.Recognizer.Run

/-!
# Steps in any order

A step passes over the entries of the frontier, the callbacks of contexts and the rules that have
been entered. Here these passes go in orders that are left open, each chosen anew. Rules are entered
while arrivals come in, and a rule gets its context when it is first met, so the numbers of the new
contexts depend on the orders. What is left open makes an action a set of possible outcomes.
-/

namespace TokenGrammar

/-- Actions with a set of outcomes, each of which may be a failure. -/
abbrev Outcomes := ExceptT Failure SetM

namespace Outcomes

/-- Something the action may come to. -/
def Possible {α : Type} (act : Outcomes α) (x : Except Failure α) : Prop := x ∈ SetM.run act.run

def anyOrder {α : Type} (items : List α) : Outcomes (List α) :=
  ExceptT.lift (show SetM (List α) from {order : List α | order.Perm items})

end Outcomes

open Outcomes

/-- The context `id` takes over the continuations of a frozen one, in any order. -/
def ContextStore.mergeUnordered (s : ContextStore) (id source : Nat) : Outcomes ContextStore := do
  s.requireOpen id
  if s.isFrozen source then
    let callbacks ← anyOrder (← s.read source).toList
    callbacks.foldlM (fun s (cont, set) => s.addSet id cont set) s
  else fault .outOfRange

/-- What a pass has come to: the contexts under construction and the terminals control is at. -/
structure Pass extends Entering where
  terminals : Frontier
  matched : Nat

namespace Pass

def begin (store : ContextStore) : Pass := ⟨⟨store, ∅⟩, ∅, 0⟩

/-- The context of a rule; it is made when the rule is met for the first time. -/
def contextOf (s : Entering) (rule : Nat) : Nat × Entering :=
  match s.contexts[rule]? with
  | some id => (id, s)
  | none =>
    let (id, store) := s.store.alloc
    (id, ⟨store, s.contexts.insert rule id⟩)

def register (set : ContextSet) (s : Entering) (e : CallEntry) : Except Failure Entering :=
  let (target, s) := contextOf s e.invoke
  match e.context with
  | some rule => do
    let (source, s) := contextOf s rule
    return { s with store := ← s.store.add target e.cont source }
  | none => do return { s with store := ← s.store.addSet target e.cont set }

def inherit (set : ContextSet) (s : Entering) (rule : Nat) : Outcomes Entering := do
  let (target, s) := contextOf s rule
  return { s with
    store := ← set.toList.foldlM (fun store source => store.mergeUnordered target source) s.store }

def enter (row : Row) (set : ContextSet) (s : Entering) : Outcomes Entering := do
  let s ← row.entries.foldlM (fun s e => liftM (register set s e)) s
  if row.inTail then row.children.foldlM (inherit set) s else return s

def accept (t : Tables) (set : ContextSet) (s : Pass) (pos : Nat) : Outcomes Pass := do
  let row ← t.row pos
  if row.isCall then return { s with toEntering := ← enter row set s.toEntering }
  else return { s with terminals := s.terminals.add pos set }

def proceed (t : Tables) (s : Pass) (entry : Nat × ContextSet) : Outcomes Pass := do
  let row ← t.row entry.1
  row.successors.foldlM (accept t entry.2) s

/-- The callbacks of the contexts of a set, those of each context in any order. -/
def callbacks (store : ContextStore) (set : ContextSet) : Outcomes (List (Nat × ContextSet)) :=
  set.toList.foldlM (fun found id => do return found ++ (← anyOrder (← store.read id).toList)) []

/-- Follows up a frontier entry, if it accepts the token. -/
def follow (t : Tables) (token : Token) (s : Pass) (entry : Nat × ContextSet) : Outcomes Pass := do
  if ← t.accepts entry.1 token then
    let s ← proceed t { s with matched := s.matched + 1 } entry
    if (← t.row entry.1).inTail then (← callbacks s.store entry.2).foldlM (proceed t) s
    else return s
  else return s

def finish (t : Tables) (s : Pass) : Outcomes Advance := do
  let frontier ← (← anyOrder s.contexts.toList).foldlM
    (fun f (rule, id) => do return f.addAll (← t.firstsOfRule rule) (.single id)) s.terminals
  return ⟨frontier, s.store.freeze, s.matched⟩

end Pass

def Frontier.advanceUnordered (t : Tables) (store : ContextStore) (f : Frontier) (token : Token) :
    Outcomes Advance := do
  let s ← (← anyOrder f.toList).foldlM (Pass.follow t token) (.begin store)
  s.finish t

namespace Recognizer

def startUnordered (tables : Tables) (options : Options) (log : Log) : Outcomes Recognizer := do
  let (root, store) := ContextStore.new.alloc
  let s ← tables.rootFirsts.foldlM (Pass.accept tables (.single root)) (.begin store.freeze)
  let a ← s.finish tables
  let stats := { steps := 0, matchedEntries := 0, largestFrontier := a.frontier.size
                 contexts := a.store.size, computeMicros := 0 }
  return ⟨tables, options, a.store, a.frontier, 0, none, stats, log⟩

/-- Reads a token. Once the recognizer is rejected, no pass is made. -/
def consumeUnordered (r : Recognizer) (token : Token) : Outcomes (Bool × Recognizer) :=
  match r.rejectedAt with
  | some _ => r.consume token
  | none => do return r.record token (← r.frontier.advanceUnordered r.tables r.store token)

def consumeAllUnordered (r : Recognizer) : List Token → Outcomes (List Bool × Recognizer)
  | [] => return ([], r)
  | token :: tokens => do
    let (consumed, r) ← r.consumeUnordered token
    let (answers, r) ← r.consumeAllUnordered tokens
    return (consumed :: answers, r)

end Recognizer

end TokenGrammar
