import TokenGrammar.Context.Store
import TokenGrammar.Tables.Basic

/-!
# One step of the recognizer

Between two tokens the recognizer stands at a frontier: terminals that may accept the next token, and
the end mark, each with the contexts to resume once the rule that owns it is complete. A step takes
the frontier entries that accept the token, finds the positions where control arrives after them, and
enters the rules called there. Each rule entered gets one new context, shared by all its callers.
-/

namespace TokenGrammar

/-- Positions with the contexts to resume. -/
abbrev Frontier := NatMap ContextSet

namespace Frontier

def add (f : Frontier) (pos : Nat) (set : ContextSet) : Frontier :=
  f.alter pos fun old => some ((old.getD .empty).union set)

def addAll (f : Frontier) (positions : List Nat) (set : ContextSet) : Frontier :=
  positions.foldl (fun f pos => f.add pos set) f

def matching (t : Tables) (token : Token) :
    List (Nat × ContextSet) → Except Failure (List (Nat × ContextSet))
  | [] => .ok []
  | e :: es => do
    let rest ← matching t token es
    return if ← t.accepts e.1 token then e :: rest else rest

/-- Control goes on after each of the given continuations. -/
def resume (t : Tables) (arrived : Frontier) (callbacks : List (Nat × ContextSet)) :
    Except Failure Frontier :=
  callbacks.foldlM (fun f (cont, set) => do return f.addAll (← t.row cont).successors set) arrived

/-- Control goes on after a position. Where the body may be complete, its callers resume. -/
def proceed (t : Tables) (store : ContextStore) (arrived : Frontier) (entry : Nat × ContextSet) :
    Except Failure Frontier := do
  let row ← t.row entry.1
  let arrived := arrived.addAll row.successors entry.2
  if row.inTail then
    entry.2.toList.foldlM (fun f c => do f.resume t (← store.read c).toList) arrived
  else return arrived

def arrivals (t : Tables) (store : ContextStore) (entries : List (Nat × ContextSet)) :
    Except Failure Frontier :=
  entries.foldlM (proceed t store) ∅

end Frontier

def Row.entered (row : Row) : List Nat :=
  (row.entries.flatMap fun e => e.invoke :: e.context.toList) ++
    if row.inTail then row.children else []

/-- The contexts under construction at one offset: one for each rule entered there. -/
structure Entering where
  store : ContextStore
  contexts : NatMap Nat
  deriving DecidableEq

namespace Entering

def make (store : ContextStore) (rules : List Nat) : Entering :=
  rules.foldl
    (fun ⟨store, contexts⟩ rule =>
      let (id, store) := store.alloc
      ⟨store, contexts.insert rule id⟩)
    ⟨store, ∅⟩

/-- Registers the continuation of a call entry: `set` are the contexts of the caller. -/
def register (set : ContextSet) : Entering → CallEntry → Except Failure Entering
  | ⟨store, contexts⟩, e => do
    let target ← inRange contexts[e.invoke]?
    match e.context with
    | none => return ⟨← store.addSet target e.cont set, contexts⟩
    | some rule => return ⟨← store.add target e.cont (← inRange contexts[rule]?), contexts⟩

/-- A rule entered in tail position takes over the continuations of its callers. -/
def inherit (set : ContextSet) : Entering → Nat → Except Failure Entering
  | ⟨store, contexts⟩, rule => do
    let target ← inRange contexts[rule]?
    return ⟨← set.toList.foldlM (fun store source => store.merge target source) store, contexts⟩

def enter (t : Tables) (s : Entering) (arrival : Nat × ContextSet) : Except Failure Entering := do
  let row ← t.row arrival.1
  let s ← row.entries.foldlM (register arrival.2) s
  if row.inTail then row.children.foldlM (inherit arrival.2) s else return s

/-- The frontier entries for the terminals that the entered rules may start with. -/
def seed (t : Tables) (f : Frontier) (entered : List (Nat × Nat)) : Except Failure Frontier :=
  entered.foldlM (fun f (rule, id) => do return f.addAll (← t.firstsOfRule rule) (.single id)) f

end Entering

namespace Frontier

/-- Splits arrivals into those at terminals and those at call sites. -/
def split (t : Tables) : List (Nat × ContextSet) →
    Except Failure (List (Nat × ContextSet) × List (Nat × ContextSet))
  | [] => .ok ([], [])
  | e :: es => do
    let (terminals, calls) ← split t es
    return if (← t.row e.1).isCall then (terminals, e :: calls) else (e :: terminals, calls)

/-- The frontier after control has arrived at the given positions, and the contexts made there. -/
def ofArrivals (t : Tables) (store : ContextStore) (arrived : Frontier) :
    Except Failure (Frontier × ContextStore) := do
  let (terminals, calls) ← split t arrived.toList
  let rows ← calls.mapM fun e => t.row e.1
  let rules := (∅ : NatSet).insertMany (rows.flatMap Row.entered)
  let entered ← calls.foldlM (Entering.enter t) (Entering.make store rules.toList)
  let here := terminals.foldl (fun f (pos, set) => add f pos set) ∅
  let frontier ← Entering.seed t here entered.contexts.toList
  return (frontier, entered.store.freeze)

end Frontier

structure Advance where
  frontier : Frontier
  store : ContextStore
  matched : Nat
  deriving DecidableEq

/-- The step that a token causes from a frontier, given as the list of its entries. -/
def Frontier.advance (t : Tables) (store : ContextStore) (entries : List (Nat × ContextSet))
    (token : Token) : Except Failure Advance := do
  let matched ← matching t token entries
  let arrived ← arrivals t store matched
  let (frontier, store) ← arrived.ofArrivals t store
  return ⟨frontier, store, matched.length⟩

end TokenGrammar
