import TokenGrammar.AscSet
import TokenGrammar.Failure
import TokenGrammar.NatMap

/-!
# Continuation contexts

A context maps continuation positions to the contexts of their callers. Together the contexts form a
graph that stands in for the call stack. A store numbers its contexts in the order in which they were
made. Contexts that are frozen can be read and never change again; the newer ones can only be
written to.
-/

namespace TokenGrammar

abbrev ContextSet := AscSet Nat

/-- Continuation positions and the contexts to resume with. -/
abbrev Callbacks := NatMap ContextSet

namespace Callbacks

def addSet (c : Callbacks) (cont : Nat) (set : ContextSet) : Callbacks :=
  c.alter cont fun old => some ((old.getD .empty).union set)

def add (c : Callbacks) (cont context : Nat) : Callbacks :=
  c.alter cont fun old => some ((old.getD .empty).insert context)

def merge (c other : Callbacks) : Callbacks :=
  other.toList.foldl (fun c (cont, set) => addSet c cont set) c

end Callbacks

structure ContextStore where
  contexts : Array Callbacks
  /-- How many contexts are frozen; they come first. -/
  frozen : Nat
  deriving DecidableEq

namespace ContextStore

def new : ContextStore := ⟨#[], 0⟩

def size (s : ContextStore) : Nat := s.contexts.size

/-- A new context without callbacks, and its number. -/
def alloc (s : ContextStore) : Nat × ContextStore :=
  (s.size, { s with contexts := s.contexts.push ∅ })

def freeze (s : ContextStore) : ContextStore := { s with frozen := s.size }

def isFrozen (s : ContextStore) (id : Nat) : Bool := id < s.frozen

def read (s : ContextStore) (id : Nat) : Except Failure Callbacks :=
  if s.isFrozen id then inRange s.contexts[id]? else fault (.readBeforeFrozen id)

/-- Fails unless a context can be written to. -/
def requireOpen (s : ContextStore) (id : Nat) : Except Failure Unit :=
  if s.isFrozen id then fault (.writtenAfterFrozen id)
  else if id < s.size then .ok () else fault .outOfRange

def update (s : ContextStore) (id : Nat) (f : Callbacks → Callbacks) :
    Except Failure ContextStore := do
  s.requireOpen id
  return { s with contexts := s.contexts.modify id f }

/-- After `cont`, the context `id` resumes with `context`. -/
def add (s : ContextStore) (id cont context : Nat) : Except Failure ContextStore :=
  s.update id fun c => c.add cont context

/-- After `cont`, the context `id` resumes with each context of `set`. -/
def addSet (s : ContextStore) (id cont : Nat) (set : ContextSet) : Except Failure ContextStore :=
  s.update id fun c => c.addSet cont set

/-- The context `id` takes over all continuations of a frozen one. -/
def merge (s : ContextStore) (id source : Nat) : Except Failure ContextStore := do
  s.requireOpen id
  if s.isFrozen source then
    let other ← s.read source
    s.update id fun c => c.merge other
  else fault .outOfRange

end ContextStore

end TokenGrammar
