import TokenGrammar.Context.Store

/-!
# Contexts in two halves

The contexts of a store, kept in two arrays and changed in place: the frozen ones, which can be read,
and the fresh ones, which can be written to. Numbers run through the first array and go on in the
second, whose place for a context therefore moves when contexts are frozen.
-/

namespace TokenGrammar

structure Halves where
  frozen : Array Callbacks
  fresh : Array Callbacks
  deriving DecidableEq

/-- An operation on contexts in place; what it changed stays changed when it fails. -/
abbrev HalvesM := ExceptT Failure (StateM Halves)

namespace Halves

def new : Halves := ⟨#[], #[]⟩

def size (h : Halves) : Nat := h.frozen.size + h.fresh.size

/-- Makes a context without callbacks and gives its number. -/
def alloc : HalvesM Nat :=
  modifyGet fun h => (h.size, { h with fresh := h.fresh.push ∅ })

/-- Moves all fresh contexts behind the frozen ones. -/
def freeze : HalvesM Unit :=
  modify fun h => ⟨h.frozen ++ h.fresh, #[]⟩

def isFrozen (h : Halves) (id : Nat) : Bool := id < h.frozen.size

def read (id : Nat) : HalvesM Callbacks := do
  let h ← get
  if h.isFrozen id then inRange h.frozen[id]? else fault (.readBeforeFrozen id)

/-- The frozen contexts to read from and, among the fresh ones, the place of one to write to. -/
def split (id : Nat) : HalvesM (Array Callbacks × Nat) := do
  let h ← get
  if h.isFrozen id then fault (.writtenAfterFrozen id)
  else if id - h.frozen.size < h.fresh.size then return (h.frozen, id - h.frozen.size)
  else fault .outOfRange

def change (place : Nat) (f : Callbacks → Callbacks) : HalvesM Unit :=
  modify fun h => { h with fresh := h.fresh.modify place f }

def add (id cont context : Nat) : HalvesM Unit := do
  let (_, place) ← split id
  change place fun c => c.add cont context

def addSet (id cont : Nat) (set : ContextSet) : HalvesM Unit := do
  let (_, place) ← split id
  change place fun c => c.addSet cont set

/-- The context `id` takes over all continuations of a frozen one, one after another. -/
def merge (id source : Nat) : HalvesM Unit := do
  let (frozen, place) ← split id
  let other ← inRange frozen[source]?
  other.toList.forM fun (cont, set) => change place fun c => c.addSet cont set

end Halves

end TokenGrammar
