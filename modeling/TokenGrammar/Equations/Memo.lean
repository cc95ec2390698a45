import TokenGrammar.Failure
import TokenGrammar.NatMap

/-!
# Memo tables for recursive equations

A memo table holds approximations of unknowns that are numbered by keys and may depend on each other.
A key that is asked for while it is being computed answers with its approximation, which starts at
the bottom value. The outermost computation repeats its round until a round changes nothing; only
then the keys visited in that round are settled.
-/

namespace TokenGrammar

structure Memo (ν : Type) where
  bottom : ν
  values : NatMap ν
  settled : NatSet
  /-- The keys met in the round that is under way. -/
  visited : NatSet
  /-- How many computations are under way, one inside the other. -/
  depth : Nat
  /-- Whether the round that is under way has changed a value. -/
  changed : Bool
  /-- How many rounds have been completed. -/
  rounds : Nat

namespace Memo

variable {ν : Type}

def new (bottom : ν) : Memo ν := ⟨bottom, ∅, ∅, ∅, 0, false, 0⟩

def value (m : Memo ν) (key : Nat) : ν := m.values[key]?.getD m.bottom

/-- The value to use for a key, or `none` if it has to be computed in this round. -/
def lookup (m : Memo ν) (key : Nat) : Option ν :=
  if m.settled.contains key || m.visited.contains key then some (m.value key) else none

def enter (m : Memo ν) (key : Nat) : Memo ν :=
  { m with
    visited := m.visited.insert key
    values := m.values.insertIfNew key m.bottom
    depth := m.depth + 1 }

/-- Whether just one computation is under way. -/
def outermost (m : Memo ν) : Bool := m.depth == 1

def leave [DecidableEq ν] (m : Memo ν) (key : Nat) (v : ν) : Except Failure (Memo ν) :=
  if m.depth = 0 then fault .unbalancedRounds
  else if m.values[key]? = some v then .ok { m with depth := m.depth - 1 }
  else .ok { m with depth := m.depth - 1, changed := true, values := m.values.insert key v }

/-- Completes a round. True when the round changed nothing, so that its values are final. -/
def settle (m : Memo ν) : Except Failure (Bool × Memo ν) :=
  if m.depth ≠ 0 then fault .unbalancedRounds
  else if m.changed then
    .ok (false, { m with rounds := m.rounds + 1, changed := false, visited := ∅ })
  else
    .ok (true,
      { m with
        rounds := m.rounds + 1, settled := m.settled.insertMany m.visited.toList, visited := ∅ })

end Memo

end TokenGrammar
