import TokenGrammar.Equations.Memo

/-!
# Solving recursive equations

A system gives one equation for each key: the keys that it reads, in order, and the value in terms of
theirs. Solving for a key computes every key on the way once in each round, and repeats the rounds
until the memo table is stable. Finding an equation may itself depend on a state, for instance on the
memo table of another system.
-/

namespace TokenGrammar

structure Equation (ν : Type) where
  reads : List Nat
  value : (Nat → ν) → ν

namespace Equation

variable {ν : Type}

def known (v : ν) : Equation ν := ⟨[], fun _ => v⟩

def unknown (key : Nat) : Equation ν := ⟨[key], fun values => values key⟩

def combine (f : ν → ν → ν) (a b : Equation ν) : Equation ν :=
  ⟨a.reads ++ b.reads, fun values => f (a.value values) (b.value values)⟩

end Equation

/-- One equation for each key; `depth` and `rounds` bound the nesting and the repetition that
solving for a key can need. -/
structure System (σ ν : Type) where
  equation : Nat → StateT σ (Except Failure) (Equation ν)
  depth : Nat
  rounds : Nat

namespace System

/-- Solving works on the state of the system and on the memo table. -/
abbrev SolveM (σ ν : Type) := StateT (σ × Memo ν) (Except Failure)

variable {σ ν : Type}

def memo : SolveM σ ν (Memo ν) := do return (← get).2

def setMemo (m : Memo ν) : SolveM σ ν Unit := modify fun (s, _) => (s, m)

def onState {α : Type} (act : StateT σ (Except Failure) α) : SolveM σ ν α := fun (s, m) => do
  let (a, s) ← act s
  return (a, (s, m))

/-- Asks for the keys that an equation reads, in order, and then evaluates it in the table. An
approximation changes only when its own computation ends, so the table still holds what was
answered. -/
def evaluate (eq : Equation ν) (ask : Nat → SolveM σ ν ν) : SolveM σ ν ν := do
  eq.reads.forM fun key => discard (ask key)
  return eq.value (← memo).value

variable [DecidableEq ν]

def compute (sys : System σ ν) (ask : Nat → SolveM σ ν ν) (key : Nat) : SolveM σ ν ν := do
  setMemo ((← memo).enter key)
  let v ← evaluate (← onState (sys.equation key)) ask
  setMemo (← (← memo).leave key v)
  return v

/-- The value of a key in the round that is under way. -/
def visit (sys : System σ ν) : Nat → Nat → SolveM σ ν ν
  | 0, _ => fault .roundsExhausted
  | depth + 1, key => do
    match (← memo).lookup key with
    | some v => return v
    | none => sys.compute (sys.visit depth) key

/-- Repeats the round that computes a key until the table is stable. -/
def repeatRounds (sys : System σ ν) (key : Nat) : Nat → SolveM σ ν ν
  | 0 => fault .roundsExhausted
  | n + 1 => do
    let v ← sys.compute (sys.visit sys.depth) key
    let (stable, m) ← (← memo).settle
    setMemo m
    if stable then return v else sys.repeatRounds key n

def solve (sys : System σ ν) (key : Nat) : SolveM σ ν ν := do
  match (← memo).lookup key with
  | some v => return v
  | none => sys.repeatRounds key sys.rounds

/-- The value of an expression in the unknowns. -/
def solveIn (sys : System σ ν) (eq : Equation ν) : SolveM σ ν ν := evaluate eq sys.solve

end System

end TokenGrammar
