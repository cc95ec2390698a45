import TokenGrammar.Log
import TokenGrammar.Options
import TokenGrammar.Recognizer.Step
import TokenGrammar.Verdict

/-!
# Running a recognizer

A recognizer reads tokens one by one. It is rejected by the first token that leaves its frontier
empty, and from then on it only warns about the tokens it is given.
-/

namespace TokenGrammar

structure RunStats where
  steps : Nat
  matchedEntries : Nat
  largestFrontier : Nat
  contexts : Nat
  /-- Time spent, for a caller that measures it. -/
  computeMicros : Nat
  deriving DecidableEq, Repr

def RunStats.max (a b : RunStats) : RunStats where
  steps := Nat.max a.steps b.steps
  matchedEntries := Nat.max a.matchedEntries b.matchedEntries
  largestFrontier := Nat.max a.largestFrontier b.largestFrontier
  contexts := Nat.max a.contexts b.contexts
  computeMicros := Nat.max a.computeMicros b.computeMicros

structure Recognizer where
  tables : Tables
  options : Options
  store : ContextStore
  frontier : Frontier
  /-- How many tokens have been consumed; a rejected token does not count. -/
  offset : Nat
  rejectedAt : Option Nat
  stats : RunStats
  log : Log
  deriving DecidableEq

namespace Recognizer

/-- A recognizer that has read nothing. Context 0 is that of the root. -/
def start (tables : Tables) (options : Options) (log : Log) : Except Failure Recognizer := do
  let (root, store) := ContextStore.new.alloc
  let arrived := Frontier.addAll ∅ tables.rootFirsts (.single root)
  let (frontier, store) ← arrived.ofArrivals tables store.freeze
  let stats := { steps := 0, matchedEntries := 0, largestFrontier := frontier.size
                 contexts := store.size, computeMicros := 0 }
  return ⟨tables, options, store, frontier, 0, none, stats, log⟩

def isRejected (r : Recognizer) : Bool := r.rejectedAt.isSome

def numEntries (r : Recognizer) : Nat := r.frontier.size

/-- Whether the tokens consumed so far are a sentence. -/
def isAccepting (r : Recognizer) : Bool :=
  if r.isRejected then false
  else if r.offset = 0 then r.tables.rootNullable
  else r.frontier.contains r.tables.grammar.endIndex

/-- The verdict on the tokens consumed so far. -/
def finish (r : Recognizer) : Verdict :=
  match r.rejectedAt with
  | some offset => .reject offset
  | none => if r.isAccepting then .accept else .reject r.offset

/-- Logs the frontier in ascending order of the positions. -/
def logFrontier (t : Tables) (frontier : Frontier) (contexts step : Nat) (token : Token)
    (log : Log) : Log :=
  let head := "step " ++ toString step ++ " token " ++ token.print ++ ": " ++
    toString frontier.size ++ " entries, " ++ toString contexts ++ " contexts"
  frontier.toList.foldl
    (fun log (pos, set) =>
      let printed := (t.grammar.nodes[pos]?.map t.grammar.print).getD ""
      log.info ("  " ++ printed ++ " x" ++ toString set.size))
    (log.info head)

/-- Puts a step on record: the statistics, the trace and, if the frontier is empty, the
rejection. -/
def record (r : Recognizer) (token : Token) (a : Advance) : Bool × Recognizer :=
  let stats :=
    { r.stats with
      steps := r.stats.steps + 1
      matchedEntries := r.stats.matchedEntries + a.matched
      largestFrontier := Nat.max r.stats.largestFrontier a.frontier.size
      contexts := a.store.size }
  let log :=
    if r.options.traceSteps then
      logFrontier r.tables a.frontier a.store.size (r.offset + 1) token r.log
    else r.log
  let next := { r with frontier := a.frontier, store := a.store, stats, log }
  if a.frontier.isEmpty then
    (false,
      { next with
        rejectedAt := some r.offset
        log := log.info ("rejected token " ++ token.print ++ " at offset " ++
          toString r.offset) })
  else (true, { next with offset := r.offset + 1 })

/-- Reads a token. False if it cannot be consumed; then and later the recognizer is rejected. -/
def consume (r : Recognizer) (token : Token) : Except Failure (Bool × Recognizer) :=
  match r.rejectedAt with
  | some offset =>
    .ok (false,
      { r with
        log := r.log.warn ("token " ++ token.print ++ " ignored; input already rejected at offset "
          ++ toString offset) })
  | none => do
    -- letting go of the store allows the step to extend it in place
    let store := r.store
    let r := { r with store := .new }
    return r.record token (← Frontier.advance r.tables store r.frontier.toList token)

/-- Reads tokens until one cannot be consumed. -/
def feed (r : Recognizer) : List Token → Except Failure Recognizer
  | [] => .ok r
  | t :: ts => do
    let (consumed, r) ← r.consume t
    if consumed then r.feed ts else return r

def parse (r : Recognizer) (tokens : List Token) : Except Failure (Verdict × Recognizer) := do
  let r ← r.feed tokens
  return (r.finish, r)

def recognize (r : Recognizer) (tokens : List Token) : Except Failure (Bool × Recognizer) := do
  let (verdict, r) ← r.parse tokens
  return (verdict.isAccept, r)

/-- The same recognizer with nothing in its log. -/
def fork (r : Recognizer) : Recognizer := { r with log := r.log.fresh }

end Recognizer

end TokenGrammar
