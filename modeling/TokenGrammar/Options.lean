import TokenGrammar.Document

/-!
# Options

The options for building and running a recognizer, and how they are read from a document.
-/

namespace TokenGrammar

structure Options where
  /-- Leave out call continuations that have no outgoing transition. They can never lead to further
  progress or acceptance, so this affects speed only. -/
  pruneDeadContinuations : Bool := true
  /-- Log the frontier after every token. -/
  traceSteps : Bool := false
  deriving DecidableEq, Repr

namespace Options

/-- A flag that may be missing; present, it has to be a truth value. -/
private def flag? (missing : Bool) : Option Document → Option Bool
  | none => some missing
  | some d => d.bool?

/-- Reads options from a record, whose other fields do not count, or from a list of at most two
flags. What is missing takes its default. -/
def ofDocument? : Document → Option Options
  | .record fields => do
    let prune ← flag? true (Document.field? "prune_dead_continuations" fields)
    let trace ← flag? false (Document.field? "trace_steps" fields)
    return ⟨prune, trace⟩
  | .list items => do
    if items.length > 2 then none
    let prune ← flag? true items[0]?
    let trace ← flag? false items[1]?
    return ⟨prune, trace⟩
  | _ => none

end Options

end TokenGrammar
