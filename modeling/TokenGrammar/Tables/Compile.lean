import TokenGrammar.Log
import TokenGrammar.Options
import TokenGrammar.Tables.Basic

/-!
# Compiling a grammar to tables

The root and the bodies of the reachable rules are surveyed one by one; their findings are then laid
out by node. Since no node belongs to two of these trees, nothing leaks from one to another.
-/

namespace TokenGrammar

/-- What the analysis says about the root or about the body of a reachable rule. -/
structure Survey where
  positions : List Expr
  joints : List Joint
  firsts : PosSet
  lasts : PosSet
  deriving DecidableEq

/-- What the analysis says about a grammar. -/
structure Findings where
  rules : RuleSet
  bodies : List (Nat × Survey)
  root : Survey
  rootNullable : Bool
  callSets : NatMap CallSet
  rounds : Nat
  deriving DecidableEq

namespace Survey

def ofBody (tree : Expr) : AnalysisM Survey := do
  let positions ← (← get).grammar.positions tree
  let joints ← Analysis.joints tree
  let firsts ← Analysis.firsts tree
  let lasts ← Analysis.lasts tree
  return ⟨positions, joints, firsts, lasts⟩

def ofRoot (tree : Expr) : AnalysisM Survey := do
  let positions ← (← get).grammar.positions tree
  let joints ← Analysis.joints tree
  let lasts ← Analysis.lasts tree
  let firsts ← Analysis.firsts tree
  return ⟨positions, joints, firsts, lasts⟩

end Survey

namespace Findings

/-- Asks the analysis everything that the tables need. -/
def collect : AnalysisM Findings := do
  let g := (← get).grammar
  let rules ← Analysis.reachable g.root
  let bodies ← rules.toList.mapM fun r => do return (r, ← Survey.ofBody (← g.rule r).body)
  let root ← Survey.ofRoot g.root
  let rootNullable ← Analysis.nullable g.root
  let positions := (bodies.map (·.2) ++ [root]).flatMap (·.positions)
  let callSets ← (positions.filter (·.isCall)).foldlM
    (fun m e => do return m.insert e.ref.index (← Analysis.callSetAt e.ref.index)) ∅
  return ⟨rules, bodies, root, rootNullable, callSets, (← get).rounds⟩

def surveys (f : Findings) : List Survey := f.bodies.map (·.2) ++ [f.root]

/-- What may follow what in the root and the bodies. -/
def follow (f : Findings) (g : Grammar) : Follow :=
  .ofJoints g.nodes.size (f.surveys.flatMap (·.joints))

/-- The positions that come last in the root or in a body. -/
def tails (f : Findings) : NatSet :=
  f.surveys.foldl (fun s survey => s.insertMany survey.lasts.toList) ∅

/-- The positions after `i`; the end mark comes after what may end the root. -/
def successors (f : Findings) (g : Grammar) (follow : Follow) (i : Nat) : List Nat :=
  (follow.after i).toList ++ if f.root.lasts.contains i then [g.endIndex] else []

/-- The nodes whose rows are looked up when the tables are laid out. -/
def places (f : Findings) : List Nat :=
  (f.surveys.flatMap fun s =>
      s.joints.flatMap (·.lasts.toList) ++ s.firsts.toList ++ s.lasts.toList) ++
    f.callSets.toList.flatMap fun (call, entries) => call :: entries.toList.map (·.cont)

def callSet (f : Findings) (i : Nat) : CallSet := f.callSets[i]?.getD .empty

def row (f : Findings) (g : Grammar) (follow : Follow) (tails : NatSet) (prune : Bool) (i : Nat) :
    Row where
  successors := f.successors g follow i
  inTail := tails.contains i
  entries :=
    -- nothing comes after the continuation of a dead entry
    if prune then
      ((f.callSet i).filter fun e => !(f.successors g follow e.cont).isEmpty).toList
    else (f.callSet i).toList
  children := (AscSet.ofList ((f.callSet i).own.toList.map (·.invoke))).toList
  isCall := g.isCallAt i

/-- The terminals that may come first in the body of a rule. -/
def firstsOfRule (f : Findings) (g : Grammar) (rule : Nat) : List Nat :=
  match f.bodies.lookup rule with
  | none => []
  | some s => (s.firsts.filter fun i => !g.isCallAt i).toList

def tables (f : Findings) (g : Grammar) (prune : Bool) : Tables :=
  let follow := f.follow g
  let tails := f.tails
  let rows := (List.range g.nodes.size).map (f.row g follow tails prune)
  let stored := (rows.flatMap (·.entries)).length
  { grammar := g
    rules := f.rules
    rows := rows.toArray
    ruleFirsts := ((List.range g.rules.size).map (f.firstsOfRule g)).toArray
    rootFirsts := f.root.firsts.toList
    rootNullable := f.rootNullable
    stats :=
      { rules := f.rules.size
        positions := (f.surveys.flatMap (·.positions)).length
        transitions := (rows.flatMap (·.successors)).length
        callEntries := stored
        prunedCallEntries := (f.callSets.toList.flatMap (·.2.toList)).length - stored
        rounds := f.rounds } }

end Findings

namespace Tables

/-- The tables of a grammar. Refuses a grammar with an unsupported construct. -/
def compile (g : Grammar) (options : Options) : Except Failure Tables := do
  let (findings, _) ← Findings.collect (← Analysis.start g)
  g.requireNodes findings.places
  return findings.tables g options.pruneDeadContinuations

/-- The declared rules that the root does not reach, in the order of their declaration. -/
def unreachable (t : Tables) : List Rule :=
  (t.grammar.rules.toList.zipIdx.filter fun (_, i) => !t.rules.contains i).map (·.1)

/-- One line about the size of the tables and the time it took to build them. -/
def summary (t : Tables) (elapsedMicros : Nat) : String :=
  let s := t.stats
  "grammar: " ++ toString s.rules ++ " rules, " ++ toString s.positions ++ " positions, " ++
    toString s.transitions ++ " transitions, " ++ toString s.callEntries ++ " call entries (" ++
    toString s.prunedCallEntries ++ " pruned); " ++ toString s.rounds ++ " fixpoint rounds; " ++
    toString elapsedMicros ++ "us"

/-- Warns about unreachable rules and reports on the tables; at level 3 it lists the rules. -/
def report (t : Tables) (elapsedMicros : Nat) (log : Log) : Log :=
  let log := t.unreachable.foldl
    (fun l r => l.warn ("rule " ++ r.name ++ " is not reachable from the root")) log
  let log := log.info (t.summary elapsedMicros)
  if log.enabled 3 then
    (t.rules.toList.filterMap fun i => t.grammar.rules[i]?).foldl
      (fun l r => l.writeInfo ("  " ++ t.grammar.printRule r ++ "\n")) log
  else log

end Tables

end TokenGrammar
