import TokenGrammar.Samples
import TokenGrammar.Proofs.Inclusion
import TokenGrammar.Proofs.Rounds
import TokenGrammar.Proofs.Solving
import TokenGrammar.Proofs.WellFormed
import TokenGrammar.Proofs.Language
import TokenGrammar.Proofs.Nullability
import TokenGrammar.Proofs.PositionSets
import TokenGrammar.Proofs.CallSets
import TokenGrammar.Proofs.Reachability
import TokenGrammar.Proofs.Queries
import TokenGrammar.Proofs.Inner
import TokenGrammar.Proofs.Activations
import TokenGrammar.Proofs.Moves
import TokenGrammar.Proofs.Survey
import TokenGrammar.Proofs.Rows
import TokenGrammar.Proofs.Contexts
import TokenGrammar.Proofs.Roster
import TokenGrammar.Proofs.Frontiers
import TokenGrammar.Proofs.Entering
import TokenGrammar.Proofs.Stepping
import TokenGrammar.Proofs.Runs
import TokenGrammar.Proofs.Viability
import TokenGrammar.Proofs.Productivity
import TokenGrammar.Proofs.Verdicts
import TokenGrammar.Proofs.Ownership
import TokenGrammar.Proofs.Building
import TokenGrammar.Proofs.Finishing
import TokenGrammar.Proofs.Pruning
import TokenGrammar.Proofs.Twins
import TokenGrammar.Proofs.Recognition
import TokenGrammar.Proofs.Safety
import TokenGrammar.Proofs.PositionWords
import TokenGrammar.Proofs.BuilderSteps
import TokenGrammar.Proofs.LinearUse
import TokenGrammar.Proofs.Shapes
import TokenGrammar.Proofs.Making
import TokenGrammar.Proofs.Trees
import TokenGrammar.Proofs.Outcomes
import TokenGrammar.Proofs.Facts
import TokenGrammar.Proofs.AnyOrder
import TokenGrammar.Proofs.UnorderedSteps
import TokenGrammar.Proofs.InOrder
import TokenGrammar.Proofs.Readiness
import TokenGrammar.Proofs.Renaming
import TokenGrammar.Proofs.UpToNumbers
import TokenGrammar.Proofs.OrderFree
import TokenGrammar.Proofs.ClosedForms
import TokenGrammar.Proofs.Convergence
import TokenGrammar.Proofs.TailClosure
import TokenGrammar.Proofs.Allotment
import TokenGrammar.Proofs.ContextGraph
import TokenGrammar.Proofs.Layout
import TokenGrammar.Proofs.Streaming
import TokenGrammar.Proofs.Sharing
import TokenGrammar.Proofs.Reports
import TokenGrammar.Proofs.Unreachable
import TokenGrammar.Proofs.TwoPhases
import TokenGrammar.Proofs.LanguageEquations
import TokenGrammar.Proofs.LanguageVerdicts
import TokenGrammar.Proofs.Drafts
import TokenGrammar.Proofs.ListSamples
import TokenGrammar.Proofs.AliasSamples
import TokenGrammar.Proofs.CycleSamples
import TokenGrammar.Proofs.ParenSamples
import TokenGrammar.Proofs.ExprSamples
import TokenGrammar.Proofs.StorePhases
import TokenGrammar.Proofs.StoreHalves
import TokenGrammar.Proofs.Printing
import TokenGrammar.Proofs.PositionOrder
import TokenGrammar.Proofs.UsefulPositions
import TokenGrammar.Proofs.Copies
import TokenGrammar.Proofs.VectorSets
