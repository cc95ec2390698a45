import Std.Data.ExtTreeMap
import Std.Data.ExtTreeSet

/-!
# Maps and sets of numbers

Nodes, rules and contexts are numbered, and what is known about them is kept in ordered maps and sets
of their numbers. Maps that agree at every key are equal as values, however they were built.
-/

namespace TokenGrammar

abbrev NatMap (ν : Type) := Std.ExtTreeMap Nat ν

instance decEqNatMap {ν : Type} [DecidableEq ν] : DecidableEq (NatMap ν) :=
  inferInstanceAs (DecidableEq (Std.ExtTreeMap Nat ν))

abbrev NatSet := Std.ExtTreeSet Nat

end TokenGrammar
