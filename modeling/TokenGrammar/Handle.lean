/-!
# Handles

A handle names a node or a rule by its place in the builder that made it. It carries the identity of
that builder, so a handle of one builder is never mistaken for a handle of another.
-/

namespace TokenGrammar

structure NodeRef where
  owner : Nat
  index : Nat
  deriving DecidableEq, Repr

structure RuleRef where
  owner : Nat
  index : Nat
  deriving DecidableEq, Repr

def NodeRef.print (e : NodeRef) : String := "#" ++ toString e.index

def RuleRef.print (r : RuleRef) : String := "R" ++ toString r.index

end TokenGrammar
