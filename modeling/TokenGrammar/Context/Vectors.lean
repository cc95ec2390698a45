import TokenGrammar.Context.Store

/-!
# Sets of contexts as vectors

A set of contexts, kept as a vector of their numbers. A number is looked for by bisection, and two
sets are joined by going along both vectors at once. That the vectors stay ascending is nowhere
checked; it follows from how they are built.
-/

namespace TokenGrammar

structure IdVector where
  ids : Array Nat
  deriving DecidableEq, Repr

/-- Where a number is in a vector, or where it has to be put if it is not there. -/
inductive Spot (v : Array Nat)
  | found (place : Fin v.size)
  | missing (place : Fin (v.size + 1))

namespace IdVector

def empty : IdVector := ⟨#[]⟩

def single (id : Nat) : IdVector := ⟨#[id]⟩

/-- Looks for a number between two places, in the middle first. -/
def search (v : Array Nat) (id lo hi : Nat) (hlo : lo ≤ hi) (hhi : hi ≤ v.size) : Spot v :=
  if h : lo < hi then
    let mid := lo + (hi - lo) / 2
    have hmid : lo ≤ mid ∧ mid < hi := by omega
    if v[mid] < id then search v id (mid + 1) hi hmid.2 hhi
    else if id < v[mid] then search v id lo mid hmid.1 (by omega)
    else .found ⟨mid, by omega⟩
  else .missing ⟨lo, by omega⟩
termination_by hi - lo

def insert (s : IdVector) (id : Nat) : IdVector :=
  match search s.ids id 0 s.ids.size (Nat.zero_le _) (Nat.le_refl _) with
  | .found _ => s
  | .missing place => ⟨s.ids.insertIdx place id⟩

/-- Goes along both vectors from the given places on and takes the smaller number each time, but
only once if it is in both. What one of them has left when the other ends comes last. -/
def mergeFrom (v w : Array Nat) (i j : Nat) (hi : i ≤ v.size) (hj : j ≤ w.size)
    (merged : Array Nat) : Array Nat :=
  if h : i < v.size ∧ j < w.size then
    let a := v[i]
    let b := w[j]
    if a ≤ b then
      if a = b then mergeFrom v w (i + 1) (j + 1) h.1 h.2 (merged.push a)
      else mergeFrom v w (i + 1) j h.1 hj (merged.push a)
    else mergeFrom v w i (j + 1) hi h.2 (merged.push b)
  else merged ++ v.extract i ++ w.extract j
termination_by v.size - i + (w.size - j)

/-- Adds all members of another set. -/
def extend (s other : IdVector) : IdVector :=
  if other.ids.isEmpty then s
  else if s.ids.isEmpty then ⟨s.ids ++ other.ids⟩
  else ⟨mergeFrom s.ids other.ids 0 0 (Nat.zero_le _) (Nat.zero_le _) #[]⟩

def size (s : IdVector) : Nat := s.ids.size

def isEmpty (s : IdVector) : Bool := s.ids.isEmpty

end IdVector

end TokenGrammar
