/-!
# Linear keys

Types whose values are strictly and linearly ordered, with a comparison that can be run. The finite
sets and maps of this library store their members in this order, so that equal sets and equal maps
are equal as values.
-/

namespace TokenGrammar

/-- A strict linear order that a program can decide. -/
class LinearKey (α : Type) extends LT α where
  decLt (a b : α) : Decidable (a < b)
  irrefl (a : α) : ¬ a < a
  trans {a b c : α} : a < b → b < c → a < c
  trichotomy (a b : α) : a < b ∨ a = b ∨ b < a

namespace LinearKey

instance (priority := low) instDecidableLT {α : Type} [LinearKey α] (a b : α) : Decidable (a < b) :=
  decLt a b

theorem asymm {α : Type} [LinearKey α] {a b : α} (h : a < b) : ¬ b < a :=
  fun h' => irrefl a (trans h h')

theorem ne_of_lt {α : Type} [LinearKey α] {a b : α} (h : a < b) : a ≠ b :=
  fun e => irrefl b (e ▸ h)

theorem eq_of_not_lt {α : Type} [LinearKey α] {a b : α} (h : ¬ a < b) (h' : ¬ b < a) : a = b := by
  rcases trichotomy a b with hab | hab | hab
  · exact absurd hab h
  · exact hab
  · exact absurd hab h'

end LinearKey

instance : LinearKey Nat where
  decLt := Nat.decLt
  irrefl := Nat.lt_irrefl
  trans := Nat.lt_trans
  trichotomy := Nat.lt_trichotomy

end TokenGrammar
