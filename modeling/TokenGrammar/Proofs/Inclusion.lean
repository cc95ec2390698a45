import TokenGrammar.AscSet
import Mathlib.Order.BoundedOrder.Basic
import Mathlib.Data.List.Perm.Subperm
import Mathlib.Data.Finset.Card

/-!
# Finite sets ordered by inclusion

Ascending lists are ordered by inclusion of their members, with the empty set at the bottom. A proper
inclusion adds at least one member, so a chain of sets with members from a finite set cannot grow for
ever.
-/

namespace TokenGrammar.AscSet

variable {α : Type} [LinearKey α]

instance : PartialOrder (AscSet α) where
  le s t := ∀ x, x ∈ s → x ∈ t
  le_refl _ _ h := h
  le_trans _ _ _ h h' x hx := h' x (h x hx)
  le_antisymm _ _ h h' := ext_mem fun x => ⟨h x, h' x⟩

instance : OrderBot (AscSet α) where
  bot := empty
  bot_le _ x hx := absurd hx (not_mem_empty x)

theorem nodup (s : AscSet α) : s.toList.Nodup :=
  s.ascending.imp fun h => LinearKey.ne_of_lt h

theorem size_le_of_le {s t : AscSet α} (h : s ≤ t) : s.size ≤ t.size :=
  (s.nodup.subperm h).length_le

theorem size_lt_of_lt {s t : AscSet α} (h : s < t) : s.size < t.size := by
  refine lt_of_le_of_ne (size_le_of_le h.le) fun he => h.not_ge ?_
  have hp : s.toList.Perm t.toList := (s.nodup.subperm h.le).perm_of_length_le he.ge
  exact fun x hx => mem_def.2 (hp.mem_iff.2 hx)

theorem size_le_card {s : AscSet α} {F : Finset α} (h : ∀ x ∈ s, x ∈ F) : s.size ≤ F.card := by
  classical
  rw [size, ← List.toFinset_card_of_nodup s.nodup]
  exact Finset.card_le_card fun x hx => h x (List.mem_toFinset.1 hx)

/-- The members of a finite set that have a property. -/
noncomputable def restrict (F : Finset α) (P : α → Prop) : AscSet α := by
  classical exact ofList (F.toList.filter fun x => decide (P x))

theorem mem_restrict {F : Finset α} {P : α → Prop} {x : α} : x ∈ restrict F P ↔ x ∈ F ∧ P x := by
  simp [restrict]

end TokenGrammar.AscSet
