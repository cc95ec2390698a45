import TokenGrammar.Proofs.Parts
import Mathlib.Data.List.Forall2

/-!
# The order of positions

An address leads from a tree to one of its parts, operand by operand. Addresses are ordered like the
words in a dictionary, so of two parts that are not within each other the left one has the smaller
address. The positions of a tree are listed in the order of their addresses, each once.
-/

namespace TokenGrammar.Expr

/-- The part that an address leads to. -/
def part? : List Nat → Expr → Option Expr
  | [], e => some e
  | k :: w, e => e.operands[k]?.bind (part? w)

/-- The address of a position: it leads to a terminal or to a call, and through no terminal. -/
structure PositionAt (e : Expr) (w : List Nat) : Prop where
  single : ∃ x, e.part? w = some x ∧ (x.isTerminal = true ∨ x.isCall = true)
  visible : ∀ u v x, w = u ++ v → v ≠ [] → e.part? u = some x → x.isTerminal = false

/-- The list has the positions of the tree from left to right: the addresses of the positions, in
ascending order, lead to the members of the list. -/
structure ListsPositions (e : Expr) (ws : List (List Nat)) (xs : List Expr) : Prop where
  ascending : ws.Pairwise (· < ·)
  mem_iff : ∀ w, w ∈ ws ↔ e.PositionAt w
  leads : List.Forall₂ (fun w x => e.part? w = some x) ws xs

variable {e c x : Expr} {k : Nat} {w : List Nat}

theorem part?_cons : e.part? (k :: w) = some x ↔ ∃ c, e.operands[k]? = some c ∧ c.part? w = some x :=
  Option.bind_eq_some_iff

theorem positionAt_nil_iff : e.PositionAt [] ↔ e.isTerminal = true ∨ e.isCall = true := by
  constructor
  · rintro ⟨⟨x, hx, h⟩, -⟩
    obtain rfl := Option.some.inj hx
    exact h
  · refine fun h => ⟨⟨e, rfl, h⟩, fun u v x huv hv => ?_⟩
    exact absurd (List.append_eq_nil_iff.1 huv.symm).2 hv

theorem positionAt_cons_iff :
    e.PositionAt (k :: w) ↔
      e.isTerminal = false ∧ ∃ c, e.operands[k]? = some c ∧ c.PositionAt w := by
  constructor
  · rintro ⟨⟨x, hx, h⟩, hvis⟩
    obtain ⟨c, hc, hx⟩ := part?_cons.1 hx
    refine ⟨hvis [] (k :: w) e rfl (by simp) rfl, c, hc, ⟨x, hx, h⟩, fun u v y huv hv hy => ?_⟩
    exact hvis (k :: u) v y (by rw [huv]; rfl) hv (part?_cons.2 ⟨c, hc, hy⟩)
  · rintro ⟨ht, c, hc, ⟨x, hx, h⟩, hvis⟩
    refine ⟨⟨x, part?_cons.2 ⟨c, hc, hx⟩, h⟩, fun u v y huv hv hy => ?_⟩
    cases u with
    | nil =>
      obtain rfl := Option.some.inj hy
      exact ht
    | cons k' u =>
      obtain ⟨rfl, rfl⟩ := List.cons.inj huv
      obtain ⟨c', hc', hy⟩ := part?_cons.1 hy
      obtain rfl := Option.some.inj (hc.symm.trans hc')
      exact hvis u v y rfl hv hy

theorem positionAt_of_single (h : e.isTerminal = true ∨ e.isCall = true) :
    e.PositionAt w ↔ w = [] := by
  cases w with
  | nil => simp [positionAt_nil_iff, h]
  | cons k w =>
    simp only [positionAt_cons_iff, reduceCtorEq, iff_false, not_and, not_exists]
    intro ht c hc
    rcases h with h | h
    · simp [h] at ht
    · cases e with
      | call => cases hc
      | token | eps | alt | seq | conj | plus | endMark => cases h

/-- What is listed for operands one after the other, the first of which has the number `k`. -/
private theorem exists_addresses {cs : List Expr}
    (h : ∀ c ∈ cs, ∃ ws, c.ListsPositions ws c.positions) (k : Nat) :
    ∃ ws : List (List Nat), ws.Pairwise (· < ·) ∧
      (∀ w, w ∈ ws ↔ ∃ i v c, w = (k + i) :: v ∧ cs[i]? = some c ∧ c.PositionAt v) ∧
      List.Forall₂ (fun w x => ∃ i v c, w = (k + i) :: v ∧ cs[i]? = some c ∧ c.part? v = some x)
        ws (cs.flatMap positions) := by
  induction cs generalizing k with
  | nil => exact ⟨[], .nil, by simp, .nil⟩
  | cons c cs ih =>
    obtain ⟨us, hus⟩ := h c List.mem_cons_self
    obtain ⟨ws, hasc, hmem, hleads⟩ := ih (fun d hd => h d (List.mem_cons_of_mem _ hd)) (k + 1)
    refine ⟨us.map (k :: ·) ++ ws, ?ascending, fun w => ?mem_iff, ?leads⟩
    case ascending =>
      refine List.pairwise_append.2 ⟨?_, hasc, fun u hu w hw => ?_⟩
      · exact List.pairwise_map.2 (hus.ascending.imp fun huv => List.Lex.cons huv)
      · obtain ⟨u, -, rfl⟩ := List.mem_map.1 hu
        obtain ⟨i, v, -, rfl, -⟩ := (hmem w).1 hw
        exact List.Lex.rel (by omega)
    case mem_iff =>
      simp only [List.mem_append, List.mem_map, hus.mem_iff, hmem]
      constructor
      · rintro (⟨v, hv, rfl⟩ | ⟨i, v, d, rfl, hd, hv⟩)
        · exact ⟨0, v, c, rfl, rfl, hv⟩
        · exact ⟨i + 1, v, d, by rw [Nat.add_right_comm, Nat.add_assoc], hd, hv⟩
      · rintro ⟨i, v, d, rfl, hd, hv⟩
        cases i with
        | zero =>
          obtain rfl := Option.some.inj hd
          exact .inl ⟨v, hv, rfl⟩
        | succ i => exact .inr ⟨i, v, d, by rw [Nat.add_right_comm, Nat.add_assoc], hd, hv⟩
    case leads =>
      rw [List.flatMap_cons]
      refine List.rel_append ?_ (hleads.imp ?_)
      · refine List.forall₂_map_left_iff.2 (hus.leads.imp fun v x hx => ?_)
        exact ⟨0, v, c, rfl, rfl, hx⟩
      · rintro w x ⟨i, v, d, rfl, hd, hx⟩
        exact ⟨i + 1, v, d, by rw [Nat.add_right_comm, Nat.add_assoc], hd, hx⟩

theorem exists_listsPositions (e : Expr) : ∃ ws, e.ListsPositions ws e.positions := by
  induction e using operand_induction with
  | step e ih =>
    rw [positions_eq]
    by_cases h : e.isTerminal = true ∨ e.isCall = true
    · rw [if_pos (by simpa using h)]
      refine ⟨[[]], by simp, fun w => ?_, .cons rfl .nil⟩
      rw [positionAt_of_single h, List.mem_singleton]
    · rw [if_neg (by simpa using h)]
      have ht : e.isTerminal = false := by simpa using (not_or.1 h).1
      obtain ⟨ws, hasc, hmem, hleads⟩ := exists_addresses ih 0
      refine ⟨ws, hasc, fun w => ?_, hleads.imp ?_⟩
      · cases w with
        | nil => simp [hmem, positionAt_nil_iff, h]
        | cons k w => simp [hmem, positionAt_cons_iff, ht]
      · rintro w x ⟨i, v, c, rfl, hc, hx⟩
        rw [Nat.zero_add]
        exact part?_cons.2 ⟨c, hc, hx⟩

end TokenGrammar.Expr
