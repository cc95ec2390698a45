import TokenGrammar.Proofs.Inclusion
import TokenGrammar.Proofs.Moves
import Mathlib.Data.List.Nodup
import Mathlib.Data.List.Infix

/-!
# The order of activations

The activations of a run are listed in the order in which they are entered: the root, and then for
each length of what has been read the rules that are entered there, in ascending order. The place of
an activation in this list does not depend on what is read later.
-/

namespace TokenGrammar.Grammar

variable {g : Grammar} {x : Activation} {u : List Token} {t : Token} {p r : Nat}

/-- The rules that are entered when `u` has been read. -/
noncomputable def enteredRules (g : Grammar) (u : List Token) : RuleSet :=
  .restrict (Finset.range g.rules.size) fun r => g.Entered ⟨some r, u⟩

noncomputable def entering (g : Grammar) (u : List Token) : List Activation :=
  (g.enteredRules u).toList.map fun r => ⟨some r, u⟩

/-- What has been entered before all of `u` had been read. -/
noncomputable def enteredBefore (g : Grammar) (u : List Token) : List Activation :=
  ⟨none, []⟩ :: (List.range u.length).flatMap fun n => g.entering (u.take n)

noncomputable def activations (g : Grammar) (u : List Token) : List Activation :=
  g.enteredBefore u ++ g.entering u

theorem enteredBefore_concat : g.enteredBefore (u ++ [t]) = g.activations u := by
  have h : ∀ n ∈ List.range u.length, g.entering ((u ++ [t]).take n) = g.entering (u.take n) := by
    intro n hn
    rw [List.take_append_of_le_length (List.mem_range.1 hn).le]
  rw [activations, enteredBefore, enteredBefore, List.length_append, List.length_singleton,
    List.range_succ, List.flatMap_append, List.flatMap_congr h, List.flatMap_singleton,
    List.take_left]
  rfl

theorem WellFormed.mem_enteredRules_iff (hg : g.WellFormed) :
    r ∈ g.enteredRules u ↔ g.Entered ⟨some r, u⟩ := by
  rw [enteredRules, AscSet.mem_restrict, Finset.mem_range]
  refine ⟨fun h => h.2, fun h => ⟨?_, h⟩⟩
  generalize hy : (⟨some r, u⟩ : Activation) = y at h
  cases h with
  | root => cases hy
  | call _ _ _ hp =>
    cases hy
    exact hg.calleeAt_lt hp

theorem WellFormed.mem_entering_iff (hg : g.WellFormed) :
    x ∈ g.entering u ↔ g.Entered x ∧ ¬ FromOutside x u := by
  rw [entering, List.mem_map]
  constructor
  · rintro ⟨r, hr, rfl⟩
    exact ⟨hg.mem_enteredRules_iff.1 hr, by simp [FromOutside]⟩
  · rintro ⟨hx, hin⟩
    obtain ⟨r, rfl⟩ := exists_of_inside hin
    exact ⟨r, hg.mem_enteredRules_iff.2 hx, rfl⟩

theorem WellFormed.mem_enteredBefore_iff (hg : g.WellFormed) :
    x ∈ g.enteredBefore u ↔ g.Entered x ∧ x.start <+: u ∧ FromOutside x u := by
  rw [enteredBefore, List.mem_cons, List.mem_flatMap]
  simp only [List.mem_range, hg.mem_entering_iff]
  constructor
  · rintro (rfl | ⟨n, hn, hx, hin⟩)
    · exact ⟨.root, List.nil_prefix, .inr rfl⟩
    · obtain ⟨r, rfl⟩ := exists_of_inside hin
      refine ⟨hx, List.take_prefix n u, .inl fun he => ?_⟩
      have hlen := congrArg List.length (show u.take n = u from he)
      rw [List.length_take] at hlen
      omega
  · rintro ⟨hx, hpre, hout⟩
    by_cases ht : x.top = none
    · exact .inl (hx.eq_root ht)
    · have hne : x.start ≠ u := hout.resolve_right ht
      refine .inr ⟨x.start.length, ?_, hx, ?_⟩
      · refine lt_of_le_of_ne hpre.length_le fun hlen => hne (hpre.eq_of_length hlen)
      · rw [FromOutside, ← List.prefix_iff_eq_take.1 hpre]
        simp [ht]

theorem WellFormed.mem_activations_iff (hg : g.WellFormed) :
    x ∈ g.activations u ↔ g.Entered x ∧ x.start <+: u := by
  rw [activations, List.mem_append, hg.mem_enteredBefore_iff, hg.mem_entering_iff]
  constructor
  · rintro (⟨hx, hpre, -⟩ | ⟨hx, hin⟩)
    · exact ⟨hx, hpre⟩
    · obtain ⟨r, rfl⟩ := exists_of_inside hin
      exact ⟨hx, List.prefix_rfl⟩
  · rintro ⟨hx, hpre⟩
    by_cases hout : FromOutside x u
    · exact .inl ⟨hx, hpre, hout⟩
    · exact .inr ⟨hx, hout⟩

theorem WellFormed.new_iff_inside (hg : g.WellFormed) {i : Nat}
    (h : (g.activations u)[i]? = some x) :
    (g.enteredBefore u).length ≤ i ↔ ¬ FromOutside x u := by
  rw [activations, List.getElem?_append] at h
  split at h
  · rename_i hlt
    have hout := (hg.mem_enteredBefore_iff.1 (List.mem_of_getElem? h)).2.2
    simp [hout, hlt]
  · rename_i hge
    have hin := (hg.mem_entering_iff.1 (List.mem_of_getElem? h)).2
    simp [hin, Nat.le_of_not_lt hge]

theorem At.start_before (h : g.At x u p) : x.start <+: u := by
  obtain ⟨-, e, w, -, rfl, -⟩ := h
  exact List.prefix_append _ _

theorem Returns.start_ne {s : List Token} {a c : Nat} (h : g.Returns a s c x) (hpre : s <+: u)
    (hne : s ≠ u) : x.start ≠ u := by
  intro hs
  have hle := h.start_le
  rw [hs] at hle
  exact hne (hpre.eq_of_length_le hle)

theorem WellFormed.at_mem (hg : g.WellFormed) (h : g.At x u p) : x ∈ g.activations u :=
  hg.mem_activations_iff.2 ⟨h.1, h.start_before⟩

theorem nodup_entering : (g.entering u).Nodup := by
  refine (g.enteredRules u).nodup.map fun a b h => ?_
  exact Option.some.inj (Activation.mk.inj h).1

theorem WellFormed.nodup_activations (hg : g.WellFormed) : (g.activations u).Nodup := by
  induction u using List.reverseRecOn with
  | nil =>
    refine List.nodup_cons.2 ⟨fun h => ?_, nodup_entering⟩
    exact (hg.mem_entering_iff.1 h).2 (.inr rfl)
  | append_singleton u t ih =>
    rw [activations, enteredBefore_concat]
    refine ih.append nodup_entering fun x hx hx' => ?_
    rw [← enteredBefore_concat (t := t)] at hx
    exact (hg.mem_entering_iff.1 hx').2 (hg.mem_enteredBefore_iff.1 hx).2.2

end TokenGrammar.Grammar
