import TokenGrammar.Proofs.ClosedForms
import TokenGrammar.Proofs.PositionWords
import TokenGrammar.Proofs.Pruning

/-!
# How the tables are laid out

All trees that a recognizer works on share the arrays of the tables, but no two of them share a
position. So the row of a position says what the analysis says about the one tree that the position is
in, and the rows of all other nodes are empty.
-/

namespace TokenGrammar

namespace Grammar

open Analysis (Always)

/-- The bodies of some rules, and the root. -/
def tops (g : Grammar) (rules : RuleSet) : List Expr :=
  (rules.toList.map some ++ [none]).filterMap g.top?

/-- The positions of the bodies of some rules and of the root. -/
def topPositions (g : Grammar) (rules : RuleSet) : List Expr := (g.tops rules).flatMap (·.positions)

end Grammar

/-- The row of a position of a tree, the root or the body of a rule, as the analysis says it. -/
structure Row.Exact (g : Grammar) (t : Tables) (prune : Bool) (top : Option Nat) (follow : Follow)
    (lasts : PosSet) (x : Expr) (row : Row) : Prop where
  ascending : row.successors.Pairwise (· < ·)
  successors : ∀ q, q ∈ row.successors ↔
    (x.ref.index, q) ∈ follow.pairs ∨ top = none ∧ x.ref.index ∈ lasts ∧ q = g.endIndex
  inTail : row.inTail = true ↔ x.ref.index ∈ lasts
  isCall : row.isCall = x.isCall
  call : x.isCall = true → ∃ s, Analysis.Always g (Analysis.callSet x) s ∧
    row.children.Pairwise (· < ·) ∧
    (∀ r, r ∈ row.children ↔ ⟨none, x.ref.index, r⟩ ∈ s) ∧
    row.entries = (if prune then s.filter fun e => !(t.successorsAt e.cont).isEmpty else s).toList
  terminal : x.isCall = false → row.children = [] ∧ row.entries = []

namespace Grammar

open Analysis (Always)

variable {g : Grammar} {k : Option Nat} {e x : Expr} {p i : Nat}

namespace Valid

variable (hg : g.Valid) {n : Nat}
include hg

theorem mem_tops_iff : e ∈ g.tops g.usedRules ↔ ∃ k, g.Uses k ∧ g.top? k = some e := by
  rw [tops, List.mem_filterMap]
  refine exists_congr fun k => and_congr_left fun _ => ?_
  cases k with
  | none => simp [uses_root]
  | some r =>
    simp only [List.mem_append, List.mem_map, Option.some.injEq, exists_eq_right, List.mem_singleton,
      reduceCtorEq, or_false]
    rw [← AscSet.mem_def, hg.mem_usedRules_iff]
    exact ⟨fun h r' hr' => Option.some.inj hr' ▸ h, fun h => h r rfl⟩

theorem mem_topPositions_iff :
    i ∈ (g.topPositions g.usedRules).map (·.ref.index) ↔ ∃ k, g.Uses k ∧ g.Owns k i := by
  rw [topPositions, List.map_flatMap, List.mem_flatMap]
  constructor
  · rintro ⟨e, he, hi⟩
    obtain ⟨k, hk, he⟩ := hg.mem_tops_iff.1 he
    exact ⟨k, hk, e, he, hi⟩
  · rintro ⟨k, hk, e, he, hi⟩
    exact ⟨e, hg.mem_tops_iff.2 ⟨k, hk, he⟩, hi⟩

theorem position_of_used (hk : g.Uses k) (hp : g.Owns k p) :
    ∃ x ∈ g.topPositions g.usedRules, g.Stores x ∧ x.ref.index = p := by
  obtain ⟨e, x, he, hx, hs, hi⟩ := hg.position_of_owns hp
  exact ⟨x, List.mem_flatMap.2 ⟨e, hg.mem_tops_iff.2 ⟨k, hk, he⟩, hx⟩, hs, hi⟩

theorem nodup_topPositions (rules : RuleSet) :
    ((g.topPositions rules).map (·.ref.index)).Nodup := by
  have hkeys : (rules.toList.map some ++ [none]).Nodup := by
    refine (rules.nodup.map (Option.some_injective Nat)).append (List.nodup_singleton none) ?_
    intro k hk hn
    obtain ⟨r, -, rfl⟩ := List.mem_map.1 hk
    cases List.mem_singleton.1 hn
  rw [topPositions, List.map_flatMap]
  refine List.nodup_flatMap.2 ⟨fun e he => ?_, ?_⟩
  · obtain ⟨k, -, he⟩ := List.mem_filterMap.1 he
    exact hg.marks_nodup he
  · refine List.pairwise_filterMap.2 (List.Pairwise.imp ?_ hkeys)
    intro k k' hne e he e' he' i hi hi'
    exact hne (hg.owner_unique ⟨e, he, hi⟩ ⟨e', he', hi'⟩)

theorem topPositions_usedRules :
    g.topPositions g.usedRules = g.usedSurveys.flatMap (·.positions) := by
  have hbodies : (g.usedRules.toList.map some).filterMap g.top? =
      g.usedRules.toList.map g.bodyOf := by
    rw [List.filterMap_map, ← List.filterMap_eq_map]
    refine List.filterMap_congr fun r hr => ?_
    exact hg.top_of_leadsTo (hg.mem_usedRules_iff.1 (AscSet.mem_def.2 hr))
  rw [topPositions, tops, List.filterMap_append, hbodies, usedSurveys, List.flatMap_append,
    List.flatMap_append, List.flatMap_map, List.flatMap_map]
  rfl

theorem lt_endIndex_of_owns (h : g.Owns k p) : p < g.endIndex := by
  have hlt := hg.lt_of_owns h
  have hne : p ≠ g.endIndex := by
    rintro rfl
    exact hg.not_owns_endIndex h
  unfold endIndex at hne ⊢
  omega

/-- Nothing is found about a node that is no position of a tree that a recognizer works on. -/
theorem row_of_not_owned (h : ∀ k, g.Uses k → ¬ g.Owns k i) (prune : Bool) :
    (g.findings n).row g ((g.findings n).follow g) (g.findings n).tails prune i =
      ⟨[], false, [], [], g.isCallAt i⟩ := by
  have hlast : ∀ k, g.Uses k → ¬ g.Last k i := fun k hk hl => h k hk (hg.owns_of_last hl)
  have hfollow : (((g.findings n).follow g).after i).toList = [] := by
    refine List.eq_nil_iff_forall_not_mem.2 fun q hq => ?_
    obtain ⟨k, e, hk, he, hf⟩ := hg.mem_follow_findings.1 (AscSet.mem_def.2 hq)
    exact h k hk ⟨e, he, (hg.mem_marks_of_follows (hg.inner_top he) hf).1⟩
  have hroot : (g.findings n).root.lasts.contains i = false := by
    rw [Bool.eq_false_iff, ne_eq, contains_rootLasts_iff]
    exact hlast none uses_root
  have htails : (g.findings n).tails.contains i = false := by
    rw [Bool.eq_false_iff, ne_eq, Std.ExtTreeSet.contains_iff_mem, hg.mem_tails_findings]
    exact fun ⟨k, hk, hl⟩ => hlast k hk hl
  have hcalls : (g.findings n).callSet i = .empty := by
    rw [Findings.callSet, getElem?_callSets, if_neg fun hm => ?_]
    · rfl
    · obtain ⟨k, hk, hp, -⟩ := hg.owns_of_mem_callSites hm
      exact h k hk hp
  have hsucc : (g.findings n).successors g ((g.findings n).follow g) i = [] := by
    rw [Findings.successors, hfollow, hroot]
    rfl
  rw [Findings.row, hsucc, htails, hcalls]
  cases prune <;> rfl

theorem ascending_successors :
    ((g.findings n).successors g ((g.findings n).follow g) p).Pairwise (· < ·) := by
  refine List.pairwise_append.2 ⟨AscSet.ascending _, ?_, fun q hq q' hq' => ?_⟩
  · split
    · exact List.pairwise_singleton _ _
    · exact .nil
  · obtain ⟨k, e, -, he, hf⟩ := hg.mem_follow_findings.1 (AscSet.mem_def.2 hq)
    have hlt := hg.lt_endIndex_of_owns ⟨e, he, (hg.mem_marks_of_follows (hg.inner_top he) hf).2⟩
    split at hq'
    · rwa [List.mem_singleton.1 hq']
    · cases hq'

section Position

variable (hk : g.Uses k) (he : g.top? k = some e) (hx : x ∈ e.positions)
include hk he hx

theorem callSet_of_position : (g.findings n).callSet x.ref.index =
    if x.isCall then g.callSetAt x.ref.index else .empty := by
  have hp : g.Owns k x.ref.index := ⟨e, he, List.mem_map_of_mem hx⟩
  have hs := hg.stores_position (hg.stores_top he) hx
  refine AscSet.ext_mem fun c => ?_
  rw [hg.callSet_findings hk hp]
  split
  · exact hg.mem_callSetAt_iff.symm
  · rename_i hc
    refine ⟨fun ⟨a, ha, _⟩ => absurd ?_ hc, fun h => absurd h (AscSet.not_mem_empty c)⟩
    rw [← hs.isCallAt]
    exact isCallAt_iff.2 ⟨a, ha⟩

theorem row_exact (prune : Bool) : ∃ row,
    ((g.findings n).tables g prune).row x.ref.index = .ok row ∧
      row.Exact g ((g.findings n).tables g prune) prune k
        (.ofJoints g.nodes.size (e.jointList g.emptyAt)) (e.lastSet g.emptyAt) x := by
  have hp : g.Owns k x.ref.index := ⟨e, he, List.mem_map_of_mem hx⟩
  have hs := hg.stores_position (hg.stores_top he) hx
  have hcalls := hg.callSet_of_position (n := n) hk he hx
  have hlast : g.Last k x.ref.index ↔ x.ref.index ∈ e.lastSet g.emptyAt := by
    simp [Last, he]
  refine ⟨_, Findings.row_ok_iff.2 ⟨hs.index_lt, rfl⟩, ?_⟩
  have hfit := hg.row_fits (n := n) hk hp prune
  constructor
  case ascending => exact hg.ascending_successors
  case successors =>
    intro q
    rw [hfit.successors, Next, hlast, Follow.mem_pairs_iff, Follow.mem_after_ofJoints,
      and_iff_right hs.index_lt]
    simp only [he, Option.some.injEq, exists_eq_left']
    rfl
  case inTail => exact hfit.inTail.trans hlast
  case isCall => exact hs.isCallAt
  case call =>
    intro hc
    have hset : Analysis.Answers hg (Analysis.callSet x) (g.callSetAt x.ref.index) :=
      Analysis.answers_callSet hs hc
    rw [if_pos hc] at hcalls
    refine ⟨_, hset.always, AscSet.ascending _, fun r => ?_, ?_⟩
    · rw [hfit.children, hg.mem_callSetAt_iff]
      simp [EntryOf]
    · rw [Findings.row, ← hcalls]
      cases prune with
      | false => rfl
      | true =>
        refine List.filter_congr fun c hc => ?_
        rw [successorsAt_findings (hg.cont_lt (AscSet.mem_def.2 hc))]
  case terminal =>
    intro hc
    rw [if_neg (by simp [hc])] at hcalls
    rw [Findings.row, hcalls]
    exact ⟨rfl, by cases prune <;> rfl⟩

end Position

end Valid

end Grammar

end TokenGrammar
