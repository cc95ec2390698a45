import TokenGrammar.Proofs.Rows

/-!
# Pruned tables

Tables built with pruning are those built without it, less the call entries after whose continuation
nothing comes. Nothing else in them is different but the two numbers that count call entries.
-/

namespace TokenGrammar

namespace Tables

/-- What comes after a position, which is nothing for what is no node. -/
def successorsAt (t : Tables) (i : Nat) : List Nat := (t.rows[i]?.map (·.successors)).getD []

/-- A row without the call entries after whose continuation nothing comes. -/
def prunedRow (t : Tables) (row : Row) : Row :=
  { row with entries := row.entries.filter fun e => !(t.successorsAt e.cont).isEmpty }

def countEntries (rows : List Row) : Nat := (rows.flatMap (·.entries)).length

def pruned (t : Tables) : Tables :=
  let stored := countEntries (t.rows.toList.map t.prunedRow)
  { t with
    rows := t.rows.map t.prunedRow
    stats :=
      { t.stats with
        callEntries := stored
        prunedCallEntries := t.stats.callEntries - stored } }

theorem countEntries_pruned_le (t : Tables) (rows : List Row) :
    countEntries (rows.map t.prunedRow) ≤ countEntries rows := by
  induction rows with
  | nil => exact Nat.le_refl _
  | cons row rows ih =>
    have hrow := List.length_filter_le (fun e => !(t.successorsAt e.cont).isEmpty) row.entries
    simp only [countEntries, List.map_cons, List.flatMap_cons, List.length_append] at ih ⊢
    exact Nat.add_le_add hrow ih

end Tables

private theorem flatMap_range {α : Type} {m : NatMap CallSet} {n : Nat} (h : ∀ i ∈ m, i < n)
    (f : CallSet → List α) (hf : f .empty = []) :
    (List.range n).flatMap (fun i => f (m[i]?.getD .empty)) = m.toList.flatMap fun x => f x.2 := by
  have hkeys : (List.range n).filter (fun i => decide (i ∈ m)) = m.keys := by
    have hl : ((List.range n).filter fun i => decide (i ∈ m)).Pairwise (· < ·) :=
      List.pairwise_lt_range.filter _
    have hr : m.keys.Pairwise (· < ·) :=
      Std.ExtTreeMap.ordered_keys.imp fun h => Nat.compare_eq_lt.1 h
    refine congrArg AscSet.toList (AscSet.ext_mem (s := ⟨_, hl⟩) (t := ⟨_, hr⟩) fun i => ?_)
    show i ∈ List.filter _ _ ↔ i ∈ m.keys
    rw [List.mem_filter, List.mem_range, decide_eq_true_eq, Std.ExtTreeMap.mem_keys]
    exact ⟨fun h => h.2, fun hm => ⟨h i hm, hm⟩⟩
  have hskip : ∀ is : List Nat, is.flatMap (fun i => f (m[i]?.getD .empty)) =
      (is.filter fun i => decide (i ∈ m)).flatMap fun i => f (m[i]?.getD .empty) := by
    intro is
    induction is with
    | nil => rfl
    | cons i is ih =>
      rw [List.flatMap_cons, ih, List.filter_cons]
      split
      · rw [List.flatMap_cons]
      · rename_i hi
        rw [Std.ExtTreeMap.getElem?_eq_none (by simpa using hi), Option.getD_none, hf,
          List.nil_append]
  rw [hskip, hkeys, ← Std.ExtTreeMap.map_fst_toList_eq_keys, List.flatMap_map, List.flatMap_def,
    List.flatMap_def]
  refine congrArg List.flatten (List.map_congr_left fun x hx => ?_)
  rw [Std.ExtTreeMap.mem_toList_iff_getElem?_eq_some.1 hx]
  rfl

namespace Grammar.Valid

variable {g : Grammar} (hg : g.Valid) {n i : Nat}
include hg

private theorem owns_of_mem_callSets (h : i ∈ (g.findings n).callSets) :
    ∃ k, g.Uses k ∧ g.Owns k i := by
  rw [Std.ExtTreeMap.mem_iff_isSome_getElem?, getElem?_callSets] at h
  split at h
  · rename_i hm
    obtain ⟨k, hk, hp, -⟩ := hg.owns_of_mem_callSites hm
    exact ⟨k, hk, hp⟩
  · cases h

theorem cont_lt {e : CallEntry} (he : e ∈ (g.findings n).callSet i) :
    e.cont < g.nodes.size := by
  rw [Findings.callSet, getElem?_callSets] at he
  split at he
  · exact (hg.mem_callSetAt_iff.1 he).cont_lt
  · exact absurd he (AscSet.not_mem_empty e)

omit hg in
theorem successorsAt_findings {j : Nat} (hj : j < g.nodes.size) (prune : Bool) :
    ((g.findings n).tables g prune).successorsAt j =
      (g.findings n).successors g ((g.findings n).follow g) j := by
  simp [Tables.successorsAt, Findings.tables, Findings.row, hj]

/-- The rows with pruning are the pruned rows. -/
private theorem rows_pruned (n : Nat) : (List.range g.nodes.size).map
      ((g.findings n).row g ((g.findings n).follow g) (g.findings n).tails true) =
    ((List.range g.nodes.size).map
      ((g.findings n).row g ((g.findings n).follow g) (g.findings n).tails false)).map
        ((g.findings n).tables g false).prunedRow := by
  rw [List.map_map]
  refine List.map_congr_left fun i _ => ?_
  have hentries : (((g.findings n).callSet i).filter fun e =>
      !((g.findings n).successors g ((g.findings n).follow g) e.cont).isEmpty).toList =
        ((g.findings n).callSet i).toList.filter fun e =>
          !(((g.findings n).tables g false).successorsAt e.cont).isEmpty := by
    refine List.filter_congr fun e he => ?_
    rw [successorsAt_findings (hg.cont_lt (AscSet.mem_def.2 he))]
  show Row.mk .. = Row.mk ..
  simp only [Findings.row, if_true, Bool.false_eq_true, if_false, hentries]

private theorem countEntries_full (n : Nat) : Tables.countEntries ((List.range g.nodes.size).map
      ((g.findings n).row g ((g.findings n).follow g) (g.findings n).tails false)) =
    ((g.findings n).callSets.toList.flatMap (·.2.toList)).length := by
  have hlt : ∀ i ∈ (g.findings n).callSets, i < g.nodes.size := by
    intro i hi
    obtain ⟨k, -, hp⟩ := hg.owns_of_mem_callSets hi
    exact hg.lt_of_owns hp
  rw [Tables.countEntries, List.flatMap_map, ← flatMap_range hlt AscSet.toList rfl]
  rfl

omit hg in
private theorem tables_ext {t t' : Tables} (hgr : t.grammar = t'.grammar) (hru : t.rules = t'.rules)
    (hro : t.rows = t'.rows) (hrf : t.ruleFirsts = t'.ruleFirsts)
    (hfi : t.rootFirsts = t'.rootFirsts) (hnu : t.rootNullable = t'.rootNullable)
    (hst : t.stats = t'.stats) : t = t' := by
  cases t
  cases t'
  simp_all

/-- Building the tables with pruning is pruning the tables built without it. -/
theorem tables_pruned (n : Nat) :
    (g.findings n).tables g true = ((g.findings n).tables g false).pruned := by
  have hrows := hg.rows_pruned n
  have hstored : (((List.range g.nodes.size).map ((g.findings n).row g ((g.findings n).follow g)
      (g.findings n).tails true)).flatMap (·.entries)).length =
      ((g.findings n).tables g false).pruned.stats.callEntries := by
    rw [hrows]
    rfl
  apply tables_ext
  case hro =>
    show List.toArray (List.map _ _) = Array.map _ (List.toArray _)
    rw [hrows, List.map_toArray]
  case hst =>
    show TableStats.mk .. = TableStats.mk ..
    congr 1
    · show (List.flatMap _ (List.map _ _)).length = (List.flatMap _ (List.map _ _)).length
      rw [List.flatMap_map, List.flatMap_map]
      rfl
    · show _ - _ = _ - _
      rw [hstored, ← hg.countEntries_full n]
      rfl
  all_goals rfl

omit hg in
theorem callEntries_pruned (n : Nat) :
    ((g.findings n).tables g false).pruned.stats.callEntries +
      ((g.findings n).tables g false).pruned.stats.prunedCallEntries =
        ((g.findings n).tables g false).stats.callEntries := by
  have hle : ((g.findings n).tables g false).pruned.stats.callEntries ≤
      ((g.findings n).tables g false).stats.callEntries := Tables.countEntries_pruned_le _ _
  exact Nat.add_sub_of_le hle

end Grammar.Valid

end TokenGrammar
