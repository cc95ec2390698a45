import TokenGrammar.Tables.Compile
import TokenGrammar.Proofs.Queries

/-!
# What the analysis finds about a grammar

The findings from which the tables are laid out are the closed forms for the root and for the bodies
of the rules that the root leads to. They do not depend on the options.
-/

namespace TokenGrammar

namespace Follow

variable {p q : Nat}

private theorem mem_foldl_modify (ps : List Nat) (s s' : PosSet) (found : Array (List PosSet)) :
    (∃ ss, (ps.foldl (fun found p => found.modify p (s' :: ·)) found)[p]? = some ss ∧ s ∈ ss) ↔
      (∃ ss, found[p]? = some ss ∧ s ∈ ss) ∨ p < found.size ∧ p ∈ ps ∧ s = s' := by
  induction ps generalizing found with
  | nil => simp
  | cons r ps ih =>
    have hr : (∃ ss, (found.modify r (s' :: ·))[p]? = some ss ∧ s ∈ ss) ↔
        (∃ ss, found[p]? = some ss ∧ s ∈ ss) ∨ p < found.size ∧ p = r ∧ s = s' := by
      rw [Array.getElem?_modify]
      by_cases hrp : r = p
      · subst hrp
        by_cases hlt : r < found.size
        · simp [hlt]
          exact or_comm
        · simp [hlt]
      · simp [hrp, Ne.symm hrp]
    rw [List.foldl_cons, ih, hr, Array.size_modify, or_assoc, ← and_or_left, ← or_and_right,
      List.mem_cons]

private theorem mem_collect {size : Nat} {s : PosSet} (joints : List Joint) :
    (∃ ss, (collect size joints)[p]? = some ss ∧ s ∈ ss) ↔
      p < size ∧ ∃ j ∈ joints, p ∈ j.lasts ∧ s = j.firsts := by
  have h : ∀ found : Array (List PosSet), found.size = size →
      ((∃ ss, (joints.foldl (fun found j => j.lasts.toList.foldl
          (fun found p => found.modify p (j.firsts :: ·)) found) found)[p]? = some ss ∧ s ∈ ss) ↔
        (∃ ss, found[p]? = some ss ∧ s ∈ ss) ∨
          p < size ∧ ∃ j ∈ joints, p ∈ j.lasts ∧ s = j.firsts) := by
    induction joints with
    | nil => simp
    | cons j joints ih =>
      intro found hsize
      have hsize' : (j.lasts.toList.foldl (fun found p => found.modify p (j.firsts :: ·))
          found).size = size := by
        rw [← hsize]
        generalize j.lasts.toList = ps
        induction ps generalizing found with
        | nil => rfl
        | cons r ps ih => rw [List.foldl_cons, ih _ ((Array.size_modify ..).trans hsize),
            Array.size_modify]
      rw [List.foldl_cons, ih _ hsize', mem_foldl_modify, hsize, or_assoc, ← and_or_left]
      simp [AscSet.mem_def]
  rw [collect, h _ (by simp)]
  simp [Array.getElem?_replicate]

theorem mem_after_ofJoints {size : Nat} {joints : List Joint} :
    q ∈ (ofJoints size joints).after p ↔
      p < size ∧ ∃ j ∈ joints, p ∈ j.lasts ∧ q ∈ j.firsts := by
  have h : q ∈ (ofJoints size joints).after p ↔
      ∃ s, (∃ ss, (collect size joints)[p]? = some ss ∧ s ∈ ss) ∧ q ∈ s := by
    rw [after, ofJoints, Array.getElem?_map]
    cases (collect size joints)[p]? <;> simp
  rw [h]
  simp only [mem_collect]
  constructor
  · rintro ⟨s, ⟨hlt, j, hj, hp, rfl⟩, hq⟩
    exact ⟨hlt, j, hj, hp, hq⟩
  · rintro ⟨hlt, j, hj, hp, hq⟩
    exact ⟨j.firsts, ⟨hlt, j, hj, hp, rfl⟩, hq⟩

end Follow

namespace Grammar

variable {g : Grammar}

/-- What there is to find about a tree. -/
noncomputable def surveyOf (g : Grammar) (e : Expr) : Survey :=
  ⟨e.positions, e.jointList g.emptyAt, e.firstSet g.emptyAt, e.lastSet g.emptyAt⟩

noncomputable def usedRules (g : Grammar) : RuleSet := g.root.leadsTo g.rulesFrom

def bodyOf (g : Grammar) (r : Nat) : Expr := (g.top? (some r)).getD g.root

/-- The call sites in some trees, in the order of the trees. -/
def callSites (surveys : List Survey) : List Expr :=
  (surveys.flatMap (·.positions)).filter (·.isCall)

noncomputable def usedSurveys (g : Grammar) : List Survey :=
  g.usedRules.toList.map (fun r => g.surveyOf (g.bodyOf r)) ++ [g.surveyOf g.root]

/-- Everything that the tables are made from, with the number of rounds that it took. -/
noncomputable def findings (g : Grammar) (rounds : Nat) : Findings where
  rules := g.usedRules
  bodies := g.usedRules.toList.map fun r => (r, g.surveyOf (g.bodyOf r))
  root := g.surveyOf g.root
  rootNullable := g.root.nullable g.emptyAt
  callSets := (callSites g.usedSurveys).foldl
    (fun m e => m.insert e.ref.index (g.callSetAt e.ref.index)) ∅
  rounds

theorem surveys_findings (n : Nat) : (g.findings n).surveys = g.usedSurveys := by
  rw [Findings.surveys, findings, usedSurveys, List.map_map]
  rfl

/-- The least solution of the equations is where the chains of calls lead. -/
theorem Valid.mem_leadsTo_rulesFrom_iff (hg : g.Valid) {e : Expr} {r : Nat} (h : g.Stores e) :
    r ∈ e.leadsTo g.rulesFrom ↔ g.LeadsTo e r := by
  rw [hg.mem_leadsTo_iff h]
  simp only [hg.mem_rulesFrom_iff, LeadsTo]

theorem Valid.mem_usedRules_iff (hg : g.Valid) {r : Nat} :
    r ∈ g.usedRules ↔ g.LeadsTo g.root r :=
  hg.mem_leadsTo_rulesFrom_iff (hg.stores_top (show g.top? none = _ from rfl))

theorem WellFormed.top_of_leadsTo (hg : g.WellFormed) {e : Expr} {r : Nat}
    (h : g.LeadsTo e r) : g.top? (some r) = some (g.bodyOf r) := by
  obtain ⟨k, -, a, ha, hr⟩ := h
  obtain ⟨b, hb⟩ := WellFormed.top_of_lt (hg.lt_of_chain (hg.calleeAt_lt ha) hr)
  rw [bodyOf, hb]
  rfl

end Grammar

namespace Analysis

variable {g : Grammar} {hg : g.Valid}

private theorem answers_of_positions {e : Expr} {s : Survey} {next : List Expr → AnalysisM Survey}
    (h : g.Stores e) (hn : Answers hg (next e.positions) s) :
    Answers hg (do next (← (← get).grammar.positions e)) s := by
  intro a ha
  obtain ⟨a', hs, ha'⟩ := hn a ha
  refine ⟨a', ?_, ha'⟩
  rw [run_bind (show (get : AnalysisM Analysis) a = .ok (a, a) from rfl), ha.grammar,
    run_bind (run_lift (hg.positions_ok h)), hs]

theorem answers_ofBody {e : Expr} (h : g.Stores e) :
    Answers hg (Survey.ofBody e) (g.surveyOf e) :=
  answers_of_positions h
    ((answers_joints h).bind ((answers_firsts h).bind ((answers_lasts h).bind (.pure _))))

theorem answers_ofRoot {e : Expr} (h : g.Stores e) :
    Answers hg (Survey.ofRoot e) (g.surveyOf e) :=
  answers_of_positions h
    ((answers_joints h).bind ((answers_lasts h).bind ((answers_firsts h).bind (.pure _))))

private theorem answers_bodies : Answers hg
    (g.usedRules.toList.mapM fun r => do return (r, ← Survey.ofBody (← g.rule r).body))
    (g.usedRules.toList.map fun r => (r, g.surveyOf (g.bodyOf r))) := by
  refine Yields.mapM fun r hr => ?_
  have hb := hg.top_of_leadsTo (hg.mem_usedRules_iff.1 hr)
  obtain ⟨d, hd, hbody⟩ := Option.map_eq_some_iff.1 hb
  have hrule : g.rule r = .ok d := by
    rw [Grammar.rule, hd]
    rfl
  rw [← hbody]
  exact (Yields.lift hrule).bind ((answers_ofBody (hbody ▸ hg.stores_top hb)).bind (.pure _))

private theorem stores_of_survey (hg : g.Valid) {s : Survey} {x : Expr} (hs : s ∈ g.usedSurveys)
    (hx : x ∈ s.positions) : g.Stores x := by
  rcases List.mem_append.1 hs with hs | hs
  · obtain ⟨r, hr, rfl⟩ := List.mem_map.1 hs
    exact hg.stores_position (hg.stores_top (hg.top_of_leadsTo (hg.mem_usedRules_iff.1 hr))) hx
  · obtain rfl := List.mem_singleton.1 hs
    exact hg.stores_position (hg.stores_top (show g.top? none = some g.root from rfl)) hx

private theorem answers_callSites (m : NatMap CallSet) : Answers hg
    ((Grammar.callSites g.usedSurveys).foldlM
      (fun m e => do return m.insert e.ref.index (← callSetAt e.ref.index)) m)
    ((Grammar.callSites g.usedSurveys).foldl
      (fun m e => m.insert e.ref.index (g.callSetAt e.ref.index)) m) := by
  refine Yields.foldlM (fun e he m => ?_) m
  obtain ⟨hp, hc⟩ := List.mem_filter.1 he
  obtain ⟨s, hs, hp⟩ := List.mem_flatMap.1 hp
  exact (answers_callSetAt ((stores_of_survey hg hs hp).mem_callKeys hc)).bind (.pure _)

/-- What is collected does not depend on what has been asked before, but for the rounds. -/
theorem collect_ok {a : Analysis} (ha : Steady hg a) :
    ∃ a', Findings.collect a = .ok (g.findings a'.rounds, a') := by
  have hroot := hg.stores_top (show g.top? none = some g.root from rfl)
  have hget : ∀ a : Analysis, (get : AnalysisM Analysis) a = .ok (a, a) := fun _ => rfl
  have hgr := ha.grammar
  obtain ⟨a₁, h₁, ha₁⟩ := answers_reachable hroot a ha
  obtain ⟨a₂, h₂, ha₂⟩ := answers_bodies a₁ ha₁
  obtain ⟨a₃, h₃, ha₃⟩ := answers_ofRoot hroot a₂ ha₂
  obtain ⟨a₄, h₄, ha₄⟩ := answers_nullable hroot a₃ ha₃
  obtain ⟨a₅, h₅, -⟩ := answers_callSites ∅ a₄ ha₄
  refine ⟨a₅, ?_⟩
  rw [Findings.collect, run_bind (hget a), hgr]
  refine (run_bind h₁).trans ((run_bind h₂).trans ((run_bind h₃).trans ((run_bind h₄).trans ?_)))
  simp only [List.map_map]
  exact (run_bind h₅).trans (run_bind (hget a₅))

end Analysis

end TokenGrammar
