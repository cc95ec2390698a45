import TokenGrammar.Analysis.Queries
import TokenGrammar.Proofs.CallSets
import TokenGrammar.Proofs.Reachability

/-!
# What an analysis answers

Whatever an analysis has been asked before, it answers a question about a node of a valid grammar
with the same value, which is given by the closed forms. No such question fails.
-/

namespace TokenGrammar.Analysis

variable {g : Grammar} {hg : g.Valid}

/-- The states that an analysis of a grammar can be in between two questions. -/
structure Steady (hg : g.Valid) (a : Analysis) : Prop where
  grammar : a.grammar = g
  positions : Grammar.Remembers hg a.positions
  reachables : hg.reachables.Idle a.reachables
  callSets : hg.callSets.Idle a.callSets

/-- A question that gets the same answer in every steady state. -/
abbrev Answers (hg : g.Valid) {α : Type} (act : AnalysisM α) (x : α) : Prop :=
  Yields (Steady hg) act x

theorem start_ok (hg : g.Valid) : ∃ a, start g = .ok a ∧ Steady hg a := by
  refine ⟨⟨g, .new, .new .empty, .new .empty⟩, ok_bind hg.validate_ok, rfl,
    Grammar.remembers_new, ?_, ?_⟩
  · exact System.Solution.idle_new
  · exact System.Solution.idle_new

private theorem answers_of_finds {α : Type} (act : Grammar → PositionM α) {ask : AnalysisM α}
    {x : α} (h : Grammar.Finds hg (act g) x)
    (he : ∀ a : Analysis, ask a = (act a.grammar a.positions).bind fun p =>
      .ok (p.1, { a with positions := p.2 })) : Answers hg ask x := by
  intro a ha
  obtain ⟨m, hm, hr⟩ := h a.positions ha.positions
  refine ⟨{ a with positions := m }, ?_, ha.grammar, hr, ha.reachables, ha.callSets⟩
  rw [he, ha.grammar, hm]
  rfl

variable {e : Expr}

theorem answers_nullable (h : g.Stores e) : Answers hg (nullable e) (e.nullable g.emptyAt) :=
  answers_of_finds (·.nullable e) (Grammar.admits_remembers.nullable h) fun _ => rfl

theorem answers_firsts (h : g.Stores e) : Answers hg (firsts e) (e.firstSet g.emptyAt) :=
  answers_of_finds (·.firsts e) (Grammar.admits_remembers.firsts h) fun _ => rfl

theorem answers_lasts (h : g.Stores e) : Answers hg (lasts e) (e.lastSet g.emptyAt) :=
  answers_of_finds (·.lasts e) (Grammar.admits_remembers.lasts h) fun _ => rfl

theorem answers_joints (h : g.Stores e) : Answers hg (joints e) (e.jointList g.emptyAt) :=
  answers_of_finds (·.joints e) (Grammar.admits_remembers.joints h) fun _ => rfl

theorem Steady.follow_ok {a a' : Analysis} (ha : Steady hg a) (h : g.Stores e)
    (hj : joints e a = .ok (e.jointList g.emptyAt, a')) :
    follow e a = .ok (.ofJoints g.nodes.size (e.jointList g.emptyAt), a') := by
  have hnodes : g.requireNodes ((e.jointList g.emptyAt).flatMap (·.lasts.toList)) = .ok () := by
    refine Grammar.requireNodes_ok fun i hi => ?_
    obtain ⟨j, hj, hi⟩ := List.mem_flatMap.1 hi
    exact hg.lt_of_mem_indices h (Expr.mem_indices_of_joint hj (AscSet.mem_def.2 hi))
  rw [follow, run_bind (show (get : AnalysisM Analysis) a = .ok (a, a) from rfl), run_bind hj,
    ha.grammar, run_bind (run_lift hnodes)]
  rfl

theorem answers_follow (h : g.Stores e) :
    Answers hg (follow e) (.ofJoints g.nodes.size (e.jointList g.emptyAt)) := by
  intro a ha
  have hq : Answers hg (joints e) (e.jointList g.emptyAt) := answers_joints h
  obtain ⟨a', hj, ha'⟩ := hq a ha
  exact ⟨a', ha.follow_ok h hj, ha'⟩

theorem reachable_ok {a : Analysis} (ha : Steady hg a) (h : g.Stores e) :
    ∃ m, reachable e a = .ok (e.leadsTo g.rulesFrom, { a with reachables := m }) ∧
      hg.reachables.Idle m ∧ g.reachableSystem.Computations ((), a.reachables) ((), m) := by
  have hq := hg.reachableEquation_ok h
  have hcongr : ∀ f f' : Nat → RuleSet, (∀ k ∈ e.calls, f k = f' k) →
      e.leadsTo f = e.leadsTo f' := by
    intro f f' hff
    refine AscSet.ext_mem fun r => ?_
    rw [hg.mem_leadsTo_iff h, hg.mem_leadsTo_iff h]
    exact exists_congr fun k => and_congr_right fun hk => by rw [hff k hk]
  obtain ⟨⟨⟩, m, hs, -, hi, hc⟩ :=
    hg.reachables.solveIn_ok ⟨e.calls, fun calls => e.leadsTo calls⟩ (hg.calls_mem h) hcongr
      trivial ha.reachables
  refine ⟨m, ?_, hi, hc⟩
  show (a.grammar.reachableEquation e >>= fun q =>
    a.grammar.reachableSystem.solveIn q ((), a.reachables) >>= fun p =>
      Except.ok (p.1, { a with reachables := p.2.2 })) = _
  rw [ha.grammar, ok_bind hq, ok_bind hs]
  rfl

theorem answers_reachable (h : g.Stores e) : Answers hg (reachable e) (e.leadsTo g.rulesFrom) := by
  intro a ha
  obtain ⟨m, hr, hi, -⟩ := reachable_ok ha h
  exact ⟨_, hr, ha.grammar, ha.positions, hi, ha.callSets⟩

theorem answers_callSetAt {k : Nat} (hk : k ∈ g.callKeys) :
    Answers hg (callSetAt k) (g.callSetAt k) := by
  intro a ha
  obtain ⟨p, c, hs, hp, hc, -⟩ := System.Solution.solve_ok (S := hg.callSets) hk ha.positions
    ha.callSets
  refine ⟨{ a with positions := p, callSets := c }, ?_, ha.grammar, hp, ha.reachables, hc⟩
  show (a.grammar.callSystem.solve k (a.positions, a.callSets) >>= fun p =>
    Except.ok (p.1, { a with positions := p.2.1, callSets := p.2.2 })) = _
  rw [ha.grammar, ok_bind hs]
  rfl

theorem answers_callSet (h : g.Stores e) (hc : e.isCall = true) :
    Answers hg (callSet e) (g.callSetAt e.ref.index) := by
  rw [callSet, if_pos hc]
  exact answers_callSetAt (h.mem_callKeys hc)

/-- A node that is no call has no call set, which is said without touching the analysis. -/
theorem callSet_of_not_call (hc : e.isCall = false) (a : Analysis) :
    callSet e a = .error (.refusal (.notACall (a.grammar.print e))) := by
  rw [callSet, hc]
  rfl

end TokenGrammar.Analysis
