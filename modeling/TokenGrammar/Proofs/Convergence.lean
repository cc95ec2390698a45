import TokenGrammar.Proofs.ClosedForms

/-!
# What the memo tables come to

The nullable calls, the rules that calls lead to and the call sets each have a memo table. Between
two questions no table has a computation under way, and every settled key has its component of the
least solution of the equations. A question computes keys that are not settled, in rounds of which
each but the last moves some value up; what is settled is never computed again.
-/

namespace TokenGrammar

/-- The least of all solutions of equations, one for each key. -/
structure LeastSolution {ν : Type} [PartialOrder ν] (keys : Finset Nat) (equation : Nat → Equation ν)
    (value : Nat → ν) : Prop where
  reads_mem : ∀ k ∈ keys, ∀ r ∈ (equation k).reads, r ∈ keys
  solves : ∀ k ∈ keys, (equation k).value value = value k
  least : ∀ f : Nat → ν, (∀ k ∈ keys, (equation k).value f = f k) → ∀ k ∈ keys, value k ≤ f k

/-- A memo table with no computation under way, in which the settled keys have their final values and
no key is above its own. -/
structure Memo.Rests {ν : Type} [PartialOrder ν] (m : Memo ν) (keys : Finset Nat)
    (value : Nat → ν) : Prop where
  depth : m.depth = 0
  visited : ∀ k, k ∉ m.visited
  changed : m.changed = false
  settled : ∀ k ∈ m.settled, k ∈ keys ∧ m.value k = value k
  below : ∀ k ∈ keys, m.value k ≤ value k

namespace System.Solution

variable {σ ν : Type} [PartialOrder ν] [OrderBot ν] {sys : System σ ν}

theorem leastSolution (S : Solution sys) : LeastSolution S.keys S.equation S.value where
  reads_mem := S.reads_mem
  solves := S.solves
  least f hf := S.least (· ∈ S.keys) f (fun _ h => h) S.reads_mem hf

theorem Idle.rests {S : Solution sys} {m : Memo ν} (h : S.Idle m) : m.Rests S.keys S.value where
  depth := h.depth
  visited := h.visited
  changed := h.changed
  settled k hk := ⟨h.settled_mem k hk, h.settled_value k hk⟩
  below := h.below

/-- The same solution, for fewer states that are still enough to find the equations. -/
def inStates (S : Solution sys) (good : σ → Prop)
    (found : ∀ k ∈ S.keys, Yields good (sys.equation k) (S.equation k)) : Solution sys :=
  { S with good, found }

theorem Idle.inStates {S : Solution sys} {m : Memo ν} (h : S.Idle m) {good : σ → Prop}
    (found : ∀ k ∈ S.keys, Yields good (sys.equation k) (S.equation k)) :
    (S.inStates good found).Idle m :=
  ⟨⟨h.bottom, h.present, h.visited_mem, h.settled_mem, h.settled_reads, h.settled_value, h.below,
    h.growing⟩, h.depth, h.visited, h.changed⟩

end System.Solution

open Grammar (Admits Remembers)

namespace Analysis

variable {g : Grammar} {hg : g.Valid} {a a' : Analysis} {e : Expr}

/-- What happens to the memo tables: keys are computed. -/
structure Computes (g : Grammar) (a a' : Analysis) : Prop where
  nullables : g.nullableSystem.Computations ((), a.positions.nullables) ((), a'.positions.nullables)
  reachables : g.reachableSystem.Computations ((), a.reachables) ((), a'.reachables)
  callSets : a'.callSets = a.callSets ∨
    g.callSystem.Computations (a.positions, a.callSets) (a'.positions, a'.callSets)

theorem admits_computations (n : Memo Bool) : Admits hg fun m =>
    Remembers hg m ∧ g.nullableSystem.Computations ((), n) ((), m.nullables) where
  remembers _ h := h.1
  keep m m' h hr hn := ⟨hr, hn ▸ h.2⟩
  call k hk m hm := by
    obtain ⟨⟨⟩, n', hs, -, hi, -, hc⟩ :=
      System.Solution.solve_ok (S := hg.nullables) hk trivial hm.1.nullables
    exact ⟨{ m with nullables := n' }, ok_bind hs,
      ⟨hi, hm.1.nullable, hm.1.firsts, hm.1.lasts⟩, hm.2.trans hc⟩

private theorem computes_of_finds {α : Type} (act : Grammar → PositionM α) {ask : AnalysisM α} {x : α}
    (h : ∀ Inv, Admits hg Inv → Yields Inv (act g) x)
    (he : ∀ a : Analysis, ask a = (act a.grammar a.positions).bind fun p =>
      .ok (p.1, { a with positions := p.2 }))
    (ha : Steady hg a) (hq : discard ask a = .ok ((), a')) : Computes g a a' := by
  obtain ⟨m, hm, -, hc⟩ := h _ (admits_computations a.positions.nullables) a.positions
    ⟨ha.positions, .refl⟩
  have hrun : ask a = .ok (x, { a with positions := m }) := by
    rw [he, ha.grammar, hm]
    rfl
  obtain ⟨-, rfl⟩ := Prod.mk.inj (Except.ok.inj (hq.symm.trans (run_discard hrun)))
  exact ⟨hc, .refl, .inl rfl⟩

private theorem computes_of_callSet (ha : Steady hg a) (he : g.Stores e) (hc : e.isCall = true)
    (hq : discard (callSet e) a = .ok ((), a')) : Computes g a a' := by
  have hadmits : Admits hg fun m => Remembers hg m ∧
      g.nullableSystem.Computations ((), a.positions.nullables) ((), m.nullables) :=
    admits_computations a.positions.nullables
  -- the inner questions are asked in states that are reached from the present one
  obtain ⟨p, c, hs, hp, -, -, hcalls⟩ := System.Solution.solve_ok
    (S := hg.callSets.inStates _ fun k hk => hadmits.callEquation hk) (he.mem_callKeys hc)
    ⟨ha.positions, .refl⟩ (ha.callSets.inStates _)
  have hrun : callSetAt e.ref.index a =
      .ok (g.callSetAt e.ref.index, { a with positions := p, callSets := c }) := by
    show (a.grammar.callSystem.solve e.ref.index (a.positions, a.callSets) >>= fun p =>
      Except.ok (p.1, { a with positions := p.2.1, callSets := p.2.2 })) = _
    rw [ha.grammar, ok_bind hs]
    rfl
  rw [callSet, if_pos hc, run_discard hrun] at hq
  obtain ⟨-, rfl⟩ := Prod.mk.inj (Except.ok.inj hq)
  exact ⟨hp.2, .refl, .inr hcalls⟩

theorem Steady.computes (ha : Steady hg a) (he : g.Stores e) {q : Query}
    (hq : q.ask e a = .ok ((), a')) : Computes g a a' := by
  cases q with
  | nullable =>
    exact computes_of_finds (·.nullable e) (fun _ hI => hI.nullable he) (fun _ => rfl) ha hq
  | firsts => exact computes_of_finds (·.firsts e) (fun _ hI => hI.firsts he) (fun _ => rfl) ha hq
  | lasts => exact computes_of_finds (·.lasts e) (fun _ hI => hI.lasts he) (fun _ => rfl) ha hq
  | joints => exact computes_of_finds (·.joints e) (fun _ hI => hI.joints he) (fun _ => rfl) ha hq
  | follow =>
    have hanswers : Answers hg (joints e) (e.jointList g.emptyAt) := answers_joints he
    obtain ⟨a₁, hj, -⟩ := hanswers a ha
    have hf := run_discard (ha.follow_ok he hj)
    obtain ⟨-, rfl⟩ := Prod.mk.inj (Except.ok.inj (hq.symm.trans hf))
    exact computes_of_finds (·.joints e) (fun _ hI => hI.joints he) (fun _ => rfl) ha
      (run_discard hj)
  | reachable =>
    obtain ⟨m, hr, -, hc⟩ := reachable_ok ha he
    obtain ⟨-, rfl⟩ := Prod.mk.inj (Except.ok.inj (hq.symm.trans (run_discard hr)))
    exact ⟨.refl, hc, .inl rfl⟩
  | callSet =>
    cases hc : e.isCall with
    | true => exact computes_of_callSet ha he hc hq
    | false =>
      rw [show Query.callSet.ask e a = (callSet e a >>= fun p => Except.ok ((), p.2)) from rfl,
        callSet_of_not_call hc] at hq
      cases hq

/-- One question is answered. -/
def Asks (g : Grammar) (a a' : Analysis) : Prop :=
  ∃ (i : Nat) (e : Expr) (q : Query), g.nodes[i]? = some e ∧ q.ask e a = .ok ((), a')

/-- The memo table of a system with one equation for each call of a grammar converges to the least
solution of the equations. -/
structure Converges {σ ν : Type} [PartialOrder ν] [DecidableEq ν] (g : Grammar) (sys : System σ ν)
    (state : Analysis → σ) (memo : Analysis → Memo ν) (answer : Expr → AnalysisM ν)
    (equation : Nat → Equation ν) (value : Nat → ν) : Prop where
  /-- The equations are those that the system has. -/
  finds : ∀ a, Asked g a → ∀ k ∈ g.callKeys, ∃ s, sys.equation k (state a) = .ok (equation k, s)
  least : LeastSolution g.callKeys equation value
  rests : ∀ a, Asked g a → (memo a).Rests g.callKeys value
  /-- A question changes the table by rounds, and moves no value down. -/
  computes : ∀ a a', Asked g a → Asks g a a' →
    (memo a' = memo a ∨ sys.Computations (state a, memo a) (state a', memo a')) ∧
      ∀ k, (memo a).value k ≤ (memo a').value k
  /-- What is settled remains so, with its value, through all questions to come. -/
  kept : ∀ a a', Asked g a → Relation.ReflTransGen (Asks g) a a' →
    ∀ k ∈ (memo a).settled, k ∈ (memo a').settled ∧ (memo a').value k = (memo a).value k
  /-- Every call gets its component of the least solution as the answer, and is settled then. -/
  answers : ∀ a, Asked g a → ∀ (k : Nat) (e : Expr), g.nodes[k]? = some e → e.isCall = true →
    ∃ a', answer e a = .ok (value k, a') ∧ k ∈ (memo a').settled
  /-- Asking for a call that is settled changes nothing, in this table or another. -/
  settled : ∀ a, Asked g a → ∀ (k : Nat) (e : Expr), g.nodes[k]? = some e →
    k ∈ (memo a).settled → answer e a = .ok (value k, a)

theorem Asked.asks (h : Asked g a) (hs : Relation.ReflTransGen (Asks g) a a') : Asked g a' := by
  induction hs with
  | refl => exact h
  | tail _ hs ih =>
    obtain ⟨i, e, q, he, hq⟩ := hs
    exact ih.next q he hq

variable (hg) in
/-- A table converges when each steady state has it idle, questions compute keys of it, and asking
for a call is solving for its key. -/
theorem converges_of_solution {σ ν : Type} [PartialOrder ν] [OrderBot ν] [DecidableEq ν]
    {sys : System σ ν} (S : System.Solution sys) (hkeys : S.keys = g.callKeys)
    {state : Analysis → σ} {memo : Analysis → Memo ν} {answer : Expr → AnalysisM ν}
    (put : Analysis → σ → Memo ν → Analysis) (hput : ∀ a, put a (state a) (memo a) = a)
    (hmemo : ∀ a s m, memo (put a s m) = m)
    (hidle : ∀ a, Steady hg a → S.good (state a) ∧ S.Idle (memo a))
    (hcomputes : ∀ a a', Computes g a a' →
      memo a' = memo a ∨ sys.Computations (state a, memo a) (state a', memo a'))
    (hsolve : ∀ a e s m, Steady hg a → g.Stores e → e.isCall = true →
      sys.solve e.ref.index (state a, memo a) = .ok (m.value e.ref.index, (s, m)) →
        answer e a = .ok (m.value e.ref.index, put a s m)) :
    Converges g sys state memo answer S.equation S.value := by
  have hstep : ∀ a a', Asked g a → Asks g a a' →
      memo a' = memo a ∨ sys.Computations (state a, memo a) (state a', memo a') := by
    rintro a a' ha ⟨i, e, q, he, hq⟩
    exact hcomputes a a' ((ha.steady hg).computes (hg.stores he) hq)
  refine
    { finds := fun a ha k hk => ?_, least := hkeys ▸ S.leastSolution, rests := fun a ha => ?_,
      computes := fun a a' ha hs => ⟨hstep a a' ha hs, fun k => ?_⟩, kept := fun a a' ha hs => ?_,
      answers := fun a ha k e he hc => ?_, settled := fun a ha k e he hk => ?_ }
  · obtain ⟨s, hs, -⟩ := S.found k (hkeys ▸ hk) (state a) (hidle a (ha.steady hg)).1
    exact ⟨s, hs⟩
  · exact hkeys ▸ (hidle a (ha.steady hg)).2.rests
  · -- a question leaves the table alone or computes keys of it, and neither lowers a value
    rcases hstep a a' ha hs with h | h
    · rw [h]
    · exact h.value_le k
  · induction hs with
    | refl => exact fun k hk => ⟨hk, rfl⟩
    | tail hs h ih =>
      intro k hk
      obtain ⟨hk', hv⟩ := ih k hk
      rcases hstep _ _ (ha.asks hs) h with h | h
      · rw [h]
        exact ⟨hk', hv⟩
      · exact (h.kept k hk').imp_right (·.trans hv)
  · have hst := hg.stores he
    have hi := hidle a (ha.steady hg)
    obtain ⟨s, m, hs, -, hm, hk, -⟩ := S.solve_ok (hkeys ▸ hst.mem_callKeys hc) hi.1 hi.2
    rw [← hm.settled_value _ hk] at hs
    have hanswer := hsolve a e s m (ha.steady hg) hst hc hs
    rw [hm.settled_value _ hk, hg.index he] at hanswer
    refine ⟨_, hanswer, ?_⟩
    rw [hmemo, ← hg.index he]
    exact hk
  · have hst := hg.stores he
    have hi := (hidle a (ha.steady hg)).2
    obtain rfl := hg.index he
    have hc : e.isCall = true := by
      obtain ⟨r, hr⟩ := Grammar.mem_callKeys_iff.1 (hkeys ▸ hi.settled_mem _ hk)
      rw [← hst.isCallAt, Grammar.isCallAt_iff]
      exact ⟨r, hr⟩
    have hs := hsolve a e _ _ (ha.steady hg) hst hc (sys.solve_of_settled hk)
    rwa [hput, hi.settled_value _ hk] at hs

end Analysis

namespace Grammar

open Analysis (Converges Asked Query)

variable {g : Grammar}

theorem Valid.converges_nullables (hg : g.Valid) :
    Converges g g.nullableSystem (fun _ => ()) (·.positions.nullables) Analysis.nullable
      hg.nullables.equation hg.nullables.value := by
  refine Analysis.converges_of_solution hg hg.nullables rfl
    (fun a _ m => { a with positions := { a.positions with nullables := m } }) (fun _ => rfl)
    (fun _ _ _ => rfl) (fun a ha => ⟨trivial, ha.positions.nullables⟩)
    (fun a a' h => .inr h.nullables) fun a e s m ha he hc hs => ?_
  cases e with
  | call r q k =>
    have hcall : g.callNullable r.index a.positions =
        .ok (m.value r.index, { a.positions with nullables := m }) := ok_bind hs
    have hnull : g.nullable (.call r q k) a.positions =
        .ok (m.value r.index, { a.positions with nullables := m }) :=
      (run_bind (run_lift (hg.isTerminal_ok he))).trans hcall
    show (a.grammar.nullable (.call r q k) a.positions >>= fun p =>
      Except.ok (p.1, { a with positions := p.2 })) = _
    rw [ha.grammar, ok_bind hnull]
    rfl
  | token | eps | alt | seq | conj | plus | endMark => cases hc

theorem Valid.converges_reachables (hg : g.Valid) :
    Converges g g.reachableSystem (fun _ => ()) (·.reachables) Analysis.reachable
      hg.reachables.equation hg.reachables.value := by
  refine Analysis.converges_of_solution hg hg.reachables rfl
    (fun a _ m => { a with reachables := m }) (fun _ => rfl) (fun _ _ _ => rfl)
    (fun a ha => ⟨trivial, ha.reachables⟩) (fun a a' h => .inr h.reachables)
    fun a e s m ha he hc hs => ?_
  cases e with
  | call r q k =>
    have hreads : [r.index].forM (fun key => discard (g.reachableSystem.solve key))
        ((), a.reachables) = .ok ((), (s, m)) :=
      run_bind (run_discard hs)
    have hread : g.reachableSystem.solveIn ⟨[r.index], fun calls => calls r.index⟩
        ((), a.reachables) = .ok (m.value r.index, (s, m)) :=
      @System.evaluate_run _ _ ⟨[r.index], fun calls => calls r.index⟩ _ _ _ hreads
    have heq : g.reachableEquation (.call r q k) = .ok ⟨[r.index], fun calls => calls r.index⟩ :=
      ok_bind (hg.isTerminal_ok he)
    show (a.grammar.reachableEquation (.call r q k) >>= fun eq =>
      a.grammar.reachableSystem.solveIn eq ((), a.reachables) >>= fun p =>
        Except.ok (p.1, { a with reachables := p.2.2 })) = _
    rw [ha.grammar, ok_bind heq]
    exact ok_bind hread
  | token | eps | alt | seq | conj | plus | endMark => cases hc

theorem Valid.converges_callSets (hg : g.Valid) :
    Converges g g.callSystem (·.positions) (·.callSets) Analysis.callSet
      hg.callSets.equation hg.callSets.value := by
  refine Analysis.converges_of_solution hg hg.callSets rfl
    (fun a p m => { a with positions := p, callSets := m }) (fun _ => rfl) (fun _ _ _ => rfl)
    (fun a ha => ⟨ha.positions, ha.callSets⟩) (fun a a' h => h.callSets)
    fun a e s m ha he hc hs => ?_
  rw [Analysis.callSet, if_pos hc]
  show (a.grammar.callSystem.solve e.ref.index (a.positions, a.callSets) >>= fun p =>
    Except.ok (p.1, { a with positions := p.2.1, callSets := p.2.2 })) = _
  rw [ha.grammar, ok_bind hs]

/-- Every question about a node is answered, but for the call set of a node that is no call, and the
three memo tables converge to the least solutions of their equations, whatever is asked in which
order. -/
theorem tables_converge (hg : g.Built) (hv : g.validate = .ok ()) :
    (∃ a, Analysis.start g = .ok a) ∧
      (∀ a, Asked g a → ∀ (i : Nat) (e : Expr), g.nodes[i]? = some e → ∀ q : Query,
        (∃ a', q.ask e a = .ok ((), a')) ∨ q = .callSet ∧ e.isCall = false ∧
          q.ask e a = .error (.refusal (.notACall (g.print e)))) ∧
      (∃ equation value, Converges g g.nullableSystem (fun _ => ()) (·.positions.nullables)
        Analysis.nullable equation value) ∧
      (∃ equation value, Converges g g.reachableSystem (fun _ => ()) (·.reachables)
        Analysis.reachable equation value) ∧
      ∃ equation value, Converges g g.callSystem (·.positions) (·.callSets)
        Analysis.callSet equation value := by
  have hval := hg.valid hv
  obtain ⟨a, ha, -⟩ := Analysis.start_ok hval
  refine ⟨⟨a, ha⟩, fun a ha i e he q => ?_, ⟨_, _, hval.converges_nullables⟩,
    ⟨_, _, hval.converges_reachables⟩, _, _, hval.converges_callSets⟩
  rcases (ha.steady hval).ask_ok (hval.stores he) q with ⟨a', hq, -⟩ | h
  · exact .inl ⟨a', hq⟩
  · exact .inr h

/-- The first question about the call set of the root takes rounds, after which its answer is read
from the table. -/
theorem tables_converge_alias :
    aliasGrammar.Built ∧ aliasGrammar.validate = .ok () ∧
      ∃ a a' s, Analysis.start aliasGrammar = .ok a ∧
        Analysis.callSet aliasGrammar.root a = .ok (s, a') ∧ a.callSets.rounds = 0 ∧
        a'.callSets.rounds ≠ 0 ∧ Analysis.callSet aliasGrammar.root a' = .ok (s, a') := by
  obtain ⟨⟨a, ha⟩, -, -, -, equation, value, hc⟩ := tables_converge built_alias validate_alias
  have hfresh : Analysis.start aliasGrammar = .ok ⟨aliasGrammar, .new, .new .empty, .new .empty⟩ :=
    rfl
  obtain rfl := Except.ok.inj (ha.symm.trans hfresh)
  obtain ⟨a', hq, hk⟩ := hc.answers _ (.fresh ha) 6 aliasGrammar.root rfl rfl
  have hasked : Asked aliasGrammar a' :=
    .next (i := 6) (.fresh ha) .callSet rfl (run_discard hq)
  have hrounds : (Analysis.callSet aliasGrammar.root ⟨aliasGrammar, .new, .new .empty, .new .empty⟩).map
      (fun p => p.2.callSets.rounds) = .ok 4 := by decide +kernel
  rw [hq] at hrounds
  have hfour : a'.callSets.rounds = 4 := Except.ok.inj hrounds
  exact ⟨built_alias, validate_alias, _, a', value 6, ha, hq, rfl, by omega,
    hc.settled a' hasked 6 aliasGrammar.root rfl hk⟩

end Grammar

end TokenGrammar
