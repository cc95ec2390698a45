import TokenGrammar.Engine
import TokenGrammar.Proofs.Finishing
import TokenGrammar.Proofs.Verdicts

/-!
# Recognition

What the engine of a finished grammar recognizes is the language of the grammar, whatever the grammar
and the options are: after every token the recognizer knows whether what it has read is a sentence,
and it rejects an input at the first token after which the input is not viable.
-/

namespace TokenGrammar

/-- The recognizers that an engine hands out, also after its options or its levels have been
changed, all have a property. -/
def Engine.HandsOut (e : Engine) (P : Recognizer → Prop) : Prop :=
  ∀ e' : Engine, e'.tables = e.tables → ∀ level, ∃ r, e'.recognizerWith level = .ok r ∧ P r

namespace Grammar

variable {g : Grammar}

/-- The engines of a valid grammar are all built from the same findings, and hand out recognizers
that have read nothing. -/
theorem Valid.build_ok (hg : g.Valid) : ∃ n, ∀ options log elapsed, ∃ e log',
    Engine.build g options log elapsed = .ok (e, log') ∧
      e.tables = (g.findings n).tables g options.pruneDeadContinuations ∧
        e.HandsOut g.Fresh := by
  obtain ⟨n, hn⟩ := hg.compile_ok
  refine ⟨n, fun options log elapsed => ⟨_, _, ok_bind (hn options), rfl, fun e he level => ?_⟩⟩
  have hfit : e.tables.Fits g := by
    rw [he]
    exact hg.tables_fit n _
  exact hg.start_ok hfit e.options (.new level e.consoleLevel)

/-- A recognizer accepts an input exactly when it is a sentence, and knows after every token that it
has consumed whether it has read a sentence so far. -/
theorem recognizes_language (hg : g.Built) (hv : g.validate = .ok ()) (options : Options)
    (log : Log) (elapsed : Nat) :
    ∃ e log', Engine.build g options log elapsed = .ok (e, log') ∧ e.HandsOut fun r =>
      (∀ tokens, ∃ v r', r.parse tokens = .ok (v, r') ∧ (v = .accept ↔ g.Sentence tokens)) ∧
        ∀ u r', r.Run u r' → r'.rejectedAt = none → (r'.isAccepting = true ↔ g.Sentence u) := by
  have hval := hg.valid hv
  obtain ⟨n, hn⟩ := hval.build_ok
  obtain ⟨e, log', hb, -, hout⟩ := hn options log elapsed
  refine ⟨e, log', hb, fun e' he' level => ?_⟩
  obtain ⟨r, hr, hfresh⟩ := hout e' he' level
  refine ⟨r, hr, fun tokens => ?_, fun u r' hrun hrej' => ?_⟩
  · obtain ⟨v, r', hp, hd⟩ := hfresh.parse_ok hval hfresh.rejectedAt tokens
    exact ⟨v, r', hp, hd.accept_iff⟩
  · exact (hrun.reading hval hfresh.toReading).isAccepting_iff hval hrej'

theorem recognizes_language_sum :
    sumGrammar.Built ∧ sumGrammar.validate = .ok () ∧
      ∃ e log', Engine.build sumGrammar {} .quiet 0 = .ok (e, log') ∧ e.HandsOut fun r =>
        (∀ tokens, ∃ v r', r.parse tokens = .ok (v, r') ∧
          (v = .accept ↔ sumGrammar.Sentence tokens)) ∧
        ∀ u r', r.Run u r' → r'.rejectedAt = none →
          (r'.isAccepting = true ↔ sumGrammar.Sentence u) :=
  ⟨built_sum, validate_sum, recognizes_language built_sum validate_sum {} .quiet 0⟩

/-- A recognizer rejects an input at the first token after which it is not viable, or at the end. -/
theorem rejects_at_first_unviable (hg : g.Built) (hv : g.validate = .ok ()) (options : Options)
    (log : Log) (elapsed : Nat) :
    ∃ e log', Engine.build g options log elapsed = .ok (e, log') ∧ e.HandsOut fun r =>
      ∀ tokens, ∃ v r', r.parse tokens = .ok (v, r') ∧
        (∀ k, k < tokens.length → (v = .reject k ↔
          (∀ m, 0 < m → m ≤ k → g.Viable (tokens.take m)) ∧ ¬ g.Viable (tokens.take (k + 1)))) ∧
        (v = .reject tokens.length ↔
          (∀ m, 0 < m → m ≤ tokens.length → g.Viable (tokens.take m)) ∧ ¬ g.Sentence tokens) ∧
        (∀ k, k < tokens.length → v = .reject k →
          ∀ w, g.Sentence w → ¬ tokens.take (k + 1) <+: w) ∧
        (g.Productive → ∀ k, v = .reject k → ∃ w, g.Sentence w ∧ tokens.take k <+: w) := by
  have hval := hg.valid hv
  obtain ⟨n, hn⟩ := hval.build_ok
  obtain ⟨e, log', hb, -, hout⟩ := hn options log elapsed
  refine ⟨e, log', hb, fun e' he' level => ?_⟩
  obtain ⟨r, hr, hfresh⟩ := hout e' he' level
  refine ⟨r, hr, fun tokens => ?_⟩
  obtain ⟨v, r', hp, hd⟩ := hfresh.parse_ok hval hfresh.rejectedAt tokens
  exact ⟨v, r', hp, hd.reject_iff, hd.reject_end_iff, hd.no_sentence hval, hd.completable hval⟩

private theorem productive_sum : sumGrammar.Productive where
  derives k e _ he := by
    cases k with
    | zero =>
      obtain rfl := Option.some.inj he
      exact ⟨[120], .altRight (.terminal rfl rfl)⟩
    | succ k => cases he
  accepts k e x _ he hx ht := by
    rcases k with - | - | k
    · obtain rfl := Option.some.inj he
      obtain rfl := List.mem_singleton.1 hx
      cases ht
    · obtain rfl := Option.some.inj he
      have hx : x ∈ [.call ⟨0, 0⟩ ⟨0, 0⟩ 0, .token ⟨0, 1⟩ (.equal 43), .token ⟨0, 3⟩ (.equal 120)] :=
        hx
      simp only [List.mem_cons, List.not_mem_nil, or_false] at hx
      rcases hx with rfl | rfl | rfl
      · cases ht
      · exact ⟨43, rfl⟩
      · exact ⟨120, rfl⟩
    · cases he

theorem rejects_at_first_unviable_sum :
    sumGrammar.Built ∧ sumGrammar.validate = .ok () ∧ sumGrammar.Productive ∧
      ∃ e log', Engine.build sumGrammar {} .quiet 0 = .ok (e, log') ∧ e.HandsOut fun r =>
        ∀ tokens, ∃ v r', r.parse tokens = .ok (v, r') ∧
          (v = .reject tokens.length ↔ (∀ m, 0 < m → m ≤ tokens.length →
            sumGrammar.Viable (tokens.take m)) ∧ ¬ sumGrammar.Sentence tokens) ∧
          ∀ k, v = .reject k → ∃ w, sumGrammar.Sentence w ∧ tokens.take k <+: w := by
  refine ⟨built_sum, validate_sum, productive_sum, ?_⟩
  obtain ⟨e, log', hb, hout⟩ := rejects_at_first_unviable built_sum validate_sum {} .quiet 0
  refine ⟨e, log', hb, fun e' he' level => ?_⟩
  obtain ⟨r, hr, hparse⟩ := hout e' he' level
  refine ⟨r, hr, fun tokens => ?_⟩
  obtain ⟨v, r', hp, -, hend, -, hprod⟩ := hparse tokens
  exact ⟨v, r', hp, hend, hprod productive_sum⟩

end Grammar

end TokenGrammar
