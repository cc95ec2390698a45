import TokenGrammar.Proofs.Layout
import TokenGrammar.Proofs.ContextGraph
import TokenGrammar.Proofs.Parallel
import TokenGrammar.Proofs.Reports

/-!
# Rules that the root does not reach

The analysis says of each expression which rules chains of calls lead to. The tables are about the
rules that the root leads to, and no others: only these are in call entries, and only these are
entered. The other rules of a grammar get a warning and make no difference.
-/

namespace TokenGrammar

/-- A rule that a row names: one of a call entry, or one that is entered for the caller. -/
def Row.Names (row : Row) (a : Nat) : Prop :=
  (∃ c ∈ row.entries, a = c.invoke ∨ c.context = some a) ∨ a ∈ row.children

theorem Engine.report_of_build {g : Grammar} {options : Options} {log l : Log} {elapsed : Nat}
    {e : Engine} (h : build g options log elapsed = .ok (e, l)) : l = e.tables.report elapsed log := by
  cases ht : Tables.compile g options with
  | error f =>
    rw [build, ht] at h
    cases h
  | ok t =>
    rw [build, ok_bind ht] at h
    obtain ⟨rfl, rfl⟩ := Prod.mk.inj (Except.ok.inj h)
    rfl

namespace Grammar

open Analysis (Always)

variable {g g' : Grammar} {k : Option Nat} {p a i : Nat} {row : Row} {u : List Token}
  {r r₀ : Recognizer} {owners : List (Option Nat)}

namespace Valid

variable (hg : g.Valid)
include hg

theorem uses_of_names (hk : g.Uses k) (hp : g.Owns k p) (hfit : row.Fits g k p)
    (h : row.Names a) : g.Uses (some a) := by
  rcases h with ⟨c, hc, hor⟩ | hchild
  · obtain ⟨b, hb, hinvoke, hcontext⟩ := (hfit.entries c hc).starts
    rcases hor with rfl | hctx
    · exact hg.uses_of_starts hk hp hb hinvoke
    · exact hg.uses_of_starts hk hp hb (hcontext a hctx)
  · obtain ⟨b, hb, hal⟩ := (hfit.children a).1 hchild
    exact hg.uses_of_starts hk hp hb (starts_of_aliases hal)

/-- The rows of the tables name no rules but those that the root leads to. -/
theorem leadsTo_of_names {n : Nat} {prune : Bool}
    (hrow : ((g.findings n).tables g prune).row i = .ok row) (h : row.Names a) :
    g.LeadsTo g.root a := by
  obtain ⟨-, rfl⟩ := Findings.row_ok_iff.1 hrow
  by_cases hown : ∃ k, g.Uses k ∧ g.Owns k i
  · obtain ⟨k, hk, hp⟩ := hown
    exact hg.uses_of_names hk hp (hg.row_fits hk hp prune) h a rfl
  · rw [hg.row_of_not_owned fun k hk hp => hown ⟨k, hk, hp⟩] at h
    rcases h with ⟨c, hc, -⟩ | hchild
    · cases hc
    · cases hchild

/-- Along a run, contexts are made for no rules but those that the root leads to. -/
theorem leadsTo_of_allots (h₀ : g.Begun r₀) (h : r₀.Allots u r owners) (ha : some a ∈ owners) :
    g.LeadsTo g.root a := by
  obtain ⟨w, -, rfl⟩ := h₀.linked hg h
  obtain ⟨x, hx, htop⟩ := List.mem_map.1 ha
  exact hg.uses_of_entered (hg.mem_activations_iff.1 hx).1 a htop

end Valid

/-- Which rules an expression leads to is answered exactly, whatever has been asked before. The
tables keep to the rules that the root leads to, a compilation warns of just the others, in the
order of their declaration, and these make no difference: a grammar that is parallel to this one
gives every input the same verdict and puts the same on record. -/
theorem reachability_exact (hg : g.Built) (hv : g.validate = .ok ()) (options : Options) (log : Log)
    (elapsed : Nat) :
    (∃ a, Analysis.start g = .ok a) ∧
    (∀ (i : Nat) (e : Expr), g.nodes[i]? = some e →
      ∃ s, Always g (Analysis.reachable e) s ∧ ∀ a, a ∈ s ↔ g.LeadsTo e a) ∧
    ∃ e l, Engine.build g options log elapsed = .ok (e, l) ∧
      (∀ a, a ∈ e.tables.rules ↔ g.LeadsTo g.root a) ∧
      (∃ outside : List Nat, outside.Pairwise (· < ·) ∧
        (∀ a, a ∈ outside ↔ a < g.rules.size ∧ ¬ g.LeadsTo g.root a) ∧
        l = log.push
          (log.kept 1 (String.join (outside.map fun a => unreachableWarning (g.ruleName ⟨g.id, a⟩))) ++
            log.kept 2 (e.tables.outline elapsed (log.enabled 3)))) ∧
      (∀ i row a, e.tables.row i = .ok row → row.Names a → a ∈ e.tables.rules) ∧
      (e.HandsOut fun r₀ => (∀ u r, r₀.Run u r → ∃ owners, r₀.Allots u r owners) ∧
        ∀ u r owners a, r₀.Allots u r owners → some a ∈ owners → a ∈ e.tables.rules) ∧
      ∀ ρ g', g.Parallel ρ g' → g'.Built → g'.validate = .ok () → ∀ options' log' elapsed',
        ∃ e' l', Engine.build g' options' log' elapsed' = .ok (e', l') ∧
          e.HandsOut fun r => e'.HandsOut fun r' => ∀ tokens, ∃ v s s',
            r.parse tokens = .ok (v, s) ∧ r'.parse tokens = .ok (v, s') ∧ s.stats = s'.stats := by
  have hval := hg.valid hv
  obtain ⟨a, ha, -⟩ := Analysis.start_ok hval
  obtain ⟨n, hn⟩ := hval.build_ok
  obtain ⟨e, l, hb, ht, hout⟩ := hn options log elapsed
  have hrules : ∀ a, a ∈ e.tables.rules ↔ g.LeadsTo g.root a := by
    rw [ht]
    exact fun a => hval.mem_usedRules_iff
  refine ⟨⟨a, ha⟩, fun i x hx => ?_, e, l, hb, hrules, ?_, fun i row a hrow hname => ?_,
    fun e' he level => ?_, fun ρ g' hm hg' hv' options' log' elapsed' => ?_⟩
  · have hs := hval.stores hx
    have hanswers : Analysis.Answers hval (Analysis.reachable x) _ := Analysis.answers_reachable hs
    exact ⟨_, hanswers.always, fun a => hval.mem_leadsTo_rulesFrom_iff hs⟩
  · obtain ⟨outside, hasc, hmem, hnames⟩ := e.tables.unreachable_eq
    have hgrammar : e.tables.grammar = g := by
      rw [ht]
      rfl
    rw [hgrammar] at hmem hnames
    refine ⟨outside, hasc, fun a => (hmem a).trans (and_congr_right fun _ => not_congr (hrules a)), ?_⟩
    rw [Engine.report_of_build hb, Tables.report_eq, hnames, List.map_map]
    rfl
  · rw [ht] at hrow
    exact (hrules a).2 (hval.leadsTo_of_names hrow hname)
  · have hfit : e'.tables.Fits g := by
      rw [he, ht]
      exact hval.tables_fit n _
    obtain ⟨r₀, hr₀, h₀⟩ := hval.begun_ok hfit e'.options (.new level e'.consoleLevel)
    refine ⟨r₀, hr₀, fun u r hrun => h₀.exists_allots hval hrun, fun u r owners a ho ha => ?_⟩
    exact (hrules a).2 (hval.leadsTo_of_allots h₀ ho ha)
  · have hval' := hg'.valid hv'
    obtain ⟨n', hn'⟩ := hval'.build_ok
    obtain ⟨e', l', hb', -, hout'⟩ := hn' options' log' elapsed'
    refine ⟨e', l', hb', fun e₁ he₁ level => ?_⟩
    obtain ⟨r, hr, hfresh⟩ := hout e₁ he₁ level
    refine ⟨r, hr, fun e₁' he₁' level' => ?_⟩
    obtain ⟨r', hr', hfresh'⟩ := hout' e₁' he₁' level'
    exact ⟨r', hr', hm.parse_ok hval hval' (hm.of_fresh hval hval' hfresh hfresh')⟩

/-- The grammar of `e ::= e '+' | 'x'` once more, with a rule `orphan ::= e` that nothing calls. It is
declared first, so no node and no rule has the number that it has there. -/
def orphanGrammar : Grammar :=
  let stray := .call ⟨0, 0⟩ ⟨0, 1⟩ 0
  let again := .call ⟨0, 1⟩ ⟨0, 1⟩ 1
  let plus := .token ⟨0, 2⟩ (.equal 43)
  let longer := .seq ⟨0, 3⟩ again plus
  let x := .token ⟨0, 4⟩ (.equal 120)
  let body := .alt ⟨0, 5⟩ longer x
  let root := .call ⟨0, 6⟩ ⟨0, 1⟩ 2
  ⟨0, #[stray, again, plus, longer, x, body, root, .endMark ⟨0, 7⟩],
    #[false, false, true, false, true, false, false, false],
    #[⟨"orphan", stray⟩, ⟨"e", body⟩], root⟩

theorem built_orphan : orphanGrammar.Built :=
  ⟨0, [.rule "orphan", .rule "e", .call ⟨0, 1⟩, .setBody ⟨0, 0⟩ ⟨0, 0⟩, .call ⟨0, 1⟩,
    .token (.equal 43), .seq ⟨0, 1⟩ ⟨0, 2⟩, .token (.equal 120), .alt ⟨0, 3⟩ ⟨0, 4⟩,
    .setBody ⟨0, 1⟩ ⟨0, 5⟩, .call ⟨0, 1⟩], ⟨0, 6⟩, by decide +kernel⟩

theorem validate_orphan : orphanGrammar.validate = .ok () := rfl

theorem parallel_orphan_sum : orphanGrammar.Parallel (fun a a' => a = 1 ∧ a' = 0) sumGrammar where
  paired := ⟨fun _ _ _ h h' => h.1.trans h'.1.symm, fun _ _ _ h h' => h.2.trans h'.2.symm⟩
  root := .call ⟨rfl, rfl⟩
  body := by
    rintro a a' ⟨rfl, rfl⟩
    exact ⟨_, _, rfl, rfl, .alt (.seq (.call ⟨rfl, rfl⟩) (.token _)) (.token _)⟩

/-- There is one warning, and each input is given the verdict that it gets without the orphan. -/
theorem reachability_exact_orphan :
    orphanGrammar.Built ∧ orphanGrammar.validate = .ok () ∧
      ∃ e l, Engine.build orphanGrammar {} (.new 1 0) 0 = .ok (e, l) ∧
        l.buffer = "Warning: rule orphan is not reachable from the root\n" ∧
        ∃ e' l', Engine.build sumGrammar {} .quiet 0 = .ok (e', l') ∧
          e.HandsOut fun r => e'.HandsOut fun r' => ∀ tokens, ∃ v s s',
            r.parse tokens = .ok (v, s) ∧ r'.parse tokens = .ok (v, s') ∧ s.stats = s'.stats := by
  obtain ⟨-, -, e, l, hb, hrules, ⟨outside, hasc, hmem, hl⟩, -, -, hparallel⟩ :=
    reachability_exact built_orphan validate_orphan {} (.new 1 0) 0
  have hview : (Engine.build orphanGrammar {} (.new 1 0) 0).map (fun b => b.1.tables.rules.toList) =
      .ok [1] := by
    decide +kernel
  rw [hb] at hview
  have hused : e.tables.rules = .single 1 := AscSet.eq_of_toList (Except.ok.inj hview)
  have houtside : outside = [0] := by
    have hset : (⟨outside, hasc⟩ : RuleSet) = .single 0 := AscSet.ext_mem fun a => by
      rw [AscSet.mem_single, AscSet.mem_def, hmem, ← hrules, hused, AscSet.mem_single]
      show a < 2 ∧ a ≠ 1 ↔ a = 0
      omega
    exact congrArg AscSet.toList hset
  refine ⟨built_orphan, validate_orphan, e, l, hb, ?_,
    hparallel _ _ parallel_orphan_sum built_sum validate_sum {} .quiet 0⟩
  rw [hl, houtside]
  rfl

end Grammar

end TokenGrammar
