import TokenGrammar.Proofs.Safety

/-!
# Closed forms of the answers

Two questions have answers that can be said without the analysis. An expression is nullable when it
derives the empty string. The call set of a call follows from which calls may come first in the
bodies of rules, and which of these may come last as well: rules are entered along chains of first
calls, and a rule is resumed in place of another along chains of calls that are all of a body.
-/

namespace TokenGrammar

namespace Analysis

variable {g : Grammar} {hg : g.Valid} {α : Type} {act : AnalysisM α} {x : α}

/-- The answer to a question is the same whatever has been asked before. -/
def Always (g : Grammar) (act : AnalysisM α) (x : α) : Prop :=
  ∀ a, Asked g a → ∃ a', act a = .ok (x, a')

theorem Answers.always (h : Answers hg act x) : Always g act x := by
  intro a ha
  obtain ⟨a', hact, -⟩ := h a (ha.steady hg)
  exact ⟨a', hact⟩

end Analysis

namespace Grammar

open Analysis (Always)

variable {g : Grammar}

theorem Valid.recognize_ok (hg : g.Valid) (tokens : List Token) :
    ∃ b, g.recognize tokens = .ok b ∧ (b = true ↔ g.Sentence tokens) := by
  obtain ⟨n, hn⟩ := hg.build_ok
  obtain ⟨e, log, hb, -, hout⟩ := hn {} .quiet 0
  obtain ⟨r, hr, hfresh⟩ := hout e rfl e.bufferLevel
  obtain ⟨v, r', hp, hd⟩ := hfresh.parse_ok hg hfresh.rejectedAt tokens
  have hquiet : Engine.quietly g {} = .ok e := ok_bind hb
  have hparse : e.parse tokens = .ok v := (ok_bind hr).trans (ok_bind hp)
  refine ⟨v.isAccept, (ok_bind hquiet).trans (ok_bind hparse), ?_⟩
  rw [← hd.accept_iff]
  cases v <;> simp [Verdict.isAccept]

/-- An expression is nullable exactly when it derives the empty string, whatever has been asked
before. In particular the empty input is recognized exactly when the root is nullable. -/
theorem nullable_exact (hg : g.Built) (hv : g.validate = .ok ()) :
    (∃ a, Analysis.start g = .ok a) ∧
      (∀ (i : Nat) (e : Expr), g.nodes[i]? = some e →
        ∃ b, Always g (Analysis.nullable e) b ∧ (b = true ↔ g.Derives e [])) ∧
      ∃ b, g.recognize [] = .ok b ∧ Always g (Analysis.nullable g.root) b := by
  have hval := hg.valid hv
  obtain ⟨a, ha, -⟩ := Analysis.start_ok hval
  refine ⟨⟨a, ha⟩, fun i e he => ?_, ?_⟩
  · have hs := hval.stores he
    have hanswers : Analysis.Answers hval (Analysis.nullable e) (e.nullable g.emptyAt) :=
      Analysis.answers_nullable hs
    exact ⟨_, hanswers.always, hval.nullable_iff hs⟩
  · have hs := hval.stores_top (show g.top? none = some g.root from rfl)
    have hanswers : Analysis.Answers hval (Analysis.nullable g.root) (g.root.nullable g.emptyAt) :=
      Analysis.answers_nullable hs
    obtain ⟨b, hb, hiff⟩ := hval.recognize_ok []
    have heq : b = g.root.nullable g.emptyAt := by
      rw [Bool.eq_iff_iff, hiff, hval.nullable_iff hs]
      rfl
    exact ⟨b, hb, heq ▸ hanswers.always⟩

/-- The grammar of `a ::= b | 'x'` and `b ::= a | eps`, two rules that are aliases of each other. -/
def aliasGrammar : Grammar :=
  let callB := .call ⟨0, 0⟩ ⟨0, 1⟩ 0
  let x := .token ⟨0, 1⟩ (.equal 120)
  let bodyA := .alt ⟨0, 2⟩ callB x
  let callA := .call ⟨0, 3⟩ ⟨0, 0⟩ 0
  let nothing := .eps ⟨0, 4⟩
  let bodyB := .alt ⟨0, 5⟩ callA nothing
  let root := .call ⟨0, 6⟩ ⟨0, 0⟩ 1
  ⟨0, #[callB, x, bodyA, callA, nothing, bodyB, root, .endMark ⟨0, 7⟩],
    #[false, true, false, false, false, false, false, false], #[⟨"a", bodyA⟩, ⟨"b", bodyB⟩], root⟩

theorem built_alias : aliasGrammar.Built :=
  ⟨0, [.rule "a", .rule "b", .call ⟨0, 1⟩, .token (.equal 120), .alt ⟨0, 0⟩ ⟨0, 1⟩,
    .setBody ⟨0, 0⟩ ⟨0, 2⟩, .call ⟨0, 0⟩, .eps, .alt ⟨0, 3⟩ ⟨0, 4⟩, .setBody ⟨0, 1⟩ ⟨0, 5⟩,
    .call ⟨0, 0⟩], ⟨0, 6⟩, by decide +kernel⟩

theorem validate_alias : aliasGrammar.validate = .ok () := rfl

theorem nullable_exact_alias :
    aliasGrammar.Built ∧ aliasGrammar.validate = .ok () ∧
      Always aliasGrammar (Analysis.nullable aliasGrammar.root) true ∧
        aliasGrammar.recognize [] = .ok true := by
  obtain ⟨⟨a, ha⟩, hnode, b, hb, hroot⟩ := nullable_exact built_alias validate_alias
  obtain ⟨b', halways, hiff⟩ := hnode 6 aliasGrammar.root rfl
  -- the empty string is derived through both rules
  have hd : aliasGrammar.Derives aliasGrammar.root [] :=
    .call rfl (.altLeft (.call rfl (.altRight (.eps _))))
  obtain rfl := hiff.2 hd
  obtain ⟨a₁, h₁⟩ := hroot a (.fresh ha)
  obtain ⟨a₂, h₂⟩ := halways a (.fresh ha)
  obtain ⟨rfl, -⟩ := Prod.mk.inj (Except.ok.inj (h₁.symm.trans h₂))
  exact ⟨built_alias, validate_alias, halways, hb⟩

section CallSets

variable {firsts lasts : Nat → PosSet} {a b : Nat}

/-- A call that may come first in the body of one rule calls the other rule. -/
def Begins (g : Grammar) (firsts : Nat → PosSet) (a b : Nat) : Prop :=
  ∃ d ∈ firsts a, g.calleeAt? d = some b

/-- A call that may come first and may come last in the body of one rule calls the other rule. -/
def Spans (g : Grammar) (firsts lasts : Nat → PosSet) (a b : Nat) : Prop :=
  ∃ d ∈ firsts a, d ∈ lasts a ∧ g.calleeAt? d = some b

noncomputable def bodyFirsts (g : Grammar) (r : Nat) : PosSet :=
  ((g.top? (some r)).map fun e => e.firstSet g.emptyAt).getD .empty

noncomputable def bodyLasts (g : Grammar) (r : Nat) : PosSet :=
  ((g.top? (some r)).map fun e => e.lastSet g.emptyAt).getD .empty

theorem firstCall_iff {d : Nat} :
    g.FirstCall a d b ↔ d ∈ g.bodyFirsts a ∧ g.calleeAt? d = some b := by
  cases h : g.top? (some a) <;> simp [FirstCall, bodyFirsts, h]

theorem wholeCall_iff {d : Nat} : g.WholeCall a d b ↔
    d ∈ g.bodyFirsts a ∧ d ∈ g.bodyLasts a ∧ g.calleeAt? d = some b := by
  cases h : g.top? (some a) <;> simp [WholeCall, bodyFirsts, bodyLasts, h]

theorem starts_eq_begins : g.Starts = g.Begins g.bodyFirsts := by
  funext a b
  simp only [Starts, Begins, firstCall_iff]

theorem aliases_eq_spans : g.Aliases = g.Spans g.bodyFirsts g.bodyLasts := by
  funext a b
  simp only [Aliases, Spans, wholeCall_iff]

/-- An entry of a call set belongs to the caller, for a rule that the called one is an alias of, or
is pending in a rule that the called one starts with. -/
theorem entryOf_iff {c : Nat} (ha : g.calleeAt? c = some a) {e : CallEntry} : g.EntryOf c e ↔
    (∃ q, Relation.ReflTransGen g.Aliases a q ∧ e = ⟨none, c, q⟩) ∨
      ∃ r d b q, Relation.ReflTransGen g.Starts a r ∧ g.FirstCall r d b ∧
        Relation.ReflTransGen g.Aliases b q ∧ e = ⟨some r, d, q⟩ := by
  obtain ⟨context, cont, invoke⟩ := e
  cases context with
  | none => simp [EntryOf, ha, and_comm]
  | some r =>
    simp [EntryOf, ha]

/-- The call set of a call of a rule, whatever has been asked before. -/
theorem call_sets_closed_form (hg : g.Built) (hv : g.validate = .ok ()) :
    ∃ firsts lasts : Nat → PosSet,
      (∃ a, Analysis.start g = .ok a) ∧
      (∀ (r : Nat) (d : Rule), g.rules[r]? = some d →
        Always g (Analysis.firsts d.body) (firsts r) ∧
          Always g (Analysis.lasts d.body) (lasts r)) ∧
      ∀ (c : Nat) (e : Expr) (a : RuleRef), g.nodes[c]? = some e → e.callee? = some a →
        ∃ s, Always g (Analysis.callSet e) s ∧
          (∀ x, x ∈ s ↔
            (∃ q, Relation.ReflTransGen (g.Spans firsts lasts) a.index q ∧ x = ⟨none, c, q⟩) ∨
              ∃ r d b q, Relation.ReflTransGen (g.Begins firsts) a.index r ∧
                (d ∈ firsts r ∧ g.calleeAt? d = some b) ∧
                Relation.ReflTransGen (g.Spans firsts lasts) b q ∧ x = ⟨some r, d, q⟩) ∧
          ∀ k d q r, ⟨k, d, q⟩ ∈ s → g.Spans firsts lasts q r → ⟨k, d, r⟩ ∈ s := by
  have hval := hg.valid hv
  obtain ⟨a, ha, -⟩ := Analysis.start_ok hval
  refine ⟨g.bodyFirsts, g.bodyLasts, ⟨a, ha⟩, fun r d hd => ?_, fun c e a he hc => ?_⟩
  · have htop : g.top? (some r) = some d.body := by rw [top?, hd, Option.map_some]
    have hs := hval.stores_top htop
    have hfirsts : Analysis.Answers hval (Analysis.firsts d.body) (g.bodyFirsts r) := by
      rw [bodyFirsts, htop]
      exact Analysis.answers_firsts hs
    have hlasts : Analysis.Answers hval (Analysis.lasts d.body) (g.bodyLasts r) := by
      rw [bodyLasts, htop]
      exact Analysis.answers_lasts hs
    exact ⟨hfirsts.always, hlasts.always⟩
  · have hs := hval.stores he
    have hcallee : g.calleeAt? c = some a.index := by simp [calleeAt?, he, hc]
    have hcall : e.isCall = true := by rw [Expr.isCall, hc, Option.isSome_some]
    have hset : Analysis.Answers hval (Analysis.callSet e) (g.callSetAt c) := by
      rw [← hval.index he]
      exact Analysis.answers_callSet hs hcall
    refine ⟨g.callSetAt c, hset.always, fun x => ?_, fun k d q r hm hqr => ?_⟩
    · rw [hval.mem_callSetAt_iff, entryOf_iff hcallee]
      simp only [firstCall_iff, starts_eq_begins, aliases_eq_spans]
    · rw [← aliases_eq_spans] at hqr
      rw [hval.mem_callSetAt_iff] at hm ⊢
      exact hm.alias (.single hqr)

/-- Two rules that are aliases of each other are each resumed in place of the other, for the caller
and inside each of them. -/
theorem call_sets_closed_form_alias :
    aliasGrammar.Built ∧ aliasGrammar.validate = .ok () ∧
      ∃ s, Always aliasGrammar (Analysis.callSet aliasGrammar.root) s ∧
        ⟨none, 6, 1⟩ ∈ s ∧ ⟨some 0, 0, 0⟩ ∈ s ∧ ⟨some 1, 3, 1⟩ ∈ s := by
  obtain ⟨firsts, lasts, ⟨a, ha⟩, hends, hcalls⟩ :=
    call_sets_closed_form built_alias validate_alias
  obtain ⟨s, hs, hmem, -⟩ := hcalls 6 aliasGrammar.root ⟨0, 0⟩ rfl rfl
  have hfresh : Analysis.start aliasGrammar = .ok ⟨aliasGrammar, .new, .new .empty, .new .empty⟩ :=
    rfl
  obtain rfl := Except.ok.inj (ha.symm.trans hfresh)
  -- what a new analysis answers about the two bodies
  have hends : ∀ r d ps, aliasGrammar.rules[r]? = some d →
      (Analysis.firsts d.body ⟨aliasGrammar, .new, .new .empty, .new .empty⟩).map (·.1) = .ok ps →
      (Analysis.lasts d.body ⟨aliasGrammar, .new, .new .empty, .new .empty⟩).map (·.1) = .ok ps →
        firsts r = ps ∧ lasts r = ps := by
    intro r d ps hd hfirsts hlasts
    obtain ⟨⟨a₁, h₁⟩, a₂, h₂⟩ := (hends r d hd).imp (· _ (.fresh hfresh)) (· _ (.fresh hfresh))
    rw [h₁] at hfirsts
    rw [h₂] at hlasts
    exact ⟨Except.ok.inj hfirsts, Except.ok.inj hlasts⟩
  obtain ⟨hfa, hla⟩ := hends 0 _ (.ofList [0, 1]) rfl (by decide +kernel) (by decide +kernel)
  obtain ⟨hfb, hlb⟩ := hends 1 _ (.ofList [3]) rfl (by decide +kernel) (by decide +kernel)
  have ha : 0 ∈ firsts 0 ∧ 0 ∈ lasts 0 := by simp [hfa, hla]
  have hb : 3 ∈ firsts 1 ∧ 3 ∈ lasts 1 := by simp [hfb, hlb]
  have hab : aliasGrammar.Spans firsts lasts 0 1 := ⟨0, ha.1, ha.2, rfl⟩
  have hba : aliasGrammar.Spans firsts lasts 1 0 := ⟨3, hb.1, hb.2, rfl⟩
  have hst : aliasGrammar.Begins firsts 0 1 := ⟨0, ha.1, rfl⟩
  refine ⟨built_alias, validate_alias, s, hs, ?_, ?_, ?_⟩
  · exact (hmem _).2 (.inl ⟨1, .single hab, rfl⟩)
  · exact (hmem _).2 (.inr ⟨0, 0, 1, 0, .refl, ⟨ha.1, rfl⟩, .single hba, rfl⟩)
  · exact (hmem _).2 (.inr ⟨1, 3, 0, 1, .single hst, ⟨hb.1, rfl⟩, .single hab, rfl⟩)

end CallSets

end Grammar

end TokenGrammar
