import TokenGrammar.Analysis.Reachable
import TokenGrammar.Proofs.Inclusion
import TokenGrammar.Proofs.Nullability
import Mathlib.Logic.Relation

/-!
# Which rules an expression leads to

An expression leads to the rules that it calls, to those that their bodies call, and so on along
chains of calls. This is the least solution of the equations of the analysis.
-/

namespace TokenGrammar

/-- The rules that an expression can lead to, given where its calls lead. -/
def Expr.leadsTo (calls : Nat → RuleSet) : Expr → RuleSet
  | token _ _ | conj _ _ _ | endMark _ | eps _ => .empty
  | alt _ l r | seq _ l r => (l.leadsTo calls).union (r.leadsTo calls)
  | plus _ c => c.leadsTo calls
  | call ref _ _ => calls ref.index

namespace Grammar

variable {g : Grammar}

/-- The body of one rule calls another rule. -/
def Invokes (g : Grammar) (a b : Nat) : Prop :=
  ∃ e, g.top? (some a) = some e ∧ ∃ k ∈ e.calls, g.calleeAt? k = some b

/-- A chain of calls that starts in an expression ends in a call of a rule. -/
def LeadsTo (g : Grammar) (e : Expr) (r : Nat) : Prop :=
  ∃ k ∈ e.calls, ∃ a, g.calleeAt? k = some a ∧ Relation.ReflTransGen g.Invokes a r

theorem WellFormed.lt_of_invokes (hg : g.WellFormed) {a b : Nat} (h : g.Invokes a b) :
    b < g.rules.size := by
  obtain ⟨e, -, k, -, hk⟩ := h
  exact hg.calleeAt_lt hk

theorem WellFormed.lt_of_chain (hg : g.WellFormed) {a b : Nat} (ha : a < g.rules.size)
    (h : Relation.ReflTransGen g.Invokes a b) : b < g.rules.size := by
  cases h with
  | refl => exact ha
  | tail _ h => exact hg.lt_of_invokes h

/-- The rules that the call at a node leads to. -/
noncomputable def rulesFrom (g : Grammar) (k : Nat) : RuleSet :=
  .restrict (Finset.range g.rules.size) fun r =>
    ∃ a, g.calleeAt? k = some a ∧ Relation.ReflTransGen g.Invokes a r

theorem WellFormed.mem_rulesFrom_iff (hg : g.WellFormed) {k r : Nat} :
    r ∈ g.rulesFrom k ↔ ∃ a, g.calleeAt? k = some a ∧ Relation.ReflTransGen g.Invokes a r := by
  rw [rulesFrom, AscSet.mem_restrict, Finset.mem_range]
  refine ⟨fun h => h.2, fun ⟨a, ha, h⟩ => ⟨?_, a, ha, h⟩⟩
  exact hg.lt_of_chain (hg.calleeAt_lt ha) h

theorem Valid.mem_leadsTo_iff (hg : g.Valid) {e : Expr} (h : g.Stores e) {f : Nat → RuleSet}
    {r : Nat} : r ∈ e.leadsTo f ↔ ∃ k ∈ e.calls, r ∈ f k := by
  induction e with
  | token | eps | endMark => simp [Expr.leadsTo, Expr.calls]
  | alt _ a b iha ihb =>
    obtain ⟨ha, hb⟩ := hg.stores_alt h
    rw [Expr.leadsTo, AscSet.mem_union, iha ha, ihb hb, Expr.calls_alt]
    simp only [List.mem_append, or_and_right, exists_or]
  | seq _ a b iha ihb =>
    obtain ⟨ha, hb⟩ := hg.stores_seq h
    rw [Expr.leadsTo, AscSet.mem_union, iha ha, ihb hb, Expr.calls_seq]
    simp only [List.mem_append, or_and_right, exists_or]
  | conj q a b => simp [Expr.leadsTo, Expr.calls_of_terminal (hg.terminal_of_conj h)]
  | plus _ c ih => exact ih (hg.stores_plus h)
  | call => simp [Expr.leadsTo]

theorem WellFormed.leadsTo_bodyAt_iff (hg : g.WellFormed) {k a r : Nat}
    (ha : g.calleeAt? k = some a) :
    g.LeadsTo (g.bodyAt k) r ↔ ∃ b, g.Invokes a b ∧ Relation.ReflTransGen g.Invokes b r := by
  constructor
  · rintro ⟨c, hc, b, hb, h⟩
    exact ⟨b, ⟨_, hg.bodyAt_eq ha, c, hc, hb⟩, h⟩
  · rintro ⟨b, ⟨e, he, c, hc, hb⟩, h⟩
    obtain rfl := Option.some.inj ((hg.bodyAt_eq ha).symm.trans he)
    exact ⟨c, hc, b, hb, h⟩

theorem Valid.reachableEquation_ok (hg : g.Valid) {e : Expr} (h : g.Stores e) :
    g.reachableEquation e = .ok ⟨e.calls, fun calls => e.leadsTo calls⟩ := by
  have hknown : ∀ x : Expr, g.Stores x → x.isTerminal = true →
      Equation.known .empty = ⟨x.calls, fun calls => x.leadsTo calls⟩ := by
    intro x hx ht
    have hcalls := Expr.calls_of_terminal ht
    have hempty : ∀ calls, x.leadsTo calls = .empty := fun calls => AscSet.ext_mem fun r => by
      rw [hg.mem_leadsTo_iff hx, hcalls]
      simp
    simp only [Equation.known, hcalls, hempty]
  induction e with
  | token | eps | endMark | call => exact ok_bind (hg.isTerminal_ok h)
  | alt r a b iha ihb =>
    obtain ⟨ha, hb⟩ := hg.stores_alt h
    rw [reachableEquation, ok_bind (hg.isTerminal_ok h)]
    split
    · rename_i ht
      exact congrArg _ (hknown _ h ht)
    · rw [ok_bind (iha ha), ok_bind (ihb hb)]
      rfl
  | seq r a b iha ihb =>
    obtain ⟨ha, hb⟩ := hg.stores_seq h
    exact (ok_bind (hg.isTerminal_ok h)).trans ((ok_bind (iha ha)).trans (ok_bind (ihb hb)))
  | plus r c ih => exact (ok_bind (hg.isTerminal_ok h)).trans (ih (hg.stores_plus h))
  | conj r a b =>
    have ht := hg.terminal_of_conj h
    rw [reachableEquation, ok_bind (hg.isTerminal_ok h), if_pos ht]
    exact congrArg _ (hknown _ h ht)

/-- Where calls lead is the least solution of its equations. -/
noncomputable def Valid.reachables (hg : g.Valid) : g.reachableSystem.Solution where
  good _ := True
  keys := g.callKeys
  equation k := ⟨(g.bodyAt k).calls,
    fun calls => ((g.bodyAt k).leadsTo calls).insert ((g.calleeAt? k).getD 0)⟩
  value := g.rulesFrom
  rank := AscSet.size
  height := g.rules.size
  found k hk s _ := by
    obtain ⟨r, hr⟩ := mem_callKeys_iff.1 hk
    obtain ⟨q, hqr, hq⟩ := hg.calledBody_ok hr
    have he := hg.reachableEquation_ok (hg.stores_bodyAt hk)
    refine ⟨s, ?_, trivial⟩
    refine (run_bind (run_lift hq)).trans ((run_bind (run_lift he)).trans ?_)
    rw [hr, Option.getD_some, ← hqr]
    rfl
  reads_mem := hg.calls_bodyAt_mem
  monotone k hk f f' h := by
    intro r hr
    have hs := hg.stores_bodyAt hk
    rw [AscSet.mem_insert, hg.mem_leadsTo_iff hs] at hr ⊢
    exact hr.imp_right fun ⟨c, hc, hr⟩ => ⟨c, hc, h c hc r hr⟩
  solves k hk := by
    obtain ⟨a, ha⟩ := mem_callKeys_iff.1 hk
    refine AscSet.ext_mem fun r => ?_
    have hl : (∃ c ∈ (g.bodyAt k).calls, r ∈ g.rulesFrom c) ↔ g.LeadsTo (g.bodyAt k) r := by
      simp only [LeadsTo, hg.mem_rulesFrom_iff]
    rw [AscSet.mem_insert, hg.mem_leadsTo_iff (hg.stores_bodyAt hk), hl,
      hg.leadsTo_bodyAt_iff ha, hg.mem_rulesFrom_iff, ha, Option.getD_some]
    simp only [Option.some.injEq, exists_eq_left']
    rw [Relation.ReflTransGen.cases_head_iff, eq_comm]
  least K f hk hc hf k hkk := by
    intro r hr
    obtain ⟨a, ha, h⟩ := hg.mem_rulesFrom_iff.1 hr
    -- a chain is followed from its first call, which may be any key of the set
    induction h using Relation.ReflTransGen.head_induction_on generalizing k with
    | refl =>
      rw [← hf k hkk, AscSet.mem_insert, ha]
      exact .inl rfl
    | head hab hbr ih =>
      obtain ⟨e, he, c, hce, hcb⟩ := hab
      obtain rfl := Option.some.inj ((hg.bodyAt_eq ha).symm.trans he)
      have hrc := ih c (hc k hkk c hce) (hg.mem_rulesFrom_iff.2 ⟨_, hcb, hbr⟩) hcb
      rw [← hf k hkk, AscSet.mem_insert, hg.mem_leadsTo_iff (hg.stores_bodyAt (hk k hkk))]
      exact .inr ⟨c, hce, hrc⟩
  rank_lt _ _ := AscSet.size_lt_of_lt
  rank_le k _ := by
    refine (AscSet.size_le_card (F := Finset.range g.rules.size) fun r hr => ?_).trans_eq
      (Finset.card_range _)
    exact (AscSet.mem_restrict.1 hr).1
  depth := g.card_callKeys_lt
  rounds := by
    have := Nat.mul_le_mul_right g.rules.size g.card_callKeys_le
    show g.callKeys.card * g.rules.size < g.nodes.size * g.rules.size + 2
    omega

/-- The bodies that a recognizer of the grammar can come to. -/
def Uses (g : Grammar) (k : Option Nat) : Prop := ∀ r, k = some r → g.LeadsTo g.root r

theorem uses_root : g.Uses none := by
  intro r hr
  cases hr

theorem Uses.call {k : Option Nat} {e : Expr} {c a : Nat} (hk : g.Uses k) (he : g.top? k = some e)
    (hc : c ∈ e.calls) (ha : g.calleeAt? c = some a) : g.Uses (some a) := by
  intro r hr
  obtain rfl := Option.some.inj hr
  cases k with
  | none =>
    obtain rfl := Option.some.inj he
    exact ⟨c, hc, a, ha, .refl⟩
  | some b =>
    obtain ⟨c', hc', a', ha', hb⟩ := hk b rfl
    exact ⟨c', hc', a', ha', hb.tail ⟨e, he, c, hc, ha⟩⟩

end Grammar

end TokenGrammar
