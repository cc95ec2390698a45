import TokenGrammar.Proofs.Inclusion
import TokenGrammar.Proofs.PositionSets
import Mathlib.Data.Finset.Prod
import Mathlib.Logic.Relation

/-!
# Call sets in closed form

A rule starts another when a call of the other may come first in its body, and it is an alias of the
other when that call may at the same time come last. The call set of a call holds an entry of its own
for each rule that the called rule is an alias of, and an entry for each first call of each rule that
the called rule can start with.
-/

namespace TokenGrammar

namespace CallSet

theorem mem_own {s : CallSet} {e : CallEntry} : e ∈ s.own ↔ e ∈ s ∧ e.context = none := by
  rw [own, AscSet.mem_filter, Option.isNone_iff_eq_none]

theorem mem_within {rule : Nat} {s : CallSet} {e : CallEntry} :
    e ∈ within rule s ↔
      (∃ x ∈ s, x.context = none ∧ e = { x with context := some rule }) ∨
        e ∈ s ∧ e.context.isSome = true := by
  rw [within, AscSet.mem_union, AscSet.mem_filter]
  refine or_congr_left ?_
  simp only [AscSet.mem_def, AscSet.mapAscending, List.mem_map]
  constructor
  · rintro ⟨x, hx, rfl⟩
    obtain ⟨hx, hn⟩ := mem_own.1 hx
    exact ⟨x, hx, hn, rfl⟩
  · rintro ⟨x, hx, hn, rfl⟩
    exact ⟨x, mem_own.2 ⟨hx, hn⟩, rfl⟩

theorem mem_aliased {call : Nat} {s : CallSet} {e : CallEntry} :
    e ∈ aliased call s ↔ ∃ x ∈ s, x.context = none ∧ e = direct call x.invoke := by
  rw [aliased, AscSet.mem_ofList, List.mem_map]
  constructor
  · rintro ⟨x, hx, rfl⟩
    obtain ⟨hx, hn⟩ := mem_own.1 hx
    exact ⟨x, hx, hn, rfl⟩
  · rintro ⟨x, hx, hn, rfl⟩
    exact ⟨x, mem_own.2 ⟨hx, hn⟩, rfl⟩

theorem mem_extend {call rule : Nat} {lasts : PosSet} {inner : List (Nat × CallSet)}
    {e : CallEntry} :
    e ∈ extend call rule lasts inner ↔
      e = direct call rule ∨
        ∃ p ∈ inner, e ∈ within rule p.2 ∨ p.1 ∈ lasts ∧ e ∈ aliased call p.2 := by
  rw [extend, ← AscSet.mem_single]
  generalize AscSet.single (direct call rule) = res
  induction inner generalizing res with
  | nil => simp
  | cons p inner ih =>
    rw [List.foldl_cons, ih]
    by_cases hl : p.1 ∈ lasts
    · simp only [AscSet.contains_iff, hl, if_true, AscSet.mem_union, true_and, List.mem_cons,
        exists_eq_or_imp, or_assoc]
    · simp only [AscSet.contains_iff, hl, if_false, AscSet.mem_union, false_and, or_false,
        List.mem_cons, exists_eq_or_imp, or_assoc]

end CallSet

namespace Grammar

variable {g : Grammar}

/-- A call that may come first in the body of one rule and that calls another rule. -/
def FirstCall (g : Grammar) (a d b : Nat) : Prop :=
  ∃ e, g.top? (some a) = some e ∧ d ∈ e.firstSet g.emptyAt ∧ g.calleeAt? d = some b

/-- A first call of one rule that may also be all of its body. -/
def WholeCall (g : Grammar) (a d b : Nat) : Prop :=
  ∃ e, g.top? (some a) = some e ∧ d ∈ e.firstSet g.emptyAt ∧ d ∈ e.lastSet g.emptyAt ∧
    g.calleeAt? d = some b

def Starts (g : Grammar) (a b : Nat) : Prop := ∃ d, g.FirstCall a d b

def Aliases (g : Grammar) (a b : Nat) : Prop := ∃ d, g.WholeCall a d b

theorem WholeCall.firstCall {a d b : Nat} (h : g.WholeCall a d b) : g.FirstCall a d b := by
  obtain ⟨e, he, hf, -, hd⟩ := h
  exact ⟨e, he, hf, hd⟩

theorem FirstCall.callee {a d b : Nat} (h : g.FirstCall a d b) : g.calleeAt? d = some b := by
  obtain ⟨e, -, -, hd⟩ := h
  exact hd

theorem FirstCall.lt_rules {a d b : Nat} (h : g.FirstCall a d b) : a < g.rules.size := by
  obtain ⟨e, he, -, -⟩ := h
  obtain ⟨r, hr, -⟩ := Option.map_eq_some_iff.1 he
  exact (Array.getElem?_eq_some_iff.1 hr).1

/-- What the call set of a call holds. -/
def EntryOf (g : Grammar) (k : Nat) (e : CallEntry) : Prop :=
  ∃ a, g.calleeAt? k = some a ∧
    match e.context with
    | none => e.cont = k ∧ Relation.ReflTransGen g.Aliases a e.invoke
    | some r => Relation.ReflTransGen g.Starts a r ∧
        ∃ b, g.FirstCall r e.cont b ∧ Relation.ReflTransGen g.Aliases b e.invoke

theorem EntryOf.alias {k b : Nat} {e : CallEntry} (h : g.EntryOf k e)
    (hb : Relation.ReflTransGen g.Aliases e.invoke b) : g.EntryOf k { e with invoke := b } := by
  obtain ⟨context, cont, invoke⟩ := e
  obtain ⟨a, ha, h⟩ := h
  cases context with
  | none => exact ⟨a, ha, h.1, h.2.trans hb⟩
  | some c =>
    obtain ⟨hst, d, hf, hal⟩ := h
    exact ⟨a, ha, hst, d, hf, hal.trans hb⟩

theorem EntryOf.cont_lt {k : Nat} {e : CallEntry} (h : g.EntryOf k e) :
    e.cont < g.nodes.size := by
  obtain ⟨context, cont, invoke⟩ := e
  obtain ⟨a, ha, h⟩ := h
  cases context with
  | none =>
    obtain ⟨rfl, -⟩ := h
    exact lt_of_calleeAt ha
  | some r =>
    obtain ⟨-, b, hf, -⟩ := h
    exact lt_of_calleeAt hf.callee

theorem starts_of_aliases {a b : Nat} (h : Relation.ReflTransGen g.Aliases a b) :
    Relation.ReflTransGen g.Starts a b :=
  Relation.ReflTransGen.mono (fun _ _ hab => hab.imp fun _ hd => hd.firstCall) _ _ h

theorem EntryOf.starts {k : Nat} {e : CallEntry} (h : g.EntryOf k e) :
    ∃ a, g.calleeAt? k = some a ∧ Relation.ReflTransGen g.Starts a e.invoke ∧
      ∀ r, e.context = some r → Relation.ReflTransGen g.Starts a r := by
  obtain ⟨context, cont, invoke⟩ := e
  obtain ⟨a, ha, h⟩ := h
  cases context with
  | none =>
    refine ⟨a, ha, starts_of_aliases h.2, fun r hr => ?_⟩
    cases hr
  | some c =>
    obtain ⟨hst, d, hf, hal⟩ := h
    refine ⟨a, ha, (hst.tail ⟨cont, hf⟩).trans (starts_of_aliases hal), fun r hr => ?_⟩
    obtain rfl := Option.some.inj hr
    exact hst

theorem WellFormed.lt_of_aliases (hg : g.WellFormed) {a b : Nat} (ha : a < g.rules.size)
    (h : Relation.ReflTransGen g.Aliases a b) : b < g.rules.size := by
  cases h with
  | refl => exact ha
  | tail _ h =>
    obtain ⟨d, hd⟩ := h
    exact hg.calleeAt_lt hd.firstCall.callee

private def entryOfNumbers (n : Nat × Nat × Nat) : CallEntry :=
  ⟨match n.1 with | 0 => none | r + 1 => some r, n.2.1, n.2.2⟩

private def entryRange (g : Grammar) : Finset CallEntry :=
  (Finset.range (g.rules.size + 1) ×ˢ Finset.range g.nodes.size ×ˢ Finset.range g.rules.size).image
    entryOfNumbers

private theorem card_entryRange_le (g : Grammar) :
    g.entryRange.card ≤ (g.rules.size + 1) * g.nodes.size * g.rules.size := by
  refine Finset.card_image_le.trans_eq ?_
  rw [Finset.card_product, Finset.card_product, Finset.card_range, Finset.card_range,
    Finset.card_range, Nat.mul_assoc]

private theorem mem_entryRange (hg : g.WellFormed) {k : Nat} {e : CallEntry} (h : g.EntryOf k e) :
    e ∈ g.entryRange := by
  have hcont := h.cont_lt
  obtain ⟨a, ha, h⟩ := h
  obtain ⟨context, cont, invoke⟩ := e
  refine Finset.mem_image.2 ?_
  cases context with
  | none =>
    refine ⟨(0, cont, invoke), ?_, rfl⟩
    simp only [Finset.mem_product, Finset.mem_range]
    exact ⟨Nat.succ_pos _, hcont, hg.lt_of_aliases (hg.calleeAt_lt ha) h.2⟩
  | some r =>
    obtain ⟨-, b, hf, hb⟩ := h
    refine ⟨(r + 1, cont, invoke), ?_, rfl⟩
    simp only [Finset.mem_product, Finset.mem_range]
    exact ⟨Nat.succ_lt_succ hf.lt_rules, hcont, hg.lt_of_aliases (hg.calleeAt_lt hf.callee) hb⟩

/-- The call set of the call at a node. -/
noncomputable def callSetAt (g : Grammar) (k : Nat) : CallSet :=
  .restrict g.entryRange (g.EntryOf k)

theorem WellFormed.mem_callSetAt_iff (hg : g.WellFormed) {k : Nat} {e : CallEntry} :
    e ∈ g.callSetAt k ↔ g.EntryOf k e := by
  rw [callSetAt, AscSet.mem_restrict]
  exact ⟨fun h => h.2, fun h => ⟨mem_entryRange hg h, h⟩⟩

noncomputable def innerCalls (g : Grammar) (k : Nat) : List Nat :=
  (((g.bodyAt k).firstSet g.emptyAt).filter g.isCallAt).toList

/-- The equation of a call for its call set. -/
noncomputable def callEquation (g : Grammar) (k : Nat) : Equation CallSet :=
  ⟨g.innerCalls k, fun calls => CallSet.extend k ((g.calleeAt? k).getD 0)
    ((g.bodyAt k).lastSet g.emptyAt) ((g.innerCalls k).map fun c => (c, calls c))⟩

theorem WellFormed.mem_innerCalls_iff (hg : g.WellFormed) {k a d : Nat}
    (ha : g.calleeAt? k = some a) : d ∈ g.innerCalls k ↔ ∃ b, g.FirstCall a d b := by
  rw [innerCalls, ← AscSet.mem_def, AscSet.mem_filter, isCallAt_iff]
  have hb := hg.bodyAt_eq ha
  constructor
  · rintro ⟨hf, b, hd⟩
    exact ⟨b, _, hb, hf, hd⟩
  · rintro ⟨b, e, he, hf, hd⟩
    obtain rfl := Option.some.inj (hb.symm.trans he)
    exact ⟨hf, b, hd⟩

theorem WellFormed.mem_callEquation_iff (hg : g.WellFormed) {k a : Nat}
    (ha : g.calleeAt? k = some a) {f : Nat → CallSet} {e : CallEntry} :
    e ∈ (g.callEquation k).value f ↔
      e = CallSet.direct k a ∨
        (∃ d b, g.FirstCall a d b ∧ e ∈ CallSet.within a (f d)) ∨
        ∃ d b, g.WholeCall a d b ∧ e ∈ CallSet.aliased k (f d) := by
  have hb := hg.bodyAt_eq ha
  rw [callEquation, CallSet.mem_extend, ha, Option.getD_some]
  refine or_congr_right ?_
  constructor
  · rintro ⟨p, hp, h⟩
    obtain ⟨d, hd, rfl⟩ := List.mem_map.1 hp
    obtain ⟨b, hf⟩ := (hg.mem_innerCalls_iff ha).1 hd
    rcases h with h | ⟨hl, h⟩
    · exact .inl ⟨d, b, hf, h⟩
    · obtain ⟨x, hx, hfx, hc⟩ := hf
      obtain rfl := Option.some.inj (hb.symm.trans hx)
      exact .inr ⟨d, b, ⟨_, hx, hfx, hl, hc⟩, h⟩
  · rintro (⟨d, b, hf, h⟩ | ⟨d, b, hw, h⟩)
    · exact ⟨(d, f d), List.mem_map.2 ⟨d, (hg.mem_innerCalls_iff ha).2 ⟨b, hf⟩, rfl⟩, .inl h⟩
    · have hd := (hg.mem_innerCalls_iff ha).2 ⟨b, hw.firstCall⟩
      obtain ⟨x, hx, -, hl, -⟩ := hw
      obtain rfl := Option.some.inj (hb.symm.trans hx)
      exact ⟨(d, f d), List.mem_map.2 ⟨d, hd, rfl⟩, .inr ⟨hl, h⟩⟩

private theorem callSets_solve (hg : g.WellFormed) {k a : Nat} (ha : g.calleeAt? k = some a) :
    (g.callEquation k).value g.callSetAt = g.callSetAt k := by
  refine AscSet.ext_mem fun e => ?_
  rw [hg.mem_callEquation_iff ha, hg.mem_callSetAt_iff]
  constructor
  · rintro (rfl | ⟨d, b, hf, h⟩ | ⟨d, b, hw, h⟩)
    · exact ⟨a, ha, rfl, .refl⟩
    · rcases CallSet.mem_within.1 h with ⟨x, hx, hn, rfl⟩ | ⟨he, hs⟩
      · obtain ⟨b', hb', hx⟩ := hg.mem_callSetAt_iff.1 hx
        obtain rfl := Option.some.inj (hf.callee.symm.trans hb')
        rw [hn] at hx
        obtain ⟨rfl, hal⟩ := hx
        exact ⟨a, ha, .refl, b, hf, hal⟩
      · obtain ⟨b', hb', he⟩ := hg.mem_callSetAt_iff.1 he
        obtain rfl := Option.some.inj (hf.callee.symm.trans hb')
        obtain ⟨r, hr⟩ := Option.isSome_iff_exists.1 hs
        rw [hr] at he
        refine ⟨a, ha, ?_⟩
        rw [hr]
        exact ⟨.head ⟨d, hf⟩ he.1, he.2⟩
    · obtain ⟨x, hx, hn, rfl⟩ := CallSet.mem_aliased.1 h
      obtain ⟨b', hb', hx⟩ := hg.mem_callSetAt_iff.1 hx
      obtain rfl := Option.some.inj (hw.firstCall.callee.symm.trans hb')
      rw [hn] at hx
      exact ⟨a, ha, rfl, .head ⟨d, hw⟩ hx.2⟩
  · rintro ⟨a', ha', he⟩
    obtain rfl := Option.some.inj (ha.symm.trans ha')
    obtain ⟨context, cont, invoke⟩ := e
    cases context with
    | none =>
      obtain ⟨rfl, hal⟩ := he
      rcases hal.cases_head with rfl | ⟨b, ⟨d, hw⟩, hal⟩
      · exact .inl rfl
      · refine .inr (.inr ⟨d, b, hw, CallSet.mem_aliased.2 ⟨CallSet.direct d invoke, ?_, rfl, rfl⟩⟩)
        exact hg.mem_callSetAt_iff.2 ⟨b, hw.firstCall.callee, rfl, hal⟩
    | some r =>
      obtain ⟨hst, b, hf, hal⟩ := he
      rcases hst.cases_head with rfl | ⟨c, ⟨d, hd⟩, hst⟩
      · refine .inr (.inl ⟨cont, b, hf, CallSet.mem_within.2 (.inl ⟨CallSet.direct cont invoke, ?_,
          rfl, rfl⟩)⟩)
        exact hg.mem_callSetAt_iff.2 ⟨b, hf.callee, rfl, hal⟩
      · refine .inr (.inl ⟨d, c, hd, CallSet.mem_within.2 (.inr ⟨?_, rfl⟩)⟩)
        exact hg.mem_callSetAt_iff.2 ⟨c, hd.callee, hst, b, hf, hal⟩

section Least

variable {K : Nat → Prop} {f : Nat → CallSet} (hg : g.WellFormed)
  (hr : ∀ k, K k → ∀ d ∈ g.innerCalls k, K d)
  (hf : ∀ k, K k → (g.callEquation k).value f = f k)
include hg hr hf

/-- Every solution holds the entries that a call has of its own. -/
private theorem own_mem_solution {a x : Nat} (h : Relation.ReflTransGen g.Aliases a x) {k : Nat}
    (hk : K k) (ha : g.calleeAt? k = some a) : CallSet.direct k x ∈ f k := by
  induction h using Relation.ReflTransGen.head_induction_on generalizing k with
  | refl =>
    rw [← hf k hk, hg.mem_callEquation_iff ha]
    exact .inl rfl
  | head hab _ ih =>
    obtain ⟨d, hd⟩ := hab
    have hK := hr k hk d ((hg.mem_innerCalls_iff ha).2 ⟨_, hd.firstCall⟩)
    have hm := ih hK hd.firstCall.callee
    rw [← hf k hk, hg.mem_callEquation_iff ha]
    exact .inr (.inr ⟨d, _, hd, CallSet.mem_aliased.2 ⟨_, hm, rfl, rfl⟩⟩)

/-- Every solution holds the entries that are pending inside the rules that a call starts with. -/
private theorem pending_mem_solution {a r c b x : Nat} (h : Relation.ReflTransGen g.Starts a r)
    (hc : g.FirstCall r c b) (hx : Relation.ReflTransGen g.Aliases b x) {k : Nat} (hk : K k)
    (ha : g.calleeAt? k = some a) : ⟨some r, c, x⟩ ∈ f k := by
  -- from the end of the chain: what is pending in the rule that comes next is pending here too
  induction h using Relation.ReflTransGen.head_induction_on generalizing k with
  | refl =>
    have hK := hr k hk c ((hg.mem_innerCalls_iff ha).2 ⟨_, hc⟩)
    have hm := own_mem_solution hg hr hf hx hK hc.callee
    rw [← hf k hk, hg.mem_callEquation_iff ha]
    exact .inr (.inl ⟨c, b, hc, CallSet.mem_within.2 (.inl ⟨_, hm, rfl, rfl⟩)⟩)
  | head hab _ ih =>
    obtain ⟨d, hd⟩ := hab
    have hK := hr k hk d ((hg.mem_innerCalls_iff ha).2 ⟨_, hd⟩)
    have hm := ih hK hd.callee
    rw [← hf k hk, hg.mem_callEquation_iff ha]
    exact .inr (.inl ⟨d, _, hd, CallSet.mem_within.2 (.inr ⟨hm, rfl⟩)⟩)

private theorem callSetAt_le_solution {k : Nat} (hk : K k) : g.callSetAt k ≤ f k := by
  intro e he
  obtain ⟨a, ha, he⟩ := hg.mem_callSetAt_iff.1 he
  obtain ⟨context, cont, invoke⟩ := e
  cases context with
  | none =>
    obtain ⟨rfl, hal⟩ := he
    exact own_mem_solution hg hr hf hal hk ha
  | some r =>
    obtain ⟨hst, b, hc, hal⟩ := he
    exact pending_mem_solution hg hr hf hst hc hal hk ha

end Least

theorem Admits.callEquation {hg : g.Valid} {Inv : PositionMemo → Prop} (hI : Admits hg Inv) {k : Nat}
    (hk : k ∈ g.callKeys) : Yields Inv (g.callSystem.equation k) (g.callEquation k) := by
  obtain ⟨r, hr⟩ := mem_callKeys_iff.1 hk
  obtain ⟨q, hqr, hq⟩ := hg.calledBody_ok hr
  have hs := hg.stores_bodyAt hk
  have hnodes : g.requireNodes ((g.bodyAt k).firstSet g.emptyAt).toList = .ok () :=
    requireNodes_ok fun i hi =>
      hg.lt_of_mem_indices hs (Expr.mem_indices_of_first (AscSet.mem_def.2 hi))
  rw [Grammar.callEquation, hr, Option.getD_some, ← hqr]
  refine Yields.bind (a := (q, g.bodyAt k)) (.lift hq) ?_
  exact (hI.lasts hs).bind ((hI.firsts hs).bind ((Yields.lift hnodes).bind (.pure _)))

/-- The call sets in closed form are the least solution of their equations. -/
noncomputable def Valid.callSets (hg : g.Valid) : g.callSystem.Solution where
  good := Remembers hg
  keys := g.callKeys
  equation := g.callEquation
  value := g.callSetAt
  rank := AscSet.size
  height := (g.rules.size + 1) * g.nodes.size * g.rules.size
  found _ hk := admits_remembers.callEquation hk
  reads_mem k hk d hd := by
    obtain ⟨r, hr⟩ := mem_callKeys_iff.1 hk
    obtain ⟨b, hf⟩ := (hg.mem_innerCalls_iff hr).1 hd
    exact mem_callKeys_iff.2 ⟨b, hf.callee⟩
  monotone k hk f f' h := by
    intro e he
    obtain ⟨a, ha⟩ := mem_callKeys_iff.1 hk
    have hread : ∀ {d b : Nat}, g.FirstCall a d b → f d ≤ f' d := fun {d b} hf =>
      h d ((hg.mem_innerCalls_iff ha).2 ⟨b, hf⟩)
    rw [hg.mem_callEquation_iff ha] at he ⊢
    rcases he with he | ⟨d, b, hf, he⟩ | ⟨d, b, hw, he⟩
    · exact .inl he
    · refine .inr (.inl ⟨d, b, hf, CallSet.mem_within.2 ?_⟩)
      exact (CallSet.mem_within.1 he).imp (fun ⟨x, hx, h⟩ => ⟨x, hread hf x hx, h⟩)
        fun h => ⟨hread hf e h.1, h.2⟩
    · obtain ⟨x, hx, hn⟩ := CallSet.mem_aliased.1 he
      exact .inr (.inr ⟨d, b, hw, CallSet.mem_aliased.2 ⟨x, hread hw.firstCall x hx, hn⟩⟩)
  solves k hk := by
    obtain ⟨a, ha⟩ := mem_callKeys_iff.1 hk
    exact callSets_solve hg.toWellFormed ha
  least K f hk hr hf k hkk := callSetAt_le_solution hg.toWellFormed hr hf hkk
  rank_lt _ _ := AscSet.size_lt_of_lt
  rank_le k _ := by
    refine (AscSet.size_le_card (F := g.entryRange) fun e he => ?_).trans (card_entryRange_le g)
    exact (AscSet.mem_restrict.1 he).1
  depth := g.card_callKeys_lt
  rounds := by
    have := Nat.mul_le_mul_right ((g.rules.size + 1) * g.nodes.size * g.rules.size)
      g.card_callKeys_le
    show g.callKeys.card * ((g.rules.size + 1) * g.nodes.size * g.rules.size) <
      g.nodes.size * ((g.rules.size + 1) * g.nodes.size * g.rules.size) + 2
    omega

end Grammar

end TokenGrammar
