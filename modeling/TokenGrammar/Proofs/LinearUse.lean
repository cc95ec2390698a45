import TokenGrammar.Proofs.BuilderSteps
import TokenGrammar.Proofs.Finishing
import TokenGrammar.Proofs.Safety

/-!
# Linear use of nodes

Whatever clients do with a builder, every node has at most one parent, all references stay within the
builder, and the call sites of a rule are numbered without gaps. The trees of a finished grammar
therefore share no node.
-/

namespace TokenGrammar

def Expr.siteOf? (k : RuleRef) : Expr → Option Nat
  | .call _ k' site => if k' = k then some site else none
  | _ => none

theorem Expr.siteOf?_eq_none {k : RuleRef} {e : Expr} (h : e.callee? ≠ some k) :
    e.siteOf? k = none := by
  cases e with
  | call r k' site => exact if_neg fun hk => h (congrArg some hk)
  | _ => rfl

namespace Builder

variable {α : Type} {b b' : Builder} {act : BuildM α}

def sitesOf (b : Builder) (k : RuleRef) : List Nat := b.exprs.filterMap (Expr.siteOf? k)

/-- What the names that nodes carry have to do with where the nodes are. -/
structure Tagged (b : Builder) : Prop where
  ref : ∀ {i : Nat} {e : Expr}, b.exprs[i]? = some e → e.ref = ⟨b.id, i⟩
  callee : ∀ {i : Nat} {e : Expr} {k : RuleRef}, b.exprs[i]? = some e → e.callee? = some k →
    k.owner = b.id ∧ k.index < b.rules.size
  sites : ∀ {r : Nat} {d : RuleDecl}, b.rules[r]? = some d →
    b.sitesOf ⟨b.id, r⟩ = List.range d.sites

namespace Tagged

theorem new (id : Nat) : Tagged (new id) where
  ref h := by simp [Builder.new, exprs] at h
  callee h := by simp [Builder.new, exprs] at h
  sites h := by simp [Builder.new] at h

variable (h : Tagged b)
include h

theorem sitesOf_eq_nil {k : RuleRef} (hk : b.rules.size ≤ k.index) : b.sitesOf k = [] := by
  apply List.filterMap_eq_nil_iff.2
  intro e he
  obtain ⟨i, hi⟩ := List.getElem?_of_mem he
  apply Expr.siteOf?_eq_none
  intro hc
  have := (h.callee hi hc).2
  omega

theorem push {e : Expr} {t : Bool} {rules : Array RuleDecl} (hr : e.ref = ⟨b.id, b.slots.size⟩)
    (hsize : rules.size = b.rules.size)
    (hc : ∀ k, e.callee? = some k → k.owner = b.id ∧ k.index < b.rules.size)
    (hs : ∀ {r : Nat} {d : RuleDecl}, rules[r]? = some d →
      b.sitesOf ⟨b.id, r⟩ ++ (e.siteOf? ⟨b.id, r⟩).toList = List.range d.sites) :
    Tagged { b with slots := b.slots.push ⟨e, t, false⟩, rules } where
  ref {i x} hx := by
    rw [exprs_push, List.getElem?_append] at hx
    split at hx
    · exact h.ref hx
    · obtain rfl : x = e := List.mem_singleton.1 (List.mem_of_getElem? hx)
      have hlt := (List.getElem?_eq_some_iff.1 hx).1
      have hlen : b.exprs.length = b.slots.size := by simp [exprs]
      rw [List.length_singleton] at hlt
      rw [hr, show i = b.slots.size by omega]
  callee {i x k} hx hk := by
    rw [exprs_push, List.getElem?_append] at hx
    rw [hsize]
    split at hx
    · exact h.callee hx hk
    · obtain rfl := List.mem_singleton.1 (List.mem_of_getElem? hx)
      exact hc k hk
  sites {r d} hd := by
    rw [sitesOf, exprs_push, List.filterMap_append, ← hs hd]
    congr 1

theorem same_nodes (hid : b'.id = b.id) (he : b'.exprs = b.exprs)
    (hsize : b.rules.size ≤ b'.rules.size)
    (hs : ∀ {r : Nat} {d : RuleDecl}, b'.rules[r]? = some d →
      b.sitesOf ⟨b.id, r⟩ = List.range d.sites) : Tagged b' where
  ref hx := by
    rw [hid]
    exact h.ref (he ▸ hx)
  callee hx hk := by
    obtain ⟨ho, hlt⟩ := h.callee (he ▸ hx) hk
    exact ⟨ho.trans hid.symm, hlt.trans_le hsize⟩
  sites hd := by
    rw [hid, sitesOf, he]
    exact hs hd

/-- Each step keeps the names in order. -/
theorem step (hb : Step b b') : Tagged b' := by
  cases hb with
  | node e he hc =>
    apply h.push he rfl
    · intro k hk
      rw [hc] at hk
      cases hk
    · intro r d hd
      rw [Expr.siteOf?_eq_none (by simp [hc])]
      simpa using h.sites hd
  | @call k d hk =>
    obtain ⟨ho, hd⟩ := ruleDecl?_eq_some_iff.1 hk
    have hlt := (Array.getElem?_eq_some_iff.1 hd).1
    apply h.push rfl Array.size_modify
    · intro k' hk'
      obtain rfl := Option.some.inj hk'
      exact ⟨ho, hlt⟩
    · intro r d' hd'
      rw [getElem?_modify_rules (by simp [hd])] at hd'
      split at hd'
      · rename_i hr
        subst hr
        obtain rfl := Option.some.inj hd'
        rw [h.sites hd, List.range_succ, ← ho]
        simp [Expr.siteOf?]
      · rename_i hr
        rw [h.sites hd', Expr.siteOf?_eq_none]
        · simp
        · intro hkr
          exact hr (congrArg (·.index) (Option.some.inj hkr))
  | mark i => exact h.same_nodes rfl (exprs_mark i) le_rfl h.sites
  | rule name =>
    refine h.same_nodes rfl rfl (by simp) ?_
    intro r d hd
    rw [Array.getElem?_push] at hd
    split at hd
    · rename_i hr
      obtain rfl := Option.some.inj hd
      exact h.sitesOf_eq_nil (Nat.le_of_eq hr.symm)
    · exact h.sites hd
  | @body k d hk _ e =>
    obtain ⟨-, hd⟩ := ruleDecl?_eq_some_iff.1 hk
    refine h.same_nodes rfl rfl (by simp) ?_
    intro r d' hd'
    rw [getElem?_modify_rules (by simp [hd])] at hd'
    split at hd'
    · rename_i hr
      obtain rfl := Option.some.inj hd'
      have hs := h.sites hd
      rwa [hr] at hs
    · exact h.sites hd'

theorem steps (hb : Steps b b') : Tagged b' := hb.keep step h

end Tagged

/-- Nodes and rules are used linearly. -/
structure Linear (b : Builder) : Prop where
  /-- Every node is where its own handle says. -/
  node : ∀ {i : Nat} {s : Slot}, b.slots[i]? = some s → s.expr.ref = ⟨b.id, i⟩
  /-- Operands are older nodes of the builder, and installed. -/
  operand : ∀ {i : Nat} {s : Slot}, b.slots[i]? = some s → ∀ c ∈ s.expr.operands,
    c.ref.owner = b.id ∧ c.ref.index < i ∧ ∃ t, b.slot? c.ref = some ⟨c, t, true⟩
  /-- Bodies of rules are nodes of the builder, and installed. -/
  body : ∀ {r : Nat} {d : RuleDecl} {e : Expr}, b.rules[r]? = some d → d.body = some e →
    e.ref.owner = b.id ∧ ∃ t, b.slot? e.ref = some ⟨e, t, true⟩
  /-- Calls call rules of the builder. -/
  callee : ∀ {i : Nat} {s : Slot} {k : RuleRef}, b.slots[i]? = some s →
    s.expr.callee? = some k → b.ownsRule k = true
  /-- No node is at two places, be they operands or bodies. -/
  once : ∀ {p p' : Place} {e e' : Expr}, b.at? p = some e → b.at? p' = some e' → e.ref = e'.ref →
    p = p'
  /-- What is marked as a terminal is a test of single tokens, and the other way round. -/
  terminal : ∀ {i : Nat} {s : Slot}, b.slots[i]? = some s →
    isTerminal ⟨b.id, i⟩ b = (.ok s.terminal, b) ∧ (s.terminal = true ↔ s.expr.Testing)
  /-- Each call site of a rule is made once. -/
  sites : ∀ {r : Nat} {d : RuleDecl}, b.rules[r]? = some d →
    b.sitesOf ⟨b.id, r⟩ = List.range d.sites

theorem Tagged.ref_of_slot (h : Tagged b) {i : Nat} {s : Slot} (hs : b.slots[i]? = some s) :
    s.expr.ref = ⟨b.id, i⟩ := by
  apply h.ref
  rw [getElem?_exprs, hs]
  rfl

/-- What the places tell about parents and the names tell about nodes is linear use. -/
theorem Tagged.linear {held kept : List Expr} (h : Tagged b) (hs : Sound held kept b) :
    Linear b where
  node := h.ref_of_slot
  operand {i s} hi c hc := by
    obtain ⟨k, hk⟩ := List.getElem?_of_mem hc
    have hp : b.at? (.operand i k) = some c := by simp [at?, hi, hk]
    have hin := hs.installed _ c hp
    have href := h.ref_of_slot hin
    refine ⟨congrArg (·.owner) href, hs.before i s hi c hc, c.isTerminal, ?_⟩
    rw [href, slot?_own, ← hin]
  body {r d e} hd he := by
    have hp : b.at? (.body r) = some e := by simp [at?, hd, he]
    have hin := hs.installed _ e hp
    have href := h.ref_of_slot hin
    refine ⟨congrArg (·.owner) href, e.isTerminal, ?_⟩
    rw [href, slot?_own, ← hin]
  callee {i s k} hi hk := by
    obtain ⟨ho, hlt⟩ := h.callee (by rw [getElem?_exprs, hi]; rfl) hk
    simp [ownsRule, ruleDecl?, ho, hlt]
  once hp hp' he := hs.once _ _ _ _ hp hp' (congrArg (·.index) he)
  terminal {i s} hi := by
    refine ⟨?_, ?_⟩
    · rw [isTerminal_apply, slot?_own, hi]
      rfl
    · rw [hs.flag i s hi, Expr.testing_iff]
  sites := h.sites

end Builder

/-- The trees of the grammar are made of nodes of its own, and none of them is in two trees, or
twice in one. -/
structure Grammar.Apart (g : Grammar) : Prop where
  stored : ∀ {k : Option Nat} {e x : Expr}, g.top? k = some e → x ∈ e.parts →
    x.ref.owner = g.id ∧ g.nodes[x.ref.index]? = some x
  finite : ∀ {k : Option Nat} {e : Expr}, g.top? k = some e → e.parts.length ≤ g.nodes.size
  once : ∀ {k : Option Nat} {e : Expr}, g.top? k = some e → (e.parts.map (·.ref)).Nodup
  apart : ∀ {k k' : Option Nat} {e e' : Expr}, g.top? k = some e → g.top? k' = some e' → k ≠ k' →
    (e.parts.map (·.ref)).Disjoint (e'.parts.map (·.ref))

namespace Grammar

theorem WellFormed.apart_of_owner {g : Grammar} (h : g.WellFormed)
    (ho : ∀ {i : Nat} {x : Expr}, g.nodes[i]? = some x → x.ref.owner = g.id) : g.Apart where
  stored he hx :=
    have hs := h.stores_part (h.top he).1 hx
    ⟨ho hs, hs⟩
  finite {k e} he := by
    have hsub : e.indices ⊆ List.range g.nodes.size := by
      intro i hi
      obtain ⟨x, hx, rfl⟩ := List.mem_map.1 hi
      exact List.mem_range.2 (h.stores_part (h.top he).1 hx).index_lt
    simpa [Expr.indices] using (List.subperm_of_subset (h.once he) hsub).length_le
  once {k e} he := by
    apply List.Nodup.of_map (·.index)
    rw [List.map_map]
    exact h.once he
  apart {k k' e e'} he he' hk := by
    intro r hr hr'
    obtain ⟨x, hx, rfl⟩ := List.mem_map.1 hr
    obtain ⟨y, hy, hyx⟩ := List.mem_map.1 hr'
    refine hk (h.apart he he' (List.mem_map_of_mem hx) ?_)
    rw [← hyx]
    exact List.mem_map_of_mem hy

end Grammar

namespace Builder

variable {α : Type} {b : Builder} {act : BuildM α} {rules : List Rule} {e : Expr}

theorem Tagged.owner_finished (h : Tagged b) {i : Nat} {x : Expr}
    (hx : (b.finished rules e).nodes[i]? = some x) : x.ref.owner = b.id := by
  rcases mem_finished_iff.1 hx with ⟨s, hs, rfl⟩ | ⟨-, rfl⟩
  · exact congrArg (·.owner) (h.ref_of_slot hs)
  · rfl

/-- The trees of a grammar that is made from linearly used nodes are apart. -/
theorem Tagged.apart_of_finalize (h : Tagged b) (hs : Sound [] [] b) {root : NodeRef} {g : Grammar}
    (hf : b.finalize root = .ok g) : g.Apart := by
  have hclose := does_close root b hs
  have htag := h.steps (stepwise_close root b)
  rw [show (close root b).1 = .ok g from hf] at hclose
  obtain ⟨e, rules, hs', hr, rfl⟩ := hclose
  exact (wellFormed_finished hs' hr).apart_of_owner htag.owner_finished

/-- Whatever a client does with a new builder, nodes are used linearly, and the trees of the grammar
that is finished then, if it can be finished, share no node. -/
theorem linear_use (h : Client act) (id : Nat) :
    Linear (act (new id)).2 ∧
      ∀ root g, (act (new id)).2.finalize root = .ok g → g.Apart := by
  have htag : Tagged (act (new id)).2 := (Tagged.new id).steps (h.stepwise _)
  have hs : Sound [] [] (act (new id)).2 := h.safe.run (sound_new id)
  exact ⟨htag.linear hs, fun root g hf => htag.apart_of_finalize hs hf⟩

/-- A node that is used three times, once next to a node of another builder. -/
def tripled : BuildM NodeRef := do
  let a ← token (.equal 97)
  let _ ← attempt (seq a ⟨7, 0⟩)
  seq a a

theorem linear_use_tripled :
    Linear (tripled (new 0)).2 ∧
      (tripled (new 0)).2.finalize ⟨0, 3⟩ = .ok (
        let l := Expr.token ⟨0, 1⟩ (.equal 97)
        let r := Expr.token ⟨0, 2⟩ (.equal 97)
        ⟨0, #[.token ⟨0, 0⟩ (.equal 97), l, r, .seq ⟨0, 3⟩ l r, .endMark ⟨0, 4⟩],
          #[true, true, true, false, false], #[], .seq ⟨0, 3⟩ l r⟩) ∧
      ∀ g, (tripled (new 0)).2.finalize ⟨0, 3⟩ = .ok g → g.Apart := by
  have hclient : Client tripled :=
    .bind (.token _) fun a => .bind (.attempt (.seq a _)) fun _ => .seq a a
  obtain ⟨hlin, hfin⟩ := linear_use hclient 0
  exact ⟨hlin, by decide +kernel, fun g hg => hfin _ g hg⟩

end Builder

end TokenGrammar
