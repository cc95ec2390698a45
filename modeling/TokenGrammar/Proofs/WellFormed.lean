import TokenGrammar.Grammar
import TokenGrammar.Analysis.CallSet
import TokenGrammar.Proofs.Parts
import TokenGrammar.Proofs.Running

/-!
# Well-formed grammars

A grammar is well formed when every node has its own place and is marked as its tree says, operands
come before what they are operands of, calls call rules that exist, the end mark is no part of
anything, and no node is part of two of the trees that a recognizer works on: the root and the
bodies of the rules. It is valid when it is well formed and has no conjunction over anything but
terminals.
-/

namespace TokenGrammar.Grammar

/-- The trees that a recognizer works on: the root, and the body of each rule. -/
def top? (g : Grammar) : Option Nat → Option Expr
  | none => some g.root
  | some r => g.rules[r]?.map (·.body)

/-- The rule that is called at a node. -/
def calleeAt? (g : Grammar) (i : Nat) : Option Nat :=
  g.nodes[i]?.bind fun e => e.callee?.map (·.index)

/-- The body of the rule that is called at a node. -/
def bodyAt (g : Grammar) (i : Nat) : Expr :=
  ((g.calleeAt? i).bind fun r => g.top? (some r)).getD g.root

structure WellFormed (g : Grammar) : Prop where
  index : ∀ {i : Nat} {e : Expr}, g.nodes[i]? = some e → e.ref.index = i
  flag : ∀ {i : Nat} {e : Expr}, g.nodes[i]? = some e → g.terminals[i]? = some e.isTerminal
  operand : ∀ {i : Nat} {e : Expr}, g.nodes[i]? = some e → ∀ c ∈ e.operands,
    g.nodes[c.ref.index]? = some c ∧ c.ref.index < i
  callee : ∀ {i : Nat} {e : Expr} {r : RuleRef}, g.nodes[i]? = some e → e.callee? = some r →
    r.index < g.rules.size
  endMark : ∃ r, g.nodes[g.endIndex]? = some (.endMark r)
  endMark_only : ∀ {i : Nat} {r : NodeRef}, g.nodes[i]? = some (.endMark r) → i = g.endIndex
  top : ∀ {k : Option Nat} {e : Expr}, g.top? k = some e →
    g.nodes[e.ref.index]? = some e ∧ e.ref.index ≠ g.endIndex
  once : ∀ {k : Option Nat} {e : Expr}, g.top? k = some e → e.indices.Nodup
  apart : ∀ {k k' : Option Nat} {e e' : Expr} {i : Nat}, g.top? k = some e →
    g.top? k' = some e' → i ∈ e.indices → i ∈ e'.indices → k = k'

structure Valid (g : Grammar) : Prop extends g.WellFormed where
  supported : ∀ {i : Nat} {r : NodeRef} {a b : Expr}, g.nodes[i]? = some (.conj r a b) →
    (Expr.conj r a b).isTerminal = true

/-- The node at its own place. -/
def Stores (g : Grammar) (e : Expr) : Prop := g.nodes[e.ref.index]? = some e

theorem Stores.index_lt {g : Grammar} {e : Expr} (h : g.Stores e) : e.ref.index < g.nodes.size :=
  (Array.getElem?_eq_some_iff.1 h).1

theorem node_ok {g : Grammar} {i : Nat} (h : i < g.nodes.size) : g.node i = .ok g.nodes[i] :=
  inRange_ok (Array.getElem?_eq_getElem h)

theorem requireNodes_ok {g : Grammar} {indices : List Nat} (h : ∀ i ∈ indices, i < g.nodes.size) :
    g.requireNodes indices = .ok () := by
  refine forM_ok_iff.2 fun i hi => ?_
  rw [node_ok (h i hi)]
  rfl

theorem isCallAt_iff {g : Grammar} {i : Nat} : g.isCallAt i = true ↔ ∃ r, g.calleeAt? i = some r := by
  unfold isCallAt calleeAt?
  cases h : g.nodes[i]? with
  | none => simp
  | some e => cases h' : e.callee? <;> simp [Expr.isCall, h']

theorem lt_of_calleeAt {g : Grammar} {i r : Nat} (h : g.calleeAt? i = some r) :
    i < g.nodes.size := by
  obtain ⟨e, he, -⟩ := Option.bind_eq_some_iff.1 h
  exact (Array.getElem?_eq_some_iff.1 he).1

theorem Stores.isCallAt {g : Grammar} {e : Expr} (h : g.Stores e) :
    g.isCallAt e.ref.index = e.isCall := by
  simp [Grammar.isCallAt, show g.nodes[e.ref.index]? = some e from h]

theorem Stores.calleeAt? {g : Grammar} {e : Expr} (h : g.Stores e) :
    g.calleeAt? e.ref.index = e.callee?.map (·.index) := by
  simp [Grammar.calleeAt?, show g.nodes[e.ref.index]? = some e from h]

namespace WellFormed

variable {g : Grammar} (hg : g.WellFormed)
include hg

theorem stores {i : Nat} {e : Expr} (h : g.nodes[i]? = some e) : g.Stores e := by
  unfold Stores
  rwa [hg.index h]

theorem isTerminal_ok {e : Expr} (h : g.Stores e) : g.isTerminal e = .ok e.isTerminal :=
  inRange_ok (hg.flag h)

theorem stores_operand {e c : Expr} (h : g.Stores e) (hc : c ∈ e.operands) : g.Stores c :=
  (hg.operand h c hc).1

theorem stores_alt {r : NodeRef} {a b : Expr} (h : g.Stores (.alt r a b)) :
    g.Stores a ∧ g.Stores b :=
  ⟨hg.stores_operand h (by simp [Expr.operands]), hg.stores_operand h (by simp [Expr.operands])⟩

theorem stores_seq {r : NodeRef} {a b : Expr} (h : g.Stores (.seq r a b)) :
    g.Stores a ∧ g.Stores b :=
  ⟨hg.stores_operand h (by simp [Expr.operands]), hg.stores_operand h (by simp [Expr.operands])⟩

theorem stores_plus {r : NodeRef} {c : Expr} (h : g.Stores (.plus r c)) : g.Stores c :=
  hg.stores_operand h (by simp [Expr.operands])

theorem stores_part {e x : Expr} (h : g.Stores e) (hx : x ∈ e.parts) : g.Stores x := by
  induction e using Expr.operand_induction with
  | step e ih =>
    rcases Expr.mem_parts_iff.1 hx with rfl | ⟨c, hc, hx⟩
    · exact h
    · exact ih c hc (hg.stores_operand h hc) hx

theorem lt_of_mem_indices {e : Expr} {i : Nat} (h : g.Stores e) (hi : i ∈ e.indices) :
    i < g.nodes.size := by
  obtain ⟨x, hx, rfl⟩ := List.mem_map.1 hi
  exact (hg.stores_part h hx).index_lt

theorem stores_position {e x : Expr} (h : g.Stores e) (hx : x ∈ e.positions) : g.Stores x :=
  hg.stores_part h (Expr.mem_parts_of_mem_positions hx)

theorem stores_top {k : Option Nat} {e : Expr} (h : g.top? k = some e) : g.Stores e := (hg.top h).1

private theorem walk_cons_ok {e : Expr} (h : g.Stores e) {todo xs : List Expr}
    (hw : g.walk todo = .ok xs) : g.walk (e :: todo) = .ok (e.positions ++ xs) := by
  induction e using Expr.operand_induction generalizing todo xs with
  | step e ih =>
    rw [walk.eq_def]
    dsimp only
    rw [ok_bind (hg.isTerminal_ok h), Expr.positions_eq]
    split
    · rw [ok_bind hw]
      rfl
    · cases e with
      | token | eps | call | endMark => exact hw
      | alt r a b | seq r a b | conj r a b =>
        have ha := hg.stores_operand h (c := a) (by simp [Expr.operands])
        have hb := hg.stores_operand h (c := b) (by simp [Expr.operands])
        have := ih a (by simp [Expr.operands]) ha (ih b (by simp [Expr.operands]) hb hw)
        simpa [Expr.operands] using this
      | plus r a =>
        have := ih a (by simp [Expr.operands]) (hg.stores_plus h) hw
        simpa [Expr.operands] using this

/-- A stack lists the positions of what is on it, from the top down. -/
theorem walk_ok {todo : List Expr} (h : ∀ e ∈ todo, g.Stores e) :
    g.walk todo = .ok (todo.flatMap Expr.positions) := by
  induction todo with
  | nil =>
    rw [walk]
    rfl
  | cons e todo ih =>
    have hes := List.forall_mem_cons.1 h
    exact hg.walk_cons_ok hes.1 (ih hes.2)

theorem positions_ok {e : Expr} (h : g.Stores e) : g.positions e = .ok e.positions := by
  rw [Grammar.positions, hg.walk_ok (by simpa using h), List.flatMap_singleton]

theorem mem_calls_of_mem_marks {e : Expr} {p a : Nat} (he : g.Stores e) (hp : p ∈ e.marks)
    (ha : g.calleeAt? p = some a) : p ∈ e.calls := by
  obtain ⟨x, hx, rfl⟩ := List.mem_map.1 hp
  refine Expr.mem_calls_iff.2 ⟨x, Expr.mem_parts_of_mem_positions hx, ?_, rfl⟩
  rw [← (hg.stores_position he hx).isCallAt, isCallAt_iff]
  exact ⟨a, ha⟩

theorem calleeAt_lt {i r : Nat} (h : g.calleeAt? i = some r) : r < g.rules.size := by
  obtain ⟨e, he, h⟩ := Option.bind_eq_some_iff.1 h
  obtain ⟨q, hq, rfl⟩ := Option.map_eq_some_iff.1 h
  exact hg.callee he hq

omit hg in
theorem top_of_lt {r : Nat} (h : r < g.rules.size) : ∃ b, g.top? (some r) = some b :=
  ⟨g.rules[r].body, by simp [top?, h]⟩

theorem isCallAt_endIndex : g.isCallAt g.endIndex = false := by
  obtain ⟨r, hr⟩ := hg.endMark
  simp [isCallAt, hr, Expr.isCall, Expr.callee?]

theorem call_of_calleeAt {i r : Nat} (h : g.calleeAt? i = some r) :
    ∃ ref k s, g.Stores (.call ref k s) ∧ ref.index = i ∧ k.index = r := by
  obtain ⟨e, he, h⟩ := Option.bind_eq_some_iff.1 h
  obtain ⟨q, hq, rfl⟩ := Option.map_eq_some_iff.1 h
  cases e with
  | call ref k s =>
    obtain rfl := Option.some.inj hq
    exact ⟨ref, k, s, hg.stores he, hg.index he, rfl⟩
  | token | eps | alt | seq | conj | plus | endMark => cases hq

theorem bodyAt_eq {i r : Nat} (h : g.calleeAt? i = some r) :
    g.top? (some r) = some (g.bodyAt i) := by
  obtain ⟨b, hb⟩ := top_of_lt (hg.calleeAt_lt h)
  rw [bodyAt, h, Option.bind_some, hb]
  rfl

theorem calledBody_ok {i r : Nat} (h : g.calleeAt? i = some r) :
    ∃ q : RuleRef, q.index = r ∧ g.calledBody i = .ok (q, g.bodyAt i) := by
  have hb := hg.bodyAt_eq h
  obtain ⟨e, he, h⟩ := Option.bind_eq_some_iff.1 h
  obtain ⟨q, hq, rfl⟩ := Option.map_eq_some_iff.1 h
  obtain ⟨d, hd, hbody⟩ := Option.map_eq_some_iff.1 hb
  refine ⟨q, rfl, ?_⟩
  simp only [calledBody, node, rule, he, hq, hd, inRange, hbody, bind, Except.bind, pure,
    Except.pure]

theorem marks_nodup {k : Option Nat} {e : Expr} (h : g.top? k = some e) : e.marks.Nodup :=
  (hg.once h).sublist e.marks_sublist_indices

end WellFormed

theorem WellFormed.valid {g : Grammar} (hg : g.WellFormed) (hv : g.validate = .ok ()) : g.Valid where
  toWellFormed := hg
  supported {i r a b} hi := by
    have hs := hg.stores hi
    have hok := forM_ok_iff.1 hv _ (Array.mem_toList_iff.2 (Array.mem_of_getElem? hi))
    rw [requireSupported, ok_bind (hg.isTerminal_ok hs)] at hok
    cases ht : (Expr.conj r a b).isTerminal with
    | true => rfl
    | false =>
      have ha := hg.stores_operand hs (c := a) (by simp [Expr.operands])
      rw [ht, if_neg (by simp), ok_bind (hg.isTerminal_ok ha)] at hok
      cases hok

namespace Valid

variable {g : Grammar} (hg : g.Valid)
include hg

theorem terminal_of_conj {r : NodeRef} {a b : Expr} (h : g.Stores (.conj r a b)) :
    (Expr.conj r a b).isTerminal = true := hg.supported h

theorem validate_ok : g.validate = .ok () := by
  refine forM_ok_iff.2 fun e he => ?_
  obtain ⟨i, hi⟩ := Array.getElem?_of_mem (Array.mem_toList_iff.1 he)
  have hs := hg.stores hi
  cases e with
  | conj r a b =>
    rw [requireSupported, ok_bind (hg.isTerminal_ok hs), hg.terminal_of_conj hs]
    rfl
  | token | eps | alt | seq | plus | call | endMark => rfl

end Valid

end TokenGrammar.Grammar
