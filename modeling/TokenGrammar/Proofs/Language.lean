import TokenGrammar.Proofs.WellFormed

/-!
# The language of an expression

The token strings that an expression derives, as the least family of sets that is closed under what
the operators mean. The empty string is derived by exactly the expressions that are nullable when the
calls that derive it are.
-/

namespace TokenGrammar

/-- Whether an expression derives the empty string, given which calls do. -/
def Expr.nullable (calls : Nat → Bool) : Expr → Bool
  | token _ _ | conj _ _ _ | endMark _ => false
  | eps _ => true
  | alt _ l r => l.nullable calls || r.nullable calls
  | seq _ l r => l.nullable calls && r.nullable calls
  | plus _ c => c.nullable calls
  | call ref _ _ => calls ref.index

theorem Expr.nullable_of_terminal {e : Expr} (h : e.isTerminal = true) (calls : Nat → Bool) :
    e.nullable calls = false := by
  induction e with
  | token | conj => rfl
  | alt r a b iha ihb =>
    obtain ⟨ha, hb⟩ := Bool.and_eq_true_iff.1 h
    rw [nullable, iha ha, ihb hb, Bool.or_false]
  | eps | seq | plus | call | endMark => cases h

namespace Grammar

/-- The token strings that an expression stands for. -/
inductive Derives (g : Grammar) : Expr → List Token → Prop
  | terminal {e : Expr} {t : Token} (h : e.isTerminal = true) (ha : e.accepts t = .ok true) :
    Derives g e [t]
  | eps (r : NodeRef) : Derives g (.eps r) []
  | altLeft {r : NodeRef} {a b : Expr} {w : List Token} (h : Derives g a w) :
    Derives g (.alt r a b) w
  | altRight {r : NodeRef} {a b : Expr} {w : List Token} (h : Derives g b w) :
    Derives g (.alt r a b) w
  | seq {r : NodeRef} {a b : Expr} {u v : List Token} (h : Derives g a u) (h' : Derives g b v) :
    Derives g (.seq r a b) (u ++ v)
  | once {r : NodeRef} {c : Expr} {w : List Token} (h : Derives g c w) : Derives g (.plus r c) w
  | more {r : NodeRef} {c : Expr} {u v : List Token} (h : Derives g c u)
    (h' : Derives g (.plus r c) v) : Derives g (.plus r c) (u ++ v)
  | call {r : NodeRef} {k : RuleRef} {s : Nat} {b : Expr} {w : List Token}
    (hb : g.top? (some k.index) = some b) (h : Derives g b w) : Derives g (.call r k s) w

/-- The sentences of a grammar are what its root derives. -/
def Sentence (g : Grammar) (w : List Token) : Prop := g.Derives g.root w

variable {g : Grammar}

private theorem accepts_alt {r : NodeRef} {a b : Expr} {t : Token}
    (h : (Expr.alt r a b).isTerminal = true) (ha : (Expr.alt r a b).accepts t = .ok true) :
    a.isTerminal = true ∧ a.accepts t = .ok true ∨ b.isTerminal = true ∧ b.accepts t = .ok true := by
  have hab := Bool.and_eq_true_iff.1 h
  obtain ⟨x, hx⟩ := Expr.accepts_of_terminal hab.1 t
  cases x with
  | true => exact .inl ⟨hab.1, hx⟩
  | false =>
    refine .inr ⟨hab.2, ?_⟩
    rw [Expr.accepts, hx] at ha
    exact ha

theorem derives_alt_iff {r : NodeRef} {a b : Expr} {w : List Token} :
    g.Derives (.alt r a b) w ↔ g.Derives a w ∨ g.Derives b w := by
  constructor
  · intro h
    cases h with
    | terminal h ha =>
      exact (accepts_alt h ha).imp (fun h => .terminal h.1 h.2) fun h => .terminal h.1 h.2
    | altLeft h => exact .inl h
    | altRight h => exact .inr h
  · exact fun h => h.elim .altLeft .altRight

theorem derives_seq_iff {r : NodeRef} {a b : Expr} {w : List Token} :
    g.Derives (.seq r a b) w ↔ ∃ u v, w = u ++ v ∧ g.Derives a u ∧ g.Derives b v := by
  constructor
  · intro h
    cases h with
    | terminal h => cases h
    | seq h h' => exact ⟨_, _, rfl, h, h'⟩
  · rintro ⟨u, v, rfl, h, h'⟩
    exact .seq h h'

theorem derives_call_iff {r : NodeRef} {k : RuleRef} {s : Nat} {w : List Token} :
    g.Derives (.call r k s) w ↔ ∃ b, g.top? (some k.index) = some b ∧ g.Derives b w := by
  constructor
  · intro h
    cases h with
    | terminal h => cases h
    | call hb h => exact ⟨_, hb, h⟩
  · rintro ⟨b, hb, h⟩
    exact .call hb h

theorem derives_terminal_iff {e : Expr} (h : e.isTerminal = true) {w : List Token} :
    g.Derives e w ↔ ∃ t, w = [t] ∧ e.accepts t = .ok true := by
  constructor
  · intro hd
    induction hd with
    | terminal _ ha => exact ⟨_, rfl, ha⟩
    | altLeft _ ih =>
      obtain ⟨t, rfl, ha⟩ := ih (Bool.and_eq_true_iff.1 h).1
      refine ⟨t, rfl, ?_⟩
      rw [Expr.accepts, ha]
      rfl
    | @altRight r a b w _ ih =>
      obtain ⟨t, rfl, hb⟩ := ih (Bool.and_eq_true_iff.1 h).2
      obtain ⟨x, hx⟩ := Expr.accepts_of_terminal (Bool.and_eq_true_iff.1 h).1 t
      refine ⟨t, rfl, ?_⟩
      rw [Expr.accepts, hx]
      cases x with
      | true => rfl
      | false => exact hb
    | eps | seq | once | more | call => cases h
  · rintro ⟨t, rfl, ha⟩
    exact .terminal h ha

theorem derives_plus_append {r : NodeRef} {c : Expr} {u v : List Token}
    (h : g.Derives (.plus r c) u) (h' : g.Derives (.plus r c) v) :
    g.Derives (.plus r c) (u ++ v) := by
  generalize he : Expr.plus r c = e at h
  induction h with
  | once hc =>
    cases he
    exact .more hc h'
  | more hc _ _ ih =>
    cases he
    rw [List.append_assoc]
    exact .more hc (ih rfl)
  | terminal ht =>
    cases he
    cases ht
  | eps | altLeft | altRight | seq | call => cases he

theorem derives_plus_nil_iff {r : NodeRef} {c : Expr} :
    g.Derives (.plus r c) [] ↔ g.Derives c [] := by
  refine ⟨fun h => ?_, .once⟩
  generalize he : Expr.plus r c = e at h
  generalize hw : ([] : List Token) = w at h
  cases h with
  | once hc =>
    cases he
    exact hc
  | more hc _ =>
    cases he
    rw [(List.append_eq_nil_iff.1 hw.symm).1] at hc
    exact hw ▸ hc
  | terminal => cases hw
  | eps | altLeft | altRight | seq | call => cases he

theorem not_derives_endMark {r : NodeRef} {w : List Token} : ¬ g.Derives (.endMark r) w := by
  intro h
  cases h with
  | terminal h => cases h

/-- Whether the call at a node derives the empty string. -/
noncomputable def emptyAt (g : Grammar) (i : Nat) : Bool := by
  classical exact decide (∃ e, g.nodes[i]? = some e ∧ g.Derives e [])

theorem emptyAt_iff {e : Expr} (h : g.Stores e) :
    g.emptyAt e.ref.index = true ↔ g.Derives e [] := by
  unfold Stores at h
  simp [emptyAt, h]

theorem Valid.nullable_iff (hg : g.Valid) {e : Expr} (h : g.Stores e) :
    e.nullable g.emptyAt = true ↔ g.Derives e [] := by
  induction e with
  | token r t => simp [Expr.nullable, derives_terminal_iff (g := g) (e := .token r t) rfl]
  | eps r => simp [Expr.nullable, Derives.eps]
  | alt r a b iha ihb =>
    obtain ⟨ha, hb⟩ := hg.stores_alt h
    rw [derives_alt_iff, ← iha ha, ← ihb hb, Expr.nullable, Bool.or_eq_true]
  | seq r a b iha ihb =>
    obtain ⟨ha, hb⟩ := hg.stores_seq h
    rw [derives_seq_iff, Expr.nullable, Bool.and_eq_true, iha ha, ihb hb]
    constructor
    · exact fun ⟨ha, hb⟩ => ⟨[], [], rfl, ha, hb⟩
    · rintro ⟨u, v, hw, ha, hb⟩
      obtain ⟨rfl, rfl⟩ := List.append_eq_nil_iff.1 hw.symm
      exact ⟨ha, hb⟩
  | conj r a b =>
    simp [Expr.nullable, derives_terminal_iff (g := g) (hg.terminal_of_conj h)]
  | plus r c ih =>
    rw [derives_plus_nil_iff, Expr.nullable]
    exact ih (hg.stores_plus h)
  | call r k s => exact emptyAt_iff h
  | endMark r => simp [Expr.nullable, not_derives_endMark]

end Grammar

end TokenGrammar
