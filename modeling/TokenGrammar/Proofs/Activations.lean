import TokenGrammar.Proofs.Arrivals
import TokenGrammar.Proofs.CallSets

/-!
# Activations

The root is active from the start, and a rule becomes active when control arrives at a call of it. An
activation is known by its body and by what had been read when it was entered; all its callers share
it. When it is complete, control returns to the callers. A caller that is complete with it is passed
over: then control returns to the callers of the caller.
-/

namespace TokenGrammar

/-- The root, or the body of a rule, entered when `start` had been read. -/
structure Activation where
  top : Option Nat
  start : List Token
  deriving DecidableEq, Repr

namespace Grammar

inductive Entered (g : Grammar) : Activation → Prop
  | root : Entered g ⟨none, []⟩
  | call {x : Activation} {e : Expr} {w : List Token} {p a : Nat} (h : Entered g x)
    (he : g.top? x.top = some e) (ha : g.Arrive e w p) (hp : g.calleeAt? p = some a) :
    Entered g ⟨some a, x.start ++ w⟩

/-- When `u` has been read, control may stand before the position `p` in an activation. -/
def At (g : Grammar) (x : Activation) (u : List Token) (p : Nat) : Prop :=
  g.Entered x ∧ ∃ e w, g.top? x.top = some e ∧ u = x.start ++ w ∧ g.Arrive e w p

/-- The body that an activation belongs to may be complete after a position. -/
def Last (g : Grammar) (k : Option Nat) (p : Nat) : Prop :=
  ∃ e, g.top? k = some e ∧ p ∈ e.lastSet g.emptyAt

/-- In a body, `q` may come after `p`; the end mark comes after what may end the root. -/
def Next (g : Grammar) (k : Option Nat) (p q : Nat) : Prop :=
  (∃ e, g.top? k = some e ∧ e.Follows g.emptyAt p q) ∨ k = none ∧ g.Last k p ∧ q = g.endIndex

/-- When the rule `a` that was entered after `u` is complete, control goes on after `c` in an
activation. -/
inductive Returns (g : Grammar) : Nat → List Token → Nat → Activation → Prop
  | direct {x : Activation} {u : List Token} {c a b : Nat} (h : g.At x u c)
    (hc : g.calleeAt? c = some a) (hb : Relation.ReflTransGen g.Aliases a b) : Returns g b u c x
  | tail {x : Activation} {s u : List Token} {r d a b c : Nat} (h : g.At ⟨some r, s⟩ u d)
    (hne : s ≠ u) (hl : g.Last (some r) d) (hd : g.calleeAt? d = some a)
    (hb : Relation.ReflTransGen g.Aliases a b) (h' : Returns g r s c x) : Returns g b u c x

/-- What a rule derives. -/
def RuleDerives (g : Grammar) (a : Nat) (w : List Token) : Prop :=
  ∃ b, g.top? (some a) = some b ∧ g.Derives b w

def AcceptsAt (g : Grammar) (p : Nat) (t : Token) : Prop :=
  ∃ x, g.nodes[p]? = some x ∧ x.isTerminal = true ∧ x.accepts t = .ok true

variable {g : Grammar} {x : Activation} {u v w : List Token} {a b c p q : Nat} {t : Token}

theorem AcceptsAt.derivesAt (h : g.AcceptsAt p t) : g.DerivesAt p [t] := by
  obtain ⟨x, hx, ht, ha⟩ := h
  exact ⟨x, hx, .terminal ht ha⟩

theorem WellFormed.derivesAt_call (hg : g.WellFormed) (h : g.calleeAt? p = some a)
    (hd : g.RuleDerives a w) : g.DerivesAt p w := by
  obtain ⟨ref, k, s, hs, rfl, rfl⟩ := hg.call_of_calleeAt h
  obtain ⟨b, hb, hd⟩ := hd
  exact (derivesAt_iff hs).2 (.call hb hd)

namespace Valid

variable (hg : g.Valid)
include hg

theorem complete (h : g.At x u p) (hd : g.DerivesAt p v) (hl : g.Last x.top p) :
    ∃ e w, g.top? x.top = some e ∧ u ++ v = x.start ++ w ∧ g.Derives e w := by
  obtain ⟨-, e, w, he, rfl, ha⟩ := h
  obtain ⟨e', he', hl⟩ := hl
  obtain rfl := Option.some.inj (he.symm.trans he')
  refine ⟨e, w ++ v, he, List.append_assoc .., ?_⟩
  exact hg.derives_of_last (hg.inner_top he) (hg.marks_nodup he) ha hd hl

theorem at_of_follows {e : Expr} (h : g.At x u p) (hd : g.DerivesAt p v)
    (he : g.top? x.top = some e) (hf : e.Follows g.emptyAt p q) : g.At x (u ++ v) q := by
  obtain ⟨hx, e', w, he', rfl, ha⟩ := h
  obtain rfl := Option.some.inj (he.symm.trans he')
  refine ⟨hx, e, w ++ v, he, List.append_assoc .., ?_⟩
  exact hg.arrive_of_follows (hg.inner_top he) (hg.marks_nodup he) ha hd hf

theorem ruleDerives_of_aliases (h : Relation.ReflTransGen g.Aliases a b)
    (hd : g.RuleDerives b w) : g.RuleDerives a w := by
  induction h using Relation.ReflTransGen.head_induction_on with
  | refl => exact hd
  | head hab _ ih =>
    obtain ⟨d, e, he, hf, hl, hd⟩ := hab
    have hin := hg.inner_top he
    have ha := (hg.arrive_nil_iff hin).2 hf
    have hdd := hg.derivesAt_call hd ih
    exact ⟨e, he, hg.derives_of_last hin (hg.marks_nodup he) ha hdd hl⟩

theorem derivesAt_of_returns (h : g.Returns a u c x) (hd : g.RuleDerives a w) :
    ∃ u' v', u' ++ v' = u ++ w ∧ g.At x u' c ∧ g.DerivesAt c v' := by
  induction h generalizing w with
  | @direct x u c a b h hc hb =>
    exact ⟨u, w, rfl, h, hg.derivesAt_call hc (hg.ruleDerives_of_aliases hb hd)⟩
  | @tail x s u r d a b c h hne hl hd' hb _ ih =>
    have hdd := hg.derivesAt_call hd' (hg.ruleDerives_of_aliases hb hd)
    obtain ⟨e, w', he, hw, hw'⟩ := hg.complete h hdd hl
    rw [hw]
    exact ih ⟨e, he, hw'⟩

theorem at_start_iff {k : Option Nat} : g.At ⟨k, u⟩ u p ↔
    g.Entered ⟨k, u⟩ ∧ ∃ e, g.top? k = some e ∧ p ∈ e.firstSet g.emptyAt := by
  refine and_congr_right fun _ => ⟨?_, ?_⟩
  · rintro ⟨e, w, he, hw, ha⟩
    obtain rfl := List.append_right_eq_self.1 hw.symm
    exact ⟨e, he, (hg.arrive_nil_iff (hg.inner_top he)).1 ha⟩
  · rintro ⟨e, he, hp⟩
    exact ⟨e, [], he, (List.append_nil u).symm, (hg.arrive_nil_iff (hg.inner_top he)).2 hp⟩

end Valid

theorem At.entered_call (h : g.At x u p) (hp : g.calleeAt? p = some a) :
    g.Entered ⟨some a, u⟩ := by
  obtain ⟨hx, e, w, he, rfl, ha⟩ := h
  exact .call hx he ha hp

theorem Returns.alias (h : g.Returns a u c x) (hab : Relation.ReflTransGen g.Aliases a b) :
    g.Returns b u c x := by
  cases h with
  | direct h hc ha => exact .direct h hc (ha.trans hab)
  | tail h hne hl hd ha h' => exact .tail h hne hl hd (ha.trans hab) h'

/-- Returning to an activation that is complete then is returning to where it returns. -/
theorem Valid.returns_trans (hg : g.Valid) {s : List Token} {r d : Nat}
    (h : g.Returns a u d ⟨some r, s⟩) (hl : g.Last (some r) d) (h' : g.Returns r s c x) :
    g.Returns a u c x := by
  generalize hy : (⟨some r, s⟩ : Activation) = y at h
  induction h with
  | @direct y u d a b h hd hb =>
    subst hy
    by_cases hne : s = u
    · -- called before anything is read, and complete with it: an alias
      subst hne
      obtain ⟨-, e, he, hf⟩ := hg.at_start_iff.1 h
      obtain ⟨e', he', hl⟩ := hl
      obtain rfl := Option.some.inj (he.symm.trans he')
      exact h'.alias (.head ⟨d, e, he, hf, hl, hd⟩ hb)
    · exact .tail h hne hl hd hb h'
  | tail h hne hl' hd hb _ ih => exact .tail h hne hl' hd hb (ih hl hy)

/-- A position that is complete with a token is so because a terminal has accepted the token, in the
same activation or in one that returns there. -/
theorem Valid.terminal_of_endsAt (hg : g.Valid) (h : g.At x u p) (he : g.EndsAt p v t) :
    ∃ y q, g.At y (u ++ v) q ∧ g.AcceptsAt q t ∧
      (y = x ∧ q = p ∨ ∃ a s, y = ⟨some a, s⟩ ∧ g.Last (some a) q ∧ g.Returns a s p x) := by
  induction he generalizing x u with
  | @terminal n p t hn ht ha =>
    refine ⟨x, p, ?_, ⟨n, hn, ht, ha⟩, .inl ⟨rfl, rfl⟩⟩
    rwa [List.append_nil]
  | @call p a q b u' v t hp hb ha hl _ ih =>
    have hq : g.At ⟨some a, u⟩ (u ++ u') q := ⟨h.entered_call hp, b, u', hb, rfl, ha⟩
    have hr : g.Returns a u p x := .direct h hp .refl
    have hlast : g.Last (some a) q := ⟨b, hb, hl⟩
    obtain ⟨y, q', hy, hacc, hor⟩ := ih hq
    rw [List.append_assoc] at hy
    refine ⟨y, q', hy, hacc, .inr ?_⟩
    rcases hor with ⟨rfl, rfl⟩ | ⟨a', s', rfl, hl', hr'⟩
    · exact ⟨a, u, rfl, hlast, hr⟩
    · exact ⟨a', s', rfl, hl', hg.returns_trans hr' hlast hr⟩

end Grammar

end TokenGrammar
