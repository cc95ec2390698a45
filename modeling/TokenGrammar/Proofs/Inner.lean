import TokenGrammar.Proofs.PositionSets
import Mathlib.Logic.Relation

/-!
# The shapes of inner nodes

Every node but the end mark is a terminal, a call, or made of such by alternatives, sequences and
repetition. What is known about first, last and neighbouring positions is said once for each of these
shapes; a terminal counts as a whole.
-/

namespace TokenGrammar

namespace Expr

variable {calls : Nat → Bool} {r : NodeRef} {a b c e : Expr} {p q : Nat}

theorem mem_firstSet_alt (h : (alt r a b).isTerminal = false) :
    p ∈ (alt r a b).firstSet calls ↔ p ∈ a.firstSet calls ∨ p ∈ b.firstSet calls := by
  rw [firstSet, if_neg (by simp [h]), AscSet.mem_union]

theorem mem_lastSet_alt (h : (alt r a b).isTerminal = false) :
    p ∈ (alt r a b).lastSet calls ↔ p ∈ a.lastSet calls ∨ p ∈ b.lastSet calls := by
  rw [lastSet, if_neg (by simp [h]), AscSet.mem_union]

theorem mem_firstSet_seq :
    p ∈ (seq r a b).firstSet calls ↔
      p ∈ a.firstSet calls ∨ a.nullable calls = true ∧ p ∈ b.firstSet calls := by
  rw [firstSet]
  split
  · rename_i h
    simp [h]
  · rename_i h
    simp [h]

theorem mem_lastSet_seq :
    p ∈ (seq r a b).lastSet calls ↔
      p ∈ b.lastSet calls ∨ b.nullable calls = true ∧ p ∈ a.lastSet calls := by
  rw [lastSet]
  split
  · rename_i h
    simp [h]
  · rename_i h
    simp [h]

theorem not_follows_of_terminal (h : e.isTerminal = true) : ¬ e.Follows calls p q := by
  rintro ⟨j, hj, -⟩
  rw [jointList_of_terminal h] at hj
  cases hj

theorem follows_alt_iff (h : (alt r a b).isTerminal = false) :
    (alt r a b).Follows calls p q ↔ a.Follows calls p q ∨ b.Follows calls p q := by
  rw [Follows, jointList, if_neg (by simp [h])]
  simp only [List.mem_append, or_and_right, exists_or]
  exact or_comm

theorem follows_seq_iff :
    (seq r a b).Follows calls p q ↔
      p ∈ a.lastSet calls ∧ q ∈ b.firstSet calls ∨ a.Follows calls p q ∨ b.Follows calls p q := by
  rw [Follows, jointList]
  simp only [List.mem_cons, List.mem_append, or_and_right, exists_or, exists_eq_left]
  exact or_congr_right or_comm

theorem follows_plus_iff :
    (plus r c).Follows calls p q ↔
      p ∈ c.lastSet calls ∧ q ∈ c.firstSet calls ∨ c.Follows calls p q := by
  rw [Follows, jointList]
  simp only [List.mem_cons, or_and_right, exists_or, exists_eq_left]
  rfl

/-- One comes from a position to another along positions that may follow each other. -/
abbrev Leads (calls : Nat → Bool) (e : Expr) : Nat → Nat → Prop :=
  Relation.ReflTransGen (e.Follows calls)

theorem Leads.imp (h : a.Leads calls p q)
    (hf : ∀ p q, a.Follows calls p q → e.Follows calls p q) : e.Leads calls p q :=
  Relation.ReflTransGen.mono hf _ _ h

theorem Leads.alt_left (ht : (alt r a b).isTerminal = false) (h : a.Leads calls p q) :
    (alt r a b).Leads calls p q := h.imp fun _ _ hf => (follows_alt_iff ht).2 (.inl hf)

theorem Leads.alt_right (ht : (alt r a b).isTerminal = false) (h : b.Leads calls p q) :
    (alt r a b).Leads calls p q := h.imp fun _ _ hf => (follows_alt_iff ht).2 (.inr hf)

theorem Leads.seq_left (h : a.Leads calls p q) : (seq r a b).Leads calls p q :=
  h.imp fun _ _ hf => follows_seq_iff.2 (.inr (.inl hf))

theorem Leads.seq_right (h : b.Leads calls p q) : (seq r a b).Leads calls p q :=
  h.imp fun _ _ hf => follows_seq_iff.2 (.inr (.inr hf))

theorem Leads.plus (h : c.Leads calls p q) : (plus r c).Leads calls p q :=
  h.imp fun _ _ hf => follows_plus_iff.2 (.inr hf)

/-- The left part of a sequence is left at a last position for a first one of the right part. -/
theorem Leads.across {l f : Nat} (hl : a.Leads calls p l) (hj : l ∈ a.lastSet calls)
    (hj' : f ∈ b.firstSet calls) (hf : b.Leads calls f q) : (seq r a b).Leads calls p q :=
  (hl.seq_left.tail (follows_seq_iff.2 (.inl ⟨hj, hj'⟩))).trans hf.seq_right

end Expr

namespace Grammar

variable {g : Grammar} {e : Expr}

/-- A node that is not the end mark. -/
structure Inner (g : Grammar) (e : Expr) : Prop where
  stores : g.Stores e
  lt_end : e.ref.index < g.endIndex

namespace WellFormed

variable (hg : g.WellFormed)
include hg

theorem inner_operand (h : g.Inner e) {c : Expr} (hc : c ∈ e.operands) : g.Inner c := by
  obtain ⟨hs, hlt⟩ := hg.operand h.stores c hc
  exact ⟨hs, hlt.trans h.lt_end⟩

theorem inner_alt {r : NodeRef} {a b : Expr} (h : g.Inner (.alt r a b)) : g.Inner a ∧ g.Inner b :=
  ⟨hg.inner_operand h (by simp [Expr.operands]), hg.inner_operand h (by simp [Expr.operands])⟩

theorem inner_seq {r : NodeRef} {a b : Expr} (h : g.Inner (.seq r a b)) : g.Inner a ∧ g.Inner b :=
  ⟨hg.inner_operand h (by simp [Expr.operands]), hg.inner_operand h (by simp [Expr.operands])⟩

theorem inner_plus {r : NodeRef} {c : Expr} (h : g.Inner (.plus r c)) : g.Inner c :=
  hg.inner_operand h (by simp [Expr.operands])

theorem inner_top {k : Option Nat} (h : g.top? k = some e) : g.Inner e := by
  obtain ⟨hs, hne⟩ := hg.top h
  have hlt : e.ref.index < g.nodes.size := Stores.index_lt hs
  refine ⟨hs, ?_⟩
  unfold endIndex at hne ⊢
  omega

end WellFormed

/-- Induction on the shape of an inner node of a valid grammar. -/
theorem Valid.inner_induction (hg : g.Valid) {motive : (e : Expr) → g.Inner e → Prop}
    (terminal : ∀ (e : Expr) (h : g.Inner e), e.isTerminal = true → motive e h)
    (call : ∀ (r : NodeRef) (k : RuleRef) (s : Nat) (h : g.Inner (.call r k s)), motive _ h)
    (eps : ∀ (r : NodeRef) (h : g.Inner (.eps r)), motive _ h)
    (alt : ∀ (r : NodeRef) (a b : Expr) (h : g.Inner (.alt r a b)) (ha : g.Inner a)
      (hb : g.Inner b), (Expr.alt r a b).isTerminal = false → motive a ha → motive b hb →
      motive _ h)
    (seq : ∀ (r : NodeRef) (a b : Expr) (h : g.Inner (.seq r a b)) (ha : g.Inner a)
      (hb : g.Inner b), motive a ha → motive b hb → motive _ h)
    (plus : ∀ (r : NodeRef) (c : Expr) (h : g.Inner (.plus r c)) (hc : g.Inner c), motive c hc →
      motive _ h) (e : Expr) (h : g.Inner e) : motive e h := by
  induction e with
  | token r t => exact terminal _ h rfl
  | eps r => exact eps r h
  | alt r a b iha ihb =>
    obtain ⟨ha, hb⟩ := hg.inner_alt h
    cases ht : (Expr.alt r a b).isTerminal with
    | true => exact terminal _ h ht
    | false => exact alt r a b h ha hb ht (iha ha) (ihb hb)
  | seq r a b iha ihb =>
    obtain ⟨ha, hb⟩ := hg.inner_seq h
    exact seq r a b h ha hb (iha ha) (ihb hb)
  | conj r a b => exact terminal _ h (hg.terminal_of_conj h.stores)
  | plus r c ih =>
    have hc : g.Inner c := hg.inner_plus h
    exact plus r c h hc (ih hc)
  | call r k s => exact call r k s h
  | endMark r =>
    have := hg.endMark_only h.stores
    exact absurd h.lt_end (by omega)

namespace Valid

variable (hg : g.Valid) {p q : Nat}
include hg

theorem mem_marks_of_first (h : g.Inner e) (hp : p ∈ e.firstSet g.emptyAt) : p ∈ e.marks := by
  induction e, h using hg.inner_induction with
  | terminal e h ht =>
    rw [Expr.firstSet_of_terminal ht, AscSet.mem_single] at hp
    rw [Expr.marks_of_terminal ht, hp]
    exact List.mem_singleton.2 rfl
  | call r k s h => exact List.mem_singleton.2 (AscSet.mem_single.1 hp)
  | eps r h => exact absurd hp (AscSet.not_mem_empty p)
  | alt r a b h ha hb ht iha ihb =>
    rw [Expr.marks_alt ht, List.mem_append]
    exact ((Expr.mem_firstSet_alt ht).1 hp).imp iha ihb
  | seq r a b h ha hb iha ihb =>
    rw [Expr.marks_seq, List.mem_append]
    exact (Expr.mem_firstSet_seq.1 hp).imp iha fun hp => ihb hp.2
  | plus r c h hc ih => exact ih hp

theorem mem_marks_of_last (h : g.Inner e) (hp : p ∈ e.lastSet g.emptyAt) : p ∈ e.marks := by
  induction e, h using hg.inner_induction with
  | terminal e h ht =>
    rw [Expr.lastSet_of_terminal ht, AscSet.mem_single] at hp
    rw [Expr.marks_of_terminal ht, hp]
    exact List.mem_singleton.2 rfl
  | call r k s h => exact List.mem_singleton.2 (AscSet.mem_single.1 hp)
  | eps r h => exact absurd hp (AscSet.not_mem_empty p)
  | alt r a b h ha hb ht iha ihb =>
    rw [Expr.marks_alt ht, List.mem_append]
    exact ((Expr.mem_lastSet_alt ht).1 hp).imp iha ihb
  | seq r a b h ha hb iha ihb =>
    rw [Expr.marks_seq, List.mem_append]
    exact (Expr.mem_lastSet_seq.1 hp).symm.imp (fun hp => iha hp.2) ihb
  | plus r c h hc ih => exact ih hp

theorem mem_marks_of_follows (h : g.Inner e) (hf : e.Follows g.emptyAt p q) :
    p ∈ e.marks ∧ q ∈ e.marks := by
  induction e, h using hg.inner_induction with
  | terminal e h ht => exact absurd hf (Expr.not_follows_of_terminal ht)
  | call r k s h => exact absurd hf (by rintro ⟨j, hj, -⟩; cases hj)
  | eps r h => exact absurd hf (by rintro ⟨j, hj, -⟩; cases hj)
  | alt r a b h ha hb ht iha ihb =>
    simp only [Expr.marks_alt ht, List.mem_append]
    rcases (Expr.follows_alt_iff ht).1 hf with hf | hf
    · exact (iha hf).imp .inl .inl
    · exact (ihb hf).imp .inr .inr
  | seq r a b h ha hb iha ihb =>
    simp only [Expr.marks_seq, List.mem_append]
    rcases Expr.follows_seq_iff.1 hf with ⟨hp, hq⟩ | hf | hf
    · exact ⟨.inl (hg.mem_marks_of_last ha hp), .inr (hg.mem_marks_of_first hb hq)⟩
    · exact (iha hf).imp .inl .inl
    · exact (ihb hf).imp .inr .inr
  | plus r c h hc ih =>
    rw [Expr.marks_plus]
    rcases Expr.follows_plus_iff.1 hf with ⟨hp, hq⟩ | hf
    · exact ⟨hg.mem_marks_of_last hc hp, hg.mem_marks_of_first hc hq⟩
    · exact ih hf

/-- An expression that no position comes first in derives the empty string. -/
theorem nullable_of_no_first (h : g.Inner e) (hn : ∀ q, q ∉ e.firstSet g.emptyAt) :
    e.nullable g.emptyAt = true := by
  induction e, h using hg.inner_induction with
  | terminal e h ht =>
    rw [Expr.firstSet_of_terminal ht] at hn
    exact absurd (AscSet.mem_single.2 rfl) (hn e.ref.index)
  | call r k s h => exact absurd (AscSet.mem_single.2 rfl) (hn r.index)
  | eps r h => rfl
  | alt r a b h ha hb ht iha ihb =>
    have hna := iha fun q hq => hn q ((Expr.mem_firstSet_alt ht).2 (.inl hq))
    rw [Expr.nullable, hna, Bool.true_or]
  | seq r a b h ha hb iha ihb =>
    have hna := iha fun q hq => hn q (Expr.mem_firstSet_seq.2 (.inl hq))
    have hnb := ihb fun q hq => hn q (Expr.mem_firstSet_seq.2 (.inr ⟨hna, hq⟩))
    rw [Expr.nullable, hna, hnb, Bool.true_and]
  | plus r c h hc ih => exact ih hn

theorem exists_first (h : g.Inner e) (hn : ¬ e.nullable g.emptyAt = true) :
    ∃ q, q ∈ e.firstSet g.emptyAt := by
  by_contra hno
  exact hn (hg.nullable_of_no_first h (not_exists.1 hno))

theorem leads_to_last (h : g.Inner e) (hp : p ∈ e.marks) :
    ∃ l ∈ e.lastSet g.emptyAt, e.Leads g.emptyAt p l := by
  induction e, h using hg.inner_induction generalizing p with
  | terminal e h ht =>
    rw [Expr.marks_of_terminal ht, List.mem_singleton] at hp
    rw [Expr.lastSet_of_terminal ht]
    exact ⟨p, AscSet.mem_single.2 hp, .refl⟩
  | call r k s h => exact ⟨p, AscSet.mem_single.2 (List.mem_singleton.1 hp), .refl⟩
  | eps r h => exact absurd hp List.not_mem_nil
  | alt r a b h ha hb ht iha ihb =>
    rw [Expr.marks_alt ht, List.mem_append] at hp
    rcases hp with hp | hp
    · obtain ⟨l, hl, hpl⟩ := iha hp
      exact ⟨l, (Expr.mem_lastSet_alt ht).2 (.inl hl), hpl.alt_left ht⟩
    · obtain ⟨l, hl, hpl⟩ := ihb hp
      exact ⟨l, (Expr.mem_lastSet_alt ht).2 (.inr hl), hpl.alt_right ht⟩
  | seq r a b h ha hb iha ihb =>
    rw [Expr.marks_seq, List.mem_append] at hp
    rcases hp with hp | hp
    · obtain ⟨l, hl, hpl⟩ := iha hp
      by_cases hn : b.nullable g.emptyAt = true
      · exact ⟨l, Expr.mem_lastSet_seq.2 (.inr ⟨hn, hl⟩), hpl.seq_left⟩
      · -- something comes first in the right part, and from there one comes to its end
        obtain ⟨f, hf⟩ := hg.exists_first hb hn
        obtain ⟨l', hl', hfl⟩ := ihb (hg.mem_marks_of_first hb hf)
        exact ⟨l', Expr.mem_lastSet_seq.2 (.inl hl'), hpl.across hl hf hfl⟩
    · obtain ⟨l, hl, hpl⟩ := ihb hp
      exact ⟨l, Expr.mem_lastSet_seq.2 (.inl hl), hpl.seq_right⟩
  | plus r c h hc ih =>
    obtain ⟨l, hl, hpl⟩ := ih hp
    exact ⟨l, hl, hpl.plus⟩

theorem leads_from_first (h : g.Inner e) (hp : p ∈ e.marks) :
    ∃ f ∈ e.firstSet g.emptyAt, e.Leads g.emptyAt f p := by
  induction e, h using hg.inner_induction generalizing p with
  | terminal e h ht =>
    rw [Expr.marks_of_terminal ht, List.mem_singleton] at hp
    rw [Expr.firstSet_of_terminal ht]
    exact ⟨p, AscSet.mem_single.2 hp, .refl⟩
  | call r k s h => exact ⟨p, AscSet.mem_single.2 (List.mem_singleton.1 hp), .refl⟩
  | eps r h => exact absurd hp List.not_mem_nil
  | alt r a b h ha hb ht iha ihb =>
    rw [Expr.marks_alt ht, List.mem_append] at hp
    rcases hp with hp | hp
    · obtain ⟨f, hf, hfp⟩ := iha hp
      exact ⟨f, (Expr.mem_firstSet_alt ht).2 (.inl hf), hfp.alt_left ht⟩
    · obtain ⟨f, hf, hfp⟩ := ihb hp
      exact ⟨f, (Expr.mem_firstSet_alt ht).2 (.inr hf), hfp.alt_right ht⟩
  | seq r a b h ha hb iha ihb =>
    rw [Expr.marks_seq, List.mem_append] at hp
    rcases hp with hp | hp
    · obtain ⟨f, hf, hfp⟩ := iha hp
      exact ⟨f, Expr.mem_firstSet_seq.2 (.inl hf), hfp.seq_left⟩
    · obtain ⟨f, hf, hfp⟩ := ihb hp
      by_cases hn : a.nullable g.emptyAt = true
      · exact ⟨f, Expr.mem_firstSet_seq.2 (.inr ⟨hn, hf⟩), hfp.seq_right⟩
      · -- something comes first in the left part, and from there one comes to its end
        obtain ⟨q, hq⟩ := hg.exists_first ha hn
        obtain ⟨l, hl, hql⟩ := hg.leads_to_last ha (hg.mem_marks_of_first ha hq)
        exact ⟨q, Expr.mem_firstSet_seq.2 (.inl hq), hql.across hl hf hfp⟩
  | plus r c h hc ih =>
    obtain ⟨f, hf, hfp⟩ := ih hp
    exact ⟨f, hf, hfp.plus⟩

theorem last_of_dead (h : g.Inner e) (hp : p ∈ e.marks) (hd : ∀ q, ¬ e.Follows g.emptyAt p q) :
    p ∈ e.lastSet g.emptyAt := by
  obtain ⟨l, hl, hpl⟩ := hg.leads_to_last h hp
  rcases hpl.cases_head with rfl | ⟨q, hq, -⟩
  · exact hl
  · exact absurd hq (hd q)

end Valid

end Grammar

end TokenGrammar
