import TokenGrammar.Proofs.Finishing
import TokenGrammar.Proofs.Inner
import TokenGrammar.Proofs.Safety
import Mathlib.Data.List.Chain

/-!
# Words of positions

An expression stands for words of its positions, as a regular expression does whose letters are the
terminals and the calls. No position is twice in an expression, so its words are local: a word is
known by where it starts, where it ends, and what follows what in it. The first, last and
neighbouring positions that the analysis finds are those of these words.
-/

namespace TokenGrammar

section Chains

variable {α : Type} {R S J : α → α → Prop} {A : α → Prop} {w : List α}

theorem chain_stays (h : ∀ p q, A p → R p q → S p q ∧ A q) (hw : w.IsChain R)
    (hA : ∀ p ∈ w.head?, A p) : w.IsChain S ∧ ∀ p ∈ w, A p := by
  induction w with
  | nil => simp
  | cons p w ih =>
    rw [List.isChain_cons] at hw ⊢
    have hp : A p := hA p rfl
    have hnext : ∀ q ∈ w.head?, S p q ∧ A q := fun q hq => h p q hp (hw.1 q hq)
    obtain ⟨hS, hall⟩ := ih hw.2 fun q hq => (hnext q hq).2
    exact ⟨⟨fun q hq => (hnext q hq).1, hS⟩, List.forall_mem_cons.2 ⟨hp, hall⟩⟩

theorem chain_cut (h : ∀ p q, R p q → S p q ∨ J p q) (hw : w.IsChain R) (hne : w ≠ []) :
    ∃ u v, w = u ++ v ∧ u ≠ [] ∧ u.IsChain S ∧ ∀ p ∈ u.getLast?, ∀ q ∈ v.head?, J p q := by
  induction w with
  | nil => exact absurd rfl hne
  | cons p w ih =>
    cases w with
    | nil => exact ⟨[p], [], rfl, by simp, by simp, by simp⟩
    | cons q w =>
      rw [List.isChain_cons_cons] at hw
      rcases h p q hw.1 with hS | hJ
      · obtain ⟨u, v, hq, hu, hchain, hcut⟩ := ih hw.2 (by simp)
        have hhead : u.head? = some q := by
          cases u with
          | nil => exact absurd rfl hu
          | cons x u => rw [(List.cons.inj hq).1]; rfl
        refine ⟨p :: u, v, by rw [hq]; rfl, by simp, ?_, ?_⟩
        · rw [List.isChain_cons]
          refine ⟨fun x hx => ?_, hchain⟩
          rw [hhead] at hx
          exact Option.some.inj hx ▸ hS
        · rwa [List.getLast?_cons_of_ne_nil hu]
      · exact ⟨[p], q :: w, rfl, by simp, by simp, by simpa using hJ⟩

end Chains

/-- The word leads from a first position to a last one, along positions that may follow each
other. -/
structure Expr.Links (calls : Nat → Bool) (e : Expr) (w : List Nat) : Prop where
  nonempty : w ≠ []
  first : ∀ p ∈ w.head?, p ∈ e.firstSet calls
  last : ∀ q ∈ w.getLast?, q ∈ e.lastSet calls
  chain : w.IsChain (e.Follows calls)

namespace Grammar

/-- The words of positions that an expression stands for. A terminal and a call stand for
themselves; a call whose rule derives the empty string stands for the empty word as well. -/
inductive Spells (g : Grammar) : Expr → List Nat → Prop
  | terminal {e : Expr} (h : e.isTerminal = true) : Spells g e [e.ref.index]
  | call (r : NodeRef) (k : RuleRef) (s : Nat) : Spells g (.call r k s) [r.index]
  | skip (r : NodeRef) {k : RuleRef} (s : Nat) {b : Expr} (hb : g.top? (some k.index) = some b)
    (h : g.Derives b []) : Spells g (.call r k s) []
  | eps (r : NodeRef) : Spells g (.eps r) []
  | altLeft {r : NodeRef} {a b : Expr} {w : List Nat} (ht : (Expr.alt r a b).isTerminal = false)
    (h : Spells g a w) : Spells g (.alt r a b) w
  | altRight {r : NodeRef} {a b : Expr} {w : List Nat} (ht : (Expr.alt r a b).isTerminal = false)
    (h : Spells g b w) : Spells g (.alt r a b) w
  | seq {r : NodeRef} {a b : Expr} {u v : List Nat} (h : Spells g a u) (h' : Spells g b v) :
    Spells g (.seq r a b) (u ++ v)
  | once {r : NodeRef} {c : Expr} {w : List Nat} (h : Spells g c w) : Spells g (.plus r c) w
  | more {r : NodeRef} {c : Expr} {u v : List Nat} (h : Spells g c u)
    (h' : Spells g (.plus r c) v) : Spells g (.plus r c) (u ++ v)

end Grammar

namespace Expr.Links

variable {calls : Nat → Bool} {e a b : Expr} {r : NodeRef} {u v w : List Nat} {i : Nat}

theorem single_iff (hf : e.firstSet calls = .single i) (hl : e.lastSet calls = .single i)
    (hn : ∀ p q, ¬ e.Follows calls p q) : e.Links calls w ↔ w = [i] := by
  constructor
  · intro h
    obtain ⟨p, v, rfl⟩ := List.exists_cons_of_ne_nil h.nonempty
    have hp : p = i := AscSet.mem_single.1 (hf ▸ h.first p rfl)
    cases v with
    | nil => rw [hp]
    | cons q v => exact absurd (List.isChain_cons_cons.1 h.chain).1 (hn p q)
  · rintro rfl
    exact ⟨by simp, by simp [hf], by simp [hl], by simp⟩

theorem terminal_iff (ht : e.isTerminal = true) : e.Links calls w ↔ w = [e.ref.index] :=
  single_iff (firstSet_of_terminal ht) (lastSet_of_terminal ht) fun _ _ =>
    not_follows_of_terminal ht

theorem call_iff {k : RuleRef} {s : Nat} : (call r k s).Links calls w ↔ w = [r.index] := by
  apply single_iff rfl rfl
  rintro p q ⟨j, hj, -⟩
  cases hj

theorem not_eps : ¬ (eps r).Links calls w := by
  intro h
  obtain ⟨p, v, rfl⟩ := List.exists_cons_of_ne_nil h.nonempty
  exact AscSet.not_mem_empty p (h.first p rfl)

/-- A word of a part is a word of the whole if the positions of the part do the same in it. -/
theorem imp (h : a.Links calls w) (hf : ∀ p, p ∈ a.firstSet calls → p ∈ e.firstSet calls)
    (hl : ∀ p, p ∈ a.lastSet calls → p ∈ e.lastSet calls)
    (hn : ∀ p q, a.Follows calls p q → e.Follows calls p q) : e.Links calls w :=
  ⟨h.nonempty, fun p hp => hf p (h.first p hp), fun p hp => hl p (h.last p hp), h.chain.imp hn⟩

theorem append (ha : a.Links calls u) (hb : b.Links calls v)
    (hf : ∀ p, p ∈ a.firstSet calls → p ∈ e.firstSet calls)
    (hl : ∀ p, p ∈ b.lastSet calls → p ∈ e.lastSet calls)
    (hna : ∀ p q, a.Follows calls p q → e.Follows calls p q)
    (hnb : ∀ p q, b.Follows calls p q → e.Follows calls p q)
    (hj : ∀ p q, p ∈ a.lastSet calls → q ∈ b.firstSet calls → e.Follows calls p q) :
    e.Links calls (u ++ v) := by
  constructor
  · simp [ha.nonempty]
  · intro p hp
    rw [List.head?_append_of_ne_nil _ ha.nonempty] at hp
    exact hf p (ha.first p hp)
  · intro p hp
    rw [List.getLast?_append_of_ne_nil _ hb.nonempty] at hp
    exact hl p (hb.last p hp)
  · rw [List.isChain_append]
    exact ⟨ha.chain.imp hna, hb.chain.imp hnb, fun p hp q hq =>
      hj p q (ha.last p hp) (hb.first q hq)⟩

end Expr.Links

namespace Grammar.Valid

variable {g : Grammar} (hg : g.Valid) {e a b c : Expr} {r : NodeRef} {w : List Nat}
include hg

theorem stays_in (ha : g.Inner a)
    (hstay : ∀ p q, p ∈ a.marks → e.Follows g.emptyAt p q → a.Follows g.emptyAt p q)
    (hw : w.IsChain (e.Follows g.emptyAt)) (hf : ∀ p ∈ w.head?, p ∈ a.firstSet g.emptyAt) :
    w.IsChain (a.Follows g.emptyAt) ∧ ∀ p ∈ w, p ∈ a.marks := by
  apply chain_stays _ hw
  · intro p hp
    exact hg.mem_marks_of_first ha (hf p hp)
  · intro p q hp hpq
    have hfol := hstay p q hp hpq
    exact ⟨hfol, (hg.mem_marks_of_follows ha hfol).2⟩

theorem links_alt_iff (ha : g.Inner a) (hb : g.Inner b)
    (ht : (Expr.alt r a b).isTerminal = false) (hd : ∀ p, p ∈ a.marks → p ∉ b.marks) :
    (Expr.alt r a b).Links g.emptyAt w ↔ a.Links g.emptyAt w ∨ b.Links g.emptyAt w := by
  have hl : ∀ p q, p ∈ a.marks → (Expr.alt r a b).Follows g.emptyAt p q →
      a.Follows g.emptyAt p q := by
    intro p q hp hf
    apply ((Expr.follows_alt_iff ht).1 hf).resolve_right
    exact fun hfb => hd p hp (hg.mem_marks_of_follows hb hfb).1
  have hr : ∀ p q, p ∈ b.marks → (Expr.alt r a b).Follows g.emptyAt p q →
      b.Follows g.emptyAt p q := by
    intro p q hp hf
    apply ((Expr.follows_alt_iff ht).1 hf).resolve_left
    exact fun hfa => hd p (hg.mem_marks_of_follows ha hfa).1 hp
  constructor
  · intro h
    obtain ⟨p, v, rfl⟩ := List.exists_cons_of_ne_nil h.nonempty
    rcases (Expr.mem_firstSet_alt ht).1 (h.first p rfl) with hp | hp
    · have hfirst : ∀ q ∈ (p :: v).head?, q ∈ a.firstSet g.emptyAt := by simpa using hp
      obtain ⟨hchain, hall⟩ := hg.stays_in ha hl h.chain hfirst
      refine .inl ⟨h.nonempty, hfirst, fun q hq => ?_, hchain⟩
      apply ((Expr.mem_lastSet_alt ht).1 (h.last q hq)).resolve_right
      exact fun hqb => hd q (hall q (List.mem_of_getLast? hq)) (hg.mem_marks_of_last hb hqb)
    · have hfirst : ∀ q ∈ (p :: v).head?, q ∈ b.firstSet g.emptyAt := by simpa using hp
      obtain ⟨hchain, hall⟩ := hg.stays_in hb hr h.chain hfirst
      refine .inr ⟨h.nonempty, hfirst, fun q hq => ?_, hchain⟩
      apply ((Expr.mem_lastSet_alt ht).1 (h.last q hq)).resolve_left
      exact fun hqa => hd q (hg.mem_marks_of_last ha hqa) (hall q (List.mem_of_getLast? hq))
  · rintro (h | h)
    · apply h.imp
      · exact fun p hp => (Expr.mem_firstSet_alt ht).2 (.inl hp)
      · exact fun p hp => (Expr.mem_lastSet_alt ht).2 (.inl hp)
      · exact fun p q hf => (Expr.follows_alt_iff ht).2 (.inl hf)
    · apply h.imp
      · exact fun p hp => (Expr.mem_firstSet_alt ht).2 (.inr hp)
      · exact fun p hp => (Expr.mem_lastSet_alt ht).2 (.inr hp)
      · exact fun p q hf => (Expr.follows_alt_iff ht).2 (.inr hf)

/-- A word of a sequence that starts in the left part: it stays there, or it is cut where it comes
to the right part. -/
private theorem split_of_first (ha : g.Inner a) (hb : g.Inner b)
    (hd : ∀ p, p ∈ a.marks → p ∉ b.marks) (h : (Expr.seq r a b).Links g.emptyAt w)
    (hf : ∀ p ∈ w.head?, p ∈ a.firstSet g.emptyAt)
    (hr : ∀ p q, p ∈ b.marks → (Expr.seq r a b).Follows g.emptyAt p q →
      b.Follows g.emptyAt p q) :
    b.nullable g.emptyAt = true ∧ a.Links g.emptyAt w ∨
      ∃ u v, w = u ++ v ∧ a.Links g.emptyAt u ∧ b.Links g.emptyAt v := by
  have hcut : ∀ p q, (Expr.seq r a b).Follows g.emptyAt p q → a.Follows g.emptyAt p q ∨
      (p ∈ a.lastSet g.emptyAt ∧ q ∈ b.firstSet g.emptyAt ∨ b.Follows g.emptyAt p q) := by
    intro p q hpq
    rw [← or_assoc, or_comm (a := a.Follows g.emptyAt p q), or_assoc]
    exact Expr.follows_seq_iff.1 hpq
  -- the word is cut where it first goes on otherwise than in the left part
  obtain ⟨u, v, rfl, hu, hchain, hjoint⟩ := chain_cut hcut h.chain h.nonempty
  rw [List.head?_append_of_ne_nil _ hu] at hf
  obtain ⟨-, hall⟩ := hg.stays_in ha (fun _ _ _ hpq => hpq) hchain hf
  have hmark : ∀ p ∈ u.getLast?, p ∉ b.marks := fun p hp => hd p (hall p (List.mem_of_getLast? hp))
  cases v with
  | nil =>
    rw [List.append_nil] at h ⊢
    have hlast : ∀ p ∈ u.getLast?, b.nullable g.emptyAt = true ∧ p ∈ a.lastSet g.emptyAt := by
      intro p hp
      apply (Expr.mem_lastSet_seq.1 (h.last p hp)).resolve_left
      exact fun hpb => hmark p hp (hg.mem_marks_of_last hb hpb)
    have hend := hlast _ (List.getLast?_eq_getLast_of_ne_nil hu)
    exact .inl ⟨hend.1, hu, hf, fun p hp => (hlast p hp).2, hchain⟩
  | cons q v =>
    have hcross : ∀ p ∈ u.getLast?, p ∈ a.lastSet g.emptyAt ∧ q ∈ b.firstSet g.emptyAt := by
      intro p hp
      apply (hjoint p hp q rfl).resolve_right
      exact fun hfb => hmark p hp (hg.mem_marks_of_follows hb hfb).1
    have hfirst : ∀ x ∈ (q :: v).head?, x ∈ b.firstSet g.emptyAt := by
      simpa using (hcross _ (List.getLast?_eq_getLast_of_ne_nil hu)).2
    obtain ⟨hright, hallb⟩ :=
      hg.stays_in hb hr (List.isChain_append.1 h.chain).2.1 hfirst
    refine .inr ⟨u, q :: v, rfl, ⟨hu, hf, fun p hp => (hcross p hp).1, hchain⟩, by simp, hfirst,
      fun p hp => ?_, hright⟩
    have hpb : p ∈ b.marks := hallb p (List.mem_of_getLast? hp)
    rw [← List.getLast?_append_of_ne_nil u (by simp)] at hp
    apply (Expr.mem_lastSet_seq.1 (h.last p hp)).resolve_right
    exact fun hpa => hd p (hg.mem_marks_of_last ha hpa.2) hpb

theorem links_seq_iff (ha : g.Inner a) (hb : g.Inner b) (hd : ∀ p, p ∈ a.marks → p ∉ b.marks) :
    (Expr.seq r a b).Links g.emptyAt w ↔
      (b.nullable g.emptyAt = true ∧ a.Links g.emptyAt w ∨
          ∃ u v, w = u ++ v ∧ a.Links g.emptyAt u ∧ b.Links g.emptyAt v) ∨
        a.nullable g.emptyAt = true ∧ b.Links g.emptyAt w := by
  have hr : ∀ p q, p ∈ b.marks → (Expr.seq r a b).Follows g.emptyAt p q →
      b.Follows g.emptyAt p q := by
    intro p q hp hf
    rcases Expr.follows_seq_iff.1 hf with ⟨hl, -⟩ | hf | hf
    · exact absurd hp (hd p (hg.mem_marks_of_last ha hl))
    · exact absurd hp (hd p (hg.mem_marks_of_follows ha hf).1)
    · exact hf
  constructor
  · intro h
    obtain ⟨p, v, rfl⟩ := List.exists_cons_of_ne_nil h.nonempty
    rcases Expr.mem_firstSet_seq.1 (h.first p rfl) with hp | ⟨hn, hp⟩
    · exact .inl (hg.split_of_first ha hb hd h (by simpa using hp) hr)
    · have hfirst : ∀ q ∈ (p :: v).head?, q ∈ b.firstSet g.emptyAt := by simpa using hp
      obtain ⟨hchain, hall⟩ := hg.stays_in hb hr h.chain hfirst
      refine .inr ⟨hn, h.nonempty, hfirst, fun q hq => ?_, hchain⟩
      apply (Expr.mem_lastSet_seq.1 (h.last q hq)).resolve_right
      exact fun hqa => hd q (hg.mem_marks_of_last ha hqa.2) (hall q (List.mem_of_getLast? hq))
  · rintro ((⟨hn, h⟩ | ⟨u, v, rfl, hu, hv⟩) | ⟨hn, h⟩)
    · apply h.imp
      · exact fun p hp => Expr.mem_firstSet_seq.2 (.inl hp)
      · exact fun p hp => Expr.mem_lastSet_seq.2 (.inr ⟨hn, hp⟩)
      · exact fun p q hf => Expr.follows_seq_iff.2 (.inr (.inl hf))
    · apply hu.append hv
      · exact fun p hp => Expr.mem_firstSet_seq.2 (.inl hp)
      · exact fun p hp => Expr.mem_lastSet_seq.2 (.inl hp)
      · exact fun p q hf => Expr.follows_seq_iff.2 (.inr (.inl hf))
      · exact fun p q hf => Expr.follows_seq_iff.2 (.inr (.inr hf))
      · exact fun p q hp hq => Expr.follows_seq_iff.2 (.inl ⟨hp, hq⟩)
    · apply h.imp
      · exact fun p hp => Expr.mem_firstSet_seq.2 (.inr ⟨hn, hp⟩)
      · exact fun p hp => Expr.mem_lastSet_seq.2 (.inl hp)
      · exact fun p q hf => Expr.follows_seq_iff.2 (.inr (.inr hf))

omit hg in
/-- A word of a repetition is one of what is repeated, with a shorter word of the repetition after
it or nothing. -/
theorem links_plus_iff :
    (Expr.plus r c).Links g.emptyAt w ↔ c.Links g.emptyAt w ∨
      ∃ u v, w = u ++ v ∧ c.Links g.emptyAt u ∧ (Expr.plus r c).Links g.emptyAt v := by
  constructor
  · intro h
    obtain ⟨u, v, rfl, hu, hchain, hjoint⟩ :=
      chain_cut (fun _ _ hpq => or_comm.1 (Expr.follows_plus_iff.1 hpq)) h.chain h.nonempty
    have hfirst : ∀ p ∈ u.head?, p ∈ c.firstSet g.emptyAt := by
      intro p hp
      apply h.first p
      rwa [List.head?_append_of_ne_nil _ hu]
    cases v with
    | nil =>
      rw [List.append_nil] at h ⊢
      exact .inl ⟨hu, hfirst, h.last, hchain⟩
    | cons q v =>
      have hlast : ∀ p ∈ u.getLast?, p ∈ c.lastSet g.emptyAt ∧ q ∈ c.firstSet g.emptyAt :=
        fun p hp => hjoint p hp q rfl
      refine .inr ⟨u, q :: v, rfl, ⟨hu, hfirst, fun p hp => (hlast p hp).1, hchain⟩, by simp, ?_,
        fun p hp => h.last p ?_, (List.isChain_append.1 h.chain).2.1⟩
      · intro p hp
        rw [← Option.some.inj hp]
        exact (hlast _ (List.getLast?_eq_getLast_of_ne_nil hu)).2
      · rwa [List.getLast?_append_of_ne_nil _ (by simp)]
  · rintro (h | ⟨u, v, rfl, hu, hv⟩)
    · exact h.imp (fun _ hp => hp) (fun _ hp => hp) fun p q hf => Expr.follows_plus_iff.2 (.inr hf)
    · apply hu.append hv
      · exact fun p hp => hp
      · exact fun p hp => hp
      · exact fun p q hf => Expr.follows_plus_iff.2 (.inr hf)
      · exact fun p q hf => hf
      · exact fun p q hp hq => Expr.follows_plus_iff.2 (.inl ⟨hp, hq⟩)

end Grammar.Valid

namespace Grammar

variable {g : Grammar} {e a b c : Expr} {r : NodeRef} {w : List Nat}

theorem spells_terminal_iff (ht : e.isTerminal = true) : g.Spells e w ↔ w = [e.ref.index] := by
  constructor
  · intro h
    cases h with
    | terminal => rfl
    | altLeft hf | altRight hf => simp [hf] at ht
    | call | skip | eps | seq | once | more => cases ht
  · rintro rfl
    exact .terminal ht

theorem spells_eps_iff : g.Spells (.eps r) w ↔ w = [] := by
  constructor
  · intro h
    cases h with
    | terminal h => cases h
    | eps => rfl
  · rintro rfl
    exact .eps r

theorem spells_call_iff {k : RuleRef} {s : Nat} :
    g.Spells (.call r k s) w ↔ w = [r.index] ∨ w = [] ∧ g.Derives (.call r k s) [] := by
  constructor
  · intro h
    cases h with
    | terminal h => cases h
    | call => exact .inl rfl
    | skip _ _ hb h => exact .inr ⟨rfl, .call hb h⟩
  · rintro (rfl | ⟨rfl, h⟩)
    · exact .call r k s
    · obtain ⟨b, hb, h⟩ := derives_call_iff.1 h
      exact .skip r s hb h

theorem spells_alt_iff (ht : (Expr.alt r a b).isTerminal = false) :
    g.Spells (.alt r a b) w ↔ g.Spells a w ∨ g.Spells b w := by
  constructor
  · intro h
    cases h with
    | terminal h => simp [ht] at h
    | altLeft _ h => exact .inl h
    | altRight _ h => exact .inr h
  · exact fun h => h.elim (.altLeft ht) (.altRight ht)

theorem spells_seq_iff :
    g.Spells (.seq r a b) w ↔ ∃ u v, w = u ++ v ∧ g.Spells a u ∧ g.Spells b v := by
  constructor
  · intro h
    cases h with
    | terminal h => cases h
    | seq h h' => exact ⟨_, _, rfl, h, h'⟩
  · rintro ⟨u, v, rfl, h, h'⟩
    exact .seq h h'

/-- What a word of an expression is: the empty word if the expression is nullable, or a word that
its first, last and neighbouring positions allow. -/
def Local (g : Grammar) (e : Expr) (w : List Nat) : Prop :=
  w = [] ∧ e.nullable g.emptyAt = true ∨ e.Links g.emptyAt w

namespace Valid

variable (hg : g.Valid)
include hg

theorem nullable_terminal (h : g.Stores e) (ht : e.isTerminal = true) :
    e.nullable g.emptyAt = false := by
  rw [Bool.eq_false_iff, Ne, hg.nullable_iff h, derives_terminal_iff ht]
  simp

private theorem local_seq_iff (ha : g.Inner a) (hb : g.Inner b)
    (hd : ∀ p, p ∈ a.marks → p ∉ b.marks) :
    g.Local (.seq r a b) w ↔ ∃ u v, w = u ++ v ∧ g.Local a u ∧ g.Local b v := by
  have hnull : (Expr.seq r a b).nullable g.emptyAt = true ↔
      a.nullable g.emptyAt = true ∧ b.nullable g.emptyAt = true := Bool.and_eq_true_iff
  unfold Local
  rw [hg.links_seq_iff ha hb hd, hnull]
  constructor
  · rintro (⟨rfl, hna, hnb⟩ | (⟨hnb, hw⟩ | ⟨u, v, rfl, hu, hv⟩) | ⟨hna, hw⟩)
    · exact ⟨[], [], rfl, .inl ⟨rfl, hna⟩, .inl ⟨rfl, hnb⟩⟩
    · exact ⟨w, [], by simp, .inr hw, .inl ⟨rfl, hnb⟩⟩
    · exact ⟨u, v, rfl, .inr hu, .inr hv⟩
    · exact ⟨[], w, rfl, .inl ⟨rfl, hna⟩, .inr hw⟩
  · rintro ⟨u, v, rfl, ⟨rfl, hna⟩ | hu, ⟨rfl, hnb⟩ | hv⟩
    · exact .inl ⟨rfl, hna, hnb⟩
    · exact .inr (.inr ⟨hna, hv⟩)
    · rw [List.append_nil]
      exact .inr (.inl (.inl ⟨hnb, hu⟩))
    · exact .inr (.inl (.inr ⟨u, v, rfl, hu, hv⟩))

omit hg in
private theorem local_of_spells_plus (h : ∀ w, g.Spells c w → g.Local c w)
    (hw : g.Spells (.plus r c) w) : g.Local (.plus r c) w := by
  have hplus : ∀ w, g.Local c w → g.Local (.plus r c) w := by
    rintro w (hw | hw)
    · exact .inl hw
    · exact .inr (links_plus_iff.2 (.inl hw))
  generalize he : Expr.plus r c = e at hw
  induction hw with
  | once hc =>
    cases he
    exact hplus _ (h _ hc)
  | @more _ _ u v hc _ _ ih =>
    cases he
    rcases h u hc with ⟨rfl, -⟩ | hu
    · exact ih rfl
    · rcases ih rfl with ⟨rfl, -⟩ | hv
      · rw [List.append_nil]
        exact hplus u (.inr hu)
      · exact .inr (links_plus_iff.2 (.inr ⟨u, v, rfl, hu, hv⟩))
  | terminal ht =>
    cases he
    cases ht
  | call | skip | eps | altLeft | altRight | seq => cases he

omit hg in
private theorem spells_plus_of_local (h : ∀ w, g.Local c w → g.Spells c w)
    (hw : g.Local (.plus r c) w) : g.Spells (.plus r c) w := by
  rcases hw with hw | hw
  · exact .once (h w (.inl hw))
  · -- each time a word of what is repeated is cut off, the rest is shorter
    induction hn : w.length using Nat.strongRecOn generalizing w with
    | ind n ih =>
      rcases links_plus_iff.1 hw with hw | ⟨u, v, rfl, hu, hv⟩
      · exact .once (h w (.inr hw))
      · have hlt : v.length < n := by
          have := List.length_pos_of_ne_nil hu.nonempty
          rw [← hn, List.length_append]
          omega
        exact .more (h u (.inr hu)) (ih v.length hlt hv rfl)

/-- The words of an expression in which no position is twice are its local words. -/
theorem spells_iff_local (h : g.Inner e) (hn : e.marks.Nodup) (w : List Nat) :
    g.Spells e w ↔ g.Local e w := by
  have hapart : ∀ {xs ys : List Nat}, (xs ++ ys).Nodup → ∀ p, p ∈ xs → p ∉ ys :=
    fun hn p hp hp' => (List.nodup_append.1 hn).2.2 p hp p hp' rfl
  induction e, h using hg.inner_induction generalizing w with
  | terminal e h ht =>
    rw [spells_terminal_iff ht, Local, hg.nullable_terminal h.stores ht, Expr.Links.terminal_iff ht]
    simp
  | call r k s h =>
    rw [spells_call_iff, Local, Expr.Links.call_iff, ← hg.nullable_iff h.stores]
    exact or_comm
  | eps r h =>
    rw [spells_eps_iff, Local]
    simp [Expr.nullable, Expr.Links.not_eps]
  | alt r a b h ha hb ht iha ihb =>
    rw [Expr.marks_alt ht] at hn
    have hna : a.marks.Nodup := (List.nodup_append.1 hn).1
    have hnb : b.marks.Nodup := (List.nodup_append.1 hn).2.1
    rw [spells_alt_iff ht]
    simp only [iha hna, ihb hnb, Local, hg.links_alt_iff ha hb ht (hapart hn), Expr.nullable,
      Bool.or_eq_true]
    tauto
  | seq r a b h ha hb iha ihb =>
    rw [Expr.marks_seq] at hn
    have hna : a.marks.Nodup := (List.nodup_append.1 hn).1
    have hnb : b.marks.Nodup := (List.nodup_append.1 hn).2.1
    rw [spells_seq_iff, hg.local_seq_iff ha hb (hapart hn)]
    simp only [iha hna, ihb hnb]
  | plus r c h hc ih =>
    rw [Expr.marks_plus] at hn
    constructor
    · exact local_of_spells_plus fun w => (ih hn w).1
    · exact spells_plus_of_local fun w => (ih hn w).2

end Valid

theorem Built.nodup_indices (h : g.Built) {i : Nat} (he : g.nodes[i]? = some e) :
    e.indices.Nodup := by
  obtain ⟨id, requests, root, hf⟩ := h
  have hclose := Builder.does_close root _ (Builder.sound_serve id requests)
  have hf : (Builder.close root ((Builder.new id).serve requests)).1 = .ok g := hf
  rw [hf] at hclose
  obtain ⟨x, rules, hs, -, rfl⟩ := hclose
  rcases Builder.mem_finished_iff.1 he with ⟨s, hslot, rfl⟩ | ⟨-, rfl⟩
  · exact hs.nodup_indices (hs.stored_slot hslot)
  · simp [Expr.indices, Expr.parts]

end Grammar

theorem Follow.mem_pairs_iff {f : Follow} {p q : Nat} : (p, q) ∈ f.pairs ↔ q ∈ f.after p := by
  rw [after, pairs, List.mem_flatMap]
  constructor
  · rintro ⟨⟨s, i⟩, hs, hpq⟩
    obtain ⟨x, hx, hxq⟩ := List.mem_map.1 hpq
    obtain ⟨rfl, rfl⟩ := Prod.mk.inj hxq
    rw [List.mem_zipIdx_iff_getElem?, Array.getElem?_toList] at hs
    rw [hs]
    exact hx
  · intro h
    cases hs : f[p]? with
    | none => simp [hs] at h
    | some s =>
      rw [hs] at h
      refine ⟨(s, p), ?_, List.mem_map.2 ⟨q, h, rfl⟩⟩
      rw [List.mem_zipIdx_iff_getElem?, Array.getElem?_toList]
      exact hs

namespace Grammar

variable {g : Grammar} {e : Expr}

/-- What an analysis answers about an expression, whatever it has been asked before, describes the
words of the expression: the empty word by whether it is nullable, any other word by its first
position, its last position and the pairs of neighbours in it. -/
theorem words_of_analysis (hg : g.Built) (hv : g.validate = .ok ()) {i : Nat}
    (he : g.nodes[i]? = some e) (hend : i ≠ g.endIndex) :
    ∃ nullable firsts lasts follow,
      (∃ a, Analysis.start g = .ok a) ∧
      (∀ a, Analysis.Asked g a →
        (∃ a', Analysis.nullable e a = .ok (nullable, a')) ∧
        (∃ a', Analysis.firsts e a = .ok (firsts, a')) ∧
        (∃ a', Analysis.lasts e a = .ok (lasts, a')) ∧
        ∃ a', Analysis.follow e a = .ok (follow, a')) ∧
      (g.Spells e [] ↔ nullable = true) ∧
      ∀ w p q, w.head? = some p → w.getLast? = some q →
        (g.Spells e w ↔
          p ∈ firsts ∧ q ∈ lasts ∧ w.IsChain fun x y => (x, y) ∈ follow.pairs) := by
  have hval := hg.valid hv
  have hs : g.Stores e := hval.stores he
  have hin : g.Inner e := by
    refine ⟨hs, ?_⟩
    have hlt := hs.index_lt
    have hi := hval.index he
    unfold endIndex at hend ⊢
    omega
  have hmarks : e.marks.Nodup := (hg.nodup_indices he).sublist e.marks_sublist_indices
  refine ⟨e.nullable g.emptyAt, e.firstSet g.emptyAt, e.lastSet g.emptyAt,
    .ofJoints g.nodes.size (e.jointList g.emptyAt), ?_, ?_, ?_, ?_⟩
  · obtain ⟨a, ha, -⟩ := Analysis.start_ok hval
    exact ⟨a, ha⟩
  · intro a ha
    have hsteady := ha.steady hval
    have hanswer : ∀ {α : Type} {act : AnalysisM α} {x : α}, Analysis.Answers hval act x →
        ∃ a', act a = .ok (x, a') := by
      intro α act x h
      obtain ⟨a', hact, -⟩ := h a hsteady
      exact ⟨a', hact⟩
    exact ⟨hanswer (Analysis.answers_nullable hs), hanswer (Analysis.answers_firsts hs),
      hanswer (Analysis.answers_lasts hs), hanswer (Analysis.answers_follow hs)⟩
  · rw [hval.spells_iff_local hin hmarks, Local]
    simp only [true_and]
    apply or_iff_left
    exact fun h => h.nonempty rfl
  · intro w p q hp hq
    have hne : w ≠ [] := by
      rintro rfl
      cases hp
    -- a position that has a follower is a node, so the table of followers has a place for it
    have hlt : ∀ x y, e.Follows g.emptyAt x y → x < g.nodes.size := by
      intro x y hxy
      obtain ⟨z, hz, rfl⟩ := List.mem_map.1 (hval.mem_marks_of_follows hin hxy).1
      exact (hval.stores_position hs hz).index_lt
    have hpairs : ∀ x y, (x, y) ∈ (Follow.ofJoints g.nodes.size (e.jointList g.emptyAt)).pairs ↔
        e.Follows g.emptyAt x y := by
      intro x y
      rw [Follow.mem_pairs_iff, Follow.mem_after_ofJoints]
      exact and_iff_right_of_imp (hlt x y)
    rw [hval.spells_iff_local hin hmarks, Local, or_iff_right (fun h => hne h.1)]
    simp only [hpairs]
    constructor
    · exact fun h => ⟨h.first p hp, h.last q hq, h.chain⟩
    · rintro ⟨hf, hl, hchain⟩
      refine ⟨hne, fun x hx => ?_, fun x hx => ?_, hchain⟩
      · rwa [Option.some.inj (hx.symm.trans hp)]
      · rwa [Option.some.inj (hx.symm.trans hq)]

theorem words_of_analysis_sum :
    sumGrammar.Built ∧ sumGrammar.validate = .ok () ∧
      ∃ e, sumGrammar.nodes[4]? = some e ∧ 4 ≠ sumGrammar.endIndex ∧
        ∃ nullable firsts lasts follow,
          (∃ a, Analysis.start sumGrammar = .ok a) ∧
          (∀ a, Analysis.Asked sumGrammar a →
            (∃ a', Analysis.nullable e a = .ok (nullable, a')) ∧
            (∃ a', Analysis.firsts e a = .ok (firsts, a')) ∧
            (∃ a', Analysis.lasts e a = .ok (lasts, a')) ∧
            ∃ a', Analysis.follow e a = .ok (follow, a')) ∧
          (sumGrammar.Spells e [] ↔ nullable = true) ∧
          ∀ w p q, w.head? = some p → w.getLast? = some q →
            (sumGrammar.Spells e w ↔
              p ∈ firsts ∧ q ∈ lasts ∧ w.IsChain fun x y => (x, y) ∈ follow.pairs) :=
  ⟨built_sum, validate_sum, _, rfl, by decide,
    words_of_analysis (i := 4) built_sum validate_sum rfl (by decide)⟩

end Grammar

end TokenGrammar
