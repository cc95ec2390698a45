import TokenGrammar.Proofs.Inner

/-!
# Arriving at positions

Control arrives at a position of an expression when the parts before the position have derived what
has been read; nothing is said about the parts after it. It goes on from a position to those that
follow it, and the expression is complete after a position that may come last. All of this is about
one body at a time, where a call is a position like any other.
-/

namespace TokenGrammar.Grammar

/-- Control stands before the position `p` of an expression that has read some tokens. -/
inductive Arrive (g : Grammar) : Expr → List Token → Nat → Prop
  | here {e : Expr} (h : e.isTerminal = true ∨ e.isCall = true) : Arrive g e [] e.ref.index
  | altLeft {r : NodeRef} {a b : Expr} {w : List Token} {p : Nat}
    (ht : (Expr.alt r a b).isTerminal = false) (h : Arrive g a w p) : Arrive g (.alt r a b) w p
  | altRight {r : NodeRef} {a b : Expr} {w : List Token} {p : Nat}
    (ht : (Expr.alt r a b).isTerminal = false) (h : Arrive g b w p) : Arrive g (.alt r a b) w p
  | seqLeft {r : NodeRef} {a b : Expr} {w : List Token} {p : Nat} (h : Arrive g a w p) :
    Arrive g (.seq r a b) w p
  | seqRight {r : NodeRef} {a b : Expr} {u v : List Token} {p : Nat} (hd : Derives g a u)
    (h : Arrive g b v p) : Arrive g (.seq r a b) (u ++ v) p
  | first {r : NodeRef} {c : Expr} {w : List Token} {p : Nat} (h : Arrive g c w p) :
    Arrive g (.plus r c) w p
  | more {r : NodeRef} {c : Expr} {u v : List Token} {p : Nat} (hd : Derives g (.plus r c) u)
    (h : Arrive g c v p) : Arrive g (.plus r c) (u ++ v) p

/-- The node at a place derives a token string. -/
def DerivesAt (g : Grammar) (p : Nat) (w : List Token) : Prop :=
  ∃ x, g.nodes[p]? = some x ∧ g.Derives x w

variable {g : Grammar} {e : Expr} {u v w : List Token} {p q : Nat}

theorem derivesAt_iff (h : g.Stores e) : g.DerivesAt e.ref.index w ↔ g.Derives e w := by
  unfold Stores at h
  simp [DerivesAt, h]

theorem Arrive.mem_marks (h : g.Arrive e w p) : p ∈ e.marks := by
  induction h with
  | here h =>
    rw [Expr.marks_of_single h]
    exact List.mem_singleton.2 rfl
  | altLeft ht _ ih =>
    rw [Expr.marks_alt ht]
    exact List.mem_append_left _ ih
  | altRight ht _ ih =>
    rw [Expr.marks_alt ht]
    exact List.mem_append_right _ ih
  | seqLeft _ ih =>
    rw [Expr.marks_seq]
    exact List.mem_append_left _ ih
  | seqRight _ _ ih =>
    rw [Expr.marks_seq]
    exact List.mem_append_right _ ih
  | first _ ih | more _ _ ih => exact ih

theorem arrive_plus_append {r : NodeRef} {c : Expr} (hd : g.Derives (.plus r c) u)
    (h : g.Arrive (.plus r c) v p) : g.Arrive (.plus r c) (u ++ v) p := by
  cases h with
  | here h => simp [Expr.isTerminal, Expr.isCall, Expr.callee?] at h
  | first h => exact .more hd h
  | more hd' h =>
    rw [← List.append_assoc]
    exact .more (derives_plus_append hd hd') h

private theorem not_mem_right {xs ys : List Nat} (h : (xs ++ ys).Nodup) (hx : p ∈ xs) : p ∉ ys :=
  fun hy => List.disjoint_of_nodup_append h hx hy

namespace Valid

variable (hg : g.Valid)
include hg

theorem arrive_nil_iff (h : g.Inner e) : g.Arrive e [] p ↔ p ∈ e.firstSet g.emptyAt := by
  induction e, h using hg.inner_induction with
  | terminal e h ht =>
    rw [Expr.firstSet_of_terminal ht, AscSet.mem_single]
    constructor
    · intro ha
      have hm := ha.mem_marks
      rw [Expr.marks_of_terminal ht] at hm
      exact List.mem_singleton.1 hm
    · rintro rfl
      exact .here (.inl ht)
  | call r k s h =>
    rw [Expr.firstSet, AscSet.mem_single]
    constructor
    · exact fun ha => List.mem_singleton.1 ha.mem_marks
    · rintro rfl
      exact .here (.inr rfl)
  | eps r h =>
    refine ⟨fun ha => absurd ha.mem_marks (List.not_mem_nil), fun hp => ?_⟩
    exact absurd hp (AscSet.not_mem_empty p)
  | alt r a b h ha hb ht iha ihb =>
    rw [Expr.mem_firstSet_alt ht, ← iha, ← ihb]
    constructor
    · intro hp
      cases hp with
      | here h => simp [ht, Expr.isCall, Expr.callee?] at h
      | altLeft _ hp => exact .inl hp
      | altRight _ hp => exact .inr hp
    · exact fun hp => hp.elim (.altLeft ht) (.altRight ht)
  | seq r a b h ha hb iha ihb =>
    rw [Expr.mem_firstSet_seq, ← iha, ← ihb, hg.nullable_iff ha.stores]
    constructor
    · intro hp
      generalize hw : ([] : List Token) = w at hp
      cases hp with
      | here h => simp [Expr.isTerminal, Expr.isCall, Expr.callee?] at h
      | seqLeft hp => exact .inl (hw ▸ hp)
      | seqRight hd hp =>
        obtain ⟨rfl, rfl⟩ := List.append_eq_nil_iff.1 hw.symm
        exact .inr ⟨hd, hp⟩
    · rintro (hp | ⟨hd, hp⟩)
      · exact .seqLeft hp
      · exact .seqRight hd hp
  | plus r c h hc ih =>
    rw [Expr.firstSet, ← ih]
    constructor
    · intro hp
      generalize hw : ([] : List Token) = w at hp
      cases hp with
      | here h => simp [Expr.isTerminal, Expr.isCall, Expr.callee?] at h
      | first hp => exact hw ▸ hp
      | more hd hp =>
        obtain ⟨rfl, rfl⟩ := List.append_eq_nil_iff.1 hw.symm
        exact hp
    · exact .first

theorem derives_of_last (h : g.Inner e) (hn : e.marks.Nodup) (ha : g.Arrive e u p)
    (hd : g.DerivesAt p v) (hl : p ∈ e.lastSet g.emptyAt) : g.Derives e (u ++ v) := by
  induction ha with
  | here => exact (derivesAt_iff h.stores).1 hd
  | @altLeft r a b w p ht ha ih =>
    obtain ⟨hia, hib⟩ := hg.inner_alt h
    rw [Expr.marks_alt ht] at hn
    rcases (Expr.mem_lastSet_alt ht).1 hl with hl | hl
    · exact .altLeft (ih hia hn.of_append_left hd hl)
    · exact absurd (hg.mem_marks_of_last hib hl) (not_mem_right hn ha.mem_marks)
  | @altRight r a b w p ht ha ih =>
    obtain ⟨hia, hib⟩ := hg.inner_alt h
    rw [Expr.marks_alt ht] at hn
    rcases (Expr.mem_lastSet_alt ht).1 hl with hl | hl
    · exact absurd ha.mem_marks (not_mem_right hn (hg.mem_marks_of_last hia hl))
    · exact .altRight (ih hib hn.of_append_right hd hl)
  | @seqLeft r a b w p ha ih =>
    obtain ⟨hia, hib⟩ := hg.inner_seq h
    rw [Expr.marks_seq] at hn
    rcases Expr.mem_lastSet_seq.1 hl with hl | ⟨hb, hl⟩
    · exact absurd (hg.mem_marks_of_last hib hl) (not_mem_right hn ha.mem_marks)
    · have hab := Derives.seq (r := r) (ih hia hn.of_append_left hd hl)
        ((hg.nullable_iff hib.stores).1 hb)
      rwa [List.append_nil] at hab
  | @seqRight r a b u' v' p hda ha ih =>
    obtain ⟨hia, hib⟩ := hg.inner_seq h
    rw [Expr.marks_seq] at hn
    rcases Expr.mem_lastSet_seq.1 hl with hl | ⟨-, hl⟩
    · rw [List.append_assoc]
      exact .seq hda (ih hib hn.of_append_right hd hl)
    · exact absurd ha.mem_marks (not_mem_right hn (hg.mem_marks_of_last hia hl))
  | first _ ih => exact .once (ih (hg.inner_plus h) hn hd hl)
  | more hdc _ ih =>
    rw [List.append_assoc]
    have hc := ih (hg.inner_plus h) hn hd hl
    exact derives_plus_append hdc (.once hc)

theorem arrive_of_follows (h : g.Inner e) (hn : e.marks.Nodup) (ha : g.Arrive e u p)
    (hd : g.DerivesAt p v) (hf : e.Follows g.emptyAt p q) : g.Arrive e (u ++ v) q := by
  induction ha with
  | @here e ht =>
    rcases ht with ht | ht
    · exact absurd hf (Expr.not_follows_of_terminal ht)
    · cases e with
      | call r k s => exact absurd hf (by rintro ⟨j, hj, -⟩; cases hj)
      | token | eps | alt | seq | conj | plus | endMark => cases ht
  -- the operands share no position, so what follows a position of one is in that one
  | @altLeft r a b w p ht ha ih =>
    obtain ⟨hia, hib⟩ := hg.inner_alt h
    rw [Expr.marks_alt ht] at hn
    rcases (Expr.follows_alt_iff ht).1 hf with hf | hf
    · exact .altLeft ht (ih hia hn.of_append_left hd hf)
    · exact absurd (hg.mem_marks_of_follows hib hf).1 (not_mem_right hn ha.mem_marks)
  | @altRight r a b w p ht ha ih =>
    obtain ⟨hia, hib⟩ := hg.inner_alt h
    rw [Expr.marks_alt ht] at hn
    rcases (Expr.follows_alt_iff ht).1 hf with hf | hf
    · exact absurd ha.mem_marks (not_mem_right hn (hg.mem_marks_of_follows hia hf).1)
    · exact .altRight ht (ih hib hn.of_append_right hd hf)
  | @seqLeft r a b w p ha ih =>
    obtain ⟨hia, hib⟩ := hg.inner_seq h
    rw [Expr.marks_seq] at hn
    rcases Expr.follows_seq_iff.1 hf with ⟨hp, hq⟩ | hf | hf
    · have hb := (hg.arrive_nil_iff hib).2 hq
      have := Arrive.seqRight (r := r) (hg.derives_of_last hia hn.of_append_left ha hd hp) hb
      rwa [List.append_nil] at this
    · exact .seqLeft (ih hia hn.of_append_left hd hf)
    · exact absurd (hg.mem_marks_of_follows hib hf).1 (not_mem_right hn ha.mem_marks)
  | @seqRight r a b u' v' p hda ha ih =>
    obtain ⟨hia, hib⟩ := hg.inner_seq h
    rw [Expr.marks_seq] at hn
    rcases Expr.follows_seq_iff.1 hf with ⟨hp, -⟩ | hf | hf
    · exact absurd ha.mem_marks (not_mem_right hn (hg.mem_marks_of_last hia hp))
    · exact absurd ha.mem_marks (not_mem_right hn (hg.mem_marks_of_follows hia hf).1)
    · rw [List.append_assoc]
      exact .seqRight hda (ih hib hn.of_append_right hd hf)
  | @first r c w p ha ih =>
    have hic : g.Inner c := hg.inner_plus h
    rcases Expr.follows_plus_iff.1 hf with ⟨hp, hq⟩ | hf
    · have hc := (hg.arrive_nil_iff hic).2 hq
      have := Arrive.more (r := r) (.once (hg.derives_of_last hic hn ha hd hp)) hc
      rwa [List.append_nil] at this
    · exact .first (ih hic hn hd hf)
  | @more r c u' v' p hdc ha ih =>
    have hic : g.Inner c := hg.inner_plus h
    rw [List.append_assoc]
    rcases Expr.follows_plus_iff.1 hf with ⟨hp, hq⟩ | hf
    · have hc := (hg.arrive_nil_iff hic).2 hq
      have hdd := derives_plus_append hdc (.once (hg.derives_of_last hic hn ha hd hp))
      have := Arrive.more hdd hc
      rwa [List.append_nil] at this
    · exact .more hdc (ih hic hn hd hf)

end Valid

/-- A position is complete with the token `t` after it has derived `v`: a terminal accepts `t`, or a
call leads into a body that is complete with `t`. -/
inductive EndsAt (g : Grammar) : Nat → List Token → Token → Prop
  | terminal {x : Expr} {p : Nat} {t : Token} (hx : g.nodes[p]? = some x)
    (ht : x.isTerminal = true) (ha : x.accepts t = .ok true) : EndsAt g p [] t
  | call {p a q : Nat} {b : Expr} {u v : List Token} {t : Token} (hp : g.calleeAt? p = some a)
    (hb : g.top? (some a) = some b) (h : Arrive g b u q) (hl : q ∈ b.lastSet g.emptyAt)
    (h' : EndsAt g q v t) : EndsAt g p (u ++ v) t

private theorem append_eq_concat {s : List Token} {t : Token} (h : u ++ v = s ++ [t]) :
    v = [] ∧ u = s ++ [t] ∨ ∃ v', v = v' ++ [t] ∧ s = u ++ v' := by
  rcases List.eq_nil_or_concat v with rfl | ⟨v', t', rfl⟩
  · exact .inl ⟨rfl, by simpa using h⟩
  · rw [List.concat_eq_append, ← List.append_assoc] at h
    obtain ⟨hs, ht⟩ := List.append_inj' h rfl
    exact .inr ⟨v', by simpa using ht, hs.symm⟩

namespace Valid

variable (hg : g.Valid)
include hg

omit hg in
private theorem ends_of_terminal {s : List Token} {t : Token} (h : g.Inner e)
    (ht : e.isTerminal = true) (hd : g.Derives e (s ++ [t])) : ∃ u v p, s = u ++ v ∧
      g.Arrive e u p ∧ p ∈ e.lastSet g.emptyAt ∧ g.EndsAt p v t := by
  obtain ⟨t', hw, ha⟩ := (derives_terminal_iff ht).1 hd
  obtain ⟨rfl, he⟩ := List.append_inj' (show s ++ [t] = [] ++ [t'] from hw) rfl
  obtain rfl := List.singleton_inj.1 he
  refine ⟨[], [], e.ref.index, rfl, .here (.inl ht), ?_, .terminal h.stores ht ha⟩
  rw [Expr.lastSet_of_terminal ht]
  exact AscSet.mem_single.2 rfl

theorem ends_of_derives {s : List Token} {t : Token} (h : g.Inner e) (hd : g.Derives e w)
    (hw : w = s ++ [t]) : ∃ u v p, s = u ++ v ∧ g.Arrive e u p ∧ p ∈ e.lastSet g.emptyAt ∧
      g.EndsAt p v t := by
  induction hd generalizing s with
  | terminal ht ha =>
    refine ends_of_terminal h ht ?_
    rw [← hw]
    exact .terminal ht ha
  | eps => simp at hw
  | @altLeft r a b w hd ih =>
    have hia : g.Inner a := (hg.inner_alt h).1
    cases ht : (Expr.alt r a b).isTerminal with
    | true => exact ends_of_terminal h ht (hw ▸ .altLeft hd)
    | false =>
      obtain ⟨u, v, p, hs, ha, hl, he⟩ := ih hia hw
      exact ⟨u, v, p, hs, .altLeft ht ha, (Expr.mem_lastSet_alt ht).2 (.inl hl), he⟩
  | @altRight r a b w hd ih =>
    have hib : g.Inner b := (hg.inner_alt h).2
    cases ht : (Expr.alt r a b).isTerminal with
    | true => exact ends_of_terminal h ht (hw ▸ .altRight hd)
    | false =>
      obtain ⟨u, v, p, hs, ha, hl, he⟩ := ih hib hw
      exact ⟨u, v, p, hs, .altRight ht ha, (Expr.mem_lastSet_alt ht).2 (.inr hl), he⟩
  | @seq r a b u' v' hda hdb iha ihb =>
    obtain ⟨hia, hib⟩ := hg.inner_seq h
    -- the last token is read by the right part, unless that derives the empty string
    rcases append_eq_concat hw with ⟨rfl, rfl⟩ | ⟨v'', rfl, rfl⟩
    · obtain ⟨u, v, p, hs, ha, hl, he⟩ := iha hia rfl
      have hb := (hg.nullable_iff hib.stores).2 hdb
      exact ⟨u, v, p, hs, .seqLeft ha, Expr.mem_lastSet_seq.2 (.inr ⟨hb, hl⟩), he⟩
    · obtain ⟨u, v, p, rfl, ha, hl, he⟩ := ihb hib rfl
      refine ⟨u' ++ u, v, p, (List.append_assoc ..).symm, .seqRight hda ha, ?_, he⟩
      exact Expr.mem_lastSet_seq.2 (.inl hl)
  | @once r c w hd ih =>
    have hic : g.Inner c := hg.inner_plus h
    obtain ⟨u, v, p, hs, ha, hl, he⟩ := ih hic hw
    exact ⟨u, v, p, hs, .first ha, hl, he⟩
  | @more r c u' v' hd hd' ih ih' =>
    have hic : g.Inner c := hg.inner_plus h
    rcases append_eq_concat hw with ⟨rfl, rfl⟩ | ⟨v'', rfl, rfl⟩
    · obtain ⟨u, v, p, hs, ha, hl, he⟩ := ih hic rfl
      exact ⟨u, v, p, hs, .first ha, hl, he⟩
    · obtain ⟨u, v, p, rfl, ha, hl, he⟩ := ih' h rfl
      refine ⟨u' ++ u, v, p, (List.append_assoc ..).symm, ?_, hl, he⟩
      exact arrive_plus_append (.once hd) ha
  | @call r k n b w hb hd ih =>
    obtain ⟨u, v, p, rfl, ha, hl, he⟩ := ih (hg.inner_top hb) hw
    refine ⟨[], u ++ v, r.index, rfl, .here (.inr rfl), AscSet.mem_single.2 rfl, ?_⟩
    exact .call (Stores.calleeAt? h.stores) hb ha hl he

/-- Control has arrived at a position either before anything was read, or after a position that is
complete with the token read last. -/
theorem arrive_last (h : g.Inner e) (ha : g.Arrive e w q) :
    w = [] ∧ q ∈ e.firstSet g.emptyAt ∨
      ∃ u v t p, w = u ++ v ++ [t] ∧ g.Arrive e u p ∧ g.EndsAt p v t ∧
        e.Follows g.emptyAt p q := by
  induction ha with
  | here ht => exact .inl ⟨rfl, (hg.arrive_nil_iff h).1 (.here ht)⟩
  | @altLeft r a b w p ht ha ih =>
    have hia : g.Inner a := (hg.inner_alt h).1
    rcases ih hia with ⟨hw, hq⟩ | ⟨u, v, t, p', hw, hp, he, hf⟩
    · exact .inl ⟨hw, (Expr.mem_firstSet_alt ht).2 (.inl hq)⟩
    · exact .inr ⟨u, v, t, p', hw, .altLeft ht hp, he, (Expr.follows_alt_iff ht).2 (.inl hf)⟩
  | @altRight r a b w p ht ha ih =>
    have hib : g.Inner b := (hg.inner_alt h).2
    rcases ih hib with ⟨hw, hq⟩ | ⟨u, v, t, p', hw, hp, he, hf⟩
    · exact .inl ⟨hw, (Expr.mem_firstSet_alt ht).2 (.inr hq)⟩
    · exact .inr ⟨u, v, t, p', hw, .altRight ht hp, he, (Expr.follows_alt_iff ht).2 (.inr hf)⟩
  | @seqLeft r a b w p ha ih =>
    have hia : g.Inner a := (hg.inner_seq h).1
    rcases ih hia with ⟨hw, hq⟩ | ⟨u, v, t, p', hw, hp, he, hf⟩
    · exact .inl ⟨hw, Expr.mem_firstSet_seq.2 (.inl hq)⟩
    · exact .inr ⟨u, v, t, p', hw, .seqLeft hp, he, Expr.follows_seq_iff.2 (.inr (.inl hf))⟩
  | @seqRight r a b u' v' p hd ha ih =>
    obtain ⟨hia, hib⟩ := hg.inner_seq h
    rcases ih hib with ⟨rfl, hq⟩ | ⟨u, v, t, p', rfl, hp, he, hf⟩
    · -- at the beginning of the right part: what was read last has ended the left one
      rcases List.eq_nil_or_concat u' with rfl | ⟨s, t, rfl⟩
      · have hn := (hg.nullable_iff hia.stores).2 hd
        exact .inl ⟨rfl, Expr.mem_firstSet_seq.2 (.inr ⟨hn, hq⟩)⟩
      · rw [List.concat_eq_append] at hd ⊢
        obtain ⟨u, v, p', rfl, hp, hl, he⟩ := hg.ends_of_derives hia hd rfl
        refine .inr ⟨u, v, t, p', List.append_nil _, .seqLeft hp, he, ?_⟩
        exact Expr.follows_seq_iff.2 (.inl ⟨hl, hq⟩)
    · refine .inr ⟨u' ++ u, v, t, p', by simp, .seqRight hd hp, he, ?_⟩
      exact Expr.follows_seq_iff.2 (.inr (.inr hf))
  | @first r c w p ha ih =>
    have hic : g.Inner c := hg.inner_plus h
    rcases ih hic with ⟨hw, hq⟩ | ⟨u, v, t, p', hw, hp, he, hf⟩
    · exact .inl ⟨hw, hq⟩
    · exact .inr ⟨u, v, t, p', hw, .first hp, he, Expr.follows_plus_iff.2 (.inr hf)⟩
  | @more r c u' v' p hd ha ih =>
    have hic : g.Inner c := hg.inner_plus h
    rcases ih hic with ⟨rfl, hq⟩ | ⟨u, v, t, p', rfl, hp, he, hf⟩
    · rcases List.eq_nil_or_concat u' with rfl | ⟨s, t, rfl⟩
      · exact .inl ⟨rfl, hq⟩
      · rw [List.concat_eq_append] at hd ⊢
        obtain ⟨u, v, p', rfl, hp, hl, he⟩ := hg.ends_of_derives h hd rfl
        refine .inr ⟨u, v, t, p', List.append_nil _, hp, he, ?_⟩
        exact Expr.follows_plus_iff.2 (.inl ⟨hl, hq⟩)
    · refine .inr ⟨u' ++ u, v, t, p', by simp, .more hd hp, he, ?_⟩
      exact Expr.follows_plus_iff.2 (.inr hf)

end Valid

end TokenGrammar.Grammar
