import TokenGrammar.Proofs.Viability

/-!
# Productive grammars

In a productive grammar every rule that the root leads to derives a string, and every terminal that
control can come to accepts a token. There each viable string is the beginning of a sentence: what the
derivation has left open can be filled in.
-/

namespace TokenGrammar.Grammar

/-- Every rule that is used derives a string, and every terminal position of the root and of these
rules accepts a token. -/
structure Productive (g : Grammar) : Prop where
  derives : ∀ (k : Nat) (e : Expr), g.LeadsTo g.root k → g.top? (some k) = some e →
    ∃ w, g.Derives e w
  accepts : ∀ (k : Option Nat) (e x : Expr), g.Uses k → g.top? k = some e → x ∈ e.positions →
    x.isTerminal = true → ∃ t, x.accepts t = .ok true

variable {g : Grammar} {e : Expr} {u v : List Token}

/-- Every position of the expression derives a string, and only rules that are used are called. -/
private def Fruitful (g : Grammar) (e : Expr) : Prop :=
  ∀ x ∈ e.positions, (∃ w, g.Derives x w) ∧ ∀ k, x.callee? = some k → g.Uses (some k.index)

private theorem Productive.fruitful (hg : g.WellFormed) (hp : g.Productive) {k : Option Nat}
    (hk : g.Uses k) (he : g.top? k = some e) : g.Fruitful e := by
  intro x hx
  have hc := (hg.stores_position (hg.stores_top he) hx).calleeAt?
  have huse : ∀ r, x.callee? = some r → g.Uses (some r.index) := by
    intro r hr
    rw [hr] at hc
    exact hk.call he (hg.mem_calls_of_mem_marks (hg.stores_top he) (List.mem_map_of_mem hx) hc) hc
  refine ⟨?_, huse⟩
  rcases Expr.terminal_or_call_of_mem_positions hx with ht | hcall
  · obtain ⟨t, ha⟩ := hp.accepts k e x hk he hx ht
    exact ⟨[t], .terminal ht ha⟩
  · cases x with
    | call r k' s =>
      obtain ⟨b, hb⟩ := WellFormed.top_of_lt (hg.calleeAt_lt hc)
      obtain ⟨w, hw⟩ := hp.derives k'.index b (huse k' rfl _ rfl) hb
      exact ⟨w, .call hb hw⟩
    | token | eps | alt | seq | conj | plus | endMark => cases hcall

private theorem exists_derives (hg : g.Valid) (he : g.Inner e) (h : g.Fruitful e) :
    ∃ w, g.Derives e w := by
  induction e, he using hg.inner_induction with
  | terminal e he ht =>
    refine (h e ?_).1
    rw [Expr.positions_of_terminal ht]
    exact List.mem_singleton.2 rfl
  | call r k s he => exact (h _ (List.mem_singleton.2 rfl)).1
  | eps r he => exact ⟨[], .eps r⟩
  | alt r a b he ha hb ht iha ihb =>
    obtain ⟨w, hw⟩ := iha fun x hx => h x (by simp [Expr.positions_alt ht, hx])
    exact ⟨w, .altLeft hw⟩
  | seq r a b he ha hb iha ihb =>
    obtain ⟨v, hv⟩ := iha fun x hx => h x (by simp [hx])
    obtain ⟨w, hw⟩ := ihb fun x hx => h x (by simp [hx])
    exact ⟨v ++ w, .seq hv hw⟩
  | plus r c he hc ih =>
    obtain ⟨w, hw⟩ := ih h
    exact ⟨w, .once hw⟩

private theorem derives_of_fronts (hg : g.Valid) (hp : g.Productive) (he : g.Inner e)
    (hfr : g.Fruitful e) (h : g.Fronts e u) : ∃ v, g.Derives e (u ++ v) := by
  induction h with
  | terminal ht => exact exists_derives hg he hfr
  | altLeft ht _ ih =>
    obtain ⟨v, hv⟩ := ih (hg.inner_alt he).1
      fun x hx => hfr x (by simp [Expr.positions_alt ht, hx])
    exact ⟨v, .altLeft hv⟩
  | altRight ht _ ih =>
    obtain ⟨v, hv⟩ := ih (hg.inner_alt he).2
      fun x hx => hfr x (by simp [Expr.positions_alt ht, hx])
    exact ⟨v, .altRight hv⟩
  | @seqLeft r a b w _ ih =>
    obtain ⟨v, hv⟩ := ih (hg.inner_seq he).1
      fun x hx => hfr x (by simp [hx])
    have hb : g.Inner b := (hg.inner_seq he).2
    obtain ⟨w, hw⟩ := exists_derives hg hb fun x hx => hfr x (by simp [hx])
    refine ⟨v ++ w, ?_⟩
    rw [← List.append_assoc]
    exact .seq hv hw
  | seqRight hd _ ih =>
    obtain ⟨v, hv⟩ := ih (hg.inner_seq he).2
      fun x hx => hfr x (by simp [hx])
    refine ⟨v, ?_⟩
    rw [List.append_assoc]
    exact .seq hd hv
  | once _ ih =>
    obtain ⟨v, hv⟩ := ih (hg.inner_plus he) hfr
    exact ⟨v, .once hv⟩
  | more hd _ ih =>
    obtain ⟨v, hv⟩ := ih he hfr
    refine ⟨v, ?_⟩
    rw [List.append_assoc]
    exact .more hd hv
  | @call r k s b w hb _ ih =>
    have huse := (hfr _ (List.mem_singleton.2 rfl)).2 k rfl
    obtain ⟨v, hv⟩ := ih (hg.inner_top hb) (hp.fruitful hg.toWellFormed huse hb)
    exact ⟨v, .call hb hv⟩

/-- In a productive grammar a viable string can be completed to a sentence. -/
theorem Valid.sentence_of_viable (hg : g.Valid) (hp : g.Productive) (h : g.Viable u) :
    ∃ v, g.Sentence (u ++ v) := by
  rcases fronts_of_viable h with hs | hf
  · exact ⟨[], by rwa [List.append_nil]⟩
  · have hroot : g.top? none = some g.root := rfl
    exact derives_of_fronts hg hp (hg.inner_top hroot)
      (hp.fruitful hg.toWellFormed uses_root hroot) hf

theorem Valid.exists_sentence (hg : g.Valid) (hp : g.Productive) : ∃ v, g.Sentence v := by
  have hroot : g.top? none = some g.root := rfl
  exact exists_derives hg (hg.inner_top hroot) (hp.fruitful hg.toWellFormed uses_root hroot)

end TokenGrammar.Grammar
