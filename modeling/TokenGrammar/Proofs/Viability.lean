import TokenGrammar.Proofs.Runs

/-!
# Viable beginnings

A leftmost derivation rewrites the first symbol of a sentential form, and reads a token where this
symbol is a terminal. A token string is viable when it is a sentence, or when a derivation from the
root reads just this string and comes to a terminal. Control stands somewhere after a nonempty string
exactly when the string is viable.
-/

namespace TokenGrammar.Grammar

/-- One step of a leftmost derivation, and what it reads. -/
inductive Rewrites (g : Grammar) : List Expr → List Token → List Expr → Prop
  | terminal {e : Expr} {t : Token} (h : e.isTerminal = true) (ha : e.accepts t = .ok true)
    (α : List Expr) : Rewrites g (e :: α) [t] α
  | eps (r : NodeRef) (α : List Expr) : Rewrites g (.eps r :: α) [] α
  | altLeft {r : NodeRef} {a b : Expr} (ht : (Expr.alt r a b).isTerminal = false)
    (α : List Expr) : Rewrites g (.alt r a b :: α) [] (a :: α)
  | altRight {r : NodeRef} {a b : Expr} (ht : (Expr.alt r a b).isTerminal = false)
    (α : List Expr) : Rewrites g (.alt r a b :: α) [] (b :: α)
  | seq (r : NodeRef) (a b : Expr) (α : List Expr) : Rewrites g (.seq r a b :: α) [] (a :: b :: α)
  | once (r : NodeRef) (c : Expr) (α : List Expr) : Rewrites g (.plus r c :: α) [] (c :: α)
  | more (r : NodeRef) (c : Expr) (α : List Expr) :
    Rewrites g (.plus r c :: α) [] (c :: .plus r c :: α)
  | call {r : NodeRef} {k : RuleRef} {s : Nat} {b : Expr} (hb : g.top? (some k.index) = some b)
    (α : List Expr) : Rewrites g (.call r k s :: α) [] (b :: α)

/-- A leftmost derivation from one sentential form to another, and what it reads. -/
inductive Reads (g : Grammar) : List Expr → List Token → List Expr → Prop
  | refl (α : List Expr) : Reads g α [] α
  | step {α β γ : List Expr} {u v : List Token} (h : Rewrites g α u β) (h' : Reads g β v γ) :
    Reads g α (u ++ v) γ

/-- A token string that is a sentence, or after which a leftmost derivation has come to a
terminal. -/
def Viable (g : Grammar) (u : List Token) : Prop :=
  g.Sentence u ∨ ∃ e α, g.Reads [g.root] u (e :: α) ∧ e.isTerminal = true

variable {g : Grammar} {e : Expr} {α β γ : List Expr} {u v w : List Token} {p : Nat}
  {x : Activation}

theorem Reads.trans (h : g.Reads α u β) (h' : g.Reads β v γ) : g.Reads α (u ++ v) γ := by
  induction h with
  | refl => exact h'
  | step hr _ ih =>
    rw [List.append_assoc]
    exact .step hr (ih h')

theorem Rewrites.then (h : g.Rewrites α [] β) (h' : g.Reads β u γ) : g.Reads α u γ :=
  .step h h'

private theorem reads_terminal (ht : e.isTerminal = true) (hd : g.Derives e w) (α : List Expr) :
    g.Reads (e :: α) w α := by
  obtain ⟨t, rfl, ha⟩ := (derives_terminal_iff ht).1 hd
  exact .step (.terminal ht ha α) (.refl α)

/-- A derivation of a string is a leftmost derivation that reads it. -/
theorem reads_of_derives (h : g.Derives e w) (α : List Expr) : g.Reads (e :: α) w α := by
  induction h generalizing α with
  | terminal ht ha => exact reads_terminal ht (.terminal ht ha) α
  | eps r => exact (Rewrites.eps r α).then (.refl α)
  | @altLeft r a b w hd ih =>
    cases ht : (Expr.alt r a b).isTerminal with
    | true => exact reads_terminal ht (.altLeft hd) α
    | false => exact (Rewrites.altLeft ht α).then (ih α)
  | @altRight r a b w hd ih =>
    cases ht : (Expr.alt r a b).isTerminal with
    | true => exact reads_terminal ht (.altRight hd) α
    | false => exact (Rewrites.altRight ht α).then (ih α)
  | seq _ _ iha ihb => exact (Rewrites.seq _ _ _ α).then ((iha _).trans (ihb α))
  | once _ ih => exact (Rewrites.once _ _ α).then (ih α)
  | more _ _ ih ih' => exact (Rewrites.more _ _ α).then ((ih _).trans (ih' α))
  | call hb _ ih => exact (Rewrites.call hb α).then (ih α)

private theorem reads_plus {r : NodeRef} {c : Expr} (h : g.Derives (.plus r c) w)
    (α : List Expr) : g.Reads (.plus r c :: α) w (.plus r c :: α) := by
  generalize he : Expr.plus r c = e at h
  induction h with
  | once hd _ =>
    cases he
    exact (Rewrites.more r c α).then (reads_of_derives hd _)
  | more hd _ _ ih =>
    cases he
    exact (Rewrites.more r c α).then ((reads_of_derives hd _).trans (ih rfl))
  | terminal ht =>
    cases he
    cases ht
  | eps | altLeft | altRight | seq | call => cases he

theorem reads_of_arrive (hg : g.WellFormed) (he : g.Stores e) (h : g.Arrive e w p) {y : Expr}
    (hy : g.nodes[p]? = some y) (α : List Expr) : ∃ β, g.Reads (e :: α) w (y :: β) := by
  induction h generalizing α with
  | @here e ht =>
    obtain rfl := Option.some.inj (he.symm.trans hy)
    exact ⟨α, .refl _⟩
  | @altLeft r a b w p ht _ ih =>
    obtain ⟨β, h⟩ := ih (hg.stores_alt he).1 hy α
    exact ⟨β, (Rewrites.altLeft ht α).then h⟩
  | @altRight r a b w p ht _ ih =>
    obtain ⟨β, h⟩ := ih (hg.stores_alt he).2 hy α
    exact ⟨β, (Rewrites.altRight ht α).then h⟩
  | @seqLeft r a b w p _ ih =>
    -- the right operand is still to be rewritten
    obtain ⟨β, h⟩ := ih (hg.stores_seq he).1 hy (b :: α)
    exact ⟨β, (Rewrites.seq r a b α).then h⟩
  | @seqRight r a b u v p hd _ ih =>
    obtain ⟨β, h⟩ := ih (hg.stores_seq he).2 hy α
    exact ⟨β, (Rewrites.seq r a b α).then ((reads_of_derives hd _).trans h)⟩
  | @first r c w p _ ih =>
    obtain ⟨β, h⟩ := ih (hg.stores_plus he) hy α
    exact ⟨β, (Rewrites.once r c α).then h⟩
  | @more r c u v p hd _ ih =>
    obtain ⟨β, h⟩ := ih (hg.stores_plus he) hy α
    exact ⟨β, (reads_plus hd α).trans ((Rewrites.once r c α).then h)⟩

private theorem reads_of_entered (hg : g.WellFormed) (h : g.Entered x)
    (he : g.top? x.top = some e) : ∃ β, g.Reads [g.root] x.start (e :: β) := by
  induction h generalizing e with
  | root =>
    obtain rfl := Option.some.inj he
    exact ⟨[], .refl _⟩
  | @call x b w p a _ hb ha hp ih =>
    obtain ⟨β, h⟩ := ih hb
    obtain ⟨r, k, s, hs, rfl, rfl⟩ := hg.call_of_calleeAt hp
    obtain ⟨γ, h'⟩ := reads_of_arrive hg (hg.stores_top hb) ha hs β
    have hcall : g.Reads (.call r k s :: γ) [] (e :: γ) := (Rewrites.call he γ).then (.refl _)
    have := (h.trans h').trans hcall
    rw [List.append_nil] at this
    exact ⟨γ, this⟩

theorem viable_of_standing (hg : g.Valid) (h : g.Standing u) : g.Viable u := by
  obtain ⟨x, p, ⟨⟨hx, e, w, he, rfl, ha⟩, hc⟩ | ⟨-, -, -, hs⟩⟩ := h
  · obtain ⟨y, hy, ht⟩ := hg.terminal_of_owns ⟨e, he, ha.mem_marks⟩ hc
    obtain ⟨β, h⟩ := reads_of_entered hg.toWellFormed hx he
    obtain ⟨γ, h'⟩ := reads_of_arrive hg.toWellFormed (hg.stores_top he) ha hy β
    exact .inr ⟨y, γ, h.trans h', ht⟩
  · exact .inl hs

/-- An expression may have read some tokens and be in front of a terminal. -/
inductive Fronts (g : Grammar) : Expr → List Token → Prop
  | terminal {e : Expr} (ht : e.isTerminal = true) : Fronts g e []
  | altLeft {r : NodeRef} {a b : Expr} {w : List Token}
    (ht : (Expr.alt r a b).isTerminal = false) (h : Fronts g a w) : Fronts g (.alt r a b) w
  | altRight {r : NodeRef} {a b : Expr} {w : List Token}
    (ht : (Expr.alt r a b).isTerminal = false) (h : Fronts g b w) : Fronts g (.alt r a b) w
  | seqLeft {r : NodeRef} {a b : Expr} {w : List Token} (h : Fronts g a w) :
    Fronts g (.seq r a b) w
  | seqRight {r : NodeRef} {a b : Expr} {u v : List Token} (hd : Derives g a u)
    (h : Fronts g b v) : Fronts g (.seq r a b) (u ++ v)
  | once {r : NodeRef} {c : Expr} {w : List Token} (h : Fronts g c w) : Fronts g (.plus r c) w
  | more {r : NodeRef} {c : Expr} {u v : List Token} (hd : Derives g c u)
    (h : Fronts g (.plus r c) v) : Fronts g (.plus r c) (u ++ v)
  | call {r : NodeRef} {k : RuleRef} {s : Nat} {b : Expr} {w : List Token}
    (hb : g.top? (some k.index) = some b) (h : Fronts g b w) : Fronts g (.call r k s) w

/-- A symbol of a sentential form is in front of a terminal, and those before it have been read. -/
private inductive FormFronts (g : Grammar) : List Expr → List Token → Prop
  | here {e : Expr} {u : List Token} (h : Fronts g e u) (α : List Expr) : FormFronts g (e :: α) u
  | later {e : Expr} {α : List Expr} {u v : List Token} (hd : Derives g e u)
    (h : FormFronts g α v) : FormFronts g (e :: α) (u ++ v)

private theorem FormFronts.rewritten (h : g.Rewrites α u β) (hf : g.FormFronts β v) :
    g.FormFronts α (u ++ v) := by
  cases h with
  | terminal ht ha => exact .later (.terminal ht ha) hf
  | eps r => exact .later (.eps r) hf
  | altLeft ht =>
    cases hf with
    | here h => exact .here (.altLeft ht h) _
    | later hd h =>
      rw [List.nil_append]
      exact .later (.altLeft hd) h
  | altRight ht =>
    cases hf with
    | here h => exact .here (.altRight ht h) _
    | later hd h =>
      rw [List.nil_append]
      exact .later (.altRight hd) h
  -- a front in either operand is one in the sequence, with the left one read through or not
  | seq r a b =>
    cases hf with
    | here h => exact .here (.seqLeft h) _
    | later hd h =>
      cases h with
      | here h => exact .here (.seqRight hd h) _
      | later hd' h =>
        rw [List.nil_append, ← List.append_assoc]
        exact .later (.seq hd hd') h
  | once r c =>
    cases hf with
    | here h => exact .here (.once h) _
    | later hd h =>
      rw [List.nil_append]
      exact .later (.once hd) h
  | more r c =>
    cases hf with
    | here h => exact .here (.once h) _
    | later hd h =>
      cases h with
      | here h => exact .here (.more hd h) _
      | later hd' h =>
        rw [List.nil_append, ← List.append_assoc]
        exact .later (.more hd hd') h
  | call hb =>
    cases hf with
    | here h => exact .here (.call hb h) _
    | later hd h =>
      rw [List.nil_append]
      exact .later (.call hb hd) h

private theorem FormFronts.of_reads (h : g.Reads α u (e :: β)) (ht : e.isTerminal = true) :
    g.FormFronts α u := by
  generalize hγ : e :: β = γ at h
  induction h with
  | refl =>
    subst hγ
    exact .here (.terminal ht) β
  | step h _ ih => exact (ih hγ).rewritten h

theorem fronts_of_viable (h : g.Viable u) : g.Sentence u ∨ g.Fronts g.root u := by
  refine h.imp_right fun ⟨e, β, hr, ht⟩ => ?_
  generalize hα : [g.root] = α at hr
  cases FormFronts.of_reads hr ht with
  | here h =>
    cases hα
    exact h
  | later _ h =>
    cases hα
    cases h

private theorem arrive_of_fronts (hg : g.Valid) (he : g.Inner e) (h : g.Fronts e w) :
    ∃ u v p, w = u ++ v ∧ g.Arrive e u p ∧ ∀ (x : Activation) (s : List Token), g.At x s p →
      ∃ y q, g.At y (s ++ v) q ∧ g.isCallAt q = false := by
  induction h with
  | @terminal e ht =>
    refine ⟨[], [], e.ref.index, rfl, .here (.inl ht), fun x s hx => ⟨x, e.ref.index, ?_, ?_⟩⟩
    · rwa [List.append_nil]
    · rw [he.stores.isCallAt, Expr.isCall_eq_false_of_terminal ht]
  | altLeft ht _ ih =>
    obtain ⟨u, v, p, hw, ha, hx⟩ := ih (hg.inner_alt he).1
    exact ⟨u, v, p, hw, .altLeft ht ha, hx⟩
  | altRight ht _ ih =>
    obtain ⟨u, v, p, hw, ha, hx⟩ := ih (hg.inner_alt he).2
    exact ⟨u, v, p, hw, .altRight ht ha, hx⟩
  | seqLeft _ ih =>
    obtain ⟨u, v, p, hw, ha, hx⟩ := ih (hg.inner_seq he).1
    exact ⟨u, v, p, hw, .seqLeft ha, hx⟩
  | @seqRight r a b u' v' hd _ ih =>
    obtain ⟨u, v, p, rfl, ha, hx⟩ := ih (hg.inner_seq he).2
    exact ⟨u' ++ u, v, p, (List.append_assoc ..).symm, .seqRight hd ha, hx⟩
  | once _ ih =>
    obtain ⟨u, v, p, hw, ha, hx⟩ := ih (hg.inner_plus he)
    exact ⟨u, v, p, hw, .first ha, hx⟩
  | @more r c u' v' hd _ ih =>
    obtain ⟨u, v, p, rfl, ha, hx⟩ := ih he
    exact ⟨u' ++ u, v, p, (List.append_assoc ..).symm, arrive_plus_append (.once hd) ha, hx⟩
  | @call r k n b w hb _ ih =>
    obtain ⟨u, v, p, rfl, ha, hx⟩ := ih (hg.inner_top hb)
    refine ⟨[], u ++ v, r.index, rfl, .here (.inr rfl), fun x s hs => ?_⟩
    have hent := hs.entered_call (Stores.calleeAt? he.stores)
    rw [← List.append_assoc]
    exact hx _ (s ++ u) ⟨hent, b, u, hb, rfl, ha⟩

private theorem standing_of_fronts (hg : g.Valid) (h : g.Fronts g.root u) : g.Standing u := by
  have hroot : g.top? none = some g.root := rfl
  obtain ⟨u, v, p, rfl, ha, hx⟩ := arrive_of_fronts hg (hg.inner_top hroot) h
  obtain ⟨y, q, hat, hc⟩ := hx ⟨none, []⟩ u ⟨.root, g.root, u, hroot, rfl, ha⟩
  exact ⟨y, q, .inl ⟨hat, hc⟩⟩

/-- Control stands somewhere after a nonempty string exactly when it is viable. -/
theorem standing_iff_viable (hg : g.Valid) (hu : u ≠ []) : g.Standing u ↔ g.Viable u := by
  refine ⟨viable_of_standing hg, fun h => ?_⟩
  rcases fronts_of_viable h with hs | hf
  · exact ⟨⟨none, []⟩, g.endIndex, .inr ⟨rfl, rfl, hu, hs⟩⟩
  · exact standing_of_fronts hg hf

private theorem ends_within_or_after {u' v' : List Token} (h : u' ++ v' = u ++ v) :
    (∃ w, w ≠ [] ∧ u' = u ++ w) ∨ ∃ w, u = u' ++ w ∧ v' = w ++ v := by
  rcases List.append_eq_append_iff.1 h with ⟨w, hu, hv⟩ | ⟨w, hu, hv⟩
  · exact .inr ⟨w, hu, hv⟩
  · cases w with
    | nil => exact .inr ⟨[], by simpa using hu.symm, by simpa using hv.symm⟩
    | cons t w => exact .inl ⟨t :: w, List.cons_ne_nil t w, hu⟩

private theorem fronts_terminal (ht : e.isTerminal = true) (hd : g.Derives e (u ++ v))
    (hv : v ≠ []) : g.Fronts e u := by
  obtain ⟨t, he, -⟩ := (derives_terminal_iff ht).1 hd
  rcases List.append_eq_singleton_iff.1 he with ⟨rfl, -⟩ | ⟨-, rfl⟩
  · exact .terminal ht
  · exact absurd rfl hv

private theorem fronts_of_derives (h : g.Derives e w) (hw : w = u ++ v) (hv : v ≠ []) :
    g.Fronts e u := by
  induction h generalizing u v with
  | terminal ht ha => exact fronts_terminal ht (hw ▸ .terminal ht ha) hv
  | eps => exact absurd (List.append_eq_nil_iff.1 hw.symm).2 hv
  | @altLeft r a b w hd ih =>
    cases ht : (Expr.alt r a b).isTerminal with
    | true => exact fronts_terminal ht (hw ▸ .altLeft hd) hv
    | false => exact .altLeft ht (ih hw hv)
  | @altRight r a b w hd ih =>
    cases ht : (Expr.alt r a b).isTerminal with
    | true => exact fronts_terminal ht (hw ▸ .altRight hd) hv
    | false => exact .altRight ht (ih hw hv)
  | seq hd _ ih ih' =>
    rcases ends_within_or_after hw with ⟨w, hne, hu⟩ | ⟨w, rfl, hv'⟩
    · exact .seqLeft (ih hu hne)
    · exact .seqRight hd (ih' hv' hv)
  | once _ ih => exact .once (ih hw hv)
  | more hd _ ih ih' =>
    rcases ends_within_or_after hw with ⟨w, hne, hu⟩ | ⟨w, rfl, hv'⟩
    · exact .once (ih hu hne)
    · exact .more hd (ih' hv' hv)
  | call hb _ ih => exact .call hb (ih hw hv)

/-- A derivation can be cut after any token. -/
theorem viable_of_sentence (hg : g.Valid) (hu : u ≠ []) (h : g.Sentence (u ++ v)) :
    g.Viable u := by
  cases v with
  | nil => exact .inl (by simpa using h)
  | cons t v =>
    have hf := fronts_of_derives h rfl (List.cons_ne_nil t v)
    exact (standing_iff_viable hg hu).1 (standing_of_fronts hg hf)

end TokenGrammar.Grammar
