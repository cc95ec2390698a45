import TokenGrammar.Proofs.Streaming
import Mathlib.Combinatorics.Enumerative.DoubleCounting
import Mathlib.Data.List.Forall2
import Mathlib.Logic.Relator

/-!
# Parallel grammars

A recognizer looks at nothing but the root and the bodies that the root leads to, and in these at
the operators, at the token tests and at which calls are calls of the same rule. Grammars that agree
in that are parallel, wherever their nodes are, however their rules are numbered and named, and
whatever other rules they have. Recognizers of two such grammars stand at opposite positions and
have made as many contexts.
-/

namespace TokenGrammar

variable {ρ : Nat → Nat → Prop}

/-- A list without duplicates is no longer than another if each of its members goes with a member of
that one which goes with no other. -/
theorem length_le_of_paired {α β : Type} {R : α → β → Prop} {xs : List α} {ys : List β}
    (hR : Relator.LeftUnique R) (hx : xs.Nodup) (h : ∀ x ∈ xs, ∃ y ∈ ys, R x y) :
    xs.length ≤ ys.length := by
  classical
  rw [← List.toFinset_card_of_nodup hx]
  refine (Finset.card_le_card_of_forall_subsingleton R (fun x hx => ?_) ?_).trans
    ys.toFinset_card_le
  · obtain ⟨y, hy, hxy⟩ := h x (List.mem_toFinset.1 hx)
    exact ⟨y, List.mem_toFinset.2 hy, hxy⟩
  · exact fun y _ x hx x' hx' => hR hx.2 hx'.2

theorem Frontier.matching_sublist {t : Tables} {tok : Token}
    {entries matched : List (Nat × ContextSet)} (h : matching t tok entries = .ok matched) :
    matched.Sublist entries := by
  induction entries generalizing matched with
  | nil =>
    obtain rfl := Except.ok.inj h
    exact .slnil
  | cons e entries ih =>
    cases hr : matching t tok entries with
    | error =>
      rw [matching, hr] at h
      cases h
    | ok rest =>
      cases hb : t.accepts e.1 tok with
      | error =>
        rw [matching, ok_bind hr, hb] at h
        cases h
      | ok b =>
        rw [matching, ok_bind hr, ok_bind hb] at h
        obtain rfl := Except.ok.inj h
        cases b with
        | true => exact (ih hr).cons_cons e
        | false => exact (ih hr).cons e

private theorem eq_of_mem_zip {xs ys : List Nat} (hn : ys.Nodup) {a b c : Nat}
    (h : (a, c) ∈ xs.zip ys) (h' : (b, c) ∈ xs.zip ys) : a = b := by
  obtain ⟨i, hi⟩ := List.getElem?_of_mem h
  obtain ⟨j, hj⟩ := List.getElem?_of_mem h'
  obtain ⟨ha, hc⟩ := List.getElem?_zip_eq_some.1 hi
  obtain ⟨hb, hc'⟩ := List.getElem?_zip_eq_some.1 hj
  obtain rfl := (List.getElem?_inj (List.getElem?_eq_some_iff.1 hc).1 hn).1 (hc.trans hc'.symm)
  exact Option.some.inj (ha.symm.trans hb)

private theorem leftUnique_optionRel (h : Relator.LeftUnique ρ) :
    Relator.LeftUnique (Option.Rel ρ) := by
  intro k l k' hk hl
  cases hk with
  | some hk =>
    cases hl with
    | some hl => rw [h hk hl]
  | none =>
    cases hl with
    | none => rfl

/-- Two trees with the same operators and token tests, in which calls are calls of counterparts. -/
inductive Expr.Parallel (ρ : Nat → Nat → Prop) : Expr → Expr → Prop
  | token {r r' : NodeRef} (test : TokenTest) : Parallel ρ (.token r test) (.token r' test)
  | eps {r r' : NodeRef} : Parallel ρ (.eps r) (.eps r')
  | alt {r r' : NodeRef} {a a' b b' : Expr} (ha : Parallel ρ a a') (hb : Parallel ρ b b') :
    Parallel ρ (.alt r a b) (.alt r' a' b')
  | seq {r r' : NodeRef} {a a' b b' : Expr} (ha : Parallel ρ a a') (hb : Parallel ρ b b') :
    Parallel ρ (.seq r a b) (.seq r' a' b')
  | conj {r r' : NodeRef} {a a' b b' : Expr} (ha : Parallel ρ a a') (hb : Parallel ρ b b') :
    Parallel ρ (.conj r a b) (.conj r' a' b')
  | plus {r r' : NodeRef} {c c' : Expr} (hc : Parallel ρ c c') : Parallel ρ (.plus r c) (.plus r' c')
  | call {r r' : NodeRef} {k k' : RuleRef} {s s' : Nat} (h : ρ k.index k'.index) :
    Parallel ρ (.call r k s) (.call r' k' s')
  | endMark {r r' : NodeRef} : Parallel ρ (.endMark r) (.endMark r')

/-- The roots are parallel, and `ρ` pairs off rules whose bodies are. All rules that the root leads
to have counterparts then. Nothing is said about rules that have none. -/
structure Grammar.Parallel (ρ : Nat → Nat → Prop) (g g' : Grammar) : Prop where
  paired : Relator.BiUnique ρ
  root : g.root.Parallel ρ g'.root
  body : ∀ {a a' : Nat}, ρ a a' → ∃ e e', g.top? (some a) = some e ∧
    g'.top? (some a') = some e' ∧ e.Parallel ρ e'

namespace Expr.Parallel

variable {e e' : Expr} {t : Token}

theorem symm (h : e.Parallel ρ e') : e'.Parallel (flip ρ) e := by
  induction h with
  | token test => exact .token test
  | eps => exact .eps
  | alt _ _ iha ihb => exact .alt iha ihb
  | seq _ _ iha ihb => exact .seq iha ihb
  | conj _ _ iha ihb => exact .conj iha ihb
  | plus _ ih => exact .plus ih
  | call h => exact .call h
  | endMark => exact .endMark

theorem isTerminal (h : e.Parallel ρ e') : e.isTerminal = e'.isTerminal := by
  induction h with
  | alt _ _ iha ihb | conj _ _ iha ihb => rw [Expr.isTerminal, Expr.isTerminal, iha, ihb]
  | token | eps | seq | plus | call | endMark => rfl

theorem isCall (h : e.Parallel ρ e') : e.isCall = e'.isCall := by
  cases h <;> rfl

theorem callee (h : e.Parallel ρ e') {k : RuleRef} (hk : e.callee? = some k) :
    ∃ k', e'.callee? = some k' ∧ ρ k.index k'.index := by
  cases h with
  | call h =>
    obtain rfl := Option.some.inj hk
    exact ⟨_, rfl, h⟩
  | token | eps | alt | seq | conj | plus | endMark => cases hk

theorem accepts (h : e.Parallel ρ e') {b : Bool} (ha : e.accepts t = .ok b) :
    e'.accepts t = .ok b := by
  induction h generalizing b with
  | token | endMark => exact ha
  | @alt r r' a a' c c' _ _ iha ihb =>
    rw [Expr.accepts] at ha ⊢
    cases hl : a.accepts t with
    | error =>
      rw [hl] at ha
      cases ha
    | ok x =>
      rw [iha hl]
      rw [hl] at ha
      cases x with
      | true => exact ha
      | false => exact ihb ha
  | @conj r r' a a' c c' _ _ iha ihb =>
    rw [Expr.accepts] at ha ⊢
    cases hl : a.accepts t with
    | error =>
      rw [hl] at ha
      cases ha
    | ok x =>
      rw [iha hl]
      rw [hl] at ha
      cases x with
      | true => exact ihb ha
      | false => exact ha
  | eps | seq | plus | call => cases ha

theorem positions (h : e.Parallel ρ e') :
    List.Forall₂ (Expr.Parallel ρ) e.positions e'.positions := by
  induction h with
  | token test => exact .cons (.token test) .nil
  | call h => exact .cons (.call h) .nil
  | eps | endMark => exact .nil
  | @alt r r' a a' b b' ha hb iha ihb =>
    have hab : (Expr.alt r a b).Parallel ρ (.alt r' a' b') := .alt ha hb
    cases ht : (Expr.alt r a b).isTerminal with
    | true =>
      rw [positions_of_terminal ht, positions_of_terminal (hab.isTerminal ▸ ht)]
      exact .cons hab .nil
    | false =>
      rw [positions_alt ht, positions_alt (hab.isTerminal ▸ ht)]
      exact List.rel_append iha ihb
  | @conj r r' a a' b b' ha hb iha ihb =>
    have hab : (Expr.conj r a b).Parallel ρ (.conj r' a' b') := .conj ha hb
    cases ht : (Expr.conj r a b).isTerminal with
    | true =>
      rw [positions_of_terminal ht, positions_of_terminal (hab.isTerminal ▸ ht)]
      exact .cons hab .nil
    | false =>
      rw [positions_conj ht, positions_conj (hab.isTerminal ▸ ht)]
      exact List.rel_append iha ihb
  | seq _ _ iha ihb =>
    rw [positions_seq, positions_seq]
    exact List.rel_append iha ihb
  | plus _ ih => exact ih

theorem length_marks (h : e.Parallel ρ e') : e.marks.length = e'.marks.length := by
  rw [marks, marks, List.length_map, List.length_map, h.positions.length_eq]

end Expr.Parallel

/-- Activations of parallel bodies, entered when the same had been read. -/
structure Activation.Parallel (ρ : Nat → Nat → Prop) (x x' : Activation) : Prop where
  top : Option.Rel ρ x.top x'.top
  start : x.start = x'.start

namespace Grammar

/-- As many positions come before the one in a tree as before the other in a tree parallel to it.
The end marks are opposite each other too. -/
def Opposite (ρ : Nat → Nat → Prop) (g g' : Grammar) (p p' : Nat) : Prop :=
  (∃ k k' e e', Option.Rel ρ k k' ∧ g.top? k = some e ∧ g'.top? k' = some e' ∧
    (p, p') ∈ e.marks.zip e'.marks) ∨ p = g.endIndex ∧ p' = g'.endIndex

variable {g g' : Grammar} {e e' : Expr} {u w : List Token} {p p' : Nat} {k k' : Option Nat}
  {t : Token} {x : Activation}

namespace Parallel

variable (hm : g.Parallel ρ g')
include hm

theorem symm : g'.Parallel (flip ρ) g where
  paired := ⟨fun _ _ _ h h' => hm.paired.2 h h', fun _ _ _ h h' => hm.paired.1 h h'⟩
  root := hm.root.symm
  body h := by
    obtain ⟨e, e', he, he', hee⟩ := hm.body h
    exact ⟨e', e, he', he, hee.symm⟩

theorem tops (hk : Option.Rel ρ k k') :
    ∃ e e', g.top? k = some e ∧ g'.top? k' = some e' ∧ e.Parallel ρ e' := by
  cases hk with
  | some h => exact hm.body h
  | none => exact ⟨g.root, g'.root, rfl, rfl, hm.root⟩

theorem derives (h : g.Derives e w) (he : e.Parallel ρ e') : g'.Derives e' w := by
  induction h generalizing e' with
  | terminal ht ha => exact .terminal (he.isTerminal ▸ ht) (he.accepts ha)
  | eps =>
    cases he
    exact .eps _
  | altLeft _ ih =>
    cases he with
    | alt ha => exact .altLeft (ih ha)
  | altRight _ ih =>
    cases he with
    | alt _ hb => exact .altRight (ih hb)
  | seq _ _ iha ihb =>
    cases he with
    | seq ha hb => exact .seq (iha ha) (ihb hb)
  | once _ ih =>
    cases he with
    | plus hc => exact .once (ih hc)
  | more _ _ ih ih' =>
    cases he with
    | plus hc => exact .more (ih hc) (ih' (.plus hc))
  | call hb _ ih =>
    cases he with
    | call hk =>
      obtain ⟨b, b', hb₁, hb', hbody⟩ := hm.body hk
      obtain rfl := Option.some.inj (hb.symm.trans hb₁)
      exact .call hb' (ih hbody)

theorem sentence_iff : g.Sentence w ↔ g'.Sentence w :=
  ⟨fun h => hm.derives h hm.root, fun h => hm.symm.derives h hm.root.symm⟩

theorem arrive (h : g.Arrive e w p) (he : e.Parallel ρ e') :
    ∃ p', (p, p') ∈ e.marks.zip e'.marks ∧ g'.Arrive e' w p' := by
  induction h generalizing e' with
  | @here e h =>
    have h' : e'.isTerminal = true ∨ e'.isCall = true := by rwa [← he.isTerminal, ← he.isCall]
    refine ⟨e'.ref.index, ?_, .here h'⟩
    rw [Expr.marks_of_single h, Expr.marks_of_single h']
    exact List.mem_singleton.2 rfl
  | altLeft ht _ ih =>
    have ht' := he.isTerminal ▸ ht
    cases he with
    | alt ha =>
      obtain ⟨p', hp, harr⟩ := ih ha
      refine ⟨p', ?_, .altLeft ht' harr⟩
      rw [Expr.marks_alt ht, Expr.marks_alt ht', List.zip_append ha.length_marks]
      exact List.mem_append_left _ hp
  | altRight ht _ ih =>
    have ht' := he.isTerminal ▸ ht
    cases he with
    | alt ha hb =>
      obtain ⟨p', hp, harr⟩ := ih hb
      refine ⟨p', ?_, .altRight ht' harr⟩
      -- the operands on the left have equally many positions, so those on the right stay opposite
      rw [Expr.marks_alt ht, Expr.marks_alt ht', List.zip_append ha.length_marks]
      exact List.mem_append_right _ hp
  | seqLeft _ ih =>
    cases he with
    | seq ha =>
      obtain ⟨p', hp, harr⟩ := ih ha
      refine ⟨p', ?_, .seqLeft harr⟩
      rw [Expr.marks_seq, Expr.marks_seq, List.zip_append ha.length_marks]
      exact List.mem_append_left _ hp
  | seqRight hd _ ih =>
    cases he with
    | seq ha hb =>
      obtain ⟨p', hp, harr⟩ := ih hb
      refine ⟨p', ?_, .seqRight (hm.derives hd ha) harr⟩
      rw [Expr.marks_seq, Expr.marks_seq, List.zip_append ha.length_marks]
      exact List.mem_append_right _ hp
  | first _ ih =>
    cases he with
    | plus hc =>
      obtain ⟨p', hp, harr⟩ := ih hc
      exact ⟨p', hp, .first harr⟩
  | more hd _ ih =>
    cases he with
    | plus hc =>
      obtain ⟨p', hp, harr⟩ := ih hc
      exact ⟨p', hp, .more (hm.derives hd (.plus hc)) harr⟩

theorem nodes (hg : g.WellFormed) (hg' : g'.WellFormed) (h : Opposite ρ g g' p p') :
    ∃ y y', g.nodes[p]? = some y ∧ g'.nodes[p']? = some y' ∧ y.Parallel ρ y' := by
  rcases h with ⟨k, k', e, e', hk, he, he', hp⟩ | ⟨rfl, rfl⟩
  · obtain ⟨e₁, e₁', he₁, he₁', hee⟩ := hm.tops hk
    obtain rfl := Option.some.inj (he.symm.trans he₁)
    obtain rfl := Option.some.inj (he'.symm.trans he₁')
    rw [Expr.marks, Expr.marks, List.zip_map] at hp
    obtain ⟨⟨y, y'⟩, hy, heq⟩ := List.mem_map.1 hp
    obtain ⟨rfl, rfl⟩ := Prod.mk.inj heq
    obtain ⟨hmem, hmem'⟩ := List.of_mem_zip hy
    exact ⟨y, y', hg.stores_position (hg.stores_top he) hmem,
      hg'.stores_position (hg'.stores_top he') hmem', (List.forall₂_iff_zip.1 hee.positions).2 hy⟩
  · obtain ⟨r, hr⟩ := hg.endMark
    obtain ⟨r', hr'⟩ := hg'.endMark
    exact ⟨_, _, hr, hr', .endMark⟩

theorem acceptsAt (hg : g.WellFormed) (hg' : g'.WellFormed) (h : Opposite ρ g g' p p')
    (ha : g.AcceptsAt p t) : g'.AcceptsAt p' t := by
  obtain ⟨y, y', hy, hy', hyy⟩ := hm.nodes hg hg' h
  obtain ⟨y₁, hy₁, hterm, ha⟩ := ha
  obtain rfl := Option.some.inj (hy.symm.trans hy₁)
  exact ⟨y', hy', hyy.isTerminal ▸ hterm, hyy.accepts ha⟩

theorem isCallAt (hg : g.WellFormed) (hg' : g'.WellFormed) (h : Opposite ρ g g' p p') :
    g.isCallAt p = g'.isCallAt p' := by
  obtain ⟨y, y', hy, hy', hyy⟩ := hm.nodes hg hg' h
  rw [Grammar.isCallAt, Grammar.isCallAt, hy, hy']
  exact hyy.isCall

theorem calleeAt (hg : g.WellFormed) (hg' : g'.WellFormed) (h : Opposite ρ g g' p p') {a : Nat}
    (ha : g.calleeAt? p = some a) : ∃ a', g'.calleeAt? p' = some a' ∧ ρ a a' := by
  obtain ⟨y, y', hy, hy', hyy⟩ := hm.nodes hg hg' h
  rw [calleeAt?, hy] at ha
  obtain ⟨q, hq, rfl⟩ := Option.map_eq_some_iff.1 ha
  obtain ⟨q', hq', hqq⟩ := hyy.callee hq
  refine ⟨q'.index, ?_, hqq⟩
  rw [calleeAt?, hy', Option.bind_some, hq', Option.map_some]

theorem leftUnique_opposite (hg' : g'.Valid) : Relator.LeftUnique (Opposite ρ g g') := by
  intro p q p' hp hq
  have hno : ∀ {k' : Option Nat} {e e' : Expr} {i : Nat}, g'.top? k' = some e' →
      (i, p') ∈ e.marks.zip e'.marks → g'.Owns k' p' :=
    fun he' hi => ⟨_, he', (List.of_mem_zip hi).2⟩
  rcases hp with ⟨k, k', e, e', hk, he, he', hp⟩ | ⟨rfl, rfl⟩
  · rcases hq with ⟨l, l', f, f', hl, hf, hf', hq⟩ | ⟨rfl, rfl⟩
    · obtain rfl := hg'.owner_unique (hno he' hp) (hno hf' hq)
      obtain rfl := leftUnique_optionRel hm.paired.1 hk hl
      obtain rfl := Option.some.inj (he.symm.trans hf)
      obtain rfl := Option.some.inj (he'.symm.trans hf')
      exact eq_of_mem_zip (hg'.marks_nodup he') hp hq
    · exact absurd (hno he' hp) hg'.not_owns_endIndex
  · rcases hq with ⟨l, l', f, f', hl, hf, hf', hq⟩ | ⟨rfl, -⟩
    · exact absurd (hno hf' hq) hg'.not_owns_endIndex
    · rfl

theorem entered (hg : g.WellFormed) (hg' : g'.WellFormed) (h : g.Entered x) :
    ∃ x', g'.Entered x' ∧ x.Parallel ρ x' := by
  induction h with
  | root => exact ⟨⟨none, []⟩, .root, .none, rfl⟩
  | @call x e w p a _ he ha hp ih =>
    obtain ⟨x', hx', hxx⟩ := ih
    obtain ⟨e₁, e', he₁, he', hee⟩ := hm.tops hxx.top
    obtain rfl := Option.some.inj (he.symm.trans he₁)
    obtain ⟨p', hzip, harr⟩ := hm.arrive ha hee
    obtain ⟨a', ha', haa⟩ := hm.calleeAt hg hg' (.inl ⟨_, _, _, _, hxx.top, he, he', hzip⟩) hp
    exact ⟨⟨some a', x'.start ++ w⟩, .call hx' he' harr ha', .some haa, by rw [hxx.start]⟩

theorem stands (hg : g.WellFormed) (hg' : g'.WellFormed) (h : g.Stands u x p) :
    ∃ x' p', g'.Stands u x' p' ∧ Opposite ρ g g' p p' := by
  rcases h with ⟨⟨hx, e, w, he, rfl, ha⟩, hc⟩ | ⟨rfl, rfl, hne, hs⟩
  · obtain ⟨x', hx', hxx⟩ := hm.entered hg hg' hx
    obtain ⟨e₁, e', he₁, he', hee⟩ := hm.tops hxx.top
    obtain rfl := Option.some.inj (he.symm.trans he₁)
    obtain ⟨p', hzip, harr⟩ := hm.arrive ha hee
    have hopp : Opposite ρ g g' p p' := .inl ⟨_, _, _, _, hxx.top, he, he', hzip⟩
    refine ⟨x', p', .inl ⟨⟨hx', e', w, he', by rw [hxx.start], harr⟩, ?_⟩, hopp⟩
    rw [← hm.isCallAt hg hg' hopp, hc]
  · exact ⟨⟨none, []⟩, g'.endIndex, .inr ⟨rfl, rfl, hne, hm.sentence_iff.1 hs⟩, .inr ⟨rfl, rfl⟩⟩

section Steps

variable {f f' : Frontier} {s s' : ContextStore} {r r' : Recognizer} {ts : List Token}

theorem length_activations_le (hg : g.WellFormed) (hg' : g'.WellFormed) :
    (g.activations u).length ≤ (g'.activations u).length := by
  refine length_le_of_paired (R := Activation.Parallel ρ) ?_ hg.nodup_activations fun x hx => ?_
  · intro x y x' hx hy
    exact congrArg₂ Activation.mk (leftUnique_optionRel hm.paired.1 hx.top hy.top)
      (hx.start.trans hy.start.symm)
  · obtain ⟨hent, hpre⟩ := hg.mem_activations_iff.1 hx
    obtain ⟨x', hent', hxx⟩ := hm.entered hg hg' hent
    exact ⟨x', hg'.mem_activations_iff.2 ⟨hent', hxx.start ▸ hpre⟩, hxx⟩

variable (hg : g.Valid) (hg' : g'.Valid)
include hg hg'

theorem size_le (h : g.Tracks u f s) (h' : g'.Tracks u f' s') : f.size ≤ f'.size := by
  rw [← Std.ExtTreeMap.length_keys, ← Std.ExtTreeMap.length_keys]
  refine length_le_of_paired (hm.leftUnique_opposite hg') Std.ExtTreeMap.nodup_keys fun p hp => ?_
  obtain ⟨x, hx⟩ := (h.mem_iff hg).1 (Std.ExtTreeMap.mem_keys.1 hp)
  obtain ⟨x', p', hx', hopp⟩ := hm.stands hg.toWellFormed hg'.toWellFormed hx
  exact ⟨p', Std.ExtTreeMap.mem_keys.2 ((h'.mem_iff hg').2 ⟨x', hx'⟩), hopp⟩

theorem size_store_eq (h : g.Tracks u f s) (h' : g'.Tracks u f' s') : s.size = s'.size := by
  rw [h.store.size, h'.store.size]
  exact le_antisymm (hm.length_activations_le hg.toWellFormed hg'.toWellFormed)
    (hm.symm.length_activations_le hg'.toWellFormed hg.toWellFormed)

theorem length_matching_le {t t' : Tables} (ht : t.Fits g) (ht' : t'.Fits g')
    (h : g.Tracks u f s) (h' : g'.Tracks u f' s') {tok : Token}
    {matched matched' : List (Nat × ContextSet)}
    (hmatch : Frontier.matching t tok f.toList = .ok matched)
    (hmatch' : Frontier.matching t' tok f'.toList = .ok matched') :
    matched.length ≤ matched'.length := by
  obtain ⟨m, hm₁, hmem, -⟩ := hg.matched_ok ht h tok
  obtain rfl := Except.ok.inj (hmatch.symm.trans hm₁)
  obtain ⟨m', hm₁', hmem', -⟩ := hg'.matched_ok ht' h' tok
  obtain rfl := Except.ok.inj (hmatch'.symm.trans hm₁')
  have hlen : ∀ m : List (Nat × ContextSet), m.length = (m.map Prod.fst).length := fun m =>
    (List.length_map _).symm
  rw [hlen matched, hlen matched']
  refine length_le_of_paired (hm.leftUnique_opposite hg') ?_ fun p hp => ?_
  · have hsub := (Frontier.matching_sublist hmatch).map Prod.fst
    rw [Std.ExtTreeMap.map_fst_toList_eq_keys] at hsub
    exact Std.ExtTreeMap.nodup_keys.sublist hsub
  · obtain ⟨e, he, rfl⟩ := List.mem_map.1 hp
    obtain ⟨hef, hacc⟩ := (hmem e).1 he
    have hp : e.1 ∈ f := by
      rw [← Std.ExtTreeMap.mem_keys, ← Std.ExtTreeMap.map_fst_toList_eq_keys]
      exact List.mem_map_of_mem hef
    obtain ⟨x, hx⟩ := (h.mem_iff hg).1 hp
    obtain ⟨x', p', hx', hopp⟩ := hm.stands hg.toWellFormed hg'.toWellFormed hx
    have hp' := (h'.mem_iff hg').2 ⟨x', hx'⟩
    rw [← Std.ExtTreeMap.mem_keys, ← Std.ExtTreeMap.map_fst_toList_eq_keys] at hp'
    obtain ⟨e', he', rfl⟩ := List.mem_map.1 hp'
    have hacc' := hm.acceptsAt hg.toWellFormed hg'.toWellFormed hopp hacc
    exact ⟨e'.1, List.mem_map_of_mem ((hmem' e').2 ⟨he', hacc'⟩), hopp⟩

theorem advance_ok {t t' : Tables} (ht : t.Fits g) (ht' : t'.Fits g') (h : g.Tracks u f s)
    (h' : g'.Tracks u f' s') (tok : Token) :
    ∃ a a', Frontier.advance t s f.toList tok = .ok a ∧
      Frontier.advance t' s' f'.toList tok = .ok a' ∧ a.SameSize a' := by
  obtain ⟨matched, a, hmatch, ha, hcount, htr⟩ := hg.advance_ok ht h tok
  obtain ⟨matched', a', hmatch', ha', hcount', htr'⟩ := hg'.advance_ok ht' h' tok
  refine ⟨a, a', ha, ha', ?_, ?_, ?_⟩
  · rw [hcount, hcount']
    exact le_antisymm (hm.length_matching_le hg hg' ht ht' h h' hmatch hmatch')
      (hm.symm.length_matching_le hg' hg ht' ht h' h hmatch' hmatch)
  · exact le_antisymm (hm.size_le hg hg' htr htr') (hm.symm.size_le hg' hg htr' htr)
  · exact hm.size_store_eq hg hg' htr htr'

theorem of_fresh (h : g.Fresh r) (h' : g'.Fresh r') : Abreast g g' [] r r' := by
  have htr := h.tracks h.rejectedAt
  have htr' := h'.tracks h'.rejectedAt
  refine ⟨h.toReading, h'.toReading, h.rejectedAt.trans h'.rejectedAt.symm, ?_⟩
  rw [h.stats, h'.stats, hm.size_store_eq hg hg' htr htr',
    le_antisymm (hm.size_le hg hg' htr htr') (hm.symm.size_le hg' hg htr' htr)]

theorem consume_ok (h : Abreast g g' u r r') (tok : Token) : ∃ b r₁ r₁' u₁,
    r.consume tok = .ok (b, r₁) ∧ r'.consume tok = .ok (b, r₁') ∧ Abreast g g' u₁ r₁ r₁' :=
  h.consume_ok hg hg' fun hrej => hm.advance_ok hg hg' h.left.fits h.right.fits
    (h.left.tracks hrej) (h.right.tracks (h.rejectedAt.symm.trans hrej)) tok

theorem feed_ok (h : Abreast g g' u r r') (ts : List Token) : ∃ r₁ r₁' u₁,
    r.feed ts = .ok r₁ ∧ r'.feed ts = .ok r₁' ∧ Abreast g g' u₁ r₁ r₁' := by
  induction ts generalizing u r r' with
  | nil => exact ⟨r, r', u, rfl, rfl, h⟩
  | cons tok ts ih =>
    obtain ⟨b, r₁, r₁', u₁, hc, hc', h₁⟩ := hm.consume_ok hg hg' h tok
    cases b with
    | true =>
      rw [Recognizer.feed_of_consumed hc, Recognizer.feed_of_consumed hc']
      exact ih h₁
    | false =>
      exact ⟨r₁, r₁', u₁, Recognizer.feed_of_refused hc ts, Recognizer.feed_of_refused hc' ts, h₁⟩

/-- They give the same verdict on an input, and put the same on record. -/
theorem parse_ok (h : Abreast g g' u r r') (ts : List Token) : ∃ v r₁ r₁',
    r.parse ts = .ok (v, r₁) ∧ r'.parse ts = .ok (v, r₁') ∧ r₁.stats = r₁'.stats := by
  obtain ⟨r₁, r₁', u₁, hf, hf', h₁⟩ := hm.feed_ok hg hg' h ts
  refine ⟨r₁.finish, r₁, r₁', (Recognizer.parse_of_feed hf).1, ?_, h₁.stats⟩
  rw [h₁.finish_eq hg hg' hm.sentence_iff]
  exact (Recognizer.parse_of_feed hf').1

end Steps

end Parallel

end Grammar

end TokenGrammar
