import TokenGrammar.Proofs.Productivity
import TokenGrammar.Proofs.Shapes
import Mathlib.Computability.Language
import Mathlib.Order.CompletePartialOrder

/-!
# The language equations of a grammar

The bodies of the rules, read as equations between languages, have a least solution, and this is
what the rules derive. Only the shapes of the bodies count, so the language of a grammar can be
calculated from a list of shapes.
-/

namespace TokenGrammar

open Computability

namespace Shape

variable {L : Nat → Language Token}

/-- What the shape stands for when `L` says what the rules stand for. -/
def words (L : Nat → Language Token) : Shape → Language Token
  | token test => {w | ∃ t, test.accepts t = true ∧ w = [t]}
  | eps => 1
  | alt s t => s.words L + t.words L
  | seq s t => s.words L * t.words L
  | conj s t => s.words L ⊓ t.words L
  | plus s => s.words L * (s.words L)∗
  | call k => L k
  | endMark => 0

theorem mem_token {test : TokenTest} {w : List Token} :
    w ∈ (token test).words L ↔ ∃ t, test.accepts t = true ∧ w = [t] := Iff.rfl

theorem mem_alt {s t : Shape} {w : List Token} :
    w ∈ (alt s t).words L ↔ w ∈ s.words L ∨ w ∈ t.words L := Iff.rfl

theorem mem_conj {s t : Shape} {w : List Token} :
    w ∈ (conj s t).words L ↔ w ∈ s.words L ∧ w ∈ t.words L := Iff.rfl

theorem mem_seq {s t : Shape} {w : List Token} :
    w ∈ (seq s t).words L ↔ ∃ u ∈ s.words L, ∃ v ∈ t.words L, u ++ v = w := Language.mem_mul

theorem mem_call {k : Nat} {w : List Token} : w ∈ (call k).words L ↔ w ∈ L k := Iff.rfl

theorem mem_equal {t : Token} {w : List Token} :
    w ∈ (token (.equal t)).words L ↔ w = [t] := by
  simp [mem_token, TokenTest.accepts]

theorem mem_equal_seq {t : Token} {s : Shape} {w : List Token} :
    w ∈ (seq (token (.equal t)) s).words L ↔ ∃ v ∈ s.words L, w = t :: v := by
  simp [mem_seq, mem_equal, eq_comm]

theorem mem_tokenRange {lo hi : Token} {w : List Token} :
    w ∈ (tokenRange lo hi).words L ↔ ∃ t, (lo ≤ t ∧ t ≤ hi) ∧ w = [t] := by
  rw [tokenRange, mem_conj, mem_token, mem_token]
  constructor
  · rintro ⟨⟨t, hlo, rfl⟩, t', hhi, he⟩
    obtain rfl := List.singleton_inj.1 he
    exact ⟨t, ⟨of_decide_eq_true hlo, of_decide_eq_true hhi⟩, rfl⟩
  · rintro ⟨t, ⟨hlo, hhi⟩, rfl⟩
    exact ⟨⟨t, decide_eq_true hlo, rfl⟩, t, decide_eq_true hhi, rfl⟩

theorem mem_plus_of_tokens {s : Shape} {p : Token → Prop}
    (h : ∀ w, w ∈ s.words L ↔ ∃ t, p t ∧ w = [t]) {w : List Token} :
    w ∈ (plus s).words L ↔ w ≠ [] ∧ ∀ t ∈ w, p t := by
  have hstar : ∀ ts : List Token, ts ∈ (s.words L)∗ ↔ ∀ t ∈ ts, p t := by
    intro ts
    rw [Language.mem_kstar]
    constructor
    · rintro ⟨ws, rfl, hws⟩ t ht
      obtain ⟨w, hw, ht⟩ := List.mem_flatten.1 ht
      obtain ⟨t', ht', rfl⟩ := (h w).1 (hws w hw)
      rwa [List.mem_singleton.1 ht]
    · intro hts
      refine ⟨ts.map fun t => [t], ?_, fun w hw => ?_⟩
      · rw [← List.flatMap_def, List.flatMap_singleton']
      · obtain ⟨t, ht, rfl⟩ := List.mem_map.1 hw
        exact (h [t]).2 ⟨t, hts t ht, rfl⟩
  have hplus : w ∈ (plus s).words L ↔ ∃ u ∈ s.words L, ∃ v ∈ (s.words L)∗, u ++ v = w :=
    Language.mem_mul
  rw [hplus]
  constructor
  · rintro ⟨u, hu, v, hv, rfl⟩
    obtain ⟨t, ht, rfl⟩ := (h u).1 hu
    have hv := (hstar v).1 hv
    simp_all
  · rintro ⟨hne, hw⟩
    cases w with
    | nil => exact absurd rfl hne
    | cons t ts =>
      simp only [List.mem_cons, forall_eq_or_imp] at hw
      exact ⟨[t], (h [t]).2 ⟨t, hw.1, rfl⟩, ts, (hstar ts).2 hw.2, rfl⟩

theorem mem_select {ss : List Shape} (hne : ss ≠ []) {w : List Token} :
    w ∈ (select ss).words L ↔ ∃ s ∈ ss, w ∈ s.words L := by
  have hfold : ∀ (ss : List Shape) s, w ∈ (ss.foldl alt s).words L ↔
      w ∈ s.words L ∨ ∃ s' ∈ ss, w ∈ s'.words L := by
    intro ss
    induction ss with
    | nil => simp
    | cons s' ss ih => simp [ih, mem_alt, or_assoc]
  cases ss with
  | nil => exact absurd rfl hne
  | cons s ss => simp [select, hfold]

theorem star_words {s : Shape} : (star s).words L = (s.words L)∗ := by
  have h : (star s).words L = s.words L * (s.words L)∗ + 1 := rfl
  rw [h, add_comm, one_add_mul_kstar]

/-- Tokens are only tested for equality, and there are no conjunctions. -/
def plain : Shape → Bool
  | token (.equal _) | eps | call _ => true
  | alt s t | seq s t => s.plain && t.plain
  | plus s => s.plain
  | token _ | conj _ _ | endMark => false

/-- Each conjunction is met by a string. -/
def Satisfiable : Shape → Prop
  | alt s t | seq s t => s.Satisfiable ∧ t.Satisfiable
  | conj s t => s.Satisfiable ∧ t.Satisfiable ∧
    ∀ L : Nat → Language Token, ∃ w, w ∈ (conj s t).words L
  | plus s => s.Satisfiable
  | token _ | eps | call _ | endMark => True

theorem satisfiable_of_plain {s : Shape} (h : s.plain = true) : s.Satisfiable := by
  induction s with
  | alt s t ihs iht | seq s t ihs iht =>
    obtain ⟨hs, ht⟩ := Bool.and_eq_true_iff.1 h
    exact ⟨ihs hs, iht ht⟩
  | plus s ih => exact ih h
  | conj => cases h
  | token | eps | call | endMark => trivial

theorem satisfiable_tokenRange {lo hi : Token} (h : lo ≤ hi) : (tokenRange lo hi).Satisfiable := by
  refine ⟨trivial, trivial, fun L => ⟨[lo], ?_⟩⟩
  simp [mem_conj, mem_token, TokenTest.accepts, h]

end Shape

namespace Expr

variable {e x : Expr}

theorem mem_words_terminal (ht : e.isTerminal = true) (L : Nat → Language Token)
    {w : List Token} : w ∈ e.shape.words L ↔ ∃ t, e.accepts t = .ok true ∧ w = [t] := by
  induction e with
  | token r test => simp [shape, Shape.mem_token, accepts, pure, Except.pure]
  | alt r a b iha ihb =>
    obtain ⟨ha, hb⟩ := Bool.and_eq_true_iff.1 ht
    rw [shape, Shape.mem_alt, iha ha, ihb hb, ← exists_or]
    refine exists_congr fun t => ?_
    obtain ⟨x, hx⟩ := accepts_of_terminal ha t
    cases x <;> simp [accepts, hx, bind, Except.bind, pure, Except.pure]
  | conj r a b iha ihb =>
    obtain ⟨ha, hb⟩ := Bool.and_eq_true_iff.1 ht
    rw [shape, Shape.mem_conj, iha ha, ihb hb]
    constructor
    · rintro ⟨⟨t, hta, rfl⟩, t', htb, he⟩
      obtain rfl := List.singleton_inj.1 he
      exact ⟨t, by simp [accepts, hta, htb, bind, Except.bind], rfl⟩
    · rintro ⟨t, hta, rfl⟩
      obtain ⟨x, hx⟩ := accepts_of_terminal ha t
      cases x with
      | true => exact ⟨⟨t, hx, rfl⟩, t, by simpa [accepts, hx, bind, Except.bind] using hta, rfl⟩
      | false => simp [accepts, hx, bind, Except.bind, pure, Except.pure] at hta
  | eps | seq | plus | call | endMark => cases ht

theorem satisfiable_operand (h : e.shape.Satisfiable) {c : Expr} (hc : c ∈ e.operands) :
    c.shape.Satisfiable := by
  cases e with
  | alt r a b | seq r a b =>
    rcases List.mem_pair.1 hc with rfl | rfl
    · exact h.1
    · exact h.2
  | conj r a b =>
    rcases List.mem_pair.1 hc with rfl | rfl
    · exact h.1
    · exact h.2.1
  | plus r a =>
    obtain rfl := List.mem_singleton.1 hc
    exact h
  | token | eps | call | endMark => cases hc

theorem satisfiable_part (h : e.shape.Satisfiable) (hx : x ∈ e.parts) : x.shape.Satisfiable := by
  induction e using operand_induction with
  | step e ih =>
    rcases mem_parts_iff.1 hx with rfl | ⟨c, hc, hx⟩
    · exact h
    · exact ih c hc (satisfiable_operand h hc) hx

theorem exists_accepts_of_satisfiable (h : e.shape.Satisfiable) (ht : e.isTerminal = true) :
    ∃ t, e.accepts t = .ok true := by
  have hword : ∃ w, w ∈ e.shape.words fun _ => 0 := by
    induction e with
    | token r test =>
      cases test with
      | equal v | atMost v | atLeast v =>
        exact ⟨[v], by simp [shape, Shape.mem_token, TokenTest.accepts]⟩
      | any => exact ⟨[0], by simp [shape, Shape.mem_token, TokenTest.accepts]⟩
    | alt r a b iha =>
      obtain ⟨w, hw⟩ := iha h.1 (Bool.and_eq_true_iff.1 ht).1
      exact ⟨w, .inl hw⟩
    | conj r a b => exact h.2.2 _
    | eps | seq | plus | call | endMark => cases ht
  obtain ⟨w, hw⟩ := hword
  obtain ⟨t, hacc, -⟩ := (mem_words_terminal ht _).1 hw
  exact ⟨t, hacc⟩

end Expr

namespace Grammar

variable {g : Grammar} {e : Expr} {w : List Token}

/-- The language of each rule. -/
def words (g : Grammar) (k : Nat) : Language Token :=
  {w | ∃ b, g.top? (some k) = some b ∧ g.Derives b w}

/-- What the rules derive is in any languages that are closed under the bodies of the rules. -/
theorem Derives.mem_words {L : Nat → Language Token}
    (hL : ∀ k b, g.top? (some k) = some b → b.shape.words L ≤ L k) (h : g.Derives e w) :
    w ∈ e.shape.words L := by
  induction h with
  | @terminal e t ht ha => exact (Expr.mem_words_terminal ht L).2 ⟨t, ha, rfl⟩
  | eps r => exact Language.nil_mem_one
  | altLeft _ ih => exact .inl ih
  | altRight _ ih => exact .inr ih
  | seq _ _ ih ih' => exact Language.append_mem_mul ih ih'
  | @once r c w _ ih =>
    rw [← List.append_nil w]
    exact Language.append_mem_mul ih (Language.nil_mem_kstar _)
  | @more r c u v _ _ ih ih' =>
    have hle : c.shape.words L * (c.shape.words L)∗ ≤ (c.shape.words L)∗ := mul_kstar_le_kstar
    exact Language.append_mem_mul ih (hle ih')
  | @call r k s b w hb _ ih => exact hL k.index b hb ih

private theorem derives_flatten {r : NodeRef} {c : Expr} {ws : List (List Token)}
    (hw : g.Derives c w) (h : ∀ v ∈ ws, g.Derives c v) :
    g.Derives (.plus r c) (w ++ ws.flatten) := by
  induction ws generalizing w with
  | nil =>
    rw [List.flatten_nil, List.append_nil]
    exact .once hw
  | cons v ws ih =>
    rw [List.flatten_cons]
    exact .more hw (ih (h v List.mem_cons_self) fun u hu => h u (List.mem_cons_of_mem v hu))

private theorem derives_of_mem_words (hg : g.Valid) (he : g.Stores e)
    (h : w ∈ e.shape.words g.words) : g.Derives e w := by
  have hterminal : ∀ {x : Expr} {v}, x.isTerminal = true → v ∈ x.shape.words g.words →
      g.Derives x v := by
    intro x v ht hv
    obtain ⟨t, ha, rfl⟩ := (Expr.mem_words_terminal ht _).1 hv
    exact .terminal ht ha
  induction e generalizing w with
  | token r test => exact hterminal rfl h
  | eps r =>
    obtain rfl : w = [] := h
    exact .eps r
  | alt r a b iha ihb =>
    obtain ⟨ha, hb⟩ := hg.stores_alt he
    rcases h with h | h
    · exact .altLeft (iha ha h)
    · exact .altRight (ihb hb h)
  | seq r a b iha ihb =>
    obtain ⟨ha, hb⟩ := hg.stores_seq he
    obtain ⟨u, hu, v, hv, rfl⟩ := Shape.mem_seq.1 h
    exact .seq (iha ha hu) (ihb hb hv)
  | conj r a b => exact hterminal (hg.terminal_of_conj he) h
  | plus r c ih =>
    have hc := hg.stores_plus he
    obtain ⟨u, hu, v, hv, rfl⟩ := Language.mem_mul.1 h
    obtain ⟨ws, rfl, hws⟩ := Language.mem_kstar.1 hv
    exact derives_flatten (ih hc hu) fun v hv => ih hc (hws v hv)
  | call r k s =>
    obtain ⟨b, hb, hd⟩ := h
    exact .call hb hd
  | endMark r => exact h.elim

theorem Valid.derives_iff (hg : g.Valid) (he : g.Stores e) :
    g.Derives e w ↔ w ∈ e.shape.words g.words :=
  ⟨fun h => h.mem_words fun _ b hb _ hv => ⟨b, hb, derives_of_mem_words hg (hg.stores_top hb) hv⟩,
    derives_of_mem_words hg he⟩

/-- The shapes of the bodies of the rules and of the root. -/
structure Shaped (g : Grammar) (bodies : List Shape) (root : Shape) : Prop where
  valid : g.Valid
  bodies : ∀ k, (g.top? (some k)).map Expr.shape = bodies[k]?
  root : g.root.shape = root

namespace Shaped

variable {bodies : List Shape} {root s : Shape} {k : Nat} (h : g.Shaped bodies root)
include h

theorem exists_body (hs : bodies[k]? = some s) :
    ∃ b, g.top? (some k) = some b ∧ b.shape = s := by
  rw [← h.bodies] at hs
  exact Option.map_eq_some_iff.1 hs

theorem shape_of_top {b : Expr} (hb : g.top? (some k) = some b) : bodies[k]? = some b.shape := by
  rw [← h.bodies, hb]
  rfl

theorem sentence_iff : g.Sentence w ↔ w ∈ root.words g.words := by
  rw [← h.root]
  exact h.valid.derives_iff (h.valid.stores_top (k := none) rfl)

theorem words_eq (hs : bodies[k]? = some s) : g.words k = s.words g.words := by
  obtain ⟨b, hb, rfl⟩ := h.exists_body hs
  ext w
  rw [← h.valid.derives_iff (h.valid.stores_top hb)]
  constructor
  · rintro ⟨b', hb', hd⟩
    rw [hb] at hb'
    cases hb'
    exact hd
  · exact fun hd => ⟨b, hb, hd⟩

/-- No languages that are closed under the bodies leave out a word of a rule. -/
theorem words_le {L : Nat → Language Token} (hL : ∀ k s, bodies[k]? = some s → s.words L ≤ L k) :
    g.words k ≤ L k := by
  have hclosed : ∀ k b, g.top? (some k) = some b → b.shape.words L ≤ L k :=
    fun k b hb => hL k _ (h.shape_of_top hb)
  rintro w ⟨b, hb, hd⟩
  exact hclosed k b hb (hd.mem_words hclosed)

/-- With satisfiable shapes and a word for each rule a grammar is productive. -/
theorem productive (hp : ∀ s ∈ bodies, s.Satisfiable) (hroot : root.Satisfiable)
    (hw : ∀ k < bodies.length, ∃ w, w ∈ g.words k) : g.Productive where
  derives k e _ he := by
    obtain ⟨w, b, hb, hd⟩ := hw k (List.getElem?_eq_some_iff.1 (h.shape_of_top he)).1
    obtain rfl : e = b := Option.some.inj (he.symm.trans hb)
    exact ⟨w, hd⟩
  accepts k e x _ he hx ht := by
    have hsat : e.shape.Satisfiable := by
      cases k with
      | none =>
        obtain rfl : g.root = e := Option.some.inj he
        rwa [h.root]
      | some k => exact hp _ (List.mem_of_getElem? (h.shape_of_top he))
    have hx : x.shape.Satisfiable :=
      Expr.satisfiable_part hsat (Expr.mem_parts_of_mem_positions hx)
    exact Expr.exists_accepts_of_satisfiable hx ht

end Shaped

end Grammar

end TokenGrammar
