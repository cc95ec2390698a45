import TokenGrammar.Proofs.AliasSamples

/-!
# Expressions by precedence

Expressions with four operators, once with all the operators alike and once in layers, so that an
operator of a lower layer binds closer. The layers only regroup: as strings the expressions are
the same, since what a layer may not take at its end can be taken by the layer above.
-/

namespace TokenGrammar.Samples

open Builder (Client)
open Computability

def additive : List Token := [Token.ofChar '+', Token.ofChar '-']

def multiplicative : List Token := [Token.ofChar '*', Token.ofChar '/']

def operators : List Token := additive ++ multiplicative

def one : Token := Token.ofChar '1'

def IsDigit (t : Token) : Prop := Token.ofChar '0' ≤ t ∧ t ≤ Token.ofChar '9'

instance (t : Token) : Decidable (IsDigit t) := inferInstanceAs (Decidable (_ ∧ _))

/-- The expressions over numbers, with no regard to how they are grouped. -/
inductive Formula : List Token → Prop
  | number {ds : List Token} (hne : ds ≠ []) (hds : ∀ d ∈ ds, IsDigit d) : Formula ds
  | enclosed {w : List Token} (h : Formula w) :
    Formula (Token.ofChar '(' :: (w ++ [Token.ofChar ')']))
  | binary {u v : List Token} {op : Token} (hu : Formula u) (hop : op ∈ operators)
    (hv : Formula v) : Formula (u ++ op :: v)

/-- The language of these expressions. -/
def formulas : Language Token := {w | Formula w}

/-- A one, and then any number of operators with a one after each of them. -/
def sumOfOnes (ops : List Token) : List Token := one :: ops.flatMap fun op => [op, one]

/-- The language of the expressions over ones without parentheses. -/
def onesOnly : Language Token := {w | ∃ ops, (∀ op ∈ ops, op ∈ operators) ∧ w = sumOfOnes ops}

def operation (left : Nat) (ops : List Token) (right : Nat) : Shape :=
  .join [.call left, .select (ops.map fun op => .token (.equal op)), .call right]

/-- A layer repeats itself at its left end and goes on with the layer below. -/
def layer (this : Nat) (ops : List Token) (below : Nat) : Shape :=
  .alt (operation this ops below) (.call below)

def atom : Shape := .alt (.call 3) parens

def number : Shape := .plus (.tokenRange (Token.ofChar '0') (Token.ofChar '9'))

section Solutions

variable {N : Nat → Language Token} {u v w : List Token} {k l r : Nat} {op : Token}
  {ops : List Token} {s : Shape}

theorem mem_operation (hne : ops ≠ []) : w ∈ (operation l ops r).words N ↔
    ∃ u ∈ N l, ∃ op ∈ ops, ∃ v ∈ N r, w = u ++ op :: v := by
  have hops : (ops.map fun op => Shape.token (.equal op)) ≠ [] := by simpa using hne
  constructor
  · intro h
    obtain ⟨_, hleft, v, hv, rfl⟩ := Shape.mem_seq.1 h
    obtain ⟨u, hu, _, hop, rfl⟩ := Shape.mem_seq.1 hleft
    obtain ⟨s, hs, hw⟩ := (Shape.mem_select hops).1 hop
    obtain ⟨op, hop, rfl⟩ := List.mem_map.1 hs
    rw [Shape.mem_equal.1 hw]
    exact ⟨u, hu, op, hop, v, hv, by simp⟩
  · rintro ⟨u, hu, op, hop, v, hv, rfl⟩
    have hmiddle : [op] ∈ (Shape.select (ops.map fun op => .token (.equal op))).words N :=
      (Shape.mem_select hops).2 ⟨_, List.mem_map_of_mem hop, Shape.mem_equal.2 rfl⟩
    have hleft := Shape.mem_seq.2 ⟨u, Shape.mem_call.2 hu, _, hmiddle, rfl⟩
    exact Shape.mem_seq.2 ⟨_, hleft, v, hv, by simp⟩

theorem mem_layer (hne : ops ≠ []) : w ∈ (layer l ops r).words N ↔
    (∃ u ∈ N l, ∃ op ∈ ops, ∃ v ∈ N r, w = u ++ op :: v) ∨ w ∈ N r := by
  rw [layer, Shape.mem_alt, mem_operation hne]
  rfl

theorem mem_atom : w ∈ atom.words N ↔
    w ∈ N 3 ∨ ∃ v ∈ N 0, w = Token.ofChar '(' :: (v ++ [Token.ofChar ')']) := by
  rw [atom, Shape.mem_alt, mem_parens]
  rfl

theorem mem_number : w ∈ number.words N ↔ w ≠ [] ∧ ∀ d ∈ w, IsDigit d :=
  Shape.mem_plus_of_tokens fun _ => Shape.mem_tokenRange

/-- The bodies of the layered rules: sum, product, atom, number. -/
def layers : List Shape := [layer 0 additive 1, layer 1 multiplicative 2, atom, number]

theorem satisfiable_layers : ∀ s ∈ layers, s.Satisfiable := by
  have hdigit : number.Satisfiable := Shape.satisfiable_tokenRange (by decide)
  simp only [layers, List.mem_cons, List.not_mem_nil, or_false]
  rintro s (rfl | rfl | rfl | rfl)
  · exact Shape.satisfiable_of_plain rfl
  · exact Shape.satisfiable_of_plain rfl
  · exact Shape.satisfiable_of_plain rfl
  · exact hdigit

theorem layers_le (hs : layers[k]? = some s) : s.words (fun _ => formulas) ≤ formulas := by
  have hlayer : ∀ l ops r, ops ≠ [] → ops ⊆ operators →
      (layer l ops r).words (fun _ => formulas) ≤ formulas := by
    rintro l ops r hne hops w hw
    rcases (mem_layer hne).1 hw with ⟨u, hu, op, hop, v, hv, rfl⟩ | hw
    · exact .binary hu (hops hop) hv
    · exact hw
  rcases k with - | - | - | - | k
  · obtain rfl := Option.some.inj hs
    exact hlayer 0 additive 1 (by decide) (List.subset_append_left _ _)
  · obtain rfl := Option.some.inj hs
    exact hlayer 1 multiplicative 2 (by decide) (List.subset_append_right _ _)
  · obtain rfl := Option.some.inj hs
    intro w hw
    rcases mem_atom.1 hw with hw | ⟨v, hv, rfl⟩
    · exact hw
    · exact .enclosed hv
  · obtain rfl := Option.some.inj hs
    intro w hw
    obtain ⟨hne, hds⟩ := mem_number.1 hw
    exact .number hne hds
  · cases hs

/-- The rules have languages that solve the layered equations. -/
structure Layered (N : Nat → Language Token) : Prop where
  sum : N 0 = (layer 0 additive 1).words N
  product : N 1 = (layer 1 multiplicative 2).words N
  atom : N 2 = atom.words N
  number : N 3 = number.words N

namespace Layered

variable (h : Layered N)
include h

theorem mem_sum : w ∈ N 0 ↔ (∃ u ∈ N 0, ∃ op ∈ additive, ∃ v ∈ N 1, w = u ++ op :: v) ∨ w ∈ N 1 := by
  rw [← mem_layer (by decide), ← h.sum]

theorem mem_product :
    w ∈ N 1 ↔ (∃ u ∈ N 1, ∃ op ∈ multiplicative, ∃ v ∈ N 2, w = u ++ op :: v) ∨ w ∈ N 2 := by
  rw [← mem_layer (by decide), ← h.product]

theorem atom_of_number (hne : w ≠ []) (hds : ∀ d ∈ w, IsDigit d) : w ∈ N 2 := by
  rw [h.atom, mem_atom, h.number, mem_number]
  exact .inl ⟨hne, hds⟩

theorem atom_of_sum (hw : w ∈ N 0) : Token.ofChar '(' :: (w ++ [Token.ofChar ')']) ∈ N 2 := by
  rw [h.atom, mem_atom]
  exact .inr ⟨w, hw, rfl⟩

theorem product_of_atom (hw : w ∈ N 2) : w ∈ N 1 := h.mem_product.2 (.inr hw)

theorem sum_of_atom (hw : w ∈ N 2) : w ∈ N 0 := h.mem_sum.2 (.inr (h.product_of_atom hw))

/-- A sum goes on with any operator and an atom. An operator that binds closely is taken by the last
product of the sum. -/
theorem append_atom (hu : u ∈ N 0) (hop : op ∈ operators) (hv : v ∈ N 2) : u ++ op :: v ∈ N 0 := by
  rcases List.mem_append.1 hop with hop | hop
  · exact h.mem_sum.2 (.inl ⟨u, hu, op, hop, v, h.product_of_atom hv, rfl⟩)
  · have hproduct : ∀ p ∈ N 1, p ++ op :: v ∈ N 1 := fun p hp =>
      h.mem_product.2 (.inl ⟨p, hp, op, hop, v, hv, rfl⟩)
    rcases h.mem_sum.1 hu with ⟨x, hx, op', hop', p, hp, rfl⟩ | hp
    · exact h.mem_sum.2 (.inl ⟨x, hx, op', hop', _, hproduct p hp, by simp⟩)
    · exact h.mem_sum.2 (.inr (hproduct u hp))

/-- Each expression is a sum and can follow a sum after any operator, by induction on how it is
built: the operands of an operation are appended one after the other. -/
theorem sum_and_append (hw : Formula w) :
    w ∈ N 0 ∧ ∀ u ∈ N 0, ∀ op ∈ operators, u ++ op :: w ∈ N 0 := by
  induction hw with
  | number hne hds =>
    have hatom := h.atom_of_number hne hds
    exact ⟨h.sum_of_atom hatom, fun u hu op hop => h.append_atom hu hop hatom⟩
  | enclosed _ ih =>
    have hatom := h.atom_of_sum ih.1
    exact ⟨h.sum_of_atom hatom, fun u hu op hop => h.append_atom hu hop hatom⟩
  | @binary x y op' _ hop' _ ihx ihy =>
    refine ⟨ihy.2 x ihx.1 op' hop', fun u hu op hop => ?_⟩
    have happend := ihy.2 _ (ihx.2 u hu op hop) op' hop'
    simpa using happend

theorem one_mem (hk : k < layers.length) : [one] ∈ N k := by
  have hdigit : ∀ d ∈ [one], IsDigit d := by decide
  have hatom := h.atom_of_number (List.cons_ne_nil one []) hdigit
  rcases k with - | - | - | - | k
  · exact h.sum_of_atom hatom
  · exact h.product_of_atom hatom
  · exact hatom
  · rw [h.number, mem_number]
    exact ⟨List.cons_ne_nil one [], hdigit⟩
  · simp only [layers, List.length_cons, List.length_nil] at hk
    omega

theorem formulas_le : formulas ≤ N 0 := fun _ hw => (h.sum_and_append hw).1

end Layered

/-- Whatever has a one and is closed under operations has the expressions over ones. -/
theorem onesOnly_le {L : Language Token} (hone : [one] ∈ L)
    (hop : ∀ u ∈ L, ∀ op ∈ operators, ∀ v ∈ L, u ++ op :: v ∈ L) : onesOnly ≤ L := by
  rintro _ ⟨ops, hops, rfl⟩
  induction ops with
  | nil => exact hone
  | cons op ops ih =>
    simp only [List.mem_cons, forall_eq_or_imp] at hops
    exact hop [one] hone op hops.1 _ (ih hops.2)

theorem onesOnly_append (hu : u ∈ onesOnly) (hop : op ∈ operators) (hv : v ∈ onesOnly) :
    u ++ op :: v ∈ onesOnly := by
  obtain ⟨ops, hops, rfl⟩ := hu
  obtain ⟨ops', hops', rfl⟩ := hv
  refine ⟨ops ++ op :: ops', ?_, ?_⟩
  · simp only [List.mem_append, List.mem_cons]
    rintro o (ho | rfl | ho)
    · exact hops o ho
    · exact hop
    · exact hops' o ho
  · simp [sumOfOnes]

theorem formula_one : Formula [one] :=
  .number (List.cons_ne_nil one []) (by decide)

theorem onesOnly_le_formulas : onesOnly ≤ formulas :=
  onesOnly_le formula_one fun _ hu _ hop _ hv => .binary hu hop hv

def flatBody : Shape := .alt (operation 0 operators 0) (.token (.equal one))

theorem mem_flatBody : w ∈ flatBody.words N ↔
    (∃ u ∈ N 0, ∃ op ∈ operators, ∃ v ∈ N 0, w = u ++ op :: v) ∨ w = [one] := by
  rw [flatBody, Shape.mem_alt, mem_operation (by decide), Shape.mem_equal]

theorem flatBody_le : flatBody.words (fun _ => onesOnly) ≤ onesOnly := by
  intro w hw
  rcases mem_flatBody.1 hw with ⟨u, hu, op, hop, v, hv, rfl⟩ | rfl
  · exact onesOnly_append hu hop hv
  · exact ⟨[], by simp, rfl⟩

theorem le_of_flatBody (h : N 0 = flatBody.words N) : onesOnly ≤ N 0 := by
  have hmem : ∀ w, w ∈ N 0 ↔ _ := fun w => (iff_of_eq (congrArg (w ∈ ·) h)).trans mem_flatBody
  refine onesOnly_le ((hmem _).2 (.inr rfl)) fun u hu op hop v hv => ?_
  exact (hmem _).2 (.inl ⟨u, hu, op, hop, v, hv, rfl⟩)

end Solutions

/-- Separators with the same item before each and at the end are separators with that item after each
and at the beginning. -/
private theorem flatMap_before_eq {α β : Type} (f : β → α) (a : α) (xs : List β) :
    xs.flatMap (fun x => [a, f x]) ++ [a] = a :: xs.flatMap fun x => [f x, a] := by
  induction xs with
  | nil => rfl
  | cons x xs ih => simp [ih]

private theorem text_mem {f : Nat → Char} (hf : ∀ i, Token.ofChar (f i) ∈ operators) (xs : List Nat) :
    Token.ofString (String.ofList (xs.flatMap (fun i => ['1', f i]) ++ ['1'])) ∈ onesOnly := by
  refine ⟨xs.map fun i => Token.ofChar (f i), ?_, ?_⟩
  · simpa using fun i _ => hf i
  · rw [flatMap_before_eq]
    simp [Token.ofString, sumOfOnes, one, List.map_flatMap, List.flatMap_map]

theorem exprInput_mem (n : Nat) : Token.ofString (exprInput n) ∈ onesOnly :=
  text_mem (fun i => by split <;> decide) (List.range n)

private theorem client_binary (left : RuleRef) (ops : String) (right : RuleRef) : Client (do
    let l ← Builder.call left
    let op ← (do Builder.select (← ops.toList.mapM fun c => Builder.equal (Token.ofChar c)))
    let r ← Builder.call right
    Builder.join [l, op, r]) :=
  .bind (.call left) fun l => .bind (.bind (.mapM (fun _ => .token _) _) .select) fun op =>
    .bind (.call right) fun r => .join [l, op, r]

theorem renders_layeredExpr : Renders layeredExpr (verdictFor formulas) := by
  have hclient : Client layeredExpr :=
    .bind (.rule "sum") fun sum => .bind (.rule "product") fun product =>
      .bind (.rule "atom") fun atom => .bind (.rule "number") fun number =>
        .bind (.tokenRange _ _) fun digit => .bind (.plus digit) fun digits =>
        .bind (.setBody number digits) fun _ => .bind (.call number) fun num =>
        .bind (.bind (.token _) fun opening => .bind (.call sum) fun inner =>
          .bind (.token _) fun closing => .join [opening, inner, closing]) fun parens =>
        .bind (.alt num parens) fun body => .bind (.setBody atom body) fun _ =>
        .bind (client_binary product "*/" atom) fun both => .bind (.call atom) fun single =>
        .bind (.alt both single) fun body => .bind (.setBody product body) fun _ =>
        .bind (client_binary sum "+-" product) fun both => .bind (.call product) fun single =>
        .bind (.alt both single) fun body => .bind (.setBody sum body) fun _ => .call sum
  obtain ⟨g, hg, h⟩ : ∃ g, Samples.grammar layeredExpr = .ok g ∧ g.Shaped layers (.call 0) :=
    hclient.shaped (by decide +kernel)
  have hlayered : Layered g.words :=
    ⟨h.words_eq rfl, h.words_eq rfl, h.words_eq rfl, h.words_eq rfl⟩
  have hwords : g.words 0 = formulas :=
    (h.words_le (L := fun _ => formulas) fun _ _ hs => layers_le hs).antisymm hlayered.formulas_le
  rw [← hwords]
  exact ⟨g, hg, h.renders_words satisfiable_layers fun k hk => ⟨[one], hlayered.one_mem hk⟩⟩

theorem renders_ambiguousExpr : Renders ambiguousExpr (verdictFor onesOnly) := by
  have hclient : Client ambiguousExpr :=
    .bind (.define "expr" fun expr => .bind (client_binary expr "+-*/" expr) fun both =>
      .bind (.token _) fun single => .alt both single) fun expr => .call expr
  obtain ⟨g, hg, h⟩ : ∃ g, Samples.grammar ambiguousExpr = .ok g ∧ g.Shaped [flatBody] (.call 0) :=
    hclient.shaped (by decide +kernel)
  refine ⟨g, hg, h.renders (by decide) (L := fun _ => onesOnly) ?_ ?_
    (fun _ _ => ⟨[one], [], by simp, rfl⟩) Nat.one_pos⟩
  · intro k s hs
    cases k with
    | zero =>
      obtain rfl := Option.some.inj hs
      exact flatBody_le
    | succ k => cases hs
  · intro k hk
    obtain rfl := Nat.lt_one_iff.1 hk
    exact le_of_flatBody (h.words_eq rfl)

/-- Layers make no difference to what is an expression, and the expressions over ones are among them. -/
theorem layers_invisible :
    Renders layeredExpr (verdictFor formulas) ∧ Renders ambiguousExpr (verdictFor onesOnly) ∧
      (∀ ts, verdictFor formulas ts = .accept ↔ Formula ts) ∧
      (∀ ts, verdictFor onesOnly ts = .accept ↔
        ∃ ops : List Token, (∀ op ∈ ops, op ∈ operators) ∧
          ts = one :: ops.flatMap fun op => [op, one]) ∧
      (∀ ts, verdictFor onesOnly ts = .accept → verdictFor formulas ts = .accept) ∧
      ∀ n, verdictFor onesOnly (Token.ofString (exprInput n)) = .accept ∧
        verdictFor formulas (Token.ofString (exprInput n)) = .accept := by
  simp only [verdictFor_eq_accept_iff]
  exact ⟨renders_layeredExpr, renders_ambiguousExpr, fun _ => Iff.rfl, fun _ => Iff.rfl,
    fun _ h => onesOnly_le_formulas h,
    fun n => ⟨exprInput_mem n, onesOnly_le_formulas (exprInput_mem n)⟩⟩

end TokenGrammar.Samples
