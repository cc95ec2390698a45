import TokenGrammar.Expr

/-!
# Parts and positions of expressions

The parts of an expression are the expression itself and everything below it. A terminal is a token
test, or an alternative or conjunction of terminals. The positions are some of the parts: the
terminals, with what they are made of left out, and the call sites.
-/

namespace TokenGrammar.Expr

def isTerminal : Expr → Bool
  | token _ _ => true
  | alt _ l r | conj _ l r => l.isTerminal && r.isTerminal
  | eps _ | seq _ _ _ | plus _ _ | call _ _ _ | endMark _ => false

def positions : Expr → List Expr
  | token r t => [token r t]
  | call r k s => [call r k s]
  | alt r a b => if (alt r a b).isTerminal then [alt r a b] else a.positions ++ b.positions
  | conj r a b => if (conj r a b).isTerminal then [conj r a b] else a.positions ++ b.positions
  | seq _ a b => a.positions ++ b.positions
  | plus _ a => a.positions
  | eps _ | endMark _ => []

/-- The call sites from left to right. -/
def calls : Expr → List Nat
  | call r _ _ => [r.index]
  | alt _ a b | seq _ a b | conj _ a b => a.calls ++ b.calls
  | plus _ a => a.calls
  | token _ _ | eps _ | endMark _ => []

def parts : Expr → List Expr
  | token r t => [token r t]
  | eps r => [eps r]
  | alt r a b => alt r a b :: (a.parts ++ b.parts)
  | seq r a b => seq r a b :: (a.parts ++ b.parts)
  | conj r a b => conj r a b :: (a.parts ++ b.parts)
  | plus r a => plus r a :: a.parts
  | call r k s => [call r k s]
  | endMark r => [endMark r]

def operands : Expr → List Expr
  | alt _ a b | seq _ a b | conj _ a b => [a, b]
  | plus _ a => [a]
  | token _ _ | eps _ | call _ _ _ | endMark _ => []

def indices (e : Expr) : List Nat := e.parts.map (·.ref.index)

def marks (e : Expr) : List Nat := e.positions.map (·.ref.index)

theorem self_mem_parts (e : Expr) : e ∈ e.parts := by cases e <;> simp [parts]

theorem mem_parts_iff {x e : Expr} :
    x ∈ e.parts ↔ x = e ∨ ∃ c ∈ e.operands, x ∈ c.parts := by
  cases e <;> simp [parts, operands]

theorem parts_eq (e : Expr) : e.parts = e :: e.operands.flatMap parts := by
  cases e <;> simp [parts, operands]

theorem indices_eq (e : Expr) : e.indices = e.ref.index :: e.operands.flatMap indices := by
  rw [indices, parts_eq, List.map_cons, List.map_flatMap]
  rfl

theorem mem_indices_of_operand {c e : Expr} {i : Nat} (hc : c ∈ e.operands) (h : i ∈ c.indices) :
    i ∈ e.indices := by
  rw [indices_eq]
  exact List.mem_cons_of_mem _ (List.mem_flatMap.2 ⟨c, hc, h⟩)

/-- Induction on the tree that does not look at what the operator is. -/
theorem operand_induction {motive : Expr → Prop}
    (step : ∀ e : Expr, (∀ c ∈ e.operands, motive c) → motive e) (e : Expr) : motive e := by
  induction e with
  | token | eps | call | endMark => exact step _ (by simp [operands])
  | alt r a b iha ihb | seq r a b iha ihb | conj r a b iha ihb =>
    exact step _ (by simp [operands, iha, ihb])
  | plus r a ih => exact step _ (by simp [operands, ih])

theorem eq_or_operand_of_mem_parts {x e : Expr} (h : x ∈ e.parts) :
    x = e ∨ ∃ y ∈ e.parts, x ∈ y.operands := by
  induction e using operand_induction with
  | step e ih =>
    rcases mem_parts_iff.1 h with rfl | ⟨c, hc, hx⟩
    · exact .inl rfl
    · rcases ih c hc hx with rfl | ⟨y, hy, hxy⟩
      · exact .inr ⟨e, self_mem_parts e, hc⟩
      · exact .inr ⟨y, mem_parts_iff.2 (.inr ⟨c, hc, hy⟩), hxy⟩

theorem mem_parts_trans {x y e : Expr} (h : x ∈ y.parts) (h' : y ∈ e.parts) : x ∈ e.parts := by
  induction e using operand_induction with
  | step e ih =>
    rcases mem_parts_iff.1 h' with rfl | ⟨c, hc, h'⟩
    · exact h
    · exact mem_parts_iff.2 (.inr ⟨c, hc, ih c hc h'⟩)

theorem positions_of_terminal {e : Expr} (h : e.isTerminal = true) : e.positions = [e] := by
  cases e with
  | token => rfl
  | alt r a b | conj r a b => rw [positions, if_pos h]
  | eps | seq | plus | call | endMark => cases h

theorem positions_alt {r : NodeRef} {a b : Expr} (h : (alt r a b).isTerminal = false) :
    (alt r a b).positions = a.positions ++ b.positions := by
  rw [positions, if_neg (by simp [h])]

theorem positions_conj {r : NodeRef} {a b : Expr} (h : (conj r a b).isTerminal = false) :
    (conj r a b).positions = a.positions ++ b.positions := by
  rw [positions, if_neg (by simp [h])]

@[simp] theorem positions_seq (r : NodeRef) (a b : Expr) :
    (seq r a b).positions = a.positions ++ b.positions := rfl

theorem positions_eq (e : Expr) :
    e.positions =
      if e.isTerminal || e.isCall then [e] else e.operands.flatMap positions := by
  cases ht : e.isTerminal with
  | true => simp [positions_of_terminal ht]
  | false =>
    cases e with
    | token => cases ht
    | alt r a b => simp [positions_alt ht, operands, isCall, callee?]
    | conj r a b => simp [positions_conj ht, operands, isCall, callee?]
    | seq r a b => simp [operands, isCall, callee?]
    | plus r a =>
      have hplus : (plus r a).positions = a.positions := rfl
      simp [hplus, operands, isCall, callee?]
    | eps | call | endMark => rfl

theorem marks_of_terminal {e : Expr} (h : e.isTerminal = true) : e.marks = [e.ref.index] := by
  rw [marks, positions_of_terminal h]
  rfl

theorem marks_of_single {e : Expr} (h : e.isTerminal = true ∨ e.isCall = true) :
    e.marks = [e.ref.index] := by
  rcases h with h | h
  · exact marks_of_terminal h
  · cases e with
    | call => rfl
    | token | eps | alt | seq | conj | plus | endMark => cases h

theorem marks_alt {r : NodeRef} {a b : Expr} (h : (alt r a b).isTerminal = false) :
    (alt r a b).marks = a.marks ++ b.marks := by
  rw [marks, positions_alt h, List.map_append]
  rfl

@[simp] theorem marks_seq (r : NodeRef) (a b : Expr) : (seq r a b).marks = a.marks ++ b.marks := by
  rw [marks, positions_seq, List.map_append]
  rfl

@[simp] theorem marks_plus (r : NodeRef) (a : Expr) : (plus r a).marks = a.marks := rfl

theorem positions_sublist_parts (e : Expr) : e.positions.Sublist e.parts := by
  induction e with
  | token | call => exact .refl _
  | eps | endMark => exact .cons _ .slnil
  | alt r a b iha ihb =>
    by_cases h : (alt r a b).isTerminal = true
    · rw [positions_of_terminal h]
      exact .cons_cons _ (List.nil_sublist _)
    · rw [positions_alt (by simpa using h)]
      exact .cons _ (iha.append ihb)
  | conj r a b iha ihb =>
    by_cases h : (conj r a b).isTerminal = true
    · rw [positions_of_terminal h]
      exact .cons_cons _ (List.nil_sublist _)
    · rw [positions_conj (by simpa using h)]
      exact .cons _ (iha.append ihb)
  | seq r a b iha ihb =>
    rw [positions_seq]
    exact .cons _ (iha.append ihb)
  | plus r a ih => exact .cons _ ih

theorem mem_parts_of_mem_positions {x e : Expr} (h : x ∈ e.positions) : x ∈ e.parts :=
  (positions_sublist_parts e).subset h

theorem marks_sublist_indices (e : Expr) : e.marks.Sublist e.indices :=
  (positions_sublist_parts e).map _

theorem terminal_or_call_of_mem_positions {x e : Expr} (h : x ∈ e.positions) :
    x.isTerminal = true ∨ x.isCall = true := by
  induction e with
  | token r t =>
    have := List.mem_singleton.1 h
    subst this
    exact .inl rfl
  | call r k s =>
    have := List.mem_singleton.1 h
    subst this
    exact .inr rfl
  | eps | endMark => cases h
  | alt r a b iha ihb =>
    by_cases ht : (alt r a b).isTerminal = true
    · rw [positions_of_terminal ht, List.mem_singleton] at h
      exact .inl (h ▸ ht)
    · rw [positions_alt (by simpa using ht), List.mem_append] at h
      exact h.elim iha ihb
  | conj r a b iha ihb =>
    by_cases ht : (conj r a b).isTerminal = true
    · rw [positions_of_terminal ht, List.mem_singleton] at h
      exact .inl (h ▸ ht)
    · rw [positions_conj (by simpa using ht), List.mem_append] at h
      exact h.elim iha ihb
  | seq r a b iha ihb =>
    rw [positions_seq, List.mem_append] at h
    exact h.elim iha ihb
  | plus r a ih => exact ih h

@[simp] theorem calls_alt (r : NodeRef) (a b : Expr) : (alt r a b).calls = a.calls ++ b.calls := rfl

@[simp] theorem calls_seq (r : NodeRef) (a b : Expr) : (seq r a b).calls = a.calls ++ b.calls := rfl

@[simp] theorem calls_conj (r : NodeRef) (a b : Expr) : (conj r a b).calls = a.calls ++ b.calls := rfl

@[simp] theorem calls_plus (r : NodeRef) (a : Expr) : (plus r a).calls = a.calls := rfl

@[simp] theorem calls_call (r : NodeRef) (k : RuleRef) (s : Nat) :
    (call r k s).calls = [r.index] := rfl

theorem mem_calls_iff {k : Nat} {e : Expr} :
    k ∈ e.calls ↔ ∃ x ∈ e.parts, x.isCall = true ∧ x.ref.index = k := by
  induction e with
  | token | eps | endMark => simp [calls, parts, isCall, callee?]
  | call r c s =>
    simp only [calls, parts, List.mem_singleton, exists_eq_left]
    exact ⟨fun h => ⟨rfl, h.symm⟩, fun h => h.2.symm⟩
  | alt r a b iha ihb | conj r a b iha ihb | seq r a b iha ihb =>
    simp only [calls_alt, calls_seq, calls_conj, List.mem_append, iha, ihb]
    simp only [parts, List.mem_cons, List.mem_append, or_and_right, exists_or, exists_eq_left]
    simp [isCall, callee?]
  | plus r a ih =>
    rw [calls_plus, ih]
    simp [parts, isCall, callee?]

theorem isCall_eq_false_of_terminal {e : Expr} (h : e.isTerminal = true) : e.isCall = false := by
  cases e <;> first | rfl | cases h

theorem terminal_of_mem_parts {x e : Expr} (h : e.isTerminal = true) (hx : x ∈ e.parts) :
    x.isTerminal = true := by
  induction e with
  | token =>
    have := List.mem_singleton.1 hx
    exact this ▸ h
  | alt r a b iha ihb | conj r a b iha ihb =>
    have hab := Bool.and_eq_true_iff.1 h
    simp only [parts, List.mem_cons, List.mem_append] at hx
    rcases hx with rfl | hx | hx
    · exact h
    · exact iha hab.1 hx
    · exact ihb hab.2 hx
  | eps | seq | plus | call | endMark => cases h

theorem calls_of_terminal {e : Expr} (h : e.isTerminal = true) : e.calls = [] := by
  refine List.eq_nil_iff_forall_not_mem.2 fun k hk => ?_
  obtain ⟨x, hx, hc, -⟩ := mem_calls_iff.1 hk
  simp [isCall_eq_false_of_terminal (terminal_of_mem_parts h hx)] at hc

theorem accepts_of_terminal {e : Expr} (h : e.isTerminal = true) (t : Token) :
    ∃ b, e.accepts t = .ok b := by
  induction e with
  | token r test => exact ⟨_, rfl⟩
  | alt r a b iha ihb =>
    have hab := Bool.and_eq_true_iff.1 h
    obtain ⟨x, hx⟩ := iha hab.1
    obtain ⟨y, hy⟩ := ihb hab.2
    refine ⟨if x then true else y, ?_⟩
    rw [accepts, hx, hy]
    cases x <;> rfl
  | conj r a b iha ihb =>
    have hab := Bool.and_eq_true_iff.1 h
    obtain ⟨x, hx⟩ := iha hab.1
    obtain ⟨y, hy⟩ := ihb hab.2
    refine ⟨if x then y else false, ?_⟩
    rw [accepts, hx, hy]
    cases x <;> rfl
  | eps | seq | plus | call | endMark => cases h

end TokenGrammar.Expr
