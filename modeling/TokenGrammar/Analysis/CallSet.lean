import TokenGrammar.Analysis.Positions

/-!
# Call sets

What happens when control reaches a call site: the called rule is entered, and with it every rule
that its body may call before it consumes a token. Each entry of a call set says which rule is
entered and where control resumes when that rule is complete.
-/

namespace TokenGrammar

/-- When `invoke` is complete, control resumes after `cont`. Without a `context` the continuation
belongs to whoever made the call; otherwise it is pending inside that rule, which was entered at the
same offset. -/
structure CallEntry where
  context : Option Nat
  cont : Nat
  invoke : Nat
  deriving DecidableEq, Repr

namespace CallEntry

/-- No context comes before every rule. -/
def rank (e : CallEntry) : Nat := match e.context with | none => 0 | some r => r + 1

theorem context_eq_of_rank {a b : CallEntry} (h : a.rank = b.rank) : a.context = b.context := by
  unfold rank at h
  cases ha : a.context <;> cases hb : b.context <;> simp_all

end CallEntry

instance : LinearKey CallEntry where
  lt a b := a.rank < b.rank ∨
    a.rank = b.rank ∧ (a.cont < b.cont ∨ a.cont = b.cont ∧ a.invoke < b.invoke)
  decLt _ _ := inferInstanceAs (Decidable (_ ∨ _ ∧ (_ ∨ _ ∧ _)))
  irrefl _ := by simp
  trans {a b c} := by
    intro (h : _ ∨ _) (h' : _ ∨ _)
    show a.rank < c.rank ∨
      a.rank = c.rank ∧ (a.cont < c.cont ∨ a.cont = c.cont ∧ a.invoke < c.invoke)
    omega
  trichotomy a b := by
    show (a.rank < b.rank ∨
        a.rank = b.rank ∧ (a.cont < b.cont ∨ a.cont = b.cont ∧ a.invoke < b.invoke)) ∨ a = b ∨
      (b.rank < a.rank ∨
        b.rank = a.rank ∧ (b.cont < a.cont ∨ b.cont = a.cont ∧ b.invoke < a.invoke))
    by_cases h : a.rank = b.rank ∧ a.cont = b.cont ∧ a.invoke = b.invoke
    · right; left
      have hc := CallEntry.context_eq_of_rank h.1
      cases a; cases b
      simp_all
    · omega

abbrev CallSet := AscSet CallEntry

namespace CallSet

/-- The entry of the called rule itself. -/
def direct (call rule : Nat) : CallEntry := ⟨none, call, rule⟩

/-- The entries that belong to whoever made the call. -/
def own (s : CallSet) : CallSet := s.filter fun e => e.context.isNone

private theorem rank_eq_of_mem_own {s : CallSet} {a b : CallEntry} (ha : a ∈ s.own.toList)
    (hb : b ∈ s.own.toList) : a.rank = b.rank := by
  have h : ∀ e ∈ s.own.toList, e.rank = 0 := fun e he => by
    have hn := (AscSet.mem_filter.1 (AscSet.mem_def.2 he)).2
    unfold CallEntry.rank
    cases hc : e.context <;> simp_all
  rw [h a ha, h b hb]

/-- An inner call seen from outside the body of `rule`: what belonged to the caller is now pending
inside `rule`. -/
def within (rule : Nat) (inner : CallSet) : CallSet :=
  AscSet.union
    (inner.own.mapAscending (fun e => { e with context := some rule }) fun a ha b hb hab => by
      have hr : a.rank = b.rank := rank_eq_of_mem_own ha hb
      have h : a.rank < b.rank ∨
        a.rank = b.rank ∧ (a.cont < b.cont ∨ a.cont = b.cont ∧ a.invoke < b.invoke) := hab
      show rule + 1 < rule + 1 ∨
        rule + 1 = rule + 1 ∧ (a.cont < b.cont ∨ a.cont = b.cont ∧ a.invoke < b.invoke)
      omega)
    (inner.filter fun e => e.context.isSome)

/-- When an inner call can be all of the body, the rules it enters for its caller can resume the
outer call directly. -/
def aliased (call : Nat) (inner : CallSet) : CallSet :=
  .ofList (inner.own.toList.map fun e => direct call e.invoke)

/-- The call set of a call, given those of the inner calls that may come first in the body. -/
def extend (call rule : Nat) (lasts : PosSet) (inner : List (Nat × CallSet)) : CallSet :=
  inner.foldl
    (fun res (c, s) =>
      let res := res.union (within rule s)
      if lasts.contains c then res.union (aliased call s) else res)
    (.single (direct call rule))

end CallSet

namespace Grammar

def isCallAt (g : Grammar) (i : Nat) : Bool := (g.nodes[i]?.map (·.isCall)).getD false

def callSystem (g : Grammar) : System PositionMemo CallSet where
  equation key := do
    let (rule, body) ← g.calledBody key
    let ls ← g.lasts body
    let fs ← g.firsts body
    g.requireNodes fs.toList
    let inner := (fs.filter g.isCallAt).toList
    return ⟨inner, fun calls => CallSet.extend key rule.index ls (inner.map fun c => (c, calls c))⟩
  depth := g.nodes.size + 1
  rounds := g.nodes.size * ((g.rules.size + 1) * g.nodes.size * g.rules.size) + 2

end Grammar

end TokenGrammar
