import TokenGrammar.Proofs.BuilderSteps

/-!
# The shapes of trees

A shape is a syntax tree whose nodes have no identity. The shape at a handle is read off the nodes of
a builder or a grammar by following the handles of the operands. Giving a node away, be it itself or
a copy, gives away its shape, and no shape that can be read at a handle ever changes.
-/

namespace TokenGrammar

/-- A syntax tree without handles and without numbers of call sites. -/
inductive Shape
  | token (test : TokenTest)
  | eps
  | alt (left right : Shape)
  | seq (left right : Shape)
  | conj (left right : Shape)
  | plus (body : Shape)
  /-- A call of the rule that was declared as number `rule`, counted from zero. -/
  | call (rule : Nat)
  | endMark
  deriving DecidableEq, Repr

/-- The tree with everything but its shape forgotten. -/
def Expr.shape : Expr → Shape
  | token _ test => .token test
  | eps _ => .eps
  | alt _ l r => .alt l.shape r.shape
  | seq _ l r => .seq l.shape r.shape
  | conj _ l r => .conj l.shape r.shape
  | plus _ c => .plus c.shape
  | call _ k _ => .call k.index
  | endMark _ => .endMark

namespace Shape

def select : List Shape → Shape
  | [] => eps
  | s :: ss => ss.foldl alt s

def join : List Shape → Shape
  | [] => eps
  | s :: ss => ss.foldl seq s

def maybe (s : Shape) : Shape := alt s eps

def star (s : Shape) : Shape := maybe (plus s)

def literal (text : String) : Shape := join ((Token.ofString text).map fun t => token (.equal t))

def tokenRange (lo hi : Token) : Shape := conj (token (.atLeast lo)) (token (.atMost hi))

def operands : Shape → List Shape
  | alt s t | seq s t | conj s t => [s, t]
  | plus s => [s]
  | token _ | eps | call _ | endMark => []

end Shape

theorem Expr.operands_shape (e : Expr) : e.shape.operands = e.operands.map shape := by
  cases e <;> rfl

/-- The shape that is found at a handle when one looks up handles. Of an operand only the handle is
used, and a called rule has to be of the same builder. -/
inductive Reads (look : NodeRef → Option Expr) : NodeRef → Shape → Prop
  | token {r q : NodeRef} {test : TokenTest} (h : look r = some (.token q test)) :
    Reads look r (.token test)
  | eps {r q : NodeRef} (h : look r = some (.eps q)) : Reads look r .eps
  | alt {r q : NodeRef} {x y : Expr} {s t : Shape} (h : look r = some (.alt q x y))
    (hx : Reads look x.ref s) (hy : Reads look y.ref t) : Reads look r (.alt s t)
  | seq {r q : NodeRef} {x y : Expr} {s t : Shape} (h : look r = some (.seq q x y))
    (hx : Reads look x.ref s) (hy : Reads look y.ref t) : Reads look r (.seq s t)
  | conj {r q : NodeRef} {x y : Expr} {s t : Shape} (h : look r = some (.conj q x y))
    (hx : Reads look x.ref s) (hy : Reads look y.ref t) : Reads look r (.conj s t)
  | plus {r q : NodeRef} {x : Expr} {s : Shape} (h : look r = some (.plus q x))
    (hx : Reads look x.ref s) : Reads look r (.plus s)
  | call {r q : NodeRef} {k site : Nat} (h : look r = some (.call q ⟨r.owner, k⟩ site)) :
    Reads look r (.call k)
  | endMark {r q : NodeRef} (h : look r = some (.endMark q)) : Reads look r .endMark

namespace Reads

variable {look look' : NodeRef → Option Expr} {r : NodeRef} {s t : Shape}

theorem mono (hl : ∀ r e, look r = some e → look' r = some e) (h : Reads look r s) :
    Reads look' r s := by
  induction h with
  | token h => exact .token (hl _ _ h)
  | eps h => exact .eps (hl _ _ h)
  | alt h _ _ ihx ihy => exact .alt (hl _ _ h) ihx ihy
  | seq h _ _ ihx ihy => exact .seq (hl _ _ h) ihx ihy
  | conj h _ _ ihx ihy => exact .conj (hl _ _ h) ihx ihy
  | plus h _ ih => exact .plus (hl _ _ h) ih
  | call h => exact .call (hl _ _ h)
  | endMark h => exact .endMark (hl _ _ h)

/-- There is only one shape at a handle, whatever the other fields of the nodes are. -/
theorem unique (h : Reads look r s) (h' : Reads look r t) : s = t := by
  -- what is looked up tells which case it is, for both
  induction h generalizing t with
  | token h => cases h' <;> grind
  | eps h => cases h' <;> grind
  | alt h hx hy ihx ihy => cases h' <;> grind
  | seq h hx hy ihx ihy => cases h' <;> grind
  | conj h hx hy ihx ihy => cases h' <;> grind
  | plus h hx ih => cases h' <;> grind
  | call h => cases h' <;> grind
  | endMark h => cases h' <;> grind

end Reads

/-- The node at a handle of the grammar. -/
def Grammar.node? (g : Grammar) (r : NodeRef) : Option Expr :=
  if r.owner = g.id then g.nodes[r.index]? else none

namespace Builder

variable {α β : Type} {b b' : Builder} {e : Expr} {r : NodeRef} {s t : Shape}

def node? (b : Builder) (r : NodeRef) : Option Expr := (b.slot? r).map (·.expr)

theorem node?_eq_some_iff : b.node? r = some e ↔ r.owner = b.id ∧ b.exprs[r.index]? = some e := by
  rw [node?, slot?, getElem?_exprs]
  split <;> simp [*]

/-- Nodes and rules are still there. -/
structure Extends (b b' : Builder) : Prop where
  id : b'.id = b.id
  exprs : b.exprs <+: b'.exprs
  rules : b.rules.size ≤ b'.rules.size

namespace Extends

theorem refl (b : Builder) : Extends b b := ⟨rfl, List.prefix_refl _, Nat.le_refl _⟩

theorem trans {b''} (h : Extends b b') (h' : Extends b' b'') : Extends b b'' :=
  ⟨h'.id.trans h.id, h.exprs.trans h'.exprs, Nat.le_trans h.rules h'.rules⟩

theorem node? (h : Extends b b') (he : b.node? r = some e) : b'.node? r = some e := by
  obtain ⟨ho, hi⟩ := node?_eq_some_iff.1 he
  refine node?_eq_some_iff.2 ⟨ho.trans h.id.symm, ?_⟩
  rw [← hi]
  exact (List.prefix_iff_getElem?.1 h.exprs _ (List.getElem?_eq_some_iff.1 hi).1).trans
    (List.getElem?_eq_getElem _).symm

theorem ownsRule {k : RuleRef} (h : Extends b b') (hk : b.ownsRule k = true) :
    b'.ownsRule k = true := by
  obtain ⟨d, hd⟩ := Option.isSome_iff_exists.1 hk
  obtain ⟨ho, hd⟩ := ruleDecl?_eq_some_iff.1 hd
  have hlt := Nat.lt_of_lt_of_le (Array.getElem?_eq_some_iff.1 hd).1 h.rules
  simp [Builder.ownsRule, ruleDecl?, ho.trans h.id.symm, hlt]

end Extends

theorem Step.extend (h : Step b b') : Extends b b' := by
  cases h with
  | node e => exact ⟨rfl, by rw [exprs_push]; exact List.prefix_append _ _, Nat.le_refl _⟩
  | call hk =>
    exact ⟨rfl, by rw [exprs_push]; exact List.prefix_append _ _,
      Nat.le_of_eq Array.size_modify.symm⟩
  | mark i => exact ⟨rfl, by simp [exprs_mark], Nat.le_refl _⟩
  | rule name => exact ⟨rfl, List.prefix_refl _, by simp⟩
  | body hk hb e => exact ⟨rfl, List.prefix_refl _, by simp⟩

theorem Steps.extend (h : Steps b b') : Extends b b' :=
  h.keep (fun hb h => hb.trans h.extend) (.refl b)

/-- Everything in the tree is where its handle says, and the rules called in it are there. -/
def Intact (b : Builder) (e : Expr) : Prop :=
  ∀ x ∈ e.parts, b.node? x.ref = some x ∧ ∀ k, x.callee? = some k → b.ownsRule k = true

theorem Intact.self (h : b.Intact e) : b.node? e.ref = some e := (h e e.self_mem_parts).1

theorem Intact.owns (h : b.Intact e) : b.owns e.ref = true := by
  obtain ⟨sl, hsl, -⟩ := Option.map_eq_some_iff.1 h.self
  rw [Builder.owns, hsl]
  rfl

theorem intact_iff : b.Intact e ↔
    (b.node? e.ref = some e ∧ ∀ k, e.callee? = some k → b.ownsRule k = true) ∧
      ∀ c ∈ e.operands, b.Intact c := by
  constructor
  · exact fun h => ⟨h e e.self_mem_parts, fun c hc x hx =>
      h x (Expr.mem_parts_iff.2 (.inr ⟨c, hc, hx⟩))⟩
  · intro ⟨h, hops⟩ x hx
    rcases Expr.mem_parts_iff.1 hx with rfl | ⟨c, hc, hx⟩
    · exact h
    · exact hops c hc x hx

theorem Intact.mono (h : b.Intact e) (hb : Extends b b') : b'.Intact e :=
  fun x hx => ⟨hb.node? (h x hx).1, fun k hk => hb.ownsRule ((h x hx).2 k hk)⟩

/-- What is read at the handle of a tree is the shape of the tree. -/
theorem Intact.reads (h : b.Intact e) : Reads b.node? e.ref e.shape := by
  induction e with
  | token q test => exact .token h.self
  | eps q => exact .eps h.self
  | endMark q => exact .endMark h.self
  | alt q x y ihx ihy =>
    have hops := (intact_iff.1 h).2
    exact .alt h.self (ihx (hops x (by simp [Expr.operands])))
      (ihy (hops y (by simp [Expr.operands])))
  | seq q x y ihx ihy =>
    have hops := (intact_iff.1 h).2
    exact .seq h.self (ihx (hops x (by simp [Expr.operands])))
      (ihy (hops y (by simp [Expr.operands])))
  | conj q x y ihx ihy =>
    have hops := (intact_iff.1 h).2
    exact .conj h.self (ihx (hops x (by simp [Expr.operands])))
      (ihy (hops y (by simp [Expr.operands])))
  | plus q x ih => exact .plus h.self (ih ((intact_iff.1 h).2 x (by simp [Expr.operands])))
  | call q k site =>
    obtain ⟨d, hd⟩ := Option.isSome_iff_exists.1 ((intact_iff.1 h).1.2 k rfl)
    have ho := (ruleDecl?_eq_some_iff.1 hd).1
    have hq := (node?_eq_some_iff.1 h.self).1
    have hk : k = ⟨q.owner, k.index⟩ := by rw [show q.owner = k.owner from hq.trans ho.symm]
    have hself : b.node? q = some (.call q ⟨q.owner, k.index⟩ site) := hk ▸ h.self
    exact .call hself

/-- The handle stands for a tree of the given shape. -/
def Stands (b : Builder) (r : NodeRef) (s : Shape) : Prop :=
  ∃ e, e.ref = r ∧ b.Intact e ∧ e.shape = s

theorem Intact.stands (h : b.Intact e) (hs : e.shape = s) : b.Stands e.ref s := ⟨e, rfl, h, hs⟩

theorem Stands.reads (h : b.Stands r s) : Reads b.node? r s := by
  obtain ⟨e, rfl, hi, rfl⟩ := h
  exact hi.reads

theorem Stands.mono (h : b.Stands r s) (hb : Extends b b') : b'.Stands r s := by
  obtain ⟨e, he, hi, hs⟩ := h
  exact ⟨e, he, hi.mono hb, hs⟩

theorem Stands.owns (h : b.Stands r s) : b.owns r = true := by
  obtain ⟨e, rfl, hi, -⟩ := h
  exact hi.owns

end Builder

end TokenGrammar
