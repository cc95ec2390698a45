import TokenGrammar.Proofs.Making

/-!
# Builders make syntax trees

A list of commands is read in two ways: as calls of a builder, which has to see to it that no node
gets two parents, and as the construction of syntax trees, where nothing of that kind matters. Both
ways the same trees come out. The operands of a command are numbers of what earlier commands have
returned, so any of them can be used any number of times and anywhere.
-/

namespace TokenGrammar

/-- A way to get at a node by what has been returned before. -/
inductive Recipe
  | token (test : TokenTest)
  | eps
  | alt (left right : Nat)
  | seq (left right : Nat)
  | conj (left right : Nat)
  | plus (body : Nat)
  | maybe (body : Nat)
  | star (body : Nat)
  | select (options : List Nat)
  | join (values : List Nat)
  | literal (text : String)
  | tokenRange (lo hi : Token)
  | consume (node : Nat)
  | copy (node : Nat)
  /-- An operand of a node, which the builder tells when it is asked for the node. -/
  | operand (node k : Nat)
  | call (rule : Nat)
  deriving DecidableEq, Repr

/-- What can be told a builder. To define a rule in one go is to declare it, to make its body and to
set the body. -/
inductive Command
  | make (recipe : Recipe)
  | rule (name : String)
  | setBody (rule body : Nat)
  deriving DecidableEq, Repr

/-- Trees that have been made, and rules with the bodies they have got. -/
structure Meaning where
  nodes : List Shape
  rules : List (String × Option Shape)
  deriving DecidableEq, Repr

/-- The tree that is made, unless something is asked for that is not there. -/
def Recipe.shape? (m : Meaning) : Recipe → Option Shape
  | token test => some (.token test)
  | eps => some .eps
  | alt l r => do return .alt (← m.nodes[l]?) (← m.nodes[r]?)
  | seq l r => do return .seq (← m.nodes[l]?) (← m.nodes[r]?)
  | conj l r => do return .conj (← m.nodes[l]?) (← m.nodes[r]?)
  | plus e => m.nodes[e]?.map .plus
  | maybe e => m.nodes[e]?.map .maybe
  | star e => m.nodes[e]?.map .star
  | select es => do return .select (← es.mapM (m.nodes[·]?))
  | join es => do return .join (← es.mapM (m.nodes[·]?))
  | literal s => some (.literal s)
  | tokenRange lo hi => some (.tokenRange lo hi)
  | consume e | copy e => m.nodes[e]?
  | operand e k => do (← m.nodes[e]?).operands[k]?
  | call k => if k < m.rules.length then some (.call k) else none

/-- A rule gets a body once; when it has one, it keeps it. -/
def Command.apply? (m : Meaning) : Command → Option Meaning
  | make recipe => do return { m with nodes := m.nodes ++ [← recipe.shape? m] }
  | rule name => some { m with rules := m.rules ++ [(name, none)] }
  | setBody k e => do
    let body ← m.nodes[e]?
    match ← m.rules[k]? with
    | (name, none) => some { m with rules := m.rules.set k (name, some body) }
    | (_, some _) => some m

/-- What the commands make when they are understood as making trees. -/
def meaning? (commands : List Command) : Option Meaning :=
  commands.foldlM Command.apply? ⟨[], []⟩

/-- The handles that have been returned. -/
structure Handles where
  nodes : List NodeRef
  rules : List RuleRef

def Recipe.run (hs : Handles) : Recipe → BuildM NodeRef
  | token test => Builder.token test
  | eps => Builder.eps
  | alt l r => do Builder.alt (← inRange hs.nodes[l]?) (← inRange hs.nodes[r]?)
  | seq l r => do Builder.seq (← inRange hs.nodes[l]?) (← inRange hs.nodes[r]?)
  | conj l r => do Builder.conj (← inRange hs.nodes[l]?) (← inRange hs.nodes[r]?)
  | plus e => do Builder.plus (← inRange hs.nodes[e]?)
  | maybe e => do Builder.maybe (← inRange hs.nodes[e]?)
  | star e => do Builder.star (← inRange hs.nodes[e]?)
  | select es => do Builder.select (← es.mapM fun e => inRange hs.nodes[e]?)
  | join es => do Builder.join (← es.mapM fun e => inRange hs.nodes[e]?)
  | literal s => Builder.literal s
  | tokenRange lo hi => Builder.tokenRange lo hi
  | consume e => do Builder.consume (← inRange hs.nodes[e]?)
  | copy e => do Builder.copy (← inRange hs.nodes[e]?)
  | operand e k => do
    let node ← Builder.node (← inRange hs.nodes[e]?)
    inRange (node.operands[k]?.map (·.ref))
  | call k => do Builder.call (← inRange hs.rules[k]?)

def Command.run (hs : Handles) : Command → BuildM Handles
  | make recipe => do return { hs with nodes := hs.nodes ++ [← recipe.run hs] }
  | rule name => do return { hs with rules := hs.rules ++ [← Builder.rule name] }
  | setBody k e => do
    let _ ← Builder.attempt (Builder.setBody (← inRange hs.rules[k]?) (← inRange hs.nodes[e]?))
    return hs

def runCommands (commands : List Command) : BuildM Handles :=
  commands.foldlM Command.run ⟨[], []⟩

namespace Builder

variable {α : Type} {b b' : Builder} {hs : Handles} {m m' : Meaning}

/-- A rule of a builder and what is known of it: the name, and the body if it has one. -/
inductive Given (b : Builder) : String × Option Expr → String × Option Shape → Prop
  | free (name : String) : Given b (name, none) (name, none)
  | body {name : String} {e : Expr} {s : Shape} (h : OfShape s e b) :
    Given b (name, some e) (name, some s)

theorem Given.mono {d : String × Option Expr} {d' : String × Option Shape} (h : Given b d d')
    (hb : Extends b b') : Given b' d d' := by
  cases h with
  | free name => exact .free name
  | body h => exact .body ⟨h.1.mono hb, h.2⟩

theorem Given.eq_free {d : String × Option Expr} {name : String} (h : Given b d (name, none)) :
    d = (name, none) := by
  cases h
  rfl

theorem Given.eq_body {d : String × Option Expr} {name : String} {s : Shape}
    (h : Given b d (name, some s)) : ∃ e, d = (name, some e) ∧ OfShape s e b := by
  cases h with
  | body h => exact ⟨_, rfl, h⟩

theorem Given.known {d : String × Option Shape} {name : String} {e : Expr}
    (h : Given b (name, some e) d) : ∃ s, d = (name, some s) ∧ OfShape s e b := by
  cases h with
  | body h => exact ⟨_, rfl, h⟩

theorem Given.none_iff {d : String × Option Expr} {d' : String × Option Shape} (h : Given b d d') :
    d.2 = none ↔ d'.2 = none := by
  cases h <;> simp

/-- The handles stand for the trees, and the rules of the builder have the bodies. -/
structure Mirrors (b : Builder) (hs : Handles) (m : Meaning) : Prop where
  nodes : List.Forall₂ b.Stands hs.nodes m.nodes
  rules : hs.rules = (List.range m.rules.length).map (RuleRef.mk b.id)
  declared : List.Forall₂ b.Given b.declared m.rules

section Lists

variable {β γ : Type} {R : β → γ → Prop} {xs : List β} {ys : List γ}

private theorem exists_of_forall₂ (h : List.Forall₂ R xs ys) {i : Nat} {y : γ}
    (hy : ys[i]? = some y) : ∃ x, xs[i]? = some x ∧ R x y := by
  induction h generalizing i with
  | nil => simp at hy
  | @cons x _ _ _ hx _ ih =>
    cases i with
    | zero =>
      obtain rfl := Option.some.inj hy
      exact ⟨x, rfl, hx⟩
    | succ i => exact ih hy

private theorem forall₂_set (h : List.Forall₂ R xs ys) (i : Nat) {x : β} {y : γ} (hx : R x y) :
    List.Forall₂ R (xs.set i x) (ys.set i y) := by
  induction h generalizing i with
  | nil => exact .nil
  | cons hxy h ih =>
    cases i with
    | zero => exact .cons hx h
    | succ i => exact .cons hxy (ih i)

private theorem forall_iff_of_forall₂ {p : β → Prop} {q : γ → Prop} (h : List.Forall₂ R xs ys)
    (hpq : ∀ x y, R x y → (p x ↔ q y)) : (∀ x ∈ xs, p x) ↔ ∀ y ∈ ys, q y := by
  induction h with
  | nil => simp
  | cons hxy _ ih => rw [List.forall_mem_cons, List.forall_mem_cons, hpq _ _ hxy, ih]

end Lists

namespace Mirrors

theorem new (id : Nat) : Mirrors (new id) ⟨[], []⟩ ⟨[], []⟩ := ⟨.nil, rfl, .nil⟩

variable (h : Mirrors b hs m)
include h

theorem grow (hb : Grown b b') : Mirrors b' hs m where
  nodes := h.nodes.imp fun _ _ hr => hr.mono hb.toExtends
  rules := by
    rw [hb.id]
    exact h.rules
  declared := by
    rw [hb.declared]
    exact h.declared.imp fun _ _ hd => hd.mono hb.toExtends

theorem makes_handle {i : Nat} {s : Shape} (hi : m.nodes[i]? = some s) :
    Makes (inRange hs.nodes[i]?) b fun r b' => b' = b ∧ b.Stands r s := by
  obtain ⟨r, hr, hs⟩ := exists_of_forall₂ h.nodes hi
  rw [hr]
  exact .pure ⟨rfl, hs⟩

theorem makes_handles {is : List Nat} {ss : List Shape} (hi : is.mapM (m.nodes[·]?) = some ss) :
    Makes (is.mapM fun i => inRange hs.nodes[i]?) b fun rs b' =>
      b' = b ∧ List.Forall₂ b.Stands rs ss := by
  induction is generalizing ss with
  | nil =>
    obtain rfl := Option.some.inj hi
    exact .pure ⟨rfl, .nil⟩
  | cons i is ih =>
    rw [List.mapM_cons] at hi ⊢
    obtain ⟨s, hs, hi⟩ := Option.bind_eq_some_iff.1 hi
    obtain ⟨ss', hss, hi⟩ := Option.bind_eq_some_iff.1 hi
    obtain rfl := Option.some.inj hi
    apply (h.makes_handle hs).bind
    rintro r b' - ⟨rfl, hr⟩
    apply (ih hss).bind
    rintro rs b' - ⟨rfl, hrs⟩
    exact .pure ⟨rfl, .cons hr hrs⟩

theorem owns_rule {k : Nat} (hk : k < m.rules.length) :
    hs.rules[k]? = some ⟨b.id, k⟩ ∧ b.ownsRule ⟨b.id, k⟩ = true := by
  have hsize : b.rules.size = m.rules.length := by
    simpa [Builder.declared] using h.declared.length_eq
  constructor
  · simp [h.rules, hk]
  · simp [ownsRule, ruleDecl?, hsize, hk]

theorem makes_one {op : NodeRef → BuildM NodeRef} (f : Shape → Shape)
    (hop : ∀ {r s}, b.Stands r s → Makes (op r) b fun q b' => b'.Stands q (f s)) {i : Nat}
    {t : Shape} (ht : m.nodes[i]?.map f = some t) :
    Makes (do op (← inRange hs.nodes[i]?)) b fun q b' => b'.Stands q t := by
  obtain ⟨s, hi, rfl⟩ := Option.map_eq_some_iff.1 ht
  apply (h.makes_handle hi).bind
  rintro r b' - ⟨rfl, hr⟩
  exact hop hr

theorem makes_two {op : NodeRef → NodeRef → BuildM NodeRef} {f : Shape → Shape → Shape}
    (hop : ∀ {l r s t}, b.Stands l s → b.Stands r t →
      Makes (op l r) b fun q b' => b'.Stands q (f s t)) {i j : Nat} {u : Shape}
    (hu : (do return f (← m.nodes[i]?) (← m.nodes[j]?)) = some u) :
    Makes (do op (← inRange hs.nodes[i]?) (← inRange hs.nodes[j]?)) b fun q b' =>
      b'.Stands q u := by
  obtain ⟨s, hi, hu⟩ := Option.bind_eq_some_iff.1 hu
  obtain ⟨t, hj, hu⟩ := Option.bind_eq_some_iff.1 hu
  obtain rfl := Option.some.inj hu
  apply (h.makes_handle hi).bind
  rintro l b' - ⟨rfl, hl⟩
  apply (h.makes_handle hj).bind
  rintro r b' - ⟨rfl, hr⟩
  exact hop hl hr

theorem makes_many {op : List NodeRef → BuildM NodeRef} {f : List Shape → Shape}
    (hop : ∀ {rs ss}, List.Forall₂ b.Stands rs ss →
      Makes (op rs) b fun q b' => b'.Stands q (f ss)) {is : List Nat} {t : Shape}
    (ht : (do return f (← is.mapM (m.nodes[·]?))) = some t) :
    Makes (do op (← is.mapM fun i => inRange hs.nodes[i]?)) b fun q b' => b'.Stands q t := by
  obtain ⟨ss, hi, ht⟩ := Option.bind_eq_some_iff.1 ht
  obtain rfl := Option.some.inj ht
  apply (h.makes_handles hi).bind
  rintro rs b' - ⟨rfl, hrs⟩
  exact hop hrs

theorem makes_operand {i k : Nat} {t : Shape}
    (ht : (do (← m.nodes[i]?).operands[k]?) = some t) :
    Makes (do
      let node ← node (← inRange hs.nodes[i]?)
      inRange (node.operands[k]?.map (·.ref))) b fun q b' => b'.Stands q t := by
  obtain ⟨s, hi, hk⟩ := Option.bind_eq_some_iff.1 ht
  apply (h.makes_handle hi).bind
  rintro r b' - ⟨rfl, e, rfl, hint, rfl⟩
  apply (makes_node hint.self).bind
  rintro e' b' - ⟨rfl, rfl⟩
  rw [Expr.operands_shape, List.getElem?_map] at hk
  obtain ⟨c, hc, rfl⟩ := Option.map_eq_some_iff.1 hk
  rw [hc]
  exact .pure (((intact_iff.1 hint).2 c (List.mem_of_getElem? hc)).stands rfl)

theorem makes_recipe {recipe : Recipe} {t : Shape} (ht : recipe.shape? m = some t) :
    Makes (recipe.run hs) b fun q b' => b'.Stands q t := by
  cases recipe with
  | token test =>
    obtain rfl := Option.some.inj ht
    exact makes_token test
  | eps =>
    obtain rfl := Option.some.inj ht
    exact makes_eps
  | literal s =>
    obtain rfl := Option.some.inj ht
    exact makes_literal s
  | tokenRange lo hi =>
    obtain rfl := Option.some.inj ht
    exact makes_tokenRange lo hi
  | alt l r => exact h.makes_two makes_alt ht
  | seq l r => exact h.makes_two makes_seq ht
  | conj l r => exact h.makes_two makes_conj ht
  | plus e => exact h.makes_one .plus makes_plus ht
  | maybe e => exact h.makes_one .maybe makes_maybe ht
  | star e => exact h.makes_one .star makes_star ht
  | select es => exact h.makes_many makes_select ht
  | join es => exact h.makes_many makes_join ht
  | consume e => exact h.makes_one (fun s => s) makes_consume (by simpa [Recipe.shape?] using ht)
  | copy e => exact h.makes_one (fun s => s) makes_copy (by simpa [Recipe.shape?] using ht)
  | operand e k => exact h.makes_operand ht
  | call k =>
    rw [Recipe.shape?] at ht
    split at ht
    · rename_i hk
      obtain rfl := Option.some.inj ht
      obtain ⟨hget, hown⟩ := h.owns_rule hk
      rw [Recipe.run, hget]
      exact makes_call hown
    · cases ht

theorem rule_of_declared {k : Nat} {name : String} {body : Option Shape}
    (hk : m.rules[k]? = some (name, body)) :
    ∃ d, b.ruleDecl? ⟨b.id, k⟩ = some d ∧ b.declared[k]? = some (d.name, d.body) ∧
      b.Given (d.name, d.body) (name, body) := by
  obtain ⟨d, hd, hg⟩ := exists_of_forall₂ h.declared hk
  rw [Builder.declared, List.getElem?_map, Array.getElem?_toList] at hd
  obtain ⟨d, hget, rfl⟩ := Option.map_eq_some_iff.1 hd
  exact ⟨d, ruleDecl?_eq_some_iff.2 ⟨rfl, hget⟩, by simp [Builder.declared, hget], hg⟩

theorem push {r : NodeRef} {s : Shape} (hr : b.Stands r s) :
    Mirrors b { hs with nodes := hs.nodes ++ [r] } { m with nodes := m.nodes ++ [s] } :=
  { h with nodes := List.rel_append h.nodes (.cons hr .nil) }

theorem declare (name : String) :
    Mirrors { b with rules := b.rules.push ⟨name, none, 0⟩ }
      { hs with rules := hs.rules ++ [⟨b.id, b.rules.size⟩] }
      { m with rules := m.rules ++ [(name, none)] } := by
  have hext : Extends b { b with rules := b.rules.push ⟨name, none, 0⟩ } :=
    (Step.rule (b := b) name).extend
  have hsize : b.rules.size = m.rules.length := by
    simpa [Builder.declared] using h.declared.length_eq
  constructor
  · exact h.nodes.imp fun _ _ hr => hr.mono hext
  · simp [h.rules, hsize, List.range_succ]
  · have hd := h.declared.imp fun _ _ hd => hd.mono hext
    simpa [Builder.declared] using List.rel_append hd (.cons (.free name) .nil)

theorem give {k : Nat} {d : RuleDecl} {name : String} {e : Expr} {s : Shape}
    (hd : b.ruleDecl? ⟨b.id, k⟩ = some d) (hname : d.name = name) (hb : d.body = none)
    (he : OfShape s e b) :
    Mirrors { b with rules := b.rules.modify k fun _ => { d with body := some e } } hs
      { m with rules := m.rules.set k (name, some s) } := by
  subst hname
  have hext : Extends b { b with rules := b.rules.modify k fun _ => { d with body := some e } } :=
    (Step.body hd hb e).extend
  constructor
  · exact h.nodes.imp fun _ _ hr => hr.mono hext
  · simp [h.rules]
  · rw [declared_modify (ruleDecl?_eq_some_iff.1 hd).2]
    have hgiven : b.Given (d.name, some e) (d.name, some s) := .body he
    exact (forall₂_set h.declared k hgiven).imp fun _ _ hd => hd.mono hext

theorem owns_node {e : Nat} {s : Shape} (he : m.nodes[e]? = some s) :
    ∃ r, hs.nodes[e]? = some r ∧ b.Stands r s ∧ b.owns r = true := by
  obtain ⟨r, hr, x, rfl, hi, hs⟩ := exists_of_forall₂ h.nodes he
  refine ⟨x.ref, hr, ⟨x, rfl, hi, hs⟩, ?_⟩
  obtain ⟨sl, hsl, -⟩ := Option.map_eq_some_iff.1 hi.self
  rw [owns, hsl]
  rfl

theorem setBody_refused {k e : Nat} {name : String} {s s' : Shape}
    (hk : m.rules[k]? = some (name, some s')) (he : m.nodes[e]? = some s) :
    ∃ r, hs.nodes[e]? = some r ∧
      setBody ⟨b.id, k⟩ r b = (.error (.refusal (.bodyAlreadySet name)), b) := by
  obtain ⟨r, hr, -, hown⟩ := h.owns_node he
  obtain ⟨d, hd, -, hg⟩ := h.rule_of_declared hk
  obtain ⟨x, hx, -⟩ := hg.eq_body
  obtain ⟨hname, hbody⟩ := Prod.mk.inj hx
  exact ⟨r, hr, hname ▸ setBody_taken hd hown hbody⟩

theorem setBody_ok {k e : Nat} {name : String} {s : Shape} (hk : m.rules[k]? = some (name, none))
    (he : m.nodes[e]? = some s) :
    ∃ r b', hs.nodes[e]? = some r ∧ setBody ⟨b.id, k⟩ r b = (.ok (), b') ∧
      Mirrors b' hs { m with rules := m.rules.set k (name, some s) } := by
  obtain ⟨r, hr, hstands, -⟩ := h.owns_node he
  obtain ⟨d, hd, -, hg⟩ := h.rule_of_declared hk
  obtain ⟨hname, hbody⟩ := Prod.mk.inj hg.eq_free
  obtain ⟨c, b₁, d', -, hb₁, hc, hd', hname', hfree, hset⟩ := hstands.setBody_ok hd hbody
  rw [← hb₁.id] at hd'
  exact ⟨r, _, hr, hset, (h.grow hb₁).give hd' (hname'.trans hname) hfree hc⟩

/-- A command does with a builder what it does with trees. -/
theorem run_ok {command : Command} (hm : command.apply? m = some m') :
    ∃ hs' b', command.run hs b = (.ok hs', b') ∧ Mirrors b' hs' m' := by
  cases command with
  | make recipe =>
    obtain ⟨s, hs', hm⟩ := Option.bind_eq_some_iff.1 hm
    obtain rfl := Option.some.inj hm
    obtain ⟨r, b', hrun, hb', hr⟩ := h.makes_recipe hs'
    refine ⟨_, b', ?_, (h.grow hb').push hr⟩
    rw [Command.run, bind_apply, hrun]
    rfl
  | rule name =>
    obtain rfl := Option.some.inj hm
    exact ⟨_, _, rfl, h.declare name⟩
  | setBody k e =>
    obtain ⟨s, he, hm⟩ := Option.bind_eq_some_iff.1 hm
    obtain ⟨⟨name, body⟩, hk, hm⟩ := Option.bind_eq_some_iff.1 hm
    have hrule := (h.owns_rule (List.getElem?_eq_some_iff.1 hk).1).1
    cases body with
    | none =>
      obtain rfl := Option.some.inj hm
      obtain ⟨r, b', hr, hset, hmir⟩ := h.setBody_ok hk he
      refine ⟨hs, b', ?_, hmir⟩
      rw [Command.run, hrule, hr]
      show (do let _ ← attempt (setBody ⟨b.id, k⟩ r); return hs : BuildM Handles) b = _
      rw [bind_apply, attempt, hset]
      rfl
    | some s' =>
      obtain rfl := Option.some.inj hm
      obtain ⟨r, hr, hset⟩ := h.setBody_refused hk he
      refine ⟨hs, b, ?_, h⟩
      rw [Command.run, hrule, hr]
      show (do let _ ← attempt (setBody ⟨b.id, k⟩ r); return hs : BuildM Handles) b = _
      rw [bind_apply, attempt, hset]
      rfl

end Mirrors

/-- Step by step, a builder is kept in line with the trees. -/
theorem runCommands_ok {commands : List Command} (hm : meaning? commands = some m) (id : Nat) :
    ∃ hs b, runCommands commands (Builder.new id) = (.ok hs, b) ∧ Mirrors b hs m := by
  suffices hrun : ∀ b hs m₀, Mirrors b hs m₀ → commands.foldlM Command.apply? m₀ = some m →
      ∃ hs' b', commands.foldlM Command.run hs b = (.ok hs', b') ∧ Mirrors b' hs' m from
    hrun _ _ _ (.new id) hm
  clear hm
  induction commands with
  | nil =>
    intro b hs m₀ h hm
    obtain rfl := Option.some.inj hm
    exact ⟨hs, b, rfl, h⟩
  | cons command commands ih =>
    intro b hs m₀ h hm
    rw [List.foldlM_cons] at hm
    obtain ⟨m₁, hm₁, hm⟩ := Option.bind_eq_some_iff.1 hm
    obtain ⟨hs₁, b₁, hrun₁, h₁⟩ := h.run_ok hm₁
    obtain ⟨hs', b', hrun, h'⟩ := ih b₁ hs₁ m₁ h₁ hm
    refine ⟨hs', b', ?_, h'⟩
    rw [List.foldlM_cons, bind_apply, hrun₁]
    exact hrun

theorem closeRules_iff {ds : List RuleDecl} {rules : List Rule} : closeRules ds = .ok rules ↔
    ds.map (fun d => (d.name, d.body)) = rules.map fun r => (r.name, some r.body) := by
  induction ds generalizing rules with
  | nil => cases rules <;> simp [closeRules]
  | cons d ds ih =>
    obtain ⟨name, body, sites⟩ := d
    cases body with
    | none => cases rules <;> simp [closeRules, refuse]
    | some e =>
      cases rules with
      | nil => cases hr : closeRules ds <;> simp [closeRules, hr]
      | cons r rules =>
        obtain ⟨name', e'⟩ := r
        rw [List.map_cons, List.map_cons, List.cons.injEq, ← ih]
        cases hr : closeRules ds <;> simp [closeRules, hr, and_assoc]

theorem closeRules_total {ds : List RuleDecl} :
    (∃ rules, closeRules ds = .ok rules) ↔ ∀ d ∈ ds, d.body ≠ none := by
  constructor
  · rintro ⟨rules, hr⟩ d hd hb
    have hmem : (d.name, d.body) ∈ rules.map fun r => (r.name, some r.body) :=
      closeRules_iff.1 hr ▸ List.mem_map_of_mem hd
    obtain ⟨r, -, heq⟩ := List.mem_map.1 hmem
    rw [hb] at heq
    exact Option.some_ne_none _ (congrArg Prod.snd heq)
  · intro h
    induction ds with
    | nil => exact ⟨[], rfl⟩
    | cons d ds ih =>
      obtain ⟨rules, hr⟩ := ih fun d hd => h d (List.mem_cons_of_mem _ hd)
      obtain ⟨e, he⟩ := Option.ne_none_iff_exists'.1 (h d List.mem_cons_self)
      refine ⟨⟨d.name, e⟩ :: rules, closeRules_iff.2 ?_⟩
      rw [List.map_cons, List.map_cons, closeRules_iff.1 hr, he]

theorem finalize_eq {r : NodeRef} {e : Expr} (hr : b.owns r = true) (he : take r b = (.ok e, b')) :
    b.finalize r = (closeRules b'.rules.toList).map fun rules => b'.finished rules e := by
  show ((close r) b).1 = _
  rw [close, bind_apply]
  show ((if (!b.owns r) = true then _ else _ : BuildM Grammar) b).1 = _
  simp only [hr, Bool.not_true]
  show ((take r >>= _ : BuildM Grammar) b).1 = _
  rw [bind_apply, he]
  show ((liftM (closeRules b'.rules.toList) >>= _ : BuildM Grammar) b').1 = _
  rw [bind_apply]
  cases closeRules b'.rules.toList <;> rfl

end Builder

/-- The grammar has the rules of the meaning, all of them with their bodies, and the given root. -/
structure Grammar.Means (g : Grammar) (m : Meaning) (root : Shape) : Prop where
  root : Reads g.node? g.root.ref root
  rules : g.rules.size = m.rules.length
  body : ∀ {k : Nat} {rule : Rule}, g.rules[k]? = some rule →
    ∃ s, m.rules[k]? = some (rule.name, some s) ∧ Reads g.node? rule.body.ref s

namespace Builder

variable {b : Builder} {hs : Handles} {m : Meaning}

theorem node?_finished {rules : List Rule} {e x : Expr} {r : NodeRef} (h : b.node? r = some x) :
    (b.finished rules e).node? r = some x := by
  obtain ⟨ho, hx⟩ := node?_eq_some_iff.1 h
  rw [getElem?_exprs] at hx
  obtain ⟨sl, hsl, rfl⟩ := Option.map_eq_some_iff.1 hx
  rw [Grammar.node?, if_pos (show r.owner = (b.finished rules e).id from ho)]
  exact mem_finished_iff.2 (.inl ⟨sl, hsl, rfl⟩)

theorem Mirrors.means (h : Mirrors b hs m) {rules : List Rule} {e : Expr} {s : Shape}
    (he : OfShape s e b) (hr : closeRules b.rules.toList = .ok rules) :
    (b.finished rules e).Means m s := by
  have hdecl : b.declared = rules.map fun r => (r.name, some r.body) := closeRules_iff.1 hr
  have hforall := h.declared
  rw [hdecl] at hforall
  have hreads : ∀ {x t}, OfShape t x b → Reads (b.finished rules e).node? x.ref t := by
    rintro x t ⟨hx, rfl⟩
    exact hx.reads.mono fun _ _ => node?_finished
  constructor
  · exact hreads he
  · simpa [finished] using hforall.length_eq
  · intro k rule hk
    have hk : rules[k]? = some rule := by simpa [finished] using hk
    have hpair : (rules.map fun r => (r.name, some r.body))[k]? =
        some (rule.name, some rule.body) := by simp [hk]
    obtain ⟨d, hd, hg⟩ := exists_of_forall₂ (R := flip b.Given) (.flip hforall) hpair
    obtain ⟨t, rfl, ht⟩ := Given.known hg
    exact ⟨t, hd, hreads ht⟩

/-- Finishing succeeds when all rules have bodies, and the grammar has the trees then. -/
theorem Mirrors.finalize_ok (h : Mirrors b hs m) {i : Nat} {s : Shape} (hi : m.nodes[i]? = some s) :
    ∃ r, hs.nodes[i]? = some r ∧
      ((∃ g, b.finalize r = .ok g) ↔ ∀ d ∈ m.rules, d.2 ≠ none) ∧
      ∀ g, b.finalize r = .ok g → g.Means m s := by
  obtain ⟨r, hr, hstands, hown⟩ := h.owns_node hi
  obtain ⟨e, b', htake, hb', he⟩ := makes_take hstands
  have h' := h.grow hb'
  have hfin := finalize_eq hown htake
  refine ⟨r, hr, ?_, ?_⟩
  · have hbodies := forall_iff_of_forall₂ h'.declared fun d d' hd => not_congr hd.none_iff
    rw [Builder.declared, List.forall_mem_map] at hbodies
    rw [← hbodies, ← closeRules_total, hfin]
    cases closeRules b'.rules.toList <;> simp [Except.map]
  · intro g hg
    rw [hfin] at hg
    cases hc : closeRules b'.rules.toList with
    | error f =>
      rw [hc] at hg
      cases hg
    | ok rules =>
      rw [hc] at hg
      cases hg
      exact h'.means he hc

/-- Commands that make sense as making trees succeed with a builder. At every handle one finds the
tree of the command that returned it, also after whatever a client does next. If all rules have got
bodies, the grammar can be finished with any of the handles as its root, and has exactly the trees. -/
theorem trees_of_commands {commands : List Command} (hm : meaning? commands = some m) (id : Nat) :
    ∃ hs b, runCommands commands (Builder.new id) = (.ok hs, b) ∧
      hs.nodes.length = m.nodes.length ∧
      ∀ (i : Nat) (s : Shape), m.nodes[i]? = some s → ∃ r, hs.nodes[i]? = some r ∧
        Reads b.node? r s ∧
        (∀ (α : Type) (act : BuildM α), Client act → Reads (act b).2.node? r s) ∧
        ((∃ g, b.finalize r = .ok g) ↔ ∀ d ∈ m.rules, d.2 ≠ none) ∧
        ∀ g, b.finalize r = .ok g → g.Means m s := by
  obtain ⟨hs, b, hrun, h⟩ := runCommands_ok hm id
  refine ⟨hs, b, hrun, h.nodes.length_eq, fun i s hi => ?_⟩
  obtain ⟨r, hr, hfin⟩ := h.finalize_ok hi
  obtain ⟨r', hr', hstands⟩ := exists_of_forall₂ h.nodes hi
  obtain rfl : r = r' := Option.some.inj (hr.symm.trans hr')
  refine ⟨r, hr, hstands.reads, fun α act hact => ?_, hfin⟩
  exact (hstands.mono (Steps.extend (hact.stepwise b))).reads

/-- A rule whose body is also used outside, next to a copy of its own operand. -/
def doubled : List Command :=
  [.rule "e", .make (.call 0), .make (.literal "ab"), .make (.seq 1 1), .make (.alt 2 0),
    .setBody 0 3, .make (.operand 3 0), .make (.conj 3 4)]

def doubledMeaning : Meaning :=
  let ab := .seq (.token (.equal 97)) (.token (.equal 98))
  let body := .alt (.seq ab ab) (.call 0)
  ⟨[.call 0, ab, .seq ab ab, body, .seq ab ab, .conj body (.seq ab ab)], [("e", some body)]⟩

theorem trees_of_commands_doubled :
    meaning? doubled = some doubledMeaning ∧
      ∃ hs b r g s, runCommands doubled (Builder.new 0) = (.ok hs, b) ∧
        hs.nodes[5]? = some r ∧ doubledMeaning.nodes[5]? = some s ∧ Reads b.node? r s ∧
        b.finalize r = .ok g ∧ g.Means doubledMeaning s := by
  have hm : meaning? doubled = some doubledMeaning := by decide +kernel
  obtain ⟨hs, b, hrun, -, hnodes⟩ := trees_of_commands hm 0
  obtain ⟨r, hr, hreads, -, hfin, hmeans⟩ := hnodes 5 _ rfl
  obtain ⟨g, hg⟩ := hfin.2 (by decide +kernel)
  exact ⟨hm, hs, b, r, g, _, hrun, hr, rfl, hreads, hg, hmeans g hg⟩

end Builder

end TokenGrammar
