import TokenGrammar.Proofs.Building
import Mathlib.Logic.Relation

/-!
# What clients do to a builder

Whatever a client does with a builder comes down to five steps: a node is made, a call is made, a
node is marked as installed, a rule is declared, and a rule gets a body. This includes operations
that fail, which may have made some of their steps before.
-/

namespace TokenGrammar.Builder

variable {α β : Type} {b b' : Builder} {act : BuildM α} {next : α → BuildM β}

/-- The nodes in the order in which they were made. -/
def exprs (b : Builder) : List Expr := b.slots.toList.map (·.expr)

theorem exprs_push (s : Slot) (rules : Array RuleDecl) :
    ({ b with slots := b.slots.push s, rules } : Builder).exprs = b.exprs ++ [s.expr] := by
  simp [exprs]

theorem exprs_mark (i : Nat) :
    ({ b with slots := b.slots.modify i fun s => { s with installed := true } } : Builder).exprs =
      b.exprs := by
  apply List.ext_getElem?
  intro j
  simp only [exprs, List.getElem?_map, Array.getElem?_toList, Array.getElem?_modify]
  split
  · cases b.slots[j]? <;> rfl
  · rfl

theorem getElem?_exprs {i : Nat} : b.exprs[i]? = b.slots[i]?.map (·.expr) := by
  simp [exprs]

theorem getElem?_modify_rules {k i : Nat} {d : RuleDecl} (h : b.rules[k]? ≠ none) :
    (b.rules.modify k fun _ => d)[i]? = if k = i then some d else b.rules[i]? := by
  rw [Array.getElem?_modify]
  split
  · rename_i hk
    cases hd : b.rules[i]? with
    | none => exact absurd (hk ▸ hd) h
    | some _ => rfl
  · rfl

def declared (b : Builder) : List (String × Option Expr) :=
  b.rules.toList.map fun d => (d.name, d.body)

theorem getElem?_declared {k : Nat} : b.declared[k]? = b.rules[k]?.map fun d => (d.name, d.body) := by
  simp [declared]

theorem declared_modify {k : Nat} {d d' : RuleDecl} (hd : b.rules[k]? = some d) :
    ({ b with rules := b.rules.modify k fun _ => d' } : Builder).declared =
      b.declared.set k (d'.name, d'.body) := by
  apply List.ext_getElem?
  intro i
  have hlt := (Array.getElem?_eq_some_iff.1 hd).1
  simp only [declared, List.getElem?_map, Array.getElem?_toList, List.getElem?_set, List.length_map,
    Array.length_toList, hlt, if_true]
  rw [getElem?_modify_rules (by simp [hd])]
  split <;> rfl

theorem declared_modify_same {k : Nat} {d d' : RuleDecl} (hd : b.rules[k]? = some d)
    (hn : d'.name = d.name) (hb : d'.body = d.body) :
    ({ b with rules := b.rules.modify k fun _ => d' } : Builder).declared = b.declared := by
  have hk : b.declared[k]? = some (d'.name, d'.body) := by
    rw [getElem?_declared, hd, hn, hb]
    rfl
  obtain ⟨hlt, hget⟩ := List.getElem?_eq_some_iff.1 hk
  rw [declared_modify hd, ← hget, List.set_getElem_self]

theorem slot?_own {i : Nat} : b.slot? ⟨b.id, i⟩ = b.slots[i]? := if_pos rfl

theorem ruleDecl?_eq_some_iff {k : RuleRef} {d : RuleDecl} :
    b.ruleDecl? k = some d ↔ k.owner = b.id ∧ b.rules[k.index]? = some d := by
  rw [ruleDecl?]
  split <;> simp [*]

theorem same_of_declared {k : RuleRef} {d d' : RuleDecl} (h : b'.declared = b.declared)
    (hd : b.ruleDecl? k = some d) (hd' : b'.ruleDecl? k = some d') :
    d'.name = d.name ∧ d'.body = d.body := by
  have hsame := congrArg (·[k.index]?) h
  simpa only [getElem?_declared, (ruleDecl?_eq_some_iff.1 hd).2, (ruleDecl?_eq_some_iff.1 hd').2,
    Option.map_some, Option.some.injEq, Prod.mk.injEq] using hsame

/-- A step that changes a builder. -/
inductive Step (b : Builder) : Builder → Prop
  | node (e : Expr) (he : e.ref = ⟨b.id, b.slots.size⟩) (hc : e.callee? = none) {t : Bool}
      (ht : (terminalFlag e b).1 = .ok t) : Step b { b with slots := b.slots.push ⟨e, t, false⟩ }
  | call {k : RuleRef} {d : RuleDecl} (hk : b.ruleDecl? k = some d) :
    Step b { b with
      slots := b.slots.push ⟨.call ⟨b.id, b.slots.size⟩ k d.sites, false, false⟩
      rules := b.rules.modify k.index fun _ => { d with sites := d.sites + 1 } }
  | mark (i : Nat) :
    Step b { b with slots := b.slots.modify i fun s => { s with installed := true } }
  | rule (name : String) : Step b { b with rules := b.rules.push ⟨name, none, 0⟩ }
  | body {k : RuleRef} {d : RuleDecl} (hk : b.ruleDecl? k = some d) (hb : d.body = none) (e : Expr) :
    Step b { b with rules := b.rules.modify k.index fun _ => { d with body := some e } }

abbrev Steps : Builder → Builder → Prop := Relation.ReflTransGen Step

/-- What each step keeps, any number of steps keeps. -/
theorem Steps.keep {P : Builder → Prop} (hstep : ∀ {b b'}, P b → Step b b' → P b')
    (h : Steps b b') (hb : P b) : P b' := by
  induction h with
  | refl => exact hb
  | tail _ h ih => exact hstep ih h

/-- Whether it fails or not, the action changes the builder by steps of a kind. -/
def Along (R : Builder → Builder → Prop) (act : BuildM α) : Prop :=
  ∀ b, Relation.ReflTransGen R b (act b).2

namespace Along

variable {R : Builder → Builder → Prop}

theorem of_unchanged (h : ∀ b, (act b).2 = b) : Along R act := by
  intro b
  rw [h]

theorem pure (a : α) : Along R (Pure.pure a : BuildM α) := of_unchanged fun _ => rfl

theorem fail {f : Failure} : Along R (throw f : BuildM α) := of_unchanged fun _ => rfl

theorem bind (h : Along R act) (h' : ∀ a, Along R (next a)) : Along R (act >>= next) := by
  intro b
  rw [bind_apply]
  cases hact : (act b).1 with
  | ok a => exact (h b).trans (h' a _)
  | error f => exact h b

theorem foldlM {step : β → α → BuildM β} (h : ∀ b a, Along R (step b a)) (xs : List α) (b : β) :
    Along R (xs.foldlM step b) := by
  induction xs generalizing b with
  | nil => exact .pure b
  | cons x xs ih =>
    rw [List.foldlM_cons]
    exact (h b x).bind ih

theorem mapM {f : α → BuildM β} (h : ∀ a, Along R (f a)) (xs : List α) :
    Along R (xs.mapM f) := by
  induction xs with
  | nil => exact .pure []
  | cons x xs ih =>
    rw [List.mapM_cons]
    exact (h x).bind fun y => ih.bind fun ys => .pure (y :: ys)

end Along

abbrev Stepwise (act : BuildM α) : Prop := Along Step act

/-- A step that declares no rule and sets no body. -/
def NodeStep (b b' : Builder) : Prop := Step b b' ∧ b'.declared = b.declared

abbrev NodeSteps : Builder → Builder → Prop := Relation.ReflTransGen NodeStep

theorem NodeSteps.steps (h : NodeSteps b b') : Steps b b' :=
  Relation.ReflTransGen.mono (fun _ _ h => h.1) _ _ h

theorem NodeSteps.declared_eq (h : NodeSteps b b') : b'.declared = b.declared := by
  induction h with
  | refl => rfl
  | tail _ h ih => exact h.2.trans ih

abbrev Nodewise (act : BuildM α) : Prop := Along NodeStep act

theorem Nodewise.stepwise (h : Nodewise act) : Stepwise act := fun b => NodeSteps.steps (h b)

theorem ruleDecl_apply (k : RuleRef) (b : Builder) :
    ruleDecl k b = ((b.ruleDecl? k).elim (.error (.defect (.foreignRule k))) .ok, b) := by
  rw [ruleDecl, get_bind_apply]
  cases b.ruleDecl? k <;> rfl

section Operations

variable {R : Builder → Builder → Prop}

theorem along_slot (e : NodeRef) : Along R (slot e) := .of_unchanged fun b => by rw [slot_apply]

theorem along_ruleDecl (k : RuleRef) : Along R (ruleDecl k) :=
  .of_unchanged fun b => by rw [ruleDecl_apply]

theorem along_node (e : NodeRef) : Along R (node e) := (along_slot e).bind fun _ => .pure _

theorem along_isTerminal (e : NodeRef) : Along R (isTerminal e) :=
  (along_slot e).bind fun _ => .pure _

theorem along_isInstalled (e : NodeRef) : Along R (isInstalled e) :=
  (along_slot e).bind fun _ => .pure _

theorem nodewise_add {make : NodeRef → Expr} (hr : ∀ r, (make r).ref = r)
    (hc : ∀ r, (make r).callee? = none) : Nodewise (add make) := by
  intro b
  cases ht : (terminalFlag (make ⟨b.id, b.slots.size⟩) b).1 with
  | ok t =>
    rw [add_ok ht]
    exact .single ⟨.node _ (hr _) (hc _) ht, rfl⟩
  | error f =>
    rw [add_error ht]

theorem nodewise_mark (e : NodeRef) : Nodewise (markInstalled e) :=
  fun _ => .single ⟨.mark _, rfl⟩

theorem nodewise_addCall (k : RuleRef) : Nodewise (addCall k) := by
  intro b
  rw [addCall, bind_apply, ruleDecl_apply]
  cases hk : b.ruleDecl? k with
  | none => exact .refl
  | some d =>
    exact .single ⟨.call hk, declared_modify_same (ruleDecl?_eq_some_iff.1 hk).2 rfl rfl⟩

theorem nodewise_install (e : Expr) {copied : BuildM Expr} (h : Nodewise copied) :
    Nodewise (install e copied) := by
  apply (along_isInstalled e.ref).bind
  intro i
  cases i with
  | true => exact h.bind fun c => (nodewise_mark c.ref).bind fun _ => .pure c
  | false => exact (nodewise_mark e.ref).bind fun _ => .pure e

theorem nodewise_copyTree (e : Expr) : Nodewise (copyTree e) := by
  induction e with
  | token | eps | endMark => exact nodewise_add (fun _ => rfl) fun _ => rfl
  | alt r a c iha ihc | seq r a c iha ihc | conj r a c iha ihc =>
    exact (nodewise_install a iha).bind fun _ => (nodewise_install c ihc).bind fun _ =>
      nodewise_add (fun _ => rfl) fun _ => rfl
  | plus r c ih =>
    exact (nodewise_install c ih).bind fun _ => nodewise_add (fun _ => rfl) fun _ => rfl
  | call r k s => exact nodewise_addCall k

theorem nodewise_take (e : NodeRef) : Nodewise (take e) :=
  (along_node e).bind fun tree => nodewise_install tree (nodewise_copyTree tree)

private theorem nodewise_ref {act : BuildM Expr} (h : Nodewise act) :
    Nodewise (do return (← act).ref) := h.bind fun _ => .pure _

theorem nodewise_token (test : TokenTest) : Nodewise (token test) :=
  nodewise_ref (nodewise_add (fun _ => rfl) fun _ => rfl)

theorem nodewise_eps : Nodewise eps := nodewise_ref (nodewise_add (fun _ => rfl) fun _ => rfl)

private theorem nodewise_binary (make : Expr → Expr → NodeRef → Expr)
    (hr : ∀ l r q, (make l r q).ref = q) (hc : ∀ l r q, (make l r q).callee? = none)
    (l r : NodeRef) : Nodewise (do
      let l ← take l
      let r ← take r
      return (← add (make l r)).ref) :=
  (nodewise_take l).bind fun _ => (nodewise_take r).bind fun _ =>
    nodewise_ref (nodewise_add (hr _ _) (hc _ _))

theorem nodewise_alt (l r : NodeRef) : Nodewise (alt l r) :=
  nodewise_binary (fun l r q => .alt q l r) (fun _ _ _ => rfl) (fun _ _ _ => rfl) l r

theorem nodewise_seq (l r : NodeRef) : Nodewise (seq l r) :=
  nodewise_binary (fun l r q => .seq q l r) (fun _ _ _ => rfl) (fun _ _ _ => rfl) l r

theorem nodewise_conj (l r : NodeRef) : Nodewise (conj l r) :=
  nodewise_binary (fun l r q => .conj q l r) (fun _ _ _ => rfl) (fun _ _ _ => rfl) l r

theorem nodewise_plus (e : NodeRef) : Nodewise (plus e) :=
  (nodewise_take e).bind fun _ => nodewise_ref (nodewise_add (fun _ => rfl) fun _ => rfl)

theorem nodewise_maybe (e : NodeRef) : Nodewise (maybe e) :=
  nodewise_eps.bind fun nothing => nodewise_alt e nothing

theorem nodewise_star (e : NodeRef) : Nodewise (star e) := (nodewise_plus e).bind nodewise_maybe

theorem nodewise_select (es : List NodeRef) : Nodewise (select es) := by
  cases es with
  | nil => exact nodewise_eps
  | cons e es => exact .foldlM nodewise_alt es e

theorem nodewise_join (es : List NodeRef) : Nodewise (join es) := by
  cases es with
  | nil => exact nodewise_eps
  | cons e es => exact .foldlM nodewise_seq es e

theorem nodewise_literal (s : String) : Nodewise (literal s) :=
  (Along.mapM (fun _ => nodewise_token _) _).bind nodewise_join

theorem nodewise_tokenRange (lo hi : Token) : Nodewise (tokenRange lo hi) :=
  (nodewise_token _).bind fun _ => (nodewise_token _).bind fun _ => nodewise_conj _ _

theorem nodewise_consume (e : NodeRef) : Nodewise (consume e) := nodewise_ref (nodewise_take e)

theorem nodewise_copy (e : NodeRef) : Nodewise (copy e) :=
  (along_node e).bind fun tree => nodewise_ref (nodewise_copyTree tree)

theorem nodewise_call (k : RuleRef) : Nodewise (call k) := nodewise_ref (nodewise_addCall k)

theorem stepwise_rule (name : String) : Stepwise (rule name) := fun _ => .single (.rule name)

section SetBody

variable {k : RuleRef} {e : NodeRef} {d : RuleDecl}

theorem setBody_foreign_rule (hk : b.ruleDecl? k = none) :
    setBody k e b = (.error (.refusal (.foreignRule k)), b) := by
  rw [setBody, get_bind_apply]
  simp only [hk]
  rfl

theorem setBody_foreign_body (hk : b.ruleDecl? k = some d) (he : b.owns e = false) :
    setBody k e b = (.error (.refusal (.foreignBody e)), b) := by
  rw [setBody, get_bind_apply]
  simp only [hk, he]
  rfl

theorem setBody_taken (hk : b.ruleDecl? k = some d) (he : b.owns e = true) {x : Expr}
    (hb : d.body = some x) : setBody k e b = (.error (.refusal (.bodyAlreadySet d.name)), b) := by
  rw [setBody, get_bind_apply]
  simp only [hk, he, hb]
  rfl

theorem setBody_free (hk : b.ruleDecl? k = some d) (he : b.owns e = true) (hb : d.body = none) :
    setBody k e b = (do
      let tree ← take e
      setRule k { (← ruleDecl k) with body := some tree } : BuildM Unit) b := by
  rw [setBody, get_bind_apply]
  simp only [hk, he, hb]
  rfl

end SetBody

/-- To set a body is to give a node away and then, unless something fails, to put it in its place. -/
theorem setBody_snd (k : RuleRef) (e : NodeRef) (b : Builder) :
    ∃ b₁, NodeSteps b b₁ ∧ ((setBody k e b).2 = b₁ ∨ ∃ d tree, b₁.ruleDecl? k = some d ∧
      d.body = none ∧ (setBody k e b).2 =
        { b₁ with rules := b₁.rules.modify k.index fun _ => { d with body := some tree } }) := by
  cases hk : b.ruleDecl? k with
  | none => exact ⟨b, .refl, .inl (by rw [setBody_foreign_rule hk])⟩
  | some d =>
    cases he : b.owns e with
    | false => exact ⟨b, .refl, .inl (by rw [setBody_foreign_body hk he])⟩
    | true =>
      cases hb : d.body with
      | some x => exact ⟨b, .refl, .inl (by rw [setBody_taken hk he hb])⟩
      | none =>
        have htake : NodeSteps b (take e b).2 := nodewise_take e b
        refine ⟨_, htake, ?_⟩
        rw [setBody_free hk he hb, bind_apply]
        cases (take e b).1 with
        | error f => exact .inl rfl
        | ok tree =>
          dsimp only
          rw [bind_apply, ruleDecl_apply]
          cases hk' : (take e b).2.ruleDecl? k with
          | none => exact .inl rfl
          | some d' =>
            have hsame := same_of_declared htake.declared_eq hk hk'
            exact .inr ⟨d', tree, rfl, hsame.2.trans hb, rfl⟩

theorem stepwise_setBody (k : RuleRef) (e : NodeRef) : Stepwise (setBody k e) := by
  intro b
  obtain ⟨b₁, hb₁, hsame | ⟨d, tree, hk, hb, hset⟩⟩ := setBody_snd k e b
  · rw [hsame]
    exact hb₁.steps
  · rw [hset]
    exact hb₁.steps.tail (.body hk hb tree)

theorem stepwise_close (root : NodeRef) : Stepwise (close root) := by
  have hget : Stepwise (get : BuildM Builder) := .of_unchanged fun _ => rfl
  have hlift : ∀ ds, Stepwise (liftM (closeRules ds) : BuildM (List Rule)) :=
    fun ds => .of_unchanged fun _ => rfl
  have htake : Stepwise (do
      let e ← take root
      let b ← get
      let rules ← closeRules b.rules.toList
      return (⟨b.id, (b.slots.map (·.expr)).push (.endMark ⟨b.id, b.slots.size⟩),
        (b.slots.map (·.terminal)).push false, rules.toArray, e⟩ : Grammar)) :=
    (nodewise_take root).stepwise.bind fun _ => hget.bind fun _ => (hlift _).bind fun _ => .pure _
  apply hget.bind
  intro b
  split
  · exact Along.fail.bind fun _ => htake
  · exact htake

end Operations

/-- Goes on after a failure, which is the result then. -/
def attempt (act : BuildM α) : BuildM (Except Failure α) := fun b => (.ok (act b).1, (act b).2)

/-- What a client can do with a builder: use its operations one after the other, with any handles, as
it likes in the light of what it has got, and go on after failures. -/
inductive Client : {α : Type} → BuildM α → Prop
  | pure {α : Type} (a : α) : Client (Pure.pure a : BuildM α)
  | bind {α β : Type} {act : BuildM α} {next : α → BuildM β} (h : Client act)
    (h' : ∀ a, Client (next a)) : Client (act >>= next)
  | attempt {α : Type} {act : BuildM α} (h : Client act) : Client (attempt act)
  | token (test : TokenTest) : Client (token test)
  | eps : Client eps
  | alt (l r : NodeRef) : Client (alt l r)
  | seq (l r : NodeRef) : Client (seq l r)
  | conj (l r : NodeRef) : Client (conj l r)
  | plus (e : NodeRef) : Client (plus e)
  | maybe (e : NodeRef) : Client (maybe e)
  | star (e : NodeRef) : Client (star e)
  | select (es : List NodeRef) : Client (select es)
  | join (es : List NodeRef) : Client (join es)
  | literal (s : String) : Client (literal s)
  | tokenRange (lo hi : Token) : Client (tokenRange lo hi)
  | consume (e : NodeRef) : Client (consume e)
  | copy (e : NodeRef) : Client (copy e)
  | node (e : NodeRef) : Client (node e)
  | isTerminal (e : NodeRef) : Client (isTerminal e)
  | isInstalled (e : NodeRef) : Client (isInstalled e)
  | rule (name : String) : Client (rule name)
  | call (k : RuleRef) : Client (call k)
  | hasBody (k : RuleRef) : Client (hasBody k)
  | setBody (k : RuleRef) (e : NodeRef) : Client (setBody k e)
  | define (name : String) {body : RuleRef → BuildM NodeRef} (h : ∀ k, Client (body k)) :
    Client (define name body)

namespace Client

theorem mapM {f : α → BuildM β} (h : ∀ a, Client (f a)) (xs : List α) : Client (xs.mapM f) := by
  induction xs with
  | nil => exact .pure []
  | cons x xs ih =>
    rw [List.mapM_cons]
    exact (h x).bind fun y => ih.bind fun ys => .pure (y :: ys)

/-- Whatever a client does, it changes the builder by steps. -/
theorem stepwise (h : Client act) : Stepwise act := by
  induction h with
  | pure a => exact .pure a
  | bind _ _ ih ih' => exact ih.bind ih'
  | attempt _ ih => exact ih
  | token test => exact (nodewise_token test).stepwise
  | eps => exact nodewise_eps.stepwise
  | alt l r => exact (nodewise_alt l r).stepwise
  | seq l r => exact (nodewise_seq l r).stepwise
  | conj l r => exact (nodewise_conj l r).stepwise
  | plus e => exact (nodewise_plus e).stepwise
  | maybe e => exact (nodewise_maybe e).stepwise
  | star e => exact (nodewise_star e).stepwise
  | select es => exact (nodewise_select es).stepwise
  | join es => exact (nodewise_join es).stepwise
  | literal s => exact (nodewise_literal s).stepwise
  | tokenRange lo hi => exact (nodewise_tokenRange lo hi).stepwise
  | consume e => exact (nodewise_consume e).stepwise
  | copy e => exact (nodewise_copy e).stepwise
  | node e => exact along_node e
  | isTerminal e => exact along_isTerminal e
  | isInstalled e => exact along_isInstalled e
  | rule name => exact stepwise_rule name
  | call k => exact (nodewise_call k).stepwise
  | hasBody k => exact (along_ruleDecl k).bind fun _ => .pure _
  | setBody k e => exact stepwise_setBody k e
  | define name h ih =>
    exact (stepwise_rule name).bind fun k => (ih k).bind fun e => (stepwise_setBody k e).bind
      fun _ => .pure k

private theorem safe_of_unchanged (h : ∀ b, (act b).2 = b) : Safe act := by
  intro b hb
  rw [h]
  cases (act b).1 <;> exact hb

/-- Whatever a client does, the builder stays sound. -/
theorem safe (h : Client act) : Safe act := by
  have hslot : ∀ e, Safe (slot e) := fun e => safe_of_unchanged fun b => by rw [slot_apply]
  have hnode : ∀ e, Safe (Builder.node e) := fun e => (hslot e).bind fun _ => .pure _
  induction h with
  | pure a => exact .pure a
  | bind _ _ ih ih' => exact ih.bind ih'
  | attempt _ ih => exact fun b hb => ih.run hb
  | token test => exact safe_token test
  | eps => exact safe_eps
  | alt l r => exact safe_alt l r
  | seq l r => exact safe_seq l r
  | conj l r => exact safe_conj l r
  | plus e => exact safe_plus e
  | maybe e => exact safe_maybe e
  | star e => exact safe_star e
  | select es => exact safe_select es
  | join es => exact safe_join es
  | literal s => exact safe_literal s
  | tokenRange lo hi => exact safe_tokenRange lo hi
  | consume e => exact safe_consume e
  | copy e => exact safe_copy e
  | node e => exact hnode e
  | isTerminal e => exact (hslot e).bind fun _ => .pure _
  | isInstalled e => exact (hslot e).bind fun _ => .pure _
  | rule name => exact safe_rule name
  | call k => exact safe_call k
  | hasBody k =>
    have hdecl : Safe (ruleDecl k) := safe_of_unchanged fun b => by rw [ruleDecl_apply]
    exact hdecl.bind fun _ => .pure _
  | setBody k e => exact safe_setBody k e
  | define name _ ih =>
    exact (safe_rule name).bind fun k => (ih k).bind fun e =>
      (safe_setBody k e).bind fun _ => .pure k

end Client

end TokenGrammar.Builder
