import TokenGrammar.Proofs.LinearUse
import TokenGrammar.Proofs.Trees

/-!
# Rules get their bodies in a second phase

Several builders may be in use at a time, with handles of one of them given to another. Whatever has
been done with them, a body is refused for a foreign handle or a rule that has a body, and the
refusal changes nothing; a body that has been set stays; a definition that fails sets none. A grammar
is finished when its root is the builder's own and every rule has a body, and refers to nothing of
another builder.
-/

namespace TokenGrammar

/-- Every handle in the grammar names one of its own nodes or rules. -/
structure Grammar.SelfContained (g : Grammar) : Prop where
  node : ∀ {i : Nat} {e : Expr}, g.nodes[i]? = some e → e.ref = ⟨g.id, i⟩
  operand : ∀ {i : Nat} {e : Expr}, g.nodes[i]? = some e → ∀ c ∈ e.operands,
    c.ref.owner = g.id ∧ g.nodes[c.ref.index]? = some c
  callee : ∀ {i : Nat} {e : Expr} {k : RuleRef}, g.nodes[i]? = some e → e.callee? = some k →
    k.owner = g.id ∧ k.index < g.rules.size
  top : ∀ {k : Option Nat} {e : Expr}, g.top? k = some e →
    e.ref.owner = g.id ∧ g.nodes[e.ref.index]? = some e

namespace Builder

variable {α : Type} {b b' : Builder} {held kept : List Expr}

/-- Rules keep their names and the bodies that they have. -/
def Retains (b b' : Builder) : Prop :=
  ∀ r d, b.ruleDecl? r = some d →
    ∃ d', b'.ruleDecl? r = some d' ∧ d'.name = d.name ∧ ∀ e, d.body = some e → d'.body = some e

theorem Retains.refl (b : Builder) : Retains b b := fun _ d hd => ⟨d, hd, rfl, fun _ he => he⟩

theorem Retains.trans {b'' : Builder} (h : Retains b b') (h' : Retains b' b'') : Retains b b'' := by
  intro r d hd
  obtain ⟨d', hd', hn, hb⟩ := h r d hd
  obtain ⟨d'', hd'', hn', hb'⟩ := h' r d' hd'
  exact ⟨d'', hd'', hn'.trans hn, fun e he => hb' e (hb e he)⟩

private theorem retains_modify {k : RuleRef} {d d' : RuleDecl} {slots : Array Slot}
    (hd : b.ruleDecl? k = some d) (hn : d'.name = d.name)
    (hb : ∀ e, d.body = some e → d'.body = some e) :
    Retains b { b with slots, rules := b.rules.modify k.index fun _ => d' } := by
  intro r dr hr
  obtain ⟨ho, hr⟩ := ruleDecl?_eq_some_iff.1 hr
  have hk := (ruleDecl?_eq_some_iff.1 hd).2
  by_cases hi : k.index = r.index
  · obtain rfl : d = dr := Option.some.inj (hk.symm.trans (hi ▸ hr))
    refine ⟨d', ruleDecl?_eq_some_iff.2 ⟨ho, ?_⟩, hn, hb⟩
    exact (getElem?_modify_rules (by simp [hk])).trans (if_pos hi)
  · refine ⟨dr, ruleDecl?_eq_some_iff.2 ⟨ho, ?_⟩, rfl, fun _ he => he⟩
    exact ((getElem?_modify_rules (by simp [hk])).trans (if_neg hi)).trans hr

theorem Step.retains (h : Step b b') : Retains b b' := by
  cases h with
  | node | mark => exact fun _ d hd => ⟨d, hd, rfl, fun _ he => he⟩
  | call hk => exact retains_modify hk rfl fun _ he => he
  | rule name =>
    intro r d hd
    obtain ⟨ho, hd⟩ := ruleDecl?_eq_some_iff.1 hd
    obtain ⟨hlt, rfl⟩ := Array.getElem?_eq_some_iff.1 hd
    exact ⟨_, ruleDecl?_eq_some_iff.2 ⟨ho, Array.getElem?_push_lt hlt⟩, rfl, fun _ he => he⟩
  | body hk hb x => exact retains_modify hk rfl fun e he => by simp [hb] at he

theorem Steps.retains (h : Steps b b') : Retains b b' :=
  h.keep (fun hb h => hb.trans h.retains) (.refl b)

theorem Tagged.stands (h : Tagged b) (hs : Sound held kept b) {r : NodeRef} (hr : b.owns r = true) :
    ∃ s, b.Stands r s := by
  obtain ⟨s, he⟩ := Option.isSome_iff_exists.1 hr
  have ho : r.owner = b.id := by
    by_contra ho
    simp [slot?, ho] at he
  have he : b.slots[r.index]? = some s := by simpa [slot?, ho] using he
  have href : s.expr.ref = r := (h.ref_of_slot he).trans (by rw [← ho])
  refine ⟨s.expr.shape, s.expr, href, fun x hx => ?_, rfl⟩
  obtain ⟨f, hx'⟩ := (hs.stored_part (hs.stored_slot he) hx).1
  have hget : b.exprs[x.ref.index]? = some x := by rw [getElem?_exprs, hx']; rfl
  refine ⟨node?_eq_some_iff.2 ⟨congrArg (·.owner) (h.ref_of_slot hx'), hget⟩, fun k hk => ?_⟩
  obtain ⟨hko, hlt⟩ := h.callee hget hk
  simp [ownsRule, ruleDecl?, hko, hlt]

theorem hasBody_of_ruleDecl {k : RuleRef} {d : RuleDecl} (hd : b.ruleDecl? k = some d) :
    hasBody k b = (.ok d.body.isSome, b) := by
  rw [hasBody, bind_apply, ruleDecl_apply, hd]
  rfl

theorem Tagged.setBody_ok (h : Tagged b) (hs : Sound held kept b) {k : RuleRef} {e : NodeRef}
    (hk : b.ownsRule k = true) (he : b.owns e = true) (hb : (hasBody k b).1 ≠ .ok true) :
    (setBody k e b).1 = .ok () := by
  obtain ⟨d, hd⟩ := Option.isSome_iff_exists.1 hk
  obtain ⟨s, hstands⟩ := h.stands hs he
  have hfree : d.body = none := by simpa [hasBody_of_ruleDecl hd] using hb
  obtain ⟨_, _, _, -, -, -, -, -, -, hset⟩ := hstands.setBody_ok hd hfree
  rw [hset]

/-- Why a body may be refused. -/
def Refuses (b : Builder) (k : RuleRef) (e : NodeRef) : Prop :=
  b.ownsRule k = false ∨ b.owns e = false ∨ (hasBody k b).1 = .ok true

theorem setBody_refused {k : RuleRef} {e : NodeRef} (h : b.Refuses k e) :
    ∃ cause, setBody k e b = (.error (.refusal cause), b) := by
  cases hk : b.ruleDecl? k with
  | none => exact ⟨_, setBody_foreign_rule hk⟩
  | some d =>
    cases he : b.owns e with
    | false => exact ⟨_, setBody_foreign_body hk he⟩
    | true =>
      cases hb : d.body with
      | some x => exact ⟨_, setBody_taken hk he hb⟩
      | none =>
        exfalso
        rcases h with hno | hno | hno
        · simp [ownsRule, hk] at hno
        · simp [he] at hno
        · simp [hasBody_of_ruleDecl hk, hb] at hno

/-- What one request does. -/
def RequestStep (b b' : Builder) : Prop := ∃ q : Request, b' = (q.action b).2

/-- What the action does to a builder is what some requests do to it. -/
abbrev Served (act : BuildM α) : Prop := Along RequestStep act

theorem Served.exists_requests {act : BuildM α} (h : Served act) (b : Builder) :
    ∃ requests, (act b).2 = b.serve requests := by
  have hb := h b
  generalize (act b).2 = b' at hb
  induction hb with
  | refl => exact ⟨[], rfl⟩
  | tail _ h ih =>
    obtain ⟨requests, rfl⟩ := ih
    obtain ⟨q, rfl⟩ := h
    refine ⟨requests ++ [q], ?_⟩
    rw [serve, serve, List.foldl_append]
    rfl

private theorem served_of_request {act : BuildM α} {q : Request} (h : q.action = discard act) :
    Served act := by
  refine fun b => .single ⟨q, ?_⟩
  rw [h]
  show (act b).2 = ((act >>= fun _ => pure ()) b).2
  rw [bind_apply]
  cases (act b).1 <;> rfl

theorem served_rule (name : String) : Served (rule name) := served_of_request (q := .rule name) rfl

theorem served_setBody (k : RuleRef) (e : NodeRef) : Served (setBody k e) :=
  fun _ => .single ⟨.setBody k e, rfl⟩

/-- Whatever a client does to a builder, the builder could have been asked to do. -/
theorem Client.served {act : BuildM α} (h : Client act) : Served act := by
  induction h with
  | pure a => exact .pure a
  | bind _ _ ih ih' => exact ih.bind ih'
  | attempt _ ih => exact ih
  | token test => exact served_of_request (q := .token test) rfl
  | eps => exact served_of_request (q := .eps) rfl
  | alt l r => exact served_of_request (q := .alt l r) rfl
  | seq l r => exact served_of_request (q := .seq l r) rfl
  | conj l r => exact served_of_request (q := .conj l r) rfl
  | plus e => exact served_of_request (q := .plus e) rfl
  | maybe e => exact served_of_request (q := .maybe e) rfl
  | star e => exact served_of_request (q := .star e) rfl
  | select es => exact served_of_request (q := .select es) rfl
  | join es => exact served_of_request (q := .join es) rfl
  | literal s => exact served_of_request (q := .literal s) rfl
  | tokenRange lo hi => exact served_of_request (q := .tokenRange lo hi) rfl
  | consume e => exact served_of_request (q := .consume e) rfl
  | copy e => exact served_of_request (q := .copy e) rfl
  | node e => exact along_node e
  | isTerminal e => exact along_isTerminal e
  | isInstalled e => exact along_isInstalled e
  | rule name => exact served_rule name
  | call k => exact served_of_request (q := .call k) rfl
  | hasBody k => exact (along_ruleDecl k).bind fun _ => .pure _
  | setBody k e => exact served_setBody k e
  | define name _ ih =>
    exact (served_rule name).bind fun k => (ih k).bind fun e =>
      (served_setBody k e).bind fun _ => .pure k

/-- The rule is declared under a name and has no body. -/
def Bare (b : Builder) (k : RuleRef) (name : String) : Prop :=
  k.owner = b.id ∧ b.declared[k.index]? = some (name, none)

theorem Request.cases_nodewise (q : Request) :
    (∃ name, q = .rule name) ∨ (∃ k e, q = .setBody k e) ∨ Nodewise q.action := by
  have hdiscard : ∀ {β : Type} {act : BuildM β}, Nodewise act → Nodewise (discard act) :=
    fun h => h.bind fun _ => .pure ()
  cases q with
  | rule name => exact .inl ⟨name, rfl⟩
  | setBody k e => exact .inr (.inl ⟨k, e, rfl⟩)
  | token test => exact .inr (.inr (hdiscard (nodewise_token test)))
  | eps => exact .inr (.inr (hdiscard nodewise_eps))
  | alt l r => exact .inr (.inr (hdiscard (nodewise_alt l r)))
  | seq l r => exact .inr (.inr (hdiscard (nodewise_seq l r)))
  | conj l r => exact .inr (.inr (hdiscard (nodewise_conj l r)))
  | plus e => exact .inr (.inr (hdiscard (nodewise_plus e)))
  | maybe e => exact .inr (.inr (hdiscard (nodewise_maybe e)))
  | star e => exact .inr (.inr (hdiscard (nodewise_star e)))
  | select es => exact .inr (.inr (hdiscard (nodewise_select es)))
  | join es => exact .inr (.inr (hdiscard (nodewise_join es)))
  | literal s => exact .inr (.inr (hdiscard (nodewise_literal s)))
  | tokenRange lo hi => exact .inr (.inr (hdiscard (nodewise_tokenRange lo hi)))
  | consume e => exact .inr (.inr (hdiscard (nodewise_consume e)))
  | copy e => exact .inr (.inr (hdiscard (nodewise_copy e)))
  | call k => exact .inr (.inr (hdiscard (nodewise_call k)))

theorem Bare.of_nodeSteps {k : RuleRef} {name : String} (h : b.Bare k name) (hb : NodeSteps b b') :
    b'.Bare k name :=
  ⟨h.1.trans hb.steps.extend.id.symm, (congrArg (·[k.index]?) hb.declared_eq).trans h.2⟩

theorem bare_rule (name : String) (b : Builder) :
    (rule name b).2.Bare ⟨b.id, b.rules.size⟩ name := by
  refine ⟨rfl, ?_⟩
  rw [getElem?_declared]
  show Option.map _ (b.rules.push _)[b.rules.size]? = _
  rw [Array.getElem?_push_size]
  rfl

/-- A rule without a body has none after a request, unless this is a request to set it. -/
theorem Bare.action {k : RuleRef} {name : String} (h : b.Bare k name) {q : Request}
    (hq : ∀ e, q ≠ .setBody k e) : (q.action b).2.Bare k name := by
  rcases q.cases_nodewise with ⟨name', rfl⟩ | ⟨k', e, rfl⟩ | hnode
  · refine ⟨h.1, ?_⟩
    have hpush : (Request.action (.rule name') b).2.declared = b.declared ++ [(name', none)] := by
      show List.map _ (b.rules.push _).toList = _
      simp [declared]
    rw [hpush, List.getElem?_append_left (List.getElem?_eq_some_iff.1 h.2).1, h.2]
  · show (setBody k' e b).2.Bare k name
    obtain ⟨b₁, hb₁, hsame | ⟨d, tree, hk', -, hset⟩⟩ := setBody_snd k' e b
    · rw [hsame]
      exact h.of_nodeSteps hb₁
    · obtain ⟨ho, hk⟩ := h.of_nodeSteps hb₁
      obtain ⟨ho', hd⟩ := ruleDecl?_eq_some_iff.1 hk'
      have hne : k'.index ≠ k.index := by
        intro hi
        obtain ⟨o, i⟩ := k
        obtain ⟨o', i'⟩ := k'
        obtain rfl : o' = o := ho'.trans ho.symm
        obtain rfl : i' = i := hi
        exact hq e rfl
      rw [hset]
      refine ⟨ho, ?_⟩
      rw [declared_modify hd, List.getElem?_set_ne hne, hk]
  · exact h.of_nodeSteps (hnode b)

theorem Bare.serve {k : RuleRef} {name : String} (h : b.Bare k name) {requests : List Request}
    (hq : ∀ e, .setBody k e ∉ requests) : (b.serve requests).Bare k name := by
  induction requests generalizing b with
  | nil => exact h
  | cons q requests ih =>
    exact ih (h.action fun e he => hq e (he ▸ List.mem_cons_self)) fun e he =>
      hq e (List.mem_cons_of_mem q he)

theorem closeRules_error {ds : List RuleDecl} {f : Failure} (h : closeRules ds = .error f) :
    ∃ (i : Nat) (d : RuleDecl), ds[i]? = some d ∧ d.body = none ∧
      (∀ (j : Nat) (d' : RuleDecl), j < i → ds[j]? = some d' → d'.body ≠ none) ∧
        f = .refusal (.missingBody d.name) := by
  induction ds with
  | nil => cases h
  | cons d ds ih =>
    rw [closeRules] at h
    cases hd : d.body with
    | none =>
      rw [hd] at h
      refine ⟨0, d, rfl, hd, fun j d' hj => absurd hj (Nat.not_lt_zero j), ?_⟩
      exact (Except.error.inj h).symm
    | some e =>
      rw [hd] at h
      cases hds : closeRules ds with
      | ok rules =>
        rw [hds] at h
        cases h
      | error f' =>
        rw [hds] at h
        obtain rfl : f' = f := Except.error.inj h
        obtain ⟨i, d', hi, hb, hfirst, hf⟩ := ih hds
        refine ⟨i + 1, d', hi, hb, fun j d'' hj hd'' => ?_, hf⟩
        cases j with
        | zero =>
          obtain rfl := Option.some.inj hd''
          simp [hd]
        | succ j => exact hfirst j d'' (Nat.lt_of_succ_lt_succ hj) hd''

theorem finalize_foreign {root : NodeRef} (hr : b.owns root = false) :
    b.finalize root = .error (.refusal (.foreignRoot root)) := by
  show ((close root) b).1 = _
  rw [close, bind_apply]
  show ((if (!b.owns root) = true then _ else _ : BuildM Grammar) b).1 = _
  simp only [hr, Bool.not_false]
  rfl

namespace Tagged

variable (h : Tagged b) (hs : Sound [] [] b)
include h hs

theorem setBody_failed {k : RuleRef} {e : NodeRef} {f : Failure}
    (hf : (setBody k e b).1 = .error f) : b.Refuses k e ∧ (∃ cause, f = .refusal cause) ∧
      (setBody k e b).2 = b := by
  by_cases hr : b.Refuses k e
  · obtain ⟨cause, hcause⟩ := setBody_refused hr
    rw [hcause] at hf ⊢
    exact ⟨hr, ⟨cause, (Except.error.inj hf).symm⟩, rfl⟩
  · simp only [Refuses, not_or, Bool.not_eq_false] at hr
    rw [h.setBody_ok hs hr.1 hr.2.1 hr.2.2] at hf
    cases hf

/-- With a root of its own, a builder is finished unless a rule has no body. -/
theorem finalize_own {root : NodeRef} (hr : b.owns root = true) :
    (∃ g, b.finalize root = .ok g ∧
      g.rules.toList.map (fun r => (r.name, some r.body)) = b.declared) ∨
    ∃ (i : Nat) (name : String), b.declared[i]? = some (name, none) ∧
      (∀ (j : Nat) (name' : String), j < i → b.declared[j]? ≠ some (name', none)) ∧
      b.finalize root = .error (.refusal (.missingBody name)) := by
  obtain ⟨s, hstands⟩ := h.stands hs hr
  obtain ⟨e, b', htake, hb', -⟩ := makes_take hstands
  have hfin := finalize_eq hr htake
  cases hc : closeRules b'.rules.toList with
  | ok rules =>
    rw [hc] at hfin
    exact .inl ⟨_, hfin, (closeRules_iff.1 hc).symm.trans hb'.declared⟩
  | error f =>
    rw [hc] at hfin
    obtain ⟨i, d, hi, hb, hfirst, rfl⟩ := closeRules_error hc
    rw [← hb'.declared]
    refine .inr ⟨i, d.name, ?_, fun j name' hj hname => ?_, hfin⟩
    · rw [declared, List.getElem?_map, hi, ← hb]
      rfl
    · rw [declared, List.getElem?_map] at hname
      obtain ⟨d', hd', hpair⟩ := Option.map_eq_some_iff.1 hname
      exact hfirst j d' hj hd' (congrArg Prod.snd hpair)

omit hs in
theorem selfContained_finished {e : Expr} {rules : List Rule}
    (hg : (b.finished rules e).WellFormed) : (b.finished rules e).SelfContained where
  node hx := by
    have ho := h.owner_finished hx
    have hi := hg.index hx
    exact congrArg₂ NodeRef.mk ho hi
  operand hx c hc :=
    have hs := (hg.operand hx c hc).1
    ⟨h.owner_finished hs, hs⟩
  callee {i x k} hx hk := by
    refine ⟨?_, hg.callee hx hk⟩
    rcases mem_finished_iff.1 hx with ⟨s, hs, rfl⟩ | ⟨-, rfl⟩
    · exact (h.callee (by rw [getElem?_exprs, hs]; rfl) hk).1
    · cases hk
  top hx :=
    have hs := (hg.top hx).1
    ⟨h.owner_finished hs, hs⟩

theorem selfContained_of_finalize {root : NodeRef} {g : Grammar} (hf : b.finalize root = .ok g) :
    g.SelfContained ∧ g.id = b.id := by
  have hclose := does_close root b hs
  have hsteps := stepwise_close root b
  rw [show (close root b).1 = .ok g from hf] at hclose
  obtain ⟨e, rules, hs', hr, rfl⟩ := hclose
  exact ⟨(h.steps hsteps).selfContained_finished (wellFormed_finished hs' hr),
    (Steps.extend hsteps).id⟩

end Tagged

/-- What rules, bodies and finishing have to do with each other. -/
structure TwoPhase (b : Builder) : Prop where
  setBody_refused_iff : ∀ k e,
    (∃ cause, (setBody k e b).1 = .error (.refusal cause)) ↔ b.Refuses k e
  /-- Setting a body fails in no other way, and changes nothing then. -/
  setBody_failed : ∀ k e f, (setBody k e b).1 = .error f →
    (∃ cause, f = .refusal cause) ∧ (setBody k e b).2 = b
  /-- A definition that fails leaves the rule declared and everything else as the closure has left
  it. The rule has no body, unless the closure was asking for one itself. -/
  define_failed : ∀ name (closure : RuleRef → BuildM NodeRef) f, (∀ k, Client (closure k)) →
    (define name closure b).1 = .error f → ∃ d,
      (define name closure b).2.ruleDecl? ⟨b.id, b.rules.size⟩ = some d ∧ d.name = name ∧
      (define name closure b).2 = (closure ⟨b.id, b.rules.size⟩ (rule name b).2).2 ∧
      (∃ requests, (define name closure b).2 = (rule name b).2.serve requests) ∧
      ∀ requests, (define name closure b).2 = (rule name b).2.serve requests →
        d.body = none ∨ ∃ e, .setBody ⟨b.id, b.rules.size⟩ e ∈ requests
  finalize_refused_iff : ∀ root, (∃ cause, b.finalize root = .error (.refusal cause)) ↔
    b.owns root = false ∨ ∃ name, (name, none) ∈ b.declared
  /-- Finishing fails in no other way, and names the first rule without a body. -/
  finalize_failed : ∀ root f, b.finalize root = .error f →
    b.owns root = false ∧ f = .refusal (.foreignRoot root) ∨
      b.owns root = true ∧ ∃ (i : Nat) (name : String), b.declared[i]? = some (name, none) ∧
        (∀ (j : Nat) (name' : String), j < i → b.declared[j]? ≠ some (name', none)) ∧
          f = .refusal (.missingBody name)
  finalize_ok : ∀ root g, b.finalize root = .ok g → g.SelfContained ∧ g.id = b.id ∧
    g.rules.toList.map (fun r => (r.name, some r.body)) = b.declared

namespace Tagged

variable (h : Tagged b) (hs : Sound [] [] b)
include h hs

/-- A definition that fails stops after the closure. -/
theorem define_failed {name : String} {closure : RuleRef → BuildM NodeRef} {f : Failure}
    (hc : ∀ k, Client (closure k)) (hf : (define name closure b).1 = .error f) :
    (define name closure b).2 = (closure ⟨b.id, b.rules.size⟩ (rule name b).2).2 := by
  have hclient : Client (do closure (← rule name)) := .bind (.rule name) hc
  have htag : Tagged (closure ⟨b.id, b.rules.size⟩ (rule name b).2).2 :=
    h.steps (hclient.stepwise b)
  have hsound : Sound [] [] (closure ⟨b.id, b.rules.size⟩ (rule name b).2).2 := hclient.safe.run hs
  have hrule : rule name b = (.ok ⟨b.id, b.rules.size⟩, (rule name b).2) := rfl
  rw [define, bind_apply, hrule] at hf ⊢
  dsimp only at hf ⊢
  rw [bind_apply] at hf ⊢
  cases hbody : (closure ⟨b.id, b.rules.size⟩ (rule name b).2).1 with
  | error f' => rfl
  | ok e =>
    simp only [hbody] at hf ⊢
    rw [bind_apply] at hf ⊢
    cases hset : (setBody ⟨b.id, b.rules.size⟩ e
        (closure ⟨b.id, b.rules.size⟩ (rule name b).2).2).1 with
    | error f' => exact (htag.setBody_failed hsound hset).2.2
    | ok =>
      rw [hset] at hf
      cases hf

theorem twoPhase : TwoPhase b where
  setBody_refused_iff k e := by
    refine ⟨fun ⟨cause, hcause⟩ => (h.setBody_failed hs hcause).1, fun hr => ?_⟩
    obtain ⟨cause, hcause⟩ := setBody_refused hr
    exact ⟨cause, congrArg Prod.fst hcause⟩
  setBody_failed k e f hf := (h.setBody_failed hs hf).2
  define_failed name closure f hc hf := by
    have hleft := h.define_failed hs hc hf
    have hbare := bare_rule name b
    obtain ⟨d, hd, hname, -⟩ := Steps.retains ((hc ⟨b.id, b.rules.size⟩).stepwise (rule name b).2)
      ⟨b.id, b.rules.size⟩ ⟨name, none, 0⟩ (by
        rw [ruleDecl?_eq_some_iff]
        exact ⟨rfl, Array.getElem?_push_size⟩)
    rw [hleft]
    refine ⟨d, hd, hname, rfl, ((hc _).served.exists_requests _), fun requests hreq => ?_⟩
    by_cases hset : ∃ e, .setBody ⟨b.id, b.rules.size⟩ e ∈ requests
    · exact .inr hset
    · have hfree := (hbare.serve fun e he => hset ⟨e, he⟩).2
      rw [← hreq, getElem?_declared, (ruleDecl?_eq_some_iff.1 hd).2] at hfree
      exact .inl (Prod.mk.inj (Option.some.inj hfree)).2
  finalize_refused_iff root := by
    cases hr : b.owns root with
    | false => simp [finalize_foreign hr]
    | true =>
      rcases h.finalize_own hs hr with ⟨g, hg, hrules⟩ | ⟨i, name, hi, -, hf⟩
      · simp [hg, ← hrules]
      · simpa [hf] using ⟨name, List.mem_of_getElem? hi⟩
  finalize_failed root f hf := by
    cases hr : b.owns root with
    | false =>
      rw [finalize_foreign hr] at hf
      exact .inl ⟨rfl, (Except.error.inj hf).symm⟩
    | true =>
      rcases h.finalize_own hs hr with ⟨g, hg, -⟩ | ⟨i, name, hi, hfirst, hf'⟩
      · rw [hg] at hf
        cases hf
      · rw [hf'] at hf
        exact .inr ⟨rfl, i, name, hi, hfirst, (Except.error.inj hf).symm⟩
  finalize_ok root g hg := by
    obtain ⟨hself, hid⟩ := h.selfContained_of_finalize hs hg
    refine ⟨hself, hid, ?_⟩
    cases hr : b.owns root with
    | false =>
      rw [finalize_foreign hr] at hg
      cases hg
    | true =>
      rcases h.finalize_own hs hr with ⟨g', hg', hrules⟩ | ⟨i, name, -, -, hf⟩
      · obtain rfl : g' = g := Except.ok.inj (hg'.symm.trans hg)
        exact hrules
      · rw [hf] at hg
        cases hg

end Tagged

/-- Gives the rule a body and then returns another node to be its body. -/
def settingItself (k : RuleRef) : BuildM NodeRef := do
  let a ← token (.equal 97)
  let c ← token (.equal 98)
  setBody k a
  return c

end Builder

/-- Builders in use, each with its place as its number. -/
abbrev Workshop := List Builder

namespace Workshop

open Builder (Client Extends Retains Sound Steps Tagged TwoPhase)

variable {w w' : Workshop} {b : Builder} {k : Nat}

/-- A builder is made, or someone works with one of them, with whatever handles. -/
inductive Move : Workshop → Workshop → Prop
  | new (w : Workshop) : Move w (w ++ [Builder.new w.length])
  | work {w : Workshop} {k : Nat} {b : Builder} (hb : w[k]? = some b) {α : Type} {act : BuildM α}
    (h : Client act) : Move w (w.set k (act b).2)

/-- Any number of moves, in any order. -/
abbrev Moves : Workshop → Workshop → Prop := Relation.ReflTransGen Move

/-- Every builder is in order and has its place as its number. -/
private def InOrder (w : Workshop) : Prop :=
  ∀ (k : Nat) (b : Builder), w[k]? = some b → Tagged b ∧ Sound [] [] b ∧ b.id = k

private theorem InOrder.move (h : InOrder w) (hw : Move w w') : InOrder w' := by
  cases hw with
  | new =>
    intro k b hb
    rw [List.getElem?_append] at hb
    split at hb
    · exact h k b hb
    · rename_i hk
      obtain ⟨hlt, hget⟩ := List.getElem?_eq_some_iff.1 hb
      rw [List.length_singleton] at hlt
      obtain rfl : k = w.length := by omega
      obtain rfl : Builder.new w.length = b := by simpa using hget
      exact ⟨.new _, Builder.sound_new _, rfl⟩
  | @work k' b' hb' α act hact =>
    intro k b hb
    rw [List.getElem?_set] at hb
    split at hb
    · rename_i hk
      subst hk
      obtain ⟨htag, hs, hid⟩ := h k' b' hb'
      split at hb
      · obtain rfl := Option.some.inj hb
        have hsteps := hact.stepwise b'
        exact ⟨htag.steps hsteps, hact.safe.run hs, (Steps.extend hsteps).id.trans hid⟩
      · cases hb
    · exact h k b hb

private theorem inOrder_of_moves (hw : Moves [] w) : InOrder w := by
  induction hw with
  | refl => exact fun k b hb => by simp at hb
  | tail _ h ih => exact ih.move h

/-- Whatever happens, a builder changes by steps. -/
theorem Moves.steps (hw : Moves w w') (hb : w[k]? = some b) :
    ∃ b', w'[k]? = some b' ∧ Steps b b' := by
  induction hw with
  | refl => exact ⟨b, hb, .refl⟩
  | @tail w₁ w₂ _ h ih =>
    obtain ⟨b₁, hb₁, hsteps⟩ := ih
    cases h with
    | new => exact ⟨b₁, by rw [List.getElem?_append_left (List.getElem?_eq_some_iff.1 hb₁).1, hb₁],
        hsteps⟩
    | @work k' b' hb' α act hact =>
      by_cases hk : k' = k
      · subst hk
        obtain rfl : b' = b₁ := Option.some.inj (hb'.symm.trans hb₁)
        exact ⟨_, List.getElem?_set_self (List.getElem?_eq_some_iff.1 hb₁).1,
          hsteps.trans (hact.stepwise b')⟩
      · exact ⟨b₁, by rw [List.getElem?_set_ne hk, hb₁], hsteps⟩

/-- A rule that is refused a node of another builder as its body, and then given one of its own. -/
def refusedThenSet : BuildM Unit := do
  let r ← Builder.rule "r"
  let a ← Builder.token (.equal 97)
  let _ ← Builder.attempt (Builder.setBody r ⟨1, 0⟩)
  Builder.setBody r a

/-- A node that is refused as the body of a rule of another builder, next to a rule without one. -/
def refusedAndOpen : BuildM Unit := do
  let _ ← Builder.rule "s"
  let b ← Builder.token (.equal 98)
  let _ ← Builder.attempt (Builder.setBody ⟨0, 0⟩ b)

end Workshop

end TokenGrammar
