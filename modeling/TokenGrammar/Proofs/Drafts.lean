import TokenGrammar.Proofs.LanguageEquations
import TokenGrammar.Proofs.Trees

/-!
# Drafts of grammars

A draft is a builder whose trees are plain and whose rules have certain shapes as their bodies so
far. Programs are followed from draft to draft, over their loops as well, until every rule has a body
and the grammar is finished.
-/

namespace TokenGrammar

/-- What is seen of a grammar without its handles: whether it is valid, and the shapes of the bodies
and of the root. -/
def Grammar.outline (g : Grammar) : Except Failure Unit × List Shape × Shape :=
  (g.validate, g.rules.toList.map fun r => r.body.shape, g.root.shape)

namespace Builder

variable {α β : Type} {b b' : Builder} {e : Expr}

abbrev PlainTree (e : Expr) : Prop := e.shape.plain = true

def Plain (b : Builder) : Prop := ∀ e ∈ b.exprs, PlainTree e

/-- Where all trees are plain the action makes plain trees only, and what it returns is good. -/
def Plainly (act : BuildM α) (good : α → Prop) : Prop :=
  ∀ b : Builder, b.Plain → (act b).2.Plain ∧ ∀ a, (act b).1 = .ok a → good a

namespace Plainly

variable {act : BuildM α} {next : α → BuildM β} {good : α → Prop} {good' : β → Prop}

theorem pure {a : α} (h : good a) : Plainly (Pure.pure a) good :=
  fun _ hb => ⟨hb, fun _ ha => Except.ok.inj ha ▸ h⟩

theorem bind (h : Plainly act good) (h' : ∀ a, good a → Plainly (next a) good') :
    Plainly (act >>= next) good' := by
  intro b hb
  obtain ⟨hb', hgood⟩ := h b hb
  rw [bind_apply]
  cases hact : (act b).1 with
  | ok a => exact h' a (hgood a hact) _ hb'
  | error f => exact ⟨hb', fun a ha => by cases ha⟩

theorem of_unchanged (h : ∀ b, (act b).2.exprs = b.exprs)
    (hgood : ∀ b : Builder, b.Plain → ∀ a, (act b).1 = .ok a → good a) : Plainly act good := by
  refine fun b hb => ⟨?_, hgood b hb⟩
  unfold Plain
  rwa [h]

end Plainly

theorem plainly_slot (r : NodeRef) : Plainly (slot r) fun s => PlainTree s.expr := by
  refine .of_unchanged (fun b => by rw [slot_apply]) fun b hb s hs => ?_
  rw [slot_apply] at hs
  cases hslot : b.slot? r with
  | none =>
    rw [hslot] at hs
    cases hs
  | some s' =>
    rw [hslot] at hs
    obtain rfl := Except.ok.inj hs
    have hnode : b.node? r = some s'.expr := by rw [node?, hslot]; rfl
    exact hb _ (List.mem_of_getElem? (node?_eq_some_iff.1 hnode).2)

theorem plainly_ruleDecl (k : RuleRef) : Plainly (ruleDecl k) fun _ => True :=
  .of_unchanged (fun b => by rw [ruleDecl_apply]) fun _ _ _ _ => trivial

theorem plainly_mark (r : NodeRef) : Plainly (markInstalled r) fun _ => True :=
  .of_unchanged (fun _ => exprs_mark _) fun _ _ _ _ => trivial

theorem plainly_setRule (k : RuleRef) (d : RuleDecl) : Plainly (setRule k d) fun _ => True :=
  .of_unchanged (fun _ => rfl) fun _ _ _ _ => trivial

theorem plainly_add {make : NodeRef → Expr} (h : ∀ r, PlainTree (make r)) :
    Plainly (add make) PlainTree := by
  intro b hb
  cases ht : (terminalFlag (make ⟨b.id, b.slots.size⟩) b).1 with
  | error f =>
    rw [add_error ht]
    exact ⟨hb, fun e he => by cases he⟩
  | ok t =>
    rw [add_ok ht]
    refine ⟨fun e he => ?_, fun e he => Except.ok.inj he ▸ h _⟩
    rw [exprs_push] at he
    rcases List.mem_append.1 he with he | he
    · exact hb e he
    · rw [List.mem_singleton.1 he]
      exact h _

theorem plainly_addCall (k : RuleRef) : Plainly (addCall k) PlainTree :=
  (plainly_ruleDecl k).bind fun _ _ => (plainly_setRule k _).bind fun _ _ =>
    plainly_add fun _ => rfl

theorem plainly_install {copied : BuildM Expr} (he : PlainTree e) (h : Plainly copied PlainTree) :
    Plainly (install e copied) PlainTree := by
  have hgive : ∀ c, PlainTree c → Plainly (do markInstalled c.ref; return c) PlainTree :=
    fun c hc => (plainly_mark _).bind fun _ _ => .pure hc
  have hflag : Plainly (isInstalled e.ref) fun _ => True :=
    (plainly_slot _).bind fun _ _ => .pure trivial
  refine hflag.bind fun i _ => ?_
  cases i with
  | true => exact h.bind hgive
  | false => exact hgive e he

theorem plainly_copyTree (he : PlainTree e) : Plainly (copyTree e) PlainTree := by
  have hpair : ∀ {s t : Shape}, (s.plain && t.plain) = true → s.plain = true ∧ t.plain = true :=
    fun h => Bool.and_eq_true_iff.1 h
  have hplus : ∀ c, PlainTree c → Plainly (add fun q => .plus q c) PlainTree :=
    fun c hc => plainly_add fun _ => hc
  induction e with
  | token q test => exact plainly_add fun _ => he
  | eps q => exact plainly_add fun _ => rfl
  | call q k site => exact plainly_addCall k
  | plus q x ih => exact (plainly_install (show PlainTree x from he) (ih he)).bind hplus
  | alt q x y ihx ihy =>
    obtain ⟨hx, hy⟩ := hpair he
    exact (plainly_install hx (ihx hx)).bind fun _ hl => (plainly_install hy (ihy hy)).bind
      fun _ hr => plainly_add fun _ => Bool.and_eq_true_iff.2 ⟨hl, hr⟩
  | seq q x y ihx ihy =>
    obtain ⟨hx, hy⟩ := hpair he
    exact (plainly_install hx (ihx hx)).bind fun _ hl => (plainly_install hy (ihy hy)).bind
      fun _ hr => plainly_add fun _ => Bool.and_eq_true_iff.2 ⟨hl, hr⟩
  | conj | endMark => cases he

theorem plainly_take (r : NodeRef) : Plainly (take r) PlainTree := by
  have hnode : Plainly (node r) PlainTree := (plainly_slot r).bind fun _ hs => .pure hs
  exact hnode.bind fun _ he => plainly_install he (plainly_copyTree he)

theorem plainly_ref {act : BuildM Expr} (h : Plainly act PlainTree) :
    Plainly (do return (← act).ref) fun _ => True :=
  h.bind fun _ _ => .pure trivial

theorem plainly_equal (t : Token) : Plainly (equal t) fun _ => True :=
  plainly_ref (plainly_add fun _ => rfl)

theorem plainly_call (k : RuleRef) : Plainly (call k) fun _ => True :=
  plainly_ref (plainly_addCall k)

theorem plainly_alt (l r : NodeRef) : Plainly (alt l r) fun _ => True :=
  (plainly_take l).bind fun _ hl => (plainly_take r).bind fun _ hr =>
    plainly_ref (plainly_add fun _ => Bool.and_eq_true_iff.2 ⟨hl, hr⟩)

theorem plainly_seq (l r : NodeRef) : Plainly (seq l r) fun _ => True :=
  (plainly_take l).bind fun _ hl => (plainly_take r).bind fun _ hr =>
    plainly_ref (plainly_add fun _ => Bool.and_eq_true_iff.2 ⟨hl, hr⟩)

theorem plainly_join (rs : List NodeRef) : Plainly (join rs) fun _ => True := by
  have hfold : ∀ (rs : List NodeRef) l, Plainly (rs.foldlM seq l) fun _ => True := by
    intro rs
    induction rs with
    | nil => exact fun _ => .pure trivial
    | cons r rs ih =>
      intro l
      rw [List.foldlM_cons]
      exact (plainly_seq l r).bind fun q _ => ih q
  cases rs with
  | nil => exact plainly_ref (plainly_add fun _ => rfl)
  | cons r rs => exact hfold rs r

/-- The shapes of the bodies that the rules have so far. -/
def bodies (b : Builder) : List (Option Shape) := b.declared.map fun d => d.2.map Expr.shape

/-- A builder in order with plain trees, whose rules have the given bodies so far. -/
structure Draft (b : Builder) (id : Nat) (bodies : List (Option Shape)) : Prop where
  sound : Sound [] [] b
  plain : b.Plain
  id_eq : b.id = id
  bodies_eq : b.bodies = bodies

/-- The action succeeds, leaves a draft, and `Q` holds then. -/
def Drafts (act : BuildM α) (b : Builder) (id : Nat) (bodies : List (Option Shape))
    (Q : α → Builder → Prop) : Prop :=
  ∃ a b', act b = (.ok a, b') ∧ Extends b b' ∧ b'.Draft id bodies ∧ Q a b'

variable {id : Nat}

namespace Drafts

variable {act : BuildM α} {next : α → BuildM β} {bodies bodies' : List (Option Shape)}
  {Q : α → Builder → Prop} {R : β → Builder → Prop}

theorem pure {a : α} (hb : b.Draft id bodies) (h : Q a b) : Drafts (Pure.pure a) b id bodies Q :=
  ⟨a, b, rfl, .refl b, hb, h⟩

theorem bind (h : Drafts act b id bodies Q)
    (h' : ∀ a b', Extends b b' → b'.Draft id bodies → Q a b' → Drafts (next a) b' id bodies' R) :
    Drafts (act >>= next) b id bodies' R := by
  obtain ⟨a, b', hact, hb', hd, ha⟩ := h
  obtain ⟨c, b'', hnext, hb'', hd', hc⟩ := h' a b' hb' hd ha
  refine ⟨c, b'', ?_, hb'.trans hb'', hd', hc⟩
  rw [bind_apply, hact]
  exact hnext

end Drafts

theorem draft_new (id : Nat) : (new id).Draft id [] where
  sound := sound_new id
  plain _ he := by cases he
  id_eq := rfl
  bodies_eq := rfl

namespace Draft

variable {bodies : List (Option Shape)} (h : b.Draft id bodies)
include h

theorem size_rules : b.rules.size = bodies.length := by
  rw [← h.bodies_eq]
  simp [Builder.bodies, declared]

theorem make {act : BuildM α} {Q : α → Builder → Prop} (hmake : Makes act b Q) (hsafe : Safe act)
    (hplain : Plainly act fun _ => True) : Drafts act b id bodies Q := by
  obtain ⟨a, b', hact, hb', ha⟩ := hmake
  have hs : Sound [] [] (act b).2 := hsafe.run h.sound
  have hp := (hplain b h.plain).1
  rw [hact] at hs hp
  refine ⟨a, b', hact, hb'.toExtends, ⟨hs, hp, hb'.id.trans h.id_eq, ?_⟩, ha⟩
  rw [Builder.bodies, hb'.declared]
  exact h.bodies_eq

theorem equal (t : Token) :
    Drafts (equal t) b id bodies fun q b' => b'.Stands q (.token (.equal t)) :=
  h.make (makes_token _) (safe_token _) (plainly_equal t)

theorem call {k : Nat} (hk : k < bodies.length) :
    Drafts (call ⟨id, k⟩) b id bodies fun q b' => b'.Stands q (.call k) := by
  have hown : b.ownsRule ⟨id, k⟩ = true := by simp [ownsRule, ruleDecl?, h.id_eq, h.size_rules, hk]
  exact h.make (makes_call hown) (safe_call _) (plainly_call _)

theorem alt {l r : NodeRef} {s t : Shape} (hl : b.Stands l s) (hr : b.Stands r t) :
    Drafts (alt l r) b id bodies fun q b' => b'.Stands q (.alt s t) :=
  h.make (makes_alt hl hr) (safe_alt l r) (plainly_alt l r)

theorem seq {l r : NodeRef} {s t : Shape} (hl : b.Stands l s) (hr : b.Stands r t) :
    Drafts (seq l r) b id bodies fun q b' => b'.Stands q (.seq s t) :=
  h.make (makes_seq hl hr) (safe_seq l r) (plainly_seq l r)

theorem join {rs : List NodeRef} {ss : List Shape} (hr : List.Forall₂ b.Stands rs ss) :
    Drafts (join rs) b id bodies fun q b' => b'.Stands q (.join ss) :=
  h.make (makes_join hr) (safe_join rs) (plainly_join rs)

theorem rule (name : String) : Drafts (rule name) b id (bodies ++ [none]) fun r _ =>
    r = ⟨id, bodies.length⟩ := by
  have hs : Sound [] [] (Builder.rule name b).2 := (safe_rule name).run h.sound
  refine ⟨_, _, rfl, (Step.rule name).extend, ⟨hs, h.plain, h.id_eq, ?_⟩, ?_⟩
  · rw [← h.bodies_eq]
    simp [Builder.bodies, declared]
  · rw [h.id_eq, h.size_rules]

theorem rules (name : β → String) (xs : List β) :
    Drafts (xs.mapM fun x => Builder.rule (name x)) b id (bodies ++ List.replicate xs.length none)
      fun rs _ => rs = (List.range' bodies.length xs.length).map (RuleRef.mk id) := by
  induction xs generalizing b bodies with
  | nil => exact .pure (by simpa using h) rfl
  | cons x xs ih =>
    rw [List.mapM_cons]
    refine (h.rule (name x)).bind fun r b₁ _ h₁ hr => ?_
    have hrest := ih h₁
    rw [List.append_assoc, ← List.replicate_one, List.replicate_append_replicate,
      Nat.add_comm] at hrest
    refine hrest.bind fun rs b₂ _ h₂ hrs => .pure h₂ ?_
    rw [hr, hrs, List.length_append]
    rfl

theorem setBody {k : Nat} {e : NodeRef} {s : Shape} (hk : bodies[k]? = some none)
    (he : b.Stands e s) :
    Drafts (setBody ⟨id, k⟩ e) b id (bodies.set k (some s)) fun _ _ => True := by
  obtain ⟨d, hd, hfree⟩ : ∃ d, b.ruleDecl? ⟨id, k⟩ = some d ∧ d.body = none := by
    have hget : b.rules[k]?.map (fun d => d.body.map Expr.shape) = some none := by
      rw [← hk, ← h.bodies_eq, Builder.bodies, List.getElem?_map, getElem?_declared, Option.map_map]
      rfl
    obtain ⟨d, hd, hnone⟩ := Option.map_eq_some_iff.1 hget
    exact ⟨d, ruleDecl?_eq_some_iff.2 ⟨h.id_eq.symm, hd⟩, Option.map_eq_none_iff.1 hnone⟩
  obtain ⟨c, b₁, d', htake, hb₁, hc, hd', -, hfree', hset⟩ := he.setBody_ok hd hfree
  have hs : Sound [] [] (Builder.setBody ⟨id, k⟩ e b).2 := (safe_setBody _ _).run h.sound
  have hp := ((plainly_take e) b h.plain).1
  rw [hset] at hs
  rw [htake] at hp
  refine ⟨(), _, hset, hb₁.toExtends.trans (Step.body hd' hfree' c).extend,
    ⟨hs, hp, hb₁.id.trans h.id_eq, ?_⟩, trivial⟩
  rw [Builder.bodies, declared_modify (ruleDecl?_eq_some_iff.1 hd').2, List.map_set, hb₁.declared,
    show b.declared.map _ = bodies from h.bodies_eq]
  exact congrArg (bodies.set k) (congrArg some hc.2)

end Draft

/-- A loop that runs through a list goes from stage to stage. -/
theorem drafts_forIn {step : β → PUnit → BuildM (ForInStep PUnit)} (xs : List β)
    (stage : Nat → List (Option Shape)) (hb : b.Draft id (stage 0))
    (h : ∀ i x b', xs[i]? = some x → b'.Draft id (stage i) →
      Drafts (step x ⟨⟩) b' id (stage (i + 1)) fun r _ => r = .yield ⟨⟩) :
    Drafts (forIn xs ⟨⟩ step) b id (stage xs.length) fun _ _ => True := by
  induction xs generalizing b stage with
  | nil => exact .pure hb trivial
  | cons x xs ih =>
    rw [List.forIn_cons]
    refine (h 0 x b rfl hb).bind fun r b₁ _ h₁ hr => ?_
    subst hr
    exact ih (fun i => stage (i + 1)) h₁ fun i y b₂ hy => h (i + 1) y b₂ hy

/-- The bodies of `m` rules of which the first `i` have got theirs. -/
def firstBodies (body : Nat → Shape) (m i : Nat) : List (Option Shape) :=
  (List.range m).map fun j => if j < i then some (body j) else none

section FirstBodies

variable {body : Nat → Shape} {m i : Nat}

theorem length_firstBodies : (firstBodies body m i).length = m := by simp [firstBodies]

theorem firstBodies_zero : firstBodies body m 0 = List.replicate m none := by
  simp [firstBodies, List.map_const']

theorem firstBodies_all : firstBodies body m m = ((List.range m).map body).map some := by
  rw [firstBodies, List.map_map]
  exact List.map_congr_left fun j hj => if_pos (List.mem_range.1 hj)

theorem firstBodies_set :
    (firstBodies body m i).set i (some (body i)) = firstBodies body m (i + 1) := by
  apply List.ext_getElem (by simp [firstBodies])
  intro j _ _
  simp only [firstBodies, List.getElem_set, List.getElem_map, List.getElem_range]
  rcases Nat.lt_trichotomy i j with hj | rfl | hj
  · rw [if_neg hj.ne, if_neg (by omega), if_neg (by omega)]
  · rw [if_pos rfl, if_pos (Nat.lt_succ_self _)]
  · rw [if_neg hj.ne', if_pos hj, if_pos (by omega)]

theorem Draft.setNext (h : b.Draft id (firstBodies body m i)) (hi : i < m) {e : NodeRef}
    (he : b.Stands e (body i)) :
    Drafts (Builder.setBody ⟨id, i⟩ e) b id (firstBodies body m (i + 1)) fun _ _ => True := by
  have hfree : (firstBodies body m i)[i]? = some none := by simp [firstBodies, hi]
  rw [← firstBodies_set]
  exact h.setBody hfree he

end FirstBodies

theorem Draft.finish {bodies : List Shape} {root : Shape} {r : NodeRef}
    (h : b.Draft id (bodies.map some)) (hr : b.Stands r root) :
    ∃ g, b.finalize r = .ok g ∧ g.Shaped bodies root := by
  obtain ⟨e, b', htake, hb', he⟩ := makes_take hr
  have hp := ((plainly_take r) b h.plain).1
  rw [htake] at hp
  have hbodies : b'.rules.toList.map (fun d => d.body.map Expr.shape) = bodies.map some := by
    rw [← h.bodies_eq, Builder.bodies, ← hb'.declared, declared, List.map_map]
    rfl
  obtain ⟨rules, hrules⟩ := closeRules_total.2 fun d hd hnone => by
    have hmem := hbodies ▸ List.mem_map_of_mem hd
    simp [hnone] at hmem
  have hfin : b.finalize r = .ok (b'.finished rules e) := by
    rw [finalize_eq hr.owns htake, hrules]
    rfl
  have hshapes : rules.map (fun r => r.body.shape) = bodies := by
    apply List.map_injective_iff.2 (Option.some_injective Shape)
    rw [← hbodies, List.map_map]
    have hsame := congrArg (List.map (Option.map Expr.shape)) (closeRules_ok hrules)
    simpa [Function.comp_def] using hsame.symm
  refine ⟨_, hfin,
    ⟨⟨wellFormed_of_finalize h.sound hfin, fun {i q x y} hx => ?_⟩, fun k => ?_, he.2⟩⟩
  · rcases mem_finished_iff.1 hx with ⟨s, hs, hx⟩ | ⟨-, hx⟩
    · have hplain := hp s.expr (List.mem_of_getElem? (by rw [getElem?_exprs, hs]; rfl))
      rw [hx] at hplain
      cases hplain
    · cases hx
  · rw [← hshapes, List.getElem?_map]
    show (rules.toArray[k]?.map _).map _ = _
    rw [List.getElem?_toArray, Option.map_map]
    rfl

theorem grammarOf_eq (id : Nat) (program : BuildM NodeRef) {r : NodeRef}
    (h : program (new id) = (.ok r, b)) : grammarOf id program = b.finalize r := by
  show ((program >>= close) (new id)).1 = _
  rw [bind_apply, h]
  rfl

/-- A program that leaves a draft with a body for each rule describes a grammar of these shapes. -/
theorem Drafts.grammarOf {program : BuildM NodeRef} {bodies : List Shape} {root : Shape}
    (h : Drafts program (new id) id (bodies.map some) fun r b => b.Stands r root) :
    ∃ g, grammarOf id program = .ok g ∧ g.Shaped bodies root := by
  obtain ⟨r, b, hrun, -, hd, hr⟩ := h
  obtain ⟨g, hg, hshaped⟩ := hd.finish hr
  exact ⟨g, (grammarOf_eq id program hrun).trans hg, hshaped⟩

theorem Client.wellFormed {program : BuildM NodeRef} (h : Client program) {id : Nat} {g : Grammar}
    (hg : Builder.grammarOf id program = .ok g) : g.WellFormed := by
  have hs : Sound [] [] (program (new id)).2 := h.safe.run (sound_new id)
  cases hrun : (program (new id)).1 with
  | ok r =>
    have hfin := grammarOf_eq id program (Prod.ext hrun rfl)
    exact wellFormed_of_finalize hs (hfin.symm.trans hg)
  | error f =>
    have hg : ((program >>= close) (new id)).1 = .ok g := hg
    rw [bind_apply, hrun] at hg
    cases hg

theorem Client.shaped {program : BuildM NodeRef} (h : Client program) {id : Nat}
    {bodies : List Shape} {root : Shape}
    (houtline : (Builder.grammarOf id program).map Grammar.outline = .ok (.ok (), bodies, root)) :
    ∃ g, Builder.grammarOf id program = .ok g ∧ g.Shaped bodies root := by
  cases hg : Builder.grammarOf id program with
  | error f =>
    rw [hg] at houtline
    cases houtline
  | ok g =>
    rw [hg] at houtline
    obtain ⟨hv, hb, hr⟩ : g.validate = .ok () ∧ _ = bodies ∧ g.root.shape = root := by
      simpa [Except.map, Grammar.outline] using houtline
    refine ⟨g, rfl, (h.wellFormed hg).valid hv, fun k => ?_, hr⟩
    rw [← hb, List.getElem?_map, Array.getElem?_toList]
    show (g.rules[k]?.map _).map _ = _
    rw [Option.map_map]
    rfl

end Builder

end TokenGrammar
