import TokenGrammar.Proofs.Shapes
import TokenGrammar.Proofs.Finishing

/-!
# What operations make

On handles of the builder every operation succeeds and makes what its name says: the handle that is
returned stands for the shape that is made of the shapes of the operands. Whether an operand is given
away itself or as a copy cannot be told from shapes.
-/

namespace TokenGrammar.Builder

variable {α β : Type} {b b' : Builder} {e : Expr}

/-- More nodes and calls have been made, and nothing else. -/
structure Grown (b b' : Builder) : Prop extends Extends b b' where
  declared : b'.declared = b.declared

theorem Grown.refl (b : Builder) : Grown b b := ⟨.refl b, rfl⟩

theorem Grown.trans {b'' : Builder} (h : Grown b b') (h' : Grown b' b'') : Grown b b'' :=
  ⟨h.toExtends.trans h'.toExtends, h'.declared.trans h.declared⟩

/-- The action succeeds, makes nothing but nodes and calls, and `Q` holds then. -/
def Makes (act : BuildM α) (b : Builder) (Q : α → Builder → Prop) : Prop :=
  ∃ a b', act b = (.ok a, b') ∧ Grown b b' ∧ Q a b'

namespace Makes

variable {act : BuildM α} {next : α → BuildM β} {Q : α → Builder → Prop} {R : β → Builder → Prop}

theorem pure {a : α} (h : Q a b) : Makes (Pure.pure a) b Q := ⟨a, b, rfl, .refl b, h⟩

theorem bind (h : Makes act b Q) (h' : ∀ a b', Grown b b' → Q a b' → Makes (next a) b' R) :
    Makes (act >>= next) b R := by
  obtain ⟨a, b', hact, hb', ha⟩ := h
  obtain ⟨c, b'', hnext, hb'', hc⟩ := h' a b' hb' ha
  refine ⟨c, b'', ?_, hb'.trans hb'', hc⟩
  rw [bind_apply, hact]
  exact hnext

theorem imp (h : Makes act b Q) {Q' : α → Builder → Prop} (hQ : ∀ a b', Q a b' → Q' a b') :
    Makes act b Q' := by
  obtain ⟨a, b', hact, hb', ha⟩ := h
  exact ⟨a, b', hact, hb', hQ a b' ha⟩

end Makes

theorem makes_slot {r : NodeRef} (h : b.node? r = some e) :
    Makes (slot r) b fun s b' => b' = b ∧ s.expr = e := by
  obtain ⟨s, hs, rfl⟩ := Option.map_eq_some_iff.1 h
  exact ⟨s, b, by rw [slot_apply, hs]; rfl, .refl b, rfl, rfl⟩

theorem makes_node {r : NodeRef} (h : b.node? r = some e) :
    Makes (node r) b fun e' b' => b' = b ∧ e' = e :=
  (makes_slot h).bind fun _ _ _ hs => .pure hs

theorem exists_terminalFlag (h : ∀ c ∈ e.operands, b.owns c.ref = true) :
    ∃ t, (terminalFlag e b).1 = .ok t := by
  have hop : ∀ c ∈ e.operands, ∃ t, isTerminal c.ref b = (.ok t, b) := by
    intro c hc
    obtain ⟨s, hs⟩ := Option.isSome_iff_exists.1 (h c hc)
    exact ⟨s.terminal, by rw [isTerminal_apply, hs]; rfl⟩
  cases e with
  | alt q l r | conj q l r =>
    obtain ⟨t, hl⟩ := hop l (by simp [Expr.operands])
    obtain ⟨t', hr⟩ := hop r (by simp [Expr.operands])
    rw [terminalFlag, bind_apply, hl]
    cases t with
    | true => exact ⟨t', congrArg Prod.fst hr⟩
    | false => exact ⟨false, rfl⟩
  | token | eps | seq | plus | call | endMark => exact ⟨_, rfl⟩

theorem makes_add {make : NodeRef → Expr} (hr : ∀ r, (make r).ref = r)
    (hops : ∀ r, ∀ c ∈ (make r).operands, b.Intact c)
    (hc : ∀ r k, (make r).callee? = some k → b.ownsRule k = true) :
    Makes (add make) b fun e b' => b'.Intact e ∧ ∃ r, e = make r := by
  obtain ⟨t, ht⟩ := exists_terminalFlag fun c hc => (hops ⟨b.id, b.slots.size⟩ c hc).owns
  have hext : Extends b { b with slots := b.slots.push ⟨make ⟨b.id, b.slots.size⟩, t, false⟩ } :=
    ⟨rfl, by rw [exprs_push]; exact List.prefix_append _ _, Nat.le_refl _⟩
  refine ⟨make ⟨b.id, b.slots.size⟩, _, add_ok ht, ⟨hext, rfl⟩, intact_iff.2 ⟨⟨?_, ?_⟩, ?_⟩, _, rfl⟩
  · rw [hr, node?, slot?_own]
    show ((b.slots.push _)[b.slots.size]?).map _ = _
    rw [Array.getElem?_push_size]
    rfl
  · exact fun k hk => hext.ownsRule (hc _ k hk)
  · exact fun c hc => (hops _ c hc).mono hext

theorem makes_mark (r : NodeRef) : Makes (markInstalled r) b fun _ _ => True :=
  ⟨(), _, rfl, ⟨⟨rfl, by simp [exprs_mark], Nat.le_refl _⟩, rfl⟩, trivial⟩

/-- A tree of the builder with the given shape. -/
def OfShape (s : Shape) (e : Expr) (b : Builder) : Prop := b.Intact e ∧ e.shape = s

theorem makes_addCall {k : RuleRef} (hk : b.ownsRule k = true) :
    Makes (addCall k) b (OfShape (.call k.index)) := by
  obtain ⟨d, hd⟩ := Option.isSome_iff_exists.1 hk
  have hlook : Makes (ruleDecl k) b fun d' b' => b' = b ∧ d' = d :=
    ⟨d, b, by rw [ruleDecl_apply, hd]; rfl, .refl b, rfl, rfl⟩
  have hcount : Makes (setRule k { d with sites := d.sites + 1 }) b fun _ _ => True := by
    refine ⟨(), _, rfl, ⟨⟨rfl, List.prefix_refl _, Nat.le_of_eq Array.size_modify.symm⟩, ?_⟩,
      trivial⟩
    exact declared_modify_same (ruleDecl?_eq_some_iff.1 hd).2 rfl rfl
  apply hlook.bind
  rintro d' b' - ⟨rfl, rfl⟩
  apply hcount.bind
  intro _ b'' hb'' _
  refine (makes_add (fun _ => rfl) (fun _ _ hc => by cases hc) ?_).imp ?_
  · intro _ k' hk'
    cases hk'
    exact hb''.ownsRule hk
  · rintro e b₃ ⟨he, r, rfl⟩
    exact ⟨he, rfl⟩

/-- What is given away has the shape of the node, whether it is a copy or not. -/
theorem makes_install {copied : BuildM Expr} (he : b.Intact e)
    (h : Makes copied b (OfShape e.shape)) : Makes (install e copied) b (OfShape e.shape) := by
  have hgive : ∀ {c b'}, OfShape e.shape c b' →
      Makes (do markInstalled c.ref; return c) b' (OfShape e.shape) :=
    fun hc => (makes_mark _).bind fun _ _ hb _ => .pure ⟨hc.1.mono hb.toExtends, hc.2⟩
  have hflag : Makes (isInstalled e.ref) b fun _ b' => b' = b :=
    (makes_slot he.self).bind fun _ _ _ hs => .pure hs.1
  apply hflag.bind
  rintro i b' - rfl
  cases i with
  | true => exact h.bind fun _ _ _ hc => hgive hc
  | false => exact hgive ⟨he, rfl⟩

theorem makes_both {act act' : BuildM Expr} {next : Expr → Expr → BuildM α}
    {Q : α → Builder → Prop} {s t : Shape} (hx : Makes act b (OfShape s))
    (hy : ∀ b', Grown b b' → Makes act' b' (OfShape t))
    (hnext : ∀ l r b', Grown b b' → OfShape s l b' → OfShape t r b' → Makes (next l r) b' Q) :
    Makes (do
      let l ← act
      let r ← act'
      next l r) b Q := by
  apply hx.bind
  intro l b₁ hb₁ hl
  apply (hy b₁ hb₁).bind
  intro r b₂ hb₂ hr
  exact hnext l r b₂ (hb₁.trans hb₂) ⟨hl.1.mono hb₂.toExtends, hl.2⟩ hr

theorem makes_of {make : NodeRef → Expr} (s : Shape) (hr : ∀ q, (make q).ref = q)
    (hc : ∀ q, (make q).callee? = none) (hops : ∀ q, ∀ c ∈ (make q).operands, b.Intact c)
    (hs : ∀ q, (make q).shape = s) : Makes (add make) b (OfShape s) := by
  refine (makes_add hr hops ?_).imp ?_
  · intro q k hk
    rw [hc] at hk
    cases hk
  · rintro e b' ⟨he, q, rfl⟩
    exact ⟨he, hs q⟩

section Nodes

variable {l r : Expr} {s t : Shape}

theorem makes_token_node (test : TokenTest) :
    Makes (add fun q => .token q test) b (OfShape (.token test)) :=
  makes_of _ (fun _ => rfl) (fun _ => rfl) (fun _ _ hc => by cases hc) fun _ => rfl

theorem makes_eps_node : Makes (add .eps) b (OfShape .eps) :=
  makes_of _ (fun _ => rfl) (fun _ => rfl) (fun _ _ hc => by cases hc) fun _ => rfl

theorem makes_endMark_node : Makes (add .endMark) b (OfShape .endMark) :=
  makes_of _ (fun _ => rfl) (fun _ => rfl) (fun _ _ hc => by cases hc) fun _ => rfl

theorem makes_binary {make : NodeRef → Expr} {f : Shape → Shape → Shape} (hl : OfShape s l b)
    (hr : OfShape t r b) (href : ∀ q, (make q).ref = q) (hc : ∀ q, (make q).callee? = none)
    (hops : ∀ q, (make q).operands = [l, r]) (hs : ∀ q, (make q).shape = f l.shape r.shape) :
    Makes (add make) b (OfShape (f s t)) := by
  refine makes_of _ href hc ?_ fun q => by rw [hs, hl.2, hr.2]
  intro q c hc
  rw [hops] at hc
  rcases List.mem_pair.1 hc with rfl | rfl
  · exact hl.1
  · exact hr.1

theorem makes_alt_node (hl : OfShape s l b) (hr : OfShape t r b) :
    Makes (add fun q => .alt q l r) b (OfShape (.alt s t)) :=
  makes_binary hl hr (fun _ => rfl) (fun _ => rfl) (fun _ => rfl) fun _ => rfl

theorem makes_seq_node (hl : OfShape s l b) (hr : OfShape t r b) :
    Makes (add fun q => .seq q l r) b (OfShape (.seq s t)) :=
  makes_binary hl hr (fun _ => rfl) (fun _ => rfl) (fun _ => rfl) fun _ => rfl

theorem makes_conj_node (hl : OfShape s l b) (hr : OfShape t r b) :
    Makes (add fun q => .conj q l r) b (OfShape (.conj s t)) :=
  makes_binary hl hr (fun _ => rfl) (fun _ => rfl) (fun _ => rfl) fun _ => rfl

theorem makes_plus_node (hl : OfShape s l b) :
    Makes (add fun q => .plus q l) b (OfShape (.plus s)) := by
  refine makes_of _ (fun _ => rfl) (fun _ => rfl) ?_ fun q => by rw [Expr.shape, hl.2]
  intro q c hc
  obtain rfl := List.mem_singleton.1 hc
  exact hl.1

end Nodes

theorem makes_copyTree (he : b.Intact e) : Makes (copyTree e) b (OfShape e.shape) := by
  induction e generalizing b with
  | token q test => exact makes_token_node test
  | eps q => exact makes_eps_node
  | endMark q => exact makes_endMark_node
  | call q k site => exact makes_addCall ((intact_iff.1 he).1.2 k rfl)
  | plus q x ih =>
    have hx := (intact_iff.1 he).2 x (by simp [Expr.operands])
    exact (makes_install hx (ih hx)).bind fun _ _ _ hc => makes_plus_node hc
  | alt q x y ihx ihy =>
    have hx := (intact_iff.1 he).2 x (by simp [Expr.operands])
    have hy := (intact_iff.1 he).2 y (by simp [Expr.operands])
    exact makes_both (makes_install hx (ihx hx))
      (fun _ hb => makes_install (hy.mono hb.toExtends) (ihy (hy.mono hb.toExtends)))
      fun _ _ _ _ hl hr => makes_alt_node hl hr
  | seq q x y ihx ihy =>
    have hx := (intact_iff.1 he).2 x (by simp [Expr.operands])
    have hy := (intact_iff.1 he).2 y (by simp [Expr.operands])
    exact makes_both (makes_install hx (ihx hx))
      (fun _ hb => makes_install (hy.mono hb.toExtends) (ihy (hy.mono hb.toExtends)))
      fun _ _ _ _ hl hr => makes_seq_node hl hr
  | conj q x y ihx ihy =>
    have hx := (intact_iff.1 he).2 x (by simp [Expr.operands])
    have hy := (intact_iff.1 he).2 y (by simp [Expr.operands])
    exact makes_both (makes_install hx (ihx hx))
      (fun _ hb => makes_install (hy.mono hb.toExtends) (ihy (hy.mono hb.toExtends)))
      fun _ _ _ _ hl hr => makes_conj_node hl hr

section Operations

variable {l r : NodeRef} {s t : Shape}

theorem makes_take (h : b.Stands r s) : Makes (take r) b (OfShape s) := by
  obtain ⟨e, rfl, hi, rfl⟩ := h
  apply (makes_node hi.self).bind
  rintro e' b' - ⟨rfl, rfl⟩
  exact makes_install hi (makes_copyTree hi)

theorem makes_ref {act : BuildM Expr} (h : Makes act b (OfShape s)) :
    Makes (do return (← act).ref) b fun q b' => b'.Stands q s :=
  h.bind fun _ _ _ he => .pure (he.1.stands he.2)

theorem makes_token (test : TokenTest) :
    Makes (token test) b fun q b' => b'.Stands q (.token test) := makes_ref (makes_token_node test)

theorem makes_eps : Makes eps b fun q b' => b'.Stands q .eps := makes_ref makes_eps_node

theorem makes_alt (hl : b.Stands l s) (hr : b.Stands r t) :
    Makes (alt l r) b fun q b' => b'.Stands q (.alt s t) :=
  makes_both (makes_take hl) (fun _ hb => makes_take (hr.mono hb.toExtends))
    fun _ _ _ _ hl hr => makes_ref (makes_alt_node hl hr)

theorem makes_seq (hl : b.Stands l s) (hr : b.Stands r t) :
    Makes (seq l r) b fun q b' => b'.Stands q (.seq s t) :=
  makes_both (makes_take hl) (fun _ hb => makes_take (hr.mono hb.toExtends))
    fun _ _ _ _ hl hr => makes_ref (makes_seq_node hl hr)

theorem makes_conj (hl : b.Stands l s) (hr : b.Stands r t) :
    Makes (conj l r) b fun q b' => b'.Stands q (.conj s t) :=
  makes_both (makes_take hl) (fun _ hb => makes_take (hr.mono hb.toExtends))
    fun _ _ _ _ hl hr => makes_ref (makes_conj_node hl hr)

theorem makes_plus (h : b.Stands r s) : Makes (plus r) b fun q b' => b'.Stands q (.plus s) :=
  (makes_take h).bind fun _ _ _ hc => makes_ref (makes_plus_node hc)

theorem makes_maybe (h : b.Stands r s) :
    Makes (maybe r) b fun q b' => b'.Stands q s.maybe :=
  makes_eps.bind fun _ _ hb he => makes_alt (h.mono hb.toExtends) he

theorem makes_star (h : b.Stands r s) :
    Makes (star r) b fun q b' => b'.Stands q s.star :=
  (makes_plus h).bind fun _ _ _ hp => makes_maybe hp

theorem makes_foldlM {op : NodeRef → NodeRef → BuildM NodeRef} {f : Shape → Shape → Shape}
    (hop : ∀ {b l r s t}, Stands b l s → Stands b r t →
      Makes (op l r) b fun q b' => b'.Stands q (f s t))
    {rs : List NodeRef} {ss : List Shape} (hl : b.Stands l s) (h : List.Forall₂ b.Stands rs ss) :
    Makes (rs.foldlM op l) b fun q b' => b'.Stands q (ss.foldl f s) := by
  induction rs generalizing b l s ss with
  | nil =>
    cases h
    exact .pure hl
  | cons r rs ih =>
    rw [List.foldlM_cons]
    cases h with
    | cons hr hrs =>
      rw [List.foldl_cons]
      apply (hop hl hr).bind
      intro q b' hb hq
      exact ih hq (hrs.imp fun _ _ h => h.mono hb.toExtends)

theorem makes_select {rs : List NodeRef} {ss : List Shape} (h : List.Forall₂ b.Stands rs ss) :
    Makes (select rs) b fun q b' => b'.Stands q (.select ss) := by
  cases h with
  | nil => exact makes_eps
  | cons hr hrs => exact makes_foldlM makes_alt hr hrs

theorem makes_join {rs : List NodeRef} {ss : List Shape} (h : List.Forall₂ b.Stands rs ss) :
    Makes (join rs) b fun q b' => b'.Stands q (.join ss) := by
  cases h with
  | nil => exact makes_eps
  | cons hr hrs => exact makes_foldlM makes_seq hr hrs

theorem makes_tokens (ts : List Token) :
    Makes (ts.mapM equal) b fun rs b' =>
      List.Forall₂ b'.Stands rs (ts.map fun t => .token (.equal t)) := by
  induction ts generalizing b with
  | nil => exact .pure .nil
  | cons t ts ih =>
    rw [List.mapM_cons]
    apply (makes_token (.equal t)).bind
    intro r b₁ _ hr
    apply ih.bind
    intro rs b₂ hb hrs
    exact .pure (.cons (hr.mono hb.toExtends) hrs)

theorem makes_literal (text : String) :
    Makes (literal text) b fun q b' => b'.Stands q (.literal text) :=
  (makes_tokens _).bind fun _ _ _ h => makes_join h

theorem makes_tokenRange (lo hi : Token) :
    Makes (tokenRange lo hi) b fun q b' => b'.Stands q (.tokenRange lo hi) :=
  (makes_token (.atLeast lo)).bind fun _ _ _ hl => (makes_token (.atMost hi)).bind fun _ _ hb hr =>
    makes_conj (hl.mono hb.toExtends) hr

theorem makes_consume (h : b.Stands r s) : Makes (consume r) b fun q b' => b'.Stands q s :=
  makes_ref (makes_take h)

theorem makes_copy (h : b.Stands r s) : Makes (copy r) b fun q b' => b'.Stands q s := by
  obtain ⟨e, rfl, hi, rfl⟩ := h
  apply (makes_node hi.self).bind
  rintro e' b' - ⟨rfl, rfl⟩
  exact makes_ref (makes_copyTree hi)

theorem makes_call {k : RuleRef} (hk : b.ownsRule k = true) :
    Makes (call k) b fun q b' => b'.Stands q (.call k.index) := makes_ref (makes_addCall hk)

end Operations

theorem Stands.setBody_ok {r : NodeRef} {s : Shape} (h : b.Stands r s) {k : RuleRef} {d : RuleDecl}
    (hk : b.ruleDecl? k = some d) (hd : d.body = none) :
    ∃ c b₁ d', take r b = (.ok c, b₁) ∧ Grown b b₁ ∧ OfShape s c b₁ ∧ b₁.ruleDecl? k = some d' ∧
      d'.name = d.name ∧ d'.body = none ∧ setBody k r b =
        (.ok (), { b₁ with rules := b₁.rules.modify k.index fun _ => { d' with body := some c } }) := by
  obtain ⟨c, b₁, htake, hb₁, hc⟩ := makes_take h
  obtain ⟨d', hk'⟩ := Option.isSome_iff_exists.1 (hb₁.ownsRule (Option.isSome_iff_exists.2 ⟨d, hk⟩))
  obtain ⟨hname, hbody⟩ := same_of_declared hb₁.declared hk hk'
  refine ⟨c, b₁, d', htake, hb₁, hc, hk', hname, hbody.trans hd, ?_⟩
  rw [setBody_free hk h.owns hd, bind_apply, htake]
  show (ruleDecl k >>= _ : BuildM Unit) b₁ = _
  rw [bind_apply, ruleDecl_apply, hk']
  rfl

end TokenGrammar.Builder
