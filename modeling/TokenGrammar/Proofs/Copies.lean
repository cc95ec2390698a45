import TokenGrammar.Proofs.LinearUse
import TokenGrammar.Proofs.Making

/-!
# Copies of trees

A copy of a tree is laid out after everything that the builder holds already, in post-order: the
nodes of the copy are numbered as the nodes of the tree are listed from below. The node that is
returned comes last and is the only new one that is free. Nothing else happens to the builder, except
that rules that are called in the tree have more call sites then.
-/

namespace TokenGrammar

/-- What a node is, apart from its handle, its operands and the number of the call site. -/
inductive Kind
  | token (test : TokenTest)
  | eps
  | alt
  | seq
  | conj
  | plus
  | call (rule : RuleRef)
  | endMark
  deriving DecidableEq, Repr

namespace Expr

def kind : Expr → Kind
  | token _ test => .token test
  | eps _ => .eps
  | alt _ _ _ => .alt
  | seq _ _ _ => .seq
  | conj _ _ _ => .conj
  | plus _ _ => .plus
  | call _ rule _ => .call rule
  | endMark _ => .endMark

/-- The nodes of a tree from below: those of the operands from left to right, then the node. -/
def postorder : Expr → List Expr
  | token r t => [token r t]
  | eps r => [eps r]
  | alt r a b => a.postorder ++ b.postorder ++ [alt r a b]
  | seq r a b => a.postorder ++ b.postorder ++ [seq r a b]
  | conj r a b => a.postorder ++ b.postorder ++ [conj r a b]
  | plus r a => a.postorder ++ [plus r a]
  | call r k s => [call r k s]
  | endMark r => [endMark r]

theorem postorder_eq (x : Expr) : x.postorder = x.operands.flatMap postorder ++ [x] := by
  cases x <;> simp [postorder, operands]

theorem postorder_perm (x : Expr) : x.postorder.Perm x.parts := by
  induction x using operand_induction with
  | step x ih =>
    rw [postorder_eq, parts_eq]
    exact List.perm_append_comm.trans ((List.Perm.flatMap_left _ ih).cons x)

variable {x y : Expr}

theorem callee?_eq_of_kind (h : y.kind = x.kind) : y.callee? = x.callee? := by
  cases x <;> cases y <;> simp_all [kind, callee?]

theorem isTerminal_eq_of_kind (h : y.kind = x.kind)
    (hops : List.Forall₂ (fun c d => d.isTerminal = c.isTerminal) x.operands y.operands) :
    y.isTerminal = x.isTerminal := by
  cases x <;> cases y <;> simp_all [kind, operands, isTerminal]

/-- How many of the nodes are calls of the rule. -/
def callsOf (k : RuleRef) (xs : List Expr) : Nat := xs.countP fun x => x.callee? = some k

@[simp] theorem callsOf_append (k : RuleRef) (xs ys : List Expr) :
    callsOf k (xs ++ ys) = callsOf k xs + callsOf k ys := List.countP_append

theorem callsOf_singleton (k : RuleRef) : callsOf k [x] = if x.callee? = some k then 1 else 0 := by
  simp [callsOf, List.countP_singleton]

end Expr

/-- Nodes at the same place of both lists are of the same kind, both or none of them are terminals,
and their operands are, one by one, at the same places again. -/
structure Images (old new : List Expr) : Prop where
  length : new.length = old.length
  kind : ∀ p ∈ old.zip new, p.2.kind = p.1.kind
  terminal : ∀ p ∈ old.zip new, p.2.isTerminal = p.1.isTerminal
  operands : ∀ p ∈ old.zip new,
    List.Forall₂ (fun c d => (c, d) ∈ old.zip new) p.1.operands p.2.operands

namespace Images

variable {old new old' new' : List Expr} {x y : Expr}

theorem nil : Images [] [] := ⟨rfl, by simp, by simp, by simp⟩

theorem zip_append (h : Images old new) (old' new' : List Expr) :
    (old ++ old').zip (new ++ new') = old.zip new ++ old'.zip new' :=
  List.zip_append h.length.symm

theorem append (h : Images old new) (h' : Images old' new') :
    Images (old ++ old') (new ++ new') := by
  have hzip := h.zip_append old' new'
  refine ⟨by simp [h.length, h'.length], fun p hp => ?_, fun p hp => ?_, fun p hp => ?_⟩
  all_goals rw [hzip, List.mem_append] at hp
  · exact hp.elim (h.kind p) (h'.kind p)
  · exact hp.elim (h.terminal p) (h'.terminal p)
  · rw [hzip]
    rcases hp with hp | hp
    · exact (h.operands p hp).imp fun _ _ hc => List.mem_append_left _ hc
    · exact (h'.operands p hp).imp fun _ _ hc => List.mem_append_right _ hc

theorem concat (h : Images old new) (hk : y.kind = x.kind)
    (hops : List.Forall₂ (fun c d => (c, d) ∈ old.zip new) x.operands y.operands) :
    Images (old ++ [x]) (new ++ [y]) := by
  have hzip : (old ++ [x]).zip (new ++ [y]) = old.zip new ++ [(x, y)] := h.zip_append [x] [y]
  have hterm : y.isTerminal = x.isTerminal :=
    Expr.isTerminal_eq_of_kind hk (hops.imp fun c d hcd => h.terminal (c, d) hcd)
  refine ⟨by simp [h.length], fun p hp => ?_, fun p hp => ?_, fun p hp => ?_⟩
  all_goals rw [hzip, List.mem_append, List.mem_singleton] at hp
  · rcases hp with hp | rfl
    · exact h.kind p hp
    · exact hk
  · rcases hp with hp | rfl
    · exact h.terminal p hp
    · exact hterm
  · rw [hzip]
    refine List.Forall₂.imp (fun _ _ hc => List.mem_append_left _ hc) ?_
    rcases hp with hp | rfl
    · exact h.operands p hp
    · exact hops

theorem mem_of_operands {cs ds : List Expr}
    (h : List.Forall₂ (fun c d => (c, d) ∈ old.zip new) cs ds) {d : Expr} (hd : d ∈ ds) :
    d ∈ new := by
  induction h with
  | nil => cases hd
  | cons hcd _ ih =>
    rcases List.mem_cons.1 hd with rfl | hd
    · exact (List.of_mem_zip hcd).2
    · exact ih hd

theorem last (h : Images (old ++ [x]) (new ++ [y])) : (x, y) ∈ (old ++ [x]).zip (new ++ [y]) := by
  have hlen : old.length = new.length := by simpa using h.length.symm
  rw [List.zip_append hlen]
  simp

end Images

namespace Builder

variable {b b' b'' : Builder} {old old' : List Expr} {made made' : List Slot} {x c root : Expr}
  {t f : Bool}

/-- The builder `b'` is what `b` becomes when copies of the nodes `old` are put after its nodes. -/
structure Copied (old : List Expr) (made : List Slot) (b b' : Builder) : Prop where
  id : b'.id = b.id
  /-- What there is already does not change, nor do its marks. -/
  slots : b'.slots.toList = b.slots.toList ++ made
  images : Images old (made.map (·.expr))
  /-- The new nodes are numbered on. -/
  refs : made.map (·.expr.ref) = (List.range' b.slots.size made.length).map fun i => ⟨b.id, i⟩
  /-- The rules have the same names and bodies, and as many more call sites as have been copied. -/
  rules : ∀ k : Nat, b'.rules[k]? = b.rules[k]?.map fun d =>
    { d with sites := d.sites + Expr.callsOf ⟨b.id, k⟩ old }
  /-- The new calls of a rule have the next numbers in their order. -/
  sites : ∀ {k : Nat} {d : RuleDecl}, b.rules[k]? = some d →
    (made.map (·.expr)).filterMap (Expr.siteOf? ⟨b.id, k⟩) =
      List.range' d.sites (Expr.callsOf ⟨b.id, k⟩ old)

namespace Copied

theorem refl (b : Builder) : Copied [] [] b b :=
  ⟨rfl, by simp, .nil, rfl, fun k => by simp [Expr.callsOf], fun _ => rfl⟩

theorem size (h : Copied old made b b') : b'.slots.size = b.slots.size + made.length := by
  simpa using congrArg List.length h.slots

theorem trans (h : Copied old made b b') (h' : Copied old' made' b' b'') :
    Copied (old ++ old') (made ++ made') b b'' where
  id := h'.id.trans h.id
  slots := by rw [h'.slots, h.slots, List.append_assoc]
  images := by
    rw [List.map_append]
    exact h.images.append h'.images
  refs := by
    rw [List.map_append, h.refs, h'.refs, h.size, h.id, List.length_append, ← List.map_append,
      List.range'_append_1]
  rules k := by
    rw [h'.rules, h.rules, h.id, Option.map_map, Expr.callsOf_append]
    simp only [Function.comp_def, Nat.add_assoc]
  sites {k d} hd := by
    have hd' : b'.rules[k]? = some { d with sites := d.sites + Expr.callsOf ⟨b.id, k⟩ old } := by
      rw [h.rules, hd]
      rfl
    have hs := h'.sites hd'
    rw [h.id] at hs
    rw [List.map_append, List.filterMap_append, h.sites hd, hs, List.range'_append_1,
      Expr.callsOf_append]

theorem ref_last (h : Copied old (made ++ [⟨root, t, f⟩]) b b') :
    root.ref = ⟨b.id, b.slots.size + made.length⟩ := by
  have hr := congrArg List.getLast? h.refs
  simpa [List.range'_concat] using hr

theorem mark_last (h : Copied old (made ++ [⟨root, t, f⟩]) b b') :
    Copied old (made ++ [⟨root, t, true⟩]) b { b' with
      slots := b'.slots.modify root.ref.index fun s => { s with installed := true } } where
  id := h.id
  slots := by
    have hi : root.ref.index = (b.slots.toList ++ made).length := by simp [h.ref_last]
    rw [Array.toList_modify, h.slots, hi, ← List.append_assoc, List.modify_eq_take_drop,
      List.take_left, List.drop_left]
    simp
  images := by simpa using h.images
  refs := by simpa using h.refs
  rules := h.rules
  sites hd := by simpa using h.sites hd

theorem concat (h : Copied old made b b') {y : Expr}
    (hr : y.ref = ⟨b.id, b.slots.size + made.length⟩) (hk : y.kind = x.kind)
    (hc : x.callee? = none)
    (hops : List.Forall₂ (fun c d => (c, d) ∈ old.zip (made.map (·.expr))) x.operands y.operands) :
    Copied (old ++ [x]) (made ++ [⟨y, t, false⟩]) b
      { b' with slots := b'.slots.push ⟨y, t, false⟩ } where
  id := h.id
  slots := by simp [h.slots]
  images := by
    rw [List.map_append]
    exact h.images.concat hk hops
  refs := by simp [h.refs, hr, List.range'_concat]
  rules k := by
    rw [h.rules, Expr.callsOf_append, Expr.callsOf_singleton, hc]
    rfl
  sites {k d} hd := by
    have hno : y.siteOf? ⟨b.id, k⟩ = none :=
      Expr.siteOf?_eq_none (by simp [Expr.callee?_eq_of_kind hk, hc])
    rw [List.map_append, List.filterMap_append, h.sites hd, Expr.callsOf_append,
      Expr.callsOf_singleton, hc]
    simp [hno]

theorem call {k : RuleRef} {d : RuleDecl} (hk : b.ruleDecl? k = some d) (r : NodeRef)
    (site : Nat) : Copied [.call r k site] [⟨.call ⟨b.id, b.slots.size⟩ k d.sites, false, false⟩] b
      { b with
        slots := b.slots.push ⟨.call ⟨b.id, b.slots.size⟩ k d.sites, false, false⟩
        rules := b.rules.modify k.index fun _ => { d with sites := d.sites + 1 } } where
  id := rfl
  slots := by simp
  images := Images.nil.concat rfl .nil
  refs := by simp [Expr.ref]
  rules i := by
    obtain ⟨ho, hd⟩ := ruleDecl?_eq_some_iff.1 hk
    rw [getElem?_modify_rules (by simp [hd]), Expr.callsOf_singleton]
    split
    · rename_i hi
      subst hi
      simp [hd, Expr.callee?, ← ho]
    · rename_i hi
      have hne : k ≠ ⟨b.id, i⟩ := fun h => hi (congrArg (·.index) h)
      simp [Expr.callee?, hne]
  sites {i d'} hd' := by
    obtain ⟨ho, hd⟩ := ruleDecl?_eq_some_iff.1 hk
    rw [Expr.callsOf_singleton]
    by_cases hi : k = ⟨b.id, i⟩
    · obtain rfl : d' = d := by simpa [hi, hd'] using hd
      simp [Expr.siteOf?, Expr.callee?, hi]
    · simp [Expr.siteOf?, Expr.callee?, hi]

end Copied

/-- Everything in the tree is where its handle says, and all nodes below the topmost are
installed. -/
structure Settled (b : Builder) (x : Expr) : Prop where
  intact : b.Intact x
  installed : ∀ y ∈ x.parts, ∀ c ∈ y.operands, ∃ t, b.slot? c.ref = some ⟨c, t, true⟩

namespace Settled

theorem operand (h : b.Settled x) (hc : c ∈ x.operands) :
    b.Settled c ∧ ∃ t, b.slot? c.ref = some ⟨c, t, true⟩ := by
  refine ⟨⟨(intact_iff.1 h.intact).2 c hc, fun y hy => ?_⟩, h.installed x x.self_mem_parts c hc⟩
  exact h.installed y (Expr.mem_parts_iff.2 (.inr ⟨c, hc, hy⟩))

end Settled

theorem slot?_eq_some_iff {r : NodeRef} {s : Slot} :
    b.slot? r = some s ↔ r.owner = b.id ∧ b.slots[r.index]? = some s := by
  rw [slot?]
  split <;> simp [*]

theorem Copied.slot? (h : Copied old made b b') {r : NodeRef} {s : Slot} (hs : b.slot? r = some s) :
    b'.slot? r = some s := by
  obtain ⟨ho, hs⟩ := slot?_eq_some_iff.1 hs
  refine slot?_eq_some_iff.2 ⟨ho.trans h.id.symm, ?_⟩
  rw [← Array.getElem?_toList] at hs ⊢
  rw [h.slots, List.getElem?_append_left (List.getElem?_eq_some_iff.1 hs).1, hs]

theorem Copied.slot?_made (h : Copied old made b b') {s : Slot} (hs : s ∈ made) :
    b'.slot? s.expr.ref = some s := by
  obtain ⟨i, hi⟩ := List.getElem?_of_mem hs
  have hlt := (List.getElem?_eq_some_iff.1 hi).1
  have href : s.expr.ref = ⟨b.id, b.slots.size + i⟩ := by
    have hr := congrArg (·[i]?) h.refs
    simpa [hi, List.getElem?_range' hlt] using hr
  rw [href, slot?_eq_some_iff]
  refine ⟨h.id.symm, ?_⟩
  rw [← Array.getElem?_toList, h.slots, ← hi]
  exact List.getElem?_append_right (Nat.le_add_right _ _) |>.trans (by simp)

/-- A copy that is made leaves other trees as they are. -/
theorem Settled.mono (h : b.Settled x) (hc : Copied old made b b') (hb : Grown b b') :
    b'.Settled x where
  intact := h.intact.mono hb.toExtends
  installed y hy c hc' := (h.installed y hy c hc').imp fun _ hs => hc.slot? hs

/-- In a builder whose nodes are used linearly, every tree is settled. -/
theorem Linear.settled (h : Linear b) {r : NodeRef} (hx : b.node? r = some x) : b.Settled x := by
  induction x using Expr.operand_induction generalizing r with
  | step x ih =>
    obtain ⟨s, hs, rfl⟩ := Option.map_eq_some_iff.1 hx
    obtain ⟨ho, hs⟩ := slot?_eq_some_iff.1 hs
    have href : s.expr.ref = r := by
      rw [h.node hs, ← ho]
    have hops : ∀ c ∈ s.expr.operands, ∃ t, b.slot? c.ref = some ⟨c, t, true⟩ :=
      fun c hc => (h.operand hs c hc).2.2
    have hsettled : ∀ c ∈ s.expr.operands, b.Settled c := by
      intro c hc
      obtain ⟨t, ht⟩ := hops c hc
      exact ih c hc (by rw [node?, ht]; rfl)
    refine ⟨intact_iff.2 ⟨⟨href ▸ hx, fun k hk => h.callee hs hk⟩, fun c hc => ?_⟩, fun y hy => ?_⟩
    · exact (hsettled c hc).intact
    · rcases Expr.mem_parts_iff.1 hy with rfl | ⟨c, hc, hy⟩
      · exact hops
      · exact (hsettled c hc).installed y hy

/-- The copy of a tree, with the given mark at the topmost node and all other nodes installed. -/
def CopyOf (x : Expr) (f : Bool) (b : Builder) (root : Expr) (b' : Builder) : Prop :=
  ∃ (below : List Slot) (t : Bool), (∀ s ∈ below, s.installed = true) ∧
    Copied x.postorder (below ++ [⟨root, t, f⟩]) b b'

theorem Copied.root_mem (h : Copied x.postorder (made ++ [⟨root, t, f⟩]) b b') :
    (x, root) ∈ x.postorder.zip ((made ++ [(⟨root, t, f⟩ : Slot)]).map (·.expr)) := by
  have hm := h.images
  rw [Expr.postorder_eq, List.map_append] at hm ⊢
  exact hm.last

theorem Nodewise.grown {α : Type} {act : BuildM α} (h : Nodewise act) (b : Builder) :
    Grown b (act b).2 := by
  have hsteps : NodeSteps b (act b).2 := h b
  exact ⟨hsteps.steps.extend, hsteps.declared_eq⟩

theorem Nodewise.makes {α : Type} {act : BuildM α} (h : Nodewise act) {Q : α → Builder → Prop}
    {a : α} (hact : act b = (.ok a, b')) (hQ : Q a b') : Makes act b Q := by
  have hgrown := h.grown b
  rw [hact] at hgrown
  exact ⟨a, b', hact, hgrown, hQ⟩

theorem makes_last {make : NodeRef → Expr} (h : Copied old made b b') (hr : ∀ q, (make q).ref = q)
    (hk : ∀ q, (make q).kind = x.kind) (hc : x.callee? = none)
    (hops : ∀ q, List.Forall₂ (fun c d => (c, d) ∈ old.zip (made.map (·.expr))) x.operands
      (make q).operands) :
    Makes (add make) b' fun y b'' =>
      ∃ t, Copied (old ++ [x]) (made ++ [⟨y, t, false⟩]) b b'' := by
  have hnode := nodewise_add hr fun q => (Expr.callee?_eq_of_kind (hk q)).trans hc
  obtain ⟨t, ht⟩ := exists_terminalFlag (e := make ⟨b'.id, b'.slots.size⟩) (b := b') fun d hd => by
    obtain ⟨s, hs, rfl⟩ := List.mem_map.1 (Images.mem_of_operands (hops _) hd)
    rw [owns, h.slot?_made hs]
    rfl
  refine hnode.makes (add_ok ht) ⟨t, h.concat ?_ (hk _) hc (hops _)⟩
  rw [hr, h.id, h.size]

theorem makes_copy_leaf {make : NodeRef → Expr} (hpost : x.postorder = [x])
    (hr : ∀ q, (make q).ref = q) (hk : ∀ q, (make q).kind = x.kind) (hc : x.callee? = none)
    (hx : x.operands = []) (hops : ∀ q, (make q).operands = []) :
    Makes (add make) b (CopyOf x false b) := by
  refine (makes_last (.refl b) hr hk hc fun q => ?_).imp fun y b' ⟨t, hy⟩ =>
    ⟨[], t, by simp, ?_⟩
  · rw [hx, hops]
    exact .nil
  · rwa [hpost]

theorem makes_copy_call {k : RuleRef} (hk : b.ownsRule k = true) (r : NodeRef) (site : Nat) :
    Makes (addCall k) b (CopyOf (.call r k site) false b) := by
  obtain ⟨d, hd⟩ := Option.isSome_iff_exists.1 hk
  refine (nodewise_addCall k).makes ?_ ⟨[], false, by simp, Copied.call hd r site⟩
  rw [addCall, bind_apply, ruleDecl_apply, hd]
  rfl

/-- A node that is installed already is given away as a copy, which is installed then. -/
theorem makes_install_copy {copied : BuildM Expr} (hi : b.slot? c.ref = some ⟨c, t, true⟩)
    (h : Makes copied b (CopyOf c false b)) : Makes (install c copied) b (CopyOf c true b) := by
  have hflag : Makes (isInstalled c.ref) b fun i b' => i = true ∧ b' = b := by
    refine Nodewise.makes (along_isInstalled _) ?_ ⟨rfl, rfl⟩
    rw [isInstalled, bind_apply, slot_apply, hi]
    rfl
  apply hflag.bind
  rintro i b' - ⟨rfl, rfl⟩
  apply h.bind
  rintro root b' - ⟨below, t, hbelow, hroot⟩
  exact ((nodewise_mark root.ref).makes rfl hroot.mark_last).bind fun _ _ _ hmark =>
    .pure ⟨below, t, hbelow, hmark⟩

theorem node_apply {q : NodeRef} (hq : b.node? q = some x) : node q b = (.ok x, b) := by
  obtain ⟨s, hs, rfl⟩ := Option.map_eq_some_iff.1 hq
  rw [node, bind_apply, slot_apply, hs]
  rfl

section Operands

variable {l r : Expr} (hx : b.Settled x)
include hx

/-- The copy of a node with two operands: both are copied before it, the left one first. -/
theorem makes_copy_binary (make : Expr → Expr → NodeRef → Expr) (hops : x.operands = [l, r])
    (hl : ∀ b, b.Settled l → Makes (copyTree l) b (CopyOf l false b))
    (hr : ∀ b, b.Settled r → Makes (copyTree r) b (CopyOf r false b)) (hc : x.callee? = none)
    (hmake : ∀ c d q, (make c d q).ref = q ∧ (make c d q).kind = x.kind ∧
      (make c d q).operands = [c, d]) :
    Makes (do
      let l ← install l (copyTree l)
      let r ← install r (copyTree r)
      add (make l r)) b (CopyOf x false b) := by
  obtain ⟨hsl, tl, hil⟩ := hx.operand (c := l) (by simp [hops])
  obtain ⟨hsr, tr, hir⟩ := hx.operand (c := r) (by simp [hops])
  apply (makes_install_copy hil (hl b hsl)).bind
  rintro l' b₁ hb₁ ⟨below, tl', hbelow, hcl⟩
  -- the left operand has been copied, and the right one is where it was
  apply (makes_install_copy (hcl.slot? hir) (hr b₁ (hsr.mono hcl hb₁))).bind
  rintro r' b₂ - ⟨below', tr', hbelow', hcr⟩
  refine (makes_last (x := x) (hcl.trans hcr) (fun q => (hmake l' r' q).1)
    (fun q => (hmake l' r' q).2.1) hc fun q => ?_).imp fun y b₃ ⟨t, hy⟩ =>
      ⟨below ++ ⟨l', tl', true⟩ :: (below' ++ [⟨r', tr', true⟩]), t, ?_, ?_⟩
  · rw [hops, (hmake l' r' q).2.2, List.map_append, hcl.images.zip_append]
    exact .cons (List.mem_append_left _ hcl.root_mem)
      (.cons (List.mem_append_right _ hcr.root_mem) .nil)
  · simp only [List.mem_append, List.mem_cons, List.not_mem_nil, or_false]
    rintro s (hs | rfl | hs | rfl)
    · exact hbelow s hs
    · rfl
    · exact hbelow' s hs
    · rfl
  · rw [Expr.postorder_eq, hops]
    simpa using hy

theorem makes_copy_unary (make : Expr → NodeRef → Expr) (hops : x.operands = [c])
    (hcopy : ∀ b, b.Settled c → Makes (copyTree c) b (CopyOf c false b)) (hc : x.callee? = none)
    (hmake : ∀ d q, (make d q).ref = q ∧ (make d q).kind = x.kind ∧ (make d q).operands = [d]) :
    Makes (do
      let c ← install c (copyTree c)
      add (make c)) b (CopyOf x false b) := by
  obtain ⟨hs, t, hi⟩ := hx.operand (c := c) (by simp [hops])
  apply (makes_install_copy hi (hcopy b hs)).bind
  rintro d b₁ - ⟨below, t', hbelow, hd⟩
  refine (makes_last (x := x) hd (fun q => (hmake d q).1) (fun q => (hmake d q).2.1) hc
    fun q => ?_).imp fun y b₂ ⟨t, hy⟩ => ⟨below ++ [⟨d, t', true⟩], t, ?_, ?_⟩
  · rw [hops, (hmake d q).2.2]
    exact .cons hd.root_mem .nil
  · simp only [List.mem_append, List.mem_singleton]
    rintro s (hs | rfl)
    · exact hbelow s hs
    · rfl
  · rw [Expr.postorder_eq, hops]
    simpa using hy

end Operands

/-- The copy of a tree is laid out in post-order. -/
theorem makes_copyTree_copyOf (hx : b.Settled x) : Makes (copyTree x) b (CopyOf x false b) := by
  induction x generalizing b with
  | token | eps | endMark =>
    exact makes_copy_leaf rfl (fun _ => rfl) (fun _ => rfl) rfl rfl fun _ => rfl
  | call r k site => exact makes_copy_call ((intact_iff.1 hx.intact).1.2 k rfl) r site
  | plus r a ih =>
    exact makes_copy_unary hx (fun c q => .plus q c) rfl (fun _ => ih) rfl
      fun _ _ => ⟨rfl, rfl, rfl⟩
  | alt r a b iha ihb =>
    exact makes_copy_binary hx (fun c d q => .alt q c d) rfl (fun _ => iha) (fun _ => ihb) rfl
      fun _ _ _ => ⟨rfl, rfl, rfl⟩
  | seq r a b iha ihb =>
    exact makes_copy_binary hx (fun c d q => .seq q c d) rfl (fun _ => iha) (fun _ => ihb) rfl
      fun _ _ _ => ⟨rfl, rfl, rfl⟩
  | conj r a b iha ihb =>
    exact makes_copy_binary hx (fun c d q => .conj q c d) rfl (fun _ => iha) (fun _ => ihb) rfl
      fun _ _ _ => ⟨rfl, rfl, rfl⟩

section Handles

variable {α : Type} {l r : Expr}

theorem take_apply (hc : b.node? c.ref = some c) :
    take c.ref b = install c (copyTree c) b := by
  rw [take, bind_apply, node_apply hc]

theorem take_both_apply (hl : b.node? l.ref = some l) (hr : b.node? r.ref = some r)
    (next : Expr → Expr → BuildM α) :
    (do
      let l ← take l.ref
      let r ← take r.ref
      next l r : BuildM α) b =
    (do
      let l ← install l (copyTree l)
      let r ← install r (copyTree r)
      next l r : BuildM α) b := by
  have hkeep := ((nodewise_install l (nodewise_copyTree l)).grown b).node? hr
  rw [bind_apply, bind_apply, take_apply hl]
  cases (install l (copyTree l) b).1 with
  | error f => rfl
  | ok l' =>
    dsimp only
    rw [bind_apply, bind_apply, take_apply hkeep]

/-- The operation that makes a node like the given one, used on the handles of its operands. -/
def remake : Expr → BuildM NodeRef
  | .token _ test => token test
  | .eps _ => eps
  | .alt _ l r => alt l.ref r.ref
  | .seq _ l r => seq l.ref r.ref
  | .conj _ l r => conj l.ref r.ref
  | .plus _ c => plus c.ref
  | .call _ k _ => call k
  | .endMark _ => do return (← add .endMark).ref

/-- A node is copied by giving away its operands and making the node once more. -/
theorem copy_eq_remake {q : NodeRef} (hq : b.node? q = some x) (hx : b.Intact x) :
    copy q b = remake x b := by
  have hops : ∀ c ∈ x.operands, b.node? c.ref = some c :=
    fun c hc => ((intact_iff.1 hx).2 c hc).self
  rw [copy, bind_apply, node_apply hq]
  cases x with
  | token | eps | endMark | call => rfl
  | plus _ c =>
    have hc := take_apply (hops c (by simp [Expr.operands]))
    simp only [copyTree, bind_assoc, remake, plus]
    rw [bind_apply, bind_apply, hc]
  | alt _ l r | seq _ l r | conj _ l r =>
    have hl := hops l (by simp [Expr.operands])
    have hr := hops r (by simp [Expr.operands])
    simp only [copyTree, bind_assoc]
    exact (take_both_apply hl hr _).symm

end Handles

theorem Copied.same_flag {held kept held' kept' : List Expr} (h : Copied x.postorder made b b')
    (hx : b.Intact x) (hs : Sound held kept b) (hs' : Sound held' kept' b') :
    ∀ p ∈ x.postorder.zip made, ∃ i, b.slot? p.1.ref = some ⟨p.1, p.2.terminal, i⟩ := by
  rintro ⟨y, s'⟩ hp
  obtain ⟨hy, hmade⟩ := List.of_mem_zip hp
  obtain ⟨s, hslot, rfl⟩ := Option.map_eq_some_iff.1 (hx y (x.postorder_perm.subset hy)).1
  have hsame : s'.expr.isTerminal = s.expr.isTerminal := by
    refine h.images.terminal (s.expr, s'.expr) ?_
    rw [List.zip_map_right]
    exact List.mem_map_of_mem hp
  have hterm := hs.flag _ s (slot?_eq_some_iff.1 hslot).2
  have hterm' := hs'.flag _ s' (slot?_eq_some_iff.1 (h.slot?_made hmade)).2
  refine ⟨s.installed, ?_⟩
  rw [hslot, hterm', hsame, ← hterm]

/-- Whatever a client has done with a builder, the copy of a node is laid out in post-order after
all nodes that there are; it takes as many nodes as the tree has, and the next call sites. Each node
of the copy is marked as a terminal if the node that it is a copy of is. Following the handles of
operands comes to an end, since they are handles of older nodes. -/
theorem copy_postorder {α : Type} {act : BuildM α} (h : Client act) {id : Nat}
    (hb : (act (new id)).2 = b) {r : NodeRef} (hx : b.node? r = some x) :
    b.Intact x ∧ (∀ y ∈ x.parts, ∀ c ∈ y.operands, c.ref.index < y.ref.index) ∧
      copy r b = remake x b ∧
      (∀ k d, b.rules[k]? = some d → b.sitesOf ⟨b.id, k⟩ = List.range d.sites) ∧
      ∃ (below : List Slot) (root : Slot) (b' : Builder), below.length + 1 = x.parts.length ∧
        copy r b = (.ok ⟨b.id, b.slots.size + x.parts.length - 1⟩, b') ∧
        (∀ s ∈ below, s.installed = true) ∧ root.installed = false ∧
        Copied x.postorder (below ++ [root]) b b' ∧
        ∀ p ∈ x.postorder.zip (below ++ [root]),
          ∃ i, b.slot? p.1.ref = some ⟨p.1, p.2.terminal, i⟩ := by
  subst hb
  have hlin := (linear_use h id).1
  have hsettled := hlin.settled hx
  have holder : ∀ y ∈ x.parts, ∀ c ∈ y.operands, c.ref.index < y.ref.index := by
    intro y hy c hc
    obtain ⟨s, hs, rfl⟩ := Option.map_eq_some_iff.1 (hsettled.intact y hy).1
    exact (hlin.operand (slot?_eq_some_iff.1 hs).2 c hc).2.1
  refine ⟨hsettled.intact, holder, copy_eq_remake hx hsettled.intact,
    fun k d hd => hlin.sites hd, ?_⟩
  obtain ⟨root, b', hcopy, -, below, t, hbelow, hroot⟩ := makes_copyTree_copyOf hsettled
  have hsize : below.length + 1 = x.parts.length := by
    rw [← x.postorder_perm.length_eq, ← hroot.images.length]
    simp
  have hrun : copy r (act (new id)).2 = (.ok root.ref, b') := by
    rw [copy, bind_apply, node_apply hx]
    show (copyTree x >>= _ : BuildM NodeRef) _ = _
    rw [bind_apply, hcopy]
    rfl
  -- marks agree with trees before and after, so those of the copy are those of the original
  have hs : Sound [] [] (act (new id)).2 := h.safe.run (sound_new id)
  have hs' : Sound [] [] b' := by
    have hcopied : Sound [] [] (copy r (act (new id)).2).2 := (Client.copy r).safe.run hs
    rwa [hrun] at hcopied
  refine ⟨below, ⟨root, t, false⟩, b', hsize, ?_, hbelow, rfl, hroot,
    hroot.same_flag hsettled.intact hs hs'⟩
  rw [hrun, hroot.ref_last, ← hsize]
  rfl

/-- A pair that is marked by an operation that fails, and is then used twice, as a copy each time. -/
def halfUsed : BuildM NodeRef := do
  let k ← rule "k"
  let inner ← call k
  let item ← token (.equal 97)
  let pair ← seq inner item
  let _ ← attempt (alt pair ⟨7, 0⟩)
  let many ← plus pair
  seq pair many

/-- The pair that is made of the nodes from number `i` on. -/
def pairFrom (i site : Nat) : Expr :=
  .seq ⟨0, i + 2⟩ (.call ⟨0, i⟩ ⟨0, 0⟩ site) (.token ⟨0, i + 1⟩ (.equal 97))

/-- Here the numbers of the old nodes are not in the order in which the nodes are copied. -/
theorem copy_postorder_halfUsed :
    let b := (halfUsed (new 0)).2
    let x := Expr.seq ⟨0, 10⟩ (pairFrom 7 2) (.plus ⟨0, 6⟩ (pairFrom 3 1))
    b.node? ⟨0, 10⟩ = some x ∧
      (copy ⟨0, 10⟩ b).2.node? ⟨0, 18⟩ =
        some (.seq ⟨0, 18⟩ (pairFrom 11 3) (.plus ⟨0, 17⟩ (pairFrom 14 4))) ∧
      ∃ (below : List Slot) (root : Slot) (b' : Builder), copy ⟨0, 10⟩ b = (.ok ⟨0, 18⟩, b') ∧
        (∀ s ∈ below, s.installed = true) ∧ root.installed = false ∧
        Copied x.postorder (below ++ [root]) b b' ∧
        ∀ p ∈ x.postorder.zip (below ++ [root]),
          ∃ i, b.slot? p.1.ref = some ⟨p.1, p.2.terminal, i⟩ := by
  have hclient : Client halfUsed :=
    .bind (.rule _) fun k => .bind (.call k) fun _ => .bind (.token _) fun _ =>
      .bind (.seq _ _) fun _ => .bind (.attempt (.alt _ _)) fun _ => .bind (.plus _) fun _ =>
        .seq _ _
  have hx : (halfUsed (new 0)).2.node? ⟨0, 10⟩ =
      some (.seq ⟨0, 10⟩ (pairFrom 7 2) (.plus ⟨0, 6⟩ (pairFrom 3 1))) := by decide +kernel
  have hnext : (halfUsed (new 0)).2.id = 0 ∧ (halfUsed (new 0)).2.slots.size = 11 := by
    decide +kernel
  obtain ⟨-, -, -, -, below, root, b', -, hcopy, hmade⟩ := copy_postorder hclient rfl hx
  rw [hnext.1, hnext.2] at hcopy
  exact ⟨hx, by decide +kernel, below, root, b', hcopy, hmade⟩

end Builder

end TokenGrammar
