import TokenGrammar.Builder.Rules
import TokenGrammar.Proofs.Parts
import Mathlib.Data.List.Nodup

/-!
# Who owns which node

A node of a builder belongs to the node that it is an operand of, or to the rule that it is the body
of. No node ever has two such parents. While an action is under way, the nodes that have been taken
but not yet put to use are held: they are marked as installed and have no parent. Every node is
marked as a terminal if its tree is one, and as none if it is not.
-/

namespace TokenGrammar

/-- A place that holds a node: an operand of a node, or the body of a rule. -/
inductive Place
  | operand (node : Nat) (k : Nat)
  | body (rule : Nat)

/-- A node that is marked as its tree says. -/
abbrev Slot.of (e : Expr) (installed : Bool) : Slot := ⟨e, e.isTerminal, installed⟩

namespace Builder

def at? (b : Builder) : Place → Option Expr
  | .operand i k => b.slots[i]?.bind fun s => s.expr.operands[k]?
  | .body r => b.rules[r]?.bind (·.body)

def Stored (b : Builder) (e : Expr) : Prop := ∃ i, b.slots[e.ref.index]? = some (.of e i)

/-- What holds of a builder at all times. The nodes `held` have been taken, and `kept` are some nodes
that will be needed later. -/
structure Sound (held kept : List Expr) (b : Builder) : Prop where
  index : ∀ (i : Nat) (s : Slot), b.slots[i]? = some s → s.expr.ref.index = i
  flag : ∀ (i : Nat) (s : Slot), b.slots[i]? = some s → s.terminal = s.expr.isTerminal
  callee : ∀ (i : Nat) (s : Slot) (r : RuleRef), b.slots[i]? = some s → s.expr.callee? = some r →
    r.index < b.rules.size
  noEnd : ∀ (i : Nat) (s : Slot) (r : NodeRef), b.slots[i]? = some s → s.expr ≠ .endMark r
  before : ∀ (i : Nat) (s : Slot), b.slots[i]? = some s → ∀ c ∈ s.expr.operands, c.ref.index < i
  installed : ∀ (p : Place) (e : Expr), b.at? p = some e → b.slots[e.ref.index]? = some (.of e true)
  once : ∀ (p p' : Place) (e e' : Expr), b.at? p = some e → b.at? p' = some e' →
    e.ref.index = e'.ref.index → p = p'
  taken : ∀ e ∈ held, b.slots[e.ref.index]? = some (.of e true)
  free : ∀ e ∈ held, ∀ (p : Place) (e' : Expr), b.at? p = some e' → e'.ref.index ≠ e.ref.index
  distinct : (held.map (·.ref.index)).Nodup
  stored : ∀ e ∈ kept, b.Stored e

variable {b : Builder} {held kept : List Expr} {e : Expr}

theorem sound_new (id : Nat) : Sound [] [] (new id) where
  index i s h := by simp [new] at h
  flag i s h := by simp [new] at h
  callee i s r h := by simp [new] at h
  noEnd i s r h := by simp [new] at h
  before i s h := by simp [new] at h
  installed p e h := by cases p <;> simp [new, at?] at h
  once p p' e e' h := by cases p <;> simp [new, at?] at h
  taken e h := by cases h
  free e h := by cases h
  distinct := .nil
  stored e h := by cases h

section Push

variable {i : Nat} {s new : Slot} {p : Place} {c : Expr}

private theorem slot_push_of_slot (h : b.slots[i]? = some s) :
    (b.slots.push new)[i]? = some s := by
  rwa [Array.getElem?_push_lt (Array.getElem?_eq_some_iff.1 h).1, ← Array.getElem?_eq_getElem]

private theorem slot_of_slot_push (h : (b.slots.push new)[i]? = some s) :
    b.slots[i]? = some s ∨ i = b.slots.size ∧ s = new := by
  rw [Array.getElem?_push] at h
  split at h
  · exact .inr ⟨‹_›, (Option.some.inj h).symm⟩
  · exact .inl h

private theorem at_of_at_push
    (h : ({ b with slots := b.slots.push new } : Builder).at? p = some c) :
    b.at? p = some c ∨ ∃ k, p = .operand b.slots.size k ∧ new.expr.operands[k]? = some c := by
  cases p with
  | body r => exact .inl h
  | operand i k =>
    obtain ⟨s, hs, hk⟩ := Option.bind_eq_some_iff.1 h
    rcases slot_of_slot_push hs with hs | ⟨rfl, rfl⟩
    · exact .inl (Option.bind_eq_some_iff.2 ⟨s, hs, hk⟩)
    · exact .inr ⟨k, rfl, hk⟩

end Push

section Mark

variable {i j : Nat} {s : Slot} {c : Expr}

private theorem slot_of_slot_mark
    (h : (b.slots.modify j fun s => { s with installed := true })[i]? = some s) :
    ∃ f, b.slots[i]? = some ⟨s.expr, s.terminal, f⟩ := by
  rw [Array.getElem?_modify] at h
  split at h
  · obtain ⟨s', hs', rfl⟩ := Option.map_eq_some_iff.1 h
    exact ⟨s'.installed, hs'⟩
  · exact ⟨s.installed, h⟩

private theorem slot_mark_of_installed (h : b.slots[i]? = some (.of c true)) :
    (b.slots.modify j fun s => { s with installed := true })[i]? = some (.of c true) := by
  rw [Array.getElem?_modify, h]
  split <;> rfl

private theorem at_mark (p : Place) :
    ({ b with slots := b.slots.modify j fun s => { s with installed := true } } : Builder).at? p =
      b.at? p := by
  cases p with
  | body r => rfl
  | operand i k =>
    show Option.bind ((b.slots.modify _ _)[i]?) _ = Option.bind _ _
    rw [Array.getElem?_modify]
    split
    · cases b.slots[i]? <;> rfl
    · rfl

end Mark

private theorem at_of_at_setRule {r : Nat} {d : RuleDecl} (hd : d.body = some e) {p : Place}
    {c : Expr} (h : ({ b with rules := b.rules.modify r fun _ => d } : Builder).at? p = some c) :
    p = .body r ∧ c = e ∨ b.at? p = some c := by
  cases p with
  | operand i k => exact .inr h
  | body r' =>
    have h : Option.bind ((b.rules.modify r fun _ => d)[r']?) (·.body) = some c := h
    rw [Array.getElem?_modify] at h
    split at h
    · rename_i hr
      obtain ⟨d', hd', hc⟩ := Option.bind_eq_some_iff.1 h
      obtain ⟨d₀, -, rfl⟩ := Option.map_eq_some_iff.1 hd'
      exact .inl ⟨by rw [hr], (Option.some.inj (hd.symm.trans hc)).symm⟩
    · exact .inr h

namespace Sound

theorem drop (h : Sound held kept b) {held' kept' : List Expr} (hh : held'.Sublist held)
    (hk : ∀ e ∈ kept', e ∈ kept) : Sound held' kept' b :=
  { h with
    taken := fun e he => h.taken e (hh.subset he)
    free := fun e he => h.free e (hh.subset he)
    distinct := h.distinct.sublist (hh.map _)
    stored := fun e he => h.stored e (hk e he) }

theorem perm (h : Sound held kept b) {held' : List Expr} (hp : held.Perm held') :
    Sound held' kept b :=
  { h with
    taken := fun e he => h.taken e (hp.mem_iff.2 he)
    free := fun e he => h.free e (hp.mem_iff.2 he)
    distinct := (hp.map _).nodup_iff.1 h.distinct }

theorem loose (h : Sound held kept b) : Sound [] [] b := h.drop (List.nil_sublist held) (by simp)

theorem slot_eq (h : Sound held kept b) {i : Nat} {s : Slot} (hs : b.slots[i]? = some s) :
    s = .of s.expr s.installed := by
  rw [Slot.of, ← h.flag i s hs]

theorem stored_slot (h : Sound held kept b) {i : Nat} {s : Slot} (hs : b.slots[i]? = some s) :
    b.Stored s.expr :=
  ⟨s.installed, by rw [h.index i s hs, hs, ← h.slot_eq hs]⟩

theorem stored_operand (h : Sound held kept b) (he : b.Stored e) {c : Expr}
    (hc : c ∈ e.operands) : b.Stored c ∧ c.ref.index < e.ref.index := by
  obtain ⟨i, hi⟩ := he
  obtain ⟨k, hk⟩ := List.getElem?_of_mem hc
  refine ⟨⟨true, h.installed (.operand e.ref.index k) c ?_⟩, h.before _ _ hi c hc⟩
  simp [at?, hi, hk]

theorem keep (h : Sound held kept b) {es : List Expr} (hes : ∀ e ∈ es, b.Stored e) :
    Sound held (es ++ kept) b :=
  { h with
    stored := fun e he => (List.mem_append.1 he).elim (hes e) (h.stored e) }

theorem congr (h : Sound held kept b) {b' : Builder} (hs : b'.slots = b.slots)
    (hp : ∀ p, b'.at? p = b.at? p) (hr : b.rules.size ≤ b'.rules.size) : Sound held kept b' where
  index := hs ▸ h.index
  flag := hs ▸ h.flag
  callee i s r hi hc := Nat.lt_of_lt_of_le (h.callee i s r (hs ▸ hi) hc) hr
  noEnd := hs ▸ h.noEnd
  before := hs ▸ h.before
  installed p e he := by
    rw [hs]
    exact h.installed p e (hp p ▸ he)
  once p p' e e' he he' := h.once p p' e e' (hp p ▸ he) (hp p' ▸ he')
  taken := hs ▸ h.taken
  free e he p e' he' := h.free e he p e' (hp p ▸ he')
  distinct := h.distinct
  stored e he := by
    obtain ⟨i, hi⟩ := h.stored e he
    exact ⟨i, hs ▸ hi⟩

theorem add (h : Sound (e.operands ++ held) kept b) (hi : e.ref.index = b.slots.size)
    (hc : ∀ r, e.callee? = some r → r.index < b.rules.size) (hne : ∀ r, e ≠ .endMark r) :
    Sound held kept { b with slots := b.slots.push (.of e false) } := by
  have hmem : ∀ {k : Nat} {c : Expr}, e.operands[k]? = some c → c ∈ e.operands ++ held :=
    fun hk => List.mem_append_left _ (List.mem_of_getElem? hk)
  have hdist := h.distinct
  rw [List.map_append, List.nodup_append] at hdist
  constructor
  case index =>
    intro i s hs
    rcases slot_of_slot_push hs with hs | ⟨rfl, rfl⟩
    · exact h.index i s hs
    · exact hi
  case flag =>
    intro i s hs
    rcases slot_of_slot_push hs with hs | ⟨rfl, rfl⟩
    · exact h.flag i s hs
    · rfl
  case callee =>
    intro i s r hs hr
    rcases slot_of_slot_push hs with hs | ⟨rfl, rfl⟩
    · exact h.callee i s r hs hr
    · exact hc r hr
  case noEnd =>
    intro i s r hs
    rcases slot_of_slot_push hs with hs | ⟨rfl, rfl⟩
    · exact h.noEnd i s r hs
    · exact hne r
  case before =>
    intro i s hs c hc
    rcases slot_of_slot_push hs with hs | ⟨rfl, rfl⟩
    · exact h.before i s hs c hc
    · exact (Array.getElem?_eq_some_iff.1 (h.taken c (List.mem_append_left _ hc))).1
  case installed =>
    intro p c hp
    rcases at_of_at_push hp with hp | ⟨k, rfl, hk⟩
    · exact slot_push_of_slot (h.installed p c hp)
    · exact slot_push_of_slot (h.taken c (hmem hk))
  case once =>
    intro p p' c c' hp hp' hcc
    rcases at_of_at_push hp with hp | ⟨k, rfl, hk⟩
    · rcases at_of_at_push hp' with hp' | ⟨k', rfl, hk'⟩
      · exact h.once p p' c c' hp hp' hcc
      · exact absurd hcc (h.free c' (hmem hk') p c hp)
    · rcases at_of_at_push hp' with hp' | ⟨k', rfl, hk'⟩
      · exact absurd hcc.symm (h.free c (hmem hk) p' c' hp')
      · -- two operands of the new node are different nodes
        have hlt : k < (e.operands.map (·.ref.index)).length := by
          simpa using (List.getElem?_eq_some_iff.1 hk).1
        have hkk : k = k' := (List.getElem?_inj hlt hdist.1).1 (by simp [hk, hk', hcc])
        rw [hkk]
  case taken => exact fun c hc => slot_push_of_slot (h.taken c (List.mem_append_right _ hc))
  case free =>
    intro c hc p c' hp
    rcases at_of_at_push hp with hp | ⟨k, rfl, hk⟩
    · exact h.free c (List.mem_append_right _ hc) p c' hp
    · exact hdist.2.2 _ (List.mem_map_of_mem (List.mem_of_getElem? hk)) _ (List.mem_map_of_mem hc)
  case distinct => exact hdist.2.1
  case stored =>
    intro c hc
    obtain ⟨i, hi⟩ := h.stored c hc
    exact ⟨i, slot_push_of_slot hi⟩

theorem mark (h : Sound held kept b) (he : b.slots[e.ref.index]? = some (.of e false)) :
    Sound (e :: held) kept
      { b with slots := b.slots.modify e.ref.index fun s => { s with installed := true } } := by
  -- nodes with a parent and nodes that are held are installed
  have hfree : ∀ {c : Expr}, b.slots[c.ref.index]? = some (.of c true) → c.ref.index ≠ e.ref.index := by
    intro c hc hce
    rw [hce, he] at hc
    cases hc
  constructor
  case index =>
    intro i s hs
    obtain ⟨f, hf⟩ := slot_of_slot_mark hs
    exact h.index i ⟨s.expr, s.terminal, f⟩ hf
  case flag =>
    intro i s hs
    obtain ⟨f, hf⟩ := slot_of_slot_mark hs
    exact h.flag i ⟨s.expr, s.terminal, f⟩ hf
  case callee =>
    intro i s r hs hr
    obtain ⟨f, hf⟩ := slot_of_slot_mark hs
    exact h.callee i ⟨s.expr, s.terminal, f⟩ r hf hr
  case noEnd =>
    intro i s r hs
    obtain ⟨f, hf⟩ := slot_of_slot_mark hs
    exact h.noEnd i ⟨s.expr, s.terminal, f⟩ r hf
  case before =>
    intro i s hs
    obtain ⟨f, hf⟩ := slot_of_slot_mark hs
    exact h.before i ⟨s.expr, s.terminal, f⟩ hf
  case installed => exact fun p c hp => slot_mark_of_installed (h.installed p c (at_mark p ▸ hp))
  case once => exact fun p p' c c' hp hp' => h.once p p' c c' (at_mark p ▸ hp) (at_mark p' ▸ hp')
  case taken =>
    refine List.forall_mem_cons.2 ⟨?_, fun c hc => slot_mark_of_installed (h.taken c hc)⟩
    refine Array.getElem?_modify.trans ?_
    rw [if_pos rfl, he]
    rfl
  case free =>
    refine List.forall_mem_cons.2 ⟨fun p c hp => ?_, fun c hc p c' hp => ?_⟩
    · exact hfree (h.installed p c (at_mark p ▸ hp))
    · exact h.free c hc p c' (at_mark p ▸ hp)
  case distinct =>
    refine List.nodup_cons.2 ⟨fun hm => ?_, h.distinct⟩
    obtain ⟨c, hc, hce⟩ := List.mem_map.1 hm
    exact hfree (h.taken c hc) hce
  case stored =>
    intro c hc
    obtain ⟨f, hf⟩ := h.stored c hc
    refine ⟨if e.ref.index = c.ref.index then true else f, ?_⟩
    refine Array.getElem?_modify.trans ?_
    rw [hf]
    split <;> rfl

theorem setRule (h : Sound (e :: held) kept b) (r : Nat) {d : RuleDecl} (hd : d.body = some e) :
    Sound held kept { b with rules := b.rules.modify r fun _ => d } := by
  have hdist := List.nodup_cons.1 h.distinct
  constructor
  case index => exact h.index
  case flag => exact h.flag
  case callee =>
    intro i s r' hs hr'
    show _ < (b.rules.modify _ _).size
    rw [Array.size_modify]
    exact h.callee i s r' hs hr'
  case noEnd => exact h.noEnd
  case before => exact h.before
  case installed =>
    intro p c hp
    rcases at_of_at_setRule hd hp with ⟨-, rfl⟩ | hp
    · exact h.taken c List.mem_cons_self
    · exact h.installed p c hp
  case once =>
    intro p p' c c' hp hp' hcc
    rcases at_of_at_setRule hd hp with ⟨rfl, rfl⟩ | hp
    · rcases at_of_at_setRule hd hp' with ⟨rfl, -⟩ | hp'
      · rfl
      · exact absurd hcc.symm (h.free c List.mem_cons_self p' c' hp')
    · rcases at_of_at_setRule hd hp' with ⟨rfl, rfl⟩ | hp'
      · exact absurd hcc (h.free c' List.mem_cons_self p c hp)
      · exact h.once p p' c c' hp hp' hcc
  case taken => exact fun c hc => h.taken c (List.mem_cons_of_mem _ hc)
  case free =>
    intro c hc p c' hp hcc
    rcases at_of_at_setRule hd hp with ⟨-, rfl⟩ | hp
    · exact hdist.1 (List.mem_map.2 ⟨c, hc, hcc.symm⟩)
    · exact h.free c (List.mem_cons_of_mem _ hc) p c' hp hcc
  case distinct => exact hdist.2
  case stored => exact h.stored

theorem eq_of_index {x y : Expr} (hx : b.Stored x) (hy : b.Stored y)
    (h : x.ref.index = y.ref.index) : x = y := by
  obtain ⟨f, hf⟩ := hx
  obtain ⟨f', hf'⟩ := hy
  rw [h, hf'] at hf
  cases hf
  rfl

theorem operand_place (he : b.Stored e) {c : Expr} {k : Nat} (hk : e.operands[k]? = some c) :
    b.at? (.operand e.ref.index k) = some c := by
  obtain ⟨f, hf⟩ := he
  simp [at?, hf, hk]

section Trees

variable (h : Sound held kept b) {a c x y : Expr}
include h

theorem stored_part (he : b.Stored e) (hx : x ∈ e.parts) :
    b.Stored x ∧ x.ref.index ≤ e.ref.index := by
  induction e using Expr.operand_induction with
  | step e ih =>
    rcases Expr.mem_parts_iff.1 hx with rfl | ⟨c, hc, hx⟩
    · exact ⟨he, Nat.le_refl _⟩
    · obtain ⟨hs, hlt⟩ := h.stored_operand he hc
      obtain ⟨hx, hle⟩ := ih c hc hs hx
      exact ⟨hx, Nat.le_trans hle (Nat.le_of_lt hlt)⟩

theorem eq_of_operand (ha : b.Stored a) (hy : b.Stored y) (hx : x ∈ a.operands)
    (hx' : x ∈ y.operands) : a = y := by
  obtain ⟨k, hk⟩ := List.getElem?_of_mem hx
  obtain ⟨k', hk'⟩ := List.getElem?_of_mem hx'
  have := h.once _ _ x x (operand_place ha hk) (operand_place hy hk') rfl
  exact eq_of_index ha hy (Place.operand.inj this).1

/-- Of two trees that share a node, one is in the other. -/
theorem nested (ha : b.Stored a) (hc : b.Stored c) (hx : x ∈ a.parts) (hx' : x ∈ c.parts) :
    a ∈ c.parts ∨ c ∈ a.parts := by
  induction a using Expr.operand_induction with
  | step a ih =>
    rcases Expr.mem_parts_iff.1 hx with rfl | ⟨d, hd, hx⟩
    · exact .inl hx'
    · have hda : d ∈ a.parts := Expr.mem_parts_iff.2 (.inr ⟨d, hd, Expr.self_mem_parts d⟩)
      rcases ih d hd (h.stored_operand ha hd).1 hx with hdc | hcd
      · rcases Expr.eq_or_operand_of_mem_parts hdc with rfl | ⟨y, hy, hdy⟩
        · exact .inr hda
        · rw [h.eq_of_operand ha (h.stored_part hc hy).1 hd hdy]
          exact .inl hy
      · exact .inr (Expr.mem_parts_trans hcd hda)

theorem shared_node (ha : b.Stored a) (hc : b.Stored c) {i : Nat} (hi : i ∈ a.indices)
    (hi' : i ∈ c.indices) : a ∈ c.parts ∨ c ∈ a.parts := by
  obtain ⟨x, hx, rfl⟩ := List.mem_map.1 hi
  obtain ⟨y, hy, hyx⟩ := List.mem_map.1 hi'
  rw [eq_of_index (h.stored_part hc hy).1 (h.stored_part ha hx).1 hyx] at hy
  exact h.nested ha hc hx hy

private theorem eq_of_sibling (he : b.Stored e) (ha : a ∈ e.operands) (hc : c ∈ e.operands)
    (hac : a ∈ c.parts) : a = c := by
  obtain ⟨hcs, hlt⟩ := h.stored_operand he hc
  rcases Expr.eq_or_operand_of_mem_parts hac with hac | ⟨y, hy, hay⟩
  · exact hac
  · obtain ⟨hys, hle⟩ := h.stored_part hcs hy
    rw [h.eq_of_operand hys he hay ha] at hle
    omega

theorem nodup_indices (he : b.Stored e) : e.indices.Nodup := by
  induction e using Expr.operand_induction with
  | step e ih =>
    rw [Expr.indices_eq]
    refine List.nodup_cons.2 ⟨fun hm => ?_, List.nodup_flatMap.2 ⟨fun c hc => ?_, ?_⟩⟩
    · obtain ⟨c, hc, hm⟩ := List.mem_flatMap.1 hm
      obtain ⟨x, hx, hxe⟩ := List.mem_map.1 hm
      obtain ⟨hcs, hlt⟩ := h.stored_operand he hc
      have := (h.stored_part hcs hx).2
      omega
    · exact ih c hc (h.stored_operand he hc).1
    · refine List.pairwise_iff_getElem.2 fun k k' hk hk' hlt i hi hi' => ?_
      have ha := List.getElem_mem hk
      have hc := List.getElem_mem hk'
      have heq : e.operands[k] = e.operands[k'] := by
        rcases h.shared_node (h.stored_operand he ha).1 (h.stored_operand he hc).1 hi hi' with hs | hs
        · exact h.eq_of_sibling he ha hc hs
        · exact (h.eq_of_sibling he hc ha hs).symm
      have := h.once _ _ _ _ (operand_place he (List.getElem?_eq_getElem hk))
        (operand_place he (List.getElem?_eq_getElem hk')) (by rw [heq])
      have := (Place.operand.inj this).2
      omega

/-- Two trees whose roots are no operands share no node, unless they are the same tree. -/
theorem eq_of_shared (ha : b.Stored a) (hc : b.Stored c)
    (hna : ∀ i k, b.at? (.operand i k) ≠ some a) (hnc : ∀ i k, b.at? (.operand i k) ≠ some c)
    {i : Nat} (hi : i ∈ a.indices) (hi' : i ∈ c.indices) : a = c := by
  have hno : ∀ {a c : Expr}, b.Stored c → (∀ i k, b.at? (.operand i k) ≠ some a) → a ∈ c.parts →
      a = c := by
    intro a c hc hna hac
    rcases Expr.eq_or_operand_of_mem_parts hac with hac | ⟨y, hy, hay⟩
    · exact hac
    · obtain ⟨k, hk⟩ := List.getElem?_of_mem hay
      exact absurd (operand_place (h.stored_part hc hy).1 hk) (hna _ k)
  rcases h.shared_node ha hc hi hi' with hs | hs
  · exact hno hc hna hs
  · exact (hno ha hnc hs).symm

end Trees

end Sound

end Builder

end TokenGrammar
