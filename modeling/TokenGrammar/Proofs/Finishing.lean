import TokenGrammar.Proofs.Building
import TokenGrammar.Proofs.WellFormed

/-!
# Finished grammars

A grammar that a builder finishes is well formed: the trees of its root and its rules are made of
nodes of the builder, and no node is in two of them or twice in one.
-/

namespace TokenGrammar

namespace Builder

variable {b : Builder} {e : Expr} {rules : List Rule}

/-- The grammar with the nodes of the builder, the given rules and the given root. -/
def finished (b : Builder) (rules : List Rule) (root : Expr) : Grammar :=
  ⟨b.id, (b.slots.map (·.expr)).push (.endMark ⟨b.id, b.slots.size⟩),
    (b.slots.map (·.terminal)).push false, rules.toArray, root⟩

theorem closeRules_ok {ds : List RuleDecl} (h : closeRules ds = .ok rules) :
    ds.map (·.body) = rules.map fun r => some r.body := by
  induction ds generalizing rules with
  | nil =>
    cases h
    rfl
  | cons d ds ih =>
    cases hd : d.body with
    | none =>
      rw [closeRules, hd] at h
      cases h
    | some body =>
      rw [closeRules, hd] at h
      cases hrs : closeRules ds with
      | error f =>
        rw [hrs] at h
        cases h
      | ok rs =>
        rw [hrs] at h
        cases h
        rw [List.map_cons, List.map_cons, ih hrs, hd]

theorem mem_finished_iff {i : Nat} {x : Expr} : (b.finished rules e).nodes[i]? = some x ↔
    (∃ s, b.slots[i]? = some s ∧ s.expr = x) ∨
      i = b.slots.size ∧ x = .endMark ⟨b.id, b.slots.size⟩ := by
  show ((b.slots.map (·.expr)).push _)[i]? = _ ↔ _
  rw [Array.getElem?_push, Array.size_map]
  split
  · rename_i hi
    rw [hi, Array.getElem?_eq_none (Nat.le_refl _)]
    simp [eq_comm]
  · rename_i hi
    rw [Array.getElem?_map]
    simp only [hi, false_and, or_false, Option.map_eq_some_iff]

theorem terminals_finished {i : Nat} {s : Slot} (h : b.slots[i]? = some s) :
    (b.finished rules e).terminals[i]? = some s.terminal := by
  have hi : i ≠ b.slots.size := Nat.ne_of_lt (Array.getElem?_eq_some_iff.1 h).1
  show ((b.slots.map (·.terminal)).push false)[i]? = _
  rw [Array.getElem?_push, Array.size_map, if_neg hi, Array.getElem?_map, h]
  rfl

theorem finished_stores (h : b.Stored e) {root : Expr} : (b.finished rules root).Stores e := by
  obtain ⟨i, hi⟩ := h
  exact mem_finished_iff.2 (.inl ⟨_, hi, rfl⟩)

private theorem body_finished (hr : closeRules b.rules.toList = .ok rules) {r : Nat} {x : Expr}
    (hx : (b.finished rules e).top? (some r) = some x) : b.at? (.body r) = some x := by
  have hl : (b.rules.toList.map (·.body))[r]? = (rules.map fun r => some r.body)[r]? := by
    rw [closeRules_ok hr]
  have hx : rules.toArray[r]?.map (·.body) = some x := hx
  rw [List.getElem?_toArray] at hx
  rw [List.getElem?_map, List.getElem?_map, Array.getElem?_toList] at hl
  obtain ⟨r', hr', rfl⟩ := Option.map_eq_some_iff.1 hx
  rw [hr'] at hl
  obtain ⟨d, hd, hb⟩ := Option.map_eq_some_iff.1 hl
  exact Option.bind_eq_some_iff.2 ⟨d, hd, hb⟩

private theorem top_finished (h : Sound [e] [] b) (hr : closeRules b.rules.toList = .ok rules)
    {k : Option Nat} {x : Expr} (hx : (b.finished rules e).top? k = some x) :
    b.Stored x ∧ ∀ i j, b.at? (.operand i j) ≠ some x := by
  cases k with
  | none =>
    obtain rfl := Option.some.inj hx
    have hmem : e ∈ [e] := List.mem_singleton.2 rfl
    exact ⟨⟨true, h.taken e hmem⟩, fun i j hp => h.free e hmem _ e hp rfl⟩
  | some r =>
    have hbody := body_finished hr hx
    refine ⟨⟨true, h.installed _ x hbody⟩, fun i j hp => ?_⟩
    cases h.once _ _ x x hbody hp rfl

private theorem top_unique (h : Sound [e] [] b) (hr : closeRules b.rules.toList = .ok rules)
    {k k' : Option Nat} {x : Expr} (hx : (b.finished rules e).top? k = some x)
    (hx' : (b.finished rules e).top? k' = some x) : k = k' := by
  have hroot : ∀ r, (b.finished rules e).top? (some r) ≠ some e := fun r hb =>
    h.free e (List.mem_singleton.2 rfl) _ e (body_finished hr hb) rfl
  cases k with
  | none =>
    obtain rfl := Option.some.inj hx
    cases k' with
    | none => rfl
    | some r => exact absurd hx' (hroot r)
  | some r =>
    cases k' with
    | none =>
      obtain rfl := Option.some.inj hx'
      exact absurd hx (hroot r)
    | some r' =>
      have := h.once _ _ x x (body_finished hr hx) (body_finished hr hx') rfl
      rw [Place.body.inj this]

theorem wellFormed_finished (h : Sound [e] [] b) (hr : closeRules b.rules.toList = .ok rules) :
    (b.finished rules e).WellFormed := by
  have hsize : (b.finished rules e).endIndex = b.slots.size := by
    show ((b.slots.map (·.expr)).push _).size - 1 = _
    rw [Array.size_push, Array.size_map, Nat.add_sub_cancel]
  have hlt : ∀ {x : Expr}, b.Stored x → x.ref.index < b.slots.size :=
    fun ⟨_, hf⟩ => (Array.getElem?_eq_some_iff.1 hf).1
  have hrules : (b.finished rules e).rules.size = b.rules.size := by
    have := congrArg List.length (closeRules_ok hr)
    rw [List.length_map, List.length_map] at this
    exact this.symm
  constructor
  case index =>
    intro i x hx
    rcases mem_finished_iff.1 hx with ⟨s, hs, rfl⟩ | ⟨rfl, rfl⟩
    · exact h.index i s hs
    · rfl
  case flag =>
    intro i x hx
    rcases mem_finished_iff.1 hx with ⟨s, hs, rfl⟩ | ⟨rfl, rfl⟩
    · rw [terminals_finished hs, h.flag i s hs]
    · show ((b.slots.map (·.terminal)).push false)[b.slots.size]? = _
      rw [Array.getElem?_push, Array.size_map, if_pos rfl]
      rfl
  case operand =>
    intro i x hx c hc
    rcases mem_finished_iff.1 hx with ⟨s, hs, rfl⟩ | ⟨rfl, rfl⟩
    · obtain rfl := h.index i s hs
      obtain ⟨hc, hlt⟩ := h.stored_operand (h.stored_slot hs) hc
      exact ⟨finished_stores hc, hlt⟩
    · cases hc
  case callee =>
    intro i x r hx hk
    rw [hrules]
    rcases mem_finished_iff.1 hx with ⟨s, hs, rfl⟩ | ⟨rfl, rfl⟩
    · exact h.callee i s r hs hk
    · cases hk
  case endMark => exact ⟨_, mem_finished_iff.2 (.inr ⟨hsize, rfl⟩)⟩
  case endMark_only =>
    intro i r hx
    rcases mem_finished_iff.1 hx with ⟨s, hs, hx⟩ | ⟨hi, -⟩
    · exact absurd hx (h.noEnd i s r hs)
    · exact hi.trans hsize.symm
  case top =>
    intro k x hx
    have hs := (top_finished h hr hx).1
    refine ⟨finished_stores hs, ?_⟩
    rw [hsize]
    exact Nat.ne_of_lt (hlt hs)
  case once => exact fun hx => h.nodup_indices (top_finished h hr hx).1
  case apart =>
    intro k k' x x' i hx hx' hi hi'
    obtain ⟨hs, hno⟩ := top_finished h hr hx
    obtain ⟨hs', hno'⟩ := top_finished h hr hx'
    have hxx := h.eq_of_shared hs hs' hno hno' hi hi'
    exact top_unique h hr hx (hxx ▸ hx')

theorem does_close (root : NodeRef) : Does (Sound [] []) (close root) fun g b =>
    ∃ e rules, Sound [e] [] b ∧ closeRules b.rules.toList = .ok rules ∧ g = b.finished rules e := by
  have hget : ∀ (P : Builder → Prop), Does P (get : BuildM Builder) fun s b => P b ∧ s = b :=
    fun P b hb => ⟨hb, rfl⟩
  have hlift : ∀ (e : Expr) (s : Builder), Does (fun b => Sound [e] [] b ∧ s = b)
      (liftM (closeRules s.rules.toList) : BuildM (List Rule))
      fun rules b => Sound [e] [] b ∧ s = b ∧ closeRules b.rules.toList = .ok rules := by
    rintro e s b ⟨hb, rfl⟩
    cases hr : closeRules s.rules.toList with
    | ok rules => exact ⟨hb, rfl, hr⟩
    | error f => exact hb.loose
  have htake : Does (Sound [] []) (do
      let e ← take root
      let b ← get
      let rules ← closeRules b.rules.toList
      return b.finished rules e) fun g b =>
      ∃ e rules, Sound [e] [] b ∧ closeRules b.rules.toList = .ok rules ∧ g = b.finished rules e := by
    refine (does_take root).bind fun e => (hget _).bind fun s => (hlift e s).bind fun rules => ?_
    refine .pure fun b ⟨hb, hs, hr⟩ => ⟨e, rules, hb, hr, ?_⟩
    rw [hs]
  refine (hget _).bind fun s => ?_
  split
  · exact Does.bind (R := fun _ => Sound [] []) (fun b hb => hb.1) fun _ => htake
  · exact htake.weaken (fun b hb => hb.1) fun _ _ h => h

theorem wellFormed_of_finalize (h : Sound [] [] b) {root : NodeRef} {g : Grammar}
    (hf : b.finalize root = .ok g) : g.WellFormed := by
  have hclose := does_close root b h
  have hf : (close root b).1 = .ok g := hf
  rw [hf] at hclose
  obtain ⟨e, rules, hs, hr, rfl⟩ := hclose
  exact wellFormed_finished hs hr

end Builder

namespace Grammar

/-- A grammar that a builder finishes after it has served any requests. -/
def Built (g : Grammar) : Prop :=
  ∃ id requests root, ((Builder.new id).serve requests).finalize root = .ok g

variable {g : Grammar}

theorem Built.wellFormed (h : g.Built) : g.WellFormed := by
  obtain ⟨id, requests, root, hf⟩ := h
  exact Builder.wellFormed_of_finalize (Builder.sound_serve id requests) hf

theorem Built.valid (h : g.Built) (hv : g.validate = .ok ()) : g.Valid := h.wellFormed.valid hv

/-- The grammar of `e ::= e '+' | 'x'`. -/
def sumGrammar : Grammar :=
  let again := .call ⟨0, 0⟩ ⟨0, 0⟩ 0
  let plus := .token ⟨0, 1⟩ (.equal 43)
  let longer := .seq ⟨0, 2⟩ again plus
  let x := .token ⟨0, 3⟩ (.equal 120)
  let body := .alt ⟨0, 4⟩ longer x
  let root := .call ⟨0, 5⟩ ⟨0, 0⟩ 1
  ⟨0, #[again, plus, longer, x, body, root, .endMark ⟨0, 6⟩],
    #[false, true, false, true, false, false, false], #[⟨"e", body⟩], root⟩

theorem built_sum : sumGrammar.Built :=
  ⟨0, [.rule "e", .call ⟨0, 0⟩, .token (.equal 43), .seq ⟨0, 0⟩ ⟨0, 1⟩, .token (.equal 120),
    .alt ⟨0, 2⟩ ⟨0, 3⟩, .setBody ⟨0, 0⟩ ⟨0, 4⟩, .call ⟨0, 0⟩], ⟨0, 5⟩, by decide +kernel⟩

theorem validate_sum : sumGrammar.validate = .ok () := rfl

end Grammar

end TokenGrammar
