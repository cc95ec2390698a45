import TokenGrammar.Proofs.Contexts
import TokenGrammar.Recognizer.Unordered

/-!
# What is sure whatever the order

An action with open orders surely comes to something when it has an outcome, no outcome is a
failure, and all of them have the property in question. One rule for each way to put actions
together is all that is used of outcomes later.
-/

namespace TokenGrammar

namespace Outcomes

variable {α β : Type} {act : Outcomes α} {next : α → Outcomes β} {Q : α → Prop} {R : β → Prop}

theorem possible_bind {x : Except Failure β} : (act >>= next).Possible x ↔
    (∃ a, act.Possible (.ok a) ∧ (next a).Possible x) ∨
      ∃ f, act.Possible (.error f) ∧ x = .error f := by
  have hrun : (act >>= next).Possible x ↔ ∃ y, act.Possible y ∧
      x ∈ SetM.run (ExceptT.bindCont next y) := by
    show x ∈ ⋃ y ∈ SetM.run act.run, SetM.run (ExceptT.bindCont next y) ↔ _
    simp [Possible]
  rw [hrun]
  constructor
  · rintro ⟨y, hy, hx⟩
    cases y with
    | ok a => exact .inl ⟨a, hy, hx⟩
    | error f => exact .inr ⟨f, hy, hx⟩
  · rintro (⟨a, ha, hx⟩ | ⟨f, hf, rfl⟩)
    · exact ⟨.ok a, ha, hx⟩
    · exact ⟨.error f, hf, rfl⟩

theorem possible_lift {act : Except Failure α} {x : Except Failure α} :
    (liftM act : Outcomes α).Possible x ↔ x = act := by
  cases act <;> exact Iff.rfl

theorem possible_anyOrder {items : List α} {x : Except Failure (List α)} :
    (anyOrder items).Possible x ↔ ∃ order, order.Perm items ∧ x = .ok order := by
  show x ∈ Except.ok '' {order : List α | order.Perm items} ↔ _
  simp [eq_comm]

/-- The action does not fail, whatever the orders are, and then `Q` holds. -/
def Surely (act : Outcomes α) (Q : α → Prop) : Prop :=
  (∃ x, act.Possible x) ∧ ∀ x, act.Possible x → ∃ a, x = .ok a ∧ Q a

namespace Surely

theorem pure {a : α} (h : Q a) : Surely (Pure.pure a) Q :=
  ⟨⟨.ok a, rfl⟩, fun _ hx => ⟨a, hx, h⟩⟩

theorem lift {act : Except Failure α} {a : α} (h : act = .ok a) (hQ : Q a) :
    Surely (liftM act) Q :=
  ⟨⟨act, possible_lift.2 rfl⟩, fun _ hx => ⟨a, (possible_lift.1 hx).trans h, hQ⟩⟩

theorem imp (h : Surely act Q) {Q' : α → Prop} (hQ : ∀ a, Q a → Q' a) : Surely act Q' := by
  refine ⟨h.1, fun x hx => ?_⟩
  obtain ⟨a, rfl, ha⟩ := h.2 x hx
  exact ⟨a, rfl, hQ a ha⟩

theorem bind (h : Surely act Q) (h' : ∀ a, Q a → Surely (next a) R) : Surely (act >>= next) R := by
  constructor
  · obtain ⟨x, hx⟩ := h.1
    obtain ⟨a, rfl, ha⟩ := h.2 x hx
    obtain ⟨y, hy⟩ := (h' a ha).1
    exact ⟨y, possible_bind.2 (.inl ⟨a, hx, hy⟩)⟩
  · intro x hx
    rcases possible_bind.1 hx with ⟨a, ha, hx⟩ | ⟨f, hf, -⟩
    · obtain ⟨a', heq, hQ⟩ := h.2 _ ha
      obtain rfl := Except.ok.inj heq
      exact (h' a hQ).2 x hx
    · obtain ⟨a, heq, -⟩ := h.2 _ hf
      cases heq

theorem lift_bind {act : Except Failure α} {a : α} (h : act = .ok a) (h' : Surely (next a) R) :
    Surely (liftM act >>= next) R := by
  have hlift : Surely (liftM act) fun b => b = a := .lift h rfl
  exact hlift.bind fun b hb => hb ▸ h'

theorem anyOrder (items : List α) : Surely (Outcomes.anyOrder items) fun order =>
    order.Perm items := by
  refine ⟨⟨.ok items, possible_anyOrder.2 ⟨items, .refl _, rfl⟩⟩, fun x hx => ?_⟩
  obtain ⟨order, hp, rfl⟩ := possible_anyOrder.1 hx
  exact ⟨order, rfl, hp⟩

theorem foldlM {σ β : Type} {step : σ → β → Outcomes σ} (J : List β → σ → Prop) {items : List β}
    (h : ∀ before, ∀ b ∈ items, ∀ s, J before s → Surely (step s b) (J (before ++ [b]))) {s : σ}
    (hs : J [] s) : Surely (items.foldlM step s) (J items) := by
  suffices hgen : ∀ before s, J before s → Surely (items.foldlM step s) (J (before ++ items)) from
    hgen [] s hs
  induction items with
  | nil =>
    intro before s hs
    rw [List.append_nil]
    exact .pure hs
  | cons b items ih =>
    intro before s hs
    rw [List.foldlM_cons, List.append_cons]
    apply (h before b List.mem_cons_self s hs).bind
    intro s' hs'
    exact ih (fun before c hc => h before c (List.mem_cons_of_mem _ hc)) _ s' hs'

/-- A fold whose steps keep an invariant, and each add to a view of the state what belongs to the
item of the step. -/
theorem foldlM_view {σ β X : Type} {step : σ → β → Outcomes σ} (Inv : σ → Prop)
    (View : σ → X → Prop) (Adds : β → X → Prop) {items : List β}
    (h : ∀ b ∈ items, ∀ s, Inv s →
      Surely (step s b) fun s' => Inv s' ∧ ∀ x, View s' x ↔ View s x ∨ Adds b x) {s : σ}
    (hs : Inv s) : Surely (items.foldlM step s) fun s' =>
      Inv s' ∧ ∀ x, View s' x ↔ View s x ∨ ∃ b ∈ items, Adds b x := by
  apply foldlM (fun before s' => Inv s' ∧ ∀ x, View s' x ↔ View s x ∨ ∃ b ∈ before, Adds b x)
  · intro before b hb s' ⟨hs', hv⟩
    apply (h b hb s' hs').imp
    intro s'' ⟨hs'', hv'⟩
    refine ⟨hs'', fun x => ?_⟩
    rw [hv', hv, or_assoc]
    simp [or_and_right, exists_or]
  · exact ⟨hs, by simp⟩

end Surely

end Outcomes

namespace ContextStore

variable {s s' : ContextStore} {id source : Nat}

theorem Extends.refl (h : s.AllFull) : s.Extends s := ⟨rfl, rfl, h, fun _ _ => rfl⟩

theorem Extends.trans {s'' : ContextStore} (h : s.Extends s') (h' : s'.Extends s'') :
    s.Extends s'' where
  size := h'.size.trans h.size
  frozen := h'.frozen.trans h.frozen
  full := h'.full
  kept i hi := (h'.kept i (h.frozen.symm ▸ hi)).trans (h.kept i hi)

theorem mergeUnordered_ok (hs : s.AllFull) (hid : s.frozen ≤ id) (hlt : id < s.size)
    (hsource : source < s.frozen) :
    Outcomes.Surely (s.mergeUnordered id source) fun s' => s.Extends s' ∧ ∀ x : Nat × Nat × Nat,
      s'.Resumes x.1 x.2.1 x.2.2 ↔
        s.Resumes x.1 x.2.1 x.2.2 ∨ x.1 = id ∧ s.Resumes source x.2.1 x.2.2 := by
  obtain ⟨m, hr, hm⟩ := read_ok hsource (by omega : s.frozen ≤ s.size)
  have hopen : s.requireOpen id = .ok () := by
    rw [requireOpen, isFrozen, if_neg (by simpa using hid), if_pos hlt]
  rw [mergeUnordered]
  apply Outcomes.Surely.lift_bind hopen
  rw [isFrozen, if_pos (by simpa using hsource)]
  apply Outcomes.Surely.lift_bind hr
  apply (Outcomes.Surely.anyOrder m.toList).bind
  intro order horder
  have hmem : ∀ {e}, e ∈ order ↔ m[e.1]? = some e.2 := by
    intro e
    rw [horder.mem_iff]
    exact Std.ExtTreeMap.mem_toList_iff_getElem?_eq_some
  have hstep : ∀ e ∈ order, ∀ s', s.Extends s' → Outcomes.Surely (liftM (s'.addSet id e.1 e.2))
      fun s'' => s.Extends s'' ∧ ∀ x : Nat × Nat × Nat, s''.Resumes x.1 x.2.1 x.2.2 ↔
        s'.Resumes x.1 x.2.1 x.2.2 ∨ x.1 = id ∧ x.2.1 = e.1 ∧ x.2.2 ∈ e.2 := by
    intro e he s' hx
    have hset : ∃ i, i ∈ e.2 := hs source m hm e.1 e.2 (hmem.1 he)
    obtain ⟨s'', hadd, hx', hv⟩ :=
      addSet_ok hx.full (hx.frozen ▸ hid) (hx.size ▸ hlt) e.1 hset
    exact .lift hadd ⟨hx.trans hx', hv⟩
  apply (Outcomes.Surely.foldlM_view s.Extends _ _ hstep (.refl hs)).imp
  rintro s' ⟨hx, hv⟩
  refine ⟨hx, fun x => (hv x).trans (or_congr_right ?_)⟩
  constructor
  · rintro ⟨e, he, hid, hp, hi⟩
    exact ⟨hid, m, hm, e.2, hp ▸ hmem.1 he, hi⟩
  · rintro ⟨hid, m', hm', set, hset, hi⟩
    obtain rfl := Option.some.inj (hm.symm.trans hm')
    exact ⟨(x.2.1, set), hmem.2 hset, hid, rfl, hi⟩

end ContextStore

end TokenGrammar
