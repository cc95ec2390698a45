import TokenGrammar.Failure

/-!
# Running actions

What a sequence of actions does when the first of them, or each of them, succeeds.
-/

namespace TokenGrammar

theorem run_bind {σ α β : Type} {act : StateT σ (Except Failure) α}
    {next : α → StateT σ (Except Failure) β} {s s' : σ} {a : α} (h : act s = .ok (a, s')) :
    (act >>= next) s = next a s' := by
  show (act s >>= fun p => next p.1 p.2) = _
  rw [h]
  rfl

section Keeping

variable {σ α β : Type}

theorem bind_apply (act : ExceptT Failure (StateM σ) α) (next : α → ExceptT Failure (StateM σ) β)
    (s : σ) :
    (act >>= next) s = match (act s).1 with
      | .ok a => next a (act s).2
      | .error f => (.error f, (act s).2) := by
  show (ExceptT.bindCont next (act s).1) (act s).2 = _
  cases (act s).1 <;> rfl

theorem get_bind_apply (next : σ → ExceptT Failure (StateM σ) β) (s : σ) :
    ((get : ExceptT Failure (StateM σ) σ) >>= next) s = next s s := rfl

end Keeping

theorem run_discard {σ α : Type} {act : StateT σ (Except Failure) α} {s s' : σ} {a : α}
    (h : act s = .ok (a, s')) : discard act s = .ok ((), s') := by
  show (act s >>= fun p => Except.ok ((), p.2)) = _
  rw [h]
  rfl

theorem run_lift {σ α : Type} {act : Except Failure α} {s : σ} {a : α} (h : act = .ok a) :
    (liftM act : StateT σ (Except Failure) α) s = .ok (a, s) := by
  rw [h]
  rfl

theorem inRange_ok {α : Type} {o : Option α} {a : α} (h : o = some a) :
    (inRange o : Except Failure α) = .ok a := by
  rw [h]
  rfl

theorem ok_bind {α β : Type} {act : Except Failure α} {next : α → Except Failure β} {a : α}
    (h : act = .ok a) : (act >>= next) = next a := by
  rw [h]
  rfl

theorem forM_ok_iff {α : Type} {f : α → Except Failure Unit} {xs : List α} :
    xs.forM f = .ok () ↔ ∀ x ∈ xs, f x = .ok () := by
  induction xs with
  | nil => simp [pure, Except.pure]
  | cons x xs ih =>
    rw [List.forM, List.forall_mem_cons, ← ih]
    cases hx : f x with
    | ok => simp [bind, Except.bind]
    | error e => simp [bind, Except.bind]

theorem forM_error {α : Type} {f : α → Except Failure Unit} {xs : List α} {i : Nat} {x : α}
    {e : Failure} (hx : xs[i]? = some x) (he : f x = .error e)
    (hfirst : ∀ j y, j < i → xs[j]? = some y → f y = .ok ()) : xs.forM f = .error e := by
  induction xs generalizing i with
  | nil => cases hx
  | cons y xs ih =>
    rw [List.forM]
    cases i with
    | zero =>
      obtain rfl := Option.some.inj hx
      rw [he]
      rfl
    | succ i =>
      rw [ok_bind (hfirst 0 y (Nat.succ_pos i) rfl)]
      exact ih hx fun j z hj hz => hfirst (j + 1) z (Nat.succ_lt_succ hj) hz

theorem mapM_ok {α β : Type} {f : α → Except Failure β} {xs : List α}
    (h : ∀ x ∈ xs, ∃ y, f x = .ok y) :
    ∃ ys, xs.mapM f = .ok ys ∧ ∀ y, y ∈ ys ↔ ∃ x ∈ xs, f x = .ok y := by
  induction xs with
  | nil => exact ⟨[], rfl, by simp⟩
  | cons x xs ih =>
    obtain ⟨y, hy⟩ := h x List.mem_cons_self
    obtain ⟨ys, hys, hmem⟩ := ih fun z hz => h z (List.mem_cons_of_mem _ hz)
    refine ⟨y :: ys, ?_, fun z => ?_⟩
    · rw [List.mapM_cons, ok_bind hy, ok_bind hys]
      rfl
    · simp [hmem, hy, eq_comm]

/-- An action that gives the same answer in every state of an invariant, and keeps the invariant. -/
def Yields {σ α : Type} (Inv : σ → Prop) (act : StateT σ (Except Failure) α) (a : α) : Prop :=
  ∀ s, Inv s → ∃ s', act s = .ok (a, s') ∧ Inv s'

namespace Yields

variable {σ α β : Type} {Inv : σ → Prop}

theorem pure (a : α) : Yields Inv (Pure.pure a) a := fun s hs => ⟨s, rfl, hs⟩

theorem bind {act : StateT σ (Except Failure) α} {next : α → StateT σ (Except Failure) β} {a : α}
    {b : β} (h : Yields Inv act a) (h' : Yields Inv (next a) b) : Yields Inv (act >>= next) b := by
  intro s hs
  obtain ⟨s₁, ha, hs₁⟩ := h s hs
  obtain ⟨s₂, hb, hs₂⟩ := h' s₁ hs₁
  exact ⟨s₂, (run_bind ha).trans hb, hs₂⟩

theorem lift {act : Except Failure α} {a : α} (h : act = .ok a) :
    Yields Inv (liftM act : StateT σ (Except Failure) α) a :=
  fun s hs => ⟨s, run_lift h, hs⟩

theorem mapM {f : α → StateT σ (Except Failure) β} {value : α → β} {xs : List α}
    (h : ∀ x ∈ xs, Yields Inv (f x) (value x)) : Yields Inv (xs.mapM f) (xs.map value) := by
  induction xs with
  | nil => exact .pure _
  | cons x xs ih =>
    rw [List.mapM_cons]
    exact (h x (by simp)).bind ((ih fun y hy => h y (List.mem_cons_of_mem _ hy)).bind (.pure _))

theorem foldlM {f : β → α → StateT σ (Except Failure) β} {value : β → α → β} {xs : List α}
    (h : ∀ x ∈ xs, ∀ b, Yields Inv (f b x) (value b x)) (b : β) :
    Yields Inv (xs.foldlM f b) (xs.foldl value b) := by
  induction xs generalizing b with
  | nil => exact .pure _
  | cons x xs ih =>
    rw [List.foldlM_cons]
    exact (h x (by simp) b).bind (ih (fun y hy => h y (List.mem_cons_of_mem _ hy)) _)

end Yields

/-- Actions done one after the other, each of which keeps an invariant of the state, moves the state
along a preorder and leaves behind something that lasts. -/
theorem forM_ok {σ : Type} (reads : List Nat) (act : Nat → StateT σ (Except Failure) Unit)
    (Inv : σ → Prop) (Rel : σ → σ → Prop) (Done : Nat → σ → Prop) (refl : ∀ s, Rel s s)
    (trans : ∀ {s s' s''}, Rel s s' → Rel s' s'' → Rel s s'')
    (keep : ∀ {r s s'}, Done r s → Rel s s' → Done r s')
    (step : ∀ r ∈ reads, ∀ s, Inv s → ∃ s', act r s = .ok ((), s') ∧ Inv s' ∧ Rel s s' ∧ Done r s') :
    ∀ s, Inv s →
      ∃ s', reads.forM act s = .ok ((), s') ∧ Inv s' ∧ Rel s s' ∧ ∀ r ∈ reads, Done r s' := by
  induction reads with
  | nil => exact fun s hs => ⟨s, rfl, hs, refl s, by simp⟩
  | cons r reads ih =>
    intro s hs
    obtain ⟨s₁, ha, hi, hr, hd⟩ := step r (by simp) s hs
    obtain ⟨s₂, ha', hi', hr', hd'⟩ := ih (fun q hq => step q (List.mem_cons_of_mem _ hq)) s₁ hi
    refine ⟨s₂, ?_, hi', trans hr hr', List.forall_mem_cons.2 ⟨keep hd hr', hd'⟩⟩
    exact (run_bind ha).trans ha'

/-- A fold whose steps keep an invariant, and each add to a view of the state what belongs to the
item of the step. -/
theorem foldl_ok {σ β X : Type} {step : σ → β → σ} (Inv : σ → Prop) (View : σ → X → Prop)
    (Adds : β → X → Prop) {items : List β}
    (h : ∀ b ∈ items, ∀ s, Inv s → Inv (step s b) ∧
      ∀ x, View (step s b) x ↔ View s x ∨ Adds b x) :
    ∀ s, Inv s → Inv (items.foldl step s) ∧
      ∀ x, View (items.foldl step s) x ↔ View s x ∨ ∃ b ∈ items, Adds b x := by
  induction items with
  | nil => exact fun s hs => ⟨hs, by simp⟩
  | cons b items ih =>
    intro s hs
    obtain ⟨hi, hv⟩ := h b (by simp) s hs
    obtain ⟨hi', hv'⟩ := ih (fun c hc => h c (List.mem_cons_of_mem _ hc)) _ hi
    refine ⟨hi', fun x => ?_⟩
    rw [List.foldl_cons, hv', hv, or_assoc]
    simp

/-- A fold that can fail, but does not, whose steps keep an invariant, and each add to a view of the
state what belongs to the item of the step. -/
theorem foldlM_ok {σ β X : Type} {step : σ → β → Except Failure σ} (Inv : σ → Prop)
    (View : σ → X → Prop) (Adds : β → X → Prop) {items : List β}
    (h : ∀ b ∈ items, ∀ s, Inv s →
      ∃ s', step s b = .ok s' ∧ Inv s' ∧ ∀ x, View s' x ↔ View s x ∨ Adds b x) :
    ∀ s, Inv s → ∃ s', items.foldlM step s = .ok s' ∧ Inv s' ∧
      ∀ x, View s' x ↔ View s x ∨ ∃ b ∈ items, Adds b x := by
  induction items with
  | nil => exact fun s hs => ⟨s, rfl, hs, by simp⟩
  | cons b items ih =>
    intro s hs
    obtain ⟨s₁, hb, hi, hv⟩ := h b (by simp) s hs
    obtain ⟨s₂, hf, hi', hv'⟩ := ih (fun c hc => h c (List.mem_cons_of_mem _ hc)) s₁ hi
    refine ⟨s₂, ?_, hi', fun x => ?_⟩
    · rw [List.foldlM_cons, ok_bind hb]
      exact hf
    · rw [hv', hv, or_assoc]
      simp

end TokenGrammar
