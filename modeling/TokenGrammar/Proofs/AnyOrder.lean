import TokenGrammar.Proofs.Facts

/-!
# A pass in any order

What the arrival of one context at one position brings is a set of facts that the tables and the
frozen contexts determine. Whatever the orders are, a pass finds out the facts that the arrivals
bring, and nothing else.
-/

namespace TokenGrammar

open Outcomes

/-- What is found out when the context `i` of a caller is registered for a call entry. -/
def CallEntry.Registers (c : CallEntry) (i : Nat) (x : PassFact) : Prop :=
  x = .entered c.invoke ∨
    match c.context with
    | none => x = .resumes c.invoke c.cont (.old i)
    | some r => x = .entered r ∨ x = .resumes c.invoke c.cont (.new r)

theorem CallEntry.not_registers_stands {c : CallEntry} {i q : Nat} {l : Label} :
    ¬ c.Registers i (.stands q l) := by
  rw [Registers]
  cases c.context <;> simp

/-- What is found out when a rule takes over the continuations of the context `i`. -/
def ContextStore.Hands (s : ContextStore) (i rule : Nat) (x : PassFact) : Prop :=
  x = .entered rule ∨ ∃ k j, s.Resumes i k j ∧ x = .resumes rule k (.old j)

theorem ContextStore.not_hands_stands {s : ContextStore} {i rule q : Nat} {l : Label} :
    ¬ s.Hands i rule (.stands q l) := by
  simp [Hands]

/-- What is found out when the context `i` arrives at a call. -/
def Row.Calls (row : Row) (s : ContextStore) (i : Nat) (x : PassFact) : Prop :=
  (∃ c ∈ row.entries, c.Registers i x) ∨ row.inTail = true ∧ ∃ b ∈ row.children, s.Hands i b x

theorem Row.calls_iff (row : Row) {s : ContextStore} {set : ContextSet} {x : PassFact} :
    (∃ i ∈ set, row.Calls s i x) ↔ (∃ c ∈ row.entries, ∃ i ∈ set, c.Registers i x) ∨
      row.inTail = true ∧ ∃ b ∈ row.children, ∃ i ∈ set, s.Hands i b x := by
  constructor
  · rintro ⟨i, hi, ⟨c, hc, hx⟩ | ⟨htail, b, hb, hx⟩⟩
    · exact .inl ⟨c, hc, i, hi, hx⟩
    · exact .inr ⟨htail, b, hb, i, hi, hx⟩
  · rintro (⟨c, hc, i, hi, hx⟩ | ⟨htail, b, hb, i, hi, hx⟩)
    · exact ⟨i, hi, .inl ⟨c, hc, hx⟩⟩
    · exact ⟨i, hi, .inr ⟨htail, b, hb, hx⟩⟩

namespace Tables

/-- What is found out when the context `i` arrives at a position. -/
def Brings (t : Tables) (s : ContextStore) (pos i : Nat) (x : PassFact) : Prop :=
  ∃ row, t.row pos = .ok row ∧
    if row.isCall then row.Calls s i x else x = .stands pos (.old i)

theorem brings_iff {t : Tables} {s : ContextStore} {pos i : Nat} {x : PassFact} {row : Row}
    (h : t.row pos = .ok row) : t.Brings s pos i x ↔
      if row.isCall then row.Calls s i x else x = .stands pos (.old i) := by
  simp [Brings, h]

/-- One position follows another one. -/
def After (t : Tables) (p q : Nat) : Prop := ∃ row, t.row p = .ok row ∧ q ∈ row.successors

/-- The body may be complete after a position. -/
def Tail (t : Tables) (p : Nat) : Prop := ∃ row, t.row p = .ok row ∧ row.inTail = true

/-- A token moves the context `i` at a position on to the context `j` at another position. -/
def Moves (t : Tables) (s : ContextStore) (token : Token) (p i q j : Nat) : Prop :=
  t.accepts p token = .ok true ∧
    (j = i ∧ t.After p q ∨ t.Tail p ∧ ∃ k, s.Resumes i k j ∧ t.After k q)

/-- Where the contexts of a frontier arrive. -/
def Arrives (t : Tables) (s : ContextStore) (f : Frontier) (token : Token) (q j : Nat) : Prop :=
  ∃ p i, Holds f p i ∧ t.Moves s token p i q j

/-- Arrivals that can be dealt with. -/
structure Opening (t : Tables) (s : ContextStore) (arr : Nat → Nat → Prop) : Prop where
  frozen : s.frozen = s.size
  full : s.AllFull
  closed : ∀ {c k i : Nat}, s.Resumes c k i → i < s.size
  lt : ∀ {q i : Nat}, arr q i → i < s.size
  row : ∀ {q i : Nat}, arr q i → ∃ row, t.row q = .ok row
  firsts : ∀ {q i r : Nat}, arr q i → t.Brings s q i (.entered r) →
    ∃ ps, t.firstsOfRule r = .ok ps

/-- A frontier from which a step can be made. -/
structure Ready (t : Tables) (s : ContextStore) (f : Frontier) (token : Token) : Prop
    extends Opening t s (t.Arrives s f token) where
  fullFrontier : Full f
  stored : ∀ {p i : Nat}, Holds f p i → i < s.size
  answers : ∀ {p i : Nat}, Holds f p i → ∃ b, t.accepts p token = .ok b
  accepting : ∀ {p i : Nat}, Holds f p i → t.accepts p token = .ok true → ∃ row, t.row p = .ok row
  resumed : ∀ {p i k j : Nat}, Holds f p i → t.accepts p token = .ok true → t.Tail p →
    s.Resumes i k j → ∃ row, t.row k = .ok row

end Tables

namespace Building

variable {s : ContextStore} {e : Entering} {set : ContextSet} {i : Nat}

private theorem names_old_iff (h : Building s e) {l : Label} (hi : i < s.size) :
    l.Names e.contexts s.size i ↔ l = .old i := by
  constructor
  · exact fun hl => h.names_unique hl ⟨rfl, hi⟩
  · rintro rfl
    exact ⟨rfl, hi⟩

theorem register_ok (h : Building s e) (hset : ∃ i, i ∈ set) (hlt : ∀ i ∈ set, i < s.size)
    (c : CallEntry) : ∃ e', Pass.register set e c = .ok e' ∧ Grows s e e' ∧
      ∀ x, e'.Tells s.size x ↔ e.Tells s.size x ∨ ∃ i ∈ set, c.Registers i x := by
  obtain ⟨context, cont, invoke⟩ := c
  obtain ⟨target, e₁, hctx, hg, htarget, hv⟩ := h.contextOf invoke
  obtain ⟨i₀, hi₀⟩ := hset
  rw [Pass.register]
  simp only [hctx]
  cases context with
  | none =>
    have hr := hg.range htarget
    obtain ⟨store, hadd, hx, hres⟩ :=
      ContextStore.addSet_ok hg.full (hg.frozen ▸ hr.1) hr.2 cont ⟨i₀, hi₀⟩
    obtain ⟨hb, hw⟩ := hg.write htarget hx (P := fun k i => k = cont ∧ i ∈ set)
      (fun k i hi => Nat.lt_of_lt_of_le (hlt i hi.2) hg.size) hres
    refine ⟨_, ok_bind hadd, hg.trans ⟨hb, id, Nat.le_of_eq hx.size.symm⟩, fun x => ?_⟩
    rw [hw, hv, or_assoc]
    refine or_congr_right ?_
    constructor
    · rintro (rfl | ⟨k, i, l, ⟨rfl, hi⟩, hl, rfl⟩)
      · exact ⟨i₀, hi₀, .inl rfl⟩
      · rw [(hg.names_old_iff (hlt i hi)).1 hl]
        exact ⟨i, hi, .inr rfl⟩
    · rintro ⟨i, hi, rfl | hx⟩
      · exact .inl rfl
      · exact .inr ⟨cont, i, .old i, ⟨rfl, hi⟩, ⟨rfl, hlt i hi⟩, hx⟩
  | some r =>
    obtain ⟨source, e₂, hctx', hg', hsource, hv'⟩ := hg.contextOf r
    have htarget' := hg'.contexts htarget
    have hr := hg'.range htarget'
    obtain ⟨store, hadd, hx, hres⟩ :=
      ContextStore.add_ok hg'.full (hg'.frozen ▸ hr.1) hr.2 cont source
    obtain ⟨hb, hw⟩ := hg'.write htarget' hx (P := fun k i => k = cont ∧ i = source)
      (fun k i hi => hi.2 ▸ (hg'.range hsource).2) hres
    simp only [hctx']
    refine ⟨_, ok_bind hadd, (hg.trans hg').trans ⟨hb, id, Nat.le_of_eq hx.size.symm⟩,
      fun x => ?_⟩
    rw [hw, hv', hv, or_assoc, or_assoc]
    refine or_congr_right ?_
    constructor
    · rintro (rfl | rfl | ⟨k, i, l, ⟨rfl, rfl⟩, hl, rfl⟩)
      · exact ⟨i₀, hi₀, .inl rfl⟩
      · exact ⟨i₀, hi₀, .inr (.inl rfl)⟩
      · have hname : (Label.new r).Names e₂.contexts s.size i := hsource
        rw [hg'.names_unique hl hname]
        exact ⟨i₀, hi₀, .inr (.inr rfl)⟩
    · rintro ⟨i, hi, rfl | rfl | hx⟩
      · exact .inl rfl
      · exact .inr (.inl rfl)
      · exact .inr (.inr ⟨cont, source, .new r, ⟨rfl, rfl⟩, hsource, hx⟩)

theorem handed {b : Nat} (hset : ∃ i, i ∈ set)
    (hclosed : ∀ {c k i : Nat}, s.Resumes c k i → i < s.size) {target : Nat} {e₁ : Entering}
    (hg : Grows s e e₁) (htarget : e₁.contexts[b]? = some target)
    (hv : ∀ x, e₁.Tells s.size x ↔ e.Tells s.size x ∨ x = .entered b) {store : ContextStore}
    (hx : e₁.store.Extends store) (hres : ∀ x : Nat × Nat × Nat, store.Resumes x.1 x.2.1 x.2.2 ↔
      e₁.store.Resumes x.1 x.2.1 x.2.2 ∨ ∃ i ∈ set, x.1 = target ∧ s.Resumes i x.2.1 x.2.2) :
    Grows s e ⟨store, e₁.contexts⟩ ∧ ∀ x, (⟨store, e₁.contexts⟩ : Entering).Tells s.size x ↔
      e.Tells s.size x ∨ ∃ i ∈ set, s.Hands i b x := by
  obtain ⟨i₀, hi₀⟩ := hset
  obtain ⟨hb, hw⟩ := hg.write htarget hx (P := fun k j => ∃ i ∈ set, s.Resumes i k j)
    (fun k j ⟨i, _, hr⟩ => Nat.lt_of_lt_of_le (hclosed hr) hg.size)
    (fun x => (hres x).trans (or_congr_right (by simp only [and_left_comm, exists_and_left])))
  refine ⟨hg.trans ⟨hb, id, Nat.le_of_eq hx.size.symm⟩, fun x => ?_⟩
  rw [hw, hv, or_assoc]
  refine or_congr_right ?_
  constructor
  · rintro (rfl | ⟨k, j, l, ⟨i, hi, hr⟩, hl, rfl⟩)
    · exact ⟨i₀, hi₀, .inl rfl⟩
    · rw [(hg.names_old_iff (hclosed hr)).1 hl]
      exact ⟨i, hi, .inr ⟨k, j, hr, rfl⟩⟩
  · rintro ⟨i, hi, rfl | ⟨k, j, hr, hx⟩⟩
    · exact .inl rfl
    · exact .inr ⟨k, j, .old j, ⟨i, hi, hr⟩, ⟨rfl, hclosed hr⟩, hx⟩

theorem resumes_iff (h : Building s e) {store : ContextStore} (hx : e.store.Extends store)
    {i k j : Nat} (hi : i < s.size) : store.Resumes i k j ↔ s.Resumes i k j := by
  rw [ContextStore.Resumes, ContextStore.Resumes, hx.kept i (h.frozen.symm ▸ hi), h.kept i hi]

theorem inherit_ok (h : Building s e) (hset : ∃ i, i ∈ set) (hlt : ∀ i ∈ set, i < s.size)
    (hclosed : ∀ {c k i : Nat}, s.Resumes c k i → i < s.size) (b : Nat) :
    Surely (Pass.inherit set e b) fun e' => Grows s e e' ∧
      ∀ x, e'.Tells s.size x ↔ e.Tells s.size x ∨ ∃ i ∈ set, s.Hands i b x := by
  obtain ⟨target, e₁, hctx, hg, htarget, hv⟩ := h.contextOf b
  have hr := hg.range htarget
  have hstep : ∀ i ∈ set.toList, ∀ store, e₁.store.Extends store →
      Surely (ContextStore.mergeUnordered store target i) fun store' =>
        e₁.store.Extends store' ∧ ∀ x : Nat × Nat × Nat, store'.Resumes x.1 x.2.1 x.2.2 ↔
          store.Resumes x.1 x.2.1 x.2.2 ∨ x.1 = target ∧ s.Resumes i x.2.1 x.2.2 := by
    intro i hi store hx
    have hfrozen : store.frozen = s.size := hx.frozen.trans hg.frozen
    apply (store.mergeUnordered_ok hx.full (hfrozen ▸ hr.1) (hx.size ▸ hr.2)
      (hfrozen ▸ hlt i hi)).imp
    intro store' ⟨hx', hv'⟩
    refine ⟨hx.trans hx', fun x => ?_⟩
    rw [hv', hg.resumes_iff hx (hlt i hi)]
  rw [Pass.inherit]
  simp only [hctx]
  apply (Surely.foldlM_view e₁.store.Extends _ _ hstep (.refl hg.full)).bind
  intro store ⟨hx, hres⟩
  exact .pure (handed hset hclosed hg htarget hv hx hres)

theorem enter_ok (h : Building s e) (hset : ∃ i, i ∈ set) (hlt : ∀ i ∈ set, i < s.size)
    (hclosed : ∀ {c k i : Nat}, s.Resumes c k i → i < s.size) (row : Row) :
    Surely (Pass.enter row set e) fun e' => Grows s e e' ∧
      ∀ x, e'.Tells s.size x ↔ e.Tells s.size x ∨ ∃ i ∈ set, row.Calls s i x := by
  have hregister : Surely (row.entries.foldlM (fun e c => liftM (Pass.register set e c)) e)
      fun e₁ => Grows s e e₁ ∧ ∀ x, e₁.Tells s.size x ↔
        e.Tells s.size x ∨ ∃ c ∈ row.entries, ∃ i ∈ set, c.Registers i x := by
    apply Surely.foldlM_view (Grows s e) (Entering.Tells s.size)
    · intro c _ e₁ hg
      obtain ⟨e₂, hr, hg', hv⟩ := hg.register_ok hset hlt c
      exact .lift hr ⟨hg.trans hg', hv⟩
    · exact h.grows
  apply hregister.bind
  intro e₁ ⟨hg, hv⟩
  by_cases htail : row.inTail = true
  · rw [if_pos htail]
    have hinherit : Surely (row.children.foldlM (Pass.inherit set) e₁) fun e₂ =>
        Grows s e e₂ ∧ ∀ x, e₂.Tells s.size x ↔
          e₁.Tells s.size x ∨ ∃ b ∈ row.children, ∃ i ∈ set, s.Hands i b x := by
      apply Surely.foldlM_view (Grows s e) (Entering.Tells s.size)
      · intro b _ e₂ hg₂
        exact (hg₂.inherit_ok hset hlt hclosed b).imp fun e₃ ⟨hg₃, hv₃⟩ => ⟨hg₂.trans hg₃, hv₃⟩
      · exact hg
    apply hinherit.imp
    intro e₂ ⟨hg₂, hv₂⟩
    refine ⟨hg₂, fun x => ?_⟩
    rw [hv₂, hv, row.calls_iff, or_assoc]
    simp [htail]
  · rw [if_neg htail]
    refine .pure ⟨hg, fun x => ?_⟩
    rw [hv, row.calls_iff]
    simp [htail]

end Building

/-- A pass over the frozen contexts of a store is under way, and `n` entries have accepted. -/
structure Passing (s : ContextStore) (n : Nat) (p : Pass) : Prop extends
    Building s p.toEntering where
  fullTerminals : Full p.terminals
  located : ∀ {q i : Nat}, Holds p.terminals q i → i < p.store.size
  counted : p.matched = n

namespace Passing

variable {t : Tables} {s : ContextStore} {n q k : Nat} {p : Pass} {set : ContextSet}

theorem begin (hf : s.frozen = s.size) (hs : s.AllFull)
    (hclosed : ∀ {c k i : Nat}, s.Resumes c k i → i < s.size) :
    Passing s 0 (.begin s) ∧ ∀ x, ¬ (Pass.begin s).Tells s.size x := by
  refine ⟨⟨⟨?_, ?_, Nat.le_refl _, hf, hs, fun _ _ => rfl, fun _ hr => hclosed hr⟩, full_empty,
    fun h => absurd h not_holds_empty, rfl⟩, ?_⟩
  · intro i
    simp only [Pass.begin, Std.ExtTreeMap.getElem?_empty, reduceCtorEq, exists_false, false_iff]
    omega
  · intro r r' i hr
    simp [Pass.begin] at hr
  · intro x
    cases x <;> simp [Pass.Tells, Entering.Tells, Pass.begin]

theorem build (h : Passing s n p) {e : Entering} (hg : Grows s p.toEntering e)
    {Adds : PassFact → Prop} (hv : ∀ x, e.Tells s.size x ↔ p.toEntering.Tells s.size x ∨ Adds x)
    (hAdds : ∀ q l, ¬ Adds (.stands q l)) :
    Passing s n { p with toEntering := e } ∧
      ∀ x, ({ p with toEntering := e } : Pass).Tells s.size x ↔ p.Tells s.size x ∨ Adds x := by
  refine ⟨⟨hg.toBuilding, h.fullTerminals, fun hq => Nat.lt_of_lt_of_le (h.located hq) hg.size_le,
    h.counted⟩, fun x => ?_⟩
  cases x with
  | entered r => exact hv (.entered r)
  | resumes r k l => exact hv (.resumes r k l)
  | stands q l =>
    rw [or_iff_left (hAdds q l)]
    refine exists_congr fun i => and_congr_right fun hi => ?_
    exact hg.names_iff h.toBuilding (h.located hi)

theorem place (h : Passing s n p) {f : Frontier} {P : Nat → Nat → Prop} (hf : Full f)
    (hP : ∀ q i, P q i → i < p.store.size)
    (hv : ∀ q i, Holds f q i ↔ Holds p.terminals q i ∨ P q i) :
    Passing s n { p with terminals := f } ∧
      ∀ x, ({ p with terminals := f } : Pass).Tells s.size x ↔ p.Tells s.size x ∨
        ∃ q i l, P q i ∧ l.Names p.contexts s.size i ∧ x = .stands q l := by
  refine ⟨⟨h.toBuilding, hf, fun hq => ((hv _ _).1 hq).elim h.located (hP _ _), h.counted⟩,
    fun x => ?_⟩
  cases x with
  | entered r => simp [Pass.Tells]
  | resumes r k l => simp [Pass.Tells]
  | stands q l =>
    simp only [Pass.Tells, hv, PassFact.stands.injEq]
    constructor
    · rintro ⟨i, hi | hi, hl⟩
      · exact .inl ⟨i, hi, hl⟩
      · exact .inr ⟨q, i, l, hi, hl, rfl, rfl⟩
    · rintro (⟨i, hi, hl⟩ | ⟨q, i, l, hi, hl, rfl, rfl⟩)
      · exact ⟨i, .inl hi, hl⟩
      · exact ⟨i, .inr hi, hl⟩

theorem accept_ok (h : Passing s n p) (hclosed : ∀ {c k i : Nat}, s.Resumes c k i → i < s.size)
    (hset : ∃ i, i ∈ set) (hlt : ∀ i ∈ set, i < s.size) (hrow : ∃ row, t.row q = .ok row) :
    Surely (Pass.accept t set p q) fun p' => Passing s n p' ∧
      ∀ x, p'.Tells s.size x ↔ p.Tells s.size x ∨ ∃ i ∈ set, t.Brings s q i x := by
  obtain ⟨row, hrow⟩ := hrow
  rw [Pass.accept]
  apply Surely.lift_bind hrow
  simp only [Tables.brings_iff hrow]
  by_cases hcall : row.isCall = true
  · simp only [hcall, if_true]
    apply (h.enter_ok hset hlt hclosed row).bind
    intro e ⟨hg, hv⟩
    refine .pure (h.build hg hv fun q l => ?_)
    rintro ⟨i, -, ⟨c, -, hc⟩ | ⟨-, b, -, hb⟩⟩
    · exact CallEntry.not_registers_stands hc
    · exact ContextStore.not_hands_stands hb
  · simp only [hcall, if_false, Bool.false_eq_true]
    obtain ⟨hf, hv⟩ := holds_frontier_add hset h.fullTerminals
    obtain ⟨hp, hw⟩ := h.place hf (P := fun q' i => q' = q ∧ i ∈ set)
      (fun q' i hi => Nat.lt_of_lt_of_le (hlt i hi.2) h.size) (fun q' i => hv (q', i))
    refine .pure ⟨hp, fun x => (hw x).trans (or_congr_right ?_)⟩
    constructor
    · rintro ⟨q', i, l, ⟨rfl, hi⟩, hl, rfl⟩
      rw [(h.names_old_iff (hlt i hi)).1 hl]
      exact ⟨i, hi, rfl⟩
    · rintro ⟨i, hi, hx⟩
      exact ⟨q, i, .old i, ⟨rfl, hi⟩, ⟨rfl, hlt i hi⟩, hx⟩

theorem proceed_ok (h : Passing s n p) (hclosed : ∀ {c k i : Nat}, s.Resumes c k i → i < s.size)
    (hset : ∃ i, i ∈ set) (hlt : ∀ i ∈ set, i < s.size) (hrow : ∃ row, t.row k = .ok row)
    (hrows : ∀ q, t.After k q → ∃ row, t.row q = .ok row) :
    Surely (Pass.proceed t p (k, set)) fun p' => Passing s n p' ∧
      ∀ x, p'.Tells s.size x ↔
        p.Tells s.size x ∨ ∃ q, t.After k q ∧ ∃ i ∈ set, t.Brings s q i x := by
  obtain ⟨row, hrow⟩ := hrow
  have hafter : ∀ q, t.After k q ↔ q ∈ row.successors := by
    intro q
    simp [Tables.After, hrow]
  rw [Pass.proceed]
  apply Surely.lift_bind hrow
  simp only [hafter] at hrows ⊢
  exact Surely.foldlM_view (Passing s n) (Pass.Tells s.size)
    (fun q x => ∃ i ∈ set, t.Brings s q i x)
    (fun q hq p' hp => hp.accept_ok hclosed hset hlt (hrows q hq)) h

theorem callbacks_ok (h : Passing s n p) (hlt : ∀ i ∈ set, i < s.size) :
    Surely (Pass.callbacks p.store set) fun found => ∀ e : Nat × ContextSet, e ∈ found ↔
      ∃ i ∈ set, ∃ m, s.contexts[i]? = some m ∧ m[e.1]? = some e.2 := by
  have hstep : ∀ i ∈ set.toList, ∀ found : List (Nat × ContextSet), True →
      Surely (do return found ++ (← anyOrder (← p.store.read i).toList)) fun found' =>
        True ∧ ∀ e : Nat × ContextSet, e ∈ found' ↔
          e ∈ found ∨ ∃ m, s.contexts[i]? = some m ∧ m[e.1]? = some e.2 := by
    intro i hi found _
    have hfrozen : i < p.store.frozen := h.frozen.symm ▸ hlt i hi
    obtain ⟨m, hm, hget⟩ := p.store.read_ok hfrozen (h.frozen.symm ▸ h.size)
    rw [h.kept i (hlt i hi)] at hget
    apply Surely.lift_bind hm
    apply (Surely.anyOrder m.toList).bind
    intro order horder
    refine .pure ⟨trivial, fun e => ?_⟩
    rw [List.mem_append, horder.mem_iff, Std.ExtTreeMap.mem_toList_iff_getElem?_eq_some]
    simp [hget]
  rw [Pass.callbacks]
  apply (Surely.foldlM_view (fun _ => True) (fun found e => e ∈ found) _ hstep trivial).imp
  intro found ⟨_, hv⟩ e
  rw [hv]
  simp [AscSet.mem_def]

end Passing

end TokenGrammar
