import TokenGrammar.Proofs.Outcomes

/-!
# What a pass has found out, without numbers

Orders show in nothing but the numbers of new contexts. A pass is therefore described by facts in
which a new context goes by its rule: which rules have been entered, which contexts stand at which
terminals, and after which continuations the new contexts resume with which others.
-/

namespace TokenGrammar

/-- A context by its number if it was there before, and by its rule if it is new. -/
inductive Label
  | old (id : Nat)
  | new (rule : Nat)

inductive PassFact
  | entered (rule : Nat)
  | stands (pos : Nat) (context : Label)
  | resumes (rule cont : Nat) (context : Label)

theorem mem_contexts_iff {contexts : NatMap Nat} {r : Nat} :
    r ∈ contexts ↔ ∃ c : Nat, contexts[r]? = some c := by
  rw [Std.ExtTreeMap.mem_iff_isSome_getElem?, Option.isSome_iff_exists]

/-- The number of a context, when there were `n` contexts before. -/
def Label.Names (contexts : NatMap Nat) (n i : Nat) : Label → Prop
  | old j => j = i ∧ i < n
  | new r => contexts[r]? = some i

/-- Once a new rule has been given a number, it goes by that number, and all else goes by the number
that it had. -/
theorem Label.names_insert {contexts : NatMap Nat} {r c n i : Nat} {l : Label}
    (hr : contexts[r]? = none) : l.Names (contexts.insert r c) n i ↔
      l.Names contexts n i ∨ l = .new r ∧ i = c := by
  cases l with
  | old j => simp [Names]
  | new q =>
    simp only [Names, Std.ExtTreeMap.getElem?_insert, Std.LawfulEqCmp.compare_eq_iff_eq]
    by_cases hq : r = q
    · subst hq
      simp [hr, eq_comm]
    · simp [hq, Ne.symm hq]

namespace Entering

/-- The facts about rules that have been entered. -/
def Tells (n : Nat) (e : Entering) : PassFact → Prop
  | .entered r => r ∈ e.contexts
  | .resumes r k l => ∃ c i, e.contexts[r]? = some c ∧ e.store.Resumes c k i ∧
      l.Names e.contexts n i
  | .stands _ _ => False

end Entering

namespace Pass

/-- The facts that have been found out. -/
def Tells (n : Nat) (p : Pass) : PassFact → Prop
  | .stands pos l => ∃ i, Holds p.terminals pos i ∧ l.Names p.contexts n i
  | .entered r => p.toEntering.Tells n (.entered r)
  | .resumes r k l => p.toEntering.Tells n (.resumes r k l)

end Pass

namespace ContextStore

variable {s : ContextStore} {c k i : Nat}

theorem Resumes.lt_size (h : s.Resumes c k i) : c < s.size := by
  obtain ⟨m, hm, -⟩ := h
  exact (Array.getElem?_eq_some_iff.1 hm).1

theorem size_alloc : s.alloc.2.size = s.size + 1 := by simp [size, alloc]

theorem getElem?_alloc :
    s.alloc.2.contexts[i]? = if i = s.size then some ∅ else s.contexts[i]? := by
  simp only [alloc, Array.getElem?_push]
  rfl

theorem resumes_alloc : s.alloc.2.Resumes c k i ↔ s.Resumes c k i := by
  rw [Resumes, Resumes, getElem?_alloc]
  split
  · rename_i hc
    have hnone : s.contexts[c]? = none := Array.getElem?_eq_none (Nat.le_of_eq hc.symm)
    simp [hnone]
  · rfl

theorem allFull_alloc (h : s.AllFull) : s.alloc.2.AllFull := by
  intro i m hm
  rw [getElem?_alloc] at hm
  split at hm
  · cases hm
    exact full_empty
  · exact h i m hm

end ContextStore

/-- New contexts are being made in a store. Each rule entered has one, and there are no others. -/
structure Building (s : ContextStore) (e : Entering) : Prop where
  numbered : ∀ i : Nat, (∃ r : Nat, e.contexts[r]? = some i) ↔ s.size ≤ i ∧ i < e.store.size
  distinct : ∀ {r r' i : Nat}, e.contexts[r]? = some i → e.contexts[r']? = some i → r = r'
  size : s.size ≤ e.store.size
  frozen : e.store.frozen = s.size
  full : e.store.AllFull
  kept : ∀ i < s.size, e.store.contexts[i]? = s.contexts[i]?
  known : ∀ {c k i : Nat}, s.size ≤ c → e.store.Resumes c k i → i < e.store.size

namespace Building

variable {s : ContextStore} {e : Entering} {r c k i j n : Nat} {l l' : Label}

theorem range (h : Building s e) (hr : e.contexts[r]? = some i) : s.size ≤ i ∧ i < e.store.size :=
  (h.numbered i).1 ⟨r, hr⟩

theorem names_lt (h : Building s e) (hl : l.Names e.contexts s.size i) : i < e.store.size := by
  cases l with
  | old j => exact Nat.lt_of_lt_of_le hl.2 h.size
  | new r => exact (h.range hl).2

theorem names_unique (h : Building s e) (hl : l.Names e.contexts s.size i)
    (hl' : l'.Names e.contexts s.size i) : l = l' := by
  cases l with
  | old j =>
    cases l' with
    | old j' => rw [hl.1, hl'.1]
    | new r' => exact absurd hl.2 (by have := (h.range hl').1; omega)
  | new r =>
    cases l' with
    | old j' => exact absurd hl'.2 (by have := (h.range hl).1; omega)
    | new r' => rw [h.distinct hl hl']

theorem write (h : Building s e) (hr : e.contexts[r]? = some c) {store : ContextStore}
    (hx : e.store.Extends store) {P : Nat → Nat → Prop} (hP : ∀ k i, P k i → i < e.store.size)
    (hv : ∀ x : Nat × Nat × Nat, store.Resumes x.1 x.2.1 x.2.2 ↔
      e.store.Resumes x.1 x.2.1 x.2.2 ∨ x.1 = c ∧ P x.2.1 x.2.2) :
    Building s ⟨store, e.contexts⟩ ∧ ∀ x, (⟨store, e.contexts⟩ : Entering).Tells s.size x ↔
      e.Tells s.size x ∨
        ∃ k i l, P k i ∧ l.Names e.contexts s.size i ∧ x = .resumes r k l := by
  constructor
  · refine ⟨?numbered, h.distinct, ?size, ?frozen, hx.full, ?kept, ?known⟩
    case numbered =>
      intro i
      rw [hx.size]
      exact h.numbered i
    case size =>
      rw [hx.size]
      exact h.size
    case frozen =>
      rw [hx.frozen]
      exact h.frozen
    case kept =>
      intro i hi
      rw [hx.kept i (h.frozen.symm ▸ hi)]
      exact h.kept i hi
    case known =>
      intro c' k i hc hres
      rw [hx.size]
      rcases (hv (c', k, i)).1 hres with hres | ⟨-, hp⟩
      · exact h.known hc hres
      · exact hP k i hp
  · intro x
    cases x with
    | entered r' => simp [Entering.Tells]
    | stands p l => simp [Entering.Tells]
    | resumes r' k l =>
      have hiff : ∀ c' i, store.Resumes c' k i ↔ e.store.Resumes c' k i ∨ c' = c ∧ P k i :=
        fun c' i => hv (c', k, i)
      simp only [Entering.Tells, hiff]
      constructor
      · rintro ⟨c', i, hc', hres | ⟨rfl, hp⟩, hl⟩
        · exact .inl ⟨c', i, hc', hres, hl⟩
        · obtain rfl := h.distinct hc' hr
          exact .inr ⟨k, i, l, hp, hl, rfl⟩
      · rintro (⟨c', i, hc', hres, hl⟩ | ⟨k', i, l', hp, hl, heq⟩)
        · exact ⟨c', i, hc', .inl hres, hl⟩
        · cases heq
          exact ⟨c, i, hr, .inr ⟨rfl, hp⟩, hl⟩

/-- A rule that has not been met gets a new context, in which nothing resumes yet. -/
theorem open_new (h : Building s e) (hr : e.contexts[r]? = none) {e' : Entering}
    (he' : e' = ⟨e.store.alloc.2, e.contexts.insert r e.store.size⟩) :
    Building s e' ∧ ∀ x, e'.Tells s.size x ↔ e.Tells s.size x ∨ x = .entered r := by
  have hnames : ∀ {l : Label} {i : Nat}, l.Names e'.contexts s.size i ↔
      l.Names e.contexts s.size i ∨ l = .new r ∧ i = e.store.size := by
    intro l i
    rw [he', Label.names_insert hr]
  have hctx : ∀ {q i : Nat}, e'.contexts[q]? = some i ↔
      e.contexts[q]? = some i ∨ q = r ∧ i = e.store.size := by
    intro q i
    simpa [Label.Names] using hnames (l := .new q) (i := i)
  have hsize : e'.store.size = e.store.size + 1 := by rw [he', ContextStore.size_alloc]
  have hres : ∀ {c k i : Nat}, e'.store.Resumes c k i ↔ e.store.Resumes c k i := by
    intro c k i
    rw [he', ContextStore.resumes_alloc]
  have hle := h.size
  constructor
  · refine ⟨?numbered, ?distinct, ?size, ?frozen, ?full, ?kept, ?known⟩
    case numbered =>
      intro i
      simp only [hctx, exists_or, h.numbered, exists_eq_left]
      omega
    case distinct =>
      intro q q' i hq hq'
      rcases hctx.1 hq with hq | ⟨rfl, rfl⟩
      · rcases hctx.1 hq' with hq' | ⟨rfl, rfl⟩
        · exact h.distinct hq hq'
        · exact absurd (h.range hq).2 (Nat.lt_irrefl _)
      · rcases hctx.1 hq' with hq' | ⟨rfl, -⟩
        · exact absurd (h.range hq').2 (Nat.lt_irrefl _)
        · rfl
    case size => omega
    case frozen =>
      rw [he']
      exact h.frozen
    case full =>
      rw [he']
      exact ContextStore.allFull_alloc h.full
    case kept =>
      intro i hi
      rw [he', ContextStore.getElem?_alloc, if_neg (by omega)]
      exact h.kept i hi
    case known =>
      intro c k i hc hri
      have := h.known hc (hres.1 hri)
      omega
  · intro x
    cases x with
    | stands p l => simp [Entering.Tells]
    | entered q =>
      simp only [Entering.Tells, he', Std.ExtTreeMap.mem_insert,
        Std.LawfulEqCmp.compare_eq_iff_eq, PassFact.entered.injEq]
      rw [or_comm, eq_comm]
    | resumes q k l =>
      simp only [Entering.Tells, hctx, hres, hnames, reduceCtorEq, or_false]
      constructor
      · rintro ⟨c, i, hc | ⟨-, rfl⟩, hri, hl⟩
        · refine ⟨c, i, hc, hri, hl.resolve_right ?_⟩
          rintro ⟨-, rfl⟩
          exact absurd (h.known (h.range hc).1 hri) (Nat.lt_irrefl _)
        · -- the new context resumes nothing
          exact absurd hri.lt_size (Nat.lt_irrefl _)
      · rintro ⟨c, i, hc, hri, hl⟩
        exact ⟨c, i, .inl hc, hri, .inl hl⟩

end Building

/-- More has been built, and what had a number has kept it. -/
structure Grows (s : ContextStore) (e e' : Entering) : Prop extends Building s e' where
  contexts : ∀ {r c : Nat}, e.contexts[r]? = some c → e'.contexts[r]? = some c
  size_le : e.store.size ≤ e'.store.size

theorem Building.grows {s : ContextStore} {e : Entering} (h : Building s e) : Grows s e e :=
  ⟨h, id, Nat.le_refl _⟩

theorem Grows.trans {s : ContextStore} {e e' e'' : Entering} (h : Grows s e e')
    (h' : Grows s e' e'') : Grows s e e'' :=
  ⟨h'.toBuilding, fun hr => h'.contexts (h.contexts hr), Nat.le_trans h.size_le h'.size_le⟩

theorem Grows.mem {s : ContextStore} {e e' : Entering} (h : Grows s e e') {r : Nat}
    (hr : r ∈ e.contexts) : r ∈ e'.contexts := by
  obtain ⟨c, hc⟩ := mem_contexts_iff.1 hr
  exact mem_contexts_iff.2 ⟨c, h.contexts hc⟩

theorem Grows.names_iff {s : ContextStore} {e e' : Entering} (hb : Building s e)
    (h : Grows s e e') {l : Label} {i : Nat} (hi : i < e.store.size) :
    l.Names e'.contexts s.size i ↔ l.Names e.contexts s.size i := by
  cases l with
  | old j => rfl
  | new r =>
    constructor
    · intro hr
      obtain ⟨q, hq⟩ := (hb.numbered i).2 ⟨(h.range hr).1, hi⟩
      rwa [h.distinct hr (h.contexts hq)]
    · exact fun hr => h.contexts hr

namespace Building

variable {s : ContextStore} {e : Entering} {r c : Nat}

theorem contextOf (h : Building s e) (r : Nat) : ∃ c e', Pass.contextOf e r = (c, e') ∧
    Grows s e e' ∧ e'.contexts[r]? = some c ∧
      ∀ x, e'.Tells s.size x ↔ e.Tells s.size x ∨ x = .entered r := by
  rw [Pass.contextOf]
  cases hr : e.contexts[r]? with
  | some c =>
    refine ⟨c, e, rfl, h.grows, hr, fun x => (or_iff_left_of_imp ?_).symm⟩
    rintro rfl
    exact mem_contexts_iff.2 ⟨c, hr⟩
  | none =>
    obtain ⟨hb, hv⟩ := h.open_new hr rfl
    have hnames : ∀ {q i : Nat}, (e.contexts.insert r e.store.size)[q]? = some i ↔
        e.contexts[q]? = some i ∨ Label.new q = .new r ∧ i = e.store.size := fun {q i} =>
      Label.names_insert (l := .new q) (n := s.size) hr
    have hle : e.store.size ≤ e.store.alloc.2.size := by
      rw [ContextStore.size_alloc]
      exact Nat.le_succ _
    exact ⟨e.store.size, _, rfl, ⟨hb, fun hq => hnames.2 (.inl hq), hle⟩,
      hnames.2 (.inr ⟨rfl, rfl⟩), hv⟩

end Building

end TokenGrammar
