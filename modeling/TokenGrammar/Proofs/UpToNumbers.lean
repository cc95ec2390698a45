import TokenGrammar.Proofs.Renaming
import TokenGrammar.Proofs.UnorderedSteps

/-!
# Steps up to the numbers of contexts

What a step finds out depends on the numbers of the contexts that were there before only in so far
as the facts name these contexts. Where two steps land that found out the same, up to other numbers
for the contexts from before, is the same up to other numbers for all contexts.
-/

namespace TokenGrammar

variable {ρ : Equiv.Perm Nat}

/-- The context by its other number, if it was there before. -/
def Label.rename (ρ : Equiv.Perm Nat) : Label → Label
  | old i => old (ρ i)
  | new r => new r

def PassFact.rename (ρ : Equiv.Perm Nat) : PassFact → PassFact
  | entered r => entered r
  | stands pos l => stands pos (l.rename ρ)
  | resumes r k l => resumes r k (l.rename ρ)

theorem Label.rename_injective : Function.Injective (Label.rename ρ) := by
  intro l l' h
  cases l <;> cases l' <;> simp_all [Label.rename]

theorem Label.rename_surjective : Function.Surjective (Label.rename ρ) := by
  intro l
  cases l with
  | old i => exact ⟨.old (ρ.symm i), by simp [Label.rename]⟩
  | new r => exact ⟨.new r, rfl⟩

theorem PassFact.rename_injective : Function.Injective (PassFact.rename ρ) := by
  intro x y h
  cases x <;> cases y <;> simp_all [PassFact.rename, Label.rename_injective.eq_iff]

section Finding

variable {t : Tables} {s : ContextStore} {f : Frontier} {token : Token} {n q i j : Nat}
  {x : PassFact} {arr arr' : Nat → Nat → Prop}

theorem CallEntry.registers_rename {c : CallEntry} :
    c.Registers (ρ i) (x.rename ρ) ↔ c.Registers i x := by
  obtain ⟨context, cont, invoke⟩ := c
  have hentered : ∀ r, x.rename ρ = .entered r ↔ x = .entered r := fun r =>
    PassFact.rename_injective.eq_iff (b := .entered r)
  have hresumes : ∀ l, x.rename ρ = .resumes invoke cont (l.rename ρ) ↔
      x = .resumes invoke cont l := fun l =>
    PassFact.rename_injective.eq_iff (b := .resumes invoke cont l)
  cases context with
  | none => exact or_congr (hentered invoke) (hresumes (.old i))
  | some r =>
    exact or_congr (hentered invoke) (or_congr (hentered r) (hresumes (.new r)))

theorem ContextStore.hands_rename (h : Fixes ρ s.size) {r : Nat} :
    (s.rename ρ).Hands (ρ i) r (x.rename ρ) ↔ s.Hands i r x := by
  refine or_congr (PassFact.rename_injective.eq_iff (b := .entered r)) (exists_congr fun k => ?_)
  rw [ρ.surjective.exists]
  refine exists_congr fun j => and_congr (resumes_rename h) ?_
  exact PassFact.rename_injective.eq_iff (b := .resumes r k (.old j))

theorem Tables.brings_rename (h : Fixes ρ s.size) :
    t.Brings (s.rename ρ) q (ρ i) (x.rename ρ) ↔ t.Brings s q i x := by
  refine exists_congr fun row => and_congr_right fun _ => ?_
  split
  · simp only [Row.Calls, CallEntry.registers_rename, ContextStore.hands_rename h]
  · exact PassFact.rename_injective.eq_iff (b := .stands q (.old i))

theorem Tables.finds_rename (h : Fixes ρ s.size) (harr : ∀ q i, arr' q (ρ i) ↔ arr q i) :
    t.Finds (s.rename ρ) arr' (x.rename ρ) ↔ t.Finds s arr x := by
  have hbrings : ∀ x : PassFact, (∃ q i, arr' q i ∧ t.Brings (s.rename ρ) q i (x.rename ρ)) ↔
      ∃ q i, arr q i ∧ t.Brings s q i x := by
    refine fun x => exists_congr fun q => ?_
    rw [ρ.surjective.exists]
    simp only [harr, brings_rename h]
  have henters : ∀ r, t.Enters (s.rename ρ) arr' r ↔ t.Enters s arr r := fun r =>
    hbrings (.entered r)
  apply or_congr (hbrings x)
  refine exists_congr fun r => exists_congr fun ps => exists_congr fun q => ?_
  rw [henters]
  refine and_congr_right fun _ => and_congr_right fun _ => and_congr_right fun _ => ?_
  exact PassFact.rename_injective.eq_iff (b := .stands q (.new r))

theorem Tables.arrives_rename (h : Fixes ρ s.size) :
    t.Arrives (s.rename ρ) (renameAll ρ f) token q (ρ j) ↔ t.Arrives s f token q j := by
  refine exists_congr fun p => ?_
  rw [ρ.surjective.exists]
  refine exists_congr fun i => and_congr holds_renameAll (and_congr_right fun _ => ?_)
  simp only [ContextStore.resumes_rename h, ρ.injective.eq_iff]

theorem Tables.Opening.rename (ho : t.Opening s arr) (h : Fixes ρ s.size)
    (harr : ∀ q i, arr' q (ρ i) ↔ arr q i) : t.Opening (s.rename ρ) arr' where
  frozen := ho.frozen.trans ContextStore.size_rename.symm
  full := ContextStore.allFull_rename h ho.full
  closed {c k i} hr := by
    obtain ⟨c, rfl⟩ := ρ.surjective c
    obtain ⟨i, rfl⟩ := ρ.surjective i
    rw [ContextStore.size_rename, h.lt_iff]
    exact ho.closed ((ContextStore.resumes_rename h).1 hr)
  lt {q i} hq := by
    obtain ⟨i, rfl⟩ := ρ.surjective i
    rw [ContextStore.size_rename, h.lt_iff]
    exact ho.lt ((harr q i).1 hq)
  row {q i} hq := by
    obtain ⟨i, rfl⟩ := ρ.surjective i
    exact ho.row ((harr q i).1 hq)
  firsts {q i r} hq hb := by
    obtain ⟨i, rfl⟩ := ρ.surjective i
    exact ho.firsts ((harr q i).1 hq) ((Tables.brings_rename (x := .entered r) h).1 hb)

theorem Tables.Ready.rename (hr : t.Ready s f token) (h : Fixes ρ s.size) :
    t.Ready (s.rename ρ) (renameAll ρ f) token := by
  refine ⟨hr.toOpening.rename h fun q i => Tables.arrives_rename h, full_renameAll hr.fullFrontier,
    ?_, ?_, ?_, ?_⟩
  · intro p i hh
    obtain ⟨i, rfl⟩ := ρ.surjective i
    rw [ContextStore.size_rename, h.lt_iff]
    exact hr.stored (holds_renameAll.1 hh)
  · intro p i hh
    obtain ⟨i, rfl⟩ := ρ.surjective i
    exact hr.answers (holds_renameAll.1 hh)
  · intro p i hh
    obtain ⟨i, rfl⟩ := ρ.surjective i
    exact hr.accepting (holds_renameAll.1 hh)
  · intro p i k j hh hb htail hres
    obtain ⟨i, rfl⟩ := ρ.surjective i
    obtain ⟨j, rfl⟩ := ρ.surjective j
    exact hr.resumed (holds_renameAll.1 hh) hb htail ((ContextStore.resumes_rename h).1 hres)

end Finding

section Numbers

variable {s : ContextStore} {e : Entering} {p : Pass} {n q i j c k r : Nat} {l : Label}

theorem Label.number_unique {contexts : NatMap Nat} (hl : l.Names contexts n i)
    (hl' : l.Names contexts n j) : i = j := by
  cases l with
  | old i' => exact hl.1.symm.trans hl'.1
  | new r => exact Option.some.inj (Eq.trans (Eq.symm hl) hl')

theorem Building.named (h : Building s e) (hi : i < e.store.size) :
    ∃ l : Label, l.Names e.contexts s.size i := by
  by_cases hold : i < s.size
  · exact ⟨.old i, rfl, hold⟩
  · obtain ⟨r, hr⟩ := (h.numbered i).2 ⟨Nat.le_of_not_lt hold, hi⟩
    exact ⟨.new r, hr⟩

theorem Building.lt_of_resumes (h : Building s e)
    (hclosed : ∀ {c k i : Nat}, s.Resumes c k i → i < s.size) (hr : e.store.Resumes c k i) :
    i < e.store.size := by
  by_cases hc : c < s.size
  · rw [h.resumes_iff (.refl h.full) hc] at hr
    exact Nat.lt_of_lt_of_le (hclosed hr) h.size
  · exact h.known (Nat.le_of_not_lt hc) hr

theorem Pass.resumes_iff_tells (hr : p.contexts[r]? = some c) (hl : l.Names p.contexts n i) :
    p.store.Resumes c k i ↔ p.Tells n (.resumes r k l) := by
  constructor
  · exact fun hres => ⟨c, i, hr, hres, hl⟩
  · rintro ⟨c', i', hr', hres, hl'⟩
    obtain rfl := Option.some.inj (hr.symm.trans hr')
    obtain rfl := Label.number_unique hl hl'
    exact hres

theorem Pass.holds_iff_tells (hl : l.Names p.contexts n i) :
    Holds p.terminals q i ↔ p.Tells n (.stands q l) := by
  constructor
  · exact fun hh => ⟨i, hh, hl⟩
  · rintro ⟨i', hh, hl'⟩
    obtain rfl := Label.number_unique hl hl'
    exact hh

end Numbers

/-- Two passes, the second one over the renamed store, have found out the same. -/
structure Pass.Alike (ρ : Equiv.Perm Nat) (s s' : ContextStore) (n : Nat) (p p' : Pass) :
    Prop where
  fixes : Fixes ρ s.size
  renamed : s' = s.rename ρ
  closed : ∀ {c k i : Nat}, s.Resumes c k i → i < s.size
  left : Passing s n p
  right : Passing s' n p'
  tells : ∀ x, p'.Tells s'.size (x.rename ρ) ↔ p.Tells s.size x

namespace Pass.Alike

variable {s s' : ContextStore} {n i j c k q r : Nat} {p p' : Pass} {l : Label}

theorem size (h : Alike ρ s s' n p p') : s'.size = s.size := by
  rw [h.renamed, ContextStore.size_rename]

theorem closed_right (h : Alike ρ s s' n p p') (hr : s'.Resumes c k i) : i < s'.size := by
  rw [h.renamed] at hr
  obtain ⟨c, rfl⟩ := ρ.surjective c
  obtain ⟨i, rfl⟩ := ρ.surjective i
  rw [h.size, h.fixes.lt_iff]
  exact h.closed ((ContextStore.resumes_rename h.fixes).1 hr)

theorem exists_number_iff (h : Alike ρ s s' n p p') :
    (∃ j, (l.rename ρ).Names p'.contexts s'.size j) ↔ ∃ i, l.Names p.contexts s.size i := by
  cases l with
  | old i => simp [Label.rename, Label.Names, h.size, h.fixes.lt_iff]
  | new r =>
    have hentered := h.tells (.entered r)
    simp only [PassFact.rename, Pass.Tells, Entering.Tells, mem_contexts_iff] at hentered
    exact hentered

/-- Two numbers, one in each pass, go by the same name. -/
def Match (ρ : Equiv.Perm Nat) (s s' : ContextStore) (p p' : Pass) (i j : Nat) : Prop :=
  ∃ l : Label, l.Names p.contexts s.size i ∧ (l.rename ρ).Names p'.contexts s'.size j

theorem match_of_lt (h : Alike ρ s s' n p p') :
    ∀ i < p.store.size, ∃ j < p'.store.size, Match ρ s s' p p' i j := by
  intro i hi
  obtain ⟨l, hl⟩ := h.left.named hi
  obtain ⟨j, hj⟩ := h.exists_number_iff.2 ⟨i, hl⟩
  exact ⟨j, h.right.names_lt hj, l, hl, hj⟩

theorem match_of_lt_right (h : Alike ρ s s' n p p') :
    ∀ j < p'.store.size, ∃ i < p.store.size, Match ρ s s' p p' i j := by
  intro j hj
  obtain ⟨l', hl'⟩ := h.right.named hj
  obtain ⟨l, rfl⟩ := Label.rename_surjective (ρ := ρ) l'
  obtain ⟨i, hi⟩ := h.exists_number_iff.1 ⟨j, hl'⟩
  exact ⟨i, h.left.names_lt hi, l, hi, hl'⟩

theorem names_of_match (h : Alike ρ s s' n p p') (hm : Match ρ s s' p p' i j) :
    (l.rename ρ).Names p'.contexts s'.size j ↔ l.Names p.contexts s.size i := by
  obtain ⟨l', hi, hj⟩ := hm
  constructor
  · intro hl
    rwa [Label.rename_injective (h.right.names_unique hl hj)]
  · intro hl
    rwa [h.left.names_unique hl hi]

/-- The numbers in the two passes match, one to one. -/
theorem exists_renaming (h : Alike ρ s s' n p p') : p.store.size = p'.store.size ∧
    ∃ ρ' : Equiv.Perm Nat, Fixes ρ' p.store.size ∧
      ∀ i < p.store.size, Match ρ s s' p p' i (ρ' i) := by
  apply exists_perm h.match_of_lt h.match_of_lt_right
  · rintro i i' j ⟨l, hi, hj⟩ hm
    exact Label.number_unique hi ((h.names_of_match hm).1 hj)
  · rintro i j j' ⟨l, hi, hj⟩ hm
    exact Label.number_unique hj ((h.names_of_match hm).2 hi)

theorem resumes_of_match (h : Alike ρ s s' n p p') {c' i' : Nat} (hc : Match ρ s s' p p' c c')
    (hi : Match ρ s s' p p' i i') : p'.store.Resumes c' k i' ↔ p.store.Resumes c k i := by
  obtain ⟨l, hl, hl'⟩ := hi
  obtain ⟨l₀, hc, hc'⟩ := hc
  cases l₀ with
  | new r =>
    rw [Pass.resumes_iff_tells (p := p) hc hl, Pass.resumes_iff_tells (p := p') hc' hl']
    exact h.tells (.resumes r k l)
  | old c₀ =>
    -- a context from before resumes with contexts from before
    obtain ⟨rfl, hlt⟩ := hc
    obtain ⟨rfl, hlt'⟩ := hc'
    rw [h.left.resumes_iff (.refl h.left.full) hlt, h.right.resumes_iff (.refl h.right.full) hlt',
      h.renamed]
    obtain ⟨i', rfl⟩ := ρ.surjective i'
    rw [ContextStore.resumes_rename h.fixes]
    cases l with
    | old i₀ =>
      obtain ⟨rfl, -⟩ := hl
      rw [← ρ.injective hl'.1]
    | new r =>
      have hnew := (h.left.range hl).1
      have hnew' := (h.right.range hl').1
      rw [h.size, ← Nat.not_lt, h.fixes.lt_iff] at hnew'
      exact iff_of_false (fun hr => hnew' (h.closed hr)) fun hr => hnew.not_gt (h.closed hr)

theorem exists_rename (h : Alike ρ s s' n p p') : ∃ ρ' : Equiv.Perm Nat,
    (∀ i < s.size, ρ' i = ρ i) ∧ Fixes ρ' p.store.size ∧
      p'.terminals = renameAll ρ' p.terminals ∧ p'.store = p.store.rename ρ' := by
  obtain ⟨hsize, ρ', hfixes, hmatch⟩ := h.exists_renaming
  have hlt : ∀ i, ρ' i < p'.store.size ↔ i < p.store.size := by
    intro i
    rw [← hsize, hfixes.lt_iff]
  refine ⟨ρ', fun i hi => ?_, hfixes, ?_, ?_⟩
  · have hname : (Label.old i).Names p.contexts s.size i := ⟨rfl, hi⟩
    have hname' := (h.names_of_match (hmatch i (h.left.names_lt hname))).2 hname
    exact hname'.1.symm
  · apply eq_renameAll h.left.fullTerminals h.right.fullTerminals
    intro q i
    by_cases hi : i < p.store.size
    · obtain ⟨l, hl, hl'⟩ := hmatch i hi
      rw [Pass.holds_iff_tells hl, Pass.holds_iff_tells hl']
      exact h.tells (.stands q l)
    · exact iff_of_false (fun hh => hi ((hlt i).1 (h.right.located hh)))
        fun hh => hi (h.left.located hh)
  · have hfrozen : p'.store.frozen = p.store.frozen :=
      h.right.frozen.trans (h.size.trans h.left.frozen.symm)
    apply ContextStore.eq_rename hfixes hsize.symm hfrozen h.left.full h.right.full
    intro c k i
    have hleft : p.store.Resumes c k i → c < p.store.size ∧ i < p.store.size := fun hr =>
      ⟨hr.lt_size, h.left.lt_of_resumes h.closed hr⟩
    have hright : p'.store.Resumes (ρ' c) k (ρ' i) → c < p.store.size ∧ i < p.store.size := by
      intro hr
      rw [← hlt c, ← hlt i]
      exact ⟨hr.lt_size, h.right.lt_of_resumes h.closed_right hr⟩
    by_cases hin : c < p.store.size ∧ i < p.store.size
    · exact h.resumes_of_match (hmatch c hin.1) (hmatch i hin.2)
    · exact iff_of_false (fun hr => hin (hright hr)) fun hr => hin (hleft hr)

end Pass.Alike

/-- From a renamed store and renamed arrivals a step lands at the same place, by other numbers. The
contexts from before have the numbers that they had. -/
theorem Tables.Lands.exists_rename {t : Tables} {s : ContextStore} {n : Nat}
    {arr arr' : Nat → Nat → Prop} {a a' : Advance} (ho : t.Opening s arr) (h : Fixes ρ s.size)
    (harr : ∀ q i, arr' q (ρ i) ↔ arr q i) (hl : t.Lands s arr n a)
    (hl' : t.Lands (s.rename ρ) arr' n a') : ∃ ρ' : Equiv.Perm Nat,
      (∀ i < s.size, ρ' i = ρ i) ∧ Fixes ρ' a.store.size ∧ a' = a.rename ρ' := by
  obtain ⟨p, hp, htells, rfl⟩ := hl
  obtain ⟨p', hp', htells', rfl⟩ := hl'
  have halike : Pass.Alike ρ s (s.rename ρ) n p p' := by
    refine ⟨h, rfl, ho.closed, hp, hp', fun x => ?_⟩
    rw [htells', htells, finds_rename h harr]
  obtain ⟨ρ', hagree, hfixes, hterminals, hstore⟩ := halike.exists_rename
  refine ⟨ρ', hagree, hfixes, ?_⟩
  rw [hterminals, hstore, hp.counted, hp'.counted, ContextStore.freeze_rename]
  rfl

end TokenGrammar
