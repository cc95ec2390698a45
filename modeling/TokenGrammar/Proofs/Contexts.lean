import TokenGrammar.Recognizer.Step
import TokenGrammar.Proofs.Inclusion
import TokenGrammar.Proofs.Running

/-!
# What frontiers and contexts hold

A frontier and the callbacks of a context are maps from positions to sets of contexts. They are
described by the pairs that they hold. As long as no set in them is empty, the pairs determine the
map. A store is described by the pairs that its contexts hold.
-/

namespace TokenGrammar

/-- A map from positions to sets of contexts holds a context at a position. -/
def Holds (m : NatMap ContextSet) (p i : Nat) : Prop := ∃ s, m[p]? = some s ∧ i ∈ s

/-- No set of a map is empty. -/
def Full (m : NatMap ContextSet) : Prop :=
  ∀ (p : Nat) (s : ContextSet), m[p]? = some s → ∃ i, i ∈ s

section Holding

variable {m m' : NatMap ContextSet} {p q i : Nat} {s : ContextSet}

@[simp] theorem not_holds_empty : ¬ Holds ∅ p i := by simp [Holds]

@[simp] theorem full_empty : Full ∅ := by simp [Full]

theorem mem_iff_holds (h : Full m) : p ∈ m ↔ ∃ i, Holds m p i := by
  rw [Std.ExtTreeMap.mem_iff_isSome_getElem?, Option.isSome_iff_exists]
  constructor
  · rintro ⟨s, hs⟩
    obtain ⟨i, hi⟩ := h p s hs
    exact ⟨i, s, hs, hi⟩
  · rintro ⟨i, s, hs, -⟩
    exact ⟨s, hs⟩

theorem holds_of_mem_toList (h : (p, s) ∈ m.toList) (hi : i ∈ s) : Holds m p i :=
  ⟨s, Std.ExtTreeMap.mem_toList_iff_getElem?_eq_some.1 h, hi⟩

theorem exists_mem_toList : (∃ s, (p, s) ∈ m.toList ∧ i ∈ s) ↔ Holds m p i := by
  simp only [Std.ExtTreeMap.mem_toList_iff_getElem?_eq_some]
  rfl

theorem eq_of_holds (h : Full m) (h' : Full m') (he : ∀ p i, Holds m p i ↔ Holds m' p i) :
    m = m' := by
  refine Std.ExtTreeMap.ext_getElem? fun p => ?_
  have hs : ∀ {m m' : NatMap ContextSet}, Full m → (∀ p i, Holds m p i ↔ Holds m' p i) →
      ∀ s, m[p]? = some s → m'[p]? = some s := by
    intro m m' hm he s hs
    obtain ⟨i, hi⟩ := hm p s hs
    obtain ⟨s', hs', -⟩ := (he p i).1 ⟨s, hs, hi⟩
    rw [hs', AscSet.ext_mem (s := s') (t := s) fun j => ?_]
    have hj := he p j
    simp only [Holds, hs, hs', Option.some.injEq, exists_eq_left'] at hj
    exact hj.symm
  cases hm : m[p]? with
  | some s => exact (hs h he s hm).symm
  | none =>
    cases hm' : m'[p]? with
    | none => rfl
    | some s => rw [← hm, hs h' (fun p i => (he p i).symm) s hm']

private theorem holds_alter {f : ContextSet → ContextSet} {P : Nat → Prop}
    (hf : ∀ s i, i ∈ f s ↔ i ∈ s ∨ P i) (p : Nat) (hP : ∃ i, P i) (hm : Full m) :
    Full (m.alter p fun old => some (f (old.getD .empty))) ∧
      ∀ x : Nat × Nat, Holds (m.alter p fun old => some (f (old.getD .empty))) x.1 x.2 ↔
        Holds m x.1 x.2 ∨ x.1 = p ∧ P x.2 := by
  constructor
  · intro q s hs
    rw [Std.ExtTreeMap.getElem?_alter] at hs
    split at hs
    · obtain ⟨i, hi⟩ := hP
      rw [← Option.some.inj hs]
      exact ⟨i, (hf _ i).2 (.inr hi)⟩
    · exact hm q s hs
  · rintro ⟨q, i⟩
    unfold Holds
    simp only [Std.ExtTreeMap.getElem?_alter, Std.LawfulEqCmp.compare_eq_iff_eq]
    by_cases hq : p = q
    · subst hq
      cases hs : m[p]? <;> simp [hf]
    · simp [hq, Ne.symm hq]

theorem holds_addSet (h : ∃ i, i ∈ s) (hm : Full m) : Full (Callbacks.addSet m p s) ∧
    ∀ x : Nat × Nat, Holds (Callbacks.addSet m p s) x.1 x.2 ↔
      Holds m x.1 x.2 ∨ x.1 = p ∧ x.2 ∈ s :=
  holds_alter (P := (· ∈ s)) (fun _ _ => AscSet.mem_union) p h hm

theorem holds_add (hm : Full m) : Full (Callbacks.add m p i) ∧
    ∀ x : Nat × Nat, Holds (Callbacks.add m p i) x.1 x.2 ↔
      Holds m x.1 x.2 ∨ x.1 = p ∧ x.2 = i :=
  holds_alter (P := (· = i)) (fun _ _ => AscSet.mem_insert.trans or_comm) p ⟨i, rfl⟩ hm

theorem holds_merge (hm : Full m) (hm' : Full m') : Full (Callbacks.merge m m') ∧
    ∀ x : Nat × Nat, Holds (Callbacks.merge m m') x.1 x.2 ↔
      Holds m x.1 x.2 ∨ Holds m' x.1 x.2 := by
  have hstep : ∀ e ∈ m'.toList, ∀ c, Full c → Full (Callbacks.addSet c e.1 e.2) ∧
      ∀ x : Nat × Nat, Holds (Callbacks.addSet c e.1 e.2) x.1 x.2 ↔
        Holds c x.1 x.2 ∨ x.1 = e.1 ∧ x.2 ∈ e.2 := fun e he c hc =>
    holds_addSet (hm' e.1 e.2 (Std.ExtTreeMap.mem_toList_iff_getElem?_eq_some.1 he)) hc
  obtain ⟨hf, hv⟩ := foldl_ok Full (fun m (x : Nat × Nat) => Holds m x.1 x.2)
    (fun (e : Nat × ContextSet) x => x.1 = e.1 ∧ x.2 ∈ e.2) hstep m hm
  refine ⟨hf, fun x => (hv x).trans (or_congr_right ?_)⟩
  rw [← exists_mem_toList]
  constructor
  · rintro ⟨⟨p, s⟩, he, rfl, hi⟩
    exact ⟨s, he, hi⟩
  · rintro ⟨s, he, hi⟩
    exact ⟨(x.1, s), he, rfl, hi⟩

theorem holds_frontier_add (h : ∃ i, i ∈ s) (hm : Full m) : Full (Frontier.add m p s) ∧
    ∀ x : Nat × Nat, Holds (Frontier.add m p s) x.1 x.2 ↔
      Holds m x.1 x.2 ∨ x.1 = p ∧ x.2 ∈ s :=
  holds_addSet h hm

theorem holds_addAll (ps : List Nat) (h : ∃ i, i ∈ s) (hm : Full m) :
    Full (Frontier.addAll m ps s) ∧
      ∀ x : Nat × Nat, Holds (Frontier.addAll m ps s) x.1 x.2 ↔
        Holds m x.1 x.2 ∨ x.1 ∈ ps ∧ x.2 ∈ s := by
  have hstep : ∀ p ∈ ps, ∀ f, Full f → Full (Frontier.add f p s) ∧
      ∀ x : Nat × Nat, Holds (Frontier.add f p s) x.1 x.2 ↔
        Holds f x.1 x.2 ∨ x.1 = p ∧ x.2 ∈ s := fun p _ f hf => holds_frontier_add h hf
  obtain ⟨hf, hv⟩ := foldl_ok Full (fun m (x : Nat × Nat) => Holds m x.1 x.2)
    (fun p x => x.1 = p ∧ x.2 ∈ s) hstep m hm
  refine ⟨hf, fun x => (hv x).trans (or_congr_right ?_)⟩
  constructor
  · rintro ⟨p, hp, rfl, hi⟩
    exact ⟨hp, hi⟩
  · rintro ⟨hp, hi⟩
    exact ⟨x.1, hp, rfl, hi⟩

end Holding

namespace ContextStore

variable {s s' : ContextStore} {id p i : Nat}

/-- A context of a store resumes, after a position, with another context. -/
def Resumes (s : ContextStore) (id p i : Nat) : Prop :=
  ∃ m, s.contexts[id]? = some m ∧ Holds m p i

def AllFull (s : ContextStore) : Prop :=
  ∀ (id : Nat) (m : Callbacks), s.contexts[id]? = some m → Full m

/-- A context that can be written to. -/
def Writable (s : ContextStore) (id : Nat) : Prop := s.frozen ≤ id ∧ id < s.size

theorem requireOpen_of_writable (h : s.Writable id) : s.requireOpen id = .ok () := by
  rw [requireOpen, isFrozen, if_neg (by simpa using h.1), if_pos h.2]

theorem requireOpen_of_not_writable (h : ¬ s.Writable id) : ∃ e, s.requireOpen id = .error e := by
  unfold requireOpen isFrozen
  by_cases hid : id < s.frozen
  · exact ⟨_, by rw [if_pos (by simpa using hid)]; rfl⟩
  · have hlt : ¬ id < s.size := fun hlt => h ⟨Nat.le_of_not_lt hid, hlt⟩
    exact ⟨_, by rw [if_neg (by simpa using hid), if_neg hlt]; rfl⟩

theorem update_of_writable (h : s.Writable id) (f : Callbacks → Callbacks) :
    s.update id f = .ok { s with contexts := s.contexts.modify id f } := by
  rw [update, ok_bind (requireOpen_of_writable h)]
  rfl

theorem update_of_not_writable (h : ¬ s.Writable id) (f : Callbacks → Callbacks) :
    ∃ e, s.update id f = .error e := by
  obtain ⟨e, he⟩ := requireOpen_of_not_writable h
  exact ⟨e, by rw [update, he]; rfl⟩

/-- What writing to the open contexts of a store leaves alone. -/
structure Extends (s s' : ContextStore) : Prop where
  size : s'.size = s.size
  frozen : s'.frozen = s.frozen
  full : s'.AllFull
  kept : ∀ id < s.frozen, s'.contexts[id]? = s.contexts[id]?

private theorem update_ok {f : Callbacks → Callbacks} {P : Nat → Nat → Prop}
    (hf : ∀ m, Full m → Full (f m) ∧ ∀ x : Nat × Nat, Holds (f m) x.1 x.2 ↔
      Holds m x.1 x.2 ∨ P x.1 x.2) (hs : s.AllFull) (hid : s.frozen ≤ id) (hlt : id < s.size) :
    ∃ s', s.update id f = .ok s' ∧ s.Extends s' ∧ ∀ x : Nat × Nat × Nat,
      s'.Resumes x.1 x.2.1 x.2.2 ↔ s.Resumes x.1 x.2.1 x.2.2 ∨ x.1 = id ∧ P x.2.1 x.2.2 := by
  refine ⟨{ s with contexts := s.contexts.modify id f }, update_of_writable ⟨hid, hlt⟩ f,
    ⟨?_, rfl, ?_, ?_⟩, ?_⟩
  · exact Array.size_modify
  · intro j m hm
    rw [Array.getElem?_modify] at hm
    split at hm
    · obtain ⟨m', hm', rfl⟩ := Option.map_eq_some_iff.1 hm
      exact (hf m' (hs j m' hm')).1
    · exact hs j m hm
  · intro j hj
    rw [Array.getElem?_modify, if_neg (by omega)]
  · rintro ⟨j, p, i⟩
    unfold Resumes
    simp only [Array.getElem?_modify]
    by_cases hj : id = j
    · subst hj
      have hm : s.contexts[id]? = some s.contexts[id] := Array.getElem?_eq_getElem hlt
      have := (hf _ (hs id _ hm)).2 (p, i)
      simp only [hm, if_true, Option.map_some, Option.some.injEq, exists_eq_left', true_and]
      exact this
    · simp [hj, Ne.symm hj]

theorem add_ok (hs : s.AllFull) (hid : s.frozen ≤ id) (hlt : id < s.size) (p i : Nat) :
    ∃ s', s.add id p i = .ok s' ∧ s.Extends s' ∧ ∀ x : Nat × Nat × Nat,
      s'.Resumes x.1 x.2.1 x.2.2 ↔
        s.Resumes x.1 x.2.1 x.2.2 ∨ x.1 = id ∧ x.2.1 = p ∧ x.2.2 = i :=
  update_ok (P := fun q j => q = p ∧ j = i) (fun _ hm => holds_add hm) hs hid hlt

theorem addSet_ok {set : ContextSet} (hs : s.AllFull) (hid : s.frozen ≤ id) (hlt : id < s.size)
    (p : Nat) (hset : ∃ i, i ∈ set) :
    ∃ s', s.addSet id p set = .ok s' ∧ s.Extends s' ∧ ∀ x : Nat × Nat × Nat,
      s'.Resumes x.1 x.2.1 x.2.2 ↔
        s.Resumes x.1 x.2.1 x.2.2 ∨ x.1 = id ∧ x.2.1 = p ∧ x.2.2 ∈ set :=
  update_ok (P := fun q j => q = p ∧ j ∈ set) (fun _ hm => holds_addSet hset hm) hs hid hlt

theorem read_ok (hi : i < s.frozen) (hle : s.frozen ≤ s.size) :
    ∃ m, s.read i = .ok m ∧ s.contexts[i]? = some m := by
  have hlt : i < s.contexts.size := Nat.lt_of_lt_of_le hi hle
  have hm : s.contexts[i]? = some s.contexts[i] := Array.getElem?_eq_getElem hlt
  refine ⟨s.contexts[i], ?_, hm⟩
  rw [read, isFrozen, if_pos (by simpa using hi), hm]
  rfl

theorem merge_ok {source : Nat} (hs : s.AllFull) (hid : s.frozen ≤ id) (hlt : id < s.size)
    (hsource : source < s.frozen) :
    ∃ s', s.merge id source = .ok s' ∧ s.Extends s' ∧ ∀ x : Nat × Nat × Nat,
      s'.Resumes x.1 x.2.1 x.2.2 ↔
        s.Resumes x.1 x.2.1 x.2.2 ∨ x.1 = id ∧ s.Resumes source x.2.1 x.2.2 := by
  obtain ⟨m, hr, hm⟩ := read_ok hsource (by omega : s.frozen ≤ s.size)
  have hopen : s.requireOpen id = .ok () := requireOpen_of_writable ⟨hid, hlt⟩
  obtain ⟨s', hu, he, hv⟩ :=
    update_ok (P := Holds m) (fun _ hc => holds_merge hc (hs source m hm)) hs hid hlt
  refine ⟨s', ?_, he, fun x => (hv x).trans ?_⟩
  · rw [merge, ok_bind hopen, isFrozen, if_pos (by simpa using hsource), ok_bind hr]
    exact hu
  · simp [Resumes, hm]

end ContextStore

end TokenGrammar
