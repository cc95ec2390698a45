import Mathlib.Data.Fintype.EquivFin
import Mathlib.Logic.Equiv.Basic
import TokenGrammar.Proofs.Contexts
import TokenGrammar.Recognizer.Run

/-!
# Other numbers for contexts

A renaming gives contexts other numbers, in a frontier, in the callbacks of every context, and in
the order in which a store lists them. A map or a store that holds the same under other numbers is
the renamed one, as a value.
-/

namespace TokenGrammar

/-- The image of a set under a function. -/
def AscSet.image {α β : Type} [LinearKey α] [LinearKey β] (s : AscSet α) (h : α → β) : AscSet β :=
  ofList (s.toList.map h)

@[simp] theorem AscSet.mem_image {α β : Type} [LinearKey α] [LinearKey β] {s : AscSet α} {h : α → β}
    {y : β} : y ∈ s.image h ↔ ∃ x ∈ s, h x = y := by
  rw [image, mem_ofList, List.mem_map]
  rfl

theorem AscSet.image_image {α β γ : Type} [LinearKey α] [LinearKey β] [LinearKey γ] {s : AscSet α}
    {h : α → β} {h' : β → γ} : (s.image h).image h' = s.image (h' ∘ h) := by
  apply ext_mem
  intro z
  simp

theorem AscSet.size_image {α β : Type} [LinearKey α] [LinearKey β] {s : AscSet α} {h : α → β}
    (hinj : Function.Injective h) : (s.image h).size = s.size := by
  have hperm : (s.image h).toList.Perm (s.toList.map h) := by
    rw [List.perm_ext_iff_of_nodup (nodup _) (s.nodup.map hinj)]
    intro y
    rw [List.mem_map]
    exact mem_image
  rw [size, hperm.length_eq, List.length_map]
  rfl

/-- The same positions, with the contexts by other numbers. -/
def renameAll (ρ : Equiv.Perm Nat) (m : NatMap ContextSet) : NatMap ContextSet :=
  m.map fun _ set => set.image ρ

section Maps

variable {ρ σ : Equiv.Perm Nat} {m m' : NatMap ContextSet} {p i : Nat}

theorem renameAll_renameAll : renameAll σ (renameAll ρ m) = renameAll (ρ.trans σ) m := by
  apply Std.ExtTreeMap.ext_getElem?
  intro p
  simp [renameAll, Function.comp_def, AscSet.image_image]

theorem holds_renameAll : Holds (renameAll ρ m) p (ρ i) ↔ Holds m p i := by
  simp [Holds, renameAll]

theorem full_renameAll (h : Full m) : Full (renameAll ρ m) := by
  intro p s hs
  rw [renameAll, Std.ExtTreeMap.getElem?_map] at hs
  obtain ⟨s', hs', rfl⟩ := Option.map_eq_some_iff.1 hs
  obtain ⟨i, hi⟩ := h p s' hs'
  exact ⟨ρ i, AscSet.mem_image.2 ⟨i, hi, rfl⟩⟩

theorem eq_renameAll (h : Full m) (h' : Full m')
    (he : ∀ p i, Holds m' p (ρ i) ↔ Holds m p i) : m' = renameAll ρ m := by
  apply eq_of_holds h' (full_renameAll h)
  intro p i
  obtain ⟨i, rfl⟩ := ρ.surjective i
  rw [he, holds_renameAll]

@[simp] theorem keys_renameAll : (renameAll ρ m).keys = m.keys := Std.ExtTreeMap.keys_map

@[simp] theorem size_renameAll : (renameAll ρ m).size = m.size := Std.ExtTreeMap.size_map

@[simp] theorem contains_renameAll : (renameAll ρ m).contains p = m.contains p :=
  Std.ExtTreeMap.contains_map

@[simp] theorem isEmpty_renameAll : (renameAll ρ m).isEmpty = m.isEmpty := by
  rw [Std.ExtTreeMap.isEmpty_eq_size_beq_zero, Std.ExtTreeMap.isEmpty_eq_size_beq_zero,
    size_renameAll]

theorem countP_toList_renameAll {P : Nat → Bool} :
    ((renameAll ρ m).toList.countP fun e => P e.1) = m.toList.countP fun e => P e.1 := by
  rw [renameAll, Std.ExtTreeMap.toList_map, List.countP_map]
  rfl

end Maps

/-- No number from `n` on is changed. -/
def Fixes (ρ : Equiv.Perm Nat) (n : Nat) : Prop := ∀ i, n ≤ i → ρ i = i

namespace Fixes

variable {ρ : Equiv.Perm Nat} {n i : Nat}

theorem symm (h : Fixes ρ n) : Fixes ρ.symm n := by
  intro i hi
  rw [Equiv.symm_apply_eq, h i hi]

theorem trans {σ : Equiv.Perm Nat} (h : Fixes ρ n) (h' : Fixes σ n) : Fixes (ρ.trans σ) n := by
  intro i hi
  rw [Equiv.trans_apply, h i hi, h' i hi]

theorem lt_iff (h : Fixes ρ n) : ρ i < n ↔ i < n := by
  constructor
  · intro hi
    refine Nat.lt_of_not_le fun hle => ?_
    rw [h i hle] at hi
    omega
  · intro hi
    refine Nat.lt_of_not_le fun hle => ?_
    have hfix := ρ.injective (h (ρ i) hle)
    omega

end Fixes

namespace ContextStore

variable {ρ : Equiv.Perm Nat} {s s' : ContextStore} {c k i : Nat}

def rename (ρ : Equiv.Perm Nat) (s : ContextStore) : ContextStore where
  contexts := Array.ofFn fun i : Fin s.size =>
    renameAll ρ (s.contexts[ρ.symm i]?.getD ∅)
  frozen := s.frozen

@[simp] theorem size_rename : (s.rename ρ).size = s.size := Array.size_ofFn

theorem freeze_rename : (s.rename ρ).freeze = s.freeze.rename ρ := by
  rw [freeze, size_rename]
  rfl

theorem getElem?_rename (h : Fixes ρ s.size) :
    (s.rename ρ).contexts[ρ c]? = s.contexts[c]?.map (renameAll ρ) := by
  rw [rename, Array.getElem?_ofFn]
  split
  · rename_i hc
    have hlt : c < s.contexts.size := h.lt_iff.1 hc
    simp [Array.getElem?_eq_getElem hlt]
  · rename_i hc
    have hle : s.contexts.size ≤ c := Nat.le_of_not_lt fun hlt => hc (h.lt_iff.2 hlt)
    simp [Array.getElem?_eq_none hle]

theorem resumes_rename (h : Fixes ρ s.size) :
    (s.rename ρ).Resumes (ρ c) k (ρ i) ↔ s.Resumes c k i := by
  simp [Resumes, getElem?_rename h, holds_renameAll]

theorem allFull_rename (h : Fixes ρ s.size) (hs : s.AllFull) : (s.rename ρ).AllFull := by
  intro c m hm
  obtain ⟨c, rfl⟩ := ρ.surjective c
  rw [getElem?_rename h] at hm
  obtain ⟨m', hm', rfl⟩ := Option.map_eq_some_iff.1 hm
  exact full_renameAll (hs c m' hm')

theorem eq_rename (h : Fixes ρ s.size) (hsize : s'.size = s.size) (hfrozen : s'.frozen = s.frozen)
    (hs : s.AllFull) (hs' : s'.AllFull)
    (hr : ∀ c k i, s'.Resumes (ρ c) k (ρ i) ↔ s.Resumes c k i) : s' = s.rename ρ := by
  have hcontexts : s'.contexts = (s.rename ρ).contexts := by
    apply Array.ext_getElem?
    intro c
    obtain ⟨c, rfl⟩ := ρ.surjective c
    rw [getElem?_rename h]
    by_cases hc : c < s.size
    · have hc' : ρ c < s'.contexts.size := Nat.lt_of_lt_of_eq (h.lt_iff.2 hc) hsize.symm
      have hm : s.contexts[c]? = some s.contexts[c] := Array.getElem?_eq_getElem hc
      have hm' : s'.contexts[ρ c]? = some s'.contexts[ρ c] := Array.getElem?_eq_getElem hc'
      rw [hm, hm', Option.map_some]
      refine congrArg some (eq_renameAll (hs c _ hm) (hs' (ρ c) _ hm') fun k i => ?_)
      simpa [Resumes, hm, hm'] using hr c k i
    · have hc' : ¬ ρ c < s'.contexts.size := fun hlt =>
        hc (h.lt_iff.1 (Nat.lt_of_lt_of_eq hlt hsize))
      rw [Array.getElem?_eq_none (Nat.le_of_not_lt hc),
        Array.getElem?_eq_none (Nat.le_of_not_lt hc')]
      rfl
  cases s'
  cases hcontexts
  cases hfrozen
  rfl

theorem rename_refl (hs : s.AllFull) : s.rename (Equiv.refl Nat) = s :=
  (eq_rename (fun _ _ => rfl) rfl rfl hs hs fun _ _ _ => Iff.rfl).symm

theorem rename_rename {σ : Equiv.Perm Nat} (h : Fixes ρ s.size) (h' : Fixes σ s.size) :
    (s.rename ρ).rename σ = s.rename (ρ.trans σ) := by
  have hcontexts : ((s.rename ρ).rename σ).contexts = (s.rename (ρ.trans σ)).contexts := by
    apply Array.ext_getElem?
    intro c
    obtain ⟨c, rfl⟩ := (ρ.trans σ).surjective c
    rw [getElem?_rename (h.trans h'), Equiv.trans_apply, getElem?_rename (size_rename.symm ▸ h'),
      getElem?_rename h, Option.map_map]
    refine congrArg (fun φ => s.contexts[c]?.map φ) ?_
    funext m
    exact renameAll_renameAll
  exact congrArg (ContextStore.mk · s.frozen) hcontexts

end ContextStore

def Advance.rename (ρ : Equiv.Perm Nat) (a : Advance) : Advance :=
  { a with frontier := renameAll ρ a.frontier, store := a.store.rename ρ }

namespace Recognizer

variable {ρ σ : Equiv.Perm Nat} {r : Recognizer}

def rename (ρ : Equiv.Perm Nat) (r : Recognizer) : Recognizer :=
  { r with frontier := renameAll ρ r.frontier, store := r.store.rename ρ }

theorem rename_rename (h : Fixes ρ r.store.size) (h' : Fixes σ r.store.size) :
    (r.rename ρ).rename σ = r.rename (ρ.trans σ) := by
  simp only [rename, renameAll_renameAll, ContextStore.rename_rename h h']

/-- What is logged about a frontier does not show the numbers of the contexts. -/
theorem logFrontier_renameAll (t : Tables) (f : Frontier) (contexts step : Nat) (token : Token)
    (log : Log) : logFrontier t (renameAll ρ f) contexts step token log =
      logFrontier t f contexts step token log := by
  have hsize : ∀ set : ContextSet, (set.image ρ).size = set.size := fun set =>
    AscSet.size_image ρ.injective
  simp only [logFrontier, size_renameAll]
  rw [renameAll, Std.ExtTreeMap.toList_map, List.foldl_map]
  simp only [hsize]

theorem record_rename (token : Token) (a : Advance) : (r.rename ρ).record token (a.rename σ) =
    ((r.record token a).1, (r.record token a).2.rename σ) := by
  have hfrontier : (a.rename σ).frontier = renameAll σ a.frontier := rfl
  have hsize : (a.rename σ).store.size = a.store.size := ContextStore.size_rename
  simp only [record, hfrontier, hsize, size_renameAll, isEmpty_renameAll, logFrontier_renameAll]
  split
  · rfl
  · rfl

end Recognizer

/-- A relation that matches the numbers below `n` with those below `n'`, one to one, comes from a
renaming, and `n` and `n'` are the same. -/
theorem exists_perm {n n' : Nat} {R : Nat → Nat → Prop} (hl : ∀ i < n, ∃ j < n', R i j)
    (hr : ∀ j < n', ∃ i < n, R i j) (hinj : ∀ {i i' j}, R i j → R i' j → i = i')
    (hfun : ∀ {i j j'}, R i j → R i j' → j = j') :
    n = n' ∧ ∃ ρ : Equiv.Perm Nat, Fixes ρ n ∧ ∀ i < n, R i (ρ i) := by
  choose h hlt hR using hl
  choose h' hlt' hR' using hr
  have hinjective : Function.Injective fun i : Fin n => (⟨h i i.2, hlt i i.2⟩ : Fin n') := by
    intro i j hij
    have heq : h i i.2 = h j j.2 := congrArg Fin.val hij
    exact Fin.ext (hinj (hR i i.2) (heq ▸ hR j j.2))
  have hinjective' : Function.Injective fun i : Fin n' => (⟨h' i i.2, hlt' i i.2⟩ : Fin n) := by
    intro i j hij
    have heq : h' i i.2 = h' j j.2 := congrArg Fin.val hij
    exact Fin.ext (hfun (hR' i i.2) (heq ▸ hR' j j.2))
  -- both ways are injective, so there are as many numbers on either side
  obtain rfl : n = n' := by
    have hle := Fintype.card_le_of_injective _ hinjective
    have hle' := Fintype.card_le_of_injective _ hinjective'
    simp only [Fintype.card_fin] at hle hle'
    omega
  let σ : Equiv.Perm (Fin n) :=
    Equiv.ofBijective _ (Finite.injective_iff_bijective.1 hinjective)
  refine ⟨rfl, σ.extendDomain Fin.equivSubtype, fun i hi => ?_, fun i hi => ?_⟩
  · exact Equiv.Perm.extendDomain_apply_not_subtype σ _ (Nat.not_lt.2 hi)
  · -- below `n` the permutation takes a number to the one that it is matched with
    have happly := Equiv.Perm.extendDomain_apply_image σ Fin.equivSubtype ⟨i, hi⟩
    have hval : (σ.extendDomain Fin.equivSubtype) i = h i hi := happly
    rw [hval]
    exact hR i hi

end TokenGrammar
