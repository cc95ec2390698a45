import Mathlib.Data.List.DropRight
import Mathlib.Data.Set.Insert
import TokenGrammar.Proofs.Facts

/-!
# The phases of a context

A store of contexts answers requests one after another, in any order and for any numbers. Whatever
the requests are, an entry of a context is the union of all sets that were added to it or taken over
from a frozen context, and frozen contexts stay as they are. A request that fails changes nothing.
-/

namespace TokenGrammar

namespace ContextStore

/-- What can be asked of a store of contexts. -/
inductive Request
  | alloc
  | freeze
  | add (id cont context : Nat)
  | addSet (id cont : Nat) (set : ContextSet)
  | merge (id source : Nat)
  | read (id : Nat)
  deriving DecidableEq

inductive Answer
  | made (id : Nat)
  | done
  | callbacks (c : Callbacks)
  deriving DecidableEq

abbrev Reply := Except Failure Answer

/-- The number of the context that a reply tells of as made. -/
def Reply.made? : Reply → Option Nat
  | .ok (.made id) => some id
  | _ => none

def serveAll {σ : Type} (serve : Request → StateM σ Reply) (rs : List Request) (s : σ) :
    List Reply × σ :=
  (rs.mapM serve).run s

def carriedOut (rs : List Request) (replies : List Reply) : List Request :=
  ((rs.zip replies).filter (·.2.isOk)).map (·.1)

section Serving

variable {σ : Type} {serve : Request → StateM σ Reply} {rs : List Request} {s : σ}

@[simp] theorem serveAll_nil : serveAll serve [] s = ([], s) := rfl

theorem serveAll_append (rs' : List Request) :
    serveAll serve (rs ++ rs') s =
      ((serveAll serve rs s).1 ++ (serveAll serve rs' (serveAll serve rs s).2).1,
        (serveAll serve rs' (serveAll serve rs s).2).2) := by
  simp [serveAll, List.mapM_append]
  rfl

theorem serveAll_singleton (r : Request) :
    serveAll serve [r] s = ([(serve r s).1], (serve r s).2) := by
  simp [serveAll]
  rfl

theorem serveAll_concat (r : Request) :
    serveAll serve (rs ++ [r]) s =
      ((serveAll serve rs s).1 ++ [(serve r (serveAll serve rs s).2).1],
        (serve r (serveAll serve rs s).2).2) := by
  rw [serveAll_append, serveAll_singleton]

theorem length_serveAll : (serveAll serve rs s).1.length = rs.length := by
  induction rs using List.reverseRecOn with
  | nil => rfl
  | append_singleton rs r ih => simp [serveAll_concat, ih]

theorem carriedOut_concat {replies : List Reply} (h : replies.length = rs.length) (r : Request)
    (a : Reply) :
    carriedOut (rs ++ [r]) (replies ++ [a]) =
      carriedOut rs replies ++ if a.isOk then [r] else [] := by
  simp only [carriedOut, List.zip_append h.symm, List.filter_append, List.map_append]
  cases ha : a.isOk <;> simp [ha]

end Serving

end ContextStore

/-- An entry that is the union of sets. It is there when there is a set at all, and its members are
theirs. -/
structure IsUnion (entry : Option ContextSet) (sets : Set ContextSet) : Prop where
  isSome : entry.isSome = true ↔ sets.Nonempty
  mem : ∀ i, (∃ set ∈ entry, i ∈ set) ↔ ∃ set ∈ sets, i ∈ set

namespace IsUnion

variable {entry entry' : Option ContextSet} {sets : Set ContextSet}

theorem none_empty : IsUnion none ∅ := ⟨by simp, by simp⟩

/-- Sets have one union. -/
theorem unique (h : IsUnion entry sets) (h' : IsUnion entry' sets) : entry = entry' := by
  have hsome := h.isSome.trans h'.isSome.symm
  cases entry with
  | none =>
    cases entry' with
    | none => rfl
    | some t => simp at hsome
  | some s =>
    cases entry' with
    | none => simp at hsome
    | some t =>
      congr 1
      exact AscSet.ext_mem fun i => by simpa using (h.mem i).trans (h'.mem i).symm

theorem union (h : IsUnion entry sets) (set : ContextSet) :
    IsUnion (some ((entry.getD .empty).union set)) (insert set sets) := by
  constructor
  · simp
  · intro i
    have hi := h.mem i
    cases entry with
    | none => simp_all
    | some s => simp_all [or_comm]

end IsUnion

namespace Callbacks

variable {m : Callbacks} {p : Nat} {sets : Set ContextSet}

theorem add_eq_addSet (cont context : Nat) : m.add cont context = m.addSet cont (.single context) := by
  have hset : ∀ s : ContextSet, s.insert context = s.union (.single context) := fun s =>
    AscSet.ext_mem fun i => by simp [or_comm]
  simp only [add, addSet, hset]

theorem isUnion_addSet (cont : Nat) (set : ContextSet) (h : IsUnion m[p]? sets) :
    IsUnion (m.addSet cont set)[p]? (sets ∪ {t | cont = p ∧ t = set}) := by
  rw [addSet, Std.ExtTreeMap.getElem?_alter]
  by_cases hp : cont = p
  · subst hp
    simpa [Set.union_singleton] using h.union set
  · simpa [hp] using h

theorem isUnion_merge (other : Callbacks) (h : IsUnion m[p]? sets) :
    IsUnion (m.merge other)[p]? (sets ∪ {t | other[p]? = some t}) := by
  have hfold : ∀ (entries : List (Nat × ContextSet)) (m : Callbacks) (sets : Set ContextSet),
      IsUnion m[p]? sets →
        IsUnion (entries.foldl (fun m e => addSet m e.1 e.2) m)[p]?
          (sets ∪ {t | (p, t) ∈ entries}) := by
    intro entries
    induction entries with
    | nil => simp
    | cons e entries ih =>
      intro m sets h
      have hnext := ih _ _ (isUnion_addSet e.1 e.2 h)
      rw [Set.union_assoc] at hnext
      have hsets : {t | (p, t) ∈ e :: entries} =
          {t | e.1 = p ∧ t = e.2} ∪ {t | (p, t) ∈ entries} := by
        ext t
        simp [Prod.ext_iff, eq_comm]
      rwa [hsets]
  have hmerge := hfold other.toList m sets h
  simp only [Std.ExtTreeMap.mem_toList_iff_getElem?_eq_some] at hmerge
  exact hmerge

end Callbacks

namespace ContextStore

/-- The contexts that resume after a position of a context. -/
def callback? (s : ContextStore) (id cont : Nat) : Option ContextSet :=
  s.contexts[id]?.bind fun m => m[cont]?

/-- When a request is carried out. -/
def Permits (s : ContextStore) : Request → Prop
  | .alloc | .freeze => True
  | .add id _ _ | .addSet id _ _ => s.Writable id
  | .merge id source => s.Writable id ∧ source < s.frozen
  | .read id => id < s.frozen

/-- The set that a request brings to an entry, if it brings one. A context that takes over another
gets what the other one resumes with; the other one is frozen, so it does not matter when. -/
def gives (s : ContextStore) (id cont : Nat) : Request → Option ContextSet
  | .add target p context => if target = id ∧ p = cont then some (.single context) else none
  | .addSet target p set => if target = id ∧ p = cont then some set else none
  | .merge target source => if target = id then s.callback? source cont else none
  | .alloc | .freeze | .read _ => none

/-- The reply to a request to write, and the store after it. -/
def written (s : ContextStore) : Except Failure ContextStore → Reply × ContextStore
  | .ok s' => (.ok .done, s')
  | .error e => (.error e, s)

def serve (r : Request) : StateM ContextStore Reply := fun s =>
  match r with
  | .alloc => (.ok (.made s.alloc.1), s.alloc.2)
  | .freeze => (.ok .done, s.freeze)
  | .add id cont context => s.written (s.add id cont context)
  | .addSet id cont set => s.written (s.addSet id cont set)
  | .merge id source => s.written (s.merge id source)
  | .read id => ((s.read id).map .callbacks, s)

variable {s s' : ContextStore} {id cont : Nat} {r : Request}

/-- What carrying out a request does to a store. -/
structure CarriesOut (s : ContextStore) (r : Request) (s' : ContextStore) : Prop where
  size : s'.size = if r = .alloc then s.size + 1 else s.size
  frozen : s'.frozen = if r = .freeze then s.size else s.frozen
  kept : ∀ id < s.frozen, s'.contexts[id]? = s.contexts[id]?
  entries : ∀ {id cont : Nat} {sets : Set ContextSet}, IsUnion (s.callback? id cont) sets →
    IsUnion (s'.callback? id cont) (sets ∪ {set | s.gives id cont r = some set})

theorem carriesOut_update {f : Callbacks → Callbacks} (hw : s.Writable id) (halloc : r ≠ .alloc)
    (hfreeze : r ≠ .freeze) (hother : ∀ j ≠ id, ∀ cont, s.gives j cont r = none)
    (hf : ∀ {m : Callbacks} {cont : Nat} {sets : Set ContextSet}, IsUnion m[cont]? sets →
      IsUnion (f m)[cont]? (sets ∪ {set | s.gives id cont r = some set})) :
    s.CarriesOut r { s with contexts := s.contexts.modify id f } := by
  constructor
  case size => simp [size, halloc]
  case frozen => simp [hfreeze]
  case kept =>
    intro j hj
    have hne : id ≠ j := by have := hw.1; omega
    simp [Array.getElem?_modify, hne]
  case entries =>
    intro j cont sets h
    by_cases hj : j = id
    · subst hj
      have hlt : j < s.contexts.size := hw.2
      have hc : s.contexts[j]? = some s.contexts[j] := Array.getElem?_eq_getElem hlt
      rw [callback?, hc] at h
      rw [callback?, Array.getElem?_modify, if_pos rfl, hc]
      exact hf h
    · have hne : id ≠ j := Ne.symm hj
      simpa [callback?, Array.getElem?_modify, hne, hother j hj cont] using h

theorem carriesOut_alloc (hle : s.frozen ≤ s.size) : s.CarriesOut .alloc s.alloc.2 := by
  constructor
  case size => simp [size_alloc]
  case frozen => rfl
  case kept =>
    intro j hj
    rw [getElem?_alloc, if_neg (by omega)]
  case entries =>
    intro j cont sets h
    have hentry : s.alloc.2.callback? j cont = s.callback? j cont := by
      unfold callback?
      rw [getElem?_alloc]
      split
      · rename_i hj
        have hnone : s.contexts[j]? = none := Array.getElem?_eq_none (Nat.le_of_eq hj.symm)
        simp [hnone]
      · rfl
    simpa [gives, hentry] using h

theorem carriesOut_freeze : s.CarriesOut .freeze s.freeze := by
  constructor
  case size => simp [size, freeze]
  case frozen => rfl
  case kept => exact fun _ _ => rfl
  case entries => exact fun h => by simpa [gives, freeze, callback?] using h

theorem carriesOut_read (id : Nat) : s.CarriesOut (.read id) s := by
  constructor
  case size => rfl
  case frozen => rfl
  case kept => exact fun _ _ => rfl
  case entries => exact fun h => by simpa [gives] using h

theorem carriesOut_add (hw : s.Writable id) (context : Nat) :
    ∃ s', s.add id cont context = .ok s' ∧ s.CarriesOut (.add id cont context) s' := by
  refine ⟨_, update_of_writable hw _, carriesOut_update hw (by simp) (by simp) ?_ ?_⟩
  · intro j hj p
    simp [gives, Ne.symm hj]
  · intro c p sets h
    rw [Callbacks.add_eq_addSet]
    simpa [gives, eq_comm] using Callbacks.isUnion_addSet cont (.single context) h

theorem carriesOut_addSet (hw : s.Writable id) (set : ContextSet) :
    ∃ s', s.addSet id cont set = .ok s' ∧ s.CarriesOut (.addSet id cont set) s' := by
  refine ⟨_, update_of_writable hw _, carriesOut_update hw (by simp) (by simp) ?_ ?_⟩
  · intro j hj p
    simp [gives, Ne.symm hj]
  · intro c p sets h
    simpa [gives, eq_comm] using Callbacks.isUnion_addSet cont set h

theorem carriesOut_merge (hw : s.Writable id) {source : Nat} (hle : s.frozen ≤ s.size)
    (hsource : source < s.frozen) :
    ∃ s', s.merge id source = .ok s' ∧ s.CarriesOut (.merge id source) s' := by
  obtain ⟨other, hread, hother⟩ := read_ok hsource hle
  refine ⟨_, ?_, carriesOut_update (f := fun c => c.merge other) hw (by simp) (by simp) ?_ ?_⟩
  · rw [merge, ok_bind (requireOpen_of_writable hw), isFrozen, if_pos (by simpa using hsource),
      ok_bind hread]
    exact update_of_writable hw _
  · intro j hj p
    simp [gives, Ne.symm hj]
  · intro c p sets h
    simpa [gives, callback?, hother] using Callbacks.isUnion_merge other h

theorem serve_of_permits (hle : s.frozen ≤ s.size) (h : s.Permits r) :
    ∃ a s', serve r s = (.ok a, s') ∧ s.CarriesOut r s' := by
  have hwrites : ∀ {act : Except Failure ContextStore},
      (∃ s', act = .ok s' ∧ s.CarriesOut r s') →
        ∃ a s', s.written act = (.ok a, s') ∧ s.CarriesOut r s' := by
    rintro _ ⟨s', rfl, hs'⟩
    exact ⟨.done, s', rfl, hs'⟩
  cases r with
  | alloc => exact ⟨_, _, rfl, carriesOut_alloc hle⟩
  | freeze => exact ⟨_, _, rfl, carriesOut_freeze⟩
  | add id cont context => exact hwrites (carriesOut_add h context)
  | addSet id cont set => exact hwrites (carriesOut_addSet h set)
  | merge id source => exact hwrites (carriesOut_merge h.1 hle h.2)
  | read id =>
    obtain ⟨c, hc, -⟩ := read_ok h hle
    exact ⟨.callbacks c, s, by simp [serve, hc, Except.map], carriesOut_read id⟩

theorem serve_of_not_permits (h : ¬ s.Permits r) : ∃ e, serve r s = (.error e, s) := by
  have hwrites : ∀ {act : Except Failure ContextStore}, (∃ e, act = .error e) →
      ∃ e, s.written act = (.error e, s) := by
    rintro _ ⟨e, rfl⟩
    exact ⟨e, rfl⟩
  cases r with
  | alloc | freeze => exact absurd trivial h
  | add id cont context => exact hwrites (update_of_not_writable h _)
  | addSet id cont set => exact hwrites (update_of_not_writable h _)
  | merge id source =>
    apply hwrites
    by_cases hw : s.Writable id
    · have hsource : ¬ source < s.frozen := fun hsource => h ⟨hw, hsource⟩
      refine ⟨.defect .outOfRange, ?_⟩
      rw [merge, ok_bind (requireOpen_of_writable hw), isFrozen, if_neg (by simpa using hsource)]
      rfl
    · obtain ⟨e, he⟩ := requireOpen_of_not_writable hw
      exact ⟨e, by rw [merge, he]; rfl⟩
  | read id =>
    have hfrozen : ¬ id < s.frozen := h
    refine ⟨.defect (.readBeforeFrozen id), ?_⟩
    simp [serve, read, isFrozen, hfrozen, fault, Except.map, throw, throwThe,
      MonadExceptOf.throw]

theorem serve_of_error {e : Failure} (hle : s.frozen ≤ s.size) (h : serve r s = (.error e, s')) :
    s' = s := by
  by_cases hp : s.Permits r
  · obtain ⟨a, t, ht, -⟩ := serve_of_permits hle hp
    rw [ht] at h
    cases (Prod.mk.inj h).1
  · obtain ⟨e', he⟩ := serve_of_not_permits hp
    rw [he] at h
    exact (Prod.mk.inj h).2.symm

theorem made?_serve : (serve r s).1.made? = if r = .alloc then some s.size else none := by
  have hwritten : ∀ act : Except Failure ContextStore, (s.written act).1.made? = none := by
    intro act
    cases act <;> rfl
  cases r with
  | alloc | freeze => rfl
  | add | addSet | merge => simp [serve, hwritten]
  | read id =>
    have hread : (serve (.read id) s).1 = (s.read id).map .callbacks := rfl
    rw [hread]
    cases s.read id <;> rfl

/-- What holds of a store and any later state of it. -/
structure Precedes (s s' : ContextStore) : Prop where
  frozen : s.frozen ≤ s'.frozen
  frozen_le : s'.frozen ≤ s'.size
  kept : ∀ id < s.frozen, s'.contexts[id]? = s.contexts[id]?

theorem Precedes.refl (hle : s.frozen ≤ s.size) : s.Precedes s :=
  ⟨Nat.le_refl _, hle, fun _ _ => rfl⟩

theorem Precedes.trans {t : ContextStore} (h : s.Precedes s') (h' : s'.Precedes t) :
    s.Precedes t where
  frozen := Nat.le_trans h.frozen h'.frozen
  frozen_le := h'.frozen_le
  kept id hid := (h'.kept id (Nat.lt_of_lt_of_le hid h.frozen)).trans (h.kept id hid)

theorem CarriesOut.precedes (h : s.CarriesOut r s') (hle : s.frozen ≤ s.size) :
    s.Precedes s' where
  frozen := by rw [h.frozen]; split <;> omega
  frozen_le := by rw [h.frozen, h.size]; cases r <;> simp <;> omega
  kept := h.kept

theorem precedes_serve (hle : s.frozen ≤ s.size) (r : Request) : s.Precedes (serve r s).2 := by
  by_cases hp : s.Permits r
  · obtain ⟨a, s', hserve, hs⟩ := serve_of_permits hle hp
    rw [hserve]
    exact hs.precedes hle
  · obtain ⟨e, hserve⟩ := serve_of_not_permits hp
    rw [hserve]
    exact .refl hle

theorem precedes_serveAll (hle : s.frozen ≤ s.size) (later : List Request) :
    s.Precedes (serveAll serve later s).2 := by
  induction later using List.reverseRecOn with
  | nil => exact .refl hle
  | append_singleton later r ih =>
    rw [serveAll_concat]
    exact ih.trans (precedes_serve ih.frozen_le r)

def given (s : ContextStore) (done : List Request) (id cont : Nat) : Set ContextSet :=
  {set | ∃ r ∈ done, s.gives id cont r = some set}

/-- What a store has to show for the requests that were made and those of them that were carried
out. -/
structure Accounts (s : ContextStore) (rs done : List Request) : Prop where
  frozen_le : s.frozen ≤ s.size
  size : s.size = rs.count .alloc
  frozen : s.frozen = (rs.rdropWhile fun r => decide (r ≠ .freeze)).count .alloc
  sources : ∀ id source, .merge id source ∈ done → source < s.frozen
  entries : ∀ id cont, IsUnion (s.callback? id cont) (s.given done id cont)

theorem accounts_new : new.Accounts [] [] := by
  constructor
  case frozen_le => exact Nat.le_refl 0
  case size => rfl
  case frozen => rfl
  case sources => simp
  case entries =>
    intro id cont
    simpa [given, callback?, new] using IsUnion.none_empty

/-- What a request brings stays what it is, since it is taken over from a frozen context. -/
theorem CarriesOut.gives_eq (h : s.CarriesOut r s') {q : Request}
    (hq : ∀ id source, q = .merge id source → source < s.frozen) :
    s'.gives id cont q = s.gives id cont q := by
  cases q with
  | merge target source => simp [gives, callback?, h.kept source (hq target source rfl)]
  | _ => rfl

theorem Accounts.concat {rs done : List Request} (h : s.Accounts rs done) (hp : s.Permits r)
    (hs : s.CarriesOut r s') : s'.Accounts (rs ++ [r]) (done ++ [r]) := by
  have hsources : ∀ q ∈ done ++ [r], ∀ id source, q = .merge id source → source < s.frozen := by
    rintro q hq id source rfl
    rcases List.mem_append.1 hq with hq | hq
    · exact h.sources id source hq
    · rw [← List.mem_singleton.1 hq] at hp
      exact hp.2
  have hle := hs.precedes h.frozen_le
  constructor
  case frozen_le => exact hle.frozen_le
  case size =>
    rw [hs.size, h.size, List.count_append]
    cases r <;> simp
  case frozen =>
    rw [hs.frozen, List.rdropWhile_concat]
    cases r <;> simp [h.frozen, h.size]
  case sources =>
    exact fun id source hq => Nat.lt_of_lt_of_le (hsources _ hq id source rfl) hle.frozen
  case entries =>
    intro id cont
    have hgiven : s'.given (done ++ [r]) id cont =
        s.given done id cont ∪ {set | s.gives id cont r = some set} := by
      have hgives : ∀ q ∈ done ++ [r], s'.gives id cont q = s.gives id cont q := fun q hq =>
        hs.gives_eq (hsources q hq)
      ext set
      calc (∃ q ∈ done ++ [r], s'.gives id cont q = some set)
        _ ↔ ∃ q ∈ done ++ [r], s.gives id cont q = some set :=
          exists_congr fun q => and_congr_right fun hq => by rw [hgives q hq]
        _ ↔ _ := by simp [given, or_and_right, exists_or]
    rw [hgiven]
    exact hs.entries (h.entries id cont)

theorem Accounts.failed {rs done : List Request} (h : s.Accounts rs done) (hp : ¬ s.Permits r) :
    s.Accounts (rs ++ [r]) done := by
  have halloc : r ≠ .alloc := by rintro rfl; exact hp trivial
  have hfreeze : r ≠ .freeze := by rintro rfl; exact hp trivial
  exact { h with
    size := by simp [List.count_append, h.size, halloc]
    frozen := by rw [List.rdropWhile_concat, if_pos (by simpa using hfreeze), h.frozen] }

variable {rs : List Request}

theorem accounts_serveAll (rs : List Request) :
    (serveAll serve rs new).2.Accounts rs (carriedOut rs (serveAll serve rs new).1) := by
  induction rs using List.reverseRecOn with
  | nil => exact accounts_new
  | append_singleton rs r ih =>
    rw [serveAll_concat, carriedOut_concat length_serveAll]
    by_cases hp : (serveAll serve rs new).2.Permits r
    · obtain ⟨a, s', hserve, hs⟩ := serve_of_permits ih.frozen_le hp
      rw [hserve]
      exact ih.concat hp hs
    · obtain ⟨e, hserve⟩ := serve_of_not_permits hp
      rw [hserve]
      simpa [Except.isOk, Except.toBool] using ih.failed hp

theorem made_serveAll (rs : List Request) :
    (serveAll serve rs new).1.filterMap Reply.made? = List.range (serveAll serve rs new).2.size := by
  induction rs using List.reverseRecOn with
  | nil => rfl
  | append_singleton rs r ih =>
    have hsize := (accounts_serveAll rs).size
    have hsize' := (accounts_serveAll (rs ++ [r])).size
    rw [List.count_append, ← hsize] at hsize'
    rw [hsize', serveAll_concat, List.filterMap_append, ih]
    by_cases hr : r = .alloc
    · subst hr
      simp [made?_serve, List.range_succ]
    · simp [made?_serve, hr]

end ContextStore

end TokenGrammar
