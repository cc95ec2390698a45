import TokenGrammar.Context.Halves
import TokenGrammar.Proofs.StorePhases

/-!
# Two halves of contexts against one store

Contexts kept in two halves and changed in place answer every request as their store does, and come
to the same contexts. What is known of a store that has served requests is put together at the end.
-/

namespace TokenGrammar

namespace Halves

open ContextStore (Request Answer Reply)

def store (h : Halves) : ContextStore := ⟨h.frozen ++ h.fresh, h.frozen.size⟩

theorem store_injective : Function.Injective store := by
  intro h h' heq
  have ⟨hcontexts, hsize⟩ := ContextStore.mk.inj heq
  have ⟨hfrozen, hfresh⟩ := Array.append_inj hcontexts hsize
  cases h
  cases h'
  rw [mk.injEq]
  exact ⟨hfrozen, hfresh⟩

/-- The reply to a request whose answer says no more than that it was carried out. -/
def acknowledge (act : HalvesM Unit) : HalvesM Answer := do
  act
  return .done

def serve : Request → StateM Halves Reply
  | .alloc => (do return .made (← alloc) : HalvesM Answer)
  | .freeze => acknowledge freeze
  | .add id cont context => acknowledge (add id cont context)
  | .addSet id cont set => acknowledge (addSet id cont set)
  | .merge id source => acknowledge (merge id source)
  | .read id => (do return .callbacks (← read id) : HalvesM Answer)

variable {h h' : Halves} {id : Nat} {act : HalvesM Unit}

/-- A context can be written to in the halves when it can in the store; its place is counted from the
end of the frozen ones. -/
theorem split_apply (id : Nat) (h : Halves) :
    split id h =
      ((h.store.requireOpen id).map fun _ => (h.frozen, id - h.frozen.size), h) := by
  rw [split, get_bind_apply, ContextStore.requireOpen]
  by_cases hid : h.isFrozen id = true
  · rw [if_pos hid, if_pos (show h.store.isFrozen id = true from hid)]
    rfl
  · rw [if_neg hid, if_neg (show ¬ h.store.isFrozen id = true from hid)]
    have hsize : id - h.frozen.size < h.fresh.size ↔ id < h.store.size := by
      simp only [isFrozen, decide_eq_true_eq] at hid
      simp only [ContextStore.size, store, Array.size_append]
      omega
    by_cases hlt : id < h.store.size
    · rw [if_pos hlt, if_pos (hsize.2 hlt)]
      rfl
    · rw [if_neg hlt, if_neg (hsize.not.2 hlt)]
      rfl

theorem change_apply (place : Nat) (f : Callbacks → Callbacks) (h : Halves) :
    change place f h = (.ok (), { h with fresh := h.fresh.modify place f }) := rfl

theorem store_change (hid : h.frozen.size ≤ id) (f : Callbacks → Callbacks) :
    store { h with fresh := h.fresh.modify (id - h.frozen.size) f } =
      { h.store with contexts := h.store.contexts.modify id f } := by
  simp only [store, ContextStore.mk.injEq, and_true]
  apply Array.ext_getElem?
  intro i
  simp only [Array.getElem?_append, Array.getElem?_modify]
  by_cases hi : i < h.frozen.size
  · have hne : id ≠ i := by omega
    simp [hi, hne]
  · have hplace : id - h.frozen.size = i - h.frozen.size ↔ id = i := by omega
    simp [hi, hplace]

theorem forM_change_apply {β : Type} (place : Nat) (f : Callbacks → β → Callbacks) (items : List β)
    (h : Halves) :
    (items.forM fun x => change place fun c => f c x : HalvesM Unit) h =
      (.ok (), { h with fresh := h.fresh.modify place fun c => items.foldl f c }) := by
  induction items generalizing h with
  | nil =>
    have hsame : h.fresh.modify place (fun c => c) = h.fresh := by
      apply Array.ext_getElem?
      intro i
      simp [Array.getElem?_modify]
    simp only [List.foldl_nil, hsame]
    rfl
  | cons x items ih =>
    have htwice : (h.fresh.modify place fun c => f c x).modify place
        (fun c => items.foldl f c) = h.fresh.modify place fun c => items.foldl f (f c x) := by
      apply Array.ext_getElem?
      intro i
      simp only [Array.getElem?_modify]
      split <;> simp [Function.comp_def]
    show (change place (fun c => f c x) >>= fun _ => _ : HalvesM Unit) h = _
    rw [bind_apply, change_apply]
    simp only [ih, htwice, List.foldl_cons]

/-- An action on the halves does what a writing operation does to their store. -/
def Writes (act : HalvesM Unit) (h : Halves) (result : Except Failure ContextStore) : Prop :=
  h.store.written result = ((acknowledge act h).1, (acknowledge act h).2.store)

theorem writes_ok (hact : act h = (.ok (), h')) : Writes act h (.ok h'.store) := by
  rw [Writes, acknowledge, bind_apply, hact]
  rfl

theorem writes_error {e : Failure} (hact : act h = (.error e, h)) : Writes act h (.error e) := by
  rw [Writes, acknowledge, bind_apply, hact]
  rfl

theorem writes_change (id : Nat) (f : Callbacks → Callbacks) (h : Halves) :
    Writes (do let (_, place) ← split id; change place f) h (h.store.update id f) := by
  by_cases hw : h.store.Writable id
  · rw [ContextStore.update_of_writable hw, ← store_change hw.1]
    apply writes_ok
    rw [bind_apply, split_apply, ContextStore.requireOpen_of_writable hw]
    rfl
  · obtain ⟨e, he⟩ := ContextStore.requireOpen_of_not_writable hw
    rw [ContextStore.update, he]
    apply writes_error
    rw [bind_apply, split_apply, he]
    rfl

theorem isFrozen_store : h.store.isFrozen id = h.isFrozen id := rfl

theorem read_store (hid : h.isFrozen id = true) : h.store.read id = inRange h.frozen[id]? := by
  have hlt : id < h.frozen.size := by simpa [isFrozen] using hid
  have hget : h.store.contexts[id]? = h.frozen[id]? := by
    simp [store, Array.getElem?_append, hlt]
  rw [ContextStore.read, isFrozen_store, if_pos hid, hget]

theorem writes_merge (id source : Nat) (h : Halves) :
    Writes (merge id source) h (h.store.merge id source) := by
  by_cases hw : h.store.Writable id
  · have hopen := ContextStore.requireOpen_of_writable hw
    have hmerge : merge id source h =
        ((inRange h.frozen[source]? : HalvesM Callbacks) >>= fun other =>
          other.toList.forM fun e =>
            change (id - h.frozen.size) fun c => c.addSet e.1 e.2) h := by
      rw [merge, bind_apply, split_apply, hopen]
      rfl
    rw [ContextStore.merge, ok_bind hopen, isFrozen_store]
    by_cases hsource : h.isFrozen source = true
    · have hlt : source < h.frozen.size := by simpa [isFrozen] using hsource
      have hget : h.frozen[source]? = some h.frozen[source] := Array.getElem?_eq_getElem hlt
      have hread : h.store.read source = .ok h.frozen[source] := by
        rw [read_store hsource, hget]
        rfl
      rw [if_pos hsource, ok_bind hread, ContextStore.update_of_writable hw, ← store_change hw.1]
      apply writes_ok
      rw [hmerge, hget]
      exact forM_change_apply _ _ _ h
    · have hge : h.frozen.size ≤ source := by simpa [isFrozen] using hsource
      rw [if_neg hsource]
      apply writes_error
      rw [hmerge, Array.getElem?_eq_none hge]
      rfl
  · obtain ⟨e, he⟩ := ContextStore.requireOpen_of_not_writable hw
    rw [ContextStore.merge, he]
    apply writes_error
    rw [merge, bind_apply, split_apply, he]
    rfl

theorem read_apply (id : Nat) (h : Halves) : read id h = (h.store.read id, h) := by
  rw [read, get_bind_apply]
  by_cases hid : h.isFrozen id = true
  · rw [if_pos hid, read_store hid]
    cases h.frozen[id]? <;> rfl
  · rw [if_neg hid, ContextStore.read, isFrozen_store, if_neg hid]
    rfl

/-- The halves and their store give the same reply and come to the same contexts. -/
theorem serve_store (r : Request) (h : Halves) :
    ContextStore.serve r h.store = ((serve r h).1, (serve r h).2.store) := by
  cases r with
  | alloc =>
    have hstore : store { h with fresh := h.fresh.push ∅ } = h.store.alloc.2 := by
      simp [store, ContextStore.alloc]
    have hsize : h.store.size = h.size := Array.size_append
    show (Except.ok (Answer.made h.store.size), h.store.alloc.2) = _
    rw [← hstore, hsize]
    rfl
  | freeze =>
    have hstore : store ⟨h.frozen ++ h.fresh, #[]⟩ = h.store.freeze := by
      simp [store, ContextStore.freeze, ContextStore.size]
    show (Except.ok Answer.done, h.store.freeze) = _
    rw [← hstore]
    rfl
  | add id cont context => exact writes_change id _ h
  | addSet id cont set => exact writes_change id _ h
  | merge id source => exact writes_merge id source h
  | read id =>
    rw [serve, bind_apply, read_apply, ContextStore.serve]
    cases h.store.read id <;> rfl

theorem serveAll_store (rs : List Request) (h : Halves) :
    ContextStore.serveAll ContextStore.serve rs h.store =
      ((ContextStore.serveAll serve rs h).1, (ContextStore.serveAll serve rs h).2.store) := by
  induction rs using List.reverseRecOn with
  | nil => rfl
  | append_singleton rs r ih =>
    rw [ContextStore.serveAll_concat, ContextStore.serveAll_concat, ih]
    simp only [serve_store]

theorem serve_of_error {r : Request} {e : Failure} {h' : Halves}
    (hle : h.store.frozen ≤ h.store.size) (he : serve r h = (.error e, h')) : h' = h := by
  apply store_injective
  apply ContextStore.serve_of_error hle
  rw [serve_store, he]

end Halves

/-- **Contexts have two phases.** Take any requests to a new store, for any numbers, and the store that
has served them.

Contexts kept in two halves and changed in place give the same replies and hold the same contexts.
Contexts are numbered from zero on, without gaps; those made before the last request to freeze are
frozen. After each position a context resumes with the union of all that was added to it there and of
what the frozen contexts that it took over resume with there. Frozen contexts can be read and stay the
same whatever is asked later. The next request succeeds when it is permitted: reading takes a frozen
context, writing takes a context that was made and is not frozen, and only a frozen one can be taken
over. Otherwise it fails, and the store and the halves are what they were. -/
theorem ContextStore.two_phases (rs : List Request) :
    ∃ (replies : List Reply) (s : ContextStore) (h : Halves),
      serveAll serve rs new = (replies, s) ∧
      serveAll Halves.serve rs Halves.new = (replies, h) ∧ h.store = s ∧
      replies.filterMap Reply.made? = List.range s.size ∧ s.size = rs.count .alloc ∧
      s.frozen = (rs.rdropWhile fun r => decide (r ≠ .freeze)).count .alloc ∧
      (∀ id cont, IsUnion (s.callback? id cont) (s.given (carriedOut rs replies) id cont)) ∧
      (∀ id < s.frozen, ∃ c, s.contexts[id]? = some c ∧
        serve (.read id) s = (.ok (.callbacks c), s) ∧
        ∀ later, (serveAll serve later s).2.contexts[id]? = some c) ∧
      (∀ r, s.Permits r → ∃ a, (serve r s).1 = .ok a) ∧
      ∀ r, ¬ s.Permits r → ∃ e, serve r s = (.error e, s) ∧ Halves.serve r h = (.error e, h) := by
  have hrun : serveAll serve rs new = _ := Halves.serveAll_store rs .new
  have haccounts := accounts_serveAll rs
  have hmade := made_serveAll rs
  rw [hrun] at haccounts hmade
  generalize hh : serveAll Halves.serve rs .new = run at *
  obtain ⟨replies, h⟩ := run
  have hle := haccounts.frozen_le
  refine ⟨replies, h.store, h, hrun, rfl, rfl, hmade, haccounts.size, haccounts.frozen,
    haccounts.entries, ?reads, ?succeeds, ?fails⟩
  case reads =>
    intro id hid
    obtain ⟨c, hread, hc⟩ := read_ok hid hle
    refine ⟨c, hc, by simp [serve, hread, Except.map], fun later => ?_⟩
    rw [(precedes_serveAll hle later).kept id hid, hc]
  case succeeds =>
    intro r hr
    obtain ⟨a, s', hserve, -⟩ := serve_of_permits hle hr
    exact ⟨a, by rw [hserve]⟩
  case fails =>
    intro r hr
    obtain ⟨e, he⟩ := serve_of_not_permits hr
    have hreply : (Halves.serve r h).1 = .error e := by
      have hstore := Halves.serve_store r h
      rw [he] at hstore
      exact (Prod.mk.inj hstore).1.symm
    exact ⟨e, he, Prod.ext hreply (Halves.serve_of_error hle (Prod.ext hreply rfl))⟩

end TokenGrammar
