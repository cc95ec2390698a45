import TokenGrammar.Proofs.TailClosure

/-!
# What contexts are made for

A context is made for the root, or for a rule that is entered at some offset. The contexts under
construction at an offset say which rule each of them is for. A recognizer does not keep that, so here
it is noted down along its run, context by context.
-/

namespace TokenGrammar

/-- The contexts under construction once a token has been accepted and all calls that control arrives
at then have been entered. A step freezes them, see `Frontier.ofArrivals_eq`. -/
def Frontier.enterCallsAfter (t : Tables) (store : ContextStore) (entries : List (Nat × ContextSet))
    (token : Token) : Except Failure Entering := do
  let matched ← matching t token entries
  let arrived ← arrivals t store matched
  arrived.enterCalls t store

/-- `before` says what the contexts were made for that were there before; `after` says it of those
under construction as well. -/
structure Entering.Allots (e : Entering) (before after : List (Option Nat)) : Prop where
  kept : before <+: after
  size : after.length = e.store.size
  made : ∀ r i : Nat, e.contexts[r]? = some i ↔ before.length ≤ i ∧ after[i]? = some (some r)

/-- Along a run of a recognizer, what its contexts have been made for: context 0 is that of the root,
and the others come from the steps. -/
inductive Recognizer.Allots (r₀ : Recognizer) :
    List Token → Recognizer → List (Option Nat) → Prop
  | fresh {e : Entering} {owners : List (Option Nat)}
    (he : (Frontier.addAll ∅ r₀.tables.rootFirsts (.single 0)).enterCalls r₀.tables
      Tables.seedStore = .ok e)
    (ho : e.Allots [none] owners) : Allots r₀ [] r₀ owners
  | consumed {u : List Token} {r r' : Recognizer} {t : Token} {e : Entering}
    {owners owners' : List (Option Nat)} (h : Allots r₀ u r owners)
    (he : Frontier.enterCallsAfter r.tables r.store r.frontier.toList t = .ok e)
    (ho : e.Allots owners owners') (hc : r.consume t = .ok (true, r')) :
    Allots r₀ (u ++ [t]) r' owners'
  | refused {u : List Token} {r r' : Recognizer} {t : Token} {e : Entering}
    {owners owners' : List (Option Nat)} (h : Allots r₀ u r owners) (hr : r.rejectedAt = none)
    (he : Frontier.enterCallsAfter r.tables r.store r.frontier.toList t = .ok e)
    (ho : e.Allots owners owners') (hc : r.consume t = .ok (false, r')) : Allots r₀ u r' owners'
  | ignored {u : List Token} {r r' : Recognizer} {t : Token} {k : Nat}
    {owners : List (Option Nat)} (h : Allots r₀ u r owners) (hr : r.rejectedAt = some k)
    (hc : r.consume t = .ok (false, r')) : Allots r₀ u r' owners
  | forked {u : List Token} {r : Recognizer} {owners : List (Option Nat)}
    (h : Allots r₀ u r owners) : Allots r₀ u r.fork owners
  | logged {u : List Token} {r : Recognizer} {owners : List (Option Nat)}
    (h : Allots r₀ u r owners) (log : Log) : Allots r₀ u { r with log := log } owners

namespace Grammar

/-- What the contexts are for once `u` has been read. -/
noncomputable def owners (g : Grammar) (u : List Token) : List (Option Nat) :=
  (g.activations u).map (·.top)

variable {g : Grammar} {t : Tables} {u w : List Token} {s : ContextStore} {f : Frontier}
  {r r₀ : Recognizer} {owners : List (Option Nat)}

/-- One context is made for each rule that is entered. -/
theorem Opens.allots_iff (hg : g.WellFormed) {e : Entering} (ho : g.Opens u s e) :
    e.Allots ((g.enteredBefore u).map (·.top)) owners ↔ owners = g.owners u := by
  constructor
  · intro h
    have hlen : owners.length = (g.activations u).length := h.size.trans ho.size
    refine List.ext_getElem? fun i => ?_
    rw [Grammar.owners, List.getElem?_map]
    cases hi : (g.activations u)[i]? with
    | none =>
      rw [List.getElem?_eq_none_iff] at hi
      rw [List.getElem?_eq_none (hlen ▸ hi), Option.map_none]
    | some x =>
      by_cases hlt : i < (g.enteredBefore u).length
      · rw [activations, List.getElem?_append_left hlt] at hi
        rw [List.prefix_iff_getElem?.1 h.kept i (by rwa [List.length_map])]
        simp [(List.getElem?_eq_some_iff.1 hi).2]
      · obtain ⟨a, rfl⟩ := exists_of_inside ((hg.new_iff_inside hi).1 (Nat.le_of_not_lt hlt))
        exact ((h.made a i).1 ((ho.context a i).2 hi)).2
  · rintro rfl
    refine ⟨?_, ?_, fun a i => ?_⟩
    · rw [Grammar.owners, activations, List.map_append]
      exact List.prefix_append _ _
    · rw [Grammar.owners, List.length_map, ho.size]
    · rw [ho.context, Grammar.owners, List.length_map, List.getElem?_map]
      constructor
      · intro hi
        rw [hg.new_iff_inside hi, hi]
        simp [FromOutside]
      · rintro ⟨hle, hi⟩
        obtain ⟨x, hx, htop⟩ := Option.map_eq_some_iff.1 hi
        obtain ⟨a', rfl⟩ := exists_of_inside ((hg.new_iff_inside hx).1 hle)
        obtain rfl := Option.some.inj htop
        exact hx

/-- The frontier and the contexts of a recognizer have come about by reading `w`, and tail calls are
closed. -/
structure Linked (g : Grammar) (w : List Token) (r : Recognizer) : Prop where
  fits : r.tables.Fits g
  tracks : g.Tracks w r.frontier r.store
  closed : r.store.TailClosed r.tables

/-- A recognizer has just been made, with one context for each rule that is entered at the start. -/
structure Begun (g : Grammar) (r : Recognizer) : Prop extends g.Linked [] r where
  allots : ∃ e, (Frontier.addAll ∅ r.tables.rootFirsts (.single 0)).enterCalls r.tables
    Tables.seedStore = .ok e ∧ ∀ owners, e.Allots [none] owners ↔ owners = g.owners []

theorem tailClosed_seedStore : Tables.seedStore.TailClosed t := by
  intro c k i q j ⟨m, hm, hh⟩
  obtain ⟨hlt, rfl⟩ := Array.getElem?_eq_some_iff.1 hm
  obtain rfl : c = 0 := by simpa [Tables.seedStore, ContextStore.freeze, ContextStore.alloc,
    ContextStore.new] using hlt
  exact absurd hh not_holds_empty

theorem Valid.begun_ok (hg : g.Valid) (ht : t.Fits g) (options : Options) (log : Log) :
    ∃ r, Recognizer.start t options log = .ok r ∧ g.Begun r := by
  obtain ⟨e, f, he, hw, htr, hrun⟩ := hg.start_eq ht options log
  have hcl : e.store.freeze.TailClosed t :=
    hw.tailClosed hg ht (arrivals_start hg ht) tailClosed_seedStore
  exact ⟨_, hrun, ⟨ht, htr, hcl⟩, e, he, fun owners => hw.allots_iff hg.toWellFormed⟩

/-- A step makes one context for each rule that is entered, and keeps tail calls closed. -/
theorem Tracks.enterCallsAfter_ok (h : g.Tracks w f s) (hg : g.Valid) (ht : t.Fits g)
    (hs : s.TailClosed t) (tok : Token) :
    ∃ e a, Frontier.enterCallsAfter t s f.toList tok = .ok e ∧
      Frontier.advance t s f.toList tok = .ok a ∧ g.Tracks (w ++ [tok]) a.frontier a.store ∧
      a.store.TailClosed t ∧
      ∀ owners, e.Allots (g.owners w) owners ↔ owners = g.owners (w ++ [tok]) := by
  obtain ⟨matched, arrived, hm, har, hfull, hv⟩ := hg.arrivals_ok ht h tok
  have ha := h.arrivals hg hv hfull
  obtain ⟨e, f', he, hw, hof, htr⟩ := ha.ofArrivals_ok hg ht
  refine ⟨e, ⟨f', e.store.freeze, matched.length⟩, ?_, ?_, htr, hw.tailClosed hg ht ha hs,
    fun owners => ?_⟩
  · rw [Frontier.enterCallsAfter, ok_bind hm, ok_bind har]
    exact he
  · rw [Frontier.advance, ok_bind hm, ok_bind har, ok_bind hof]
    rfl
  · rw [Grammar.owners, ← enteredBefore_concat (t := tok)]
    exact hw.allots_iff hg.toWellFormed

namespace Linked

theorem consume_ok (hg : g.Valid) (h : g.Linked w r) (hr : r.rejectedAt = none) (tok : Token) :
    ∃ e, Frontier.enterCallsAfter r.tables r.store r.frontier.toList tok = .ok e ∧
      (∀ owners, e.Allots (g.owners w) owners ↔ owners = g.owners (w ++ [tok])) ∧
      ∀ b r', r.consume tok = .ok (b, r') → g.Linked (w ++ [tok]) r' := by
  obtain ⟨e, a, he, ha, htr, hcl, hallots⟩ := h.tracks.enterCallsAfter_ok hg h.fits h.closed tok
  refine ⟨e, he, hallots, fun b r' hc => ?_⟩
  obtain ⟨ht, hf, hs⟩ := Recognizer.consume_eq hr ha hc
  exact ⟨ht ▸ h.fits, by rw [hf, hs]; exact htr, by rw [hs, ht]; exact hcl⟩

theorem consume_rejected (h : g.Linked w r) {k : Nat} (hr : r.rejectedAt = some k) {tok : Token}
    {b : Bool} {r' : Recognizer} (hc : r.consume tok = .ok (b, r')) : b = false ∧ g.Linked w r' := by
  obtain ⟨log, hc'⟩ := Recognizer.consume_of_rejected hr tok
  rw [hc] at hc'
  cases hc'
  exact ⟨rfl, h.fits, h.tracks, h.closed⟩

end Linked

variable (hg : g.Valid) (h₀ : g.Begun r₀)
include hg h₀

theorem Begun.linked (h : r₀.Allots u r owners) : ∃ w, g.Linked w r ∧ owners = g.owners w := by
  induction h with
  | fresh he ho =>
    obtain ⟨e, he', hallots⟩ := h₀.allots
    obtain rfl := Except.ok.inj (he.symm.trans he')
    exact ⟨[], h₀.toLinked, (hallots _).1 ho⟩
  | @consumed u r r' tok e owners owners' _ he ho hc ih =>
    obtain ⟨w, hw, rfl⟩ := ih
    cases hr : r.rejectedAt with
    | some k => cases (hw.consume_rejected hr hc).1
    | none =>
      obtain ⟨e', he', hallots, hnext⟩ := hw.consume_ok hg hr tok
      obtain rfl := Except.ok.inj (he.symm.trans he')
      exact ⟨_, hnext _ _ hc, (hallots _).1 ho⟩
  | @refused u r r' tok e owners owners' _ hr he ho hc ih =>
    obtain ⟨w, hw, rfl⟩ := ih
    obtain ⟨e', he', hallots, hnext⟩ := hw.consume_ok hg hr tok
    obtain rfl := Except.ok.inj (he.symm.trans he')
    exact ⟨_, hnext _ _ hc, (hallots _).1 ho⟩
  | ignored _ hr hc ih =>
    obtain ⟨w, hw, rfl⟩ := ih
    exact ⟨w, (hw.consume_rejected hr hc).2, rfl⟩
  | forked _ ih | logged _ _ ih =>
    obtain ⟨w, hw, rfl⟩ := ih
    exact ⟨w, ⟨hw.fits, hw.tracks, hw.closed⟩, rfl⟩

/-- Along every run it can be noted down what the contexts are made for. -/
theorem Begun.exists_allots (h : r₀.Run u r) : ∃ owners, r₀.Allots u r owners := by
  induction h with
  | fresh =>
    obtain ⟨e, he, hallots⟩ := h₀.allots
    exact ⟨_, .fresh he ((hallots _).2 rfl)⟩
  | @consumed u r r' tok _ hc ih =>
    obtain ⟨owners, ho⟩ := ih
    obtain ⟨w, hw, rfl⟩ := h₀.linked hg ho
    cases hr : r.rejectedAt with
    | some k => cases (hw.consume_rejected hr hc).1
    | none =>
      obtain ⟨e, he, hallots, -⟩ := hw.consume_ok hg hr tok
      exact ⟨_, .consumed ho he ((hallots _).2 rfl) hc⟩
  | @refused u r r' tok _ hc ih =>
    obtain ⟨owners, ho⟩ := ih
    obtain ⟨w, hw, rfl⟩ := h₀.linked hg ho
    cases hr : r.rejectedAt with
    | some k => exact ⟨_, .ignored ho hr hc⟩
    | none =>
      obtain ⟨e, he, hallots, -⟩ := hw.consume_ok hg hr tok
      exact ⟨_, .refused ho hr he ((hallots _).2 rfl) hc⟩
  | forked _ ih =>
    obtain ⟨owners, ho⟩ := ih
    exact ⟨owners, .forked ho⟩
  | logged _ log ih =>
    obtain ⟨owners, ho⟩ := ih
    exact ⟨owners, .logged ho log⟩

end Grammar

end TokenGrammar
