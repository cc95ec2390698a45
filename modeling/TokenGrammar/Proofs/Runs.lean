import TokenGrammar.Proofs.Stepping

/-!
# Runs of a recognizer

A recognizer is made once and then reads tokens; it can be copied, and its log can be changed. In all
that, as long as it is not rejected, its frontier tracks the tokens that it has consumed. It is
rejected by a token after which control would stand nowhere.
-/

namespace TokenGrammar

namespace Grammar

variable {g : Grammar} {t : Tables} {u : List Token} {f : Frontier} {s : ContextStore}

theorem arrivals_start (hg : g.Valid) (ht : t.Fits g) :
    g.Arrivals [] (Frontier.addAll ∅ t.rootFirsts (.single 0)) ⟨#[∅], 1⟩ := by
  have hempty : ∀ (i : Nat) (m : Callbacks), (#[∅] : Array Callbacks)[i]? = some m → m = ∅ := by
    intro i m hm
    obtain ⟨hlt, rfl⟩ := Array.getElem?_eq_some_iff.1 hm
    obtain rfl : i = 0 := by simpa using hlt
    rfl
  have hroot : ∀ (i : Nat) (x : Activation), (g.enteredBefore [])[i]? = some x ↔
      i = 0 ∧ x = ⟨none, []⟩ := by
    intro i x
    cases i <;> simp [enteredBefore, eq_comm]
  obtain ⟨hfull, hv⟩ := holds_addAll t.rootFirsts ⟨0, AscSet.mem_single.2 rfl⟩ full_empty
  refine ⟨⟨rfl, rfl, ?_, ?_, ?_⟩, hfull, fun q i => ?_⟩
  · intro i m hm
    rw [hempty i m hm]
    exact full_empty
  · rintro i p j ⟨m, hm, hh⟩
    rw [hempty i m hm] at hh
    exact absurd hh not_holds_empty
  · intro i p j a u y _ hi
    have := ((hroot i _).1 hi).2
    cases this
  · rw [hv (q, i), ht.rootFirsts, AscSet.mem_single]
    simp only [not_holds_empty, false_or, hroot]
    constructor
    · rintro ⟨hq, hi⟩
      have har := (hg.arrive_nil_iff (hg.inner_top (show g.top? none = _ from rfl))).2 hq
      exact ⟨_, ⟨hi, rfl⟩, .inl ⟨⟨.root, g.root, [], rfl, rfl, har⟩, .inr rfl⟩⟩
    · rintro ⟨x, ⟨hi, rfl⟩, ⟨⟨-, e, w, he, hw, har⟩, -⟩ | ⟨-, -, hne, -⟩⟩
      · obtain rfl := Option.some.inj he
        obtain rfl : w = [] := hw.symm
        exact ⟨(hg.arrive_nil_iff (hg.inner_top (show g.top? none = _ from rfl))).1 har, hi⟩
      · exact absurd rfl hne

theorem Tracks.arrivals (h : g.Tracks u f s) (hg : g.Valid) {tok : Token} {arrived : Frontier}
    (harr : ∀ q i, Holds arrived q i ↔ ∃ x, (g.activations u)[i]? = some x ∧ g.Moves u tok x q)
    (hfull : Full arrived) : g.Arrivals (u ++ [tok]) arrived s := by
  refine ⟨?_, hfull, fun q i => ?_⟩
  · rw [enteredBefore_concat]
    exact h.store
  · rw [enteredBefore_concat, harr]
    simp only [hg.moves_iff_comes]

/-- A step never fails, and leads on to what has been read then. -/
theorem Valid.advance_ok (hg : g.Valid) (ht : t.Fits g) (h : g.Tracks u f s) (tok : Token) :
    ∃ matched a, Frontier.matching t tok f.toList = .ok matched ∧
      Frontier.advance t s f.toList tok = .ok a ∧ a.matched = matched.length ∧
      g.Tracks (u ++ [tok]) a.frontier a.store := by
  obtain ⟨matched, arrived, hm, har, hfull, hv⟩ := hg.arrivals_ok ht h tok
  obtain ⟨e, f', -, -, hof, htr⟩ := (h.arrivals hg hv hfull).ofArrivals_ok hg ht
  refine ⟨matched, ⟨f', e.store.freeze, matched.length⟩, hm, ?_, rfl, htr⟩
  rw [Frontier.advance, ok_bind hm, ok_bind har, ok_bind hof]
  rfl

theorem Valid.start_eq (hg : g.Valid) (ht : t.Fits g) (options : Options) (log : Log) :
    ∃ e f, (Frontier.addAll ∅ t.rootFirsts (.single 0)).enterCalls t ⟨#[∅], 1⟩ = .ok e ∧
      g.Written t [] ⟨#[∅], 1⟩ (Frontier.addAll ∅ t.rootFirsts (.single 0)) e ∧
      g.Tracks [] f e.store.freeze ∧ Recognizer.start t options log = .ok
        ⟨t, options, e.store.freeze, f, 0, none, ⟨0, 0, f.size, e.store.size, 0⟩, log⟩ := by
  obtain ⟨e, f, he, hw, hof, htr⟩ := (arrivals_start hg ht).ofArrivals_ok hg ht
  refine ⟨e, f, he, hw, htr, ?_⟩
  rw [Recognizer.start]
  exact ok_bind hof

/-- When `u` has been read, control stands somewhere. -/
def Standing (g : Grammar) (u : List Token) : Prop := ∃ x p, g.Stands u x p

/-- The recognizer has consumed just the tokens `u`. -/
structure Reading (g : Grammar) (u : List Token) (r : Recognizer) : Prop where
  fits : r.tables.Fits g
  offset : r.offset = u.length
  tracks : r.rejectedAt = none → g.Tracks u r.frontier r.store
  standing : r.rejectedAt = none → u ≠ [] → g.Standing u
  rejected : ∀ k, r.rejectedAt = some k →
    k = u.length ∧ (u ≠ [] → g.Standing u) ∧ ∃ tok, ¬ g.Standing (u ++ [tok])

/-- The recognizer has just been made. -/
structure Fresh (g : Grammar) (r : Recognizer) : Prop extends g.Reading [] r where
  rejectedAt : r.rejectedAt = none
  stats : r.stats = ⟨0, 0, r.frontier.size, r.store.size, 0⟩

theorem Valid.start_ok (hg : g.Valid) (ht : t.Fits g) (options : Options) (log : Log) :
    ∃ r, Recognizer.start t options log = .ok r ∧ g.Fresh r := by
  obtain ⟨e, f, -, -, htr, hrun⟩ := hg.start_eq ht options log
  refine ⟨_, hrun, ⟨ht, rfl, fun _ => htr, fun _ hne => absurd rfl hne, fun k hk => ?_⟩, rfl, rfl⟩
  cases hk

theorem Valid.not_owns_endIndex (hg : g.Valid) {k : Option Nat} : ¬ g.Owns k g.endIndex := by
  intro h
  obtain ⟨e, x, he, hx, hs, hi⟩ := hg.position_of_owns h
  obtain ⟨r, hr⟩ := hg.endMark
  have hxe : x = .endMark r := by
    rw [Stores, hi, hr] at hs
    exact (Option.some.inj hs).symm
  have := Expr.terminal_or_call_of_mem_positions hx
  simp [hxe, Expr.isTerminal, Expr.isCall, Expr.callee?] at this

theorem Valid.stands_endIndex_iff (hg : g.Valid) :
    (∃ x, g.Stands u x g.endIndex) ↔ u ≠ [] ∧ g.Sentence u := by
  constructor
  · rintro ⟨x, ⟨hat, -⟩ | ⟨-, -, hne, hs⟩⟩
    · exact absurd hat.owns hg.not_owns_endIndex
    · exact ⟨hne, hs⟩
  · exact fun ⟨hne, hs⟩ => ⟨⟨none, []⟩, .inr ⟨rfl, rfl, hne, hs⟩⟩

namespace Tracks

variable (h : g.Tracks u f s)
include h

theorem mem_iff (hg : g.Valid) {p : Nat} : p ∈ f ↔ ∃ x, g.Stands u x p := by
  rw [mem_iff_holds h.full]
  constructor
  · rintro ⟨i, hi⟩
    obtain ⟨x, -, hx⟩ := (h.holds p i).1 hi
    exact ⟨x, hx⟩
  · rintro ⟨x, hx⟩
    have hmem : x ∈ g.activations u := by
      rcases hx with hx | ⟨rfl, -⟩
      · exact hg.at_mem hx.1
      · exact hg.mem_activations_iff.2 ⟨.root, List.nil_prefix⟩
    obtain ⟨i, hi⟩ := List.getElem?_of_mem hmem
    exact ⟨i, (h.holds p i).2 ⟨x, hi, hx⟩⟩

theorem isEmpty_iff (hg : g.Valid) : f.isEmpty = true ↔ ¬ g.Standing u := by
  constructor
  · rintro he ⟨x, p, hx⟩
    rw [Std.ExtTreeMap.isEmpty_iff.1 he] at h
    exact Std.ExtTreeMap.not_mem_empty ((h.mem_iff hg).2 ⟨x, hx⟩)
  · intro hno
    refine Std.ExtTreeMap.isEmpty_iff.2 (Std.ExtTreeMap.ext_getElem? fun p => ?_)
    rw [Std.ExtTreeMap.getElem?_empty]
    refine Std.ExtTreeMap.getElem?_eq_none fun hp => ?_
    obtain ⟨x, hx⟩ := (h.mem_iff hg).1 hp
    exact hno ⟨x, p, hx⟩

end Tracks

end Grammar

namespace Recognizer

variable {r : Recognizer}

def moved (r : Recognizer) (a : Advance) : Recognizer :=
  { r with
    frontier := a.frontier
    store := a.store
    stats :=
      { r.stats with
        steps := r.stats.steps + 1
        matchedEntries := r.stats.matchedEntries + a.matched
        largestFrontier := Nat.max r.stats.largestFrontier a.frontier.size
        contexts := a.store.size } }

theorem consume_of_rejected {k : Nat} (h : r.rejectedAt = some k) (tok : Token) :
    ∃ log, r.consume tok = .ok (false, { r with log := log }) := by
  rw [consume, h]
  exact ⟨_, rfl⟩

theorem consume_of_advance (h : r.rejectedAt = none) {tok : Token} {a : Advance}
    (ha : Frontier.advance r.tables r.store r.frontier.toList tok = .ok a) :
    ∃ log, r.consume tok = .ok (
      if a.frontier.isEmpty then (false, { r.moved a with rejectedAt := some r.offset, log := log })
      else (true, { r.moved a with offset := r.offset + 1, log := log })) := by
  have hrun : r.consume tok = .ok ({ r with store := .new }.record tok a) := by
    rw [consume, h]
    exact ok_bind ha
  rw [hrun, record]
  split
  · exact ⟨_, rfl⟩
  · exact ⟨_, rfl⟩

theorem consume_eq {r' : Recognizer} {t : Token} {a : Advance} {b : Bool} (hr : r.rejectedAt = none)
    (ha : Frontier.advance r.tables r.store r.frontier.toList t = .ok a)
    (hc : r.consume t = .ok (b, r')) :
    r'.tables = r.tables ∧ r'.frontier = a.frontier ∧ r'.store = a.store := by
  obtain ⟨log, hc'⟩ := consume_of_advance hr ha
  rw [hc] at hc'
  split at hc' <;> cases hc' <;> exact ⟨rfl, rfl, rfl⟩

end Recognizer

namespace Grammar

namespace Reading

variable {g : Grammar} {u : List Token} {r : Recognizer}

theorem relog (h : g.Reading u r) (log : Log) : g.Reading u { r with log := log } :=
  ⟨h.fits, h.offset, h.tracks, h.standing, h.rejected⟩

/-- Whether a token can be consumed is whether control stands somewhere after it. -/
theorem consume_ok (hg : g.Valid) (h : g.Reading u r) (tok : Token) :
    ∃ b r', r.consume tok = .ok (b, r') ∧
      (b = true → r.rejectedAt = none ∧ g.Reading (u ++ [tok]) r' ∧ r'.rejectedAt = none) ∧
      (b = false → g.Reading u r' ∧ r'.rejectedAt = some u.length ∧
        (r.rejectedAt = none → ¬ g.Standing (u ++ [tok]))) := by
  cases hrej : r.rejectedAt with
  | some k =>
    obtain ⟨log, hc⟩ := Recognizer.consume_of_rejected hrej tok
    obtain ⟨rfl, -⟩ := h.rejected k hrej
    exact ⟨false, _, hc, by simp, fun _ => ⟨h.relog log, hrej, by simp⟩⟩
  | none =>
    obtain ⟨matched, a, -, ha, -, htr⟩ := hg.advance_ok h.fits (h.tracks hrej) tok
    obtain ⟨log, hc⟩ := Recognizer.consume_of_advance hrej ha
    cases he : a.frontier.isEmpty with
    | true =>
      have hno := (htr.isEmpty_iff hg).1 he
      rw [if_pos he] at hc
      refine ⟨false, _, hc, by simp, fun _ => ⟨⟨h.fits, h.offset, ?_, ?_, ?_⟩, ?_, fun _ => hno⟩⟩
      · exact fun hn => by cases hn
      · exact fun hn => by cases hn
      · intro k hk
        exact ⟨(Option.some.inj hk).symm.trans h.offset, h.standing hrej, tok, hno⟩
      · exact congrArg some h.offset
    | false =>
      have hsome : g.Standing (u ++ [tok]) := by
        refine Classical.byContradiction fun hno => ?_
        have := (htr.isEmpty_iff hg).2 hno
        rw [he] at this
        cases this
      rw [if_neg (by simp [he])] at hc
      refine ⟨true, _, hc, fun _ => ⟨rfl, ⟨h.fits, ?_, fun _ => htr, fun _ _ => hsome, ?_⟩, hrej⟩,
        by simp⟩
      · simp [h.offset]
      · intro k hk
        have hnone : r.rejectedAt = some k := hk
        rw [hrej] at hnone
        cases hnone

theorem isAccepting_iff (hg : g.Valid) (h : g.Reading u r) (hrej : r.rejectedAt = none) :
    r.isAccepting = true ↔ g.Sentence u := by
  rw [Recognizer.isAccepting, Recognizer.isRejected, hrej, h.fits.grammar]
  simp only [Option.isSome_none, Bool.false_eq_true, if_false, h.offset, List.length_eq_zero_iff]
  split
  · rename_i hu
    rw [h.fits.rootNullable, hu]
  · rename_i hu
    rw [Std.ExtTreeMap.contains_iff_mem, (h.tracks hrej).mem_iff hg, hg.stands_endIndex_iff]
    exact and_iff_right hu

end Reading

end Grammar

namespace Recognizer

/-- What a recognizer can come to, with the tokens that it has consumed: it may be given any tokens,
be copied, and have its log changed. -/
inductive Run (r₀ : Recognizer) : List Token → Recognizer → Prop
  | fresh : Run r₀ [] r₀
  | consumed {u : List Token} {r r' : Recognizer} {t : Token} (h : Run r₀ u r)
    (hc : r.consume t = .ok (true, r')) : Run r₀ (u ++ [t]) r'
  | refused {u : List Token} {r r' : Recognizer} {t : Token} (h : Run r₀ u r)
    (hc : r.consume t = .ok (false, r')) : Run r₀ u r'
  | forked {u : List Token} {r : Recognizer} (h : Run r₀ u r) : Run r₀ u r.fork
  | logged {u : List Token} {r : Recognizer} (h : Run r₀ u r) (log : Log) :
    Run r₀ u { r with log := log }

variable {g : Grammar} {r r₀ : Recognizer} {u : List Token}

theorem Run.reading (hg : g.Valid) (h₀ : g.Reading [] r₀) (h : Run r₀ u r) : g.Reading u r := by
  induction h with
  | fresh => exact h₀
  | consumed _ hc ih =>
    obtain ⟨b, r', hc', ht, -⟩ := ih.consume_ok hg _
    obtain ⟨rfl, rfl⟩ := Prod.mk.inj (Except.ok.inj (hc.symm.trans hc'))
    exact (ht rfl).2.1
  | refused _ hc ih =>
    obtain ⟨b, r', hc', -, hf⟩ := ih.consume_ok hg _
    obtain ⟨rfl, rfl⟩ := Prod.mk.inj (Except.ok.inj (hc.symm.trans hc'))
    exact (hf rfl).1
  | forked _ ih => exact ih.relog _
  | logged _ log ih => exact ih.relog log

end Recognizer

end TokenGrammar
