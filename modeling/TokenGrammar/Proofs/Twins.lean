import TokenGrammar.Proofs.Pruning
import TokenGrammar.Proofs.Recognition

/-!
# Recognizers that read the same tokens

Two recognizers of one grammar that are given the same tokens answer alike at each of them, whatever
their tables were built with and wherever they log. What a recognizer has read determines its
frontier as a value and the number of its contexts; only in the contexts can dead continuations be
missing.
-/

namespace TokenGrammar

namespace Recognizer

/-- Gives each of the tokens to the recognizer, also once it is rejected, and collects the answers. -/
def consumeAll (r : Recognizer) : List Token → Except Failure (List Bool × Recognizer)
  | [] => .ok ([], r)
  | t :: ts => do
    let (consumed, r) ← r.consume t
    let (answers, r) ← r.consumeAll ts
    return (consumed :: answers, r)

/-- The recognizers cannot be told apart by what they answer, nor by the size of what they hold. -/
structure Agree (r r' : Recognizer) : Prop where
  offset : r.offset = r'.offset
  rejectedAt : r.rejectedAt = r'.rejectedAt
  isAccepting : r.isAccepting = r'.isAccepting
  finish : r.finish = r'.finish
  positions : r.frontier.keys = r'.frontier.keys
  numEntries : r.numEntries = r'.numEntries
  steps : r.stats.steps = r'.stats.steps
  matchedEntries : r.stats.matchedEntries = r'.stats.matchedEntries
  largestFrontier : r.stats.largestFrontier = r'.stats.largestFrontier
  contexts : r.stats.contexts = r'.stats.contexts

end Recognizer

/-- Steps that come to as much. -/
structure Advance.SameSize (a a' : Advance) : Prop where
  matched : a.matched = a'.matched
  frontier : a.frontier.size = a'.frontier.size
  store : a.store.size = a'.store.size

namespace Grammar

variable {g g' : Grammar} {u : List Token} {f f' : Frontier} {s s' : ContextStore}
  {r r' : Recognizer} {t t' : Tables}

/-- What has been read determines the frontier and the number of contexts. -/
theorem Tracks.unique (h : g.Tracks u f s) (h' : g.Tracks u f' s') :
    f = f' ∧ s.size = s'.size := by
  refine ⟨eq_of_holds h.full h'.full fun p i => ?_, h.store.size.trans h'.store.size.symm⟩
  rw [h.holds, h'.holds]

theorem matching_congr (h : t.grammar = t'.grammar) (tok : Token)
    (entries : List (Nat × ContextSet)) :
    Frontier.matching t tok entries = Frontier.matching t' tok entries := by
  have haccepts : t.accepts = t'.accepts := by
    funext p tok
    rw [Tables.accepts, Tables.accepts, h]
  induction entries with
  | nil => rfl
  | cons e entries ih => rw [Frontier.matching, Frontier.matching, ih, haccepts]

/-- Two recognizers, each of its own grammar, that have consumed the same tokens and have put the same
on record. -/
structure Abreast (g g' : Grammar) (u : List Token) (r r' : Recognizer) : Prop where
  left : g.Reading u r
  right : g'.Reading u r'
  rejectedAt : r.rejectedAt = r'.rejectedAt
  stats : r.stats = r'.stats

namespace Abreast

theorem offset (h : Abreast g g' u r r') : r.offset = r'.offset :=
  h.left.offset.trans h.right.offset.symm

/-- What a step answers and puts on record are the sizes of what it comes to. -/
theorem consume_ok (hg : g.Valid) (hg' : g'.Valid) (h : Abreast g g' u r r') {tok : Token}
    (hstep : r.rejectedAt = none → ∃ a a',
      Frontier.advance r.tables r.store r.frontier.toList tok = .ok a ∧
        Frontier.advance r'.tables r'.store r'.frontier.toList tok = .ok a' ∧ a.SameSize a') :
    ∃ b r₁ r₁' u₁, r.consume tok = .ok (b, r₁) ∧ r'.consume tok = .ok (b, r₁') ∧
      Abreast g g' u₁ r₁ r₁' := by
  cases hrej : r.rejectedAt with
  | some k =>
    obtain ⟨log, hc⟩ := Recognizer.consume_of_rejected hrej tok
    obtain ⟨log', hc'⟩ := Recognizer.consume_of_rejected (h.rejectedAt.symm.trans hrej) tok
    exact ⟨false, _, _, u, hc, hc', h.left.relog log, h.right.relog log', h.rejectedAt, h.stats⟩
  | none =>
    have hrej' : r'.rejectedAt = none := h.rejectedAt.symm.trans hrej
    obtain ⟨a, a', ha, ha', hsize⟩ := hstep hrej
    have hstats : (r.moved a).stats = (r'.moved a').stats := by
      simp only [Recognizer.moved, h.stats, hsize.matched, hsize.frontier, hsize.store]
    have hempty : a.frontier.isEmpty = a'.frontier.isEmpty := by
      rw [Std.ExtTreeMap.isEmpty_eq_size_beq_zero, Std.ExtTreeMap.isEmpty_eq_size_beq_zero,
        hsize.frontier]
    obtain ⟨log, hc⟩ := Recognizer.consume_of_advance hrej ha
    obtain ⟨log', hc'⟩ := Recognizer.consume_of_advance hrej' ha'
    obtain ⟨b, r₁, hr, ht, hf⟩ := h.left.consume_ok hg tok
    obtain ⟨b', r₁', hr', ht', hf'⟩ := h.right.consume_ok hg' tok
    have hb := Except.ok.inj (hc.symm.trans hr)
    have hb' := Except.ok.inj (hc'.symm.trans hr')
    cases he : a.frontier.isEmpty with
    | true =>
      rw [if_pos he] at hb
      rw [if_pos (hempty ▸ he)] at hb'
      obtain ⟨rfl, rfl⟩ := Prod.mk.inj hb
      obtain ⟨rfl, rfl⟩ := Prod.mk.inj hb'
      exact ⟨false, _, _, u, hr, hr', (hf rfl).1, (hf' rfl).1, congrArg some h.offset, hstats⟩
    | false =>
      rw [if_neg (by simp [he])] at hb
      rw [if_neg (by simp [← hempty, he])] at hb'
      obtain ⟨rfl, rfl⟩ := Prod.mk.inj hb
      obtain ⟨rfl, rfl⟩ := Prod.mk.inj hb'
      exact ⟨true, _, _, u ++ [tok], hr, hr', (ht rfl).2.1, (ht' rfl).2.1, h.rejectedAt, hstats⟩

theorem finish_eq (hg : g.Valid) (hg' : g'.Valid) (h : Abreast g g' u r r')
    (hs : g.Sentence u ↔ g'.Sentence u) : r.finish = r'.finish := by
  rw [Recognizer.finish, Recognizer.finish, ← h.rejectedAt, ← h.offset]
  cases hrej : r.rejectedAt with
  | some k => rfl
  | none =>
    have hacc : r.isAccepting = r'.isAccepting := by
      rw [Bool.eq_iff_iff, h.left.isAccepting_iff hg hrej, hs,
        h.right.isAccepting_iff hg' (h.rejectedAt.symm.trans hrej)]
    simp only [hacc]

end Abreast

/-- Two recognizers of one grammar that are abreast and have the same frontier, alike but for what
they log and for what their contexts hold. -/
structure Twins (g : Grammar) (u : List Token) (r r' : Recognizer) : Prop extends
    Abreast g g u r r' where
  frontier : r.frontier = r'.frontier

namespace Twins

theorem agree (h : g.Twins u r r') : r.Agree r' := by
  have hnull : r.tables.rootNullable = r'.tables.rootNullable := by
    rw [Bool.eq_iff_iff, h.left.fits.rootNullable, h.right.fits.rootNullable]
  have hacc : r.isAccepting = r'.isAccepting := by
    rw [Recognizer.isAccepting, Recognizer.isAccepting, Recognizer.isRejected,
      Recognizer.isRejected, h.rejectedAt, h.offset, hnull, h.frontier, h.left.fits.grammar,
      h.right.fits.grammar]
  refine ⟨h.offset, h.rejectedAt, hacc, ?_, ?_, ?_, congrArg _ h.stats, congrArg _ h.stats,
    congrArg _ h.stats, congrArg _ h.stats⟩
  · rw [Recognizer.finish, Recognizer.finish, h.rejectedAt, hacc, h.offset]
  · rw [h.frontier]
  · rw [Recognizer.numEntries, Recognizer.numEntries, h.frontier]

theorem advance_ok (hg : g.Valid) (h : g.Twins u r r') (hrej : r.rejectedAt = none) (tok : Token) :
    ∃ a a', Frontier.advance r.tables r.store r.frontier.toList tok = .ok a ∧
      Frontier.advance r'.tables r'.store r'.frontier.toList tok = .ok a' ∧ a.SameSize a' ∧
        a.frontier = a'.frontier := by
  have hrej' : r'.rejectedAt = none := h.rejectedAt.symm.trans hrej
  obtain ⟨matched, a, hm, ha, hcount, htr⟩ := hg.advance_ok h.left.fits (h.left.tracks hrej) tok
  obtain ⟨matched', a', hm', ha', hcount', htr'⟩ :=
    hg.advance_ok h.right.fits (h.right.tracks hrej') tok
  obtain ⟨hfrontier, hsize⟩ := htr.unique htr'
  have hmatched : matched = matched' := by
    rw [matching_congr (h.left.fits.grammar.trans h.right.fits.grammar.symm), h.frontier] at hm
    exact Except.ok.inj (hm.symm.trans hm')
  exact ⟨a, a', ha, ha', ⟨by rw [hcount, hcount', hmatched], congrArg _ hfrontier, hsize⟩, hfrontier⟩

theorem consume_ok (hg : g.Valid) (h : g.Twins u r r') (tok : Token) : ∃ b r₁ r₁' u₁,
    r.consume tok = .ok (b, r₁) ∧ r'.consume tok = .ok (b, r₁') ∧ g.Twins u₁ r₁ r₁' := by
  obtain ⟨b, r₁, r₁', u₁, hc, hc', h₁⟩ := h.toAbreast.consume_ok hg hg fun hrej =>
    let ⟨a, a', ha, ha', hsize, _⟩ := h.advance_ok hg hrej tok
    ⟨a, a', ha, ha', hsize⟩
  refine ⟨b, r₁, r₁', u₁, hc, hc', h₁, ?_⟩
  cases hrej : r.rejectedAt with
  | some k =>
    obtain ⟨log, hlog⟩ := Recognizer.consume_of_rejected hrej tok
    obtain ⟨log', hlog'⟩ := Recognizer.consume_of_rejected (h.rejectedAt.symm.trans hrej) tok
    obtain ⟨-, rfl⟩ := Prod.mk.inj (Except.ok.inj (hc.symm.trans hlog))
    obtain ⟨-, rfl⟩ := Prod.mk.inj (Except.ok.inj (hc'.symm.trans hlog'))
    exact h.frontier
  | none =>
    obtain ⟨a, a', ha, ha', -, hfrontier⟩ := h.advance_ok hg hrej tok
    rw [(Recognizer.consume_eq hrej ha hc).2.1, hfrontier,
      (Recognizer.consume_eq (h.rejectedAt.symm.trans hrej) ha' hc').2.1]

theorem consumeAll_ok (hg : g.Valid) (h : g.Twins u r r') (ts : List Token) : ∃ bs r₁ r₁' u₁,
    r.consumeAll ts = .ok (bs, r₁) ∧ r'.consumeAll ts = .ok (bs, r₁') ∧ g.Twins u₁ r₁ r₁' := by
  induction ts generalizing u r r' with
  | nil => exact ⟨[], r, r', u, rfl, rfl, h⟩
  | cons t ts ih =>
    obtain ⟨b, r₁, r₁', u₁, hc, hc', h₁⟩ := h.consume_ok hg t
    obtain ⟨bs, r₂, r₂', u₂, hcs, hcs', h₂⟩ := ih h₁
    refine ⟨b :: bs, r₂, r₂', u₂, ?_, ?_, h₂⟩
    · rw [Recognizer.consumeAll, ok_bind hc]
      exact ok_bind hcs
    · rw [Recognizer.consumeAll, ok_bind hc']
      exact ok_bind hcs'

theorem of_fresh (h : g.Fresh r) (h' : g.Fresh r') : g.Twins [] r r' := by
  obtain ⟨hfrontier, hsize⟩ := (h.tracks h.rejectedAt).unique (h'.tracks h'.rejectedAt)
  refine ⟨⟨h.toReading, h'.toReading, h.rejectedAt.trans h'.rejectedAt.symm, ?_⟩, hfrontier⟩
  rw [h.stats, h'.stats, hfrontier, hsize]

end Twins

/-- Pruning only leaves out call entries after whose continuation nothing comes, and whatever two
recognizers, with and without pruning, are given, they agree at every token. -/
theorem pruning_invisible (hg : g.Built) (hv : g.validate = .ok ()) {options options' : Options}
    (hp : options.pruneDeadContinuations = true) (hp' : options'.pruneDeadContinuations = false)
    (log log' : Log) (elapsed elapsed' : Nat) :
    ∃ e l e' l', Engine.build g options log elapsed = .ok (e, l) ∧
      Engine.build g options' log' elapsed' = .ok (e', l') ∧
      e.tables = e'.tables.pruned ∧
      e.tables.stats.callEntries + e.tables.stats.prunedCallEntries =
        e'.tables.stats.callEntries ∧
      e.HandsOut fun r => e'.HandsOut fun r' => ∀ tokens, ∃ answers s s',
        r.consumeAll tokens = .ok (answers, s) ∧ r'.consumeAll tokens = .ok (answers, s') ∧
          s.Agree s' := by
  have hval := hg.valid hv
  obtain ⟨n, hn⟩ := hval.build_ok
  obtain ⟨e, l, hb, ht, hout⟩ := hn options log elapsed
  obtain ⟨e', l', hb', ht', hout'⟩ := hn options' log' elapsed'
  rw [hp, hval.tables_pruned] at ht
  rw [hp'] at ht'
  refine ⟨e, l, e', l', hb, hb', by rw [ht, ht'], ?_, fun e₁ he level => ?_⟩
  · rw [ht, ht']
    exact Valid.callEntries_pruned n
  · obtain ⟨r, hr, hfresh⟩ := hout e₁ he level
    refine ⟨r, hr, fun e₁' he' level' => ?_⟩
    obtain ⟨r', hr', hfresh'⟩ := hout' e₁' he' level'
    refine ⟨r', hr', fun tokens => ?_⟩
    obtain ⟨answers, s, s', u, hs, hs', htwins⟩ :=
      (Twins.of_fresh hfresh hfresh').consumeAll_ok hval tokens
    exact ⟨answers, s, s', hs, hs', htwins.agree⟩

theorem pruning_invisible_sum :
    sumGrammar.Built ∧ sumGrammar.validate = .ok () ∧
      ∃ e l e' l', Engine.build sumGrammar {} .quiet 0 = .ok (e, l) ∧
        Engine.build sumGrammar { pruneDeadContinuations := false } .quiet 0 = .ok (e', l') ∧
        e.tables = e'.tables.pruned ∧
        e.tables.stats.callEntries + e.tables.stats.prunedCallEntries =
          e'.tables.stats.callEntries ∧
        e.HandsOut fun r => e'.HandsOut fun r' => ∀ tokens, ∃ answers s s',
          r.consumeAll tokens = .ok (answers, s) ∧ r'.consumeAll tokens = .ok (answers, s') ∧
            s.Agree s' :=
  ⟨built_sum, validate_sum,
    pruning_invisible built_sum validate_sum rfl rfl .quiet .quiet 0 0⟩

end Grammar

end TokenGrammar
