import TokenGrammar.Samples
import TokenGrammar.Proofs.LanguageEquations
import TokenGrammar.Proofs.Recognition

/-!
# Verdicts from a language

The verdict of a recognizer for a productive grammar is determined by the language of the grammar:
an input that is no sentence is rejected at the end of its longest part with which a sentence begins.
So grammars with the same language cannot be told apart by their verdicts.
-/

namespace TokenGrammar

/-- Accepts the words of the language and rejects every other string at the end of the longest
beginning that it has in common with a word. -/
noncomputable def verdictFor (L : Language Token) (ts : List Token) : Verdict := by
  classical exact
    if ts ∈ L then .accept
    else .reject (Nat.findGreatest (fun n => ∃ w ∈ L, ts.take n <+: w) ts.length)

section VerdictFor

variable {L : Language Token} {ts : List Token} {n : Nat}

theorem verdictFor_eq_accept (h : ts ∈ L) : verdictFor L ts = .accept := if_pos h

theorem verdictFor_eq_accept_iff : verdictFor L ts = .accept ↔ ts ∈ L := by
  refine ⟨fun h => ?_, verdictFor_eq_accept⟩
  by_contra hts
  rw [verdictFor, if_neg hts] at h
  cases h

theorem verdictFor_eq_reject (h : ts ∉ L)
    (hn : IsGreatest {m | m ≤ ts.length ∧ ∃ w ∈ L, ts.take m <+: w} n) :
    verdictFor L ts = .reject n := by
  classical
  refine (if_neg h).trans (congrArg Verdict.reject ?_)
  rw [Nat.findGreatest_eq_iff]
  exact ⟨hn.1.1, fun _ => hn.1.2, fun m hm hle hw => absurd (hn.2 ⟨hle, hw⟩) (Nat.not_le.2 hm)⟩

end VerdictFor

namespace Grammar

variable {g : Grammar} {ts : List Token} {v : Verdict}

theorem Decides.eq_verdictFor (h : g.Decides ts v) (hg : g.Valid) (hp : g.Productive) :
    v = verdictFor {w | g.Sentence w} ts := by
  cases v with
  | accept => exact (verdictFor_eq_accept (h.accept_iff.1 rfl)).symm
  | reject k =>
    have hno : ¬ g.Sentence ts := fun hs => by simpa using h.accept_iff.2 hs
    refine (verdictFor_eq_reject hno ⟨⟨h.reject_le k rfl, h.completable hg hp k rfl⟩, ?_⟩).symm
    rintro m ⟨hm, w, hw, hpre⟩
    by_contra hlt
    have hlt : k < m := Nat.lt_of_not_le hlt
    have hk : ts.take (k + 1) <+: ts.take m := List.take_prefix_take_left hlt
    exact h.no_sentence hg k (hlt.trans_le hm) rfl w hw (hk.trans hpre)

/-- Whatever the options are, recognizers that have read nothing give these verdicts. -/
def Renders (g : Grammar) (V : List Token → Verdict) : Prop :=
  ∀ options log elapsed, ∃ e log', Engine.build g options log elapsed = .ok (e, log') ∧
    e.HandsOut fun r => ∀ tokens, ∃ r', r.parse tokens = .ok (V tokens, r')

theorem Valid.renders (hg : g.Valid) (hp : g.Productive) :
    g.Renders (verdictFor {w | g.Sentence w}) := by
  intro options log elapsed
  obtain ⟨n, hn⟩ := hg.build_ok
  obtain ⟨e, log', hb, -, hout⟩ := hn options log elapsed
  refine ⟨e, log', hb, fun e' he' level => ?_⟩
  obtain ⟨r, hr, hfresh⟩ := hout e' he' level
  refine ⟨r, hr, fun tokens => ?_⟩
  obtain ⟨v, r', hparse, hd⟩ := hfresh.parse_ok hg hfresh.rejectedAt tokens
  obtain rfl := hd.eq_verdictFor hg hp
  exact ⟨r', hparse⟩

/-- The verdicts of a grammar whose root calls a rule are those of the language of the rule. -/
theorem Shaped.renders_words {bodies : List Shape} {k : Nat} (h : g.Shaped bodies (.call k))
    (hp : ∀ s ∈ bodies, s.Satisfiable) (hne : ∀ k < bodies.length, ∃ w, w ∈ g.words k) :
    g.Renders (verdictFor (g.words k)) := by
  have hwords : {w | g.Sentence w} = g.words k := Set.ext fun w => h.sentence_iff
  rw [← hwords]
  exact h.valid.renders (h.productive hp trivial hne)

/-- The verdicts of a grammar whose root calls a rule, when its least solution is known: languages
that are closed under the bodies of the rules, and of which every word is derived. -/
theorem Shaped.renders {bodies : List Shape} {k : Nat} (h : g.Shaped bodies (.call k))
    (hp : ∀ s ∈ bodies, s.plain = true) {L : Nat → Language Token}
    (hclosed : ∀ k s, bodies[k]? = some s → s.words L ≤ L k)
    (hderived : ∀ k < bodies.length, L k ≤ g.words k)
    (hne : ∀ k < bodies.length, ∃ w, w ∈ L k) (hk : k < bodies.length) :
    g.Renders (verdictFor (L k)) := by
  have hwords : g.words k = L k := (h.words_le hclosed).antisymm (hderived k hk)
  rw [← hwords]
  refine h.renders_words (fun s hs => Shape.satisfiable_of_plain (hp s hs)) fun k hk => ?_
  obtain ⟨w, hw⟩ := hne k hk
  exact ⟨w, hderived k hk hw⟩

end Grammar

/-- The sample describes a grammar with these verdicts. -/
def Samples.Renders (sample : BuildM NodeRef) (V : List Token → Verdict) : Prop :=
  ∃ g, Samples.grammar sample = .ok g ∧ g.Renders V

end TokenGrammar
