import TokenGrammar.Proofs.Recognition

/-!
# Refusals and safety

A grammar is refused up front when one of its nodes is a conjunction over anything but token tests,
whether the root reaches the node or not. Any other grammar can be analyzed, compiled and run on any
tokens without a defect.
-/

namespace TokenGrammar

namespace Expr

/-- The tree is made of token tests, alternatives and conjunctions only. -/
inductive Testing : Expr → Prop
  | token (r : NodeRef) (test : TokenTest) : Testing (.token r test)
  | alt {a b : Expr} (r : NodeRef) (ha : Testing a) (hb : Testing b) : Testing (.alt r a b)
  | conj {a b : Expr} (r : NodeRef) (ha : Testing a) (hb : Testing b) : Testing (.conj r a b)

/-- A conjunction with an operand that is not made of token tests. -/
inductive Unsupported : Expr → Expr → Prop
  | left {a : Expr} (r : NodeRef) (b : Expr) (h : ¬ Testing a) : Unsupported (.conj r a b) a
  | right {a b : Expr} (r : NodeRef) (ha : Testing a) (h : ¬ Testing b) :
    Unsupported (.conj r a b) b

theorem testing_iff {e : Expr} : Testing e ↔ e.isTerminal = true := by
  constructor
  · intro h
    induction h with
    | token => rfl
    | alt r _ _ iha ihb | conj r _ _ iha ihb => exact Bool.and_eq_true_iff.2 ⟨iha, ihb⟩
  · intro h
    induction e with
    | token r t => exact .token r t
    | alt r a b iha ihb =>
      obtain ⟨ha, hb⟩ := Bool.and_eq_true_iff.1 h
      exact .alt r (iha ha) (ihb hb)
    | conj r a b iha ihb =>
      obtain ⟨ha, hb⟩ := Bool.and_eq_true_iff.1 h
      exact .conj r (iha ha) (ihb hb)
    | eps | seq | plus | call | endMark => cases h

theorem isTerminal_eq_false_iff {e : Expr} : e.isTerminal = false ↔ ¬ Testing e := by
  rw [testing_iff, Bool.not_eq_true]

theorem testing_of_supported {r : NodeRef} {a b : Expr} (h : ∀ c, ¬ (conj r a b).Unsupported c) :
    Testing (.conj r a b) := by
  by_cases ha : Testing a
  · by_cases hb : Testing b
    · exact .conj r ha hb
    · exact absurd (.right r ha hb) (h b)
  · exact absurd (.left r b ha) (h a)

theorem Unsupported.not_testing {e c : Expr} (h : e.Unsupported c) : ¬ Testing e := by
  intro ht
  cases h with
  | left r b h =>
    cases ht with
    | conj _ ha _ => exact h ha
  | right r _ h =>
    cases ht with
    | conj _ _ hb => exact h hb

end Expr

namespace Grammar

variable {g : Grammar} {i : Nat} {e c : Expr}

/-- The first node of the grammar that is not supported, and the operand that it is refused for. -/
structure FirstUnsupported (g : Grammar) (i : Nat) (e c : Expr) : Prop where
  node : g.nodes[i]? = some e
  unsupported : e.Unsupported c
  first : ∀ j e' c', j < i → g.nodes[j]? = some e' → ¬ e'.Unsupported c'

theorem exists_first_unsupported (hi : g.nodes[i]? = some e) (h : e.Unsupported c) :
    ∃ j e' c', g.FirstUnsupported j e' c' := by
  induction i using Nat.strongRecOn generalizing e c with
  | ind i ih =>
    by_cases hex : ∃ j e' c', j < i ∧ g.nodes[j]? = some e' ∧ e'.Unsupported c'
    · obtain ⟨j, e', c', hlt, hj, h'⟩ := hex
      exact ih j hlt hj h'
    · exact ⟨i, e, c, hi, h, fun j e' c' hlt hj h' => hex ⟨j, e', c', hlt, hj, h'⟩⟩

namespace WellFormed

variable (hg : g.WellFormed)
include hg

theorem requireSupported_error (hs : g.Stores e) (h : e.Unsupported c) : g.requireSupported e =
    .error (.refusal (.unsupportedConjunction (g.print e) (g.print c))) := by
  have hno := Expr.isTerminal_eq_false_iff.2 h.not_testing
  cases h with
  | left r b ha =>
    rw [requireSupported, ok_bind (hg.isTerminal_ok hs), hno, if_neg (by simp),
      ok_bind (hg.isTerminal_ok (hg.stores_operand hs (c := c) (by simp [Expr.operands]))),
      Expr.isTerminal_eq_false_iff.2 ha]
    rfl
  | @right a _ r ha =>
    rw [requireSupported, ok_bind (hg.isTerminal_ok hs), hno, if_neg (by simp),
      ok_bind (hg.isTerminal_ok (hg.stores_operand hs (c := a) (by simp [Expr.operands]))),
      Expr.testing_iff.1 ha]
    rfl

theorem requireSupported_ok (hs : g.Stores e) (h : ∀ c, ¬ e.Unsupported c) :
    g.requireSupported e = .ok () := by
  cases e with
  | conj r a b =>
    rw [requireSupported, ok_bind (hg.isTerminal_ok hs),
      Expr.testing_iff.1 (Expr.testing_of_supported h)]
    rfl
  | token | eps | alt | seq | plus | call | endMark => rfl

/-- Validation names the first node that is not supported. -/
theorem validate_of_unsupported (h : g.FirstUnsupported i e c) :
    g.validate = .error (.refusal (.unsupportedConjunction (g.print e) (g.print c))) := by
  refine forM_error (i := i) (x := e) (by simpa using h.node)
    (hg.requireSupported_error (hg.stores h.node) h.unsupported) fun j e' hj he' => ?_
  rw [Array.getElem?_toList] at he'
  exact hg.requireSupported_ok (hg.stores he') fun c' => h.first j e' c' hj he'

/-- Nothing unsupported is what validation asks for. -/
theorem validate_ok_of_supported
    (h : ∀ (i : Nat) (e c : Expr), g.nodes[i]? = some e → ¬ e.Unsupported c) :
    g.validate = .ok () := by
  refine forM_ok_iff.2 fun e he => ?_
  obtain ⟨i, hi⟩ := Array.getElem?_of_mem (Array.mem_toList_iff.1 he)
  exact hg.requireSupported_ok (hg.stores hi) fun c => h i e c hi

end WellFormed

end Grammar

namespace Analysis

variable {g : Grammar} {hg : g.Valid} {e : Expr} {a : Analysis}

/-- The questions that can be asked about a node. -/
inductive Query
  | nullable | firsts | lasts | joints | follow | reachable | callSet
  deriving DecidableEq, Repr

def Query.ask (e : Expr) : Query → AnalysisM Unit
  | nullable => discard (Analysis.nullable e)
  | firsts => discard (Analysis.firsts e)
  | lasts => discard (Analysis.lasts e)
  | joints => discard (Analysis.joints e)
  | follow => discard (Analysis.follow e)
  | reachable => discard (Analysis.reachable e)
  | callSet => discard (Analysis.callSet e)

/-- What an analysis of a grammar comes to by answering questions about nodes of the grammar. -/
inductive Asked (g : Grammar) : Analysis → Prop
  | fresh {a : Analysis} (h : start g = .ok a) : Asked g a
  | next {a a' : Analysis} {i : Nat} {e : Expr} (h : Asked g a) (q : Query)
    (he : g.nodes[i]? = some e) (hq : q.ask e a = .ok ((), a')) : Asked g a'

/-- Every question is answered, but for the call set of a node that is no call. -/
theorem Steady.ask_ok (ha : Steady hg a) (he : g.Stores e) (q : Query) :
    (∃ a', q.ask e a = .ok ((), a') ∧ Steady hg a') ∨
      q = .callSet ∧ e.isCall = false ∧ q.ask e a = .error (.refusal (.notACall (g.print e))) := by
  have hyes : ∀ {α : Type} {act : AnalysisM α} {x : α}, Answers hg act x →
      ∃ a', discard act a = .ok ((), a') ∧ Steady hg a' := by
    intro α act x h
    obtain ⟨a', hact, ha'⟩ := h a ha
    exact ⟨a', run_discard hact, ha'⟩
  cases q with
  | nullable => exact .inl (hyes (answers_nullable he))
  | firsts => exact .inl (hyes (answers_firsts he))
  | lasts => exact .inl (hyes (answers_lasts he))
  | joints => exact .inl (hyes (answers_joints he))
  | follow => exact .inl (hyes (answers_follow he))
  | reachable => exact .inl (hyes (answers_reachable he))
  | callSet =>
    cases hc : e.isCall with
    | true => exact .inl (hyes (answers_callSet he hc))
    | false =>
      have hask : Query.callSet.ask e a = discard (callSet e) a := rfl
      refine .inr ⟨rfl, rfl, ?_⟩
      rw [hask, ← ha.grammar]
      show (callSet e a >>= fun p => Except.ok ((), p.2)) = _
      rw [callSet_of_not_call hc]
      rfl

theorem Asked.steady (hg : g.Valid) (h : Asked g a) : Steady hg a := by
  induction h with
  | fresh h =>
    obtain ⟨a', h', ha'⟩ := start_ok hg
    obtain rfl := Except.ok.inj (h.symm.trans h')
    exact ha'
  | next _ q he hq ih =>
    rcases ih.ask_ok (hg.stores he) q with ⟨a', hq', ha'⟩ | ⟨-, -, hq'⟩
    · obtain ⟨-, rfl⟩ := Prod.mk.inj (Except.ok.inj (hq.symm.trans hq'))
      exact ha'
    · cases hq.symm.trans hq'

end Analysis

theorem Recognizer.Run.feed {r₀ r r' : Recognizer} {u : List Token} (h : Run r₀ u r)
    {ts : List Token} (hf : r.feed ts = .ok r') : ∃ u', Run r₀ u' r' := by
  induction ts generalizing u r with
  | nil =>
    obtain rfl := Except.ok.inj hf
    exact ⟨u, h⟩
  | cons t ts ih =>
    cases hc : r.consume t with
    | error f =>
      rw [Recognizer.feed, hc] at hf
      cases hf
    | ok p =>
      obtain ⟨b, r₁⟩ := p
      rw [Recognizer.feed, ok_bind hc] at hf
      cases b with
      | true => exact ih (h.consumed hc) hf
      | false =>
        obtain rfl := Except.ok.inj hf
        exact ⟨u, h.refused hc⟩

namespace Grammar

variable {g : Grammar}

/-- The grammar is refused by everything that takes a grammar, for the same reason. -/
structure Refused (g : Grammar) (f : Failure) : Prop where
  start : Analysis.start g = .error f
  build : ∀ options log elapsed, Engine.build g options log elapsed = .error f
  recognize : ∀ tokens, g.recognize tokens = .error f

/-- What a node refers to is there: the parts of its tree are nodes, each at its own place, and the
rule of a call is a rule. A node is marked as a terminal when it is made of token tests. -/
structure Resolves (g : Grammar) : Prop where
  top : ∀ k e, g.top? k = some e → g.node e.ref.index = .ok e
  part : ∀ (i : Nat) (e x : Expr), g.nodes[i]? = some e → x ∈ e.parts →
    g.node x.ref.index = .ok x
  callee : ∀ (i : Nat) (e : Expr) (r : RuleRef), g.nodes[i]? = some e → e.callee? = some r →
    ∃ d, g.rule r.index = .ok d ∧ g.ruleName r = d.name
  flag : ∀ (i : Nat) (e : Expr), g.nodes[i]? = some e →
    ∃ t, g.isTerminal e = .ok t ∧ (t = true ↔ e.Testing)

/-- The recognizer can be given any tokens at any time. Where it stands are nodes of its grammar,
which is what it writes to its log. -/
def Unfailing (g : Grammar) (r : Recognizer) : Prop :=
  ∀ u r', r.Run u r' → (r'.tables.grammar = g ∧ ∀ p ∈ r'.frontier, ∃ e, g.node p = .ok e) ∧
    (∀ t, ∃ b r'', r'.consume t = .ok (b, r'')) ∧
    (∀ ts, ∃ v r'' u', r'.parse ts = .ok (v, r'') ∧ r.Run u' r'') ∧
      ∀ ts, ∃ b r'', r'.recognize ts = .ok (b, r'')

/-- Nothing that takes the grammar fails, and neither does anything that comes of it, but for the
request for the call set of a node that is no call. -/
structure Safe (g : Grammar) : Prop where
  start : ∃ a, Analysis.start g = .ok a
  ask : ∀ a, Analysis.Asked g a → ∀ (i : Nat) (e : Expr) (q : Analysis.Query) (f : Failure),
    g.nodes[i]? = some e → q.ask e a = .error f →
      q = .callSet ∧ e.isCall = false ∧ f = .refusal (.notACall (g.print e))
  build : ∀ options log elapsed, ∃ e log', Engine.build g options log elapsed = .ok (e, log') ∧
    e.HandsOut g.Unfailing
  recognize : ∀ tokens, ∃ b, g.recognize tokens = .ok b

theorem refused_of_validate {f : Failure} (h : g.validate = .error f) : g.Refused f := by
  have hstart : Analysis.start g = .error f := by
    rw [Analysis.start, h]
    rfl
  have hbuild : ∀ options log elapsed, Engine.build g options log elapsed = .error f := by
    intro options log elapsed
    rw [Engine.build, Tables.compile, hstart]
    rfl
  refine ⟨hstart, hbuild, fun tokens => ?_⟩
  rw [Grammar.recognize, Engine.quietly, hbuild]
  rfl

theorem WellFormed.resolves (hg : g.WellFormed) : g.Resolves where
  top _ _ he := inRange_ok (hg.top he).1
  part _ _ _ hi hx := inRange_ok (hg.stores_part (hg.stores hi) hx)
  callee _ _ r hi hr := by
    have hlt := hg.callee hi hr
    have hd : g.rules[r.index]? = some g.rules[r.index] := Array.getElem?_eq_getElem hlt
    refine ⟨_, inRange_ok hd, ?_⟩
    rw [ruleName, hd]
    rfl
  flag _ e hi := ⟨e.isTerminal, hg.isTerminal_ok (hg.stores hi), Expr.testing_iff.symm⟩

theorem Tracks.lt_size {u : List Token} {f : Frontier} {s : ContextStore} (h : g.Tracks u f s)
    (hg : g.Valid) {p : Nat} (hp : p ∈ f) : p < g.nodes.size := by
  obtain ⟨x, ⟨hat, -⟩ | ⟨-, rfl, -⟩⟩ := (h.mem_iff hg).1 hp
  · exact hg.lt_of_owns hat.owns
  · obtain ⟨_, hr⟩ := hg.endMark
    exact (Array.getElem?_eq_some_iff.1 hr).1

theorem Reading.lt_size (hg : g.Valid) {u : List Token} {r r' : Recognizer} {t : Token} {b : Bool}
    (h : g.Reading u r) (hr : ∀ p ∈ r.frontier, p < g.nodes.size)
    (hc : r.consume t = .ok (b, r')) : ∀ p ∈ r'.frontier, p < g.nodes.size := by
  rcases Option.eq_none_or_eq_some r.rejectedAt with hrej | ⟨k, hrej⟩
  · obtain ⟨-, a, -, ha, -, htr⟩ := hg.advance_ok h.fits (h.tracks hrej) t
    obtain ⟨-, hf, -⟩ := Recognizer.consume_eq hrej ha hc
    exact fun p hp => htr.lt_size hg (hf ▸ hp)
  · obtain ⟨log, hc'⟩ := Recognizer.consume_of_rejected hrej t
    obtain ⟨-, rfl⟩ := Prod.mk.inj (Except.ok.inj (hc.symm.trans hc'))
    exact hr

theorem Fresh.lt_size (hg : g.Valid) {u : List Token} {r r' : Recognizer} (h : g.Fresh r)
    (hrun : r.Run u r') : ∀ p ∈ r'.frontier, p < g.nodes.size := by
  induction hrun with
  | fresh => exact fun p hp => (h.tracks h.rejectedAt).lt_size hg hp
  | consumed hrun hc ih | refused hrun hc ih =>
    exact (hrun.reading hg h.toReading).lt_size hg ih hc
  | forked _ ih | logged _ _ ih => exact ih

theorem Fresh.unfailing (hg : g.Valid) {r : Recognizer} (h : g.Fresh r) : g.Unfailing r := by
  intro u r' hrun
  have hread := hrun.reading hg h.toReading
  have hnodes : ∀ p ∈ r'.frontier, ∃ e, g.node p = .ok e := fun p hp =>
    ⟨_, node_ok (h.lt_size hg hrun p hp)⟩
  have hparse : ∀ ts, ∃ v r'' u', r'.parse ts = .ok (v, r'') ∧ r.Run u' r'' := by
    intro ts
    obtain ⟨r'', hf⟩ := hread.feed_total hg ts
    obtain ⟨u', hrun'⟩ := hrun.feed hf
    exact ⟨r''.finish, r'', u', ok_bind hf, hrun'⟩
  refine ⟨⟨hread.fits.grammar, hnodes⟩, fun t => ?_, hparse, fun ts => ?_⟩
  · obtain ⟨b, r'', hc, -⟩ := hread.consume_ok hg t
    exact ⟨b, r'', hc⟩
  · obtain ⟨v, r'', u', hp, -⟩ := hparse ts
    exact ⟨v.isAccept, r'', ok_bind hp⟩

theorem Valid.safe (hg : g.Valid) : g.Safe where
  start := by
    obtain ⟨a, ha, -⟩ := Analysis.start_ok hg
    exact ⟨a, ha⟩
  ask a ha i e q f he hf := by
    rcases (ha.steady hg).ask_ok (hg.stores he) q with ⟨a', hq, -⟩ | ⟨hq, hc, herr⟩
    · cases hf.symm.trans hq
    · exact ⟨hq, hc, Except.error.inj (hf.symm.trans herr)⟩
  build options log elapsed := by
    obtain ⟨n, hn⟩ := hg.build_ok
    obtain ⟨e, log', hb, -, hout⟩ := hn options log elapsed
    refine ⟨e, log', hb, fun e' he' level => ?_⟩
    obtain ⟨r, hr, hfresh⟩ := hout e' he' level
    exact ⟨r, hr, hfresh.unfailing hg⟩
  recognize tokens := by
    obtain ⟨n, hn⟩ := hg.build_ok
    obtain ⟨e, log', hb, -, hout⟩ := hn {} .quiet 0
    obtain ⟨r, hr, hfresh⟩ := hout e rfl e.bufferLevel
    obtain ⟨-, -, hparse, -⟩ := hfresh.unfailing hg [] r .fresh
    obtain ⟨v, r', -, hp, -⟩ := hparse tokens
    have hquiet : Engine.quietly g {} = .ok e := ok_bind hb
    have hrun : e.parse tokens = .ok v := (ok_bind hr).trans (ok_bind hp)
    exact ⟨v.isAccept, (ok_bind hquiet).trans (ok_bind hrun)⟩

/-- The grammar of `.` with a conjunction of `.` and nothing that the root does not reach. -/
def mixedGrammar : Grammar :=
  let any := .token ⟨0, 0⟩ .any
  let nothing := .eps ⟨0, 1⟩
  let root := .token ⟨0, 3⟩ .any
  ⟨0, #[any, nothing, .conj ⟨0, 2⟩ any nothing, root, .endMark ⟨0, 4⟩],
    #[true, false, false, true, false], #[], root⟩

end Grammar

end TokenGrammar
