import TokenGrammar.Proofs.Safety
import TokenGrammar.Proofs.Twins

/-!
# Streaming

A recognizer takes tokens one by one or in portions, and can be asked for a verdict in between. What
it says about its progress is consistent at all times. How the tokens are divided up makes no
difference, and neither does it whether any are given after one that is rejected.
-/

namespace TokenGrammar

namespace Recognizer

variable {r r' r₀ r₁ r₂ : Recognizer} {u : List Token} {t : Token} {b : Bool} {k : Nat}

/-- The recognizer without what it has logged. -/
def unlogged (r : Recognizer) : Recognizer := { r with log := .quiet }

/-- What a recognizer can be asked to do with tokens. -/
inductive Request
  | consume (token : Token)
  | parse (tokens : List Token)
  | recognize (tokens : List Token)
  deriving DecidableEq, Repr

def serve (r : Recognizer) : Request → Except Failure Recognizer
  | .consume token => do return (← r.consume token).2
  | .parse tokens => do return (← r.parse tokens).2
  | .recognize tokens => do return (← r.recognize tokens).2

def serveAll (r : Recognizer) (requests : List Request) : Except Failure Recognizer :=
  requests.foldlM serve r

/-- What a recognizer says about its progress is consistent. -/
structure Coherent (r : Recognizer) : Prop where
  steps : r.stats.steps = r.offset + if r.isRejected then 1 else 0
  rejectedAt : r.rejectedAt = none ∨ r.rejectedAt = some r.offset
  rejected : r.isRejected = true → r.frontier = ∅
  standing : r.isRejected = false → 0 < r.offset → r.frontier ≠ ∅

/-- The tokens `xs` and then `ys` lead to the verdict `v` and, but for what is logged, to `s`,
whether they are given at once, in two portions or one by one. -/
structure Streams (r : Recognizer) (xs ys : List Token) (v : Verdict) (s : Recognizer) : Prop where
  atOnce : ∃ r', r.parse (xs ++ ys) = .ok (v, r') ∧
    r.recognize (xs ++ ys) = .ok (v.isAccept, r') ∧ r'.unlogged = s
  inPortions : ∃ v' r' r'', r.parse xs = .ok (v', r') ∧ r'.parse ys = .ok (v, r'') ∧
    r'.recognize ys = .ok (v.isAccept, r'') ∧ r''.unlogged = s
  oneByOne : ∃ answers r', r.consumeAll (xs ++ ys) = .ok (answers, r') ∧ r'.finish = v ∧
    r'.unlogged = s

theorem consume_cases (h : r.consume t = .ok (b, r')) :
    (∃ k log, r.rejectedAt = some k ∧ b = false ∧ r' = { r with log := log }) ∨
      r.rejectedAt = none ∧ ∃ a log,
        Frontier.advance r.tables r.store r.frontier.toList t = .ok a ∧
          (a.frontier = ∅ ∧ b = false ∧
              r' = { r.moved a with rejectedAt := some r.offset, log := log } ∨
            a.frontier ≠ ∅ ∧ b = true ∧
              r' = { r.moved a with offset := r.offset + 1, log := log }) := by
  rcases Option.eq_none_or_eq_some r.rejectedAt with hrej | ⟨k, hrej⟩
  · cases ha : Frontier.advance r.tables r.store r.frontier.toList t with
    | error f =>
      rw [consume, hrej] at h
      simp only [ha] at h
      cases h
    | ok a =>
      obtain ⟨log, hc⟩ := consume_of_advance hrej ha
      have hb := Except.ok.inj (h.symm.trans hc)
      refine .inr ⟨hrej, a, log, rfl, ?_⟩
      split at hb
      · rename_i he
        obtain ⟨rfl, rfl⟩ := Prod.mk.inj hb
        exact .inl ⟨Std.ExtTreeMap.isEmpty_iff.1 he, rfl, rfl⟩
      · rename_i he
        obtain ⟨rfl, rfl⟩ := Prod.mk.inj hb
        exact .inr ⟨fun hf => he (Std.ExtTreeMap.isEmpty_iff.2 hf), rfl, rfl⟩
  · obtain ⟨log, hc⟩ := consume_of_rejected hrej t
    obtain ⟨rfl, rfl⟩ := Prod.mk.inj (Except.ok.inj (h.symm.trans hc))
    exact .inl ⟨k, log, hrej, rfl, rfl⟩

theorem rejected_of_refused (h : r.consume t = .ok (false, r')) : ∃ k, r'.rejectedAt = some k := by
  rcases consume_cases h with ⟨k, log, hrej, -, rfl⟩ |
    ⟨-, a, log, -, ⟨-, -, rfl⟩ | ⟨-, hb, -⟩⟩
  · exact ⟨k, hrej⟩
  · exact ⟨r.offset, rfl⟩
  · cases hb

theorem Coherent.relog (h : r.Coherent) (log : Log) : { r with log := log }.Coherent :=
  ⟨h.steps, h.rejectedAt, h.rejected, h.standing⟩

theorem Coherent.consume (h : r.Coherent) (hc : r.consume t = .ok (b, r')) : r'.Coherent := by
  rcases consume_cases hc with ⟨k, log, -, -, rfl⟩ |
    ⟨hrej, a, log, -, ⟨he, -, rfl⟩ | ⟨hne, -, rfl⟩⟩
  · exact h.relog log
  · have hsteps := h.steps
    rw [isRejected, hrej] at hsteps
    refine ⟨?_, .inr rfl, fun _ => he, fun hr => by cases hr⟩
    exact congrArg (· + 1) hsteps
  · have hsteps := h.steps
    rw [isRejected, hrej] at hsteps
    have hnone : isRejected { r.moved a with offset := r.offset + 1, log := log } = false :=
      congrArg Option.isSome hrej
    refine ⟨?_, .inl hrej, fun hr => ?_, fun _ _ => hne⟩
    · rw [hnone]
      exact congrArg (· + 1) hsteps
    · rw [hnone] at hr
      cases hr

theorem Run.coherent (h₀ : r₀.Coherent) (h : r₀.Run u r) : r.Coherent := by
  induction h with
  | fresh => exact h₀
  | consumed _ hc ih | refused _ hc ih => exact ih.consume hc
  | forked _ ih => exact ih.relog _
  | logged _ log ih => exact ih.relog log

theorem consumeAll_of_rejected (h : r.rejectedAt = some k) (ts : List Token) :
    ∃ log, r.consumeAll ts = .ok (.replicate ts.length false, { r with log := log }) := by
  induction ts generalizing r with
  | nil => exact ⟨r.log, rfl⟩
  | cons t ts ih =>
    obtain ⟨log, hc⟩ := consume_of_rejected h t
    obtain ⟨log', hcs⟩ := ih (r := { r with log := log }) h
    refine ⟨log', ?_⟩
    rw [consumeAll, ok_bind hc]
    exact ok_bind hcs

theorem feed_of_rejected (h : r.rejectedAt = some k) {ts : List Token} (hf : r.feed ts = .ok r') :
    r'.unlogged = r.unlogged := by
  cases ts with
  | nil =>
    obtain rfl := Except.ok.inj hf
    rfl
  | cons t ts =>
    obtain ⟨log, hc⟩ := consume_of_rejected h t
    rw [feed, ok_bind hc] at hf
    obtain rfl := Except.ok.inj hf
    rfl

theorem feed_cons {ts : List Token} (h : r.feed (t :: ts) = .ok r₁) :
    ∃ b r', r.consume t = .ok (b, r') ∧
      (b = true ∧ r'.feed ts = .ok r₁ ∨ b = false ∧ r₁ = r') := by
  cases hc : r.consume t with
  | error f =>
    rw [feed, hc] at h
    cases h
  | ok p =>
    obtain ⟨b, r'⟩ := p
    rw [feed, ok_bind hc] at h
    refine ⟨b, r', rfl, ?_⟩
    cases b with
    | true => exact .inl ⟨rfl, h⟩
    | false => exact .inr ⟨rfl, (Except.ok.inj h).symm⟩

theorem feed_of_refused (h : r.consume t = .ok (false, r')) (ts : List Token) :
    r.feed (t :: ts) = .ok r' := by
  rw [feed, ok_bind h]
  rfl

theorem feed_of_consumed (h : r.consume t = .ok (true, r')) (ts : List Token) :
    r.feed (t :: ts) = r'.feed ts := by
  rw [feed, ok_bind h]
  rfl

/-- Two portions do what they do together. After a rejected token nothing but the log changes, be it
in the same portion or in the next one. -/
theorem feed_append {xs ys : List Token} (h : r.feed xs = .ok r₁) (h' : r₁.feed ys = .ok r₂) :
    ∃ r₃, r.feed (xs ++ ys) = .ok r₃ ∧ r₃.unlogged = r₂.unlogged := by
  induction xs generalizing r with
  | nil =>
    obtain rfl := Except.ok.inj h
    exact ⟨r₂, h', rfl⟩
  | cons t xs ih =>
    obtain ⟨b, r', hc, ⟨rfl, hf⟩ | ⟨rfl, rfl⟩⟩ := feed_cons h
    · obtain ⟨r₃, hr₃, he⟩ := ih hf
      exact ⟨r₃, (feed_of_consumed hc _).trans hr₃, he⟩
    · obtain ⟨k, hk⟩ := rejected_of_refused hc
      exact ⟨r₁, feed_of_refused hc _, (feed_of_rejected hk h').symm⟩

theorem consumeAll_of_feed {ts : List Token} (h : r.feed ts = .ok r₁) :
    ∃ answers r₂, r.consumeAll ts = .ok (answers, r₂) ∧ r₂.unlogged = r₁.unlogged := by
  induction ts generalizing r with
  | nil =>
    obtain rfl := Except.ok.inj h
    exact ⟨[], r, rfl, rfl⟩
  | cons t ts ih =>
    obtain ⟨b, r', hc, ⟨rfl, hf⟩ | ⟨rfl, rfl⟩⟩ := feed_cons h
    · obtain ⟨answers, r₂, hr₂, he⟩ := ih hf
      refine ⟨true :: answers, r₂, ?_, he⟩
      rw [consumeAll, ok_bind hc]
      exact ok_bind hr₂
    · obtain ⟨k, hk⟩ := rejected_of_refused hc
      obtain ⟨log, hcs⟩ := consumeAll_of_rejected hk ts
      refine ⟨false :: .replicate ts.length false, { r₁ with log := log }, ?_, rfl⟩
      rw [consumeAll, ok_bind hc]
      exact ok_bind hcs

/-- The verdict does not depend on what has been logged. -/
theorem finish_eq_of_unlogged (h : r.unlogged = r'.unlogged) : r.finish = r'.finish :=
  show r.unlogged.finish = r'.unlogged.finish from congrArg finish h

theorem parse_of_feed {ts : List Token} (h : r.feed ts = .ok r') :
    r.parse ts = .ok (r'.finish, r') ∧ r.recognize ts = .ok (r'.finish.isAccept, r') := by
  have hp : r.parse ts = .ok (r'.finish, r') := by
    rw [parse, ok_bind h]
    rfl
  refine ⟨hp, ?_⟩
  rw [recognize, ok_bind hp]
  rfl

theorem streams_of_feed {xs ys : List Token} (h : r.feed xs = .ok r₁) (h' : r₁.feed ys = .ok r₂) :
    r.Streams xs ys r₂.finish r₂.unlogged := by
  obtain ⟨r₃, h₃, he₃⟩ := feed_append h h'
  obtain ⟨answers, r₄, h₄, he₄⟩ := consumeAll_of_feed h₃
  have hfinish := finish_eq_of_unlogged he₃
  refine ⟨⟨r₃, ?_, ?_, he₃⟩, ⟨_, r₁, r₂, (parse_of_feed h).1, (parse_of_feed h').1,
    (parse_of_feed h').2, rfl⟩, answers, r₄, h₄, ?_, he₄.trans he₃⟩
  · rw [← hfinish]
    exact (parse_of_feed h₃).1
  · rw [← hfinish]
    exact (parse_of_feed h₃).2
  · exact (finish_eq_of_unlogged he₄).trans hfinish

end Recognizer

namespace Grammar

variable {g : Grammar} {u : List Token} {r r₀ : Recognizer}

theorem Fresh.coherent (h : g.Fresh r) : r.Coherent := by
  have hnone : r.isRejected = false := by
    rw [Recognizer.isRejected, h.rejectedAt]
    rfl
  refine ⟨?_, .inl h.rejectedAt, fun hr => ?_, fun _ hpos => ?_⟩
  · rw [h.stats, h.offset, hnone]
    rfl
  · rw [hnone] at hr
    cases hr
  · rw [h.offset] at hpos
    exact absurd hpos (Nat.lt_irrefl 0)

theorem serve_ok (hg : g.Valid) (h₀ : g.Fresh r₀) (h : r₀.Run u r) (q : Recognizer.Request) :
    ∃ u' r', r.serve q = .ok r' ∧ r₀.Run u' r' := by
  obtain ⟨-, hconsume, hparse, -⟩ := h₀.unfailing hg u r h
  cases q with
  | consume t =>
    obtain ⟨b, r', hc⟩ := hconsume t
    cases b with
    | true => exact ⟨_, r', ok_bind hc, h.consumed hc⟩
    | false => exact ⟨u, r', ok_bind hc, h.refused hc⟩
  | parse ts =>
    obtain ⟨v, r', u', hp, hrun⟩ := hparse ts
    exact ⟨u', r', ok_bind hp, hrun⟩
  | recognize ts =>
    obtain ⟨v, r', u', hp, hrun⟩ := hparse ts
    have hr : r.recognize ts = .ok (v.isAccept, r') := ok_bind hp
    exact ⟨u', r', ok_bind hr, hrun⟩

theorem serveAll_ok (hg : g.Valid) (h₀ : g.Fresh r₀) (h : r₀.Run u r)
    (requests : List Recognizer.Request) :
    ∃ u' r', r.serveAll requests = .ok r' ∧ r₀.Run u' r' := by
  induction requests generalizing u r with
  | nil => exact ⟨u, r, rfl, h⟩
  | cons q requests ih =>
    obtain ⟨u₁, r₁, hq, hrun⟩ := serve_ok hg h₀ h q
    obtain ⟨u₂, r₂, hqs, hrun'⟩ := ih hrun
    refine ⟨u₂, r₂, ?_, hrun'⟩
    rw [Recognizer.serveAll, List.foldlM_cons, ok_bind hq]
    exact hqs

theorem streams_ok (hg : g.Valid) (h₀ : g.Fresh r₀) (h : r₀.Run u r) (xs ys : List Token) :
    ∃ v s, r.Streams xs ys v s := by
  obtain ⟨r₁, h₁⟩ := (h.reading hg h₀.toReading).feed_total hg xs
  obtain ⟨u₁, hrun⟩ := h.feed h₁
  obtain ⟨r₂, h₂⟩ := (hrun.reading hg h₀.toReading).feed_total hg ys
  exact ⟨_, _, Recognizer.streams_of_feed h₁ h₂⟩

theorem engine_parse_ok (hg : g.Valid) {e : Engine} (hout : e.HandsOut g.Fresh) (h : g.Fresh r)
    (tokens : List Token) :
    ∃ v r', r.parse tokens = .ok (v, r') ∧ ∀ e' : Engine, e'.tables = e.tables →
      e'.parse tokens = .ok v ∧ e'.recognize tokens = .ok v.isAccept := by
  obtain ⟨r₁, h₁⟩ := h.feed_total hg tokens
  refine ⟨r₁.finish, r₁, (Recognizer.parse_of_feed h₁).1, fun e' he => ?_⟩
  obtain ⟨r', hr', hfresh⟩ := hout e' he e'.bufferLevel
  obtain ⟨r₁', h₁'⟩ := hfresh.feed_total hg tokens
  -- the verdicts agree because two recognizers that read the same one by one do
  obtain ⟨answers, s, s', u, hs, hs', htwins⟩ := (Twins.of_fresh h hfresh).consumeAll_ok hg tokens
  obtain ⟨as, r₂, h₂, he₂⟩ := Recognizer.consumeAll_of_feed h₁
  obtain ⟨as', r₂', h₂', he₂'⟩ := Recognizer.consumeAll_of_feed h₁'
  obtain ⟨-, rfl⟩ := Prod.mk.inj (Except.ok.inj (hs.symm.trans h₂))
  obtain ⟨-, rfl⟩ := Prod.mk.inj (Except.ok.inj (hs'.symm.trans h₂'))
  have hverdict : r₁'.finish = r₁.finish := by
    rw [← Recognizer.finish_eq_of_unlogged he₂, ← Recognizer.finish_eq_of_unlogged he₂',
      htwins.agree.finish]
  have hparse : e'.parse tokens = .ok r₁.finish := by
    rw [← hverdict]
    exact (ok_bind hr').trans (ok_bind (Recognizer.parse_of_feed h₁').1)
  exact ⟨hparse, ok_bind hparse⟩

/-- Whatever a recognizer is asked to do, one request after the other, it is coherent afterwards, a
rejected one only logs what it is given, and portions of an input make no difference. A new one gives
the same verdict as its engine. -/
theorem streaming_coherent (hg : g.Built) (hv : g.validate = .ok ()) (options : Options) (log : Log)
    (elapsed : Nat) :
    ∃ e l, Engine.build g options log elapsed = .ok (e, l) ∧ e.HandsOut fun r₀ =>
      (∀ u r, r₀.Run u r → ∀ requests, ∃ r', r.serveAll requests = .ok r' ∧ r'.Coherent ∧
        (r'.isRejected = true → ∀ tokens, ∃ log',
          r'.consumeAll tokens = .ok (.replicate tokens.length false, { r' with log := log' })) ∧
        ∀ xs ys, ∃ v s, r'.Streams xs ys v s) ∧
      ∀ tokens, ∃ v r, r₀.parse tokens = .ok (v, r) ∧ ∀ e' : Engine, e'.tables = e.tables →
        e'.parse tokens = .ok v ∧ e'.recognize tokens = .ok v.isAccept := by
  have hval := hg.valid hv
  obtain ⟨n, hn⟩ := hval.build_ok
  obtain ⟨e, l, hb, -, hout⟩ := hn options log elapsed
  refine ⟨e, l, hb, fun e' he level => ?_⟩
  obtain ⟨r₀, hr₀, h₀⟩ := hout e' he level
  refine ⟨r₀, hr₀, fun u r hrun requests => ?_, engine_parse_ok hval hout h₀⟩
  obtain ⟨u', r', hserve, hrun'⟩ := serveAll_ok hval h₀ hrun requests
  refine ⟨r', hserve, hrun'.coherent h₀.coherent, fun hrej => ?_,
    streams_ok hval h₀ hrun'⟩
  obtain ⟨k, hk⟩ := Option.isSome_iff_exists.1 hrej
  exact Recognizer.consumeAll_of_rejected hk

theorem streaming_coherent_sum :
    sumGrammar.Built ∧ sumGrammar.validate = .ok () ∧
      ∃ e l, Engine.build sumGrammar {} .quiet 0 = .ok (e, l) ∧ e.HandsOut fun r₀ =>
        (∀ u r, r₀.Run u r → ∀ requests, ∃ r', r.serveAll requests = .ok r' ∧ r'.Coherent ∧
          (r'.isRejected = true → ∀ tokens, ∃ log',
            r'.consumeAll tokens = .ok (.replicate tokens.length false, { r' with log := log' })) ∧
          ∀ xs ys, ∃ v s, r'.Streams xs ys v s) ∧
        ∀ tokens, ∃ v r, r₀.parse tokens = .ok (v, r) ∧ ∀ e' : Engine, e'.tables = e.tables →
          e'.parse tokens = .ok v ∧ e'.recognize tokens = .ok v.isAccept :=
  ⟨built_sum, validate_sum, streaming_coherent built_sum validate_sum {} .quiet 0⟩

end Grammar

end TokenGrammar
