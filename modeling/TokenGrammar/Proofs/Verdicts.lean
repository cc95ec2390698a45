import TokenGrammar.Proofs.Productivity

/-!
# Verdicts on whole inputs

A recognizer that is fed an input consumes it up to the first token after which control would stand
nowhere. Its verdict is the offset of this token, or depends on whether the input is a sentence.
-/

namespace TokenGrammar.Grammar

variable {g : Grammar} {u ts : List Token} {r r' : Recognizer}

/-- How far the recognizer has come with `ts` after `u`: it has consumed the first `n` tokens, and
has not stopped before the end but because of the next one. -/
structure Fed (g : Grammar) (u ts : List Token) (r : Recognizer) (n : Nat) : Prop where
  le : n ≤ ts.length
  reading : g.Reading (u ++ ts.take n) r
  standing : ∀ m, 0 < m → m ≤ n → g.Standing (u ++ ts.take m)
  stop : r.rejectedAt = none ∧ n = ts.length ∨
    r.rejectedAt = some (u.length + n) ∧ n < ts.length ∧ ¬ g.Standing (u ++ ts.take (n + 1))

theorem Reading.feed_ok (hg : g.Valid) (h : g.Reading u r) (hrej : r.rejectedAt = none)
    (ts : List Token) : ∃ r' n, r.feed ts = .ok r' ∧ g.Fed u ts r' n := by
  induction ts generalizing u r with
  | nil =>
    refine ⟨r, 0, rfl, Nat.le_refl 0, ?_, fun m hm hle => ?_, .inl ⟨hrej, rfl⟩⟩
    · rwa [List.take_zero, List.append_nil]
    · omega
  | cons t ts ih =>
    obtain ⟨b, r₁, hc, ht, hf⟩ := h.consume_ok hg t
    have hfeed : r.feed (t :: ts) = if b then r₁.feed ts else .ok r₁ := by
      rw [Recognizer.feed, ok_bind hc]
      rfl
    cases b with
    | false =>
      obtain ⟨hread, hrej', hno⟩ := hf rfl
      refine ⟨r₁, 0, hfeed, Nat.zero_le _, ?_, fun m hm hle => ?_, .inr ⟨hrej', ?_, ?_⟩⟩
      · rwa [List.take_zero, List.append_nil]
      · omega
      · exact Nat.succ_pos _
      · exact hno hrej
    | true =>
      obtain ⟨-, hread, hrej'⟩ := ht rfl
      obtain ⟨r', n, hr', hle, hread', hstand, hstop⟩ := ih hread hrej'
      have htake : ∀ m, u ++ (t :: ts).take (m + 1) = u ++ [t] ++ ts.take m := by
        intro m
        rw [List.take_succ_cons, List.append_assoc]
        rfl
      refine ⟨r', n + 1, hfeed.trans hr', Nat.succ_le_succ hle, ?_, fun m hm hle => ?_, ?_⟩
      · rwa [htake]
      · obtain ⟨m, rfl⟩ := Nat.exists_eq_add_one_of_ne_zero (Nat.ne_of_gt hm)
        rw [htake]
        cases m with
        | zero =>
          rw [List.take_zero, List.append_nil]
          exact hread.standing hrej' (by simp)
        | succ m => exact hstand (m + 1) (Nat.succ_pos m) (by omega)
      · rw [htake]
        refine hstop.imp (fun ⟨hn, hlen⟩ => ⟨hn, congrArg (· + 1) hlen⟩) fun ⟨hn, hlt, hno⟩ => ?_
        refine ⟨?_, Nat.succ_lt_succ hlt, hno⟩
        rw [hn, List.length_append, List.length_singleton, Nat.add_assoc, Nat.add_comm 1]

/-- A verdict on an input, in terms of what is viable and what is a sentence. -/
structure Decides (g : Grammar) (ts : List Token) (v : Verdict) : Prop where
  accept_iff : v = .accept ↔ g.Sentence ts
  reject_le : ∀ k, v = .reject k → k ≤ ts.length
  reject_iff : ∀ k, k < ts.length →
    (v = .reject k ↔ (∀ m, 0 < m → m ≤ k → g.Viable (ts.take m)) ∧ ¬ g.Viable (ts.take (k + 1)))
  reject_end_iff : v = .reject ts.length ↔
    (∀ m, 0 < m → m ≤ ts.length → g.Viable (ts.take m)) ∧ ¬ g.Sentence ts

private theorem take_ne_nil {m : Nat} (hm : 0 < m) (hle : m ≤ ts.length) : ts.take m ≠ [] := by
  intro h
  have := congrArg List.length h
  rw [List.length_take, List.length_nil] at this
  omega

private theorem viable_take (hg : g.Valid) (h : g.Sentence ts) {m : Nat} (hm : 0 < m)
    (hle : m ≤ ts.length) : g.Viable (ts.take m) := by
  refine viable_of_sentence hg (take_ne_nil hm hle) (v := ts.drop m) ?_
  rwa [List.take_append_drop]

namespace Decides

variable {v : Verdict} (h : g.Decides ts v) (hg : g.Valid)
include h hg

theorem no_sentence (k : Nat) (hk : k < ts.length) (hv : v = .reject k) (w : List Token)
    (hw : g.Sentence w) : ¬ ts.take (k + 1) <+: w := by
  rintro ⟨z, rfl⟩
  have hno := ((h.reject_iff k hk).1 hv).2
  exact hno (viable_of_sentence hg (take_ne_nil (Nat.succ_pos k) hk) hw)

theorem completable (hp : g.Productive) (k : Nat) (hv : v = .reject k) :
    ∃ w, g.Sentence w ∧ ts.take k <+: w := by
  cases k with
  | zero =>
    obtain ⟨w, hw⟩ := hg.exists_sentence hp
    exact ⟨w, hw, List.nil_prefix⟩
  | succ k =>
    have hviable : g.Viable (ts.take (k + 1)) := by
      rcases Nat.lt_or_eq_of_le (h.reject_le _ hv) with hlt | heq
      · exact ((h.reject_iff _ hlt).1 hv).1 _ (Nat.succ_pos k) (Nat.le_refl _)
      · exact (h.reject_end_iff.1 (heq ▸ hv)).1 _ (Nat.succ_pos k) heq.le
    obtain ⟨w, hw⟩ := hg.sentence_of_viable hp hviable
    exact ⟨_, hw, List.prefix_append _ w⟩

end Decides

private theorem decides_end
    (hviable : ∀ m, 0 < m → m ≤ ts.length → g.Viable (ts.take m)) {b : Bool}
    (hb : b = true ↔ g.Sentence ts) :
    g.Decides ts (if b then .accept else .reject ts.length) := by
  have hend : ∀ k, k < ts.length → ¬ ((∀ m, 0 < m → m ≤ k → g.Viable (ts.take m)) ∧
      ¬ g.Viable (ts.take (k + 1))) := fun k hk h => h.2 (hviable (k + 1) (Nat.succ_pos k) hk)
  cases b with
  | true =>
    have hs := hb.1 rfl
    exact ⟨by simp [hs], by simp, fun k hk => by simpa using hend k hk, by simp [hs]⟩
  | false =>
    have hs : ¬ g.Sentence ts := fun h => by simpa using hb.2 h
    refine ⟨by simp [hs], ?_, fun k hk => ?_, by simpa [hs] using hviable⟩
    · intro k hk
      cases hk
      exact Nat.le_refl _
    · have hne : ts.length ≠ k := by omega
      simpa [hne] using hend k hk

private theorem decides_stop (hg : g.Valid) {n : Nat} (hlt : n < ts.length)
    (hviable : ∀ m, 0 < m → m ≤ n → g.Viable (ts.take m)) (hno : ¬ g.Viable (ts.take (n + 1))) :
    g.Decides ts (.reject n) := by
  have hs : ¬ g.Sentence ts := fun h => hno (viable_take hg h (Nat.succ_pos n) hlt)
  refine ⟨by simp [hs], ?_, fun k hk => ⟨?_, ?_⟩, ?_⟩
  · intro k hk
    cases hk
    exact hlt.le
  · intro h
    cases h
    exact ⟨hviable, hno⟩
  · rintro ⟨hv, hk'⟩
    rcases Nat.lt_trichotomy n k with hlt' | rfl | hlt'
    · exact absurd (hv (n + 1) (Nat.succ_pos n) hlt') hno
    · rfl
    · exact absurd (hviable (k + 1) (Nat.succ_pos k) hlt') hk'
  · have hne : n ≠ ts.length := by omega
    simp only [Verdict.reject.injEq, hne, false_iff, not_and]
    exact fun hv => absurd (hv (n + 1) (Nat.succ_pos n) hlt) hno

theorem Reading.parse_ok (hg : g.Valid) (h : g.Reading [] r) (hrej : r.rejectedAt = none)
    (ts : List Token) : ∃ v r', r.parse ts = .ok (v, r') ∧ g.Decides ts v := by
  obtain ⟨r', n, hr', hfed⟩ := h.feed_ok hg hrej ts
  have hparse : r.parse ts = .ok (r'.finish, r') := by
    rw [Recognizer.parse, ok_bind hr']
    rfl
  have hviable : ∀ m, 0 < m → m ≤ n → g.Viable (ts.take m) := fun m hm hle =>
    (standing_iff_viable hg (take_ne_nil hm (hle.trans hfed.le))).1 (hfed.standing m hm hle)
  refine ⟨_, r', hparse, ?_⟩
  rcases hfed.stop with ⟨hnone, rfl⟩ | ⟨hsome, hlt, hno⟩
  · have hread := hfed.reading
    rw [List.take_length, List.nil_append] at hread
    rw [Recognizer.finish, hnone, hread.offset]
    exact decides_end hviable (hread.isAccepting_iff hg hnone)
  · rw [List.nil_append] at hno
    rw [Recognizer.finish, hsome, List.length_nil, Nat.zero_add]
    refine decides_stop hg hlt hviable fun hv => hno ?_
    exact (standing_iff_viable hg (take_ne_nil (Nat.succ_pos n) hlt)).2 hv

/-- A recognizer can be fed anything, also once it is rejected. -/
theorem Reading.feed_total (hg : g.Valid) (h : g.Reading u r) (ts : List Token) :
    ∃ r', r.feed ts = .ok r' := by
  cases hrej : r.rejectedAt with
  | none =>
    obtain ⟨r', n, hr', -⟩ := h.feed_ok hg hrej ts
    exact ⟨r', hr'⟩
  | some k =>
    cases ts with
    | nil => exact ⟨r, rfl⟩
    | cons t ts =>
      obtain ⟨log, hc⟩ := Recognizer.consume_of_rejected hrej t
      exact ⟨_, ok_bind hc⟩

end TokenGrammar.Grammar
