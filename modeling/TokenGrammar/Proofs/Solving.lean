import TokenGrammar.Proofs.Rounds
import Mathlib.Order.BoundedOrder.Basic
import Mathlib.Algebra.Order.BigOperators.Group.Finset
import Mathlib.Algebra.Order.BigOperators.Ring.Finset
import Mathlib.Data.Finset.Card

/-!
# Solving finds least solutions

The equations of a system are monotone and their values come from an order of bounded height. Under
these conditions a round only moves approximations up, and never past the least solution; a round
that changes nothing leaves a solution on the keys it met; and so the rounds end, within the bounds
that the system has, with the least solution on every key that is settled.
-/

namespace TokenGrammar

namespace System

variable {σ ν : Type}

/-- What a system computes, said without its states: the equation of each key, and the least
solution. The least solution is below every solution on a set of keys that holds what its equations
read. -/
structure Solution [PartialOrder ν] [OrderBot ν] (sys : System σ ν) where
  /-- The states in which the equations can be found. -/
  good : σ → Prop
  keys : Finset Nat
  equation : Nat → Equation ν
  value : Nat → ν
  rank : ν → Nat
  height : Nat
  found : ∀ k ∈ keys, ∀ s, good s → ∃ s', sys.equation k s = .ok (equation k, s') ∧ good s'
  reads_mem : ∀ k ∈ keys, ∀ r ∈ (equation k).reads, r ∈ keys
  monotone : ∀ k ∈ keys, ∀ f f' : Nat → ν, (∀ r ∈ (equation k).reads, f r ≤ f' r) →
    (equation k).value f ≤ (equation k).value f'
  solves : ∀ k ∈ keys, (equation k).value value = value k
  least : ∀ (K : Nat → Prop) (f : Nat → ν), (∀ k, K k → k ∈ keys) →
    (∀ k, K k → ∀ r ∈ (equation k).reads, K r) → (∀ k, K k → (equation k).value f = f k) →
    ∀ k, K k → value k ≤ f k
  rank_lt : ∀ v w, v < w → rank v < rank w
  rank_le : ∀ k ∈ keys, rank (value k) ≤ height
  depth : keys.card < sys.depth
  rounds : keys.card * height < sys.rounds

namespace Solution

variable [PartialOrder ν] [OrderBot ν] {sys : System σ ν} (S : Solution sys)

/-- A memo table on the way to the least solution: settled keys have reached it, and no value is
above it or above its own equation. -/
structure Approximates (m : Memo ν) : Prop where
  bottom : m.bottom = ⊥
  present : ∀ k ∈ m.visited, k ∈ m.values
  visited_mem : ∀ k ∈ m.visited, k ∈ S.keys
  settled_mem : ∀ k ∈ m.settled, k ∈ S.keys
  settled_reads : ∀ k ∈ m.settled, ∀ r ∈ (S.equation k).reads, r ∈ m.settled
  settled_value : ∀ k ∈ m.settled, m.value k = S.value k
  below : ∀ k ∈ S.keys, m.value k ≤ S.value k
  growing : ∀ k ∈ S.keys, m.value k ≤ (S.equation k).value m.value

/-- No round is under way. -/
structure Idle (m : Memo ν) : Prop extends S.Approximates m where
  depth : m.depth = 0
  visited : ∀ k, k ∉ m.visited
  changed : m.changed = false

/-- What a part of a round does to a memo table. -/
structure Progress (m m' : Memo ν) : Prop where
  depth : m'.depth = m.depth
  settled : m'.settled = m.settled
  rounds : m'.rounds = m.rounds
  visited : ∀ k ∈ m.visited, k ∈ m'.visited
  reads : ∀ k ∈ m'.visited, k ∉ m.visited → ∀ r ∈ (S.equation k).reads,
    r ∈ m'.visited ∨ r ∈ m'.settled
  value_le : ∀ k, m.value k ≤ m'.value k
  unchanged : m'.changed = false → m.changed = false ∧ m'.value = m.value ∧
    ∀ k ∈ m'.visited, k ∉ m.visited → (S.equation k).value m'.value = m'.value k
  changed : m'.changed = true → m.changed = true ∨ ∃ k ∈ S.keys, m.value k < m'.value k

variable {S}

theorem Progress.refl (m : Memo ν) : S.Progress m m where
  depth := rfl
  settled := rfl
  rounds := rfl
  visited _ h := h
  reads _ h h' := absurd h h'
  value_le _ := le_rfl
  unchanged h := ⟨h, rfl, fun _ hk hk' => absurd hk hk'⟩
  changed h := .inl h

theorem Progress.trans {m m' m'' : Memo ν} (h : S.Progress m m') (h' : S.Progress m' m'') :
    S.Progress m m'' where
  depth := h'.depth.trans h.depth
  settled := h'.settled.trans h.settled
  rounds := h'.rounds.trans h.rounds
  visited k hk := h'.visited k (h.visited k hk)
  reads k hk hk' r hr := by
    by_cases hm : k ∈ m'.visited
    · rw [h'.settled]
      exact (h.reads k hm hk' r hr).imp (h'.visited r) id
    · exact h'.reads k hk hm r hr
  value_le k := (h.value_le k).trans (h'.value_le k)
  unchanged hc := by
    obtain ⟨hc', hv', hn'⟩ := h'.unchanged hc
    obtain ⟨hc, hv, hn⟩ := h.unchanged hc'
    refine ⟨hc, hv'.trans hv, fun k hk hk' => ?_⟩
    by_cases hm : k ∈ m'.visited
    · rw [hv']
      exact hn k hm hk'
    · exact hn' k hk hm
  changed hc := by
    rcases h'.changed hc with hc | ⟨k, hk, hlt⟩
    · exact (h.changed hc).imp id fun ⟨k, hk, hlt⟩ => ⟨k, hk, hlt.trans_le (h'.value_le k)⟩
    · exact .inr ⟨k, hk, (h.value_le k).trans_lt hlt⟩

theorem value_congr {k : Nat} (hk : k ∈ S.keys) {f f' : Nat → ν}
    (h : ∀ r ∈ (S.equation k).reads, f r = f' r) :
    (S.equation k).value f = (S.equation k).value f' :=
  le_antisymm (S.monotone k hk f f' fun r hr => (h r hr).le)
    (S.monotone k hk f' f fun r hr => (h r hr).ge)

theorem rank_mono {v w : ν} (h : v ≤ w) : S.rank v ≤ S.rank w := by
  rcases h.eq_or_lt with rfl | h
  · exact le_rfl
  · exact (S.rank_lt v w h).le

variable (S) in
/-- How many keys have not been met in the round that is under way. -/
def room (m : Memo ν) : Nat := (S.keys.filter (· ∉ m.visited)).card

theorem Progress.room_le {m m' : Memo ν} (h : S.Progress m m') : S.room m' ≤ S.room m := by
  refine Finset.card_le_card fun k hk => ?_
  simp only [Finset.mem_filter] at hk ⊢
  exact ⟨hk.1, fun hv => hk.2 (h.visited k hv)⟩

theorem room_enter_lt {m : Memo ν} {key : Nat} (hk : key ∈ S.keys) (hv : key ∉ m.visited) :
    S.room (m.enter key) < S.room m := by
  refine Finset.card_lt_card (Finset.ssubset_iff_subset_ne.2 ⟨fun k h => ?_, fun h => ?_⟩)
  · simp only [Finset.mem_filter, Memo.mem_visited_enter, not_or] at h ⊢
    exact ⟨h.1, h.2.2⟩
  · have hm : key ∈ S.keys.filter (· ∉ m.visited) := by simp [hk, hv]
    rw [← h] at hm
    simp [Memo.mem_visited_enter] at hm

theorem Approximates.enter {m : Memo ν} (h : S.Approximates m) {key : Nat} (hk : key ∈ S.keys) :
    S.Approximates (m.enter key) where
  bottom := h.bottom
  present k hv := Memo.mem_values_enter.2 ((Memo.mem_visited_enter.1 hv).imp id (h.present k))
  visited_mem k hv := (Memo.mem_visited_enter.1 hv).elim (fun e => e ▸ hk) (h.visited_mem k)
  settled_mem := h.settled_mem
  settled_reads := h.settled_reads
  settled_value k hs := by
    rw [Memo.value_enter]
    exact h.settled_value k hs
  below k hk := by
    rw [Memo.value_enter]
    exact h.below k hk
  growing k hk := by
    rw [Memo.value_enter]
    exact h.growing k hk

/-- A round that changes nothing leaves the least solution on every key that it met. -/
theorem Progress.stable {m m' : Memo ν} (hp : S.Progress m m') (hi : S.Idle m)
    (h : S.Approximates m') (hc : m'.changed = false) :
    ∀ k, k ∈ m'.visited ∨ k ∈ m'.settled → m'.value k = S.value k := by
  obtain ⟨-, hv, hn⟩ := hp.unchanged hc
  have hmem : ∀ k, k ∈ m'.visited ∨ k ∈ m'.settled → k ∈ S.keys :=
    fun k hk => hk.elim (h.visited_mem k) (h.settled_mem k)
  -- on the keys that were met the table is a solution, and the least one is below it
  have hleast := S.least (fun k => k ∈ m'.visited ∨ k ∈ m'.settled) m'.value hmem
    (fun k hk r hr => hk.elim (fun hk => hp.reads k hk (hi.visited k) r hr)
      fun hk => .inr (h.settled_reads k hk r hr))
    (fun k hk => by
      rcases hk with hk | hk
      · exact hn k hk (hi.visited k)
      · have hkk := h.settled_mem k hk
        rw [h.settled_value k hk, ← S.solves k hkk]
        exact value_congr hkk fun r hr => h.settled_value r (h.settled_reads k hk r hr))
  exact fun k hk => le_antisymm (h.below k (hmem k hk)) (hleast k hk)

theorem Approximates.nextRound {m : Memo ν} (h : S.Approximates m) (hd : m.depth = 0) (n : Nat) :
    S.Idle { m with rounds := n, changed := false, visited := ∅ } where
  bottom := h.bottom
  present _ hk := absurd hk Std.ExtTreeSet.not_mem_empty
  visited_mem _ hk := absurd hk Std.ExtTreeSet.not_mem_empty
  settled_mem := h.settled_mem
  settled_reads := h.settled_reads
  settled_value := h.settled_value
  below := h.below
  growing := h.growing
  depth := hd
  visited _ := Std.ExtTreeSet.not_mem_empty
  changed := rfl

/-- A round that changed nothing ends with all its keys settled. -/
theorem Progress.settle {m m' : Memo ν} (hp : S.Progress m m') (hi : S.Idle m)
    (h : S.Approximates m') (hc : m'.changed = false) {settled : NatSet}
    (hs : ∀ k, k ∈ settled ↔ k ∈ m'.visited ∨ k ∈ m'.settled) (n : Nat) :
    S.Idle { m' with rounds := n, settled, visited := ∅ } where
  bottom := h.bottom
  present _ hk := absurd hk Std.ExtTreeSet.not_mem_empty
  visited_mem _ hk := absurd hk Std.ExtTreeSet.not_mem_empty
  settled_mem k hk := ((hs k).1 hk).elim (h.visited_mem k) (h.settled_mem k)
  settled_reads k hk r hr := (hs r).2 (((hs k).1 hk).elim
    (fun hk => hp.reads k hk (hi.visited k) r hr) fun hk => .inr (h.settled_reads k hk r hr))
  settled_value k hk := hp.stable hi h hc k ((hs k).1 hk)
  below := h.below
  growing := h.growing
  depth := hp.depth.trans hi.depth
  visited _ := Std.ExtTreeSet.not_mem_empty
  changed := hc

variable (S) in
/-- How far the approximations can still rise. -/
def slack (m : Memo ν) : Nat := ∑ k ∈ S.keys, (S.height - S.rank (m.value k))

theorem slack_lt {m m' : Memo ν} (h' : S.Approximates m') (hle : ∀ k, m.value k ≤ m'.value k)
    (hlt : ∃ k ∈ S.keys, m.value k < m'.value k) : S.slack m' < S.slack m := by
  obtain ⟨k, hk, hlt⟩ := hlt
  refine Finset.sum_lt_sum (fun j _ => ?_) ⟨k, hk, ?_⟩
  · exact Nat.sub_le_sub_left (rank_mono (hle j)) _
  · have h₁ := S.rank_lt _ _ hlt
    have h₂ := (rank_mono (h'.below k hk)).trans (S.rank_le k hk)
    omega

theorem slack_le (m : Memo ν) : S.slack m ≤ S.keys.card * S.height :=
  (Finset.sum_le_sum fun _ _ => Nat.sub_le _ _).trans_eq (Finset.sum_const_nat fun _ _ => rfl)

theorem idle_new : S.Idle (Memo.new (⊥ : ν)) where
  bottom := rfl
  present k hk := absurd hk Std.ExtTreeSet.not_mem_empty
  visited_mem k hk := absurd hk Std.ExtTreeSet.not_mem_empty
  settled_mem k hk := absurd hk Std.ExtTreeSet.not_mem_empty
  settled_reads k hk := absurd hk Std.ExtTreeSet.not_mem_empty
  settled_value k hk := absurd hk Std.ExtTreeSet.not_mem_empty
  below k _ := by simp [Memo.value, Memo.new]
  growing k _ := by simp [Memo.value, Memo.new]
  depth := rfl
  visited _ := Std.ExtTreeSet.not_mem_empty
  changed := rfl

variable [DecidableEq ν]

theorem Approximates.leave {m : Memo ν} (h : S.Approximates m) {key : Nat} (hk : key ∈ S.keys)
    (hs : key ∉ m.settled) (hd : m.depth ≠ 0) (hp : key ∈ m.values) :
    ∃ m', m.leave key ((S.equation key).value m.value) = .ok m' ∧ S.Approximates m' ∧
      m'.depth = m.depth - 1 ∧ m'.settled = m.settled ∧ m'.visited = m.visited ∧
      m'.rounds = m.rounds ∧ m'.value key = (S.equation key).value m.value ∧
      (∀ k, m.value k ≤ m'.value k) ∧
      (m'.changed = false → m.changed = false ∧ m'.value = m.value) ∧
      (m'.changed = true → m.changed = true ∨ m.value key < m'.value key) := by
  obtain ⟨m', hl, hb, hse, hvi, hde, hro, hva, hvalue, hch⟩ :=
    Memo.leave_ok ((S.equation key).value m.value) hd hp
  have hle : ∀ k, m.value k ≤ m'.value k := by
    intro k
    rw [hvalue]
    by_cases hkk : k = key
    · subst hkk
      rw [Function.update_self]
      exact h.growing k hk
    · rw [Function.update_of_ne hkk]
  have hkey : m'.value key = (S.equation key).value m.value := by rw [hvalue, Function.update_self]
  refine ⟨m', hl, ?_, hde, hse, hvi, hro, hkey, hle, fun hc => ?_, fun hc => ?_⟩
  · refine ⟨hb.trans h.bottom, fun k hv => (hva k).2 (h.present k (hvi ▸ hv)),
      fun k hv => h.visited_mem k (hvi ▸ hv), fun k hk => h.settled_mem k (hse ▸ hk),
      fun k hk r hr => hse ▸ h.settled_reads k (hse ▸ hk) r hr, fun k hk => ?_, fun k hkk => ?_,
      fun k hkk => ?_⟩
    · rw [hse] at hk
      rw [hvalue, Function.update_of_ne fun e : k = key => hs (e ▸ hk)]
      exact h.settled_value k hk
    · rw [hvalue]
      by_cases e : k = key
      · subst e
        rw [Function.update_self, ← S.solves k hkk]
        exact S.monotone k hkk _ _ fun r hr => h.below r (S.reads_mem k hkk r hr)
      · rw [Function.update_of_ne e]
        exact h.below k hkk
    · -- a value that rises leaves no value above its equation, by monotonicity
      have hm : (S.equation k).value m.value ≤ (S.equation k).value m'.value :=
        S.monotone k hkk _ _ fun r _ => hle r
      refine le_trans ?_ hm
      rw [hvalue]
      by_cases e : k = key
      · subst e
        rw [Function.update_self]
      · rw [Function.update_of_ne e]
        exact h.growing k hkk
  · have hn : ¬ (m.changed = true ∨ m.value key ≠ (S.equation key).value m.value) := by
      rw [← hch, hc]
      simp
    obtain ⟨hn, he⟩ := not_or.1 hn
    refine ⟨by simpa using hn, ?_⟩
    rw [hvalue, ← not_not.1 he, Function.update_eq_self]
  · refine (hch.1 hc).imp id fun hne => ?_
    rw [hkey]
    exact lt_of_le_of_ne (h.growing key hk) hne

/-- What a way to ask for a key has to do within a round, when so many keys may still be new. -/
def Answers (S : Solution sys) (n : Nat) (ask : Nat → SolveM σ ν ν) : Prop :=
  ∀ key ∈ S.keys, ∀ s m, S.good s → S.Approximates m → S.room m < n →
    ∃ v s' m', ask key (s, m) = .ok (v, (s', m')) ∧ S.good s' ∧ S.Approximates m' ∧
      S.Progress m m' ∧ (key ∈ m'.visited ∨ key ∈ m'.settled)

/-- Computing a key that is new in the round asks for what its equation reads, and leaves the key
with the value of its equation. -/
theorem compute_ok {n : Nat} {ask : Nat → SolveM σ ν ν} (ha : S.Answers n ask) {key : Nat}
    (hk : key ∈ S.keys) {s : σ} {m : Memo ν} (hg : S.good s) (h : S.Approximates m)
    (hs : key ∉ m.settled) (hv : key ∉ m.visited) (hr : S.room m ≤ n) :
    ∃ s' m', sys.compute ask key (s, m) = .ok (m'.value key, (s', m')) ∧ S.good s' ∧
      S.Approximates m' ∧ S.Progress m m' ∧ key ∈ m'.visited := by
  obtain ⟨s₁, he, hg₁⟩ := S.found key hk s hg
  obtain ⟨⟨s₂, m₂⟩, hf, ⟨hg₂, h₂, -⟩, hp, hd⟩ :=
    forM_ok (S.equation key).reads (fun r => discard (ask r))
      (fun t : σ × Memo ν => S.good t.1 ∧ S.Approximates t.2 ∧ S.room t.2 < n)
      (fun t t' => S.Progress t.2 t'.2) (fun r t => r ∈ t.2.visited ∨ r ∈ t.2.settled)
      (fun t => .refl t.2) (fun h h' => h.trans h')
      (fun hd hp => hd.imp (hp.visited _) fun h => hp.settled ▸ h)
      (by
        rintro r hr ⟨s, m⟩ ⟨hg, h, hlt⟩
        obtain ⟨v, s', m', hask, hg', h', hp, hd⟩ := ha r (S.reads_mem key hk r hr) s m hg h hlt
        exact ⟨(s', m'), run_discard hask, ⟨hg', h', hp.room_le.trans_lt hlt⟩, hp, hd⟩)
      (s₁, m.enter key) ⟨hg₁, h.enter hk, (room_enter_lt hk hv).trans_le hr⟩
  have hvis : key ∈ m₂.visited := hp.visited key (Memo.mem_visited_enter.2 (.inl rfl))
  have hdep : m₂.depth = m.depth + 1 := hp.depth
  have hse₂ : m₂.settled = m.settled := hp.settled
  -- only when everything has been asked for is the value of the key itself replaced
  obtain ⟨m₃, hl, h₃, hde, hse, hvi, hro, hkey, hle, hun, hch⟩ :=
    h₂.leave hk (by rwa [hse₂]) (by rw [hdep]; exact Nat.succ_ne_zero _) (h₂.present key hvis)
  refine ⟨s₂, m₃, ?_, hg₂, h₃, ?_, by rwa [hvi]⟩
  · rw [hkey, compute, run_bind (memo_run s m), run_bind (setMemo_run _ s m),
      run_bind (onState_run _ he), run_bind (evaluate_run hf), run_bind (memo_run s₂ m₂),
      run_bind (run_lift hl), run_bind (setMemo_run m₃ s₂ m₂)]
    rfl
  · refine ⟨?_, hse.trans hse₂, hro.trans hp.rounds, fun k hk' => ?_, fun k hk' hn r hr => ?_,
      fun k => ?_, fun hc => ?_, fun hc => ?_⟩
    · rw [hde, hdep]
      rfl
    · rw [hvi]
      exact hp.visited k (Memo.mem_visited_enter.2 (.inr hk'))
    · rw [hvi] at hk' ⊢
      rw [hse]
      by_cases e : k = key
      · exact hd r (e ▸ hr)
      · exact hp.reads k hk' (by simp [Memo.mem_visited_enter, e, hn]) r hr
    · have := hp.value_le k
      rw [Memo.value_enter] at this
      exact this.trans (hle k)
    · obtain ⟨hc₂, hv₂⟩ := hun hc
      obtain ⟨hc₁, hv₁, hn₁⟩ := hp.unchanged hc₂
      rw [Memo.value_enter] at hv₁
      refine ⟨hc₁, hv₂.trans hv₁, fun k hk' hn => ?_⟩
      rw [hvi] at hk'
      by_cases e : k = key
      · rw [e, hkey, hv₂]
      · rw [hv₂]
        exact hn₁ k hk' (by simp [Memo.mem_visited_enter, e, hn])
    · -- some value has risen: in what was asked for, or that of the key
      rcases hch hc with hc | hlt
      · refine (hp.changed hc).imp id fun ⟨k, hk', hlt⟩ => ⟨k, hk', ?_⟩
        rw [Memo.value_enter] at hlt
        exact hlt.trans_le (hle k)
      · refine .inr ⟨key, hk, ?_⟩
        have := hp.value_le key
        rw [Memo.value_enter] at this
        exact this.trans_lt hlt

/-- Every key on the way is new when it is computed, so the nesting is bounded by the keys that are
left. -/
theorem visit_answers (n : Nat) : S.Answers n (sys.visit n) := by
  induction n with
  | zero => exact fun _ _ _ _ _ _ h => absurd h (Nat.not_lt_zero _)
  | succ n ih =>
    intro key hk s m hg h hlt
    -- a key that is met again is answered from the table, also while it is being computed
    by_cases hkn : key ∈ m.settled ∨ key ∈ m.visited
    · refine ⟨m.value key, s, m, ?_, hg, h, .refl m, hkn.symm⟩
      rw [visit, run_bind (memo_run s m), Memo.lookup_of_known hkn]
      rfl
    · obtain ⟨hs, hv⟩ := not_or.1 hkn
      obtain ⟨s', m', hc, hg', h', hp, hv'⟩ :=
        compute_ok ih hk hg h hs hv (Nat.le_of_lt_succ hlt)
      refine ⟨m'.value key, s', m', ?_, hg', h', hp, .inl hv'⟩
      rw [visit, run_bind (memo_run s m), Memo.lookup_of_unknown hs hv]
      exact hc

/-- A round either settles its key with the least solution, or raises some value. -/
theorem round_ok {key : Nat} (hk : key ∈ S.keys) {s : σ} {m : Memo ν} (hg : S.good s)
    (hi : S.Idle m) (hs : key ∉ m.settled) :
    ∃ stable v s' m', sys.round key (s, m) = .ok ((stable, v), (s', m')) ∧ S.good s' ∧ S.Idle m' ∧
      (stable = true → v = S.value key ∧ m'.value = m.value ∧ key ∈ m'.settled ∧
        ∀ k ∈ m.settled, k ∈ m'.settled) ∧
      (stable = false → m'.settled = m.settled ∧ (∀ k, m.value k ≤ m'.value k) ∧
        ∃ k ∈ S.keys, m.value k < m'.value k) := by
  obtain ⟨s₁, m₁, hc, hg₁, h₁, hp, hv⟩ :=
    compute_ok (visit_answers sys.depth) hk hg hi.toApproximates hs (hi.visited key)
      (show S.room m ≤ sys.depth from (Finset.card_filter_le _ _).trans S.depth.le)
  have hd : m₁.depth = 0 := hp.depth.trans hi.depth
  have hrun : ∀ stable m', m₁.settle = .ok (stable, m') →
      sys.round key (s, m) = .ok ((stable, m₁.value key), (s₁, m')) := fun stable m' hst => by
    rw [round, run_bind hc, run_bind (memo_run s₁ m₁), run_bind (run_lift hst)]
    exact run_bind (setMemo_run m' s₁ m₁)
  cases hch : m₁.changed with
  | true =>
    refine ⟨false, _, s₁, _, hrun _ _ (by simp [Memo.settle, hd, hch]), hg₁,
      h₁.nextRound hd (m₁.rounds + 1), by simp, fun _ => ⟨hp.settled, hp.value_le, ?_⟩⟩
    exact (hp.changed hch).resolve_left (by simp [hi.changed])
  | false =>
    have hmem : ∀ k, k ∈ m₁.settled.insertMany m₁.visited.toList ↔
        k ∈ m₁.visited ∨ k ∈ m₁.settled := fun k => by simp [or_comm]
    refine ⟨true, _, s₁, _, hrun _ _ (by simp [Memo.settle, hd, hch]), hg₁,
      hp.settle hi h₁ hch hmem (m₁.rounds + 1), fun _ => ⟨?_, ?_, ?_, fun k hk => ?_⟩, by simp⟩
    · exact hp.stable hi h₁ hch key (.inl hv)
    · exact (hp.unchanged hch).2.1
    · exact (hmem key).2 (.inl hv)
    · exact (hmem k).2 (.inr (by rwa [hp.settled]))

/-- As long as a key is not settled its rounds go on, each with less left to raise. -/
theorem rounds_ok {key : Nat} (hk : key ∈ S.keys) {s : σ} {m : Memo ν} (hg : S.good s)
    (hi : S.Idle m) (hs : key ∉ m.settled) :
    ∃ n s' m', n ≤ S.slack m + 1 ∧ sys.Rounds key n (s, m) (S.value key) (s', m') ∧ S.good s' ∧
      S.Idle m' ∧ key ∈ m'.settled ∧ ∀ k ∈ m.settled, k ∈ m'.settled := by
  -- each round that is not the last takes away slack
  induction hl : S.slack m using Nat.strongRecOn generalizing s m with
  | ind l ih =>
    obtain ⟨stable, v, s₁, m₁, hr, hg₁, hi₁, hlast, hnext⟩ := round_ok hk hg hi hs
    cases stable with
    | true =>
      obtain ⟨rfl, hv, hk₁, hkept⟩ := hlast rfl
      exact ⟨1, s₁, m₁, by omega, .last hr hv, hg₁, hi₁, hk₁, hkept⟩
    | false =>
      obtain ⟨hset, hle, hlt⟩ := hnext rfl
      have hless := slack_lt hi₁.toApproximates hle hlt
      obtain ⟨n, s₂, m₂, hn, hrs, hg₂, hi₂, hk₂, hkept⟩ :=
        ih (S.slack m₁) (by omega) hg₁ hi₁ (by rwa [hset]) rfl
      obtain ⟨k, -, hlt⟩ := hlt
      exact ⟨n + 1, s₂, m₂, by omega, .next hr hle ⟨k, hlt⟩ hrs, hg₂, hi₂, hk₂, by rwa [hset] at hkept⟩

/-- Solving for a key answers with the least solution, whatever has been asked before. -/
theorem solve_ok {key : Nat} (hk : key ∈ S.keys) {s : σ} {m : Memo ν} (hg : S.good s)
    (hi : S.Idle m) :
    ∃ s' m', sys.solve key (s, m) = .ok (S.value key, (s', m')) ∧ S.good s' ∧ S.Idle m' ∧
      key ∈ m'.settled ∧ sys.Computations (s, m) (s', m') := by
  by_cases hs : key ∈ m.settled
  · exact ⟨s, m, hi.settled_value key hs ▸ sys.solve_of_settled hs, hg, hi, hs, .refl⟩
  · obtain ⟨n, s', m', hn, hr, hg', hi', hk', hkept⟩ := rounds_ok hk hg hi hs
    have hbound : S.slack m + 1 ≤ sys.rounds := (slack_le m).trans_lt S.rounds
    have hv := hi'.settled_value key hk'
    have hset : sys.Settles key n (s, m) (s', m') := by
      refine ⟨hs, by rwa [hv], hn.trans hbound, hk', fun k hk => ⟨hkept k hk, ?_⟩⟩
      rw [hi.settled_value k hk, hi'.settled_value k (hkept k hk)]
    exact ⟨s', m', hv ▸ hset.solve (hi.visited key), hg', hi', hk', .single ⟨key, n, hset⟩⟩

theorem solveIn_ok (S : Solution sys) (eq : Equation ν) (hr : ∀ r ∈ eq.reads, r ∈ S.keys)
    (hc : ∀ f f' : Nat → ν, (∀ r ∈ eq.reads, f r = f' r) → eq.value f = eq.value f') {s : σ}
    {m : Memo ν} (hg : S.good s) (hi : S.Idle m) :
    ∃ s' m', sys.solveIn eq (s, m) = .ok (eq.value S.value, (s', m')) ∧ S.good s' ∧ S.Idle m' ∧
      sys.Computations (s, m) (s', m') := by
  obtain ⟨⟨s', m'⟩, hf, ⟨hg', hi'⟩, hm, hd⟩ :=
    forM_ok eq.reads (fun r => discard (sys.solve r)) (fun t : σ × Memo ν => S.good t.1 ∧ S.Idle t.2)
      sys.Computations (fun r t => r ∈ t.2.settled) (fun _ => .refl) (fun h h' => h.trans h')
      (fun hd hm => (hm.kept _ hd).1)
      (by
        rintro r hr' ⟨s, m⟩ ⟨hg, hi⟩
        obtain ⟨s', m', hs, hg', hi', hd, hm⟩ := solve_ok (hr r hr') hg hi
        exact ⟨(s', m'), run_discard hs, ⟨hg', hi'⟩, hm, hd⟩)
      (s, m) ⟨hg, hi⟩
  refine ⟨s', m', ?_, hg', hi', hm⟩
  rw [hc S.value m'.value fun r hr => (hi'.settled_value r (hd r hr)).symm]
  exact evaluate_run hf

end Solution

end System

end TokenGrammar
