import TokenGrammar.Proofs.AnyOrder

/-!
# Where a step leads

The arrivals of a step, and with them all that the step finds out, are determined by the frontier,
the frozen contexts and the token. A step in any order finds that out. It cannot fail, as long as
the tables have the rows and the answers that it asks for.
-/

namespace TokenGrammar

open Outcomes

namespace Tables

variable {t : Tables} {s : ContextStore} {arr : Nat → Nat → Prop} {n : Nat}

def takes (t : Tables) (token : Token) (pos : Nat) : Bool :=
  match t.accepts pos token with
  | .ok b => b
  | .error _ => false

def Enters (t : Tables) (s : ContextStore) (arr : Nat → Nat → Prop) (r : Nat) : Prop :=
  ∃ q i, arr q i ∧ t.Brings s q i (.entered r)

/-- Control stands where a rule that the arrivals enter may start. -/
def Starts (t : Tables) (s : ContextStore) (arr : Nat → Nat → Prop) (x : PassFact) : Prop :=
  ∃ r ps q, t.Enters s arr r ∧ t.firstsOfRule r = .ok ps ∧ q ∈ ps ∧ x = .stands q (.new r)

/-- All that is found out when control has arrived. -/
def Finds (t : Tables) (s : ContextStore) (arr : Nat → Nat → Prop) (x : PassFact) : Prop :=
  (∃ q i, arr q i ∧ t.Brings s q i x) ∨ t.Starts s arr x

/-- The step has found out all that there is to find out, after `n` entries have accepted. -/
def Lands (t : Tables) (s : ContextStore) (arr : Nat → Nat → Prop) (n : Nat) (a : Advance) : Prop :=
  ∃ p, Passing s n p ∧ (∀ x, p.Tells s.size x ↔ t.Finds s arr x) ∧
    a = ⟨p.terminals, p.store.freeze, p.matched⟩

end Tables

namespace Passing

variable {t : Tables} {s : ContextStore} {f : Frontier} {token : Token} {arr : Nat → Nat → Prop}
  {n : Nat} {p : Pass}

theorem count (h : Passing s n p) : Passing s (n + 1) { p with matched := p.matched + 1 } :=
  ⟨h.toBuilding, h.fullTerminals, h.located, congrArg (· + 1) h.counted⟩

theorem resume_ok (h : Passing s n p) (hr : t.Ready s f token) {e : Nat × ContextSet}
    (he : ∀ i ∈ e.2, Holds f e.1 i) (hb : t.accepts e.1 token = .ok true) (htail : t.Tail e.1) :
    Surely (do (← Pass.callbacks p.store e.2).foldlM (Pass.proceed t) p) fun p' =>
      Passing s n p' ∧ ∀ x, p'.Tells s.size x ↔ p.Tells s.size x ∨
        ∃ q j, (∃ i ∈ e.2, ∃ k, s.Resumes i k j ∧ t.After k q) ∧ t.Brings s q j x := by
  apply (h.callbacks_ok fun i hi => hr.stored (he i hi)).bind
  intro found hfound
  have hstep : ∀ c ∈ found, ∀ p', Passing s n p' → Surely (Pass.proceed t p' c) fun p'' =>
      Passing s n p'' ∧ ∀ x, p''.Tells s.size x ↔ p'.Tells s.size x ∨
        ∃ q, t.After c.1 q ∧ ∃ j ∈ c.2, t.Brings s q j x := by
    intro c hc p' hp'
    obtain ⟨i, hi, m, hm, hset⟩ := (hfound c).1 hc
    obtain ⟨j₀, hj₀⟩ := hr.full i m hm c.1 c.2 hset
    have hres : ∀ j ∈ c.2, s.Resumes i c.1 j := fun j hj => ⟨m, hm, c.2, hset, hj⟩
    apply hp'.proceed_ok hr.closed ⟨j₀, hj₀⟩
    · exact fun j hj => hr.closed (hres j hj)
    · exact hr.resumed (he i hi) hb htail (hres j₀ hj₀)
    · exact fun q hq => hr.row ⟨e.1, i, he i hi, hb, .inr ⟨htail, c.1, hres j₀ hj₀, hq⟩⟩
  apply (Surely.foldlM_view (Passing s n) (Pass.Tells s.size) _ hstep h).imp
  intro p' ⟨hp', hv⟩
  refine ⟨hp', fun x => (hv x).trans (or_congr_right ?_)⟩
  constructor
  · rintro ⟨c, hc, q, hq, j, hj, hx⟩
    obtain ⟨i, hi, m, hm, hset⟩ := (hfound c).1 hc
    exact ⟨q, j, ⟨i, hi, c.1, ⟨m, hm, c.2, hset, hj⟩, hq⟩, hx⟩
  · rintro ⟨q, j, ⟨i, hi, k, ⟨m, hm, set, hset, hj⟩, hq⟩, hx⟩
    exact ⟨(k, set), (hfound _).2 ⟨i, hi, m, hm, hset⟩, q, hq, j, hj, hx⟩

theorem follow_ok (h : Passing s n p) (hr : t.Ready s f token) {e : Nat × ContextSet}
    (he : e ∈ f.toList) :
    Surely (Pass.follow t token p e) fun p' =>
      Passing s (n + if t.takes token e.1 then 1 else 0) p' ∧ ∀ x, p'.Tells s.size x ↔
        p.Tells s.size x ∨
          ∃ q j, (∃ i ∈ e.2, t.Moves s token e.1 i q j) ∧ t.Brings s q j x := by
  have hholds : ∀ i ∈ e.2, Holds f e.1 i := fun i hi => holds_of_mem_toList he hi
  obtain ⟨i₀, hi₀⟩ :=
    hr.fullFrontier e.1 e.2 (Std.ExtTreeMap.mem_toList_iff_getElem?_eq_some.1 he)
  obtain ⟨b, hb⟩ := hr.answers (hholds i₀ hi₀)
  rw [Pass.follow]
  apply Surely.lift_bind hb
  cases b with
  | false =>
    have hno : ∀ i q j, ¬ t.Moves s token e.1 i q j := by simp [Tables.Moves, hb]
    exact .pure ⟨by simpa [Tables.takes, hb] using h, fun x => by simp [hno]⟩
  | true =>
    have htakes : (if t.takes token e.1 then 1 else 0) = 1 := by simp [Tables.takes, hb]
    have hmoves : ∀ i q j, t.Moves s token e.1 i q j ↔ j = i ∧ t.After e.1 q ∨
        t.Tail e.1 ∧ ∃ k, s.Resumes i k j ∧ t.After k q := by simp [Tables.Moves, hb]
    have hrow := hr.accepting (hholds i₀ hi₀) hb
    have hafter : ∀ q, t.After e.1 q → ∃ row, t.row q = .ok row :=
      fun q hq => hr.row ⟨e.1, i₀, hholds i₀ hi₀, hb, .inl ⟨rfl, hq⟩⟩
    rw [if_pos rfl, htakes]
    apply (h.count.proceed_ok hr.closed ⟨i₀, hi₀⟩ (fun i hi => hr.stored (hholds i hi)) hrow
      hafter).bind
    intro p₁ ⟨hp₁, hv₁⟩
    obtain ⟨row, hrow⟩ := hrow
    have htail : t.Tail e.1 ↔ row.inTail = true := by simp [Tables.Tail, hrow]
    apply Surely.lift_bind hrow
    by_cases hin : row.inTail = true
    · rw [if_pos hin]
      apply (hp₁.resume_ok hr hholds hb (htail.2 hin)).imp
      intro p₂ ⟨hp₂, hv₂⟩
      refine ⟨hp₂, fun x => ?_⟩
      rw [hv₂, hv₁, or_assoc]
      refine or_congr Iff.rfl ?_
      simp only [hmoves, htail.2 hin, true_and]
      constructor
      · rintro (⟨q, hq, i, hi, hx⟩ | ⟨q, j, ⟨i, hi, hk⟩, hx⟩)
        · exact ⟨q, i, ⟨i, hi, .inl ⟨rfl, hq⟩⟩, hx⟩
        · exact ⟨q, j, ⟨i, hi, .inr hk⟩, hx⟩
      · rintro ⟨q, j, ⟨i, hi, ⟨rfl, hq⟩ | hk⟩, hx⟩
        · exact .inl ⟨q, hq, j, hi, hx⟩
        · exact .inr ⟨q, j, ⟨i, hi, hk⟩, hx⟩
    · rw [if_neg hin]
      refine .pure ⟨hp₁, fun x => ?_⟩
      rw [hv₁]
      refine or_congr Iff.rfl ?_
      simp only [hmoves, mt htail.1 hin, false_and, or_false]
      constructor
      · rintro ⟨q, hq, i, hi, hx⟩
        exact ⟨q, i, ⟨i, hi, rfl, hq⟩, hx⟩
      · rintro ⟨q, j, ⟨i, hi, rfl, hq⟩, hx⟩
        exact ⟨q, hq, j, hi, hx⟩

private def Followed (t : Tables) (s : ContextStore) (token : Token)
    (entries : List (Nat × ContextSet)) (p : Pass) : Prop :=
  Passing s (entries.countP fun e => t.takes token e.1) p ∧ ∀ x, p.Tells s.size x ↔
    ∃ e ∈ entries, ∃ q j, (∃ i ∈ e.2, t.Moves s token e.1 i q j) ∧ t.Brings s q j x

/-- A pass over all entries, whatever their order, finds out what the arrivals bring. -/
theorem followAll_ok (hr : t.Ready s f token) {order : List (Nat × ContextSet)}
    (horder : order.Perm f.toList) :
    Surely (order.foldlM (Pass.follow t token) (.begin s)) fun p =>
      Passing s (f.toList.countP fun e => t.takes token e.1) p ∧ ∀ x, p.Tells s.size x ↔
        ∃ q j, t.Arrives s f token q j ∧ t.Brings s q j x := by
  obtain ⟨hbegin, hnone⟩ := Passing.begin hr.frozen hr.full hr.closed
  have hfold : Surely (order.foldlM (Pass.follow t token) (.begin s))
      (Followed t s token order) := by
    apply Surely.foldlM (Followed t s token)
    · intro before e he p ⟨hp, hv⟩
      apply (hp.follow_ok hr (horder.mem_iff.1 he)).imp
      intro p' ⟨hp', hv'⟩
      refine ⟨?_, fun x => ?_⟩
      · rw [List.countP_append, List.countP_singleton]
        exact hp'
      · rw [hv', hv]
        simp [or_and_right, exists_or]
    · exact ⟨hbegin, fun x => by simp [hnone x]⟩
  apply hfold.imp
  intro p ⟨hp, hv⟩
  rw [horder.countP_eq] at hp
  refine ⟨hp, fun x => (hv x).trans ?_⟩
  constructor
  · rintro ⟨e, he, q, j, ⟨i, hi, hm⟩, hx⟩
    exact ⟨q, j, ⟨e.1, i, holds_of_mem_toList (horder.mem_iff.1 he) hi, hm⟩, hx⟩
  · rintro ⟨q, j, ⟨k, i, hh, hm⟩, hx⟩
    obtain ⟨set, hset, hi⟩ := exists_mem_toList.2 hh
    exact ⟨(k, set), horder.mem_iff.2 hset, q, j, ⟨i, hi, hm⟩, hx⟩

theorem lands (h : Passing s n p)
    (hv : ∀ x, p.Tells s.size x ↔ ∃ q j, arr q j ∧ t.Brings s q j x) {f : Frontier} (hf : Full f)
    (hholds : ∀ x : Nat × Nat, Holds f x.1 x.2 ↔ Holds p.terminals x.1 x.2 ∨
      ∃ e ∈ p.contexts.toList, ∃ ps, t.firstsOfRule e.1 = .ok ps ∧ x.1 ∈ ps ∧ x.2 = e.2) :
    t.Lands s arr n ⟨f, p.store.freeze, p.matched⟩ := by
  have hentered : ∀ r, t.Enters s arr r ↔ ∃ i, p.contexts[r]? = some i := by
    intro r
    rw [Tables.Enters, ← hv]
    exact mem_contexts_iff
  obtain ⟨hp, hw⟩ := h.place hf (P := fun q i => ∃ r ps, p.contexts[r]? = some i ∧
      t.firstsOfRule r = .ok ps ∧ q ∈ ps) (fun q i ⟨r, _, hr, _⟩ => (h.range hr).2) (by
    intro q i
    rw [hholds (q, i)]
    refine or_congr_right ?_
    constructor
    · rintro ⟨e, he, ps, hps, hq, rfl⟩
      exact ⟨e.1, ps, Std.ExtTreeMap.mem_toList_iff_getElem?_eq_some.1 he, hps, hq⟩
    · rintro ⟨r, ps, hr, hps, hq⟩
      exact ⟨(r, i), Std.ExtTreeMap.mem_toList_iff_getElem?_eq_some.2 hr, ps, hps, hq, rfl⟩)
  refine ⟨_, hp, fun x => (hw x).trans (or_congr (hv x) ?_), rfl⟩
  constructor
  · rintro ⟨q, i, l, ⟨r, ps, hr, hps, hq⟩, hl, rfl⟩
    have hname : (Label.new r).Names p.contexts s.size i := hr
    rw [h.names_unique hl hname]
    exact ⟨r, ps, q, (hentered r).2 ⟨i, hr⟩, hps, hq, rfl⟩
  · rintro ⟨r, ps, q, hr, hps, hq, rfl⟩
    obtain ⟨i, hi⟩ := (hentered r).1 hr
    exact ⟨q, i, .new r, ⟨r, ps, hi, hps, hq⟩, hi, rfl⟩

theorem seed_rule (hv : ∀ x, p.Tells s.size x ↔ ∃ q j, arr q j ∧ t.Brings s q j x)
    (ho : t.Opening s arr) {e : Nat × Nat} (he : e ∈ p.contexts.toList) {f : Frontier}
    (hf : Full f) : ∃ ps, t.firstsOfRule e.1 = .ok ps ∧ Full (f.addAll ps (.single e.2)) ∧
      ∀ x : Nat × Nat, Holds (f.addAll ps (.single e.2)) x.1 x.2 ↔
        Holds f x.1 x.2 ∨ ∃ ps, t.firstsOfRule e.1 = .ok ps ∧ x.1 ∈ ps ∧ x.2 = e.2 := by
  have hentered : p.Tells s.size (.entered e.1) :=
    mem_contexts_iff.2 ⟨e.2, Std.ExtTreeMap.mem_toList_iff_getElem?_eq_some.1 he⟩
  obtain ⟨q, i, harr, hb⟩ := (hv _).1 hentered
  obtain ⟨ps, hps⟩ := ho.firsts harr hb
  obtain ⟨hf', hv'⟩ := holds_addAll ps ⟨e.2, AscSet.mem_single.2 rfl⟩ hf
  refine ⟨ps, hps, hf', fun x => ?_⟩
  rw [hv']
  simp [hps]

theorem finish_ok (h : Passing s n p) (ho : t.Opening s arr)
    (hv : ∀ x, p.Tells s.size x ↔ ∃ q j, arr q j ∧ t.Brings s q j x) :
    Surely (p.finish t) (t.Lands s arr n) := by
  rw [Pass.finish]
  apply (Surely.anyOrder p.contexts.toList).bind
  intro order horder
  have hfold : Surely (order.foldlM (fun f (e : Nat × Nat) => do
      return Frontier.addAll f (← t.firstsOfRule e.1) (.single e.2)) p.terminals) fun f =>
      Full f ∧ ∀ x : Nat × Nat, Holds f x.1 x.2 ↔ Holds p.terminals x.1 x.2 ∨
        ∃ e ∈ order, ∃ ps, t.firstsOfRule e.1 = .ok ps ∧ x.1 ∈ ps ∧ x.2 = e.2 := by
    apply Surely.foldlM_view Full (fun f (x : Nat × Nat) => Holds f x.1 x.2)
    · intro e he f hf
      obtain ⟨ps, hps, hf'⟩ := seed_rule hv ho (horder.mem_iff.1 he) hf
      exact .lift_bind hps (.pure hf')
    · exact h.fullTerminals
  apply hfold.bind
  intro f ⟨hf, hholds⟩
  simp only [horder.mem_iff] at hholds
  exact .pure (h.lands hv hf hholds)

end Passing

namespace Tables

variable {t : Tables} {s : ContextStore} {f : Frontier} {token : Token}

/-- A step in any order lands where it has to. -/
theorem Ready.advance_ok (hr : t.Ready s f token) :
    Surely (f.advanceUnordered t s token) (t.Lands s (t.Arrives s f token)
      (f.toList.countP fun e => t.takes token e.1)) := by
  rw [Frontier.advanceUnordered]
  apply (Surely.anyOrder f.toList).bind
  intro order horder
  apply (Passing.followAll_ok hr horder).bind
  intro p ⟨hp, hv⟩
  exact hp.finish_ok hr.toOpening hv

theorem Opening.acceptAll_ok {root : Nat} {qs : List Nat}
    (ho : t.Opening s fun q i => q ∈ qs ∧ i = root) :
    Surely (qs.foldlM (Pass.accept t (.single root)) (.begin s)) fun p => Passing s 0 p ∧
      ∀ x, p.Tells s.size x ↔ ∃ q i, (q ∈ qs ∧ i = root) ∧ t.Brings s q i x := by
  obtain ⟨hbegin, hnone⟩ := Passing.begin ho.frozen ho.full ho.closed
  have hset : ∃ i, i ∈ (AscSet.single root : ContextSet) := ⟨root, AscSet.mem_single.2 rfl⟩
  have hstep : ∀ q ∈ qs, ∀ p, Passing s 0 p → Surely (Pass.accept t (.single root) p q) fun p' =>
      Passing s 0 p' ∧ ∀ x, p'.Tells s.size x ↔ p.Tells s.size x ∨
        ∃ i ∈ (AscSet.single root : ContextSet), t.Brings s q i x := by
    intro q hq p hp
    apply hp.accept_ok ho.closed hset _ (ho.row ⟨hq, rfl⟩)
    intro i hi
    rw [AscSet.mem_single.1 hi]
    exact ho.lt ⟨hq, rfl⟩
  apply (Surely.foldlM_view (Passing s 0) (Pass.Tells s.size) _ hstep hbegin).imp
  intro p ⟨hp, hv⟩
  refine ⟨hp, fun x => ?_⟩
  simp [hv, hnone]

/-- The store that a recognizer starts with: the context of the root. -/
def seedStore : ContextStore := ContextStore.new.alloc.2.freeze

def Starting (t : Tables) : Prop := t.Opening seedStore fun q i => q ∈ t.rootFirsts ∧ i = 0

def started (t : Tables) (options : Options) (log : Log) (a : Advance) : Recognizer :=
  ⟨t, options, a.store, a.frontier, 0, none, ⟨0, 0, a.frontier.size, a.store.size, 0⟩, log⟩

/-- A recognizer that starts in any order lands where it has to. -/
theorem Starting.start_ok (ht : t.Starting) (options : Options) (log : Log) :
    Surely (Recognizer.startUnordered t options log) fun r =>
      ∃ a, t.Lands seedStore (fun q i => q ∈ t.rootFirsts ∧ i = 0) 0 a ∧
        r = t.started options log a := by
  rw [Recognizer.startUnordered]
  apply ht.acceptAll_ok.bind
  intro p ⟨hp, hv⟩
  apply (hp.finish_ok ht hv).bind
  intro a ha
  exact .pure ⟨a, ha, rfl⟩

end Tables

end TokenGrammar
