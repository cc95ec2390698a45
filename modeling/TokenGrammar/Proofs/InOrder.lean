import TokenGrammar.Proofs.Entering
import TokenGrammar.Proofs.UnorderedSteps

/-!
# The step in order

The recognizer makes its steps in one order: all arrivals are collected first, the rules entered get
their contexts in ascending order, and entries, callbacks and rules are taken in ascending order. It
finds out what every other order finds out.
-/

namespace TokenGrammar

namespace Building

variable {s : ContextStore} {e : Entering} {set : ContextSet} {r c : Nat}

theorem make (hf : s.frozen = s.size) (hs : s.AllFull)
    (hclosed : ∀ {c k i : Nat}, s.Resumes c k i → i < s.size) {rules : List Nat}
    (hn : rules.Nodup) : Building s (Entering.make s rules) ∧
      ∀ x, (Entering.make s rules).Tells s.size x ↔ ∃ r ∈ rules, x = .entered r := by
  induction rules using List.reverseRecOn with
  | nil =>
    obtain ⟨hbegin, hnone⟩ := Passing.begin hf hs hclosed
    refine ⟨hbegin.toBuilding, fun x => ?_⟩
    cases x <;> simp [Entering.make, Entering.Tells]
  | append_singleton rules r ih =>
    obtain ⟨hb, hv⟩ := ih (List.nodup_append.1 hn).1
    have hr : r ∉ (Entering.make s rules).contexts := by
      intro hr
      obtain ⟨r', hr', he⟩ := (hv (.entered r)).1 hr
      cases he
      exact (List.nodup_append.1 hn).2.2 r hr' r (by simp) rfl
    have hmake : Entering.make s (rules ++ [r]) = ⟨(Entering.make s rules).store.alloc.2,
        (Entering.make s rules).contexts.insert r (Entering.make s rules).store.size⟩ := by
      simp [Entering.make, ContextStore.alloc]
    obtain ⟨hb', hv'⟩ := hb.open_new (Std.ExtTreeMap.getElem?_eq_none hr) hmake
    refine ⟨hb', fun x => ?_⟩
    rw [hv', hv]
    simp [or_and_right, exists_or]

theorem contextOf_of_entered (hr : e.contexts[r]? = some c) : Pass.contextOf e r = (c, e) := by
  rw [Pass.contextOf, hr]

/-- Once the rules are entered, registering in order is registering in any order. -/
theorem register_eq {entry : CallEntry} (hi : entry.invoke ∈ e.contexts)
    (hr : ∀ r, entry.context = some r → r ∈ e.contexts) :
    Entering.register set e entry = Pass.register set e entry := by
  obtain ⟨context, cont, invoke⟩ := entry
  obtain ⟨target, htarget⟩ := mem_contexts_iff.1 hi
  rw [Entering.register, Pass.register, ok_bind (inRange_ok htarget)]
  simp only [contextOf_of_entered htarget]
  cases context with
  | none => rfl
  | some r =>
    obtain ⟨source, hsource⟩ := mem_contexts_iff.1 (hr r rfl)
    simp only [contextOf_of_entered hsource]
    rw [ok_bind (inRange_ok hsource)]

theorem inheritInOrder_ok (h : Building s e) (hset : ∃ i, i ∈ set) (hlt : ∀ i ∈ set, i < s.size)
    (hclosed : ∀ {c k i : Nat}, s.Resumes c k i → i < s.size) {b : Nat} (hb : b ∈ e.contexts) :
    ∃ e', Entering.inherit set e b = .ok e' ∧ Grows s e e' ∧
      ∀ x, e'.Tells s.size x ↔ e.Tells s.size x ∨ ∃ i ∈ set, s.Hands i b x := by
  obtain ⟨target, htarget⟩ := mem_contexts_iff.1 hb
  have hr := h.range htarget
  have hstep : ∀ i ∈ set.toList, ∀ store, e.store.Extends store →
      ∃ store', ContextStore.merge store target i = .ok store' ∧ e.store.Extends store' ∧
        ∀ x : Nat × Nat × Nat, store'.Resumes x.1 x.2.1 x.2.2 ↔
          store.Resumes x.1 x.2.1 x.2.2 ∨ x.1 = target ∧ s.Resumes i x.2.1 x.2.2 := by
    intro i hi store hx
    have hfrozen : store.frozen = s.size := hx.frozen.trans h.frozen
    obtain ⟨store', hm, hx', hv'⟩ := store.merge_ok hx.full (hfrozen ▸ hr.1) (hx.size ▸ hr.2)
      (hfrozen ▸ hlt i hi)
    refine ⟨store', hm, hx.trans hx', fun x => ?_⟩
    rw [hv', h.resumes_iff hx (hlt i hi)]
  obtain ⟨store, hrun, hx, hres⟩ := foldlM_ok e.store.Extends _ _ hstep e.store (.refl h.full)
  have hv : ∀ x, e.Tells s.size x ↔ e.Tells s.size x ∨ x = .entered b := by
    refine fun x => (or_iff_left_of_imp ?_).symm
    rintro rfl
    exact hb
  refine ⟨⟨store, e.contexts⟩, ?_, handed hset hclosed h.grows htarget hv hx hres⟩
  rw [Entering.inherit, ok_bind (inRange_ok htarget)]
  exact ok_bind hrun

theorem enterInOrder_ok {t : Tables} (h : Building s e) {q : Nat} (hset : ∃ i, i ∈ set)
    (hlt : ∀ i ∈ set, i < s.size) (hclosed : ∀ {c k i : Nat}, s.Resumes c k i → i < s.size)
    {row : Row} (hrow : t.row q = .ok row) (hentered : ∀ r ∈ row.entered, r ∈ e.contexts) :
    ∃ e', Entering.enter t e (q, set) = .ok e' ∧ Grows s e e' ∧
      ∀ x, e'.Tells s.size x ↔ e.Tells s.size x ∨ ∃ i ∈ set, row.Calls s i x := by
  have hregister : ∀ c ∈ row.entries, ∀ e', Grows s e e' →
      ∃ e'', Entering.register set e' c = .ok e'' ∧ Grows s e e'' ∧
        ∀ x, e''.Tells s.size x ↔ e'.Tells s.size x ∨ ∃ i ∈ set, c.Registers i x := by
    intro c hc e' hg
    obtain ⟨e'', hrun, hg', hv'⟩ := hg.register_ok hset hlt c
    rw [← register_eq (hg.mem (hentered _ (Grammar.mem_entered_iff.2 (.inl ⟨c, hc, .inl rfl⟩))))
      fun r hr => hg.mem (hentered r (Grammar.mem_entered_iff.2 (.inl ⟨c, hc, .inr hr⟩)))] at hrun
    exact ⟨e'', hrun, hg.trans hg', hv'⟩
  have hinherit : row.inTail = true → ∀ b ∈ row.children, ∀ e', Grows s e e' →
      ∃ e'', Entering.inherit set e' b = .ok e'' ∧ Grows s e e'' ∧
        ∀ x, e''.Tells s.size x ↔ e'.Tells s.size x ∨ ∃ i ∈ set, s.Hands i b x := by
    intro htail b hb e' hg
    have hmem := hg.mem (hentered b (Grammar.mem_entered_iff.2 (.inr ⟨htail, hb⟩)))
    obtain ⟨e'', hrun, hg', hv'⟩ := hg.inheritInOrder_ok hset hlt hclosed hmem
    exact ⟨e'', hrun, hg.trans hg', hv'⟩
  obtain ⟨e₁, hr₁, hg₁, hv₁⟩ :=
    foldlM_ok (Grows s e) (Entering.Tells s.size) _ hregister e h.grows
  rw [Entering.enter, ok_bind hrow, ok_bind hr₁]
  by_cases htail : row.inTail = true
  · obtain ⟨e₂, hr₂, hg₂, hv₂⟩ :=
      foldlM_ok (Grows s e) (Entering.Tells s.size) _ (hinherit htail) e₁ hg₁
    refine ⟨e₂, by rw [if_pos htail]; exact hr₂, hg₂, fun x => ?_⟩
    rw [hv₂, hv₁, row.calls_iff, or_assoc]
    simp [htail]
  · refine ⟨e₁, by rw [if_neg htail]; rfl, hg₁, fun x => ?_⟩
    rw [hv₁, row.calls_iff]
    simp [htail]

end Building

namespace Tables

variable {t : Tables} {s : ContextStore} {f : Frontier} {token : Token} {arr : Nat → Nat → Prop}

theorem matching_eq {entries : List (Nat × ContextSet)}
    (h : ∀ e ∈ entries, ∃ b, t.accepts e.1 token = .ok b) :
    Frontier.matching t token entries = .ok (entries.filter fun e => t.takes token e.1) := by
  induction entries with
  | nil => rfl
  | cons e entries ih =>
    obtain ⟨b, hb⟩ := h e List.mem_cons_self
    have htakes : t.takes token e.1 = b := by rw [takes, hb]
    rw [Frontier.matching, ok_bind (ih fun e' he' => h e' (List.mem_cons_of_mem _ he')),
      ok_bind hb, List.filter_cons, htakes]
    rfl

def callsAt (t : Tables) (pos : Nat) : Bool :=
  match t.row pos with
  | .ok row => row.isCall
  | .error _ => false

theorem callsAt_eq {q : Nat} {row : Row} (h : t.row q = .ok row) : t.callsAt q = row.isCall := by
  rw [callsAt, h]

theorem split_eq {entries : List (Nat × ContextSet)}
    (h : ∀ e ∈ entries, ∃ row, t.row e.1 = .ok row) : Frontier.split t entries =
      .ok (entries.filter fun e => !t.callsAt e.1, entries.filter fun e => t.callsAt e.1) := by
  induction entries with
  | nil => rfl
  | cons e entries ih =>
    obtain ⟨row, hrow⟩ := h e List.mem_cons_self
    rw [Frontier.split, ok_bind (ih fun e' he' => h e' (List.mem_cons_of_mem _ he'))]
    show (t.row e.1 >>= fun row => _) = _
    rw [ok_bind hrow]
    cases hcall : row.isCall <;> simp [callsAt_eq hrow, hcall] <;> rfl

theorem brings_entered_iff {q i r : Nat} : t.Brings s q i (.entered r) ↔
    ∃ row, t.row q = .ok row ∧ row.isCall = true ∧ r ∈ row.entered := by
  have hregisters : ∀ c : CallEntry,
      c.Registers i (.entered r) ↔ r = c.invoke ∨ c.context = some r := by
    rintro ⟨context, cont, invoke⟩
    cases context <;> simp [CallEntry.Registers, eq_comm]
  refine exists_congr fun row => and_congr_right fun _ => ?_
  cases row.isCall with
  | false => simp
  | true =>
    simp only [if_true, true_and, Row.Calls, hregisters, Grammar.mem_entered_iff]
    simp [ContextStore.Hands]

/-- All arrivals have been collected, and they can be dealt with. -/
structure Collected (t : Tables) (s : ContextStore) (arr : Nat → Nat → Prop) (arrived : Frontier) :
    Prop extends t.Opening s arr where
  fullArrived : Full arrived
  holds : ∀ q i, Holds arrived q i ↔ arr q i

namespace Collected

variable {arrived : Frontier} (h : t.Collected s arr arrived) {c : Nat × ContextSet} {q i : Nat}
include h

theorem arr_of_mem (hc : c ∈ arrived.toList) (hi : i ∈ c.2) : arr c.1 i :=
  (h.holds _ _).1 (holds_of_mem_toList hc hi)

theorem inhabited (hc : c ∈ arrived.toList) : ∃ i, i ∈ c.2 :=
  h.fullArrived c.1 c.2 (Std.ExtTreeMap.mem_toList_iff_getElem?_eq_some.1 hc)

theorem row_of_mem (hc : c ∈ arrived.toList) : ∃ row, t.row c.1 = .ok row := by
  obtain ⟨i, hi⟩ := h.inhabited hc
  exact h.row (h.arr_of_mem hc hi)

theorem exists_mem (hi : arr q i) : ∃ set, (q, set) ∈ arrived.toList ∧ i ∈ set :=
  exists_mem_toList.2 ((h.holds q i).2 hi)

theorem make_ok (rows : List Row) {rules : List Nat}
    (hrules : rules = ((∅ : NatSet).insertMany (rows.flatMap Row.entered)).toList) :
    Building s (Entering.make s rules) ∧ ∀ x, (Entering.make s rules).Tells s.size x ↔
      ∃ row ∈ rows, ∃ r ∈ row.entered, x = .entered r := by
  have hmem : ∀ r, r ∈ rules ↔ ∃ row ∈ rows, r ∈ row.entered := by
    intro r
    rw [hrules, Std.ExtTreeSet.mem_toList, Std.ExtTreeSet.mem_insertMany_list]
    simp
  have hn : rules.Nodup := by
    rw [hrules]
    exact Std.ExtTreeSet.ordered_toList.imp fun h => Nat.ne_of_lt (Nat.compare_eq_lt.1 h)
  obtain ⟨hb, hv⟩ := Building.make h.frozen h.full h.closed hn
  refine ⟨hb, fun x => (hv x).trans ?_⟩
  simp only [hmem]
  constructor
  · rintro ⟨r, ⟨row, hrow, hr⟩, rfl⟩
    exact ⟨row, hrow, r, hr, rfl⟩
  · rintro ⟨row, hrow, r, hr, rfl⟩
    exact ⟨r, ⟨row, hrow, hr⟩, rfl⟩

theorem enterAll_ok {calls : List (Nat × ContextSet)}
    (hcalls : calls = arrived.toList.filter fun c => t.callsAt c.1) :
    ∃ rows e, calls.mapM (fun c => t.row c.1) = .ok rows ∧
      calls.foldlM (Entering.enter t) (Entering.make s
        ((∅ : NatSet).insertMany (rows.flatMap Row.entered)).toList) = .ok e ∧
      Building s e ∧ ∀ x, e.Tells s.size x ↔
        ∃ q i, (arr q i ∧ t.callsAt q = true) ∧ t.Brings s q i x := by
  have hmem : ∀ c, c ∈ calls ↔ c ∈ arrived.toList ∧ t.callsAt c.1 = true := by
    intro c
    rw [hcalls, List.mem_filter]
  obtain ⟨rows, hrows, hmemrows⟩ := mapM_ok fun c hc => h.row_of_mem ((hmem c).1 hc).1
  obtain ⟨hmake, hmakev⟩ := h.make_ok rows rfl
  refine ⟨rows, ?_⟩
  generalize Entering.make s ((∅ : NatSet).insertMany (rows.flatMap Row.entered)).toList = e₀ at *
  have hstep : ∀ c ∈ calls, ∀ e, Grows s e₀ e → ∃ e', Entering.enter t e c = .ok e' ∧
      Grows s e₀ e' ∧ ∀ x, e'.Tells s.size x ↔
        e.Tells s.size x ∨ ∃ i ∈ c.2, t.Brings s c.1 i x := by
    intro c hc e hg
    obtain ⟨hca, hcall⟩ := (hmem c).1 hc
    obtain ⟨row, hrow⟩ := h.row_of_mem hca
    rw [callsAt_eq hrow] at hcall
    have hentered : ∀ r ∈ row.entered, r ∈ e.contexts := fun r hr =>
      hg.mem ((hmakev (.entered r)).2 ⟨row, (hmemrows row).2 ⟨c, hc, hrow⟩, r, hr, rfl⟩)
    obtain ⟨e', hrun, hg', hv'⟩ := hg.enterInOrder_ok (h.inhabited hca)
      (fun i hi => h.lt (h.arr_of_mem hca hi)) h.closed hrow hentered
    refine ⟨e', hrun, hg.trans hg', fun x => (hv' x).trans ?_⟩
    simp only [brings_iff hrow, if_pos hcall]
  obtain ⟨e, hrun, hg, hv⟩ :=
    foldlM_ok (Grows s e₀) (Entering.Tells s.size) _ hstep e₀ hmake.grows
  refine ⟨e, hrows, hrun, hg.toBuilding, fun x => ?_⟩
  rw [hv, hmakev]
  constructor
  · rintro (⟨row, hrow, r, hr, rfl⟩ | ⟨c, hc, i, hi, hx⟩)
    · obtain ⟨c, hc, hrow⟩ := (hmemrows row).1 hrow
      obtain ⟨hca, hcall⟩ := (hmem c).1 hc
      obtain ⟨i, hi⟩ := h.inhabited hca
      exact ⟨c.1, i, ⟨h.arr_of_mem hca hi, hcall⟩,
        brings_entered_iff.2 ⟨row, hrow, (callsAt_eq hrow).symm.trans hcall, hr⟩⟩
    · obtain ⟨hca, hcall⟩ := (hmem c).1 hc
      exact ⟨c.1, i, ⟨h.arr_of_mem hca hi, hcall⟩, hx⟩
  · rintro ⟨q, i, ⟨hi, hcall⟩, hx⟩
    obtain ⟨set, hset, his⟩ := h.exists_mem hi
    exact .inr ⟨(q, set), (hmem _).2 ⟨hset, hcall⟩, i, his, hx⟩

theorem placeAll_ok {here : Frontier}
    (hhere : here = (arrived.toList.filter fun c => !t.callsAt c.1).foldl
      (fun f (pos, set) => Frontier.add f pos set) ∅) :
    Full here ∧ ∀ q i, Holds here q i ↔ arr q i ∧ t.callsAt q = false := by
  have hmem : ∀ c, (c ∈ arrived.toList.filter fun c => !t.callsAt c.1) ↔
      c ∈ arrived.toList ∧ t.callsAt c.1 = false := by
    intro c
    simp
  obtain ⟨hf, hv⟩ := foldl_ok Full (fun f (x : Nat × Nat) => Holds f x.1 x.2)
    (fun (e : Nat × ContextSet) x => x.1 = e.1 ∧ x.2 ∈ e.2)
    (fun c hc f hf => holds_frontier_add (h.inhabited ((hmem c).1 hc).1) hf) ∅ full_empty
  subst hhere
  refine ⟨hf, fun q i => (hv (q, i)).trans ?_⟩
  simp only [not_holds_empty, false_or, hmem]
  constructor
  · rintro ⟨c, ⟨hc, hcall⟩, rfl, hi⟩
    exact ⟨h.arr_of_mem hc hi, hcall⟩
  · rintro ⟨hi, hcall⟩
    obtain ⟨set, hset, his⟩ := h.exists_mem hi
    exact ⟨(q, set), ⟨hset, hcall⟩, rfl, his⟩

/-- Once the calls have been entered and the terminals have been placed, all that the arrivals bring
has been found out. -/
theorem found {e : Entering} (hb : Building s e) (hv : ∀ x, e.Tells s.size x ↔
      ∃ q i, (arr q i ∧ t.callsAt q = true) ∧ t.Brings s q i x) {here : Frontier}
    (hf : Full here) (hhere : ∀ q i, Holds here q i ↔ arr q i ∧ t.callsAt q = false) (n : Nat) :
    Passing s n ⟨e, here, n⟩ ∧ ∀ x, (⟨e, here, n⟩ : Pass).Tells s.size x ↔
      ∃ q i, arr q i ∧ t.Brings s q i x := by
  have hempty : Passing s n ⟨e, ∅, n⟩ :=
    ⟨hb, full_empty, fun h => absurd h not_holds_empty, rfl⟩
  have hentering : ∀ x, (⟨e, ∅, n⟩ : Pass).Tells s.size x ↔ e.Tells s.size x := by
    intro x
    cases x <;> simp [Pass.Tells, Entering.Tells]
  have hlt : ∀ q i, Holds here q i → i < s.size := fun q i hi => h.lt ((hhere q i).1 hi).1
  obtain ⟨hp, hw⟩ := hempty.place hf (P := Holds here)
    (fun q i hi => Nat.lt_of_lt_of_le (hlt q i hi) hb.size) (by simp)
  refine ⟨hp, fun x => ?_⟩
  rw [hw, hentering, hv]
  constructor
  · rintro (⟨q, i, ⟨hi, -⟩, hx⟩ | ⟨q, i, l, hi, hl, rfl⟩)
    · exact ⟨q, i, hi, hx⟩
    · have hold : (Label.old i).Names e.contexts s.size i := ⟨rfl, hlt q i hi⟩
      obtain ⟨hi, hcall⟩ := (hhere q i).1 hi
      obtain ⟨row, hrow⟩ := h.row hi
      refine ⟨q, i, hi, (brings_iff hrow).2 ?_⟩
      rw [if_neg (by simp [← callsAt_eq hrow, hcall]), hb.names_unique hl hold]
  · rintro ⟨q, i, hi, hx⟩
    cases hcall : t.callsAt q with
    | true => exact .inl ⟨q, i, ⟨hi, hcall⟩, hx⟩
    | false =>
      obtain ⟨row, hrow⟩ := h.row hi
      rw [brings_iff hrow, if_neg (by simp [← callsAt_eq hrow, hcall])] at hx
      exact .inr ⟨q, i, .old i, (hhere q i).2 ⟨hi, hcall⟩, ⟨rfl, h.lt hi⟩, hx⟩

/-- From arrivals that have been collected the recognizer lands where it has to. -/
theorem ofArrivals_ok : ∃ f' s', Frontier.ofArrivals t s arrived = .ok (f', s') ∧
    ∀ n, t.Lands s arr n ⟨f', s', n⟩ := by
  obtain ⟨rows, e, hrows, henter, hb, hv⟩ := h.enterAll_ok rfl
  obtain ⟨hf, hhere⟩ := h.placeAll_ok rfl
  have hall := h.found hb hv hf hhere
  have hstep : ∀ c ∈ e.contexts.toList, ∀ f, Full f →
      ∃ f', (do return Frontier.addAll f (← t.firstsOfRule c.1) (.single c.2) :
          Except Failure _) = .ok f' ∧ Full f' ∧ ∀ x : Nat × Nat, Holds f' x.1 x.2 ↔
        Holds f x.1 x.2 ∨ ∃ ps, t.firstsOfRule c.1 = .ok ps ∧ x.1 ∈ ps ∧ x.2 = c.2 := by
    intro c hc f hf
    obtain ⟨ps, hps, hf'⟩ := Passing.seed_rule (hall 0).2 h.toOpening hc hf
    exact ⟨_, ok_bind hps, hf'⟩
  obtain ⟨f', hseed, hf', hholds⟩ :=
    foldlM_ok Full (fun f (x : Nat × Nat) => Holds f x.1 x.2) _ hstep _ hf
  refine ⟨f', e.store.freeze, ?_, fun n => (hall n).1.lands (hall n).2 hf' hholds⟩
  rw [Frontier.ofArrivals, ok_bind (split_eq fun c hc => h.row_of_mem hc)]
  show (_ >>= fun rows => _) = _
  rw [ok_bind hrows]
  exact (ok_bind henter).trans (ok_bind hseed)

end Collected

end Tables

end TokenGrammar
