import TokenGrammar.Proofs.Entering
import TokenGrammar.Recognizer.Run

/-!
# One step of the recognizer

From arrivals that agree with what has been read, the recognizer makes a frontier and a store that
track it. Hence a step from a frontier that tracks what has been read leads to one that tracks what
has been read then, and the first frontier tracks the empty input.
-/

namespace TokenGrammar

/-- The contexts under construction once all calls that control has arrived at have been entered. -/
def Frontier.enterCalls (t : Tables) (store : ContextStore) (arrived : Frontier) :
    Except Failure Entering := do
  let (_, calls) ← split t arrived.toList
  let rows ← calls.mapM fun e => t.row e.1
  let rules := (∅ : NatSet).insertMany (rows.flatMap Row.entered)
  calls.foldlM (Entering.enter t) (Entering.make store rules.toList)

theorem Frontier.ofArrivals_eq (t : Tables) (store : ContextStore) (arrived : Frontier) :
    arrived.ofArrivals t store = (do
      let (terminals, _) ← split t arrived.toList
      let e ← arrived.enterCalls t store
      let here := terminals.foldl (fun f (pos, set) => add f pos set) ∅
      return (← Entering.seed t here e.contexts.toList, e.store.freeze)) := by
  rw [ofArrivals, enterCalls]
  cases hsplit : split t arrived.toList with
  | error f => rfl
  | ok p =>
    simp only [ok_bind rfl, bind_assoc]

namespace Grammar

variable {g : Grammar} {t : Tables} {u : List Token} {p q i j r a b : Nat} {x : Activation}
  {s : ContextStore} {arrived : Frontier}

/-- The arrivals, and the contexts that were there before. -/
structure Arrivals (g : Grammar) (u : List Token) (arrived : Frontier) (s : ContextStore) :
    Prop where
  store : g.Serves (g.enteredBefore u) s
  full : Full arrived
  holds : ∀ q i, Holds arrived q i ↔ ∃ x, (g.enteredBefore u)[i]? = some x ∧ g.Comes u x q

theorem Comes.at_of_call (hg : g.WellFormed) (h : g.Comes u x q) (hc : g.isCallAt q = true) :
    g.At x u q ∧ FromOutside x u := by
  rcases h with h | ⟨-, rfl, -⟩
  · exact h
  · rw [hg.isCallAt_endIndex] at hc
    cases hc

theorem Valid.row_of_comes (hg : g.Valid) (ht : t.Fits g) (h : g.Comes u x q) :
    ∃ row, t.row q = .ok row ∧ row.isCall = g.isCallAt q ∧
      (g.At x u q → row.Fits g x.top q) := by
  rcases h with h | ⟨-, rfl, -⟩
  · obtain ⟨row, hrow, hfit⟩ := hg.row_of_at ht h.1
    exact ⟨row, hrow, hfit.isCall, fun _ => hfit⟩
  · obtain ⟨row, hrow, hc⟩ := ht.endRow
    exact ⟨row, hrow, hc.trans hg.isCallAt_endIndex.symm, fun h => hg.fits_of_row ht h hrow⟩

private theorem split_ok {entries : List (Nat × ContextSet)}
    (h : ∀ e ∈ entries, ∃ row, t.row e.1 = .ok row ∧ row.isCall = g.isCallAt e.1) :
    Frontier.split t entries = .ok (entries.filter fun e => !g.isCallAt e.1,
      entries.filter fun e => g.isCallAt e.1) := by
  induction entries with
  | nil => rfl
  | cons e entries ih =>
    obtain ⟨row, hrow, hc⟩ := h e List.mem_cons_self
    rw [Frontier.split, ok_bind (ih fun e' he' => h e' (List.mem_cons_of_mem _ he'))]
    show (t.row e.1 >>= fun row => _) = _
    rw [ok_bind hrow, hc]
    cases hcall : g.isCallAt e.1 <;> simp [hcall] <;> rfl

namespace Arrivals

variable (ha : g.Arrivals u arrived s)
include ha

theorem comes_of_mem {e : Nat × ContextSet} (he : e ∈ arrived.toList) (hi : i ∈ e.2) :
    ∃ x, (g.enteredBefore u)[i]? = some x ∧ g.Comes u x e.1 :=
  (ha.holds e.1 i).1 (holds_of_mem_toList he hi)

theorem exists_mem {e : Nat × ContextSet} (he : e ∈ arrived.toList) : ∃ i, i ∈ e.2 :=
  ha.full e.1 e.2 (Std.ExtTreeMap.mem_toList_iff_getElem?_eq_some.1 he)

theorem mem_of_comes (hg : g.Valid) (hat : g.At x u q) (hout : FromOutside x u) :
    ∃ set i, (q, set) ∈ arrived.toList ∧ i ∈ set ∧ (g.enteredBefore u)[i]? = some x := by
  have hmem := hg.mem_enteredBefore_iff.2 ⟨hat.1, hat.start_before, hout⟩
  obtain ⟨i, hi⟩ := List.getElem?_of_mem hmem
  obtain ⟨set, hset, hiset⟩ := exists_mem_toList.2
    ((ha.holds q i).2 ⟨x, hi, .inl ⟨hat, hout⟩⟩)
  exact ⟨set, i, hset, hiset, hi⟩

end Arrivals

private theorem rules_eq (hg : g.Valid) (ht : t.Fits g) (ha : g.Arrivals u arrived s)
    {rows : List Row} (hrows : ∀ row, row ∈ rows ↔ ∃ e ∈ arrived.toList.filter
      (fun e => g.isCallAt e.1), t.row e.1 = .ok row) :
    ((∅ : NatSet).insertMany (rows.flatMap Row.entered)).toList = (g.enteredRules u).toList := by
  have hmem : ∀ r, r ∈ ((∅ : NatSet).insertMany (rows.flatMap Row.entered)).toList ↔
      r ∈ g.enteredRules u := by
    intro r
    rw [Std.ExtTreeSet.mem_toList, Std.ExtTreeSet.mem_insertMany_list, hg.mem_enteredRules_iff]
    simp only [Std.ExtTreeSet.not_mem_empty, false_or, List.mem_flatMap, List.contains_eq_mem,
      decide_eq_true_eq]
    constructor
    · rintro ⟨row, hrow, hr⟩
      obtain ⟨e, he, hrow⟩ := (hrows row).1 hrow
      obtain ⟨he, hc⟩ := List.mem_filter.1 he
      obtain ⟨i, hi⟩ := ha.exists_mem he
      obtain ⟨x, -, hx⟩ := ha.comes_of_mem he hi
      obtain ⟨hat, hout⟩ := hx.at_of_call hg.toWellFormed hc
      exact hg.entered_of_mem hat hout (hg.fits_of_row ht hat hrow) hr
    · intro hr
      obtain ⟨x, c, a, hat, hout, hc, hst⟩ := hg.entered_iff.1 hr
      obtain ⟨set, i, he, -, -⟩ := ha.mem_of_comes hg hat hout
      obtain ⟨row, hrow, hfit⟩ := hg.row_of_at ht hat
      refine ⟨row, (hrows row).2 ⟨(c, set), ?_, hrow⟩, ?_⟩
      · exact List.mem_filter.2 ⟨he, isCallAt_iff.2 ⟨a, hc⟩⟩
      · exact hg.mem_entered_of_starts hat.owns hfit hc hst
  have hasc : ((∅ : NatSet).insertMany (rows.flatMap Row.entered)).toList.Pairwise (· < ·) :=
    Std.ExtTreeSet.ordered_toList.imp fun h => Nat.compare_eq_lt.1 h
  have := AscSet.ext_mem (s := ⟨_, hasc⟩) (t := g.enteredRules u) hmem
  exact congrArg AscSet.toList this

private theorem activation_of_before (h : (g.enteredBefore u)[i]? = some x) :
    (g.activations u)[i]? = some x := by
  rw [activations, List.getElem?_append_left (List.getElem?_eq_some_iff.1 h).1]
  exact h

private theorem before_of_outside (hg : g.WellFormed) (h : (g.activations u)[i]? = some x)
    (hout : FromOutside x u) : (g.enteredBefore u)[i]? = some x := by
  have hlt : i < (g.enteredBefore u).length :=
    Nat.lt_of_not_le fun hle => (hg.new_iff_inside h).1 hle hout
  rwa [activations, List.getElem?_append_left hlt] at h

/-- What an arrival at a call writes, found through the row of the call. -/
def WritesAt (g : Grammar) (t : Tables) (u : List Token) (s : ContextStore)
    (e : Nat × ContextSet) (x : Nat × Nat × Nat) : Prop :=
  ∃ row, t.row e.1 = .ok row ∧ g.Writes u s row e.2 x

/-- Whatever is written is a return. -/
private theorem writes_sound (hg : g.Valid) (ht : t.Fits g) (ha : g.Arrivals u arrived s)
    {e : Nat × ContextSet} (he : e ∈ arrived.toList) (hc : g.isCallAt e.1 = true)
    (hw : g.WritesAt t u s e (i, p, j)) : ∃ a y, (g.activations u)[i]? = some ⟨some a, u⟩ ∧
      (g.activations u)[j]? = some y ∧ g.Returns a u p y := by
  obtain ⟨row, hrow, hw⟩ := hw
  have hcome : ∀ l ∈ e.2, ∃ y, (g.enteredBefore u)[l]? = some y ∧ g.At y u e.1 ∧
      FromOutside y u ∧ row.Fits g y.top e.1 := by
    intro l hl
    obtain ⟨y, hy, hcome⟩ := ha.comes_of_mem he hl
    obtain ⟨hat, hout⟩ := hcome.at_of_call hg.toWellFormed hc
    exact ⟨y, hy, hat, hout, hg.fits_of_row ht hat hrow⟩
  rcases hw with ⟨c, hcm, hi, rfl, hctx⟩ | ⟨htail, b, hb, hi, l, hl, hres⟩
  · obtain ⟨l, hl⟩ := ha.exists_mem he
    obtain ⟨y, -, hat, hout, hfit⟩ := hcome l hl
    have hent := hg.entered_of_entry hat hout (hfit.entries c hcm)
    obtain ⟨a, hca, hentry⟩ := hfit.entries c hcm
    refine ⟨c.invoke, ?_⟩
    cases hcc : c.context with
    | none =>
      rw [hcc] at hctx hentry
      obtain ⟨z, hz, hzat, hzout, -⟩ := hcome j hctx
      refine ⟨z, hi, activation_of_before hz, ?_⟩
      exact .direct (hentry.1 ▸ hzat) (hentry.1 ▸ hca) hentry.2
    | some r =>
      rw [hcc] at hctx hentry
      obtain ⟨-, b, hf, hal⟩ := hentry
      refine ⟨⟨some r, u⟩, hi, hctx, hg.returns_iff.2 (.inr (.inl ?_))⟩
      exact ⟨r, b, rfl, hent.2 r hcc, hf, hal⟩
  · obtain ⟨y, hy, hat, hout, hfit⟩ := hcome l hl
    obtain ⟨r, s', z, hr, hz, hret⟩ := ha.store.sound hres
    obtain rfl := Option.some.inj (hy.symm.trans hr)
    obtain ⟨a, hca, hal⟩ := (hfit.children b).1 hb
    have hne : s' ≠ u := hout.resolve_right (by simp)
    refine ⟨b, z, hi, activation_of_before hz, ?_⟩
    exact .tail hat hne (hfit.inTail.1 htail) hca hal hret

/-- Every live return of a rule that is entered now is written. -/
private theorem writes_complete (hg : g.Valid) (ht : t.Fits g) (ha : g.Arrivals u arrived s)
    (hl : g.Live p) (hi : (g.activations u)[i]? = some ⟨some a, u⟩)
    (hj : (g.activations u)[j]? = some x) (hret : g.Returns a u p x) :
    ∃ e ∈ arrived.toList, g.isCallAt e.1 = true ∧ g.WritesAt t u s e (i, p, j) := by
  -- the caller is outside, is entered now too, or hands on its own return
  rcases hg.returns_iff.1 hret with ⟨hout, hat, b, hc, hal⟩ | ⟨r, b, rfl, hx, hf, hal⟩ |
    ⟨r, s', d, b, hat, hne, hlast, hc, hal, hret'⟩
  · obtain ⟨set, l, he, hls, hlx⟩ := ha.mem_of_comes hg hat hout
    have hlj : l = j := (List.getElem?_inj (List.getElem?_eq_some_iff.1 hj).1
      hg.nodup_activations).1 (hj.trans (activation_of_before hlx).symm) ▸ rfl
    obtain ⟨row, hrow, hfit⟩ := hg.row_of_at ht hat
    have hentry : CallSet.direct p a ∈ row.entries := hfit.live _ ⟨b, hc, rfl, hal⟩ hl
    exact ⟨(p, set), he, isCallAt_iff.2 ⟨b, hc⟩, row, hrow, .inl ⟨_, hentry, hi, rfl, hlj ▸ hls⟩⟩
  · obtain ⟨y, c, b', hat, hout, hc, hst⟩ := hg.entered_iff.1 hx
    obtain ⟨set, l, he, -, -⟩ := ha.mem_of_comes hg hat hout
    obtain ⟨row, hrow, hfit⟩ := hg.row_of_at ht hat
    have hentry : ⟨some r, p, a⟩ ∈ row.entries := hfit.live _ ⟨b', hc, hst, b, hf, hal⟩ hl
    exact ⟨(c, set), he, isCallAt_iff.2 ⟨b', hc⟩, row, hrow, .inl ⟨_, hentry, hi, rfl, hj⟩⟩
  · obtain ⟨set, l, he, hls, hlx⟩ := ha.mem_of_comes hg hat (.inl hne)
    obtain ⟨row, hrow, hfit⟩ := hg.row_of_at ht hat
    have hjb := before_of_outside hg.toWellFormed hj (.inl (hret'.start_ne hat.start_before hne))
    have hres := ha.store.complete hl hlx hjb hret'
    refine ⟨(d, set), he, isCallAt_iff.2 ⟨b, hc⟩, row, hrow, .inr ⟨hfit.inTail.2 hlast, a, ?_, hi,
      l, hls, hres⟩⟩
    exact (hfit.children a).2 ⟨b, hc, hal⟩

/-- Once everything is written, the store serves all activations. -/
private theorem serves_of_writes (hg : g.Valid) (ht : t.Fits g) (ha : g.Arrivals u arrived s)
    {e : Entering} (ho : g.Opens u s e) (hv : ∀ x : Nat × Nat × Nat,
      e.store.Resumes x.1 x.2.1 x.2.2 ↔ s.Resumes x.1 x.2.1 x.2.2 ∨
        ∃ c ∈ arrived.toList.filter (fun c => g.isCallAt c.1), g.WritesAt t u s c x) :
    g.Serves (g.activations u) e.store.freeze where
  frozen := rfl
  size := ho.size
  full := ho.full
  sound {i p j} h := by
    rcases (hv (i, p, j)).1 h with h | ⟨c, hc, hw⟩
    · obtain ⟨a, u', y, hi, hj, hret⟩ := ha.store.sound h
      exact ⟨a, u', y, activation_of_before hi, activation_of_before hj, hret⟩
    · obtain ⟨hc, hcall⟩ := List.mem_filter.1 hc
      obtain ⟨a, y, hi, hj, hret⟩ := writes_sound hg ht ha hc hcall hw
      exact ⟨a, u, y, hi, hj, hret⟩
  complete {i p j a u' y} hl hi hj hret := by
    refine (hv (i, p, j)).2 ?_
    by_cases hu : u' = u
    · subst hu
      obtain ⟨c, hc, hcall, hw⟩ := writes_complete hg ht ha hl hi hj hret
      exact .inr ⟨c, List.mem_filter.2 ⟨hc, hcall⟩, hw⟩
    · have hpre := (hg.mem_activations_iff.1 (List.mem_of_getElem? hi)).2
      have hbi := before_of_outside hg.toWellFormed hi (.inl hu)
      have hbj := before_of_outside hg.toWellFormed hj (.inl (hret.start_ne hpre hu))
      exact .inl (ha.store.complete hl hbi hbj hret)

private theorem holds_arrived (hg : g.Valid) (ha : g.Arrivals u arrived s) {f : Frontier}
    (hf : f = (arrived.toList.filter fun e => !g.isCallAt e.1).foldl
      (fun f (pos, set) => Frontier.add f pos set) ∅) :
    Full f ∧ ∀ p i, Holds f p i ↔
      ∃ x, (g.activations u)[i]? = some x ∧ g.Stands u x p ∧ FromOutside x u := by
  obtain ⟨hfull, hv⟩ := foldl_ok Full (fun f (x : Nat × Nat) => Holds f x.1 x.2)
    (fun (e : Nat × ContextSet) x => x.1 = e.1 ∧ x.2 ∈ e.2)
    (fun e he f hf => holds_frontier_add (ha.exists_mem (List.mem_filter.1 he).1) hf) ∅ full_empty
  subst hf
  refine ⟨hfull, fun p i => (hv (p, i)).trans ?_⟩
  constructor
  · rintro (hno | ⟨e, he, rfl, hi⟩)
    · exact absurd hno not_holds_empty
    · obtain ⟨he, hcall⟩ := List.mem_filter.1 he
      obtain ⟨x, hx, hcome⟩ := ha.comes_of_mem he hi
      refine ⟨x, activation_of_before hx, hcome.imp_left fun h => ⟨h.1, by simpa using hcall⟩, ?_⟩
      rcases hcome with h | ⟨rfl, -⟩
      · exact h.2
      · exact .inr rfl
  · rintro ⟨x, hx, hst, hout⟩
    have hcome : g.Comes u x p := hst.imp_left fun h => ⟨h.1, hout⟩
    obtain ⟨set, he, hi⟩ := exists_mem_toList.2
      ((ha.holds p i).2 ⟨x, before_of_outside hg.toWellFormed hx hout, hcome⟩)
    have hcall : g.isCallAt p = false := by
      rcases hst with h | ⟨-, rfl, -⟩
      · exact h.2
      · exact hg.isCallAt_endIndex
    exact .inr ⟨(p, set), List.mem_filter.2 ⟨he, by simp [hcall]⟩, rfl, hi⟩

private theorem seed_ok (hg : g.Valid) (ht : t.Fits g) {e : Entering} (ho : g.Opens u s e)
    {f : Frontier} (hf : Full f) :
    ∃ f', Entering.seed t f e.contexts.toList = .ok f' ∧ Full f' ∧ ∀ x : Nat × Nat,
      Holds f' x.1 x.2 ↔ Holds f x.1 x.2 ∨ ∃ y, (g.activations u)[x.2]? = some y ∧
        g.Stands u y x.1 ∧ ¬ FromOutside y u := by
  have hstep : ∀ c ∈ e.contexts.toList, ∀ f, Full f →
      ∃ f', (do return Frontier.addAll f (← t.firstsOfRule c.1) (.single c.2) :
          Except Failure _) = .ok f' ∧ Full f' ∧ ∀ x : Nat × Nat, Holds f' x.1 x.2 ↔
        Holds f x.1 x.2 ∨ (∃ e, g.top? (some c.1) = some e ∧ x.1 ∈ e.firstSet g.emptyAt ∧
          g.isCallAt x.1 = false) ∧ x.2 = c.2 := by
    rintro ⟨r, n⟩ hc f hf
    have hid := (ho.context r n).1 (Std.ExtTreeMap.mem_toList_iff_getElem?_eq_some.1 hc)
    have hent := (hg.mem_activations_iff.1 (List.mem_of_getElem? hid)).1
    obtain ⟨ps, hps, hmem⟩ := ht.ruleFirsts (hg.uses_of_entered hent)
    obtain ⟨hf', hv⟩ := holds_addAll ps ⟨n, AscSet.mem_single.2 rfl⟩ hf
    refine ⟨_, ok_bind hps, hf', fun x => (hv x).trans ?_⟩
    rw [hmem, AscSet.mem_single]
  obtain ⟨f', hr, hf', hv⟩ := foldlM_ok Full (fun f (x : Nat × Nat) => Holds f x.1 x.2)
    (fun (c : Nat × Nat) x => (∃ e, g.top? (some c.1) = some e ∧ x.1 ∈ e.firstSet g.emptyAt ∧
      g.isCallAt x.1 = false) ∧ x.2 = c.2) hstep f hf
  refine ⟨f', hr, hf', fun x => (hv x).trans (or_congr_right ?_)⟩
  constructor
  · rintro ⟨⟨r, n⟩, hc, ⟨b, hb, hp, hcall⟩, hn⟩
    have hid := (ho.context r n).1 (Std.ExtTreeMap.mem_toList_iff_getElem?_eq_some.1 hc)
    have hent := (hg.mem_activations_iff.1 (List.mem_of_getElem? hid)).1
    have hat := hg.at_start_iff.2 ⟨hent, b, hb, hp⟩
    exact ⟨_, hn ▸ hid, .inl ⟨hat, hcall⟩, by simp [FromOutside]⟩
  · rintro ⟨y, hy, hst, hin⟩
    obtain ⟨r, rfl⟩ := exists_of_inside hin
    obtain ⟨hat, hcall⟩ := hst.resolve_right fun h => by cases h.1
    obtain ⟨-, b, hb, hp⟩ := hg.at_start_iff.1 hat
    have hc := Std.ExtTreeMap.mem_toList_iff_getElem?_eq_some.2 ((ho.context r x.2).2 hy)
    exact ⟨(r, x.2), hc, ⟨b, hb, hp, hcall⟩, rfl⟩

/-- The contexts under construction once all calls have been entered: they resume as before, and with
what the arrivals at calls write. -/
structure Written (g : Grammar) (t : Tables) (u : List Token) (s : ContextStore)
    (arrived : Frontier) (e : Entering) : Prop extends g.Opens u s e where
  resumes : ∀ x : Nat × Nat × Nat, e.store.Resumes x.1 x.2.1 x.2.2 ↔
    s.Resumes x.1 x.2.1 x.2.2 ∨
      ∃ c ∈ arrived.toList.filter (fun c => g.isCallAt c.1), g.WritesAt t u s c x

namespace Arrivals

variable (hg : g.Valid) (ht : t.Fits g) (ha : g.Arrivals u arrived s)
include hg ht ha

theorem row_of_mem {e : Nat × ContextSet} (he : e ∈ arrived.toList) :
    ∃ row, t.row e.1 = .ok row ∧ row.isCall = g.isCallAt e.1 := by
  obtain ⟨i, hi⟩ := ha.exists_mem he
  obtain ⟨x, -, hx⟩ := ha.comes_of_mem he hi
  obtain ⟨row, hrow, hc, -⟩ := hg.row_of_comes ht hx
  exact ⟨row, hrow, hc⟩

omit ht in
theorem at_of_call {e : Nat × ContextSet}
    (he : e ∈ arrived.toList.filter fun e => g.isCallAt e.1) (hi : i ∈ e.2) :
    ∃ x, (g.enteredBefore u)[i]? = some x ∧ g.At x u e.1 ∧ FromOutside x u := by
  obtain ⟨he, hc⟩ := List.mem_filter.1 he
  obtain ⟨x, hx, hcome⟩ := ha.comes_of_mem he hi
  exact ⟨x, hx, hcome.at_of_call hg.toWellFormed hc⟩

omit hg ht in
theorem lt_of_mem {e : Nat × ContextSet} (he : e ∈ arrived.toList) (hi : i ∈ e.2) :
    i < s.size := by
  obtain ⟨x, hx, -⟩ := ha.comes_of_mem he hi
  rw [ha.store.size]
  exact (List.getElem?_eq_some_iff.1 hx).1

theorem enterCalls_ok : ∃ e, arrived.enterCalls t s = .ok e ∧ g.Written t u s arrived e := by
  obtain ⟨rows, hrows, hmem⟩ := mapM_ok
    fun e (he : e ∈ arrived.toList.filter fun e => g.isCallAt e.1) =>
      (ha.row_of_mem hg ht (List.mem_filter.1 he).1).imp fun _ h => h.1
  have hstep : ∀ c ∈ arrived.toList.filter (fun e => g.isCallAt e.1), ∀ e, g.Opens u s e →
      ∃ e', e.enter t c = .ok e' ∧ g.Opens u s e' ∧ ∀ x : Nat × Nat × Nat,
        e'.store.Resumes x.1 x.2.1 x.2.2 ↔
          e.store.Resumes x.1 x.2.1 x.2.2 ∨ g.WritesAt t u s c x := by
    intro c hc e ho
    have hca := (List.mem_filter.1 hc).1
    obtain ⟨i, hi⟩ := ha.exists_mem hca
    obtain ⟨x, -, hat, hout⟩ := ha.at_of_call hg hc hi
    obtain ⟨row, hrow, hfit⟩ := hg.row_of_at ht hat
    obtain ⟨e', he', ho', hv'⟩ := hg.enter_ok ho ha.store hat hout hrow hfit ⟨i, hi⟩
      fun l hl => ha.lt_of_mem hca hl
    refine ⟨e', he', ho', fun x => (hv' x).trans (or_congr_right ?_)⟩
    simp [WritesAt, hrow]
  obtain ⟨hmake, hres⟩ := hg.make_opens ha.store
  obtain ⟨e, henter, ho, hv⟩ := foldlM_ok (g.Opens u s)
    (fun e (x : Nat × Nat × Nat) => e.store.Resumes x.1 x.2.1 x.2.2) (g.WritesAt t u s) hstep _
    hmake
  refine ⟨e, ?_, ho, fun x => (hv x).trans (or_congr_left (hres x))⟩
  rw [Frontier.enterCalls, ok_bind (split_ok fun _ he => ha.row_of_mem hg ht he)]
  show (_ >>= fun rows => _) = _
  rw [ok_bind hrows]
  simp only [rules_eq hg ht ha hmem]
  exact henter

/-- Arrivals that agree with what has been read lead to a frontier that tracks it. -/
theorem ofArrivals_ok : ∃ e f, arrived.enterCalls t s = .ok e ∧ g.Written t u s arrived e ∧
    arrived.ofArrivals t s = .ok (f, e.store.freeze) ∧ g.Tracks u f e.store.freeze := by
  obtain ⟨e, henter, hw⟩ := ha.enterCalls_ok hg ht
  obtain ⟨hfull, hhere⟩ := holds_arrived hg ha rfl
  obtain ⟨f, hseed, hf, hholds⟩ := seed_ok hg ht hw.toOpens hfull
  have htrack : ∀ p i, Holds f p i ↔ ∃ x, (g.activations u)[i]? = some x ∧ g.Stands u x p := by
    intro p i
    rw [hholds (p, i), hhere]
    simp only [← exists_or, ← and_or_left, em, and_true]
  refine ⟨e, f, henter, hw, ?_, serves_of_writes hg ht ha hw.toOpens hw.resumes, hf, htrack⟩
  rw [Frontier.ofArrivals_eq, ok_bind (split_ok fun _ he => ha.row_of_mem hg ht he)]
  exact (ok_bind henter).trans (ok_bind hseed)

end Arrivals

end Grammar

end TokenGrammar
