import TokenGrammar.Proofs.InOrder
import TokenGrammar.Proofs.Runs

/-!
# Frontiers that are ready for a step

A frontier that tracks what has been read is ready for every token: the tables have the rows and the
answers that a step asks for, whatever its order, and the step that the recognizer makes lands where
it has to.
-/

namespace TokenGrammar.Grammar

variable {g : Grammar} {t : Tables} {u : List Token} {tok : Token} {p q i j : Nat} {x : Activation}
  {f arrived : Frontier} {s : ContextStore}

theorem Valid.after_iff (hg : g.Valid) (ht : t.Fits g) (h : g.At x u p) :
    t.After p q ↔ g.Next x.top p q := by
  obtain ⟨row, hrow, hfit⟩ := hg.row_of_at ht h
  simp [Tables.After, hrow, hfit.successors]

theorem Valid.tail_iff (hg : g.Valid) (ht : t.Fits g) (h : g.At x u p) :
    t.Tail p ↔ g.Last x.top p := by
  obtain ⟨row, hrow, hfit⟩ := hg.row_of_at ht h
  simp [Tables.Tail, hrow, hfit.inTail]

theorem Arrivals.opening (hg : g.Valid) (ht : t.Fits g) (ha : g.Arrivals u arrived s)
    {arr : Nat → Nat → Prop} (harr : ∀ q i, Holds arrived q i ↔ arr q i) : t.Opening s arr where
  frozen := ha.store.frozen
  full := ha.store.full
  closed h := by
    obtain ⟨a, w, y, -, hy, -⟩ := ha.store.sound h
    rw [ha.store.size]
    exact (List.getElem?_eq_some_iff.1 hy).1
  lt h := by
    obtain ⟨x, hx, -⟩ := (ha.holds _ _).1 ((harr _ _).2 h)
    rw [ha.store.size]
    exact (List.getElem?_eq_some_iff.1 hx).1
  row h := by
    obtain ⟨x, -, hx⟩ := (ha.holds _ _).1 ((harr _ _).2 h)
    obtain ⟨row, hrow, -⟩ := hg.row_of_comes ht hx
    exact ⟨row, hrow⟩
  firsts h hb := by
    obtain ⟨x, -, hx⟩ := (ha.holds _ _).1 ((harr _ _).2 h)
    obtain ⟨row, hrow, hcall, hr⟩ := Tables.brings_entered_iff.1 hb
    obtain ⟨row', hrow', hcall', hfit⟩ := hg.row_of_comes ht hx
    obtain rfl := Except.ok.inj (hrow.symm.trans hrow')
    obtain ⟨hat, hout⟩ := hx.at_of_call hg.toWellFormed (hcall'.symm.trans hcall)
    have hent := hg.entered_of_mem hat hout (hfit hat) hr
    obtain ⟨ps, hps, -⟩ := ht.ruleFirsts (hg.uses_of_entered hent)
    exact ⟨ps, hps⟩

namespace Tracks

variable (h : g.Tracks u f s) (hg : g.Valid) (ht : t.Fits g)
include h hg ht

theorem at_of_takes (hh : Holds f p i) (hb : t.accepts p tok = .ok true) :
    ∃ x, (g.activations u)[i]? = some x ∧ g.At x u p ∧ g.AcceptsAt p tok := by
  obtain ⟨x, hx, hst⟩ := (h.holds p i).1 hh
  obtain ⟨b, hb', hiff⟩ := hg.accepts_ok tok ht hst
  have hacc := hiff.1 (Except.ok.inj (hb'.symm.trans hb))
  exact ⟨x, hx, hg.at_of_accepts hst hacc, hacc⟩

theorem after_resumed {c k : Nat} (hres : s.Resumes c k i) :
    ∃ z, (g.activations u)[i]? = some z ∧ ∀ q, t.After k q ↔ g.Next z.top k q := by
  obtain ⟨a, w, z, -, hz, hret⟩ := h.store.sound hres
  obtain ⟨u', hat⟩ := hret.at
  exact ⟨z, hz, fun q => hg.after_iff ht hat⟩

/-- The contexts of a frontier arrive where the token moves control. -/
theorem arrives_iff : t.Arrives s f tok q j ↔
    ∃ x, (g.activations u)[j]? = some x ∧ g.Moves u tok x q := by
  constructor
  · rintro ⟨p, i, hh, hb, hor⟩
    obtain ⟨x, hx, hat, hacc⟩ := h.at_of_takes hg ht hh hb
    rcases hor with ⟨rfl, hq⟩ | ⟨htail, k, hres, hq⟩
    · exact ⟨x, hx, x, p, p, hat, hacc, .inl ⟨rfl, rfl⟩, (hg.after_iff ht hat).1 hq⟩
    · obtain ⟨a, w, z, hi, hz, hret⟩ := h.store.sound hres
      obtain rfl := Option.some.inj (hx.symm.trans hi)
      obtain ⟨u', hat'⟩ := hret.at
      exact ⟨z, hz, _, p, k, hat, hacc, .inr ⟨a, w, rfl, (hg.tail_iff ht hat).1 htail, hret⟩,
        (hg.after_iff ht hat').1 hq⟩
  · rintro ⟨x, hx, y, p, c, hyat, hacc, hor, hn⟩
    obtain ⟨i, hi⟩ := List.getElem?_of_mem (hg.at_mem hyat)
    have hst : g.Stands u y p := .inl ⟨hyat, Valid.isCallAt_of_accepts hacc⟩
    obtain ⟨b, hb, hiff⟩ := hg.accepts_ok tok ht hst
    rw [hiff.2 hacc] at hb
    refine ⟨p, i, (h.holds p i).2 ⟨y, hi, hst⟩, hb, ?_⟩
    rcases hor with ⟨rfl, rfl⟩ | ⟨a, w, rfl, hl, hret⟩
    · have hji : j = i := (List.getElem?_inj (List.getElem?_eq_some_iff.1 hx).1
        hg.nodup_activations).1 (hx.trans hi.symm)
      exact .inl ⟨hji, (hg.after_iff ht hyat).2 hn⟩
    · obtain ⟨u', hat'⟩ := hret.at
      exact .inr ⟨(hg.tail_iff ht hyat).2 hl, c, h.store.complete ⟨_, _, hn⟩ hi hx hret,
        (hg.after_iff ht hat').2 hn⟩

theorem ready (tok : Token) : t.Ready s f tok := by
  obtain ⟨-, arrived, -, -, hfull, hv⟩ := hg.arrivals_ok ht h tok
  have hopen : t.Opening s (t.Arrives s f tok) :=
    (h.arrivals hg hv hfull).opening hg ht fun q i => (hv q i).trans (h.arrives_iff hg ht).symm
  refine ⟨hopen, h.full, fun hh => ?_, fun hh => ?_, fun hh hb => ?_, fun hh hb _ hres => ?_⟩
  · obtain ⟨x, hx, -⟩ := (h.holds _ _).1 hh
    rw [h.store.size]
    exact (List.getElem?_eq_some_iff.1 hx).1
  · obtain ⟨x, -, hst⟩ := (h.holds _ _).1 hh
    obtain ⟨b, hb, -⟩ := hg.accepts_ok tok ht hst
    exact ⟨b, hb⟩
  · obtain ⟨x, -, hat, -⟩ := h.at_of_takes hg ht hh hb
    obtain ⟨row, hrow, -⟩ := hg.row_of_at ht hat
    exact ⟨row, hrow⟩
  · obtain ⟨a, w, z, -, -, hret⟩ := h.store.sound hres
    obtain ⟨u', hat⟩ := hret.at
    obtain ⟨row, hrow, -⟩ := hg.row_of_at ht hat
    exact ⟨row, hrow⟩

/-- The step of the recognizer lands where a step in any order does. -/
theorem advance_lands (tok : Token) : ∃ a, Frontier.advance t s f.toList tok = .ok a ∧
    t.Lands s (t.Arrives s f tok) (f.toList.countP fun e => t.takes tok e.1) a := by
  have hready := h.ready hg ht tok
  obtain ⟨matched, arrived, hm, harr, hfull, hv⟩ := hg.arrivals_ok ht h tok
  have hcollected : t.Collected s (t.Arrives s f tok) arrived :=
    ⟨hready.toOpening, hfull, fun q i => (hv q i).trans (h.arrives_iff hg ht).symm⟩
  obtain ⟨f', s', hof, hlands⟩ := hcollected.ofArrivals_ok
  have hanswers : ∀ e ∈ f.toList, ∃ b, t.accepts e.1 tok = .ok b := by
    intro e he
    obtain ⟨i, hi⟩ := h.full e.1 e.2 (Std.ExtTreeMap.mem_toList_iff_getElem?_eq_some.1 he)
    exact hready.answers (holds_of_mem_toList he hi)
  obtain rfl := Except.ok.inj (hm.symm.trans (Tables.matching_eq hanswers))
  refine ⟨⟨f', s', _⟩, ?_, hlands _⟩
  rw [Frontier.advance, ok_bind hm, ok_bind harr, ok_bind hof, List.countP_eq_length_filter]
  rfl

end Tracks

theorem Valid.starting (hg : g.Valid) (ht : t.Fits g) : t.Starting := by
  apply (arrivals_start hg ht).opening hg ht
  intro q i
  have hv := (holds_addAll t.rootFirsts ⟨0, AscSet.mem_single.2 rfl⟩ full_empty).2 (q, i)
  rw [hv]
  simp

/-- The recognizer starts where a start in any order leads. -/
theorem Valid.start_lands (hg : g.Valid) (ht : t.Fits g) (options : Options) (log : Log) :
    ∃ a, Recognizer.start t options log = .ok (t.started options log a) ∧
      t.Lands Tables.seedStore (fun q i => q ∈ t.rootFirsts ∧ i = 0) 0 a := by
  obtain ⟨hfull, hv⟩ := holds_addAll t.rootFirsts ⟨0, AscSet.mem_single.2 rfl⟩ full_empty
  have hcollected : t.Collected Tables.seedStore (fun q i => q ∈ t.rootFirsts ∧ i = 0)
      (Frontier.addAll ∅ t.rootFirsts (.single 0)) :=
    ⟨hg.starting ht, hfull, fun q i => by rw [hv (q, i)]; simp⟩
  obtain ⟨f, s, hof, hlands⟩ := hcollected.ofArrivals_ok
  refine ⟨⟨f, s, 0⟩, ?_, hlands 0⟩
  rw [Recognizer.start]
  exact ok_bind hof

end TokenGrammar.Grammar
