import TokenGrammar.Proofs.Readiness
import TokenGrammar.Proofs.Twins
import TokenGrammar.Proofs.UpToNumbers

/-!
# The order does not matter

Whatever the orders are in which the steps of a recognizer pass over frontier entries, callbacks
and rules, all that differs is how the contexts made in a step are numbered. What the recognizer
answers, and the size of what it holds, is the same in every order, and the same as in the order in
which the recognizer runs.
-/

namespace TokenGrammar

open Outcomes

namespace Recognizer

variable {ρ : Equiv.Perm Nat} {r : Recognizer}

theorem agree_rename : (r.rename ρ).Agree r := by
  have hacc : (r.rename ρ).isAccepting = r.isAccepting := by
    simp only [isAccepting, rename, contains_renameAll]
    rfl
  refine ⟨rfl, rfl, hacc, ?_, keys_renameAll, size_renameAll, rfl, rfl, rfl, rfl⟩
  simp only [finish, hacc]
  rfl

/-- What a recognizer can come to in any orders: it may be given any tokens, be copied, and have its
log changed. -/
inductive Reached (t : Tables) (options : Options) (log : Log) : Recognizer → Prop
  | fresh {r : Recognizer} (h : (startUnordered t options log).Possible (.ok r)) :
    Reached t options log r
  | consumed {r r' : Recognizer} {token : Token} {b : Bool} (h : Reached t options log r)
    (hc : (r.consumeUnordered token).Possible (.ok (b, r'))) : Reached t options log r'
  | forked {r : Recognizer} (h : Reached t options log r) : Reached t options log r.fork
  | logged {r : Recognizer} (h : Reached t options log r) (log' : Log) :
    Reached t options log { r with log := log' }

/-- A step on a token comes to the same in any two orders, up to a renaming of the contexts that are
made in it. -/
def StepsAlike (r : Recognizer) (token : Token) : Prop :=
  Surely (r.consumeUnordered token) fun x => ∀ y, (r.consumeUnordered token).Possible (.ok y) →
    y.1 = x.1 ∧ y.2.frontier.keys = x.2.frontier.keys ∧ ∃ ρ : Equiv.Perm Nat,
      (∀ i, i < r.store.size → ρ i = i) ∧ (∀ i, x.2.store.size ≤ i → ρ i = i) ∧
        y.2 = x.2.rename ρ

theorem consume_eq_record (h : r.rejectedAt = none) {token : Token} {a : Advance}
    (ha : Frontier.advance r.tables r.store r.frontier.toList token = .ok a) :
    r.consume token = .ok (r.record token a) := by
  have hrun : r.consume token = .ok ({ r with store := .new }.record token a) := by
    rw [consume, h]
    exact ok_bind ha
  rw [hrun, record, record]

theorem consume_rename_of_rejected {k : Nat} (h : r.rejectedAt = some k) (token : Token) :
    ∃ r₁, r.consume token = .ok (false, r₁) ∧ r₁.store = r.store ∧
      (r.rename ρ).consume token = .ok (false, r₁.rename ρ) := by
  have h' : (r.rename ρ).rejectedAt = some k := h
  rw [consume, consume, h, h']
  exact ⟨_, rfl, rfl, rfl⟩

theorem store_record {token : Token} {a : Advance} : (r.record token a).2.store = a.store := by
  rw [record]
  split <;> rfl

end Recognizer

namespace Grammar

variable {g : Grammar} {u : List Token} {r r' : Recognizer} {ρ : Equiv.Perm Nat}

/-- A recognizer that has consumed `u` in some order is the one that has done so in the order in
which the recognizer runs, with other numbers for its contexts. -/
structure Renumbers (g : Grammar) (u : List Token) (r r' : Recognizer) (ρ : Equiv.Perm Nat) :
    Prop where
  reading : g.Reading u r
  fixes : Fixes ρ r.store.size
  eq : r' = r.rename ρ

namespace Renumbers

/-- A step in any order leads to where the recognizer is after its own step, up to the numbers of
contexts. Contexts from before keep the numbers they had. -/
theorem consume_ok (hg : g.Valid) (h : g.Renumbers u r r' ρ) (token : Token) :
    ∃ b r₁ u₁, r.consume token = .ok (b, r₁) ∧
      Surely (r'.consumeUnordered token) fun x => x.1 = b ∧ ∃ ρ₁ : Equiv.Perm Nat,
        (∀ i < r.store.size, ρ₁ i = ρ i) ∧ g.Renumbers u₁ r₁ x.2 ρ₁ := by
  obtain ⟨hreading, hfixes, rfl⟩ := h
  have hreading₁ : ∀ {b r₁}, r.consume token = .ok (b, r₁) → ∃ u₁, g.Reading u₁ r₁ := by
    intro b r₁ hc
    obtain ⟨b', r', hc', htrue, hfalse⟩ := hreading.consume_ok hg token
    obtain ⟨rfl, rfl⟩ := Prod.mk.inj (Except.ok.inj (hc.symm.trans hc'))
    cases b with
    | true => exact ⟨_, (htrue rfl).2.1⟩
    | false => exact ⟨_, (hfalse rfl).1⟩
  have hrej' : (r.rename ρ).rejectedAt = r.rejectedAt := rfl
  cases hrej : r.rejectedAt with
  | some k =>
    obtain ⟨r₁, hc, hstore, hc'⟩ := Recognizer.consume_rename_of_rejected (ρ := ρ) hrej token
    obtain ⟨u₁, hreading₁⟩ := hreading₁ hc
    refine ⟨false, r₁, u₁, hc, ?_⟩
    rw [Recognizer.consumeUnordered, hrej', hrej]
    exact .lift hc' ⟨rfl, ρ, fun _ _ => rfl, hreading₁, hstore.symm ▸ hfixes, rfl⟩
  | none =>
    have htracks := hreading.tracks hrej
    have hready := htracks.ready hg hreading.fits token
    obtain ⟨a, ha, hlands⟩ := htracks.advance_lands hg hreading.fits token
    have hc : r.consume token = .ok ((r.record token a).1, (r.record token a).2) :=
      Recognizer.consume_eq_record hrej ha
    obtain ⟨u₁, hreading₁⟩ := hreading₁ hc
    refine ⟨_, _, u₁, hc, ?_⟩
    rw [Recognizer.consumeUnordered, hrej', hrej]
    apply (hready.rename hfixes).advance_ok.bind
    intro a' hlands'
    rw [countP_toList_renameAll] at hlands'
    obtain ⟨ρ₁, hagree, hfixes₁, rfl⟩ :=
      hlands.exists_rename hready.toOpening hfixes (fun q i => Tables.arrives_rename hfixes) hlands'
    refine .pure ?_
    rw [Recognizer.record_rename]
    refine ⟨rfl, ρ₁, hagree, hreading₁, ?_, rfl⟩
    rwa [Recognizer.store_record]

theorem rename_between {r₁ r₂ : Recognizer} {ρ₁ ρ₂ : Equiv.Perm Nat} {u' : List Token}
    (h₁ : g.Renumbers u r r₁ ρ₁) (h₂ : g.Renumbers u' r r₂ ρ₂) :
    Fixes (ρ₁.symm.trans ρ₂) r.store.size ∧ r₂ = r₁.rename (ρ₁.symm.trans ρ₂) := by
  have hfixes := h₁.fixes.symm.trans h₂.fixes
  refine ⟨hfixes, ?_⟩
  rw [h₁.eq, h₂.eq, Recognizer.rename_rename h₁.fixes hfixes, ← Equiv.trans_assoc,
    Equiv.self_trans_symm, Equiv.refl_trans]

theorem stepsAlike (hg : g.Valid) (h : g.Renumbers u r r' ρ) (token : Token) :
    r'.StepsAlike token := by
  obtain ⟨b, r₁, u₁, -, hstep⟩ := h.consume_ok hg token
  have hsize : r'.store.size = r.store.size := by
    rw [h.eq]
    exact ContextStore.size_rename
  apply hstep.imp
  rintro ⟨b', r₂⟩ ⟨rfl, ρ₁, hagree₁, h₁⟩ y hy
  obtain ⟨⟨b₂, r₃⟩, heq, rfl, ρ₂, hagree₂, h₂⟩ := hstep.2 _ hy
  obtain rfl := Except.ok.inj heq
  obtain ⟨hfixes, hr⟩ := h₁.rename_between h₂
  refine ⟨rfl, ?_, ρ₁.symm.trans ρ₂, fun i hi => ?_, ?_, hr⟩
  · rw [hr]
    exact keys_renameAll
  · -- both renamings do to a context from before what the one before the step does
    have hi' : ρ.symm i < r.store.size := by
      rw [h.fixes.symm.lt_iff, ← hsize]
      exact hi
    have h₁i : ρ₁.symm i = ρ.symm i := by
      rw [Equiv.symm_apply_eq, hagree₁ _ hi', Equiv.apply_symm_apply]
    rw [Equiv.trans_apply, h₁i, hagree₂ _ hi', Equiv.apply_symm_apply]
  · intro i hi
    apply hfixes i
    rw [h₁.eq] at hi
    exact hi.trans' ContextStore.size_rename.ge

/-- A run in any orders answers as the recognizer does, and comes to the same up to the numbers of
contexts. -/
theorem consumeAll_ok (hg : g.Valid) (h : g.Renumbers u r r' ρ) {tokens : List Token}
    {answers : List Bool} {r₁ : Recognizer} (hrun : r.consumeAll tokens = .ok (answers, r₁)) :
    Surely (r'.consumeAllUnordered tokens) fun x => x.1 = answers ∧
      ∃ u₁ ρ₁, g.Renumbers u₁ r₁ x.2 ρ₁ := by
  induction tokens generalizing u r r' ρ answers with
  | nil =>
    cases hrun
    exact .pure ⟨rfl, u, ρ, h⟩
  | cons token tokens ih =>
    obtain ⟨b, r₂, u₂, hc, hstep⟩ := h.consume_ok hg token
    rw [Recognizer.consumeAll, ok_bind hc] at hrun
    dsimp only at hrun
    cases hrest : r₂.consumeAll tokens with
    | error f =>
      rw [hrest] at hrun
      cases hrun
    | ok rest =>
      rw [ok_bind hrest] at hrun
      cases hrun
      apply hstep.bind
      rintro ⟨b', r₃⟩ ⟨rfl, ρ₂, -, h₂⟩
      apply (ih h₂ hrest).bind
      rintro ⟨answers', r₄⟩ ⟨rfl, h₄⟩
      exact .pure ⟨rfl, h₄⟩

end Renumbers

variable {t : Tables}

theorem Valid.startUnordered_ok (hg : g.Valid) (ht : t.Fits g) (options : Options) (log : Log) :
    ∃ a, Recognizer.start t options log = .ok (t.started options log a) ∧
      g.Fresh (t.started options log a) ∧
        Surely (Recognizer.startUnordered t options log) fun r' =>
          ∃ ρ, g.Renumbers [] (t.started options log a) r' ρ := by
  obtain ⟨a, hrun, hlands⟩ := hg.start_lands ht options log
  obtain ⟨r, hrun', hfresh⟩ := hg.start_ok ht options log
  obtain rfl := Except.ok.inj (hrun.symm.trans hrun')
  have hstarting := hg.starting ht
  refine ⟨a, hrun, hfresh, (hstarting.start_ok options log).imp ?_⟩
  rintro _ ⟨a', hlands', rfl⟩
  have hrefl := ContextStore.rename_refl hstarting.full
  rw [← hrefl] at hlands'
  obtain ⟨ρ, -, hfixes, rfl⟩ :=
    hlands.exists_rename hstarting (fun _ _ => rfl) (fun _ _ => Iff.rfl) hlands'
  refine ⟨ρ, hfresh.toReading, hfixes, ?_⟩
  simp [Tables.started, Recognizer.rename, Advance.rename]

/-- Whatever a recognizer can come to in any orders is, up to the numbers of contexts, what it can
come to in the order in which it runs. -/
theorem Valid.renumbers_of_reached (hg : g.Valid) (ht : t.Fits g) {options : Options} {log : Log}
    (h : Recognizer.Reached t options log r') : ∃ u r ρ, g.Renumbers u r r' ρ := by
  induction h with
  | fresh h =>
    obtain ⟨a, -, -, hstart⟩ := hg.startUnordered_ok ht options log
    obtain ⟨r', heq, ρ, hr⟩ := hstart.2 _ h
    obtain rfl := Except.ok.inj heq
    exact ⟨[], _, ρ, hr⟩
  | consumed _ hc ih =>
    obtain ⟨u, r, ρ, hr⟩ := ih
    obtain ⟨b, r₁, u₁, -, hstep⟩ := hr.consume_ok hg _
    obtain ⟨⟨b', r'⟩, heq, -, ρ₁, -, h₁⟩ := hstep.2 _ hc
    cases heq
    exact ⟨u₁, r₁, ρ₁, h₁⟩
  | forked _ ih =>
    obtain ⟨u, r, ρ, hr⟩ := ih
    exact ⟨u, r.fork, ρ, hr.reading.relog _, hr.fixes, by rw [hr.eq]; rfl⟩
  | logged _ log ih =>
    obtain ⟨u, r, ρ, hr⟩ := ih
    exact ⟨u, { r with log := log }, ρ, hr.reading.relog log, hr.fixes, by rw [hr.eq]; rfl⟩

/-- A step from whatever a recognizer can come to is the same in all orders, up to the numbers of
the contexts made in it. A run in any orders answers what the recognizer answers, ends with the same
offset, acceptance, statistics and number of contexts, and comes to the same up to the numbers of
contexts. -/
theorem order_free (hg : g.Built) (hv : g.validate = .ok ()) (options : Options) (log : Log)
    (elapsed : Nat) :
    ∃ e l, Engine.build g options log elapsed = .ok (e, l) ∧ e.HandsOut fun r₀ =>
      (∀ r, Recognizer.Reached r₀.tables r₀.options r₀.log r → ∀ token, r.StepsAlike token) ∧
        ∀ tokens, ∃ answers r, r₀.consumeAll tokens = .ok (answers, r) ∧
          Surely (do
            let r' ← Recognizer.startUnordered r₀.tables r₀.options r₀.log
            r'.consumeAllUnordered tokens) fun x => x.1 = answers ∧ x.2.Agree r ∧
              ∃ ρ : Equiv.Perm Nat, (∀ i, r.store.size ≤ i → ρ i = i) ∧ x.2 = r.rename ρ := by
  have hval := hg.valid hv
  obtain ⟨n, hn⟩ := hval.build_ok
  obtain ⟨e, l, hb, ht, -⟩ := hn options log elapsed
  have hfit : e.tables.Fits g := by
    rw [ht]
    exact hval.tables_fit n _
  refine ⟨e, l, hb, fun e' he level => ?_⟩
  rw [← he] at hfit
  obtain ⟨a, hrun, hfresh, hstart⟩ :=
    hval.startUnordered_ok hfit e'.options (.new level e'.consoleLevel)
  refine ⟨_, hrun, fun r hr token => ?_, fun tokens => ?_⟩
  · obtain ⟨u, r', ρ, h⟩ := hval.renumbers_of_reached hfit hr
    exact h.stepsAlike hval token
  · obtain ⟨answers, r, -, -, hrun, -, -⟩ :=
      (Twins.of_fresh hfresh hfresh).consumeAll_ok hval tokens
    refine ⟨answers, r, hrun, hstart.bind fun r' ⟨ρ, h⟩ => ?_⟩
    apply (h.consumeAll_ok hval hrun).imp
    rintro ⟨_, r''⟩ ⟨rfl, u, ρ', h'⟩
    refine ⟨rfl, ?_, ρ', h'.fixes, h'.eq⟩
    rw [h'.eq]
    exact Recognizer.agree_rename

theorem order_free_sum :
    sumGrammar.Built ∧ sumGrammar.validate = .ok () ∧
      ∃ e l, Engine.build sumGrammar {} .quiet 0 = .ok (e, l) ∧ e.HandsOut fun r₀ =>
        (∀ r, Recognizer.Reached r₀.tables r₀.options r₀.log r → ∀ token, r.StepsAlike token) ∧
          ∀ tokens, ∃ answers r, r₀.consumeAll tokens = .ok (answers, r) ∧
            Surely (do
              let r' ← Recognizer.startUnordered r₀.tables r₀.options r₀.log
              r'.consumeAllUnordered tokens) fun x => x.1 = answers ∧ x.2.Agree r ∧
                ∃ ρ : Equiv.Perm Nat, (∀ i, r.store.size ≤ i → ρ i = i) ∧ x.2 = r.rename ρ :=
  ⟨built_sum, validate_sum, order_free built_sum validate_sum {} .quiet 0⟩

end Grammar

end TokenGrammar
