import TokenGrammar.Proofs.Allotment
import TokenGrammar.Proofs.ClosedForms

/-!
# The graph of contexts

Whatever a recognizer has come to, each of its contexts was made for one rule, or for the root, and
wherever a context stands or is resumed, the position is one of that rule. Tail calls are closed.
That is why a step can do with the callbacks of the contexts that it finds at a terminal: there is no
chain of returns that leads further.
-/

namespace TokenGrammar

namespace Grammar

/-- A position belongs to a body. The end mark belongs to the root. -/
def Houses (g : Grammar) (k : Option Nat) (p : Nat) : Prop :=
  g.Owns k p ∨ k = none ∧ p = g.endIndex

/-- No set of a map from positions to contexts is empty, and all contexts in them are frozen and were
made for the bodies that the positions belong to. -/
def WellTyped (g : Grammar) (s : ContextStore) (owners : List (Option Nat))
    (m : NatMap ContextSet) : Prop :=
  ∀ (p : Nat) (set : ContextSet), m[p]? = some set → (∃ i, i ∈ set) ∧
    ∀ i ∈ set, s.isFrozen i = true ∧ ∃ k, owners[i]? = some k ∧ g.Houses k p

end Grammar

namespace Recognizer

/-- All contexts of a recognizer are frozen, and `owners` says what they were made for: context 0 for
the root and each of the others for a rule. The frontier and the callbacks of all contexts are
well-typed. -/
structure Typed (g : Grammar) (owners : List (Option Nat)) (r : Recognizer) : Prop where
  frozen : ∀ c < r.store.size, r.store.isFrozen c = true
  size : owners.length = r.store.size
  root : owners[0]? = some none
  rule : ∀ (i : Nat) (k : Option Nat), 0 < i → owners[i]? = some k → ∃ a < g.rules.size, k = some a
  frontier : g.WellTyped r.store owners r.frontier
  callbacks : ∀ (c : Nat) (m : Callbacks), r.store.contexts[c]? = some m →
    g.WellTyped r.store owners m

/-- A context with a callback in tail position has all callbacks of the contexts that it resumes
there. -/
def TailClosed (r : Recognizer) : Prop :=
  ∀ (c k : Nat) (m : Callbacks) (set : ContextSet), r.store.contexts[c]? = some m →
    m[k]? = some set → r.tables.Tail k → ∀ i ∈ set, ∀ m' : Callbacks,
      r.store.contexts[i]? = some m' → ∀ (k' : Nat) (set' : ContextSet), m'[k']? = some set' →
        ∃ all, m[k']? = some all ∧ set' ≤ all

/-- When an entry of the frontier accepts a token, control goes on after its terminal, and wherever
it gets by a chain of returns. -/
def Unwinds (r : Recognizer) : Prop :=
  ∀ token, ∃ matched, Frontier.matching r.tables token r.frontier.toList = .ok matched ∧
    ∀ e ∈ matched, ∀ arrived, Full arrived →
      ∃ f, Frontier.proceed r.tables r.store arrived e = .ok f ∧ ∀ q i, Holds f q i ↔
        Holds arrived q i ∨ i ∈ e.2 ∧ r.tables.After e.1 q ∨
          r.tables.Tail e.1 ∧ ∃ c ∈ e.2, ∃ k, r.store.Unwinds r.tables c k i ∧ r.tables.After k q

end Recognizer

namespace Grammar

variable {g : Grammar} {w : List Token} {r : Recognizer} {x : Activation} {i p : Nat}

theorem Stands.houses (h : g.Stands w x p) : g.Houses x.top p := by
  rcases h with ⟨hat, -⟩ | ⟨rfl, rfl, -⟩
  · exact .inl hat.owns
  · exact .inr ⟨rfl, rfl⟩

theorem getElem?_owners_zero : (g.owners w)[0]? = some none := by
  simp [owners, activations, enteredBefore]

theorem WellFormed.rule_of_owners (hg : g.WellFormed) {k : Option Nat} (hi : 0 < i)
    (h : (g.owners w)[i]? = some k) : ∃ a < g.rules.size, k = some a := by
  rw [owners, List.getElem?_map] at h
  obtain ⟨⟨top, start⟩, hx, rfl⟩ := Option.map_eq_some_iff.1 h
  have hent := (hg.mem_activations_iff.1 (List.mem_of_getElem? hx)).1
  cases top with
  | none =>
    have hzero : (g.activations w)[0]? = some ⟨none, start⟩ := by
      rw [hent.eq_root rfl]
      simp [activations, enteredBefore]
    have h0 := (List.getElem?_inj (List.getElem?_eq_some_iff.1 hx).1
      hg.nodup_activations).1 (hx.trans hzero.symm)
    exact absurd h0 (Nat.ne_of_gt hi)
  | some a =>
    have hmem := hg.mem_enteredRules_iff.2 hent
    rw [enteredRules, AscSet.mem_restrict, Finset.mem_range] at hmem
    exact ⟨a, hmem.1, rfl⟩

namespace Linked

variable (hg : g.Valid) (h : g.Linked w r)
include h

theorem isFrozen (hi : i < r.store.size) : r.store.isFrozen i = true := by
  simpa [ContextStore.isFrozen, h.tracks.store.frozen] using hi

theorem wellTyped {m : NatMap ContextSet} (hm : Full m)
    (hv : ∀ p i, Holds m p i → ∃ x, (g.activations w)[i]? = some x ∧ g.Houses x.top p) :
    g.WellTyped r.store (g.owners w) m := by
  intro p set hset
  refine ⟨hm p set hset, fun i hi => ?_⟩
  obtain ⟨x, hx, hp⟩ := hv p i ⟨set, hset, hi⟩
  have hlt := (List.getElem?_eq_some_iff.1 hx).1
  rw [← h.tracks.store.size] at hlt
  refine ⟨h.isFrozen hlt, x.top, ?_, hp⟩
  rw [owners, List.getElem?_map, hx, Option.map_some]

include hg

theorem typed : r.Typed g (g.owners w) where
  frozen _ hc := h.isFrozen hc
  size := by rw [owners, List.length_map, h.tracks.store.size]
  root := getElem?_owners_zero
  rule _ _ hi hk := hg.rule_of_owners hi hk
  frontier := by
    refine h.wellTyped h.tracks.full fun p i hi => ?_
    obtain ⟨x, hx, hst⟩ := (h.tracks.holds p i).1 hi
    exact ⟨x, hx, hst.houses⟩
  callbacks c m hm := by
    refine h.wellTyped (h.tracks.store.full c m hm) fun p i hi => ?_
    obtain ⟨a, u, y, -, hy, hret⟩ := h.tracks.store.sound ⟨m, hm, hi⟩
    obtain ⟨u', hat⟩ := hret.at
    exact ⟨y, hy, .inl hat.owns⟩

omit hg in
theorem tailClosed : r.TailClosed := by
  intro c k m set hm hset hk i hi m' hm' k' set' hset'
  have hon : ∀ j ∈ set', Holds m k' j := by
    intro j hj
    obtain ⟨m₁, hm₁, hh⟩ := h.closed ⟨m, hm, set, hset, hi⟩ hk ⟨m', hm', set', hset', hj⟩
    obtain rfl := Option.some.inj (hm.symm.trans hm₁)
    exact hh
  obtain ⟨j, hj⟩ := h.tracks.store.full i m' hm' k' set' hset'
  obtain ⟨all, hall, -⟩ := hon j hj
  refine ⟨all, hall, fun j hj => ?_⟩
  obtain ⟨all', hall', hj⟩ := hon j hj
  obtain rfl := Option.some.inj (hall.symm.trans hall')
  exact hj

theorem unwinds : r.Unwinds := by
  intro token
  obtain ⟨matched, hm, -, hat⟩ := hg.matched_ok h.fits h.tracks token
  refine ⟨matched, hm, fun e he arrived hfull => ?_⟩
  obtain ⟨hset, hat⟩ := hat e he
  obtain ⟨f, hp, -, hv⟩ := hg.proceed_ok h.fits h.tracks.store hset hat hfull
  refine ⟨f, hp, fun q i => (hv (q, i)).trans (or_congr_right ?_)⟩
  simp only [ContextStore.TailClosed.unwinds_iff h.closed]
  constructor
  · rintro ⟨j, hj, y, hy, hor⟩
    obtain ⟨y', hy', hyat⟩ := hat j hj
    obtain rfl := Option.some.inj (hy.symm.trans hy')
    rcases hor with ⟨rfl, hn⟩ | ⟨hl, k, z, hres, hz, hn⟩
    · exact .inl ⟨hj, (hg.after_iff h.fits hyat).2 hn⟩
    · obtain ⟨z', hz', hafter⟩ := h.tracks.after_resumed hg h.fits hres
      obtain rfl := Option.some.inj (hz.symm.trans hz')
      exact .inr ⟨(hg.tail_iff h.fits hyat).2 hl, j, hj, k, hres, (hafter q).2 hn⟩
  · rintro (⟨hi, hq⟩ | ⟨htail, c, hc, k, hres, hq⟩)
    · obtain ⟨y, hy, hyat⟩ := hat i hi
      exact ⟨i, hi, y, hy, .inl ⟨rfl, (hg.after_iff h.fits hyat).1 hq⟩⟩
    · obtain ⟨y, hy, hyat⟩ := hat c hc
      obtain ⟨z, hz, hafter⟩ := h.tracks.after_resumed hg h.fits hres
      exact ⟨c, hc, y, hy, .inr ⟨(hg.tail_iff h.fits hyat).1 htail, k, z, hres, hz,
        (hafter q).1 hq⟩⟩

end Linked

/-- In whatever a recognizer can come to, its contexts are well-typed, tail calls are closed, and a
step performs every chain of returns. -/
theorem contexts_closed (hg : g.Built) (hv : g.validate = .ok ()) (options : Options) (log : Log)
    (elapsed : Nat) :
    ∃ e l, Engine.build g options log elapsed = .ok (e, l) ∧ e.HandsOut fun r₀ =>
      ∀ u r, r₀.Run u r → (∃ owners, r₀.Allots u r owners) ∧
        (∀ owners, r₀.Allots u r owners → r.Typed g owners) ∧ r.TailClosed ∧ r.Unwinds := by
  have hval := hg.valid hv
  obtain ⟨n, hn⟩ := hval.build_ok
  obtain ⟨e, l, hb, ht, -⟩ := hn options log elapsed
  have hfit : e.tables.Fits g := by
    rw [ht]
    exact hval.tables_fit n _
  refine ⟨e, l, hb, fun e' he level => ?_⟩
  rw [← he] at hfit
  obtain ⟨r₀, hr₀, h₀⟩ := hval.begun_ok hfit e'.options (.new level e'.consoleLevel)
  refine ⟨r₀, hr₀, fun u r hrun => ?_⟩
  obtain ⟨owners, ho⟩ := h₀.exists_allots hval hrun
  obtain ⟨w, hw, -⟩ := h₀.linked hval ho
  refine ⟨⟨owners, ho⟩, fun owners ho => ?_, hw.tailClosed, hw.unwinds hval⟩
  obtain ⟨w, hw, rfl⟩ := h₀.linked hval ho
  exact hw.typed hval

/-- Two rules that are aliases of each other are entered at once. Context 2 is complete where it
resumes context 1, and so resumes the root too, as context 1 does. -/
theorem contexts_closed_alias :
    aliasGrammar.Built ∧ aliasGrammar.validate = .ok () ∧
      ∃ e l r, Engine.build aliasGrammar ⟨false, false⟩ .quiet 0 = .ok (e, l) ∧
        e.recognizerWith 0 = .ok r ∧ (∃ owners, r.Allots [] r owners ∧ r.Typed aliasGrammar owners) ∧
        r.Unwinds ∧ r.store.Resumes 2 0 1 ∧ r.tables.Tail 0 ∧ r.store.Resumes 1 6 0 ∧
          r.store.Resumes 2 6 0 := by
  obtain ⟨e, l, hb, hout⟩ := contexts_closed built_alias validate_alias ⟨false, false⟩ .quiet 0
  obtain ⟨r, hr, hclosed⟩ := hout e rfl 0
  obtain ⟨⟨owners, ho⟩, htyped, htail, hunwinds⟩ := hclosed [] r .fresh
  have hview : (do
      let built ← Engine.build aliasGrammar ⟨false, false⟩ .quiet 0
      let r ← built.1.recognizerWith 0
      return (r.store.contexts.toList.map fun m => (m[0]?, m[6]?), r.tables.rows[0]?.map (·.inTail)))
        = Except.ok (ε := Failure) ([(none, none), (some (.single 1), some (.single 0)),
          (some (.single 1), some (.single 0))], some true) := by
    decide +kernel
  rw [ok_bind hb, ok_bind hr] at hview
  obtain ⟨hctx, hrow⟩ := Prod.mk.inj (Except.ok.inj hview)
  have hget : ∀ (c : Nat) (v : Option ContextSet × Option ContextSet),
      (r.store.contexts.toList.map fun m => (m[0]?, m[6]?))[c]? = some v →
        ∃ m : Callbacks, r.store.contexts[c]? = some m ∧ m[0]? = v.1 ∧ m[6]? = v.2 := by
    intro c v hv
    rw [List.getElem?_map, Array.getElem?_toList] at hv
    obtain ⟨m, hm, rfl⟩ := Option.map_eq_some_iff.1 hv
    exact ⟨m, hm, rfl, rfl⟩
  rw [hctx] at hget
  obtain ⟨m₁, hm₁, -, h₁⟩ := hget 1 _ rfl
  obtain ⟨m₂, hm₂, h₂, -⟩ := hget 2 _ rfl
  obtain ⟨row, hrow, hin⟩ := Option.map_eq_some_iff.1 hrow
  have ht : r.tables.Tail 0 := ⟨row, inRange_ok hrow, hin⟩
  have hself : ∀ {i : Nat}, i ∈ (AscSet.single i : ContextSet) := AscSet.mem_single.2 rfl
  obtain ⟨all, hall, hle⟩ := htail 2 0 m₂ _ hm₂ h₂ ht 1 hself m₁ hm₁ 6 _ h₁
  exact ⟨built_alias, validate_alias, e, l, r, hb, hr, ⟨owners, ho, htyped owners ho⟩, hunwinds,
    ⟨m₂, hm₂, _, h₂, hself⟩, ht, ⟨m₁, hm₁, _, h₁, hself⟩, ⟨m₂, hm₂, all, hall, hle 0 hself⟩⟩

end Grammar

end TokenGrammar
