import TokenGrammar.Proofs.ContextGraph
import TokenGrammar.Proofs.Layout
import TokenGrammar.Proofs.Streaming

/-!
# Sharing keeps recognizers small

However many derivations there are, a recognizer has one frontier entry for a terminal and makes one
context for a rule that it enters at an offset. All contexts that are at one position were made for
the body of that position, so they differ in the offset only.
-/

namespace TokenGrammar

theorem AscSet.size_le_of_injOn {α : Type} [LinearKey α] {s : AscSet α} {n : Nat} {f : α → Nat}
    (hf : ∀ x ∈ s, f x < n) (hinj : ∀ x ∈ s, ∀ y ∈ s, f x = f y → x = y) : s.size ≤ n := by
  classical
  rw [size, ← List.toFinset_card_of_nodup s.nodup, ← Finset.card_range n]
  refine Finset.card_le_card_of_injOn f (fun x hx => ?_) fun x hx y hy => ?_
  · exact Finset.mem_range.2 (hf x (List.mem_toFinset.1 hx))
  · exact hinj x (List.mem_toFinset.1 hx) y (List.mem_toFinset.1 hy)

/-- The recognizer holds a set of contexts at a position, in its frontier or among the callbacks of
one of its contexts. -/
inductive Recognizer.Keeps (r : Recognizer) (p : Nat) (set : ContextSet) : Prop
  | frontier (h : r.frontier[p]? = some set)
  | callback {c : Nat} {m : Callbacks} (hm : r.store.contexts[c]? = some m) (h : m[p]? = some set)

namespace Grammar

/-- The terminals among the positions of the bodies of some rules and of the root. -/
def topTerminals (g : Grammar) (rules : RuleSet) : List Expr :=
  (g.topPositions rules).filter (·.isTerminal)

/-- The calls among the positions of the bodies of some rules and of the root. -/
def topCalls (g : Grammar) (rules : RuleSet) : List Expr := (g.topPositions rules).filter (·.isCall)

end Grammar

/-- What a recognizer holds is bounded by how many positions and `rules` there are and by how much it
has read. -/
structure Recognizer.Shares (g : Grammar) (rules : RuleSet) (r : Recognizer) : Prop where
  entries : ∀ p ∈ r.frontier, p = g.endIndex ∨ p ∈ (g.topTerminals rules).map (·.ref.index)
  numEntries : r.numEntries ≤ (g.topTerminals rules).length + 1
  contexts : r.store.size ≤ 1 + (r.stats.steps + 1) * rules.size
  root : ∀ p set, r.Keeps p set → g.Houses none p → set = .single 0
  rule : r.rejectedAt = none → ∀ p set, r.Keeps p set → ¬ g.Houses none p →
    set.size ≤ r.offset + 1
  continuations : ∀ (c : Nat) (m : Callbacks), r.store.contexts[c]? = some m → ∀ p ∈ m,
    p ∈ (g.topCalls rules).map (·.ref.index)

namespace Grammar

variable {g : Grammar} {u w : List Token} {r r' r₀ : Recognizer} {k k' : Option Nat} {p : Nat}
  {t : Token} {b : Bool} {set : ContextSet}

theorem Valid.houses_unique (hg : g.Valid) (h : g.Houses k p) (h' : g.Houses k' p) : k = k' := by
  rcases h with h | ⟨rfl, rfl⟩ <;> rcases h' with h' | ⟨rfl, h'⟩
  · exact hg.owner_unique h h'
  · exact absurd (h' ▸ h) hg.not_owns_endIndex
  · exact absurd h' hg.not_owns_endIndex
  · rfl

theorem Returns.callee {a c : Nat} {x : Activation} (h : g.Returns a u c x) :
    ∃ b, g.calleeAt? c = some b := by
  induction h with
  | direct _ hc _ => exact ⟨_, hc⟩
  | tail _ _ _ _ _ _ ih => exact ih

theorem Valid.enteredRules_le (hg : g.Valid) : g.enteredRules u ≤ g.usedRules := by
  intro a ha
  exact hg.mem_usedRules_iff.2 (hg.uses_of_entered (hg.mem_enteredRules_iff.1 ha) a rfl)

theorem Valid.length_activations_le (hg : g.Valid) :
    (g.activations u).length ≤ 1 + (u.length + 1) * g.usedRules.size := by
  have hstep : ∀ u, (g.entering u).length ≤ g.usedRules.size := fun u => by
    rw [entering, List.length_map]
    exact AscSet.size_le_of_le hg.enteredRules_le
  induction u using List.reverseRecOn with
  | nil =>
    have := hstep []
    simp only [activations, enteredBefore, List.length_append, List.length_cons, List.length_nil,
      List.range_zero, List.flatMap_nil]
    omega
  | append_singleton u t ih =>
    have := hstep (u ++ [t])
    rw [activations, enteredBefore_concat, List.length_append, List.length_append,
      List.length_singleton, Nat.add_mul _ 1, Nat.one_mul]
    omega

/-- The recognizer has made a step for each token of `w`. It may have been rejected by the last. -/
structure Stepped (g : Grammar) (w : List Token) (r : Recognizer) : Prop extends g.Linked w r where
  steps : r.stats.steps = w.length
  offset : r.rejectedAt = none → r.offset = w.length

namespace Stepped

theorem relog (h : g.Stepped w r) (log : Log) : g.Stepped w { r with log := log } :=
  ⟨⟨h.fits, h.tracks, h.closed⟩, h.steps, h.offset⟩

theorem consume (hg : g.Valid) (h : g.Stepped w r) (hc : r.consume t = .ok (b, r')) :
    ∃ w', g.Stepped w' r' := by
  rcases Recognizer.consume_cases hc with ⟨k, log, -, -, rfl⟩ | ⟨hrej, a, log, -, hor⟩
  · exact ⟨w, h.relog log⟩
  · obtain ⟨-, -, -, hnext⟩ := h.toLinked.consume_ok hg hrej t
    refine ⟨w ++ [t], hnext b r' hc, ?_, ?_⟩
    · rw [List.length_append, ← h.steps]
      rcases hor with ⟨-, -, rfl⟩ | ⟨-, -, rfl⟩ <;> rfl
    · rw [List.length_append, ← h.offset hrej]
      rcases hor with ⟨-, -, rfl⟩ | ⟨-, -, rfl⟩
      · exact fun hnone => by cases hnone
      · exact fun _ => rfl

theorem run (hg : g.Valid) (h₀ : g.Stepped [] r₀) (h : r₀.Run u r) : ∃ w, g.Stepped w r := by
  induction h with
  | fresh => exact ⟨[], h₀⟩
  | consumed _ hc ih | refused _ hc ih =>
    obtain ⟨w, hw⟩ := ih
    exact hw.consume hg hc
  | forked _ ih | logged _ _ ih =>
    obtain ⟨w, hw⟩ := ih
    exact ⟨w, hw.relog _⟩

end Stepped

namespace Linked

variable (hg : g.Valid) (h : g.Linked w r)
include hg h

omit hg in
theorem housed (hs : r.Keeps p set) : (∃ i, i ∈ set) ∧
    ∀ i ∈ set, ∃ x, (g.activations w)[i]? = some x ∧ g.Houses x.top p := by
  cases hs with
  | frontier hset =>
    refine ⟨h.tracks.full p set hset, fun i hi => ?_⟩
    obtain ⟨x, hx, hst⟩ := (h.tracks.holds p i).1 ⟨set, hset, hi⟩
    exact ⟨x, hx, hst.houses⟩
  | @callback c m hm hset =>
    refine ⟨h.tracks.store.full c m hm p set hset, fun i hi => ?_⟩
    obtain ⟨a, u, y, -, hy, hret⟩ := h.tracks.store.sound ⟨m, hm, set, hset, hi⟩
    obtain ⟨u', hat⟩ := hret.at
    exact ⟨y, hy, .inl hat.owns⟩

theorem eq_single_zero (hs : r.Keeps p set) (hp : g.Houses none p) : set = .single 0 := by
  obtain ⟨⟨j, hj⟩, hset⟩ := h.housed hs
  have hzero : ∀ i ∈ set, i = 0 := by
    intro i hi
    obtain ⟨x, hx, hxp⟩ := hset i hi
    have hmem := (hg.mem_activations_iff.1 (List.mem_of_getElem? hx)).1
    rw [hmem.eq_root (hg.houses_unique hxp hp)] at hx
    have hroot : (g.activations w)[0]? = some ⟨none, []⟩ := rfl
    exact (List.getElem?_inj (List.getElem?_eq_some_iff.1 hx).1 hg.nodup_activations).1
      (hx.trans hroot.symm)
  refine AscSet.ext_mem fun i => ?_
  rw [AscSet.mem_single]
  refine ⟨hzero i, ?_⟩
  rintro rfl
  exact hzero j hj ▸ hj

/-- The contexts at a position differ in where they were made, for which there is one choice for each
token that has been read, and one before the first. -/
theorem size_le (hs : r.Keeps p set) : set.size ≤ w.length + 1 := by
  obtain ⟨-, hset⟩ := h.housed hs
  have hact : ∀ i ∈ set, ∃ x, (g.activations w)[i]? = some x ∧ g.Houses x.top p ∧ x.start <+: w :=
    fun i hi => by
      obtain ⟨x, hx, hxp⟩ := hset i hi
      exact ⟨x, hx, hxp, (hg.mem_activations_iff.1 (List.mem_of_getElem? hx)).2⟩
  refine AscSet.size_le_of_injOn
    (f := fun i => (((g.activations w)[i]?).map (·.start.length)).getD 0) (fun i hi => ?_) ?_
  · obtain ⟨x, hx, -, hpre⟩ := hact i hi
    simp only [hx, Option.map_some, Option.getD_some]
    exact Nat.lt_succ_of_le hpre.length_le
  · -- two activations of one body that start equally far into `w` are the same
    intro i hi j hj hij
    obtain ⟨x, hx, hxp, hpre⟩ := hact i hi
    obtain ⟨y, hy, hyp, hpre'⟩ := hact j hj
    simp only [hx, hy, Option.map_some, Option.getD_some] at hij
    have hxy : x = y := by
      obtain ⟨top, start⟩ := x
      obtain ⟨top', start'⟩ := y
      obtain rfl : top = top' := hg.houses_unique hxp hyp
      obtain rfl : start = start' :=
        (List.prefix_of_prefix_length_le hpre hpre' hij.le).eq_of_length hij
      rfl
    exact (List.getElem?_inj (List.getElem?_eq_some_iff.1 hx).1 hg.nodup_activations).1
      (hx.trans (hxy ▸ hy).symm)

theorem mem_terminals (hp : p ∈ r.frontier) :
    p = g.endIndex ∨ p ∈ (g.topTerminals g.usedRules).map (·.ref.index) := by
  obtain ⟨x, ⟨hat, hc⟩ | ⟨-, rfl, -⟩⟩ := (h.tracks.mem_iff hg).1 hp
  · obtain ⟨y, hy, hs, rfl⟩ := hg.position_of_used (hg.uses_of_entered hat.1) hat.owns
    obtain ⟨e, -, hye⟩ := List.mem_flatMap.1 hy
    have ht : y.isTerminal = true := by
      refine (Expr.terminal_or_call_of_mem_positions hye).resolve_right fun hcall => ?_
      rw [hs.isCallAt, hcall] at hc
      cases hc
    exact .inr (List.mem_map_of_mem (List.mem_filter.2 ⟨hy, ht⟩))
  · exact .inl rfl

theorem mem_calls {c : Nat} {m : Callbacks} (hm : r.store.contexts[c]? = some m) (hp : p ∈ m) :
    p ∈ (g.topCalls g.usedRules).map (·.ref.index) := by
  obtain ⟨i, hi⟩ := (mem_iff_holds (h.tracks.store.full c m hm)).1 hp
  obtain ⟨a, u, y, -, hy, hret⟩ := h.tracks.store.sound ⟨m, hm, hi⟩
  obtain ⟨u', hat⟩ := hret.at
  obtain ⟨x, hx, hs, rfl⟩ := hg.position_of_used (hg.uses_of_entered hat.1) hat.owns
  have hcall : x.isCall = true := hs.isCallAt.symm.trans (isCallAt_iff.2 hret.callee)
  exact List.mem_map_of_mem (List.mem_filter.2 ⟨hx, hcall⟩)

end Linked

/-- Whatever it has read, a recognizer shares. -/
theorem Stepped.shares (hg : g.Valid) (h : g.Stepped w r) : r.Shares g g.usedRules where
  entries _ hp := h.mem_terminals hg hp
  numEntries := by
    have hsub : r.frontier.keys ⊆
        g.endIndex :: (g.topTerminals g.usedRules).map (·.ref.index) := fun p hp =>
      List.mem_cons.2 (h.mem_terminals hg (Std.ExtTreeMap.mem_keys.1 hp))
    have hle := (List.Nodup.subperm Std.ExtTreeMap.nodup_keys hsub).length_le
    rw [Std.ExtTreeMap.length_keys, List.length_cons, List.length_map] at hle
    exact hle
  contexts := by
    rw [h.tracks.store.size, h.steps]
    exact hg.length_activations_le
  root _ _ hs hp := h.eq_single_zero hg hs hp
  rule hr p set hs _ := by
    rw [h.offset hr]
    exact h.size_le hg hs
  continuations _ _ hm _ hp := h.mem_calls hg hm hp

/-- What is made in a step is one context for each of some rules that the root leads to. -/
theorem Begun.made (hg : g.Valid) (h₀ : g.Begun r₀) {owners owners' : List (Option Nat)}
    (h : r₀.Allots u r owners) {e : Entering}
    (he : Frontier.enterCallsAfter r.tables r.store r.frontier.toList t = .ok e)
    (ho : e.Allots owners owners') :
    ∃ made : RuleSet, owners' = owners ++ made.toList.map some ∧ made ≤ g.usedRules := by
  obtain ⟨w, hw, rfl⟩ := h₀.linked hg h
  obtain ⟨e', a, he', -, -, -, hallots⟩ := hw.tracks.enterCallsAfter_ok hg hw.fits hw.closed t
  obtain rfl := Except.ok.inj (he.symm.trans he')
  refine ⟨g.enteredRules (w ++ [t]), ((hallots _).1 ho).trans ?_, hg.enteredRules_le⟩
  rw [owners, owners, activations, enteredBefore_concat, List.map_append, entering, List.map_map]
  rfl

/-- Whatever a recognizer has come to, its size is bounded by the numbers of positions, of rules and
of tokens read. In each step it makes at most one context for a rule. -/
theorem growth_bounded (hg : g.Built) (hv : g.validate = .ok ()) (options : Options) (log : Log)
    (elapsed : Nat) :
    ∃ e l, Engine.build g options log elapsed = .ok (e, l) ∧
      (∀ a, a ∈ e.tables.rules ↔ g.LeadsTo g.root a) ∧
      ((g.topPositions e.tables.rules).map (·.ref.index)).Nodup ∧
      e.HandsOut fun r₀ => ∀ u r, r₀.Run u r → r.Shares g e.tables.rules ∧
        ∃ owners, r₀.Allots u r owners ∧ owners.length = r.store.size ∧
          ∀ t s owners',
            Frontier.enterCallsAfter r.tables r.store r.frontier.toList t = .ok s →
              s.Allots owners owners' → ∃ made : RuleSet,
                owners' = owners ++ made.toList.map some ∧ made ≤ e.tables.rules := by
  have hval := hg.valid hv
  obtain ⟨n, hn⟩ := hval.build_ok
  obtain ⟨e, l, hb, ht, -⟩ := hn options log elapsed
  have hrules : e.tables.rules = g.usedRules := by
    rw [ht]
    rfl
  have hfit : e.tables.Fits g := by
    rw [ht]
    exact hval.tables_fit n _
  refine ⟨e, l, hb, ?_, hval.nodup_topPositions _, fun e' he level => ?_⟩
  · rw [hrules]
    exact fun a => hval.mem_usedRules_iff
  rw [← he] at hfit
  obtain ⟨r₀, hr₀, h₀⟩ := hval.begun_ok hfit e'.options (.new level e'.consoleLevel)
  obtain ⟨r₁, hr₁, hfresh⟩ := hval.start_ok hfit e'.options (.new level e'.consoleLevel)
  obtain rfl := Except.ok.inj (hr₀.symm.trans hr₁)
  refine ⟨r₀, hr₀, fun u r hrun => ?_⟩
  have hstepped : g.Stepped [] r₀ := by
    refine ⟨h₀.toLinked, ?_, fun _ => hfresh.offset⟩
    rw [hfresh.stats]
    rfl
  obtain ⟨w, hw⟩ := Stepped.run hval hstepped hrun
  obtain ⟨owners, ho⟩ := h₀.exists_allots hval hrun
  rw [hrules]
  refine ⟨hw.shares hval, owners, ho, ?_, fun t s owners' hs ho' => h₀.made hval ho hs ho'⟩
  obtain ⟨w', hw', rfl⟩ := h₀.linked hval ho
  exact (hw'.typed hval).size

/-- The grammar of `s ::= s s | 'a'`, where every way to split an input is a derivation. -/
def splitGrammar : Grammar :=
  let left := .call ⟨0, 0⟩ ⟨0, 0⟩ 0
  let right := .call ⟨0, 1⟩ ⟨0, 0⟩ 1
  let both := .seq ⟨0, 2⟩ left right
  let a := .token ⟨0, 3⟩ (.equal 97)
  let body := .alt ⟨0, 4⟩ both a
  let root := .call ⟨0, 5⟩ ⟨0, 0⟩ 2
  ⟨0, #[left, right, both, a, body, root, .endMark ⟨0, 6⟩],
    #[false, false, false, true, false, false, false], #[⟨"s", body⟩], root⟩

theorem built_split : splitGrammar.Built :=
  ⟨0, [.rule "s", .call ⟨0, 0⟩, .call ⟨0, 0⟩, .seq ⟨0, 0⟩ ⟨0, 1⟩, .token (.equal 97),
    .alt ⟨0, 2⟩ ⟨0, 3⟩, .setBody ⟨0, 0⟩ ⟨0, 4⟩, .call ⟨0, 0⟩], ⟨0, 5⟩, by decide +kernel⟩

theorem validate_split : splitGrammar.validate = .ok () := rfl

/-- One terminal and one rule: however many ways there are to split an input, there are two frontier
entries at most, and one context for each token read and two more. -/
theorem growth_bounded_split :
    splitGrammar.Built ∧ splitGrammar.validate = .ok () ∧
      ∃ e l, Engine.build splitGrammar {} .quiet 0 = .ok (e, l) ∧ e.HandsOut fun r₀ =>
        ∀ u r, r₀.Run u r → r.numEntries ≤ 2 ∧ r.store.size ≤ r.stats.steps + 2 := by
  obtain ⟨e, l, hb, -, -, hout⟩ := growth_bounded built_split validate_split {} .quiet 0
  have hview : (Engine.build splitGrammar {} .quiet 0).map (fun b => b.1.tables.rules.toList) =
      .ok [0] := by
    decide +kernel
  rw [hb] at hview
  have hrules : e.tables.rules = .single 0 := AscSet.eq_of_toList (Except.ok.inj hview)
  refine ⟨built_split, validate_split, e, l, hb, fun e' he level => ?_⟩
  obtain ⟨r₀, hr₀, hrun⟩ := hout e' he level
  refine ⟨r₀, hr₀, fun u r h => ?_⟩
  obtain ⟨hshares, -⟩ := hrun u r h
  rw [hrules] at hshares
  have hcontexts : r.store.size ≤ 1 + (r.stats.steps + 1) * 1 := hshares.contexts
  exact ⟨hshares.numEntries, by omega⟩

end Grammar

end TokenGrammar
