import TokenGrammar.Proofs.Moves
import TokenGrammar.Proofs.Survey

/-!
# The tables of a grammar

A recognizer only ever looks at the rows of positions in the root and in the bodies that the root
leads to. No other body has such a position, so each of these rows says what the body of its position
says. With or without pruning, a row keeps every call entry after whose continuation something comes,
and with each entry it keeps those for the aliases of the rule.
-/

namespace TokenGrammar

namespace Grammar

variable {g : Grammar} {k k' : Option Nat} {p q : Nat}

/-- The body that a position is in. -/
def Owns (g : Grammar) (k : Option Nat) (p : Nat) : Prop :=
  ∃ e, g.top? k = some e ∧ p ∈ e.marks

/-- Something may come after a position. -/
def Live (g : Grammar) (p : Nat) : Prop := ∃ k q, g.Next k p q

theorem At.owns {x : Activation} {u : List Token} (h : g.At x u p) : g.Owns x.top p := by
  obtain ⟨-, e, w, he, -, ha⟩ := h
  exact ⟨e, he, ha.mem_marks⟩

namespace WellFormed

variable (hg : g.WellFormed)
include hg

theorem owner_unique (h : g.Owns k p) (h' : g.Owns k' p) : k = k' := by
  obtain ⟨e, he, hp⟩ := h
  obtain ⟨e', he', hp'⟩ := h'
  exact hg.apart he he' (e.marks_sublist_indices.subset hp) (e'.marks_sublist_indices.subset hp')

theorem lt_of_owns (h : g.Owns k p) : p < g.nodes.size := by
  obtain ⟨e, he, hp⟩ := h
  obtain ⟨y, hy, rfl⟩ := List.mem_map.1 hp
  exact Stores.index_lt (hg.stores_position (hg.stores_top he) hy)

theorem position_of_owns (h : g.Owns k p) :
    ∃ e x, g.top? k = some e ∧ x ∈ e.positions ∧ g.Stores x ∧ x.ref.index = p := by
  obtain ⟨e, he, hp⟩ := h
  obtain ⟨x, hx, rfl⟩ := List.mem_map.1 hp
  exact ⟨e, x, he, hx, hg.stores_position (hg.stores_top he) hx, rfl⟩

end WellFormed

namespace Valid

variable (hg : g.Valid)
include hg

theorem owns_of_last (h : g.Last k p) : g.Owns k p := by
  obtain ⟨e, he, hp⟩ := h
  exact ⟨e, he, hg.mem_marks_of_last (hg.inner_top he) hp⟩

theorem owns_of_next (h : g.Next k p q) : g.Owns k p := by
  rcases h with ⟨e, he, hf⟩ | ⟨-, hl, -⟩
  · exact ⟨e, he, (hg.mem_marks_of_follows (hg.inner_top he) hf).1⟩
  · exact hg.owns_of_last hl

theorem owns_of_firstCall {a c b : Nat} (h : g.FirstCall a c b) : g.Owns (some a) c := by
  obtain ⟨e, he, hf, -⟩ := h
  exact ⟨e, he, hg.mem_marks_of_first (hg.inner_top he) hf⟩

theorem last_of_not_live (h : g.Owns k p) (hd : ¬ g.Live p) : g.Last k p ∧ k ≠ none := by
  obtain ⟨e, he, hp⟩ := h
  have hl : g.Last k p := by
    refine ⟨e, he, hg.last_of_dead (hg.inner_top he) hp fun q hq => ?_⟩
    exact hd ⟨k, q, .inl ⟨e, he, hq⟩⟩
  exact ⟨hl, fun hk => hd ⟨k, g.endIndex, .inr ⟨hk, hl, rfl⟩⟩⟩

theorem mem_usedSurveys_iff {s : Survey} :
    s ∈ g.usedSurveys ↔ ∃ k e, g.Uses k ∧ g.top? k = some e ∧ s = g.surveyOf e := by
  rw [usedSurveys, List.mem_append, List.mem_singleton, List.mem_map]
  constructor
  · rintro (⟨r, hr, rfl⟩ | rfl)
    · have hl := hg.mem_usedRules_iff.1 hr
      refine ⟨some r, g.bodyOf r, fun r' hr' => ?_, hg.top_of_leadsTo hl, rfl⟩
      exact Option.some.inj hr' ▸ hl
    · exact ⟨none, g.root, uses_root, rfl, rfl⟩
  · rintro ⟨k, e, hk, he, rfl⟩
    cases k with
    | none =>
      obtain rfl := Option.some.inj he
      exact .inr rfl
    | some r =>
      have hl := hk r rfl
      obtain rfl := Option.some.inj ((hg.top_of_leadsTo hl).symm.trans he)
      exact .inl ⟨r, hg.mem_usedRules_iff.2 hl, rfl⟩

theorem uses_of_owns {a c : Nat} (hk : g.Uses k) (hp : g.Owns k c) (hc : g.calleeAt? c = some a) :
    g.Uses (some a) := by
  obtain ⟨e, he, hm⟩ := hp
  exact hk.call he (hg.mem_calls_of_mem_marks (hg.stores_top he) hm hc) hc

theorem uses_of_starts {a b c : Nat} (hk : g.Uses k) (hp : g.Owns k c)
    (hc : g.calleeAt? c = some a) (h : Relation.ReflTransGen g.Starts a b) : g.Uses (some b) := by
  induction h with
  | refl => exact hg.uses_of_owns hk hp hc
  | tail _ hab ih =>
    obtain ⟨d, hd⟩ := hab
    exact hg.uses_of_owns ih (hg.owns_of_firstCall hd) hd.callee

end Valid

end Grammar

/-- A row says about a position what the body says that the position is in. -/
structure Row.Fits (g : Grammar) (k : Option Nat) (p : Nat) (row : Row) : Prop where
  successors : ∀ q, q ∈ row.successors ↔ g.Next k p q
  inTail : row.inTail = true ↔ g.Last k p
  isCall : row.isCall = g.isCallAt p
  children : ∀ b, b ∈ row.children ↔
    ∃ a, g.calleeAt? p = some a ∧ Relation.ReflTransGen g.Aliases a b
  entries : ∀ e ∈ row.entries, g.EntryOf p e
  aliased : ∀ e ∈ row.entries, ∀ b, Relation.ReflTransGen g.Aliases e.invoke b →
    { e with invoke := b } ∈ row.entries
  live : ∀ e, g.EntryOf p e → g.Live e.cont → e ∈ row.entries

/-- Tables that a recognizer of the grammar can work with. -/
structure Tables.Fits (g : Grammar) (t : Tables) : Prop where
  grammar : t.grammar = g
  row : ∀ {k : Option Nat} {p : Nat}, g.Uses k → g.Owns k p → ∃ row, t.row p = .ok row ∧
    row.Fits g k p
  endRow : ∃ row, t.row g.endIndex = .ok row ∧ row.isCall = false
  ruleFirsts : ∀ {r : Nat}, g.Uses (some r) → ∃ ps, t.firstsOfRule r = .ok ps ∧ ∀ p, p ∈ ps ↔
    ∃ e, g.top? (some r) = some e ∧ p ∈ e.firstSet g.emptyAt ∧ g.isCallAt p = false
  rootFirsts : ∀ p, p ∈ t.rootFirsts ↔ p ∈ g.root.firstSet g.emptyAt
  rootNullable : t.rootNullable = true ↔ g.Sentence []

theorem Findings.row_ok_iff {f : Findings} {g : Grammar} {prune : Bool} {i : Nat} {row : Row} :
    (f.tables g prune).row i = .ok row ↔
      i < g.nodes.size ∧ f.row g (f.follow g) f.tails prune i = row := by
  have hget : (f.tables g prune).rows[i]? = if i < g.nodes.size then
      some (f.row g (f.follow g) f.tails prune i) else none := by
    split <;> simp [tables, *]
  rw [Tables.row, hget]
  split
  · rename_i hi
    exact ⟨fun h => ⟨hi, Except.ok.inj h⟩, fun h => congrArg Except.ok h.2⟩
  · rename_i hi
    refine ⟨fun h => ?_, fun h => absurd h.1 hi⟩
    cases h

namespace Grammar.Valid

variable {g : Grammar} (hg : g.Valid) {n : Nat} {k : Option Nat} {p q : Nat}
include hg

theorem mem_follow_findings : q ∈ ((g.findings n).follow g).after p ↔
    ∃ k e, g.Uses k ∧ g.top? k = some e ∧ e.Follows g.emptyAt p q := by
  rw [Findings.follow, Follow.mem_after_ofJoints, surveys_findings]
  constructor
  · rintro ⟨-, j, hj, hjp, hjq⟩
    obtain ⟨s, hs, hj⟩ := List.mem_flatMap.1 hj
    obtain ⟨k, e, hk, he, rfl⟩ := hg.mem_usedSurveys_iff.1 hs
    exact ⟨k, e, hk, he, j, hj, hjp, hjq⟩
  · rintro ⟨k, e, hk, he, hf⟩
    have hp : g.Owns k p := ⟨e, he, (hg.mem_marks_of_follows (hg.inner_top he) hf).1⟩
    obtain ⟨j, hj, hjp, hjq⟩ := hf
    have hs : g.surveyOf e ∈ g.usedSurveys := hg.mem_usedSurveys_iff.2 ⟨k, e, hk, he, rfl⟩
    exact ⟨hg.lt_of_owns hp, j, List.mem_flatMap.2 ⟨_, hs, hj⟩, hjp, hjq⟩

omit hg in
theorem contains_rootLasts_iff : (g.findings n).root.lasts.contains p = true ↔ g.Last none p := by
  rw [AscSet.contains_iff]
  refine ⟨fun h => ⟨g.root, rfl, h⟩, fun ⟨e, he, h⟩ => ?_⟩
  obtain rfl := Option.some.inj he
  exact h

theorem mem_successors_iff (hk : g.Uses k) (hp : g.Owns k p) :
    q ∈ (g.findings n).successors g ((g.findings n).follow g) p ↔ g.Next k p q := by
  have hfollow : q ∈ ((g.findings n).follow g).after p ↔
      ∃ e, g.top? k = some e ∧ e.Follows g.emptyAt p q := by
    rw [hg.mem_follow_findings]
    refine ⟨fun ⟨k', e, _, he, hf⟩ => ?_, fun ⟨e, he, hf⟩ => ⟨k, e, hk, he, hf⟩⟩
    have hp' : g.Owns k' p := ⟨e, he, (hg.mem_marks_of_follows (hg.inner_top he) hf).1⟩
    obtain rfl := hg.owner_unique hp' hp
    exact ⟨e, he, hf⟩
  have hend : q ∈ (if (g.findings n).root.lasts.contains p then [g.endIndex] else []) ↔
      k = none ∧ g.Last k p ∧ q = g.endIndex := by
    constructor
    · intro h
      split at h
      · rename_i hc
        have hlast := contains_rootLasts_iff.1 hc
        obtain rfl := hg.owner_unique hp (hg.owns_of_last hlast)
        exact ⟨rfl, hlast, List.mem_singleton.1 h⟩
      · cases h
    · rintro ⟨rfl, hlast, rfl⟩
      rw [if_pos (contains_rootLasts_iff.2 hlast)]
      exact List.mem_singleton.2 rfl
  rw [Findings.successors, List.mem_append, ← AscSet.mem_def, hfollow, hend]
  rfl

omit hg in
private theorem mem_foldl_insertMany (surveys : List Survey) (s : NatSet) :
    p ∈ surveys.foldl (fun s survey => s.insertMany survey.lasts.toList) s ↔
      p ∈ s ∨ ∃ survey ∈ surveys, p ∈ survey.lasts := by
  induction surveys generalizing s with
  | nil => simp
  | cons survey surveys ih =>
    rw [List.foldl_cons, ih, Std.ExtTreeSet.mem_insertMany_list, or_assoc]
    simp [AscSet.mem_def]

theorem mem_tails_findings : p ∈ (g.findings n).tails ↔ ∃ k, g.Uses k ∧ g.Last k p := by
  rw [Findings.tails, mem_foldl_insertMany, surveys_findings]
  constructor
  · rintro (h | ⟨s, hs, h⟩)
    · simp at h
    · obtain ⟨k, e, hk, he, rfl⟩ := hg.mem_usedSurveys_iff.1 hs
      exact ⟨k, hk, e, he, h⟩
  · rintro ⟨k, hk, e, he, h⟩
    exact .inr ⟨_, hg.mem_usedSurveys_iff.2 ⟨k, e, hk, he, rfl⟩, h⟩

theorem mem_tails_iff (hk : g.Uses k) (hp : g.Owns k p) :
    p ∈ (g.findings n).tails ↔ g.Last k p := by
  rw [hg.mem_tails_findings]
  refine ⟨fun ⟨k', _, hl⟩ => ?_, fun hl => ⟨k, hk, hl⟩⟩
  obtain rfl := hg.owner_unique hp (hg.owns_of_last hl)
  exact hl

omit hg in
private theorem getElem?_foldl_insert (xs : List Expr) (m : NatMap CallSet) :
    (xs.foldl (fun m e => m.insert e.ref.index (g.callSetAt e.ref.index)) m)[p]? =
      if p ∈ xs.map (·.ref.index) then some (g.callSetAt p) else m[p]? := by
  induction xs generalizing m with
  | nil => simp
  | cons x xs ih =>
    rw [List.foldl_cons, ih, List.map_cons]
    by_cases hm : p ∈ xs.map (·.ref.index)
    · simp only [hm, List.mem_cons, or_true, if_true]
    · simp only [hm, if_false, List.mem_cons, or_false, Std.ExtTreeMap.getElem?_insert,
        Std.LawfulEqCmp.compare_eq_iff_eq]
      by_cases hx : x.ref.index = p
      · simp [hx]
      · simp [hx, Ne.symm hx]

omit hg in
theorem getElem?_callSets : (g.findings n).callSets[p]? =
    if p ∈ (callSites g.usedSurveys).map (·.ref.index) then some (g.callSetAt p) else none := by
  rw [findings, getElem?_foldl_insert, Std.ExtTreeMap.getElem?_empty]

theorem owns_of_mem_callSites (h : p ∈ (callSites g.usedSurveys).map (·.ref.index)) :
    ∃ k, g.Uses k ∧ g.Owns k p ∧ g.isCallAt p = true := by
  obtain ⟨y, hy, rfl⟩ := List.mem_map.1 h
  obtain ⟨hy, hc⟩ := List.mem_filter.1 hy
  obtain ⟨s, hs, hy⟩ := List.mem_flatMap.1 hy
  obtain ⟨k, e, hk, he, rfl⟩ := hg.mem_usedSurveys_iff.1 hs
  have hst := hg.stores_position (hg.stores_top he) hy
  exact ⟨k, hk, ⟨e, he, List.mem_map_of_mem hy⟩, hst.isCallAt.trans hc⟩

theorem callSet_findings (hk : g.Uses k) (hp : g.Owns k p) (e : CallEntry) :
    e ∈ (g.findings n).callSet p ↔ g.EntryOf p e := by
  rw [Findings.callSet, getElem?_callSets]
  obtain ⟨b, x, hb, hx, hs, rfl⟩ := hg.position_of_owns hp
  cases hc : x.isCall with
  | true =>
    have hm : x.ref.index ∈ (callSites g.usedSurveys).map (·.ref.index) := by
      refine List.mem_map_of_mem (List.mem_filter.2 ⟨List.mem_flatMap.2 ⟨g.surveyOf b, ?_, hx⟩, hc⟩)
      exact hg.mem_usedSurveys_iff.2 ⟨k, b, hk, hb, rfl⟩
    rw [if_pos hm, Option.getD_some, hg.mem_callSetAt_iff]
  | false =>
    have hn : ¬ g.EntryOf x.ref.index e := by
      rintro ⟨a, ha, -⟩
      have := isCallAt_iff.2 ⟨a, ha⟩
      rw [hs.isCallAt, hc] at this
      cases this
    have hm : x.ref.index ∉ (callSites g.usedSurveys).map (·.ref.index) := by
      intro hm
      obtain ⟨-, -, -, hcall⟩ := hg.owns_of_mem_callSites hm
      rw [hs.isCallAt, hc] at hcall
      cases hcall
    rw [if_neg hm]
    simp [hn]

/-- Every row that is looked up when the tables are laid out is the row of a node. -/
private theorem lt_of_mem_places (h : p ∈ (g.findings n).places) : p < g.nodes.size := by
  rw [Findings.places, surveys_findings] at h
  rcases List.mem_append.1 h with h | h
  · obtain ⟨s, hs, h⟩ := List.mem_flatMap.1 h
    obtain ⟨k, e, -, he, rfl⟩ := hg.mem_usedSurveys_iff.1 hs
    refine hg.lt_of_mem_indices (hg.stores_top he) ?_
    rcases List.mem_append.1 h with h | h
    · rcases List.mem_append.1 h with h | h
      · obtain ⟨j, hj, h⟩ := List.mem_flatMap.1 h
        exact Expr.mem_indices_of_joint hj (AscSet.mem_def.2 h)
      · exact Expr.mem_indices_of_first (AscSet.mem_def.2 h)
    · exact Expr.mem_indices_of_last (AscSet.mem_def.2 h)
  · obtain ⟨⟨c, entries⟩, hc, h⟩ := List.mem_flatMap.1 h
    have hget := Std.ExtTreeMap.mem_toList_iff_getElem?_eq_some.1 hc
    rw [getElem?_callSets] at hget
    split at hget
    · rename_i hm
      obtain rfl := Option.some.inj hget
      rcases List.mem_cons.1 h with rfl | h
      · obtain ⟨k, -, hp, -⟩ := hg.owns_of_mem_callSites hm
        exact hg.lt_of_owns hp
      · obtain ⟨e, he, rfl⟩ := List.mem_map.1 h
        exact (hg.mem_callSetAt_iff.1 (AscSet.mem_def.2 he)).cont_lt
    · cases hget

/-- A valid grammar has tables, laid out from the same findings whatever the options are. -/
theorem compile_ok : ∃ n, ∀ options, Tables.compile g options =
    .ok ((g.findings n).tables g options.pruneDeadContinuations) := by
  obtain ⟨a, ha, hs⟩ := Analysis.start_ok hg
  obtain ⟨a', hc⟩ := Analysis.collect_ok hs
  refine ⟨a'.rounds, fun options => ?_⟩
  rw [Tables.compile, ok_bind ha, ok_bind hc]
  exact ok_bind (requireNodes_ok fun _ => hg.lt_of_mem_places)

theorem owns_cont (hk : g.Uses k) (hp : g.Owns k p) {e : CallEntry} (he : g.EntryOf p e) :
    ∃ k', g.Uses k' ∧ g.Owns k' e.cont := by
  obtain ⟨a, ha, he⟩ := he
  obtain ⟨context, cont, invoke⟩ := e
  cases context with
  | none =>
    obtain ⟨rfl, -⟩ := he
    exact ⟨k, hk, hp⟩
  | some r =>
    obtain ⟨hst, b, hf, -⟩ := he
    exact ⟨some r, hg.uses_of_starts hk hp ha hst, hg.owns_of_firstCall hf⟩

theorem row_fits (hk : g.Uses k) (hp : g.Owns k p) (prune : Bool) :
    Row.Fits g k p ((g.findings n).row g ((g.findings n).follow g) (g.findings n).tails prune p) where
  successors q := hg.mem_successors_iff hk hp
  inTail := Std.ExtTreeSet.contains_iff_mem.trans (hg.mem_tails_iff hk hp)
  isCall := rfl
  children b := by
    show b ∈ (AscSet.ofList _).toList ↔ _
    rw [← AscSet.mem_def, AscSet.mem_ofList, List.mem_map]
    constructor
    · rintro ⟨e, he, rfl⟩
      obtain ⟨he, hn⟩ := CallSet.mem_own.1 he
      obtain ⟨a, ha, he⟩ := (hg.callSet_findings hk hp e).1 he
      rw [hn] at he
      exact ⟨a, ha, he.2⟩
    · rintro ⟨a, ha, hal⟩
      have he : g.EntryOf p (CallSet.direct p b) := ⟨a, ha, rfl, hal⟩
      exact ⟨_, CallSet.mem_own.2 ⟨(hg.callSet_findings hk hp _).2 he, rfl⟩, rfl⟩
  entries e he := by
    refine (hg.callSet_findings (n := n) hk hp e).1 ?_
    cases prune with
    | false => exact he
    | true => exact (AscSet.mem_filter.1 (AscSet.mem_def.2 he)).1
  aliased e he b hb := by
    have hm : e ∈ (g.findings n).callSet p → { e with invoke := b } ∈ (g.findings n).callSet p := by
      intro he
      exact (hg.callSet_findings hk hp _).2 (((hg.callSet_findings hk hp e).1 he).alias hb)
    cases prune with
    | false => exact hm he
    | true =>
      -- pruning asks for the continuation only, which an entry shares with its aliases
      obtain ⟨he, hc⟩ := AscSet.mem_filter.1 (AscSet.mem_def.2 he)
      exact AscSet.mem_def.1 (AscSet.mem_filter.2 ⟨hm he, hc⟩)
  live e he hl := by
    have hm := (hg.callSet_findings (n := n) hk hp e).2 he
    cases prune with
    | false => exact hm
    | true =>
      refine AscSet.mem_def.1 (AscSet.mem_filter.2 ⟨hm, ?_⟩)
      -- something comes after the continuation, in the body that it is in
      obtain ⟨k', hk', hp'⟩ := hg.owns_cont hk hp he
      obtain ⟨k'', q, hq⟩ := hl
      obtain rfl := hg.owner_unique (hg.owns_of_next hq) hp'
      have hmem := (hg.mem_successors_iff (n := n) hk' hp').2 hq
      cases hs : (g.findings n).successors g ((g.findings n).follow g) e.cont with
      | nil =>
        rw [hs] at hmem
        cases hmem
      | cons => rfl

omit hg in
private theorem lookup_map_pair {α : Type} (xs : List Nat) (f : Nat → α) {x : Nat} (h : x ∈ xs) :
    (xs.map fun x => (x, f x)).lookup x = some (f x) := by
  induction xs with
  | nil => cases h
  | cons y xs ih =>
    rw [List.map_cons, List.lookup_cons]
    by_cases hy : x = y
    · simp [hy]
    · rw [beq_false_of_ne hy]
      exact ih ((List.mem_cons.1 h).resolve_left hy)

theorem firstsOfRule_findings {r : Nat} {e : Expr} (hr : g.LeadsTo g.root r)
    (he : g.top? (some r) = some e) : (g.findings n).firstsOfRule g r =
      ((e.firstSet g.emptyAt).filter fun i => !g.isCallAt i).toList := by
  obtain rfl := Option.some.inj ((hg.top_of_leadsTo hr).symm.trans he)
  rw [Findings.firstsOfRule, findings,
    lookup_map_pair _ _ (AscSet.mem_def.1 (hg.mem_usedRules_iff.2 hr))]
  rfl

theorem firstsOfRule_ok {r : Nat} {e : Expr} (hr : g.LeadsTo g.root r)
    (he : g.top? (some r) = some e) (prune : Bool) :
    ((g.findings n).tables g prune).firstsOfRule r =
      .ok ((e.firstSet g.emptyAt).filter fun i => !g.isCallAt i).toList := by
  have hlt : r < g.rules.size := by
    obtain ⟨d, hd, -⟩ := Option.map_eq_some_iff.1 he
    exact (Array.getElem?_eq_some_iff.1 hd).1
  rw [← hg.firstsOfRule_findings (n := n) hr he]
  refine inRange_ok ?_
  simp [Findings.tables, hlt]

/-- Pruned or not, the tables fit the grammar. -/
theorem tables_fit (n : Nat) (prune : Bool) : Tables.Fits g ((g.findings n).tables g prune) where
  grammar := rfl
  row hk hp :=
    ⟨_, Findings.row_ok_iff.2 ⟨hg.lt_of_owns hp, rfl⟩, hg.row_fits (n := n) hk hp prune⟩
  endRow := by
    obtain ⟨_, hr⟩ := hg.endMark
    have hlt : g.endIndex < g.nodes.size := (Array.getElem?_eq_some_iff.1 hr).1
    exact ⟨_, Findings.row_ok_iff.2 ⟨hlt, rfl⟩, hg.isCallAt_endIndex⟩
  ruleFirsts {r} hr := by
    have hb := hg.top_of_leadsTo (hr r rfl)
    refine ⟨_, hg.firstsOfRule_ok (hr r rfl) hb prune, fun p => ?_⟩
    rw [← AscSet.mem_def, AscSet.mem_filter, Bool.not_eq_true']
    simp [hb]
  rootFirsts p := Iff.rfl
  rootNullable := hg.nullable_iff (hg.stores_top (show g.top? none = some g.root from rfl))

end Grammar.Valid

end TokenGrammar
