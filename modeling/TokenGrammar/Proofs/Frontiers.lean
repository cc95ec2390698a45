import TokenGrammar.Proofs.Contexts
import TokenGrammar.Proofs.Roster
import TokenGrammar.Proofs.Rows

/-!
# From a frontier to the arrivals

A frontier tracks what has been read when it holds just the terminals and the end mark that control
stands at, each in its activations, and the store returns where control returns. Dead continuations
may be missing from the store. From such a frontier a token leads to the positions that it moves
control to, and no defect is met on the way.
-/

namespace TokenGrammar.Grammar

variable {g : Grammar} {t : Tables} {u : List Token} {tok : Token} {p q i j : Nat}

/-- When `u` has been read, control stands before a terminal, or before the end mark. -/
def Stands (g : Grammar) (u : List Token) (x : Activation) (p : Nat) : Prop :=
  g.At x u p ∧ g.isCallAt p = false ∨
    x = ⟨none, []⟩ ∧ p = g.endIndex ∧ u ≠ [] ∧ g.Sentence u

/-- A frozen store with one context for each of some activations. Every live return is in it. -/
structure Serves (g : Grammar) (acts : List Activation) (s : ContextStore) : Prop where
  frozen : s.frozen = s.size
  size : s.size = acts.length
  full : s.AllFull
  sound : ∀ {i p j : Nat}, s.Resumes i p j → ∃ a u y, acts[i]? = some ⟨some a, u⟩ ∧
    acts[j]? = some y ∧ g.Returns a u p y
  complete : ∀ {i p j a : Nat} {u : List Token} {y : Activation}, g.Live p →
    acts[i]? = some ⟨some a, u⟩ → acts[j]? = some y → g.Returns a u p y → s.Resumes i p j

structure Tracks (g : Grammar) (u : List Token) (f : Frontier) (s : ContextStore) : Prop where
  store : g.Serves (g.activations u) s
  full : Full f
  holds : ∀ p i, Holds f p i ↔ ∃ x, (g.activations u)[i]? = some x ∧ g.Stands u x p

theorem Returns.at {a c : Nat} {x : Activation} (h : g.Returns a u c x) : ∃ u', g.At x u' c := by
  induction h with
  | direct h => exact ⟨_, h⟩
  | tail _ _ _ _ _ _ ih => exact ih

/-- The row of a position that control arrives at fits the body of the activation. -/
theorem Valid.row_of_at (hg : g.Valid) (ht : t.Fits g) {x : Activation} (h : g.At x u p) :
    ∃ row, t.row p = .ok row ∧ row.Fits g x.top p :=
  ht.row (hg.uses_of_entered h.1) h.owns

theorem Valid.fits_of_row (hg : g.Valid) (ht : t.Fits g) {x : Activation} (h : g.At x u p) {row : Row}
    (hrow : t.row p = .ok row) : row.Fits g x.top p := by
  obtain ⟨row', hrow', hfit⟩ := hg.row_of_at ht h
  obtain rfl := Except.ok.inj (hrow.symm.trans hrow')
  exact hfit

namespace Valid

variable (hg : g.Valid)
include hg

theorem terminal_of_owns {k : Option Nat} (h : g.Owns k p) (hc : g.isCallAt p = false) :
    ∃ x, g.nodes[p]? = some x ∧ x.isTerminal = true := by
  obtain ⟨e, x, -, hx, hs, rfl⟩ := hg.position_of_owns h
  refine ⟨x, hs, (Expr.terminal_or_call_of_mem_positions hx).resolve_right fun hxc => ?_⟩
  rw [hs.isCallAt, hxc] at hc
  cases hc

omit hg in
theorem isCallAt_of_accepts (h : g.AcceptsAt p tok) : g.isCallAt p = false := by
  obtain ⟨x, hx, hterm, -⟩ := h
  rw [isCallAt, hx]
  exact Expr.isCall_eq_false_of_terminal hterm

theorem at_of_accepts {x : Activation} (h : g.Stands u x p) (ha : g.AcceptsAt p tok) :
    g.At x u p := by
  rcases h with h | ⟨-, rfl, -⟩
  · exact h.1
  · obtain ⟨r, hr⟩ := hg.endMark
    obtain ⟨x, hx, hterm, -⟩ := ha
    obtain rfl := Option.some.inj (hr.symm.trans hx)
    cases hterm

theorem accepts_ok (tok : Token) (ht : t.Fits g) {x : Activation} (h : g.Stands u x p) :
    ∃ b, t.accepts p tok = .ok b ∧ (b = true ↔ g.AcceptsAt p tok) := by
  have hrun : ∀ {x : Expr} {b : Bool}, g.nodes[p]? = some x → x.accepts tok = .ok b →
      t.accepts p tok = .ok b := by
    intro x b hx hb
    have hnode : t.grammar.node p = .ok x := by
      rw [ht.grammar, node, hx]
      rfl
    rw [Tables.accepts, ok_bind hnode, Grammar.accepts, hb]
  rcases h with ⟨h, hc⟩ | ⟨-, rfl, -⟩
  · obtain ⟨x, hx, hterm⟩ := hg.terminal_of_owns h.owns hc
    obtain ⟨b, hb⟩ := Expr.accepts_of_terminal hterm tok
    refine ⟨b, hrun hx hb, ?_⟩
    simp [AcceptsAt, hx, hterm, hb]
  · obtain ⟨r, hr⟩ := hg.endMark
    refine ⟨false, hrun hr rfl, ?_⟩
    simp [AcceptsAt, hr, Expr.isTerminal]

theorem matching_ok (tok : Token) (ht : t.Fits g) {entries : List (Nat × ContextSet)}
    (h : ∀ e ∈ entries, ∃ x, g.Stands u x e.1) :
    ∃ matched, Frontier.matching t tok entries = .ok matched ∧
      ∀ e, e ∈ matched ↔ e ∈ entries ∧ g.AcceptsAt e.1 tok := by
  induction entries with
  | nil => exact ⟨[], rfl, by simp⟩
  | cons e entries ih =>
    obtain ⟨rest, hr, hmem⟩ := ih fun e' he' => h e' (List.mem_cons_of_mem _ he')
    obtain ⟨x, hx⟩ := h e List.mem_cons_self
    obtain ⟨b, hb, hiff⟩ := hg.accepts_ok tok ht hx
    refine ⟨if b then e :: rest else rest, ?_, fun e' => ?_⟩
    · rw [Frontier.matching, ok_bind hr, ok_bind hb]
      rfl
    · cases b with
      | true =>
        have ha := hiff.1 rfl
        simp only [if_true, List.mem_cons, hmem, or_and_right]
        refine or_congr_left ⟨fun he => ⟨he, he ▸ ha⟩, fun he => he.1⟩
      | false =>
        have ha : ¬ g.AcceptsAt e.1 tok := fun ha => by simpa using hiff.2 ha
        simp only [Bool.false_eq_true, if_false, List.mem_cons, hmem, or_and_right]
        refine ⟨.inr, fun he => he.resolve_left ?_⟩
        rintro ⟨rfl, ha'⟩
        exact ha ha'

variable {acts : List Activation} {s : ContextStore}

theorem resume_ok (ht : t.Fits g) (hs : g.Serves acts s) {c : Nat} {m : Callbacks}
    (hm : s.contexts[c]? = some m) {f : Frontier} (hf : Full f) :
    ∃ f', Frontier.resume t f m.toList = .ok f' ∧ Full f' ∧ ∀ x : Nat × Nat,
      Holds f' x.1 x.2 ↔ Holds f x.1 x.2 ∨
        ∃ p y, s.Resumes c p x.2 ∧ acts[x.2]? = some y ∧ g.Next y.top p x.1 := by
  have hstep : ∀ e ∈ m.toList, ∀ f, Full f →
      ∃ f', (do return Frontier.addAll f (← t.row e.1).successors e.2 : Except Failure _) = .ok f' ∧
        Full f' ∧ ∀ x : Nat × Nat, Holds f' x.1 x.2 ↔ Holds f x.1 x.2 ∨
          x.2 ∈ e.2 ∧ ∃ y, acts[x.2]? = some y ∧ g.Next y.top e.1 x.1 := by
    rintro ⟨p, set⟩ he f hf
    have hset := Std.ExtTreeMap.mem_toList_iff_getElem?_eq_some.1 he
    obtain ⟨i, hi⟩ := hs.full c m hm p set hset
    have hres : ∀ {i : Nat}, i ∈ set → s.Resumes c p i := fun hi => ⟨m, hm, set, hset, hi⟩
    obtain ⟨a, u, y, -, hy, hret⟩ := hs.sound (hres hi)
    obtain ⟨u', hat⟩ := hret.at
    obtain ⟨row, hrow, hfit⟩ := hg.row_of_at ht hat
    obtain ⟨hf', hv⟩ := holds_addAll row.successors ⟨i, hi⟩ hf
    refine ⟨Frontier.addAll f row.successors set, ?_, hf', fun x => (hv x).trans (or_congr_right ?_)⟩
    · rw [ok_bind hrow]
      rfl
    · rw [and_comm]
      refine and_congr_right fun hx => ?_
      obtain ⟨a', u'', y', -, hy', hret'⟩ := hs.sound (hres hx)
      obtain ⟨u₃, hat'⟩ := hret'.at
      -- all contexts of the set are activations of the body that owns the continuation
      have hk : y.top = y'.top := hg.owner_unique hat.owns hat'.owns
      simp [hfit.successors, hy', hk]
  obtain ⟨f', hr, hf', hv⟩ := foldlM_ok Full (fun f (x : Nat × Nat) => Holds f x.1 x.2)
    (fun (e : Nat × ContextSet) x => x.2 ∈ e.2 ∧ ∃ y, acts[x.2]? = some y ∧ g.Next y.top e.1 x.1)
    hstep f hf
  refine ⟨f', hr, hf', fun x => (hv x).trans (or_congr_right ?_)⟩
  constructor
  · rintro ⟨e, he, hi, y, hy, hn⟩
    exact ⟨e.1, y, ⟨m, hm, holds_of_mem_toList he hi⟩, hy, hn⟩
  · rintro ⟨p, y, ⟨m', hm', hh⟩, hy, hn⟩
    obtain rfl := Option.some.inj (hm.symm.trans hm')
    obtain ⟨set, he, hi⟩ := exists_mem_toList.2 hh
    exact ⟨(p, set), he, hi, y, hy, hn⟩

theorem resumeAll_ok (ht : t.Fits g) (hs : g.Serves acts s) {set : ContextSet}
    (hset : ∀ j ∈ set, ∃ y, acts[j]? = some y) {f : Frontier} (hf : Full f) :
    ∃ f', set.toList.foldlM (fun f j => do Frontier.resume t f (← s.read j).toList) f = .ok f' ∧
      Full f' ∧ ∀ x : Nat × Nat, Holds f' x.1 x.2 ↔ Holds f x.1 x.2 ∨
        ∃ j ∈ set, ∃ p z, s.Resumes j p x.2 ∧ acts[x.2]? = some z ∧ g.Next z.top p x.1 := by
  refine foldlM_ok Full (fun f (x : Nat × Nat) => Holds f x.1 x.2)
    (fun j x => ∃ p z, s.Resumes j p x.2 ∧ acts[x.2]? = some z ∧ g.Next z.top p x.1) ?_ f hf
  intro j hj f hf
  obtain ⟨y, hy⟩ := hset j hj
  have hlt : j < s.frozen := by
    rw [hs.frozen, hs.size]
    exact (List.getElem?_eq_some_iff.1 hy).1
  obtain ⟨m, hm, hc⟩ := s.read_ok hlt hs.frozen.le
  obtain ⟨f', hr, hf', hv⟩ := hg.resume_ok ht hs hc hf
  exact ⟨f', (ok_bind hm).trans hr, hf', hv⟩

theorem proceed_ok (ht : t.Fits g) (hs : g.Serves acts s) {e : Nat × ContextSet} {u : List Token}
    (hset : ∃ i, i ∈ e.2) (he : ∀ i ∈ e.2, ∃ x, acts[i]? = some x ∧ g.At x u e.1) {f : Frontier}
    (hf : Full f) :
    ∃ f', Frontier.proceed t s f e = .ok f' ∧ Full f' ∧ ∀ x : Nat × Nat,
      Holds f' x.1 x.2 ↔ Holds f x.1 x.2 ∨ ∃ j ∈ e.2, ∃ y, acts[j]? = some y ∧
        (x.2 = j ∧ g.Next y.top e.1 x.1 ∨ g.Last y.top e.1 ∧
          ∃ p z, s.Resumes j p x.2 ∧ acts[x.2]? = some z ∧ g.Next z.top p x.1) := by
  obtain ⟨i, hi⟩ := hset
  obtain ⟨x₀, hx₀, hat⟩ := he i hi
  obtain ⟨row, hrow, hfit⟩ := hg.row_of_at ht hat
  have htop : ∀ {j : Nat} {y : Activation}, j ∈ e.2 → acts[j]? = some y → y.top = x₀.top := by
    intro j y hj hy
    obtain ⟨y', hy', hat'⟩ := he j hj
    obtain rfl := Option.some.inj (hy.symm.trans hy')
    exact hg.owner_unique hat'.owns hat.owns
  obtain ⟨hf₁, hv₁⟩ := holds_addAll row.successors ⟨i, hi⟩ hf
  have hfirst : ∀ x : Nat × Nat, (x.1 ∈ row.successors ∧ x.2 ∈ e.2) ↔
      ∃ j ∈ e.2, ∃ y, acts[j]? = some y ∧ x.2 = j ∧ g.Next y.top e.1 x.1 := by
    intro x
    rw [hfit.successors]
    constructor
    · rintro ⟨hn, hx⟩
      obtain ⟨y, hy, -⟩ := he x.2 hx
      exact ⟨x.2, hx, y, hy, rfl, (htop hx hy).symm ▸ hn⟩
    · rintro ⟨j, hj, y, hy, rfl, hn⟩
      exact ⟨htop hj hy ▸ hn, hj⟩
  rw [Frontier.proceed, ok_bind hrow]
  by_cases htail : row.inTail = true
  · have hlast : g.Last x₀.top e.1 := hfit.inTail.1 htail
    have hset : ∀ j ∈ e.2, ∃ y, acts[j]? = some y := fun j hj =>
      let ⟨y, hy, _⟩ := he j hj
      ⟨y, hy⟩
    obtain ⟨f', hr, hf', hv⟩ := hg.resumeAll_ok ht hs hset hf₁
    refine ⟨f', ?_, hf', fun x => ?_⟩
    · rw [if_pos htail]
      exact hr
    · rw [hv, hv₁, hfirst, or_assoc]
      refine or_congr_right ?_
      constructor
      · rintro (⟨j, hj, y, hy, hor⟩ | ⟨j, hj, hor⟩)
        · exact ⟨j, hj, y, hy, .inl hor⟩
        · obtain ⟨y, hy, -⟩ := he j hj
          exact ⟨j, hj, y, hy, .inr ⟨(htop hj hy).symm ▸ hlast, hor⟩⟩
      · rintro ⟨j, hj, y, hy, hor | ⟨-, hor⟩⟩
        · exact .inl ⟨j, hj, y, hy, hor⟩
        · exact .inr ⟨j, hj, hor⟩
  · refine ⟨_, by rw [if_neg htail]; rfl, hf₁, fun x => ?_⟩
    rw [hv₁, hfirst]
    refine or_congr_right ⟨fun ⟨j, hj, y, hy, h⟩ => ⟨j, hj, y, hy, .inl h⟩, ?_⟩
    rintro ⟨j, hj, y, hy, h | ⟨hl, -⟩⟩
    · exact ⟨j, hj, y, hy, h⟩
    · exact absurd (hfit.inTail.2 (htop hj hy ▸ hl)) htail

theorem matched_ok (ht : t.Fits g) {u : List Token} {f : Frontier} (h : g.Tracks u f s)
    (tok : Token) : ∃ matched, Frontier.matching t tok f.toList = .ok matched ∧
      (∀ e, e ∈ matched ↔ e ∈ f.toList ∧ g.AcceptsAt e.1 tok) ∧
      ∀ e ∈ matched, (∃ i, i ∈ e.2) ∧
        ∀ i ∈ e.2, ∃ x, (g.activations u)[i]? = some x ∧ g.At x u e.1 := by
  have hstand : ∀ e ∈ f.toList, ∀ i ∈ e.2, ∃ x, (g.activations u)[i]? = some x ∧
      g.Stands u x e.1 := fun e he i hi => (h.holds e.1 i).1 (holds_of_mem_toList he hi)
  have hinh : ∀ e ∈ f.toList, ∃ i, i ∈ e.2 := fun e he =>
    h.full e.1 e.2 (Std.ExtTreeMap.mem_toList_iff_getElem?_eq_some.1 he)
  have hsome : ∀ e ∈ f.toList, ∃ x, g.Stands u x e.1 := by
    intro e he
    obtain ⟨i, hi⟩ := hinh e he
    obtain ⟨x, -, hx⟩ := hstand e he i hi
    exact ⟨x, hx⟩
  obtain ⟨matched, hm, hmem⟩ := hg.matching_ok tok ht hsome
  refine ⟨matched, hm, hmem, fun e he => ?_⟩
  obtain ⟨hef, ha⟩ := (hmem e).1 he
  refine ⟨hinh e hef, fun i hi => ?_⟩
  obtain ⟨x, hx, hst⟩ := hstand e hef i hi
  exact ⟨x, hx, hg.at_of_accepts hst ha⟩

/-- A token leads from a frontier to where it moves control. -/
theorem arrivals_ok (ht : t.Fits g) {u : List Token} {f : Frontier} (h : g.Tracks u f s) (tok : Token) :
    ∃ matched arrived, Frontier.matching t tok f.toList = .ok matched ∧
      Frontier.arrivals t s matched = .ok arrived ∧ Full arrived ∧
      ∀ q i, Holds arrived q i ↔ ∃ x, (g.activations u)[i]? = some x ∧ g.Moves u tok x q := by
  obtain ⟨matched, hm, hmem, hat⟩ := hg.matched_ok ht h tok
  obtain ⟨arrived, hr, hfull, hv⟩ := foldlM_ok Full (fun f (x : Nat × Nat) => Holds f x.1 x.2) _
    (fun e he f hf => hg.proceed_ok ht h.store (hat e he).1 (hat e he).2 hf)
    ∅ full_empty
  refine ⟨matched, arrived, hm, hr, hfull, fun q i => ?_⟩
  rw [hv (q, i)]
  constructor
  · rintro (hno | ⟨e, he, j, hj, y, hy, hor⟩)
    · exact absurd hno not_holds_empty
    · have hacc := ((hmem e).1 he).2
      obtain ⟨y', hy', hyat⟩ := (hat e he).2 j hj
      obtain rfl := Option.some.inj (hy.symm.trans hy')
      rcases hor with ⟨rfl, hn⟩ | ⟨hl, p, z, hres, hz, hn⟩
      · exact ⟨y, hy, y, e.1, e.1, hyat, hacc, .inl ⟨rfl, rfl⟩, hn⟩
      · obtain ⟨a, w, z', hjy, hz', hret⟩ := h.store.sound hres
        obtain rfl := Option.some.inj (hy.symm.trans hjy)
        obtain rfl := Option.some.inj (hz.symm.trans hz')
        exact ⟨z, hz, ⟨some a, w⟩, e.1, p, hyat, hacc, .inr ⟨a, w, rfl, hl, hret⟩, hn⟩
  · rintro ⟨x, hx, y, p, c, hyat, hacc, hor, hn⟩
    obtain ⟨j, hj⟩ := List.getElem?_of_mem (hg.at_mem hyat)
    have hst : g.Stands u y p := .inl ⟨hyat, isCallAt_of_accepts hacc⟩
    obtain ⟨set, he, hjs⟩ := exists_mem_toList.2 ((h.holds p j).2 ⟨y, hj, hst⟩)
    refine .inr ⟨(p, set), (hmem _).2 ⟨he, hacc⟩, j, hjs, y, hj, ?_⟩
    rcases hor with ⟨rfl, rfl⟩ | ⟨a, w, rfl, hl, hret⟩
    · have hij : i = j := (List.getElem?_inj (List.getElem?_eq_some_iff.1 hx).1
        hg.nodup_activations).1 (hx.trans hj.symm)
      exact .inl ⟨hij, hn⟩
    · exact .inr ⟨hl, c, x, h.store.complete ⟨_, _, hn⟩ hj hx hret, hx, hn⟩

end Valid

end TokenGrammar.Grammar
