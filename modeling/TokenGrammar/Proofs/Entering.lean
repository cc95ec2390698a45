import TokenGrammar.Proofs.Frontiers

/-!
# From the arrivals to a frontier

Where control arrives at calls, the rules that these calls start with are entered. Even a pruned row
enters all of them, because a call that nothing comes after is the last of its body. The callbacks
that are written to the new contexts are, as far as something can come after them, just the places
where control returns to from the rules that are entered.
-/

namespace TokenGrammar.Grammar

variable {g : Grammar} {t : Tables} {u : List Token} {p q i j r a b : Nat} {x : Activation}

/-- Where control is once a token has moved it: at a position reached from outside of what is entered
next, or at the end mark. -/
def Comes (g : Grammar) (u : List Token) (x : Activation) (q : Nat) : Prop :=
  g.At x u q ∧ FromOutside x u ∨ x = ⟨none, []⟩ ∧ q = g.endIndex ∧ u ≠ [] ∧ g.Sentence u

theorem Valid.moves_iff_comes (hg : g.Valid) {tok : Token} :
    g.Moves u tok x q ↔ g.Comes (u ++ [tok]) x q := by
  rw [hg.moves_iff, Comes]
  refine or_congr (and_congr_right fun hat => ?_) (by simp)
  refine ⟨.inl, fun hout => hout.elim (fun h => h) fun ht hs => ?_⟩
  rw [hat.1.eq_root ht] at hs
  simp at hs

theorem mem_entered_iff {row : Row} : r ∈ row.entered ↔
    (∃ e ∈ row.entries, r = e.invoke ∨ e.context = some r) ∨
      row.inTail = true ∧ r ∈ row.children := by
  rw [Row.entered, List.mem_append, List.mem_flatMap]
  refine or_congr ?_ ?_
  · simp
  · split
    · rename_i h
      simp [h]
    · rename_i h
      simp [h]

namespace Valid

variable (hg : g.Valid)
include hg

/-- A row enters what its call starts with, whatever has been pruned. -/
theorem mem_entered_of_starts {k : Option Nat} {row : Row} (hp : g.Owns k p)
    (hfit : row.Fits g k p) (ha : g.calleeAt? p = some a)
    (h : Relation.ReflTransGen g.Starts a b) : b ∈ row.entered := by
  -- going along the chain, a dead call is whole: its rule is an alias of the one before
  suffices hall : ∀ c, Relation.ReflTransGen g.Aliases b c → c ∈ row.entered from hall b .refl
  induction h with
  | refl =>
    intro c hc
    by_cases hl : g.Live p
    · have he : CallSet.direct p c ∈ row.entries := hfit.live _ ⟨a, ha, rfl, hc⟩ hl
      exact mem_entered_iff.2 (.inl ⟨_, he, .inl rfl⟩)
    · have htail := hfit.inTail.2 (hg.last_of_not_live hp hl).1
      exact mem_entered_iff.2 (.inr ⟨htail, (hfit.children c).2 ⟨a, ha, hc⟩⟩)
  | @tail r b hst hab ih =>
    intro c hc
    obtain ⟨d, hd⟩ := hab
    by_cases hl : g.Live d
    · have he : ⟨some r, d, c⟩ ∈ row.entries := hfit.live _ ⟨a, ha, hst, b, hd, hc⟩ hl
      exact mem_entered_iff.2 (.inl ⟨_, he, .inl rfl⟩)
    · obtain ⟨e, he, hlast⟩ := (hg.last_of_not_live (hg.owns_of_firstCall hd) hl).1
      obtain ⟨e', he', hf, hcall⟩ := hd
      obtain rfl := Option.some.inj (he.symm.trans he')
      exact ih c (.head ⟨d, e, he, hf, hlast, hcall⟩ hc)

theorem entered_of_starts (h : g.At x u p) (ho : FromOutside x u) (ha : g.calleeAt? p = some a)
    (hst : Relation.ReflTransGen g.Starts a b) : g.Entered ⟨some b, u⟩ :=
  hg.entered_iff.2 ⟨x, p, a, h, ho, ha, hst⟩

theorem entered_of_entry (h : g.At x u p) (ho : FromOutside x u) {e : CallEntry}
    (he : g.EntryOf p e) : g.Entered ⟨some e.invoke, u⟩ ∧
      ∀ r, e.context = some r → g.Entered ⟨some r, u⟩ := by
  obtain ⟨a, ha, hinvoke, hcontext⟩ := he.starts
  exact ⟨hg.entered_of_starts h ho ha hinvoke,
    fun r hr => hg.entered_of_starts h ho ha (hcontext r hr)⟩

theorem entered_of_mem (h : g.At x u p) (ho : FromOutside x u) {row : Row}
    (hfit : row.Fits g x.top p) (hr : r ∈ row.entered) : g.Entered ⟨some r, u⟩ := by
  rcases mem_entered_iff.1 hr with ⟨e, he, rfl | hc⟩ | ⟨-, hc⟩
  · exact (hg.entered_of_entry h ho (hfit.entries e he)).1
  · exact (hg.entered_of_entry h ho (hfit.entries e he)).2 r hc
  · obtain ⟨a, ha, hal⟩ := (hfit.children r).1 hc
    exact hg.entered_of_starts h ho ha (starts_of_aliases hal)

end Valid

/-- A store under construction, with one open context for each rule that is entered now. -/
structure Opens (g : Grammar) (u : List Token) (s : ContextStore) (e : Entering) : Prop where
  frozen : e.store.frozen = s.size
  size : e.store.size = (g.activations u).length
  full : e.store.AllFull
  kept : ∀ i < s.size, e.store.contexts[i]? = s.contexts[i]?
  context : ∀ r i : Nat, e.contexts[r]? = some i ↔ (g.activations u)[i]? = some ⟨some r, u⟩

private theorem make_store (s : ContextStore) (rules : List Nat) : (Entering.make s rules).store =
    ⟨s.contexts ++ Array.replicate rules.length ∅, s.frozen⟩ := by
  induction rules using List.reverseRecOn with
  | nil => simp [Entering.make]
  | append_singleton rules b ih =>
    rw [Entering.make, List.foldl_append, ← Entering.make] at *
    simp [ContextStore.alloc, ih, Array.replicate_succ]

private theorem make_contexts (s : ContextStore) {rules : List Nat} (hn : rules.Nodup) :
    (Entering.make s rules).contexts[r]? = some i ↔ ∃ n, rules[n]? = some r ∧ i = s.size + n := by
  induction rules using List.reverseRecOn generalizing i with
  | nil => simp [Entering.make]
  | append_singleton rules b ih =>
    have hmake : (Entering.make s (rules ++ [b])).contexts =
        (Entering.make s rules).contexts.insert b (s.size + rules.length) := by
      have hsize : (Entering.make s rules).store.size = s.size + rules.length := by
        simp [make_store, ContextStore.size]
      rw [Entering.make, List.foldl_append, ← Entering.make]
      simp [ContextStore.alloc, hsize]
    have hb : b ∉ rules := fun hb => (List.nodup_append.1 hn).2.2 b hb b (by simp) rfl
    rw [hmake]
    simp only [Std.ExtTreeMap.getElem?_insert, Std.LawfulEqCmp.compare_eq_iff_eq]
    by_cases hbr : b = r
    · subst hbr
      rw [if_pos rfl]
      constructor
      · intro hi
        exact ⟨rules.length, by simp, (Option.some.inj hi).symm⟩
      · rintro ⟨n, hrn, rfl⟩
        rw [List.getElem?_append] at hrn
        split at hrn
        · exact absurd (List.mem_of_getElem? hrn) hb
        · have hlt := (List.getElem?_eq_some_iff.1 hrn).1
          rw [List.length_singleton] at hlt
          have hn : n = rules.length := by omega
          rw [hn]
    · rw [if_neg hbr, ih (List.nodup_append.1 hn).1]
      refine exists_congr fun n => and_congr_left fun _ => ?_
      rw [List.getElem?_append]
      split
      · rfl
      · rename_i hlt
        rw [List.getElem?_eq_none (by omega)]
        refine ⟨fun h => by simp at h, fun h => ?_⟩
        exact absurd (List.mem_singleton.1 (List.mem_of_getElem? h)).symm hbr

private theorem activation_iff (hg : g.WellFormed) :
    (g.activations u)[i]? = some ⟨some r, u⟩ ↔
      ∃ n, (g.enteredRules u).toList[n]? = some r ∧ i = (g.enteredBefore u).length + n := by
  rw [activations, List.getElem?_append]
  split
  · rename_i hlt
    constructor
    · intro h
      have hout := (hg.mem_enteredBefore_iff.1 (List.mem_of_getElem? h)).2.2
      simp [FromOutside] at hout
    · rintro ⟨n, -, rfl⟩
      omega
  · rename_i hge
    rw [entering, List.getElem?_map]
    constructor
    · intro h
      obtain ⟨r', hr', he⟩ := Option.map_eq_some_iff.1 h
      obtain rfl := Option.some.inj (Activation.mk.inj he).1
      exact ⟨_, hr', by omega⟩
    · rintro ⟨n, hn, rfl⟩
      rw [Nat.add_sub_cancel_left, hn]
      rfl

section Opening

variable {s : ContextStore} {e : Entering} {set : ContextSet}

theorem Valid.make_opens (hg : g.Valid) (hs : g.Serves (g.enteredBefore u) s) :
    g.Opens u s (Entering.make s (g.enteredRules u).toList) ∧ ∀ x : Nat × Nat × Nat,
      (Entering.make s (g.enteredRules u).toList).store.Resumes x.1 x.2.1 x.2.2 ↔
        s.Resumes x.1 x.2.1 x.2.2 := by
  have hget : ∀ (i : Nat) (m : Callbacks),
      (Entering.make s (g.enteredRules u).toList).store.contexts[i]? = some m →
        s.contexts[i]? = some m ∨ m = ∅ := by
    intro i m hm
    rw [make_store, Array.getElem?_append] at hm
    split at hm
    · exact .inl hm
    · rw [Array.getElem?_replicate] at hm
      split at hm
      · exact .inr (Option.some.inj hm).symm
      · cases hm
  have hkept : ∀ i < s.size,
      (Entering.make s (g.enteredRules u).toList).store.contexts[i]? = s.contexts[i]? := by
    intro i hi
    rw [make_store]
    exact Array.getElem?_append_left hi
  refine ⟨⟨?_, ?_, ?_, hkept, ?_⟩, fun x => ?_⟩
  · rw [make_store, ← hs.frozen]
  · have hsize := hs.size
    rw [ContextStore.size] at hsize
    simp [make_store, ContextStore.size, activations, entering, hsize]
  · intro i m hm
    rcases hget i m hm with hm | rfl
    · exact hs.full i m hm
    · exact full_empty
  · intro r i
    rw [make_contexts s (g.enteredRules u).nodup, activation_iff hg.toWellFormed, hs.size]
  · constructor
    · rintro ⟨m, hm, hh⟩
      rcases hget _ _ hm with hm | rfl
      · exact ⟨m, hm, hh⟩
      · exact absurd hh not_holds_empty
    · rintro ⟨m, hm, hh⟩
      exact ⟨m, (hkept _ (Array.getElem?_eq_some_iff.1 hm).1).trans hm, hh⟩

namespace Opens

variable (ho : g.Opens u s e) (hs : g.Serves (g.enteredBefore u) s)
include ho

theorem extend {store : ContextStore} (hx : e.store.Extends store) :
    g.Opens u s ⟨store, e.contexts⟩ where
  frozen := hx.frozen.trans ho.frozen
  size := hx.size.trans ho.size
  full := hx.full
  kept i hi := (hx.kept i (ho.frozen ▸ hi)).trans (ho.kept i hi)
  context := ho.context

include hs

theorem target (hg : g.Valid) (hr : g.Entered ⟨some r, u⟩) :
    ∃ i, e.contexts[r]? = some i ∧ e.store.frozen ≤ i ∧ i < e.store.size ∧
      ∀ j, (g.activations u)[j]? = some ⟨some r, u⟩ ↔ j = i := by
  have hmem := hg.mem_activations_iff.2 ⟨hr, List.prefix_rfl⟩
  obtain ⟨i, hi⟩ := List.getElem?_of_mem hmem
  have hlt : i < (g.activations u).length := (List.getElem?_eq_some_iff.1 hi).1
  obtain ⟨n, -, hin⟩ := (activation_iff hg.toWellFormed).1 hi
  refine ⟨i, (ho.context r i).2 hi, ?_, ho.size ▸ hlt, fun j => ⟨fun hj => ?_, fun hj => hj ▸ hi⟩⟩
  · rw [ho.frozen, hs.size, hin]
    exact Nat.le_add_right _ _
  · exact ((List.getElem?_inj hlt hg.nodup_activations).1 (hi.trans hj.symm)).symm

end Opens

/-- What is registered for an entry of a call, when `set` are the contexts of the caller. -/
def Registers (g : Grammar) (u : List Token) (set : ContextSet) (c : CallEntry)
    (x : Nat × Nat × Nat) : Prop :=
  (g.activations u)[x.1]? = some ⟨some c.invoke, u⟩ ∧ x.2.1 = c.cont ∧
    match c.context with
    | none => x.2.2 ∈ set
    | some r => (g.activations u)[x.2.2]? = some ⟨some r, u⟩

/-- What a rule entered in tail position takes over from the callers. -/
def Inherits (g : Grammar) (u : List Token) (s : ContextStore) (set : ContextSet) (b : Nat)
    (x : Nat × Nat × Nat) : Prop :=
  (g.activations u)[x.1]? = some ⟨some b, u⟩ ∧ ∃ l ∈ set, s.Resumes l x.2.1 x.2.2

theorem Valid.register_ok (hg : g.Valid) (ho : g.Opens u s e)
    (hs : g.Serves (g.enteredBefore u) s) (hset : ∃ i, i ∈ set) {c : CallEntry}
    (hc : g.Entered ⟨some c.invoke, u⟩) (hr : ∀ r, c.context = some r → g.Entered ⟨some r, u⟩) :
    ∃ e', Entering.register set e c = .ok e' ∧ g.Opens u s e' ∧ ∀ x : Nat × Nat × Nat,
      e'.store.Resumes x.1 x.2.1 x.2.2 ↔
        e.store.Resumes x.1 x.2.1 x.2.2 ∨ g.Registers u set c x := by
  obtain ⟨i, hi, hle, hlt, htarget⟩ := ho.target hs hg hc
  obtain ⟨store, contexts⟩ := e
  obtain ⟨context, cont, invoke⟩ := c
  cases context with
  | none =>
    obtain ⟨store', hadd, hx, hv⟩ := ContextStore.addSet_ok ho.full hle hlt cont hset
    refine ⟨⟨store', contexts⟩, ?_, ho.extend hx, fun x => (hv x).trans (or_congr_right ?_)⟩
    · rw [Entering.register, ok_bind (inRange_ok hi)]
      exact ok_bind hadd
    · rw [Registers, htarget]
  | some r =>
    obtain ⟨j, hj, -, -, hsource⟩ := ho.target hs hg (hr r rfl)
    obtain ⟨store', hadd, hx, hv⟩ := ContextStore.add_ok ho.full hle hlt cont j
    refine ⟨⟨store', contexts⟩, ?_, ho.extend hx, fun x => (hv x).trans (or_congr_right ?_)⟩
    · rw [Entering.register, ok_bind (inRange_ok hi)]
      exact (ok_bind (inRange_ok hj)).trans (ok_bind hadd)
    · rw [Registers, htarget]
      exact and_congr_right fun _ => and_congr_right fun _ => (hsource _).symm

theorem Valid.inherit_ok (hg : g.Valid) (ho : g.Opens u s e)
    (hs : g.Serves (g.enteredBefore u) s) (hset : ∀ l ∈ set, l < s.size)
    (hb : g.Entered ⟨some b, u⟩) :
    ∃ e', Entering.inherit set e b = .ok e' ∧ g.Opens u s e' ∧ ∀ x : Nat × Nat × Nat,
      e'.store.Resumes x.1 x.2.1 x.2.2 ↔
        e.store.Resumes x.1 x.2.1 x.2.2 ∨ g.Inherits u s set b x := by
  obtain ⟨i, hi, -, -, htarget⟩ := ho.target hs hg hb
  obtain ⟨store, contexts⟩ := e
  have hstep : ∀ l ∈ set.toList, ∀ store, g.Opens u s ⟨store, contexts⟩ →
      ∃ store', ContextStore.merge store i l = .ok store' ∧ g.Opens u s ⟨store', contexts⟩ ∧
        ∀ x : Nat × Nat × Nat, store'.Resumes x.1 x.2.1 x.2.2 ↔
          store.Resumes x.1 x.2.1 x.2.2 ∨ x.1 = i ∧ s.Resumes l x.2.1 x.2.2 := by
    intro l hl store ho
    obtain ⟨i', hi', hle, hlt, -⟩ := ho.target hs hg hb
    obtain rfl := Option.some.inj (hi.symm.trans hi')
    have hls : l < store.frozen := ho.frozen ▸ hset l hl
    obtain ⟨store', hm, hx, hv⟩ := ContextStore.merge_ok ho.full hle hlt hls
    refine ⟨store', hm, ho.extend hx, fun x => (hv x).trans ?_⟩
    rw [ContextStore.Resumes, ContextStore.Resumes, ContextStore.Resumes, ho.kept l (hset l hl)]
  obtain ⟨store', hr, ho', hv⟩ := foldlM_ok (fun store => g.Opens u s ⟨store, contexts⟩)
    (fun store (x : Nat × Nat × Nat) => store.Resumes x.1 x.2.1 x.2.2)
    (fun l x => x.1 = i ∧ s.Resumes l x.2.1 x.2.2) hstep store ho
  refine ⟨⟨store', contexts⟩, ?_, ho', fun x => (hv x).trans (or_congr_right ?_)⟩
  · rw [Entering.inherit, ok_bind (inRange_ok hi)]
    exact ok_bind hr
  · rw [Inherits, htarget]
    constructor
    · rintro ⟨l, hl, hx, hres⟩
      exact ⟨hx, l, hl, hres⟩
    · rintro ⟨hx, l, hl, hres⟩
      exact ⟨l, hl, hx, hres⟩

/-- What an arrival at a call writes to the contexts of the rules that are entered. -/
def Writes (g : Grammar) (u : List Token) (s : ContextStore) (row : Row) (set : ContextSet)
    (x : Nat × Nat × Nat) : Prop :=
  (∃ c ∈ row.entries, g.Registers u set c x) ∨
    row.inTail = true ∧ ∃ b ∈ row.children, g.Inherits u s set b x

theorem Valid.enter_ok (hg : g.Valid) (ho : g.Opens u s e)
    (hs : g.Serves (g.enteredBefore u) s) {y : Activation} (hat : g.At y u p)
    (hout : FromOutside y u) {row : Row} (hrow : t.row p = .ok row) (hfit : row.Fits g y.top p)
    (hset : ∃ i, i ∈ set) (hlt : ∀ l ∈ set, l < s.size) :
    ∃ e', Entering.enter t e (p, set) = .ok e' ∧ g.Opens u s e' ∧ ∀ x : Nat × Nat × Nat,
      e'.store.Resumes x.1 x.2.1 x.2.2 ↔
        e.store.Resumes x.1 x.2.1 x.2.2 ∨ g.Writes u s row set x := by
  obtain ⟨e₁, hr₁, ho₁, hv₁⟩ := foldlM_ok (g.Opens u s)
    (fun e (x : Nat × Nat × Nat) => e.store.Resumes x.1 x.2.1 x.2.2) (g.Registers u set)
    (fun c hc e ho => by
      obtain ⟨hi, hr⟩ := hg.entered_of_entry hat hout (hfit.entries c hc)
      exact hg.register_ok ho hs hset hi hr) e ho
  rw [Entering.enter, ok_bind hrow, ok_bind hr₁]
  by_cases htail : row.inTail = true
  · obtain ⟨e₂, hr₂, ho₂, hv₂⟩ := foldlM_ok (g.Opens u s)
      (fun e (x : Nat × Nat × Nat) => e.store.Resumes x.1 x.2.1 x.2.2) (g.Inherits u s set)
      (fun b hb e ho => by
        have hb' := hg.entered_of_mem hat hout hfit (mem_entered_iff.2 (.inr ⟨htail, hb⟩))
        exact hg.inherit_ok ho hs hlt hb') e₁ ho₁
    refine ⟨e₂, by rw [if_pos htail]; exact hr₂, ho₂, fun x => ?_⟩
    rw [hv₂, hv₁, or_assoc, Writes]
    simp [htail]
  · refine ⟨e₁, by rw [if_neg htail]; rfl, ho₁, fun x => ?_⟩
    rw [hv₁, Writes]
    simp [htail]

end Opening

end TokenGrammar.Grammar
