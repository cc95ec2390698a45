import TokenGrammar.Proofs.Readiness

/-!
# Tail calls are closed

A context that resumes another one at the end of a body is not done there: it goes on to what that
one resumes. A step never follows such a chain. It needs only the first links, because whatever a
chain leads to has been copied down when the calls were made. Contexts that were there before have
their callbacks copied. Those made at the same offset cannot be copied yet, and there it is the call
sets that hold an entry for every alias of a rule that is called.
-/

namespace TokenGrammar

namespace ContextStore

variable {t : Tables} {s : ContextStore} {c k i : Nat}

/-- A context that resumes another one at the end of a body resumes what that one resumes. -/
def TailClosed (t : Tables) (s : ContextStore) : Prop :=
  ∀ {c k i k' j : Nat}, s.Resumes c k i → t.Tail k → s.Resumes i k' j → s.Resumes c k' j

/-- Control returns from the context `c` to the context `i`, after `k`. On the way there it may have
returned to contexts that are complete as well. -/
inductive Unwinds (t : Tables) (s : ContextStore) (c : Nat) : Nat → Nat → Prop
  | direct {k i : Nat} (h : s.Resumes c k i) : Unwinds t s c k i
  | onward {k i k' j : Nat} (h : Unwinds t s c k i) (ht : t.Tail k) (hr : s.Resumes i k' j) :
    Unwinds t s c k' j

/-- When tail calls are closed, every chain of returns is one return. -/
theorem TailClosed.unwinds_iff (h : s.TailClosed t) : s.Unwinds t c k i ↔ s.Resumes c k i := by
  constructor
  · intro hu
    induction hu with
    | direct hr => exact hr
    | onward _ ht hr ih => exact h ih ht hr
  · exact .direct

end ContextStore

namespace Grammar

variable {g : Grammar} {t : Tables} {u : List Token} {p q c i j k r b : Nat} {x : Activation}
  {s : ContextStore} {f arrived : Frontier}

/-- The call by which a rule that is entered now goes on to another rule is a call of an alias, if
it may end the body. -/
theorem Valid.aliases_of_tail (hg : g.Valid) (ht : t.Fits g) (hr : g.Entered ⟨some r, u⟩)
    (hf : g.FirstCall r k b) (hk : t.Tail k) : g.Aliases r b := by
  obtain ⟨e, he, hfirst, hb⟩ := hf
  have hat : g.At ⟨some r, u⟩ u k := hg.at_start_iff.2 ⟨hr, e, he, hfirst⟩
  obtain ⟨e', he', hlast⟩ := (hg.tail_iff ht hat).1 hk
  obtain rfl := Option.some.inj (he.symm.trans he')
  exact ⟨k, e, he, hfirst, hlast, hb⟩

namespace Arrivals

variable (hg : g.Valid) (ht : t.Fits g) (ha : g.Arrivals u arrived s) {a : Nat × ContextSet}
include hg ha

theorem size_le (hi : (g.activations u)[i]? = some ⟨some r, u⟩) : s.size ≤ i := by
  rw [ha.store.size, hg.new_iff_inside hi]
  simp [FromOutside]

include ht

theorem row_at (hm : a ∈ arrived.toList.filter fun e => g.isCallAt e.1) {row : Row}
    (hrow : t.row a.1 = .ok row) : ∃ k, row.Fits g k a.1 := by
  obtain ⟨i, hi⟩ := ha.exists_mem (List.mem_filter.1 hm).1
  obtain ⟨x, -, hat, -⟩ := ha.at_of_call hg hm hi
  exact ⟨x.top, hg.fits_of_row ht hat hrow⟩

/-- What a call writes to the context of a rule, it writes to the contexts of its aliases. -/
theorem writes_alias (hm : a ∈ arrived.toList.filter fun e => g.isCallAt e.1)
    (hi : (g.activations u)[i]? = some ⟨some r, u⟩) (hc : (g.activations u)[c]? = some ⟨some b, u⟩)
    (hb : Relation.ReflTransGen g.Aliases r b) (h : g.WritesAt t u s a (i, k, j)) :
    g.WritesAt t u s a (c, k, j) := by
  obtain ⟨row, hrow, h⟩ := h
  obtain ⟨top, hfit⟩ := ha.row_at hg ht hm hrow
  refine ⟨row, hrow, ?_⟩
  rcases h with ⟨e, he, hei, rfl, hctx⟩ | ⟨htail, b', hb', hbi, hres⟩
  · obtain rfl : e.invoke = r := by simpa [hi] using hei.symm
    exact .inl ⟨_, hfit.aliased e he b hb, hc, rfl, hctx⟩
  · obtain rfl : b' = r := by simpa [hi] using hbi.symm
    obtain ⟨d, hd, hal⟩ := (hfit.children b').1 hb'
    exact .inr ⟨htail, b, (hfit.children b).2 ⟨d, hd, hal.trans hb⟩, hc, hres⟩

end Arrivals

namespace Written

variable (hg : g.Valid) (ht : t.Fits g) (ha : g.Arrivals u arrived s) {e : Entering}
  (hw : g.Written t u s arrived e) {a : Nat × ContextSet}
include hw

theorem resumes_old (hi : i < s.size) : e.store.Resumes i k j ↔ s.Resumes i k j := by
  rw [ContextStore.Resumes, ContextStore.Resumes, hw.kept i hi]

include hg ht ha

theorem closed_of_writes (hs : s.TailClosed t)
    (hm : a ∈ arrived.toList.filter fun e => g.isCallAt e.1) (h : g.WritesAt t u s a (c, k, i))
    (hk : t.Tail k) (hr : e.store.Resumes i q j) : e.store.Resumes c q j := by
  obtain ⟨row, hrow, h⟩ := h
  obtain ⟨top, hfit⟩ := ha.row_at hg ht hm hrow
  have hwrite : ∀ {a}, a ∈ arrived.toList.filter (fun e => g.isCallAt e.1) →
      g.WritesAt t u s a (c, q, j) → e.store.Resumes c q j :=
    fun hm h => (hw.resumes (c, q, j)).2 (.inr ⟨_, hm, h⟩)
  rcases h with ⟨entry, he, hc, rfl, hctx⟩ | ⟨htail, b, hb, hc, l, hl, hres⟩
  · obtain ⟨d, hd, hentry⟩ := hfit.entries entry he
    cases hcc : entry.context with
    | none =>
      -- the caller was there before: its callbacks are copied
      rw [hcc] at hctx hentry
      have hlt := ha.lt_of_mem (List.mem_filter.1 hm).1 hctx
      obtain ⟨row', hrow', htail⟩ := hk
      rw [hentry.1, hrow] at hrow'
      obtain rfl := Except.ok.inj hrow'
      exact hwrite hm ⟨row, hrow, .inr ⟨htail, entry.invoke, (hfit.children _).2 ⟨d, hd, hentry.2⟩,
        hc, i, hctx, (hw.resumes_old hlt).1 hr⟩⟩
    | some r =>
      -- the caller is being made too: all calls that write to it write to its aliases
      rw [hcc] at hctx hentry
      obtain ⟨-, b, hf, hal⟩ := hentry
      have hent := (hg.mem_activations_iff.1 (List.mem_of_getElem? hctx)).1
      have hrb := hg.aliases_of_tail ht hent hf hk
      rcases (hw.resumes (i, q, j)).1 hr with hr | ⟨a', hm', h'⟩
      · exact absurd hr.lt_size (Nat.not_lt_of_le (ha.size_le hg hctx))
      · exact hwrite hm' (ha.writes_alias hg ht hm' hctx hc (.head hrb hal) h')
  · have hlt : i < s.size := (ha.opening hg ht fun _ _ => Iff.rfl).closed hres
    have hon := hs hres hk ((hw.resumes_old hlt).1 hr)
    exact hwrite hm ⟨row, hrow, .inr ⟨htail, b, hb, hc, l, hl, hon⟩⟩

theorem tailClosed (hs : s.TailClosed t) : e.store.freeze.TailClosed t := by
  intro c k i q j hc hk hr
  rcases (hw.resumes (c, k, i)).1 hc with hc | ⟨a, hm, h⟩
  · have hlt : i < s.size := (ha.opening hg ht fun _ _ => Iff.rfl).closed hc
    exact (hw.resumes (c, q, j)).2 (.inl (hs hc hk ((hw.resumes_old hlt).1 hr)))
  · exact hw.closed_of_writes hg ht ha hs hm h hk hr

end Written

end Grammar

end TokenGrammar
