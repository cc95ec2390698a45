import TokenGrammar.Proofs.Language
import TokenGrammar.Proofs.Solving
import Mathlib.Order.Lattice

/-!
# Which calls derive the empty string

The equations for the calls have the calls that derive the empty string as their least solution: a
derivation of the empty string is finite, so every solution has to contain it.
-/

namespace TokenGrammar

instance orderBotBool : OrderBot Bool where
  bot := false
  bot_le := Bool.false_le

theorem Expr.nullable_mono {f f' : Nat → Bool} {e : Expr} (h : ∀ k ∈ e.calls, f k ≤ f' k) :
    e.nullable f ≤ e.nullable f' := by
  induction e with
  | token | eps | conj | endMark => exact le_rfl
  | alt r a b iha ihb =>
    rw [calls_alt] at h
    have ha := iha fun k hk => h k (List.mem_append_left _ hk)
    have hb := ihb fun k hk => h k (List.mem_append_right _ hk)
    exact sup_le_sup ha hb
  | seq r a b iha ihb =>
    rw [calls_seq] at h
    have ha := iha fun k hk => h k (List.mem_append_left _ hk)
    have hb := ihb fun k hk => h k (List.mem_append_right _ hk)
    exact inf_le_inf ha hb
  | plus r c ih => exact ih h
  | call r k s => exact h r.index (List.mem_singleton.2 rfl)

namespace Grammar

variable {g : Grammar}

def callKeys (g : Grammar) : Finset Nat := (Finset.range g.nodes.size).filter (g.isCallAt · = true)

theorem mem_callKeys_iff {k : Nat} : k ∈ g.callKeys ↔ ∃ r, g.calleeAt? k = some r := by
  rw [callKeys, Finset.mem_filter, Finset.mem_range, isCallAt_iff]
  refine ⟨fun h => h.2, fun ⟨r, h⟩ => ⟨?_, r, h⟩⟩
  obtain ⟨e, he, -⟩ := Option.bind_eq_some_iff.1 h
  exact (Array.getElem?_eq_some_iff.1 he).1

theorem Stores.mem_callKeys {e : Expr} (h : g.Stores e) (hc : e.isCall = true) :
    e.ref.index ∈ g.callKeys := by
  rw [mem_callKeys_iff, ← isCallAt_iff, h.isCallAt]
  exact hc

theorem card_callKeys_le (g : Grammar) : g.callKeys.card ≤ g.nodes.size :=
  (Finset.card_filter_le _ _).trans_eq (Finset.card_range _)

theorem card_callKeys_lt (g : Grammar) : g.callKeys.card < g.nodes.size + 1 :=
  Nat.lt_succ_of_le g.card_callKeys_le

theorem WellFormed.calls_mem (hg : g.WellFormed) {e : Expr} (h : g.Stores e) :
    ∀ k ∈ e.calls, k ∈ g.callKeys := by
  intro k hk
  obtain ⟨x, hx, hc, rfl⟩ := Expr.mem_calls_iff.1 hk
  refine mem_callKeys_iff.2 (isCallAt_iff.1 ?_)
  rw [(hg.stores_part h hx).isCallAt]
  exact hc

theorem WellFormed.stores_bodyAt (hg : g.WellFormed) {k : Nat} (hk : k ∈ g.callKeys) :
    g.Stores (g.bodyAt k) := by
  obtain ⟨r, hr⟩ := mem_callKeys_iff.1 hk
  exact hg.stores_top (hg.bodyAt_eq hr)

theorem Valid.calls_bodyAt_mem (hg : g.Valid) :
    ∀ k ∈ g.callKeys, ∀ r ∈ (g.bodyAt k).calls, r ∈ g.callKeys :=
  fun _ hk => hg.calls_mem (hg.stores_bodyAt hk)

theorem WellFormed.emptyAt_body (hg : g.WellFormed) {k : Nat} (hk : k ∈ g.callKeys) :
    g.emptyAt k = true ↔ g.Derives (g.bodyAt k) [] := by
  obtain ⟨r, hr⟩ := mem_callKeys_iff.1 hk
  have hb := hg.bodyAt_eq hr
  obtain ⟨ref, q, s, he, rfl, rfl⟩ := hg.call_of_calleeAt hr
  rw [show ref.index = (Expr.call ref q s).ref.index from rfl, emptyAt_iff he, derives_call_iff, hb]
  simp [Expr.ref]

/-- Every solution of the equations holds on a call that derives the empty string. -/
private theorem nullable_of_derives (hg : g.WellFormed) {K : Nat → Prop} {f : Nat → Bool}
    (hc : ∀ k, K k → ∀ r ∈ (g.bodyAt k).calls, K r)
    (hf : ∀ k, K k → (g.bodyAt k).nullable f = f k) {e : Expr} {w : List Token}
    (hd : g.Derives e w) (hw : w = []) (hs : g.Stores e) (he : ∀ k ∈ e.calls, K k) :
    e.nullable f = true := by
  induction hd with
  | terminal => cases hw
  | eps => rfl
  | altLeft _ ih =>
    rw [Expr.calls_alt] at he
    have ha := ih hw (hg.stores_alt hs).1 fun k hk => he k (List.mem_append_left _ hk)
    rw [Expr.nullable, ha, Bool.true_or]
  | altRight _ ih =>
    rw [Expr.calls_alt] at he
    have hb := ih hw (hg.stores_alt hs).2 fun k hk => he k (List.mem_append_right _ hk)
    rw [Expr.nullable, hb, Bool.or_true]
  | seq _ _ iha ihb =>
    obtain ⟨hu, hv⟩ := List.append_eq_nil_iff.1 hw
    rw [Expr.calls_seq] at he
    have ha := iha hu (hg.stores_seq hs).1 fun k hk => he k (List.mem_append_left _ hk)
    have hb := ihb hv (hg.stores_seq hs).2 fun k hk => he k (List.mem_append_right _ hk)
    rw [Expr.nullable, ha, hb, Bool.true_and]
  | once _ ih => exact ih hw (hg.stores_plus hs) he
  | more _ _ ih _ => exact ih (List.append_eq_nil_iff.1 hw).1 (hg.stores_plus hs) he
  | @call r k s b w hb _ ih =>
    have hK : K r.index := he r.index (List.mem_singleton.2 rfl)
    have hbody : g.bodyAt r.index = b := by
      have := hg.bodyAt_eq (r := k.index) (hs.calleeAt? : g.calleeAt? r.index = _)
      exact Option.some.inj (this.symm.trans hb)
    have hcs := hc _ hK
    have hn := hf _ hK
    rw [hbody] at hcs hn
    rw [Expr.nullable, ← hn]
    exact ih hw (hg.stores_top hb) hcs

theorem Valid.nullableEquation_ok (hg : g.Valid) {e : Expr} (h : g.Stores e) :
    g.nullableEquation e = .ok ⟨e.calls, fun calls => e.nullable calls⟩ := by
  have hknown : ∀ x : Expr, x.isTerminal = true →
      Equation.known false = ⟨x.calls, fun calls => x.nullable calls⟩ := by
    intro x hx
    simp only [Equation.known, Expr.calls_of_terminal hx, Expr.nullable_of_terminal hx]
  induction e with
  | token | eps | endMark | call => exact ok_bind (hg.isTerminal_ok h)
  | alt r a b iha ihb =>
    obtain ⟨ha, hb⟩ := hg.stores_alt h
    rw [nullableEquation, ok_bind (hg.isTerminal_ok h)]
    split
    · rename_i ht
      exact congrArg _ (hknown _ ht)
    · rw [ok_bind (iha ha), ok_bind (ihb hb)]
      rfl
  | seq r a b iha ihb =>
    obtain ⟨ha, hb⟩ := hg.stores_seq h
    exact (ok_bind (hg.isTerminal_ok h)).trans ((ok_bind (iha ha)).trans (ok_bind (ihb hb)))
  | plus r c ih => exact (ok_bind (hg.isTerminal_ok h)).trans (ih (hg.stores_plus h))
  | conj r a b =>
    have ht := hg.terminal_of_conj h
    rw [nullableEquation, ok_bind (hg.isTerminal_ok h), if_pos ht]
    exact congrArg _ (hknown _ ht)

/-- The calls that derive the empty string are the least solution of their equations. -/
noncomputable def Valid.nullables (hg : g.Valid) : g.nullableSystem.Solution where
  good _ := True
  keys := g.callKeys
  equation k := ⟨(g.bodyAt k).calls, fun calls => (g.bodyAt k).nullable calls⟩
  value := g.emptyAt
  rank := Bool.toNat
  height := 1
  found k hk s _ := by
    obtain ⟨r, hr⟩ := mem_callKeys_iff.1 hk
    obtain ⟨q, -, hq⟩ := hg.calledBody_ok hr
    refine ⟨s, ?_, trivial⟩
    show ((liftM (g.calledBody k) >>= fun p => liftM (g.nullableEquation p.2)) :
      StateT Unit (Except Failure) _) s = _
    rw [run_bind (run_lift hq), run_lift (hg.nullableEquation_ok (hg.stores_bodyAt hk))]
  reads_mem := hg.calls_bodyAt_mem
  monotone _ _ _ _ h := Expr.nullable_mono h
  solves k hk := by
    rw [Bool.eq_iff_iff, hg.emptyAt_body hk]
    exact hg.nullable_iff (hg.stores_bodyAt hk)
  least K f hk hc hf k hkk := by
    intro he
    have hd := (hg.emptyAt_body (hk k hkk)).1 he
    rw [← hf k hkk]
    exact nullable_of_derives hg.toWellFormed hc hf hd rfl (hg.stores_bodyAt (hk k hkk))
      (hc k hkk)
  rank_lt v w h := by
    revert h
    revert v w
    decide
  rank_le k _ := Bool.toNat_le _
  depth := g.card_callKeys_lt
  rounds := by
    have := g.card_callKeys_le
    show g.callKeys.card * 1 < g.nodes.size + 2
    omega

end Grammar

end TokenGrammar
