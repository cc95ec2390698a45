import TokenGrammar.Proofs.Activations
import TokenGrammar.Proofs.Reachability

/-!
# What a token does

A token moves control from the terminals that accept it to the positions after them, or, where a body
is complete, to the positions after the calls that control returns to. At these positions rules are
entered. It is enough to look at calls in activations that have been entered before: what is called
before anything is read is in the call sets.
-/

namespace TokenGrammar.Grammar

variable {g : Grammar} {x : Activation} {u : List Token} {a b c p q : Nat} {t : Token}

/-- Where the token `t` moves control, when `u` has been read. -/
def Moves (g : Grammar) (u : List Token) (t : Token) (x : Activation) (q : Nat) : Prop :=
  ∃ y p c, g.At y u p ∧ g.AcceptsAt p t ∧
    (y = x ∧ p = c ∨ ∃ a s, y = ⟨some a, s⟩ ∧ g.Last (some a) p ∧ g.Returns a s c x) ∧
    g.Next x.top c q

theorem Entered.eq_root (h : g.Entered x) (hx : x.top = none) : x = ⟨none, []⟩ := by
  cases h with
  | root => rfl
  | call => cases hx

theorem At.start_le (h : g.At x u p) : x.start.length ≤ u.length := by
  obtain ⟨-, e, w, -, rfl, -⟩ := h
  simp

theorem Returns.start_le (h : g.Returns a u c x) : x.start.length ≤ u.length := by
  induction h with
  | direct h => exact h.start_le
  | tail h _ _ _ _ _ ih => exact ih.trans h.start_le

private theorem start_ne {s : List Token} (h : s.length ≤ u.length) : s ≠ u ++ [t] := by
  intro he
  rw [he, List.length_append, List.length_singleton] at h
  omega

theorem Valid.moves_iff (hg : g.Valid) :
    g.Moves u t x q ↔ g.At x (u ++ [t]) q ∧ x.start ≠ u ++ [t] ∨
      x = ⟨none, []⟩ ∧ q = g.endIndex ∧ g.Sentence (u ++ [t]) := by
  constructor
  · rintro ⟨y, p, c, hy, hacc, hor, hnext⟩
    -- control stands before `c` when `u'` has been read, and `c` has derived the rest
    obtain ⟨u', v', hu, hc, hd, hle⟩ : ∃ u' v', u' ++ v' = u ++ [t] ∧ g.At x u' c ∧
        g.DerivesAt c v' ∧ x.start.length ≤ u.length := by
      rcases hor with ⟨rfl, rfl⟩ | ⟨a, s, rfl, hl, hr⟩
      · exact ⟨u, [t], rfl, hy, hacc.derivesAt, hy.start_le⟩
      · obtain ⟨e, w, he, hw, hd⟩ := hg.complete hy hacc.derivesAt hl
        obtain ⟨u', v', huv, hc, hd⟩ := hg.derivesAt_of_returns hr ⟨e, he, hd⟩
        exact ⟨u', v', huv.trans hw.symm, hc, hd, hr.start_le.trans hy.start_le⟩
    rcases hnext with ⟨e, he, hf⟩ | ⟨hx, hl, rfl⟩
    · have hq := hg.at_of_follows hc hd he hf
      rw [hu] at hq
      exact .inl ⟨hq, start_ne hle⟩
    · obtain rfl := hc.1.eq_root hx
      obtain ⟨e, w, he, hw, hd⟩ := hg.complete hc hd hl
      obtain rfl := Option.some.inj he
      rw [hu] at hw
      exact .inr ⟨rfl, rfl, by rwa [hw]⟩
  · rintro (⟨⟨hx, e, w, he, hw, ha⟩, hne⟩ | ⟨rfl, rfl, hs⟩)
    · rcases hg.arrive_last (hg.inner_top he) ha with ⟨rfl, -⟩ | ⟨u', v, t', p, rfl, hp, hends, hf⟩
      · exact absurd (by simpa using hw.symm) hne
      · rw [← List.append_assoc] at hw
        obtain ⟨hu, ht⟩ := List.append_inj' hw rfl
        obtain rfl := List.singleton_inj.1 ht
        have hpx : g.At x (x.start ++ u') p := ⟨hx, e, u', he, rfl, hp⟩
        obtain ⟨y, q', hy, hacc, hor⟩ := hg.terminal_of_endsAt hpx hends
        rw [List.append_assoc, ← hu] at hy
        exact ⟨y, q', p, hy, hacc, hor, .inl ⟨e, he, hf⟩⟩
    · have hroot : g.top? none = some g.root := rfl
      obtain ⟨u', v, p, rfl, hp, hl, hends⟩ := hg.ends_of_derives (hg.inner_top hroot) hs rfl
      have hpx : g.At ⟨none, []⟩ u' p := ⟨.root, g.root, u', hroot, rfl, hp⟩
      obtain ⟨y, q', hy, hacc, hor⟩ := hg.terminal_of_endsAt hpx hends
      exact ⟨y, q', p, hy, hacc, hor, .inr ⟨rfl, ⟨g.root, hroot, hl⟩, rfl⟩⟩

/-- Control has come from outside of what is entered now. -/
def FromOutside (x : Activation) (u : List Token) : Prop := x.start ≠ u ∨ x.top = none

instance : Decidable (FromOutside x u) := inferInstanceAs (Decidable (_ ∨ _))

theorem exists_of_inside (h : ¬ FromOutside x u) : ∃ r, x = ⟨some r, u⟩ := by
  obtain ⟨hs, ht⟩ := not_or.1 h
  obtain ⟨top, s⟩ := x
  obtain rfl : s = u := Decidable.of_not_not hs
  cases top with
  | none => exact absurd rfl ht
  | some r => exact ⟨r, rfl⟩

private theorem firstCall_of_inside (hg : g.Valid) (h : g.At x u c) (hin : ¬ FromOutside x u)
    (hc : g.calleeAt? c = some b) :
    ∃ a, x = ⟨some a, u⟩ ∧ g.Entered x ∧ g.FirstCall a c b := by
  obtain ⟨a, rfl⟩ := exists_of_inside hin
  obtain ⟨hx, e, he, hf⟩ := hg.at_start_iff.1 h
  exact ⟨a, rfl, hx, e, he, hf, hc⟩

private theorem at_of_firstCall (hg : g.Valid) (hx : g.Entered ⟨some a, u⟩)
    (h : g.FirstCall a c b) : g.At ⟨some a, u⟩ u c := by
  obtain ⟨e, he, hf, -⟩ := h
  exact hg.at_start_iff.2 ⟨hx, e, he, hf⟩

theorem Valid.entered_iff (hg : g.Valid) :
    g.Entered ⟨some b, u⟩ ↔ ∃ x c a, g.At x u c ∧ FromOutside x u ∧ g.calleeAt? c = some a ∧
      Relation.ReflTransGen g.Starts a b := by
  constructor
  · intro h
    generalize hy : (⟨some b, u⟩ : Activation) = y at h
    induction h generalizing b with
    | root => cases hy
    | @call x e w p a hx he ha hp ih =>
      cases hy
      have hat : g.At x (x.start ++ w) p := ⟨hx, e, w, he, rfl, ha⟩
      by_cases hout : FromOutside x (x.start ++ w)
      · exact ⟨x, p, a, hat, hout, hp, .refl⟩
      · obtain ⟨a, hxa, -, hf⟩ := firstCall_of_inside hg hat hout hp
        obtain ⟨y, c, a', hy, hyo, hc, hst⟩ := ih hxa.symm
        exact ⟨y, c, a', hy, hyo, hc, hst.tail ⟨p, hf⟩⟩
  · rintro ⟨x, c, a, hx, -, hc, hst⟩
    induction hst with
    | refl => exact hx.entered_call hc
    | tail _ hab ih =>
      obtain ⟨d, hd⟩ := hab
      exact (at_of_firstCall hg ih hd).entered_call hd.callee

/-- Where control returns to from a rule that is entered now: after the call from outside, after a
first call of another rule that is entered now, or to where the caller returns. -/
theorem Valid.returns_iff (hg : g.Valid) :
    g.Returns b u c x ↔
      (FromOutside x u ∧ g.At x u c ∧ ∃ a, g.calleeAt? c = some a ∧
        Relation.ReflTransGen g.Aliases a b) ∨
      (∃ r a, x = ⟨some r, u⟩ ∧ g.Entered x ∧ g.FirstCall r c a ∧
        Relation.ReflTransGen g.Aliases a b) ∨
      ∃ r s d a, g.At ⟨some r, s⟩ u d ∧ s ≠ u ∧ g.Last (some r) d ∧ g.calleeAt? d = some a ∧
        Relation.ReflTransGen g.Aliases a b ∧ g.Returns r s c x := by
  constructor
  · intro h
    cases h with
    | @direct _ _ _ a b h hc hb =>
      by_cases hout : FromOutside x u
      · exact .inl ⟨hout, h, a, hc, hb⟩
      · obtain ⟨r, hx, hr, hf⟩ := firstCall_of_inside hg h hout hc
        exact .inr (.inl ⟨r, a, hx, hr, hf, hb⟩)
    | @tail _ s _ r d a b c h hne hl hd hb h' =>
      exact .inr (.inr ⟨r, s, d, a, h, hne, hl, hd, hb, h'⟩)
  · rintro (⟨-, h, a, hc, hb⟩ | ⟨r, a, rfl, hx, hf, hb⟩ | ⟨r, s, d, a, h, hne, hl, hd, hb, h'⟩)
    · exact .direct h hc hb
    · exact .direct (at_of_firstCall hg hx hf) hf.callee hb
    · exact .tail h hne hl hd hb h'

theorem Valid.uses_of_entered (hg : g.Valid) (h : g.Entered x) : g.Uses x.top := by
  induction h with
  | root => exact uses_root
  | call hx he ha hp ih =>
    exact ih.call he (hg.mem_calls_of_mem_marks (hg.stores_top he) ha.mem_marks hp) hp

end TokenGrammar.Grammar
