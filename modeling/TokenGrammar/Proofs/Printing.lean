import TokenGrammar.Grammar

/-!
# Expressions read back from their text

The written form of an expression can be read in one way only: it determines the tree without its
handles. Each text is shown to be read off the front of whatever follows it. Three places need care.
A quoted token may be one of the delimiters, a token outside the quotes is a numeral that ends at the
closing parenthesis, and the name of a rule may itself end like the number of a site, so a call is
split at its last underscore.
-/

namespace TokenGrammar

section Delimited

variable {α : Type} {c : α} {a b r r' : List α}

theorem append_mark_inj (ha : c ∉ a) (hb : c ∉ b) (h : a ++ c :: r = b ++ c :: r') :
    a = b ∧ r = r' := by
  induction a generalizing b with
  | nil =>
    cases b with
    | nil => simpa using h
    | cons y b => simp_all
  | cons x a ih =>
    cases b with
    | nil =>
      have hx : x = c := (List.cons.inj h).1
      simp [hx] at ha
    | cons y b =>
      simp only [List.mem_cons, not_or] at ha hb
      simp only [List.cons_append, List.cons.injEq] at h
      have ⟨hab, hr⟩ := ih ha.2 hb.2 h.2
      exact ⟨by rw [h.1, hab], hr⟩

/-- A text is split at the last occurrence of a mark. -/
theorem append_last_mark_inj (hr : c ∉ r) (hr' : c ∉ r') (h : a ++ c :: r = b ++ c :: r') :
    a = b ∧ r = r' := by
  have hrev : r.reverse ++ c :: a.reverse = r'.reverse ++ c :: b.reverse := by
    simpa using congrArg List.reverse h
  have ⟨hrr, hab⟩ := append_mark_inj (by simpa using hr) (by simpa using hr') hrev
  exact ⟨List.reverse_inj.1 hab, List.reverse_inj.1 hrr⟩

end Delimited

section Numerals

variable {c : Char} {m n : Nat}

theorem notMem_toDigits (hc : c.isDigit = false) : c ∉ Nat.toDigits 10 n := by
  intro h
  simp [Nat.isDigit_of_mem_toDigits (by decide) (by decide) h] at hc

theorem toDigits_inj (h : Nat.toDigits 10 m = Nat.toDigits 10 n) : m = n := by
  simpa using congrArg (fun digits => Nat.ofDigitChars 10 digits 0) h

end Numerals

namespace Token

variable {t u : Token} {r r' : List Char}

theorem toNat_ofNat_of_isGraphic (h : t.isGraphic = true) : (Char.ofNat t).toNat = t := by
  have hall : ∀ t < 127, (Char.ofNat t).toNat = t := by decide
  simp only [isGraphic, Bool.and_eq_true, decide_eq_true_eq] at h
  exact hall t (Nat.lt_succ_of_le h.2)

theorem quoted_append_inj {c d : Char} (h : (quoted c).toList ++ r = (quoted d).toList ++ r') :
    c = d ∧ r = r' := by
  unfold quoted at h
  split at h <;> split at h <;> simp at h <;> grind

theorem quoted_append_ne (c : Char) (n : Nat) :
    (quoted c).toList ++ r ≠ Nat.toDigits 10 n ++ r' := by
  have hq : ∃ s, (quoted c).toList = '\'' :: s := by
    unfold quoted
    split <;> exact ⟨_, String.toList_ofList⟩
  obtain ⟨s, hs⟩ := hq
  intro h
  cases hd : Nat.toDigits 10 n with
  | nil => exact Nat.toDigits_ne_nil hd
  | cons d ds =>
    rw [hs, hd, List.cons_append, List.cons_append, List.cons.injEq] at h
    exact notMem_toDigits (c := '\'') (n := n) (by decide) (by simp [hd, ← h.1])

/-- The text of a token is read off the front of what follows the closing parenthesis. -/
theorem print_append_inj (h : t.print.toList ++ ')' :: r = u.print.toList ++ ')' :: r') :
    t = u ∧ r = r' := by
  unfold print at h
  by_cases ht : t.isGraphic = true <;> by_cases hu : u.isGraphic = true <;>
    simp only [ht, hu, if_true, if_false, Bool.false_eq_true, Nat.toString_eq_repr,
      Nat.toList_repr] at h
  · have ⟨hc, hr⟩ := quoted_append_inj h
    rw [← toNat_ofNat_of_isGraphic ht, ← toNat_ofNat_of_isGraphic hu, hc]
    exact ⟨rfl, by simpa using hr⟩
  · exact absurd h (quoted_append_ne _ _)
  · exact absurd h.symm (quoted_append_ne _ _)
  · have ⟨hd, hr⟩ := append_mark_inj (notMem_toDigits (by decide)) (notMem_toDigits (by decide)) h
    exact ⟨toDigits_inj hd, hr⟩

end Token

theorem TokenTest.print_append_inj {p q : TokenTest} {r r' : List Char}
    (h : p.print.toList ++ r = q.print.toList ++ r') : p = q ∧ r = r' := by
  cases p <;> cases q <;> simp [print] at h
  case equal.equal | atMost.atMost | atLeast.atLeast =>
    have ⟨ht, hr⟩ := Token.print_append_inj h
    exact ⟨by rw [ht], hr⟩
  case any.any => exact ⟨rfl, h⟩

/-- A tree without its handles. At a call it has the name of the rule and the number of the site. -/
inductive Form
  | token (test : TokenTest)
  | eps
  | alt (left right : Form)
  | seq (left right : Form)
  | conj (left right : Form)
  | plus (body : Form)
  | call (callee : String) (site : Nat)
  | endMark
  deriving DecidableEq, Repr

namespace Expr

def form (ruleName : RuleRef → String) : Expr → Form
  | token _ test => .token test
  | eps _ => .eps
  | alt _ l r => .alt (l.form ruleName) (r.form ruleName)
  | seq _ l r => .seq (l.form ruleName) (r.form ruleName)
  | conj _ l r => .conj (l.form ruleName) (r.form ruleName)
  | plus _ c => .plus (c.form ruleName)
  | call _ rule site => .call (ruleName rule) site
  | endMark _ => .endMark

variable {ruleName : RuleRef → String} {r r' : List Char}

theorem callName_append_inj (hn : ∀ k, '>' ∉ (ruleName k).toList) {k l : RuleRef} {i j : Nat}
    (h : (callName ruleName k i).toList ++ '>' :: r = (callName ruleName l j).toList ++ '>' :: r') :
    (ruleName k = ruleName l ∧ i = j) ∧ r = r' := by
  have hclean : ∀ k i, '>' ∉ (callName ruleName k i).toList := by
    simp [callName, hn, notMem_toDigits]
  have ⟨hname, hr⟩ := append_mark_inj (hclean k i) (hclean l j) h
  simp only [callName, String.toList_append, List.append_assoc, Nat.toString_eq_repr,
    Nat.toList_repr] at hname
  have ⟨hk, hi⟩ := append_last_mark_inj (c := '_') (notMem_toDigits (by decide))
    (notMem_toDigits (by decide)) hname
  exact ⟨⟨String.toList_inj.1 hk, toDigits_inj hi⟩, hr⟩

variable (ruleName) in
/-- The text of an expression is read off the front of what follows it, and it gives the tree without
its handles. -/
def ReadOff (e : Expr) : Prop :=
  ∀ {e' : Expr} {r r' : List Char},
    (e.print ruleName).toList ++ r = (e'.print ruleName).toList ++ r' →
      e.form ruleName = e'.form ruleName ∧ r = r'

theorem ReadOff.pair {a b a' b' : Expr} (ha : ReadOff ruleName a) (hb : ReadOff ruleName b)
    (h : (a.print ruleName).toList ++ ',' :: ' ' :: ((b.print ruleName).toList ++ ')' :: r) =
      (a'.print ruleName).toList ++ ',' :: ' ' :: ((b'.print ruleName).toList ++ ')' :: r')) :
    (a.form ruleName = a'.form ruleName ∧ b.form ruleName = b'.form ruleName) ∧ r = r' := by
  have ⟨hleft, h⟩ := ha h
  simp only [List.cons.injEq, true_and] at h
  have ⟨hright, h⟩ := hb h
  exact ⟨⟨hleft, hright⟩, (List.cons.inj h).2⟩

theorem test_append_ne (p : TokenTest) {e : Expr} (he : ∀ ref q, e ≠ .token ref q) :
    p.print.toList ++ r ≠ (e.print ruleName).toList ++ r' := by
  cases e with
  | token ref q => exact absurd rfl (he ref q)
  | _ => cases p <;> simp [print, TokenTest.print]

theorem readOff (hn : ∀ k, '>' ∉ (ruleName k).toList) (e : Expr) : ReadOff ruleName e := by
  induction e with
  | token _ p =>
    intro e' r r' h
    cases e' with
    | token _ q => simpa [form] using TokenTest.print_append_inj h
    | _ => exact absurd h (test_append_ne p (by simp))
  | eps =>
    intro e' r r' h
    cases e' with
    | eps => simpa [print, form] using h
    | token _ q => exact absurd h.symm (test_append_ne q (by simp))
    | _ => simp [print] at h
  | alt _ a b iha ihb =>
    intro e' r r' h
    cases e' with
    | alt _ a' b' => simpa [form] using iha.pair ihb (by simpa [print] using h)
    -- all other operators write their own name first
    | token _ q => exact absurd h.symm (test_append_ne q (by simp))
    | _ => simp [print] at h
  | seq _ a b iha ihb =>
    intro e' r r' h
    cases e' with
    | seq _ a' b' => simpa [form] using iha.pair ihb (by simpa [print] using h)
    | token _ q => exact absurd h.symm (test_append_ne q (by simp))
    | _ => simp [print] at h
  | conj _ a b iha ihb =>
    intro e' r r' h
    cases e' with
    | conj _ a' b' => simpa [form] using iha.pair ihb (by simpa [print] using h)
    | token _ q => exact absurd h.symm (test_append_ne q (by simp))
    | _ => simp [print] at h
  | plus _ a iha =>
    intro e' r r' h
    cases e' with
    | plus _ a' =>
      have hbody : (a.print ruleName).toList ++ ')' :: r =
          (a'.print ruleName).toList ++ ')' :: r' := by simpa [print] using h
      simpa [form] using iha hbody
    | token _ q => exact absurd h.symm (test_append_ne q (by simp))
    | _ => simp [print] at h
  | call _ k i =>
    intro e' r r' h
    cases e' with
    | call _ l j => simpa [form] using callName_append_inj hn (by simpa [print] using h)
    | token _ q => exact absurd h.symm (test_append_ne q (by simp))
    | _ => simp [print] at h
  | endMark =>
    intro e' r r' h
    cases e' with
    | endMark => simpa [print, form] using h
    | token _ q => exact absurd h.symm (test_append_ne q (by simp))
    | _ => simp [print] at h

theorem print_eq_of_form_eq {e e' : Expr} (h : e.form ruleName = e'.form ruleName) :
    e.print ruleName = e'.print ruleName := by
  induction e generalizing e' with
  | alt _ _ _ iha ihb | seq _ _ _ iha ihb | conj _ _ _ iha ihb =>
    cases e' <;> simp only [form, Form.alt.injEq, Form.seq.injEq, Form.conj.injEq, reduceCtorEq] at h
    rw [print, print, iha h.1, ihb h.2]
  | plus _ _ iha =>
    cases e' <;> simp only [form, Form.plus.injEq, reduceCtorEq] at h
    rw [print, print, iha h]
  | _ => cases e' <;> simp_all [form, print, callName]

end Expr

variable {g : Grammar}

theorem Grammar.notMem_ruleName {c : Char} (hn : ∀ rule ∈ g.rules, c ∉ rule.name.toList)
    (k : RuleRef) : c ∉ (g.ruleName k).toList := by
  unfold ruleName
  cases hk : g.rules[k.index]? with
  | none => simp
  | some rule => simpa using hn rule (Array.mem_of_getElem? hk)

/-- **Printed expressions are unambiguous.** Where no rule has a `>` in its name, two expressions have
one text exactly when they are one tree: the same constructors in the same places, the same tests of
the same tokens, and at each call the same name of a rule and the same site. -/
theorem Grammar.print_eq_iff (hn : ∀ rule ∈ g.rules, '>' ∉ rule.name.toList) (e e' : Expr) :
    g.print e = g.print e' ↔ e.form g.ruleName = e'.form g.ruleName := by
  constructor
  · intro h
    have happ : (g.print e).toList ++ [] = (g.print e').toList ++ [] := by rw [h]
    exact (Expr.readOff (g.notMem_ruleName hn) e happ).1
  · exact Expr.print_eq_of_form_eq

/-- A rule whose name ends like the first call of another. -/
def namesakes : Grammar :=
  ⟨0, #[.eps ⟨0, 0⟩, .endMark ⟨0, 1⟩], #[false, false],
    #[⟨"a", .eps ⟨0, 0⟩⟩, ⟨"a_1", .eps ⟨0, 0⟩⟩], .eps ⟨0, 0⟩⟩

/-- A comma and the eleventh call of `a` are not written as a comma and the first call of `a_1`; the
handles of the nodes make no difference. -/
theorem Grammar.print_eq_iff_namesakes :
    (∀ rule ∈ namesakes.rules, '>' ∉ rule.name.toList) ∧
      namesakes.print (.seq ⟨0, 4⟩ (.token ⟨0, 2⟩ (.equal 44)) (.call ⟨0, 3⟩ ⟨0, 0⟩ 11)) ≠
        namesakes.print (.seq ⟨0, 4⟩ (.token ⟨0, 2⟩ (.equal 44)) (.call ⟨0, 3⟩ ⟨0, 1⟩ 1)) ∧
      namesakes.print (.seq ⟨0, 4⟩ (.token ⟨0, 2⟩ (.equal 44)) (.call ⟨0, 3⟩ ⟨0, 0⟩ 11)) =
        namesakes.print (.seq ⟨0, 7⟩ (.token ⟨0, 5⟩ (.equal 44)) (.call ⟨0, 6⟩ ⟨0, 0⟩ 11)) := by
  have hn : ∀ rule ∈ namesakes.rules, '>' ∉ rule.name.toList := by simp [namesakes]
  refine ⟨hn, fun h => ?_, (print_eq_iff hn _ _).2 rfl⟩
  have hform := (print_eq_iff hn _ _).1 h
  simp [Expr.form] at hform

example :
    namesakes.print (.seq ⟨0, 4⟩ (.token ⟨0, 2⟩ (.equal 44)) (.call ⟨0, 3⟩ ⟨0, 1⟩ 1)) =
      "seq(eq(','), <a_1_1>)" := by decide

end TokenGrammar
