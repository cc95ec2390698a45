import TokenGrammar.Proofs.Drafts
import TokenGrammar.Proofs.LanguageVerdicts

/-!
# Rules that stand for other rules

Chains and cycles of aliases around a token in any number of parentheses. An alias adds nothing to
the least solution, so how many there are cannot be told from the verdicts.
-/

namespace TokenGrammar.Samples

open Builder (Client Draft Drafts firstBodies)

/-- One of the tokens in any number of parentheses. -/
def nested (middle : List Token) : Language Token :=
  {w | ∃ k, ∃ c ∈ middle,
    w = List.replicate k (Token.ofChar '(') ++ c :: List.replicate k (Token.ofChar ')')}

section Solutions

variable {middle : List Token} {N : Nat → Language Token} {w : List Token}

def parens : Shape :=
  .join [.token (.equal (Token.ofChar '(')), .call 0, .token (.equal (Token.ofChar ')'))]

theorem mem_parens : w ∈ parens.words N ↔
    ∃ v ∈ N 0, w = Token.ofChar '(' :: (v ++ [Token.ofChar ')']) := by
  constructor
  · intro hw
    obtain ⟨_, hopen, v, hclose, rfl⟩ := Shape.mem_seq.1 hw
    obtain ⟨u, hu, rfl⟩ := Shape.mem_equal_seq.1 hopen
    exact ⟨u, hu, by rw [Shape.mem_equal.1 hclose]; rfl⟩
  · rintro ⟨v, hv, rfl⟩
    exact Shape.mem_seq.2 ⟨_, Shape.mem_equal_seq.2 ⟨v, hv, rfl⟩, _, Shape.mem_equal.2 rfl, rfl⟩

theorem mem_nested_of_mem {c : Token} (h : c ∈ middle) : [c] ∈ nested middle := ⟨0, c, h, rfl⟩

theorem parens_le : parens.words (fun _ => nested middle) ≤ nested middle := by
  intro w hw
  obtain ⟨_, ⟨k, c, hc, rfl⟩, rfl⟩ := mem_parens.1 hw
  refine ⟨k + 1, c, hc, ?_⟩
  rw [List.replicate_succ, List.replicate_succ' (n := k)]
  simp

/-- The nested tokens are the least that has the tokens and is closed under parentheses. -/
theorem nested_le (hmiddle : ∀ c ∈ middle, [c] ∈ N 0) (hparens : parens.words N ≤ N 0) :
    nested middle ≤ N 0 := by
  rintro _ ⟨k, c, hc, rfl⟩
  induction k with
  | zero => exact hmiddle c hc
  | succ k ih =>
    refine hparens (mem_parens.2 ⟨_, ih, ?_⟩)
    rw [List.replicate_succ, List.replicate_succ' (n := k)]
    simp

end Solutions

section Chain

variable {n : Nat}

/-- The rules of a chain of `n` aliases. -/
def chainBody (n i : Nat) : Shape :=
  if i < n then .call (i + 1) else .alt (.token (.equal (Token.ofChar 'x'))) parens

theorem plain_chainBody (i : Nat) : (chainBody n i).plain = true := by
  unfold chainBody
  split <;> rfl

private theorem drafts_parens {b : Builder} {bodies : List (Option Shape)} (h : b.Draft 0 bodies)
    (hk : 0 < bodies.length) : Drafts (do
      let opening ← Builder.equal (Token.ofChar '(')
      let inner ← Builder.call ⟨0, 0⟩
      let closing ← Builder.equal (Token.ofChar ')')
      Builder.join [opening, inner, closing]) b 0 bodies fun q b' => b'.Stands q parens := by
  refine (h.equal _).bind fun opening b₁ _ h₁ ho => ?_
  refine (h₁.call hk).bind fun inner b₂ hb₂ h₂ hi => ?_
  refine (h₂.equal _).bind fun closing b₃ hb₃ h₃ hc => ?_
  exact h₃.join (.cons ((ho.mono hb₂).mono hb₃) (.cons (hi.mono hb₃) (.cons hc .nil)))

private theorem drafts_aliasChain (n : Nat) :
    Drafts (aliasChain n) (.new 0) 0 (firstBodies (chainBody n) (n + 1) (n + 1))
      fun q b => b.Stands q (.call 0) := by
  refine ((Builder.draft_new 0).rule "a0").bind fun top b₁ _ h₁ htop => ?_
  obtain rfl : top = ⟨0, 0⟩ := htop
  refine (h₁.rules (fun i => "a" ++ toString (i + 1)) (List.range n)).bind
    fun rest b₂ _ h₂ hrest => ?_
  obtain rfl : rest = (List.range n).map fun i => ⟨0, i + 1⟩ := by
    rw [hrest, List.length_range, List.range'_eq_map_range, List.map_map]
    exact List.map_congr_left fun i _ => congrArg (RuleRef.mk 0) (Nat.add_comm 1 i)
  have hall : (⟨0, 0⟩ :: (List.range n).map fun i => ⟨0, i + 1⟩ : List RuleRef) =
      (List.range (n + 1)).map (RuleRef.mk 0) := by
    rw [List.range_succ_eq_map, List.map_cons, List.map_map]
    rfl
  have hstart : b₂.Draft 0 (firstBodies (chainBody n) (n + 1) 0) := by
    rw [Builder.firstBodies_zero]
    simpa [List.replicate_succ] using h₂
  refine (Builder.drafts_forIn _ (firstBodies (chainBody n) (n + 1)) hstart ?_).bind
    fun _ b₃ _ h₃ _ => ?_
  · rintro i ⟨r, next⟩ b hx hb
    rw [hall] at hx
    obtain ⟨hr, hnext⟩ := List.getElem?_zip_eq_some.1 hx
    obtain ⟨hi, hnext⟩ := List.getElem?_eq_some_iff.1 hnext
    obtain ⟨_, hr⟩ := List.getElem?_eq_some_iff.1 hr
    rw [List.length_map, List.length_range] at hi
    obtain rfl : ⟨0, i + 1⟩ = next := by simpa using hnext
    obtain rfl : ⟨0, i⟩ = r := by simpa using hr
    refine (hb.call (k := i + 1) (by rw [Builder.length_firstBodies]; omega)).bind
      fun c b₁ _ h₁ hc => ?_
    refine (h₁.setNext (Nat.lt_succ_of_lt hi) ?_).bind fun _ _ _ h₂ _ => .pure h₂ rfl
    rwa [chainBody, if_pos hi]
  · have hlast : ∀ hne,
        (⟨0, 0⟩ :: (List.range n).map fun i => ⟨0, i + 1⟩ : List RuleRef).getLast hne = ⟨0, n⟩ := by
      rw [hall]
      simp
    have h₃ : b₃.Draft 0 (firstBodies (chainBody n) (n + 1) n) := by simpa using h₃
    have hpos : 0 < (firstBodies (chainBody n) (n + 1) n).length := by
      rw [Builder.length_firstBodies]
      exact Nat.succ_pos n
    refine (h₃.equal _).bind fun x b₄ _ h₄ hx => ?_
    refine (drafts_parens h₄ hpos).bind fun p b₅ hb₅ h₅ hp => ?_
    refine (h₅.alt (hx.mono hb₅) hp).bind fun body b₆ _ h₆ hbody => ?_
    rw [hlast]
    refine (h₆.setNext (Nat.lt_succ_self n) ?_).bind fun _ b₇ _ h₇ _ => ?_
    · rwa [chainBody, if_neg (Nat.lt_irrefl n)]
    · exact h₇.call (by rw [Builder.length_firstBodies]; exact Nat.succ_pos n)

theorem renders_aliasChain (n : Nat) :
    Renders (aliasChain n) (verdictFor (nested [Token.ofChar 'x'])) := by
  obtain ⟨g, hg, h⟩ : ∃ g, Samples.grammar (aliasChain n) = .ok g ∧
      g.Shaped ((List.range (n + 1)).map (chainBody n)) (.call 0) :=
    (Builder.firstBodies_all ▸ drafts_aliasChain n).grammarOf
  have hbody : ∀ i ≤ n, g.words i = (chainBody n i).words g.words :=
    fun i hi => h.words_eq (by simp [Nat.lt_succ_of_le hi])
  have hlast : g.words n =
      (Shape.alt (.token (.equal (Token.ofChar 'x'))) parens).words g.words := by
    rw [hbody n (Nat.le_refl n), chainBody, if_neg (Nat.lt_irrefl n)]
  -- all the rules of the chain have the language of the last one
  have hsame : ∀ i ≤ n, g.words 0 = g.words i := by
    intro i
    induction i with
    | zero => exact fun _ => rfl
    | succ i ih =>
      intro hi
      rw [ih (Nat.le_of_succ_le hi), hbody i (Nat.le_of_succ_le hi), chainBody,
        if_pos (show i < n from hi)]
      rfl
  have hle : nested [Token.ofChar 'x'] ≤ g.words 0 := by
    have hclosed := ((hsame n (Nat.le_refl n)).trans hlast).ge
    refine nested_le (fun c hc => hclosed (.inl ?_)) fun w hw => hclosed (.inr hw)
    exact Shape.mem_equal.2 (congrArg (fun c => [c]) (List.mem_singleton.1 hc))
  refine ⟨g, hg, h.renders ?_ (L := fun _ => nested [Token.ofChar 'x']) ?_ ?_
    (fun _ _ => ⟨_, mem_nested_of_mem List.mem_cons_self⟩) (by simp)⟩
  · intro s hs
    obtain ⟨i, -, rfl⟩ := List.mem_map.1 hs
    exact plain_chainBody i
  · intro k s hs
    obtain ⟨i, -, rfl⟩ := List.mem_map.1 (List.mem_of_getElem? hs)
    unfold chainBody
    split
    · exact le_refl _
    · rintro w (hw | hw)
      · rw [Shape.mem_equal.1 hw]
        exact mem_nested_of_mem List.mem_cons_self
      · exact parens_le hw
  · intro k hk
    rw [← hsame k (by simpa [Nat.lt_succ_iff] using hk)]
    exact hle

end Chain

section Cycle

def cycleMiddle : List Token := [Token.ofChar 'x', Token.ofChar 'y', Token.ofChar 'z']

def aliasBody (rule : Nat) (c : Token) : Shape := .alt (.call rule) (.token (.equal c))

private theorem mem_aliasBody {N : Nat → Language Token} {k : Nat} {c : Token} {w : List Token} :
    w ∈ (aliasBody k c).words N ↔ w ∈ N k ∨ w = [c] := by
  rw [aliasBody, Shape.mem_alt, Shape.mem_equal]
  rfl

private theorem aliasBody_le {k : Nat} {c : Token} {middle : List Token} (hc : c ∈ middle) :
    (aliasBody k c).words (fun _ => nested middle) ≤ nested middle := by
  intro w hw
  rcases mem_aliasBody.1 hw with hw | rfl
  · exact hw
  · exact mem_nested_of_mem hc

theorem renders_mutualAlias : Renders mutualAlias (verdictFor (nested cycleMiddle)) := by
  have hclient : Client mutualAlias :=
    .bind (.rule "a") fun a => .bind (.rule "b") fun b => .bind (.rule "c") fun c =>
      .bind (.call b) fun callB => .bind (.token _) fun x =>
        .bind (.bind (.token _) fun opening => .bind (.call a) fun inner =>
          .bind (.token _) fun closing => .join [opening, inner, closing]) fun parens =>
        .bind (.select [callB, x, parens]) fun bodyA => .bind (.setBody a bodyA) fun _ =>
          .bind (.call c) fun callC => .bind (.token _) fun y => .bind (.alt callC y) fun bodyB =>
            .bind (.setBody b bodyB) fun _ => .bind (.call a) fun callA => .bind (.token _) fun z =>
              .bind (.alt callA z) fun bodyC => .bind (.setBody c bodyC) fun _ => .call a
  obtain ⟨g, hg, h⟩ : ∃ g, Samples.grammar mutualAlias = .ok g ∧
      g.Shaped [.alt (aliasBody 1 (Token.ofChar 'x')) parens, aliasBody 2 (Token.ofChar 'y'),
        aliasBody 0 (Token.ofChar 'z')] (.call 0) :=
    hclient.shaped (by decide +kernel)
  have ha := (h.words_eq (k := 0) rfl).ge
  have hb := (h.words_eq (k := 1) rfl).ge
  have hc := (h.words_eq (k := 2) rfl).ge
  -- around the cycle every rule has the words of the next one
  have hba : g.words 1 ≤ g.words 0 := fun w hw => ha (.inl (mem_aliasBody.2 (.inl hw)))
  have hcb : g.words 2 ≤ g.words 1 := fun w hw => hb (mem_aliasBody.2 (.inl hw))
  have hac : g.words 0 ≤ g.words 2 := fun w hw => hc (mem_aliasBody.2 (.inl hw))
  have hle : nested cycleMiddle ≤ g.words 0 := by
    refine nested_le (fun m hm => ?_) fun w hw => ha (.inr hw)
    rcases List.mem_cons.1 hm with rfl | hm
    · exact ha (.inl (mem_aliasBody.2 (.inr rfl)))
    · rcases List.mem_pair.1 hm with rfl | rfl
      · exact hba (hb (mem_aliasBody.2 (.inr rfl)))
      · exact hba (hcb (hc (mem_aliasBody.2 (.inr rfl))))
  refine ⟨g, hg, h.renders (by decide) (L := fun _ => nested cycleMiddle) ?_ ?_
    (fun _ _ => ⟨_, mem_nested_of_mem List.mem_cons_self⟩) (by decide)⟩
  · intro k s hs
    rcases k with - | - | - | k
    · obtain rfl := Option.some.inj hs
      rintro w (hw | hw)
      · exact aliasBody_le (by decide) hw
      · exact parens_le hw
    · obtain rfl := Option.some.inj hs
      exact aliasBody_le (by decide)
    · obtain rfl := Option.some.inj hs
      exact aliasBody_le (by decide)
    · cases hs
  · intro k hk
    rcases k with - | - | - | k
    · exact hle
    · exact hle.trans (hac.trans hcb)
    · exact hle.trans hac
    · exact absurd hk (by simp)

end Cycle

/-- However many aliases there are, and also when they are aliases of each other, they make no
difference to a verdict. -/
theorem aliases_transparent :
    (∀ n, Renders (aliasChain n) (verdictFor (nested [Token.ofChar 'x']))) ∧
      Renders mutualAlias (verdictFor (nested cycleMiddle)) :=
  ⟨renders_aliasChain, renders_mutualAlias⟩

end TokenGrammar.Samples
