import TokenGrammar.Proofs.Drafts
import TokenGrammar.Proofs.LanguageVerdicts
import Mathlib.Data.List.Rotate

/-!
# Rules that call each other in a cycle

Each rule of the cycle reads a letter and goes on with the next rule, and only the first rule can
stop. The words are rounds through the letters with a token at the end, whatever the letters are: some
of them may be the same, or that token.
-/

namespace TokenGrammar.Samples

open Builder (Draft Drafts firstBodies)

def stop : Token := Token.ofChar 'x'

/-- Any number of rounds through the letters, and the token at the end. -/
def rounds (letters : List Token) : Language Token :=
  {w | ∃ k, w = (List.replicate k letters).flatten ++ [stop]}

/-- The letters from number `i` on, and then rounds. -/
def onward (letters : List Token) (i : Nat) : Language Token :=
  {w | ∃ v ∈ rounds letters, w = letters.drop i ++ v}

/-- The rules of a cycle: the first one may stop. -/
def cycleBody (letters : List Token) (i : Nat) : Shape :=
  let longer := .seq (.token (.equal (letters.getD i 0))) (.call ((i + 1) % letters.length))
  if i = 0 then .alt longer (.token (.equal stop)) else longer

theorem plain_cycleBody (letters : List Token) (i : Nat) : (cycleBody letters i).plain = true := by
  unfold cycleBody
  split <;> rfl

section Solution

variable {letters w : List Token} {i : Nat}

def cycleWords (letters : List Token) (i : Nat) : Language Token :=
  if i = 0 then rounds letters else onward letters i

theorem mem_onward : w ∈ onward letters i ↔ ∃ v ∈ rounds letters, w = letters.drop i ++ v := Iff.rfl

theorem onward_length : onward letters letters.length = rounds letters := by
  ext w
  simp [mem_onward]

theorem onward_zero_le : onward letters 0 ≤ rounds letters := by
  rintro _ ⟨_, ⟨k, rfl⟩, rfl⟩
  exact ⟨k + 1, by simp [List.replicate_succ]⟩

theorem cycleWords_next (hi : i < letters.length) :
    cycleWords letters ((i + 1) % letters.length) = onward letters (i + 1) := by
  rcases Nat.lt_or_eq_of_le (Nat.succ_le_of_lt hi) with hlt | heq
  · rw [Nat.mod_eq_of_lt hlt, cycleWords, if_neg (Nat.succ_ne_zero i)]
  · rw [show i + 1 = letters.length from heq, Nat.mod_self, onward_length]
    rfl

theorem drop_eq_cons (hi : i < letters.length) :
    letters.drop i = letters.getD i 0 :: letters.drop (i + 1) := by
  rw [List.drop_eq_getElem_cons hi, List.getD_eq_getElem?_getD, List.getElem?_eq_getElem hi]
  rfl

theorem cycleBody_le (hi : i < letters.length) :
    (cycleBody letters i).words (cycleWords letters) ≤ cycleWords letters i := by
  have hlonger : ∀ w ∈ (Shape.seq (.token (.equal (letters.getD i 0)))
      (.call ((i + 1) % letters.length))).words (cycleWords letters), w ∈ onward letters i := by
    intro w hw
    obtain ⟨u, hu, rfl⟩ := Shape.mem_equal_seq.1 hw
    obtain ⟨v, hv, rfl⟩ : u ∈ onward letters (i + 1) := cycleWords_next hi ▸ hu
    exact ⟨v, hv, by rw [drop_eq_cons hi]; rfl⟩
  intro w hw
  unfold cycleBody cycleWords at *
  split at hw
  · rename_i h0
    rw [if_pos h0]
    subst h0
    rcases hw with hw | hw
    · exact onward_zero_le (hlonger w hw)
    · exact ⟨0, Shape.mem_equal.1 hw⟩
  · rename_i h0
    rw [if_neg h0]
    exact hlonger w hw

theorem exists_mem_cycleWords (i : Nat) : ∃ w, w ∈ cycleWords letters i := by
  have hstop : [stop] ∈ rounds letters := ⟨0, rfl⟩
  unfold cycleWords
  split
  · exact ⟨_, hstop⟩
  · exact ⟨_, [stop], hstop, rfl⟩

theorem cycleWords_le {N : Nat → Language Token} (hne : letters ≠ [])
    (hN : ∀ i < letters.length, (cycleBody letters i).words N ≤ N i) (hi : i < letters.length) :
    cycleWords letters i ≤ N i := by
  have hpos : 0 < letters.length := List.length_pos_iff.2 hne
  have hstep : ∀ i < letters.length, ∀ v ∈ N ((i + 1) % letters.length),
      letters.getD i 0 :: v ∈ N i := by
    intro i hi v hv
    refine hN i hi ?_
    have hw : letters.getD i 0 :: v ∈ (Shape.seq (.token (.equal (letters.getD i 0)))
        (.call ((i + 1) % letters.length))).words N := Shape.mem_equal_seq.2 ⟨v, hv, rfl⟩
    unfold cycleBody
    split
    · exact .inl hw
    · exact hw
  -- from the end of the letters back to any of them
  have hback : ∀ v ∈ N 0, ∀ i ≤ letters.length, letters.drop i ++ v ∈ N (i % letters.length) := by
    intro v hv i hi
    induction hi using Nat.decreasingInduction with
    | self => simpa using hv
    | of_succ i hi ih =>
      rw [Nat.mod_eq_of_lt hi, drop_eq_cons hi]
      exact hstep i hi _ ih
  have hround : rounds letters ≤ N 0 := by
    rintro _ ⟨k, rfl⟩
    induction k with
    | zero => exact hN 0 hpos (.inr (Shape.mem_equal.2 rfl))
    | succ k ih =>
      rw [List.replicate_succ, List.flatten_cons, List.append_assoc]
      exact hback _ ih 0 (Nat.zero_le _)
  unfold cycleWords
  split
  · rename_i h0
    exact h0 ▸ hround
  · rintro _ ⟨v, hv, rfl⟩
    have hmem := hback v (hround hv) i hi.le
    rwa [Nat.mod_eq_of_lt hi] at hmem

end Solution

/-- What the loop over the letters sees in its turn number `i`. -/
private theorem turn_eq {cs : List Char} {rules : List RuleRef} {i : Nat}
    {turn : (Char × RuleRef × RuleRef) × Nat}
    (hrules : rules = (List.range cs.length).map (RuleRef.mk 0))
    (h : (cs.zip (rules.zip (rules.drop 1 ++ rules.take 1))).zipIdx[i]? = some turn) :
    ∃ hi : i < cs.length, turn = ((cs[i], ⟨0, i⟩, ⟨0, (i + 1) % cs.length⟩), i) := by
  have hlen : rules.length = cs.length := by simp [hrules]
  have hi : i < cs.length := by
    have hlt := (List.getElem?_eq_some_iff.1 h).1
    simp only [List.length_zipIdx, List.length_zip] at hlt
    omega
  have hrotate : rules.drop 1 ++ rules.take 1 = rules.rotate 1 :=
    (List.rotate_eq_drop_append_take (by omega)).symm
  have hmod : (i + 1) % cs.length < cs.length := Nat.mod_lt _ (by omega)
  refine ⟨hi, Option.some.inj (h.symm.trans ?_)⟩
  rw [hrotate, List.getElem?_zipIdx, Nat.zero_add]
  have hget : (cs.zip (rules.zip (rules.rotate 1)))[i]? =
      some (cs[i], ⟨0, i⟩, ⟨0, (i + 1) % cs.length⟩) := by
    rw [List.getElem?_zip_eq_some, List.getElem?_zip_eq_some, List.getElem?_rotate (by omega), hlen]
    simp [hrules, hi, hmod]
  rw [hget]
  rfl

private theorem drafts_indirectRecursion {text : String} (htext : text ≠ "") :
    Drafts (indirectRecursion text) (.new 0) 0
      (firstBodies (cycleBody (Token.ofString text)) text.toList.length text.toList.length)
      fun q b => b.Stands q (.call 0) := by
  have hne : text.toList ≠ [] := by simpa using htext
  have hpos : 0 < text.toList.length := List.length_pos_iff.2 hne
  have hlen : (Token.ofString text).length = text.toList.length := List.length_map _
  refine ((Builder.draft_new 0).rules (fun c => "r" ++ String.singleton c) text.toList).bind
    fun rules b₁ _ h₁ hrules => ?_
  have hrules : rules = (List.range text.toList.length).map (RuleRef.mk 0) := by
    rw [hrules, List.range_eq_range']
    rfl
  have hstart : b₁.Draft 0
      (firstBodies (cycleBody (Token.ofString text)) text.toList.length 0) := by
    rw [Builder.firstBodies_zero]
    exact h₁
  refine (Builder.drafts_forIn _ (firstBodies (cycleBody (Token.ofString text))
    text.toList.length) hstart ?_).bind fun _ b₂ _ h₂ _ => ?_
  · intro i turn b hturn hb
    obtain ⟨hi, rfl⟩ := turn_eq hrules hturn
    have hletter : (Token.ofString text).getD i 0 = Token.ofChar text.toList[i] := by
      simp [Token.ofString, hi]
    have hset : ∀ body b, Draft b 0 (firstBodies (cycleBody (Token.ofString text))
        text.toList.length i) → b.Stands body (cycleBody (Token.ofString text) i) →
        Drafts (do Builder.setBody ⟨0, i⟩ body; return ForInStep.yield PUnit.unit) b 0
          (firstBodies (cycleBody (Token.ofString text)) text.toList.length (i + 1))
          fun r _ => r = .yield ⟨⟩ :=
      fun body b h hbody => (h.setNext hi hbody).bind fun _ _ _ h' _ => .pure h' rfl
    refine (hb.equal _).bind fun t b₁ _ h₁ ht => ?_
    refine (h₁.call (k := (i + 1) % text.toList.length) ?_).bind fun after b₂ hb₂ h₂ hafter => ?_
    · rw [Builder.length_firstBodies]
      exact Nat.mod_lt _ hpos
    refine (h₂.seq (ht.mono hb₂) hafter).bind fun longer b₃ _ h₃ hlonger => ?_
    rw [cycleBody, hletter, hlen] at hset
    split
    · rename_i h0
      rw [if_pos h0] at hset
      refine (h₃.equal _).bind fun x b₄ hb₄ h₄ hx => ?_
      exact (h₄.alt (hlonger.mono hb₄) hx).bind fun body b₅ _ h₅ hbody => hset body b₅ h₅ hbody
    · rename_i h0
      rw [if_neg h0] at hset
      exact hset longer b₃ h₃ hlonger
  · have hhead : rules.head? = some ⟨0, 0⟩ := by
      rw [hrules, List.head?_eq_getElem?]
      simp [hpos]
    have hturns : (text.toList.zip (rules.zip (rules.drop 1 ++ rules.take 1))).zipIdx.length =
        text.toList.length := by
      simp only [hrules, List.length_zipIdx, List.length_zip, List.length_append, List.length_drop,
        List.length_take, List.length_map, List.length_range]
      omega
    rw [hturns] at h₂
    rw [hhead]
    exact h₂.call (by rwa [Builder.length_firstBodies])

/-- Whatever the letters are, the verdicts are those of rounds through them. -/
theorem rounds_through_letters {text : String} (htext : text ≠ "") :
    Renders (indirectRecursion text) (verdictFor (rounds (Token.ofString text))) := by
  have hlen : (Token.ofString text).length = text.toList.length := List.length_map _
  have hne : Token.ofString text ≠ [] := by simpa [Token.ofString] using htext
  have hpos : 0 < text.toList.length := hlen ▸ List.length_pos_iff.2 hne
  obtain ⟨g, hg, h⟩ : ∃ g, Samples.grammar (indirectRecursion text) = .ok g ∧
      g.Shaped ((List.range text.toList.length).map (cycleBody (Token.ofString text))) (.call 0) :=
    (Builder.firstBodies_all ▸ drafts_indirectRecursion htext).grammarOf
  have hbody : ∀ i < (Token.ofString text).length,
      (cycleBody (Token.ofString text) i).words g.words ≤ g.words i := fun i hi =>
    (h.words_eq (by simp [hlen ▸ hi])).ge
  have hle : ∀ i < text.toList.length, cycleWords (Token.ofString text) i ≤ g.words i :=
    fun i hi => cycleWords_le hne hbody (hlen ▸ hi)
  refine ⟨g, hg, h.renders ?_ (L := cycleWords (Token.ofString text)) ?_ ?_ ?_ ?_⟩
  · intro s hs
    obtain ⟨i, -, rfl⟩ := List.mem_map.1 hs
    exact plain_cycleBody _ i
  · intro k s hs
    obtain ⟨hk, rfl⟩ := List.getElem?_eq_some_iff.1 hs
    rw [List.length_map, List.length_range] at hk
    simpa using cycleBody_le (hlen ▸ hk)
  · simpa using hle
  · exact fun k _ => exists_mem_cycleWords k
  · simpa using hpos

theorem rounds_through_letters_xax : "xax" ≠ "" ∧
    Renders (indirectRecursion "xax") (verdictFor (rounds [120, 97, 120])) ∧
      verdictFor (rounds [120, 97, 120]) [120, 97, 120, 120] = .accept := by
  have htext : "xax" ≠ "" := by decide
  have hletters : Token.ofString "xax" = [120, 97, 120] := by decide
  exact ⟨htext, hletters ▸ rounds_through_letters htext, verdictFor_eq_accept ⟨1, by decide⟩⟩

end TokenGrammar.Samples
