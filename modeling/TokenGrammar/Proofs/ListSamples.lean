import TokenGrammar.Proofs.Drafts
import TokenGrammar.Proofs.LanguageVerdicts

/-!
# Lists by different recursions

Lists of one letter are described with a recursion at the end, on both sides, through an alias, and
so that every part may be missing. The least solutions of the equations are the same lists, so the
verdicts are the same, and they only depend on the first token that is not the letter.
-/

namespace TokenGrammar.Samples

open Builder (Client)

variable {L : Language Token} {c : Token} {ts w : List Token}

def oneOrMore (c : Token) : Language Token := {w | ∃ n, w = List.replicate (n + 1) c}

def anyNumber (c : Token) : Language Token := {w | ∃ n, w = List.replicate n c}

/-- The verdict on a list of the letter `a`: another token is rejected, and so is the empty list. -/
def listVerdict (ts : List Token) : Verdict :=
  if ts ≠ [] ∧ ∀ t ∈ ts, t = Token.ofChar 'a' then .accept
  else .reject (ts.findIdx (· != Token.ofChar 'a'))

/-- Where words begin with any number of a token, an input is read up to the first other token. -/
private theorem verdictFor_of_beginnings (hL : ∀ u, (∃ w ∈ L, u <+: w) ↔ ∀ t ∈ u, t = c)
    (hts : ts ∉ L) : verdictFor L ts = .reject (ts.findIdx (· != c)) := by
  refine verdictFor_eq_reject hts ⟨⟨List.findIdx_le_length, (hL _).2 fun t ht => ?_⟩, ?_⟩
  · obtain ⟨i, hi, rfl⟩ := List.mem_iff_getElem.1 ht
    rw [List.length_take, Nat.lt_min] at hi
    have hno := List.not_of_lt_findIdx hi.1
    simpa using hno
  · rintro m ⟨hm, hw⟩
    by_contra hlt
    have hlt : ts.findIdx (· != c) < m := Nat.lt_of_not_le hlt
    have hi : ts.findIdx (· != c) < ts.length := hlt.trans_le hm
    have hother := List.findIdx_getElem (p := (· != c)) (w := hi)
    have hmem : ts[ts.findIdx (· != c)] ∈ ts.take m :=
      List.mem_take_iff_getElem.2 ⟨_, Nat.lt_min.2 ⟨hlt, hi⟩, rfl⟩
    simp [(hL _).1 hw _ hmem] at hother

theorem prefix_oneOrMore (u : List Token) : (∃ w ∈ oneOrMore c, u <+: w) ↔ ∀ t ∈ u, t = c := by
  constructor
  · rintro ⟨_, ⟨n, rfl⟩, hu⟩ t ht
    exact List.eq_of_mem_replicate (hu.subset ht)
  · intro h
    rw [List.eq_replicate_of_mem h]
    exact ⟨_, ⟨u.length, rfl⟩, by rw [List.replicate_succ']; exact List.prefix_append _ _⟩

theorem prefix_anyNumber (u : List Token) : (∃ w ∈ anyNumber c, u <+: w) ↔ ∀ t ∈ u, t = c := by
  constructor
  · rintro ⟨_, ⟨n, rfl⟩, hu⟩ t ht
    exact List.eq_of_mem_replicate (hu.subset ht)
  · intro h
    exact ⟨u, ⟨u.length, List.eq_replicate_of_mem h⟩, List.prefix_refl u⟩

theorem mem_oneOrMore : ts ∈ oneOrMore c ↔ ts ≠ [] ∧ ∀ t ∈ ts, t = c := by
  constructor
  · rintro ⟨n, rfl⟩
    exact ⟨List.replicate_succ_ne_nil, fun t ht => List.eq_of_mem_replicate ht⟩
  · rintro ⟨hne, h⟩
    obtain ⟨n, hn⟩ := Nat.exists_eq_add_one_of_ne_zero (mt List.length_eq_zero_iff.1 hne)
    exact ⟨n, hn ▸ List.eq_replicate_of_mem h⟩

theorem mem_anyNumber : ts ∈ anyNumber c ↔ ∀ t ∈ ts, t = c := by
  constructor
  · rintro ⟨n, rfl⟩
    exact fun t ht => List.eq_of_mem_replicate ht
  · exact fun h => ⟨ts.length, List.eq_replicate_of_mem h⟩

private theorem verdictFor_oneOrMore : verdictFor (oneOrMore c) ts =
    if ts ≠ [] ∧ ∀ t ∈ ts, t = c then .accept else .reject (ts.findIdx (· != c)) := by
  by_cases hts : ts ∈ oneOrMore c
  · rw [verdictFor_eq_accept hts, if_pos (mem_oneOrMore.1 hts)]
  · rw [verdictFor_of_beginnings prefix_oneOrMore hts, if_neg (mt mem_oneOrMore.2 hts)]

private theorem verdictFor_list (ts : List Token) :
    verdictFor (oneOrMore (Token.ofChar 'a')) ts = listVerdict ts := verdictFor_oneOrMore

private theorem verdictFor_nullable (ts : List Token) :
    verdictFor (anyNumber (Token.ofChar 'a')) ts = if ts = [] then .accept else listVerdict ts := by
  by_cases hts : ts ∈ anyNumber (Token.ofChar 'a')
  · rw [verdictFor_eq_accept hts]
    split
    · rfl
    · rename_i hne
      exact (if_pos ⟨hne, mem_anyNumber.1 hts⟩).symm
  · have hno := mt mem_anyNumber.2 hts
    have hne : ts ≠ [] := by
      rintro rfl
      simp at hno
    rw [verdictFor_of_beginnings prefix_anyNumber hts, if_neg hne]
    exact (if_neg fun h => hno h.2).symm

/-- To exchange two letters is to exchange them in what is read. -/
private theorem verdictFor_exchanged (ts : List Token) :
    verdictFor (oneOrMore (Token.ofChar 't')) ts =
      listVerdict (ts.map (Equiv.swap (Token.ofChar 't') (Token.ofChar 'a'))) := by
  have hiff : ∀ t, Equiv.swap (Token.ofChar 't') (Token.ofChar 'a') t = Token.ofChar 'a' ↔
      t = Token.ofChar 't' := fun t => by rw [← Equiv.eq_symm_apply]; simp
  have hbne : ((· != Token.ofChar 'a') ∘ Equiv.swap (Token.ofChar 't') (Token.ofChar 'a')) =
      (· != Token.ofChar 't') := by
    funext t
    rw [Function.comp_apply, Bool.eq_iff_iff, bne_iff_ne, bne_iff_ne]
    exact not_congr (hiff t)
  rw [verdictFor_oneOrMore, listVerdict, List.findIdx_map, hbne]
  simp [hiff]

section Solutions

variable {g : Grammar} {N : Nat → Language Token} {k : Nat}

private theorem append_mem (hu : w ∈ oneOrMore c) (hv : ts ∈ anyNumber c) :
    w ++ ts ∈ oneOrMore c := by
  obtain ⟨m, rfl⟩ := hu
  obtain ⟨n, rfl⟩ := hv
  exact ⟨m + n, by rw [List.replicate_append_replicate, Nat.add_right_comm]⟩

private theorem oneOrMore_le : oneOrMore c ≤ anyNumber c := fun _ ⟨n, hn⟩ => ⟨n + 1, hn⟩

private def rightBody (c : Token) (list : Nat) : Shape :=
  .seq (.token (.equal c)) (.maybe (.call list))

private def doubledBody (c : Token) : Shape :=
  .alt (.seq (.call 0) (.call 0)) (.token (.equal c))

private def nullableBody (c : Token) : Shape :=
  .seq (.maybe (.token (.equal c))) (.maybe (.call 0))

private theorem rightBody_le : (rightBody c k).words (fun _ => oneOrMore c) ≤ oneOrMore c := by
  intro w hw
  obtain ⟨v, hv, rfl⟩ := Shape.mem_equal_seq.1 hw
  have hv : v ∈ anyNumber c := hv.elim (fun hv => oneOrMore_le hv) fun hv => ⟨0, hv⟩
  exact append_mem (w := [c]) ⟨0, rfl⟩ hv

private theorem le_of_rightBody (hN : (rightBody c k).words N ≤ N k) : oneOrMore c ≤ N k := by
  rintro _ ⟨n, rfl⟩
  induction n with
  | zero => exact hN (Shape.mem_equal_seq.2 ⟨[], .inr rfl, rfl⟩)
  | succ n ih => exact hN (Shape.mem_equal_seq.2 ⟨_, .inl ih, rfl⟩)

private theorem doubledBody_le : (doubledBody c).words (fun _ => oneOrMore c) ≤ oneOrMore c := by
  rintro w (hw | hw)
  · obtain ⟨u, hu, v, hv, rfl⟩ := Shape.mem_seq.1 hw
    exact append_mem hu (oneOrMore_le hv)
  · exact ⟨0, Shape.mem_equal.1 hw⟩

private theorem le_of_doubledBody (hN : (doubledBody c).words N ≤ N 0) : oneOrMore c ≤ N 0 := by
  have hone : [c] ∈ N 0 := hN (.inr (Shape.mem_equal.2 rfl))
  rintro _ ⟨n, rfl⟩
  induction n with
  | zero => exact hone
  | succ n ih => exact hN (.inl (Shape.mem_seq.2 ⟨[c], hone, _, ih, rfl⟩))

private theorem nullableBody_le : (nullableBody c).words (fun _ => anyNumber c) ≤ anyNumber c := by
  intro w hw
  obtain ⟨u, hu, v, hv, rfl⟩ := Shape.mem_seq.1 hw
  have hv : v ∈ anyNumber c := hv.elim id fun hv => ⟨0, hv⟩
  rcases hu with hu | rfl
  · rw [Shape.mem_equal.1 hu]
    exact oneOrMore_le (append_mem (w := [c]) ⟨0, rfl⟩ hv)
  · exact hv

private theorem le_of_nullableBody (hN : (nullableBody c).words N ≤ N 0) : anyNumber c ≤ N 0 := by
  rintro _ ⟨n, rfl⟩
  induction n with
  | zero => exact hN (Shape.mem_seq.2 ⟨[], .inr rfl, [], .inr rfl, rfl⟩)
  | succ n ih =>
    exact hN (Shape.mem_seq.2 ⟨[c], .inl (Shape.mem_equal.2 rfl), _, .inl ih, rfl⟩)

private theorem renders_of_solution {s : Shape} (h : g.Shaped [s] (.call 0))
    (hp : s.plain = true) (hclosed : s.words (fun _ => L) ≤ L)
    (hleast : ∀ N : Nat → Language Token, s.words N ≤ N 0 → L ≤ N 0) (hw : w ∈ L) :
    g.Renders (verdictFor L) := by
  have hwords : g.words 0 = s.words g.words := h.words_eq rfl
  refine h.renders (by simpa using hp) (L := fun _ => L) (fun k t ht => ?_) (fun k hk => ?_)
    (fun _ _ => ⟨w, hw⟩) Nat.one_pos
  · cases k with
    | zero =>
      obtain rfl := Option.some.inj ht
      exact hclosed
    | succ k => cases ht
  · obtain rfl := Nat.lt_one_iff.1 hk
    exact hleast g.words hwords.ge

private theorem singleton_mem : [c] ∈ oneOrMore c := ⟨0, rfl⟩

end Solutions

theorem renders_rightList : Renders rightList listVerdict := by
  have hclient : Client rightList :=
    .bind (.define "list" fun list => .bind (.token _) fun a => .bind (.call list) fun again =>
      .bind (.maybe again) fun tail => .seq a tail) fun list => .call list
  obtain ⟨g, hg, h⟩ : ∃ g, Samples.grammar rightList = .ok g ∧
      g.Shaped [rightBody (Token.ofChar 'a') 0] (.call 0) := hclient.shaped (by decide +kernel)
  rw [← funext verdictFor_list]
  exact ⟨g, hg, renders_of_solution h rfl rightBody_le (fun _ => le_of_rightBody) singleton_mem⟩

private theorem client_doubled (name : String) : Client (do
    let r ← Builder.define name fun r => do
      let left ← Builder.call r
      let right ← Builder.call r
      let both ← Builder.seq left right
      Builder.alt both (← Builder.equal (Token.ofChar 'a'))
    Builder.call r) :=
  .bind (.define name fun r => .bind (.call r) fun left => .bind (.call r) fun right =>
    .bind (.seq left right) fun both => .bind (.token _) fun a => .alt both a) fun r => .call r

private theorem renders_doubled {sample : BuildM NodeRef} (h : Client sample)
    (houtline : (Samples.grammar sample).map Grammar.outline =
      .ok (.ok (), [doubledBody (Token.ofChar 'a')], .call 0)) : Renders sample listVerdict := by
  obtain ⟨g, hg, h⟩ := h.shaped houtline
  rw [← funext verdictFor_list]
  exact ⟨g, hg, renders_of_solution h rfl doubledBody_le (fun _ => le_of_doubledBody) singleton_mem⟩

theorem renders_ambiguousList : Renders ambiguousList listVerdict :=
  renders_doubled (client_doubled "list") (by decide +kernel)

theorem renders_superAmbiguous : Renders superAmbiguous listVerdict :=
  renders_doubled (client_doubled "s") (by decide +kernel)

theorem renders_nullableList :
    Renders nullableList fun ts => if ts = [] then .accept else listVerdict ts := by
  have hclient : Client nullableList :=
    .bind (.define "list" fun list => .bind (.token _) fun a => .bind (.maybe a) fun first =>
      .bind (.call list) fun again => .bind (.maybe again) fun tail => .seq first tail)
      fun list => .call list
  obtain ⟨g, hg, h⟩ : ∃ g, Samples.grammar nullableList = .ok g ∧
      g.Shaped [nullableBody (Token.ofChar 'a')] (.call 0) := hclient.shaped (by decide +kernel)
  rw [← funext verdictFor_nullable]
  exact ⟨g, hg, renders_of_solution h rfl nullableBody_le (fun _ => le_of_nullableBody) ⟨0, rfl⟩⟩

theorem renders_indirectList : Renders indirectList fun ts =>
    listVerdict (ts.map (Equiv.swap (Token.ofChar 't') (Token.ofChar 'a'))) := by
  have hclient : Client indirectList :=
    .bind (.rule "a") fun a => .bind (.rule "b") fun b => .bind (.call b) fun hop =>
      .bind (.setBody a hop) fun _ => .bind (.token _) fun t => .bind (.call a) fun again =>
        .bind (.maybe again) fun tail => .bind (.seq t tail) fun body =>
          .bind (.setBody b body) fun _ => .call a
  obtain ⟨g, hg, h⟩ : ∃ g, Samples.grammar indirectList = .ok g ∧
      g.Shaped [.call 1, rightBody (Token.ofChar 't') 0] (.call 0) :=
    hclient.shaped (by decide +kernel)
  have halias : g.words 0 = g.words 1 := h.words_eq (s := .call 1) rfl
  have hbody : g.words 1 = (rightBody (Token.ofChar 't') 0).words g.words := h.words_eq rfl
  have hle : oneOrMore (Token.ofChar 't') ≤ g.words 0 :=
    le_of_rightBody (hbody.symm.trans halias.symm).le
  rw [← funext verdictFor_exchanged]
  refine ⟨g, hg, h.renders (by decide) (L := fun _ => oneOrMore (Token.ofChar 't')) ?_ ?_
    (fun _ _ => ⟨_, singleton_mem⟩) Nat.two_pos⟩
  · intro k s hs
    rcases k with - | - | k
    · obtain rfl := Option.some.inj hs
      exact le_refl _
    · obtain rfl := Option.some.inj hs
      exact rightBody_le
    · cases hs
  · intro k hk
    rcases k with - | - | k
    · exact hle
    · exact halias ▸ hle
    · exact absurd hk (by simp)

/-- All these recursions describe the same lists. -/
theorem lists_alike : Renders rightList listVerdict ∧ Renders ambiguousList listVerdict ∧
    Renders superAmbiguous listVerdict ∧
    Renders nullableList (fun ts => if ts = [] then .accept else listVerdict ts) ∧
    Renders indirectList fun ts =>
      listVerdict (ts.map (Equiv.swap (Token.ofChar 't') (Token.ofChar 'a'))) :=
  ⟨renders_rightList, renders_ambiguousList, renders_superAmbiguous, renders_nullableList,
    renders_indirectList⟩

end TokenGrammar.Samples
