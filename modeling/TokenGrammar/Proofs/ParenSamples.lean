import TokenGrammar.Proofs.AliasSamples

/-!
# Balanced parentheses

A rule that repeats itself in parentheses describes the balanced strings. Balance is said by counting:
no beginning of the string closes more than it opens, and in the end everything is closed. A scan that
keeps the number of open parentheses links the counts to the grammar.
-/

namespace TokenGrammar.Samples

open Builder (Client)
open Computability

def opening : Token := Token.ofChar '('

def closing : Token := Token.ofChar ')'

/-- A string of parentheses, of which each that is closed was opened before, and none is left open. -/
structure Balanced (ts : List Token) : Prop where
  paren : ∀ t ∈ ts, t = opening ∨ t = closing
  opened : ∀ u, u <+: ts → u.count closing ≤ u.count opening
  closed : ts.count closing = ts.count opening

/-- At this index stands no parenthesis, or one that closes while none is open. -/
def Stray (ts : List Token) (i : Nat) : Prop :=
  ∃ t, ts[i]? = some t ∧ (t ≠ opening ∧ t ≠ closing ∨
    t = closing ∧ (ts.take i).count opening ≤ (ts.take i).count closing)

/-- The number of open parentheses after one more token. -/
def openStep (k : Nat) (t : Token) : Option Nat :=
  if t = opening then some (k + 1)
  else if t = closing then (if k = 0 then none else some (k - 1))
  else none

/-- The number of open parentheses after a string, when `k` are open before it. -/
def openAfter (k : Nat) (ts : List Token) : Option Nat := ts.foldlM openStep k

section Scan

variable {k j i : Nat} {t : Token} {u v ts : List Token}

@[simp] theorem closing_ne_opening : closing ≠ opening := by decide

@[simp] theorem opening_ne_closing : opening ≠ closing := by decide

@[simp] theorem openStep_opening : openStep k opening = some (k + 1) := rfl

@[simp] theorem openStep_closing : openStep (k + 1) closing = some k := rfl

@[simp] theorem openAfter_nil : openAfter k [] = some k := rfl

@[simp] theorem openAfter_cons :
    openAfter k (t :: ts) = (openStep k t).bind fun j => openAfter j ts := rfl

@[simp] theorem openAfter_append :
    openAfter k (u ++ v) = (openAfter k u).bind fun j => openAfter j v := by
  simp [openAfter, List.foldlM_append]

theorem openStep_eq_none_iff :
    openStep k t = none ↔ t ≠ opening ∧ t ≠ closing ∨ t = closing ∧ k = 0 := by
  unfold openStep
  split
  · simp_all
  · split <;> simp_all

theorem openStep_eq_some_iff :
    openStep k t = some j ↔ t = opening ∧ j = k + 1 ∨ t = closing ∧ k = j + 1 := by
  unfold openStep
  split
  · simp_all [eq_comm]
  · split
    · split <;> simp_all
      omega
    · simp_all

theorem counts_of_openAfter (h : openAfter k ts = some j) :
    k + ts.count opening = j + ts.count closing := by
  induction ts generalizing k with
  | nil => simp_all
  | cons t ts ih =>
    obtain ⟨i, hi, hj⟩ := Option.bind_eq_some_iff.1 (openAfter_cons ▸ h)
    have hcount := ih hj
    rcases openStep_eq_some_iff.1 hi with ⟨rfl, rfl⟩ | ⟨rfl, rfl⟩
    · simp
      omega
    · simp
      omega

theorem paren_of_openAfter (h : openAfter k ts = some j) : ∀ t ∈ ts, t = opening ∨ t = closing := by
  induction ts generalizing k with
  | nil => simp
  | cons t ts ih =>
    obtain ⟨i, hi, hj⟩ := Option.bind_eq_some_iff.1 (openAfter_cons ▸ h)
    have ht := openStep_eq_some_iff.1 hi
    simp only [List.mem_cons, forall_eq_or_imp]
    exact ⟨ht.imp And.left And.left, ih hj⟩

theorem stray_take_iff {m : Nat} : Stray (ts.take m) i ↔ i < m ∧ Stray ts i := by
  by_cases hi : i < m
  · simp [Stray, hi, List.take_take, Nat.min_eq_left hi.le]
  · simp [Stray, hi]

theorem no_stray_append_iff : (∀ i, ¬ Stray (ts ++ [t]) i) ↔
    (∀ i, ¬ Stray ts i) ∧ ¬ Stray (ts ++ [t]) ts.length := by
  have hold : ∀ i, Stray ts i ↔ i < ts.length ∧ Stray (ts ++ [t]) i := fun i => by
    rw [← stray_take_iff, List.take_left]
  constructor
  · intro h
    exact ⟨fun i hi => h i ((hold i).1 hi).2, h ts.length⟩
  · rintro ⟨hno, hlast⟩ i hi
    obtain ⟨_, ht, -⟩ := id hi
    have hlt := (List.getElem?_eq_some_iff.1 ht).1
    rw [List.length_append, List.length_singleton] at hlt
    rcases Nat.lt_or_eq_of_le (Nat.le_of_lt_succ hlt) with hlt | rfl
    · exact hno i ((hold i).2 ⟨hlt, hi⟩)
    · exact hlast hi

/-- The scan goes through unless a token is stray. -/
theorem isSome_openAfter_iff : (openAfter 0 ts).isSome = true ↔ ∀ i, ¬ Stray ts i := by
  induction ts using List.reverseRecOn with
  | nil => simp [Stray]
  | append_singleton ts t ih =>
    have hlast : ∀ k, openAfter 0 ts = some k →
        (Stray (ts ++ [t]) ts.length ↔ openStep k t = none) := by
      intro k hk
      have hcount := counts_of_openAfter hk
      have hnone : ts.count opening ≤ ts.count closing ↔ k = 0 := by omega
      rw [openStep_eq_none_iff]
      simp [Stray, hnone]
    rw [no_stray_append_iff, ← ih]
    cases hk : openAfter 0 ts with
    | none => simp [hk]
    | some k => simp [hk, hlast k hk, Option.isSome_iff_ne_none]

theorem balanced_iff : Balanced ts ↔ openAfter 0 ts = some 0 := by
  constructor
  · intro h
    have hno : ∀ i, ¬ Stray ts i := by
      rintro i ⟨t, ht, ⟨ho, hc⟩ | ⟨rfl, hcount⟩⟩
      · exact (h.paren t (List.mem_of_getElem? ht)).elim ho hc
      · have hopened := h.opened _ (List.take_prefix (i + 1) ts)
        rw [List.take_add_one, ht] at hopened
        simp at hopened
        omega
    obtain ⟨j, hj⟩ := Option.isSome_iff_exists.1 (isSome_openAfter_iff.2 hno)
    have hcount := counts_of_openAfter hj
    have hclosed := h.closed
    obtain rfl : j = 0 := by omega
    exact hj
  · intro h
    refine ⟨paren_of_openAfter h, ?_, ?_⟩
    · rintro u ⟨v, rfl⟩
      rw [openAfter_append] at h
      obtain ⟨j, hj, -⟩ := Option.bind_eq_some_iff.1 h
      have hcount := counts_of_openAfter hj
      omega
    · have hcount := counts_of_openAfter h
      omega

theorem openAfter_replicate : openAfter k (List.replicate k closing) = some 0 := by
  induction k with
  | zero => rfl
  | succ k ih => simp [List.replicate_succ, ih]

/-- The strings with which balanced ones begin are those on which the scan goes through. -/
theorem begins_balanced_iff : (∃ w, Balanced w ∧ u <+: w) ↔ (openAfter 0 u).isSome = true := by
  constructor
  · rintro ⟨_, hw, v, rfl⟩
    rw [balanced_iff, openAfter_append] at hw
    obtain ⟨j, hj, -⟩ := Option.bind_eq_some_iff.1 hw
    simp [hj]
  · intro h
    obtain ⟨j, hj⟩ := Option.isSome_iff_exists.1 h
    refine ⟨u ++ List.replicate j closing, balanced_iff.2 ?_, List.prefix_append _ _⟩
    simp [hj, openAfter_replicate]

end Scan

section Verdict

variable {ts : List Token}

instance : DecidablePred Balanced := fun _ => decidable_of_iff _ balanced_iff.symm

instance (ts : List Token) (i : Nat) : Decidable (Stray ts i) :=
  decidable_of_iff (ts[i]?.any fun t => (t ≠ opening ∧ t ≠ closing ∨
    t = closing ∧ (ts.take i).count opening ≤ (ts.take i).count closing : Bool)) (by
      simp [Stray, Option.any_eq_true])

/-- The index of the first stray token, and the length if there is none. -/
def firstStray (ts : List Token) : Nat :=
  (List.range ts.length).findIdx fun i => decide (Stray ts i)

/-- Accepts what is balanced, and rejects everything else at the first stray token or at the end. -/
def parenVerdict (ts : List Token) : Verdict :=
  if Balanced ts then .accept else .reject (firstStray ts)

theorem firstStray_le : firstStray ts ≤ ts.length := by
  have hle : firstStray ts ≤ (List.range ts.length).length := List.findIdx_le_length
  simpa using hle

theorem not_stray_of_lt {i : Nat} (h : i < firstStray ts) : ¬ Stray ts i := by
  have hno := List.not_of_lt_findIdx h
  simpa using hno

theorem stray_firstStray (h : firstStray ts < ts.length) : Stray ts (firstStray ts) := by
  have hlt : (List.range ts.length).findIdx (fun i => decide (Stray ts i)) <
      (List.range ts.length).length := by simpa [firstStray] using h
  simpa [firstStray] using List.findIdx_getElem (w := hlt)

/-- The language of the balanced strings. -/
def balanced : Language Token := {w | Balanced w}

theorem mem_balanced : ts ∈ balanced ↔ Balanced ts := Iff.rfl

theorem verdictFor_balanced (ts : List Token) : verdictFor balanced ts = parenVerdict ts := by
  by_cases hts : Balanced ts
  · rw [verdictFor_eq_accept (mem_balanced.2 hts), parenVerdict, if_pos hts]
  · rw [parenVerdict, if_neg hts]
    apply verdictFor_eq_reject (mt mem_balanced.1 hts)
    have hbegins : ∀ m, (∃ w ∈ balanced, ts.take m <+: w) ↔ ∀ i < m, ¬ Stray ts i := by
      intro m
      simp only [mem_balanced, begins_balanced_iff, isSome_openAfter_iff, stray_take_iff, not_and]
    constructor
    · exact ⟨firstStray_le, (hbegins _).2 fun i hi => not_stray_of_lt hi⟩
    · rintro m ⟨hm, hw⟩
      by_contra hlt
      have hlt : firstStray ts < m := Nat.lt_of_not_le hlt
      exact (hbegins m).1 hw _ hlt (stray_firstStray (hlt.trans_le hm))

end Verdict

section Solution

variable {N : Nat → Language Token} {u v w : List Token}

theorem Balanced.append (hu : Balanced u) (hv : Balanced v) : Balanced (u ++ v) := by
  rw [balanced_iff] at *
  simp [hu, hv]

theorem openAfter_add {i j k : Nat} (h : openAfter k u = some j) :
    openAfter (k + i) u = some (j + i) := by
  induction u generalizing k with
  | nil => simp_all
  | cons t u ih =>
    obtain ⟨m, hm, hj⟩ := Option.bind_eq_some_iff.1 (openAfter_cons ▸ h)
    have hstep : openStep (k + i) t = some (m + i) := by
      rw [openStep_eq_some_iff] at *
      exact hm.imp (And.imp_right (by omega)) (And.imp_right (by omega))
    simp [hstep, ih hj]

theorem Balanced.enclose (hu : Balanced u) : Balanced (opening :: (u ++ [closing])) := by
  rw [balanced_iff] at *
  have h := openAfter_add (i := 1) hu
  simp at h
  simp [h]

theorem star_parens_le : (Shape.star parens).words (fun _ => balanced) ≤ balanced := by
  rw [Shape.star_words]
  apply kstar_le_of_mul_le_right
  · rintro _ rfl
    exact balanced_iff.2 rfl
  · rintro _ ⟨_, hgroup, v, hv, rfl⟩
    obtain ⟨u, hu, rfl⟩ := mem_parens.1 hgroup
    exact Balanced.append (Balanced.enclose hu) hv

/-- Strings that close one parenthesis after the other, with words of `L` between them. -/
def closings (L : Language Token) : Nat → Language Token
  | 0 => L
  | k + 1 => {w | ∃ u ∈ L, ∃ v ∈ closings L k, w = u ++ closing :: v}

variable {L : Language Token}

theorem closings_of_pair (hpair : ∀ u ∈ L, ∀ v ∈ L, opening :: (u ++ closing :: v) ∈ L) {k : Nat}
    (hu : u ∈ L) (hv : v ∈ closings L k) : opening :: (u ++ closing :: v) ∈ closings L k := by
  cases k with
  | zero => exact hpair u hu v hv
  | succ k =>
    obtain ⟨x, hx, y, hy, rfl⟩ := hv
    exact ⟨_, hpair u hu x hx, y, hy, by simp⟩

/-- The scan is followed from its end: what is read while `k` are open closes them all. -/
theorem closings_of_openAfter (hnil : [] ∈ L)
    (hpair : ∀ u ∈ L, ∀ v ∈ L, opening :: (u ++ closing :: v) ∈ L) {k : Nat}
    (h : openAfter k w = some 0) : w ∈ closings L k := by
  induction w generalizing k with
  | nil =>
    obtain rfl : k = 0 := by simpa using h
    exact hnil
  | cons t w ih =>
    obtain ⟨j, hj, hw⟩ := Option.bind_eq_some_iff.1 (openAfter_cons ▸ h)
    rcases openStep_eq_some_iff.1 hj with ⟨rfl, rfl⟩ | ⟨rfl, rfl⟩
    · -- what closes `k + 1` begins with what closes the one just opened
      obtain ⟨u, hu, v, hv, rfl⟩ := ih hw
      exact closings_of_pair hpair hu hv
    · exact ⟨[], hnil, w, ih hw, rfl⟩

/-- The balanced strings are the least solution of the rule. -/
theorem balanced_le (hN : N 0 = (Shape.star parens).words N) : balanced ≤ N 0 := by
  rw [Shape.star_words] at hN
  have hnil : [] ∈ N 0 := hN ▸ Language.nil_mem_kstar _
  have hpair : ∀ u ∈ N 0, ∀ v ∈ N 0, opening :: (u ++ closing :: v) ∈ N 0 := by
    intro u hu v hv
    have hgroup : opening :: (u ++ [closing]) ∈ parens.words N := mem_parens.2 ⟨u, hu, rfl⟩
    have hle : parens.words N * (parens.words N)∗ ≤ (parens.words N)∗ := mul_kstar_le_kstar
    have hsplit : opening :: (u ++ closing :: v) = opening :: (u ++ [closing]) ++ v := by simp
    rw [hN] at hv ⊢
    rw [hsplit]
    exact hle (Language.append_mem_mul hgroup hv)
  intro w hw
  exact closings_of_openAfter hnil hpair (k := 0) (balanced_iff.1 hw)

end Solution

/-- The verdicts on strings of parentheses are those of counting: the balanced strings are accepted,
and every other string is rejected at its first stray token, or at the end if it has none. -/
theorem parentheses_balanced : Renders balancedParens parenVerdict := by
  have hclient : Client balancedParens :=
    .bind (.define "parens" fun r => .bind (.bind (.token _) fun opening => .bind (.call r) fun inner =>
      .bind (.token _) fun closing => .join [opening, inner, closing]) fun group => .star group)
      fun r => .call r
  obtain ⟨g, hg, h⟩ : ∃ g, Samples.grammar balancedParens = .ok g ∧
      g.Shaped [.star parens] (.call 0) := hclient.shaped (by decide +kernel)
  rw [← funext verdictFor_balanced]
  refine ⟨g, hg, h.renders (by decide) (L := fun _ => balanced) ?_ ?_ ?_ Nat.one_pos⟩
  · intro k s hs
    cases k with
    | zero =>
      obtain rfl := Option.some.inj hs
      exact star_parens_le
    | succ k => cases hs
  · intro k hk
    obtain rfl := Nat.lt_one_iff.1 hk
    exact balanced_le (h.words_eq rfl)
  · exact fun _ _ => ⟨[], balanced_iff.2 rfl⟩

example : parenVerdict (Token.ofString "())(") = .reject 2 := by decide

end TokenGrammar.Samples
