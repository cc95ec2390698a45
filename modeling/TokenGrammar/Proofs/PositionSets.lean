import TokenGrammar.Proofs.Nullability

/-!
# First, last and neighbouring positions, computed

The sets that the analysis finds are given by recursion on the expression from the calls that derive
the empty string. What is kept for a node agrees with this, so it does not matter what has been asked
before.
-/

namespace TokenGrammar

namespace Expr

variable (calls : Nat → Bool)

/-- The positions that may come first, given which calls derive the empty string. -/
def firstSet : Expr → PosSet
  | token r _ | call r _ _ | endMark r | conj r _ _ => .single r.index
  | eps _ => .empty
  | alt r a b =>
    if (alt r a b).isTerminal then .single r.index else a.firstSet.union b.firstSet
  | seq _ a b => if a.nullable calls then a.firstSet.union b.firstSet else a.firstSet
  | plus _ c => c.firstSet

/-- The positions that may come last, given which calls derive the empty string. -/
def lastSet : Expr → PosSet
  | token r _ | call r _ _ | endMark r | conj r _ _ => .single r.index
  | eps _ => .empty
  | alt r a b => if (alt r a b).isTerminal then .single r.index else a.lastSet.union b.lastSet
  | seq _ a b => if b.nullable calls then b.lastSet.union a.lastSet else b.lastSet
  | plus _ c => c.lastSet

/-- Where one part of an expression follows another. -/
def jointList : Expr → List Joint
  | token _ _ | call _ _ _ | endMark _ | eps _ | conj _ _ _ => []
  | alt r a b => if (alt r a b).isTerminal then [] else b.jointList ++ a.jointList
  | seq _ a b => ⟨a.lastSet calls, b.firstSet calls⟩ :: (b.jointList ++ a.jointList)
  | plus _ c => ⟨c.lastSet calls, c.firstSet calls⟩ :: c.jointList

/-- One position may directly follow another. -/
def Follows (e : Expr) (p q : Nat) : Prop := ∃ j ∈ e.jointList calls, p ∈ j.lasts ∧ q ∈ j.firsts

variable {calls} {e : Expr} {p : Nat}

theorem firstSet_of_terminal (h : e.isTerminal = true) :
    e.firstSet calls = .single e.ref.index := by
  cases e with
  | token | conj => rfl
  | alt r a b => rw [firstSet, if_pos h]; rfl
  | eps | seq | plus | call | endMark => cases h

theorem lastSet_of_terminal (h : e.isTerminal = true) :
    e.lastSet calls = .single e.ref.index := by
  cases e with
  | token | conj => rfl
  | alt r a b => rw [lastSet, if_pos h]; rfl
  | eps | seq | plus | call | endMark => cases h

theorem jointList_of_terminal (h : e.isTerminal = true) : e.jointList calls = [] := by
  cases e with
  | token | conj => rfl
  | alt r a b => rw [jointList, if_pos h]
  | eps | seq | plus | call | endMark => cases h

private theorem mem_indices_of_single (h : p ∈ AscSet.single e.ref.index) : p ∈ e.indices :=
  AscSet.mem_single.1 h ▸ List.mem_map_of_mem e.self_mem_parts

private theorem mem_indices_of_either {a b : Expr} (hops : e.operands = [a, b])
    (h : p ∈ a.indices ∨ p ∈ b.indices) : p ∈ e.indices :=
  h.elim (mem_indices_of_operand (by simp [hops])) (mem_indices_of_operand (by simp [hops]))

theorem mem_indices_of_first (h : p ∈ e.firstSet calls) : p ∈ e.indices := by
  induction e with
  | token | call | endMark | conj => exact mem_indices_of_single h
  | eps => exact absurd h (AscSet.not_mem_empty p)
  | alt r a b iha ihb =>
    rw [firstSet] at h
    split at h
    · exact mem_indices_of_single h
    · exact mem_indices_of_either rfl ((AscSet.mem_union.1 h).imp iha ihb)
  | seq r a b iha ihb =>
    rw [firstSet] at h
    split at h
    · exact mem_indices_of_either rfl ((AscSet.mem_union.1 h).imp iha ihb)
    · exact mem_indices_of_either rfl (.inl (iha h))
  | plus r c ih => exact List.mem_cons_of_mem _ (ih h)

theorem mem_indices_of_last (h : p ∈ e.lastSet calls) : p ∈ e.indices := by
  induction e with
  | token | call | endMark | conj => exact mem_indices_of_single h
  | eps => exact absurd h (AscSet.not_mem_empty p)
  | alt r a b iha ihb =>
    rw [lastSet] at h
    split at h
    · exact mem_indices_of_single h
    · exact mem_indices_of_either rfl ((AscSet.mem_union.1 h).imp iha ihb)
  | seq r a b iha ihb =>
    rw [lastSet] at h
    split at h
    · exact mem_indices_of_either rfl ((AscSet.mem_union.1 h).symm.imp iha ihb)
    · exact mem_indices_of_either rfl (.inr (ihb h))
  | plus r c ih => exact List.mem_cons_of_mem _ (ih h)

theorem mem_indices_of_joint {j : Joint} (hj : j ∈ e.jointList calls) (h : p ∈ j.lasts) :
    p ∈ e.indices := by
  induction e with
  | token | call | endMark | conj | eps => cases hj
  | alt r a b iha ihb =>
    rw [jointList] at hj
    split at hj
    · cases hj
    · exact mem_indices_of_either rfl ((List.mem_append.1 hj).symm.imp iha ihb)
  | seq r a b iha ihb =>
    rcases List.mem_cons.1 hj with rfl | hj
    · exact mem_indices_of_either rfl (.inl (mem_indices_of_last h))
    · exact mem_indices_of_either rfl ((List.mem_append.1 hj).symm.imp iha ihb)
  | plus r c ih =>
    refine List.mem_cons_of_mem _ ?_
    rcases List.mem_cons.1 hj with rfl | hj
    · exact mem_indices_of_last h
    · exact ih hj

end Expr

namespace Grammar

variable {g : Grammar} {hg : g.Valid}

/-- What is kept for nodes is what a function says about them. -/
def Keeps (g : Grammar) {α : Type} (kept : NatMap α) (value : Expr → α) : Prop :=
  ∀ (i : Nat) (a : α) (e : Expr), kept[i]? = some a → g.nodes[i]? = some e → a = value e

theorem Keeps.insert {α : Type} {kept : NatMap α} {value : Expr → α} (hk : g.Keeps kept value)
    {i : Nat} {e : Expr} (h : g.nodes[i]? = some e) : g.Keeps (kept.insert i (value e)) value := by
  intro k a x ha hx
  simp only [Std.ExtTreeMap.getElem?_insert, Std.LawfulEqCmp.compare_eq_iff_eq] at ha
  split at ha
  · rename_i hi
    rw [← hi, h] at hx
    rw [← Option.some.inj hx, Option.some.inj ha]
  · exact hk k a x ha hx

theorem keeps_empty {α : Type} {value : Expr → α} : g.Keeps ∅ value := by
  intro i a e ha
  simp at ha

structure Remembers (hg : g.Valid) (m : PositionMemo) : Prop where
  nullables : hg.nullables.Idle m.nullables
  nullable : g.Keeps m.nullable (·.nullable g.emptyAt)
  firsts : g.Keeps m.firsts (·.firstSet g.emptyAt)
  lasts : g.Keeps m.lasts (·.lastSet g.emptyAt)

theorem remembers_new : Remembers hg .new where
  nullables := System.Solution.idle_new
  nullable := keeps_empty
  firsts := keeps_empty
  lasts := keeps_empty

/-- An action that answers with a value, whatever has been kept before. -/
abbrev Finds (hg : g.Valid) {α : Type} (act : PositionM α) (a : α) : Prop :=
  Yields (Remembers hg) act a

/-- An invariant under which what is kept is right. It is about the table of the calls only, and
asking whether a call derives the empty string does not break it. -/
structure Admits (hg : g.Valid) (Inv : PositionMemo → Prop) : Prop where
  remembers : ∀ m, Inv m → Remembers hg m
  keep : ∀ m m', Inv m → Remembers hg m' → m'.nullables = m.nullables → Inv m'
  call : ∀ k ∈ g.callKeys, Yields Inv (g.callNullable k) (g.emptyAt k)

theorem WellFormed.unlessTerminal (hg : g.WellFormed) {Inv : PositionMemo → Prop} {α : Type}
    {e : Expr} (h : g.Stores e) {a v : α} {rest : PositionM α} (ha : e.isTerminal = true → v = a)
    (hr : e.isTerminal = false → Yields Inv rest v) :
    Yields Inv (do if ← g.isTerminal e then return a else rest) v := by
  refine (Yields.lift (hg.isTerminal_ok h)).bind ?_
  cases ht : e.isTerminal with
  | true =>
    rw [ha ht]
    exact .pure _
  | false => exact hr ht

namespace Admits

variable {Inv : PositionMemo → Prop} (hI : Admits hg Inv)
include hI

theorem remember {α : Type} {kept : PositionMemo → NatMap α}
    {keep : PositionMemo → NatMap α → PositionMemo} {f : Expr → α} {ref : NodeRef} {e : Expr}
    {find : PositionM α} (hs : g.nodes[ref.index]? = some e) (h : Yields Inv find (f e))
    (hk : ∀ m, Remembers hg m → g.Keeps (kept m) f)
    (hi : ∀ m c, Remembers hg m → g.Keeps c f → Remembers hg (keep m c))
    (hn : ∀ m c, (keep m c).nullables = m.nullables) :
    Yields Inv (PositionMemo.remember kept keep ref find) (f e) := by
  intro m hm
  rw [PositionMemo.remember, run_bind (show (get : PositionM _) m = .ok (m, m) from rfl)]
  cases ha : (kept m)[ref.index]? with
  | some a =>
    refine ⟨m, ?_, hm⟩
    rw [← hk m (hI.remembers m hm) ref.index a e ha hs]
    rfl
  | none =>
    obtain ⟨m', hf, hm'⟩ := h m hm
    have hr := hI.remembers m' hm'
    exact ⟨_, run_bind hf, hI.keep m' _ hm' (hi m' _ hr ((hk m' hr).insert hs)) (hn _ _)⟩

theorem rememberNullable {ref : NodeRef} {e : Expr} {find : PositionM Bool}
    (hs : g.nodes[ref.index]? = some e) (h : Yields Inv find (e.nullable g.emptyAt)) :
    Yields Inv (PositionMemo.rememberNullable ref find) (e.nullable g.emptyAt) :=
  hI.remember (f := (·.nullable g.emptyAt)) hs h (fun _ hm => hm.nullable)
    (fun _ _ hm hc => ⟨hm.nullables, hc, hm.firsts, hm.lasts⟩) fun _ _ => rfl

theorem rememberFirsts {ref : NodeRef} {e : Expr} {find : PositionM PosSet}
    (hs : g.nodes[ref.index]? = some e) (h : Yields Inv find (e.firstSet g.emptyAt)) :
    Yields Inv (PositionMemo.rememberFirsts ref find) (e.firstSet g.emptyAt) :=
  hI.remember (f := (·.firstSet g.emptyAt)) hs h (fun _ hm => hm.firsts)
    (fun _ _ hm hc => ⟨hm.nullables, hm.nullable, hc, hm.lasts⟩) fun _ _ => rfl

theorem rememberLasts {ref : NodeRef} {e : Expr} {find : PositionM PosSet}
    (hs : g.nodes[ref.index]? = some e) (h : Yields Inv find (e.lastSet g.emptyAt)) :
    Yields Inv (PositionMemo.rememberLasts ref find) (e.lastSet g.emptyAt) :=
  hI.remember (f := (·.lastSet g.emptyAt)) hs h (fun _ hm => hm.lasts)
    (fun _ _ hm hc => ⟨hm.nullables, hm.nullable, hm.firsts, hc⟩) fun _ _ => rfl

theorem nullable {e : Expr} (h : g.Stores e) : Yields Inv (g.nullable e) (e.nullable g.emptyAt) := by
  have hterm : ∀ {x : Expr}, x.isTerminal = true → x.nullable g.emptyAt = false :=
    fun hx => Expr.nullable_of_terminal hx _
  induction e with
  | token => exact hg.unlessTerminal h hterm fun hf => by cases hf
  | eps | endMark => exact hg.unlessTerminal h hterm fun _ => .pure _
  | alt r a b iha ihb =>
    obtain ⟨ha, hb⟩ := hg.stores_alt h
    refine hg.unlessTerminal h hterm fun _ => hI.rememberNullable h ?_
    exact (iha ha).bind ((ihb hb).bind (.pure _))
  | seq r a b iha ihb =>
    obtain ⟨ha, hb⟩ := hg.stores_seq h
    refine hg.unlessTerminal h hterm fun _ => hI.rememberNullable h ?_
    exact (iha ha).bind ((ihb hb).bind (.pure _))
  | plus r c ih =>
    exact hg.unlessTerminal h hterm fun _ => hI.rememberNullable h (ih (hg.stores_plus h))
  | call r k s =>
    refine hg.unlessTerminal h hterm fun _ => hI.call r.index ?_
    exact hg.calls_mem h r.index (List.mem_singleton.2 rfl)
  | conj r a b =>
    exact hg.unlessTerminal h hterm fun hf =>
      absurd (hg.terminal_of_conj h) (Bool.eq_false_iff.1 hf)

theorem firsts {e : Expr} (h : g.Stores e) : Yields Inv (g.firsts e) (e.firstSet g.emptyAt) := by
  have hterm : ∀ {x : Expr}, x.isTerminal = true → x.firstSet g.emptyAt = .single x.ref.index :=
    Expr.firstSet_of_terminal
  induction e with
  | token => exact hg.unlessTerminal h hterm fun hf => by cases hf
  | eps | endMark | call => exact hg.unlessTerminal h hterm fun _ => .pure _
  | alt r a b iha ihb =>
    obtain ⟨ha, hb⟩ := hg.stores_alt h
    refine hg.unlessTerminal h hterm fun hf => hI.rememberFirsts h ?_
    rw [Expr.firstSet, if_neg (Bool.eq_false_iff.1 hf)]
    exact (iha ha).bind ((ihb hb).bind (.pure _))
  | seq r a b iha ihb =>
    obtain ⟨ha, hb⟩ := hg.stores_seq h
    refine hg.unlessTerminal h hterm fun _ => hI.rememberFirsts h ?_
    refine (iha ha).bind ((hI.nullable ha).bind ?_)
    rw [Expr.firstSet]
    split
    · exact (ihb hb).bind (.pure _)
    · exact .pure _
  | plus r c ih =>
    exact hg.unlessTerminal h hterm fun _ => hI.rememberFirsts h (ih (hg.stores_plus h))
  | conj r a b =>
    exact hg.unlessTerminal h hterm fun hf =>
      absurd (hg.terminal_of_conj h) (Bool.eq_false_iff.1 hf)

theorem lasts {e : Expr} (h : g.Stores e) : Yields Inv (g.lasts e) (e.lastSet g.emptyAt) := by
  have hterm : ∀ {x : Expr}, x.isTerminal = true → x.lastSet g.emptyAt = .single x.ref.index :=
    Expr.lastSet_of_terminal
  induction e with
  | token => exact hg.unlessTerminal h hterm fun hf => by cases hf
  | eps | endMark | call => exact hg.unlessTerminal h hterm fun _ => .pure _
  | alt r a b iha ihb =>
    obtain ⟨ha, hb⟩ := hg.stores_alt h
    refine hg.unlessTerminal h hterm fun hf => hI.rememberLasts h ?_
    rw [Expr.lastSet, if_neg (Bool.eq_false_iff.1 hf)]
    exact (iha ha).bind ((ihb hb).bind (.pure _))
  | seq r a b iha ihb =>
    obtain ⟨ha, hb⟩ := hg.stores_seq h
    refine hg.unlessTerminal h hterm fun _ => hI.rememberLasts h ?_
    refine (ihb hb).bind ((hI.nullable hb).bind ?_)
    rw [Expr.lastSet]
    split
    · exact (iha ha).bind (.pure _)
    · exact .pure _
  | plus r c ih =>
    exact hg.unlessTerminal h hterm fun _ => hI.rememberLasts h (ih (hg.stores_plus h))
  | conj r a b =>
    exact hg.unlessTerminal h hterm fun hf =>
      absurd (hg.terminal_of_conj h) (Bool.eq_false_iff.1 hf)

theorem joint {a b : Expr} (ha : g.Stores a) (hb : g.Stores b) :
    Yields Inv (g.joint a b) ⟨a.lastSet g.emptyAt, b.firstSet g.emptyAt⟩ :=
  (hI.lasts ha).bind ((hI.firsts hb).bind (.pure _))

theorem addJoints {e : Expr} (h : g.Stores e) (found : List Joint) :
    Yields Inv (g.addJoints found e) (e.jointList g.emptyAt ++ found) := by
  have hterm : ∀ {x : Expr} {found : List Joint}, x.isTerminal = true →
      x.jointList g.emptyAt ++ found = found := fun hx => by
    rw [Expr.jointList_of_terminal hx, List.nil_append]
  induction e generalizing found with
  | token => exact hg.unlessTerminal h hterm fun hf => by cases hf
  | eps | endMark | call => exact hg.unlessTerminal h hterm fun _ => .pure _
  | alt r a b iha ihb =>
    obtain ⟨ha, hb⟩ := hg.stores_alt h
    refine hg.unlessTerminal h hterm fun hf => ?_
    rw [Expr.jointList, if_neg (Bool.eq_false_iff.1 hf), List.append_assoc]
    exact (iha ha found).bind (ihb hb _)
  | seq r a b iha ihb =>
    obtain ⟨ha, hb⟩ := hg.stores_seq h
    refine hg.unlessTerminal h hterm fun _ => ?_
    rw [Expr.jointList, List.cons_append, List.append_assoc]
    exact (iha ha found).bind ((ihb hb _).bind ((hI.joint ha hb).bind (.pure _)))
  | plus r c ih =>
    have hc := hg.stores_plus h
    refine hg.unlessTerminal h hterm fun _ => ?_
    exact (ih hc found).bind ((hI.joint hc hc).bind (.pure _))
  | conj r a b =>
    exact hg.unlessTerminal h hterm fun hf =>
      absurd (hg.terminal_of_conj h) (Bool.eq_false_iff.1 hf)

theorem joints {e : Expr} (h : g.Stores e) : Yields Inv (g.joints e) (e.jointList g.emptyAt) := by
  have hj := hI.addJoints h []
  rwa [List.append_nil] at hj

end Admits

theorem admits_remembers : Admits hg (Remembers hg) where
  remembers _ h := h
  keep _ _ _ h _ := h
  call k hk m hm := by
    obtain ⟨s', n, hs, -, hi, -⟩ :=
      System.Solution.solve_ok (S := hg.nullables) hk trivial hm.nullables
    exact ⟨{ m with nullables := n }, ok_bind hs, hi, hm.nullable, hm.firsts, hm.lasts⟩

end Grammar

end TokenGrammar
