import TokenGrammar.Equations.Solve
import TokenGrammar.Proofs.Running
import Mathlib.Logic.Function.Basic
import Mathlib.Logic.Relation
import Mathlib.Order.Basic

/-!
# Rounds

What entering and leaving a key does to a memo table, and how a key comes to be settled: by rounds,
of which each but the last moves the approximations.
-/

namespace TokenGrammar

namespace Memo

variable {ν : Type}

theorem value_enter (m : Memo ν) (key : Nat) : (m.enter key).value = m.value := by
  funext k
  simp only [value, enter, Std.ExtTreeMap.getElem?_insertIfNew, Std.LawfulEqCmp.compare_eq_iff_eq]
  split
  · rename_i h
    rw [← h.1, Std.ExtTreeMap.getElem?_eq_none h.2]
    rfl
  · rfl

theorem mem_visited_enter {m : Memo ν} {key k : Nat} :
    k ∈ (m.enter key).visited ↔ k = key ∨ k ∈ m.visited := by
  rw [eq_comm]
  simp only [enter, Std.ExtTreeSet.mem_insert, Std.LawfulEqCmp.compare_eq_iff_eq]

theorem mem_values_enter {m : Memo ν} {key k : Nat} :
    k ∈ (m.enter key).values ↔ k = key ∨ k ∈ m.values := by
  rw [eq_comm]
  simp only [enter, Std.ExtTreeMap.mem_insertIfNew, Std.LawfulEqCmp.compare_eq_iff_eq]

theorem lookup_of_known {m : Memo ν} {key : Nat} (h : key ∈ m.settled ∨ key ∈ m.visited) :
    m.lookup key = some (m.value key) := by
  simp only [lookup, Bool.or_eq_true, Std.ExtTreeSet.contains_iff_mem]
  rw [if_pos h]

theorem lookup_of_unknown {m : Memo ν} {key : Nat} (hs : key ∉ m.settled) (hv : key ∉ m.visited) :
    m.lookup key = none := by
  simp only [lookup, Bool.or_eq_true, Std.ExtTreeSet.contains_iff_mem]
  rw [if_neg (not_or.2 ⟨hs, hv⟩)]

variable [DecidableEq ν]

theorem leave_ok {m : Memo ν} {key : Nat} (v : ν) (hd : m.depth ≠ 0) (hk : key ∈ m.values) :
    ∃ m', m.leave key v = .ok m' ∧ m'.bottom = m.bottom ∧ m'.settled = m.settled ∧
      m'.visited = m.visited ∧ m'.depth = m.depth - 1 ∧ m'.rounds = m.rounds ∧
      (∀ k, k ∈ m'.values ↔ k ∈ m.values) ∧ m'.value = Function.update m.value key v ∧
      (m'.changed = true ↔ m.changed = true ∨ m.value key ≠ v) := by
  obtain ⟨w, hw⟩ : ∃ w, m.values[key]? = some w := ⟨_, Std.ExtTreeMap.getElem?_eq_some_getElem hk⟩
  have hv : m.value key = w := by simp [value, hw]
  by_cases h : w = v
  · subst h
    refine ⟨{ m with depth := m.depth - 1 }, by simp [leave, hd, hw], rfl, rfl, rfl, rfl, rfl,
      fun k => Iff.rfl, ?_, by simp [hv]⟩
    funext k
    by_cases hkk : k = key
    · subst hkk
      rw [Function.update_self]
      exact hv
    · rw [Function.update_of_ne hkk]
      rfl
  · refine ⟨{ m with depth := m.depth - 1, changed := true, values := m.values.insert key v },
      by simp [leave, hd, hw, h], rfl, rfl, rfl, rfl, rfl, fun k => ?_, ?_, by simp [hv, h]⟩
    · simp only [Std.ExtTreeMap.mem_insert, Std.LawfulEqCmp.compare_eq_iff_eq]
      exact ⟨fun h => h.elim (fun e => e ▸ hk) id, .inr⟩
    · funext k
      by_cases hkk : k = key
      · subst hkk
        simp [value]
      · simp [Function.update_of_ne hkk, value, Std.ExtTreeMap.getElem?_insert, Ne.symm hkk]

end Memo

namespace System

variable {σ ν : Type}

theorem memo_run (s : σ) (m : Memo ν) : memo (s, m) = .ok (m, (s, m)) := rfl

theorem setMemo_run (m' : Memo ν) (s : σ) (m : Memo ν) : setMemo m' (s, m) = .ok ((), (s, m')) := rfl

theorem onState_run {α : Type} {act : StateT σ (Except Failure) α} {s s' : σ} {a : α}
    (m : Memo ν) (h : act s = .ok (a, s')) : onState act (s, m) = .ok (a, (s', m)) :=
  ok_bind h

theorem evaluate_run {eq : Equation ν} {ask : Nat → SolveM σ ν ν} {t t' : σ × Memo ν}
    (h : eq.reads.forM (fun key => discard (ask key)) t = .ok ((), t')) :
    evaluate eq ask t = .ok (eq.value t'.2.value, t') :=
  (run_bind h).trans (run_bind (memo_run t'.1 t'.2))

section Rounds

variable [DecidableEq ν]

/-- One round computes a key, and says with its value whether the table is stable. -/
def round (sys : System σ ν) (key : Nat) : SolveM σ ν (Bool × ν) := do
  let v ← sys.compute (sys.visit sys.depth) key
  let (stable, m) ← (← memo).settle
  setMemo m
  return (stable, v)

theorem repeatRounds_succ (sys : System σ ν) (key n : Nat) : sys.repeatRounds key (n + 1) =
    sys.round key >>= fun p => if p.1 then pure p.2 else sys.repeatRounds key n := by
  simp [repeatRounds, round]

theorem solve_of_settled (sys : System σ ν) {key : Nat} {t : σ × Memo ν}
    (h : key ∈ t.2.settled) :
    sys.solve key t = .ok (t.2.value key, t) := by
  rw [solve, run_bind (memo_run t.1 t.2), Memo.lookup_of_known (.inl h)]
  rfl

variable [Preorder ν]

/-- The rounds that it takes to compute a key. The last one finds the values as it leaves them; each
one before it moves some value up, and none down. -/
inductive Rounds (sys : System σ ν) (key : Nat) : Nat → σ × Memo ν → ν → σ × Memo ν → Prop
  | last {t t' : σ × Memo ν} {v : ν} (h : sys.round key t = .ok ((true, v), t'))
    (hv : t'.2.value = t.2.value) : Rounds sys key 1 t v t'
  | next {n : Nat} {t t' t'' : σ × Memo ν} {v w : ν} (h : sys.round key t = .ok ((false, w), t'))
    (hle : ∀ k, t.2.value k ≤ t'.2.value k) (hlt : ∃ k, t.2.value k < t'.2.value k)
    (hr : Rounds sys key n t' v t'') : Rounds sys key (n + 1) t v t''

/-- Computing a key that is not settled: rounds, at most as many as the system allows, after which
the key is settled with the value of the last round. What was settled before stays as it was. -/
structure Settles (sys : System σ ν) (key n : Nat) (t t' : σ × Memo ν) : Prop where
  unsettled : key ∉ t.2.settled
  rounds : sys.Rounds key n t (t'.2.value key) t'
  bound : n ≤ sys.rounds
  settled : key ∈ t'.2.settled
  kept : ∀ k ∈ t.2.settled, k ∈ t'.2.settled ∧ t'.2.value k = t.2.value k

/-- Keys are computed one after the other. -/
abbrev Computations (sys : System σ ν) : σ × Memo ν → σ × Memo ν → Prop :=
  Relation.ReflTransGen fun t t' => ∃ key n, sys.Settles key n t t'

variable {sys : System σ ν} {key n : Nat} {t t' : σ × Memo ν} {v : ν}

theorem Rounds.repeatRounds (h : sys.Rounds key n t v t') {bound : Nat} (hn : n ≤ bound) :
    sys.repeatRounds key bound t = .ok (v, t') := by
  induction h generalizing bound with
  | last h =>
    obtain ⟨m, rfl⟩ := Nat.exists_eq_add_one_of_ne_zero (by omega : bound ≠ 0)
    rw [repeatRounds_succ, run_bind h]
    rfl
  | next h _ _ _ ih =>
    obtain ⟨m, rfl⟩ := Nat.exists_eq_add_one_of_ne_zero (by omega : bound ≠ 0)
    rw [repeatRounds_succ, run_bind h]
    exact ih (by omega)

theorem Settles.solve (h : sys.Settles key n t t') (hv : key ∉ t.2.visited) :
    sys.solve key t = .ok (t'.2.value key, t') := by
  rw [System.solve, run_bind (memo_run t.1 t.2), Memo.lookup_of_unknown h.unsettled hv]
  exact h.rounds.repeatRounds h.bound

theorem Rounds.value_le (h : sys.Rounds key n t v t') (k : Nat) : t.2.value k ≤ t'.2.value k := by
  induction h with
  | last _ hv => exact (congrFun hv k).ge
  | next _ hle _ _ ih => exact (hle k).trans ih

theorem Computations.value_le (h : sys.Computations t t') (k : Nat) :
    t.2.value k ≤ t'.2.value k := by
  induction h with
  | refl => exact le_rfl
  | tail _ hs ih =>
    obtain ⟨key, n, hs⟩ := hs
    exact ih.trans (hs.rounds.value_le k)

theorem Computations.kept (h : sys.Computations t t') :
    ∀ k ∈ t.2.settled, k ∈ t'.2.settled ∧ t'.2.value k = t.2.value k := by
  induction h with
  | refl => exact fun k hk => ⟨hk, rfl⟩
  | tail _ hs ih =>
    obtain ⟨key, n, hs⟩ := hs
    intro k hk
    obtain ⟨hk', hv⟩ := ih k hk
    obtain ⟨hk'', hv'⟩ := hs.kept k hk'
    exact ⟨hk'', hv'.trans hv⟩

end Rounds

end System

end TokenGrammar
