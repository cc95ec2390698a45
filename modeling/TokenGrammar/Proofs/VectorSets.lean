import TokenGrammar.Context.Vectors
import Mathlib.Data.Finset.Basic
import Mathlib.Data.Finset.Card

/-!
# Vectors of contexts as finite sets

However a set of contexts is built, its vector is ascending and holds its members, each of them
once. Sets with the same members are therefore the same vector, in whatever order they were built.
What is in the vector is also the list that the set of contexts stores.
-/

namespace TokenGrammar

namespace AscSet

variable {α : Type} [LinearKey α]

theorem merge_nil (xs : List α) : merge xs [] = xs := by
  induction xs with
  | nil => rfl
  | cons x xs ih => exact congrArg (x :: ·) ih

theorem merge_cons (x y : α) (xs ys : List α) :
    merge (x :: xs) (y :: ys) =
      if x < y then x :: merge xs (y :: ys)
      else if y < x then y :: merge (x :: xs) ys
      else x :: merge xs ys := rfl

theorem insert_of_mem {s : AscSet α} {x : α} (h : x ∈ s) : s.insert x = s :=
  ext_mem fun y => by
    rw [mem_insert, or_iff_right_iff_imp]
    rintro rfl
    exact h

/-- To put something after all smaller members and before all larger ones puts it into its place. -/
theorem insertIdx_eq_insertInto {x : α} {ys : List α} {p : Nat} (hp : p ≤ ys.length)
    (hlt : ∀ k (hk : k < ys.length), k < p → ys[k] < x)
    (hgt : ∀ k (hk : k < ys.length), p ≤ k → x < ys[k]) :
    ys.insertIdx p x = insertInto x ys := by
  induction ys generalizing p with
  | nil =>
    obtain rfl : p = 0 := by simpa using hp
    rfl
  | cons y ys ih =>
    cases p with
    | zero =>
      have hxy : x < y := hgt 0 (by simp) (Nat.le_refl 0)
      simp [insertInto, hxy]
    | succ p =>
      have hyx : y < x := hlt 0 (by simp) (Nat.succ_pos p)
      have hrest : ys.insertIdx p x = insertInto x ys := by
        refine ih (by simpa using hp) (fun k hk hkp => ?_) fun k hk hpk => ?_
        · exact hlt (k + 1) (by simpa using hk) (by omega)
        · exact hgt (k + 1) (by simpa using hk) (by omega)
      rw [List.insertIdx_succ_cons, hrest, insertInto, if_neg (LinearKey.asymm hyx), if_pos hyx]

end AscSet

namespace IdVector

open AscSet (merge)

private theorem drop_eq_cons (v : Array Nat) {i : Nat} (hi : i < v.size) :
    v.toList.drop i = v[i] :: v.toList.drop (i + 1) :=
  List.drop_eq_getElem_cons (by simpa using hi)

theorem toList_mergeFrom (v w : Array Nat) (i j : Nat) (hi : i ≤ v.size) (hj : j ≤ w.size)
    (merged : Array Nat) :
    (mergeFrom v w i j hi hj merged).toList =
      merged.toList ++ merge (v.toList.drop i) (w.toList.drop j) := by
  fun_induction mergeFrom v w i j hi hj merged with
  | case1 i j hi hj merged h a b hle heq ih =>
    rw [ih, drop_eq_cons v h.1, drop_eq_cons w h.2, AscSet.merge_cons]
    have ha : v[i] = w[j] := heq
    simp [a, ha]
  | case2 i j hi hj merged h a b hle hne ih =>
    rw [ih, drop_eq_cons v h.1, drop_eq_cons w h.2, AscSet.merge_cons]
    have hlt : v[i] < w[j] := Nat.lt_of_le_of_ne hle hne
    simp [a, hlt]
  | case3 i j hi hj merged h a b hgt ih =>
    rw [ih, drop_eq_cons v h.1, drop_eq_cons w h.2, AscSet.merge_cons]
    have hlt : w[j] < v[i] := Nat.lt_of_not_le hgt
    simp [b, hlt, Nat.lt_asymm hlt]
  | case4 i j hi hj merged h =>
    rcases Nat.lt_or_ge i v.size with hlt | hge
    · have hend : w.toList.drop j = [] := List.drop_eq_nil_of_le (by simp; omega)
      simp [hend, AscSet.merge_nil]
    · have hend : v.toList.drop i = [] := List.drop_eq_nil_of_le (by simpa using hge)
      simp [hend, merge]

theorem toList_extend (s t : IdVector) :
    (s.extend t).ids.toList = merge s.ids.toList t.ids.toList := by
  rw [extend]
  split
  · rename_i ht
    rw [Array.isEmpty_iff.1 ht, Array.toList_empty, AscSet.merge_nil]
  · split
    · rename_i hs
      simp [Array.isEmpty_iff.1 hs, merge]
    · simp [toList_mergeFrom]

end IdVector

/-- The number is at the place, or all numbers before the place are smaller and all from there on
are larger. -/
def Spot.Right {v : Array Nat} (id : Nat) : Spot v → Prop
  | found place => v[place] = id
  | missing place =>
    (∀ k (hk : k < v.size), k < place → v[k] < id) ∧
      ∀ k (hk : k < v.size), place ≤ k → id < v[k]

namespace IdVector

private theorem lt_of_ascending {v : Array Nat} (hv : v.toList.Pairwise (· < ·)) {k k' : Nat}
    (hk' : k' < v.size) (h : k < k') : v[k] < v[k'] := by
  have hlt := List.pairwise_iff_getElem.1 hv k k' (Nat.lt_trans h hk') hk' h
  rwa [Array.getElem_toList, Array.getElem_toList] at hlt

/-- Bisection keeps smaller numbers before the two places and larger ones behind them. -/
theorem search_right {v : Array Nat} (hv : v.toList.Pairwise (· < ·)) (id lo hi : Nat)
    (hlo : lo ≤ hi) (hhi : hi ≤ v.size)
    (hbefore : ∀ k (hk : k < v.size), k < lo → v[k] < id)
    (hbehind : ∀ k (hk : k < v.size), hi ≤ k → id < v[k]) :
    (search v id lo hi hlo hhi).Right id := by
  fun_induction search v id lo hi hlo hhi with
  -- the middle and all before it are smaller
  | case1 lo hi hlo hhi h mid hmid hlt ih =>
    refine ih (fun k hk hkm => ?_) hbehind
    rcases Nat.lt_succ_iff_lt_or_eq.1 hkm with hkm | rfl
    · exact Nat.lt_trans (lt_of_ascending hv _ hkm) hlt
    · exact hlt
  -- the middle and all behind it are larger
  | case2 lo hi hlo hhi h mid hmid _ hgt ih =>
    refine ih hbefore fun k hk hmk => ?_
    rcases Nat.lt_or_eq_of_le hmk with hmk | rfl
    · exact Nat.lt_trans hgt (lt_of_ascending hv hk hmk)
    · exact hgt
  | case3 lo hi hlo hhi h mid hmid hlt hgt =>
    exact Nat.le_antisymm (Nat.le_of_not_lt hgt) (Nat.le_of_not_lt hlt)
  | case4 lo hi hlo hhi h =>
    exact ⟨hbefore, fun k hk hlk => hbehind k hk (Nat.le_trans (Nat.le_of_not_lt h) hlk)⟩

theorem toList_insert {s : IdVector} {set : ContextSet} (h : s.ids.toList = set.toList) (id : Nat) :
    (s.insert id).ids.toList = (set.insert id).toList := by
  have hright := search_right (h ▸ set.ascending) id 0 s.ids.size (Nat.zero_le _) (Nat.le_refl _)
    (fun k _ hk => absurd hk (Nat.not_lt_zero k)) fun k hk hsk => absurd hk (Nat.not_lt.2 hsk)
  rw [insert]
  split
  · rename_i place hfound
    rw [hfound] at hright
    have hmem : id ∈ set := by
      rw [AscSet.mem_def, ← h, ← show s.ids[place] = id from hright]
      exact Array.getElem_mem_toList _
    rw [AscSet.insert_of_mem hmem, h]
  · rename_i place hmissing
    rw [hmissing] at hright
    have hplace := Nat.le_of_lt_succ place.2
    show (s.ids.insertIdx place id).toList = AscSet.insertInto id set.toList
    rw [Array.toList_insertIdx, ← h]
    refine AscSet.insertIdx_eq_insertInto (by simpa using hplace) ?_ ?_
    · exact fun k hk hkp => by simpa using hright.1 k (by simpa using hk) hkp
    · exact fun k hk hpk => by simpa using hright.2 k (by simpa using hk) hpk

end IdVector

/-- A way to build a set of contexts. -/
inductive SetPlan
  | empty
  | single (id : Nat)
  | insert (s : SetPlan) (id : Nat)
  | extend (s other : SetPlan)
  deriving DecidableEq, Repr

namespace SetPlan

def vector : SetPlan → IdVector
  | empty => .empty
  | single id => .single id
  | insert s id => s.vector.insert id
  | extend s t => s.vector.extend t.vector

def set : SetPlan → ContextSet
  | empty => .empty
  | single id => .single id
  | insert s id => s.set.insert id
  | extend s t => s.set.union t.set

/-- What the set should have in it. -/
def members : SetPlan → Finset Nat
  | empty => ∅
  | single id => {id}
  | insert s id => Insert.insert id s.members
  | extend s t => s.members ∪ t.members

theorem toList_vector (p : SetPlan) : p.vector.ids.toList = p.set.toList := by
  induction p with
  | empty | single => rfl
  | insert s id ih => exact IdVector.toList_insert ih id
  | extend s t ihs iht =>
    rw [vector, IdVector.toList_extend, ihs, iht]
    rfl

theorem mem_set {p : SetPlan} {x : Nat} : x ∈ p.set ↔ x ∈ p.members := by
  induction p with
  | empty => simp [set, members]
  | single => simp [set, members]
  | insert s id ih => simp [set, members, ih]
  | extend s t ihs iht => simp [set, members, ihs, iht]

theorem mem_vector {p : SetPlan} {x : Nat} : x ∈ p.vector.ids ↔ x ∈ p.members := by
  rw [← Array.mem_toList_iff, toList_vector, ← AscSet.mem_def, mem_set]

theorem vector_eq_iff {p q : SetPlan} : p.vector = q.vector ↔ p.members = q.members := by
  constructor
  · intro h
    ext x
    rw [← mem_vector, h, mem_vector]
  · intro h
    have hset : p.set = q.set := AscSet.ext_mem fun x => by rw [mem_set, mem_set, h]
    apply congrArg IdVector.mk
    rw [← Array.toList_inj, toList_vector, toList_vector, hset]

theorem size_vector (p : SetPlan) : p.vector.size = p.members.card := by
  have hmembers : p.set.toList.toFinset = p.members := by
    ext x
    rw [List.mem_toFinset, ← AscSet.mem_def, mem_set]
  have hnodup : p.set.toList.Nodup := p.set.ascending.imp LinearKey.ne_of_lt
  rw [← hmembers, List.toFinset_card_of_nodup hnodup, ← toList_vector]
  rfl

/-- The vector that is built is the finite set of its members. -/
structure Canonical (p : SetPlan) : Prop where
  ascending : p.vector.ids.toList.Pairwise (· < ·)
  /-- The same list is stored for the set of contexts. -/
  stored : p.vector.ids.toList = p.set.toList
  mem : ∀ x, x ∈ p.vector.ids ↔ x ∈ p.members
  mem_insert : ∀ id x, x ∈ (p.vector.insert id).ids ↔ x = id ∨ x ∈ p.vector.ids
  mem_extend : ∀ (q : SetPlan) (x : Nat),
    x ∈ (p.vector.extend q.vector).ids ↔ x ∈ p.vector.ids ∨ x ∈ q.vector.ids
  size : p.vector.size = p.members.card
  isEmpty : p.vector.isEmpty = true ↔ p.members = ∅
  beq : ∀ q : SetPlan, (p.vector == q.vector) = true ↔ p.members = q.members
  insert_comm : ∀ i j, (p.vector.insert i).insert j = (p.vector.insert j).insert i
  insert_insert : ∀ i, (p.vector.insert i).insert i = p.vector.insert i
  extend_comm : ∀ q : SetPlan, p.vector.extend q.vector = q.vector.extend p.vector
  extend_assoc : ∀ q r : SetPlan, (p.vector.extend q.vector).extend r.vector =
    p.vector.extend (q.vector.extend r.vector)
  extend_self : p.vector.extend p.vector = p.vector
  extend_insert : ∀ (q : SetPlan) (i : Nat),
    p.vector.extend (q.vector.insert i) = (p.vector.extend q.vector).insert i

/-- However a set of contexts is built, its vector is the finite set of its members: ascending, the
same for the same members, and with the laws of finite sets. -/
theorem vector_canonical (p : SetPlan) : p.Canonical where
  ascending := p.toList_vector ▸ p.set.ascending
  stored := p.toList_vector
  mem _ := mem_vector
  mem_insert id x := by
    show x ∈ (p.insert id).vector.ids ↔ _
    rw [mem_vector, mem_vector, members, Finset.mem_insert]
  mem_extend q x := by
    show x ∈ (p.extend q).vector.ids ↔ _
    rw [mem_vector, mem_vector, mem_vector, members, Finset.mem_union]
  size := p.size_vector
  isEmpty := by
    rw [← Finset.card_eq_zero, ← size_vector]
    exact Array.isEmpty_iff_size_eq_zero
  beq q := by rw [beq_iff_eq, vector_eq_iff]
  insert_comm i j := by
    show ((p.insert i).insert j).vector = ((p.insert j).insert i).vector
    rw [vector_eq_iff]
    exact Finset.insert_comm j i p.members
  insert_insert i := by
    show ((p.insert i).insert i).vector = (p.insert i).vector
    rw [vector_eq_iff]
    exact Finset.insert_idem i p.members
  extend_comm q := by
    show (p.extend q).vector = (q.extend p).vector
    rw [vector_eq_iff]
    exact Finset.union_comm p.members q.members
  extend_assoc q r := by
    show ((p.extend q).extend r).vector = (p.extend (q.extend r)).vector
    rw [vector_eq_iff]
    exact Finset.union_assoc p.members q.members r.members
  extend_self := by
    show (p.extend p).vector = p.vector
    rw [vector_eq_iff]
    exact Finset.union_self p.members
  extend_insert q i := by
    show (p.extend (q.insert i)).vector = ((p.extend q).insert i).vector
    rw [vector_eq_iff]
    exact Finset.union_insert i p.members q.members

example : (SetPlan.extend (.insert (.insert (.single 4) 9) 1)
    (.insert (.insert (.single 10) 0) 4)).vector.ids = #[0, 1, 4, 9, 10] := by decide +kernel

end SetPlan

end TokenGrammar
