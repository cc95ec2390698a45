import TokenGrammar.LinearKey

/-!
# Finite sets as ascending lists

A finite set is stored as the strictly ascending list of its members. The list is determined by the
members, so two sets with the same members are the same value, whatever the order in which they were
built.
-/

namespace TokenGrammar

/-- A finite set, stored as the strictly ascending list of its members. -/
structure AscSet (α : Type) [LinearKey α] where
  toList : List α
  ascending : toList.Pairwise (· < ·)

namespace AscSet

variable {α : Type} [LinearKey α]

theorem eq_of_toList {s t : AscSet α} (h : s.toList = t.toList) : s = t := by
  cases s; cases t; cases h; rfl

instance [DecidableEq α] : DecidableEq (AscSet α) := fun s t =>
  if h : s.toList = t.toList then isTrue (eq_of_toList h)
  else isFalse fun e => h (e ▸ rfl)

/-- Puts `x` into its place in an ascending list, unless it is there already. -/
@[specialize] def insertInto (x : α) : List α → List α
  | [] => [x]
  | y :: ys => if x < y then x :: y :: ys else if y < x then y :: insertInto x ys else y :: ys

/-- Merges `x` and whatever `rest` merges with the remainder of the list. -/
@[specialize] def mergeHead (x : α) (rest : List α → List α) : List α → List α
  | [] => x :: rest []
  | y :: ys =>
    if x < y then x :: rest (y :: ys)
    else if y < x then y :: mergeHead x rest ys
    else x :: rest ys

/-- Merges two ascending lists and keeps one copy of what they share. -/
@[specialize] def merge : List α → List α → List α
  | [], ys => ys
  | x :: xs, ys => mergeHead x (merge xs) ys

theorem mem_insertInto {x z : α} {ys : List α} : z ∈ insertInto x ys ↔ z = x ∨ z ∈ ys := by
  induction ys with
  | nil => simp [insertInto]
  | cons y ys ih =>
    unfold insertInto
    split
    · simp
    · split
      · simp only [List.mem_cons, ih]
        constructor
        · rintro (h | h | h) <;> simp [h]
        · rintro (h | h | h) <;> simp [h]
      · have e : x = y := LinearKey.eq_of_not_lt (by assumption) (by assumption)
        simp [e]

theorem mem_mergeHead {x z : α} {rest : List α → List α} {xs : List α}
    (hr : ∀ ys, z ∈ rest ys ↔ z ∈ xs ∨ z ∈ ys) (ys : List α) :
    z ∈ mergeHead x rest ys ↔ z ∈ x :: xs ∨ z ∈ ys := by
  induction ys with
  | nil => simp [mergeHead, hr]
  | cons y ys ih =>
    unfold mergeHead
    split
    · simp only [List.mem_cons, hr, or_assoc]
    · split
      · simp only [List.mem_cons] at ih ⊢
        rw [ih]
        constructor
        · rintro (h | (h | h) | h) <;> simp [h]
        · rintro ((h | h) | h | h) <;> simp [h]
      · have e : x = y := LinearKey.eq_of_not_lt (by assumption) (by assumption)
        subst e
        simp only [List.mem_cons, hr]
        constructor
        · rintro (h | h | h) <;> simp [h]
        · rintro ((h | h) | h | h) <;> simp [h]

theorem mem_merge {z : α} (xs ys : List α) : z ∈ merge xs ys ↔ z ∈ xs ∨ z ∈ ys := by
  induction xs generalizing ys with
  | nil => simp [merge]
  | cons x xs ih => exact mem_mergeHead ih ys

theorem pairwise_insertInto (x : α) {ys : List α} (h : ys.Pairwise (· < ·)) :
    (insertInto x ys).Pairwise (· < ·) := by
  induction ys with
  | nil => simp [insertInto]
  | cons y ys ih =>
    have hy := List.pairwise_cons.1 h
    unfold insertInto
    split
    · rename_i hxy
      refine List.pairwise_cons.2 ⟨fun z hz => ?_, h⟩
      rcases List.mem_cons.1 hz with rfl | hz
      · exact hxy
      · exact LinearKey.trans hxy (hy.1 z hz)
    · split
      · rename_i hyx
        refine List.pairwise_cons.2 ⟨fun z hz => ?_, ih hy.2⟩
        rcases mem_insertInto.1 hz with rfl | hz
        · exact hyx
        · exact hy.1 z hz
      · exact h

theorem pairwise_mergeHead {x : α} {rest : List α → List α} {xs : List α}
    (hx : ∀ z ∈ xs, x < z) (hm : ∀ z ys, z ∈ rest ys ↔ z ∈ xs ∨ z ∈ ys)
    (hr : ∀ ys : List α, ys.Pairwise (· < ·) → (rest ys).Pairwise (· < ·))
    {ys : List α} (h : ys.Pairwise (· < ·)) : (mergeHead x rest ys).Pairwise (· < ·) := by
  induction ys with
  | nil =>
    refine List.pairwise_cons.2 ⟨fun z hz => ?_, hr [] h⟩
    exact hx z (by simpa [hm] using hz)
  | cons y ys ih =>
    have hy := List.pairwise_cons.1 h
    unfold mergeHead
    split
    · rename_i hxy
      refine List.pairwise_cons.2 ⟨fun z hz => ?_, hr _ h⟩
      rcases (hm _ _).1 hz with hz | hz
      · exact hx z hz
      · rcases List.mem_cons.1 hz with rfl | hz
        · exact hxy
        · exact LinearKey.trans hxy (hy.1 z hz)
    · split
      · rename_i hyx
        refine List.pairwise_cons.2 ⟨fun z hz => ?_, ih hy.2⟩
        rcases (mem_mergeHead (hm z) ys).1 hz with hz | hz
        · rcases List.mem_cons.1 hz with rfl | hz
          · exact hyx
          · exact LinearKey.trans hyx (hx z hz)
        · exact hy.1 z hz
      · have e : x = y := LinearKey.eq_of_not_lt (by assumption) (by assumption)
        refine List.pairwise_cons.2 ⟨fun z hz => ?_, hr _ hy.2⟩
        rcases (hm _ _).1 hz with hz | hz
        · exact hx z hz
        · exact e ▸ hy.1 z hz

theorem pairwise_merge {xs ys : List α} (hx : xs.Pairwise (· < ·)) (hy : ys.Pairwise (· < ·)) :
    (merge xs ys).Pairwise (· < ·) := by
  induction xs generalizing ys with
  | nil => exact hy
  | cons x xs ih =>
    have h := List.pairwise_cons.1 hx
    exact pairwise_mergeHead h.1 (fun z ys => mem_merge xs ys) (fun _ => ih h.2) hy

def empty : AscSet α := ⟨[], .nil⟩

instance : Inhabited (AscSet α) := ⟨empty⟩

def single (x : α) : AscSet α := ⟨[x], by simp⟩

def insert (s : AscSet α) (x : α) : AscSet α :=
  ⟨insertInto x s.toList, pairwise_insertInto x s.ascending⟩

def union (s t : AscSet α) : AscSet α :=
  ⟨merge s.toList t.toList, pairwise_merge s.ascending t.ascending⟩

/-- Adds a set to a row of sets in which each is the union of twice as many as the one before it; a
place of the row may be free. -/
def addToRow (s : AscSet α) : List (Option (AscSet α)) → List (Option (AscSet α))
  | [] => [some s]
  | none :: row => some s :: row
  | some t :: row => none :: addToRow (t.union s) row

/-- The union of the sets in a row. -/
def unionOfRow (row : List (Option (AscSet α))) : AscSet α :=
  row.foldl (fun s t => match t with | none => s | some t => t.union s) empty

/-- The union of many sets, which always joins sets made of equally many. -/
def unionAll (ss : List (AscSet α)) : AscSet α :=
  unionOfRow (ss.foldl (fun row s => addToRow s row) [])

def ofList (xs : List α) : AscSet α := unionAll (xs.map single)

/-- The image under a function that keeps the order of the members. -/
def mapAscending {β : Type} [LinearKey β] (s : AscSet α) (f : α → β)
    (h : ∀ a ∈ s.toList, ∀ b ∈ s.toList, a < b → f a < f b) : AscSet β :=
  ⟨s.toList.map f, List.pairwise_map.2 (s.ascending.imp_of_mem fun ha hb hab => h _ ha _ hb hab)⟩

def filter (p : α → Bool) (s : AscSet α) : AscSet α :=
  ⟨s.toList.filter p, s.ascending.filter p⟩

def size (s : AscSet α) : Nat := s.toList.length

def isEmpty (s : AscSet α) : Bool := s.toList.isEmpty

instance : Membership α (AscSet α) := ⟨fun s x => x ∈ s.toList⟩

def contains (s : AscSet α) (x : α) : Bool :=
  s.toList.any fun y => !decide (x < y) && !decide (y < x)

theorem mem_def {s : AscSet α} {x : α} : x ∈ s ↔ x ∈ s.toList := Iff.rfl

theorem contains_iff {s : AscSet α} {x : α} : s.contains x = true ↔ x ∈ s := by
  simp only [contains, List.any_eq_true, Bool.and_eq_true, Bool.not_eq_true',
    decide_eq_false_iff_not, mem_def]
  constructor
  · rintro ⟨y, hy, h, h'⟩
    exact LinearKey.eq_of_not_lt h h' ▸ hy
  · exact fun h => ⟨x, h, LinearKey.irrefl x, LinearKey.irrefl x⟩

instance (x : α) (s : AscSet α) : Decidable (x ∈ s) :=
  decidable_of_iff (s.contains x = true) contains_iff

@[simp] theorem not_mem_empty (x : α) : ¬ x ∈ (empty : AscSet α) := by simp [empty, mem_def]

@[simp] theorem mem_single {x y : α} : y ∈ single x ↔ y = x := by simp [single, mem_def]

@[simp] theorem mem_insert {s : AscSet α} {x y : α} : y ∈ s.insert x ↔ y = x ∨ y ∈ s :=
  mem_insertInto

@[simp] theorem mem_union {s t : AscSet α} {x : α} : x ∈ s.union t ↔ x ∈ s ∨ x ∈ t :=
  mem_merge _ _

/-- Whether a member is in one of the sets of a row. -/
private def InRow (x : α) (row : List (Option (AscSet α))) : Prop := ∃ s, some s ∈ row ∧ x ∈ s

private theorem inRow_addToRow {x : α} {s : AscSet α} {row : List (Option (AscSet α))} :
    InRow x (addToRow s row) ↔ x ∈ s ∨ InRow x row := by
  induction row generalizing s with
  | nil => simp [addToRow, InRow]
  | cons t row ih =>
    cases t with
    | none => simp [addToRow, InRow]
    | some t =>
      have e : InRow x (none :: addToRow (t.union s) row) ↔ InRow x (addToRow (t.union s) row) := by
        simp [InRow]
      have e' : InRow x (some t :: row) ↔ x ∈ t ∨ InRow x row := by
        simp [InRow, or_and_right, exists_or]
      rw [addToRow, e, ih, e', mem_union, ← or_assoc, or_comm (a := x ∈ t)]

private theorem mem_unionOfRow {x : α} {row : List (Option (AscSet α))} :
    x ∈ unionOfRow row ↔ InRow x row := by
  have h : ∀ (row : List (Option (AscSet α))) (s : AscSet α),
      x ∈ row.foldl (fun s t => match t with | none => s | some t => t.union s) s ↔
        x ∈ s ∨ InRow x row := by
    intro row
    induction row with
    | nil => simp [InRow]
    | cons t row ih =>
      intro s
      cases t with
      | none => simp [ih, InRow]
      | some t =>
        simp only [List.foldl_cons, ih, mem_union, InRow, List.mem_cons, Option.some.injEq]
        constructor
        · rintro ((h | h) | ⟨u, h, h'⟩)
          · exact .inr ⟨t, .inl rfl, h⟩
          · exact .inl h
          · exact .inr ⟨u, .inr h, h'⟩
        · rintro (h | ⟨u, rfl | h, h'⟩)
          · exact .inl (.inr h)
          · exact .inl (.inl h')
          · exact .inr ⟨u, h, h'⟩
  rw [unionOfRow, h]
  simp

@[simp] theorem mem_unionAll {ss : List (AscSet α)} {x : α} :
    x ∈ unionAll ss ↔ ∃ s ∈ ss, x ∈ s := by
  have h : ∀ (ss : List (AscSet α)) (row : List (Option (AscSet α))),
      InRow x (ss.foldl (fun row s => addToRow s row) row) ↔ InRow x row ∨ ∃ s ∈ ss, x ∈ s := by
    intro ss
    induction ss with
    | nil => simp
    | cons s ss ih =>
      intro row
      rw [List.foldl_cons, ih, inRow_addToRow, or_comm (a := x ∈ s), or_assoc]
      simp
  rw [unionAll, mem_unionOfRow, h]
  simp [InRow]

@[simp] theorem mem_ofList {xs : List α} {x : α} : x ∈ ofList xs ↔ x ∈ xs := by
  rw [ofList, mem_unionAll]
  constructor
  · rintro ⟨s, hs, hx⟩
    obtain ⟨y, hy, rfl⟩ := List.mem_map.1 hs
    exact mem_single.1 hx ▸ hy
  · exact fun h => ⟨single x, List.mem_map_of_mem h, mem_single.2 rfl⟩

@[simp] theorem mem_filter {s : AscSet α} {p : α → Bool} {x : α} :
    x ∈ s.filter p ↔ x ∈ s ∧ p x = true := by
  simp [filter, mem_def]

private theorem eq_of_mem_iff {xs ys : List α} (hx : xs.Pairwise (· < ·))
    (hy : ys.Pairwise (· < ·)) (h : ∀ z, z ∈ xs ↔ z ∈ ys) : xs = ys := by
  induction xs generalizing ys with
  | nil =>
    cases ys with
    | nil => rfl
    | cons y ys => exact absurd ((h y).2 (by simp)) (by simp)
  | cons x xs ih =>
    cases ys with
    | nil => exact absurd ((h x).1 (by simp)) (by simp)
    | cons y ys =>
      have hx' := List.pairwise_cons.1 hx
      have hy' := List.pairwise_cons.1 hy
      have e : x = y := by
        rcases List.mem_cons.1 ((h x).1 (by simp)) with e | hm
        · exact e
        · rcases List.mem_cons.1 ((h y).2 (by simp)) with e | hm'
          · exact e.symm
          · exact absurd (hx'.1 y hm') (LinearKey.asymm (hy'.1 x hm))
      subst e
      congr 1
      refine ih hx'.2 hy'.2 fun z => ⟨fun hz => ?_, fun hz => ?_⟩
      · rcases List.mem_cons.1 ((h z).1 (List.mem_cons_of_mem _ hz)) with e | hm
        · exact absurd (hx'.1 z hz) (e ▸ LinearKey.irrefl x)
        · exact hm
      · rcases List.mem_cons.1 ((h z).2 (List.mem_cons_of_mem _ hz)) with e | hm
        · exact absurd (hy'.1 z hz) (e ▸ LinearKey.irrefl x)
        · exact hm

/-- Sets with the same members are the same value. -/
theorem ext_mem {s t : AscSet α} (h : ∀ x, x ∈ s ↔ x ∈ t) : s = t :=
  eq_of_toList (eq_of_mem_iff s.ascending t.ascending h)

end AscSet

end TokenGrammar
