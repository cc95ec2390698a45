import TokenGrammar.Tables.Compile

/-!
# What a compilation reports

A log keeps what its buffer takes and is otherwise left as it is. The report on the tables of a grammar
starts with a warning about each rule that the tables leave out, in the order of declaration.
-/

namespace TokenGrammar

namespace Log

variable {α : Type} (l : Log) (s t : String) (level : Nat)

def kept (level : Nat) (s : String) : String := if level ≤ l.bufferLevel then s else ""

@[simp] theorem kept_append : l.kept level (s ++ t) = l.kept level s ++ l.kept level t := by
  unfold kept
  split <;> simp

@[simp] theorem kept_empty : l.kept level "" = "" := by simp [kept]

def push (s : String) : Log := { l with buffer := l.buffer ++ s }

@[simp] theorem push_empty : l.push "" = l := by simp [push]

@[simp] theorem push_push : (l.push s).push t = l.push (s ++ t) := by
  simp [push, String.append_assoc]

@[simp] theorem kept_push : (l.push t).kept level s = l.kept level s := rfl

@[simp] theorem enabled_push : (l.push t).enabled level = l.enabled level := rfl

theorem write_eq : l.write level s = l.push (l.kept level s) := by
  unfold write kept
  split <;> simp [push]

theorem kept_of_not_enabled (h : ¬ l.enabled level = true) : l.kept level s = "" := by
  have hlt : l.bufferLevel < level := by
    rw [enabled, decide_eq_true_eq] at h
    omega
  rw [kept, if_neg (Nat.not_le.2 hlt)]

theorem warn_eq : l.warn s = l.push (l.kept 1 ("Warning: " ++ s ++ "\n")) := by
  rw [warn]
  split
  · simp only [writeWarning, write_eq, kept_push, push_push, kept_append, String.append_assoc]
  · rename_i h
    rw [kept_of_not_enabled l _ 1 h, push_empty]

theorem info_eq : l.info s = l.push (l.kept 2 (s ++ "\n")) := by
  rw [info]
  split
  · simp only [writeInfo, write_eq, kept_push, push_push, kept_append]
  · rename_i h
    rw [kept_of_not_enabled l _ 2 h, push_empty]

theorem foldl_push {write : Log → α → Log} {text : α → String}
    (h : ∀ l x, write l x = l.push (l.kept level (text x))) (xs : List α) :
    xs.foldl write l = l.push (l.kept level (String.join (xs.map text))) := by
  induction xs generalizing l with
  | nil => simp
  | cons x xs ih => rw [List.foldl_cons, h, ih]; simp [String.join_cons]

end Log

/-- The warning about a rule of a given name that the root does not reach. -/
def unreachableWarning (name : String) : String :=
  "Warning: rule " ++ name ++ " is not reachable from the root\n"

namespace Tables

/-- What is told about the tables below the level of warnings. -/
def outline (t : Tables) (elapsedMicros : Nat) (detailed : Bool) : String :=
  t.summary elapsedMicros ++ "\n" ++
    if detailed then
      String.join ((t.rules.toList.filterMap fun i => t.grammar.rules[i]?).map fun r =>
        "  " ++ t.grammar.printRule r ++ "\n")
    else ""

/-- A report consists of a warning about each rule that is left out, and an outline. -/
theorem report_eq (t : Tables) (elapsedMicros : Nat) (l : Log) : t.report elapsedMicros l =
    l.push (l.kept 1 (String.join ((t.unreachable.map (·.name)).map unreachableWarning)) ++
      l.kept 2 (t.outline elapsedMicros (l.enabled 3))) := by
  have hwarn : ∀ (l : Log) (r : Rule),
      l.warn ("rule " ++ r.name ++ " is not reachable from the root") =
        l.push (l.kept 1 (unreachableWarning r.name)) := by
    intro l r
    rw [Log.warn_eq]
    congr 2
    simp only [unreachableWarning, String.append_assoc]
    rfl
  have hrule : ∀ (l : Log) (r : Rule), l.writeInfo ("  " ++ t.grammar.printRule r ++ "\n") =
      l.push (l.kept 2 ("  " ++ t.grammar.printRule r ++ "\n")) := fun l r => l.write_eq _ 2
  rw [report, Log.foldl_push l 1 hwarn, Log.info_eq, outline, List.map_map]
  simp only [Log.kept_push, Log.push_push, Log.enabled_push]
  split
  · rw [Log.foldl_push _ 2 hrule]
    simp [String.append_assoc, Function.comp_def]
  · simp [Function.comp_def]

theorem unreachable_eq (t : Tables) : ∃ outside : List Nat, outside.Pairwise (· < ·) ∧
    (∀ a, a ∈ outside ↔ a < t.grammar.rules.size ∧ a ∉ t.rules) ∧
      t.unreachable.map (·.name) = outside.map fun a => t.grammar.ruleName ⟨t.grammar.id, a⟩ := by
  refine ⟨(t.grammar.rules.toList.zipIdx.filter fun x => !t.rules.contains x.2).map (·.2),
    ?_, fun a => ?_, ?_⟩
  · refine List.Pairwise.sublist (List.filter_sublist.map _) ?_
    rw [List.zipIdx_map_snd]
    exact List.pairwise_lt_range'
  · simp only [List.mem_map, List.mem_filter, Prod.exists, exists_eq_right,
      List.mem_zipIdx_iff_getElem?, Array.getElem?_toList, Bool.not_eq_true', exists_and_right]
    refine and_congr ?_ (by rw [← AscSet.contains_iff, Bool.not_eq_true])
    simp [← Option.isSome_iff_exists]
  · rw [unreachable, List.map_map, List.map_map]
    refine List.map_congr_left fun x hx => ?_
    have hget := List.mem_zipIdx_iff_getElem?.1 (List.mem_filter.1 hx).1
    rw [Array.getElem?_toList] at hget
    simp [Grammar.ruleName, hget]

end Tables

end TokenGrammar
