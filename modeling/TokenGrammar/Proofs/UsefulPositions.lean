import TokenGrammar.Proofs.PositionOrder
import TokenGrammar.Proofs.PositionWords

/-!
# Useful positions

The positions of an expression are listed from left to right, each once, and none of them is listed
in vain: along pairs of neighbours it is reached from a first position and leads to a last one. So an
expression that no position comes first in derives the empty string, and a position without followers
comes last.
-/

namespace TokenGrammar

/-- What an analysis finds about an expression is about its positions, and all of them matter. -/
structure Expr.AllUseful (e : Expr) (nullable : Bool) (firsts lasts : PosSet)
    (pairs : List (Nat × Nat)) : Prop where
  firsts_sub : ∀ p ∈ firsts, p ∈ e.marks
  lasts_sub : ∀ p ∈ lasts, p ∈ e.marks
  pairs_sub : ∀ p q, (p, q) ∈ pairs → p ∈ e.marks ∧ q ∈ e.marks
  reached : ∀ p ∈ e.marks, ∃ f ∈ firsts, Relation.ReflTransGen (fun x y => (x, y) ∈ pairs) f p
  reaches : ∀ p ∈ e.marks, ∃ l ∈ lasts, Relation.ReflTransGen (fun x y => (x, y) ∈ pairs) p l
  empty : firsts.isEmpty = true → nullable = true
  dead : ∀ p ∈ e.marks, (∀ q, (p, q) ∉ pairs) → p ∈ lasts

theorem AscSet.not_mem_of_isEmpty {α : Type} [LinearKey α] {s : AscSet α} (h : s.isEmpty = true)
    (x : α) : x ∉ s := by
  rw [mem_def, List.isEmpty_iff.1 h]
  exact List.not_mem_nil

namespace Grammar

variable {g : Grammar} {e : Expr} {i : Nat}

theorem WellFormed.inner_of_ne_end (hg : g.WellFormed) (he : g.nodes[i]? = some e)
    (hend : i ≠ g.endIndex) : g.Inner e := by
  have hs := hg.stores he
  refine ⟨hs, ?_⟩
  have hlt := hs.index_lt
  have hi := hg.index he
  unfold endIndex at hend ⊢
  omega

namespace Valid

variable (hg : g.Valid)
include hg

theorem mem_pairs_iff (h : g.Inner e) (p q : Nat) :
    (p, q) ∈ (Follow.ofJoints g.nodes.size (e.jointList g.emptyAt)).pairs ↔
      e.Follows g.emptyAt p q := by
  rw [Follow.mem_pairs_iff, Follow.mem_after_ofJoints]
  -- what is followed is a node, so the table of followers has a place for it
  refine and_iff_right_of_imp fun hf => ?_
  obtain ⟨x, hx, rfl⟩ := List.mem_map.1 (hg.mem_marks_of_follows h hf).1
  exact (hg.stores_position h.stores hx).index_lt

theorem allUseful (h : g.Inner e) :
    e.AllUseful (e.nullable g.emptyAt) (e.firstSet g.emptyAt) (e.lastSet g.emptyAt)
      (Follow.ofJoints g.nodes.size (e.jointList g.emptyAt)).pairs := by
  constructor
  case firsts_sub => exact fun p => hg.mem_marks_of_first h
  case lasts_sub => exact fun p => hg.mem_marks_of_last h
  case empty =>
    intro hempty
    exact hg.nullable_of_no_first h (AscSet.not_mem_of_isEmpty hempty)
  all_goals simp only [hg.mem_pairs_iff h]
  case pairs_sub => exact fun p q => hg.mem_marks_of_follows h
  case reached => exact fun p => hg.leads_from_first h
  case reaches => exact fun p => hg.leads_to_last h
  case dead => exact fun p => hg.last_of_dead h

end Valid

/-- **Every position is useful.** For a node of a finished grammar other than the end mark: walking
through its tree lists the positions in the order of their addresses, and no position twice; and what
an analysis answers about the node, whatever it has been asked before, is about these positions and
leads through each of them from a first to a last one. -/
theorem positions_useful (hg : g.Built) (hv : g.validate = .ok ()) (he : g.nodes[i]? = some e)
    (hend : i ≠ g.endIndex) :
    g.walk [e] = .ok e.positions ∧ (∃ ws, e.ListsPositions ws e.positions) ∧ e.marks.Nodup ∧
      (∃ a, Analysis.start g = .ok a) ∧
      ∃ nullable firsts lasts follow,
        (∀ a, Analysis.Asked g a →
          (∃ a', Analysis.nullable e a = .ok (nullable, a')) ∧
          (∃ a', Analysis.firsts e a = .ok (firsts, a')) ∧
          (∃ a', Analysis.lasts e a = .ok (lasts, a')) ∧
          ∃ a', Analysis.follow e a = .ok (follow, a')) ∧
        e.AllUseful nullable firsts lasts follow.pairs := by
  have hval := hg.valid hv
  have hin : g.Inner e := hval.inner_of_ne_end he hend
  refine ⟨?walk, Expr.exists_listsPositions e, ?once, ?start, _, _, _, _, ?answers,
    hval.allUseful hin⟩
  case walk => exact hval.positions_ok hin.stores
  case once => exact (hg.nodup_indices he).sublist e.marks_sublist_indices
  case start =>
    obtain ⟨a, ha, -⟩ := Analysis.start_ok hval
    exact ⟨a, ha⟩
  case answers =>
    intro a ha
    have hanswer : ∀ {α : Type} {act : AnalysisM α} {x : α}, Analysis.Answers hval act x →
        ∃ a', act a = .ok (x, a') := by
      intro α act x h
      obtain ⟨a', hact, -⟩ := h a (ha.steady hval)
      exact ⟨a', hact⟩
    exact ⟨hanswer (Analysis.answers_nullable hin.stores), hanswer (Analysis.answers_firsts hin.stores),
      hanswer (Analysis.answers_lasts hin.stores), hanswer (Analysis.answers_follow hin.stores)⟩

/-- The grammar of `e` after `e = ('a' | 'b')+ e?`. -/
def repeatedGrammar : Grammar :=
  let a := .token ⟨0, 0⟩ (.equal 97)
  let b := .token ⟨0, 1⟩ (.equal 98)
  let letter := .alt ⟨0, 2⟩ a b
  let letters := .plus ⟨0, 3⟩ letter
  let again := .call ⟨0, 4⟩ ⟨0, 0⟩ 0
  let nothing := .eps ⟨0, 5⟩
  let rest := .alt ⟨0, 6⟩ again nothing
  let body := .seq ⟨0, 7⟩ letters rest
  let root := .call ⟨0, 8⟩ ⟨0, 0⟩ 1
  ⟨0, #[a, b, letter, letters, again, nothing, rest, body, root, .endMark ⟨0, 9⟩],
    #[true, true, true, false, false, false, false, false, false, false], #[⟨"e", body⟩], root⟩

theorem positions_useful_repeated :
    repeatedGrammar.Built ∧ repeatedGrammar.validate = .ok () ∧
      ∃ e, repeatedGrammar.nodes[7]? = some e ∧ 7 ≠ repeatedGrammar.endIndex ∧ e.marks = [2, 4] ∧
        repeatedGrammar.walk [e] = .ok e.positions ∧ (∃ ws, e.ListsPositions ws e.positions) ∧ e.marks.Nodup ∧
          (∃ a, Analysis.start repeatedGrammar = .ok a) ∧
          ∃ nullable firsts lasts follow,
            (∀ a, Analysis.Asked repeatedGrammar a →
              (∃ a', Analysis.nullable e a = .ok (nullable, a')) ∧
              (∃ a', Analysis.firsts e a = .ok (firsts, a')) ∧
              (∃ a', Analysis.lasts e a = .ok (lasts, a')) ∧
              ∃ a', Analysis.follow e a = .ok (follow, a')) ∧
            e.AllUseful nullable firsts lasts follow.pairs := by
  have hbuilt : repeatedGrammar.Built :=
    ⟨0, [.rule "e", .token (.equal 97), .token (.equal 98), .alt ⟨0, 0⟩ ⟨0, 1⟩, .plus ⟨0, 2⟩,
      .call ⟨0, 0⟩, .maybe ⟨0, 4⟩, .seq ⟨0, 3⟩ ⟨0, 6⟩, .setBody ⟨0, 0⟩ ⟨0, 7⟩, .call ⟨0, 0⟩],
      ⟨0, 8⟩, by decide +kernel⟩
  have hvalid : repeatedGrammar.validate = .ok () := rfl
  exact ⟨hbuilt, hvalid, _, rfl, by decide, by decide +kernel,
    positions_useful (i := 7) hbuilt hvalid rfl (by decide)⟩

end Grammar

end TokenGrammar
