/-
  File:      Crete/Traces/Descent.lean
  Subject:   When selection by recursive descent is complete.

  The branches at a vertex are kept in a map from their score, so of the branches with one score
  only the first is ever entered (`Descends`); and the root is taken before anything is checked.

  * `Complete` -- an unexecuted leaf is returned if there is one, none otherwise.
  * **`selectRoot_complete_iff`** -- on every trace graph and for every scoring function: complete
    exactly if there is a vertex, and some unexecuted leaf can be reached if there is one.
-/
import Crete.Traces.Calls

namespace Crete.Traces

open Crete.Lib Crete.Lib.AdjList

variable {S : Type} [LinearOrder S]

/-- **Selection is complete.** -/
structure Complete (score : List Block → S) (tg : TraceGraph) : Prop where
  found : (∃ l id, UnexecutedLeaf tg l id) → ∃ l id,
    selectRoot (fun blocks => .ok (score blocks)) tg = .ok (some id) ∧ UnexecutedLeaf tg l id
  otherwise : (¬ ∃ l id, UnexecutedLeaf tg l id) →
    selectRoot (fun blocks => .ok (score blocks)) tg = .ok none

/-- A graph without vertices has no leaf, but its root is taken. -/
theorem not_complete_of_nil (score : List Block → S) {tg : TraceGraph} (hg : tg.graph = []) :
    ¬ Complete score tg := by
  intro h
  have hnone : ¬ ∃ l id, UnexecutedLeaf tg l id := by
    intro ⟨l, id, hl⟩
    have hid := hl.idAt
    rw [hg] at hid
    cases hid
  have hsel := h.otherwise hnone
  rw [selectRoot, if_pos hg] at hsel
  cases hsel

/-- **On a graph with vertices**: complete exactly if some unexecuted leaf can be reached. -/
theorem GraphInv.complete_iff {r : Block} {tg : TraceGraph} (h : GraphInv r tg)
    (score : List Block → S) : Complete score tg ↔ ((∃ l id, UnexecutedLeaf tg l id) →
      ∃ l id, UnexecutedLeaf tg l id ∧
        Descends (fun blocks => .ok (score blocks)) tg.graph 0 l) := by
  have htotal : ∀ blocks : List Block, blocks ≠ [] → ∃ s,
      (fun blocks => Except.ok (score blocks) : List Block → Except Stop S) blocks = .ok s :=
    fun blocks _ => ⟨score blocks, rfl⟩
  have hspec := selectByRecursiveScore_spec htotal h tg.graph.length 0 h.spells.length_pos
    (by omega)
  rw [← selectRoot_eq h] at hspec
  constructor
  · intro hc hex
    obtain ⟨_, _, hsel, -⟩ := hc.found hex
    rcases hspec with ⟨hs, -⟩ | ⟨l, id, -, hd, hl⟩
    · rw [hsel] at hs
      cases hs
    · exact ⟨l, id, hl, hd⟩
  · intro hreach
    rcases hspec with ⟨hs, hn⟩ | ⟨l, id, hs, -, hl⟩
    · refine ⟨fun hex => ?_, fun _ => hs⟩
      obtain ⟨l, id, hl, hd⟩ := hreach hex
      exact absurd hl (hn l id hd)
    · exact ⟨fun _ => ⟨l, id, hs, hl⟩, fun hno => absurd ⟨l, id, hl⟩ hno⟩

/-- **Recursive descent is complete** exactly if the graph has a vertex and, where there is an
    unexecuted leaf, there is one on whose path no branch has the score of an earlier one at the
    same vertex. -/
theorem selectRoot_complete_iff (score : List Block → S) (cs : List GraphCall)
    (hids : Identified (insertedTraces cs)) {tg : TraceGraph} (hc : callAll .empty cs = .ok tg) :
    Complete score tg ↔ tg.graph ≠ [] ∧ ((∃ l id, UnexecutedLeaf tg l id) →
      ∃ l id, UnexecutedLeaf tg l id ∧
        Descends (fun blocks => .ok (score blocks)) tg.graph 0 l) := by
  by_cases hnil : tg.graph = []
  · exact ⟨fun h => absurd h (not_complete_of_nil score hnil), fun h => absurd hnil h.1⟩
  · rcases (callAll_called cs hids hc).built with e | ⟨hg, -⟩ | ⟨r, hg⟩
    · exact absurd (by rw [e]; rfl) hnil
    · exact absurd hg hnil
    · rw [hg.complete_iff score]
      exact ⟨fun h => ⟨hnil, h⟩, And.right⟩

/-- Two branches, the first of which is longer and executed. -/
theorem selectRoot_complete_two : ∃ tg,
    callAll .empty [.insert ⟨[1], [0, 1, 1]⟩, .insert ⟨[2], [0, 2]⟩, .submitExecuted [1]] = .ok tg ∧
    (Complete (fun blocks => List.length blocks) tg ↔ tg.graph ≠ [] ∧
      ((∃ l id, UnexecutedLeaf tg l id) → ∃ l id, UnexecutedLeaf tg l id ∧
        Descends (fun blocks => .ok (List.length blocks)) tg.graph 0 l)) :=
  ⟨_, rfl, selectRoot_complete_iff (fun blocks => List.length blocks)
    [.insert ⟨[1], [0, 1, 1]⟩, .insert ⟨[2], [0, 2]⟩, .submitExecuted [1]] (by decide) rfl⟩

/-- **It is not complete**: the root of the empty graph is accessed; and two branches with no
    repeated block have the same score, so that the second is not found once the first is
    executed. -/
theorem selectRoot_slips :
    ¬ Complete (calculateWeightGroupScore (⟨id, (· / ·)⟩ : Scoring Nat)) .empty ∧
    ∃ tg, callAll .empty [.insert ⟨[1], [0, 1]⟩, .insert ⟨[2], [0, 2]⟩, .submitExecuted [1]] =
        .ok tg ∧
      ¬ Complete (calculateWeightGroupScore (⟨id, (· / ·)⟩ : Scoring Nat)) tg := by
  refine ⟨not_complete_of_nil _ rfl, _, rfl, fun h => ?_⟩
  obtain ⟨l, id, hs, -⟩ := h.found ⟨2, [2], rfl, rfl, rfl⟩
  cases hs

end Crete.Traces
