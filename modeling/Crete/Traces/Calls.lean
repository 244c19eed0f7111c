/-
  File:      Crete/Traces/Calls.lean
  Subject:   The trace graphs there are: any inserts and any executed traces, in any order, from
             the empty graph.

  Traces are equal if their ids are, so two inserted traces with one id are one trace
  (`Identified`). The first block of a trace is checked by `merge_trace`.

  * **`callAll_called`** -- the graph they leave has no vertex (before the first insert, or after
    an insert of an empty trace into the empty graph), or satisfies `GraphInv`.
-/
import Crete.Traces.Selector

namespace Crete.Traces

open Crete.Lib Crete.Lib.AdjList List

/-! ## 1. The calls -/

/-- `submit_executed`. -/
def TraceGraph.submitExecuted (tg : TraceGraph) (id : Id) : Except Stop TraceGraph := do
  ensure (tg.executed id ≠ none) .outOfRange
  return tg.mark id

/-- What makes a graph and its executed traces. -/
inductive GraphCall where
  | insert (t : Trace)
  | submitExecuted (id : Id)
  deriving DecidableEq, Repr

def GraphCall.perform (tg : TraceGraph) : GraphCall → Except Stop TraceGraph
  | .insert t => do
      let r ← tg.insert t
      return r.2
  | .submitExecuted id => tg.submitExecuted id

/-- One call after another. -/
def callAll : TraceGraph → List GraphCall → Except Stop TraceGraph
  | tg, [] => .ok tg
  | tg, c :: cs => do
      let tg ← c.perform tg
      callAll tg cs

/-- The traces inserted. -/
def insertedTraces (cs : List GraphCall) : List Trace :=
  cs.filterMap fun
    | .insert t => some t
    | .submitExecuted _ => none

/-- **Traces with one id are one trace.** -/
def Identified (ts : List Trace) : Prop := ∀ s ∈ ts, ∀ t ∈ ts, s.id = t.id → s = t
  deriving Decidable

/-! ## 2. What they leave -/

variable {tg : TraceGraph}

/-- The graph after the inserts of `seen`, whatever has been executed. -/
structure Called (seen : List Trace) (tg : TraceGraph) : Prop where
  built : tg = .empty ∨ (tg.graph = [] ∧ ∃ t ∈ tg.traces, t.blocks = []) ∨ ∃ r, GraphInv r tg
  traces : ∀ t ∈ tg.traces, t ∈ seen

theorem called_empty : Called [] .empty := ⟨.inl rfl, forall_mem_nil _⟩

theorem Called.mono {seen seen' : List Trace} (h : Called seen tg)
    (hsub : ∀ t ∈ seen, t ∈ seen') : Called seen' tg :=
  ⟨h.built, fun t ht => hsub t (h.traces t ht)⟩

/-- Without empty traces, the graph has no vertex only before the first insert. -/
theorem Called.built_of_ne {seen : List Trace} (h : Called seen tg)
    (hne : ∀ t ∈ seen, t.blocks ≠ []) : tg = .empty ∨ ∃ r, GraphInv r tg := by
  rcases h.built with e | ⟨-, t, ht, hb⟩ | hg
  · exact .inl e
  · exact absurd hb (hne t (h.traces t ht))
  · exact .inr hg

/-- A trace is inserted below a root with its own first block, or not at all. -/
theorem first_block {r b : Block} {bs : List Block} {t : Trace}
    {x : Bool × TraceGraph} (hts : tg.traces ≠ [])
    (hr : keyAt VertexProperty.uniqueHash tg.graph 0 = some r) (hb : t.blocks = b :: bs)
    (hi : tg.insert t = .ok x) : b = r := by
  rw [TraceGraph.insert, if_neg hts] at hi
  obtain ⟨y, hm, -⟩ := bind_eq_ok.1 hi
  unfold TraceGraph.mergeTrace at hm
  split at hm
  · rename_i e
    rw [hb] at e
    cases e
  · rename_i e _
    rw [e] at hr
    cases hr
  · rename_i b' bs' root g' eb eg
    rw [hb] at eb
    cases eb
    rw [ensure_bind] at hm
    split at hm
    · rename_i hroot
      rw [eg] at hr
      exact hroot.trans (Option.some.inj hr)
    · cases hm

/-- Nothing is merged into a graph without vertices, and nothing of an empty trace. -/
theorem insert_nothing {t : Trace} (hts : tg.traces ≠ [])
    (h : t.blocks = [] ∨ tg.graph = []) : tg.insert t = .ok (false, tg) := by
  have hm : tg.mergeTrace t = .ok (false, tg) := by
    unfold TraceGraph.mergeTrace
    split
    · rfl
    · rfl
    · rename_i eb eg
      rcases h with e | e
      · rw [e] at eb
        cases eb
      · rw [e] at eg
        cases eg
  rw [TraceGraph.insert, if_neg hts, hm]
  rfl

/-- One insert. -/
theorem Called.insert {seen : List Trace} {t : Trace} {x : Bool × TraceGraph}
    (h : Called seen tg) (hids : ∀ s ∈ seen, s.id = t.id → s = t)
    (hi : tg.insert t = .ok x) : Called (seen ++ [t]) x.2 := by
  have hold : ∀ s ∈ seen, s ∈ seen ++ [t] := fun s hs => mem_append_left _ hs
  have hknown : ∀ s ∈ tg.traces, s.id = t.id → t.blocks <+: s.blocks := by
    intro s hs e
    obtain rfl := hids s (h.traces s hs) e
    exact prefix_rfl
  cases hb : t.blocks with
  | nil =>
    by_cases hts : tg.traces = []
    · -- the first trace is empty: a trace without vertices
      rw [TraceGraph.insert, if_pos hts, makeGraph, hb] at hi
      cases hi
      have hadd : TraceGraph.addTrace tg.traces t = [t] := by
        rw [hts]
        rfl
      refine ⟨.inr (.inl ⟨rfl, t, ?_, hb⟩), fun s hs => ?_⟩
      · show t ∈ TraceGraph.addTrace tg.traces t
        rw [hadd]
        exact mem_singleton_self t
      · have hs' : s ∈ TraceGraph.addTrace tg.traces t := hs
        rw [hadd] at hs'
        exact mem_append_right _ hs'
    · rw [insert_nothing hts (.inl hb)] at hi
      cases hi
      exact h.mono hold
  | cons b bs =>
    have hspec : Built b tg → Called (seen ++ [t]) x.2 := by
      intro hbuilt
      rcases insert_spec hbuilt hb hknown with ⟨-, hi'⟩ | ⟨-, tg', hi', hg⟩
      · cases hi.symm.trans hi'
        exact h.mono hold
      · cases hi.symm.trans hi'
        refine ⟨.inr (.inr ⟨b, hg.inv⟩), fun s hs => ?_⟩
        rw [hg.traces] at hs
        rcases mem_append.1 hs with hs | hs
        · exact mem_append_left _ (h.traces s (mem_filter.1 hs).1)
        · exact mem_append_right _ hs
    rcases h.built with e | ⟨hg, s, hs, -⟩ | ⟨r, hg⟩
    · exact hspec (.inl e)
    · rw [insert_nothing (ne_nil_of_mem hs) (.inr hg)] at hi
      cases hi
      exact h.mono hold
    · exact hspec (.inr (by rw [first_block hg.traces_ne_nil hg.spells.root hb hi]; exact hg))

/-- One executed trace. -/
theorem Called.submitExecuted {seen : List Trace} {tg tg' : TraceGraph} {id : Id}
    (h : Called seen tg) (hc : tg.submitExecuted id = .ok tg') : Called seen tg' := by
  rw [TraceGraph.submitExecuted, ensure_bind] at hc
  split at hc
  · rename_i hkey
    cases hc
    refine ⟨?_, h.traces⟩
    rcases h.built with e | hg | ⟨r, hg⟩
    · rw [e] at hkey
      exact absurd rfl hkey
    · exact .inr (.inl hg)
    · exact .inr (.inr ⟨r, hg.mark hkey⟩)
  · cases hc

/-- **The calls keep the graph built.** -/
theorem Called.callAll (cs : List GraphCall) : ∀ {seen : List Trace} {tg tg' : TraceGraph},
    Called seen tg → Identified (seen ++ insertedTraces cs) → callAll tg cs = .ok tg' →
    Called (seen ++ insertedTraces cs) tg' := by
  induction cs with
  | nil =>
    intro seen tg tg' h _ hc
    cases hc
    rw [show insertedTraces [] = [] from rfl, append_nil]
    exact h
  | cons c cs ih =>
    intro seen tg tg' h hids hc
    obtain ⟨tg₁, h₁, hrest⟩ := bind_eq_ok.1 hc
    cases c with
    | insert t =>
      obtain ⟨x, hi, hx⟩ := bind_eq_ok.1 h₁
      cases hx
      have hsplit : seen ++ insertedTraces (.insert t :: cs) =
          (seen ++ [t]) ++ insertedTraces cs := by
        rw [append_assoc]
        rfl
      rw [hsplit] at hids ⊢
      refine ih (h.insert (fun s hs e => ?_) hi) hids hrest
      exact hids s (mem_append_left _ (mem_append_left _ hs)) t
        (mem_append_left _ (mem_append_right _ (mem_singleton_self t))) e
    | submitExecuted id => exact ih (h.submitExecuted h₁) hids hrest

theorem callAll_called (cs : List GraphCall) (hids : Identified (insertedTraces cs))
    (hc : callAll .empty cs = .ok tg) : Called (insertedTraces cs) tg :=
  called_empty.callAll cs hids hc

end Crete.Traces
