/-
  File:      Crete/Traces/Copy.lean
  Subject:   Copies of a trace analyzer (trace_analyzer.cpp, the copy constructor and operator=).

  A copy takes over the trace graph, the registry, the weights and the strategy. It gets a selector
  of its own from a factory of its own, so what it searches is its own graph; but the selector is a
  new one, and the option `compress_traces_` is not assigned at all.

  * `Heap`, `HeapOp` -- a program with two analyzers. The selector of an analyzer refers to a graph,
    which could be that of the other one.
  * `Faithful` -- in every sequence of calls on both, each answers as the original would alone.
  * **`copy_faithful_iff`** -- for every state reached: a copy is faithful exactly if no trace is
    kept in the selector and the option is the same, or nothing can be inserted any more.
-/
import Crete.Traces.Compress
import Crete.Traces.Strategy
import Mathlib.Data.Fintype.Pigeonhole

namespace Crete.Traces

open Crete.Lib Crete.Lib.AdjList List Option Function
open VertexProperty (uniqueHash)

variable {S : Type}

/-! ## 1. The calls on an analyzer -/

/-- What is called on an analyzer: `insert_trace` with the score a random selector would draw,
    `next` with a random number, `submit_executed`. -/
inductive AnalyzerCall (S : Type) where
  | insertTrace (id : Id) (random : S)
  | next (n : Nat)
  | submitExecuted (t : Trace)

/-- What is returned. -/
inductive AnalyzerReply where
  | inserted (new : Bool)
  | selected (trace : Option Trace)
  | submitted
  deriving DecidableEq, Repr

/-- `submit_executed`, with the blocks of the trace it is given. -/
def Analyzer.submitExecutedTrace (a : Analyzer S) (t : Trace) : Except Stop (Analyzer S) := do
  ensure (a.graph.executed t.id ≠ none) .outOfRange
  Analyzer.updateTracesWithUnexecutedBlocks { a with
    graph := a.graph.mark t.id
    weights := fun b => a.weights b + t.blocks.count b }

/-- `next_with_unexecuted_blocks`: the registry is ordered by ids. -/
def Analyzer.nextWithUnexecutedBlocks (a : Analyzer S) : Option Trace × Analyzer S :=
  match a.unexecuted.find? fun t => ∀ s ∈ a.unexecuted, t.id ≤ s.id with
  | none => (none, a)
  | some t => (some t, { a with unexecuted := a.unexecuted.eraseP fun s => s.id = t.id })

section Next

variable [LinearOrder S]

/-- `Selector::next`, with the graph the selector refers to. The two that search it return a trace
    without blocks. -/
def Selector.next (env : Env S) (tg : TraceGraph) (n : Nat) :
    Selector S → Except Stop (Option Trace × Selector S × TraceGraph)
  | .scored rule scores => do
      let r ← nextScored scores n
      return (r.1, .scored rule r.2, tg)
  | .fifo queue => .ok (queue.getLast?, .fifo queue.dropLast, tg)
  | .breadthFirstSearch => do
      let r ← nextBfs tg
      return (r.1.map fun id => ⟨id, []⟩, .breadthFirstSearch, r.2)
  | .recursiveDescent => do
      let o ← selectRoot (calculateLeastTreadedScore env.scoring) tg
      return (o.map fun id => ⟨id, []⟩, .recursiveDescent, tg)

/-- A call on an analyzer whose selector refers to its own graph. -/
def Analyzer.answer (env : Env S) (a : Analyzer S) :
    AnalyzerCall S → Except Stop (AnalyzerReply × Analyzer S)
  | .insertTrace id random => do
      let r ← a.insertTrace env id random
      return (.inserted r.1, r.2)
  | .next n => do
      let r ← a.selector.next env a.graph n
      return (.selected r.1, { a with selector := r.2.1, graph := r.2.2 })
  | .submitExecuted t => do
      let a ← a.submitExecutedTrace t
      return (.submitted, a)

/-- What an analyzer answers to one call after another; the last answer is a failure, or there is
    one for every call. -/
def Analyzer.answers (env : Env S) : Analyzer S → List (AnalyzerCall S) →
    List (Except Stop AnalyzerReply)
  | _, [] => []
  | a, c :: cs => match a.answer env c with
    | .ok r => .ok r.1 :: Analyzer.answers env r.2 cs
    | .error e => [.error e]

/-- The selection of the trace pool is this one, by ids. -/
theorem Analyzer.next_eq (env : Env S) (a : Analyzer S) (n : Nat) :
    a.next env n = (a.selector.next env a.graph n).map fun r =>
      (r.1.map Trace.id, { a with selector := r.2.1, graph := r.2.2 }) := by
  obtain ⟨graph, selector, compressTraces, unexecuted, weights⟩ := a
  have hid : ∀ o : Option Id, (o.map fun id => (⟨id, []⟩ : Trace)).map Trace.id = o := by
    intro o
    cases o <;> rfl
  cases selector with
  | scored rule scores =>
    simp only [Analyzer.next, Selector.next]
    cases nextScored scores n <;> rfl
  | fifo queue => rfl
  | breadthFirstSearch =>
    simp only [Analyzer.next, Selector.next]
    cases nextBfs graph with
    | error e => rfl
    | ok r => exact congrArg Except.ok (Prod.ext (hid r.1).symm rfl)
  | recursiveDescent =>
    simp only [Analyzer.next, Selector.next]
    cases selectRoot (calculateLeastTreadedScore env.scoring) graph with
    | error e => rfl
    | ok o => exact congrArg Except.ok (Prod.ext (hid o).symm rfl)

end Next

/-! ## 2. Two analyzers -/

/-- The analyzers of a program that copies one. -/
inductive Side where
  | original
  | copy
  deriving DecidableEq, Repr

def Side.other : Side → Side
  | .original => .copy
  | .copy => .original

/-- `class TraceAnalyzer`, with its references: `factoryThis` is what the selector factory has
    captured, `searched` the analyzer whose graph the selector refers to. -/
structure TraceAnalyzer (S : Type) extends Analyzer S where
  strat : SelectionStrategy
  factoryThis : Side
  searched : Side

namespace TraceAnalyzer

/-- `initialize_selector_factory`. -/
def initializeSelectorFactory (a : TraceAnalyzer S) (this : Side) : TraceAnalyzer S :=
  { a with factoryThis := this }

/-- `set`. -/
def set (a : TraceAnalyzer S) (strat : SelectionStrategy) : TraceAnalyzer S :=
  { a with strat := strat, selector := .create strat, searched := a.factoryThis }

/-- `set_selection_strategy`. -/
def setSelectionStrategy (a : TraceAnalyzer S) (strat : String) : Except String (TraceAnalyzer S) :=
  (Traces.setSelectionStrategy strat).map a.set

/-- The members before the body of a constructor; the strategy and the selector are not set. -/
def initial (this : Side) : TraceAnalyzer S :=
  ⟨⟨.empty, .create .bfs, false, [], fun _ => 0⟩, .bfs, this, this⟩

/-- `TraceAnalyzer(selection_strat)`. -/
def construct (this : Side) (strat : String) : Except String (TraceAnalyzer S) :=
  ((initial this).initializeSelectorFactory this).setSelectionStrategy strat

/-- `operator=`. -/
def assign (a : TraceAnalyzer S) (this : Side) (other : TraceAnalyzer S) : TraceAnalyzer S :=
  (initializeSelectorFactory { a with
    graph := other.graph
    unexecuted := other.unexecuted
    weights := other.weights
    strat := other.strat } this).set other.strat

/-- `TraceAnalyzer(other)`. -/
def copyConstruct (this : Side) (other : TraceAnalyzer S) : TraceAnalyzer S :=
  (initial this).assign this other

end TraceAnalyzer

/-- The analyzers that are there. -/
abbrev Heap (S : Type) := Side → Option (TraceAnalyzer S)

/-- What is done with an analyzer. -/
inductive HeapOp (S : Type) where
  | construct (strat : String)
  | copyConstruct
  | assign
  | setSelectionStrategy (strat : String)
  | set (strat : SelectionStrategy)
  | compressTraces (b : Bool)
  | nextWithUnexecutedBlocks
  | call (c : AnalyzerCall S)

namespace Heap

def modify (h : Heap S) (s : Side) (f : TraceAnalyzer S → TraceAnalyzer S) : Heap S :=
  update h s ((h s).map f)

/-- A new analyzer, copied from the other one. -/
def copyConstruct (h : Heap S) (s : Side) : Heap S :=
  match h s.other with
  | none => h
  | some b => update h s (some (.copyConstruct s b))

/-- The other analyzer is assigned to this one. -/
def assign (h : Heap S) (s : Side) : Heap S :=
  match h s.other with
  | none => h
  | some b => h.modify s fun a => a.assign s b

variable [LinearOrder S] (env : Env S)

/-- A call on `a`, the analyzer at `s`. The selector searches the graph it refers to. -/
def answer (h : Heap S) (s : Side) (a : TraceAnalyzer S) :
    AnalyzerCall S → Except Stop (AnalyzerReply × Heap S)
  | .next n => match h a.searched with
    | none => .error .badAccess
    | some b => do
        let r ← a.selector.next env b.graph n
        let h := update h s (some { a with selector := r.2.1 })
        return (.selected r.1, modify h a.searched fun b => { b with graph := r.2.2 })
  | c => do
      let r ← a.toAnalyzer.answer env c
      return (r.1, update h s (some { a with toAnalyzer := r.2 }))

/-- A call on the analyzer at `s`, if there is one. It is not used again after a failure. -/
def call (h : Heap S) (s : Side) (c : AnalyzerCall S) :
    Option (Except Stop AnalyzerReply) × Heap S :=
  match h s with
  | none => (none, h)
  | some a => match h.answer env s a c with
    | .ok r => (some (.ok r.1), r.2)
    | .error e => (some (.error e), update h s none)

/-- One operation. An exception of `set_selection_strategy` leaves all as it is. -/
def perform (h : Heap S) (s : Side) : HeapOp S → Heap S
  | .construct strat => match TraceAnalyzer.construct s strat with
    | .ok a => update h s (some a)
    | .error _ => h
  | .copyConstruct => h.copyConstruct s
  | .assign => h.assign s
  | .setSelectionStrategy strat => h.modify s fun a => match a.setSelectionStrategy strat with
    | .ok a => a
    | .error _ => a
  | .set strat => h.modify s fun a => a.set strat
  | .compressTraces b => h.modify s fun a => { a with compressTraces := b }
  | .nextWithUnexecutedBlocks => h.modify s fun a =>
    { a with toAnalyzer := a.toAnalyzer.nextWithUnexecutedBlocks.2 }
  | .call c => (h.call env s c).2

/-- What is answered to calls on both, in their order. -/
def observe : Heap S → List (Side × AnalyzerCall S) → List (Side × Except Stop AnalyzerReply)
  | _, [] => []
  | h, (s, c) :: cs =>
    let r := h.call env s c
    r.1.toList.map (Prod.mk s) ++ observe r.2 cs

end Heap

/-- **The heaps there are**: any operations on the two, whatever the trace files hold. -/
inductive Reached [LinearOrder S] : Heap S → Prop where
  | start : Reached fun _ => none
  | step {h : Heap S} (env : Env S) (s : Side) (op : HeapOp S) :
      Reached h → Reached (h.perform env s op)

/-- What belongs to one of the two. -/
def ofSide {α : Type} (s : Side) (l : List (Side × α)) : List α :=
  (l.filter (·.1 = s)).map Prod.snd

/-- **The copy is faithful**: in every sequence of calls on the original and the copy, either one
    answers its calls as the original answers them alone. -/
def Faithful [LinearOrder S] (sc : Scoring S) (comp : List Block → List Block) (h : Heap S) :
    Prop :=
  ∀ files cs s, ofSide s (h.observe ⟨sc, comp, files⟩ cs) =
    ofSide .original (h.observe ⟨sc, comp, files⟩ ((ofSide s cs).map (Prod.mk .original)))

/-! ## 3. Each analyzer on its own -/

section Own

variable [LinearOrder S] (env : Env S)

/-- Every selector refers to the graph of its own analyzer. -/
def Own (h : Heap S) : Prop := ∀ s a, h s = some a → a.searched = s

/-- A call answers from this analyzer alone, and changes no other. -/
theorem Heap.answer_own {h : Heap S} {s : Side} {a : TraceAnalyzer S} (ha : h s = some a)
    (hown : a.searched = s) (c : AnalyzerCall S) :
    h.answer env s a c = (a.toAnalyzer.answer env c).map fun r =>
      (r.1, update h s (some { a with toAnalyzer := r.2 })) := by
  cases c with
  | insertTrace id random =>
    simp only [Heap.answer]
    cases a.toAnalyzer.answer env (.insertTrace id random) <;> rfl
  | submitExecuted t =>
    simp only [Heap.answer]
    cases a.toAnalyzer.answer env (.submitExecuted t) <;> rfl
  | next n =>
    simp only [Heap.answer, Analyzer.answer, hown, ha]
    cases a.selector.next env a.graph n with
    | error e => rfl
    | ok r =>
      refine congrArg (fun h' => Except.ok (AnalyzerReply.selected r.1, h')) ?_
      rw [Heap.modify, update_self, update_idem]
      rfl

omit [LinearOrder S] in
/-- What holds of all analyzers, and of the one that comes in, holds of all then. -/
theorem Heap.forall_update {P : Side → TraceAnalyzer S → Prop} {h : Heap S}
    (hall : ∀ s a, h s = some a → P s a) {s : Side} {o : Option (TraceAnalyzer S)}
    (ho : ∀ a, o = some a → P s a) : ∀ u a, update h s o u = some a → P u a := by
  intro u a hu
  by_cases e : u = s
  · subst e
    rw [update_self] at hu
    exact ho a hu
  · rw [update_of_ne e] at hu
    exact hall u a hu

omit [LinearOrder S] in
theorem ofSide_append {α : Type} (s : Side) (l l' : List (Side × α)) :
    ofSide s (l ++ l') = ofSide s l ++ ofSide s l' := by
  rw [ofSide, filter_append, map_append]
  rfl

omit [LinearOrder S] in
theorem ofSide_cons_self {α : Type} (s : Side) (x : α) (l : List (Side × α)) :
    ofSide s ((s, x) :: l) = x :: ofSide s l := by
  simp [ofSide]

omit [LinearOrder S] in
theorem ofSide_cons_ne {α : Type} {s u : Side} (h : u ≠ s) (x : α) (l : List (Side × α)) :
    ofSide s ((u, x) :: l) = ofSide s l := by
  simp [ofSide, h]

/-- What an analyzer that may not be there answers. -/
def answersOf (o : Option (TraceAnalyzer S)) (cs : List (AnalyzerCall S)) :
    List (Except Stop AnalyzerReply) :=
  match o with
  | none => []
  | some a => a.toAnalyzer.answers env cs

/-- One call: who is asked answers and goes on alone, the other one does not notice. -/
theorem Heap.call_own {h : Heap S} (hown : Own h) (s : Side) (c : AnalyzerCall S) :
    ∃ o, (h.call env s c).2 = update h s o ∧ (∀ a, o = some a → a.searched = s) ∧
      ∀ cs, (h.call env s c).1.toList ++ answersOf env o cs = answersOf env (h s) (c :: cs) := by
  rw [Heap.call]
  cases ha : h s with
  | none =>
    refine ⟨none, ?_, fun a e => (by cases e), fun cs => rfl⟩
    show h = _
    rw [← ha, update_eq_self]
  | some a =>
    have hs := hown s a ha
    simp only [Heap.answer_own env ha hs]
    cases hr : a.toAnalyzer.answer env c with
    | error e =>
      refine ⟨none, rfl, fun a e => (by cases e), fun cs => ?_⟩
      simp only [answersOf, Analyzer.answers, hr]
      rfl
    | ok r =>
      refine ⟨some { a with toAnalyzer := r.2 }, rfl, fun b e => ?_, fun cs => ?_⟩
      · cases e
        exact hs
      · simp only [answersOf, Analyzer.answers, hr]
        rfl

/-- **What an analyzer is asked, it answers alone.** -/
theorem observe_own (cs : List (Side × AnalyzerCall S)) : ∀ {h : Heap S}, Own h → ∀ s,
    ofSide s (h.observe env cs) = answersOf env (h s) (ofSide s cs) := by
  induction cs with
  | nil =>
    intro h _ s
    cases hs : h s <;> rfl
  | cons p cs ih =>
    intro h hown s
    obtain ⟨u, c⟩ := p
    obtain ⟨o, hh, ho, hans⟩ := Heap.call_own env hown u c
    rw [Heap.observe, ofSide_append, hh, ih (Heap.forall_update hown ho)]
    by_cases e : u = s
    · subst e
      rw [update_self, ofSide_cons_self, ← hans]
      cases (h.call env u c).1 with
      | none => rfl
      | some r =>
        show ofSide u [(u, r)] ++ _ = _
        rw [ofSide_cons_self]
        rfl
    · rw [update_of_ne (fun e' => e e'.symm), ofSide_cons_ne e]
      cases (h.call env u c).1 with
      | none => rfl
      | some r =>
        show ofSide s [(u, r)] ++ _ = _
        rw [ofSide_cons_ne e]
        rfl

/-- **A copy that refers to its own graph is faithful exactly if alone it answers as the original
    does alone.** -/
theorem faithful_iff_answers {sc : Scoring S} {comp : List Block → List Block} {h : Heap S}
    (hown : Own h) {a b : TraceAnalyzer S} (ha : h .original = some a) (hb : h .copy = some b) :
    Faithful sc comp h ↔ ∀ files cs, b.toAnalyzer.answers ⟨sc, comp, files⟩ cs =
      a.toAnalyzer.answers ⟨sc, comp, files⟩ cs := by
  have hmap : ∀ (s : Side) (cs : List (AnalyzerCall S)), ofSide s (cs.map (Prod.mk s)) = cs := by
    intro s cs
    induction cs with
    | nil => rfl
    | cons c cs ih => rw [map_cons, ofSide_cons_self, ih]
  constructor
  · intro hf files cs
    have hcopy := hf files (cs.map (Prod.mk .copy)) .copy
    rw [observe_own _ _ hown, observe_own _ _ hown, hmap, hmap, ha, hb] at hcopy
    exact hcopy
  · intro hab files cs s
    rw [observe_own _ _ hown, observe_own _ _ hown, hmap, ha]
    cases s with
    | original => rw [ha]
    | copy =>
      rw [hb]
      exact hab files (ofSide .copy cs)

end Own

/-! ## 4. Trace graphs, whatever is inserted -/

section Rooted

variable {tg : TraceGraph} {t : Trace} {x : Bool × TraceGraph} {r : Block} {bs : List Block}

/-- A trie; and where it is one vertex only, the trace of this vertex is there. Ids need not be
    unique: one trace can be inserted compressed and uncompressed. -/
def Rooted (tg : TraceGraph) : Prop :=
  tg.graph ≠ [] → IsTrie uniqueHash tg.graph ∧
    (outEdges tg.graph 0 = [] → ∃ id, idAt tg.graph 0 = some id ∧
      (∃ t ∈ tg.traces, t.id = id) ∧ tg.executed id ≠ none)

/-- An empty trace was inserted first: nothing is inserted any more. -/
def Dead (tg : TraceGraph) : Prop := tg.traces ≠ [] ∧ tg.graph = []
  deriving Decidable

theorem rooted_empty : Rooted .empty := fun h => absurd rfl h

theorem Rooted.mark (h : Rooted tg) (id : Id) : Rooted (tg.mark id) := by
  intro hne
  obtain ⟨htrie, hleaf⟩ := h hne
  refine ⟨htrie, fun ho => ?_⟩
  obtain ⟨i, hi, hts, hex⟩ := hleaf ho
  refine ⟨i, hi, hts, ?_⟩
  show (if i = id then some true else tg.executed i) ≠ none
  split
  · exact some_ne_none _
  · exact hex

theorem length_mergeFrom (id : Id) (rest : List Block) : ∀ (g : Graph) (d : Nat),
    (mergeFrom id g d rest).length = g.length + rest.length := by
  induction rest with
  | nil => exact fun g d => rfl
  | cons b bs ih =>
    intro g d
    rw [mergeFrom, ih, length_addChild, length_cons]
    omega

/-- The first trace makes the graph. -/
theorem insert_into_none (hts : tg.traces = []) :
    tg.insert t = .ok (true, ⟨makeGraph t, [t], insertKey tg.executed t.id false⟩) := by
  rw [TraceGraph.insert, if_pos hts, hts]
  rfl

theorem insertKey_ne_none (m : Id → Option Bool) (id : Id) (b : Bool) :
    insertKey m id b id ≠ none := by
  rw [insertKey]
  split
  · exact some_ne_none _
  · rename_i h
    exact fun e => h ⟨rfl, e⟩

/-- **What an insert leaves that was not refused**: the trace is in the graph. -/
structure Carries (r : Block) (bs : List Block) (n : Nat) (tg : TraceGraph) : Prop where
  rooted : Rooted tg
  root : keyAt uniqueHash tg.graph 0 = some r
  traces : tg.traces ≠ []
  reached : ∃ w, reach tg.graph bs = some w
  length : tg.graph.length ≤ n + bs.length + 1

theorem carries_first (id : Id) (r : Block) (bs : List Block) (n : Nat)
    (m : Id → Option Bool) : Carries r bs n
      ⟨makeGraph ⟨id, r :: bs⟩, [⟨id, r :: bs⟩], insertKey m id false⟩ := by
  have hs := spells_single id r bs
  refine ⟨fun _ => ⟨hs.trie, fun ho => ?_⟩, hs.root, cons_ne_nil _ _, ?_, ?_⟩
  · have hzero : reach (makeGraph ⟨id, r :: bs⟩) [] = some 0 := rfl
    obtain ⟨s, hm, -, hid⟩ := hs.leaf_id hzero ho
    obtain rfl := mem_singleton.1 hm
    exact ⟨id, hid, ⟨_, hm, rfl⟩, insertKey_ne_none m id false⟩
  · obtain ⟨p, w, hb, hw, -⟩ := hs.stored _ (mem_singleton_self _)
    cases hb
    exact ⟨w, hw⟩
  · show (makeGraph ⟨id, r :: bs⟩).length ≤ _
    rw [makeGraph_eq, length_mergeFrom, length_singleton]
    omega

/-- A merged trace is in the graph; ids of other vertices may have changed before. -/
theorem carries_merged {g : Graph} (htrie : IsTrie uniqueHash tg.graph)
    (hlen : g.length = tg.graph.length) (hout : ∀ v, outEdges g v = outEdges tg.graph v)
    (hkey : ∀ v, keyAt uniqueHash g v = keyAt uniqueHash tg.graph v)
    (hroot : keyAt uniqueHash tg.graph 0 = some r) {q rest : List Block} {d : Nat}
    (hq : reach tg.graph q = some d) (hrest : rest ≠ [])
    (hfresh : ∀ b ∈ rest.head?, child uniqueHash tg.graph d b = none)
    (ts : List Trace) (ex : Id → Option Bool) (hts : ts ≠ []) (id : Id) :
    Carries r (q ++ rest) tg.graph.length ⟨mergeFrom id g d rest, ts, ex⟩ := by
  have hpos : 0 < g.length := by
    rw [hlen]
    refine Nat.pos_of_ne_zero fun e => ?_
    rw [length_eq_zero_iff.1 e] at hroot
    cases hroot
  have hwalk : ∀ p, reach g p = reach tg.graph p := fun p =>
    walk_congr uniqueHash hout hkey p 0
  have hx : Extends id g (mergeFrom id g d rest) q rest := by
    refine mergeFrom_extends rest (htrie.congr hlen hout hkey) hpos ((hwalk q).trans hq) ?_
    exact fun b hb => (child_congr _ hout hkey d b).trans (hfresh b hb)
  have hbranch : outEdges (mergeFrom id g d rest) 0 ≠ [] := by
    intro ho
    obtain ⟨-, -, hiff⟩ := hx.old [] 0 rfl
    obtain ⟨ho, hq'⟩ := hiff.1 ho
    cases q with
    | nil => exact hrest (hq' rfl)
    | cons b q =>
      obtain ⟨c, hc, -⟩ := bind_eq_some_iff.1 hq
      have := (mem_of_child _ hc).1
      rw [← hout, ho] at this
      cases this
  refine ⟨fun _ => ⟨hx.trie, fun ho => absurd ho hbranch⟩, ?_, hts, ?_, ?_⟩
  · exact (hx.root.trans (hkey 0)).trans hroot
  · obtain ⟨w, hw, -⟩ := hx.new rest hrest prefix_rfl
    exact ⟨w, hw⟩
  · show (mergeFrom id g d rest).length ≤ _
    rw [length_mergeFrom, hlen, length_append]
    omega

theorem Rooted.trie (h : Rooted tg) (hroot : keyAt uniqueHash tg.graph 0 = some r) :
    IsTrie uniqueHash tg.graph := by
  refine (h fun e => ?_).1
  rw [e] at hroot
  cases hroot

theorem addTrace_ne_nil (ts : List Trace) (t : Trace) : TraceGraph.addTrace ts t ≠ [] := by
  rw [TraceGraph.addTrace]
  split
  · rename_i h
    obtain ⟨s, hs, -⟩ := h
    exact ne_nil_of_mem hs
  · exact append_ne_nil_of_right_ne_nil _ (cons_ne_nil _ _)

/-- A leaf is given up if its trace is there, and only then. -/
theorem supersede_eq_ok {id : Id} {d : Nat} {path : List Nat} {tg₁ : TraceGraph} :
    tg.supersede id d path = .ok tg₁ ↔ ∃ prev, idAt tg.graph d = some prev ∧
      ((∃ t ∈ tg.traces, t.id = prev) ∧ tg.executed prev ≠ none) ∧
      tg₁ = ⟨backInsert id prev tg.graph path.reverse, tg.traces.eraseP fun t => t.id = prev,
        fun i => if i = prev then none else tg.executed i⟩ := by
  rw [TraceGraph.supersede]
  cases idAt tg.graph d with
  | none => simp
  | some prev =>
    show TraceGraph.remove _ prev = .ok tg₁ ↔ _
    rw [TraceGraph.remove, ensure_bind_eq_ok, ensure_bind_eq_ok]
    constructor
    · intro h
      obtain ⟨hm, hex, e⟩ := h
      cases e
      exact ⟨prev, rfl, ⟨hm, hex⟩, rfl⟩
    · intro h
      obtain ⟨p, e, ⟨hm, hex⟩, rfl⟩ := h
      cases e
      exact ⟨hm, hex, rfl⟩

/-- **All that an insert into a graph with vertices can do**, if it does not fail: the trace is in
    the graph, or its rest becomes a branch. -/
theorem insert_rooted_inv (h : Rooted tg) (hts : tg.traces ≠ []) (hg : tg.graph ≠ [])
    (hb : t.blocks = r :: bs) (hi : tg.insert t = .ok x) :
    keyAt uniqueHash tg.graph 0 = some r ∧ (x = (false, tg) ∧ (∃ w, reach tg.graph bs = some w) ∨
        x.1 = true ∧ Carries r bs tg.graph.length x.2) := by
  obtain ⟨r', hroot⟩ := keyAt_isSome uniqueHash (length_pos_of_ne_nil hg)
  obtain rfl := first_block hts hroot hb hi
  refine ⟨hroot, ?_⟩
  obtain ⟨q, rest, d, rfl, hd, hfresh, hf⟩ := find_spec tg.graph bs 0 []
  rw [insert_eq hts hroot hb hf] at hi
  split at hi
  · rename_i hrest
    cases hi
    rw [hrest, append_nil]
    exact .inl ⟨rfl, d, hd⟩
  rename_i hrest
  refine .inr ?_
  split at hi
  · obtain ⟨tg₁, hs, hi⟩ := bind_eq_ok.1 hi
    cases hi
    obtain ⟨prev, -, -, rfl⟩ := supersede_eq_ok.1 hs
    obtain ⟨hlen, hout, hkey⟩ := backInsert_frame t.id prev
      ([] ++ along uniqueHash tg.graph 0 q).reverse tg.graph
    exact ⟨rfl, carries_merged (h.trie hroot) hlen hout hkey hroot hd hrest hfresh _ _
      (addTrace_ne_nil _ t) t.id⟩
  · cases hi
    exact ⟨rfl, carries_merged (h.trie hroot) rfl (fun _ => rfl) (fun _ => rfl) hroot hd hrest
      hfresh _ _ (addTrace_ne_nil _ t) t.id⟩

/-- **An insert that is not refused puts the trace into the graph.** -/
theorem insert_carries (h : Rooted tg) (halive : ¬ Dead tg) (hb : t.blocks = r :: bs)
    {tg' : TraceGraph} (hi : tg.insert t = .ok (true, tg')) :
    Carries r bs tg.graph.length tg' := by
  by_cases hts : tg.traces = []
  · rw [insert_into_none hts] at hi
    obtain ⟨id, blocks⟩ := t
    cases hb
    cases hi
    exact carries_first id r bs _ _
  · obtain ⟨-, ⟨e, -⟩ | ⟨-, hc⟩⟩ := insert_rooted_inv h hts (fun e => halive ⟨hts, e⟩) hb hi
    · cases e
    · exact hc

/-- **A trace the graph has is refused.** -/
theorem insert_refused (hts : tg.traces ≠ [])
    (hroot : keyAt uniqueHash tg.graph 0 = some r) (hb : t.blocks = r :: bs)
    {w : Nat} (hw : reach tg.graph bs = some w) : tg.insert t = .ok (false, tg) := by
  obtain ⟨q, rest, d, rfl, hd, hfresh, hf⟩ := find_spec tg.graph bs 0 []
  rw [insert_eq hts hroot hb hf]
  cases rest with
  | nil => exact if_pos rfl
  | cons b rest =>
    rw [reach, walk_append, hd, bind_some, walk, hfresh b rfl] at hw
    cases hw

/-- **A trace longer than all of the graph is not refused.** -/
theorem insert_long (h : Rooted tg) (halive : ¬ Dead tg) (hb : t.blocks = r :: bs)
    (hlong : tg.graph.length ≤ bs.length) (tg' : TraceGraph) : tg.insert t ≠ .ok (false, tg') := by
  intro hi
  by_cases hts : tg.traces = []
  · rw [insert_into_none hts] at hi
    cases hi
  have hg : tg.graph ≠ [] := fun e => halive ⟨hts, e⟩
  obtain ⟨hroot, ⟨-, w, hw⟩ | ⟨e, -⟩⟩ := insert_rooted_inv h hts hg hb hi
  · have h1 := (h.trie hroot).walk_add_le bs hw
    have h2 := (h.trie hroot).walk_lt bs (length_pos_of_ne_nil hg) hw
    omega
  · cases e

/-- **A trace of two blocks can be inserted.** -/
theorem insert_short {b : Block} (h : Rooted tg)
    (hroot : tg.traces ≠ [] → keyAt uniqueHash tg.graph 0 = some r)
    (hb : t.blocks = [r, b]) : ∃ x, tg.insert t = .ok x := by
  by_cases hts : tg.traces = []
  · exact ⟨_, insert_into_none hts⟩
  have hroot := hroot hts
  obtain ⟨q, rest, d, hq, hd, -, hf⟩ := find_spec tg.graph [b] 0 []
  rw [insert_eq hts hroot hb hf]
  by_cases hrest : rest = []
  · exact ⟨_, if_pos hrest⟩
  rw [if_neg hrest]
  by_cases ho : outEdges tg.graph d = []
  · -- the trace leaves the graph at its root, whose trace is there
    have hnil : q = [] := by
      have hlen := congrArg List.length hq
      rw [length_append, length_singleton] at hlen
      have := length_pos_of_ne_nil hrest
      exact length_eq_zero_iff.1 (by omega)
    subst hnil
    cases hd
    have hne : tg.graph ≠ [] := fun e => by
      rw [e] at hroot
      cases hroot
    obtain ⟨id, hid, hm⟩ := (h hne).2 ho
    rw [if_pos ho, supersede_eq_ok.2 ⟨id, hid, hm, rfl⟩]
    exact ⟨_, rfl⟩
  · rw [if_neg ho]
    exact ⟨_, rfl⟩

end Rooted

/-! ## 5. What calls keep -/

/-- The strategy a selector is for. -/
def Selector.strategy : Selector S → SelectionStrategy
  | .scored .weightGroup _ => .exp1
  | .scored .random _ => .random
  | .scored .leastTreaded _ => .weighted
  | .fifo _ => .fifo
  | .breadthFirstSearch => .bfs
  | .recursiveDescent => .exp2

theorem strategy_create (strat : SelectionStrategy) :
    (Selector.create strat : Selector S).strategy = strat := by
  cases strat <;> rfl

/-- **A selector that keeps nothing is as good as new.** -/
theorem eq_create_of_held {s : Selector S} (h : s.held = []) : s = .create s.strategy := by
  cases s with
  | scored rule scores =>
    obtain rfl := map_eq_nil_iff.1 h
    cases rule <;> rfl
  | fifo queue =>
    obtain rfl := map_eq_nil_iff.1 h
    rfl
  | breadthFirstSearch | recursiveDescent => rfl

theorem submit_strategy {sc : Scoring S} {random : S} {s s' : Selector S} {t : Trace}
    (h : s.submit sc random t = .ok s') : s'.strategy = s.strategy := by
  cases s with
  | scored rule scores =>
    obtain ⟨_, -, rfl⟩ := map_eq_ok.1 h
    cases rule <;> rfl
  | fifo queue | breadthFirstSearch | recursiveDescent =>
    cases h
    rfl

/-- What a call keeps of an analyzer. -/
structure Continues (a b : Analyzer S) : Prop where
  strategy : b.selector.strategy = a.selector.strategy
  compressTraces : b.compressTraces = a.compressTraces
  rooted : Rooted a.graph → Rooted b.graph

/-- **An insert**: the graph takes the trace and the selector gets it, or it is refused. -/
theorem insertTrace_eq_ok {env : Env S} {a a' : Analyzer S} {id : Id} {random : S} {new : Bool} :
    a.insertTrace env id random = .ok (new, a') ↔ ∃ tg,
      a.graph.insert ⟨id, env.stored a.compressTraces id⟩ = .ok (new, tg) ∧
      (new = false ∧ a' = { a with graph := tg } ∨ new = true ∧ ∃ selector,
        a.selector.submit env.scoring random ⟨id, env.stored a.compressTraces id⟩ = .ok selector ∧
        a' = Analyzer.submitToUnexecutedBlockRegistry { a with graph := tg, selector := selector }
          ⟨id, env.stored a.compressTraces id⟩) := by
  rw [Analyzer.insertTrace]
  constructor
  · intro h
    obtain ⟨⟨b, tg⟩, hi, h⟩ := bind_eq_ok.1 h
    cases b with
    | false =>
      cases h
      exact ⟨tg, hi, .inl ⟨rfl, rfl⟩⟩
    | true =>
      obtain ⟨selector, hs, h⟩ := bind_eq_ok.1 h
      cases h
      exact ⟨tg, hi, .inr ⟨rfl, selector, hs, rfl⟩⟩
  · intro h
    obtain ⟨tg, hi, ⟨rfl, rfl⟩ | ⟨rfl, selector, hs, rfl⟩⟩ := h
    · rw [hi]
      rfl
    · rw [hi, ok_bind, if_pos rfl, hs]
      rfl

theorem insert_rooted {tg : TraceGraph} {t : Trace} {x : Bool × TraceGraph} (h : Rooted tg)
    (hi : tg.insert t = .ok x) : Rooted x.2 := by
  by_cases hts : tg.traces = []
  · rw [insert_into_none hts] at hi
    cases hi
    obtain ⟨id, blocks⟩ := t
    cases blocks with
    | nil => exact fun e => absurd rfl e
    | cons r bs => exact (carries_first id r bs 0 tg.executed).rooted
  cases hb : t.blocks with
  | nil =>
    rw [insert_nothing hts (.inl hb)] at hi
    cases hi
    exact h
  | cons r bs =>
    by_cases hg : tg.graph = []
    · rw [insert_nothing hts (.inr hg)] at hi
      cases hi
      exact h
    · obtain ⟨-, ⟨rfl, -⟩ | ⟨-, hc⟩⟩ := insert_rooted_inv h hts hg hb hi
      · exact h
      · exact hc.rooted

theorem nextBfs_graph {tg : TraceGraph} {r : Option Id × TraceGraph} (h : nextBfs tg = .ok r) :
    r.2 = tg ∨ ∃ id, r.2 = tg.mark id := by
  rw [nextBfs] at h
  split at h
  · cases h
    exact .inl rfl
  · split at h
    · cases h
      exact .inl rfl
    · cases h
      exact .inr ⟨_, rfl⟩
    · cases h

section Answer

variable [LinearOrder S] {env : Env S} {a : Analyzer S}

/-- **A selection** keeps the strategy, and changes no more of the graph than one mark. -/
theorem selectorNext_keeps {tg : TraceGraph} {n : Nat} {s : Selector S}
    {r : Option Trace × Selector S × TraceGraph} (hn : s.next env tg n = .ok r) :
    r.2.1.strategy = s.strategy ∧ (r.2.2 = tg ∨ ∃ id, r.2.2 = tg.mark id) := by
  cases s with
  | scored rule scores =>
    obtain ⟨x, -, e⟩ := bind_eq_ok.1 hn
    cases e
    cases rule <;> exact ⟨rfl, .inl rfl⟩
  | fifo queue =>
    cases hn
    exact ⟨rfl, .inl rfl⟩
  | breadthFirstSearch =>
    obtain ⟨x, hx, e⟩ := bind_eq_ok.1 hn
    cases e
    exact ⟨rfl, nextBfs_graph hx⟩
  | recursiveDescent =>
    obtain ⟨x, -, e⟩ := bind_eq_ok.1 hn
    cases e
    exact ⟨rfl, .inl rfl⟩

/-- **A call keeps the strategy, the option, and the graph a trie.** -/
theorem answer_continues {c : AnalyzerCall S} {r : AnalyzerReply × Analyzer S}
    (h : a.answer env c = .ok r) : Continues a r.2 := by
  cases c with
  | insertTrace id random =>
    obtain ⟨⟨new, a'⟩, hi, e⟩ := bind_eq_ok.1 h
    cases e
    obtain ⟨tg, htg, ⟨-, rfl⟩ | ⟨-, selector, hs, rfl⟩⟩ := insertTrace_eq_ok.1 hi
    · exact ⟨rfl, rfl, fun hr => insert_rooted hr htg⟩
    · obtain ⟨hgraph, hsel, hcomp⟩ := registry_frame { a with graph := tg, selector := selector }
        ⟨id, env.stored a.compressTraces id⟩
      refine ⟨?_, hcomp, fun hr => ?_⟩
      · rw [hsel]
        exact submit_strategy hs
      · rw [hgraph]
        exact insert_rooted hr htg
  | next n =>
    obtain ⟨x, hx, e⟩ := bind_eq_ok.1 h
    cases e
    obtain ⟨hstrat, hgraph⟩ := selectorNext_keeps hx
    refine ⟨hstrat, rfl, fun hr => ?_⟩
    show Rooted x.2.2
    rcases hgraph with e | ⟨id, e⟩
    · rw [e]
      exact hr
    · rw [e]
      exact hr.mark id
  | submitExecuted t =>
    obtain ⟨a', ha, e⟩ := bind_eq_ok.1 h
    cases e
    obtain ⟨-, ha⟩ := ensure_bind_eq_ok.1 ha
    obtain ⟨ts, -, e⟩ := bind_eq_ok.1 ha
    cases e
    exact ⟨rfl, rfl, fun hr => hr.mark t.id⟩

end Answer

/-! ## 6. The analyzers there are -/

section Reach

variable [LinearOrder S]

variable {h : Heap S}

/-- **An analyzer as it should be**: factory and selector refer to itself, the selector is for its
    strategy, and the graph is a trie. -/
structure Intact (s : Side) (a : TraceAnalyzer S) : Prop where
  factory : a.factoryThis = s
  searched : a.searched = s
  strategy : a.selector.strategy = a.strat
  rooted : Rooted a.graph

omit [LinearOrder S] in
theorem Intact.set {s : Side} {a : TraceAnalyzer S} (h : Intact s a) (strat : SelectionStrategy) :
    Intact s (a.set strat) :=
  ⟨h.factory, h.factory, strategy_create strat, h.rooted⟩

omit [LinearOrder S] in
theorem Intact.setSelectionStrategy {s : Side} {a a' : TraceAnalyzer S} (h : Intact s a)
    {strat : String} (ha : a.setSelectionStrategy strat = .ok a') : Intact s a' := by
  obtain ⟨st, -, rfl⟩ := map_eq_ok.1 ha
  exact h.set st

omit [LinearOrder S] in
/-- Whatever is assigned to, it is as it should be afterwards. -/
theorem Intact.assign {s u : Side} {b : TraceAnalyzer S} (h : Intact u b) (a : TraceAnalyzer S) :
    Intact s (a.assign s b) :=
  ⟨rfl, rfl, strategy_create b.strat, h.rooted⟩

def AllIntact (h : Heap S) : Prop := ∀ s a, h s = some a → Intact s a

omit [LinearOrder S] in
theorem AllIntact.own (hi : AllIntact h) : Own h := fun s a ha => (hi s a ha).searched

omit [LinearOrder S] in
theorem AllIntact.update (hi : AllIntact h) {s : Side} {o : Option (TraceAnalyzer S)}
    (ho : ∀ a, o = some a → Intact s a) : AllIntact (update h s o) :=
  Heap.forall_update hi ho

omit [LinearOrder S] in
theorem AllIntact.modify (hi : AllIntact h) {s : Side}
    {f : TraceAnalyzer S → TraceAnalyzer S} (hf : ∀ a, Intact s a → Intact s (f a)) :
    AllIntact (h.modify s f) := by
  refine hi.update fun a ha => ?_
  obtain ⟨b, hb, rfl⟩ := map_eq_some_iff.1 ha
  exact hf b (hi s b hb)

/-- One operation. -/
theorem AllIntact.perform (hi : AllIntact h) (env : Env S) (s : Side)
    (op : HeapOp S) : AllIntact (h.perform env s op) := by
  cases op with
  | construct strat =>
    rw [Heap.perform]
    split
    · rename_i a ha
      refine hi.update fun b hb => ?_
      cases hb
      refine Intact.setSelectionStrategy ?_ ha
      exact ⟨rfl, rfl, rfl, rooted_empty⟩
    · exact hi
  | copyConstruct =>
    rw [Heap.perform, Heap.copyConstruct]
    split
    · exact hi
    · rename_i b hb
      refine hi.update fun a ha => ?_
      cases ha
      exact (hi _ b hb).assign _
  | assign =>
    rw [Heap.perform, Heap.assign]
    split
    · exact hi
    · rename_i b hb
      exact hi.modify fun a _ => (hi _ b hb).assign a
  | setSelectionStrategy strat =>
    refine hi.modify fun a ha => ?_
    split
    · rename_i a' ha'
      exact ha.setSelectionStrategy ha'
    · exact ha
  | set strat => exact hi.modify fun a ha => ha.set strat
  | compressTraces b =>
    exact hi.modify fun a ha => ⟨ha.factory, ha.searched, ha.strategy, ha.rooted⟩
  | nextWithUnexecutedBlocks =>
    refine hi.modify fun a ha => ?_
    have hsame : (a.toAnalyzer.nextWithUnexecutedBlocks.2).selector = a.selector ∧
        (a.toAnalyzer.nextWithUnexecutedBlocks.2).graph = a.graph := by
      rw [Analyzer.nextWithUnexecutedBlocks]
      split <;> exact ⟨rfl, rfl⟩
    refine ⟨ha.factory, ha.searched, ?_, ?_⟩
    · rw [hsame.1]
      exact ha.strategy
    · rw [hsame.2]
      exact ha.rooted
  | call c =>
    rw [Heap.perform, Heap.call]
    cases ha : h s with
    | none => exact hi
    | some a =>
      have hs := hi s a ha
      simp only [Heap.answer_own env ha hs.searched]
      cases hr : a.toAnalyzer.answer env c with
      | error e => exact hi.update fun b hb => (by cases hb)
      | ok r =>
        have hc := answer_continues hr
        refine hi.update fun b hb => ?_
        cases hb
        exact ⟨hs.factory, hs.searched, hc.strategy.trans hs.strategy, hc.rooted hs.rooted⟩

/-- **Every analyzer there is is as it should be.** -/
theorem Reached.intact (hr : Reached h) : AllIntact h := by
  induction hr with
  | start => exact fun s a ha => by cases ha
  | step env s op _ ih => exact ih.perform env s op

end Reach

/-! ## 7. What tells a copy from the original -/

section Apart

variable [LinearOrder S] (env : Env S) {a : Analyzer S}

/-- Selectors that keep traces return one; new ones return none. -/
theorem next_of_held {s : Selector S} (h : s.held ≠ []) (tg : TraceGraph) (n : Nat) :
    (∃ t s', s.next env tg n = .ok (some t, s', tg)) ∧
      ∃ s', (Selector.create s.strategy).next env tg n = .ok (none, s', tg) := by
  cases s with
  | scored rule scores =>
    have hne : scores ≠ [] := fun e => h (by rw [e]; rfl)
    obtain ⟨p, -, -, hn⟩ := nextScored_pick hne n
    refine ⟨⟨p.1, _, by rw [Selector.next, hn]; rfl⟩, ?_⟩
    cases rule <;> exact ⟨_, rfl⟩
  | fifo queue =>
    have hne : queue ≠ [] := fun e => h (by rw [e]; rfl)
    refine ⟨⟨queue.getLast hne, .fifo queue.dropLast, ?_⟩, _, rfl⟩
    rw [Selector.next, getLast?_eq_getLast_of_ne_nil hne]
  | breadthFirstSearch | recursiveDescent => exact absurd rfl h

/-- What `submit_executed` erases from the registry. -/
def erasable (weights : Block → Nat) (ts : List Trace) : List Trace :=
  ts.filter fun t => ¬ (t.blocks.any fun b => weights b = 0)

omit [LinearOrder S] in
theorem submitExecutedTrace_eq (a : Analyzer S) (t : Trace) : a.submitExecutedTrace t =
    if a.graph.executed t.id ≠ none then
      (Analyzer.eraseTraces a.unexecuted
        (erasable (fun b => a.weights b + t.blocks.count b) a.unexecuted)).map fun ts => { a with
          graph := a.graph.mark t.id
          weights := fun b => a.weights b + t.blocks.count b
          unexecuted := ts }
    else .error .outOfRange := by
  rw [Analyzer.submitExecutedTrace, ensure_bind]
  split
  · rfl
  · rfl

/-- A graph without vertices stays so, whether traces are compressed or not. -/
theorem answer_of_dead (hd : Dead a.graph) (b : Bool) (c : AnalyzerCall S) :
    { a with compressTraces := b }.answer env c = (a.answer env c).map (fun r =>
        (r.1, { r.2 with compressTraces := b })) ∧
      ∀ r, a.answer env c = .ok r → Dead r.2.graph := by
  cases c with
  | insertTrace id random =>
    have hno : ∀ t, a.graph.insert t = .ok (false, a.graph) := fun t =>
      insert_nothing hd.1 (.inr hd.2)
    simp only [Analyzer.answer, Analyzer.insertTrace, hno, ok_bind]
    refine ⟨rfl, fun r hr => ?_⟩
    cases hr
    exact hd
  | next n =>
    simp only [Analyzer.answer]
    cases hn : a.selector.next env a.graph n with
    | error e => exact ⟨rfl, fun r hr => (by cases hr)⟩
    | ok x =>
      refine ⟨rfl, fun r hr => ?_⟩
      cases hr
      show Dead x.2.2
      rcases (selectorNext_keeps hn).2 with e | ⟨id, e⟩
      · rw [e]
        exact hd
      · rw [e]
        exact hd
  | submitExecuted t =>
    simp only [Analyzer.answer, submitExecutedTrace_eq]
    split
    · generalize Analyzer.eraseTraces a.unexecuted _ = erased
      cases erased with
      | error e => exact ⟨rfl, fun r hr => (by cases hr)⟩
      | ok ts =>
        refine ⟨rfl, fun r hr => ?_⟩
        cases hr
        exact hd
    · exact ⟨rfl, fun r hr => (by cases hr)⟩

theorem answers_of_dead (b : Bool) (cs : List (AnalyzerCall S)) : ∀ {a : Analyzer S},
    Dead a.graph → { a with compressTraces := b }.answers env cs = a.answers env cs := by
  induction cs with
  | nil => exact fun _ => rfl
  | cons c cs ih =>
    intro a hd
    obtain ⟨heq, hdead⟩ := answer_of_dead env hd b c
    rw [Analyzer.answers, Analyzer.answers, heq]
    cases hr : a.answer env c with
    | error e => rfl
    | ok r => exact congrArg (List.cons (Except.ok r.1)) (ih (hdead r hr))

/-- Of the constant traces there are two, the one much longer than the other, that are compressed
    to the same. -/
theorem exists_alike (hash : List Block → Block) (r : Block) (n : Nat) : ∃ m m',
    n + 2 ≤ m ∧ m + n + 2 ≤ m' ∧ hash (replicate m r) = hash (replicate m' r) := by
  have hfin : Finite Block := Finite.of_injective UInt64.toFin fun x y => UInt64.toFin_inj.1
  obtain ⟨i, j, hne, he⟩ := Finite.exists_ne_map_eq_of_infinite
    fun k => hash (replicate ((k + 1) * (n + 2)) r)
  have hstep : ∀ i j, i < j → n + 2 ≤ (i + 1) * (n + 2) ∧
      (i + 1) * (n + 2) + n + 2 ≤ (j + 1) * (n + 2) := by
    intro i j hij
    have h1 : 1 * (n + 2) ≤ (i + 1) * (n + 2) := Nat.mul_le_mul_right _ (by omega)
    have h2 : (i + 1 + 1) * (n + 2) ≤ (j + 1) * (n + 2) := Nat.mul_le_mul_right _ (by omega)
    rw [Nat.add_mul (i + 1) 1] at h2
    omega
  rcases Nat.lt_or_gt_of_ne hne with hij | hij
  · exact ⟨_, _, (hstep i j hij).1, (hstep i j hij).2, he⟩
  · exact ⟨_, _, (hstep j i hij).1, (hstep j i hij).2, he.symm⟩

omit [LinearOrder S] in
/-- A trace that the graph takes and that has blocks gets to a selector that keeps nothing. -/
theorem insertTrace_accepted {id : Id} {x : S} {tg : TraceGraph}
    (hi : a.graph.insert ⟨id, env.stored a.compressTraces id⟩ = .ok (true, tg))
    (hb : env.stored a.compressTraces id ≠ []) (hheld : a.selector.held = []) :
    ∃ a', a.insertTrace env id x = .ok (true, a') ∧ a'.graph = tg ∧
      a'.compressTraces = a.compressTraces := by
  obtain ⟨s, hs, -⟩ := submit_spec env.scoring x a.selector
    (t := ⟨id, env.stored a.compressTraces id⟩) hb (by rw [hheld]; exact not_mem_nil)
  obtain ⟨hgraph, -, hcomp⟩ := registry_frame { a with graph := tg, selector := s }
    ⟨id, env.stored a.compressTraces id⟩
  exact ⟨_, insertTrace_eq_ok.2 ⟨tg, hi, .inr ⟨rfl, s, hs, rfl⟩⟩, hgraph, hcomp⟩

omit [LinearOrder S] in
theorem insertTrace_inv {env : Env S} {a' : Analyzer S} {id : Id} {x : S} {new : Bool}
    (h : a.insertTrace env id x = .ok (new, a')) :
    a.graph.insert ⟨id, env.stored a.compressTraces id⟩ = .ok (new, a'.graph) ∧
      a'.compressTraces = a.compressTraces := by
  obtain ⟨tg, hi, ⟨-, rfl⟩ | ⟨-, s, -, rfl⟩⟩ := insertTrace_eq_ok.1 h
  · exact ⟨hi, rfl⟩
  · obtain ⟨hgraph, -, hcomp⟩ := registry_frame { a with graph := tg, selector := s }
      ⟨id, env.stored a.compressTraces id⟩
    rw [hgraph]
    exact ⟨hi, hcomp⟩

theorem answers_insert {id : Id} {x : S} {new : Bool} {a' : Analyzer S}
    (h : a.insertTrace env id x = .ok (new, a')) (cs : List (AnalyzerCall S)) :
    a.answers env (.insertTrace id x :: cs) = .ok (.inserted new) :: a'.answers env cs := by
  rw [Analyzer.answers, Analyzer.answer, h]
  rfl

/-- Two inserts of what is stored as the same two blocks: one of them is refused. -/
theorem refused_of_alike {id id' : Id} {x : S} {r b : Block} (hroot : Rooted a.graph)
    (halive : ¬ Dead a.graph) (hr : a.graph.traces ≠ [] → keyAt uniqueHash a.graph.graph 0 = some r)
    (hheld : a.selector.held = []) (h : env.stored a.compressTraces id = [r, b])
    (h' : env.stored a.compressTraces id' = [r, b]) :
    .ok (.inserted false) ∈ a.answers env [.insertTrace id x, .insertTrace id' x] := by
  obtain ⟨⟨new, tg⟩, hi⟩ := insert_short hroot hr
    (show (⟨id, env.stored a.compressTraces id⟩ : Trace).blocks = [r, b] from h)
  cases new with
  | false =>
    have ha : a.insertTrace env id x = .ok (false, { a with graph := tg }) :=
      insertTrace_eq_ok.2 ⟨tg, hi, .inl ⟨rfl, rfl⟩⟩
    rw [answers_insert env ha]
    exact (.head _)
  | true =>
    obtain ⟨a', ha, hgraph, hcomp⟩ := insertTrace_accepted env hi
      (by rw [h]; exact cons_ne_nil _ _) hheld
    obtain ⟨-, hroot', hts, ⟨w, hw⟩, -⟩ := insert_carries hroot halive h hi
    have ha' : a'.insertTrace env id' x = .ok (false, { a' with graph := tg }) := by
      refine insertTrace_eq_ok.2 ⟨tg, ?_, .inl ⟨rfl, rfl⟩⟩
      rw [hcomp, h', hgraph]
      exact insert_refused hts hroot' rfl hw
    rw [answers_insert env ha, answers_insert env ha']
    exact .tail _ (.head _)

/-- If the first of the answers is a refusal, the trace is refused. -/
theorem mem_answers_insert {id : Id} {x : S} {cs : List (AnalyzerCall S)}
    (h : .ok (.inserted false) ∈ a.answers env (.insertTrace id x :: cs)) :
    ∃ new a', a.insertTrace env id x = .ok (new, a') ∧
      (new = false ∨ .ok (.inserted false) ∈ a'.answers env cs) := by
  cases hi : a.insertTrace env id x with
  | error e =>
    rw [Analyzer.answers, Analyzer.answer, hi] at h
    have := mem_singleton.1 h
    cases this
  | ok y =>
    obtain ⟨new, a'⟩ := y
    refine ⟨new, a', rfl, ?_⟩
    rw [answers_insert env hi] at h
    rcases mem_cons.1 h with e | h
    · cases e
      exact .inl rfl
    · exact .inr h

/-- Two inserts of ever longer traces: neither is refused. -/
theorem not_refused_of_long {id id' : Id} {x : S} {r : Block} {bs bs' : List Block}
    (hroot : Rooted a.graph) (halive : ¬ Dead a.graph)
    (h : env.stored a.compressTraces id = r :: bs) (h' : env.stored a.compressTraces id' = r :: bs')
    (hlen : a.graph.graph.length ≤ bs.length)
    (hlen' : a.graph.graph.length + bs.length + 1 ≤ bs'.length) :
    .ok (.inserted false) ∉ a.answers env [.insertTrace id x, .insertTrace id' x] := by
  intro hm
  obtain ⟨new, a', ha, hm⟩ := mem_answers_insert env hm
  obtain ⟨hi, hcomp⟩ := insertTrace_inv ha
  cases new with
  | false => exact insert_long hroot halive h hlen _ hi
  | true =>
    obtain ⟨new', a'', ha', hm⟩ := mem_answers_insert env (hm.resolve_left fun e => (by cases e))
    obtain ⟨hi', -⟩ := insertTrace_inv ha'
    have hc := insert_carries hroot halive h hi
    have halive' : ¬ Dead a'.graph := by
      intro hd
      have := hc.root
      rw [hd.2] at this
      cases this
    rcases hm with rfl | hm
    · rw [hcomp] at hi'
      exact insert_long hc.rooted halive' h' (Nat.le_trans hc.length hlen') _ hi'
    · cases hm

/-- **Whether traces are compressed shows**, unless nothing can be inserted: of two long constant
    traces the second is refused if both are compressed to the same. -/
theorem compression_shows {hash : List Block → Block} {comp : List Block → List Block}
    (hc : Compresses hash comp) (sc : Scoring S) (hroot : Rooted a.graph)
    (hheld : a.selector.held = []) (halive : ¬ Dead a.graph) : ∃ files cs,
      { a with compressTraces := true }.answers ⟨sc, comp, files⟩ cs ≠
        { a with compressTraces := false }.answers ⟨sc, comp, files⟩ cs := by
  obtain ⟨r, hr⟩ : ∃ r, a.graph.traces ≠ [] → keyAt uniqueHash a.graph.graph 0 = some r := by
    by_cases hg : a.graph.graph = []
    · exact ⟨0, fun hts => absurd ⟨hts, hg⟩ halive⟩
    · obtain ⟨r, hr⟩ := keyAt_isSome uniqueHash (length_pos_of_ne_nil hg)
      exact ⟨r, fun _ => hr⟩
  obtain ⟨m, m', hm, hm', hash_eq⟩ := exists_alike hash r a.graph.graph.length
  let env : Env S := ⟨sc, comp, fun id =>
    if id = [] then r :: replicate m r else r :: replicate m' r⟩
  refine ⟨env.files, [.insertTrace [] (sc.ofCount 0), .insertTrace [0] (sc.ofCount 0)], fun e => ?_⟩
  have hrefused : .ok (.inserted false) ∈ { a with compressTraces := true }.answers env
      [.insertTrace [] (sc.ofCount 0), .insertTrace [0] (sc.ofCount 0)] := by
    refine refused_of_alike env hroot halive hr hheld (b := hash (replicate m r)) ?_ ?_
    · exact hc.constant r r (by omega)
    · rw [hash_eq]
      exact hc.constant r r (by omega)
  have hfirst : env.stored false [] = r :: replicate m r := rfl
  have hsecond : env.stored false [0] = r :: replicate m' r := rfl
  refine not_refused_of_long env (a := { a with compressTraces := false }) hroot halive hfirst
    hsecond ?_ ?_ (e ▸ hrefused)
  · rw [length_replicate]
    show a.graph.graph.length ≤ m
    omega
  · rw [length_replicate, length_replicate]
    show a.graph.graph.length + m + 1 ≤ m'
    omega

end Apart

/-! ## 8. Faithful copies -/

section Copies

/-- With nothing in the selector, a copy differs in the option at most. -/
theorem assign_of_held {s u : Side} {a : TraceAnalyzer S} (hi : Intact u a)
    (hheld : a.selector.held = []) (t : TraceAnalyzer S) :
    (t.assign s a).toAnalyzer = { a.toAnalyzer with compressTraces := t.compressTraces } := by
  have hsel : Selector.create a.strat = a.selector := by
    rw [← hi.strategy]
    exact (eq_create_of_held hheld).symm
  show (⟨a.graph, .create a.strat, t.compressTraces, a.unexecuted, a.weights⟩ : Analyzer S) = _
  rw [hsel]

variable [LinearOrder S]

/-- A trace in the selector shows: the original returns it. -/
theorem kept_trace_shows (env : Env S) {a b : Analyzer S} (hne : a.selector.held ≠ [])
    (hsel : b.selector = .create a.selector.strategy) (hgraph : b.graph = a.graph) :
    b.answers env [.next 0] ≠ a.answers env [.next 0] := by
  obtain ⟨⟨t, s, hn⟩, s', hn'⟩ := next_of_held env hne a.graph 0
  simp only [Analyzer.answers, Analyzer.answer, hsel, hgraph, hn, hn', ok_bind]
  intro e
  cases e

/-- **An assigned copy**: what the target was before matters for the option only. -/
theorem assign_faithful_iff {hash : List Block → Block} {comp : List Block → List Block}
    (hc : Compresses hash comp) (sc : Scoring S) {h : Heap S} (hi : AllIntact h)
    {a : TraceAnalyzer S} (ha : h .original = some a) (t : TraceAnalyzer S) :
    Faithful sc comp (update h .copy (some (t.assign .copy a))) ↔
      a.selector.held = [] ∧ (t.compressTraces = a.compressTraces ∨ Dead a.graph) := by
  have hint := hi .original a ha
  have hown : Own (update h .copy (some (t.assign .copy a))) := by
    refine (hi.update fun b hb => ?_).own
    cases hb
    exact hint.assign t
  have ha' : update h .copy (some (t.assign .copy a)) .original = some a := by
    rw [update_of_ne (by decide)]
    exact ha
  rw [faithful_iff_answers hown ha' (update_self _ _ _)]
  constructor
  · intro hall
    have hheld : a.selector.held = [] := by
      by_contra hne
      have hsel : (t.assign .copy a).selector = .create a.selector.strategy := by
        rw [hint.strategy]
        rfl
      exact kept_trace_shows ⟨sc, comp, fun _ => []⟩ hne hsel rfl (hall _ [.next 0])
    refine ⟨hheld, ?_⟩
    by_contra hcon
    obtain ⟨hflag, halive⟩ := not_or.1 hcon
    obtain ⟨files, cs, hne⟩ := compression_shows hc sc hint.rooted hheld halive
    have heq := hall files cs
    rw [assign_of_held hint hheld] at heq
    -- one of the two compresses, the other one does not
    cases hb : a.compressTraces with
    | true =>
      have ht : t.compressTraces = false := by
        rw [hb] at hflag
        exact Bool.eq_false_of_not_eq_true hflag
      have hself : { a.toAnalyzer with compressTraces := true } = a.toAnalyzer := by rw [← hb]
      rw [ht, ← hself] at heq
      exact hne heq.symm
    | false =>
      have ht : t.compressTraces = true := by
        rw [hb] at hflag
        exact Bool.eq_true_of_not_eq_false hflag
      have hself : { a.toAnalyzer with compressTraces := false } = a.toAnalyzer := by rw [← hb]
      rw [ht, ← hself] at heq
      exact hne heq
  · intro hcond files cs
    obtain ⟨hheld, hflag⟩ := hcond
    rw [assign_of_held hint hheld]
    rcases hflag with e | hd
    · rw [e]
    · exact answers_of_dead _ _ cs hd

/-- **When copies are faithful.** For every state of the original that operations lead to, every
    compression that `compress` can be, and every scoring: a constructed copy is faithful exactly if
    the selector of the original keeps no trace and traces are not compressed, or nothing can be
    inserted any more; an assigned one exactly if the selector keeps no trace and the target has the
    same option as the original, or nothing can be inserted any more. -/
theorem copy_faithful_iff {hash : List Block → Block} {comp : List Block → List Block}
    (hc : Compresses hash comp) (sc : Scoring S) {h : Heap S} (hr : Reached h)
    {a : TraceAnalyzer S} (ha : h .original = some a) :
    (Faithful sc comp (h.copyConstruct .copy) ↔
      a.selector.held = [] ∧ (a.compressTraces = false ∨ Dead a.graph)) ∧
    ∀ t, h .copy = some t → (Faithful sc comp (h.assign .copy) ↔
      a.selector.held = [] ∧ (t.compressTraces = a.compressTraces ∨ Dead a.graph)) := by
  constructor
  · have hcopy : h.copyConstruct .copy =
        update h .copy (some ((TraceAnalyzer.initial .copy).assign .copy a)) := by
      rw [Heap.copyConstruct, Side.other, ha]
      rfl
    rw [hcopy, assign_faithful_iff hc sc hr.intact ha, eq_comm (b := a.compressTraces)]
    rfl
  · intro t ht
    have hcopy : h.assign .copy = update h .copy (some (t.assign .copy a)) := by
      rw [Heap.assign, Side.other, ha]
      show h.modify .copy _ = _
      rw [Heap.modify, ht]
      rfl
    rw [hcopy, assign_faithful_iff hc sc hr.intact ha]

end Copies

/-- One operation after another. -/
def performAll [LinearOrder S] (env : Env S) (h : Heap S) : List (Side × HeapOp S) → Heap S :=
  foldl (fun h p => h.perform env p.1 p.2) h

theorem Reached.performAll [LinearOrder S] (env : Env S) (ops : List (Side × HeapOp S)) :
    ∀ {h : Heap S}, Reached h → Reached (performAll env h ops) := by
  induction ops with
  | nil => exact fun hr => hr
  | cons p ops ih => exact fun hr => ih (.step env p.1 p.2 hr)

/-- Scores as natural numbers, traces compressed with a constant hash. -/
def compressingEnv (files : Id → List Block) : Env Nat where
  scoring := ⟨id, fun a b => a / b⟩
  compress bs := match compress (fun _ => 5) 9 newestFirst bs with
    | some (.ok out) => out
    | _ => bs
  files := files

/-- A breadth-first analyzer with one trace, and a second one. -/
def bfsHeap : Heap Nat :=
  performAll (compressingEnv fun _ => [7, 8]) (fun _ => none)
    [(.original, .construct "bfs"), (.original, .call (.insertTrace [1] 0)),
      (.copy, .construct "random")]

/-- Both a constructed copy of the first one and the second one, once assigned, are faithful. -/
theorem copy_faithful_bfs : ∃ comp, Compresses (fun _ => 5) comp ∧
    Faithful ⟨id, fun a b => a / b⟩ comp (bfsHeap.copyConstruct .copy) ∧
    Faithful ⟨id, fun a b => a / b⟩ comp (bfsHeap.assign .copy) := by
  obtain ⟨comp, hc, -⟩ := exists_compresses (fun _ : List Block => 5)
  have hr : Reached bfsHeap := Reached.start.performAll _ _
  have hiff := copy_faithful_iff hc ⟨id, fun a b => a / b⟩ hr rfl
  exact ⟨comp, hc, hiff.1.2 ⟨rfl, .inl rfl⟩, (hiff.2 _ rfl).2 ⟨rfl, .inl rfl⟩⟩

/-- A copy forgets the trace that the original has still to return; and it does not compress traces
    although the original does, which shows in what it returns. -/
theorem copy_slips : ((performAll (compressingEnv fun _ => [7, 8]) (fun _ => none)
        [(.original, .construct "weighted"), (.original, .call (.insertTrace [1] 0))]).copyConstruct
          .copy).observe (compressingEnv fun _ => [7, 8]) [(.original, .next 0), (.copy, .next 0)] =
      [(.original, .ok (.selected (some ⟨[1], [7, 8]⟩))), (.copy, .ok (.selected none))] ∧
    ((performAll (compressingEnv fun _ => [7, 8, 8]) (fun _ => none)
        [(.original, .construct "random"), (.original, .compressTraces true)]).copyConstruct
          .copy).observe (compressingEnv fun _ => [7, 8, 8])
        [(.original, .insertTrace [1] 0), (.original, .next 0), (.copy, .insertTrace [1] 0),
          (.copy, .next 0)] =
      [(.original, .ok (.inserted true)), (.original, .ok (.selected (some ⟨[1], [7, 5]⟩))),
        (.copy, .ok (.inserted true)), (.copy, .ok (.selected (some ⟨[1], [7, 8, 8]⟩)))] := by
  decide +kernel

end Crete.Traces
