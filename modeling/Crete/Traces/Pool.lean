/-
  File:      Crete/Traces/Pool.lean
  Subject:   The trace pool (lib/cluster/trace_pool.cpp over trace_analyzer.cpp): traces are
             inserted, and handed out one by one.

  * `Analyzer` -- the trace graph, the selector, and the registry of traces with blocks that were
    never executed.
  * `TracePool.insert`, `TracePool.next` -- the pool. Options that only print are left out.
-/
import Crete.Traces.Selector

namespace Crete.Traces

open Crete.Lib

variable {S : Type}

/-! ## 1. The analyzer -/

/-- What the pool runs in: the arithmetic of scores, the compression of traces, and the trace
    files by id. -/
structure Env (S : Type) where
  scoring : Scoring S
  compress : List Block → List Block
  files : Id → List Block

/-- `class TraceAnalyzer`; `weights` is 0 at blocks that are not in the map. -/
structure Analyzer (S : Type) where
  graph : TraceGraph
  selector : Selector S
  compressTraces : Bool
  unexecuted : List Trace
  weights : Block → Nat

/-- The trace as it is analysed: parsed, and compressed if so set. -/
def Env.stored (env : Env S) (compressTraces : Bool) (id : Id) : List Block :=
  if compressTraces then env.compress (env.files id) else env.files id

namespace Analyzer

/-- `contains_unexecuted`. -/
def containsUnexecuted (a : Analyzer S) (blocks : List Block) : Bool :=
  blocks.any fun b => a.weights b = 0

/-- `submit_to_unexecuted_block_registry`. -/
def submitToUnexecutedBlockRegistry (a : Analyzer S) (t : Trace) : Analyzer S :=
  if a.containsUnexecuted t.blocks then
    { a with unexecuted := TraceGraph.addTrace a.unexecuted t }
  else a

/-- `insert_trace`. -/
def insertTrace (env : Env S) (a : Analyzer S) (id : Id) (random : S) :
    Except Stop (Bool × Analyzer S) := do
  let t : Trace := ⟨id, env.stored a.compressTraces id⟩
  let r ← a.graph.insert t
  if r.1 then do
    let selector ← a.selector.submit env.scoring random t
    return (true, submitToUnexecutedBlockRegistry { a with graph := r.2, selector := selector } t)
  else return (false, { a with graph := r.2 })

/-- Erase traces from the registry; each must be there. -/
def eraseTraces : List Trace → List Trace → Except Stop (List Trace)
  | ts, [] => .ok ts
  | ts, t :: rest => do
      ensure (∃ s ∈ ts, s.id = t.id) (.assertion "it != ts.end()")
      eraseTraces (ts.eraseP fun s => s.id = t.id) rest

/-- `update_traces_with_unexecuted_blocks`. -/
def updateTracesWithUnexecutedBlocks (a : Analyzer S) : Except Stop (Analyzer S) := do
  let ts ← eraseTraces a.unexecuted (a.unexecuted.filter fun t => ¬ a.containsUnexecuted t.blocks)
  return { a with unexecuted := ts }

/-- `submit_executed`, with the trace parsed anew from its file. -/
def submitExecuted (env : Env S) (a : Analyzer S) (id : Id) : Except Stop (Analyzer S) := do
  ensure (a.graph.executed id ≠ none) .outOfRange
  updateTracesWithUnexecutedBlocks { a with
    graph := a.graph.mark id
    weights := fun b => a.weights b + (env.files id).count b }

variable [LinearOrder S]

/-- `next`. -/
def next (env : Env S) (a : Analyzer S) (n : Nat) : Except Stop (Option Id × Analyzer S) :=
  match a.selector with
  | .scored rule scores => do
      let r ← nextScored scores n
      return (r.1.map Trace.id, { a with selector := .scored rule r.2 })
  | .fifo queue =>
    .ok (queue.getLast?.map Trace.id, { a with selector := .fifo queue.dropLast })
  | .breadthFirstSearch => do
      let r ← nextBfs a.graph
      return (r.1, { a with graph := r.2 })
  | .recursiveDescent => do
      let o ← selectRoot (calculateLeastTreadedScore env.scoring) a.graph
      return (o, a)

end Analyzer

/-! ## 2. The pool -/

/-- The trace options that change what the pool does. -/
structure TraceOptions where
  filterTraces : Bool
  compress : Bool
  deriving DecidableEq, Repr

/-- `class TracePool`; `pending` is `next_`. -/
structure TracePool (S : Type) where
  options : TraceOptions
  analyzer : Analyzer S
  all : List Id
  allUnique : List Id
  pending : List Id

namespace TracePool

/-- A new pool. -/
def create (strat : SelectionStrategy) (options : TraceOptions) : TracePool S :=
  ⟨options, ⟨.empty, .create strat, options.compress, [], fun _ => 0⟩, [], [], []⟩

/-- `TracePool::insert`. -/
def insert (env : Env S) (p : TracePool S) (id : Id) (random : S) :
    Except Stop (Bool × TracePool S) := do
  let p := { p with all := p.all.insert id }
  if p.options.filterTraces then do
    let r ← p.analyzer.insertTrace env id random
    if r.1 then
      return (true, { p with
        analyzer := r.2
        allUnique := p.allUnique.insert id
        pending := p.pending.insert id })
    else return (false, { p with analyzer := r.2 })
  else return (false, p)

/-- Take a selected trace out of the pending ones and submit it as executed. -/
def take (env : Env S) (p : TracePool S) (id : Id) : Except Stop (TracePool S) := do
  ensure (id ∈ p.pending) (.assertion "it != next_.end()")
  let a ← p.analyzer.submitExecuted env id
  return { p with analyzer := a, pending := p.pending.erase id }

variable [LinearOrder S]

/-- `TracePool::next`. -/
def next (env : Env S) (p : TracePool S) (n : Nat) : Except Stop (Option Id × TracePool S) := do
  let r ← p.analyzer.next env n
  match r.1 with
  | none => return (none, { p with analyzer := r.2 })
  | some id => do
      let p ← take env { p with analyzer := r.2 } id
      return (some id, p)

/-- `count_next`. -/
def countNext (p : TracePool S) : Nat := p.pending.length

end TracePool

/-! ## 3. Runs -/

/-- A call: `insert` with the score a random selector would draw, or `next` with a random number. -/
inductive PoolCall (S : Type) where
  | insert (id : Id) (random : S)
  | next (n : Nat)

/-- What a call returns. -/
inductive PoolReply where
  | inserted (new : Bool)
  | selected (trace : Option Id)
  deriving DecidableEq, Repr

section Run

variable [LinearOrder S] (env : Env S)

/-- One call. -/
def callPool (p : TracePool S) : PoolCall S → Except Stop (PoolReply × TracePool S)
  | .insert id random => do
      let r ← p.insert env id random
      return (.inserted r.1, r.2)
  | .next n => do
      let r ← p.next env n
      return (.selected r.1, r.2)

/-- A sequence of calls. -/
def run (p : TracePool S) : List (PoolCall S) → Except Stop (List PoolReply × TracePool S)
  | [] => .ok ([], p)
  | c :: cs => do
      let r ← callPool env p c
      let rs ← run r.2 cs
      return (r.1 :: rs.1, rs.2)

/-- The condition `ok` on every call, in the state it is made in. -/
def Throughout (ok : TracePool S → PoolCall S → Prop) : TracePool S → List (PoolCall S) → Prop
  | _, [] => True
  | p, c :: cs => ok p c ∧ match callPool env p c with
    | .ok r => Throughout ok r.2 cs
    | .error _ => True

instance decidableThroughout (ok : TracePool S → PoolCall S → Prop) [∀ p c, Decidable (ok p c)] :
    ∀ p cs, Decidable (Throughout env ok p cs)
  | _, [] => inferInstanceAs (Decidable True)
  | p, c :: cs =>
    have : Decidable (match callPool env p c with
        | .ok r => Throughout env ok r.2 cs
        | .error _ => True) := by
      cases callPool env p c with
      | ok r => exact decidableThroughout ok r.2 cs
      | error e => exact inferInstanceAs (Decidable True)
    inferInstanceAs (Decidable (_ ∧ _))

end Run

/-- What the selector keeps. -/
def TracePool.held (p : TracePool S) : List Id := p.analyzer.selector.held

/-- The trace graph. -/
def TracePool.graph (p : TracePool S) : TraceGraph := p.analyzer.graph

/-- The ids inserted. -/
def insertedIds (cs : List (PoolCall S)) : List Id :=
  cs.filterMap fun
    | .insert id _ => some id
    | .next _ => none

/-- The ids returned by `next`. -/
def returnedIds (rs : List PoolReply) : List Id :=
  rs.filterMap fun
    | .selected o => o
    | .inserted _ => none

end Crete.Traces
