/-
  File:      Crete/Traces/Selector.lean
  Subject:   Which trace is next: the selectors of lib/trace-analyzer/selector.cpp, and the two
             that search the graph (next_bfs and select_by_recursive_score of trace_graph.cpp).

  A score is a `double`: its arithmetic is a parameter (`Scoring`), its order that of the type.
  Random numbers are arguments.

  * `nextBfs` -- the search skips vertices with one child and ends at the first id not executed.
  * `selectByRecursiveScore` -- always down the branch with the lowest score first; of branches
    with equal scores only the first is kept.
  * **`nextBfs_spec`**, **`selectRoot_spec`** -- what they return on a graph built by inserts.
-/
import Crete.Lib.Search
import Crete.Traces.Kept

namespace Crete.Traces

open Crete.Lib Crete.Lib.AdjList List Option
open VertexProperty (uniqueHash)

/-! ## 1. Scores -/

/-- Arithmetic of scores: a count as a score, and a quotient of counts. -/
structure Scoring (S : Type) where
  ofCount : Nat → S
  quotient : Nat → Nat → S

/-- One more block in the table of frequencies. -/
def addBlock : List (Block × Nat) → Block → List (Block × Nat)
  | [], b => [(b, 1)]
  | (c, n) :: ws, b => if c = b then (c, n + 1) :: ws else (c, n) :: addBlock ws b

/-- `weigh_blocks_by_frequency`. -/
def weighBlocksByFrequency (blocks : List Block) : List (Block × Nat) := blocks.foldl addBlock []

variable {S : Type}

/-- `calculate_weight_group_score`. -/
def calculateWeightGroupScore (sc : Scoring S) (blocks : List Block) : S :=
  let weights := (weighBlocksByFrequency blocks).filter fun w => ¬ w.2 < 2
  sc.ofCount (weights.map Prod.snd).sum

/-- `calculate_least_treaded_score`. -/
def calculateLeastTreadedScore (sc : Scoring S) (blocks : List Block) : Except Stop S := do
  let weights := weighBlocksByFrequency blocks
  let sum := (blocks.map fun b => (weights.lookup b).getD 0).sum
  ensure (blocks.length > 0) (.assertion "blocks.size() > 0")
  return sc.quotient sum blocks.length

theorem calculateLeastTreadedScore_ok (sc : Scoring S) {blocks : List Block} (h : blocks ≠ []) :
    ∃ s, calculateLeastTreadedScore sc blocks = .ok s := by
  have hpos : blocks.length > 0 := length_pos_of_ne_nil h
  refine ⟨sc.quotient ((blocks.map fun b => ((weighBlocksByFrequency blocks).lookup b).getD 0).sum)
    blocks.length, ?_⟩
  rw [calculateLeastTreadedScore, ensure_bind, if_pos hpos]
  rfl

/-! ## 2. The selectors that keep the traces themselves -/

variable {scores : List (Trace × S)}

/-- `enum SelectionStrategy`. -/
inductive SelectionStrategy where
  | bfs
  | exp1
  | exp2
  | random
  | weighted
  | fifo
  deriving DecidableEq, Repr

/-- `calculate_score` of the scored selectors. -/
inductive ScoreRule where
  | weightGroup
  | random
  | leastTreaded
  deriving DecidableEq, Repr

/-- The selectors: the scored ones with `trace_scores_`, the FIFO one with `trace_queue_` (front
    first), and the two that search the graph and keep nothing. -/
inductive Selector (S : Type) where
  | scored (rule : ScoreRule) (scores : List (Trace × S))
  | fifo (queue : List Trace)
  | breadthFirstSearch
  | recursiveDescent

/-- The score of a trace; `random` is what a random selector draws. -/
def calculateScore (sc : Scoring S) (random : S) (blocks : List Block) : ScoreRule → Except Stop S
  | .weightGroup => .ok (calculateWeightGroupScore sc blocks)
  | .random => .ok random
  | .leastTreaded => calculateLeastTreadedScore sc blocks

/-- The traces with the lowest score. -/
def lowest [LinearOrder S] (scores : List (Trace × S)) : List Trace :=
  (scores.filter fun p => ∀ q ∈ scores, p.2 ≤ q.2).map Prod.fst

/-- `Selector::next`; `n` is the random number. -/
def nextScored [LinearOrder S] (scores : List (Trace × S)) (n : Nat) :
    Except Stop (Option Trace × List (Trace × S)) :=
  if scores = [] then .ok (none, scores)
  else match (lowest scores)[n % (lowest scores).length]? with
    | none => .error (.assertion "selection_range.first != selection_range.second")
    | some t => .ok (some t, scores.eraseP fun p => p.1.id = t.id)

/-- `submit`, on `trace_scores_`. -/
def submitScored (sc : Scoring S) (rule : ScoreRule) (random : S) (scores : List (Trace × S))
    (t : Trace) : Except Stop (List (Trace × S)) := do
  let score ← calculateScore sc random t.blocks rule
  ensure (∀ p ∈ scores, p.1.id ≠ t.id) (.assertion "success")
  return scores ++ [(t, score)]

namespace Selector

/-- The selector of a strategy. -/
def create : SelectionStrategy → Selector S
  | .bfs => .breadthFirstSearch
  | .exp1 => .scored .weightGroup []
  | .exp2 => .recursiveDescent
  | .random => .scored .random []
  | .weighted => .scored .leastTreaded []
  | .fifo => .fifo []

/-- `submit`. -/
def submit (sc : Scoring S) (random : S) : Selector S → Trace → Except Stop (Selector S)
  | .scored rule scores, t => (submitScored sc rule random scores t).map (.scored rule)
  | .fifo queue, t => .ok (.fifo (t :: queue))
  | .breadthFirstSearch, _ => .ok .breadthFirstSearch
  | .recursiveDescent, _ => .ok .recursiveDescent

/-- The ids a selector keeps. -/
def held : Selector S → List Id
  | .scored _ scores => scores.map (·.1.id)
  | .fifo queue => queue.map Trace.id
  | .breadthFirstSearch => []
  | .recursiveDescent => []

/-- The selector looks for the next trace in the graph. -/
def searchesGraph : Selector S → Bool
  | .scored _ _ => false
  | .fifo _ => false
  | .breadthFirstSearch => true
  | .recursiveDescent => true

/-- The selector searches the graph by recursive descent. -/
def descends : Selector S → Bool
  | .recursiveDescent => true
  | _ => false

end Selector

/-- A submitted trace is kept by the selectors that keep traces. -/
theorem submit_spec (sc : Scoring S) (random : S) (s : Selector S) {t : Trace}
    (hb : t.blocks ≠ []) (hnew : t.id ∉ s.held) :
    ∃ s', s.submit sc random t = .ok s' ∧ s'.searchesGraph = s.searchesGraph ∧
      s'.descends = s.descends ∧ (s.searchesGraph = true → s' = s) ∧
      (s.searchesGraph = false → s'.held.Perm (t.id :: s.held)) := by
  cases s with
  | scored rule scores =>
    have hscore : ∃ score, calculateScore sc random t.blocks rule = .ok score := by
      cases rule with
      | weightGroup | random => exact ⟨_, rfl⟩
      | leastTreaded => exact calculateLeastTreadedScore_ok sc hb
    obtain ⟨score, hs⟩ := hscore
    have hfresh : ∀ p ∈ scores, p.1.id ≠ t.id := fun p hp e =>
      hnew (mem_map.2 ⟨p, hp, e⟩)
    refine ⟨.scored rule (scores ++ [(t, score)]), ?_, rfl, rfl, fun e => (by cases e), fun _ => ?_⟩
    · rw [Selector.submit, submitScored, hs, ok_bind, ensure_bind, if_pos hfresh]
      rfl
    · show ((scores ++ [(t, score)]).map fun p => p.1.id).Perm _
      rw [map_append]
      exact perm_append_singleton _ _
  | fifo queue => exact ⟨_, rfl, rfl, rfl, fun e => (by cases e), fun _ => List.Perm.refl _⟩
  | breadthFirstSearch | recursiveDescent =>
    exact ⟨_, rfl, rfl, rfl, fun _ => rfl, fun e => (by cases e)⟩

/-- There is a lowest score. -/
theorem lowest_ne_nil [LinearOrder S] (h : scores ≠ []) : lowest scores ≠ [] := by
  have hmin : ∃ p ∈ scores, ∀ q ∈ scores, p.2 ≤ q.2 := by
    induction scores with
    | nil => exact absurd rfl h
    | cons p ps ih =>
      by_cases hps : ps = []
      · subst hps
        refine ⟨p, .head _, fun q hq => ?_⟩
        rw [mem_singleton.1 hq]
      · obtain ⟨m, hm, hle⟩ := ih hps
        rcases le_total p.2 m.2 with hpm | hmp
        · refine ⟨p, .head _, fun q hq => ?_⟩
          rcases mem_cons.1 hq with rfl | hq
          · exact le_refl _
          · exact le_trans hpm (hle q hq)
        · refine ⟨m, mem_cons_of_mem _ hm, fun q hq => ?_⟩
          rcases mem_cons.1 hq with rfl | hq
          · exact hmp
          · exact hle q hq
  obtain ⟨p, hp, hle⟩ := hmin
  refine ne_nil_of_mem (a := p.1) (mem_map.2 ⟨p, mem_filter.2 ⟨hp, ?_⟩, rfl⟩)
  exact decide_eq_true hle

/-- **Scored selection picks a trace with the lowest score** and forgets it. -/
theorem nextScored_pick [LinearOrder S] (h : scores ≠ []) (n : Nat) :
    ∃ p ∈ scores, (∀ q ∈ scores, p.2 ≤ q.2) ∧
      nextScored scores n = .ok (some p.1, scores.eraseP fun q => q.1.id = p.1.id) := by
  have hlt : n % (lowest scores).length < (lowest scores).length :=
    Nat.mod_lt _ (length_pos_of_ne_nil (lowest_ne_nil h))
  obtain ⟨p, hp, e⟩ := mem_map.1 (getElem_mem hlt)
  obtain ⟨hmem, hle⟩ := mem_filter.1 hp
  refine ⟨p, hmem, of_decide_eq_true hle, ?_⟩
  rw [nextScored, if_neg h, getElem?_eq_getElem hlt, e]

/-- Every trace with the lowest score is picked at some random number. -/
theorem nextScored_any [LinearOrder S] {p : Trace × S}
    (hp : p ∈ scores) (hle : ∀ q ∈ scores, p.2 ≤ q.2) : ∃ n,
      nextScored scores n = .ok (some p.1, scores.eraseP fun q => q.1.id = p.1.id) := by
  have hlow : p.1 ∈ lowest scores :=
    mem_map.2 ⟨p, mem_filter.2 ⟨hp, decide_eq_true hle⟩, rfl⟩
  obtain ⟨n, hn, e⟩ := getElem_of_mem hlow
  refine ⟨n, ?_⟩
  rw [nextScored, if_neg (ne_nil_of_mem hp), Nat.mod_eq_of_lt hn, getElem?_eq_getElem hn, e]

/-- What is forgotten is one trace with that id. -/
theorem perm_eraseP_id {p : Trace × S} (h : p ∈ scores) : ∃ q ∈ scores, q.1.id = p.1.id ∧
      scores.Perm (q :: scores.eraseP fun q => q.1.id = p.1.id) := by
  obtain ⟨q, l₁, l₂, -, hq, hl, her⟩ := exists_of_eraseP (p := fun q => q.1.id = p.1.id)
    h (decide_eq_true rfl)
  refine ⟨q, by rw [hl]; exact mem_append_right _ (.head _), of_decide_eq_true hq, ?_⟩
  rw [her, hl]
  exact perm_middle

/-- Scored selection returns a kept trace and forgets it; it returns none only if it keeps
    none. -/
theorem nextScored_spec [LinearOrder S] (scores : List (Trace × S)) (n : Nat) :
    nextScored scores n = .ok (none, scores) ∧ scores = [] ∨
      ∃ t scores', nextScored scores n = .ok (some t, scores') ∧
        (scores.map (·.1.id)).Perm (t.id :: scores'.map (·.1.id)) := by
  by_cases h : scores = []
  · exact .inl ⟨if_pos h, h⟩
  · obtain ⟨p, hp, -, hn⟩ := nextScored_pick h n
    obtain ⟨q, -, e, hperm⟩ := perm_eraseP_id hp
    have hids := hperm.map fun p => p.1.id
    rw [map_cons, e] at hids
    exact .inr ⟨p.1, _, hn, hids⟩

/-! ## 3. Breadth-first selection -/

/-- `crete_find_relevant`. -/
def findRelevant (g : Graph) : Nat → Nat → Except Stop Nat
  | 0, _ => .error .diverges
  | fuel + 1, v => match outEdges g v with
    | [c] => findRelevant g fuel c
    | _ => .ok v

theorem findRelevant_single {g : Graph} {v c : Nat} (fuel : Nat) (h : outEdges g v = [c]) :
    findRelevant g (fuel + 1) v = findRelevant g fuel c := by
  rw [findRelevant, h]

theorem findRelevant_stop {g : Graph} {v : Nat} (fuel : Nat) (h : ∀ c, outEdges g v ≠ [c]) :
    findRelevant g (fuel + 1) v = .ok v := by
  rw [findRelevant]
  split
  · rename_i c hc
    exact absurd hc (h c)
  · rfl

/-- What the visitor throws: the id it found, or the error of a call. -/
inductive Thrown where
  | found (id : Id)
  | stop (s : Stop)
  deriving DecidableEq, Repr

/-- `bfs_execution_visitor::discover_vertex`. -/
def discoverVertex (tg : TraceGraph) (u : Nat) : Except Thrown Unit :=
  match idAt tg.graph u with
  | none => .error (.stop .badAccess)
  | some id => match tg.executed id with
    | none => .error (.stop .outOfRange)
    | some false => .error (.found id)
    | some true => .ok ()

/-- `executed(trace, true)`, on a key that is there. -/
def TraceGraph.mark (tg : TraceGraph) (id : Id) : TraceGraph :=
  { tg with executed := fun i => if i = id then some true else tg.executed i }

/-- The vertex an edge leads to in the search. -/
def relevant (g : Graph) (v : Nat) : Except Thrown Nat :=
  (findRelevant g g.length v).mapError Thrown.stop

/-- `next_bfs`. -/
def nextBfs (tg : TraceGraph) : Except Stop (Option Id × TraceGraph) :=
  if tg.graph = [] then .ok (none, tg)
  else match bfs (outEdges tg.graph) (relevant tg.graph) (discoverVertex tg) (.stop .diverges)
      tg.graph.length 0 with
    | .ok _ => .ok (none, tg)
    | .error (.found id) => .ok (some id, tg.mark id)
    | .error (.stop s) => .error s

/-! ## 4. Selection by recursive descent -/

/-- `collect_descendant_blocks`. -/
def collectDescendantBlocks (g : Graph) : Nat → Nat → Except Stop (List Block)
  | 0, _ => .error .diverges
  | fuel + 1, v => match keyAt uniqueHash g v with
    | none => .error .badAccess
    | some b => do
        let below ← (outEdges g v).mapM (collectDescendantBlocks g fuel)
        return b :: below.flatten

section Descent

variable [LinearOrder S] (calculateScore : List Block → Except Stop S)

/-- `insert` of a `BranchScoreMap`: a score that is there keeps its vertex. -/
def insertScore : List (S × Nat) → S → Nat → List (S × Nat)
  | [], s, v => [(s, v)]
  | (s', v') :: m, s, v =>
    if s < s' then (s, v) :: (s', v') :: m
    else if s' < s then (s', v') :: insertScore m s v
    else (s', v') :: m

/-- The score of a branch. -/
def branchScore (g : Graph) (c : Nat) : Except Stop S := do
  let blocks ← collectDescendantBlocks g g.length c
  calculateScore blocks

/-- The branches by score. -/
def branchScores (g : Graph) : List Nat → List (S × Nat) → Except Stop (List (S × Nat))
  | [], m => .ok m
  | c :: cs, m => do
      let s ← branchScore calculateScore g c
      branchScores g cs (insertScore m s c)

/-- At a leaf: its id unless executed. -/
def selectLeaf (tg : TraceGraph) (v : Nat) : Except Stop (Option Id) :=
  match idAt tg.graph v with
  | none => .error .badAccess
  | some id => match tg.executed id with
    | none => .error .outOfRange
    | some false => .ok (some id)
    | some true => .ok none

/-- The first branch that has something. -/
def firstFound (select : Nat → Except Stop (Option Id)) : List Nat → Except Stop (Option Id)
  | [] => .ok none
  | v :: vs => do
      let o ← select v
      if o.isSome then return o else firstFound select vs

/-- `select_by_recursive_score`. -/
def selectByRecursiveScore (tg : TraceGraph) : Nat → Nat → Except Stop (Option Id)
  | 0, _ => .error .diverges
  | fuel + 1, v => match outEdges tg.graph v with
    | [] => selectLeaf tg v
    | [c] => selectByRecursiveScore tg fuel c
    | cs => do
        let m ← branchScores calculateScore tg.graph cs []
        firstFound (selectByRecursiveScore tg fuel) (m.map Prod.snd)

/-- `select_by_recursive_score` from the first vertex, which must be there. -/
def selectRoot (tg : TraceGraph) : Except Stop (Option Id) :=
  if tg.graph = [] then .error .badAccess
  else selectByRecursiveScore calculateScore tg tg.graph.length 0

end Descent

/-! ## 5. The breadth-first search finds what is not executed -/

section Bfs

variable {r : Block} {g : Graph}

variable {tg : TraceGraph}

section

variable (h : IsTrie uniqueHash g)

include h

/-- The search's shortcut: some vertex below that does not have exactly one child, with the same
    leaves below it. -/
theorem findRelevant_ok (fuel : Nat) : ∀ v, v < g.length → g.length ≤ v + fuel →
    ∃ w, findRelevant g fuel v = .ok w ∧ v ≤ w ∧ w < g.length ∧
      ∀ l, outEdges g l = [] → Below uniqueHash g v l → Below uniqueHash g w l := by
  induction fuel with
  | zero =>
    intro v hv hf
    omega
  | succ fuel ih =>
    intro v hv hf
    by_cases hone : ∃ c, outEdges g v = [c]
    · obtain ⟨c, hc⟩ := hone
      obtain ⟨hlt, hcl⟩ := h.forward v c (by rw [hc]; exact (.head _))
      obtain ⟨w, hw, hle, hwl, hbelow⟩ := ih c hcl (by omega)
      refine ⟨w, by rw [findRelevant_single fuel hc]; exact hw, by omega, hwl, fun l hl hvl => ?_⟩
      refine hbelow l hl ?_
      obtain ⟨q, hq⟩ := hvl
      cases q with
      | nil =>
        cases hq
        rw [hc] at hl
        cases hl
      | cons a q =>
        obtain ⟨c', hc', hq'⟩ := bind_eq_some_iff.1 hq
        have hm := (mem_of_child _ hc').1
        rw [hc, mem_singleton] at hm
        exact ⟨q, by rw [← hm]; exact hq'⟩
    · exact ⟨v, findRelevant_stop fuel fun c hc => hone ⟨c, hc⟩, Nat.le_refl v, hv,
        fun l _ hvl => hvl⟩

theorem relevant_ok {v : Nat} (hv : v < g.length) :
    ∃ w, relevant g v = .ok w ∧ v ≤ w ∧ w < g.length ∧
      ∀ l, outEdges g l = [] → Below uniqueHash g v l → Below uniqueHash g w l := by
  obtain ⟨w, hw, hle, hlt, hb⟩ := findRelevant_ok h g.length v hv (by omega)
  exact ⟨w, by rw [relevant, hw]; rfl, hle, hlt, hb⟩

/-- The search stays within the graph. -/
theorem relevant_within : ∀ u ∈ range g.length, ∀ c ∈ outEdges g u,
      ∃ w ∈ range g.length, relevant g c = .ok w := by
  intro u _ c hc
  obtain ⟨w, hw, -, hlt, -⟩ := relevant_ok h (h.forward u c hc).2
  exact ⟨w, mem_range.2 hlt, hw⟩

/-- A search that ends has discovered every leaf below what it discovered. -/
theorem explored_leaves {disc : List Nat}
    (hex : ∀ v ∈ disc, Explored (outEdges g) (relevant g) disc v) (n : Nat) : ∀ v ∈ disc,
    g.length ≤ v + n → ∀ l, outEdges g l = [] → Below uniqueHash g v l → l ∈ disc := by
  induction n with
  | zero =>
    intro v hv hn l _ ⟨q, hq⟩
    cases q with
    | nil =>
      cases hq
      exact hv
    | cons a q =>
      obtain ⟨c, hc, -⟩ := bind_eq_some_iff.1 hq
      have := lt_of_mem_outEdges (mem_of_child _ hc).1
      omega
  | succ n ih =>
    intro v hv hn l hl ⟨q, hq⟩
    cases q with
    | nil =>
      cases hq
      exact hv
    | cons a q =>
      obtain ⟨c, hc, hq'⟩ := bind_eq_some_iff.1 hq
      have hm := (mem_of_child _ hc).1
      obtain ⟨hlt, hcl⟩ := h.forward v c hm
      obtain ⟨w, hw, hle, -, hb⟩ := relevant_ok h hcl
      exact ih w (hex v hv c hm w hw) (by omega) l hl (hb l hl ⟨q, hq'⟩)

end

/-- The visitor on a graph built by inserts: it stops at what is not executed. -/
theorem discoverVertex_eq (h : GraphInv r tg) {v : Nat}
    (hv : v < tg.graph.length) : ∃ t ∈ tg.traces, idAt tg.graph v = some t.id ∧
      (tg.executed t.id = some true ∧ discoverVertex tg v = .ok () ∨
        tg.executed t.id = some false ∧ discoverVertex tg v = .error (.found t.id)) := by
  obtain ⟨t, ht, hid⟩ := h.spells.idAt_mem hv
  refine ⟨t, ht, hid, ?_⟩
  obtain ⟨b, hb⟩ := ne_none_iff_exists'.1 ((h.keys t.id).2 ⟨t, ht, rfl⟩)
  cases b with
  | true => exact .inl ⟨hb, by rw [discoverVertex, hid]; simp only [hb]⟩
  | false => exact .inr ⟨hb, by rw [discoverVertex, hid]; simp only [hb]⟩

theorem mark_executed {id i : Id} (hi : i ≠ id) : (tg.mark id).executed i = tg.executed i :=
  if_neg hi

/-- Marking a kept trace keeps the invariant. -/
theorem GraphInv.mark (h : GraphInv r tg) {id : Id}
    (he : tg.executed id ≠ none) : GraphInv r (tg.mark id) := by
  refine ⟨h.spells, fun i => ?_⟩
  rw [← show (tg.executed i ≠ none ↔ ∃ t ∈ (tg.mark id).traces, t.id = i) from h.keys i]
  by_cases hi : i = id
  · rw [hi]
    show (if id = id then some true else _) ≠ none ↔ _
    rw [if_pos rfl]
    exact ⟨fun _ => he, fun _ => some_ne_none true⟩
  · rw [mark_executed hi]

/-- **Breadth-first selection** returns a trace that is not executed and marks it; it returns
    none only when all kept traces are executed. -/
theorem nextBfs_spec (h : GraphInv r tg) :
    nextBfs tg = .ok (none, tg) ∧ (∀ t ∈ tg.traces, tg.executed t.id = some true) ∨
      ∃ id, nextBfs tg = .ok (some id, tg.mark id) ∧ tg.executed id = some false := by
  have hpos := h.spells.length_pos
  have hne : tg.graph ≠ [] := ne_nil_of_length_pos hpos
  rw [nextBfs, if_neg hne]
  cases hb : bfs (outEdges tg.graph) (relevant tg.graph) (discoverVertex tg) (.stop .diverges)
      tg.graph.length 0 with
  | ok disc =>
    obtain ⟨h0, hall⟩ := bfs_ok hb
    refine .inl ⟨rfl, fun t ht => ?_⟩
    obtain ⟨p, l, -, hl, ho, hid⟩ := h.spells.stored t ht
    have hmem := explored_leaves h.spells.trie (fun v hv => (hall v hv).2) tg.graph.length 0 h0
      (by omega) l ho ⟨p, hl⟩
    obtain ⟨s, hs, hid', he⟩ := discoverVertex_eq h (h.spells.trie.walk_lt p hpos hl)
    rw [h.spells.eq_of_id ht hs (Option.some.inj (hid.symm.trans hid'))]
    rcases he with he | he
    · exact he.1
    · rw [(hall l hmem).1] at he
      cases he.2
  | error e =>
    -- only the visitor can have ended the search
    obtain ⟨-, v, hv, -, hve, -⟩ := bfs_error_level _ (relevant_within h.spells.trie)
      (mem_range.2 hpos) (Nat.le_of_eq length_range) hb
    obtain ⟨t, -, -, he⟩ := discoverVertex_eq h (mem_range.1 hv)
    rcases he with he | ⟨hex, he⟩
    · rw [hve] at he
      cases he.2
    · rw [hve] at he
      cases he
      exact .inr ⟨t.id, rfl, hex⟩

end Bfs

/-! ## 6. The recursive descent finds what is not executed -/

theorem collectDescendantBlocks_ok {g : Graph} (h : IsTrie uniqueHash g)
    (fuel : Nat) : ∀ v, v < g.length → g.length ≤ v + fuel →
    ∃ bs, collectDescendantBlocks g fuel v = .ok bs ∧ bs ≠ [] := by
  induction fuel with
  | zero =>
    intro v hv hf
    omega
  | succ fuel ih =>
    intro v hv hf
    obtain ⟨b, hb⟩ := keyAt_isSome uniqueHash hv
    obtain ⟨below, hbelow⟩ := mapM_total (f := collectDescendantBlocks g fuel) (outEdges g v)
      fun c hc => by
        obtain ⟨hlt, hcl⟩ := h.forward v c hc
        obtain ⟨bs, hbs, -⟩ := ih c hcl (by omega)
        exact ⟨bs, hbs⟩
    refine ⟨b :: below.flatten, ?_, cons_ne_nil _ _⟩
    rw [collectDescendantBlocks, hb]
    simp only [hbelow, ok_bind]
    rfl

section DescentSpec

variable [LinearOrder S] {calculateScore : List Block → Except Stop S}

variable {g : Graph}

/-- **No two branches at a vertex have the same score.** -/
def DistinctScores (calculateScore : List Block → Except Stop S) (g : Graph) : Prop :=
  ∀ v, ∀ c ∈ outEdges g v, ∀ c' ∈ outEdges g v,
    branchScore calculateScore g c = branchScore calculateScore g c' → c = c'

omit [LinearOrder S] in
theorem distinctScores_iff : DistinctScores calculateScore g ↔
    ∀ v < g.length, ∀ c ∈ outEdges g v, ∀ c' ∈ outEdges g v,
      branchScore calculateScore g c = branchScore calculateScore g c' → c = c' := by
  refine ⟨fun h v _ => h v, fun h v c hc => h v ?_ c hc⟩
  refine Nat.lt_of_not_le fun hle => ?_
  rw [outEdges, getElem?_eq_none hle] at hc
  cases hc

instance (g : Graph) : Decidable (DistinctScores calculateScore g) :=
  decidable_of_iff _ distinctScores_iff.symm

/-- What is in the map after an insert: a score that is there keeps its vertex. -/
theorem insertScore_spec {s : S} {v : Nat} {m : List (S × Nat)}
    (h : m.Pairwise fun p q => p.1 < q.1) :
    ((insertScore m s v).Pairwise fun p q => p.1 < q.1) ∧
      ∀ p, p ∈ insertScore m s v ↔ p ∈ m ∨ p = (s, v) ∧ ∀ q ∈ m, q.1 ≠ s := by
  induction m with
  | nil =>
    refine ⟨pairwise_singleton _ _, fun p => ?_⟩
    simp [insertScore]
  | cons q m ih =>
    obtain ⟨s', v'⟩ := q
    obtain ⟨hhead, htail⟩ := pairwise_cons.1 h
    obtain ⟨hsort, hmem⟩ := ih htail
    rcases lt_trichotomy s s' with hlt | rfl | hgt
    · -- before all scores
      have hbelow : ∀ q ∈ (s', v') :: m, s < q.1 := by
        intro q hq
        rcases mem_cons.1 hq with rfl | hq
        · exact hlt
        · exact lt_trans hlt (hhead q hq)
      rw [insertScore, if_pos hlt]
      refine ⟨pairwise_cons.2 ⟨hbelow, h⟩, fun p => ?_⟩
      rw [mem_cons]
      constructor
      · intro hp
        rcases hp with e | hp
        · exact .inr ⟨e, fun q hq => ne_of_gt (hbelow q hq)⟩
        · exact .inl hp
      · intro hp
        rcases hp with hp | ⟨e, -⟩
        · exact .inr hp
        · exact .inl e
    · -- the score is there
      rw [insertScore, if_neg (lt_irrefl s), if_neg (lt_irrefl s)]
      refine ⟨h, fun p => ⟨.inl, fun hp => ?_⟩⟩
      rcases hp with hp | ⟨-, hne⟩
      · exact hp
      · exact absurd rfl (hne (s, v') (.head _))
    · rw [insertScore, if_neg (lt_asymm hgt), if_pos hgt]
      refine ⟨pairwise_cons.2 ⟨fun q hq => ?_, hsort⟩, fun p => ?_⟩
      · rcases (hmem q).1 hq with hq | ⟨rfl, -⟩
        · exact hhead q hq
        · exact hgt
      · rw [mem_cons, hmem, mem_cons, forall_mem_cons]
        constructor
        · intro hp
          rcases hp with e | hp | ⟨e, hne⟩
          · exact .inl (.inl e)
          · exact .inl (.inr hp)
          · exact .inr ⟨e, ne_of_lt hgt, hne⟩
        · intro hp
          rcases hp with (e | hp) | ⟨e, -, hne⟩
          · exact .inl e
          · exact .inr (.inl hp)
          · exact .inr (.inr ⟨e, hne⟩)

/-- The branches by score: of the branches with one score, the first. -/
theorem branchScores_spec (cs : List Nat) : ∀ {m : List (S × Nat)},
    (∀ c ∈ cs, ∃ s, branchScore calculateScore g c = .ok s) →
    (m.Pairwise fun p q => p.1 < q.1) →
    ∃ m', branchScores calculateScore g cs m = .ok m' ∧ ∀ p, p ∈ m' ↔ p ∈ m ∨
      (∀ q ∈ m, q.1 ≠ p.1) ∧ cs.find? (fun c => branchScore calculateScore g c = .ok p.1) =
        some p.2 := by
  induction cs with
  | nil =>
    intro m _ _
    refine ⟨m, rfl, fun p => ⟨.inl, fun hp => hp.resolve_right fun e => ?_⟩⟩
    cases e.2
  | cons c cs ih =>
    intro m hok hsort
    obtain ⟨s, hs⟩ := hok c (.head _)
    obtain ⟨hsort', hmem⟩ := insertScore_spec (s := s) (v := c) hsort
    obtain ⟨m', hm', hspec⟩ := ih (forall_mem_cons.1 hok).2 hsort'
    refine ⟨m', by rw [branchScores, hs, ok_bind]; exact hm', fun p => ?_⟩
    rw [hspec, hmem]
    obtain ⟨k, d⟩ := p
    by_cases hk : s = k
    · -- the branch has this score: it is taken if the score is new
      subst hk
      rw [find?_cons_of_pos (by rw [hs]; exact decide_eq_true rfl)]
      constructor
      · intro hp
        rcases hp with (hp | ⟨e, hne⟩) | ⟨hne, -⟩
        · exact .inl hp
        · cases e
          exact .inr ⟨hne, rfl⟩
        · by_cases hin : ∃ q ∈ m, q.1 = s
          · obtain ⟨q, hq, e⟩ := hin
            exact absurd e (hne q ((hmem q).2 (.inl hq)))
          · exact absurd rfl (hne (s, c) ((hmem _).2 (.inr ⟨rfl, fun q hq e => hin ⟨q, hq, e⟩⟩)))
      · intro hp
        rcases hp with hp | ⟨hne, e⟩
        · exact .inl (.inl hp)
        · cases e
          exact .inl (.inr ⟨rfl, hne⟩)
    · rw [find?_cons_of_neg (by
        rw [hs, decide_eq_true_iff, Except.ok.injEq]; exact hk)]
      constructor
      · intro hp
        rcases hp with (hp | ⟨e, -⟩) | ⟨hne, hf⟩
        · exact .inl hp
        · cases e
          exact absurd rfl hk
        · exact .inr ⟨fun q hq => hne q ((hmem q).2 (.inl hq)), hf⟩
      · intro hp
        rcases hp with hp | ⟨hne, hf⟩
        · exact .inl (.inl hp)
        · refine .inr ⟨fun q hq => ?_, hf⟩
          rcases (hmem q).1 hq with hq | ⟨rfl, -⟩
          · exact hne q hq
          · exact hk

variable (calculateScore) in
/-- The branch is the first at its vertex with its score. -/
def Preferred (g : Graph) (v c : Nat) : Prop :=
  (outEdges g v).find? (fun c' => branchScore calculateScore g c' =
    branchScore calculateScore g c) = some c

variable (calculateScore) in
/-- **What the descent can reach**: it never enters a branch that comes after one with the same
    score. -/
inductive Descends (g : Graph) : Nat → Nat → Prop
  | here (v : Nat) : Descends g v v
  | down {v c l : Nat} : Preferred calculateScore g v c → Descends g c l → Descends g v l

theorem Preferred.mem {v c : Nat} (h : Preferred calculateScore g v c) :
    c ∈ outEdges g v := mem_of_find?_eq_some h

/-- An only child is preferred. -/
theorem preferred_single {v c : Nat} (h : outEdges g v = [c]) : Preferred calculateScore g v c := by
  rw [Preferred, h]
  exact find?_cons_of_pos (decide_eq_true rfl)

/-- Where scores differ, every branch is preferred. -/
theorem DistinctScores.preferred (h : DistinctScores calculateScore g) {v c : Nat}
    (hc : c ∈ outEdges g v) : Preferred calculateScore g v c := by
  rw [Preferred]
  cases hf : (outEdges g v).find? (fun c' => branchScore calculateScore g c' =
      branchScore calculateScore g c) with
  | none => exact absurd (decide_eq_true rfl) (find?_eq_none.1 hf c hc)
  | some c' =>
    have hsame := find?_some hf
    rw [h v c' (mem_of_find?_eq_some hf) c hc (of_decide_eq_true hsame)]

theorem DistinctScores.descends (h : DistinctScores calculateScore g)
    (p : List Block) : ∀ {v l : Nat}, walk uniqueHash g v p = some l →
    Descends calculateScore g v l := by
  induction p with
  | nil =>
    intro v l hl
    cases hl
    exact .here v
  | cons b p ih =>
    intro v l hl
    obtain ⟨c, hc, hl'⟩ := bind_eq_some_iff.1 hl
    exact .down (h.preferred (mem_of_child _ hc).1) (ih hl')

/-- The branches in the map are the preferred ones. -/
theorem branchScores_preferred {v : Nat}
    (hok : ∀ c ∈ outEdges g v, ∃ s, branchScore calculateScore g c = .ok s) :
    ∃ m, branchScores calculateScore g (outEdges g v) [] = .ok m ∧
      ∀ c, c ∈ m.map Prod.snd ↔ Preferred calculateScore g v c := by
  obtain ⟨m, hm, hspec⟩ := branchScores_spec (outEdges g v) hok Pairwise.nil
  refine ⟨m, hm, fun c => ⟨fun hc => ?_, fun hc => ?_⟩⟩
  · obtain ⟨p, hp, rfl⟩ := mem_map.1 hc
    obtain ⟨-, hf⟩ := ((hspec p).1 hp).resolve_left not_mem_nil
    have hscore := find?_some hf
    rw [Preferred, of_decide_eq_true hscore]
    exact hf
  · obtain ⟨s, hs⟩ := hok c hc.mem
    rw [Preferred, hs] at hc
    exact mem_map.2 ⟨(s, c), (hspec (s, c)).2 (.inr ⟨forall_mem_nil _, hc⟩), rfl⟩

theorem firstFound_spec {select : Nat → Except Stop (Option Id)} (vs : List Nat)
    (hok : ∀ v ∈ vs, ∃ o, select v = .ok o) :
    firstFound select vs = .ok none ∧ (∀ v ∈ vs, select v = .ok none) ∨
      ∃ v ∈ vs, ∃ id, select v = .ok (some id) ∧ firstFound select vs = .ok (some id) := by
  induction vs with
  | nil => exact .inl ⟨rfl, forall_mem_nil _⟩
  | cons v vs ih =>
    obtain ⟨o, ho⟩ := hok v (.head _)
    rw [firstFound, ho, ok_bind]
    cases o with
    | some id => exact .inr ⟨v, .head _, id, ho, rfl⟩
    | none =>
      rcases ih (forall_mem_cons.1 hok).2 with
        ⟨h₁, h₂⟩ | ⟨w, hw, id, h₁, h₂⟩
      · refine .inl ⟨h₁, fun w hw => ?_⟩
        rcases mem_cons.1 hw with rfl | hw
        · exact ho
        · exact h₂ w hw
      · exact .inr ⟨w, mem_cons_of_mem _ hw, id, h₁, h₂⟩

variable {r : Block} {tg : TraceGraph}

theorem selectLeaf_spec (h : GraphInv r tg) {v : Nat} (hv : v < tg.graph.length) :
    ∃ t ∈ tg.traces, idAt tg.graph v = some t.id ∧
      (tg.executed t.id = some true ∧ selectLeaf tg v = .ok none ∨
        tg.executed t.id = some false ∧ selectLeaf tg v = .ok (some t.id)) := by
  obtain ⟨t, ht, hid, he⟩ := discoverVertex_eq h hv
  refine ⟨t, ht, hid, ?_⟩
  rcases he with ⟨hb, -⟩ | ⟨hb, -⟩
  · exact .inl ⟨hb, by rw [selectLeaf, hid]; simp only [hb]⟩
  · exact .inr ⟨hb, by rw [selectLeaf, hid]; simp only [hb]⟩

/-- An unexecuted leaf trace. -/
structure UnexecutedLeaf (tg : TraceGraph) (l : Nat) (id : Id) : Prop where
  leaf : outEdges tg.graph l = []
  idAt : idAt tg.graph l = some id
  unexecuted : tg.executed id = some false

/-- At a leaf the descent stays. -/
theorem Descends.eq_of_leaf {v l : Nat} (h : Descends calculateScore g v l)
    (ho : outEdges g v = []) : l = v := by
  cases h with
  | here => rfl
  | down hp _ =>
    have hm := hp.mem
    rw [ho] at hm
    cases hm

/-- **The descent from a vertex** returns an unexecuted leaf that it can reach, if there is
    one. -/
theorem selectByRecursiveScore_spec
    (hcalc : ∀ blocks, blocks ≠ [] → ∃ s, calculateScore blocks = .ok s) (h : GraphInv r tg)
    (fuel : Nat) : ∀ v, v < tg.graph.length → tg.graph.length ≤ v + fuel →
    selectByRecursiveScore calculateScore tg fuel v = .ok none ∧
        (∀ l id, Descends calculateScore tg.graph v l → ¬ UnexecutedLeaf tg l id) ∨
      ∃ l id, selectByRecursiveScore calculateScore tg fuel v = .ok (some id) ∧
        Descends calculateScore tg.graph v l ∧ UnexecutedLeaf tg l id := by
  have htrie := h.spells.trie
  induction fuel with
  | zero =>
    intro v hv hf
    omega
  | succ fuel ih =>
    intro v hv hf
    rw [selectByRecursiveScore]
    have hchild : ∀ c ∈ outEdges tg.graph v, _ := fun c hc =>
      ih c (htrie.forward v c hc).2 (by have := (htrie.forward v c hc).1; omega)
    -- what is reached from a vertex that is no leaf is reached from a preferred child
    have hdown : outEdges tg.graph v ≠ [] → ∀ l id, Descends calculateScore tg.graph v l →
        UnexecutedLeaf tg l id → ∃ c, Preferred calculateScore tg.graph v c ∧
          Descends calculateScore tg.graph c l := by
      intro hne l id hd hl
      cases hd with
      | here => exact absurd hl.leaf hne
      | down hp hd => exact ⟨_, hp, hd⟩
    split
    · rename_i ho
      obtain ⟨t, -, hid, he⟩ := selectLeaf_spec h hv
      rcases he with ⟨hb, he⟩ | ⟨hb, he⟩
      · refine .inl ⟨he, fun l id hd hl => ?_⟩
        obtain rfl := hd.eq_of_leaf ho
        cases hid.symm.trans hl.idAt
        cases hb.symm.trans hl.unexecuted
      · exact .inr ⟨v, t.id, he, .here v, ho, hid, hb⟩
    · rename_i c ho
      rcases hchild c (by rw [ho]; exact (.head _)) with ⟨hs, hn⟩ | ⟨l, id, hs, hd, hl⟩
      · refine .inl ⟨hs, fun l id hd hl => ?_⟩
        obtain ⟨c', hp, hd'⟩ := hdown (by rw [ho]; exact cons_ne_nil _ _) l id hd hl
        have hm := hp.mem
        rw [ho, mem_singleton] at hm
        rw [hm] at hd'
        exact hn l id hd' hl
      · exact .inr ⟨l, id, hs, .down (preferred_single ho) hd, hl⟩
    · rename_i hne _
      have hscore : ∀ c ∈ outEdges tg.graph v, ∃ s, branchScore calculateScore tg.graph c =
          .ok s := by
        intro c hc
        obtain ⟨bs, hbs, hnb⟩ := collectDescendantBlocks_ok htrie tg.graph.length c
          (htrie.forward v c hc).2 (by omega)
        obtain ⟨s, hs⟩ := hcalc bs hnb
        exact ⟨s, by rw [branchScore, hbs, ok_bind]; exact hs⟩
      obtain ⟨m, hm, hpref⟩ := branchScores_preferred hscore
      rw [hm, ok_bind]
      rcases firstFound_spec (m.map Prod.snd) fun c hc => by
          rcases hchild c ((hpref c).1 hc).mem with ⟨hs, -⟩ | ⟨l, id, hs, -⟩
          · exact ⟨none, hs⟩
          · exact ⟨some id, hs⟩ with ⟨h₁, h₂⟩ | ⟨c, hc, id, h₁, h₂⟩
      · refine .inl ⟨h₁, fun l id hd hl => ?_⟩
        obtain ⟨c, hp, hd'⟩ := hdown hne l id hd hl
        rcases hchild c hp.mem with ⟨-, hn⟩ | ⟨l', id', hs, -⟩
        · exact hn l id hd' hl
        · rw [h₂ c ((hpref c).2 hp)] at hs
          cases hs
      · have hp := (hpref c).1 hc
        rcases hchild c hp.mem with ⟨hs, -⟩ | ⟨l, id', hs, hd, hl⟩
        · rw [h₁] at hs
          cases hs
        · rw [h₁] at hs
          cases hs
          exact .inr ⟨l, id, h₂, .down hp hd, hl⟩

theorem selectRoot_eq (h : GraphInv r tg) : selectRoot calculateScore tg =
    selectByRecursiveScore calculateScore tg tg.graph.length 0 :=
  if_neg (ne_nil_of_length_pos h.spells.length_pos)

/-- **Selection by recursive descent** returns a trace that is not executed; where no two branches
    at a vertex have the same score, it returns none only when all kept traces are executed. -/
theorem selectRoot_spec
    (hcalc : ∀ blocks, blocks ≠ [] → ∃ s, calculateScore blocks = .ok s) (h : GraphInv r tg) :
    ∃ o, selectRoot calculateScore tg = .ok o ∧ (∀ id, o = some id → tg.executed id = some false) ∧
      (o = none → DistinctScores calculateScore tg.graph →
        ∀ t ∈ tg.traces, tg.executed t.id = some true) := by
  rw [selectRoot_eq h]
  rcases selectByRecursiveScore_spec hcalc h tg.graph.length 0 h.spells.length_pos (by omega) with
    ⟨hs, hn⟩ | ⟨l, id, hs, -, hl⟩
  · refine ⟨none, hs, (fun id e => by cases e), fun _ hd t ht => ?_⟩
    obtain ⟨p, l, -, hl, ho, hid⟩ := h.spells.stored t ht
    obtain ⟨b, hb⟩ := ne_none_iff_exists'.1 ((h.keys t.id).2 ⟨t, ht, rfl⟩)
    cases b with
    | true => exact hb
    | false => exact absurd ⟨ho, hid, hb⟩ (hn l t.id (hd.descends p hl))
  · refine ⟨some id, hs, fun id' e => ?_, fun e => by cases e⟩
    cases e
    exact hl.unexecuted

end DescentSpec

end Crete.Traces
