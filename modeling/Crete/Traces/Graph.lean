/-
  File:      Crete/Traces/Graph.lean
  Subject:   The trace graph (lib/trace-analyzer/trace_graph.cpp): all traces in one trie, each
             vertex with the id of a trace through it.

  * `TraceGraph.insert`, `mergeTrace`, `findTraceDivergence`, `backInsert`, `remove` -- as the
    source has them. A trace's own graph is a path, so its block list stands for it.
  * **`mergeFrom_extends`** -- what is left of a trace becomes one new branch.
  * **`find_spec`** -- the divergence is where the trace leaves the trie, and the path leads there.
  * **`backInsert_split`** -- `back_insert` gives a new id to the lower end of the path, up to the
    first vertex that does not have the old one.
-/
import Crete.Lib.AdjList
import Crete.Lib.Except

namespace Crete.Traces

open Crete.Lib Crete.Lib.AdjList List

/-! ## 1. The graph -/

/-- `Trace::Block`. -/
abbrev Block := UInt64

/-- `Trace::ID`, as its bytes. -/
abbrev Id := List UInt8

/-- `class Trace`. Traces are compared by their ids. -/
structure Trace where
  id : Id
  blocks : List Block
  deriving DecidableEq, Repr

/-- `struct VertexProperty`, compared by `unique_hash`. -/
structure VertexProperty where
  uniqueHash : Block
  traceId : Id
  deriving DecidableEq, Repr

open VertexProperty (uniqueHash)

abbrev Graph := AdjList VertexProperty

/-- How a call can end other than by returning: a failed assertion, `at` on a missing key, an
    access outside a container, or a recursion that does not end. -/
inductive Stop where
  | assertion (expr : String)
  | outOfRange
  | badAccess
  | diverges
  deriving DecidableEq, Repr

/-- The id at a vertex. -/
def idAt (g : Graph) (v : Nat) : Option Id := (prop? g v).map VertexProperty.traceId

/-- A path: the vertex `n` with property `p`, then one vertex for every block. -/
def pathFrom (id : Id) : VertexProperty → Nat → List Block → Graph
  | p, _, [] => [⟨p, []⟩]
  | p, n, b :: bs => ⟨p, [n + 1]⟩ :: pathFrom id ⟨b, id⟩ (n + 1) bs

/-- `make_graph`. -/
def makeGraph (t : Trace) : Graph :=
  match t.blocks with
  | [] => []
  | b :: bs => pathFrom t.id ⟨b, t.id⟩ 0 bs

/-- `class TraceGraph`. -/
structure TraceGraph where
  graph : Graph
  traces : List Trace
  executed : Id → Option Bool

/-- An empty trace graph. -/
def TraceGraph.empty : TraceGraph := ⟨[], [], fun _ => none⟩

/-- `find_trace_divergence`: the existing vertex `ev` matches the trace so far, `bs` are the
    trace's blocks after it. The path, the existing vertex at the divergence, and the blocks of
    the trace after it. -/
def findTraceDivergence (g : Graph) : Nat → List Nat → List Block → List Nat × Nat × List Block
  | ev, path, [] => (path ++ [ev], ev, [])
  | ev, path, b :: bs => match child uniqueHash g ev b with
    | some c => findTraceDivergence g c (path ++ [ev]) bs
    | none => (path ++ [ev], ev, b :: bs)

/-- `back_insert`, on the reversed path. -/
def backInsert (id prev : Id) : Graph → List Nat → Graph
  | g, [] => g
  | g, v :: vs =>
    if idAt g v = some prev then
      backInsert id prev (setProp g v fun p => { p with traceId := id }) vs
    else g

/-- The recursive `merge_trace`: the remaining blocks become new vertices below `d`. -/
def mergeFrom (id : Id) : Graph → Nat → List Block → Graph
  | g, _, [] => g
  | g, d, b :: bs => mergeFrom id (addChild g d ⟨b, id⟩) g.length bs

/-- `insert` of an unordered map: a key that is there keeps its value. -/
def insertKey (m : Id → Option Bool) (id : Id) (b : Bool) : Id → Option Bool :=
  fun i => if i = id ∧ m id = none then some b else m i

namespace TraceGraph

/-- `remove`. -/
def remove (tg : TraceGraph) (id : Id) : Except Stop TraceGraph := do
  ensure (∃ t ∈ tg.traces, t.id = id) .badAccess
  ensure (tg.executed id ≠ none) (.assertion "executed_traces_.erase(trace) != 0")
  return { tg with
    traces := tg.traces.eraseP fun t => t.id = id
    executed := fun i => if i = id then none else tg.executed i }

/-- What `merge_trace` does where the trace extends the trace that ends at `d`. The callbacks of
    the trace pool do nothing. -/
def supersede (tg : TraceGraph) (id : Id) (d : Nat) (path : List Nat) :
    Except Stop TraceGraph :=
  match idAt tg.graph d with
  | none => .error .badAccess
  | some prev => remove { tg with graph := backInsert id prev tg.graph path.reverse } prev

/-- `merge_trace`. -/
def mergeTrace (tg : TraceGraph) (t : Trace) : Except Stop (Bool × TraceGraph) :=
  match t.blocks, tg.graph with
  | [], _ => .ok (false, tg)
  | _, [] => .ok (false, tg)
  | b :: bs, root :: _ => do
      ensure (b = root.prop.uniqueHash) (.assertion "trace[tv] == graph_[ev]")
      let dv := findTraceDivergence tg.graph 0 [] bs
      if dv.2.2 = [] then return (false, tg)
      else do
        let tg ← if outEdges tg.graph dv.2.1 = [] then supersede tg t.id dv.2.1 dv.1 else .ok tg
        return (true, { tg with graph := mergeFrom t.id tg.graph dv.2.1 dv.2.2 })

/-- `insert` of an unordered set. -/
def addTrace (ts : List Trace) (t : Trace) : List Trace :=
  if ∃ s ∈ ts, s.id = t.id then ts else ts ++ [t]

/-- `TraceGraph::insert`. -/
def insert (tg : TraceGraph) (t : Trace) : Except Stop (Bool × TraceGraph) :=
  if tg.traces = [] then
    .ok (true, ⟨makeGraph t, addTrace tg.traces t, insertKey tg.executed t.id false⟩)
  else do
    let r ← mergeTrace tg t
    if r.1 then
      return (true, { r.2 with
        traces := addTrace r.2.traces t
        executed := insertKey r.2.executed t.id false })
    else return (false, r.2)

end TraceGraph

/-! ## 2. Adding the rest of a trace -/

/-- The vertex a sequence of blocks leads to, below the root. -/
abbrev reach (g : Graph) (p : List Block) : Option Nat := walk uniqueHash g 0 p

theorem reach_snoc (g : Graph) (p : List Block) (b : Block) :
    reach g (p ++ [b]) = (reach g p).bind fun w => child uniqueHash g w b :=
  walk_snoc _ g p b 0

/-- `g'` is `g` with a branch below `p₀`: the blocks `rest`, under one id. -/
structure Extends (id : Id) (g g' : Graph) (p₀ rest : List Block) : Prop where
  trie : IsTrie uniqueHash g'
  root : keyAt uniqueHash g' 0 = keyAt uniqueHash g 0
  old : ∀ p w, reach g p = some w → reach g' p = some w ∧ idAt g' w = idAt g w ∧
    (outEdges g' w = [] ↔ outEdges g w = [] ∧ (p = p₀ → rest = []))
  new : ∀ q, q ≠ [] → q <+: rest → ∃ w, reach g' (p₀ ++ q) = some w ∧ idAt g' w = some id ∧
    (outEdges g' w = [] ↔ q = rest)
  only : ∀ p w, reach g' p = some w → reach g p = some w ∨ ∃ q, q ≠ [] ∧ q <+: rest ∧ p = p₀ ++ q

theorem extends_refl {id : Id} {g : Graph} (h : IsTrie uniqueHash g)
    (p₀ : List Block) : Extends id g g p₀ [] where
  trie := h
  root := rfl
  old _ _ hw := ⟨hw, rfl, fun e => ⟨e, fun _ => rfl⟩, fun e => e.1⟩
  new _ hq hp := absurd (prefix_nil.1 hp) hq
  only _ _ hw := .inl hw

theorem idAt_addChild (g : Graph) (d : Nat) (x : VertexProperty) (w : Nat) :
    idAt (addChild g d x) w = if w = g.length then some x.traceId else idAt g w := by
  rw [idAt, prop?_addChild]
  split <;> rfl

theorem extends_addChild {id : Id} {g : Graph} (h : IsTrie uniqueHash g)
    (hg : 0 < g.length) {d : Nat} {b : Block} {p₀ : List Block} (hp₀ : reach g p₀ = some d)
    (hfresh : child uniqueHash g d b = none) :
    Extends id g (addChild g d ⟨b, id⟩) p₀ [b] := by
  have hd : d < g.length := h.walk_lt p₀ hg hp₀
  have hnew : ∀ c ∈ outEdges g d, keyAt uniqueHash g c ≠ some b := fun c hc e =>
    find?_eq_none.1 hfresh c hc (decide_eq_true e)
  have hwalk := walk_addChild h hd (x := ⟨b, id⟩) hfresh hp₀
  have hnone : reach g (p₀ ++ [b]) = none := by
    rw [reach_snoc, hp₀]
    exact hfresh
  refine ⟨isTrie_addChild h hd _ hnew, ?_, fun p w hw => ?_, fun q hq hp => ?_, fun p w hw => ?_⟩
  · rw [keyAt_addChild, if_neg (by omega)]
  · have hwlt := h.walk_lt p hg hw
    have hne : p ≠ p₀ ++ [b] := by
      intro e
      rw [e, hnone] at hw
      cases hw
    refine ⟨by rw [reach, hwalk, if_neg hne]; exact hw, ?_, ?_⟩
    · rw [idAt_addChild, if_neg (by omega)]
    · rw [outEdges_addChild hd]
      by_cases e : w = d
      · subst e
        rw [if_pos rfl, h.walk_inj p p₀ hw hp₀]
        simp
      · rw [if_neg e]
        refine ⟨fun ho => ⟨ho, fun ep => ?_⟩, fun ho => ho.1⟩
        rw [ep, hp₀] at hw
        exact absurd (Option.some.inj hw).symm e
  · have hq' : q = [b] := by
      rcases prefix_cons_iff.1 hp with e | ⟨t, rfl, ht⟩
      · exact absurd e hq
      · rw [prefix_nil.1 ht]
    subst hq'
    refine ⟨g.length, by rw [reach, hwalk, if_pos rfl], ?_, ?_⟩
    · rw [idAt_addChild, if_pos rfl]
    · rw [outEdges_addChild hd, if_neg (by omega), outEdges, getElem?_eq_none le_rfl]
      exact ⟨fun _ => rfl, fun _ => rfl⟩
  · rw [reach, hwalk] at hw
    by_cases e : p = p₀ ++ [b]
    · exact .inr ⟨[b], cons_ne_nil _ _, prefix_rfl, e⟩
    · rw [if_neg e] at hw
      exact .inl hw

/-- Two branches in a row, the second below the end of the first. -/
theorem Extends.trans {id : Id} {g g₁ g₂ : Graph} {p₀ bs : List Block} {b : Block}
    (hnone : reach g (p₀ ++ [b]) = none) (h₁ : Extends id g g₁ p₀ [b])
    (h₂ : Extends id g₁ g₂ (p₀ ++ [b]) bs) : Extends id g g₂ p₀ (b :: bs) where
  trie := h₂.trie
  root := h₂.root.trans h₁.root
  old p w hw := by
    obtain ⟨hr₁, hi₁, ho₁⟩ := h₁.old p w hw
    obtain ⟨hr₂, hi₂, ho₂⟩ := h₂.old p w hr₁
    refine ⟨hr₂, hi₂.trans hi₁, ?_⟩
    have hne : p ≠ p₀ ++ [b] := by
      intro e
      rw [e, hnone] at hw
      cases hw
    rw [ho₂, ho₁]
    exact ⟨fun ⟨⟨ho, hp⟩, _⟩ => ⟨ho, fun e => absurd (hp e) (cons_ne_nil _ _)⟩,
      fun ⟨ho, hp⟩ => ⟨⟨ho, fun e => absurd (hp e) (cons_ne_nil _ _)⟩, fun e => absurd e hne⟩⟩
  new q hq hp := by
    rcases prefix_cons_iff.1 hp with e | ⟨t, rfl, ht⟩
    · exact absurd e hq
    by_cases hte : t = []
    · subst hte
      obtain ⟨w, hw, hi, ho⟩ := h₁.new [b] hq prefix_rfl
      obtain ⟨hr₂, hi₂, ho₂⟩ := h₂.old _ w hw
      refine ⟨w, hr₂, hi₂.trans hi, ?_⟩
      rw [ho₂, ho]
      exact ⟨fun e => by rw [e.2 rfl], fun e => ⟨rfl, fun _ => (List.cons.inj e).2.symm⟩⟩
    · obtain ⟨w, hw, hi, ho⟩ := h₂.new t hte ht
      rw [append_assoc] at hw
      exact ⟨w, hw, hi, ho.trans ⟨fun e => by rw [e], fun e => (List.cons.inj e).2⟩⟩
  only p w hw := by
    rcases h₂.only p w hw with hw | ⟨q, hq, hp, rfl⟩
    · rcases h₁.only p w hw with hw | ⟨q, hq, hp, rfl⟩
      · exact .inl hw
      · refine .inr ⟨q, hq, hp.trans ?_, rfl⟩
        exact ⟨bs, rfl⟩
    · refine .inr ⟨b :: q, cons_ne_nil _ _, ?_, by rw [append_assoc]; rfl⟩
      exact (prefix_cons_inj b).2 hp

/-- **`merge_trace` adds the rest of the trace as one branch.** -/
theorem mergeFrom_extends {id : Id} (rest : List Block) : ∀ {g : Graph} {d : Nat}
    {p₀ : List Block}, IsTrie uniqueHash g → 0 < g.length →
    reach g p₀ = some d →
    (∀ b ∈ rest.head?, child uniqueHash g d b = none) →
    Extends id g (mergeFrom id g d rest) p₀ rest := by
  induction rest with
  | nil => exact fun h _ _ _ => extends_refl h _
  | cons b bs ih =>
    intro g d p₀ h hg hp₀ hfresh
    have hb := hfresh b rfl
    have h₁ : Extends id g (addChild g d ⟨b, id⟩) p₀ [b] := extends_addChild h hg hp₀ hb
    have hd := h.walk_lt p₀ hg hp₀
    have hnone : reach g (p₀ ++ [b]) = none := by
      rw [reach_snoc, hp₀]
      exact hb
    have hend : reach (addChild g d ⟨b, id⟩) (p₀ ++ [b]) = some g.length := by
      rw [reach, walk_addChild h hd (x := ⟨b, id⟩) hb hp₀, if_pos rfl]
    have hleaf : ∀ c ∈ bs.head?, child uniqueHash (addChild g d ⟨b, id⟩) g.length c = none := by
      intro c _
      rw [child, outEdges_addChild hd, if_neg (by omega), outEdges, getElem?_eq_none le_rfl]
      rfl
    refine h₁.trans hnone (ih h₁.trie ?_ hend hleaf)
    rw [length_addChild]
    omega

/-! ## 3. The divergence -/

/-- **The divergence**: the trace is followed as far as the trie goes. -/
theorem find_spec (g : Graph) (bs : List Block) : ∀ (ev : Nat) (path : List Nat),
    ∃ q rest d, bs = q ++ rest ∧ walk uniqueHash g ev q = some d ∧
      (∀ b ∈ rest.head?, child uniqueHash g d b = none) ∧
      findTraceDivergence g ev path bs = (path ++ along uniqueHash g ev q, d, rest) := by
  induction bs with
  | nil =>
    refine fun ev path => ⟨[], [], ev, rfl, rfl, fun b hb => ?_, rfl⟩
    cases hb
  | cons b bs ih =>
    intro ev path
    cases hc : child uniqueHash g ev b with
    | none =>
      refine ⟨[], b :: bs, ev, rfl, rfl, fun a ha => ?_, ?_⟩
      · cases ha
        exact hc
      · rw [findTraceDivergence, hc]
        rfl
    | some c =>
      obtain ⟨q, rest, d, rfl, hw, hr, hf⟩ := ih c (path ++ [ev])
      refine ⟨b :: q, rest, d, rfl, by rw [walk, hc]; exact hw, hr, ?_⟩
      rw [findTraceDivergence, hc]
      show findTraceDivergence g c (path ++ [ev]) (q ++ rest) = _
      rw [hf, along, hc, append_assoc]
      rfl

/-! ## 4. Relabelling -/

theorem idAt_setProp (g : Graph) (v : Nat) (id : Id) (w : Nat) :
    idAt (setProp g v fun p => { p with traceId := id }) w =
      if v = w then (idAt g w).map (fun _ => id) else idAt g w := by
  rw [idAt, prop?_setProp]
  split
  · rw [idAt, Option.map_map, Option.map_map]
    rfl
  · rfl

theorem keyAt_setProp (g : Graph) (v : Nat) (id : Id) (w : Nat) :
    keyAt uniqueHash (setProp g v fun p => { p with traceId := id }) w =
      keyAt uniqueHash g w := by
  rw [keyAt, prop?_setProp]
  split
  · rw [keyAt, Option.map_map]
    rfl
  · rfl

/-- `back_insert` changes ids only. -/
theorem backInsert_frame (id prev : Id) (vs : List Nat) : ∀ g : Graph,
    (backInsert id prev g vs).length = g.length ∧
      (∀ w, outEdges (backInsert id prev g vs) w = outEdges g w) ∧
      ∀ w, keyAt uniqueHash (backInsert id prev g vs) w =
        keyAt uniqueHash g w := by
  induction vs with
  | nil => exact fun g => ⟨rfl, fun _ => rfl, fun _ => rfl⟩
  | cons v vs ih =>
    intro g
    rw [backInsert]
    split
    · obtain ⟨hl, ho, hk⟩ := ih (setProp g v fun p => { p with traceId := id })
      exact ⟨by rw [hl, length_setProp], fun w => by rw [ho, outEdges_setProp],
        fun w => by rw [hk, keyAt_setProp]⟩
    · exact ⟨rfl, fun _ => rfl, fun _ => rfl⟩

/-- **`back_insert` renames the lower end of the path**, up to the first vertex with another id. -/
theorem backInsert_split (id prev : Id) (vs : List Nat) : ∀ g : Graph, vs.Nodup →
    ∃ us ws, vs = us ++ ws ∧ (∀ u ∈ us, idAt g u = some prev) ∧
      (∀ u ∈ ws.head?, idAt g u ≠ some prev) ∧
      ∀ w, idAt (backInsert id prev g vs) w = if w ∈ us then some id else idAt g w := by
  induction vs with
  | nil =>
    refine fun g _ => ⟨[], [], rfl, forall_mem_nil _, fun u hu => ?_, fun w => ?_⟩
    · cases hu
    · rw [if_neg not_mem_nil]
      rfl
  | cons v vs ih =>
    intro g hn
    obtain ⟨hv, hn⟩ := nodup_cons.1 hn
    rw [backInsert]
    by_cases hid : idAt g v = some prev
    · rw [if_pos hid]
      obtain ⟨us, ws, rfl, hus, hws, hall⟩ :=
        ih (setProp g v fun p => { p with traceId := id }) hn
      have hsame : ∀ u ∈ us ++ ws, idAt (setProp g v fun p => { p with traceId := id }) u =
          idAt g u := by
        intro u hu
        rw [idAt_setProp, if_neg]
        rintro rfl
        exact hv hu
      refine ⟨v :: us, ws, rfl, fun u hu => ?_, fun u hu => ?_, fun w => ?_⟩
      · rcases mem_cons.1 hu with rfl | hu
        · exact hid
        · rw [← hsame u (mem_append_left _ hu)]
          exact hus u hu
      · rw [← hsame u (mem_append_right _ (mem_of_mem_head? hu))]
        exact hws u hu
      · rw [hall, idAt_setProp]
        by_cases hw : w ∈ us
        · rw [if_pos hw, if_pos (.tail _ hw)]
        · by_cases e : v = w
          · subst e
            rw [if_neg hw, if_pos rfl, if_pos (.head _), hid]
            rfl
          · rw [if_neg hw, if_neg e, if_neg]
            intro hm
            rcases mem_cons.1 hm with e' | hm
            · exact e e'.symm
            · exact hw hm
    · refine ⟨[], v :: vs, rfl, forall_mem_nil _, fun u hu => ?_, fun w => ?_⟩
      · cases hu
        exact hid
      · rw [if_neg hid, if_neg not_mem_nil]

/-- On a path on which the vertices with the old id are the lower end, all of them get the new
    one. -/
theorem backInsert_rename (id prev : Id) (vs : List Nat) (g : Graph) (hn : vs.Nodup)
    (hp : vs.Pairwise fun v u => idAt g u = some prev → idAt g v = some prev) (w : Nat) :
    idAt (backInsert id prev g vs) w =
      if w ∈ vs ∧ idAt g w = some prev then some id else idAt g w := by
  obtain ⟨us, ws, rfl, hus, hws, hall⟩ := backInsert_split id prev vs g hn
  -- nothing above the first vertex with another id has the old one
  have hrest : ∀ u ∈ ws, idAt g u ≠ some prev := by
    intro u hu
    cases ws with
    | nil => cases hu
    | cons x ws =>
      have hx := hws x rfl
      rcases mem_cons.1 hu with rfl | hu
      · exact hx
      · have hpw := (pairwise_cons.1 (pairwise_append.1 hp).2.1).1
        exact fun e => hx (hpw u hu e)
  rw [hall]
  by_cases hw : w ∈ us
  · rw [if_pos hw, if_pos ⟨mem_append_left _ hw, hus w hw⟩]
  · rw [if_neg hw, if_neg]
    intro ⟨hm, he⟩
    exact hrest w ((mem_append.1 hm).resolve_left hw) he

/-! ## 5. The graph of a single trace -/

/-- A path is a branch below its first vertex. -/
theorem mergeFrom_last (id : Id) (bs : List Block) : ∀ (g : Graph) (p : VertexProperty),
    mergeFrom id (g ++ [⟨p, []⟩]) g.length bs = g ++ pathFrom id p g.length bs := by
  induction bs with
  | nil => exact fun g p => rfl
  | cons b bs ih =>
    intro g p
    have hadd : addChild (g ++ [⟨p, []⟩]) g.length ⟨b, id⟩ =
        (g ++ [⟨p, [g.length + 1]⟩]) ++ [⟨⟨b, id⟩, []⟩] := by
      rw [addChild, addEdge, addVertex, length_append, length_singleton,
        append_assoc, modify_eq_set_getElem?]
      simp
    have hlen : (g ++ [(⟨p, []⟩ : Node VertexProperty)]).length =
        (g ++ [(⟨p, [g.length + 1]⟩ : Node VertexProperty)]).length := by
      rw [length_append, length_append]
      rfl
    rw [mergeFrom, hadd, hlen, ih, append_assoc, length_append, length_singleton]
    rfl

theorem makeGraph_eq (id : Id) (b : Block) (bs : List Block) :
    makeGraph ⟨id, b :: bs⟩ = mergeFrom id [⟨⟨b, id⟩, []⟩] 0 bs :=
  (mergeFrom_last id bs [] ⟨b, id⟩).symm

end Crete.Traces
