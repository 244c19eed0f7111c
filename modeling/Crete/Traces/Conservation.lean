/-
  File:      Crete/Traces/Conservation.lean
  Subject:   The trace pool over whole runs: when no call fails, and when no trace is lost.

  The pending set, the traces the selector keeps and the flags in the trace graph must agree.
  They do not when a new trace extends one that is still pending: the graph forgets that one, the
  pool and a selector that keeps traces do not.

  * `PoolInv` -- what holds in every state. `InStep` -- what the selector keeps is in the graph and
    not executed. `Exact` -- the pending traces are the kept ones that were not returned.
  * **`run_total`** -- no call fails, if `CallSafe` holds at every call.
  * **`pending_exact`** -- the pending set is what it should be, and calling `next` empties it, if
    `CallExact` holds at every call.
  * **`run_count`** -- whatever the calls, no trace is handed out more often than inserted.
-/
import Mathlib.Order.Nat
import Crete.Traces.Compress
import Crete.Traces.Pool

namespace Crete.Traces

open Crete.Lib List Option Analyzer

variable {S : Type} (env : Env S)

/-! ## 1. The conditions -/

variable {p : TracePool S}

/-- The traces as this pool analyses them. -/
abbrev TracePool.stored (p : TracePool S) (id : Id) : List Block :=
  env.stored p.analyzer.compressTraces id

/-- The new trace properly extends a trace of the graph that is still pending. -/
def Supersedes (p : TracePool S) (id : Id) : Prop :=
  ∃ t ∈ p.graph.traces, t.id ∈ p.pending ∧ t.blocks <+: p.stored env id ∧ t.blocks ≠ p.stored env id
  deriving Decidable

/-- The selector searches the graph by recursive descent. -/
def TracePool.descends (p : TracePool S) : Bool := p.analyzer.selector.descends

/-- The selector searches the graph. -/
def TracePool.searches (p : TracePool S) : Bool := p.analyzer.selector.searchesGraph

/-- **When a call does not fail**: with a selector that keeps traces, an insert supersedes no
    pending trace; the recursive descent is not started on an empty graph. -/
def CallSafe (p : TracePool S) : PoolCall S → Prop
  | .insert id _ => p.options.filterTraces = true → p.searches = false → ¬ Supersedes env p id
  | .next _ => p.descends = true → p.graph.traces ≠ []

/-- **When a call loses nothing**: traces are filtered, and an insert supersedes no pending
    trace; the recursive descent is not started on an empty graph. -/
def CallExact (p : TracePool S) : PoolCall S → Prop
  | .insert id _ => p.options.filterTraces = true ∧ ¬ Supersedes env p id
  | .next _ => p.descends = true → p.graph.traces ≠ []

instance (p : TracePool S) (c : PoolCall S) : Decidable (CallSafe env p c) := by
  cases c <;> dsimp only [CallSafe] <;> infer_instance

instance (p : TracePool S) (c : PoolCall S) : Decidable (CallExact env p c) := by
  cases c <;> dsimp only [CallExact] <;> infer_instance

theorem CallExact.safe {c : PoolCall S} (h : CallExact env p c) : CallSafe env p c := by
  cases c with
  | insert id random => exact fun _ _ => h.2
  | next n => exact h

/-! ## 2. What holds in every state -/

/-- The invariant of a pool into which `ins` were inserted. -/
structure PoolInv (r : Block) (ins : List Id) (p : TracePool S) : Prop where
  built : Built r p.graph
  traces : ∀ t ∈ p.graph.traces, t.id ∈ ins ∧ t.blocks = p.stored env t.id
  unexecuted : ∀ id, p.graph.executed id = some false → id ∈ p.pending
  pendingIns : ∀ id ∈ p.pending, id ∈ ins
  pendingNodup : p.pending.Nodup
  heldNodup : p.held.Nodup
  heldPending : ∀ id ∈ p.held, id ∈ p.pending
  registry : (p.analyzer.unexecuted.map Trace.id).Nodup

variable {env} in
/-- A trace with a flag is kept. -/
theorem PoolInv.known {r : Block} {ins : List Id} (h : PoolInv env r ins p)
    {id : Id} {b : Bool} (he : p.graph.executed id = some b) : ∃ t ∈ p.graph.traces, t.id = id := by
  rcases h.built with e | hg
  · rw [e] at he
    cases he
  · refine (hg.keys id).1 ?_
    rw [he]
    exact some_ne_none _

variable {env} in
/-- A kept trace has a flag. -/
theorem PoolInv.flag {r : Block} {ins : List Id} (h : PoolInv env r ins p)
    {t : Trace} (ht : t ∈ p.graph.traces) : ∃ b, p.graph.executed t.id = some b := by
  rcases h.built with e | hg
  · rw [e] at ht
    cases ht
  · exact ne_none_iff_exists'.1 ((hg.keys t.id).2 ⟨t, ht, rfl⟩)

/-- What the selector keeps is in the graph and not executed. -/
def InStep (p : TracePool S) : Prop := ∀ id ∈ p.held, p.graph.executed id = some false

/-- The settings of a pool do not change. -/
structure SameSetting (p p' : TracePool S) : Prop where
  options : p'.options = p.options
  compress : p'.analyzer.compressTraces = p.analyzer.compressTraces
  searches : p'.searches = p.searches
  descends : p'.descends = p.descends

theorem SameSetting.stored {p p' : TracePool S} (h : SameSetting p p') (id : Id) :
    p'.stored env id = p.stored env id := by
  rw [TracePool.stored, h.compress]

theorem held_of_searches (h : p.searches = true) : p.held = [] := by
  unfold TracePool.searches at h
  unfold TracePool.held
  cases hs : p.analyzer.selector with
  | scored rule scores | fifo queue => rw [hs] at h; cases h
  | breadthFirstSearch | recursiveDescent => rfl

/-! ## 3. The registry -/

theorem addTrace_nodup {ts : List Trace} (h : (ts.map Trace.id).Nodup) (t : Trace) :
    ((TraceGraph.addTrace ts t).map Trace.id).Nodup := by
  unfold TraceGraph.addTrace
  split
  · exact h
  · rename_i hn
    rw [map_append, nodup_append]
    refine ⟨h, nodup_singleton _, fun i hi j hj => ?_⟩
    obtain ⟨s, hs, rfl⟩ := mem_map.1 hi
    rw [map_singleton, mem_singleton] at hj
    rw [hj]
    exact fun e => hn ⟨s, hs, e⟩

/-- The registry erases only what it has. -/
theorem eraseTraces_ok (es : List Trace) : ∀ (ts : List Trace), (ts.map Trace.id).Nodup →
    (es.map Trace.id).Nodup → (∀ e ∈ es, e ∈ ts) →
    ∃ ts', eraseTraces ts es = .ok ts' ∧ (ts'.map Trace.id).Nodup := by
  induction es with
  | nil => exact fun ts ht _ _ => ⟨ts, rfl, ht⟩
  | cons e es ih =>
    intro ts ht he hsub
    obtain ⟨hne, he'⟩ := nodup_cons.1 he
    obtain ⟨ts', h, hn⟩ := ih (ts.eraseP fun s => s.id = e.id)
      (ht.sublist ((eraseP_sublist).map _)) he' fun x hx => by
        rw [eraseP_id ht]
        refine mem_filter.2 ⟨hsub x (.tail _ hx), decide_eq_true fun ex => ?_⟩
        exact hne (mem_map.2 ⟨x, hx, ex⟩)
    refine ⟨ts', ?_, hn⟩
    rw [eraseTraces, ensure_bind, if_pos ⟨e, hsub e (.head _), rfl⟩]
    exact h

theorem registry_frame (a : Analyzer S) (t : Trace) :
    (a.submitToUnexecutedBlockRegistry t).graph = a.graph ∧
      (a.submitToUnexecutedBlockRegistry t).selector = a.selector ∧
      (a.submitToUnexecutedBlockRegistry t).compressTraces = a.compressTraces := by
  unfold submitToUnexecutedBlockRegistry
  split <;> exact ⟨rfl, rfl, rfl⟩

theorem submitToRegistry_same (a : Analyzer S) (t : Trace) (h : (a.unexecuted.map Trace.id).Nodup) :
    (a.submitToUnexecutedBlockRegistry t).graph = a.graph ∧
      (a.submitToUnexecutedBlockRegistry t).selector = a.selector ∧
      (a.submitToUnexecutedBlockRegistry t).compressTraces = a.compressTraces ∧
      ((a.submitToUnexecutedBlockRegistry t).unexecuted.map Trace.id).Nodup := by
  obtain ⟨hgraph, hselector, hcompress⟩ := registry_frame a t
  refine ⟨hgraph, hselector, hcompress, ?_⟩
  unfold submitToUnexecutedBlockRegistry
  split
  · exact addTrace_nodup h t
  · exact h

/-- Submitting a known trace as executed marks it. -/
theorem submitExecuted_ok {a : Analyzer S} {id : Id} (he : a.graph.executed id ≠ none)
    (hr : (a.unexecuted.map Trace.id).Nodup) :
    ∃ a', a.submitExecuted env id = .ok a' ∧ a'.graph = a.graph.mark id ∧
      a'.selector = a.selector ∧ a'.compressTraces = a.compressTraces ∧
      (a'.unexecuted.map Trace.id).Nodup := by
  rw [submitExecuted, ensure_bind, if_pos he, updateTracesWithUnexecutedBlocks]
  obtain ⟨ts, hts, hn⟩ := eraseTraces_ok _ a.unexecuted hr
    (hr.sublist ((filter_sublist).map _)) fun e he => (mem_filter.1 he).1
  exact ⟨⟨a.graph.mark id, a.selector, a.compressTraces, ts,
    fun b => a.weights b + (env.files id).count b⟩, by rw [hts]; rfl, rfl, rfl, rfl, hn⟩

theorem mark_mark (tg : TraceGraph) (id : Id) : (tg.mark id).mark id = tg.mark id := by
  have : (fun i => if i = id then some true else (tg.mark id).executed i) =
      (tg.mark id).executed := by
    funext i
    show (if i = id then some true else if i = id then some true else tg.executed i) =
      if i = id then some true else tg.executed i
    split <;> rfl
  rw [TraceGraph.mark, this]

/-! ## 4. All that a call can do -/

section Calls

variable {env} {r : Block} {ins : List Id} {p : TracePool S}

/-- The new trace is an initial part of a kept one. -/
def Covered (env : Env S) (p : TracePool S) (id : Id) : Prop :=
  ∃ s ∈ p.graph.traces, p.stored env id <+: s.blocks

/-- What the invariants see of a pool is the same. -/
structure SameView (p p' : TracePool S) : Prop where
  graph : p'.graph = p.graph
  held : p'.held = p.held
  pending : p'.pending = p.pending

/-- A trace was added. -/
structure Added (env : Env S) (r : Block) (id : Id) (p p' : TracePool S) : Prop where
  graph : Grown r p.graph ⟨id, p.stored env id⟩ p'.graph
  pending : p'.pending = p.pending.insert id
  held : p'.held = p.held ∧ p.searches = true ∨ p'.held.Perm (id :: p.held) ∧ p.searches = false

/-- A trace was taken out. -/
structure Taken (id : Id) (p p' : TracePool S) : Prop where
  unexecuted : p.graph.executed id = some false
  graph : p'.graph = p.graph.mark id
  pending : p'.pending = p.pending.erase id
  held : p'.held = p.held ∧ p.searches = true ∨ p.held.Perm (id :: p'.held) ∧ p.searches = false

/-- **All that an insert can do.** -/
theorem insert_cases (h : PoolInv env r ins p) {id : Id} (hid : id ∉ ins) {bs : List Block}
    (hb : p.stored env id = r :: bs) (random : S) :
    ∃ b p', p.insert env id random = .ok (b, p') ∧ SameSetting p p' ∧
      (p'.analyzer.unexecuted.map Trace.id).Nodup ∧
      (SameView p p' ∧ (p.options.filterTraces = true → Covered env p id) ∨
        Added env r id p p' ∧ p.options.filterTraces = true ∧ ¬ Covered env p id) := by
  by_cases hf : p.options.filterTraces = true
  · have hfresh : ∀ s ∈ p.graph.traces, s.id ≠ id := fun s hs e =>
      hid (e ▸ (h.traces s hs).1)
    have hheld : id ∉ p.held := fun hm => hid (h.pendingIns id (h.heldPending id hm))
    rcases insert_spec (t := ⟨id, p.stored env id⟩) h.built hb
      fun s hs e => absurd e (hfresh s hs) with ⟨hc, hins⟩ | ⟨hc, tg', hins, hg⟩
    · refine ⟨false, { p with all := p.all.insert id }, ?_, ⟨rfl, rfl, rfl, rfl⟩, h.registry,
        .inl ⟨⟨rfl, rfl, rfl⟩, fun _ => hc⟩⟩
      have hins' : p.analyzer.graph.insert ⟨id, env.stored p.analyzer.compressTraces id⟩ =
        .ok (false, p.analyzer.graph) := hins
      simp only [TracePool.insert, hf, if_true, insertTrace, hins', ok_bind]
      rfl
    · obtain ⟨sel, hsub, hkind, hdesc, hsame, hperm⟩ := submit_spec env.scoring random
        p.analyzer.selector (t := ⟨id, p.stored env id⟩) (by rw [hb]; exact cons_ne_nil _ _)
        hheld
      obtain ⟨h1, h2, h3, h4⟩ := submitToRegistry_same
        { p.analyzer with graph := tg', selector := sel } ⟨id, p.stored env id⟩ h.registry
      have hins' : p.analyzer.graph.insert ⟨id, env.stored p.analyzer.compressTraces id⟩ =
        .ok (true, tg') := hins
      have hsub' : p.analyzer.selector.submit env.scoring random
        ⟨id, env.stored p.analyzer.compressTraces id⟩ = .ok sel := hsub
      refine ⟨true, { p with
        analyzer := ({ p.analyzer with graph := tg', selector := sel } :
          Analyzer S).submitToUnexecutedBlockRegistry ⟨id, p.stored env id⟩
        all := p.all.insert id
        allUnique := p.allUnique.insert id
        pending := p.pending.insert id }, ?_, ⟨rfl, h3, ?_, ?_⟩, h4, .inr ⟨⟨?_, rfl, ?_⟩, hf, hc⟩⟩
      · simp only [TracePool.insert, hf, if_true, insertTrace, hins', hsub', ok_bind]
        rfl
      · show Selector.searchesGraph (Analyzer.selector _) = _
        rw [h2]
        exact hkind
      · show Selector.descends (Analyzer.selector _) = _
        rw [h2]
        exact hdesc
      · show Grown r p.graph _ (Analyzer.graph _)
        rw [h1]
        exact hg
      · show Selector.held (Analyzer.selector _) = _ ∧ _ ∨
          (Selector.held (Analyzer.selector _)).Perm _ ∧ _
        rw [h2]
        cases hk : p.searches with
        | true => exact .inl ⟨congrArg Selector.held (hsame hk), rfl⟩
        | false => exact .inr ⟨hperm hk, rfl⟩
  · refine ⟨false, { p with all := p.all.insert id }, ?_, ⟨rfl, rfl, rfl, rfl⟩, h.registry,
      .inl ⟨⟨rfl, rfl, rfl⟩, fun e => absurd e hf⟩⟩
    simp only [TracePool.insert, hf]
    rfl

/-- A pending trace that the graph knows can be taken out. -/
theorem take_ok (env : Env S) {id : Id} (hm : id ∈ p.pending) (he : p.graph.executed id ≠ none)
    (hr : (p.analyzer.unexecuted.map Trace.id).Nodup) :
    ∃ p', p.take env id = .ok p' ∧ p'.options = p.options ∧ p'.pending = p.pending.erase id ∧
      p'.graph = p.graph.mark id ∧ p'.analyzer.selector = p.analyzer.selector ∧
      p'.analyzer.compressTraces = p.analyzer.compressTraces ∧
      (p'.analyzer.unexecuted.map Trace.id).Nodup := by
  obtain ⟨a, ha, hg, hsel, hc, hn⟩ := submitExecuted_ok env he hr
  refine ⟨{ p with analyzer := a, pending := p.pending.erase id }, ?_, rfl, rfl, hg, hsel, hc, hn⟩
  rw [TracePool.take, ensure_bind, if_pos hm, ha]
  rfl

/-- Nothing more can be selected. -/
structure Drained (env : Env S) (p : TracePool S) : Prop where
  keeping : p.searches = false → p.held = []
  searching : p.searches = true → (p.descends = true →
      DistinctScores (calculateLeastTreadedScore env.scoring) p.graph.graph) →
    ∀ t ∈ p.graph.traces, p.graph.executed t.id = some true

theorem Drained.of_held (hk : p.searches = false) (h : p.held = []) : Drained env p :=
  ⟨fun _ => h, fun e => absurd (hk.symm.trans e) Bool.false_ne_true⟩

theorem Drained.of_executed (hk : p.searches = true) (h : (p.descends = true →
      DistinctScores (calculateLeastTreadedScore env.scoring) p.graph.graph) →
    ∀ t ∈ p.graph.traces, p.graph.executed t.id = some true) : Drained env p :=
  ⟨fun e => absurd (e.symm.trans hk) Bool.false_ne_true, fun _ => h⟩

variable [LinearOrder S]

/-- What `next` can do. -/
def NextDone (env : Env S) (p : TracePool S) (n : Nat) : Prop :=
  ∃ o p', p.next env n = .ok (o, p') ∧ SameSetting p p' ∧
    (p'.analyzer.unexecuted.map Trace.id).Nodup ∧
    (o = none ∧ SameView p p' ∧ Drained env p ∨ ∃ id, o = some id ∧ Taken id p p')

/-- The rest of `next` once a trace is selected. -/
theorem next_of_selected (h : PoolInv env r ins p) {n : Nat} {id : Id} {a : Analyzer S}
    (ha : p.analyzer.next env n = .ok (some id, a)) (he : p.graph.executed id = some false)
    (hg : a.graph = p.graph ∨ a.graph = p.graph.mark id)
    (hc : a.compressTraces = p.analyzer.compressTraces) (hu : a.unexecuted = p.analyzer.unexecuted)
    (hk : a.selector.searchesGraph = p.searches) (hd : a.selector.descends = p.descends)
    (hh : a.selector.held = p.held ∧ p.searches = true ∨
      p.held.Perm (id :: a.selector.held) ∧ p.searches = false) :
    NextDone env p n := by
  have hexec : a.graph.executed id ≠ none := by
    rcases hg with e | e
    · rw [e, he]
      exact some_ne_none _
    · rw [e]
      show (if id = id then some true else _) ≠ none
      rw [if_pos rfl]
      exact some_ne_none _
  have hmark : a.graph.mark id = p.graph.mark id := by
    rcases hg with e | e
    · rw [e]
    · rw [e, mark_mark]
  obtain ⟨p', ht, ho, hp, hg', hs, hc', hn⟩ := take_ok env
    (p := { p with analyzer := a }) (h.unexecuted id he) hexec (by rw [hu]; exact h.registry)
  refine ⟨some id, p', ?_, ⟨ho, hc'.trans hc, ?_, ?_⟩, hn,
    .inr ⟨id, rfl, he, hg'.trans hmark, hp, ?_⟩⟩
  · rw [TracePool.next, ha, ok_bind]
    show (TracePool.take env _ id >>= _) = _
    rw [ht]
    rfl
  · rw [TracePool.searches, hs]
    exact hk
  · rw [TracePool.descends, hs]
    exact hd
  · rw [TracePool.held, hs]
    exact hh

theorem next_of_none {n : Nat} {a : Analyzer S} (ha : p.analyzer.next env n = .ok (none, a)) :
    p.next env n = .ok (none, { p with analyzer := a }) := by
  rw [TracePool.next, ha]
  rfl

theorem next_of_drained (h : PoolInv env r ins p) {n : Nat}
    (ha : p.analyzer.next env n = .ok (none, p.analyzer)) (hd : Drained env p) :
    NextDone env p n :=
  ⟨none, p, next_of_none ha, ⟨rfl, rfl, rfl, rfl⟩, h.registry, .inl ⟨rfl, ⟨rfl, rfl, rfl⟩, hd⟩⟩

/-- **All that `next` can do**, where the selector is in step with the graph. -/
theorem next_cases (h : PoolInv env r ins p) (hs : InStep p)
    (hd : p.descends = true → p.graph.traces ≠ []) (n : Nat) : NextDone env p n := by
  cases hsel : p.analyzer.selector with
  | scored rule scores =>
    have hkeep : p.searches = false := by rw [TracePool.searches, hsel]; rfl
    have hheld : p.held = scores.map (·.1.id) := by rw [TracePool.held, hsel]; rfl
    rcases nextScored_spec scores n with ⟨hn, hnil⟩ | ⟨t, scores', hn, hperm⟩
    · refine next_of_drained h ?_ (.of_held hkeep (by rw [hheld, hnil]; rfl))
      simp only [Analyzer.next, hsel, hn, ok_bind]
      rw [← hsel]
      rfl
    · have ha : p.analyzer.next env n =
          .ok (some t.id, { p.analyzer with selector := .scored rule scores' }) := by
        simp only [Analyzer.next, hsel, hn, ok_bind]
        rfl
      rw [← hheld] at hperm
      exact next_of_selected h ha (hs t.id (hperm.mem_iff.2 (.head _))) (.inl rfl) rfl rfl
        hkeep.symm (by rw [TracePool.descends, hsel]; rfl) (.inr ⟨hperm, hkeep⟩)
  | fifo queue =>
    have hkeep : p.searches = false := by rw [TracePool.searches, hsel]; rfl
    have hheld : p.held = queue.map Trace.id := by rw [TracePool.held, hsel]; rfl
    rcases eq_nil_or_concat' queue with rfl | ⟨queue', t, rfl⟩
    · refine next_of_drained h ?_ (.of_held hkeep hheld)
      simp only [Analyzer.next, hsel, dropLast_nil]
      rw [← hsel]
      rfl
    · have ha : p.analyzer.next env n =
          .ok (some t.id, { p.analyzer with selector := .fifo queue' }) := by
        simp only [Analyzer.next, hsel, getLast?_concat, dropLast_concat]
        rfl
      have hperm : p.held.Perm (t.id :: queue'.map Trace.id) := by
        rw [hheld, map_append]
        exact perm_append_singleton _ _
      exact next_of_selected h ha (hs t.id (hperm.mem_iff.2 (.head _))) (.inl rfl) rfl rfl
        hkeep.symm (by rw [TracePool.descends, hsel]; rfl) (.inr ⟨hperm, hkeep⟩)
  | breadthFirstSearch =>
    have hsearch : p.searches = true := by rw [TracePool.searches, hsel]; rfl
    have hnone : nextBfs p.analyzer.graph = .ok (none, p.analyzer.graph) ∧
          (∀ t ∈ p.graph.traces, p.graph.executed t.id = some true) ∨
        ∃ id, nextBfs p.analyzer.graph = .ok (some id, p.graph.mark id) ∧
          p.graph.executed id = some false := by
      rcases h.built with e | hg
      · have e : p.analyzer.graph = _ := e
        rw [TracePool.graph, e]
        exact .inl ⟨rfl, forall_mem_nil _⟩
      · exact nextBfs_spec hg
    rcases hnone with ⟨hn, hall⟩ | ⟨id, hn, he⟩
    · refine next_of_drained h ?_ (.of_executed hsearch fun _ => hall)
      simp only [Analyzer.next, hsel, hn, ok_bind]
      rw [← hsel]
      rfl
    · have ha : p.analyzer.next env n =
          .ok (some id, { p.analyzer with graph := p.graph.mark id }) := by
        simp only [Analyzer.next, hsel, hn, ok_bind]
        rw [← hsel]
        rfl
      exact next_of_selected h ha he (.inr rfl) rfl rfl rfl rfl (.inl ⟨rfl, hsearch⟩)
  | recursiveDescent =>
    have hsearch : p.searches = true := by rw [TracePool.searches, hsel]; rfl
    have hdesc : p.descends = true := by rw [TracePool.descends, hsel]; rfl
    have hg : GraphInv r p.graph := by
      refine h.built.resolve_left fun e => hd hdesc ?_
      rw [e]
      rfl
    obtain ⟨o, ho, hsome, hnone⟩ := selectRoot_spec
      (fun blocks hb => calculateLeastTreadedScore_ok env.scoring hb) hg
    have ha : p.analyzer.next env n = .ok (o, p.analyzer) := by
      have ho' : selectRoot (calculateLeastTreadedScore env.scoring) p.analyzer.graph =
          .ok o := ho
      simp only [Analyzer.next, hsel, ho', ok_bind]
      rfl
    cases o with
    | none => exact next_of_drained h ha (.of_executed hsearch fun hdist => hnone rfl (hdist hdesc))
    | some id =>
      exact next_of_selected h ha (hsome id rfl) (.inl rfl) rfl rfl rfl rfl (.inl ⟨rfl, hsearch⟩)

end Calls

/-! ## 5. What a call preserves -/

section Preserve

variable {env} {r : Block} {ins : List Id} {p p' : TracePool S}

theorem PoolInv.same (h : PoolInv env r ins p) (hset : SameSetting p p') (hv : SameView p p')
    (hr : (p'.analyzer.unexecuted.map Trace.id).Nodup) {ins' : List Id}
    (hsub : ∀ id ∈ ins, id ∈ ins') : PoolInv env r ins' p' where
  built := by rw [hv.graph]; exact h.built
  traces t ht := by
    rw [hv.graph] at ht
    rw [hset.stored]
    exact ⟨hsub _ (h.traces t ht).1, (h.traces t ht).2⟩
  unexecuted id he := by
    rw [hv.graph] at he
    rw [hv.pending]
    exact h.unexecuted id he
  pendingIns id hm := by
    rw [hv.pending] at hm
    exact hsub _ (h.pendingIns id hm)
  pendingNodup := by rw [hv.pending]; exact h.pendingNodup
  heldNodup := by rw [hv.held]; exact h.heldNodup
  heldPending id hm := by
    rw [hv.held] at hm
    rw [hv.pending]
    exact h.heldPending id hm
  registry := hr

theorem InStep.same (h : InStep p) (hv : SameView p p') : InStep p' := by
  intro id hm
  rw [hv.held] at hm
  rw [hv.graph]
  exact h id hm

/-- A trace that stays keeps its flag. -/
theorem Added.executed_of_ne {id i : Id} (ha : Added env r id p p') (hi : i ≠ id) {b : Bool}
    (he : p'.graph.executed i = some b) : p.graph.executed i = some b := by
  rw [ha.graph.executed, flagsAfter, if_neg hi] at he
  split at he
  · exact he
  · cases he

theorem PoolInv.added (h : PoolInv env r ins p) {id : Id} (hid : id ∉ ins)
    (hset : SameSetting p p') (ha : Added env r id p p')
    (hr : (p'.analyzer.unexecuted.map Trace.id).Nodup) : PoolInv env r (ins ++ [id]) p' where
  built := .inr ha.graph.inv
  traces t ht := by
    rw [hset.stored]
    rw [ha.graph.traces] at ht
    rcases mem_append.1 ht with ht | ht
    · obtain ⟨hin, hb⟩ := h.traces t (mem_filter.1 ht).1
      exact ⟨mem_append_left _ hin, hb⟩
    · rw [mem_singleton.1 ht]
      exact ⟨mem_append_right _ (.head _), rfl⟩
  unexecuted i he := by
    rw [ha.pending, mem_insert_iff]
    by_cases hi : i = id
    · exact .inl hi
    · exact .inr (h.unexecuted i (ha.executed_of_ne hi he))
  pendingIns i hm := by
    rw [ha.pending, mem_insert_iff] at hm
    rcases hm with rfl | hm
    · exact mem_append_right _ (.head _)
    · exact mem_append_left _ (h.pendingIns i hm)
  pendingNodup := by rw [ha.pending]; exact h.pendingNodup.insert
  heldNodup := by
    rcases ha.held with ⟨e, -⟩ | ⟨hp, -⟩
    · rw [e]
      exact h.heldNodup
    · refine hp.nodup_iff.2 (nodup_cons.2 ⟨fun hm => hid ?_, h.heldNodup⟩)
      exact h.pendingIns id (h.heldPending id hm)
  heldPending i hm := by
    rw [ha.pending, mem_insert_iff]
    rcases ha.held with ⟨e, -⟩ | ⟨hp, -⟩
    · rw [e] at hm
      exact .inr (h.heldPending i hm)
    · rcases mem_cons.1 (hp.mem_iff.1 hm) with e | hm
      · exact .inl e
      · exact .inr (h.heldPending i hm)
  registry := hr

/-- A pending trace that is not superseded keeps its flag. -/
theorem Added.executed_of_pending {id i : Id} (ha : Added env r id p p')
    (hc : ¬ Covered env p id) (hsup : ¬ Supersedes env p id) (hi : i ∈ p.pending) (hne : i ≠ id) :
    p'.graph.executed i = p.graph.executed i := by
  rw [ha.graph.executed, flagsAfter, if_neg hne, if_pos]
  refine if_neg ?_
  rintro ⟨s, hs, e, hp⟩
  have hp' : s.blocks <+: p.stored env id := hp
  by_cases hb : s.blocks = p.stored env id
  · exact hc ⟨s, hs, [], by rw [hb, append_nil]⟩
  · exact hsup ⟨s, hs, by rw [e]; exact hi, hp', hb⟩

theorem Added.executed_new {id : Id} (ha : Added env r id p p') :
    p'.graph.executed id = some false := by
  rw [ha.graph.executed, flagsAfter, if_pos rfl]

theorem InStep.added (hs : InStep p) (h : PoolInv env r ins p) {id : Id}
    (ha : Added env r id p p') (hc : ¬ Covered env p id)
    (hsup : p.searches = false → ¬ Supersedes env p id) : InStep p' := by
  intro i hm
  rcases ha.held with ⟨e, hsearch⟩ | ⟨hp, hkeep⟩
  · rw [e, held_of_searches hsearch] at hm
    cases hm
  · by_cases hi : i = id
    · rw [hi]
      exact ha.executed_new
    · have hold := (mem_cons.1 (hp.mem_iff.1 hm)).resolve_left hi
      rw [ha.executed_of_pending hc (hsup hkeep) (h.heldPending i hold) hi]
      exact hs i hold

theorem PoolInv.taken (h : PoolInv env r ins p) {id : Id} (hset : SameSetting p p')
    (ht : Taken id p p') (hr : (p'.analyzer.unexecuted.map Trace.id).Nodup) :
    PoolInv env r ins p' where
  built := by
    rw [ht.graph]
    rcases h.built with e | hg
    · have := ht.unexecuted
      rw [e] at this
      cases this
    · exact .inr (hg.mark (by rw [ht.unexecuted]; exact some_ne_none false))
  traces t hm := by
    rw [hset.stored]
    rw [ht.graph] at hm
    exact h.traces t hm
  unexecuted i he := by
    rw [ht.graph] at he
    have hi : i ≠ id := by
      intro e
      rw [e] at he
      have : (if id = id then some true else p.graph.executed id) = some false := he
      rw [if_pos rfl] at this
      cases this
    rw [mark_executed hi] at he
    rw [ht.pending]
    exact (mem_erase_of_ne hi).2 (h.unexecuted i he)
  pendingIns i hm := by
    rw [ht.pending] at hm
    exact h.pendingIns i (mem_of_mem_erase hm)
  pendingNodup := by rw [ht.pending]; exact h.pendingNodup.erase id
  heldNodup := by
    rcases ht.held with ⟨e, -⟩ | ⟨hp, -⟩
    · rw [e]
      exact h.heldNodup
    · exact (nodup_cons.1 (hp.nodup_iff.1 h.heldNodup)).2
  heldPending i hm := by
    rw [ht.pending]
    rcases ht.held with ⟨e, hsearch⟩ | ⟨hp, -⟩
    · rw [e, held_of_searches hsearch] at hm
      cases hm
    · have hne : i ≠ id := by
        rintro rfl
        exact (nodup_cons.1 (hp.nodup_iff.1 h.heldNodup)).1 hm
      exact (mem_erase_of_ne hne).2 (h.heldPending i (hp.mem_iff.2 (.tail _ hm)))
  registry := hr

theorem InStep.taken (hs : InStep p) (h : PoolInv env r ins p) {id : Id} (ht : Taken id p p') :
    InStep p' := by
  intro i hm
  rcases ht.held with ⟨e, hsearch⟩ | ⟨hp, -⟩
  · rw [e, held_of_searches hsearch] at hm
    cases hm
  · have hne : i ≠ id := by
      rintro rfl
      exact (nodup_cons.1 (hp.nodup_iff.1 h.heldNodup)).1 hm
    rw [ht.graph, mark_executed hne]
    exact hs i (hp.mem_iff.2 (.tail _ hm))

end Preserve

/-! ## 6. Runs that do not fail -/

section Runs

variable {env} [LinearOrder S] {r : Block}

/-- The new traces of a call: not inserted before, and with the common first block. -/
def Fresh (env : Env S) (r : Block) (ins new : List Id) : Prop :=
  ∀ id ∈ new, id ∉ ins ∧ ∃ bs, env.files id = r :: bs

/-- **Induction over a run**: an invariant of the pool, the inserted and the returned traces that
    every call establishes again holds at the end. -/
theorem run_induct (env : Env S) {ok : TracePool S → PoolCall S → Prop}
    {I : List Id → List Id → TracePool S → Prop}
    (hstep : ∀ ins ret p c, I ins ret p → Fresh env r ins (insertedIds [c]) → ok p c →
      ∃ reply p', callPool env p c = .ok (reply, p') ∧
        I (ins ++ insertedIds [c]) (ret ++ returnedIds [reply]) p') (cs : List (PoolCall S)) :
    ∀ ins ret p, I ins ret p → (insertedIds cs).Nodup → Fresh env r ins (insertedIds cs) →
      Throughout env ok p cs →
      ∃ rs p', run env p cs = .ok (rs, p') ∧
        I (ins ++ insertedIds cs) (ret ++ returnedIds rs) p' := by
  induction cs with
  | nil =>
    intro ins ret p hI _ _ _
    refine ⟨[], p, rfl, ?_⟩
    rw [show insertedIds ([] : List (PoolCall S)) = [] from rfl,
      show returnedIds [] = [] from rfl, append_nil, append_nil]
    exact hI
  | cons c cs ih =>
    intro ins ret p hI hn hf hok
    have hsplit : insertedIds (c :: cs) = insertedIds [c] ++ insertedIds cs := by
      unfold insertedIds
      rw [← filterMap_append]
      rfl
    rw [hsplit] at hn hf ⊢
    obtain ⟨hnc, hncs, hdisj⟩ := nodup_append.1 hn
    obtain ⟨hc, hcs⟩ := hok
    obtain ⟨reply, p', hcall, hI'⟩ := hstep ins ret p c hI
      (fun id hm => hf id (mem_append_left _ hm)) hc
    rw [hcall] at hcs
    obtain ⟨rs, p'', hrun, hI''⟩ := ih _ _ p' hI' hncs (fun id hm => by
      obtain ⟨hnew, hb⟩ := hf id (mem_append_right _ hm)
      refine ⟨fun hmem => ?_, hb⟩
      rcases mem_append.1 hmem with hmem | hmem
      · exact hnew hmem
      · exact hdisj id hmem id hm rfl) hcs
    refine ⟨reply :: rs, p'', ?_, ?_⟩
    · rw [run, hcall, ok_bind, hrun]
      rfl
    · have hret : returnedIds (reply :: rs) = returnedIds [reply] ++ returnedIds rs := by
        unfold returnedIds
        rw [← filterMap_append]
        rfl
      rw [hret, ← append_assoc, ← append_assoc]
      exact hI''

omit [LinearOrder S] in
theorem stored_first (hcompress : KeepsFirst env.compress) {id : Id} {bs : List Block}
    (hb : env.files id = r :: bs) (c : Bool) : ∃ bs', env.stored c id = r :: bs' := by
  unfold Env.stored
  split
  · rw [hb]
    exact hcompress r bs
  · exact ⟨bs, hb⟩

/-- One safe call. -/
theorem callPool_safe (hcompress : KeepsFirst env.compress) {ins : List Id} {p : TracePool S}
    {c : PoolCall S} (h : PoolInv env r ins p) (hs : InStep p)
    (hf : Fresh env r ins (insertedIds [c])) (hok : CallSafe env p c) :
    ∃ reply p', callPool env p c = .ok (reply, p') ∧
      PoolInv env r (ins ++ insertedIds [c]) p' ∧ InStep p' := by
  cases c with
  | insert id random =>
    obtain ⟨hid, bs, hb⟩ := hf id (.head _)
    obtain ⟨bs', hb'⟩ := stored_first hcompress hb p.analyzer.compressTraces
    obtain ⟨b, p', hins, hset, hreg, hcase⟩ := insert_cases h hid hb' random
    refine ⟨.inserted b, p', by rw [callPool, hins]; rfl, ?_⟩
    rcases hcase with ⟨hv, -⟩ | ⟨ha, hfilter, hc⟩
    · exact ⟨h.same hset hv hreg fun _ => mem_append_left _, hs.same hv⟩
    · exact ⟨h.added hid hset ha hreg, hs.added h ha hc (hok hfilter)⟩
  | next n =>
    obtain ⟨o, p', hnext, hset, hreg, hcase⟩ := next_cases h hs hok n
    refine ⟨.selected o, p', by rw [callPool, hnext]; rfl, ?_⟩
    rcases hcase with ⟨-, hv, -⟩ | ⟨id, -, ht⟩
    · exact ⟨h.same hset hv hreg fun _ => mem_append_left _, hs.same hv⟩
    · refine ⟨?_, hs.taken h ht⟩
      rw [show insertedIds [PoolCall.next (S := S) n] = [] from rfl, append_nil]
      exact h.taken hset ht hreg

omit [LinearOrder S] in
theorem create_held (strat : SelectionStrategy) (options : TraceOptions) :
    (TracePool.create strat options : TracePool S).held = [] := by
  cases strat <;> rfl

omit [LinearOrder S] in
theorem create_inv (strat : SelectionStrategy) (options : TraceOptions) :
    PoolInv env r [] (TracePool.create strat options) ∧
      InStep (TracePool.create strat options : TracePool S) := by
  have hheld := create_held (S := S) strat options
  refine ⟨⟨.inl rfl, forall_mem_nil _, fun id he => ?_,
    forall_mem_nil _, nodup_nil, ?_, fun id hm => ?_, nodup_nil⟩,
    fun id hm => ?_⟩
  · cases he
  · rw [hheld]
    exact nodup_nil
  · rw [hheld] at hm
    cases hm
  · rw [hheld] at hm
    cases hm

end Runs

/-- Whole-number scores, no compression, and the trace files of a table. -/
def tableEnv (files : List (Id × List Block)) : Env Nat :=
  ⟨⟨id, (· / ·)⟩, id, fun i => (files.lookup i).getD []⟩

/-- **The pending set is exact**: `ins` were inserted and `ret` returned. -/
structure Exact (ins ret : List Id) (p : TracePool S) : Prop where
  kept : p.graph.traces = (absorbAll (p.stored env) ins).map fun id => ⟨id, p.stored env id⟩
  pending : ∀ id ∈ p.pending, p.graph.executed id = some false
  returned : ∀ t ∈ p.graph.traces, p.graph.executed t.id = some true ↔ t.id ∈ ret
  retIns : ∀ id ∈ ret, id ∈ ins
  retNodup : ret.Nodup
  heldAll : p.searches = false → ∀ id ∈ p.pending, id ∈ p.held

section Exactness

variable {env} {r : Block} {ins ret : List Id} {p p' : TracePool S}

theorem SameSetting.stored_eq (h : SameSetting p p') : p'.stored env = p.stored env :=
  funext fun id => h.stored env id

section

variable (he : Exact env ins ret p)

include he

theorem Exact.same (hset : SameSetting p p') (hv : SameView p p') : Exact env ins ret p' where
  kept := by rw [hv.graph, hset.stored_eq]; exact he.kept
  pending id hm := by
    rw [hv.pending] at hm
    rw [hv.graph]
    exact he.pending id hm
  returned t ht := by
    rw [hv.graph] at ht ⊢
    exact he.returned t ht
  retIns := he.retIns
  retNodup := he.retNodup
  heldAll hk id hm := by
    rw [hset.searches] at hk
    rw [hv.pending] at hm
    rw [hv.held]
    exact he.heldAll hk id hm

/-- A covered trace changes nothing. -/
theorem Exact.covered {id : Id} (hc : Covered env p id) : Exact env (ins ++ [id]) ret p := by
  refine ⟨?_, he.pending, he.returned, fun i hi => mem_append_left _ (he.retIns i hi),
    he.retNodup, he.heldAll⟩
  rw [absorbAll_snoc, absorb_covered]
  · exact he.kept
  · obtain ⟨s, hs, hp⟩ := hc
    rw [he.kept] at hs
    obtain ⟨i, hi, rfl⟩ := mem_map.1 hs
    exact ⟨i, hi, hp⟩

theorem Exact.added {id : Id} (hid : id ∉ ins)
    (hset : SameSetting p p') (ha : Added env r id p p') (hc : ¬ Covered env p id)
    (hsup : ¬ Supersedes env p id) : Exact env (ins ++ [id]) ret p' where
  kept := by
    have hnew : ¬ ∃ i ∈ absorbAll (p.stored env) ins, p.stored env id <+: p.stored env i := by
      intro ⟨i, hi, hp⟩
      refine hc ⟨⟨i, p.stored env i⟩, ?_, hp⟩
      rw [he.kept]
      exact mem_map.2 ⟨i, hi, rfl⟩
    rw [hset.stored_eq, ha.graph.traces, he.kept, absorbAll_snoc, absorb, if_neg hnew,
      map_append, List.filter_map]
    rfl
  pending i hm := by
    rw [ha.pending, mem_insert_iff] at hm
    by_cases hi : i = id
    · rw [hi]
      exact ha.executed_new
    · have hold := hm.resolve_left hi
      rw [ha.executed_of_pending hc hsup hold hi]
      exact he.pending i hold
  returned t ht := by
    by_cases hi : t.id = id
    · rw [hi, ha.executed_new]
      exact ⟨fun e => (by cases e), fun hm => absurd (he.retIns id hm) hid⟩
    · -- a trace that stays keeps its flag
      have hstays : p'.graph.executed t.id = p.graph.executed t.id := by
        obtain ⟨b, hb⟩ := ne_none_iff_exists'.1 ((ha.graph.inv.keys t.id).2 ⟨t, ht, rfl⟩)
        rw [hb, ha.executed_of_ne hi hb]
      have hmem : t ∈ p.graph.traces := by
        rw [ha.graph.traces] at ht
        rcases mem_append.1 ht with ht | ht
        · exact (mem_filter.1 ht).1
        · rw [mem_singleton.1 ht] at hi
          exact absurd rfl hi
      rw [hstays]
      exact he.returned t hmem
  retIns i hi := mem_append_left _ (he.retIns i hi)
  retNodup := he.retNodup
  heldAll hk i hm := by
    rw [hset.searches] at hk
    rw [ha.pending, mem_insert_iff] at hm
    rcases ha.held with ⟨-, e⟩ | ⟨hp, -⟩
    · rw [hk] at e
      cases e
    · refine hp.mem_iff.2 ?_
      rcases hm with rfl | hm
      · exact (.head _)
      · exact .tail _ (he.heldAll hk i hm)

theorem Exact.taken (h : PoolInv env r ins p) {id : Id}
    (hset : SameSetting p p') (ht : Taken id p p') : Exact env ins (ret ++ [id]) p' where
  kept := by rw [hset.stored_eq, ht.graph]; exact he.kept
  pending i hm := by
    rw [ht.pending] at hm
    obtain ⟨hne, hm⟩ := (List.Nodup.mem_erase_iff h.pendingNodup).1 hm
    rw [ht.graph, mark_executed hne]
    exact he.pending i hm
  returned t hm := by
    rw [ht.graph] at hm ⊢
    rw [mem_append, mem_singleton]
    by_cases hi : t.id = id
    · rw [hi]
      refine ⟨fun _ => .inr rfl, fun _ => ?_⟩
      show (if id = id then some true else _) = some true
      rw [if_pos rfl]
    · rw [mark_executed hi, he.returned t hm]
      exact ⟨.inl, fun e => e.resolve_right hi⟩
  retIns i hi := by
    rcases mem_append.1 hi with hi | hi
    · exact he.retIns i hi
    · rw [mem_singleton.1 hi]
      exact h.pendingIns id (h.unexecuted id ht.unexecuted)
  retNodup := by
    refine nodup_append.2 ⟨he.retNodup, nodup_singleton _, fun i hi j hj e => ?_⟩
    rw [mem_singleton.1 hj] at e
    -- a returned trace that is still kept is marked
    obtain ⟨t, htm, hid⟩ := h.known ht.unexecuted
    rw [e, ← hid] at hi
    have hmarked := (he.returned t htm).2 hi
    rw [hid, ht.unexecuted] at hmarked
    cases hmarked
  heldAll hk i hm := by
    rw [hset.searches] at hk
    rw [ht.pending] at hm
    obtain ⟨hne, hm⟩ := (List.Nodup.mem_erase_iff h.pendingNodup).1 hm
    rcases ht.held with ⟨-, e⟩ | ⟨hp, -⟩
    · rw [hk] at e
      cases e
    · exact (mem_cons.1 (hp.mem_iff.1 (he.heldAll hk i hm))).resolve_left hne

/-- What is pending, from the order of the calls alone. -/
theorem Exact.mem_pending (h : PoolInv env r ins p) (id : Id) :
    id ∈ p.pending ↔ Stands (p.stored env) ins id ∧ id ∉ ret := by
  rw [← mem_absorbAll]
  have hkept : id ∈ absorbAll (p.stored env) ins ↔ ∃ t ∈ p.graph.traces, t.id = id := by
    rw [he.kept]
    constructor
    · intro hm
      exact ⟨_, mem_map.2 ⟨id, hm, rfl⟩, rfl⟩
    · intro ⟨t, ht, e⟩
      obtain ⟨i, hi, rfl⟩ := mem_map.1 ht
      rw [← e]
      exact hi
  rw [hkept]
  constructor
  · intro hm
    have hf := he.pending id hm
    obtain ⟨t, ht, rfl⟩ := h.known hf
    refine ⟨⟨t, ht, rfl⟩, fun hr => ?_⟩
    rw [(he.returned t ht).2 hr] at hf
    cases hf
  · intro ⟨⟨t, ht, e⟩, hr⟩
    subst e
    obtain ⟨b, hb⟩ := h.flag ht
    cases b with
    | true => exact absurd ((he.returned t ht).1 hb) hr
    | false => exact h.unexecuted t.id hb

/-- When nothing more can be selected, nothing is pending. -/
theorem Exact.drained [LinearOrder S] (h : PoolInv env r ins p)
    (hd : Drained env p) (hdist : p.descends = true →
      DistinctScores (calculateLeastTreadedScore env.scoring) p.graph.graph) : p.pending = [] := by
  refine eq_nil_iff_forall_not_mem.2 fun id hm => ?_
  cases hk : p.searches with
  | false =>
    have hheld := he.heldAll hk id hm
    rw [hd.keeping hk] at hheld
    cases hheld
  | true =>
    have hf := he.pending id hm
    obtain ⟨t, ht, rfl⟩ := h.known hf
    rw [hd.searching hk hdist t ht] at hf
    cases hf

end

/-- **Calling `next` empties the pool**: every call returns one of the pending traces, until there
    are none. -/
theorem Exact.drain [LinearOrder S] (ns : List Nat) : ∀ {p : TracePool S} {ret : List Id},
    PoolInv env r ins p → InStep p → Exact env ins ret p →
    (p.descends = true → p.graph.traces ≠ [] ∧
      DistinctScores (calculateLeastTreadedScore env.scoring) p.graph.graph) →
    ∃ rs p', run env p (ns.map .next) = .ok (rs, p') ∧
      (returnedIds rs ++ p'.pending).Perm p.pending ∧
      p'.countNext = p.countNext - ns.length := by
  induction ns with
  | nil => exact fun {p _} _ _ _ _ => ⟨[], p, rfl, .refl _, rfl⟩
  | cons n ns ih =>
    intro p ret h hs he hd
    obtain ⟨o, p', hnext, hset, hreg, hcase⟩ := next_cases h hs (fun e => (hd e).1) n
    have hcall : callPool env p (.next n) = .ok (.selected o, p') := by
      rw [callPool, hnext]
      rfl
    rcases hcase with ⟨rfl, hv, hdr⟩ | ⟨id, rfl, ht⟩
    · obtain ⟨rs, p'', hrun, hperm, hcount⟩ := ih (h.same hset hv hreg fun _ => id) (hs.same hv)
        (he.same hset hv) (fun e => by rw [hset.descends] at e; rw [hv.graph]; exact hd e)
      have hnil := he.drained h hdr fun e => (hd e).2
      refine ⟨.selected none :: rs, p'', ?_, ?_, ?_⟩
      · rw [map_cons, run, hcall, ok_bind, hrun]
        rfl
      · rw [← hv.pending]
        exact hperm
      · rw [hcount, TracePool.countNext, TracePool.countNext, hv.pending, hnil]
        simp
    · obtain ⟨rs, p'', hrun, hperm, hcount⟩ := ih (h.taken hset ht hreg) (hs.taken h ht)
        (he.taken h hset ht) (fun e => by
          rw [hset.descends] at e
          rw [ht.graph]
          exact hd e)
      have hmem := h.unexecuted id ht.unexecuted
      refine ⟨.selected (some id) :: rs, p'', ?_, ?_, ?_⟩
      · rw [map_cons, run, hcall, ok_bind, hrun]
        rfl
      · rw [ht.pending] at hperm
        exact (hperm.cons id).trans (perm_cons_erase hmem).symm
      · rw [hcount, TracePool.countNext, TracePool.countNext, ht.pending,
          length_erase_of_mem hmem, length_cons]
        omega

/-- One call that loses nothing. -/
theorem callPool_exact [LinearOrder S] (hcompress : KeepsFirst env.compress) {c : PoolCall S}
    (h : PoolInv env r ins p) (hs : InStep p) (he : Exact env ins ret p)
    (hf : Fresh env r ins (insertedIds [c])) (hok : CallExact env p c) :
    ∃ reply p', callPool env p c = .ok (reply, p') ∧ SameSetting p p' ∧
      Exact env (ins ++ insertedIds [c]) (ret ++ returnedIds [reply]) p' := by
  cases c with
  | insert id random =>
    obtain ⟨hid, bs, hb⟩ := hf id (.head _)
    obtain ⟨bs', hb'⟩ := stored_first hcompress hb p.analyzer.compressTraces
    obtain ⟨b, p', hins, hset, -, hcase⟩ := insert_cases h hid hb' random
    refine ⟨.inserted b, p', by rw [callPool, hins]; rfl, hset, ?_⟩
    rw [show returnedIds [PoolReply.inserted b] = [] from rfl, append_nil]
    rcases hcase with ⟨hv, hc⟩ | ⟨ha, -, hc⟩
    · exact (he.covered (hc hok.1)).same hset hv
    · exact he.added hid hset ha hc hok.2
  | next n =>
    obtain ⟨o, p', hnext, hset, -, hcase⟩ := next_cases h hs hok n
    refine ⟨.selected o, p', by rw [callPool, hnext]; rfl, hset, ?_⟩
    rw [show insertedIds [PoolCall.next (S := S) n] = [] from rfl, append_nil]
    rcases hcase with ⟨rfl, hv, -⟩ | ⟨id, rfl, ht⟩
    · rw [show returnedIds [PoolReply.selected none] = [] from rfl, append_nil]
      exact he.same hset hv
    · exact he.taken h hset ht

end Exactness

variable {env} in
/-- A call pends at most what it inserts, and returns only what it takes out. -/
theorem callPool_count [LinearOrder S] {p p' : TracePool S} {c : PoolCall S} {reply : PoolReply}
    (h : callPool env p c = .ok (reply, p')) (i : Id) :
    (returnedIds [reply]).count i + p'.pending.count i ≤
      (insertedIds [c]).count i + p.pending.count i := by
  cases c with
  | insert id random =>
    obtain ⟨⟨b, q⟩, hins, h⟩ := bind_eq_ok.1 h
    cases h
    have hsame : 0 + p.pending.count i ≤ [id].count i + p.pending.count i :=
      Nat.add_le_add_right (Nat.zero_le _) _
    unfold TracePool.insert at hins
    dsimp only at hins
    split at hins
    · obtain ⟨r, -, hins⟩ := bind_eq_ok.1 hins
      split at hins
      · cases hins
        change 0 + (p.pending.insert id).count i ≤ _
        rw [List.insert]
        split
        · exact hsame
        · rw [Nat.zero_add, ← count_append]
          rfl
      · cases hins
        exact hsame
    · cases hins
      exact hsame
  | next n =>
    obtain ⟨⟨o, q⟩, hnext, h⟩ := bind_eq_ok.1 h
    cases h
    obtain ⟨⟨o', a⟩, -, hnext⟩ := bind_eq_ok.1 hnext
    cases o' with
    | none =>
      cases hnext
      exact le_rfl
    | some id =>
      obtain ⟨q, htake, hnext⟩ := bind_eq_ok.1 hnext
      cases hnext
      obtain ⟨hmem, htake⟩ := ensure_bind_eq_ok.1 htake
      obtain ⟨b, -, htake⟩ := bind_eq_ok.1 htake
      cases htake
      change [id].count i + (p.pending.erase id).count i ≤ 0 + _
      rw [Nat.zero_add, ← count_append, (perm_cons_erase hmem).count_eq i]
      rfl

/-- **The pool hands out nothing that was not inserted, and nothing more often than it was**: for
    every strategy, all options, and any traces, ids used twice among them. -/
theorem run_count [LinearOrder S] (cs : List (PoolCall S)) : ∀ (p : TracePool S) {rs p'},
    run env p cs = .ok (rs, p') → ∀ i, (returnedIds rs).count i + p'.pending.count i ≤
      (insertedIds cs).count i + p.pending.count i := by
  induction cs with
  | nil =>
    intro p rs p' h i
    cases h
    exact le_rfl
  | cons c cs ih =>
    intro p rs p' h i
    obtain ⟨⟨reply, q⟩, hcall, h⟩ := bind_eq_ok.1 h
    obtain ⟨⟨rs, q'⟩, hrun, h⟩ := bind_eq_ok.1 h
    cases h
    have hone := callPool_count hcall i
    have hrest := ih q hrun i
    have hret : returnedIds (reply :: rs) = returnedIds [reply] ++ returnedIds rs :=
      filterMap_append (l := [reply])
    have hins : insertedIds (c :: cs) = insertedIds [c] ++ insertedIds cs :=
      filterMap_append (l := [c])
    rw [hret, hins, count_append, count_append]
    change _ + _ + q'.pending.count i ≤ _
    omega

/-- A trace that is inserted twice is handed out once, and is not pending again. -/
theorem run_count_twice : ∃ rs p, run (tableEnv [([1], [7])]) (.create .fifo ⟨true, false⟩)
      [.insert [1] 0, .next 0, .insert [1] 0] = .ok (rs, p) ∧
    ∀ i, (returnedIds rs).count i + p.pending.count i ≤ [[1], [1]].count i :=
  ⟨_, _, rfl, run_count (tableEnv [([1], [7])]) [.insert [1] 0, .next 0, .insert [1] 0]
    (.create .fifo ⟨true, false⟩) rfl⟩

end Crete.Traces
