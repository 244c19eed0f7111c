/-
  File:      Crete/Traces/Strategy.lean
  Subject:   The strategy "fifo" of the trace pool (trace_analyzer.cpp, set_selection_strategy).

  The string is mapped to the strategy `Weighted`; the FIFO selector is in the factory, but no
  string leads to it. The pool then returns the trace with the least score.

  * `fifoAnswers` -- what a queue answers. `InOrder` -- the pool answers so, whatever is drawn.
  * `Ordered` -- at every `next` the oldest pending trace has the least score of all.
  * **`fifo_inOrder_iff`** -- for all traces of which none begins another and all calls: the pool
    answers in insertion order exactly if they are `Ordered`.
-/
import Crete.Traces.Calls
import Crete.Traces.Conservation
import Crete.Traces.Scored

namespace Crete.Traces

open Crete.Lib List

variable {S : Type}

/-! ## 1. The strategies -/

/-- `set_selection_strategy`; the error is the text of the exception. -/
def setSelectionStrategy (strat : String) : Except String SelectionStrategy :=
  if strat = "bfs" then .ok .bfs
  else if strat = "exp-1" then .ok .exp1
  else if strat = "exp-2" then .ok .exp2
  else if strat = "random" then .ok .random
  else if strat = "weighted" then .ok .weighted
  else if strat = "fifo" then .ok .weighted
  else .error ("invalid selection strategy: " ++ strat)

/-- `TracePool::TracePool`. -/
def TracePool.configured (strat : String) (options : TraceOptions) :
    Except String (TracePool S) := do
  let s ← setSelectionStrategy strat
  return .create s options

/-! ## 2. The queue -/

/-- A call without what is drawn at random. -/
inductive PoolOp where
  | insert (id : Id)
  | next
  deriving DecidableEq, Repr

def PoolCall.op : PoolCall S → PoolOp
  | .insert id _ => .insert id
  | .next _ => .next

def insertedOps (ops : List PoolOp) : List Id :=
  ops.filterMap fun
    | .insert id => some id
    | .next => none

/-- What a queue answers to the calls of `next`. -/
def fifoAnswers : List Id → List PoolOp → List (Option Id)
  | _, [] => []
  | q, .insert id :: ops => fifoAnswers (q ++ [id]) ops
  | q, .next :: ops => q.head? :: fifoAnswers q.tail ops

/-- What the calls of `next` returned. -/
def selections (rs : List PoolReply) : List (Option Id) :=
  rs.filterMap fun
    | .selected o => some o
    | .inserted _ => none

section Conditions

variable [LinearOrder S] (env : Env S)

/-- **The pool answers as the queue `q` does**, whatever is drawn at random. -/
def InOrder (p : TracePool S) (q : List Id) (ops : List PoolOp) : Prop :=
  ∀ cs, cs.map PoolCall.op = ops → ∃ rs p', run env p cs = .ok (rs, p') ∧
    selections rs = fifoAnswers q ops

omit [LinearOrder S] in
/-- The least-treaded score of a trace, as the pool stores it. -/
def treadScore (o : TraceOptions) (id : Id) : S :=
  BlockRule.leastTreaded.score env.scoring (env.stored o.compress id)

/-- The blocks can be inserted below this root. -/
def FitsRoot (root : Option Block) (blocks : List Block) : Prop :=
  blocks ≠ [] ∧ ∀ r ∈ root, blocks.head? = some r
  deriving Decidable

/-- **Whenever `next` is called, the oldest pending trace has a smaller score than all other
    pending ones**, and the traces are filtered; what is inserted has blocks and begins with the
    block of the first one. `q` are the pending traces, the oldest first. -/
def Ordered (o : TraceOptions) : Option Block → List Id → List PoolOp → Prop
  | _, _, [] => True
  | root, q, .insert id :: ops =>
    (o.filterTraces = true → FitsRoot root (env.stored o.compress id)) ∧
      Ordered o (root.or (env.stored o.compress id).head?) (q ++ [id]) ops
  | root, [], .next :: ops => Ordered o root [] ops
  | root, id :: q, .next :: ops =>
    (o.filterTraces = true ∧ ∀ u ∈ q, treadScore env o id < treadScore env o u) ∧
      Ordered o root q ops

end Conditions

/-! ## 3. The answers, call by call -/

section Calls

variable {env : Env S}

/-- Some calls with these operations. -/
theorem exists_calls (random : S) (ops : List PoolOp) :
    ∃ cs : List (PoolCall S), cs.map PoolCall.op = ops := by
  refine ⟨ops.map fun
    | .insert id => .insert id random
    | .next => .next 0, ?_⟩
  rw [map_map]
  refine (map_congr_left fun op _ => ?_).trans (map_id ops)
  cases op <;> rfl

variable [LinearOrder S]

variable {p p' : TracePool S}

theorem run_cons {c : PoolCall S} {cs : List (PoolCall S)}
    {rs : List PoolReply} : run env p (c :: cs) = .ok (rs, p') ↔
      ∃ reply p₁ rs', callPool env p c = .ok (reply, p₁) ∧ run env p₁ cs = .ok (rs', p') ∧
        rs = reply :: rs' := by
  rw [run]
  constructor
  · intro h
    obtain ⟨⟨reply, p₁⟩, hc, h⟩ := bind_eq_ok.1 h
    obtain ⟨⟨rs', p₂⟩, hr, h⟩ := bind_eq_ok.1 h
    cases h
    exact ⟨reply, p₁, rs', hc, hr, rfl⟩
  · intro h
    obtain ⟨reply, p₁, rs', hc, hr, e⟩ := h
    rw [hc, ok_bind, hr, e]
    rfl

theorem inOrder_nil (p : TracePool S) (q : List Id) : InOrder env p q [] := by
  intro cs hcs
  rw [map_eq_nil_iff.1 hcs]
  exact ⟨[], p, rfl, rfl⟩

theorem inOrder_insert {p : TracePool S} {q : List Id} {id : Id} {ops : List PoolOp} :
    InOrder env p q (.insert id :: ops) ↔ ∀ random, ∃ b p',
      p.insert env id random = .ok (b, p') ∧ InOrder env p' (q ++ [id]) ops := by
  constructor
  · intro h random
    -- the pool after this call is the same in all runs
    have hrun : ∀ cs, cs.map PoolCall.op = ops → ∃ b p' rs p'',
        p.insert env id random = .ok (b, p') ∧ run env p' cs = .ok (rs, p'') ∧
          selections rs = fifoAnswers (q ++ [id]) ops := by
      intro cs hcs
      obtain ⟨rs, p'', hr, hsel⟩ := h (.insert id random :: cs) (by rw [map_cons, hcs]; rfl)
      obtain ⟨reply, p', rs', hc, hr', e⟩ := run_cons.1 hr
      obtain ⟨⟨b, p₁⟩, hi, hc'⟩ := bind_eq_ok.1 hc
      cases hc'
      rw [e] at hsel
      exact ⟨b, p₁, rs', p'', hi, hr', hsel⟩
    obtain ⟨cs, hcs⟩ := exists_calls (env.scoring.ofCount 0) ops
    obtain ⟨b, p', -, -, hi, -⟩ := hrun cs hcs
    refine ⟨b, p', hi, fun cs hcs => ?_⟩
    obtain ⟨b', p₁, rs, p'', hi', hr, hsel⟩ := hrun cs hcs
    cases hi.symm.trans hi'
    exact ⟨rs, p'', hr, hsel⟩
  · intro h cs hcs
    cases cs with
    | nil => cases hcs
    | cons c cs =>
      obtain ⟨hc, hrest⟩ := List.cons.inj hcs
      cases c with
      | next n => cases hc
      | insert i random =>
        cases hc
        obtain ⟨b, p', hi, hin⟩ := h random
        obtain ⟨rs, p'', hr, hsel⟩ := hin cs hrest
        refine ⟨.inserted b :: rs, p'', run_cons.2 ⟨_, p', rs, ?_, hr, rfl⟩, hsel⟩
        rw [callPool, hi]
        rfl

theorem inOrder_next {p : TracePool S} {q : List Id} {ops : List PoolOp} :
    InOrder env p q (.next :: ops) ↔ ∀ n, ∃ p',
      p.next env n = .ok (q.head?, p') ∧ InOrder env p' q.tail ops := by
  constructor
  · intro h n
    have hrun : ∀ cs, cs.map PoolCall.op = ops → ∃ p' rs p'',
        p.next env n = .ok (q.head?, p') ∧ run env p' cs = .ok (rs, p'') ∧
          selections rs = fifoAnswers q.tail ops := by
      intro cs hcs
      obtain ⟨rs, p'', hr, hsel⟩ := h (.next n :: cs) (by rw [map_cons, hcs]; rfl)
      obtain ⟨reply, p', rs', hc, hr', e⟩ := run_cons.1 hr
      obtain ⟨⟨o, p₁⟩, hn, hc'⟩ := bind_eq_ok.1 hc
      cases hc'
      rw [e] at hsel
      obtain ⟨ho, hsel⟩ := List.cons.inj (show o :: selections rs' = _ from hsel)
      rw [ho] at hn
      exact ⟨p₁, rs', p'', hn, hr', hsel⟩
    obtain ⟨cs, hcs⟩ := exists_calls (env.scoring.ofCount 0) ops
    obtain ⟨p', -, -, hn, -⟩ := hrun cs hcs
    refine ⟨p', hn, fun cs hcs => ?_⟩
    obtain ⟨p₁, rs, p'', hn', hr, hsel⟩ := hrun cs hcs
    cases hn.symm.trans hn'
    exact ⟨rs, p'', hr, hsel⟩
  · intro h cs hcs
    cases cs with
    | nil => cases hcs
    | cons c cs =>
      obtain ⟨hc, hrest⟩ := List.cons.inj hcs
      cases c with
      | insert i random => cases hc
      | next n =>
        obtain ⟨p', hn, hin⟩ := h n
        obtain ⟨rs, p'', hr, hsel⟩ := hin cs hrest
        refine ⟨.selected q.head? :: rs, p'', run_cons.2 ⟨_, p', rs, ?_, hr, rfl⟩, ?_⟩
        · rw [callPool, hn]
          rfl
        · exact congrArg (q.head? :: ·) hsel

/-! ## 4. What the calls do to the selector -/

omit [LinearOrder S] in
/-- A filtered insert: the trace is merged into the graph and, if new, submitted. -/
theorem insert_inv {id : Id} {random : S} {b : Bool}
    (hf : p.options.filterTraces = true) (h : p.insert env id random = .ok (b, p')) :
    ∃ x, p.graph.insert ⟨id, p.stored env id⟩ = .ok x ∧ (x.1 = false ∧ p'.pending = p.pending ∨
        x.1 = true ∧ p.analyzer.selector.submit env.scoring random ⟨id, p.stored env id⟩ =
          .ok p'.analyzer.selector) := by
  simp only [TracePool.insert, hf, if_true] at h
  obtain ⟨r, hr, h⟩ := bind_eq_ok.1 h
  rw [Analyzer.insertTrace] at hr
  obtain ⟨x, hx, hr⟩ := bind_eq_ok.1 hr
  refine ⟨x, hx, ?_⟩
  by_cases hb : x.1 = true
  · rw [if_pos hb] at hr
    obtain ⟨sel, hs, hr⟩ := bind_eq_ok.1 hr
    cases hr
    cases h
    refine .inr ⟨hb, hs.trans (congrArg Except.ok ?_)⟩
    show sel = Analyzer.selector (Analyzer.submitToUnexecutedBlockRegistry _ _)
    unfold Analyzer.submitToUnexecutedBlockRegistry
    split <;> rfl
  · rw [if_neg hb] at hr
    cases hr
    cases h
    exact .inl ⟨Bool.eq_false_of_not_eq_true hb, rfl⟩

omit [LinearOrder S] in
/-- Submitting a trace as executed leaves the selector alone. -/
theorem take_selector {id : Id} (h : p.take env id = .ok p') :
    p'.analyzer.selector = p.analyzer.selector := by
  obtain ⟨-, -, h⟩ := bind_eq_ok.1 h
  obtain ⟨a, ha, h⟩ := bind_eq_ok.1 h
  cases h
  obtain ⟨-, -, ha⟩ := bind_eq_ok.1 ha
  obtain ⟨ts, -, ha⟩ := bind_eq_ok.1 ha
  cases ha
  rfl

/-- `next` of a selector that keeps scores. -/
theorem next_inv {n : Nat} {o : Option Id} {rule : ScoreRule}
    {scores : List (Trace × S)} (hsel : p.analyzer.selector = .scored rule scores)
    (h : p.next env n = .ok (o, p')) : ∃ x scores', nextScored scores n = .ok (x, scores') ∧
      o = x.map Trace.id ∧ p'.analyzer.selector = .scored rule scores' := by
  rw [TracePool.next] at h
  obtain ⟨⟨o', a⟩, ha, h⟩ := bind_eq_ok.1 h
  simp only [Analyzer.next, hsel] at ha
  obtain ⟨⟨x, scores'⟩, hx, ha⟩ := bind_eq_ok.1 ha
  cases ha
  refine ⟨x, scores', hx, ?_⟩
  cases x with
  | none =>
    cases h
    exact ⟨rfl, rfl⟩
  | some t =>
    obtain ⟨p₁, ht, h⟩ := bind_eq_ok.1 h
    cases h
    exact ⟨rfl, take_selector ht⟩

end Calls

/-! ## 5. The pool and the queue -/

section Standing

variable [LinearOrder S] {env : Env S} {o : TraceOptions} {root : Option Block}
  {ins q : List Id} {p : TracePool S}

omit [LinearOrder S] in
variable (env o) in
/-- What the selector keeps of a trace. -/
def entry (id : Id) : Trace × S := (⟨id, env.stored o.compress id⟩, treadScore env o id)

omit [LinearOrder S] in
/-- The pool with filtered traces, when `ins` were inserted and `q` are pending. -/
structure Standing (env : Env S) (o : TraceOptions) (root : Option Block) (ins q : List Id)
    (p : TracePool S) : Prop where
  options : p.options = o
  compress : p.analyzer.compressTraces = o.compress
  inv : ∀ r, (∀ r' ∈ root, r' = r) → PoolInv env r ins p
  inStep : InStep p
  grown : ∀ r ∈ root, GraphInv r p.graph
  selector : p.analyzer.selector = .scored .leastTreaded (q.map (entry env o))

omit [LinearOrder S] in
theorem Standing.stored (h : Standing env o root ins q p) (id : Id) :
    p.stored env id = env.stored o.compress id := by
  rw [TracePool.stored, h.compress]

omit [LinearOrder S] in
theorem Standing.exists_inv (h : Standing env o root ins q p) : ∃ r, PoolInv env r ins p := by
  cases root with
  | none => exact ⟨0, h.inv 0 fun _ hr => by cases hr⟩
  | some r => exact ⟨r, h.inv r fun r' hr => (Option.some.inj hr).symm⟩

omit [LinearOrder S] in
theorem Standing.held (h : Standing env o root ins q p) : p.held = q := by
  rw [TracePool.held, h.selector, Selector.held, map_map]
  exact map_id q

omit [LinearOrder S] in
theorem Standing.nodup (h : Standing env o root ins q p) : q.Nodup := by
  obtain ⟨r, hinv⟩ := h.exists_inv
  rw [← h.held]
  exact hinv.heldNodup

omit [LinearOrder S] in
/-- The selector keeps the pending traces, all different, with their scores. -/
theorem Standing.keeps (h : Standing env o root ins q p) :
    Keeps env.scoring .leastTreaded (q.map (entry env o)) where
  ids := by
    rw [map_map]
    exact (map_id q).symm ▸ h.nodup
  scored e he := by
    obtain ⟨id, -, rfl⟩ := mem_map.1 he
    rfl

omit [LinearOrder S] in
/-- **An insert** of a trace that fits. -/
theorem Standing.insert (h : Standing env o root ins q p) (hf : o.filterTraces = true) {id : Id}
    (hfit : FitsRoot root (env.stored o.compress id))
    (hapart : ∀ i ∈ ins, ¬ env.stored o.compress i <+: env.stored o.compress id ∧
      ¬ env.stored o.compress id <+: env.stored o.compress i) (random : S) :
    ∃ b p', p.insert env id random = .ok (b, p') ∧
      Standing env o (root.or (env.stored o.compress id).head?) (ins ++ [id]) (q ++ [id]) p' := by
  obtain ⟨hne, hroot⟩ := hfit
  obtain ⟨b, bs, hb⟩ := exists_cons_of_ne_nil hne
  have hrb : ∀ r ∈ root, r = b := by
    intro r hr
    have := hroot r hr
    rw [hb] at this
    exact (Option.some.inj this).symm
  have hinv := h.inv b hrb
  have hid : id ∉ ins := fun hm => (hapart id hm).1 prefix_rfl
  have hfilter : p.options.filterTraces = true := by
    rw [h.options]
    exact hf
  -- no kept trace begins the new one or is begun by it
  have hkept : ∀ t ∈ p.graph.traces, ¬ t.blocks <+: p.stored env id ∧
      ¬ p.stored env id <+: t.blocks := by
    intro t ht
    obtain ⟨hm, hbt⟩ := hinv.traces t ht
    rw [hbt, h.stored, h.stored]
    exact hapart t.id hm
  have hnew : ¬ Covered env p id := fun ⟨t, ht, hp⟩ => (hkept t ht).2 hp
  obtain ⟨x, p', hins, hset, hreg, hcase⟩ := insert_cases hinv hid
    (by rw [h.stored]; exact hb) random
  obtain ⟨ha, -, -⟩ := hcase.resolve_left fun hv => hnew (hv.2 hfilter)
  have hor : ∀ r, (∀ r' ∈ root.or (some b), r' = r) → b = r := by
    intro r hr
    cases root with
    | none => exact hr b rfl
    | some r₀ => exact (hrb r₀ rfl).symm.trans (hr r₀ rfl)
  refine ⟨x, p', hins, hset.options.trans h.options, hset.compress.trans h.compress, fun r hr => ?_,
    h.inStep.added hinv ha hnew fun _ ⟨t, ht, _, hp, _⟩ => (hkept t ht).1 hp, fun r hr => ?_, ?_⟩
  · rw [hb] at hr
    rw [← hor r hr]
    exact hinv.added hid hset ha hreg
  · rw [hb] at hr
    have hbr : b = r := by
      cases root with
      | none => exact Option.some.inj hr
      | some r₀ => exact (hrb r₀ rfl).symm.trans (Option.some.inj hr)
    rw [← hbr]
    exact ha.graph.inv
  · obtain ⟨y, -, hy⟩ := insert_inv hfilter hins
    rcases hy with ⟨-, hpend⟩ | ⟨-, hsub⟩
    · -- the trace is pending, so it was new
      exfalso
      have hm : id ∈ p'.pending := by
        rw [ha.pending]
        exact mem_insert_self
      rw [hpend] at hm
      exact hid (hinv.pendingIns id hm)
    · have hfresh : id ∉ (q.map (entry env o)).map (·.1.id) := by
        rw [map_map]
        intro hm
        obtain ⟨i, hi, e⟩ := mem_map.1 hm
        rw [← h.held] at hi
        rw [← show i = id from e] at hid
        exact hid (hinv.pendingIns i (hinv.heldPending i hi))
      have hkeep := (h.keeps.submit (t := ⟨id, env.stored o.compress id⟩) random hne hfresh).1
      rw [h.selector, Selector.submit, h.stored] at hsub
      rw [map_append]
      exact (Except.ok.inj ((congrArg (Except.map _) hkeep).symm.trans hsub)).symm

/-- `next`, once it is known what the selector does. -/
theorem Standing.next (h : Standing env o root ins q p) {n : Nat} {x : Option Trace}
    {q' : List Id} (hx : nextScored (q.map (entry env o)) n = .ok (x, q'.map (entry env o))) :
    ∃ p', p.next env n = .ok (x.map Trace.id, p') ∧ Standing env o root ins q' p' := by
  obtain ⟨r, hinv⟩ := h.exists_inv
  have hdesc : p.descends = true → p.graph.traces ≠ [] := by
    rw [TracePool.descends, h.selector]
    exact fun e => by cases e
  obtain ⟨o', p', hn, hset, hreg, hcase⟩ := next_cases hinv h.inStep hdesc n
  obtain ⟨x', scores', hx', ho, hsel⟩ := next_inv h.selector hn
  cases hx.symm.trans hx'
  rw [ho] at hn
  refine ⟨p', hn, hset.options.trans h.options, hset.compress.trans h.compress, fun r hr => ?_, ?_,
    fun r hr => ?_, hsel⟩
  · rcases hcase with ⟨-, hv, -⟩ | ⟨id, -, ht⟩
    · exact (h.inv r hr).same hset hv hreg fun _ => id
    · exact (h.inv r hr).taken hset ht hreg
  · rcases hcase with ⟨-, hv, -⟩ | ⟨id, -, ht⟩
    · exact h.inStep.same hv
    · exact h.inStep.taken hinv ht
  · rcases hcase with ⟨-, hv, -⟩ | ⟨id, -, ht⟩
    · rw [hv.graph]
      exact h.grown r hr
    · rw [ht.graph]
      exact (h.grown r hr).mark (by rw [ht.unexecuted]; exact Option.some_ne_none false)

/-- `next` with nothing pending. -/
theorem Standing.next_nil (h : Standing env o root ins [] p) (n : Nat) :
    ∃ p', p.next env n = .ok (none, p') ∧ Standing env o root ins [] p' :=
  h.next (show nextScored [] n = .ok (none, ([] : List Id).map (entry env o)) from rfl)

omit [LinearOrder S] in
/-- Forgetting a trace. -/
theorem eraseP_entry (i : Id) (l : List Id) : ((l.map (entry env o)).eraseP fun e => e.1.id = i) =
      (l.eraseP fun j => j = i).map (entry env o) :=
  eraseP_map

/-- `next` where the oldest pending trace has the least score. -/
theorem Standing.next_least {id : Id} (h : Standing env o root ins (id :: q) p)
    (hlt : ∀ u ∈ q, treadScore env o id < treadScore env o u) (n : Nat) :
    ∃ p', p.next env n = .ok (some id, p') ∧ Standing env o root ins q p' := by
  have hne : (id :: q).map (entry env o) ≠ [] := cons_ne_nil _ _
  obtain ⟨e, he, hle, hn⟩ := nextScored_pick hne n
  obtain ⟨i, hi, rfl⟩ := mem_map.1 he
  obtain rfl : i = id := by
    rcases mem_cons.1 hi with e | hi
    · exact e
    · exact absurd (hle (entry env o id) (.head _)) (not_le.2 (hlt i hi))
  rw [show (entry env o i).1.id = i from rfl, eraseP_entry,
    eraseP_cons_of_pos (p := fun j => j = i) (decide_eq_true rfl)] at hn
  exact h.next hn

/-- `next` where another pending trace has no greater score: at some random number another one
    is returned. -/
theorem Standing.next_other {id u : Id} (h : Standing env o root ins (id :: q) p) (hu : u ∈ q)
    (hle : treadScore env o u ≤ treadScore env o id) :
    ∃ n p' i, i ≠ id ∧ p.next env n = .ok (some i, p') := by
  -- the least of the others is the least of all
  have hne : q.map (entry env o) ≠ [] := fun e =>
    ne_nil_of_mem hu (map_eq_nil_iff.1 e)
  obtain ⟨e, he, hmin, -⟩ := nextScored_pick hne 0
  obtain ⟨i, hi, rfl⟩ := mem_map.1 he
  have hleast : ∀ e ∈ (id :: q).map (entry env o), (entry env o i).2 ≤ e.2 := by
    intro e he
    rcases mem_cons.1 he with rfl | he
    · exact le_trans (hmin (entry env o u) (mem_map_of_mem hu)) hle
    · exact hmin e he
  obtain ⟨n, hn⟩ := nextScored_any (.tail _ he) hleast
  rw [show (entry env o i).1.id = i from rfl, ← map_cons, eraseP_entry] at hn
  obtain ⟨p', hp', -⟩ := h.next hn
  refine ⟨n, p', i, fun e => ?_, hp'⟩
  rw [e] at hi
  exact (nodup_cons.1 h.nodup).1 hi

omit [LinearOrder S] in
/-- What can be inserted fits. -/
theorem Standing.fits (h : Standing env o root ins q p) (hf : o.filterTraces = true) {id : Id}
    (hapart : ∀ i ∈ ins, ¬ env.stored o.compress id <+: env.stored o.compress i) {random : S}
    {b : Bool} {p' : TracePool S} (hi : p.insert env id random = .ok (b, p')) :
    FitsRoot root (env.stored o.compress id) := by
  obtain ⟨x, hx, hsub⟩ := insert_inv (by rw [h.options]; exact hf) hi
  rw [h.stored] at hx hsub
  cases hb : env.stored o.compress id with
  | nil =>
    -- an empty trace is the first one, and has no score
    exfalso
    obtain ⟨r, hinv⟩ := h.exists_inv
    have hnil : p.graph.traces = [] := by
      refine eq_nil_iff_forall_not_mem.2 fun t ht => ?_
      refine hapart t.id (hinv.traces t ht).1 ?_
      rw [hb]
      exact nil_prefix
    rw [TraceGraph.insert, if_pos hnil] at hx
    cases hx
    rcases hsub with ⟨e, -⟩ | ⟨-, hsub⟩
    · cases e
    · rw [h.selector, hb] at hsub
      cases hsub
  | cons c bs =>
    refine ⟨cons_ne_nil c bs, fun r hr => ?_⟩
    rw [hb] at hx
    rw [first_block (h.grown r hr).traces_ne_nil (h.grown r hr).spells.root rfl hx]
    rfl

/-- No trace begins another. -/
abbrev Unrelated (env : Env S) (o : TraceOptions) (i j : Id) : Prop :=
  ¬ env.stored o.compress i <+: env.stored o.compress j ∧
    ¬ env.stored o.compress j <+: env.stored o.compress i

/-- **With filtered traces**: in insertion order exactly if ordered. -/
theorem Standing.inOrder_iff (hf : o.filterTraces = true) (ops : List PoolOp) :
    ∀ {root : Option Block} {ins q : List Id} {p : TracePool S}, Standing env o root ins q p →
    (ins ++ insertedOps ops).Pairwise (Unrelated env o) →
    (InOrder env p q ops ↔ Ordered env o root q ops) := by
  induction ops with
  | nil =>
    intro root ins q p _ _
    rw [Ordered]
    exact ⟨fun _ => trivial, fun _ => inOrder_nil p q⟩
  | cons op ops ih =>
    intro root ins q p h hapart
    cases op with
    | insert id =>
      have hsplit : ins ++ insertedOps (.insert id :: ops) = (ins ++ [id]) ++ insertedOps ops := by
        rw [append_assoc]
        rfl
      rw [hsplit] at hapart
      have hid : ∀ i ∈ ins, Unrelated env o i id := fun i hi =>
        (pairwise_append.1 (pairwise_append.1 hapart).1).2.2 i hi id (mem_singleton_self id)
      rw [inOrder_insert, Ordered]
      constructor
      · intro hin
        obtain ⟨b, p', hi, hrest⟩ := hin (env.scoring.ofCount 0)
        have hfit := h.fits hf (fun i hm => (hid i hm).2) hi
        obtain ⟨b', p₁, hi', h'⟩ := h.insert hf hfit hid (env.scoring.ofCount 0)
        cases hi.symm.trans hi'
        exact ⟨fun _ => hfit, (ih h' hapart).1 hrest⟩
      · intro ⟨hfit, hrest⟩ random
        obtain ⟨b, p', hi, h'⟩ := h.insert hf (hfit hf) hid random
        exact ⟨b, p', hi, (ih h' hapart).2 hrest⟩
    | next =>
      rw [inOrder_next]
      cases q with
      | nil =>
        rw [Ordered]
        constructor
        · intro hin
          obtain ⟨p', hn, hrest⟩ := hin 0
          obtain ⟨p₁, hn', h'⟩ := h.next_nil 0
          cases hn.symm.trans hn'
          exact (ih h' hapart).1 hrest
        · intro hrest n
          obtain ⟨p', hn, h'⟩ := h.next_nil n
          exact ⟨p', hn, (ih h' hapart).2 hrest⟩
      | cons id q =>
        rw [Ordered]
        constructor
        · intro hin
          have hlt : ∀ u ∈ q, treadScore env o id < treadScore env o u := by
            intro u hu
            refine lt_of_not_ge fun hle => ?_
            obtain ⟨n, p', i, hne, hn⟩ := h.next_other hu hle
            obtain ⟨p₁, hn', -⟩ := hin n
            cases hn.symm.trans hn'
            exact hne rfl
          obtain ⟨p', hn, hrest⟩ := hin 0
          obtain ⟨p₁, hn', h'⟩ := h.next_least hlt 0
          cases hn.symm.trans hn'
          exact ⟨⟨hf, hlt⟩, (ih h' hapart).1 hrest⟩
        · intro ⟨⟨_, hlt⟩, hrest⟩ n
          obtain ⟨p', hn, h'⟩ := h.next_least hlt n
          exact ⟨p', hn, (ih h' hapart).2 hrest⟩

omit [LinearOrder S] in
/-- The pool without filtered traces: nothing is ever submitted. -/
structure Idle (o : TraceOptions) (p : TracePool S) : Prop where
  options : p.options = o
  filter : o.filterTraces = false
  selector : p.analyzer.selector = .scored .leastTreaded []

omit [LinearOrder S] in
theorem Idle.insert (h : Idle o p) (id : Id) (random : S) :
    ∃ p', p.insert env id random = .ok (false, p') ∧ Idle o p' := by
  have hf : ¬ p.options.filterTraces = true := by
    rw [h.options, h.filter]
    exact Bool.false_ne_true
  refine ⟨{ p with all := p.all.insert id }, ?_, h.options, h.filter, h.selector⟩
  simp only [TracePool.insert, hf]
  rfl

theorem Idle.next (h : Idle o p) (n : Nat) : ∃ p', p.next env n = .ok (none, p') ∧ Idle o p' := by
  refine ⟨{ p with analyzer := { p.analyzer with selector := .scored .leastTreaded [] } },
    next_of_none ?_, h.options, h.filter, rfl⟩
  simp only [Analyzer.next, h.selector]
  rfl

/-- **Without the filter**: in insertion order exactly if `next` is not called after an
    insert. -/
theorem Idle.inOrder_iff (ops : List PoolOp) : ∀ {root : Option Block} {q : List Id}
    {p : TracePool S}, Idle o p → (InOrder env p q ops ↔ Ordered env o root q ops) := by
  induction ops with
  | nil =>
    intro root q p _
    rw [Ordered]
    exact ⟨fun _ => trivial, fun _ => inOrder_nil p q⟩
  | cons op ops ih =>
    intro root q p h
    cases op with
    | insert id =>
      rw [inOrder_insert, Ordered]
      constructor
      · intro hin
        obtain ⟨b, p', hi, hrest⟩ := hin (env.scoring.ofCount 0)
        obtain ⟨p₁, hi', h'⟩ := h.insert id (env.scoring.ofCount 0)
        cases hi.symm.trans hi'
        exact ⟨(fun e => by rw [h.filter] at e; cases e), (ih h').1 hrest⟩
      · intro ⟨_, hrest⟩ random
        obtain ⟨p', hi, h'⟩ := h.insert id random
        exact ⟨false, p', hi, (ih h').2 hrest⟩
    | next =>
      rw [inOrder_next]
      cases q with
      | nil =>
        rw [Ordered]
        constructor
        · intro hin
          obtain ⟨p', hn, hrest⟩ := hin 0
          obtain ⟨p₁, hn', h'⟩ := h.next 0
          cases hn.symm.trans hn'
          exact (ih h').1 hrest
        · intro hrest n
          obtain ⟨p', hn, h'⟩ := h.next n
          exact ⟨p', hn, (ih h').2 hrest⟩
      | cons id q =>
        rw [Ordered]
        constructor
        · intro hin
          obtain ⟨p', hn, -⟩ := hin 0
          obtain ⟨p₁, hn', -⟩ := h.next 0
          cases hn.symm.trans hn'
        · intro ⟨⟨e, _⟩, _⟩
          rw [h.filter] at e
          cases e

omit [LinearOrder S] in
/-- A new pool. -/
theorem standing_create (env : Env S) (o : TraceOptions) :
    Standing env o none [] [] (.create .weighted o) where
  options := rfl
  compress := rfl
  inv _ _ := (create_inv .weighted o).1
  inStep := by
    intro id hm
    rw [create_held] at hm
    cases hm
  grown _ hr := by cases hr
  selector := rfl

end Standing

/-- **The strategy "fifo"**: for all traces none of which begins another, and all calls, the pool
    returns them in insertion order, whatever is drawn, exactly if they are ordered. -/
theorem fifo_inOrder_iff [LinearOrder S] (env : Env S) (o : TraceOptions) (ops : List PoolOp)
    (hapart : (insertedOps ops).Pairwise (Unrelated env o)) :
    ∃ p, TracePool.configured "fifo" o = .ok p ∧
      (InOrder env p [] ops ↔ Ordered env o none [] ops) := by
  refine ⟨.create .weighted o, rfl, ?_⟩
  cases hf : o.filterTraces with
  | true => exact (standing_create env o).inOrder_iff hf ops hapart
  | false => exact Idle.inOrder_iff ops ⟨rfl, hf, rfl⟩

/-- The first of two traces repeats no block, the second one does. -/
theorem fifo_inOrder_two : ∃ p, TracePool.configured "fifo" ⟨true, false⟩ = .ok p ∧
    (InOrder (tableEnv [([1], [7, 9]), ([2], [7, 8, 8, 8])]) p []
        [.insert [1], .insert [2], .next] ↔
      Ordered (tableEnv [([1], [7, 9]), ([2], [7, 8, 8, 8])]) ⟨true, false⟩ none []
        [.insert [1], .insert [2], .next]) :=
  fifo_inOrder_iff (tableEnv [([1], [7, 9]), ([2], [7, 8, 8, 8])]) ⟨true, false⟩
    [.insert [1], .insert [2], .next] (by decide)

/-- **It is no queue**: the trace inserted second is returned first, because it repeats no
    block. -/
theorem fifo_slip : ∃ p p', TracePool.configured "fifo" ⟨true, false⟩ = .ok p ∧
    run (tableEnv [([1], [7, 8, 8, 8]), ([2], [7, 9])]) p [.insert [1] 0, .insert [2] 0, .next 0] =
      .ok ([.inserted true, .inserted true, .selected (some [2])], p') :=
  ⟨_, _, rfl, rfl⟩

end Crete.Traces
