/-
  File:      Crete/Cluster/Forwarding.lean
  Subject:   What becomes of the tests that an SVM node generates (`SVMNode::poll`,
             lib/cluster/svm_node.cpp; `KleeFSM_`, lib/cluster/svm_node_fsm.cpp).

  An instance keeps its tests in a buffer that it never clears: `clean` is commented out in the row
  of `ResultReady`. The tests of the next trace replace those of the last one, but if the next trace
  fails before it has any, the node takes the old ones out of the buffer once more.

  * `SvmOp`, `SvmNode.ops` -- what a turn does to the queues, and the tests that are generated in
    it; **`pollInstance_base`** -- it does nothing else to them.
  * `bookJob` -- the books of an instance: a trace is a job, and what is pushed at its end is what
    was generated in it.
  * `SvmRun.Meets` -- no exception hits an instance whose buffer holds tests of an earlier trace.
  * **`tests_forwarded`** -- in every run where this is so and every task ends, every test is pushed
    exactly once.
-/
import Crete.Cluster.Node
import Crete.Lib.Ledger

namespace Crete.Cluster

open Crete.Lib List

variable {T D E : Type}

/-! ## 1. What a turn does to the queues -/

/-- An operation of `poll` on the queues of the node, or the end of a retrieval with its tests. -/
inductive SvmOp (T D E : Type) where
  | popTrace (t : Trace (Item D))
  | generate (tests : List (Item T))
  | pushTests (tests : List (Item T))
  | pushError (e : Item E)
  deriving DecidableEq, Repr

def SvmOp.perform (b : Node T D E) : SvmOp T D E → Node T D E
  | .popTrace _ => { b with traces := b.traces.tail }
  | .generate _ => b
  | .pushTests tests => { b with tests := b.tests ++ tests }
  | .pushError e => { b with errors := b.errors ++ [e] }

/-- A `SymbolicExecException` brings the tests that were generated before it. -/
def Klee.generates (k : Klee T D E) : SvmOutcome T E → List (SvmOp T D E)
  | .throws (some tests) _ => if k.state = .storeTests then [.generate (k.derive tests)] else []
  | _ => []

/-- The operations of one turn. -/
def SvmNode.ops (n : SvmNode T D E) (k : Klee T D E) (out : SvmOutcome T E) : List (SvmOp T D E) :=
  if k.state = .nextTrace then n.base.traces.head?.toList.map .popTrace
  else if k.state = .resultReady then [.pushTests k.tests]
  else if k.error then k.errorLog.toList.map .pushError ++ [.pushTests k.tests]
  else k.generates out

/-- **A turn does these operations to the queues, and nothing else.** -/
theorem SvmNode.pollInstance_base (n : SvmNode T D E) (k : Klee T D E) (out : SvmOutcome T E) :
    (n.pollInstance k out).1.base = (n.ops k out).foldl SvmOp.perform n.base := by
  unfold SvmNode.pollInstance SvmNode.ops
  split
  · cases ht : n.base.traces with
    | nil => rfl
    | cons t rest =>
      show { n.base with traces := rest } = { n.base with traces := n.base.traces.tail }
      rw [ht]
      rfl
  · split
    · rfl
    · split
      · cases k.errorLog with
        | none =>
          show Node.mk _ _ (n.base.errors ++ []) _ _ _ = Node.mk _ _ n.base.errors _ _ _
          rw [append_nil]
        | some e => rfl
      · cases out with
        | waits | goes => rfl
        | throws tests log =>
          cases tests with
          | none => rfl
          | some tests =>
            show n.base = foldl _ _ (if _ then _ else _)
            split <;> rfl

/-- **The turns there are**: the operations, and the instance after them. -/
inductive SvmTurn (n : SvmNode T D E) (k : Klee T D E) (out : SvmOutcome T E) :
    List (SvmOp T D E) → Klee T D E → Prop where
  | noTrace (state : k.state = .nextTrace) (empty : n.base.traces = []) : SvmTurn n k out [] k
  | taken {t : Trace (Item D)} (state : k.state = .nextTrace) :
      SvmTurn n k out [.popTrace t] { k with state := .prepare, trace := some t }
  | ready (state : k.state = .resultReady) :
      SvmTurn n k out [.pushTests k.tests] { k with state := .nextTrace }
  | failed (next : k.state ≠ .nextTrace) (ready : k.state ≠ .resultReady) (error : k.error = true) :
      SvmTurn n k out (k.errorLog.toList.map .pushError ++ [.pushTests k.tests]) Klee.new.begin
  | polled (next : k.state ≠ .nextTrace) (ready : k.state ≠ .resultReady)
      (error : k.error = false) : SvmTurn n k out (k.generates out) (k.poll out)

theorem SvmNode.pollInstance_turn (n : SvmNode T D E) (k : Klee T D E) (out : SvmOutcome T E) :
    SvmTurn n k out (n.ops k out) (n.pollInstance k out).2 := by
  unfold SvmNode.pollInstance SvmNode.ops
  by_cases hnext : k.state = .nextTrace
  · rw [if_pos hnext, if_pos hnext]
    cases ht : n.base.traces with
    | nil => exact .noTrace hnext ht
    | cons t rest => exact .taken hnext
  rw [if_neg hnext, if_neg hnext]
  by_cases hready : k.state = .resultReady
  · rw [if_pos hready, if_pos hready]
    exact .ready hready
  rw [if_neg hready, if_neg hready]
  cases herr : k.error with
  | true => exact .failed hnext hready herr
  | false => exact .polled hnext hready herr

/-! ## 2. Runs -/

/-- A poll, with the outcomes of the instances; the retrieval of an instance ends; or what the
    listener does between two polls, other than to commence or to reset the node: the queues hold
    other members. -/
inductive SvmInput (T D E : Type) where
  | run (outs : List (SvmOutcome T E))
  | retrieved (i : Nat)
  | listen (tests : List (Item T)) (traces : List (Trace (Item D))) (errors : List (Item E))
  deriving DecidableEq, Repr

def SvmNode.input (n : SvmNode T D E) : SvmInput T D E → SvmNode T D E
  | .run outs => n.run outs
  | .retrieved i => n.retrieved i
  | .listen tests traces errors => { n with
      base.tests := tests, base.traces := traces, base.errors := errors }

open SvmNode

/-- A node commences, and goes on for ever. -/
structure SvmRun (T D E : Type) where
  node : SvmNode T D E
  inputs : Nat → SvmInput T D E

namespace SvmRun

variable (r : SvmRun T D E)

/-- The node after `m` inputs. -/
def nodeAt (m : Nat) : SvmNode T D E := states input (r.node.process .commence) r.inputs m

/-- The instance `i` after `m` inputs. -/
def slot (i m : Nat) : Klee T D E := (r.nodeAt m).svms.getD i .new

/-- The operations that the instance `i` leads to in the step `m`. -/
def entries (i m : Nat) : List (SvmOp T D E) :=
  match r.inputs m with
  | .run outs =>
    (seen pollInstance .waits (r.nodeAt m) (r.nodeAt m).svms outs i).ops (r.slot i m)
      (outs.getD i .waits)
  | .retrieved j => if j = i then (r.slot i m).retrieving.toList.map .generate else []
  | .listen _ _ _ => []

theorem commenced_nodeAt (m : Nat) : (r.nodeAt m).base.commenced = true := by
  induction m with
  | zero => rfl
  | succ m ih =>
    show ((r.nodeAt m).input (r.inputs m)).base.commenced = true
    cases r.inputs m with
    | run outs => exact ((r.nodeAt m).run_commenced outs).trans ih
    | retrieved | listen => exact ih

theorem svms_run {m : Nat} {outs : List (SvmOutcome T E)} (h : r.inputs m = .run outs) :
    (r.nodeAt (m + 1)).svms =
      (sweep pollInstance .waits (r.nodeAt m) (r.nodeAt m).svms outs).2 := by
  show ((r.nodeAt m).input (r.inputs m)).svms = _
  rw [h]
  show ((r.nodeAt m).run outs).svms = _
  rw [SvmNode.run, if_pos (r.commenced_nodeAt m), SvmNode.poll, pollSvms]

theorem length_nodeAt (m : Nat) : (r.nodeAt m).svms.length = r.node.svms.length := by
  induction m with
  | zero => exact length_map _
  | succ m ih =>
    rw [← ih]
    cases h : r.inputs m with
    | run outs =>
      rw [r.svms_run h]
      exact length_sweep _ _ _ _ _
    | retrieved i =>
      show ((r.nodeAt m).input (r.inputs m)).svms.length = _
      rw [h]
      exact length_modify _ _ _
    | listen =>
      show ((r.nodeAt m).input (r.inputs m)).svms.length = _
      rw [h]
      rfl

theorem getElem?_nodeAt {i : Nat} (hi : i < r.node.svms.length) (m : Nat) :
    (r.nodeAt m).svms[i]? = some (r.slot i m) := by
  rw [slot, getD_eq_getElem?_getD, getElem?_eq_getElem (by rwa [r.length_nodeAt m])]
  rfl

/-- The instance after a poll. -/
theorem slot_run {i m : Nat} {outs : List (SvmOutcome T E)} (h : r.inputs m = .run outs)
    (hi : i < r.node.svms.length) :
    ∃ n, SvmTurn n (r.slot i m) (outs.getD i .waits) (r.entries i m) (r.slot i (m + 1)) := by
  have hnext : r.slot i (m + 1) =
      ((seen pollInstance .waits (r.nodeAt m) (r.nodeAt m).svms outs i).pollInstance
        (r.slot i m) (outs.getD i .waits)).2 := by
    have hsweep := getElem?_sweep pollInstance .waits (r.nodeAt m).svms (r.nodeAt m) outs i
    rw [← r.svms_run h, r.getElem?_nodeAt hi, r.getElem?_nodeAt hi] at hsweep
    exact Option.some.inj hsweep
  refine ⟨seen pollInstance .waits (r.nodeAt m) (r.nodeAt m).svms outs i, ?_⟩
  rw [hnext, entries, h]
  exact pollInstance_turn _ _ _

/-- The instance after the end of its retrieval. -/
theorem slot_retrieved {i m : Nat} (h : r.inputs m = .retrieved i)
    (hi : i < r.node.svms.length) : r.slot i (m + 1) = (r.slot i m).retrieved := by
  have hget := r.getElem?_nodeAt hi (m + 1)
  change ((r.nodeAt m).input (r.inputs m)).svms[i]? = _ at hget
  rw [h] at hget
  change ((r.nodeAt m).svms.modify i Klee.retrieved)[i]? = _ at hget
  rw [getElem?_modify_eq, r.getElem?_nodeAt hi] at hget
  exact (Option.some.inj hget).symm

/-- Other inputs do not change it. -/
theorem slot_other {i m : Nat} (hi : i < r.node.svms.length)
    (h : (∃ j, r.inputs m = .retrieved j ∧ j ≠ i) ∨
      ∃ tests traces errors, r.inputs m = .listen tests traces errors) :
    r.slot i (m + 1) = r.slot i m ∧ r.entries i m = [] := by
  have hget := r.getElem?_nodeAt hi (m + 1)
  change ((r.nodeAt m).input (r.inputs m)).svms[i]? = _ at hget
  rcases h with ⟨j, h, hj⟩ | ⟨tests, traces, errors, h⟩
  · rw [h] at hget
    change ((r.nodeAt m).svms.modify j Klee.retrieved)[i]? = _ at hget
    rw [getElem?_modify_ne _ _ hj, r.getElem?_nodeAt hi] at hget
    refine ⟨(Option.some.inj hget).symm, ?_⟩
    rw [entries, h]
    exact if_neg hj
  · rw [h] at hget
    change (r.nodeAt m).svms[i]? = _ at hget
    rw [r.getElem?_nodeAt hi] at hget
    refine ⟨(Option.some.inj hget).symm, ?_⟩
    rw [entries, h]

end SvmRun

/-! ## 3. Books -/

/-- The books of an instance: what an operation does to the job that is open, with the tests that
    were generated in it. The job ends when tests are pushed, and these are the ones generated. -/
def bookJob [DecidableEq T] : Option (List (Item T)) → SvmOp T D E → Option (Option (List (Item T)))
  | none, .popTrace _ => some (some [])
  | some ts, .generate ts' => some (some (ts ++ ts'))
  | some ts, .pushTests ts' => if ts' = ts then some none else none
  | some ts, .pushError _ => some (some ts)
  | _, _ => none

/-- Every test that the instance `i` generates for a trace is pushed exactly once, and no other. -/
def SvmRun.Forwarded [DecidableEq T] (r : SvmRun T D E) (i : Nat) : Prop :=
  Settles bookJob (r.entries i)

/-- The states with a job whose task is not done. -/
def KleeState.busy : KleeState → Bool
  | .prepare | .executeConcolic | .executeSymbolic | .storeTests | .finished => true
  | .start | .nextTrace | .resultReady => false

/-- The exception ends the job before it has generated tests. -/
def Klee.fails (k : Klee T D E) : SvmOutcome T E → Bool
  | .throws tests _ => !k.error && match k.state with
    | .prepare | .executeConcolic | .executeSymbolic => true
    | .storeTests => tests.isNone
    | .finished => k.retrieving.isSome
    | .start | .nextTrace | .resultReady => false
  | _ => false

/-- No such exception hits an instance whose buffer holds tests of an earlier trace; and no
    retrieval is going on from before the commencement. -/
structure SvmRun.Meets (r : SvmRun T D E) : Prop where
  fresh : ∀ k ∈ r.node.svms, k.retrieving = none
  cleared : ∀ m outs, r.inputs m = .run outs → ∀ i, i < r.node.svms.length →
    (r.slot i m).fails (outs.getD i .waits) = true → (r.slot i m).tests = []

/-- The node polls again and again, and every task ends: it is done, or it throws. -/
structure SvmRun.Ends (r : SvmRun T D E) : Prop where
  polls : InfinitelyOften fun m => ∃ outs, r.inputs m = .run outs
  tasks : ∀ i m, i < r.node.svms.length → (r.slot i m).state.busy = true →
    (r.slot i m).error = false → (r.slot i m).retrieving = none →
    ∃ m' outs, m ≤ m' ∧ r.inputs m' = .run outs ∧ outs.getD i .waits ≠ .waits
  retrievals : ∀ i m, i < r.node.svms.length → (r.slot i m).retrieving.isSome = true →
    ∃ m', m ≤ m' ∧ (r.inputs m' = .retrieved i ∨
      ∃ outs tests log, r.inputs m' = .run outs ∧ outs.getD i .waits = .throws tests log)

/-! ## 4. An instance and its books -/

/-- What holds of an instance and the job that is open in its books: none; one that has generated
    nothing yet, up to a retrieval that is going on; or one whose tests are in the buffer. -/
inductive Klee.Holds (k : Klee T D E) : Option (List (Item T)) → Prop where
  | idle (state : k.state = .nextTrace) (error : k.error = false)
      (retrieving : k.retrieving = none) : Holds k none
  | before (state : k.state.busy = true) (notFinished : k.state ≠ .finished)
      (error : k.error = false) (retrieving : k.retrieving = none) : Holds k (some [])
  | during {ts : List (Item T)} (state : k.state = .finished) (error : k.error = false)
      (retrieving : k.retrieving = some ts) : Holds k (some [])
  | after (state : k.state = .finished ∨ k.state = .resultReady) (error : k.error = false)
      (retrieving : k.retrieving = none) : Holds k (some k.tests)
  | failed {e : Item E} (state : k.state.busy = true) (error : k.error = true)
      (log : k.errorLog = some e) (retrieving : k.retrieving = none) : Holds k (some k.tests)

/-- How far the state is from `NextTrace`, for an instance with a job. -/
def KleeState.distance : KleeState → Nat
  | .prepare => 7
  | .executeConcolic => 6
  | .executeSymbolic => 5
  | .storeTests => 4
  | .finished => 2
  | .resultReady => 1
  | .start | .nextTrace => 0

/-- How far the instance is from the end of its job. -/
def Klee.rank (k : Klee T D E) : Nat :=
  if k.error then 1 else k.state.distance + k.retrieving.isSome.toNat

/-- The outcome moves the instance. -/
def Klee.Moves (k : Klee T D E) (out : SvmOutcome T E) : Prop :=
  k.error = false → k.state.busy = true →
    out ≠ .waits ∧ (k.retrieving.isSome = true → ∃ tests log, out = .throws tests log)

open Cluster.Klee

variable {n : SvmNode T D E} {k k' : Klee T D E} {out : SvmOutcome T E}
  {ops : List (SvmOp T D E)} {o : Option (List (Item T))}

theorem Klee.rank_eq (he : k.error = false) :
    k.rank = k.state.distance + k.retrieving.isSome.toNat := by
  rw [rank, he]
  rfl

/-- The instance takes the next row. -/
theorem Klee.rank_next (he : k.error = false) {s : KleeState} {ts : Option (List (Item T))}
    (h : s.distance + ts.isSome.toNat < k.state.distance) :
    ({ k with state := s, retrieving := ts } : Klee T D E).rank < k.rank := by
  have hnext : ({ k with state := s, retrieving := ts } : Klee T D E).rank =
      s.distance + ts.isSome.toNat := rank_eq he
  rw [hnext, rank_eq he]
  omega

/-- An exception ends a job that is not at its end. -/
theorem Klee.rank_throw_lt (he : k.error = false) (hs : k.state.busy = true) (log : E) :
    (k.throw log).rank < k.rank := by
  have hdist : 1 < k.state.distance := by
    cases h : k.state with
    | start | nextTrace | resultReady =>
      rw [h] at hs
      cases hs
    | prepare | executeConcolic | executeSymbolic | storeTests | finished => decide
  rw [rank_eq he]
  exact Nat.lt_of_lt_of_le hdist (Nat.le_add_right _ _)

/-- An exception without tests, where the job had none. -/
theorem Klee.throw_holds (hs : k.state.busy = true) (hr : k.retrieving = none)
    (ht : k.tests = []) (log : E) : (k.throw log).Holds (some []) := by
  have h : (k.throw log).Holds (some (k.throw log).tests) := .failed hs rfl rfl hr
  rwa [show (k.throw log).tests = [] from ht] at h

/-- `ev::poll` before the tests are retrieved. -/
theorem Klee.poll_before [DecidableEq T] (hs : k.state.busy = true) (hf : k.state ≠ .finished)
    (he : k.error = false) (hr : k.retrieving = none) (hm : k.fails out = true → k.tests = []) :
    ∃ ts, (k.generates out).foldlM bookJob (some []) = some (some ts) ∧
      (k.poll out).Holds (some ts) ∧
      (out = .waits ∧ k.poll out = k ∨ (k.poll out).rank < k.rank) := by
  cases out with
  | waits =>
    have hsame : k.poll (.waits : SvmOutcome T E) = k := by
      unfold poll
      cases k.state <;> rfl
    exact ⟨[], rfl, hsame.symm ▸ .before hs hf he hr, .inl ⟨rfl, hsame⟩⟩
  | goes tests old =>
    refine ⟨[], rfl, ?_⟩
    have row : ∀ s : KleeState, s.busy = true → s ≠ .finished →
        s.distance < k.state.distance → k.poll (.goes tests old) = { k with state := s } →
        (k.poll (.goes tests old)).Holds (some []) ∧
          (SvmOutcome.goes (E := E) tests old = .waits ∧ k.poll (.goes tests old) = k ∨
            (k.poll (.goes tests old)).rank < k.rank) := by
      intro s hbusy hne hlt hpoll
      rw [hpoll]
      refine ⟨.before hbusy hne he hr, .inr (rank_next he ?_)⟩
      rw [hr]
      exact hlt
    cases h : k.state with
    | start | nextTrace | resultReady =>
      rw [h] at hs
      cases hs
    | finished => exact absurd h hf
    | storeTests =>
      have hpoll : k.poll (.goes tests old) =
          { k with state := .finished, retrieving := some (k.derive tests) } := by
        unfold poll retrieve
        rw [h, hr]
      rw [hpoll]
      refine ⟨.during rfl he rfl, .inr (rank_next he ?_)⟩
      rw [h]
      exact (by decide : 2 + true.toNat < 4)
    | prepare =>
      refine row .executeConcolic rfl (by decide) (by rw [h]; decide) ?_
      unfold poll
      rw [h]
    | executeConcolic =>
      refine row .executeSymbolic rfl (by decide) (by rw [h]; decide) ?_
      unfold poll
      rw [h]
    | executeSymbolic =>
      refine row .storeTests rfl (by decide) (by rw [h]; decide) ?_
      unfold poll
      rw [h]
  | throws tests log =>
    have hlt := rank_throw_lt he hs log
    cases h : k.state with
    | start | nextTrace | resultReady =>
      rw [h] at hs
      cases hs
    | finished => exact absurd h hf
    | storeTests =>
      cases tests with
      | some tests =>
        -- the tests of a `SymbolicExecException` replace what is in the buffer
        have hpoll : k.poll (.throws (some tests) log) =
            { k.throw log with tests := k.derive tests } := by
          unfold poll
          rw [h]
        have hgen : k.generates (.throws (some tests) log) = [.generate (k.derive tests)] :=
          if_pos h
        rw [hpoll, hgen]
        exact ⟨k.derive tests, rfl, .failed hs rfl rfl hr, .inr hlt⟩
      | none =>
        have hpoll : k.poll (.throws none log) = k.throw log := by
          unfold poll
          rw [h]
        have ht : k.tests = [] := hm (by rw [fails, he, h]; rfl)
        rw [hpoll]
        exact ⟨[], rfl, throw_holds hs hr ht log, .inr hlt⟩
    | prepare | executeConcolic | executeSymbolic =>
      have hpoll : k.poll (.throws tests log) = k.throw log := by
        unfold poll
        rw [h]
      have hgen : k.generates (.throws tests log) = [] := by
        cases tests with
        | none => rfl
        | some tests =>
          refine if_neg ?_
          rw [h]
          decide
      have ht : k.tests = [] := hm (by rw [fails, he, h]; rfl)
      rw [hpoll, hgen]
      exact ⟨[], rfl, throw_holds hs hr ht log, .inr hlt⟩

/-- `ev::poll` in the state `Finished`. -/
theorem Klee.poll_finished (hs : k.state = .finished) (out : SvmOutcome T E) :
    k.poll out = match out with
      | .waits => k
      | .goes _ _ => if k.retrieving.isSome then k else { k with state := .resultReady }
      | .throws _ log => { k.throw log with retrieving := none } := by
  unfold poll
  rw [hs]
  cases out <;> rfl

theorem Klee.generates_of_ne (hs : k.state ≠ .storeTests) (out : SvmOutcome T E) :
    k.generates out = [] := by
  cases out with
  | waits | goes => rfl
  | throws tests log =>
    cases tests with
    | none => rfl
    | some tests => exact if_neg hs

/-- `ev::poll` while the tests are retrieved. -/
theorem Klee.poll_during {ts : List (Item T)} (hs : k.state = .finished) (he : k.error = false)
    (hr : k.retrieving = some ts) (hm : k.fails out = true → k.tests = []) :
    (k.poll out).Holds (some []) ∧
      ((∀ tests log, out ≠ .throws tests log) ∧ k.poll out = k ∨ (k.poll out).rank < k.rank) := by
  cases out with
  | waits =>
    have hpoll : k.poll (.waits : SvmOutcome T E) = k := poll_finished hs _
    rw [hpoll]
    exact ⟨.during hs he hr, .inl ⟨(fun _ _ h => by cases h), rfl⟩⟩
  | goes tests old =>
    have hpoll : k.poll (.goes tests old) = k :=
      (poll_finished hs _).trans (if_pos (by rw [hr]; rfl))
    rw [hpoll]
    exact ⟨.during hs he hr, .inl ⟨(fun _ _ h => by cases h), rfl⟩⟩
  | throws tests log =>
    have hbusy : k.state.busy = true := by
      rw [hs]
      rfl
    have ht : k.tests = [] := hm (by rw [fails, he, hs, hr]; rfl)
    have hheld : ({ k.throw log with retrieving := none } : Klee T D E).Holds (some k.tests) :=
      .failed hbusy rfl rfl rfl
    rw [ht] at hheld
    rw [poll_finished hs]
    exact ⟨hheld, .inr (rank_throw_lt he hbusy log)⟩

/-- `ev::poll` once the tests are in the buffer. -/
theorem Klee.poll_after (hs : k.state = .finished) (he : k.error = false)
    (hr : k.retrieving = none) :
    (k.poll out).Holds (some k.tests) ∧
      (out = .waits ∧ k.poll out = k ∨ (k.poll out).rank < k.rank) := by
  rw [poll_finished hs]
  cases out with
  | waits => exact ⟨.after (.inl hs) he hr, .inl ⟨rfl, rfl⟩⟩
  | goes tests old =>
    have hpoll : (if k.retrieving.isSome then k else { k with state := .resultReady }) =
        { k with state := .resultReady } := if_neg (by rw [hr]; exact Bool.false_ne_true)
    simp only [hpoll]
    refine ⟨.after (.inr rfl) he hr, .inr (rank_next he ?_)⟩
    rw [hs, hr]
    exact (by decide : 1 + false.toNat < 2)
  | throws tests log =>
    have hbusy : k.state.busy = true := by
      rw [hs]
      rfl
    exact ⟨.failed hbusy rfl rfl rfl, .inr (rank_throw_lt he hbusy log)⟩

/-- **A turn**: what it does to the books, and to the rank while the job stays open. -/
theorem Klee.Holds.turn [DecidableEq T] (h : k.Holds o) (hm : k.fails out = true → k.tests = [])
    (t : SvmTurn n k out ops k') :
    ∃ o', ops.foldlM bookJob o = some o' ∧ k'.Holds o' ∧
      (o.isSome → o'.isSome → ¬k.Moves out ∧ k' = k ∨ k'.rank < k.rank) := by
  -- the push at the end of a job
  have push : ∀ ts : List (Item T),
      [SvmOp.pushTests (D := D) (E := E) ts].foldlM bookJob (some ts) = some none := by
    intro ts
    show (if ts = ts then some none else none).bind _ = _
    rw [if_pos rfl]
    rfl
  cases h with
  | idle hs he hr =>
    cases t with
    | noTrace => exact ⟨none, rfl, .idle hs he hr, fun h => by cases h⟩
    | taken => exact ⟨some [], rfl, .before rfl (fun h => by cases h) he hr, fun h => by cases h⟩
    | ready hs' => cases hs.symm.trans hs'
    | failed hne | polled hne => exact absurd hs hne
  | before hs hf he hr =>
    cases t with
    | noTrace hs' | taken hs' | ready hs' =>
      rw [hs'] at hs
      cases hs
    | failed _ _ he' => exact absurd (he.symm.trans he') Bool.false_ne_true
    | polled =>
      obtain ⟨ts, hts, hheld, hrank⟩ := poll_before hs hf he hr hm
      refine ⟨some ts, hts, hheld, fun _ _ => hrank.imp (fun hw => ⟨fun hmoves => ?_, hw.2⟩) id⟩
      exact (hmoves he hs).1 hw.1
  | during hs he hr =>
    cases t with
    | noTrace hs' | taken hs' | ready hs' => cases hs.symm.trans hs'
    | failed _ _ he' => exact absurd (he.symm.trans he') Bool.false_ne_true
    | polled =>
      obtain ⟨hheld, hrank⟩ := poll_during hs he hr hm
      rw [generates_of_ne (by rw [hs]; decide)]
      refine ⟨some [], rfl, hheld, fun _ _ => hrank.imp (fun hw => ⟨fun hmoves => ?_, hw.2⟩) id⟩
      obtain ⟨tests, log, hout⟩ := (hmoves he (by rw [hs]; rfl)).2 (by rw [hr]; rfl)
      exact hw.1 tests log hout
  | after hs he hr =>
    cases t with
    | noTrace hs' | taken hs' => rcases hs with hs | hs <;> cases hs.symm.trans hs'
    | ready => exact ⟨none, push _, .idle rfl he hr, fun _ h => by cases h⟩
    | failed _ _ he' => exact absurd (he.symm.trans he') Bool.false_ne_true
    | polled _ hready =>
      have hs : k.state = .finished := hs.resolve_right hready
      obtain ⟨hheld, hrank⟩ := poll_after hs he hr
      rw [generates_of_ne (by rw [hs]; decide)]
      refine ⟨_, rfl, hheld, fun _ _ => hrank.imp (fun hw => ⟨fun hmoves => ?_, hw.2⟩) id⟩
      exact (hmoves he (by rw [hs]; rfl)).1 hw.1
  | failed hs he hlog hr =>
    cases t with
    | noTrace hs' | taken hs' | ready hs' =>
      rw [hs'] at hs
      cases hs
    | failed =>
      refine ⟨none, ?_, .idle rfl rfl rfl, fun _ h => by cases h⟩
      rw [hlog]
      exact push k.tests
    | polled _ _ he' => exact absurd (he'.symm.trans he) Bool.false_ne_true

/-- The end of a retrieval. -/
theorem Klee.Holds.retrieved [DecidableEq T] (h : k.Holds o) :
    ∃ o', (k.retrieving.toList.map (SvmOp.generate (D := D) (E := E))).foldlM bookJob o =
        some o' ∧ k.retrieved.Holds o' ∧
      (o.isSome → o'.isSome →
        k.retrieving = none ∧ k.retrieved = k ∨ k.retrieved.rank < k.rank) := by
  have same : k.retrieving = none → k.retrieved = k := by
    intro hr
    rw [Klee.retrieved, hr]
  cases h with
  | during hs he hr =>
    rename_i ts
    have hnext : k.retrieved = { k with tests := ts, retrieving := none } := by
      rw [Klee.retrieved, hr]
    have hheld : ({ k with tests := ts, retrieving := none } : Klee T D E).Holds (some ts) :=
      .after (.inl hs) he rfl
    rw [hnext, hr]
    refine ⟨some ts, rfl, hheld, fun _ _ => .inr ?_⟩
    rw [rank_eq he, hr]
    have hrank : ({ k with tests := ts, retrieving := none } : Klee T D E).rank =
      k.state.distance + false.toNat := rank_eq he
    rw [hrank]
    exact Nat.lt_succ_self _
  | idle hs he hr =>
    rw [same hr, hr]
    exact ⟨none, rfl, .idle hs he hr, fun _ _ => .inl ⟨rfl, rfl⟩⟩
  | before hs hf he hr =>
    rw [same hr, hr]
    exact ⟨_, rfl, .before hs hf he hr, fun _ _ => .inl ⟨rfl, rfl⟩⟩
  | after hs he hr =>
    rw [same hr, hr]
    exact ⟨_, rfl, .after hs he hr, fun _ _ => .inl ⟨rfl, rfl⟩⟩
  | failed hs he hlog hr =>
    rw [same hr, hr]
    exact ⟨_, rfl, .failed hs he hlog hr, fun _ _ => .inl ⟨rfl, rfl⟩⟩

/-- The books of an instance are open or closed, not both. -/
theorem Klee.Holds.not_idle {ts : List (Item T)} (h : k.Holds (some ts)) (h' : k.Holds none) :
    False := by
  cases h' with
  | idle hs' =>
    cases h with
    | before hs | failed hs =>
      rw [hs'] at hs
      cases hs
    | during hs => cases hs'.symm.trans hs
    | after hs => rcases hs with hs | hs <;> cases hs'.symm.trans hs

/-! ## 5. Runs forward their tests -/

/-- A commencement opens no job. -/
theorem SvmRun.Meets.slot_zero {r : SvmRun T D E} (h : r.Meets) {i : Nat}
    (hi : i < r.node.svms.length) : (r.slot i 0).Holds none := by
  have hget := r.getElem?_nodeAt hi 0
  change (r.node.svms.map begin)[i]? = _ at hget
  rw [getElem?_map, getElem?_eq_getElem hi] at hget
  rw [← Option.some.inj hget]
  exact .idle rfl rfl (h.fresh r.node.svms[i] (getElem_mem hi))

/-- **A step** of the instance `i`. -/
theorem SvmRun.Meets.step [DecidableEq T] {r : SvmRun T D E} (h : r.Meets) {i : Nat}
    (hi : i < r.node.svms.length) (m : Nat) (hheld : (r.slot i m).Holds o) :
    ∃ o', (r.entries i m).foldlM bookJob o = some o' ∧ (r.slot i (m + 1)).Holds o' ∧
      (o.isSome → o'.isSome → r.slot i (m + 1) = r.slot i m ∨
        (r.slot i (m + 1)).rank < (r.slot i m).rank) := by
  cases hin : r.inputs m with
  | run outs =>
    obtain ⟨n, hturn⟩ := r.slot_run hin hi
    obtain ⟨o', ho', hheld', hrank⟩ := hheld.turn (h.cleared m outs hin i hi) hturn
    exact ⟨o', ho', hheld', fun hs hs' => (hrank hs hs').imp And.right id⟩
  | retrieved j =>
    by_cases hj : j = i
    · subst hj
      obtain ⟨o', ho', hheld', hrank⟩ := hheld.retrieved
      have hentries : r.entries j m = (r.slot j m).retrieving.toList.map .generate := by
        rw [SvmRun.entries, hin]
        exact if_pos rfl
      rw [r.slot_retrieved hin hi, hentries]
      exact ⟨o', ho', hheld', fun hs hs' => (hrank hs hs').imp And.right id⟩
    · obtain ⟨hslot, hentries⟩ := r.slot_other hi (.inl ⟨j, hin, hj⟩)
      rw [hslot, hentries]
      exact ⟨o, rfl, hheld, fun _ _ => .inl rfl⟩
  | listen tests traces errors =>
    obtain ⟨hslot, hentries⟩ := r.slot_other hi (.inr ⟨tests, traces, errors, hin⟩)
    rw [hslot, hentries]
    exact ⟨o, rfl, hheld, fun _ _ => .inl rfl⟩

/-- If the instance stays as it is, there is a poll where it moves, or its retrieval ends. -/
theorem SvmRun.Ends.moves {r : SvmRun T D E} (h : r.Ends) {i n : Nat}
    (hi : i < r.node.svms.length) :
    (∃ m outs, n ≤ m ∧ r.inputs m = .run outs ∧ (r.slot i n).Moves (outs.getD i .waits)) ∨
      ∃ m, n ≤ m ∧ r.inputs m = .retrieved i ∧ (r.slot i n).retrieving ≠ none := by
  by_cases hbusy : (r.slot i n).error = false ∧ (r.slot i n).state.busy = true
  · cases hr : (r.slot i n).retrieving with
    | none =>
      obtain ⟨m, outs, hm, houts, hne⟩ := h.tasks i n hi hbusy.2 hbusy.1 hr
      refine .inl ⟨m, outs, hm, houts, fun _ _ => ⟨hne, fun hs => ?_⟩⟩
      rw [hr] at hs
      cases hs
    | some ts =>
      obtain ⟨m, hm, hend⟩ := h.retrievals i n hi (by rw [hr]; rfl)
      rcases hend with hend | ⟨outs, tests, log, houts, hout⟩
      · exact .inr ⟨m, hm, hend, fun hnone => by cases hnone⟩
      · refine .inl ⟨m, outs, hm, houts, fun _ _ => ⟨?_, fun _ => ⟨tests, log, hout⟩⟩⟩
        rw [hout]
        exact fun hw => by cases hw
  · obtain ⟨m, hm, outs, houts⟩ := h.polls n
    exact .inl ⟨m, outs, hm, houts, fun he hs => absurd ⟨he, hs⟩ hbusy⟩

/-- **Every test is pushed exactly once**, and no other, in every run in which no exception hits an
    instance whose buffer holds tests of an earlier trace, if every task ends. -/
theorem tests_forwarded [DecidableEq T] (r : SvmRun T D E) (hm : r.Meets) (he : r.Ends) :
    ∀ i, i < r.node.svms.length → r.Forwarded i := by
  intro i hi
  refine settles_of_progress rank (hm.slot_zero hi) (fun m o hheld => hm.step hi m hheld)
    fun n o hsame hheld => ?_
  cases o with
  | none => rfl
  | some ts =>
    -- where the instance moves, its books are closed or its rank comes down
    rcases he.moves (n := n) hi with ⟨m, outs, hnm, hin, hmoves⟩ | ⟨m, hnm, hin, hne⟩
    · obtain ⟨n', hturn⟩ := r.slot_run hin hi
      have hcleared := hm.cleared m outs hin i hi
      rw [hsame (m + 1) (Nat.le_succ_of_le hnm), hsame m hnm] at hturn
      rw [hsame m hnm] at hcleared
      obtain ⟨o', -, hheld', hrank⟩ := hheld.turn hcleared hturn
      cases o' with
      | none => exact (hheld.not_idle hheld').elim
      | some ts' =>
        rcases hrank rfl rfl with h | h
        · exact absurd hmoves h.1
        · exact absurd h (Nat.lt_irrefl _)
    · have hnext := r.slot_retrieved hin hi
      rw [hsame (m + 1) (Nat.le_succ_of_le hnm), hsame m hnm] at hnext
      obtain ⟨o', -, hheld', hrank⟩ := hheld.retrieved
      rw [← hnext] at hheld' hrank
      cases o' with
      | none => exact (hheld.not_idle hheld').elim
      | some ts' =>
        rcases hrank rfl rfl with h | h
        · exact absurd h.1 hne
        · exact absurd h (Nat.lt_irrefl _)

/-- One instance and `traces` for it; its first retrieval ends in the step 5, and what the task of
    the step 11 does is `out`. Every other task succeeds, with one test. -/
def exampleRun (traces : List (Trace (Item Nat))) (out : SvmOutcome Nat Nat) :
    SvmRun Nat Nat Nat where
  node := { new 0 with base.traces := traces }
  inputs m := if m = 5 then .retrieved 0 else .run [if m = 11 then out else .goes [1] none]

theorem exampleRun_run (traces : List (Trace (Item Nat))) (out : SvmOutcome Nat Nat) {m : Nat}
    (hm : m ≠ 5) :
    (exampleRun traces out).inputs m = .run [if m = 11 then out else .goes [1] none] := if_neg hm

/-- Its tasks end, if no other retrieval is started. -/
theorem exampleRun_ends {traces : List (Trace (Item Nat))} {out : SvmOutcome Nat Nat}
    (hr : ∀ m, 5 < m → ((exampleRun traces out).slot 0 m).retrieving = none) :
    (exampleRun traces out).Ends where
  polls m := ⟨m + 12, Nat.le_add_right m 12, _, exampleRun_run traces out (by omega)⟩
  tasks i m hi _ _ _ := by
    obtain rfl : i = 0 := Nat.lt_one_iff.1 hi
    refine ⟨m + 12, _, Nat.le_add_right m 12, exampleRun_run traces out (by omega), ?_⟩
    rw [if_neg (by omega)]
    exact fun h => by cases h
  retrievals i m hi hs := by
    obtain rfl : i = 0 := Nat.lt_one_iff.1 hi
    refine ⟨5, ?_, .inl rfl⟩
    by_contra hm
    rw [hr m (by omega)] at hs
    cases hs

/-- From a step where the node has nothing to do, it stays as it is. -/
theorem exampleRun_steady {traces : List (Trace (Item Nat))} {out : SvmOutcome Nat Nat} {n : Nat}
    (hn : 11 < n) (h : ((exampleRun traces out).nodeAt n).input (.run [.goes [1] none]) =
      (exampleRun traces out).nodeAt n) :
    ∀ m, n ≤ m → (exampleRun traces out).nodeAt m = (exampleRun traces out).nodeAt n := by
  refine persists (fun m hm hsame => ?_) rfl
  show ((exampleRun traces out).nodeAt m).input ((exampleRun traces out).inputs m) = _
  rw [exampleRun_run traces out (by omega), if_neg (by omega), hsame, h]

theorem exampleRun_retrieving (traces : List (Trace (Item Nat))) (out : SvmOutcome Nat Nat)
    {n : Nat} (hn : 11 < n) (h : ((exampleRun traces out).nodeAt n).input (.run [.goes [1] none]) =
      (exampleRun traces out).nodeAt n)
    (hfirst : ∀ m, m < n + 1 → 5 < m → ((exampleRun traces out).slot 0 m).retrieving = none)
    (m : Nat) (hm : 5 < m) : ((exampleRun traces out).slot 0 m).retrieving = none := by
  rcases Nat.lt_or_ge m (n + 1) with hlt | hge
  · exact hfirst m hlt hm
  · rw [SvmRun.slot, exampleRun_steady hn h m (Nat.le_of_succ_le hge)]
    exact hfirst n (Nat.lt_succ_self n) (by omega)

/-- One trace. -/
def exampleTrace (uuid : Nat) : Trace (Item Nat) := ⟨uuid, ⟨0, some 0, false⟩⟩

theorem tests_forwarded_smooth : (exampleRun [exampleTrace 0] (.goes [1] none)).Meets ∧
      (exampleRun [exampleTrace 0] (.goes [1] none)).Ends ∧
      (exampleRun [exampleTrace 0] (.goes [1] none)).Forwarded 0 := by
  have hmeets : (exampleRun [exampleTrace 0] (.goes [1] none)).Meets := by
    refine ⟨by decide, fun m outs hin i hi hfails => ?_⟩
    obtain rfl : i = 0 := Nat.lt_one_iff.1 hi
    by_cases hm : m = 5
    · subst hm
      cases hin
    · rw [exampleRun_run _ _ hm, ite_self] at hin
      cases hin
      cases hfails
  have hends := exampleRun_ends (exampleRun_retrieving [exampleTrace 0] (.goes [1] none) (n := 12)
    (by decide) (by decide) (by decide))
  exact ⟨hmeets, hends, tests_forwarded _ hmeets hends 0 (by decide)⟩

/-- **A test that is pushed twice**: the concolic execution of the second trace fails and its
    predecessor's test is pushed again. -/
theorem test_repeated : (exampleRun [exampleTrace 0, exampleTrace 1] (.throws none 0)).Ends ∧
      ¬(exampleRun [exampleTrace 0, exampleTrace 1] (.throws none 0)).Forwarded 0 ∧
      ((exampleRun [exampleTrace 0, exampleTrace 1] (.throws none 0)).nodeAt 13).base.tests =
        [⟨1, some 0, false⟩, ⟨1, some 0, false⟩] := by
  exact ⟨exampleRun_ends (exampleRun_retrieving _ _ (n := 14) (by decide) (by decide) (by decide)),
    not_settles (k := 13) (by decide), by decide⟩

end Crete.Cluster
