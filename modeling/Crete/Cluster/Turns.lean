/-
  File:      Crete/Cluster/Turns.lean
  Subject:   The turns of the instances of a VM node (`VMNode::poll`, lib/cluster/vm_node.cpp).

  In its turn an instance makes the node do a few things to its queues. Between two polls the
  listener lets members of the queues come and go.

  * `QueueOp`, `VmNode.ops` -- what a turn does to the queues; **`pollInstance_base`**: it does
    nothing else.
  * `VmTurn`, **`pollInstance_turn`** -- the cases of a turn.
  * **`getElem?_run`** -- what becomes of one instance in a poll.
-/
import Crete.Cluster.Node

namespace Crete.Cluster

open Crete.Lib List

variable {T D E : Type}

/-! ## 1. What a turn does to the queues -/

/-- An operation of `poll` on the queues of the node. -/
inductive QueueOp (T D E : Type) where
  | popTest (t : Item T)
  | putBack (t : Item T)
  | pushInitial (t : Item T)
  | pushTrace (t : Trace (Item D))
  | pushError (e : Item E)
  deriving DecidableEq, Repr

def QueueOp.perform (b : Node T D E) : QueueOp T D E → Node T D E
  | .popTest _ => { b with tests := b.tests.tail }
  | .putBack t => { b with tests := b.tests ++ [t] }
  | .pushInitial t => { b with tests := b.tests ++ [t] }
  | .pushTrace t => { b with traces := b.traces ++ [t] }
  | .pushError e => { b with errors := b.errors ++ [e] }

/-- The operations of one turn. -/
def VmNode.ops (n : VmNode T D E) (q : Qemu T D E) (out : VmOutcome T D E) : List (QueueOp T D E) :=
  if q.state = .finished then q.trace.toList.map .pushTrace
  else if q.state = .nextTest then
    match n.base.tests with
    | [] => []
    | t :: _ => if (q.nextTest t out).1 then [.popTest t] else [.popTest t, .putBack t]
  else if q.state = .guestDataRxed then (n.initial q).map .pushInitial
  else if q.error then q.errorLog.toList.map .pushError
  else []

theorem foldl_pushInitial (ts : List (Item T)) : ∀ b : Node T D E,
    (ts.map QueueOp.pushInitial).foldl QueueOp.perform b = { b with tests := b.tests ++ ts } := by
  induction ts with
  | nil =>
    intro b
    rw [append_nil]
    rfl
  | cons t ts ih =>
    intro b
    rw [map_cons, foldl_cons, ih]
    show Node.mk (b.tests ++ [t] ++ ts) _ _ _ _ _ = Node.mk (b.tests ++ (t :: ts)) _ _ _ _ _
    rw [append_assoc]
    rfl

/-- **A turn does these operations to the queues, and nothing else.** -/
theorem VmNode.pollInstance_base (n : VmNode T D E) (q : Qemu T D E) (out : VmOutcome T D E) :
    (n.pollInstance q out).1.base = (n.ops q out).foldl QueueOp.perform n.base := by
  unfold VmNode.pollInstance VmNode.ops
  split
  · cases q.trace with
    | none =>
      show Node.mk _ (n.base.traces ++ []) _ _ _ _ = n.base
      rw [append_nil]
    | some t => rfl
  · split
    · cases ht : n.base.tests with
      | nil => rfl
      | cons t rest =>
        show { n.base with tests := if (q.nextTest t out).1 then rest else rest ++ [t] } =
          foldl QueueOp.perform n.base (if (q.nextTest t out).1 then _ else _)
        split
        · rw [foldl_cons, QueueOp.perform, ht]
          rfl
        · rw [foldl_cons, foldl_cons, QueueOp.perform, QueueOp.perform, ht]
          rfl
    · split
      · exact (foldl_pushInitial _ n.base).symm
      · split
        · cases q.errorLog with
          | none =>
            show Node.mk _ _ (n.base.errors ++ []) _ _ _ = n.base
            rw [append_nil]
          | some e => rfl
        · split <;> rfl

/-- The operations of a poll. -/
def VmNode.pollOps : VmNode T D E → List (Qemu T D E) → List (VmOutcome T D E) →
    List (QueueOp T D E)
  | _, [], _ => []
  | n, q :: qs, outs =>
    n.ops q (outs.headD .waits) ++ pollOps (n.pollInstance q (outs.headD .waits)).1 qs outs.tail

theorem VmNode.pollVms_base (qs : List (Qemu T D E)) : ∀ (n : VmNode T D E)
    (outs : List (VmOutcome T D E)),
    (n.pollVms qs outs).1.base = (n.pollOps qs outs).foldl QueueOp.perform n.base := by
  induction qs with
  | nil => exact fun _ _ => rfl
  | cons q qs ih =>
    intro n outs
    rw [VmNode.pollOps, foldl_append, ← VmNode.pollInstance_base]
    exact ih _ _

/-! ## 2. Inputs -/

/-- A poll, with the outcomes of the instances; or what the listener does between two polls, other
    than to commence, to reset or to configure the node: the queues hold other members, and there
    is another target. -/
inductive VmInput (T D E : Type) where
  | run (outs : List (VmOutcome T D E))
  | listen (tests : List (Item T)) (traces : List (Trace (Item D))) (errors : List (Item E))
      (target : String) (pass : Option Nat) (imageInfo : ImageInfo)
  deriving DecidableEq, Repr

def VmNode.input (n : VmNode T D E) : VmInput T D E → VmNode T D E
  | .run outs => n.run outs
  | .listen tests traces errors target pass imageInfo => { n with
      base.tests := tests, base.traces := traces, base.errors := errors, target, pass, imageInfo }

/-- One input after another. -/
def VmNode.inputs (n : VmNode T D E) (is : List (VmInput T D E)) : VmNode T D E :=
  is.foldl VmNode.input n

/-- The operations of `poll` in a run. -/
def VmNode.history : VmNode T D E → List (VmInput T D E) → List (QueueOp T D E)
  | _, [] => []
  | n, .run outs :: is =>
    (if n.base.commenced then n.pollOps n.vms outs else []) ++ (n.input (.run outs)).history is
  | n, i :: is => (n.input i).history is

/-- Packets that do more. -/
def Message.governs : Message T D E → Bool
  | .config _ | .reset | .commence => true
  | _ => false

/-- **Any other packet is such an input.** -/
theorem VmNode.process_eq_input (n : VmNode T D E) (outs : List (VmOutcome T D E))
    (m : Message T D E) (h : Message.governs m = false) : ∃ i, n.process outs m = n.input i := by
  cases m with
  | config | reset | commence => cases h
  | trace batch =>
    exact ⟨.listen n.base.tests (n.base.traces ++ batch) n.base.errors n.target n.pass
      n.imageInfo, rfl⟩
  | testCase batch =>
    exact ⟨.listen (n.base.tests ++ batch) n.base.traces n.base.errors n.target n.pass
      n.imageInfo, rfl⟩
  | nextTarget target pass =>
    exact ⟨.listen n.base.tests n.base.traces n.base.errors target (some pass) n.imageInfo, rfl⟩
  | imageInfo info =>
    exact ⟨.listen n.base.tests n.base.traces n.base.errors n.target n.pass info, rfl⟩
  | _ =>
    exact ⟨.listen n.base.tests n.base.traces n.base.errors n.target n.pass n.imageInfo, rfl⟩

/-! ## 3. The cases of a turn -/

/-- The states before `NextTest`. -/
def QemuState.starting : QemuState → Bool
  | .validateImage | .updateImage | .startVm | .connectVm | .rxGuestData | .guestDataRxed => true
  | .start | .nextTest | .testing | .storeTrace | .finished => false

/-- The states with a test. -/
def QemuState.working : QemuState → Bool
  | .testing | .storeTrace | .finished => true
  | .start | .validateImage | .updateImage | .startVm | .connectVm | .rxGuestData
  | .guestDataRxed | .nextTest => false

theorem QemuState.working_iff (s : QemuState) :
    s.working = true ↔ s = .testing ∨ s = .storeTrace ∨ s = .finished := by
  cases s <;> decide

/-- The states that `poll` of the node looks for before it looks for an error. -/
def QemuState.flagged : QemuState → Bool
  | .finished | .nextTest | .guestDataRxed => true
  | .start | .validateImage | .updateImage | .startVm | .connectVm | .rxGuestData | .testing
  | .storeTrace => false

/-- **The turns there are**: the operations, and the instance after them. -/
inductive VmTurn (n : VmNode T D E) (q : Qemu T D E) (out : VmOutcome T D E) :
    List (QueueOp T D E) → Qemu T D E → Prop where
  | finished (state : q.state = .finished) :
      VmTurn n q out (q.trace.toList.map .pushTrace) q.traceQueued
  | noTest (state : q.state = .nextTest) (empty : n.base.tests = []) : VmTurn n q out [] q
  | taken {t : Item T} (state : q.state = .nextTest) (head : n.base.tests.head? = some t)
      (handled : (q.nextTest t out).1 = true) :
      VmTurn n q out [.popTest t] (q.nextTest t out).2
  | refused {t : Item T} (state : q.state = .nextTest) (head : n.base.tests.head? = some t)
      (handled : (q.nextTest t out).1 = false) :
      VmTurn n q out [.popTest t, .putBack t] (q.nextTest t out).2
  | initial (state : q.state = .guestDataRxed) :
      VmTurn n q out ((n.initial q).map .pushInitial) (q.poll out)
  | restarted (state : q.state.flagged = false) (error : q.error = true) :
      VmTurn n q out (q.errorLog.toList.map .pushError)
        (Qemu.new.begin n.base.options false n.target n.pass out)
  | resting (state : q.state.flagged = false) (error : q.error = false)
      (terminated : q.terminated = true) : VmTurn n q out [] q
  | polled (state : q.state.flagged = false) (error : q.error = false)
      (terminated : q.terminated = false) : VmTurn n q out [] (q.poll out)

theorem VmNode.pollInstance_turn (n : VmNode T D E) (q : Qemu T D E) (out : VmOutcome T D E) :
    VmTurn n q out (n.ops q out) (n.pollInstance q out).2 := by
  unfold VmNode.pollInstance VmNode.ops
  by_cases hfin : q.state = .finished
  · rw [if_pos hfin, if_pos hfin]
    exact .finished hfin
  rw [if_neg hfin, if_neg hfin]
  by_cases hnext : q.state = .nextTest
  · rw [if_pos hnext, if_pos hnext]
    cases ht : n.base.tests with
    | nil => exact .noTest hnext ht
    | cons t rest =>
      have hhead : n.base.tests.head? = some t := by
        rw [ht]
        rfl
      cases hr : (q.nextTest t out).1 with
      | true =>
        simp only [hr, if_true]
        exact .taken hnext hhead hr
      | false =>
        simp only [hr, Bool.false_eq_true, if_false]
        exact .refused hnext hhead hr
  rw [if_neg hnext, if_neg hnext]
  by_cases hguest : q.state = .guestDataRxed
  · rw [if_pos hguest, if_pos hguest]
    exact .initial hguest
  rw [if_neg hguest, if_neg hguest]
  have hflag : q.state.flagged = false := by
    cases hs : q.state with
    | finished => exact absurd hs hfin
    | nextTest => exact absurd hs hnext
    | guestDataRxed => exact absurd hs hguest
    | _ => rfl
  cases herr : q.error with
  | true => exact .restarted hflag herr
  | false =>
    cases hterm : q.terminated with
    | true => exact .resting hflag herr hterm
    | false => exact .polled hflag herr hterm

/-! ## 4. An event of an instance -/

/-- The states whose rows for `ev::poll` have guards. -/
def QemuState.guarded : QemuState → Bool
  | .validateImage | .startVm | .connectVm | .rxGuestData | .testing | .storeTrace => true
  | .start | .updateImage | .guestDataRxed | .nextTest | .finished => false

namespace Qemu

variable (q : Qemu T D E) (vmException : Bool) (log : E)

/-- An exception: the states of the other two regions, and the log. -/
theorem throw_eq : q.throw vmException log = { q with
    error := q.error || (vmException && q.distributed)
    terminated := q.terminated || !(vmException && q.distributed)
    errorLog := some ⟨log, q.pass, false⟩ } := by
  unfold throw
  cases hb : vmException && q.distributed <;> simp [hb]

theorem throw_state : (q.throw vmException log).state = q.state := by rw [throw_eq]

variable {q}

/-- `ev::poll` in a state with a guard. -/
theorem poll_guarded (hs : q.state.guarded = true) (ht : q.terminated = false)
    (out : VmOutcome T D E) : q.poll out = match out with
      | .waits => q
      | .goes imageValid guest uuid data => q.advance imageValid guest uuid data
      | .throws vmException log => q.throw vmException log := by
  unfold poll
  rw [ht]
  cases hq : q.state with
  | start | updateImage | guestDataRxed | nextTest | finished =>
    rw [hq] at hs
    cases hs
  | validateImage | startVm | connectVm | rxGuestData | testing | storeTrace => rfl

end Qemu

/-- The instances after an input: each has had its turn, or nothing has happened to it. -/
theorem VmNode.input_run (n : VmNode T D E) (outs : List (VmOutcome T D E))
    (h : n.base.commenced = true) :
    (n.input (.run outs)).vms = (sweep VmNode.pollInstance .waits n n.vms outs).2 := by
  show (n.run outs).vms = _
  rw [VmNode.run, if_pos h, VmNode.poll, VmNode.pollVms]

/-- The node as the instance `i` finds it in its turn. -/
def VmNode.seenBy (n : VmNode T D E) (outs : List (VmOutcome T D E)) (i : Nat) : VmNode T D E :=
  seen VmNode.pollInstance .waits n n.vms outs i

/-- **What becomes of one instance in a poll.** -/
theorem VmNode.getElem?_run (n : VmNode T D E) (outs : List (VmOutcome T D E))
    (h : n.base.commenced = true) (i : Nat) :
    (n.input (.run outs)).vms[i]? = n.vms[i]?.map fun q =>
      ((n.seenBy outs i).pollInstance q (outs.getD i .waits)).2 := by
  rw [n.input_run outs h, getElem?_sweep]
  rfl

/-- A node with a target, and the outcome of a task that succeeds. -/
def exampleNode (others : Nat) (distributed : Bool) : VmNode Nat Nat Nat :=
  { VmNode.new others ⟨"crete.img", 0⟩ with
    base.options := ⟨distributed, none⟩, target := "/bin/true", pass := some 0 }

def exampleGoes : VmOutcome Nat Nat Nat := .goes true 7 0 0

end Crete.Cluster
