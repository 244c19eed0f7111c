/-
  File:      Crete/Cluster/Node.lean
  Subject:   The nodes and their instances (lib/cluster/node.cpp, vm_node.cpp, vm_node_fsm.cpp,
             svm_node.cpp, svm_node_fsm.cpp, include/crete/cluster/node_driver.h).

  A node has two threads: one runs it (`run`, over and over), one handles the packets of dispatch.
  Both hold the lock of the node while they do, so that `run` and the handling of one packet are
  single steps. What the world outside decides (whether a task is done, what it produced, whether
  it threw) is an argument of the step: an outcome for each instance.

  Tests, traces and errors are items: they carry the pass of the target that they derive from and,
  for tests and traces, whether they go back to the initial test directly. No function of the
  source reads these two fields; they are there to say where an item comes from.
-/
import Crete.Cluster.NodeFsm
import Crete.Lib.Sweep

namespace Crete.Cluster

/-! ## 1. Items -/

/-- A test, trace or error: the pass of its target, if it derives from a target, and whether it is
    an initial test or the trace of one. -/
structure Item (α : Type) where
  data : α
  pass : Option Nat
  initial : Bool
  deriving DecidableEq, Repr

/-- The earlier of two passes. -/
def older : Option Nat → Option Nat → Option Nat
  | none, q => q
  | some p, none => some p
  | some p, some q => some (min p q)

/-- A packet whose tests, traces and errors are items. -/
abbrev Message (T D E : Type) := Packet (Item T) (Item D) (Item E)

/-! ## 2. Queues -/

/-- `bandwidth_in_bytes`. -/
def bandwidthInBytes : Nat := 125000000

/-- The loop of `transmit_traces`, `transmit_tests` and `transmit_errors`: members are taken until
    none is left or the bandwidth is used up. What is sent, and what stays. -/
def transmit {α : Type} (size : α → Nat) : Nat → List α → List α × List α
  | _, [] => ([], [])
  | sent, x :: xs =>
    if sent < bandwidthInBytes then
      let r := transmit size (sent + size x) xs
      (x :: r.1, r.2)
    else ([], x :: xs)

/-- What is sent and what stays is what there was. -/
theorem transmit_append {α : Type} (size : α → Nat) (xs : List α) : ∀ sent,
    (transmit size sent xs).1 ++ (transmit size sent xs).2 = xs := by
  induction xs with
  | nil => exact fun _ => rfl
  | cons x xs ih =>
    intro sent
    simp only [transmit]
    split
    · rw [List.cons_append, ih]
    · rfl

/-- The number of bytes of a test, of the data of a trace and of an error. -/
structure Sizes (T D E : Type) where
  test : T → Nat
  trace : D → Nat
  error : E → Nat

variable {T D E : Type}

/-- `class Node`. -/
structure Node (T D E : Type) where
  tests : List (Item T)
  traces : List (Trace (Item D))
  errors : List (Item E)
  commenced : Bool
  active : Bool
  options : NodeOptions (Item T)
  deriving DecidableEq, Repr

namespace Node

/-- A node that was just constructed. -/
def new : Node T D E := ⟨[], [], [], false, true, ⟨false, none⟩⟩

/-- `status`. -/
def status (n : Node T D E) : NodeStatus :=
  ⟨n.tests.length, n.traces.length, n.errors.length, n.active⟩

/-- `reset`: errors are kept. -/
def reset (n : Node T D E) : Node T D E :=
  { n with commenced := false, traces := [], tests := [], active := true }

end Node

/-! ## 3. Instances of a VM node -/

/-- The states of the first region of `QemuFSM_`. -/
inductive QemuState where
  | start
  | validateImage
  | updateImage
  | startVm
  | connectVm
  | rxGuestData
  | guestDataRxed
  | nextTest
  | testing
  | storeTrace
  | finished
  deriving DecidableEq, Repr

/-- What the world outside decides of one event: the task is not done; it is done, with whether the
    image is valid, the initial test found in the guest's configuration and the trace; or an
    exception is thrown, a `VMException` or another. -/
inductive VmOutcome (T D E : Type) where
  | waits
  | goes (imageValid : Bool) (guest : T) (uuid : Nat) (data : D)
  | throws (vmException : Bool) (log : E)
  deriving DecidableEq, Repr

/-- `class QemuFSM_`. `terminated` and `error` are the states of the other two regions; `test` is
    the test in the input file of the guest. -/
structure Qemu (T D E : Type) where
  state : QemuState
  terminated : Bool
  error : Bool
  distributed : Bool
  firstVm : Bool
  target : String
  pass : Option Nat
  test : Option (Item T)
  trace : Option (Trace (Item D))
  initialTest : Option (Item T)
  errorLog : Option (Item E)
  deriving DecidableEq, Repr

namespace Qemu

/-- An instance that was just constructed. -/
def new : Qemu T D E := ⟨.start, false, false, false, false, "", none, none, none, none, none⟩

/-- `start()` of the back end: the regions are in their initial states. -/
def restart (q : Qemu T D E) : Qemu T D E :=
  { q with state := .start, terminated := false, error := false }

/-- `exception_caught`, and the event that it sends. -/
def throw (q : Qemu T D E) (vmException : Bool) (log : E) : Qemu T D E :=
  let q := { q with errorLog := some ⟨log, q.pass, false⟩ }
  if vmException && q.distributed then { q with error := true } else { q with terminated := true }

/-- `ev::start`, of an instance in its initial states. The exceptions here are no
    `VMException`s. -/
def begin (q : Qemu T D E) (o : NodeOptions (Item T)) (firstVm : Bool) (target : String)
    (pass : Option Nat) : VmOutcome T D E → Qemu T D E
  | .throws _ log => q.throw false log
  | _ => { q with
      state := if o.distributed then .validateImage else .connectVm
      distributed := o.distributed, firstVm, target, pass }

/-- The trace of the current test. -/
def traceOf (q : Qemu T D E) (uuid : Nat) (data : D) : Trace (Item D) :=
  ⟨uuid, ⟨data, older q.pass (q.test.bind Item.pass), q.test.any Item.initial⟩⟩

/-- The row that `ev::poll` takes once the guards accept. -/
def advance (q : Qemu T D E) (imageValid : Bool) (guest : T) (uuid : Nat) (data : D) :
    Qemu T D E :=
  match q.state with
  | .validateImage => { q with state := if imageValid then .startVm else .updateImage }
  | .startVm => { q with state := .connectVm }
  | .connectVm =>
    -- in distributed mode `has_next_target` is one more guard
    if q.distributed && q.target = "" then q
    else { q with state := if q.firstVm then .rxGuestData else .nextTest }
  | .rxGuestData =>
    { q with state := .guestDataRxed, initialTest := some ⟨guest, q.pass, true⟩ }
  | .testing => { q with state := .storeTrace }
  | .storeTrace => { q with state := .finished, trace := some (q.traceOf uuid data) }
  | .start | .updateImage | .guestDataRxed | .nextTest | .finished => q

/-- `ev::poll`. A terminated machine handles no event. -/
def poll (q : Qemu T D E) (out : VmOutcome T D E) : Qemu T D E :=
  if q.terminated then q
  else match q.state with
    | .updateImage => { q with state := .startVm }
    | .guestDataRxed => { q with state := .nextTest }
    | .start | .nextTest | .finished => q
    | .validateImage | .startVm | .connectVm | .rxGuestData | .testing | .storeTrace =>
      match out with
      | .waits => q
      | .goes imageValid guest uuid data => q.advance imageValid guest uuid data
      | .throws vmException log => q.throw vmException log

/-- `ev::next_test`, in the state `NextTest`: whether `process_event` returns `HANDLED_TRUE`, as it
    also does for a terminated machine. -/
def nextTest (q : Qemu T D E) (t : Item T) (out : VmOutcome T D E) : Bool × Qemu T D E :=
  if q.terminated then (true, q)
  else match out with
    | .waits => (false, q)
    | .goes _ _ _ _ => (true, { q with state := .testing, test := some t })
    | .throws vmException log => (false, q.throw vmException log)

/-- `ev::trace_queued`, in the state `Finished`. -/
def traceQueued (q : Qemu T D E) : Qemu T D E :=
  if q.terminated then q else { q with state := .nextTest }

/-- The instance is waiting for a test, or terminated. -/
def idle (q : Qemu T D E) : Bool := q.state = .nextTest || q.terminated

end Qemu

/-! ## 4. VM nodes -/

/-- `class VMNode`; `finishedInitial` is history: since it was constructed or reset the node has
    queued the trace of an initial test. -/
structure VmNode (T D E : Type) where
  base : Node T D E
  vms : List (Qemu T D E)
  target : String
  pass : Option Nat
  imageInfo : ImageInfo
  finishedInitial : Bool
  deriving DecidableEq, Repr

namespace VmNode

/-- A node that was just constructed, with at least one instance. -/
def new (others : Nat) (info : ImageInfo) : VmNode T D E :=
  ⟨.new, List.replicate (others + 1) .new, "", none, info, false⟩

/-- The initial test that the first instance queues: that of the options if there is one. -/
def initial (n : VmNode T D E) (q : Qemu T D E) : List (Item T) :=
  match n.base.options.initialTc with
  | some t => [{ t with pass := none, initial := true }]
  | none => q.initialTest.toList

/-- The body of the loop of `poll`. The instances of the node are not looked at. -/
def pollInstance (n : VmNode T D E) (q : Qemu T D E) (out : VmOutcome T D E) :
    VmNode T D E × Qemu T D E :=
  if q.state = .finished then
    ({ n with
        base.traces := n.base.traces ++ q.trace.toList
        finishedInitial := n.finishedInitial || q.trace.any fun t => t.data.initial },
      q.traceQueued)
  else if q.state = .nextTest then
    match n.base.tests with
    | [] => (n, q)
    | t :: rest =>
      let r := q.nextTest t out
      ({ n with base.tests := if r.1 then rest else rest ++ [t] }, r.2)
  else if q.state = .guestDataRxed then
    ({ n with base.tests := n.base.tests ++ n.initial q }, q.poll out)
  else if q.error then
    ({ n with base.errors := n.base.errors ++ q.errorLog.toList },
      Qemu.new.begin n.base.options false n.target n.pass out)
  else if q.terminated then (n, q)
  else (n, q.poll out)

/-- The loop of `poll`. -/
def pollVms : VmNode T D E → List (Qemu T D E) → List (VmOutcome T D E) →
    VmNode T D E × List (Qemu T D E) :=
  Lib.sweep pollInstance .waits

/-- What `poll` does not change. -/
structure Frame (n n' : VmNode T D E) : Prop where
  commenced : n'.base.commenced = n.base.commenced
  options : n'.base.options = n.base.options
  target : n'.target = n.target
  pass : n'.pass = n.pass

theorem pollInstance_frame (n : VmNode T D E) (q : Qemu T D E) (out : VmOutcome T D E) :
    Frame n (n.pollInstance q out).1 := by
  unfold pollInstance
  split
  · exact ⟨rfl, rfl, rfl, rfl⟩
  · split
    · cases n.base.tests <;> exact ⟨rfl, rfl, rfl, rfl⟩
    · split
      · exact ⟨rfl, rfl, rfl, rfl⟩
      · split
        · exact ⟨rfl, rfl, rfl, rfl⟩
        · split <;> exact ⟨rfl, rfl, rfl, rfl⟩

theorem Frame.trans {n₁ n₂ n₃ : VmNode T D E} (h : Frame n₁ n₂) (h' : Frame n₂ n₃) :
    Frame n₁ n₃ :=
  ⟨h'.commenced.trans h.commenced, h'.options.trans h.options, h'.target.trans h.target,
    h'.pass.trans h.pass⟩

theorem pollVms_frame (qs : List (Qemu T D E)) : ∀ (n : VmNode T D E)
    (outs : List (VmOutcome T D E)), Frame n (n.pollVms qs outs).1 := by
  induction qs with
  | nil => exact fun n outs => ⟨rfl, rfl, rfl, rfl⟩
  | cons q qs ih => exact fun n outs => (pollInstance_frame n q _).trans (ih _ _)

/-- `poll`. -/
def poll (n : VmNode T D E) (outs : List (VmOutcome T D E)) : VmNode T D E :=
  let r := n.pollVms n.vms outs
  { r.1 with vms := r.2, base.active := r.2.any fun q => !q.idle }

/-- `run`. -/
def run (n : VmNode T D E) (outs : List (VmOutcome T D E)) : VmNode T D E :=
  if n.base.commenced then n.poll outs else n

theorem run_frame (n : VmNode T D E) (outs : List (VmOutcome T D E)) : Frame n (n.run outs) := by
  unfold run
  split
  · have h := pollVms_frame n.vms n outs
    exact ⟨h.commenced, h.options, h.target, h.pass⟩
  · exact ⟨rfl, rfl, rfl, rfl⟩

/-- `reset`: nothing is done if the node has not commenced. -/
def reset (n : VmNode T D E) : VmNode T D E :=
  if n.base.commenced then
    { n with base := n.base.reset, vms := n.vms.map fun _ => .new, finishedInitial := false }
  else n

/-- `start_FSMs`. In distributed mode one instance is the first; otherwise the instances are not
    counted and each is. -/
def startFsms (n : VmNode T D E) : Bool → List (Qemu T D E) → List (VmOutcome T D E) →
    List (Qemu T D E)
  | _, [], _ => []
  | first, q :: qs, outs =>
    q.restart.begin n.base.options first n.target n.pass (outs.headD .waits) ::
      n.startFsms (first && !n.base.options.distributed) qs outs.tail

/-- `process` and `process_default`, for the packets that ask for nothing. -/
def process (n : VmNode T D E) (outs : List (VmOutcome T D E)) : Message T D E → VmNode T D E
  | .config o => { n with base.options := o }
  | .imageInfo info => { n with imageInfo := info }
  | .reset => n.reset
  | .nextTarget target pass => { n with target := target, pass := some pass }
  | .commence => { n with vms := n.startFsms true n.vms outs, base.commenced := true }
  | .trace batch => { n with base.traces := n.base.traces ++ batch }
  | .testCase batch => { n with base.tests := n.base.tests ++ batch }
  | _ => n

end VmNode

/-! ## 5. Instances of an SVM node -/

/-- The states of the first region of `KleeFSM_`; `Prepared` has no row. -/
inductive KleeState where
  | start
  | nextTrace
  | prepare
  | executeConcolic
  | executeSymbolic
  | storeTests
  | finished
  | resultReady
  deriving DecidableEq, Repr

/-- What the world outside decides of one poll: the task is not done; it is done; or it threw an
    `SVMException`, with the tests of a `SymbolicExecException`. `tests` is what the task that is
    started now will retrieve; `old` is for a retrieval that is still going on from before a reset:
    it fails, or it writes before (`false`) or after (`true`) the new one. -/
inductive SvmOutcome (T E : Type) where
  | waits
  | goes (tests : List T) (old : Option Bool)
  | throws (tests : Option (List T)) (log : E)
  deriving DecidableEq, Repr

/-- `class KleeFSM_`. `error` is the state of the second region; `tests` is `*tests_`, which nothing
    clears; `retrieving` is what a running `retrieve_result` task is going to write there. -/
structure Klee (T D E : Type) where
  state : KleeState
  error : Bool
  trace : Option (Trace (Item D))
  tests : List (Item T)
  retrieving : Option (List (Item T))
  errorLog : Option (Item E)
  deriving DecidableEq, Repr

namespace Klee

/-- An instance that was just constructed. -/
def new : Klee T D E := ⟨.start, false, none, [], none, none⟩

/-- `start()` and `ev::start`: only the states are new. -/
def begin (k : Klee T D E) : Klee T D E := { k with state := .nextTrace, error := false }

/-- The pass of the current trace. -/
def pass (k : Klee T D E) : Option Nat := k.trace.bind fun t => t.data.pass

/-- Tests that the current trace leads to. -/
def derive (k : Klee T D E) (tests : List T) : List (Item T) :=
  tests.map fun t => ⟨t, k.pass, false⟩

/-- `exception_caught`, for an `SVMException`. -/
def throw (k : Klee T D E) (log : E) : Klee T D E :=
  { k with error := true, errorLog := some ⟨log, k.pass, false⟩ }

/-- `retrieve_result`: the task of `Finished` is replaced, which waits for an old one. -/
def retrieve (k : Klee T D E) (tests : List T) (old : Option Bool) : Klee T D E :=
  match k.retrieving, old with
  | some ts, some false =>
    { k with state := .finished, tests := ts, retrieving := some (k.derive tests) }
  | some ts, some true => { k with state := .finished, tests := ts, retrieving := none }
  | _, _ => { k with state := .finished, retrieving := some (k.derive tests) }

/-- `ev::poll`. -/
def poll (k : Klee T D E) (out : SvmOutcome T E) : Klee T D E :=
  match k.state, out with
  | .start, _ | .nextTrace, _ | .resultReady, _ | _, .waits => k
  | .prepare, .goes _ _ => { k with state := .executeConcolic }
  | .executeConcolic, .goes _ _ => { k with state := .executeSymbolic }
  | .executeSymbolic, .goes _ _ => { k with state := .storeTests }
  | .storeTests, .goes tests old => k.retrieve tests old
  | .finished, .goes _ _ => if k.retrieving.isSome then k else { k with state := .resultReady }
  | .storeTests, .throws (some tests) log => { k.throw log with tests := k.derive tests }
  | .finished, .throws _ log => { k.throw log with retrieving := none }
  | _, .throws _ log => k.throw log

/-- The retrieval ends. -/
def retrieved (k : Klee T D E) : Klee T D E :=
  match k.retrieving with
  | some ts => { k with tests := ts, retrieving := none }
  | none => k

end Klee

/-! ## 6. SVM nodes -/

/-- `class SVMNode`. -/
structure SvmNode (T D E : Type) where
  base : Node T D E
  svms : List (Klee T D E)
  deriving DecidableEq, Repr

namespace SvmNode

/-- A node that was just constructed, with at least one instance. -/
def new (others : Nat) : SvmNode T D E := ⟨.new, List.replicate (others + 1) .new⟩

/-- The body of the loop of `poll`. The instances of the node are not looked at. -/
def pollInstance (n : SvmNode T D E) (k : Klee T D E) (out : SvmOutcome T E) :
    SvmNode T D E × Klee T D E :=
  if k.state = .nextTrace then
    match n.base.traces with
    | [] => (n, k)
    | t :: rest => ({ n with base.traces := rest }, { k with state := .prepare, trace := some t })
  else if k.state = .resultReady then
    ({ n with base.tests := n.base.tests ++ k.tests }, { k with state := .nextTrace })
  else if k.error then
    ({ n with
        base.errors := n.base.errors ++ k.errorLog.toList
        base.tests := n.base.tests ++ k.tests }, Klee.new.begin)
  else (n, k.poll out)

/-- The loop of `poll`. -/
def pollSvms : SvmNode T D E → List (Klee T D E) → List (SvmOutcome T E) →
    SvmNode T D E × List (Klee T D E) :=
  Lib.sweep pollInstance .waits

/-- `poll`. -/
def poll (n : SvmNode T D E) (outs : List (SvmOutcome T E)) : SvmNode T D E :=
  let r := n.pollSvms n.svms outs
  { r.1 with svms := r.2, base.active := r.2.any fun k => k.state ≠ .nextTrace }

/-- `run`. -/
def run (n : SvmNode T D E) (outs : List (SvmOutcome T E)) : SvmNode T D E :=
  if n.base.commenced then n.poll outs else n

theorem pollInstance_commenced (n : SvmNode T D E) (k : Klee T D E) (out : SvmOutcome T E) :
    (n.pollInstance k out).1.base.commenced = n.base.commenced := by
  unfold pollInstance
  split
  · cases n.base.traces <;> rfl
  · split
    · rfl
    · split <;> rfl

theorem pollSvms_commenced (ks : List (Klee T D E)) : ∀ (n : SvmNode T D E)
    (outs : List (SvmOutcome T E)), (n.pollSvms ks outs).1.base.commenced = n.base.commenced := by
  induction ks with
  | nil => exact fun n outs => rfl
  | cons k ks ih => exact fun n outs => (ih _ _).trans (pollInstance_commenced n k _)

theorem run_commenced (n : SvmNode T D E) (outs : List (SvmOutcome T E)) :
    (n.run outs).base.commenced = n.base.commenced := by
  unfold run
  split
  · exact pollSvms_commenced n.svms n outs
  · rfl

/-- The retrieval of instance `i` ends. -/
def retrieved (n : SvmNode T D E) (i : Nat) : SvmNode T D E :=
  { n with svms := n.svms.modify i Klee.retrieved }

/-- `process` and `process_default`, for the packets that ask for nothing. -/
def process (n : SvmNode T D E) : Message T D E → SvmNode T D E
  | .config o => { n with base.options := o }
  | .reset => { n with base := n.base.reset }
  | .commence => { n with svms := n.svms.map Klee.begin, base.commenced := true }
  | .trace batch => { n with base.traces := n.base.traces ++ batch }
  | .testCase batch => { n with base.tests := n.base.tests ++ batch }
  | _ => n

end SvmNode

end Crete.Cluster
