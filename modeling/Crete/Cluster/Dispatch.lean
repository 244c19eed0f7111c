/-
  File:      Crete/Cluster/Dispatch.lean
  Subject:   The dispatcher (DispatchFSM_ of lib/cluster/dispatch.cpp) and the thread that registers
             nodes with it (NodeRegistrarDriver of lib/cluster/node_registrar.cpp).

  Both threads are one machine here, and every interleaving of them is a run of it. A step of the
  main thread is what happens under one lock: one guard that asks the registrar, one loop over the
  registered nodes, one node driven by `dispatch`. A step of the registrar is the connection of a
  node, its callback, or the entry of the node into the list of nodes.

  Arguments of a step are what the source takes from outside: replies of nodes, the time, the scores
  of traces and which trace files can be read.

  * **`driveVm_drive`**, **`driveSvm_drive`**, **`step_moves`** -- what `dispatch` can do with one
    node, and what a step can do.
-/
import Crete.Cluster.NodeFsm
import Crete.Lib.Fifo
import Crete.Lib.Machine
import Mathlib.Data.List.Sort

namespace Crete.Cluster

open Crete.Lib List

variable {T D E : Type}

/-! ## 1. Pools -/

/-- Which tests and traces the pools admit, by what was inserted before, and which traces are
    superseded by others. -/
structure Env (T D : Type) where
  admitsTest : List T → T → Bool
  admitsTrace : List (Trace D) → Trace D → Bool
  superseded : List (Trace D) → Trace D → Bool

/-- The two pools. A trace waits as a directory named by its uuid; what waits is a set. -/
structure Pools (T D : Type) where
  tests : Fifo T
  traces : Fifo (Trace D)
  files : Nat → Option D

/-- How traces are selected and read back: their scores, whether reading throws, and the uuid the
    trace gets. -/
structure Reading where
  fails : Nat → Bool
  fresh : Nat → Nat
  score : Nat → Nat

namespace Pools

/-- `TestPool{root_}` and `TracePool{options_, "fifo"}`. -/
def new : Pools T D := ⟨.empty, .empty, fun _ => none⟩

/-- `to_trace_pool`. -/
def toTracePool (env : Env T D) (p : Pools T D) (t : Trace D) : Pools T D :=
  { p with
    traces := p.traces.insert env.admitsTrace t
    files := Function.update p.files t.uuid (some t.data) }

/-- `from_trace_file`: the directory gets a new name, is packed, and is removed. -/
def fromTraceFile (r : Reading) (files : Nat → Option D) (t : Trace D) :
    Option (Trace D) × (Nat → Option D) :=
  match files t.uuid with
  | none => (none, files)
  | some data =>
    (if r.fails t.uuid then none else some ⟨r.fresh t.uuid, data⟩,
      Function.update files t.uuid none)

/-- `next_trace`, of the trace that `TracePool::next` has selected: it is erased from `next_`, and
    if it is superseded `submit_executed` throws. -/
def nextTrace (env : Env T D) (r : Reading) (seen : List (Trace D)) (files : Nat → Option D)
    (t : Trace D) : Option (Trace D) × (Nat → Option D) :=
  if env.superseded seen t then (none, files) else fromTraceFile r files t

/-- The loop over `next_trace`: the least score comes first (`"fifo"` is the weighted strategy); an
    exception is logged, and the loop goes on. -/
def nextTraces (env : Env T D) (r : Reading) (room : Nat) (p : Pools T D) :
    List (Trace D × Option (Trace D)) × Pools T D :=
  let q := Fifo.drawUpTo (nextTrace env r p.traces.seen) room p.files
    (p.traces.waiting.insertionSort fun s t => r.score s.uuid ≤ r.score t.uuid)
  (q.1, { p with traces := { p.traces with waiting := q.2.1 }, files := q.2.2 })

end Pools

/-! ## 2. The state -/

/-- `option::Dispatch`, as far as dispatch and its nodes read it; `imageInfo` is what
    `ImageInfo{vm.image.path}` is. -/
structure Options (T : Type) where
  distributed : Bool
  updateImage : Bool
  imageInfo : ImageInfo
  initialTc : Option T
  intervalTrace : Nat
  intervalTc : Nat
  intervalTime : Nat
  items : List String

/-- What the nodes read of the options. -/
def Options.node (o : Options T) : NodeOptions T := ⟨o.distributed, o.initialTc⟩

/-- The two kinds of node that may register. -/
inductive NodeType where
  | vm
  | svm
  deriving DecidableEq, Repr

/-- The rows of `SpecCheck`. -/
inductive Row where
  | nextTarget
  | dispatch
  | terminate
  deriving DecidableEq, Repr

/-- Where the main thread is. `SpecCheck` stands at a row of which the guard is to be evaluated,
    or in the middle of `is_converged`; `NextTarget` and `Dispatch` between two locks of their
    actions. `emptyFront` is reached by `front` of an empty queue, which is undefined. -/
inductive Phase where
  | specCheck (row : Row)
  | inactiveCheck (row : Row) (queuesEmpty : Bool)
  | nextTarget
  | resetNodes
  | assignNextTarget
  | dispatchVm (i : Nat)
  | dispatchSvm (i : Nat)
  | terminate
  | terminated
  | emptyFront
  deriving DecidableEq, Repr

/-- Where the registrar is: a node is connected, its callback is done, and then it is entered. -/
inductive Joining where
  | waiting
  | connected (node : Nat)
  | calledBack (node : Nat)
  deriving DecidableEq, Repr

/-- `class DispatchFSM_` with the registrar. The record of a node, which the registrar and a
    machine share, is its entries in `type` and `status`. -/
structure Dispatcher (T D E : Type) where
  options : Options T
  phase : Phase
  first : Bool
  pass : Nat
  targets : List String
  target : String
  pools : Pools T D
  vmFsms : List (VmFsm D E)
  svmFsms : List (SvmFsm T E)
  connected : Nat
  type : Nat → NodeType
  status : Nat → NodeStatus
  joining : Joining
  nodes : List Nat

/-- What can be observed: packets, what goes into the pools and out of them, errors written to the
    logs of the target, the start of a target, of a `dispatch`, and what `is_converged` returns. -/
inductive Label (T D E : Type) where
  | packet (node : Nat) (p : Packet T D E)
  | insertedTrace (t : Trace D)
  | insertedTest (t : T)
  | tookTrace (t : Trace D) (read : Option (Trace D))
  | lostTrace (t : Trace D)
  | tookTest (t : T)
  | logged (e : E)
  | cleared
  | dispatchBegins
  | converged (b : Bool)
  deriving DecidableEq, Repr

/-- What is observed of a trace that is taken; it is lost if `TracePool::next` throws. -/
def Label.taken (env : Env T D) (seen : List (Trace D)) (t : Trace D × Option (Trace D)) :
    Label T D E :=
  match t.2 with
  | none => if env.superseded seen t.1 then .lostTrace t.1 else .tookTrace t.1 none
  | some read => .tookTrace t.1 (some read)

theorem Label.taken_cases (env : Env T D) (seen : List (Trace D)) (t : Trace D × Option (Trace D)) :
    (.taken env seen t : Label T D E) = .tookTrace t.1 t.2 ∨
      t.2 = none ∧ (.taken env seen t : Label T D E) = .lostTrace t.1 := by
  obtain ⟨t, none | read⟩ := t
  · dsimp only [Label.taken]
    split
    · exact .inr ⟨rfl, rfl⟩
    · exact .inl rfl
  · exact .inl rfl

/-! ## 3. `dispatch`, for one node -/

/-- `vm_test_multiplier`. -/
def vmTestMultiplier : Nat := 20

/-- `vm_trace_multiplier`. -/
def vmTraceMultiplier : Nat := 20

/-- The body of the loop over VM nodes, chosen by the flags of the state. -/
def driveVm (env : Env T D) (o : Options T) (p : Pools T D) (status : NodeStatus)
    (a : Answers T D E) (f : VmFsm D E) :
    Pools T D × Moved (VmFsm D E) T D E × List (Label T D E) :=
  match f.state with
  | .traceRxed =>
    (f.traces.foldl (Pools.toTracePool env) p, f.processEvent status a .trace,
      f.traces.map .insertedTrace)
  | .txTest =>
    let r := p.tests.takeUpTo (vmTestMultiplier - status.testCaseCount)
    ({ p with tests := r.2 }, f.processEvent status a (.test r.1), r.1.map .tookTest)
  | .errorRxed => (p, { f with errors := [] }.processEvent status a .poll, f.errors.map .logged)
  | .txConfig => (p, f.processEvent status a (.config o.node), [])
  | .validateImage | .updateImage => (p, f.processEvent status a (.image o.imageInfo), [])
  | _ => (p, f.processEvent status a .poll, [])

/-- The body of the loop over SVM nodes. -/
def driveSvm (env : Env T D) (o : Options T) (r : Reading) (p : Pools T D) (status : NodeStatus)
    (a : Answers T D E) (f : SvmFsm T E) :
    Pools T D × Moved (SvmFsm T E) T D E × List (Label T D E) :=
  match f.state with
  | .testRxed =>
    ({ p with tests := p.tests.insertAll env.admitsTest f.tests }, f.processEvent status a .test,
      f.tests.map .insertedTest)
  | .txTrace =>
    let q := p.nextTraces env r (vmTraceMultiplier - status.traceCount)
    (q.2, f.processEvent status a (.trace (q.1.filterMap Prod.snd)),
      q.1.map (.taken env p.traces.seen))
  | .errorRxed => (p, { f with errors := [] }.processEvent status a .poll, f.errors.map .logged)
  | .txConfig => (p, f.processEvent status a (.config o.node), [])
  | _ => (p, f.processEvent status a .poll, [])

namespace Dispatcher

/-! ## 4. Guards -/

/-- `are_node_queues_empty`. -/
def areNodeQueuesEmpty (d : Dispatcher T D E) : Bool :=
  d.nodes.all fun k => (d.status k).testCaseCount = 0 && (d.status k).traceCount = 0

/-- `are_nodes_inactive`. -/
def areNodesInactive (d : Dispatcher T D E) : Bool := d.nodes.all fun k => !(d.status k).active

/-- `is_converged`, from what `are_node_queues_empty` has returned. -/
def isConverged (d : Dispatcher T D E) (queuesEmpty : Bool) : Bool :=
  queuesEmpty && d.pools.tests.waiting.length = 0 && d.pools.traces.waiting.length = 0
    && d.areNodesInactive

/-- `is_target_expired`. -/
def isTargetExpired (d : Dispatcher T D E) (converged : Bool) (elapsed : Nat) : Bool :=
  converged || d.pools.traces.kept ≥ d.options.intervalTrace
    || d.pools.tests.kept ≥ d.options.intervalTc || elapsed ≥ d.options.intervalTime

/-! ## 5. Actions -/

/-- `register_node_fsm`. -/
def registerNodeFsm (d : Dispatcher T D E) (k : Nat) : Dispatcher T D E :=
  let d := { d with status := Function.update d.status k { d.status k with active := true } }
  match d.type k with
  | .vm =>
    { d with vmFsms := d.vmFsms ++ [{ VmFsm.new with
        state := .txConfig
        node := k
        updateImage := d.options.updateImage
        distributed := d.options.distributed }] }
  | .svm => { d with svmFsms := d.svmFsms ++ [{ SvmFsm.new with state := .txConfig, node := k }] }

/-- `reset`, up to the loop: `set_up_root_dir` looks at the front of the queue, and the pools and
    the lists of machines are new. -/
def clear (d : Dispatcher T D E) : Dispatcher T D E × List (Label T D E) :=
  match d.targets with
  | [] => ({ d with phase := .emptyFront }, [])
  | _ :: _ =>
    ({ d with
        phase := .resetNodes
        pass := d.pass + 1
        pools := .new
        vmFsms := []
        svmFsms := [] }, [.cleared])

/-- The loop of `reset`. -/
def resetNodes (d : Dispatcher T D E) : Dispatcher T D E × List (Label T D E) :=
  ({ d.nodes.foldl registerNodeFsm d with phase := .assignNextTarget },
    d.nodes.map fun k => .packet k .reset)

/-- The loop of `assign_next_target` over the VM nodes `ks`, with the queue and `target_`. The
    target is missing in the end if the front of an empty queue was taken. -/
def assignTargets (pass : Nat) : List Nat → List String → String →
    List (Label T D E) × List String × Option String
  | [], queue, target => ([], queue, some target)
  | _ :: _, [], _ => ([], [], none)
  | k :: ks, t :: queue, _ =>
    let r := assignTargets pass ks queue t
    (.packet k (.nextTarget t pass) :: r.1, r.2)

/-- The VM nodes in the list of nodes. -/
def vmNodes (d : Dispatcher T D E) : List Nat := d.nodes.filter fun k => d.type k = .vm

/-- `assign_next_target`. -/
def assignNextTarget (d : Dispatcher T D E) : Dispatcher T D E × List (Label T D E) :=
  let r := assignTargets d.pass d.vmNodes d.targets d.target
  match r.2.2 with
  | none => ({ d with targets := r.2.1, phase := .emptyFront }, r.1)
  | some t =>
    ({ d with targets := r.2.1, target := t, phase := .dispatchVm 0 }, r.1 ++ [.dispatchBegins])

/-- The loop of `dispatch` over VM nodes, at machine `i`. -/
def dispatchVm (env : Env T D) (d : Dispatcher T D E) (a : Answers T D E) (i : Nat) :
    Dispatcher T D E × List (Label T D E) :=
  match d.vmFsms[i]? with
  | none => ({ d with phase := .dispatchSvm 0 }, [])
  | some f =>
    let r := driveVm env d.options d.pools (d.status f.node) a f
    ({ d with
        phase := .dispatchVm (i + 1)
        pools := r.1
        vmFsms := d.vmFsms.set i r.2.1.fsm
        status := Function.update d.status f.node r.2.1.status },
      r.2.2 ++ r.2.1.sent.map (.packet f.node))

/-- The loop of `dispatch` over SVM nodes, at machine `i`. -/
def dispatchSvm (env : Env T D) (d : Dispatcher T D E) (a : Answers T D E) (reading : Reading)
    (i : Nat) : Dispatcher T D E × List (Label T D E) :=
  match d.svmFsms[i]? with
  | none => ({ d with phase := .specCheck .terminate, first := false }, [])
  | some f =>
    let r := driveSvm env d.options reading d.pools (d.status f.node) a f
    ({ d with
        phase := .dispatchSvm (i + 1)
        pools := r.1
        svmFsms := d.svmFsms.set i r.2.1.fsm
        status := Function.update d.status f.node r.2.1.status },
      r.2.2 ++ r.2.1.sent.map (.packet f.node))

/-! ## 6. The two threads -/

/-- The start of a guard: whether `is_target_expired` is asked at all, and what follows if not. -/
def specCheck (d : Dispatcher T D E) (row : Row) : Dispatcher T D E × List (Label T D E) :=
  let ask := ({ d with phase := .inactiveCheck row d.areNodeQueuesEmpty }, [])
  match row with
  | .terminate => ask
  | .dispatch =>
    if !d.options.distributed then ({ d with phase := .dispatchVm 0 }, [.dispatchBegins])
    else if d.first then ({ d with phase := .specCheck .nextTarget }, [])
    else ask
  | .nextTarget =>
    if !d.options.distributed then ({ d with phase := .specCheck .terminate }, [])
    else if d.first then ({ d with phase := .nextTarget }, [])
    else ask

/-- The end of a guard: the row is taken, or the row above it is tried; after the first row the
    next poll begins with the last. -/
def specChecked (d : Dispatcher T D E) (row : Row) (expired : Bool) :
    Dispatcher T D E × List (Label T D E) :=
  match row with
  | .terminate =>
    if expired && d.targets.isEmpty then ({ d with phase := .terminate }, [])
    else ({ d with phase := .specCheck .dispatch }, [])
  | .dispatch =>
    if !expired then ({ d with phase := .dispatchVm 0 }, [.dispatchBegins])
    else ({ d with phase := .specCheck .nextTarget }, [])
  | .nextTarget =>
    if expired && !d.targets.isEmpty then ({ d with phase := .nextTarget }, [])
    else ({ d with phase := .specCheck .terminate }, [])

/-- One step of the main thread. -/
def poll (env : Env T D) (d : Dispatcher T D E) (a : Answers T D E) (reading : Reading)
    (elapsed : Nat) : Option (Dispatcher T D E × List (Label T D E)) :=
  match d.phase with
  | .specCheck row => some (d.specCheck row)
  | .inactiveCheck row queuesEmpty =>
    let c := d.isConverged queuesEmpty
    let r := d.specChecked row (d.isTargetExpired c elapsed)
    some (r.1, .converged c :: r.2)
  | .nextTarget => some d.clear
  | .resetNodes => some d.resetNodes
  | .assignNextTarget => some d.assignNextTarget
  | .dispatchVm i => some (d.dispatchVm env a i)
  | .dispatchSvm i => some (d.dispatchSvm env a reading i)
  | .terminate => some ({ d with phase := .terminated }, [])
  | .terminated => none
  | .emptyFront => none

/-- Whether `dispatch` holds the lock of the machines of this type. -/
def locked (d : Dispatcher T D E) : NodeType → Bool
  | .vm => match d.phase with
    | .dispatchVm (_ + 1) => true
    | _ => false
  | .svm => match d.phase with
    | .dispatchSvm (_ + 1) => true
    | _ => false

end Dispatcher

open Dispatcher

/-- What a step is given. -/
inductive Input (T D E : Type) where
  | connect (type : NodeType) (status : NodeStatus)
  | callBack
  | pushBack
  | poll (answers : Answers T D E) (reading : Reading) (elapsed : Nat)

/-- One step of one of the threads. -/
def step (env : Env T D) (d : Dispatcher T D E) :
    Input T D E → Option (Dispatcher T D E × List (Label T D E))
  | .connect type status =>
    match d.joining with
    | .waiting =>
      some ({ d with
          connected := d.connected + 1
          type := Function.update d.type d.connected type
          status := Function.update d.status d.connected status
          joining := .connected d.connected },
        [.packet d.connected (.statusRequest status)])
    | .connected _ | .calledBack _ => none
  | .callBack =>
    match d.joining with
    | .connected k =>
      if d.locked (d.type k) then none
      else some ({ d.registerNodeFsm k with joining := .calledBack k }, [])
    | .waiting | .calledBack _ => none
  | .pushBack =>
    match d.joining with
    | .calledBack k => some ({ d with nodes := d.nodes ++ [k], joining := .waiting }, [])
    | .waiting | .connected _ => none
  | .poll a reading elapsed => d.poll env a reading elapsed

/-- After `init`: no node is known. -/
def Dispatcher.init (o : Options T) : Dispatcher T D E where
  options := o
  phase := .specCheck .terminate
  first := true
  pass := 0
  targets := o.items
  target := ""
  pools := .new
  vmFsms := []
  svmFsms := []
  connected := 0
  type := fun _ => .vm
  status := fun _ => ⟨0, 0, 0, true⟩
  joining := .waiting
  nodes := []

/-! ## 7. What driving a node can do -/

/-- Packets sent before a node commences. -/
def Packet.Early : Packet T D E → Prop
  | .config _ | .imageInfoRequest _ | .imageInfo _ | .image => True
  | _ => False

/-- States of a VM node's machine before it lets the node commence. -/
def VmState.Early : VmState → Prop
  | .start | .txConfig | .validateImage | .updateImage | .rxGuestData | .guestDataRxed => True
  | _ => False

/-- States of an SVM node's machine before it lets the node commence. -/
def SvmState.Early : SvmState → Prop
  | .start | .txConfig => True
  | _ => False

section Drive

variable (env : Env T D) (o : Options T) (reading : Reading) (p : Pools T D)
  (status : NodeStatus) (a : Answers T D E)

/-- The ways in which a VM node is driven. -/
inductive VmDrive (f : VmFsm D E) :
    Pools T D × Moved (VmFsm D E) T D E × List (Label T D E) → Prop where
  | early {f' : VmFsm D E} {sent : List (Packet T D E)} (source : f.state.Early)
      (dest : f'.state.Early ∨ f'.state = .commence) (node : f'.node = f.node)
      (packets : ∀ q ∈ sent, q.Early) (batches : f'.traces = f.traces ∧ f'.errors = f.errors) :
      VmDrive f (p, ⟨f', status, sent⟩, [])
  | commence (source : f.state = .commence) :
      VmDrive f (p, ⟨{ f with state := .rxStatus }, status, [.commence]⟩, [])
  | rxStatus (source : f.state = .rxStatus) :
      VmDrive f (p, ⟨{ f with state := .statusRxed }, a.status, [.statusRequest a.status]⟩, [])
  | wait {state : VmState} (source : (f.state, state) ∈
        [(VmState.statusRxed, VmState.rxTrace), (.rxTrace, .txTest), (.testTxed, .rxStatus)]) :
      VmDrive f (p, ⟨{ f with state }, status, []⟩, [])
  | rxTrace (source : f.state = .rxTrace) (reported : status.traceCount > 0) :
      VmDrive f (p, ⟨{ f with state := .traceRxed, traces := a.traces }, status,
        [.traceRequest a.traces]⟩, [])
  | traceRxed (source : f.state = .traceRxed) :
      VmDrive f (f.traces.foldl (Pools.toTracePool env) p,
        ⟨{ f with state := .txTest }, status, []⟩, f.traces.map .insertedTrace)
  | txTest {room : Nat} {tests : List T} {rest : Fifo T} (source : f.state = .txTest)
      (taken : p.tests.takeUpTo room = (tests, rest)) :
      VmDrive f ({ p with tests := rest }, ⟨{ f with state := .testTxed }, a.status,
        (if tests.isEmpty then [] else [.testCase tests]) ++ [.statusRequest a.status]⟩,
        tests.map .tookTest)
  | rxError (source : f.state = .testTxed) (reported : status.errorCount > 0) :
      VmDrive f (p, ⟨{ f with state := .errorRxed, errors := a.errors }, status,
        [.errorLogRequest a.errors]⟩, [])
  | errorRxed (source : f.state = .errorRxed) :
      VmDrive f (p, ⟨{ f with state := .rxStatus, errors := [] }, status, []⟩, f.errors.map .logged)

/-- **Driving a VM node does one of these.** -/
theorem driveVm_drive (f : VmFsm D E) : VmDrive env p status a f (driveVm env o p status a f) := by
  obtain ⟨state, node, first, traces, errors, info, update, distributed⟩ := f
  cases state with
  | txConfig =>
    simp only [driveVm, VmFsm.processEvent]
    split
    · exact .early trivial (.inr rfl) rfl (by simp [Packet.Early]) ⟨rfl, rfl⟩
    · split
      · exact .early trivial (.inl trivial) rfl (by simp [Packet.Early]) ⟨rfl, rfl⟩
      · split
        · exact .early trivial (.inl trivial) rfl (by simp [Packet.Early]) ⟨rfl, rfl⟩
        · exact .early trivial (.inl trivial) rfl (by simp) ⟨rfl, rfl⟩
  | validateImage =>
    have hsent : ∀ q ∈ (VmFsm.receiveImageInfo
        ⟨.validateImage, node, first, traces, errors, info, update, distributed⟩ a).2,
        q.Early := by
      cases info <;> simp [VmFsm.receiveImageInfo, Packet.Early]
    simp only [driveVm, VmFsm.processEvent]
    split
    · exact .early trivial (.inr rfl) rfl hsent ⟨rfl, rfl⟩
    · split
      · exact .early trivial (.inl trivial) rfl hsent ⟨rfl, rfl⟩
      · exact .early trivial (.inl trivial) rfl hsent ⟨rfl, rfl⟩
  | updateImage =>
    refine .early trivial ?_ rfl (by simp [Packet.Early]) ⟨rfl, rfl⟩
    cases first
    · exact .inr rfl
    · exact .inl trivial
  | start | rxGuestData => exact .early trivial (.inl trivial) rfl (by simp) ⟨rfl, rfl⟩
  | guestDataRxed => exact .early trivial (.inr rfl) rfl (by simp) ⟨rfl, rfl⟩
  | commence => exact .commence rfl
  | rxStatus => exact .rxStatus rfl
  | statusRxed => exact .wait (by simp)
  | rxTrace =>
    simp only [driveVm, VmFsm.processEvent]
    split
    · exact .rxTrace rfl (by assumption)
    · exact .wait (by simp)
  | txTest => exact .txTest rfl rfl
  | traceRxed => exact .traceRxed rfl
  | testTxed =>
    simp only [driveVm, VmFsm.processEvent]
    split
    · exact .rxError rfl (by assumption)
    · exact .wait (by simp)
  | errorRxed => exact .errorRxed rfl

/-- The ways in which an SVM node is driven. -/
inductive SvmDrive (f : SvmFsm T E) :
    Pools T D × Moved (SvmFsm T E) T D E × List (Label T D E) → Prop where
  | early {f' : SvmFsm T E} {sent : List (Packet T D E)} (source : f.state.Early)
      (dest : f'.state.Early ∨ f'.state = .commence) (node : f'.node = f.node)
      (packets : ∀ q ∈ sent, q.Early) (batches : f'.tests = f.tests ∧ f'.errors = f.errors) :
      SvmDrive f (p, ⟨f', status, sent⟩, [])
  | commence (source : f.state = .commence) :
      SvmDrive f (p, ⟨{ f with state := .rxStatus }, status, [.commence]⟩, [])
  | rxStatus (source : f.state = .rxStatus) :
      SvmDrive f (p, ⟨{ f with state := .statusRxed }, a.status, [.statusRequest a.status]⟩, [])
  | wait {state : SvmState} (source : (f.state, state) ∈
        [(SvmState.statusRxed, SvmState.txTrace), (.traceTxed, .rxTest), (.rxTest, .rxStatus)]) :
      SvmDrive f (p, ⟨{ f with state }, status, []⟩, [])
  | txTrace {room : Nat} {taken : List (Trace D × Option (Trace D))} {rest : Pools T D}
      (source : f.state = .txTrace) (draws : p.nextTraces env reading room = (taken, rest)) :
      SvmDrive f (rest, ⟨{ f with state := .traceTxed }, a.status,
        (if (taken.filterMap Prod.snd).isEmpty then [] else [.trace (taken.filterMap Prod.snd)]) ++
          [.statusRequest a.status]⟩, taken.map (.taken env p.traces.seen))
  | rxTest (source : f.state = .rxTest) (reported : status.testCaseCount > 0) :
      SvmDrive f (p, ⟨{ f with state := .testRxed, tests := a.tests }, status,
        [.testCaseRequest a.tests]⟩, [])
  | testRxed (source : f.state = .testRxed) :
      SvmDrive f ({ p with tests := p.tests.insertAll env.admitsTest f.tests },
        ⟨{ f with state := .rxStatus }, status, []⟩, f.tests.map .insertedTest)
  | testRxedError (source : f.state = .testRxed) (reported : status.errorCount > 0) :
      SvmDrive f ({ p with tests := p.tests.insertAll env.admitsTest f.tests },
        ⟨{ f with state := .errorRxed, errors := a.errors }, status,
          [.errorLogRequest a.errors]⟩, f.tests.map .insertedTest)
  | rxError (source : f.state = .rxTest) (reported : status.errorCount > 0) :
      SvmDrive f (p, ⟨{ f with state := .errorRxed, errors := a.errors }, status,
        [.errorLogRequest a.errors]⟩, [])
  | errorRxed (source : f.state = .errorRxed) :
      SvmDrive f (p, ⟨{ f with state := .rxStatus, errors := [] }, status, []⟩,
        f.errors.map .logged)

/-- **Driving an SVM node does one of these.** -/
theorem driveSvm_drive (f : SvmFsm T E) :
    SvmDrive env reading p status a f (driveSvm env o reading p status a f) := by
  obtain ⟨state, node, tests, errors⟩ := f
  cases state with
  | start => exact .early trivial (.inl trivial) rfl (by simp) ⟨rfl, rfl⟩
  | txConfig => exact .early trivial (.inr rfl) rfl (by simp [Packet.Early]) ⟨rfl, rfl⟩
  | commence => exact .commence rfl
  | rxStatus => exact .rxStatus rfl
  | statusRxed | traceTxed => exact .wait (by simp)
  | txTrace => exact .txTrace rfl rfl
  | rxTest =>
    simp only [driveSvm, SvmFsm.processEvent]
    split
    · exact .rxTest rfl (by assumption)
    · split
      · exact .rxError rfl (by assumption)
      · exact .wait (by simp)
  | testRxed =>
    simp only [driveSvm, SvmFsm.processEvent]
    split
    · exact .testRxedError rfl (by assumption)
    · exact .testRxed rfl
  | errorRxed => exact .errorRxed rfl

end Drive

/-! ## 8. Loops over the registered nodes -/

section Nodes

variable (d : Dispatcher T D E)

/-- The machine that a node gets if it is a VM node. -/
def newVm (o : Options T) (type : Nat → NodeType) (k : Nat) : List (VmFsm D E) :=
  if type k = .vm then
    [{ VmFsm.new with
        state := .txConfig
        node := k
        updateImage := o.updateImage
        distributed := o.distributed }]
  else []

/-- The machine that a node gets if it is an SVM node. -/
def newSvm (type : Nat → NodeType) (k : Nat) : List (SvmFsm T E) :=
  if type k = .svm then [{ SvmFsm.new with state := .txConfig, node := k }] else []

theorem registerNodeFsm_eq (k : Nat) : d.registerNodeFsm k = { d with
    vmFsms := d.vmFsms ++ newVm d.options d.type k
    svmFsms := d.svmFsms ++ newSvm d.type k
    status := Function.update d.status k { d.status k with active := true } } := by
  unfold registerNodeFsm newVm newSvm
  cases h : d.type k <;> simp [h]

/-- The status of nodes after `register_node_fsm` of each of `ks`. -/
def activated (status : Nat → NodeStatus) (ks : List Nat) (k : Nat) : NodeStatus :=
  if k ∈ ks then { status k with active := true } else status k

theorem foldl_registerNodeFsm_eq (ks : List Nat) : ks.foldl registerNodeFsm d = { d with
    vmFsms := d.vmFsms ++ ks.flatMap (newVm d.options d.type)
    svmFsms := d.svmFsms ++ ks.flatMap (newSvm d.type)
    status := activated d.status ks } := by
  induction ks generalizing d with
  | nil =>
    have h : activated d.status [] = d.status := by funext k; simp [activated]
    simp [h]
  | cons k ks ih =>
    have h : activated (Function.update d.status k { d.status k with active := true }) ks =
        activated d.status (k :: ks) := by
      funext j
      by_cases hj : j = k
      · subst hj
        simp [activated]
      · simp [activated, hj]
    rw [foldl_cons, ih, registerNodeFsm_eq]
    simp [h]

/-- `reset` sends every node the packet and gives it a machine. -/
theorem resetNodes_eq : d.resetNodes = ({ d with
    phase := .assignNextTarget
    vmFsms := d.vmFsms ++ d.nodes.flatMap (newVm d.options d.type)
    svmFsms := d.svmFsms ++ d.nodes.flatMap (newSvm d.type)
    status := activated d.status d.nodes }, d.nodes.map fun k => .packet k .reset) := by
  rw [Dispatcher.resetNodes, foldl_registerNodeFsm_eq]

theorem mem_newVm {o : Options T} {type : Nat → NodeType} {k : Nat} {f : VmFsm D E}
    (h : f ∈ newVm o type k) :
    type k = .vm ∧ f.node = k ∧ f.state = .txConfig ∧ f.traces = [] ∧ f.errors = [] := by
  unfold newVm at h
  split at h
  · cases mem_singleton.1 h
    exact ⟨by assumption, rfl, rfl, rfl, rfl⟩
  · cases h

theorem mem_newSvm {type : Nat → NodeType} {k : Nat} {f : SvmFsm T E} (h : f ∈ newSvm type k) :
    type k = .svm ∧ f.node = k ∧ f.state = .txConfig ∧ f.tests = [] ∧ f.errors = [] := by
  unfold newSvm at h
  split at h
  · cases mem_singleton.1 h
    exact ⟨by assumption, rfl, rfl, rfl, rfl⟩
  · cases h

/-- Packets of `assign_next_target` go to nodes of the loop. -/
theorem mem_assignTargets {pass : Nat} : ∀ {ks : List Nat} {queue : List String} {target : String}
    {r : List (Label T D E) × List String × Option String},
    assignTargets pass ks queue target = r →
      ∀ l ∈ r.1, ∃ k ∈ ks, ∃ t, l = .packet k (.nextTarget t pass) := by
  intro ks
  induction ks with
  | nil =>
    rintro queue target _ rfl l hl
    cases hl
  | cons k ks ih =>
    rintro queue target _ rfl l hl
    cases queue with
    | nil => cases hl
    | cons t queue =>
      obtain rfl | hl := mem_cons.1 hl
      · exact ⟨k, .head _, t, rfl⟩
      · obtain ⟨j, hj, u, rfl⟩ := ih rfl l hl
        exact ⟨j, mem_cons_of_mem k hj, u, rfl⟩

end Nodes

/-! ## 9. What a step can do -/

/-- The guards of `SpecCheck` are being evaluated. -/
def Phase.Checks : Phase → Prop
  | .specCheck _ | .inactiveCheck _ _ => True
  | _ => False

/-- What the main thread shows of a guard: nothing, or the result of `is_converged`. -/
def Dispatcher.Asked (d : Dispatcher T D E) (ls : List (Label T D E)) : Prop :=
  ls = [] ∨ ∃ row q, d.phase = .inactiveCheck row q ∧ ls = [.converged (d.isConverged q)]

/-- The steps of the main thread. -/
inductive Polls (env : Env T D) (d : Dispatcher T D E) (a : Answers T D E) (reading : Reading) :
    Dispatcher T D E → List (Label T D E) → Prop where
  | ask {row : Row} (source : d.phase = .specCheck row)
      (later : row ≠ .terminate → d.first = false) :
      Polls env d a reading { d with phase := .inactiveCheck row d.areNodeQueuesEmpty } []
  | refuse {row : Row} {ls : List (Label T D E)} (source : d.phase.Checks) (asked : d.Asked ls) :
      Polls env d a reading { d with phase := .specCheck row } ls
  | toTerminate {ls : List (Label T D E)} (source : d.phase.Checks) (asked : d.Asked ls)
      (last : d.targets = []) : Polls env d a reading { d with phase := .terminate } ls
  | toNextTarget {ls : List (Label T D E)} (source : d.phase.Checks) (asked : d.Asked ls)
      (mode : d.options.distributed = true ∨ ∃ q, d.phase = .inactiveCheck .nextTarget q)
      (due : d.first = true ∨ d.targets ≠ []) :
      Polls env d a reading { d with phase := .nextTarget } ls
  | toDispatch {ls : List (Label T D E)} (source : d.phase.Checks) (asked : d.Asked ls)
      (mode : d.options.distributed = false ∨ ∃ q, d.phase = .inactiveCheck .dispatch q) :
      Polls env d a reading { d with phase := .dispatchVm 0 } (ls ++ [.dispatchBegins])
  | emptyFront (source : d.phase = .nextTarget) (empty : d.targets = []) :
      Polls env d a reading { d with phase := .emptyFront } []
  | clear (source : d.phase = .nextTarget) (more : d.targets ≠ []) :
      Polls env d a reading { d with
          phase := .resetNodes
          pass := d.pass + 1
          pools := .new
          vmFsms := []
          svmFsms := [] } [.cleared]
  | resetNodes (source : d.phase = .resetNodes) :
      Polls env d a reading { d with
          phase := .assignNextTarget
          vmFsms := d.vmFsms ++ d.nodes.flatMap (newVm d.options d.type)
          svmFsms := d.svmFsms ++ d.nodes.flatMap (newSvm d.type)
          status := activated d.status d.nodes } (d.nodes.map fun k => .packet k .reset)
  | assignFails {ls : List (Label T D E)} {queue : List String}
      (source : d.phase = .assignNextTarget)
      (result : assignTargets d.pass d.vmNodes d.targets d.target = (ls, queue, none)) :
      Polls env d a reading { d with targets := queue, phase := .emptyFront } ls
  | assign {ls : List (Label T D E)} {queue : List String} {target : String}
      (source : d.phase = .assignNextTarget)
      (result : assignTargets d.pass d.vmNodes d.targets d.target = (ls, queue, some target)) :
      Polls env d a reading { d with targets := queue, target := target, phase := .dispatchVm 0 }
        (ls ++ [.dispatchBegins])
  | driveVm {i : Nat} {f : VmFsm D E} {r : Pools T D × Moved (VmFsm D E) T D E × List (Label T D E)}
      (source : d.phase = .dispatchVm i) (here : d.vmFsms[i]? = some f)
      (drive : VmDrive env d.pools (d.status f.node) a f r) :
      Polls env d a reading { d with
          phase := .dispatchVm (i + 1)
          pools := r.1
          vmFsms := d.vmFsms.set i r.2.1.fsm
          status := Function.update d.status f.node r.2.1.status }
        (r.2.2 ++ r.2.1.sent.map (.packet f.node))
  | vmDone {i : Nat} (source : d.phase = .dispatchVm i) (here : d.vmFsms[i]? = none) :
      Polls env d a reading { d with phase := .dispatchSvm 0 } []
  | driveSvm {i : Nat} {f : SvmFsm T E}
      {r : Pools T D × Moved (SvmFsm T E) T D E × List (Label T D E)}
      (source : d.phase = .dispatchSvm i) (here : d.svmFsms[i]? = some f)
      (drive : SvmDrive env reading d.pools (d.status f.node) a f r) :
      Polls env d a reading { d with
          phase := .dispatchSvm (i + 1)
          pools := r.1
          svmFsms := d.svmFsms.set i r.2.1.fsm
          status := Function.update d.status f.node r.2.1.status }
        (r.2.2 ++ r.2.1.sent.map (.packet f.node))
  | svmDone {i : Nat} (source : d.phase = .dispatchSvm i) (here : d.svmFsms[i]? = none) :
      Polls env d a reading { d with phase := .specCheck .terminate, first := false } []
  | terminated (source : d.phase = .terminate) :
      Polls env d a reading { d with phase := .terminated } []

/-- The steps of both threads. -/
inductive Moves (env : Env T D) (d : Dispatcher T D E) :
    Input T D E → Dispatcher T D E → List (Label T D E) → Prop where
  | connect {type : NodeType} {status : NodeStatus} (idle : d.joining = .waiting) :
      Moves env d (.connect type status) { d with
          connected := d.connected + 1
          type := Function.update d.type d.connected type
          status := Function.update d.status d.connected status
          joining := .connected d.connected }
        [.packet d.connected (.statusRequest status)]
  | callBack {k : Nat} (known : d.joining = .connected k) (free : d.locked (d.type k) = false) :
      Moves env d .callBack { d.registerNodeFsm k with joining := .calledBack k } []
  | pushBack {k : Nat} (known : d.joining = .calledBack k) :
      Moves env d .pushBack { d with nodes := d.nodes ++ [k], joining := .waiting } []
  | poll {a : Answers T D E} {reading : Reading} {elapsed : Nat} {d' : Dispatcher T D E}
      {new : List (Label T D E)} (polls : Polls env d a reading d' new) :
      Moves env d (.poll a reading elapsed) d' new

section Step

variable {env : Env T D} {d d' : Dispatcher T D E} {new : List (Label T D E)}
  {a : Answers T D E} {reading : Reading} {elapsed : Nat}

theorem specCheck_polls {row : Row} (source : d.phase = .specCheck row) :
    Polls env d a reading (d.specCheck row).1 (d.specCheck row).2 := by
  have hc : d.phase.Checks := by rw [source]; trivial
  have hn : d.Asked [] := .inl rfl
  cases row with
  | terminate => exact .ask source fun h => absurd rfl h
  | dispatch =>
    simp only [specCheck]
    split
    · rename_i mode
      exact .toDispatch hc hn (.inl (by simpa using mode))
    · split
      · exact .refuse hc hn
      · rename_i later
        exact .ask source fun _ => by simpa using later
  | nextTarget =>
    simp only [specCheck]
    split
    · exact .refuse hc hn
    · rename_i mode
      split
      · rename_i due
        exact .toNextTarget hc hn (.inl (by simpa using mode)) (.inl due)
      · rename_i later
        exact .ask source fun _ => by simpa using later

theorem specChecked_polls {row : Row} {q : Bool} (source : d.phase = .inactiveCheck row q)
    (expired : Bool) : Polls env d a reading (d.specChecked row expired).1
      (.converged (d.isConverged q) :: (d.specChecked row expired).2) := by
  have hc : d.phase.Checks := by rw [source]; trivial
  have hn : d.Asked [.converged (d.isConverged q)] := .inr ⟨row, q, source, rfl⟩
  cases row with
  | terminate =>
    simp only [specChecked]
    split
    · rename_i h
      simp only [Bool.and_eq_true, List.isEmpty_iff] at h
      exact .toTerminate hc hn h.2
    · exact .refuse hc hn
  | dispatch =>
    simp only [specChecked]
    split
    · exact .toDispatch hc hn (.inr ⟨q, source⟩)
    · exact .refuse hc hn
  | nextTarget =>
    simp only [specChecked]
    split
    · rename_i h
      simp only [Bool.and_eq_true, Bool.not_eq_eq_eq_not, Bool.not_true, isEmpty_eq_false_iff] at h
      exact .toNextTarget hc hn (.inr ⟨q, source⟩) (.inr h.2)
    · exact .refuse hc hn

theorem poll_polls (h : d.poll env a reading elapsed = some (d', new)) :
    Polls env d a reading d' new := by
  unfold Dispatcher.poll at h
  split at h
  · rename_i row source
    have hm : Polls env d a reading (d.specCheck row).1 (d.specCheck row).2 :=
      specCheck_polls source
    rw [Option.some.inj h] at hm
    exact hm
  · rename_i row q source
    cases h
    exact specChecked_polls source _
  · rename_i source
    simp only [Dispatcher.clear] at h
    split at h
    · rename_i empty
      cases h
      exact .emptyFront source empty
    · rename_i more
      cases h
      exact .clear source (by rw [more]; simp)
  · rename_i source
    rw [resetNodes_eq] at h
    cases h
    exact .resetNodes source
  · rename_i source
    obtain ⟨ls, queue, target, result⟩ : ∃ ls queue target,
        (assignTargets d.pass d.vmNodes d.targets d.target :
          List (Label T D E) × List String × Option String) = (ls, queue, target) := ⟨_, _, _, rfl⟩
    simp only [assignNextTarget, result] at h
    cases target with
    | none =>
      cases h
      exact .assignFails source result
    | some target =>
      cases h
      exact .assign source result
  · rename_i i source
    simp only [dispatchVm] at h
    split at h
    · rename_i here
      cases h
      exact .vmDone source here
    · rename_i f here
      cases h
      exact .driveVm source here (driveVm_drive env d.options d.pools _ a f)
  · rename_i i source
    simp only [dispatchSvm] at h
    split at h
    · rename_i here
      cases h
      exact .svmDone source here
    · rename_i f here
      cases h
      exact .driveSvm source here (driveSvm_drive env d.options reading d.pools _ a f)
  · rename_i source
    cases h
    exact .terminated source
  · cases h
  · cases h

/-- **A step is one of these.** -/
theorem step_moves {i : Input T D E} (h : step env d i = some (d', new)) :
    Moves env d i d' new := by
  cases i with
  | connect type status =>
    simp only [step] at h
    split at h
    · rename_i idle
      cases h
      exact .connect idle
    all_goals cases h
  | callBack =>
    simp only [step] at h
    split at h
    · rename_i k known
      split at h
      · cases h
      · rename_i free
        cases h
        exact .callBack known (by simpa using free)
    all_goals cases h
  | pushBack =>
    simp only [step] at h
    split at h
    · rename_i k known
      cases h
      exact .pushBack known
    all_goals cases h
  | poll a reading elapsed => exact .poll (poll_polls h)

end Step

/-! ## 10. Nodes and their machines -/

/-- Machines belong to nodes of their type, and only nodes that have connected are known. -/
structure Dispatcher.Typed (d : Dispatcher T D E) : Prop where
  vm : ∀ f ∈ d.vmFsms, f.node < d.connected ∧ d.type f.node = .vm
  svm : ∀ f ∈ d.svmFsms, f.node < d.connected ∧ d.type f.node = .svm
  nodes : ∀ k ∈ d.nodes, k < d.connected
  joining : ∀ k, d.joining = .connected k ∨ d.joining = .calledBack k → k < d.connected

section Typed

variable {env : Env T D} {d d' : Dispatcher T D E} {new : List (Label T D E)} {i : Input T D E}

theorem VmDrive.node {p : Pools T D} {status : NodeStatus} {a : Answers T D E} {f : VmFsm D E}
    {r : Pools T D × Moved (VmFsm D E) T D E × List (Label T D E)}
    (h : VmDrive env p status a f r) : r.2.1.fsm.node = f.node := by
  cases h with
  | early source dest node packets => exact node
  | _ => rfl

theorem SvmDrive.node {p : Pools T D} {status : NodeStatus} {a : Answers T D E}
    {reading : Reading} {f : SvmFsm T E}
    {r : Pools T D × Moved (SvmFsm T E) T D E × List (Label T D E)}
    (h : SvmDrive env reading p status a f r) : r.2.1.fsm.node = f.node := by
  cases h with
  | early source dest node packets => exact node
  | _ => rfl

theorem Dispatcher.Typed.init (o : Options T) : (init o : Dispatcher T D E).Typed :=
  ⟨forall_mem_nil _, forall_mem_nil _, forall_mem_nil _, fun _ h => h.elim nofun nofun⟩

/-- A node keeps its type. -/
theorem Moves.type_eq (h : Moves env d i d' new) {k : Nat} (hk : k < d.connected) :
    k < d'.connected ∧ d'.type k = d.type k := by
  cases h with
  | connect idle => exact ⟨Nat.lt_succ_of_lt hk, Function.update_of_ne (Nat.ne_of_lt hk) _ _⟩
  | callBack known free => rw [registerNodeFsm_eq]; exact ⟨hk, rfl⟩
  | pushBack known => exact ⟨hk, rfl⟩
  | poll polls => cases polls <;> exact ⟨hk, rfl⟩

theorem Moves.typed (h : Moves env d i d' new) (hd : d.Typed) : d'.Typed := by
  have keep : ∀ {k ty}, k < d.connected ∧ d.type k = ty → k < d'.connected ∧ d'.type k = ty :=
    fun hk => ⟨(h.type_eq hk.1).1, (h.type_eq hk.1).2.trans hk.2⟩
  have vm := fun f hf => keep (hd.vm f hf)
  have svm := fun f hf => keep (hd.svm f hf)
  have nodes := fun k hk => (h.type_eq (hd.nodes k hk)).1
  have joining := fun k hk => (h.type_eq (hd.joining k hk)).1
  cases h with
  | connect idle =>
    refine ⟨vm, svm, nodes, fun k hk => ?_⟩
    obtain hk | hk := hk
    · cases hk
      exact Nat.lt_succ_self _
    · cases hk
  | callBack known free =>
    rw [registerNodeFsm_eq] at vm svm nodes ⊢
    refine ⟨fun f hf => ?_, fun f hf => ?_, nodes, fun k hk => ?_⟩
    · obtain hf | hf := mem_append.1 hf
      · exact vm f hf
      · obtain ⟨ht, hn, -⟩ := mem_newVm hf
        rw [hn]
        exact ⟨hd.joining _ (.inl known), ht⟩
    · obtain hf | hf := mem_append.1 hf
      · exact svm f hf
      · obtain ⟨ht, hn, -⟩ := mem_newSvm hf
        rw [hn]
        exact ⟨hd.joining _ (.inl known), ht⟩
    · obtain hk | hk := hk
      · cases hk
      · cases hk
        exact hd.joining _ (.inl known)
  | pushBack known =>
    refine ⟨vm, svm, fun k hk => ?_, fun k hk => hk.elim nofun nofun⟩
    obtain hk | hk := mem_append.1 hk
    · exact nodes k hk
    · cases mem_singleton.1 hk
      exact hd.joining _ (.inr known)
  | poll polls =>
    cases polls with
    | clear source more =>
      exact ⟨forall_mem_nil _, forall_mem_nil _, nodes, joining⟩
    | resetNodes source =>
      refine ⟨fun f hf => ?_, fun f hf => ?_, nodes, joining⟩
      · obtain hf | hf := mem_append.1 hf
        · exact vm f hf
        · obtain ⟨k, hk, hf⟩ := mem_flatMap.1 hf
          obtain ⟨ht, rfl, -⟩ := mem_newVm hf
          exact ⟨hd.nodes _ hk, ht⟩
      · obtain hf | hf := mem_append.1 hf
        · exact svm f hf
        · obtain ⟨k, hk, hf⟩ := mem_flatMap.1 hf
          obtain ⟨ht, rfl, -⟩ := mem_newSvm hf
          exact ⟨hd.nodes _ hk, ht⟩
    | driveVm source here drive =>
      refine ⟨fun f hf => ?_, svm, nodes, joining⟩
      obtain hf | rfl := mem_or_eq_of_mem_set hf
      · exact vm f hf
      · rw [drive.node]
        exact vm _ (mem_of_getElem? here)
    | driveSvm source here drive =>
      refine ⟨vm, fun f hf => ?_, nodes, joining⟩
      obtain hf | rfl := mem_or_eq_of_mem_set hf
      · exact svm f hf
      · rw [drive.node]
        exact svm _ (mem_of_getElem? here)
    | _ => exact ⟨vm, svm, nodes, joining⟩

end Typed

end Crete.Cluster
