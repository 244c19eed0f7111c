/-
  File:      Crete/Cluster/NodeFsm.lean
  Subject:   How dispatch talks to one node (VMNodeFSM_, SVMNodeFSM_ of lib/cluster/dispatch.cpp).

  Each node that is registered has a state machine in dispatch. An event runs at most one row of
  its transition table; the action of a row sends packets to the node and waits for the replies to
  those that ask for something. A packet that asks is written here together with its reply, and the
  replies are arguments (`Answers`), so that nothing is assumed of the nodes.

  * `VmFsm.processEvent`, `SvmFsm.processEvent` -- the two transition tables. Rows of one state
    and event are tried from the last to the first; if all guards refuse, nothing happens.
-/
import Mathlib.Data.List.Basic
import Mathlib.Algebra.Order.Ring.Int

namespace Crete.Cluster

/-! ## 1. Packets -/

/-- `struct NodeStatus`. A node is named by its number, so its id is left out. -/
structure NodeStatus where
  testCaseCount : Nat
  traceCount : Nat
  errorCount : Nat
  active : Bool
  deriving DecidableEq, Repr

/-- `struct ImageInfo`. -/
structure ImageInfo where
  fileName : String
  lastWriteTime : Int
  deriving DecidableEq, Repr

/-- `struct Trace`. -/
structure Trace (D : Type) where
  uuid : Nat
  data : D
  deriving DecidableEq, Repr

/-- What a node reads of the options it is sent: `initialTc` is there if it has elements. -/
structure NodeOptions (T : Type) where
  distributed : Bool
  initialTc : Option T
  deriving DecidableEq, Repr

/-- The packets of dispatch to a node, for tests `T`, trace data `D` and errors `E`. A target is
    sent in a pass, and is told from the targets of other passes by the number of the pass. -/
inductive Packet (T D E : Type) where
  | config (options : NodeOptions T)
  | imageInfoRequest (reply : ImageInfo)
  | imageInfo (info : ImageInfo)
  | image
  | reset
  | nextTarget (target : String) (pass : Nat)
  | commence
  | statusRequest (reply : NodeStatus)
  | traceRequest (reply : List (Trace D))
  | trace (batch : List (Trace D))
  | testCaseRequest (reply : List T)
  | testCase (batch : List T)
  | errorLogRequest (reply : List E)
  deriving DecidableEq, Repr

/-- What the node would reply to the requests of one event. -/
structure Answers (T D E : Type) where
  imageInfo : ImageInfo
  status : NodeStatus
  traces : List (Trace D)
  tests : List T
  errors : List E
  deriving DecidableEq, Repr

/-- The result of an event: the machine, the status of the node as dispatch knows it, and the
    packets in the order in which they were sent. -/
structure Moved (F T D E : Type) where
  fsm : F
  status : NodeStatus
  sent : List (Packet T D E)
  deriving DecidableEq, Repr

variable {T D E : Type}

/-! ## 2. VM nodes -/

/-- The states of `VMNodeFSM_`; `Error` has no row. -/
inductive VmState where
  | start
  | txConfig
  | validateImage
  | rxGuestData
  | guestDataRxed
  | updateImage
  | commence
  | rxStatus
  | statusRxed
  | rxTrace
  | txTest
  | traceRxed
  | testTxed
  | errorRxed
  deriving DecidableEq, Repr

/-- The events of `VMNodeFSM_`; `image` with what `ImageInfo{image_path_}` is. -/
inductive VmEvent (T : Type) where
  | start (node : Nat) (first updateImage distributed : Bool)
  | config (options : NodeOptions T)
  | image (info : ImageInfo)
  | poll
  | trace
  | test (tests : List T)
  deriving DecidableEq, Repr

/-- `class VMNodeFSM_`. -/
structure VmFsm (D E : Type) where
  state : VmState
  node : Nat
  first : Bool
  traces : List (Trace D)
  errors : List E
  imageInfo : Option ImageInfo
  updateImage : Bool
  distributed : Bool
  deriving DecidableEq, Repr

namespace VmFsm

/-- A machine that has been started, but not been sent an event. -/
def new : VmFsm D E := ⟨.start, 0, false, [], [], none, false, false⟩

/-- `is_image_valid`, once the node's image is known. -/
def isImageValid (own other : ImageInfo) : Bool := own.fileName ≠ "" && other = own

/-- The guards of `ValidateImage` ask the node for its image the first time. -/
def receiveImageInfo (f : VmFsm D E) (a : Answers T D E) : ImageInfo × List (Packet T D E) :=
  match f.imageInfo with
  | some own => (own, [])
  | none => (a.imageInfo, [.imageInfoRequest a.imageInfo])

/-- The transition table. -/
def processEvent (f : VmFsm D E) (status : NodeStatus) (a : Answers T D E)
    (event : VmEvent T) : Moved (VmFsm D E) T D E :=
  match f.state, event with
  | .start, .start node first updateImage distributed =>
    ⟨{ f with state := .txConfig, node, first, updateImage, distributed }, status, []⟩
  | .txConfig, .config o =>
    if !f.updateImage && !f.first then ⟨{ f with state := .commence }, status, [.config o]⟩
    else if !f.updateImage && f.first then
      ⟨{ f with state := .rxGuestData }, status, [.config o]⟩
    else if f.distributed && f.updateImage then
      ⟨{ f with state := .validateImage }, status, [.config o]⟩
    -- an image that is to be updated, not in distributed mode: no row is left
    else ⟨f, status, []⟩
  | .validateImage, .image other =>
    let own := f.receiveImageInfo a
    let f := { f with imageInfo := some own.1 }
    if isImageValid own.1 other && !f.first then ⟨{ f with state := .commence }, status, own.2⟩
    else if isImageValid own.1 other && f.first then
      ⟨{ f with state := .rxGuestData }, status, own.2⟩
    else ⟨{ f with state := .updateImage }, status, own.2⟩
  | .updateImage, .image other =>
    let state := if !f.first then .commence else .rxGuestData
    ⟨{ f with state }, status, [.imageInfo other, .image]⟩
  | .rxGuestData, .poll => ⟨{ f with state := .guestDataRxed }, status, []⟩
  | .guestDataRxed, .poll => ⟨{ f with state := .commence }, status, []⟩
  | .commence, .poll => ⟨{ f with state := .rxStatus }, status, [.commence]⟩
  | .rxStatus, .poll => ⟨{ f with state := .statusRxed }, a.status, [.statusRequest a.status]⟩
  | .statusRxed, .poll => ⟨{ f with state := .rxTrace }, status, []⟩
  | .rxTrace, .poll =>
    if status.traceCount > 0 then
      ⟨{ f with state := .traceRxed, traces := a.traces }, status, [.traceRequest a.traces]⟩
    else ⟨{ f with state := .txTest }, status, []⟩
  | .traceRxed, .trace => ⟨{ f with state := .txTest }, status, []⟩
  | .txTest, .test tests =>
    ⟨{ f with state := .testTxed }, a.status,
      (if tests.isEmpty then [] else [.testCase tests]) ++ [.statusRequest a.status]⟩
  | .testTxed, .poll =>
    if status.errorCount > 0 then
      ⟨{ f with state := .errorRxed, errors := a.errors }, status, [.errorLogRequest a.errors]⟩
    else ⟨{ f with state := .rxStatus }, status, []⟩
  | .errorRxed, .poll => ⟨{ f with state := .rxStatus }, status, []⟩
  | _, _ => ⟨f, status, []⟩

/-- The traces received and not yet taken over by dispatch. -/
def held (f : VmFsm D E) : List (Trace D) := if f.state = .traceRxed then f.traces else []

end VmFsm

/-! ## 3. SVM nodes -/

/-- The states of `SVMNodeFSM_`; `Error` has no row. -/
inductive SvmState where
  | start
  | txConfig
  | commence
  | rxStatus
  | statusRxed
  | txTrace
  | traceTxed
  | rxTest
  | testRxed
  | errorRxed
  deriving DecidableEq, Repr

/-- The events of `SVMNodeFSM_`. -/
inductive SvmEvent (T D : Type) where
  | start (node : Nat)
  | config (options : NodeOptions T)
  | poll
  | trace (traces : List (Trace D))
  | test
  deriving DecidableEq, Repr

/-- `class SVMNodeFSM_`. -/
structure SvmFsm (T E : Type) where
  state : SvmState
  node : Nat
  tests : List T
  errors : List E
  deriving DecidableEq, Repr

namespace SvmFsm

/-- A machine that has been started, but not been sent an event. -/
def new : SvmFsm T E := ⟨.start, 0, [], []⟩

/-- The transition table. -/
def processEvent (f : SvmFsm T E) (status : NodeStatus) (a : Answers T D E)
    (event : SvmEvent T D) : Moved (SvmFsm T E) T D E :=
  match f.state, event with
  | .start, .start node => ⟨{ f with state := .txConfig, node }, status, []⟩
  | .txConfig, .config o => ⟨{ f with state := .commence }, status, [.config o]⟩
  | .commence, .poll => ⟨{ f with state := .rxStatus }, status, [.commence]⟩
  | .rxStatus, .poll => ⟨{ f with state := .statusRxed }, a.status, [.statusRequest a.status]⟩
  | .statusRxed, .poll => ⟨{ f with state := .txTrace }, status, []⟩
  | .txTrace, .trace traces =>
    ⟨{ f with state := .traceTxed }, a.status,
      (if traces.isEmpty then [] else [.trace traces]) ++ [.statusRequest a.status]⟩
  | .traceTxed, .poll => ⟨{ f with state := .rxTest }, status, []⟩
  | .rxTest, .poll =>
    if status.testCaseCount > 0 then
      ⟨{ f with state := .testRxed, tests := a.tests }, status, [.testCaseRequest a.tests]⟩
    else if status.errorCount > 0 then
      ⟨{ f with state := .errorRxed, errors := a.errors }, status, [.errorLogRequest a.errors]⟩
    else ⟨{ f with state := .rxStatus }, status, []⟩
  | .testRxed, .test =>
    if status.errorCount > 0 then
      ⟨{ f with state := .errorRxed, errors := a.errors }, status, [.errorLogRequest a.errors]⟩
    else ⟨{ f with state := .rxStatus }, status, []⟩
  | .errorRxed, .poll => ⟨{ f with state := .rxStatus }, status, []⟩
  | _, _ => ⟨f, status, []⟩

/-- The tests received and not yet taken over by dispatch. -/
def held (f : SvmFsm T E) : List T := if f.state = .testRxed then f.tests else []

end SvmFsm

end Crete.Cluster
