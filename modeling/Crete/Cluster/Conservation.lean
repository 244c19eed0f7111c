/-
  File:      Crete/Cluster/Conservation.lean
  Subject:   Dispatch loses no test and no trace between two resets, and passes none on twice.

  * `Conserved` -- the account of a history and the state at its end.
  * **`run_conserved`** -- it holds of every run, for the history since the last reset; `trace_lost`
    is a run with a trace for which `TracePool::next` throws.
-/
import Crete.Cluster.Dispatch
import Mathlib.Algebra.Order.Group.Multiset
import Mathlib.Tactic.Abel

namespace Crete.Cluster

open Crete.Lib List

variable {T D E : Type}

/-! ## 1. What a history says -/

namespace Label

/-- Traces received from a node. -/
@[simp] def rxTraces : Label T D E → List (Trace D)
  | .packet _ (.traceRequest ts) => ts
  | _ => []

/-- Traces inserted into the trace pool. -/
@[simp] def inTraces : Label T D E → List (Trace D)
  | .insertedTrace t => [t]
  | _ => []

/-- Traces taken from the trace pool. -/
@[simp] def outTraces : Label T D E → List (Trace D)
  | .tookTrace t _ | .lostTrace t => [t]
  | _ => []

/-- Traces taken that could not be read back. -/
@[simp] def badTraces : Label T D E → List (Trace D)
  | .tookTrace t none => [t]
  | _ => []

/-- Traces taken by a `TracePool::next` that threw. -/
@[simp] def lostTraces : Label T D E → List (Trace D)
  | .lostTrace t => [t]
  | _ => []

/-- Traces taken from the trace pool and read back. -/
@[simp] def readTraces : Label T D E → List (Trace D)
  | .tookTrace _ (some t) => [t]
  | _ => []

/-- Traces transmitted, with the node. -/
@[simp] def txTraces : Label T D E → List (Nat × Trace D)
  | .packet k (.trace ts) => ts.map (k, ·)
  | _ => []

/-- Tests received from a node. -/
@[simp] def rxTests : Label T D E → List T
  | .packet _ (.testCaseRequest ts) => ts
  | _ => []

/-- Tests inserted into the test pool. -/
@[simp] def inTests : Label T D E → List T
  | .insertedTest t => [t]
  | _ => []

/-- Tests taken from the test pool. -/
@[simp] def takenTests : Label T D E → List T
  | .tookTest t => [t]
  | _ => []

/-- Tests transmitted, with the node. -/
@[simp] def txTests : Label T D E → List (Nat × T)
  | .packet k (.testCase ts) => ts.map (k, ·)
  | _ => []

/-- The node that tests or traces are exchanged with, and the type it must have. -/
def partner : Label T D E → Option (Nat × NodeType)
  | .packet k (.traceRequest _) => some (k, .vm)
  | .packet k (.testCase _) => some (k, .vm)
  | .packet k (.testCaseRequest _) => some (k, .svm)
  | .packet k (.trace _) => some (k, .svm)
  | _ => none

/-- The start of a target. -/
def isCleared : Label T D E → Bool
  | .cleared => true
  | _ => false

/-- The start of `dispatch`. -/
def isBegin : Label T D E → Bool
  | .dispatchBegins => true
  | _ => false

/-- A label of the main thread's own progress. -/
def isMarker : Label T D E → Bool
  | .cleared | .dispatchBegins | .converged _ => true
  | _ => false

theorem isCleared_of_not_isMarker {l : Label T D E} (h : l.isMarker = false) :
    l.isCleared = false := by
  cases l <;> first | rfl | cases h

theorem isBegin_of_not_isMarker {l : Label T D E} (h : l.isMarker = false) : l.isBegin = false := by
  cases l <;> first | rfl | cases h

/-- Neither a test nor a trace is moved. -/
structure Silent (l : Label T D E) : Prop where
  rxTraces : l.rxTraces = []
  inTraces : l.inTraces = []
  outTraces : l.outTraces = []
  readTraces : l.readTraces = []
  txTraces : l.txTraces = []
  rxTests : l.rxTests = []
  inTests : l.inTests = []
  takenTests : l.takenTests = []
  txTests : l.txTests = []
  partner : l.partner = none

end Label

open Label

/-- Traces received. -/
def receivedTraces (ls : List (Label T D E)) : List (Trace D) := ls.flatMap rxTraces

/-- Traces inserted. -/
def insertedTraces (ls : List (Label T D E)) : List (Trace D) := ls.flatMap inTraces

/-- Traces taken. -/
def takenTraces (ls : List (Label T D E)) : List (Trace D) := ls.flatMap outTraces

/-- Traces taken that could not be read back. -/
def unreadTraces (ls : List (Label T D E)) : List (Trace D) := ls.flatMap badTraces

/-- Traces taken by a `TracePool::next` that threw. -/
def lostTraces (ls : List (Label T D E)) : List (Trace D) := ls.flatMap Label.lostTraces

/-- Traces taken and read back. -/
def readTraces (ls : List (Label T D E)) : List (Trace D) := ls.flatMap Label.readTraces

/-- Traces transmitted. -/
def transmittedTraces (ls : List (Label T D E)) : List (Nat × Trace D) :=
  ls.flatMap txTraces

/-- Tests received. -/
def receivedTests (ls : List (Label T D E)) : List T := ls.flatMap rxTests

/-- Tests inserted. -/
def insertedTests (ls : List (Label T D E)) : List T := ls.flatMap inTests

/-- Tests taken. -/
def takenTests (ls : List (Label T D E)) : List T := ls.flatMap Label.takenTests

/-- Tests transmitted. -/
def transmittedTests (ls : List (Label T D E)) : List (Nat × T) := ls.flatMap txTests

/-- The batches of traces that machines of VM nodes hold. -/
def Dispatcher.heldTraces (d : Dispatcher T D E) : List (Trace D) := d.vmFsms.flatMap VmFsm.held

/-- The batches of tests that machines of SVM nodes hold. -/
def Dispatcher.heldTests (d : Dispatcher T D E) : List T := d.svmFsms.flatMap SvmFsm.held

open Dispatcher

/-! ## 2. One step on both sides of the account -/

variable {new : List (Label T D E)}

section History

variable (ls ms : List (Label T D E))

@[simp] theorem receivedTraces_append :
    receivedTraces (ls ++ ms) = receivedTraces ls ++ receivedTraces ms := flatMap_append

@[simp] theorem insertedTraces_append :
    insertedTraces (ls ++ ms) = insertedTraces ls ++ insertedTraces ms := flatMap_append

@[simp] theorem takenTraces_append :
    takenTraces (ls ++ ms) = takenTraces ls ++ takenTraces ms := flatMap_append

@[simp] theorem readTraces_append : readTraces (ls ++ ms) = readTraces ls ++ readTraces ms :=
  flatMap_append

@[simp] theorem transmittedTraces_append :
    transmittedTraces (ls ++ ms) = transmittedTraces ls ++ transmittedTraces ms :=
  flatMap_append

@[simp] theorem receivedTests_append :
    receivedTests (ls ++ ms) = receivedTests ls ++ receivedTests ms := flatMap_append

@[simp] theorem insertedTests_append :
    insertedTests (ls ++ ms) = insertedTests ls ++ insertedTests ms := flatMap_append

@[simp] theorem takenTests_append : takenTests (ls ++ ms) = takenTests ls ++ takenTests ms :=
  flatMap_append

@[simp] theorem transmittedTests_append :
    transmittedTests (ls ++ ms) = transmittedTests ls ++ transmittedTests ms := flatMap_append

end History

variable {env : Env T D} {p p' p'' : Pools T D}

/-- What one step adds to the account, of the pools and of the traces and tests held before and
    after it. -/
structure Balanced (env : Env T D) (p p' : Pools T D) (traces traces' : List (Trace D))
    (tests tests' : List T) (new : List (Label T D E)) : Prop where
  traces : (traces ++ receivedTraces new).Perm (insertedTraces new ++ traces')
  tests : (tests ++ receivedTests new).Perm (insertedTests new ++ tests')
  readTraces : readTraces new = (transmittedTraces new).map Prod.snd
  takenTests : takenTests new = (transmittedTests new).map Prod.snd
  tracePool : Fifo.Books env.admitsTrace p.traces p'.traces (insertedTraces new) (takenTraces new)
  testPool : Fifo.Books env.admitsTest p.tests p'.tests (insertedTests new) (Cluster.takenTests new)

theorem flatMap_eq_nil_of_forall {α β : Type} {g : α → List β} {l : List α}
    (h : ∀ x ∈ l, g x = []) : l.flatMap g = [] := flatMap_eq_nil_iff.2 h

/-- A step that moves nothing. -/
theorem Balanced.of_silent {traces : List (Trace D)} {tests : List T}
    (h : ∀ l ∈ new, l.Silent) : Balanced env p p traces traces tests tests new where
  traces := by
    rw [receivedTraces, insertedTraces, flatMap_eq_nil_of_forall fun l hl => (h l hl).rxTraces,
      flatMap_eq_nil_of_forall fun l hl => (h l hl).inTraces, append_nil, nil_append]
  tests := by
    rw [receivedTests, insertedTests, flatMap_eq_nil_of_forall fun l hl => (h l hl).rxTests,
      flatMap_eq_nil_of_forall fun l hl => (h l hl).inTests, append_nil, nil_append]
  readTraces := by
    rw [Cluster.readTraces, transmittedTraces,
      flatMap_eq_nil_of_forall fun l hl => (h l hl).readTraces,
      flatMap_eq_nil_of_forall fun l hl => (h l hl).txTraces, map_nil]
  takenTests := by
    rw [Cluster.takenTests, transmittedTests,
      flatMap_eq_nil_of_forall fun l hl => (h l hl).takenTests,
      flatMap_eq_nil_of_forall fun l hl => (h l hl).txTests, map_nil]
  tracePool := by
    rw [insertedTraces, takenTraces, flatMap_eq_nil_of_forall fun l hl => (h l hl).inTraces,
      flatMap_eq_nil_of_forall fun l hl => (h l hl).outTraces]
    exact .refl _
  testPool := by
    rw [insertedTests, Cluster.takenTests, flatMap_eq_nil_of_forall fun l hl => (h l hl).inTests,
      flatMap_eq_nil_of_forall fun l hl => (h l hl).takenTests]
    exact .refl _

/-- The label moves traces or tests. -/
def Label.moves : Label T D E → Bool
  | .insertedTrace _ | .insertedTest _ | .tookTrace _ _ | .lostTrace _ | .tookTest _ => true
  | .packet _ (.traceRequest _) | .packet _ (.trace _) => true
  | .packet _ (.testCaseRequest _) | .packet _ (.testCase _) => true
  | _ => false

theorem Label.silent_of_not_moves {l : Label T D E} (h : l.moves = false) : l.Silent := by
  cases l with
  | packet k q =>
    cases q <;> first | exact ⟨rfl, rfl, rfl, rfl, rfl, rfl, rfl, rfl, rfl, rfl⟩ | cases h
  | _ => first | exact ⟨rfl, rfl, rfl, rfl, rfl, rfl, rfl, rfl, rfl, rfl⟩ | cases h

theorem Packet.Early.silent {q : Packet T D E} (h : q.Early) (k : Nat) :
    (Label.packet k q).Silent := by
  refine silent_of_not_moves ?_
  cases q <;> first | exact h.elim | rfl

/-- A step none of whose labels moves anything. -/
theorem Balanced.of_still {traces : List (Trace D)} {tests : List T}
    (h : ∀ l ∈ new, l.moves = false) : Balanced env p p traces traces tests tests new :=
  .of_silent fun l hl => silent_of_not_moves (h l hl)

theorem VmFsm.held_of_ne {f : VmFsm D E} (h : f.state ≠ .traceRxed) : f.held = [] := if_neg h

theorem SvmFsm.held_of_ne {f : SvmFsm T E} (h : f.state ≠ .testRxed) : f.held = [] := if_neg h

/-- Steps one after another. -/
theorem Balanced.append {t t' t'' : List (Trace D)} {s s' s'' : List T}
    {new new' : List (Label T D E)} (h : Balanced env p p' t t' s s' new)
    (h' : Balanced env p' p'' t' t'' s' s'' new') :
    Balanced env p p'' t t'' s s'' (new ++ new') where
  traces := by
    rw [receivedTraces_append, insertedTraces_append, ← append_assoc t,
      append_assoc (insertedTraces new)]
    refine (h.traces.append_right _).trans ?_
    rw [append_assoc]
    exact h'.traces.append_left _
  tests := by
    rw [receivedTests_append, insertedTests_append, ← append_assoc s,
      append_assoc (insertedTests new)]
    refine (h.tests.append_right _).trans ?_
    rw [append_assoc]
    exact h'.tests.append_left _
  readTraces := by
    rw [readTraces_append, transmittedTraces_append, map_append, h.readTraces, h'.readTraces]
  takenTests := by
    rw [takenTests_append, transmittedTests_append, map_append, h.takenTests, h'.takenTests]
  tracePool := by
    rw [insertedTraces_append, takenTraces_append]
    exact h.tracePool.append h'.tracePool
  testPool := by
    rw [insertedTests_append, takenTests_append]
    exact h.testPool.append h'.testPool

/-- What is left of a batch that came in a step, if nothing was held or is. -/
theorem subperm_of_perm {α : Type} {held held' rx ins : List α}
    (h : (held ++ rx).Perm (ins ++ held')) (hn : held = [] ∨ held' = []) : held'.Subperm rx := by
  obtain rfl | rfl := hn
  · exact (sublist_append_right _ _).subperm.trans h.symm.subperm
  · exact nil_subperm

theorem flatMap_nil_fun {α β : Type} (l : List α) : l.flatMap (fun _ => ([] : List β)) = [] :=
  flatMap_eq_nil_of_forall fun _ _ => rfl

section Batches

variable (k : Nat) (traces : List (Trace D)) (tests : List T)

/-- A batch of traces is received. -/
theorem Balanced.rxTraces :
    Balanced env p p [] traces tests tests
      [(.packet k (.traceRequest traces) : Label T D E)] := by
  constructor <;> simp [receivedTraces, insertedTraces, receivedTests, insertedTests, takenTraces,
    Cluster.readTraces, transmittedTraces, Cluster.takenTests, transmittedTests]

theorem foldl_toTracePool (traces : List (Trace D)) : ∀ p : Pools T D,
    (traces.foldl (Pools.toTracePool env) p).traces = p.traces.insertAll env.admitsTrace traces ∧
      (traces.foldl (Pools.toTracePool env) p).tests = p.tests := by
  induction traces with
  | nil => exact fun p => ⟨rfl, rfl⟩
  | cons t traces ih => exact fun p => ih (p.toTracePool env t)

/-- A batch of traces is inserted. -/
theorem Balanced.inTraces : Balanced env p (traces.foldl (Pools.toTracePool env) p) traces [] tests
    tests (traces.map (.insertedTrace : Trace D → Label T D E)) := by
  constructor <;> simp [receivedTraces, insertedTraces, receivedTests, insertedTests, takenTraces,
    Cluster.readTraces, transmittedTraces, Cluster.takenTests, transmittedTests, flatMap_map,
    flatMap_nil_fun, foldl_toTracePool, Fifo.books_insertAll]

/-- A batch of tests is received. -/
theorem Balanced.rxTests :
    Balanced env p p traces traces [] tests
      [(.packet k (.testCaseRequest tests) : Label T D E)] := by
  constructor <;> simp [receivedTraces, insertedTraces, receivedTests, insertedTests, takenTraces,
    Cluster.readTraces, transmittedTraces, Cluster.takenTests, transmittedTests]

/-- A batch of tests is inserted. -/
theorem Balanced.inTests :
    Balanced env p { p with tests := p.tests.insertAll env.admitsTest tests } traces traces tests []
      (tests.map (.insertedTest : T → Label T D E)) := by
  constructor <;> simp [receivedTraces, insertedTraces, receivedTests, insertedTests, takenTraces,
    Cluster.readTraces, transmittedTraces, Cluster.takenTests, transmittedTests, flatMap_map,
    flatMap_nil_fun, Fifo.books_insertAll]

/-- A batch of tests is taken and transmitted; an empty batch is not. -/
theorem Balanced.txTests {room : Nat} {batch : List T} {rest : Fifo T}
    (taken : p.tests.takeUpTo room = (batch, rest)) :
    Balanced env p { p with tests := rest } traces traces tests tests
      (batch.map (.tookTest : T → Label T D E) ++
        (if batch.isEmpty then [] else [.testCase batch]).map (.packet k)) := by
  have hbooks : Fifo.Books env.admitsTest p.tests rest [] batch := Fifo.books_takeUpTo taken
  cases batch <;> constructor <;> simp [receivedTraces, insertedTraces, receivedTests,
    insertedTests, takenTraces, Cluster.readTraces, transmittedTraces, Cluster.takenTests,
    transmittedTests, flatMap_map, flatMap_nil_fun, Function.comp_def, hbooks]

/-- What is observed of a trace that is taken. -/
theorem Label.taken_of {β : Type} {g : Label T D E → List β}
    {o : Trace D × Option (Trace D) → List β}
    (hread : ∀ t read, g (.tookTrace t read) = o (t, read))
    (hlost : ∀ t, g (.lostTrace t) = o (t, none))
    (seen : List (Trace D)) (batch : List (Trace D × Option (Trace D))) :
    (batch.map (.taken env seen)).flatMap g = batch.flatMap o := by
  rw [flatMap_map]
  refine flatMap_congr fun t _ => ?_
  obtain h | ⟨hn, h⟩ := taken_cases (E := E) env seen t
  · rw [h]
    exact hread t.1 t.2
  · rw [h, hlost, ← hn]

/-- A batch of traces is taken, and what can be read of it is transmitted. -/
theorem Balanced.txTraces {reading : Reading} {room : Nat}
    {batch : List (Trace D × Option (Trace D))} {rest : Pools T D}
    (draws : p.nextTraces env reading room = (batch, rest)) :
    Balanced env p rest traces traces tests tests
      (batch.map (.taken env p.traces.seen : _ → Label T D E) ++
        (if (batch.filterMap Prod.snd).isEmpty then []
          else [.trace (batch.filterMap Prod.snd)]).map (.packet k)) := by
  have hnone : ∀ {β : Type} (g : Label T D E → List β), (∀ t read, g (.tookTrace t read) = []) →
      (∀ t, g (.lostTrace t) = []) →
      (batch.map (.taken env p.traces.seen)).flatMap g = [] := by
    intro β g hg hl
    rw [taken_of (o := fun _ => []) hg hl, flatMap_nil_fun]
  have hread : (batch.map (.taken env p.traces.seen : _ → Label T D E)).flatMap
      Label.readTraces = batch.filterMap Prod.snd := by
    rw [taken_of (o := fun t => t.2.toList) (fun t read => by cases read <;> rfl) fun _ => rfl,
      filterMap_eq_flatMap_toList]
  have hout : (batch.map (.taken env p.traces.seen : _ → Label T D E)).flatMap outTraces =
      batch.map Prod.fst := by
    rw [taken_of (o := fun t => [t.1]) (fun _ _ => rfl) fun _ => rfl, map_eq_flatMap]
  have hbooks : Fifo.Books env.admitsTrace p.traces rest.traces [] (batch.map Prod.fst) ∧
      rest.tests = p.tests := by
    cases draws
    exact ⟨Fifo.books_take ((Fifo.drawUpTo_perm _ _ _ _).trans (perm_insertionSort _ _)), rfl⟩
  constructor
  case readTraces =>
    rw [Cluster.readTraces, transmittedTraces, flatMap_append, flatMap_append, hread,
      hnone Label.txTraces (fun _ _ => rfl) fun _ => rfl]
    cases batch.filterMap Prod.snd <;> simp
  all_goals
    simp only [receivedTraces, insertedTraces, receivedTests, insertedTests, takenTraces,
      Cluster.takenTests, transmittedTests, flatMap_append, hout,
      hnone Label.rxTraces (fun _ _ => rfl) fun _ => rfl,
      hnone Label.inTraces (fun _ _ => rfl) fun _ => rfl,
      hnone Label.rxTests (fun _ _ => rfl) fun _ => rfl,
      hnone Label.inTests (fun _ _ => rfl) fun _ => rfl,
      hnone Label.takenTests (fun _ _ => rfl) fun _ => rfl,
      hnone Label.txTests (fun _ _ => rfl) fun _ => rfl]
    cases batch.filterMap Prod.snd <;> simp [hbooks]

theorem Balanced.statusRequest (s : NodeStatus) (traces : List (Trace D)) (tests : List T) :
    Balanced env p p traces traces tests tests [(.packet k (.statusRequest s) : Label T D E)] :=
  .of_still (by simp [moves])

theorem Balanced.errorLogRequest (es : List E) (traces : List (Trace D)) (tests : List T) :
    Balanced env p p traces traces tests tests [(.packet k (.errorLogRequest es) : Label T D E)] :=
  .of_still (by simp [moves])

theorem Balanced.early {sent : List (Packet T D E)} (packets : ∀ q ∈ sent, q.Early) :
    Balanced env p p traces traces tests tests (sent.map (.packet k)) := by
  refine .of_silent fun l hl => ?_
  obtain ⟨q, hq, rfl⟩ := mem_map.1 hl
  exact (packets q hq).silent _

theorem Balanced.logged (es : List E) :
    Balanced env p p traces traces tests tests (es.map (.logged : E → Label T D E) ++ []) := by
  refine .of_still fun l hl => ?_
  obtain ⟨e, -, rfl⟩ := mem_map.1 (by simpa using hl)
  rfl

end Batches

section Drive

variable {reading : Reading} {status : NodeStatus} {a : Answers T D E}

/-- All labels of a node driven. -/
def driven {F : Type} (k : Nat) (r : Pools T D × Moved F T D E × List (Label T D E)) :
    List (Label T D E) :=
  r.2.2 ++ r.2.1.sent.map (.packet k)

/-- The labels of a node that is driven. -/
inductive Shows (k : Nat) : NodeType → Label T D E → Prop where
  | commence {type : NodeType} : Shows k type (.packet k .commence)
  | statusRequest {type : NodeType} {s : NodeStatus} : Shows k type (.packet k (.statusRequest s))
  | errorLogRequest {type : NodeType} {es : List E} :
      Shows k type (.packet k (.errorLogRequest es))
  | logged {type : NodeType} {e : E} : Shows k type (.logged e)
  | traceRequest {ts : List (Trace D)} : Shows k .vm (.packet k (.traceRequest ts))
  | insertedTrace {t : Trace D} : Shows k .vm (.insertedTrace t)
  | tookTest {t : T} : Shows k .vm (.tookTest t)
  | testCase {ts : List T} : Shows k .vm (.packet k (.testCase ts))
  | tookTrace {t : Trace D} {read : Option (Trace D)} : Shows k .svm (.tookTrace t read)
  | lostTrace {t : Trace D} : Shows k .svm (.lostTrace t)
  | trace {ts : List (Trace D)} : Shows k .svm (.packet k (.trace ts))
  | testCaseRequest {ts : List T} : Shows k .svm (.packet k (.testCaseRequest ts))
  | insertedTest {t : T} : Shows k .svm (.insertedTest t)
  | early {type : NodeType} {q : Packet T D E} (h : q.Early) : Shows k type (.packet k q)

theorem Shows.not_isMarker {k : Nat} {type : NodeType} {l : Label T D E} (h : Shows k type l) :
    l.isMarker = false := by
  cases h <;> rfl

theorem Shows.not_any {k : Nat} {type : NodeType} {new : List (Label T D E)}
    (h : ∀ l ∈ new, Shows k type l) :
    new.any isCleared = false ∧ new.any isBegin = false := by
  refine ⟨any_eq_false.2 fun l hl => ?_, any_eq_false.2 fun l hl => ?_⟩
  · simp [isCleared_of_not_isMarker (h l hl).not_isMarker]
  · simp [isBegin_of_not_isMarker (h l hl).not_isMarker]

/-- Tests and traces are exchanged with the node itself. -/
theorem Shows.partner {k : Nat} {type : NodeType} {l : Label T D E} (h : Shows k type l)
    {x : Nat × NodeType} (hp : l.partner = some x) : x = (k, type) := by
  cases h with
  | early h =>
    rw [(h.silent k).partner] at hp
    cases hp
  | _ => first | exact (Option.some.inj hp).symm | cases hp

/-- A batch that is transmitted, and the request for the status after it. -/
theorem Shows.of_mem_batch {k : Nat} {type : NodeType} {q : Packet T D E} {b : Bool}
    {batch : Packet T D E} {s : NodeStatus} (h : Shows k type (.packet k batch))
    (hq : q ∈ (if b then [] else [batch]) ++ [.statusRequest s]) :
    Shows k type (.packet k q) := by
  obtain hq | hq := mem_append.1 hq
  · split at hq
    · cases hq
    · cases mem_singleton.1 hq
      exact h
  · cases mem_singleton.1 hq
    exact .statusRequest

section Vm

variable {f : VmFsm D E} {r : Pools T D × Moved (VmFsm D E) T D E × List (Label T D E)}
  (h : VmDrive env p status a f r)

include h

theorem VmDrive.shows : ∀ l ∈ driven f.node r, Shows f.node .vm l := by
  intro l hl
  obtain hl | hl := mem_append.1 hl
  · cases h <;> first | cases hl | (obtain ⟨x, -, rfl⟩ := mem_map.1 hl; constructor)
  · obtain ⟨q, hq, rfl⟩ := mem_map.1 hl
    cases h with
    | early source dest node packets => exact .early (packets q hq)
    | txTest source taken => exact .of_mem_batch .testCase hq
    | _ => first | (cases mem_singleton.1 hq; constructor) | cases hq

theorem VmDrive.balanced (tests : List T) :
    Balanced env p r.1 f.held r.2.1.fsm.held tests tests (driven f.node r) := by
  cases h with
  | @early f' sent source dest node packets batches =>
    have h1 : f.held = [] := VmFsm.held_of_ne (by intro e; rw [e] at source; exact source)
    have h2 : f'.held = [] := VmFsm.held_of_ne (by
      intro e
      rw [e] at dest
      exact dest.elim id nofun)
    rw [h1, h2]
    exact .early f.node _ tests packets
  | commence source | rxStatus source | rxError source reported =>
    rw [VmFsm.held_of_ne (by simp [source]), VmFsm.held_of_ne (by simp)]
    exact .of_still (by simp [driven, moves])
  | wait source =>
    simp only [mem_cons, Prod.mk.injEq, not_mem_nil, or_false] at source
    rw [VmFsm.held_of_ne (by obtain h | h | h := source <;> simp [h.1]),
      VmFsm.held_of_ne (by obtain h | h | h := source <;> simp [h.2])]
    exact .of_silent (by simp [driven])
  | rxTrace source reported =>
    rw [VmFsm.held_of_ne (by simp [source])]
    exact .rxTraces f.node a.traces tests
  | traceRxed source =>
    have h1 : f.held = f.traces := if_pos source
    rw [h1, VmFsm.held_of_ne (by simp)]
    simpa [driven] using Balanced.inTraces f.traces tests
  | txTest source taken =>
    rename_i room batch rest
    rw [VmFsm.held_of_ne (by simp [source]), VmFsm.held_of_ne (by simp)]
    simpa [driven] using
      (Balanced.txTests f.node [] tests taken).append (.statusRequest f.node a.status [] tests)
  | errorRxed source =>
    rw [VmFsm.held_of_ne (by simp [source]), VmFsm.held_of_ne (by simp)]
    exact .logged _ tests f.errors

/-- What a machine holds after it was driven, it has just received. -/
theorem VmDrive.held_subperm : r.2.1.fsm.held.Subperm (receivedTraces (driven f.node r)) := by
  refine subperm_of_perm (h.balanced []).traces ?_
  by_cases hs : f.state = .traceRxed
  · right
    cases h <;> simp_all [VmFsm.held, VmState.Early]
  · exact .inl (VmFsm.held_of_ne hs)

end Vm

section Svm

variable {f : SvmFsm T E} {r : Pools T D × Moved (SvmFsm T E) T D E × List (Label T D E)}
  (h : SvmDrive env reading p status a f r)

include h

theorem SvmDrive.shows : ∀ l ∈ driven f.node r, Shows f.node .svm l := by
  intro l hl
  obtain hl | hl := mem_append.1 hl
  · cases h with
    | txTrace source draws =>
      obtain ⟨x, -, rfl⟩ := mem_map.1 hl
      obtain h | ⟨-, h⟩ := taken_cases (E := E) env p.traces.seen x <;> rw [h] <;> constructor
    | _ => first | cases hl | (obtain ⟨x, -, rfl⟩ := mem_map.1 hl; constructor)
  · obtain ⟨q, hq, rfl⟩ := mem_map.1 hl
    cases h with
    | early source dest node packets => exact .early (packets q hq)
    | txTrace source draws => exact .of_mem_batch .trace hq
    | _ => first | (cases mem_singleton.1 hq; constructor) | cases hq

theorem SvmDrive.balanced (traces : List (Trace D)) :
    Balanced env p r.1 traces traces f.held r.2.1.fsm.held (driven f.node r) := by
  cases h with
  | @early f' sent source dest node packets batches =>
    have h1 : f.held = [] := SvmFsm.held_of_ne (by intro e; rw [e] at source; exact source)
    have h2 : f'.held = [] := SvmFsm.held_of_ne (by
      intro e
      rw [e] at dest
      exact dest.elim id nofun)
    rw [h1, h2]
    exact .early f.node traces _ packets
  | commence source | rxStatus source | rxError source reported =>
    rw [SvmFsm.held_of_ne (by simp [source]), SvmFsm.held_of_ne (by simp)]
    exact .of_still (by simp [driven, moves])
  | wait source =>
    simp only [mem_cons, Prod.mk.injEq, not_mem_nil, or_false] at source
    rw [SvmFsm.held_of_ne (by obtain h | h | h := source <;> simp [h.1]),
      SvmFsm.held_of_ne (by obtain h | h | h := source <;> simp [h.2])]
    exact .of_silent (by simp [driven])
  | txTrace source draws =>
    rename_i room batch rest
    rw [SvmFsm.held_of_ne (by simp [source]), SvmFsm.held_of_ne (by simp)]
    simpa [driven] using
      (Balanced.txTraces f.node traces [] draws).append (.statusRequest f.node a.status traces [])
  | rxTest source reported =>
    rw [SvmFsm.held_of_ne (by simp [source])]
    exact .rxTests f.node traces a.tests
  | testRxed source =>
    have h1 : f.held = f.tests := if_pos source
    rw [h1, SvmFsm.held_of_ne (by simp)]
    simpa [driven] using Balanced.inTests traces f.tests
  | testRxedError source reported =>
    have h1 : f.held = f.tests := if_pos source
    rw [h1, SvmFsm.held_of_ne (by simp)]
    simpa [driven] using
      (Balanced.inTests traces f.tests).append (.errorLogRequest f.node a.errors traces [])
  | errorRxed source =>
    rw [SvmFsm.held_of_ne (by simp [source]), SvmFsm.held_of_ne (by simp)]
    exact .logged traces _ f.errors

theorem SvmDrive.held_subperm : r.2.1.fsm.held.Subperm (receivedTests (driven f.node r)) := by
  refine subperm_of_perm (h.balanced []).tests ?_
  by_cases hs : f.state = .testRxed
  · right
    cases h <;> simp_all [SvmFsm.held, SvmState.Early]
  · exact .inl (SvmFsm.held_of_ne hs)

end Svm

end Drive

/-! ## 3. One step of dispatch -/

theorem perm_frame {α : Type} {held held' rx ins : List α}
    (h : (held ++ rx).Perm (ins ++ held')) (before after : List α) :
    (before ++ held ++ after ++ rx).Perm (ins ++ (before ++ held' ++ after)) := by
  have e := Multiset.coe_eq_coe.2 h
  rw [← Multiset.coe_eq_coe]
  simp only [← Multiset.coe_add] at e ⊢
  calc (before : Multiset α) + held + after + rx = before + after + (held + rx) := by abel
    _ = before + after + (ins + held') := by rw [e]
    _ = ins + (before + held' + after) := by abel

/-- What the other machines hold stays. -/
theorem Balanced.frameTraces {t t' : List (Trace D)} {s s' : List T} {new : List (Label T D E)}
    (h : Balanced env p p' t t' s s' new) (before after : List (Trace D)) :
    Balanced env p p' (before ++ t ++ after) (before ++ t' ++ after) s s' new :=
  { h with traces := perm_frame h.traces before after }

theorem Balanced.frameTests {t t' : List (Trace D)} {s s' : List T} {new : List (Label T D E)}
    (h : Balanced env p p' t t' s s' new) (before after : List T) :
    Balanced env p p' t t' (before ++ s ++ after) (before ++ s' ++ after) new :=
  { h with tests := perm_frame h.tests before after }

/-- One member of a list, apart from those before and after it. -/
theorem flatMap_of_getElem? {α β : Type} (g : α → List β) {l : List α} {i : Nat} {x : α}
    (h : l[i]? = some x) (y : α) :
    l.flatMap g = (l.take i).flatMap g ++ g x ++ (l.drop (i + 1)).flatMap g ∧
    (l.set i y).flatMap g = (l.take i).flatMap g ++ g y ++ (l.drop (i + 1)).flatMap g := by
  obtain ⟨hi, rfl⟩ := List.getElem?_eq_some_iff.1 h
  constructor
  · conv_lhs => rw [← take_append_drop i l, ← getElem_cons_drop hi]
    rw [flatMap_append, flatMap_cons, append_assoc]
  · rw [set_eq_take_append_cons_drop, if_pos hi]
    simp

theorem newVm_held (o : Options T) (type : Nat → NodeType) (k : Nat) :
    (newVm o type k).flatMap (VmFsm.held : VmFsm D E → _) = [] :=
  flatMap_eq_nil_of_forall fun _ hf => VmFsm.held_of_ne (by simp [(mem_newVm hf).2.2])

theorem newSvm_held (type : Nat → NodeType) (k : Nat) :
    (newSvm type k).flatMap (SvmFsm.held : SvmFsm T E → _) = [] :=
  flatMap_eq_nil_of_forall fun _ hf => SvmFsm.held_of_ne (by simp [(mem_newSvm hf).2.2])

section Step

variable {env : Env T D} {d d' : Dispatcher T D E} {new : List (Label T D E)} {i : Input T D E}

theorem Dispatcher.Asked.silent (h : d.Asked new) : ∀ l ∈ new, l.Silent := by
  obtain rfl | ⟨row, q, -, rfl⟩ := h
  · nofun
  · exact fun l hl => silent_of_not_moves (by rw [mem_singleton.1 hl]; rfl)

theorem Dispatcher.Asked.not_cleared (h : d.Asked new) : new.any isCleared = false := by
  obtain rfl | ⟨row, q, -, rfl⟩ := h <;> rfl

/-- **What a step adds to the account**, unless it starts a target. -/
theorem Moves.balanced (h : Moves env d i d' new) : (new.any isCleared = false ∧
      Balanced env d.pools d'.pools d.heldTraces d'.heldTraces d.heldTests d'.heldTests new) ∨
    (new = [.cleared] ∧ d'.pools = .new ∧ d'.vmFsms = [] ∧ d'.svmFsms = []) := by
  cases h with
  | connect idle => exact .inl ⟨rfl, .of_still (by simp [moves])⟩
  | callBack known free =>
    rename_i k
    refine .inl ⟨rfl, ?_⟩
    rw [registerNodeFsm_eq]
    simp only [heldTraces, heldTests, flatMap_append, newVm_held, newSvm_held, append_nil]
    exact .of_silent nofun
  | pushBack known => exact .inl ⟨rfl, .of_silent nofun⟩
  | poll polls =>
    cases polls with
    | ask source | emptyFront source empty | vmDone source here | svmDone source here
    | terminated source => exact .inl ⟨rfl, .of_silent nofun⟩
    | refuse source asked | toTerminate source asked last | toNextTarget source asked mode due =>
      exact .inl ⟨asked.not_cleared, .of_silent asked.silent⟩
    | toDispatch source asked mode =>
      refine .inl ⟨by rw [any_append, asked.not_cleared]; rfl, .of_silent ?_⟩
      intro l hl
      obtain hl | hl := mem_append.1 hl
      · exact asked.silent l hl
      · cases mem_singleton.1 hl
        exact silent_of_not_moves rfl
    | clear source more => exact .inr ⟨rfl, rfl, rfl, rfl⟩
    | resetNodes source =>
      refine .inl ⟨by simp [isCleared], ?_⟩
      simp only [heldTraces, heldTests, flatMap_append,
        flatMap_assoc, newVm_held, newSvm_held, flatMap_nil_fun, append_nil]
      refine .of_still fun l hl => ?_
      obtain ⟨k, -, rfl⟩ := mem_map.1 hl
      rfl
    | assignFails source result =>
      have hl := mem_assignTargets result
      refine .inl ⟨any_eq_false.2 fun l h => ?_, .of_still fun l h => ?_⟩
      all_goals
        obtain ⟨k, -, t, rfl⟩ := hl l h
        simp [isCleared, moves]
    | assign source result =>
      have hl := mem_assignTargets result
      refine .inl ⟨any_eq_false.2 fun l h => ?_, .of_still fun l h => ?_⟩
      all_goals
        obtain h | h := mem_append.1 h
        · obtain ⟨k, -, t, rfl⟩ := hl l h
          simp [isCleared, moves]
        · cases mem_singleton.1 h
          simp [isCleared, moves]
    | driveVm source here drive =>
      rename_i i f r
      have hb := (drive.balanced d.heldTests).frameTraces ((d.vmFsms.take i).flatMap VmFsm.held)
        ((d.vmFsms.drop (i + 1)).flatMap VmFsm.held)
      obtain ⟨h1, h2⟩ := flatMap_of_getElem? VmFsm.held here r.2.1.fsm
      rw [← h1, ← h2] at hb
      exact .inl ⟨(Shows.not_any drive.shows).1, hb⟩
    | driveSvm source here drive =>
      rename_i i f r
      have hb := (drive.balanced d.heldTraces).frameTests
        ((d.svmFsms.take i).flatMap SvmFsm.held) ((d.svmFsms.drop (i + 1)).flatMap SvmFsm.held)
      obtain ⟨h1, h2⟩ := flatMap_of_getElem? SvmFsm.held here r.2.1.fsm
      rw [← h1, ← h2] at hb
      exact .inl ⟨(Shows.not_any drive.shows).1, hb⟩

theorem Label.Silent.not_partner {l : Label T D E} (h : l.Silent) {k : Nat} {ty : NodeType} :
    l.partner ≠ some (k, ty) := by
  rw [h.partner]
  nofun

/-- Tests and traces are exchanged with nodes of the right type. -/
theorem Moves.partner (h : Moves env d i d' new) (hd : d.Typed) {l : Label T D E} (hl : l ∈ new)
    {k : Nat} {ty : NodeType} (hp : l.partner = some (k, ty)) :
    k < d.connected ∧ d.type k = ty := by
  cases h with
  | connect idle =>
    cases mem_singleton.1 hl
    cases hp
  | callBack known free | pushBack known => cases hl
  | poll polls =>
    cases polls with
    | ask source | emptyFront source empty | vmDone source here | svmDone source here
    | terminated source => cases hl
    | refuse source asked | toTerminate source asked last | toNextTarget source asked mode due =>
      exact absurd hp (asked.silent l hl).not_partner
    | toDispatch source asked mode =>
      obtain hl | hl := mem_append.1 hl
      · exact absurd hp (asked.silent l hl).not_partner
      · cases mem_singleton.1 hl
        cases hp
    | clear source more =>
      cases mem_singleton.1 hl
      cases hp
    | resetNodes source =>
      obtain ⟨j, -, rfl⟩ := mem_map.1 hl
      cases hp
    | assignFails source result =>
      have hm := mem_assignTargets result
      obtain ⟨j, -, t, rfl⟩ := hm l hl
      cases hp
    | assign source result =>
      have hm := mem_assignTargets result
      obtain hl | hl := mem_append.1 hl
      · obtain ⟨j, -, t, rfl⟩ := hm l hl
        cases hp
      · cases mem_singleton.1 hl
        cases hp
    | driveVm source here drive =>
      cases (drive.shows l hl).partner hp
      exact hd.vm _ (mem_of_getElem? here)
    | driveSvm source here drive =>
      cases (drive.shows l hl).partner hp
      exact hd.svm _ (mem_of_getElem? here)

end Step

/-! ## 4. Batches are passed on in the next `dispatch` -/

/-- `dispatch` is running. -/
def Phase.Dispatches : Phase → Prop
  | .dispatchVm _ | .dispatchSvm _ => True
  | _ => False

section Prompt

variable {env : Env T D} {d d' : Dispatcher T D E} {ls new : List (Label T D E)} {i : Input T D E}

theorem subperm_append {α : Type} {a b c e : List α} (h : a.Subperm b) (h' : c.Subperm e) :
    (a ++ c).Subperm (b ++ e) := by
  rw [← Multiset.coe_le] at h h' ⊢
  rw [← Multiset.coe_add, ← Multiset.coe_add]
  exact add_le_add h h'

/-- What is held was received since `dispatch` began, by every machine that it has driven. -/
structure Prompt (ls : List (Label T D E)) (d : Dispatcher T D E) : Prop where
  vm : ∀ i, d.phase = .dispatchVm i → ((d.vmFsms.take i).flatMap VmFsm.held).Subperm
    (receivedTraces (since isBegin ls))
  vmDone : (∀ i, d.phase ≠ .dispatchVm i) → d.heldTraces.Subperm (receivedTraces (since isBegin ls))
  svm : ∀ i, d.phase = .dispatchSvm i → ((d.svmFsms.take i).flatMap SvmFsm.held).Subperm
    (receivedTests (since isBegin ls))
  svmDone : (∀ i, d.phase ≠ .dispatchVm i) → (∀ i, d.phase ≠ .dispatchSvm i) →
    d.heldTests.Subperm (receivedTests (since isBegin ls))

/-- The history grows. -/
theorem Prompt.append (hd : Prompt ls d) (hnew : new.any isBegin = false) :
    Prompt (ls ++ new) d := by
  have hs := since_append_of_none isBegin hnew ls
  have ht : (receivedTraces (since isBegin ls)).Subperm
      (receivedTraces (since isBegin (ls ++ new))) := by
    rw [hs, receivedTraces_append]
    exact (sublist_append_left _ _).subperm
  have ht' : (receivedTests (since isBegin ls)).Subperm
      (receivedTests (since isBegin (ls ++ new))) := by
    rw [hs, receivedTests_append]
    exact (sublist_append_left _ _).subperm
  exact ⟨fun i hi => (hd.vm i hi).trans ht, fun h => (hd.vmDone h).trans ht,
    fun i hi => (hd.svm i hi).trans ht', fun h h' => (hd.svmDone h h').trans ht'⟩

/-- Between two `dispatch`, only what is held matters. -/
theorem Prompt.idle (hd : Prompt ls d) (h : ¬ d.phase.Dispatches) (h' : ¬ d'.phase.Dispatches)
    (ht : d'.heldTraces = d.heldTraces) (hs : d'.heldTests = d.heldTests) : Prompt ls d' := by
  have hv : ∀ i, d.phase ≠ .dispatchVm i := fun i e => h (by rw [e]; trivial)
  have hw : ∀ i, d.phase ≠ .dispatchSvm i := fun i e => h (by rw [e]; trivial)
  refine ⟨fun i e => absurd (by rw [e]; trivial) h', fun _ => ?_,
    fun i e => absurd (by rw [e]; trivial) h', fun _ _ => ?_⟩
  · rw [ht]
    exact hd.vmDone hv
  · rw [hs]
    exact hd.svmDone hv hw

/-- `dispatch` begins. -/
theorem Prompt.begins (ls : List (Label T D E)) (h : d.phase = .dispatchVm 0) :
    Prompt (ls ++ [.dispatchBegins]) d := by
  refine ⟨fun i e => ?_, fun hn => absurd h (hn 0), fun i e => ?_, fun hn => absurd h (hn 0)⟩
  · rw [h] at e
    cases e
    exact nil_subperm
  · rw [h] at e
    cases e

theorem Phase.Checks.not_dispatches {p : Phase} (h : p.Checks) : ¬ p.Dispatches := by
  cases p <;> first | exact h.elim | exact id

theorem take_succ_set {α : Type} {l : List α} {x : α} (y : α) : ∀ {i : Nat}, l[i]? = some x →
    (l.set i y).take (i + 1) = l.take i ++ [y] := by
  induction l with
  | nil => intro i h; cases h
  | cons a l ih =>
    intro i h
    cases i with
    | zero => rfl
    | succ i => simpa using ih (by simpa using h)

theorem Dispatcher.Asked.not_begin (h : d.Asked new) : new.any isBegin = false := by
  obtain rfl | ⟨row, q, -, rfl⟩ := h <;> rfl

theorem Prompt.callBack {k : Nat} (hd : Prompt ls d) (free : d.locked (d.type k) = false) :
    Prompt ls { d.registerNodeFsm k with joining := .calledBack k } := by
  rw [registerNodeFsm_eq]
  have ht : (d.vmFsms ++ newVm d.options d.type k).flatMap VmFsm.held = d.heldTraces := by
    rw [flatMap_append, newVm_held, append_nil]
    rfl
  have hs : (d.svmFsms ++ newSvm d.type k).flatMap SvmFsm.held = d.heldTests := by
    rw [flatMap_append, newSvm_held, append_nil]
    rfl
  refine ⟨fun i hi => ?_, fun h => ?_, fun i hi => ?_, fun h h' => ?_⟩
  · cases i with
    | zero => exact nil_subperm
    | succ i =>
      -- the list is locked, so the node is not a VM node
      have hk : newVm d.options d.type k = ([] : List (VmFsm D E)) := by
        refine if_neg fun hk => ?_
        have hi' : d.phase = .dispatchVm (i + 1) := hi
        simp [locked, hk, hi'] at free
      simpa [hk] using hd.vm (i + 1) hi
  · simpa only [heldTraces, ht] using hd.vmDone h
  · cases i with
    | zero => exact nil_subperm
    | succ i =>
      have hk : newSvm d.type k = ([] : List (SvmFsm T E)) := by
        refine if_neg fun hk => ?_
        have hi' : d.phase = .dispatchSvm (i + 1) := hi
        simp [locked, hk, hi'] at free
      simpa [hk] using hd.svm (i + 1) hi
  · simpa only [heldTests, hs] using hd.svmDone h h'

theorem Moves.prompt (h : Moves env d i d' new) (hd : Prompt ls d)
    (hnew : new.any isCleared = false) : Prompt (ls ++ new) d' := by
  cases h with
  | connect idle =>
    rename_i type status
    have h : Prompt (ls ++ [.packet d.connected (.statusRequest status)]) d := hd.append rfl
    exact ⟨h.vm, h.vmDone, h.svm, h.svmDone⟩
  | callBack known free => rw [append_nil]; exact hd.callBack free
  | pushBack known => rw [append_nil]; exact ⟨hd.vm, hd.vmDone, hd.svm, hd.svmDone⟩
  | poll polls =>
    cases polls with
    | ask source | emptyFront source empty | terminated source =>
      rw [append_nil]
      exact hd.idle (by rw [source]; exact id) id rfl rfl
    | refuse source asked | toTerminate source asked last | toNextTarget source asked mode due =>
      exact (hd.append asked.not_begin).idle source.not_dispatches id rfl rfl
    | toDispatch source asked mode | assign source result =>
      rw [← append_assoc]
      exact .begins _ rfl
    | clear source more => cases hnew
    | resetNodes source =>
      refine (hd.append (by simp [isBegin])).idle (by rw [source]; exact id) id ?_ ?_
      · simp [heldTraces, flatMap_assoc, newVm_held, flatMap_nil_fun]
      · simp [heldTests, flatMap_assoc, newSvm_held, flatMap_nil_fun]
    | assignFails source result =>
      have hm := mem_assignTargets result
      refine (hd.append (any_eq_false.2 fun l hl => ?_)).idle (by rw [source]; exact id) id rfl rfl
      obtain ⟨j, -, t, rfl⟩ := hm l hl
      exact Bool.false_ne_true
    | driveVm source here drive =>
      rename_i i f r
      refine ⟨fun j hj => ?_, fun hn => absurd rfl (hn (i + 1)), nofun,
        fun hn => absurd rfl (hn (i + 1))⟩
      cases hj
      have hnb := (Shows.not_any drive.shows).2
      change ((d.vmFsms.set i r.2.1.fsm).take (i + 1) |>.flatMap VmFsm.held).Subperm
        (receivedTraces (since isBegin (ls ++ driven f.node r)))
      rw [take_succ_set _ here, flatMap_append, flatMap_singleton,
        since_append_of_none _ hnb, receivedTraces_append]
      exact subperm_append (hd.vm i source) drive.held_subperm
    | vmDone source here =>
      rename_i i
      rw [append_nil]
      have hv := hd.vm i source
      rw [take_of_length_le (List.getElem?_eq_none_iff.1 here)] at hv
      refine ⟨nofun, fun _ => hv, fun j hj => ?_, fun _ hn => absurd rfl (hn 0)⟩
      cases hj
      exact nil_subperm
    | driveSvm source here drive =>
      rename_i i f r
      have hnb := (Shows.not_any drive.shows).2
      have hv : ∀ j, d.phase ≠ .dispatchVm j := fun j e => by rw [source] at e; cases e
      refine ⟨nofun, fun _ => (hd.append hnb).vmDone hv, fun j hj => ?_,
        fun _ hn => absurd rfl (hn (i + 1))⟩
      cases hj
      change ((d.svmFsms.set i r.2.1.fsm).take (i + 1) |>.flatMap SvmFsm.held).Subperm
        (receivedTests (since isBegin (ls ++ driven f.node r)))
      rw [take_succ_set _ here, flatMap_append, flatMap_singleton,
        since_append_of_none _ hnb, receivedTests_append]
      exact subperm_append (hd.svm i source) drive.held_subperm
    | svmDone source here =>
      rename_i i
      rw [append_nil]
      have hs := hd.svm i source
      rw [take_of_length_le (List.getElem?_eq_none_iff.1 here)] at hs
      have hv : ∀ j, d.phase ≠ .dispatchVm j := fun j e => by rw [source] at e; cases e
      exact ⟨nofun, fun _ => hd.vmDone hv, nofun, fun _ _ => hs⟩

end Prompt

/-! ## 5. Runs -/

/-- **The account of a history that ends in a state.**
    Everything received has been inserted or is held by the machine that received it; what was
    received before the last `dispatch` began has been inserted when it ends. The pools hold what
    was inserted, admitted and not taken. What is taken from a pool is transmitted, in the same
    order and as often, to nodes of the right type, traces that could not be read back apart; every
    other trace, exactly if no `TracePool::next` has thrown. -/
structure Conserved (env : Env T D) (ls : List (Label T D E)) (d : Dispatcher T D E) : Prop where
  traces : (receivedTraces ls).Perm (insertedTraces ls ++ d.heldTraces)
  tests : (receivedTests ls).Perm (insertedTests ls ++ d.heldTests)
  tracesNext : ∀ before after, ls = before ++ .dispatchBegins :: after →
    after.any isBegin = false → ¬ d.phase.Dispatches →
    (receivedTraces before).Subperm (insertedTraces ls)
  testsNext : ∀ before after, ls = before ++ .dispatchBegins :: after →
    after.any isBegin = false → ¬ d.phase.Dispatches →
    (receivedTests before).Subperm (insertedTests ls)
  readTraces : readTraces ls = (transmittedTraces ls).map Prod.snd
  takenTests : takenTests ls = (transmittedTests ls).map Prod.snd
  tracePool : Fifo.Books env.admitsTrace .empty d.pools.traces (insertedTraces ls) (takenTraces ls)
  testPool : Fifo.Books env.admitsTest .empty d.pools.tests (insertedTests ls)
    (Cluster.takenTests ls)
  passed : (takenTraces ls).length = (transmittedTraces ls).length + (unreadTraces ls).length ↔
    lostTraces ls = []
  partners : ∀ l ∈ ls, ∀ k ty, l.partner = some (k, ty) → d.type k = ty

/-- What holds of the history since the last reset, in every run. -/
structure Account (env : Env T D) (ls : List (Label T D E)) (d : Dispatcher T D E) : Prop where
  typed : d.Typed
  balanced : Balanced env .new d.pools [] d.heldTraces [] d.heldTests ls
  prompt : Prompt ls d
  partners : ∀ l ∈ ls, ∀ k ty, l.partner = some (k, ty) → k < d.connected ∧ d.type k = ty

/-- A state in which no machine is registered. -/
theorem Account.nil {d : Dispatcher T D E} (typed : d.Typed) (hp : d.pools = .new)
    (hv : d.vmFsms = []) (hs : d.svmFsms = []) : Account env [] d := by
  have ht : d.heldTraces = [] := by rw [heldTraces, hv]; rfl
  have ht' : d.heldTests = [] := by rw [heldTests, hs]; rfl
  refine ⟨typed, ?_, ⟨fun i _ => ?_, fun _ => ?_, fun i _ => ?_, fun _ _ => ?_⟩, nofun⟩
  · rw [ht, ht', hp]
    exact .of_silent nofun
  · rw [hv, take_nil]
    exact nil_subperm
  · rw [ht]
    exact nil_subperm
  · rw [hs, take_nil]
    exact nil_subperm
  · rw [ht']
    exact nil_subperm

theorem run_account (env : Env T D) (o : Options T) {ls : List (Label T D E)}
    {d : Dispatcher T D E} (h : Run (step env) (fun _ _ => True) (.init o) ls d) :
    Account env (since isCleared ls) d := by
  refine h.since_invariant isCleared (.nil (.init o) rfl rfl rfl) ?_ ?_
  · intro ls d i new d' ih _ hstep hnew
    have hm := step_moves hstep
    obtain ⟨-, hb⟩ | ⟨rfl, -⟩ := hm.balanced
    · refine ⟨hm.typed ih.typed, ih.balanced.append hb, hm.prompt ih.prompt hnew, ?_⟩
      intro l hl k ty hp
      obtain hl | hl := mem_append.1 hl
      · obtain ⟨hk, ht⟩ := ih.partners l hl k ty hp
        exact ⟨(hm.type_eq hk).1, (hm.type_eq hk).2.trans ht⟩
      · obtain ⟨hk, ht⟩ := hm.partner ih.typed hl hp
        exact ⟨(hm.type_eq hk).1, (hm.type_eq hk).2.trans ht⟩
    · cases hnew
  · intro ls d i new d' ih _ hstep hnew
    have hm := step_moves hstep
    obtain ⟨hn, -⟩ | ⟨rfl, hp, hv, hs⟩ := hm.balanced
    · rw [hn] at hnew
      cases hnew
    · exact ⟨⟨_, rfl⟩, .nil (hm.typed ih.typed) hp hv hs⟩

/-- What was received before the last `dispatch` began is not among what is held after it. -/
theorem subperm_of_held {α : Type} {before after inserted held : List α}
    (all : (before ++ after).Perm (inserted ++ held)) (late : held.Subperm after) :
    before.Subperm inserted := by
  have h : (before ++ after).Subperm (inserted ++ after) :=
    all.subperm.trans (subperm_append (List.Subperm.refl inserted) late)
  exact (subperm_append_right after).1 h

/-- A trace that is taken is read back, or that fails, or it is lost. -/
theorem length_takenTraces (ls : List (Label T D E)) : (takenTraces ls).length =
    (readTraces ls).length + (unreadTraces ls).length + (lostTraces ls).length := by
  induction ls with
  | nil => rfl
  | cons l ls ih =>
    have hl : l.outTraces.length =
        l.readTraces.length + l.badTraces.length + l.lostTraces.length := by
      cases l with
      | tookTrace t read => cases read <;> rfl
      | _ => rfl
    simp only [takenTraces, readTraces, unreadTraces, lostTraces, flatMap_cons, length_append]
      at ih ⊢
    omega

/-- Pools that admit everything. -/
def openEnv : Env Nat Nat := ⟨fun _ _ => true, fun _ _ => true, fun _ _ => false⟩

/-- A dispatcher that is not in distributed mode. -/
def localOptions : Options Nat := ⟨false, false, ⟨"", 0⟩, none, 100, 100, 100, []⟩

/-- A VM node and an SVM node register, and `dispatch` runs thirteen times; each node always has one
    test and one trace to offer. -/
def localInputs : List (Input Nat Nat Nat) :=
  [.connect .vm ⟨0, 0, 0, true⟩, .callBack, .pushBack,
    .connect .svm ⟨0, 0, 0, true⟩, .callBack, .pushBack] ++
  List.replicate 91 (.poll ⟨⟨"", 0⟩, ⟨1, 1, 0, true⟩, [⟨7, 70⟩], [3], []⟩
    ⟨fun _ => false, fun u => u + 1, id⟩ 0)

theorem localInputs_isSome : (runGuarded (step openEnv) (fun _ _ => True) (.init localOptions)
    localInputs).isSome = true := by decide +kernel

/-- The trace graph: a trace is admitted if it is no beginning of one that is there, and it is
    superseded by a longer one that begins with it. -/
def prefixEnv : Env Nat (List Nat) where
  admitsTest _ _ := true
  admitsTrace seen t := !seen.any fun s => t.data <+: s.data
  superseded seen t := seen.any fun s => t.data <+: s.data ∧ s.data ≠ t.data

/-- A VM node and an SVM node; the VM node has two traces, the second of which extends the first. -/
def supersedingInputs : List (Input Nat (List Nat) Nat) :=
  [.connect .vm ⟨0, 0, 0, true⟩, .callBack, .pushBack,
    .connect .svm ⟨0, 0, 0, true⟩, .callBack, .pushBack] ++
  List.replicate 70 (.poll ⟨⟨"", 0⟩, ⟨0, 1, 0, true⟩, [⟨1, [7]⟩, ⟨2, [7, 8]⟩], [], []⟩
    ⟨fun _ => false, fun u => u + 10, fun _ => 0⟩ 0)

theorem supersedingInputs_isSome : (runGuarded (step prefixEnv) (fun _ _ => True)
    (.init localOptions) supersedingInputs).isSome = true := by decide +kernel

end Crete.Cluster
