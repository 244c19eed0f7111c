/-
  File:      Crete/Cluster/Progress.lean
  Subject:   Dispatch and one node that is registered with it, poll after poll (VMNodeFSM_,
             SVMNodeFSM_ and DispatchFSM_::dispatch of lib/cluster/dispatch.cpp).

  The node answers whatever it is asked, with whatever status. Its machine lets it commence once and
  then goes round: it asks for the status twice in each round, and acts on the traces of a VM node
  by the first answer, on its errors and on all of an SVM node by the second. What the other answer
  reports is overtaken. The tests of a VM node and the traces of an SVM node are not asked for: the
  node itself works on them.

  A VM node whose image is to be updated without distribution is stuck at its configuration, for
  which no row is left.

  * `VmRow`, `SvmRow` -- the rows that they take; **`driveVm_row`**, **`driveSvm_row`**.
  * `Progress` -- every event is handled, the node commences once, its status is asked for again and
    again, and what is reported is asked for or no longer reported.
  * **`node_progress`** -- so it is for every node, up to the stuck ones.
-/
import Crete.Cluster.Dispatch
import Crete.Lib.Temporal

namespace Crete.Cluster

open Crete.Lib List NodeStatus

variable {T D E : Type}

/-! ## 1. What progress is -/

def Packet.isCommence : Packet T D E → Bool
  | .commence => true
  | _ => false

def Packet.asksTraces : Packet T D E → Bool
  | .traceRequest _ => true
  | _ => false

def Packet.asksTests : Packet T D E → Bool
  | .testCaseRequest _ => true
  | _ => false

def Packet.asksErrors : Packet T D E → Bool
  | .errorLogRequest _ => true
  | _ => false

open Packet

/-- The packets before a node commences ask for nothing that is counted. -/
theorem Packet.Early.asks {q : Packet T D E} (h : q.Early) :
    q.isCommence = false ∧ q.asksTests = false ∧ q.asksErrors = false := by
  cases q <;> first | exact ⟨rfl, rfl, rfl⟩ | exact False.elim h

/-- A status is asked for, and the answer is `s`. -/
def Reports (sent : Nat → List (Packet T D E)) (k : Nat) (s : NodeStatus) : Prop :=
  .statusRequest s ∈ sent k

/-- Every positive count that is reported is followed by a request. -/
def Requested (sent : Nat → List (Packet T D E)) (count : NodeStatus → Nat)
    (asks : Packet T D E → Bool) : Prop :=
  ∀ k s, Reports sent k s → 0 < count s → ∃ m, k < m ∧ ∃ p ∈ sent m, asks p = true

/-- A positive report, and no request after it. -/
theorem not_requested {sent : Nat → List (Packet T D E)} {count : NodeStatus → Nat}
    {asks : Packet T D E → Bool} {k : Nat} {s : NodeStatus} (hs : Reports sent k s)
    (hpos : 0 < count s) (h : ∀ m, k < m → (sent m).any asks = false) :
    ¬Requested sent count asks := by
  intro hreq
  obtain ⟨m, hm, hp⟩ := hreq k s hs hpos
  exact absurd ((h m hm).symm.trans (any_eq_true.2 hp)) Bool.false_ne_true

/-- Every positive count that is reported is followed by a request, or by a report of zero. -/
def Attended (sent : Nat → List (Packet T D E)) (count : NodeStatus → Nat)
    (asks : Packet T D E → Bool) : Prop :=
  ∀ k s, Reports sent k s → 0 < count s →
    ∃ m, k < m ∧ ((∃ p ∈ sent m, asks p = true) ∨ ∃ s', Reports sent m s' ∧ count s' = 0)

/-- Progress of a node whose items are counted by `count` and requested by `asks`. Every row of
    the machines leads to another state, so that an event is handled iff the state changes. -/
structure Progress {σ : Type} (state : Nat → σ) (sent : Nat → List (Packet T D E))
    (count : NodeStatus → Nat) (asks : Packet T D E → Bool) : Prop where
  handled : ∀ k, state (k + 1) ≠ state k
  commences : ∃ k, ∀ j, (sent j).countP isCommence = if j = k then 1 else 0
  polls : InfinitelyOften fun k => ∃ s, Reports sent k s
  items : Attended sent count asks
  errors : Attended sent errorCount asksErrors

section Talk

variable {σ : Type} {state : Nat → σ} {sent : Nat → List (Packet T D E)}
  {count : NodeStatus → Nat} {asks : Packet T D E → Bool}

/-- Reports on which the machine acts, and reports that are followed by such a one. -/
theorem attended_of_acts (acts : Nat → Prop)
    (request : ∀ k s, acts k → Reports sent k s → 0 < count s →
      ∃ m, k < m ∧ ∃ p ∈ sent m, asks p = true)
    (next : ∀ k s, ¬acts k → Reports sent k s → ∃ m s', k < m ∧ acts m ∧ Reports sent m s') :
    Attended sent count asks := by
  intro k s hs hpos
  by_cases hacts : acts k
  · obtain ⟨m, hm, hp⟩ := request k s hacts hs hpos
    exact ⟨m, hm, .inl hp⟩
  · obtain ⟨m, s', hm, hacts', hs'⟩ := next k s hacts hs
    by_cases hzero : count s' = 0
    · exact ⟨m, hm, .inr ⟨s', hs', hzero⟩⟩
    · obtain ⟨m', hm', hp⟩ := request m s' hacts' hs' (Nat.pos_of_ne_zero hzero)
      exact ⟨m', Nat.lt_trans hm hm', .inl hp⟩

/-- A machine that passes its state `c` on its way out of its first states. -/
theorem commences_once [DecidableEq σ] (early : σ → Bool) (c : σ) (rank : σ → Nat)
    (start : early (state 0) = true) (step : ∀ k, early (state k) = true → state k ≠ c →
      early (state (k + 1)) = true ∧ rank (state (k + 1)) < rank (state k))
    (left : ∀ k, state k = c ∨ early (state k) = false → early (state (k + 1)) = false)
    (hc : early c = true) (count : ∀ k, (sent k).countP isCommence = if state k = c then 1 else 0) :
    ∃ k, ∀ j, (sent j).countP isCommence = if j = k then 1 else 0 := by
  obtain ⟨k, -, -, hk⟩ := until_of_rank (p := fun k => early (state k) = true)
    (q := fun k => state k = c) (fun k => rank (state k)) step (n := 0) start
  -- a state `c` is followed by later states only
  have later : ∀ i j, state i = c → i < j → state j ≠ c := by
    intro i j hi hij hj
    have hlate : early (state j) = false := persists (p := fun m => early (state m) = false)
      (fun m _ hm => left m (.inr hm)) (left i (.inl hi)) j hij
    rw [hj, hc] at hlate
    cases hlate
  refine ⟨k, fun j => ?_⟩
  rcases Nat.lt_trichotomy j k with hjk | rfl | hjk
  · rw [if_neg (Nat.ne_of_lt hjk), count, if_neg fun hj => later j k hj hjk hk]
  · rw [if_pos rfl, count, if_pos hk]
  · rw [if_neg (Nat.ne_of_gt hjk), count, if_neg (later k j hk hjk)]

end Talk

/-! ## 2. VM nodes -/

/-- The states before the node has commenced. -/
def VmState.setup : VmState → Bool
  | .txConfig | .validateImage | .updateImage | .rxGuestData | .guestDataRxed | .commence => true
  | .start | .rxStatus | .statusRxed | .rxTrace | .txTest | .traceRxed | .testTxed
  | .errorRxed => false

/-- How many events at most it takes to `RxStatus`. -/
def VmState.toStatus : VmState → Nat
  | .txConfig => 6
  | .validateImage => 5
  | .updateImage => 4
  | .rxGuestData => 3
  | .guestDataRxed => 2
  | .commence => 1
  | .statusRxed => 6
  | .rxTrace => 5
  | .traceRxed => 4
  | .txTest => 3
  | .testTxed => 2
  | .errorRxed => 1
  | .start | .rxStatus => 0

/-- A row between two states before the node has commenced. -/
def VmState.nearer (s s' : VmState) : Bool :=
  s.setup && s'.setup && s ≠ .commence && s'.toStatus < s.toStatus

open VmState

theorem VmState.nearer_iff (s s' : VmState) : s.nearer s' = true ↔
    s.setup = true ∧ s'.setup = true ∧ s ≠ .commence ∧ s'.toStatus < s.toStatus := by
  simp [nearer, and_assoc]

/-- The rows of a VM node's machine that `dispatch` leads to: the state and the known status,
    before and after, and the packets. -/
inductive VmRow (a : Answers T D E) (known : NodeStatus) :
    VmState → VmState → NodeStatus → List (Packet T D E) → Prop where
  | early {s s' : VmState} {sent : List (Packet T D E)} (states : s.nearer s' = true)
      (packets : ∀ q ∈ sent, q.Early) : VmRow a known s s' known sent
  | commence : VmRow a known .commence .rxStatus known [.commence]
  | rxStatus : VmRow a known .rxStatus .statusRxed a.status [.statusRequest a.status]
  | statusRxed : VmRow a known .statusRxed .rxTrace known []
  | noTrace (none : known.traceCount = 0) : VmRow a known .rxTrace .txTest known []
  | rxTrace (some : 0 < known.traceCount) :
      VmRow a known .rxTrace .traceRxed known [.traceRequest a.traces]
  | traceRxed : VmRow a known .traceRxed .txTest known []
  | txTest (tests : List T) : VmRow a known .txTest .testTxed a.status
      ((if tests.isEmpty then [] else [.testCase tests]) ++ [.statusRequest a.status])
  | noError (none : known.errorCount = 0) : VmRow a known .testTxed .rxStatus known []
  | rxError (some : 0 < known.errorCount) :
      VmRow a known .testTxed .errorRxed known [.errorLogRequest a.errors]
  | errorRxed : VmRow a known .errorRxed .rxStatus known []

namespace VmRow

variable {a : Answers T D E} {known known' : NodeStatus} {s s' : VmState}
  {sent : List (Packet T D E)}

section Any

variable (h : VmRow a known s s' known' sent)

include h

theorem dest_ne_start : s' ≠ .start := by
  cases h with
  | early hstates =>
    intro hs
    rw [nearer_iff, hs] at hstates
    exact absurd hstates.2.1 Bool.false_ne_true
  | _ => decide

/-- Every row leads to another state. -/
theorem dest_ne : s' ≠ s := by
  cases h with
  | early hstates =>
    intro hs
    rw [nearer_iff, hs] at hstates
    omega
  | _ => decide

theorem toStatus_lt (hs : s ≠ .rxStatus) : s'.toStatus < s.toStatus := by
  cases h with
  | early hstates => exact ((nearer_iff _ _).1 hstates).2.2.2
  | rxStatus => exact absurd rfl hs
  | _ => decide

theorem setup_step (hs : s.setup = true) (hc : s ≠ .commence) : s'.setup = true := by
  cases h with
  | early hstates => exact ((nearer_iff _ _).1 hstates).2.1
  | commence => exact absurd rfl hc
  | _ => cases hs

theorem setup_left (hs : s = .commence ∨ s.setup = false) : s'.setup = false := by
  cases h with
  | early hstates =>
    obtain ⟨hsetup, -, hne, -⟩ := (nearer_iff _ _).1 hstates
    rcases hs with hs | hs
    · exact absurd hs hne
    · exact absurd (hs.symm.trans hsetup) Bool.false_ne_true
  | _ => rfl

theorem countP_isCommence : sent.countP isCommence = if s = .commence then 1 else 0 := by
  cases h with
  | early hstates hsent =>
    rw [if_neg ((nearer_iff _ _).1 hstates).2.2.1]
    refine countP_eq_zero.2 fun q hq => ?_
    rw [(hsent q hq).asks.1]
    exact Bool.false_ne_true
  | txTest tests => cases tests <;> rfl
  | _ => rfl

/-- The status is asked for in two states, and the answer is known then. -/
theorem statusRequest {r : NodeStatus}
    (hr : .statusRequest r ∈ sent) : (s = .rxStatus ∨ s = .txTest) ∧ known' = r := by
  cases h with
  | early hstates hsent => exact (hsent _ hr).elim
  | rxStatus =>
    cases mem_singleton.1 hr
    exact ⟨.inl rfl, rfl⟩
  | txTest tests =>
    rcases mem_append.1 hr with hr | hr
    · split at hr
      · cases hr
      · cases mem_singleton.1 hr
    · cases mem_singleton.1 hr
      exact ⟨.inr rfl, rfl⟩
  | _ => simp at hr

/-- A VM node is not asked for tests. -/
theorem any_asksTests : sent.any asksTests = false := by
  cases h with
  | early hstates hsent =>
    refine any_eq_false.2 fun q hq => ?_
    rw [(hsent q hq).asks.2.1]
    exact Bool.false_ne_true
  | txTest tests => cases tests <;> rfl
  | _ => rfl

/-- Errors are asked for where they are known. -/
theorem any_asksErrors (hnone : known.errorCount = 0) : sent.any asksErrors = false := by
  cases h with
  | early hstates hsent =>
    refine any_eq_false.2 fun q hq => ?_
    rw [(hsent q hq).asks.2.2]
    exact Bool.false_ne_true
  | txTest tests => cases tests <;> rfl
  | rxError hsome => exact absurd hsome (by omega)
  | _ => rfl

theorem known_eq : known' = known ∨ known' = a.status := by
  cases h with
  | rxStatus | txTest => exact .inr rfl
  | _ => exact .inl rfl

end Any

/-! What the rows of a single state do. -/

theorem of_rxStatus (h : VmRow a known .rxStatus s' known' sent) :
    s' = .statusRxed ∧ known' = a.status ∧ .statusRequest a.status ∈ sent := by
  cases h with
  | early hstates => cases hstates
  | rxStatus => exact ⟨rfl, rfl, mem_singleton.2 rfl⟩

theorem of_statusRxed (h : VmRow a known .statusRxed s' known' sent) :
    s' = .rxTrace ∧ known' = known := by
  cases h with
  | early hstates => cases hstates
  | statusRxed => exact ⟨rfl, rfl⟩

theorem of_rxTrace (h : VmRow a known .rxTrace s' known' sent) : (s' = .txTest ∨ s' = .traceRxed) ∧
      (0 < known.traceCount → .traceRequest a.traces ∈ sent) := by
  cases h with
  | early hstates => cases hstates
  | noTrace hnone => exact ⟨.inl rfl, fun hsome => absurd hsome (by omega)⟩
  | rxTrace => exact ⟨.inr rfl, fun _ => mem_singleton.2 rfl⟩

theorem of_traceRxed (h : VmRow a known .traceRxed s' known' sent) : s' = .txTest := by
  cases h with
  | early hstates => cases hstates
  | traceRxed => rfl

theorem of_txTest (h : VmRow a known .txTest s' known' sent) :
    s' = .testTxed ∧ known' = a.status ∧ .statusRequest a.status ∈ sent := by
  cases h with
  | early hstates => cases hstates
  | txTest tests => exact ⟨rfl, rfl, mem_append_right _ (mem_singleton.2 rfl)⟩

theorem of_testTxed (h : VmRow a known .testTxed s' known' sent) (hsome : 0 < known.errorCount) :
    .errorLogRequest a.errors ∈ sent := by
  cases h with
  | early hstates => cases hstates
  | noError hnone => exact absurd hsome (by omega)
  | rxError => exact mem_singleton.2 rfl

end VmRow

/-- The machine has been started, and there is a row for its configuration. -/
structure VmFsm.Configured (f : VmFsm D E) : Prop where
  started : f.state ≠ .start
  update : f.updateImage = true → f.distributed = true

section Drive

variable (env : Env T D) (o : Options T) (p : Pools T D) (known : NodeStatus) (a : Answers T D E)

/-- **Driving a VM node takes one of these rows.** -/
theorem driveVm_row {f : VmFsm D E} (h : f.Configured) :
    VmRow a known f.state (driveVm env o p known a f).2.1.fsm.state
      (driveVm env o p known a f).2.1.status (driveVm env o p known a f).2.1.sent := by
  obtain ⟨state, node, first, traces, errors, info, update, distributed⟩ := f
  cases state with
  | start => exact absurd rfl h.started
  | txConfig =>
    have hsent : ∀ q ∈ [(.config o.node : Packet T D E)], q.Early := by simp [Packet.Early]
    cases update with
    | false => cases first <;> exact .early rfl hsent
    | true =>
      obtain rfl : distributed = true := h.update rfl
      exact .early rfl hsent
  | validateImage =>
    have hsent : ∀ q ∈ (VmFsm.receiveImageInfo
        ⟨.validateImage, node, first, traces, errors, info, update, distributed⟩ a).2,
        q.Early := by
      cases info <;> simp [VmFsm.receiveImageInfo, Packet.Early]
    simp only [driveVm, VmFsm.processEvent]
    split
    · exact .early rfl hsent
    · split
      · exact .early rfl hsent
      · exact .early rfl hsent
  | updateImage =>
    have hsent : ∀ q ∈ [(.imageInfo o.imageInfo : Packet T D E), .image], q.Early := by
      simp [Packet.Early]
    cases first <;> exact .early rfl hsent
  | rxGuestData | guestDataRxed => exact .early rfl fun q hq => by cases hq
  | commence => exact .commence
  | rxStatus => exact .rxStatus
  | statusRxed => exact .statusRxed
  | rxTrace =>
    simp only [driveVm, VmFsm.processEvent]
    split
    · exact .rxTrace (by assumption)
    · exact .noTrace (by omega)
  | txTest => exact .txTest _
  | traceRxed => exact .traceRxed
  | testTxed =>
    simp only [driveVm, VmFsm.processEvent]
    split
    · exact .rxError (by assumption)
    · exact .noError (by omega)
  | errorRxed => exact .errorRxed

/-- The options of a machine stay as they are. -/
theorem driveVm_options (f : VmFsm D E) :
    (driveVm env o p known a f).2.1.fsm.updateImage = f.updateImage ∧
      (driveVm env o p known a f).2.1.fsm.distributed = f.distributed := by
  obtain ⟨state, node, first, traces, errors, info, update, distributed⟩ := f
  cases state with
  | txConfig => cases update <;> cases first <;> cases distributed <;> exact ⟨rfl, rfl⟩
  | validateImage =>
    dsimp only [driveVm, VmFsm.processEvent]
    split
    · exact ⟨rfl, rfl⟩
    · split <;> exact ⟨rfl, rfl⟩
  | rxTrace | testTxed =>
    dsimp only [driveVm, VmFsm.processEvent]
    split <;> exact ⟨rfl, rfl⟩
  | start | updateImage | rxGuestData | guestDataRxed | commence | rxStatus | statusRxed | txTest
  | traceRxed | errorRxed => exact ⟨rfl, rfl⟩

theorem driveVm_configured {f : VmFsm D E} (h : f.Configured) :
    (driveVm env o p known a f).2.1.fsm.Configured := by
  have hrow := driveVm_row env o p known a h
  obtain ⟨hupdate, hdist⟩ := driveVm_options env o p known a f
  exact ⟨hrow.dest_ne_start, by rw [hupdate, hdist]; exact h.update⟩

end Drive

/-- Dispatch and a VM node, from its registration on: the pools as each poll finds them, and what
    the node answers in it. -/
structure VmTalk (T D E : Type) where
  env : Env T D
  options : Options T
  node : Nat
  status : NodeStatus
  pools : Nat → Pools T D
  answers : Nat → Answers T D E

namespace VmTalk

variable (t : VmTalk T D E)

/-- The machine of the node, as `register_node_fsm` leaves it. -/
def registered : VmFsm D E :=
  { VmFsm.new with
    state := .txConfig
    node := t.node
    updateImage := t.options.updateImage
    distributed := t.options.distributed }

/-- What `dispatch` does with the node in the poll `k`. -/
def drive (k : Nat) (s : VmFsm D E × NodeStatus) : Moved (VmFsm D E) T D E :=
  (driveVm t.env t.options (t.pools k) s.2 (t.answers k) s.1).2.1

/-- The machine, and the status that dispatch knows, before the poll `k`. -/
def talkAt : Nat → VmFsm D E × NodeStatus :=
  states (fun s k => ((t.drive k s).fsm, (t.drive k s).status)) (t.registered, t.status) id

def state (k : Nat) : VmState := (t.talkAt k).1.state

def known (k : Nat) : NodeStatus := (t.talkAt k).2

/-- The packets of the poll `k`. -/
def sent (k : Nat) : List (Packet T D E) := (t.drive k (t.talkAt k)).sent

variable {t} (h : t.options.updateImage = true → t.options.distributed = true)

include h

theorem configured (k : Nat) : (t.talkAt k).1.Configured := by
  induction k with
  | zero => exact ⟨fun hs => (by cases hs), h⟩
  | succ k ih => exact driveVm_configured t.env t.options (t.pools k) _ (t.answers k) ih

/-- **Every poll takes a row.** -/
theorem row (k : Nat) :
    VmRow (t.answers k) (t.known k) (t.state k) (t.state (k + 1)) (t.known (k + 1)) (t.sent k) :=
  driveVm_row t.env t.options (t.pools k) _ (t.answers k) (configured h k)

/-- From everywhere the machine comes to `RxStatus`. -/
theorem exists_rxStatus (n : Nat) : ∃ m, n ≤ m ∧ t.state m = .rxStatus := by
  obtain ⟨m, hm, -, hs⟩ := until_of_rank (p := fun _ => True) (fun k => (t.state k).toStatus)
    (fun k _ hk => ⟨trivial, (row h k).toStatus_lt hk⟩) (n := n) trivial
  exact ⟨m, hm, hs⟩

/-- A report in `RxStatus` is there when the machine looks for traces. -/
theorem after_rxStatus {k : Nat} (hs : t.state k = .rxStatus) :
    Reports t.sent k (t.known (k + 1)) ∧ t.state (k + 2) = .rxTrace ∧
      t.known (k + 2) = t.known (k + 1) := by
  have hrow := row h k
  rw [hs] at hrow
  obtain ⟨hs', hk', hsent⟩ := hrow.of_rxStatus
  have hrow' := row h (k + 1)
  rw [hs'] at hrow'
  obtain ⟨hs'', hk''⟩ := hrow'.of_statusRxed
  refine ⟨?_, hs'', hk''⟩
  rw [hk']
  exact hsent

/-- A report in `TxTest` is there when the machine looks for errors. -/
theorem after_txTest {k : Nat} (hs : t.state k = .txTest) :
    Reports t.sent k (t.known (k + 1)) ∧ t.state (k + 1) = .testTxed := by
  have hrow := row h k
  rw [hs] at hrow
  obtain ⟨hs', hk', hsent⟩ := hrow.of_txTest
  refine ⟨?_, hs'⟩
  rw [hk']
  exact hsent

/-- From `RxStatus` the machine comes to `TxTest`. -/
theorem exists_txTest {k : Nat} (hs : t.state k = .rxStatus) :
    ∃ m, k < m ∧ t.state m = .txTest := by
  obtain ⟨-, hs', -⟩ := after_rxStatus h hs
  have hrow := row h (k + 2)
  rw [hs'] at hrow
  rcases hrow.of_rxTrace.1 with hs'' | hs''
  · exact ⟨k + 3, by omega, hs''⟩
  · have hrow' := row h (k + 3)
    rw [hs''] at hrow'
    exact ⟨k + 4, by omega, hrow'.of_traceRxed⟩

theorem attended_traces : Attended t.sent traceCount asksTraces := by
  refine attended_of_acts (fun k => t.state k = .rxStatus) (fun k s hs hr hpos => ?_)
    fun k s hs hr => ?_
  · obtain ⟨-, hs', hk'⟩ := after_rxStatus h hs
    have hrow := row h (k + 2)
    rw [hs', hk', ((row h k).statusRequest hr).2] at hrow
    exact ⟨k + 2, by omega, _, hrow.of_rxTrace.2 hpos, rfl⟩
  · obtain ⟨m, hm, hs'⟩ := exists_rxStatus h (k + 1)
    exact ⟨m, _, hm, hs', (after_rxStatus h hs').1⟩

theorem attended_errors : Attended t.sent errorCount asksErrors := by
  refine attended_of_acts (fun k => t.state k = .txTest) (fun k s hs hr hpos => ?_)
    fun k s hs hr => ?_
  · have hrow := row h (k + 1)
    rw [(after_txTest h hs).2, ((row h k).statusRequest hr).2] at hrow
    exact ⟨k + 1, by omega, _, hrow.of_testTxed hpos, rfl⟩
  · have hs' := ((row h k).statusRequest hr).1.resolve_right hs
    obtain ⟨m, hm, hs''⟩ := exists_txTest h hs'
    exact ⟨m, _, hm, hs'', (after_txTest h hs'').1⟩

theorem progress : Progress t.state t.sent traceCount asksTraces where
  handled k := (row h k).dest_ne
  commences := by
    refine commences_once setup .commence toStatus rfl (fun k hs hc => ?_)
      (fun k hs => (row h k).setup_left hs) rfl fun k => (row h k).countP_isCommence
    refine ⟨(row h k).setup_step hs hc, (row h k).toStatus_lt fun hs' => ?_⟩
    rw [hs'] at hs
    cases hs
  polls n := by
    obtain ⟨m, hm, hs⟩ := exists_rxStatus h n
    exact ⟨m, hm, _, (after_rxStatus h hs).1⟩
  items := attended_traces h
  errors := attended_errors h

end VmTalk

/-! ## 3. SVM nodes -/

/-- The states before the node has commenced. -/
def SvmState.setup : SvmState → Bool
  | .txConfig | .commence => true
  | .start | .rxStatus | .statusRxed | .txTrace | .traceTxed | .rxTest | .testRxed
  | .errorRxed => false

/-- How many events at most it takes to `RxStatus`. -/
def SvmState.toStatus : SvmState → Nat
  | .txConfig => 2
  | .commence => 1
  | .statusRxed => 6
  | .txTrace => 5
  | .traceTxed => 4
  | .rxTest => 3
  | .testRxed => 2
  | .errorRxed => 1
  | .start | .rxStatus => 0

/-- The rows of an SVM node's machine that `dispatch` leads to. -/
inductive SvmRow (a : Answers T D E) (known : NodeStatus) :
    SvmState → SvmState → NodeStatus → List (Packet T D E) → Prop where
  | txConfig (o : NodeOptions T) : SvmRow a known .txConfig .commence known [.config o]
  | commence : SvmRow a known .commence .rxStatus known [.commence]
  | rxStatus : SvmRow a known .rxStatus .statusRxed a.status [.statusRequest a.status]
  | statusRxed : SvmRow a known .statusRxed .txTrace known []
  | txTrace (traces : List (Trace D)) : SvmRow a known .txTrace .traceTxed a.status
      ((if traces.isEmpty then [] else [.trace traces]) ++ [.statusRequest a.status])
  | traceTxed : SvmRow a known .traceTxed .rxTest known []
  | rxTest (some : 0 < known.testCaseCount) :
      SvmRow a known .rxTest .testRxed known [.testCaseRequest a.tests]
  | rxError (none : known.testCaseCount = 0) (some : 0 < known.errorCount) :
      SvmRow a known .rxTest .errorRxed known [.errorLogRequest a.errors]
  | noTest (none : known.testCaseCount = 0) (noError : known.errorCount = 0) :
      SvmRow a known .rxTest .rxStatus known []
  | testRxedError (some : 0 < known.errorCount) :
      SvmRow a known .testRxed .errorRxed known [.errorLogRequest a.errors]
  | testRxed (none : known.errorCount = 0) : SvmRow a known .testRxed .rxStatus known []
  | errorRxed : SvmRow a known .errorRxed .rxStatus known []

namespace SvmRow

variable {a : Answers T D E} {known known' : NodeStatus} {s s' : SvmState}
  {sent : List (Packet T D E)}

section Any

variable (h : SvmRow a known s s' known' sent)

include h

theorem dest_ne_start : s' ≠ .start := by
  cases h <;> decide

/-- Every row leads to another state. -/
theorem dest_ne : s' ≠ s := by
  cases h <;> decide

theorem toStatus_lt (hs : s ≠ .rxStatus) : s'.toStatus < s.toStatus := by
  cases h with
  | rxStatus => exact absurd rfl hs
  | _ => decide

theorem setup_step (hs : s.setup = true) (hc : s ≠ .commence) : s'.setup = true := by
  cases h with
  | txConfig => rfl
  | commence => exact absurd rfl hc
  | _ => cases hs

theorem setup_left (hs : s = .commence ∨ s.setup = false) : s'.setup = false := by
  cases h with
  | txConfig => rcases hs with hs | hs <;> cases hs
  | _ => rfl

theorem countP_isCommence : sent.countP isCommence = if s = .commence then 1 else 0 := by
  cases h with
  | txTrace traces => cases traces <;> rfl
  | _ => rfl

/-- The status is asked for in two states, and the answer is known then. -/
theorem statusRequest {r : NodeStatus}
    (hr : .statusRequest r ∈ sent) : (s = .rxStatus ∨ s = .txTrace) ∧ known' = r := by
  cases h with
  | rxStatus =>
    cases mem_singleton.1 hr
    exact ⟨.inl rfl, rfl⟩
  | txTrace traces =>
    rcases mem_append.1 hr with hr | hr
    · split at hr
      · cases hr
      · cases mem_singleton.1 hr
    · cases mem_singleton.1 hr
      exact ⟨.inr rfl, rfl⟩
  | _ => simp at hr

/-- An SVM node is not asked for traces. -/
theorem any_asksTraces : sent.any asksTraces = false := by
  cases h with
  | txTrace traces => cases traces <;> rfl
  | _ => rfl

end Any

/-! What the rows of a single state do. -/

theorem of_rxStatus (h : SvmRow a known .rxStatus s' known' sent) :
    s' = .statusRxed ∧ known' = a.status ∧ .statusRequest a.status ∈ sent := by
  cases h with
  | rxStatus => exact ⟨rfl, rfl, mem_singleton.2 rfl⟩

theorem of_statusRxed (h : SvmRow a known .statusRxed s' known' sent) : s' = .txTrace := by
  cases h with
  | statusRxed => rfl

theorem of_txTrace (h : SvmRow a known .txTrace s' known' sent) :
    s' = .traceTxed ∧ known' = a.status ∧ .statusRequest a.status ∈ sent := by
  cases h with
  | txTrace traces => exact ⟨rfl, rfl, mem_append_right _ (mem_singleton.2 rfl)⟩

theorem of_traceTxed (h : SvmRow a known .traceTxed s' known' sent) :
    s' = .rxTest ∧ known' = known := by
  cases h with
  | traceTxed => exact ⟨rfl, rfl⟩

theorem of_rxTest (h : SvmRow a known .rxTest s' known' sent) :
    known' = known ∧ (0 < known.testCaseCount → .testCaseRequest a.tests ∈ sent) ∧
      (0 < known.errorCount → .errorLogRequest a.errors ∈ sent ∨ s' = .testRxed) := by
  cases h with
  | rxTest => exact ⟨rfl, fun _ => mem_singleton.2 rfl, fun _ => .inr rfl⟩
  | rxError hnone =>
    exact ⟨rfl, fun hsome => absurd hsome (by omega), fun _ => .inl (mem_singleton.2 rfl)⟩
  | noTest hnone hnoError =>
    exact ⟨rfl, fun hsome => absurd hsome (by omega), fun hsome => absurd hsome (by omega)⟩

theorem of_testRxed (h : SvmRow a known .testRxed s' known' sent) (hsome : 0 < known.errorCount) :
    .errorLogRequest a.errors ∈ sent := by
  cases h with
  | testRxedError => exact mem_singleton.2 rfl
  | testRxed hnone => exact absurd hsome (by omega)

end SvmRow

section Drive

variable (env : Env T D) (o : Options T) (reading : Reading) (p : Pools T D) (known : NodeStatus)
  (a : Answers T D E)

/-- **Driving an SVM node takes one of these rows.** -/
theorem driveSvm_row {f : SvmFsm T E} (h : f.state ≠ .start) :
    SvmRow a known f.state (driveSvm env o reading p known a f).2.1.fsm.state
      (driveSvm env o reading p known a f).2.1.status
      (driveSvm env o reading p known a f).2.1.sent := by
  obtain ⟨state, node, tests, errors⟩ := f
  cases state with
  | start => exact absurd rfl h
  | txConfig => exact .txConfig o.node
  | commence => exact .commence
  | rxStatus => exact .rxStatus
  | statusRxed => exact .statusRxed
  | txTrace => exact .txTrace _
  | traceTxed => exact .traceTxed
  | rxTest =>
    dsimp only [driveSvm, SvmFsm.processEvent]
    split
    · exact .rxTest (by assumption)
    · split
      · exact .rxError (by omega) (by assumption)
      · exact .noTest (by omega) (by omega)
  | testRxed =>
    dsimp only [driveSvm, SvmFsm.processEvent]
    split
    · exact .testRxedError (by assumption)
    · exact .testRxed (by omega)
  | errorRxed => exact .errorRxed

end Drive

/-- Dispatch and an SVM node, from its registration on: how reading traces goes and the pools as
    each poll finds them, and what the node answers in it. -/
structure SvmTalk (T D E : Type) where
  env : Env T D
  options : Options T
  node : Nat
  status : NodeStatus
  reading : Nat → Reading
  pools : Nat → Pools T D
  answers : Nat → Answers T D E

namespace SvmTalk

variable (t : SvmTalk T D E)

/-- The machine of the node, as `register_node_fsm` leaves it. -/
def registered : SvmFsm T E := { SvmFsm.new with state := .txConfig, node := t.node }

/-- What `dispatch` does with the node in the poll `k`. -/
def drive (k : Nat) (s : SvmFsm T E × NodeStatus) : Moved (SvmFsm T E) T D E :=
  (driveSvm t.env t.options (t.reading k) (t.pools k) s.2 (t.answers k) s.1).2.1

/-- The machine, and the status that dispatch knows, before the poll `k`. -/
def talkAt : Nat → SvmFsm T E × NodeStatus :=
  states (fun s k => ((t.drive k s).fsm, (t.drive k s).status)) (t.registered, t.status) id

def state (k : Nat) : SvmState := (t.talkAt k).1.state

def known (k : Nat) : NodeStatus := (t.talkAt k).2

/-- The packets of the poll `k`. -/
def sent (k : Nat) : List (Packet T D E) := (t.drive k (t.talkAt k)).sent

theorem state_ne_start (k : Nat) : t.state k ≠ .start := by
  induction k with
  | zero => exact fun hs => by cases hs
  | succ k ih =>
    exact (driveSvm_row t.env t.options (t.reading k) (t.pools k) _ (t.answers k) ih).dest_ne_start

/-- **Every poll takes a row.** -/
theorem row (k : Nat) :
    SvmRow (t.answers k) (t.known k) (t.state k) (t.state (k + 1)) (t.known (k + 1)) (t.sent k) :=
  driveSvm_row t.env t.options (t.reading k) (t.pools k) _ (t.answers k) (t.state_ne_start k)

/-- From everywhere the machine comes to `RxStatus`. -/
theorem exists_rxStatus (n : Nat) : ∃ m, n ≤ m ∧ t.state m = .rxStatus := by
  obtain ⟨m, hm, -, hs⟩ := until_of_rank (p := fun _ => True) (fun k => (t.state k).toStatus)
    (fun k _ hk => ⟨trivial, (t.row k).toStatus_lt hk⟩) (n := n) trivial
  exact ⟨m, hm, hs⟩

variable {t} {k : Nat}

/-- A report in `RxStatus`, and the state two events later. -/
theorem after_rxStatus (hs : t.state k = .rxStatus) :
    Reports t.sent k (t.known (k + 1)) ∧ t.state (k + 2) = .txTrace := by
  have hrow := t.row k
  rw [hs] at hrow
  obtain ⟨hs', hk', hsent⟩ := hrow.of_rxStatus
  have hrow' := t.row (k + 1)
  rw [hs'] at hrow'
  refine ⟨?_, hrow'.of_statusRxed⟩
  rw [hk']
  exact hsent

/-- A report in `TxTrace` is there when the machine looks for tests. -/
theorem after_txTrace (hs : t.state k = .txTrace) :
    Reports t.sent k (t.known (k + 1)) ∧ t.state (k + 2) = .rxTest ∧
      t.known (k + 2) = t.known (k + 1) := by
  have hrow := t.row k
  rw [hs] at hrow
  obtain ⟨hs', hk', hsent⟩ := hrow.of_txTrace
  have hrow' := t.row (k + 1)
  rw [hs'] at hrow'
  obtain ⟨hs'', hk''⟩ := hrow'.of_traceTxed
  refine ⟨?_, hs'', hk''⟩
  rw [hk']
  exact hsent

/-- What is reported in `RxStatus` is reported again in `TxTrace`. -/
theorem next_report {s : NodeStatus} (hs : t.state k ≠ .txTrace) (hr : Reports t.sent k s) :
    ∃ m s', k < m ∧ t.state m = .txTrace ∧ Reports t.sent m s' := by
  have hs' := ((t.row k).statusRequest hr).1.resolve_right hs
  have hs'' := (after_rxStatus hs').2
  exact ⟨k + 2, _, by omega, hs'', (after_txTrace hs'').1⟩

theorem attended_tests : Attended t.sent testCaseCount asksTests := by
  refine attended_of_acts (fun k => t.state k = .txTrace) (fun k s hs hr hpos => ?_)
    fun k s hs hr => next_report hs hr
  obtain ⟨-, hs', hk'⟩ := after_txTrace hs
  have hrow := t.row (k + 2)
  rw [hs', hk', ((t.row k).statusRequest hr).2] at hrow
  exact ⟨k + 2, by omega, _, hrow.of_rxTest.2.1 hpos, rfl⟩

theorem attended_errors : Attended t.sent errorCount asksErrors := by
  refine attended_of_acts (fun k => t.state k = .txTrace) (fun k s hs hr hpos => ?_)
    fun k s hs hr => next_report hs hr
  obtain ⟨-, hs', hk'⟩ := after_txTrace hs
  have hrow := t.row (k + 2)
  rw [hs', hk', ((t.row k).statusRequest hr).2] at hrow
  obtain ⟨hk'', -, herr⟩ := hrow.of_rxTest
  rcases herr hpos with hsent | hs''
  · exact ⟨k + 2, by omega, _, hsent, rfl⟩
  -- the tests come first, and then the errors
  · have hrow' := t.row (k + 3)
    rw [hs'', hk''] at hrow'
    exact ⟨k + 3, by omega, _, hrow'.of_testRxed hpos, rfl⟩

variable (t)

theorem progress : Progress t.state t.sent testCaseCount asksTests where
  handled k := (t.row k).dest_ne
  commences := by
    refine commences_once SvmState.setup .commence SvmState.toStatus rfl (fun k hs hc => ?_)
      (fun k hs => (t.row k).setup_left hs) rfl fun k => (t.row k).countP_isCommence
    refine ⟨(t.row k).setup_step hs hc, (t.row k).toStatus_lt fun hs' => ?_⟩
    rw [hs'] at hs
    cases hs
  polls n := by
    obtain ⟨m, hm, hs⟩ := t.exists_rxStatus n
    exact ⟨m, hm, _, (after_rxStatus hs).1⟩
  items := attended_tests
  errors := attended_errors

end SvmTalk

/-! ## 4. Every node -/

/-- **Every registered node makes progress**, whatever it answers, if an image is updated only with
    distribution. -/
theorem node_progress :
    (∀ t : VmTalk T D E, (t.options.updateImage = true → t.options.distributed = true) →
      Progress t.state t.sent traceCount asksTraces) ∧
    ∀ t : SvmTalk T D E, Progress t.state t.sent testCaseCount asksTests :=
  ⟨fun _ h => VmTalk.progress h, fun t => t.progress⟩

/-- A VM node, the options of dispatch, and what the node reports in each poll. -/
def exampleVm (distributed updateImage : Bool) (status : Nat → NodeStatus) :
    VmTalk Nat Nat Nat where
  env := ⟨fun _ _ => true, fun _ _ => true, fun _ _ => false⟩
  options := ⟨distributed, updateImage, ⟨"crete.img", 0⟩, none, 0, 0, 0, []⟩
  node := 0
  status := ⟨0, 0, 0, true⟩
  pools _ := .new
  answers k := ⟨⟨"", 0⟩, status k, [], [], []⟩

/-- An SVM node in the same way. -/
def exampleSvm (status : Nat → NodeStatus) : SvmTalk Nat Nat Nat where
  env := ⟨fun _ _ => true, fun _ _ => true, fun _ _ => false⟩
  options := ⟨true, false, ⟨"crete.img", 0⟩, none, 0, 0, 0, []⟩
  node := 0
  status := ⟨0, 0, 0, true⟩
  reading _ := ⟨fun _ => false, id, id⟩
  pools _ := .new
  answers k := ⟨⟨"", 0⟩, status k, [], [], []⟩

theorem node_progress_update :
    let t := exampleVm true true fun _ => ⟨0, 1, 1, true⟩
    (t.options.updateImage = true → t.options.distributed = true) ∧
      Progress t.state t.sent traceCount asksTraces :=
  ⟨fun _ => rfl, node_progress.1 _ fun _ => rfl⟩

/-- One error is reported in the poll 2, and in no other. -/
def exampleError : VmTalk Nat Nat Nat :=
  exampleVm true false fun k => ⟨0, 0, if k = 2 then 1 else 0, true⟩

/-- It is not asked for: the next report overtakes it. -/
theorem exampleError_overtaken : ¬Requested exampleError.sent errorCount asksErrors := by
  have row := VmTalk.row (t := exampleError) fun _ => rfl
  have hlater : ∀ m, 6 ≤ m → (exampleError.known m).errorCount = 0 := by
    refine persists (fun m hm hzero => ?_) rfl
    rcases (row m).known_eq with hk | hk
    · rw [hk, hzero]
    · rw [hk]
      exact if_neg (by omega)
  have hfirst : ∀ m, m < 6 → (exampleError.sent m).any asksErrors = false := by decide
  refine not_requested (k := 2) (s := ⟨0, 0, 1, true⟩) (mem_singleton.2 rfl) Nat.zero_lt_one
    fun m _ => ?_
  rcases Nat.lt_or_ge m 6 with hm | hm
  · exact hfirst m hm
  · exact (row m).any_asksErrors (hlater m hm)

/-- The tests of a VM node and the traces of an SVM node are never asked for, a report may be
    overtaken, and without distribution an image that is to be updated is in the way. -/
theorem progress_exceptions :
    (¬Requested (exampleVm true false fun _ => ⟨1, 0, 0, true⟩).sent testCaseCount asksTests) ∧
    (¬Requested (exampleSvm fun _ => ⟨0, 1, 0, true⟩).sent traceCount asksTraces) ∧
    (¬Requested exampleError.sent errorCount asksErrors) ∧
    (exampleVm false true fun _ => ⟨0, 0, 0, true⟩).state 1 =
      (exampleVm false true fun _ => ⟨0, 0, 0, true⟩).state 0 := by
  refine ⟨?_, ?_, exampleError_overtaken, rfl⟩
  · exact not_requested (k := 2) (s := ⟨1, 0, 0, true⟩) (mem_singleton.2 rfl) Nat.zero_lt_one
      fun m _ => (VmTalk.row (fun _ => rfl) m).any_asksTests
  · exact not_requested (k := 2) (s := ⟨0, 1, 0, true⟩) (mem_singleton.2 rfl) Nat.zero_lt_one
      fun m _ => (SvmTalk.row _ m).any_asksTraces

end Crete.Cluster
