/-
  File:      Crete/Cluster/Accounting.lean
  Subject:   What becomes of the tests that a VM node takes from its queue (`VMNode::poll`,
             lib/cluster/vm_node.cpp; `QemuFSM_`, lib/cluster/vm_node_fsm.cpp).

  A test that was popped is put back, or it leads to a trace or an error. Where an exception
  terminates an instance at work, it leads to nothing: nobody looks at a terminated instance. Where
  it terminates one that waits for a test, the instance goes on to swallow tests, since its machine
  reports every event as handled.

  * `VmRun.Meets` -- no exception terminates an instance with a test, and no test is given to a
    terminated instance.
  * **`tests_accounted`** -- in every run where this is so and every task ends, every test is
    accounted for, by exactly one operation.
-/
import Crete.Cluster.Turns
import Crete.Lib.Ledger

namespace Crete.Cluster

open Crete.Lib List

variable {T D E : Type}

/-! ## 1. Runs -/

/-- The operations in the turn of the instance `i`. -/
def VmNode.slotOps (n : VmNode T D E) (outs : List (VmOutcome T D E)) (i : Nat) :
    List (QueueOp T D E) :=
  n.vms[i]?.elim [] fun q => (n.seenBy outs i).ops q (outs.getD i .waits)

/-- **The operations of a poll are those of the turns.** -/
theorem VmNode.pollOps_eq (n : VmNode T D E) (outs : List (VmOutcome T D E)) :
    n.pollOps n.vms outs = (range n.vms.length).flatMap (n.slotOps outs) := by
  have main : ∀ (qs : List (Qemu T D E)) (n : VmNode T D E) (outs : List (VmOutcome T D E)),
      n.pollOps qs outs = (range qs.length).flatMap fun i => qs[i]?.elim [] fun q =>
        (seen VmNode.pollInstance .waits n qs outs i).ops q (outs.getD i .waits) := by
    intro qs
    induction qs with
    | nil => exact fun _ _ => rfl
    | cons q qs ih =>
      intro n outs
      have htail : ∀ j, outs.tail.getD j .waits = outs.getD (j + 1) .waits := by
        cases outs <;> exact fun j => rfl
      have hhead : outs.headD .waits = outs.getD 0 .waits := by cases outs <;> rfl
      rw [VmNode.pollOps, ih, length_cons, range_succ_eq_map, flatMap_cons, flatMap_map]
      simp only [getElem?_cons_zero, getElem?_cons_succ, seen, htail, hhead]
      rfl
  exact main n.vms n outs

/-- A node commences, and goes on for ever. -/
structure VmRun (T D E : Type) where
  node : VmNode T D E
  outs : List (VmOutcome T D E)
  inputs : Nat → VmInput T D E

namespace VmRun

variable (r : VmRun T D E)

/-- The node after `k` inputs. -/
def nodeAt (k : Nat) : VmNode T D E :=
  states VmNode.input (r.node.process r.outs .commence) r.inputs k

/-- The instance `i` after `k` inputs. -/
def slot (i k : Nat) : Qemu T D E := (r.nodeAt k).vms.getD i .new

/-- The operations that the instance `i` leads to in the step `k`. -/
def entries (i k : Nat) : List (QueueOp T D E) :=
  match r.inputs k with
  | .run outs => (r.nodeAt k).slotOps outs i
  | .listen _ _ _ _ _ _ => []

theorem commenced_nodeAt (k : Nat) : (r.nodeAt k).base.commenced = true := by
  induction k with
  | zero => rfl
  | succ k ih =>
    show ((r.nodeAt k).input (r.inputs k)).base.commenced = true
    cases r.inputs k with
    | run outs => exact ((r.nodeAt k).run_frame outs).commenced.trans ih
    | listen => exact ih

/-- The instance after a poll. -/
theorem slot_run {i k : Nat} {outs : List (VmOutcome T D E)} (h : r.inputs k = .run outs)
    (hi : i < (r.nodeAt k).vms.length) :
    VmTurn ((r.nodeAt k).seenBy outs i) (r.slot i k) (outs.getD i .waits) (r.entries i k)
      (r.slot i (k + 1)) := by
  have hq : (r.nodeAt k).vms[i]? = some (r.slot i k) := by
    rw [slot, getD_eq_getElem?_getD, getElem?_eq_getElem hi]
    rfl
  have hnext : r.slot i (k + 1) = (((r.nodeAt k).seenBy outs i).pollInstance (r.slot i k)
      (outs.getD i .waits)).2 := by
    have hrun := (r.nodeAt k).getElem?_run outs (r.commenced_nodeAt k) i
    rw [hq] at hrun
    rw [slot, nodeAt, states, h, getD_eq_getElem?_getD]
    exact congrArg (Option.getD · Qemu.new) hrun
  have hentries : r.entries i k =
      ((r.nodeAt k).seenBy outs i).ops (r.slot i k) (outs.getD i .waits) := by
    rw [entries, h]
    show (r.nodeAt k).vms[i]?.elim _ _ = _
    rw [hq]
    rfl
  rw [hnext, hentries]
  exact VmNode.pollInstance_turn _ _ _

theorem length_nodeAt (k : Nat) : (r.nodeAt k).vms.length = (r.nodeAt 0).vms.length := by
  induction k with
  | zero => rfl
  | succ k ih =>
    rw [← ih]
    show ((r.nodeAt k).input (r.inputs k)).vms.length = _
    cases r.inputs k with
    | run outs =>
      rw [VmNode.input_run _ outs (r.commenced_nodeAt k)]
      exact length_sweep _ _ _ _ _
    | listen => rfl

theorem length_nodeAt_zero : (r.nodeAt 0).vms.length = r.node.vms.length := by
  have main : ∀ (qs : List (Qemu T D E)) (first : Bool) (outs : List (VmOutcome T D E)),
      (r.node.startFsms first qs outs).length = qs.length := by
    intro qs
    induction qs with
    | nil => exact fun _ _ => rfl
    | cons q qs ih => exact fun _ _ => congrArg Nat.succ (ih _ _)
  exact main r.node.vms true r.outs

end VmRun

/-! ## 2. Books -/

/-- The books of an instance: what an operation does to the test that is open. A trace is that of
    the open test only if it says so of itself where it goes back to an initial test. -/
def account [DecidableEq T] : Option (Item T) → QueueOp T D E → Option (Option (Item T))
  | none, .popTest t => some (some t)
  | some t, .putBack t' => if t' = t then some none else none
  | some t, .pushTrace tr => if tr.data.initial = t.initial then some none else none
  | some _, .pushError _ => some none
  | none, .pushError _ | none, .pushInitial _ => some none
  | _, _ => none

/-- Every test that the instance `i` takes is accounted for by exactly one operation. -/
def VmRun.Accounted [DecidableEq T] (r : VmRun T D E) (i : Nat) : Prop :=
  Settles account (r.entries i)

/-- No exception terminates an instance with a test, no test is given to an instance that is
    terminated, and no `VMException` comes from one that waits for a test after another
    `VMException`. -/
structure Qemu.Meets (n : VmNode T D E) (q : Qemu T D E) (out : VmOutcome T D E) : Prop where
  given : q.state = .nextTest → n.base.tests ≠ [] → q.terminated = false ∧
    ∀ log, out = .throws true log → ¬(q.distributed = true ∧ q.error = true)
  working : q.state = .testing ∨ q.state = .storeTrace → q.error = false →
    q.terminated = false → ∀ v log, out = .throws v log → v = true ∧ q.distributed = true

def VmRun.Meets (r : VmRun T D E) : Prop :=
  ∀ k outs, r.inputs k = .run outs → ∀ i, i < r.node.vms.length →
    (r.slot i k).Meets ((r.nodeAt k).seenBy outs i) (outs.getD i .waits)

/-- The node polls again and again, and every task of a test ends: it is done, or it throws. -/
structure VmRun.Ends (r : VmRun T D E) : Prop where
  polls : InfinitelyOften fun k => ∃ outs, r.inputs k = .run outs
  tasks : ∀ i k, (r.slot i k).state = .testing ∨ (r.slot i k).state = .storeTrace →
    (r.slot i k).error = false → (r.slot i k).terminated = false →
    ∃ m outs, k ≤ m ∧ r.inputs m = .run outs ∧ outs.getD i .waits ≠ .waits

/-! ## 3. An instance and its books -/

/-- What holds of an instance and the test that is open in its books. -/
structure Qemu.Held (q : Qemu T D E) (o : Option (Item T)) : Prop where
  log : q.error = true → q.errorLog.isSome = true
  idle : o = none → q.state.working = false
  busy : ∀ t, o = some t → q.state.working = true ∧ q.test = some t ∧ q.terminated = false
  trace : q.state = .finished → ∃ tr, q.trace = some tr ∧ tr.data.initial = q.test.any Item.initial

variable {n : VmNode T D E} {q q' : Qemu T D E} {out : VmOutcome T D E}
  {ops : List (QueueOp T D E)} {o : Option (Item T)}

/-- An instance without a test. -/
theorem Qemu.Held.of_idle (hlog : q.error = true → q.errorLog.isSome = true)
    (hs : q.state.working = false) : q.Held none where
  log := hlog
  idle _ := hs
  busy t h := by cases h
  trace hf := by rw [hf] at hs; cases hs

/-- An instance with a test. -/
theorem Qemu.Held.of_busy {t : Item T} (hlog : q.error = true → q.errorLog.isSome = true)
    (hs : q.state.working = true) (htest : q.test = some t) (hterm : q.terminated = false)
    (htrace : q.state = .finished →
      ∃ tr, q.trace = some tr ∧ tr.data.initial = q.test.any Item.initial) : q.Held (some t) where
  log := hlog
  idle h := by cases h
  busy t' h := by
    cases h
    exact ⟨hs, htest, hterm⟩
  trace := htrace

/-- Where an instance has no test, none is open in its books. -/
theorem Qemu.Held.eq_none (h : q.Held o) (hs : q.state.working = false) : o = none := by
  cases o with
  | none => rfl
  | some t => exact absurd (hs.symm.trans (h.busy t rfl).1) Bool.false_ne_true

theorem Qemu.begin_held (o : NodeOptions (Item T)) (first : Bool) (target : String)
    (pass : Option Nat) (q : Qemu T D E) (out : VmOutcome T D E) :
    (q.restart.begin o first target pass out).Held none := by
  cases out with
  | throws v log =>
    rw [Qemu.begin, Qemu.throw_eq]
    exact .of_idle (fun _ => rfl) rfl
  | waits | goes =>
    refine .of_idle (fun h => by cases h) ?_
    show (if o.distributed then _ else _ : QemuState).working = false
    cases o.distributed <;> rfl

/-- How far the state is from `NextTest`, for an instance with a test. -/
def QemuState.distance : QemuState → Nat
  | .testing => 3
  | .storeTrace => 2
  | .finished => 1
  | .start | .validateImage | .updateImage | .startVm | .connectVm | .rxGuestData
  | .guestDataRxed | .nextTest => 0

/-- How far the instance is from its next trace or error. -/
def Qemu.rank (q : Qemu T D E) : Nat := if q.error then 1 else q.state.distance

theorem Qemu.rank_eq (he : q.error = false) : q.rank = q.state.distance := by
  rw [Qemu.rank, he]
  rfl

/-- A poll of an instance that has a test in progress. -/
theorem Qemu.Held.poll_busy {t : Item T} (h : q.Held (some t)) (hf : q.state.flagged = false)
    (he : q.error = false) (hm : q.Meets n out) :
    (q.poll out).Held (some t) ∧ (out = .waits ∧ q.poll out = q ∨ (q.poll out).rank < q.rank) := by
  obtain ⟨hw, htest, hterm⟩ := h.busy t rfl
  have hstate : q.state = .testing ∨ q.state = .storeTrace := by
    rcases q.state.working_iff.1 hw with hs | hs | hs
    · exact .inl hs
    · exact .inr hs
    · rw [hs] at hf
      cases hf
  have hguard : q.state.guarded = true := by rcases hstate with hs | hs <;> rw [hs] <;> rfl
  have hrank : 1 < q.rank := by
    rw [Qemu.rank_eq he]
    rcases hstate with hs | hs <;> rw [hs] <;> decide
  rw [Qemu.poll_guarded hguard hterm]
  cases out with
  | waits => exact ⟨h, .inl ⟨rfl, rfl⟩⟩
  | throws v log =>
    -- by assumption the exception leads to `Error`, not to `Terminated`
    obtain ⟨rfl, hdist⟩ := hm.working hstate he hterm v log rfl
    show (q.throw true log).Held (some t) ∧ (_ ∨ (q.throw true log).rank < _)
    have hone : (q.throw true log).rank = 1 := by
      rw [Qemu.throw_eq, Qemu.rank, hdist, Bool.true_and, Bool.or_true]
      rfl
    rw [hone]
    refine ⟨?_, .inr hrank⟩
    rw [Qemu.throw_eq]
    refine .of_busy (fun _ => rfl) hw htest ?_ h.trace
    rw [hterm, hdist]
    rfl
  | goes v g u x =>
    show (q.advance v g u x).Held (some t) ∧ (_ ∨ (q.advance v g u x).rank < _)
    rcases hstate with hs | hs
    · have hadv : q.advance v g u x = { q with state := .storeTrace } := by
        rw [Qemu.advance, hs]
      have hlt : QemuState.storeTrace.distance < q.rank := by
        rw [Qemu.rank_eq he, hs]
        decide
      rw [hadv, Qemu.rank_eq (q := { q with state := .storeTrace }) he]
      refine ⟨.of_busy h.log rfl htest hterm fun h' => ?_, .inr hlt⟩
      cases h'
    · have hadv : q.advance v g u x =
          { q with state := .finished, trace := some (q.traceOf u x) } := by
        rw [Qemu.advance, hs]
      have hlt : QemuState.finished.distance < q.rank := by
        rw [Qemu.rank_eq he, hs]
        decide
      rw [hadv, Qemu.rank_eq (q := { q with state := .finished, trace := _ }) he]
      exact ⟨.of_busy h.log rfl htest hterm fun _ => ⟨_, rfl, rfl⟩, .inr hlt⟩

/-- A poll of an instance without a test. -/
theorem Qemu.Held.poll_idle (h : q.Held none) (out : VmOutcome T D E) : (q.poll out).Held none := by
  have hw := h.idle rfl
  unfold Qemu.poll
  split
  · exact h
  · cases hs : q.state with
    | testing | storeTrace | finished =>
      rw [hs] at hw
      cases hw
    | start | nextTest => exact h
    | updateImage | guestDataRxed => exact .of_idle h.log rfl
    | validateImage | startVm | connectVm | rxGuestData =>
      cases out with
      | waits => exact h
      | throws v log =>
        show (q.throw v log).Held none
        rw [Qemu.throw_eq]
        exact .of_idle (fun _ => rfl) hw
      | goes v g u x =>
        show (q.advance v g u x).Held none
        rw [Qemu.advance, hs]
        first
        | exact .of_idle h.log rfl
        | (cases v <;> exact .of_idle h.log rfl)
        | (show (if _ then q else _ : Qemu T D E).Held none
           split
           · exact h
           · cases hv : q.firstVm <;> exact .of_idle h.log rfl)

/-- The outcome moves an instance that works on a test. -/
def Qemu.Moves (q : Qemu T D E) (out : VmOutcome T D E) : Prop :=
  q.state = .testing ∨ q.state = .storeTrace → q.error = false → out ≠ .waits

theorem account_pushInitial [DecidableEq T] (ts : List (Item T)) :
    (ts.map (QueueOp.pushInitial (D := D) (E := E))).foldlM account none = some none := by
  induction ts with
  | nil => rfl
  | cons t ts ih => exact ih

/-- A test is handed over, or put back. -/
theorem Qemu.Held.given (h : q.Held none) (hs : q.state = .nextTest)
    (hterm : q.terminated = false) (t : Item T) (out : VmOutcome T D E) :
    if (q.nextTest t out).1 then (q.nextTest t out).2.Held (some t)
    else (q.nextTest t out).2.Held none := by
  have hw : q.state.working = false := by
    rw [hs]
    rfl
  unfold Qemu.nextTest
  rw [if_neg (Bool.eq_false_iff.1 hterm)]
  cases out with
  | waits => exact h
  | goes =>
    refine .of_busy h.log rfl rfl hterm fun h' => ?_
    cases h'
  | throws v log =>
    show (q.throw v log).Held none
    rw [Qemu.throw_eq]
    exact .of_idle (fun _ => rfl) hw

/-- **A turn**: what it does to the books, and to the rank while the test stays open. -/
theorem Qemu.Held.turn [DecidableEq T] (h : q.Held o) (hm : q.Meets n out)
    (t : VmTurn n q out ops q') :
    ∃ o', ops.foldlM account o = some o' ∧ q'.Held o' ∧
      (o.isSome → o'.isSome → ¬q.Moves out ∧ q' = q ∨ q'.rank < q.rank) := by
  -- where the books are closed there is nothing to say about the rank
  have closed : ∀ {o' : Option (Item T)} {p : Prop}, o' = none → o'.isSome = true → p := by
    intro o' p hnone hsome
    rw [hnone] at hsome
    cases hsome
  cases t with
  | finished hs =>
    cases o with
    | none =>
      have hw := h.idle rfl
      rw [hs] at hw
      cases hw
    | some t =>
      obtain ⟨hw, htest, hterm⟩ := h.busy t rfl
      obtain ⟨tr, htr, hinit⟩ := h.trace hs
      have hq : q.traceQueued = { q with state := .nextTest } := by
        rw [Qemu.traceQueued, hterm]
        rfl
      have hinit : tr.data.initial = t.initial := by
        rw [hinit, htest]
        rfl
      refine ⟨none, ?_, ?_, fun _ => closed rfl⟩
      · rw [htr]
        show (if tr.data.initial = t.initial then some none else none).bind _ = _
        rw [if_pos hinit]
        rfl
      · rw [hq]
        exact .of_idle h.log rfl
  | noTest hs =>
    obtain rfl := h.eq_none (by rw [hs]; rfl)
    exact ⟨none, rfl, h, closed rfl⟩
  | @taken t hs hhead hhandled =>
    obtain rfl := h.eq_none (by rw [hs]; rfl)
    have hne : n.base.tests ≠ [] := fun hnil => by
      rw [hnil] at hhead
      cases hhead
    have hnext := h.given hs (hm.given hs hne).1 t out
    rw [hhandled, if_pos rfl] at hnext
    exact ⟨some t, rfl, hnext, closed rfl⟩
  | @refused t hs hhead hhandled =>
    obtain rfl := h.eq_none (by rw [hs]; rfl)
    have hne : n.base.tests ≠ [] := fun hnil => by
      rw [hnil] at hhead
      cases hhead
    have hnext := h.given hs (hm.given hs hne).1 t out
    rw [hhandled, if_neg Bool.false_ne_true] at hnext
    refine ⟨none, ?_, hnext, closed rfl⟩
    show (if t = t then some none else none).bind _ = _
    rw [if_pos rfl]
    rfl
  | initial hs =>
    obtain rfl := h.eq_none (by rw [hs]; rfl)
    exact ⟨none, account_pushInitial _, h.poll_idle out, closed rfl⟩
  | restarted hf he =>
    obtain ⟨e, hlog⟩ := Option.isSome_iff_exists.1 (h.log he)
    refine ⟨none, ?_, Qemu.begin_held _ _ _ _ Qemu.new out, fun _ => closed rfl⟩
    rw [hlog]
    cases o <;> rfl
  | resting hf he hterm =>
    cases o with
    | none => exact ⟨none, rfl, h, closed rfl⟩
    | some t => exact absurd ((h.busy t rfl).2.2.symm.trans hterm) Bool.false_ne_true
  | polled hf he hterm =>
    cases o with
    | none => exact ⟨none, rfl, h.poll_idle out, closed rfl⟩
    | some t =>
      obtain ⟨hheld, hrank⟩ := h.poll_busy hf he hm
      refine ⟨some t, rfl, hheld, fun _ _ => ?_⟩
      rcases hrank with ⟨hwaits, hsame⟩ | hlt
      · refine .inl ⟨fun hmoves => ?_, hsame⟩
        rcases q.state.working_iff.1 (h.busy t rfl).1 with hs | hs | hs
        · exact hmoves (.inl hs) he hwaits
        · exact hmoves (.inr hs) he hwaits
        · rw [hs] at hf
          cases hf
      · exact .inr hlt

/-! ## 4. Runs are accounted for -/

theorem VmRun.slot_listen {r : VmRun T D E} {i k : Nat} {tests : List (Item T)}
    {traces : List (Trace (Item D))} {errors : List (Item E)} {target : String}
    {pass : Option Nat} {info : ImageInfo}
    (h : r.inputs k = .listen tests traces errors target pass info) :
    r.slot i (k + 1) = r.slot i k := by
  rw [VmRun.slot, VmRun.nodeAt, states, h]
  rfl

/-- A commencement opens no test. -/
theorem VmRun.slot_zero_held (r : VmRun T D E) (i : Nat) : (r.slot i 0).Held none := by
  have main : ∀ (qs : List (Qemu T D E)) (first : Bool) (outs : List (VmOutcome T D E)) (i : Nat),
      ((r.node.startFsms first qs outs).getD i .new).Held none := by
    intro qs
    induction qs with
    | nil => exact fun _ _ _ => .of_idle (fun h => by cases h) rfl
    | cons q qs ih =>
      intro first outs i
      cases i with
      | zero => exact Qemu.begin_held _ _ _ _ q _
      | succ i => exact ih _ _ i
  exact main r.node.vms true r.outs i

/-- If the instance stays as it is, there is a poll where it moves. -/
theorem VmRun.Ends.moves {r : VmRun T D E} (h : r.Ends) {i n : Nat}
    (hterm : (r.slot i n).terminated = false) :
    ∃ m outs, n ≤ m ∧ r.inputs m = .run outs ∧ (r.slot i n).Moves (outs.getD i .waits) := by
  by_cases hwork : ((r.slot i n).state = .testing ∨ (r.slot i n).state = .storeTrace) ∧
      (r.slot i n).error = false
  · obtain ⟨m, outs, hm, houts, hne⟩ := h.tasks i n hwork.1 hwork.2 hterm
    exact ⟨m, outs, hm, houts, fun _ _ => hne⟩
  · obtain ⟨m, hm, outs, houts⟩ := h.polls n
    exact ⟨m, outs, hm, houts, fun hs he => absurd ⟨hs, he⟩ hwork⟩

/-- **Every test is accounted for**, in every run in which no exception terminates an instance with
    a test and no test is given to a terminated instance, if every task ends. -/
theorem tests_accounted [DecidableEq T] (r : VmRun T D E) (hm : r.Meets) (he : r.Ends) :
    ∀ i, i < r.node.vms.length → r.Accounted i := by
  intro i hi
  have hlen : ∀ k, i < (r.nodeAt k).vms.length := by
    intro k
    rwa [r.length_nodeAt, r.length_nodeAt_zero]
  refine settles_of_progress Qemu.rank (r.slot_zero_held i) (fun k o hheld => ?_)
    fun n o hsame hheld => ?_
  · cases hin : r.inputs k with
    | run outs =>
      obtain ⟨o', ho', hheld', hrank⟩ := hheld.turn (hm k outs hin i hi) (r.slot_run hin (hlen k))
      exact ⟨o', ho', hheld', fun hs hs' => (hrank hs hs').imp And.right id⟩
    | listen =>
      have hslot : r.slot i (k + 1) = r.slot i k := r.slot_listen hin
      rw [hslot]
      refine ⟨o, ?_, hheld, fun _ _ => .inl rfl⟩
      rw [VmRun.entries, hin]
      rfl
  · cases o with
    | none => rfl
    | some t =>
      -- in the poll where the instance moves, its books are closed or its rank comes down
      obtain ⟨hwork, -, hterm⟩ := hheld.busy t rfl
      obtain ⟨m, outs, hnm, hin, hmoves⟩ := he.moves hterm
      have hturn := r.slot_run hin (hlen m)
      rw [hsame (m + 1) (Nat.le_succ_of_le hnm), hsame m hnm] at hturn
      have hmeets := hm m outs hin i hi
      rw [hsame m hnm] at hmeets
      obtain ⟨o', -, hheld', hrank⟩ := hheld.turn hmeets hturn
      cases o' with
      | none => exact absurd ((hheld'.idle rfl).symm.trans hwork) Bool.false_ne_true
      | some t' =>
        rcases hrank rfl rfl with h | h
        · exact absurd hmoves h.1
        · omega

/-- Tasks that never wait end. -/
theorem VmRun.ends_of_never_waits {r : VmRun T D E} (h : ∀ k, ∃ outs, r.inputs k = .run outs ∧
    ∀ i, i < r.node.vms.length → outs.getD i .waits ≠ .waits) : r.Ends := by
  constructor
  · intro k
    obtain ⟨outs, houts, -⟩ := h k
    exact ⟨k, Nat.le_refl k, outs, houts⟩
  · intro i k hs _ _
    obtain ⟨outs, houts, hne⟩ := h k
    refine ⟨k, outs, Nat.le_refl k, houts, hne i ?_⟩
    by_contra hi
    have hlen : (r.nodeAt k).vms.length ≤ i := by
      rw [r.length_nodeAt, r.length_nodeAt_zero]
      omega
    rw [VmRun.slot, getD_eq_getElem?_getD, getElem?_eq_none hlen] at hs
    rcases hs with hs | hs <;> cases hs

/-- Every task succeeds. -/
def smoothRun : VmRun Nat Nat Nat := ⟨exampleNode 0 false, [], fun _ => .run [exampleGoes]⟩

theorem smoothRun_steady : ∀ k, 7 ≤ k → smoothRun.nodeAt k = smoothRun.nodeAt 7 := by
  refine persists (fun k _ hk => ?_) rfl
  show (smoothRun.nodeAt k).input (.run [exampleGoes]) = _
  rw [hk]
  decide

theorem smoothRun_terminated (k : Nat) : (smoothRun.slot 0 k).terminated = false := by
  have hfirst : ∀ j, j < 8 → (smoothRun.slot 0 j).terminated = false := by decide
  rcases Nat.lt_or_ge k 8 with hk | hk
  · exact hfirst k hk
  · rw [VmRun.slot, smoothRun_steady k (Nat.le_of_succ_le hk)]
    exact hfirst 7 (by decide)

theorem tests_accounted_smooth : smoothRun.Meets ∧ smoothRun.Ends ∧ smoothRun.Accounted 0 := by
  have hmeets : smoothRun.Meets := by
    intro k outs houts i hi
    cases houts
    obtain rfl : i = 0 := Nat.lt_one_iff.1 hi
    refine ⟨fun _ _ => ⟨smoothRun_terminated k, fun log h => ?_⟩, fun _ _ _ v log h => ?_⟩
    · cases h
    · cases h
  have hends : smoothRun.Ends := by
    refine VmRun.ends_of_never_waits fun k => ⟨_, rfl, fun i hi h => ?_⟩
    obtain rfl : i = 0 := Nat.lt_one_iff.1 hi
    cases h
  exact ⟨hmeets, hends, tests_accounted smoothRun hmeets hends 0 (by decide)⟩

/-- The VM's process dies while the test runs, without distribution. -/
def crashRun : VmRun Nat Nat Nat :=
  ⟨exampleNode 0 false, [], fun k => .run [if k < 4 then exampleGoes else .throws true 0]⟩

/-- **A test that is lost**: it was popped, its instance is terminated, and nothing follows. -/
theorem test_lost : crashRun.Ends ∧ ¬crashRun.Accounted 0 := by
  constructor
  · refine VmRun.ends_of_never_waits fun k => ⟨_, rfl, fun i hi => ?_⟩
    obtain rfl : i = 0 := Nat.lt_one_iff.1 hi
    show (if k < 4 then exampleGoes else .throws true 0) ≠ .waits
    split <;> exact fun h => by cases h
  · intro h
    have hsteady : ∀ k, 5 ≤ k → crashRun.nodeAt k = crashRun.nodeAt 5 ∧
        journal (crashRun.entries 0) k = journal (crashRun.entries 0) 5 := by
      refine persists (fun k hk hboth => ?_) ⟨rfl, rfl⟩
      have hin : crashRun.inputs k = .run [.throws true 0] := by
        show VmInput.run [if k < 4 then exampleGoes else .throws true 0] = _
        rw [if_neg (by omega)]
      constructor
      · show (crashRun.nodeAt k).input (crashRun.inputs k) = _
        rw [hin, hboth.1]
        decide
      · rw [journal, hboth.2, VmRun.entries, hin, hboth.1]
        decide
    obtain ⟨m, hm, hzero⟩ := h 5
    rw [(hsteady m hm).2] at hzero
    revert hzero
    decide

end Crete.Cluster
