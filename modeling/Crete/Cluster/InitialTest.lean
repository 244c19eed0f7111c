/-
  File:      Crete/Cluster/InitialTest.lean
  Subject:   The initial test of a VM node: which instances queue it after the node commences
             (`VMNode::start_FSMs`, `VMNode::poll`, lib/cluster/vm_node.cpp).

  The first instance reads the guest's configuration and queues the initial test. Without
  distribution the instances are not counted, so that each of them is the first. With it, an
  instance that replaces a failed one is not the first: if the first instance fails before it has
  the guest's data, nobody queues the initial test.

  * **`turn_weight`** -- a turn of such an instance queues the test, is hit by an exception, or
    leaves it pending; **`conserved`** is the same for a run.
  * **`initial_once_iff`** -- once the instances have connected, the test was queued exactly once
    iff with distribution no exception has hit the first instance while it was pending, and without
    it there is one instance.
-/
import Crete.Cluster.Turns

namespace Crete.Cluster

open Crete.Lib List

variable {T D E : Type}

/-! ## 1. Pending instances -/

/-- The operation queues the initial test. -/
def QueueOp.isInitial : QueueOp T D E → Bool
  | .pushInitial _ => true
  | _ => false

/-- An exception. -/
def VmOutcome.isThrow : VmOutcome T D E → Bool
  | .throws _ _ => true
  | _ => false

/-- A first instance that may still queue the initial test. -/
def Qemu.pending (q : Qemu T D E) : Bool :=
  q.firstVm && q.state.starting && !q.error && !q.terminated

/-- An exception hits a pending instance. -/
def Qemu.hit (q : Qemu T D E) (out : VmOutcome T D E) : Bool :=
  q.pending && q.state.guarded && out.isThrow

/-- The instance has come to wait for tests. -/
def Qemu.connected (q : Qemu T D E) : Bool := q.state = .nextTest || q.state.working

/-- How often an exception hits a pending instance in a run. -/
def VmNode.hits : VmNode T D E → List (VmInput T D E) → Nat
  | _, [] => 0
  | n, .run outs :: is =>
    (if n.base.commenced then tally (fun q out => (q.hit out).toNat) .waits n.vms outs else 0) +
      (n.input (.run outs)).hits is
  | n, i :: is => (n.input i).hits is

/-- What holds of the instances of a node that has commenced, with distribution or not. -/
structure Qemu.Started (distributed : Bool) (q : Qemu T D E) : Prop where
  mode : q.state.starting = true → q.distributed = distributed
  first : q.state = .rxGuestData ∨ q.state = .guestDataRxed → q.firstVm = true
  rxed : q.state = .guestDataRxed →
    q.error = false ∧ q.terminated = false ∧ q.initialTest.isSome = true

variable {d : Bool} {n : VmNode T D E} {q q' : Qemu T D E} {out : VmOutcome T D E}
  {ops : List (QueueOp T D E)}

/-- An instance that does not start up. -/
theorem Qemu.Started.of_not_starting (h : q.state.starting = false) : q.Started d where
  mode hs := absurd (h.symm.trans hs) Bool.false_ne_true
  first hs := by rcases hs with hs | hs <;> rw [hs] at h <;> cases h
  rxed hs := by rw [hs] at h; cases h

/-- `ev::start`. -/
theorem Qemu.begin_started (q : Qemu T D E) (hs : q.state = .start) (o : NodeOptions (Item T))
    (first : Bool) (target : String) (pass : Option Nat) (out : VmOutcome T D E) :
    (q.begin o first target pass out).Started o.distributed := by
  cases out with
  | throws v log =>
    refine .of_not_starting ?_
    rw [Qemu.begin, Qemu.throw_eq, hs]
    rfl
  | waits | goes =>
    refine ⟨fun _ => rfl, fun h => ?_, fun h => ?_⟩
    · exfalso
      revert h
      show (if _ then _ else _) = _ ∨ (if _ then _ else _) = _ → False
      split <;> simp
    · exfalso
      revert h
      show (if _ then _ else _) = _ → False
      split <;> simp

/-- A test is handed over: the instance waits, or works on it. -/
theorem Qemu.nextTest_state (q : Qemu T D E) (t : Item T) (out : VmOutcome T D E) :
    (q.nextTest t out).2.state = q.state ∨ (q.nextTest t out).2.state = .testing := by
  unfold Qemu.nextTest
  split
  · exact .inl rfl
  · cases out with
    | waits => exact .inl rfl
    | goes => exact .inr rfl
    | throws v log => exact .inl (q.throw_state v log)

theorem Qemu.nextTest_not_starting (hs : q.state = .nextTest) (t : Item T)
    (out : VmOutcome T D E) : (q.nextTest t out).2.state.starting = false := by
  rcases q.nextTest_state t out with h | h
  · rw [h, hs]
    rfl
  · rw [h]
    rfl

theorem Qemu.traceQueued_not_starting (hs : q.state = .finished) :
    q.traceQueued.state.starting = false := by
  unfold Qemu.traceQueued
  split
  · rw [hs]
    rfl
  · rfl

/-- `ev::poll` in the state `GuestDataRxed`. -/
theorem Qemu.poll_rxed (hs : q.state = .guestDataRxed) (ht : q.terminated = false)
    (out : VmOutcome T D E) : q.poll out = { q with state := .nextTest } := by
  unfold Qemu.poll
  rw [hs, ht]
  rfl

/-- The row that an instance takes while it starts up. -/
theorem Qemu.Started.advance (h : q.Started d) (he : q.error = false) (ht : q.terminated = false)
    (v : Bool) (g : T) (u : Nat) (x : D) : (q.advance v g u x).Started d := by
  unfold Qemu.advance
  cases hs : q.state with
  | validateImage =>
    have hm : q.distributed = d := h.mode (by rw [hs]; rfl)
    refine ⟨fun _ => hm, fun h' => ?_, fun h' => ?_⟩
    · cases v <;> rcases h' with h' | h' <;> cases h'
    · cases v <;> cases h'
  | startVm =>
    have hm : q.distributed = d := h.mode (by rw [hs]; rfl)
    refine ⟨fun _ => hm, fun h' => ?_, fun h' => ?_⟩
    · rcases h' with h' | h' <;> cases h'
    · cases h'
  | connectVm =>
    have hm : q.distributed = d := h.mode (by rw [hs]; rfl)
    show (if _ then q else _ : Qemu T D E).Started d
    split
    · exact h
    · cases hf : q.firstVm with
      | true =>
        refine ⟨fun _ => hm, fun _ => rfl, fun h' => ?_⟩
        cases h'
      | false => exact .of_not_starting rfl
  | rxGuestData =>
    have hm : q.distributed = d := h.mode (by rw [hs]; rfl)
    exact ⟨fun _ => hm, fun _ => h.first (.inl hs), fun _ => ⟨he, ht, rfl⟩⟩
  | testing | storeTrace => exact .of_not_starting rfl
  | start | updateImage | guestDataRxed | nextTest | finished => exact h

theorem Qemu.Started.poll (h : q.Started d) (hf : q.state.flagged = false) (he : q.error = false)
    (ht : q.terminated = false) (out : VmOutcome T D E) : (q.poll out).Started d := by
  cases hg : q.state.guarded with
  | true =>
    rw [Qemu.poll_guarded hg ht]
    cases out with
    | waits => exact h
    | goes v g u x => exact h.advance he ht v g u x
    | throws v log =>
      show (q.throw v log).Started d
      rw [Qemu.throw_eq]
      refine ⟨h.mode, h.first, fun hs => ?_⟩
      rw [show q.state = .guestDataRxed from hs] at hf
      cases hf
  | false =>
    unfold Qemu.poll
    rw [ht]
    cases hs : q.state with
    | updateImage =>
      refine ⟨fun _ => h.mode (by rw [hs]; rfl), fun h' => ?_, fun h' => ?_⟩
      · rcases h' with h' | h' <;> cases h'
      · cases h'
    | start => exact h
    | guestDataRxed | nextTest | finished =>
      rw [hs] at hf
      cases hf
    | validateImage | startVm | connectVm | rxGuestData | testing | storeTrace =>
      rw [hs] at hg
      cases hg

/-- **A turn keeps it.** -/
theorem Qemu.Started.turn (h : q.Started d) (hd : n.base.options.distributed = d)
    (t : VmTurn n q out ops q') : q'.Started d := by
  cases t with
  | finished hs => exact .of_not_starting (Qemu.traceQueued_not_starting hs)
  | noTest | resting => exact h
  | taken hs | refused hs => exact .of_not_starting (Qemu.nextTest_not_starting hs _ out)
  | initial hs =>
    rw [Qemu.poll_rxed hs (h.rxed hs).2.1]
    exact .of_not_starting rfl
  | restarted =>
    rw [← hd]
    exact Qemu.begin_started _ rfl _ _ _ _ _
  | polled hf he ht => exact h.poll hf he ht out

/-! ## 2. The weight of a node -/

theorem Qemu.pending_of_not_starting (h : q.state.starting = false) : q.pending = false := by
  rw [Qemu.pending, h, Bool.and_false]
  rfl

theorem Qemu.hit_of_not_pending (h : q.pending = false) : q.hit out = false := by
  rw [Qemu.hit, h]
  rfl

theorem Qemu.hit_of_not_guarded (h : q.state.guarded = false) : q.hit out = false := by
  rw [Qemu.hit, h, Bool.and_false]
  rfl

/-- An instance that takes a row is still pending, unless it was not the first. -/
theorem Qemu.advance_pending (q : Qemu T D E) (v : Bool) (g : T) (u : Nat) (x : D) :
    (q.advance v g u x).pending = q.pending := by
  unfold Qemu.advance
  cases hs : q.state with
  | validateImage => cases v <;> simp [Qemu.pending, hs, QemuState.starting]
  | startVm | rxGuestData | testing | storeTrace => simp [Qemu.pending, hs, QemuState.starting]
  | connectVm =>
    show (if _ then q else _ : Qemu T D E).pending = _
    split
    · rfl
    · cases hv : q.firstVm <;> simp [Qemu.pending, hv, hs, QemuState.starting]
  | start | updateImage | guestDataRxed | nextTest | finished => rfl

theorem countP_isInitial_pushInitial (ts : List (Item T)) :
    (ts.map (QueueOp.pushInitial (D := D) (E := E))).countP QueueOp.isInitial = ts.length := by
  rw [countP_map]
  exact countP_eq_length.2 fun _ _ => rfl

theorem VmNode.length_initial (n : VmNode T D E) (h : q.initialTest.isSome = true) :
    (n.initial q).length = 1 := by
  obtain ⟨t, ht⟩ := Option.isSome_iff_exists.1 h
  unfold VmNode.initial
  cases n.base.options.initialTc with
  | some => rfl
  | none =>
    rw [ht]
    rfl

/-- **A turn of a pending instance queues the initial test, is hit by an exception, or leaves it
    pending.** -/
theorem Qemu.Started.turn_weight (h : q.Started d) (t : VmTurn n q out ops q') :
    ops.countP QueueOp.isInitial + (q.hit out).toNat + q'.pending.toNat = q.pending.toNat := by
  cases t with
  | finished hs =>
    have hp : q.pending = false := Qemu.pending_of_not_starting (by rw [hs]; rfl)
    rw [Qemu.hit_of_not_pending hp, hp,
      Qemu.pending_of_not_starting (Qemu.traceQueued_not_starting hs)]
    cases q.trace <;> rfl
  | noTest hs =>
    have hp : q.pending = false := Qemu.pending_of_not_starting (by rw [hs]; rfl)
    rw [Qemu.hit_of_not_pending hp, hp]
    rfl
  | taken hs | refused hs =>
    have hp : q.pending = false := Qemu.pending_of_not_starting (by rw [hs]; rfl)
    rw [Qemu.hit_of_not_pending hp, hp,
      Qemu.pending_of_not_starting (Qemu.nextTest_not_starting hs _ out)]
    rfl
  | initial hs =>
    obtain ⟨he, ht, hi⟩ := h.rxed hs
    have hp : q.pending = true := by
      rw [Qemu.pending, h.first (.inr hs), hs, he, ht]
      rfl
    rw [countP_isInitial_pushInitial, n.length_initial hi,
      Qemu.hit_of_not_guarded (by rw [hs]; rfl), Qemu.poll_rxed hs ht,
      Qemu.pending_of_not_starting rfl, hp]
    rfl
  | restarted hf he =>
    have hp : q.pending = false := by
      rw [Qemu.pending, he, Bool.not_true, Bool.and_false]
      rfl
    have hp' : (Qemu.new.begin n.base.options false n.target n.pass out).pending = false := by
      cases out <;> rfl
    rw [Qemu.hit_of_not_pending hp, hp, hp']
    cases q.errorLog <;> rfl
  | resting hf he ht =>
    have hp : q.pending = false := by
      rw [Qemu.pending, ht, Bool.not_true, Bool.and_false]
    rw [Qemu.hit_of_not_pending hp, hp]
    rfl
  | polled hf he ht =>
    cases hg : q.state.guarded with
    | true =>
      rw [Qemu.poll_guarded hg ht, Qemu.hit, hg]
      cases out with
      | waits => simp [VmOutcome.isThrow]
      | goes v g u x => simp [VmOutcome.isThrow, Qemu.advance_pending]
      | throws v log =>
        -- either region of the exception takes the instance out of the count
        have hp : (q.throw v log).pending = false := by
          rw [Qemu.throw_eq, Qemu.pending]
          cases v && q.distributed <;> simp
        simp [VmOutcome.isThrow, hp]
    | false =>
      rw [Qemu.hit_of_not_guarded hg]
      unfold Qemu.poll
      rw [ht]
      cases hs : q.state with
      | updateImage => simp [Qemu.pending, hs, ht, QemuState.starting]
      | start => simp
      | guestDataRxed | nextTest | finished =>
        rw [hs] at hf
        cases hf
      | validateImage | startVm | connectVm | rxGuestData | testing | storeTrace =>
        rw [hs] at hg
        cases hg

/-- The pending instances. -/
def weight (qs : List (Qemu T D E)) : Nat := (qs.map fun q => q.pending.toNat).sum

theorem weight_cons (q : Qemu T D E) (qs : List (Qemu T D E)) :
    weight (q :: qs) = q.pending.toNat + weight qs := by
  rw [weight, map_cons, sum_cons]
  rfl

theorem weight_eq_zero {qs : List (Qemu T D E)} (h : ∀ q ∈ qs, q.pending = false) :
    weight qs = 0 := by
  induction qs with
  | nil => rfl
  | cons q qs ih =>
    rw [weight_cons, h q (.head _), ih (forall_mem_cons.1 h).2]
    rfl

/-- What holds of a node that has commenced. -/
structure VmNode.Begun (d : Bool) (n : VmNode T D E) : Prop where
  commenced : n.base.commenced = true
  distributed : n.base.options.distributed = d
  vms : ∀ q ∈ n.vms, q.Started d

theorem VmNode.pollInstance_distributed (n : VmNode T D E) (q : Qemu T D E)
    (out : VmOutcome T D E) (h : n.base.options.distributed = d) :
    (n.pollInstance q out).1.base.options.distributed = d := by
  rw [(n.pollInstance_frame q out).options, h]

/-- A poll: the induction is over the instances, each in its turn. -/
theorem pollOps_conserved (qs : List (Qemu T D E)) : ∀ {n : VmNode T D E}
    (outs : List (VmOutcome T D E)), n.base.options.distributed = d → (∀ q ∈ qs, q.Started d) →
    (n.pollOps qs outs).countP QueueOp.isInitial +
      tally (fun q out => (q.hit out).toNat) .waits qs outs +
      weight (sweep VmNode.pollInstance .waits n qs outs).2 = weight qs := by
  induction qs with
  | nil => exact fun _ _ _ => rfl
  | cons q qs ih =>
    intro n outs hd hqs
    have hone := (hqs q (.head _)).turn_weight (n.pollInstance_turn q (outs.headD .waits))
    have hrest := ih outs.tail (n.pollInstance_distributed q (outs.headD .waits) hd)
      (forall_mem_cons.1 hqs).2
    rw [VmNode.pollOps, tally, sweep, countP_append, weight_cons, weight_cons]
    omega

/-- An input keeps it. -/
theorem VmNode.Begun.input (h : n.Begun d) (i : VmInput T D E) : (n.input i).Begun d := by
  cases i with
  | listen => exact ⟨h.commenced, h.distributed, h.vms⟩
  | run outs =>
    have hframe := n.run_frame outs
    refine ⟨hframe.commenced.trans h.commenced, ?_, fun q' hq' => ?_⟩
    · show (n.run outs).base.options.distributed = d
      rw [hframe.options, h.distributed]
    · rw [n.input_run outs h.commenced] at hq'
      obtain ⟨q, hq, m, out, hm, rfl⟩ := mem_sweep
        (P := fun m : VmNode T D E => m.base.options.distributed = d)
        VmNode.pollInstance_distributed n.vms outs h.distributed q' hq'
      exact (h.vms q hq).turn hm (m.pollInstance_turn q out)

/-- **A run: what the pending instances of the start have become.** -/
theorem VmNode.Begun.conserved (is : List (VmInput T D E)) : ∀ {n : VmNode T D E}, n.Begun d →
    (n.history is).countP QueueOp.isInitial + n.hits is + weight (n.inputs is).vms =
      weight n.vms := by
  induction is with
  | nil => exact fun _ => Nat.zero_add _
  | cons i is ih =>
    intro n h
    have hrest := ih (h.input i)
    cases i with
    | listen => exact hrest
    | run outs =>
      have hone := pollOps_conserved n.vms outs h.distributed h.vms
      rw [← n.input_run outs h.commenced] at hone
      rw [VmNode.history, VmNode.hits, if_pos h.commenced, if_pos h.commenced, countP_append]
      show _ + weight ((n.input (.run outs)).inputs is).vms = _
      omega

/-! ## 3. Instances that never connect -/

/-- The instance is terminated before it has connected: nothing happens to it any more. -/
def Qemu.dead (q : Qemu T D E) : Bool :=
  q.terminated && !q.error && !q.state.flagged && !q.state.working

open Qemu

theorem Qemu.dead_iff : q.dead = true ↔
    q.terminated = true ∧ q.error = false ∧ q.state.flagged = false ∧ q.state.working = false := by
  simp [dead, and_assoc]

theorem Qemu.dead_not_connected (h : q.dead = true) : q.connected = false := by
  obtain ⟨-, -, hf, hw⟩ := dead_iff.1 h
  have hnext : q.state ≠ .nextTest := by
    intro hs
    rw [hs] at hf
    cases hf
  rw [connected, hw, Bool.or_false, decide_eq_false hnext]

theorem Qemu.dead_turn (h : q.dead = true) (t : VmTurn n q out ops q') : q' = q := by
  obtain ⟨ht, he, hf, -⟩ := dead_iff.1 h
  cases t with
  | noTest | resting => rfl
  | finished hs | taken hs | refused hs | initial hs =>
    rw [hs] at hf
    cases hf
  | restarted _ he' => exact absurd (he.symm.trans he') Bool.false_ne_true
  | polled _ _ ht' => exact absurd (ht'.symm.trans ht) Bool.false_ne_true

theorem VmNode.Begun.dead_inputs (is : List (VmInput T D E)) : ∀ {n : VmNode T D E}, n.Begun d →
    q ∈ n.vms → q.dead = true → q ∈ (n.inputs is).vms := by
  induction is with
  | nil => exact fun _ hq _ => hq
  | cons i is ih =>
    intro n h hq hdead
    refine ih (h.input i) ?_ hdead
    cases i with
    | listen => exact hq
    | run outs =>
      rw [n.input_run outs h.commenced]
      obtain ⟨m, out, -, hm⟩ := exists_mem_sweep (P := fun _ : VmNode T D E => True)
        (fun _ _ _ h => h) n.vms outs trivial q hq
      rwa [dead_turn hdead (m.pollInstance_turn q out)] at hm

/-- All instances have connected, so that none of them was dead. -/
theorem VmNode.Begun.not_dead (h : n.Begun d) (is : List (VmInput T D E))
    (hc : ∀ q ∈ (n.inputs is).vms, q.connected = true) (hq : q ∈ n.vms) : q.dead = false := by
  cases hdead : q.dead with
  | false => rfl
  | true =>
    have hq' := hc q (h.dead_inputs is hq hdead)
    exact absurd ((dead_not_connected hdead).symm.trans hq') Bool.false_ne_true

/-- Without distribution every exception terminates its instance. -/
theorem Qemu.Started.dead_of_hit (h : q.Started false) (hhit : q.hit out = true)
    (t : VmTurn n q out ops q') : q'.dead = true := by
  obtain ⟨⟨hp, hg⟩, hthrow⟩ : (q.pending = true ∧ q.state.guarded = true) ∧ out.isThrow = true := by
    simpa [hit] using hhit
  obtain ⟨⟨⟨-, hs⟩, he⟩, ht⟩ : ((q.firstVm = true ∧ q.state.starting = true) ∧ q.error = false) ∧
      q.terminated = false := by
    simpa [pending] using hp
  cases t with
  | finished hs' | noTest hs' | taken hs' | refused hs' | initial hs' =>
    rw [hs'] at hg
    cases hg
  | restarted _ he' => exact absurd (he.symm.trans he') Bool.false_ne_true
  | resting _ _ ht' => exact absurd (ht.symm.trans ht') Bool.false_ne_true
  | polled hf =>
    rw [poll_guarded hg ht]
    cases out with
    | waits | goes => cases hthrow
    | throws v log =>
      show (q.throw v log).dead = true
      have hw : q.state.working = false := by
        cases hq : q.state <;> rw [hq] at hs <;> first | rfl | cases hs
      rw [throw_eq, dead_iff]
      simp [h.mode hs, he, hf, hw]

/-- Without distribution no exception hits a pending instance if they all connect. -/
theorem VmNode.Begun.hits_eq_zero (is : List (VmInput T D E)) : ∀ {n : VmNode T D E},
    n.Begun false → (∀ q ∈ (n.inputs is).vms, q.connected = true) → n.hits is = 0 := by
  induction is with
  | nil => exact fun _ _ => rfl
  | cons i is ih =>
    intro n h hc
    have hrest := ih (h.input i) hc
    cases i with
    | listen => exact hrest
    | run outs =>
      rw [VmNode.hits, if_pos h.commenced, hrest, Nat.add_zero, tally_eq_zero_iff]
      intro i q hq
      cases hhit : q.hit (outs.getD i .waits) with
      | false => rfl
      | true =>
        have hmem : q ∈ n.vms := mem_of_getElem? hq
        have hafter := n.getElem?_run outs h.commenced i
        rw [hq] at hafter
        have hdead := (h.vms q hmem).dead_of_hit hhit
          ((n.seenBy outs i).pollInstance_turn q (outs.getD i .waits))
        have hnot := (h.input (.run outs)).not_dead is hc (mem_of_getElem? hafter)
        exact absurd (hnot.symm.trans hdead) Bool.false_ne_true

/-! ## 4. The commencement -/

theorem VmNode.startFsms_started (n : VmNode T D E) (qs : List (Qemu T D E)) :
    ∀ (first : Bool) (outs : List (VmOutcome T D E)), ∀ q ∈ n.startFsms first qs outs,
      q.Started n.base.options.distributed := by
  induction qs with
  | nil => exact fun _ _ q hq => by cases hq
  | cons p qs ih =>
    intro first outs q hq
    rcases mem_cons.1 hq with rfl | hq
    · exact begin_started _ rfl _ _ _ _ _
    · exact ih _ _ q hq

theorem VmNode.commence_begun (n : VmNode T D E) (outs : List (VmOutcome T D E)) :
    (n.process outs .commence).Begun n.base.options.distributed :=
  ⟨rfl, rfl, n.startFsms_started n.vms true outs⟩

theorem Qemu.begin_pending (q : Qemu T D E) (o : NodeOptions (Item T)) (first : Bool)
    (target : String) (pass : Option Nat) (out : VmOutcome T D E)
    (h : (q.restart.begin o first target pass out).dead = false) :
    (q.restart.begin o first target pass out).pending = first := by
  cases out with
  | throws v log =>
    rw [begin, throw_eq] at h
    cases h
  | waits | goes =>
    show (first && (if o.distributed then _ else _ : QemuState).starting && _ && _) = first
    cases o.distributed <;> cases first <;> rfl

/-- The pending instances of a commencement: with distribution one, without it all. -/
theorem VmNode.weight_startFsms (n : VmNode T D E) (qs : List (Qemu T D E)) :
    ∀ (first : Bool) (outs : List (VmOutcome T D E)),
      (∀ q ∈ n.startFsms first qs outs, q.dead = false) →
      weight (n.startFsms first qs outs) =
        if first then if n.base.options.distributed then min 1 qs.length else qs.length else 0 := by
  induction qs with
  | nil =>
    intro first outs _
    cases first <;> cases n.base.options.distributed <;> rfl
  | cons q qs ih =>
    intro first outs h
    have hrest := ih (first && !n.base.options.distributed) outs.tail (forall_mem_cons.1 h).2
    rw [VmNode.startFsms, weight_cons, hrest, begin_pending q _ _ _ _ _ (h _ (.head _))]
    cases first <;> cases n.base.options.distributed <;> simp
    omega

/-- **The initial test is queued exactly once** by an instance of a node that has commenced, by the
    time that all instances have connected, iff with distribution no exception has hit the first
    instance before it had the guest's data, and without it there is one instance. -/
theorem initial_once_iff (n : VmNode T D E) (outs : List (VmOutcome T D E))
    (is : List (VmInput T D E)) (hvms : n.vms ≠ [])
    (hc : ∀ q ∈ ((n.process outs .commence).inputs is).vms, q.connected = true) :
    ((n.process outs .commence).history is).countP QueueOp.isInitial = 1 ↔
      if n.base.options.distributed then (n.process outs .commence).hits is = 0
      else n.vms.length = 1 := by
  have hbegun := n.commence_begun outs
  have hcons := hbegun.conserved is
  have hend : weight ((n.process outs .commence).inputs is).vms = 0 := by
    refine weight_eq_zero fun q hq => pending_of_not_starting ?_
    have hstate := hc q hq
    cases hs : q.state <;> simp [connected, hs, QemuState.working] at hstate <;> rfl
  have hstart := n.weight_startFsms n.vms true outs fun q hq => hbegun.not_dead is hc hq
  rw [if_pos rfl] at hstart
  have hlen : 0 < n.vms.length := length_pos_iff.2 hvms
  rw [hend] at hcons
  change _ = weight (n.startFsms true n.vms outs) at hcons
  rw [hstart] at hcons
  cases hd : n.base.options.distributed with
  | true =>
    rw [hd, if_pos rfl] at hcons
    rw [if_pos rfl]
    omega
  | false =>
    rw [hd] at hbegun
    have hhits := hbegun.hits_eq_zero is hc
    rw [hd, hhits, if_neg Bool.false_ne_true] at hcons
    rw [if_neg Bool.false_ne_true]
    omega

theorem initial_once_iff_goes :
    let n := exampleNode 0 true
    let is := replicate 5 (VmInput.run [exampleGoes])
    (n.vms ≠ [] ∧ (∀ q ∈ ((n.process [] .commence).inputs is).vms, q.connected = true) ∧
      (n.process [] .commence).hits is = 0) ∧
      ((n.process [] .commence).history is).countP QueueOp.isInitial = 1 := by
  have hvms : (exampleNode 0 true).vms ≠ [] := by decide
  have hc : ∀ q ∈ (((exampleNode 0 true).process [] .commence).inputs
      (replicate 5 (VmInput.run [exampleGoes]))).vms, q.connected = true := by decide
  have hhits : ((exampleNode 0 true).process [] .commence).hits
      (replicate 5 (VmInput.run [exampleGoes])) = 0 := by decide
  exact ⟨⟨hvms, hc, hhits⟩, (initial_once_iff _ [] _ hvms hc).2 hhits⟩

/-- With distribution, the first instance fails to connect to its VM and is replaced: all instances
    connect and the initial test is never queued. Without it, two instances queue it twice. -/
theorem initial_test_missed_or_repeated : (let n := (exampleNode 0 true).process [] .commence
     let is := [.run [exampleGoes], .run [exampleGoes], .run [.throws true 0], .run []] ++
       replicate 3 (VmInput.run [exampleGoes])
     (n.inputs is).vms.all connected = true ∧ (n.history is).countP QueueOp.isInitial = 0) ∧
    (let n := (exampleNode 1 false).process [] .commence
     let is := replicate 3 (VmInput.run [exampleGoes, exampleGoes])
     (n.inputs is).vms.all connected = true ∧ (n.history is).countP QueueOp.isInitial = 2) := by
  decide

end Crete.Cluster
