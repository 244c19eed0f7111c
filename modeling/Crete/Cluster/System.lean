/-
  File:      Crete/Cluster/System.lean
  Subject:   Dispatch together with the nodes it talks to.

  Each node reads the packets of dispatch in the order in which they were sent. A packet that asks
  for something is answered from the state that the node has reached when it has handled all
  packets before; dispatch waits for the reply. Between the packets of one step of dispatch, as
  between its steps, the nodes act as they like.

  * **`System.step_evolves`** -- a step of the system, for dispatch and for each node.
-/
import Crete.Cluster.Dispatch
import Crete.Cluster.Node

namespace Crete.Cluster

open Crete.Lib List Option Function

variable {T D E : Type}

/-! ## 1. Nodes and their packets -/

/-- A node of either type. -/
inductive Peer (T D E : Type) where
  | vm (n : VmNode T D E)
  | svm (n : SvmNode T D E)
  deriving DecidableEq, Repr

namespace Peer

/-- A node that was just constructed. -/
def new (type : NodeType) (others : Nat) (info : ImageInfo) : Peer T D E :=
  match type with
  | .vm => .vm (.new others info)
  | .svm => .svm (.new others)

def type : Peer T D E → NodeType
  | .vm _ => .vm
  | .svm _ => .svm

/-- The part that both types of nodes have. -/
def base : Peer T D E → Node T D E
  | .vm n => n.base
  | .svm n => n.base

def setBase (b : Node T D E) : Peer T D E → Peer T D E
  | .vm n => .vm { n with base := b }
  | .svm n => .svm { n with base := b }

end Peer

/-- A node, and the packets on their way to it. -/
structure Proc (T D E : Type) where
  peer : Peer T D E
  inbox : List (Message T D E)
  deriving DecidableEq, Repr

/-- What a node does on its own: its instances are polled, a retrieval ends, or the next packet is
    handled. -/
inductive Act (T D E : Type) where
  | runVm (outs : List (VmOutcome T D E))
  | runSvm (outs : List (SvmOutcome T E))
  | retrieved (i : Nat)
  | deliver (outs : List (VmOutcome T D E))
  deriving DecidableEq, Repr

namespace Proc

/-- The node acts. -/
def act (r : Proc T D E) (a : Act T D E) : Option (Proc T D E) :=
  match a, r.peer, r.inbox with
  | .runVm outs, .vm n, _ => some { r with peer := .vm (n.run outs) }
  | .runSvm outs, .svm n, _ => some { r with peer := .svm (n.run outs) }
  | .retrieved i, .svm n, _ => some { r with peer := .svm (n.retrieved i) }
  | .deliver outs, .vm n, m :: rest => some ⟨.vm (n.process outs m), rest⟩
  | .deliver _, .svm n, m :: rest => some ⟨.svm (n.process m), rest⟩
  | _, _, _ => none

variable [DecidableEq T] [DecidableEq D] [DecidableEq E] (sizes : Sizes T D E)

/-- Dispatch sends a packet, and waits for the reply if it asks for something. -/
def take (r : Proc T D E) (m : Message T D E) : Option (Proc T D E) :=
  match m with
  | .statusRequest reply => if r.inbox = [] ∧ reply = r.peer.base.status then some r else none
  | .traceRequest reply =>
    let t := transmit (fun t => sizes.trace t.data.data + 16) 0 r.peer.base.traces
    if r.inbox = [] ∧ reply = t.1 then
      some { r with peer := r.peer.setBase { r.peer.base with traces := t.2 } }
    else none
  | .testCaseRequest reply =>
    let t := transmit (fun t => sizes.test t.data) 0 r.peer.base.tests
    if r.inbox = [] ∧ reply = t.1 then
      some { r with peer := r.peer.setBase { r.peer.base with tests := t.2 } }
    else none
  | .errorLogRequest reply =>
    let t := transmit (fun e => sizes.error e.data) 0 r.peer.base.errors
    if r.inbox = [] ∧ reply = t.1 then
      some { r with peer := r.peer.setBase { r.peer.base with errors := t.2 } }
    else none
  | .imageInfoRequest reply =>
    match r.peer with
    | .vm n => if r.inbox = [] ∧ reply = n.imageInfo then some r else none
    | .svm _ => none
  | m => some { r with inbox := r.inbox ++ [m] }

end Proc

/-! ## 2. The system -/

/-- Dispatch, and the nodes by their numbers. -/
structure System (T D E : Type) where
  dispatcher : Dispatcher (Item T) (Item D) (Item E)
  procs : Nat → Proc T D E

/-- What a step of the system is given. `between` has, for each label of a step of dispatch, what
    the nodes do before it. -/
inductive SystemInput (T D E : Type) where
  | connect (type : NodeType) (others : Nat) (info : ImageInfo)
  | callBack
  | pushBack
  | poll (answers : Answers (Item T) (Item D) (Item E)) (reading : Reading) (elapsed : Nat)
      (between : List (List (Nat × Act T D E)))
  | act (k : Nat) (a : Act T D E)

namespace System

/-- Nodes act one after another; each action has to be allowed. -/
def acts (allowed : Proc T D E → Act T D E → Bool) :
    (Nat → Proc T D E) → List (Nat × Act T D E) → Option (Nat → Proc T D E)
  | ps, [] => some ps
  | ps, (k, a) :: rest =>
    if allowed (ps k) a then
      match (ps k).act a with
      | none => none
      | some r => acts allowed (update ps k r) rest
    else none

variable [DecidableEq T] [DecidableEq D] [DecidableEq E] (sizes : Sizes T D E)

/-- A label takes place. -/
def exchangeOne (ps : Nat → Proc T D E) :
    Label (Item T) (Item D) (Item E) → Option (Nat → Proc T D E)
  | .packet k m => ((ps k).take sizes m).map fun r => update ps k r
  | _ => some ps

/-- The labels of a step take place one after another, with what the nodes do before each. -/
def exchange (allowed : Proc T D E → Act T D E → Bool) : (Nat → Proc T D E) →
    List (Label (Item T) (Item D) (Item E)) → List (List (Nat × Act T D E)) →
    Option (Nat → Proc T D E)
  | ps, [], _ => some ps
  | ps, l :: ls, between =>
    match acts allowed ps (between.headD []) with
    | none => none
    | some ps =>
      match exchangeOne sizes ps l with
      | none => none
      | some ps => exchange allowed ps ls between.tail

/-- One step. -/
def step (env : Env (Item T) (Item D)) (s : System T D E) :
    SystemInput T D E → Option (System T D E × List (Label (Item T) (Item D) (Item E)))
  | .connect type others info =>
    let peer := Peer.new type others info
    (Cluster.step env s.dispatcher (.connect type peer.base.status)).map fun r =>
      (⟨r.1, update s.procs s.dispatcher.connected ⟨peer, []⟩⟩, r.2)
  | .callBack => (Cluster.step env s.dispatcher .callBack).map fun r => (⟨r.1, s.procs⟩, r.2)
  | .pushBack => (Cluster.step env s.dispatcher .pushBack).map fun r => (⟨r.1, s.procs⟩, r.2)
  | .poll answers reading elapsed between =>
    match Cluster.step env s.dispatcher (.poll answers reading elapsed) with
    | none => none
    | some r => (exchange sizes (fun _ _ => true) s.procs r.2 between).map fun ps =>
      (⟨r.1, ps⟩, r.2)
  | .act k a => ((s.procs k).act a).map fun r => (⟨s.dispatcher, update s.procs k r⟩, [])

/-- The system before any node has connected. -/
def init (o : Options (Item T)) : System T D E := ⟨.init o, fun _ => ⟨.svm (.new 0), []⟩⟩

/-- Every action of a node in this step is allowed. -/
def Allows (env : Env (Item T) (Item D)) (allowed : Proc T D E → Act T D E → Bool)
    (s : System T D E) : SystemInput T D E → Prop
  | .poll answers reading elapsed between =>
    ∀ r ∈ Cluster.step env s.dispatcher (.poll answers reading elapsed),
      (exchange sizes allowed s.procs r.2 between).isSome = true
  | .act k a => allowed (s.procs k) a = true
  | _ => True

end System

/-! ## 3. What a node goes through -/

section Serves

variable [DecidableEq T] [DecidableEq D] [DecidableEq E] (sizes : Sizes T D E)
  (allowed : Proc T D E → Act T D E → Bool)

/-- From `r` the node acts as it is allowed to and is sent the packets `ms`, in some order. -/
inductive Serves (r : Proc T D E) : List (Message T D E) → Proc T D E → Prop where
  | start : Serves r [] r
  | act {ms : List (Message T D E)} {r₁ r₂ : Proc T D E} {a : Act T D E}
      (before : Serves r ms r₁) (may : allowed r₁ a = true) (acts : r₁.act a = some r₂) :
      Serves r ms r₂
  | take {ms : List (Message T D E)} {r₁ r₂ : Proc T D E} {m : Message T D E}
      (before : Serves r ms r₁) (takes : r₁.take sizes m = some r₂) : Serves r (ms ++ [m]) r₂

/-- The packets to one node. -/
def packetsTo (k : Nat) (ls : List (Label (Item T) (Item D) (Item E))) : List (Message T D E) :=
  ls.filterMap fun
    | .packet j m => if j = k then some m else none
    | _ => none

variable {sizes allowed}

omit [DecidableEq T] [DecidableEq D] [DecidableEq E] in
theorem packetsTo_cons (k : Nat) (l : Label (Item T) (Item D) (Item E))
    (ls : List (Label (Item T) (Item D) (Item E))) :
    packetsTo k (l :: ls) = packetsTo k [l] ++ packetsTo k ls := by
  simp only [packetsTo]
  rw [← filterMap_append]
  rfl

/-- What nodes do before a label. -/
theorem System.acts_serves {k : Nat} {r : Proc T D E} {ms : List (Message T D E)} :
    ∀ {todo : List (Nat × Act T D E)} {ps ps' : Nat → Proc T D E},
      System.acts allowed ps todo = some ps' → Serves sizes allowed r ms (ps k) →
      Serves sizes allowed r ms (ps' k) := by
  intro todo
  induction todo with
  | nil =>
    intro ps ps' h hr
    cases h
    exact hr
  | cons x rest ih =>
    intro ps ps' h hr
    simp only [System.acts] at h
    split at h
    · rename_i may
      split at h
      · cases h
      · rename_i r' acts
        refine ih h ?_
        by_cases hk : k = x.1
        · subst hk
          rw [update_self]
          exact hr.act may acts
        · rw [update_of_ne hk]
          exact hr
    · cases h

/-- A label. -/
theorem System.exchangeOne_serves {k : Nat} {r : Proc T D E} {ms : List (Message T D E)}
    {l : Label (Item T) (Item D) (Item E)} {ps ps' : Nat → Proc T D E}
    (h : System.exchangeOne sizes ps l = some ps') (hr : Serves sizes allowed r ms (ps k)) :
    Serves sizes allowed r (ms ++ packetsTo k [l]) (ps' k) := by
  cases l with
  | packet j m =>
    obtain ⟨r', takes, rfl⟩ := map_eq_some_iff.1 h
    by_cases hk : j = k
    · subst hk
      simp only [packetsTo, filterMap_cons, if_true, filterMap_nil, update_self]
      exact hr.take takes
    · simp only [packetsTo, filterMap_cons, if_neg hk, filterMap_nil, append_nil,
        update_of_ne (Ne.symm hk)]
      exact hr
  | _ =>
    cases h
    simpa [packetsTo] using hr

/-- All labels of a step. -/
theorem System.exchange_serves {k : Nat} {r : Proc T D E} :
    ∀ {ls : List (Label (Item T) (Item D) (Item E))} {between : List (List (Nat × Act T D E))}
      {ps ps' : Nat → Proc T D E} {ms : List (Message T D E)},
      System.exchange sizes allowed ps ls between = some ps' → Serves sizes allowed r ms (ps k) →
      Serves sizes allowed r (ms ++ packetsTo k ls) (ps' k) := by
  intro ls
  induction ls with
  | nil =>
    intro between ps ps' ms h hr
    cases h
    simpa [packetsTo] using hr
  | cons l ls ih =>
    intro between ps ps' ms h hr
    simp only [System.exchange] at h
    split at h
    · cases h
    · rename_i ps₁ acts
      split at h
      · cases h
      · rename_i ps₂ one
        rw [packetsTo_cons, ← append_assoc]
        exact ih h (exchangeOne_serves one (acts_serves acts hr))

omit [DecidableEq T] [DecidableEq D] [DecidableEq E] in
/-- Actions that are allowed are the actions that take place. -/
theorem System.acts_eq : ∀ {todo : List (Nat × Act T D E)} {ps ps' : Nat → Proc T D E},
    System.acts allowed ps todo = some ps' →
    System.acts (fun _ _ => true) ps todo = some ps' := by
  intro todo
  induction todo with
  | nil => exact fun h => h
  | cons x rest ih =>
    intro ps ps' h
    simp only [System.acts] at h ⊢
    split at h
    · rw [if_pos trivial]
      split at h
      · cases h
      · exact ih h
    · cases h

theorem System.exchange_eq : ∀ {ls : List (Label (Item T) (Item D) (Item E))}
    {between : List (List (Nat × Act T D E))} {ps ps' : Nat → Proc T D E},
    System.exchange sizes allowed ps ls between = some ps' →
    System.exchange sizes (fun _ _ => true) ps ls between = some ps' := by
  intro ls
  induction ls with
  | nil => exact fun h => h
  | cons l ls ih =>
    intro between ps ps' h
    simp only [System.exchange] at h ⊢
    split at h
    · cases h
    · rename_i ps₁ acts
      rw [System.acts_eq acts]
      simp only
      split at h
      · cases h
      · exact ih h

end Serves

/-! ## 4. What a step can do -/

section Evolves

variable [DecidableEq T] [DecidableEq D] [DecidableEq E] (env : Env (Item T) (Item D))
  (sizes : Sizes T D E) (allowed : Proc T D E → Act T D E → Bool)

/-- The steps of the system in which the nodes do nothing that is not allowed. -/
inductive Evolves (s : System T D E) : SystemInput T D E → System T D E →
    List (Label (Item T) (Item D) (Item E)) → Prop where
  | connect {type : NodeType} {others : Nat} {info : ImageInfo}
      {d : Dispatcher (Item T) (Item D) (Item E)} {new : List (Label (Item T) (Item D) (Item E))}
      (moves : Moves env s.dispatcher
        (.connect type (Peer.new type others info : Peer T D E).base.status) d new) :
      Evolves s (.connect type others info)
        ⟨d, update s.procs s.dispatcher.connected ⟨.new type others info, []⟩⟩ new
  | callBack {d : Dispatcher (Item T) (Item D) (Item E)}
      {new : List (Label (Item T) (Item D) (Item E))}
      (moves : Moves env s.dispatcher .callBack d new) : Evolves s .callBack ⟨d, s.procs⟩ new
  | pushBack {d : Dispatcher (Item T) (Item D) (Item E)}
      {new : List (Label (Item T) (Item D) (Item E))}
      (moves : Moves env s.dispatcher .pushBack d new) : Evolves s .pushBack ⟨d, s.procs⟩ new
  | poll {answers : Answers (Item T) (Item D) (Item E)} {reading : Reading} {elapsed : Nat}
      {between : List (List (Nat × Act T D E))} {d : Dispatcher (Item T) (Item D) (Item E)}
      {new : List (Label (Item T) (Item D) (Item E))} {ps : Nat → Proc T D E}
      (polls : Polls env s.dispatcher answers reading d new)
      (serves : ∀ k, Serves sizes allowed (s.procs k) (packetsTo k new) (ps k)) :
      Evolves s (.poll answers reading elapsed between) ⟨d, ps⟩ new
  | act {k : Nat} {a : Act T D E} {ps : Nat → Proc T D E}
      (serves : ∀ j, Serves sizes allowed (s.procs j) [] (ps j)) :
      Evolves s (.act k a) ⟨s.dispatcher, ps⟩ []

variable {env sizes allowed}

/-- **A step is one of these.** -/
theorem System.step_evolves {s s' : System T D E} {i : SystemInput T D E}
    {new : List (Label (Item T) (Item D) (Item E))} (hok : s.Allows sizes env allowed i)
    (h : System.step sizes env s i = some (s', new)) : Evolves env sizes allowed s i s' new := by
  cases i with
  | connect type others info =>
    obtain ⟨r, hr, he⟩ := map_eq_some_iff.1 h
    cases he
    exact .connect (step_moves hr)
  | callBack =>
    obtain ⟨r, hr, he⟩ := map_eq_some_iff.1 h
    cases he
    exact .callBack (step_moves hr)
  | pushBack =>
    obtain ⟨r, hr, he⟩ := map_eq_some_iff.1 h
    cases he
    exact .pushBack (step_moves hr)
  | poll answers reading elapsed between =>
    simp only [System.step] at h
    split at h
    · cases h
    · rename_i r hr
      obtain ⟨ps, hps, he⟩ := map_eq_some_iff.1 h
      cases he
      obtain ⟨ps', hps'⟩ := isSome_iff_exists.1 (hok r hr)
      rw [System.exchange_eq hps'] at hps
      cases hps
      refine .poll (poll_polls hr) fun k => ?_
      have serves : Serves sizes allowed (s.procs k) ([] ++ packetsTo k r.2) (ps k) :=
        System.exchange_serves hps' .start
      exact serves
  | act k a =>
    obtain ⟨r, hr, he⟩ := map_eq_some_iff.1 h
    cases he
    refine .act fun j => ?_
    by_cases hj : j = k
    · subst hj
      rw [update_self]
      exact .act .start hok hr
    · rw [update_of_ne hj]
      exact .start

end Evolves

/-! ## 5. Commencement -/

/-- Whether a node has commenced when it has handled a packet. -/
def commences (b : Bool) : Message T D E → Bool
  | .reset => false
  | .commence => true
  | _ => b

/-- Whether a node has commenced when it has handled the packets on their way. -/
def Proc.commenced (r : Proc T D E) : Bool := r.inbox.foldl commences r.peer.base.commenced

theorem VmNode.process_commenced (n : VmNode T D E) (outs : List (VmOutcome T D E))
    (m : Message T D E) : (n.process outs m).base.commenced = commences n.base.commenced m := by
  cases m with
  | reset =>
    simp only [VmNode.process, VmNode.reset]
    split
    · rfl
    · rename_i h
      have hf : n.base.commenced = false := by simpa using h
      exact hf
  | _ => rfl

theorem SvmNode.process_commenced (n : SvmNode T D E) (m : Message T D E) :
    (n.process m).base.commenced = commences n.base.commenced m := by
  cases m <;> rfl

/-- The ways in which a node acts. -/
inductive Acts : Proc T D E → Act T D E → Proc T D E → Prop where
  | runVm {n : VmNode T D E} {inbox : List (Message T D E)} {outs : List (VmOutcome T D E)} :
      Acts ⟨.vm n, inbox⟩ (.runVm outs) ⟨.vm (n.run outs), inbox⟩
  | runSvm {n : SvmNode T D E} {inbox : List (Message T D E)} {outs : List (SvmOutcome T E)} :
      Acts ⟨.svm n, inbox⟩ (.runSvm outs) ⟨.svm (n.run outs), inbox⟩
  | retrieved {n : SvmNode T D E} {inbox : List (Message T D E)} {i : Nat} :
      Acts ⟨.svm n, inbox⟩ (.retrieved i) ⟨.svm (n.retrieved i), inbox⟩
  | deliverVm {n : VmNode T D E} {m : Message T D E} {rest : List (Message T D E)}
      {outs : List (VmOutcome T D E)} :
      Acts ⟨.vm n, m :: rest⟩ (.deliver outs) ⟨.vm (n.process outs m), rest⟩
  | deliverSvm {n : SvmNode T D E} {m : Message T D E} {rest : List (Message T D E)}
      {outs : List (VmOutcome T D E)} :
      Acts ⟨.svm n, m :: rest⟩ (.deliver outs) ⟨.svm (n.process m), rest⟩

/-- **A node acts in one of these ways.** -/
theorem Proc.act_acts {r r' : Proc T D E} {a : Act T D E} (h : r.act a = some r') :
    Acts r a r' := by
  obtain ⟨peer, inbox⟩ := r
  cases a with
  | runVm outs =>
    cases peer with
    | vm n =>
      cases h
      exact .runVm
    | svm n => cases h
  | runSvm outs =>
    cases peer with
    | vm n => cases h
    | svm n =>
      cases h
      exact .runSvm
  | retrieved i =>
    cases peer with
    | vm n => cases h
    | svm n =>
      cases h
      exact .retrieved
  | deliver outs =>
    cases inbox with
    | nil => cases peer <;> cases h
    | cons m rest =>
      cases peer with
      | vm n =>
        cases h
        exact .deliverVm
      | svm n =>
        cases h
        exact .deliverSvm

theorem Proc.act_commenced {r r' : Proc T D E} {a : Act T D E} (h : r.act a = some r') :
    r'.commenced = r.commenced := by
  cases Proc.act_acts h with
  | @runVm n inbox outs =>
    simp only [Proc.commenced, Peer.base, (VmNode.run_frame n outs).commenced]
  | runSvm => simp only [Proc.commenced, Peer.base, SvmNode.run_commenced]
  | retrieved => rfl
  | deliverVm => simp only [Proc.commenced, Peer.base, VmNode.process_commenced, foldl_cons]
  | deliverSvm => simp only [Proc.commenced, Peer.base, SvmNode.process_commenced, foldl_cons]

theorem Peer.setBase_base (b : Node T D E) (p : Peer T D E) : (p.setBase b).base = b := by
  cases p <;> rfl

/-- Packets that ask for a reply. -/
def asks : Message T D E → Bool
  | .statusRequest _ | .imageInfoRequest _ | .traceRequest _ | .testCaseRequest _
  | .errorLogRequest _ => true
  | _ => false

/-- The ways in which a packet is taken. -/
inductive Takes (r : Proc T D E) : Message T D E → Proc T D E → Prop where
  | send {m : Message T D E} (plain : asks m = false) :
      Takes r m { r with inbox := r.inbox ++ [m] }
  | status {reply : NodeStatus} (empty : r.inbox = []) (same : reply = r.peer.base.status) :
      Takes r (.statusRequest reply) r
  | imageInfo {reply : ImageInfo} (empty : r.inbox = []) : Takes r (.imageInfoRequest reply) r
  | traces {reply rest : List (Trace (Item D))} (empty : r.inbox = [])
      (parts : reply ++ rest = r.peer.base.traces) : Takes r (.traceRequest reply)
        { r with peer := r.peer.setBase { r.peer.base with traces := rest } }
  | tests {reply rest : List (Item T)} (empty : r.inbox = [])
      (parts : reply ++ rest = r.peer.base.tests) : Takes r (.testCaseRequest reply)
        { r with peer := r.peer.setBase { r.peer.base with tests := rest } }
  | errors {reply rest : List (Item E)} (empty : r.inbox = [])
      (parts : reply ++ rest = r.peer.base.errors) : Takes r (.errorLogRequest reply)
        { r with peer := r.peer.setBase { r.peer.base with errors := rest } }

section Commenced

variable [DecidableEq T] [DecidableEq D] [DecidableEq E] {sizes : Sizes T D E}
  {allowed : Proc T D E → Act T D E → Bool}

/-- **A packet is taken in one of these ways.** -/
theorem Proc.take_takes {r r' : Proc T D E} {m : Message T D E} (h : r.take sizes m = some r') :
    Takes r m r' := by
  cases m with
  | statusRequest reply =>
    simp only [Proc.take] at h
    split at h
    · rename_i hc
      cases h
      exact .status hc.1 hc.2
    · cases h
  | traceRequest reply =>
    simp only [Proc.take] at h
    split at h
    · rename_i hc
      cases h
      exact .traces hc.1 (by rw [hc.2]; exact transmit_append _ _ _)
    · cases h
  | testCaseRequest reply =>
    simp only [Proc.take] at h
    split at h
    · rename_i hc
      cases h
      exact .tests hc.1 (by rw [hc.2]; exact transmit_append _ _ _)
    · cases h
  | errorLogRequest reply =>
    simp only [Proc.take] at h
    split at h
    · rename_i hc
      cases h
      exact .errors hc.1 (by rw [hc.2]; exact transmit_append _ _ _)
    · cases h
  | imageInfoRequest reply =>
    simp only [Proc.take] at h
    split at h
    · split at h
      · rename_i hc
        cases h
        exact .imageInfo hc.1
      · cases h
    · cases h
  | _ =>
    cases h
    exact .send rfl

theorem Proc.take_commenced {r r' : Proc T D E} {m : Message T D E}
    (h : r.take sizes m = some r') : r'.commenced = commences r.commenced m := by
  cases Proc.take_takes h with
  | send plain => simp only [Proc.commenced, foldl_append, foldl_cons, foldl_nil]
  | status empty same | imageInfo empty => rfl
  | traces empty parts | tests empty parts | errors empty parts =>
    simp only [Proc.commenced, Peer.setBase_base, commences]

end Commenced

end Crete.Cluster
