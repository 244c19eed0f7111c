/-
  File:      Crete/Cluster/Isolation.lean
  Subject:   Items of one target in the pools and logs of a later one.

  Errors, a retrieval and a buffer can outlive a reset, and then reach dispatch under the next
  target; nothing else can.

  * `Separate` -- the pools, the batches and the nodes of all machines hold nothing of another pass.
  * **`run_isolated`** -- runs in which every node acts harmlessly.
  * `error_survives` -- without it, an error of the first target is logged under the second.
-/
import Crete.Cluster.Provenance

namespace Crete.Cluster

open Crete.Lib List Function

variable {T D E : Type}

/-! ## 1. Dispatch -/

/-- The pools hold nothing of another pass. -/
structure Pools.Of (p : Nat) (q : Pools (Item T) (Item D)) : Prop where
  tests : ∀ t ∈ q.tests.waiting, t.Of p
  files : ∀ u x, q.files u = some x → x.Of p

/-- The batches that were received from a VM node. -/
structure VmFsm.Of (p : Nat) (f : VmFsm (Item D) (Item E)) : Prop where
  traces : ∀ t ∈ f.traces, t.data.Of p
  errors : ∀ e ∈ f.errors, e.Of p

/-- The batches that were received from an SVM node. -/
structure SvmFsm.Of (p : Nat) (f : SvmFsm (Item T) (Item E)) : Prop where
  tests : ∀ t ∈ f.tests, t.Of p
  errors : ∀ e ∈ f.errors, e.Of p

/-- The node was told to commence. -/
def VmState.Past (s : VmState) : Prop := ¬ s.Early ∧ s ≠ .commence

/-- The node was told to commence. -/
def SvmState.Past (s : SvmState) : Prop := ¬ s.Early ∧ s ≠ .commence

/-- What driving a node leaves, and what it shows beside the packets. -/
structure Handled (p : Nat) (pools : Pools (Item T) (Item D))
    (ls : List (Label (Item T) (Item D) (Item E))) : Prop where
  pools : pools.Of p
  labels : ∀ l ∈ ls, l.Of p ∧ l.passAfter p = p

section Drive

variable {p : Nat} {env : Env (Item T) (Item D)} {pools : Pools (Item T) (Item D)}
  {status : NodeStatus} {a : Answers (Item T) (Item D) (Item E)} {reading : Reading}

theorem Pools.Of.new : (Pools.new : Pools (Item T) (Item D)).Of p := ⟨nofun, nofun⟩

theorem Handled.nil (hp : pools.Of p) :
    Handled p pools ([] : List (Label (Item T) (Item D) (Item E))) := ⟨hp, nofun⟩

/-- Labels of one kind that starts no pass. -/
theorem Handled.map {α : Type} (hp : pools.Of p) {xs : List α}
    {c : α → Label (Item T) (Item D) (Item E)} (hc : ∀ x ∈ xs, (c x).Of p)
    (hpass : ∀ x, (c x).passAfter p = p) : Handled p pools (xs.map c) := by
  refine ⟨hp, fun l hl => ?_⟩
  obtain ⟨x, hx, rfl⟩ := mem_map.1 hl
  exact ⟨hc x hx, hpass x⟩

theorem Pools.Of.toTracePool (hp : pools.Of p) {t : Trace (Item D)} (ht : t.data.Of p) :
    (pools.toTracePool env t).Of p := by
  refine ⟨hp.tests, fun u x hx => ?_⟩
  simp only [Pools.toTracePool, update_apply] at hx
  split at hx
  · cases hx
    exact ht
  · exact hp.files u x hx

theorem Pools.Of.foldl_toTracePool {ts : List (Trace (Item D))} :
    ∀ {pools : Pools (Item T) (Item D)}, pools.Of p → (∀ t ∈ ts, t.data.Of p) →
      (ts.foldl (Pools.toTracePool env) pools).Of p := by
  induction ts with
  | nil => exact fun hp _ => hp
  | cons t ts ih =>
    intro pools hp ht
    exact ih (hp.toTracePool (ht t (.head _))) fun u hu =>
      ht u (mem_cons_of_mem t hu)

theorem Pools.Of.insertAll (hp : pools.Of p) {ts : List (Item T)} (ht : ∀ t ∈ ts, t.Of p) :
    Pools.Of p { pools with tests := pools.tests.insertAll env.admitsTest ts } := by
  refine ⟨fun t h => ?_, hp.files⟩
  obtain h | h := Fifo.mem_waiting_insertAll _ h
  · exact hp.tests t h
  · exact ht t h

/-- Traces that are read back. -/
theorem Pools.Of.nextTraces (hp : pools.Of p) (room : Nat) :
    (pools.nextTraces env reading room).2.Of p ∧
      ∀ t ∈ (pools.nextTraces env reading room).1.filterMap Prod.snd, t.data.Of p := by
  have hspec := Fifo.drawUpTo_spec (Pools.nextTrace env reading pools.traces.seen)
    (I := fun files => ∀ u x, files u = some x → x.Of p) (Q := fun t => t.data.Of p) ?_ ?_
    (pools.traces.waiting.insertionSort fun s t => reading.score s.uuid ≤ reading.score t.uuid)
    room pools.files hp.files
  · refine ⟨⟨hp.tests, hspec.1⟩, fun t ht => ?_⟩
    obtain ⟨x, hx, he⟩ := mem_filterMap.1 ht
    exact hspec.2 x hx t he
  · intro files t hf u x hx
    unfold Pools.nextTrace Pools.fromTraceFile at hx
    split at hx
    · exact hf u x hx
    split at hx
    · exact hf u x hx
    · simp only [update_apply] at hx
      split at hx
      · cases hx
      · exact hf u x hx
  · intro files t y hf hy
    unfold Pools.nextTrace Pools.fromTraceFile at hy
    split at hy
    · cases hy
    split at hy
    · cases hy
    · rename_i data hd
      simp only at hy
      split at hy
      · cases hy
      · cases hy
        exact hf _ _ hd

theorem Early.safe {m : Message T D E} (h : Packet.Early m) (b : Bool) : Safe p b m := by
  cases m <;> first | exact h.elim | trivial

/-- A batch, unless it is empty, and the request for the status after it. -/
theorem safe_batch {b empty : Bool} {batch m : Message T D E} {s : NodeStatus}
    (h : Safe p b batch) (hm : m ∈ (if empty then [] else [batch]) ++ [.statusRequest s]) :
    Safe p b m := by
  obtain hm | hm := mem_append.1 hm
  · split at hm
    · cases hm
    · rw [mem_singleton.1 hm]
      exact h
  · rw [mem_singleton.1 hm]
    trivial

section Vm

variable {f : VmFsm (Item D) (Item E)} {r : Pools (Item T) (Item D) ×
    Moved (VmFsm (Item D) (Item E)) (Item T) (Item D) (Item E) ×
    List (Label (Item T) (Item D) (Item E))} (h : VmDrive env pools status a f r)

include h

/-- What dispatch shows beside the packets is no packet. -/
theorem VmDrive.plain : ∀ l ∈ r.2.2, ∀ k m, l ≠ .packet k m := by
  cases h <;> simp

/-- The packets to a VM node. -/
theorem VmDrive.safe (hp : pools.Of p) {b : Bool} (hb : f.state.Past → b = true) :
    ∀ m ∈ r.2.1.sent, Safe p b m := by
  cases h with
  | early source dest node packets => exact fun m hm => Early.safe (packets m hm) b
  | @txTest room tests rest source taken =>
    have hpast : f.state.Past := by
      rw [source]
      exact ⟨id, nofun⟩
    have htests : tests = pools.tests.waiting.take room := by
      rw [Fifo.takeUpTo_eq] at taken
      exact (Prod.mk.inj taken).1.symm
    have hsafe : Safe p b (.testCase tests : Message T D E) := by
      rw [htests]
      exact ⟨hb hpast, fun t ht => hp.tests t (mem_of_mem_take ht)⟩
    exact fun m hm => safe_batch hsafe hm
  | _ => simp [Safe]

/-- A node is told to commence before its machine goes past it. -/
theorem VmDrive.past (hpast : r.2.1.fsm.state.Past) : f.state.Past ∨ .commence ∈ r.2.1.sent := by
  cases h with
  | early source dest node packets => exact (dest.elim hpast.1 hpast.2).elim
  | commence source => exact .inr (.head _)
  | wait source =>
    simp only [mem_cons, Prod.mk.injEq, not_mem_nil, or_false] at source
    obtain ⟨h, -⟩ | ⟨h, -⟩ | ⟨h, -⟩ := source <;> exact .inl (by rw [h]; exact ⟨id, nofun⟩)
  | _ =>
    rename f.state = _ => source
    exact .inl (by rw [source]; exact ⟨id, nofun⟩)

/-- A VM node is driven that replies with items of this pass. -/
theorem VmDrive.handled (hp : pools.Of p) (hf : f.Of p) (hg : ∀ m ∈ r.2.1.sent, Given p m) :
    Handled p r.1 r.2.2 ∧ r.2.1.fsm.Of p := by
  cases h with
  | early source dest node packets batches =>
    exact ⟨.nil hp, by rw [batches.1]; exact hf.traces, by rw [batches.2]; exact hf.errors⟩
  | rxTrace source reported => exact ⟨.nil hp, hg _ (.head _), hf.errors⟩
  | traceRxed source =>
    exact ⟨.map (hp.foldl_toTracePool hf.traces) hf.traces (fun _ => rfl), hf.traces, hf.errors⟩
  | @txTest room tests rest source taken =>
    have hrest : Pools.Of p { pools with tests := rest } := by
      rw [Fifo.takeUpTo_eq] at taken
      rw [← (Prod.mk.inj taken).2]
      exact ⟨fun t ht => hp.tests t (mem_of_mem_drop ht), hp.files⟩
    exact ⟨.map hrest (fun _ _ => trivial) (fun _ => rfl), hf.traces, hf.errors⟩
  | rxError source reported => exact ⟨.nil hp, hf.traces, hg _ (.head _)⟩
  | errorRxed source => exact ⟨.map hp hf.errors (fun _ => rfl), hf.traces, nofun⟩
  | _ => exact ⟨.nil hp, hf.traces, hf.errors⟩

end Vm

section Svm

variable {f : SvmFsm (Item T) (Item E)} {r : Pools (Item T) (Item D) ×
    Moved (SvmFsm (Item T) (Item E)) (Item T) (Item D) (Item E) ×
    List (Label (Item T) (Item D) (Item E))} (h : SvmDrive env reading pools status a f r)

include h

theorem SvmDrive.plain : ∀ l ∈ r.2.2, ∀ k m, l ≠ .packet k m := by
  cases h with
  | txTrace source draws =>
    intro l hl k m
    obtain ⟨x, -, rfl⟩ := mem_map.1 hl
    obtain h | ⟨-, h⟩ := Label.taken_cases (E := Item E) env pools.traces.seen x <;> rw [h] <;>
      exact nofun
  | _ => simp

/-- The packets to an SVM node. -/
theorem SvmDrive.safe (hp : pools.Of p) {b : Bool} (hb : f.state.Past → b = true) :
    ∀ m ∈ r.2.1.sent, Safe p b m := by
  cases h with
  | early source dest node packets => exact fun m hm => Early.safe (packets m hm) b
  | @txTrace room taken rest source draws =>
    have hpast : f.state.Past := by
      rw [source]
      exact ⟨id, nofun⟩
    have hread : ∀ t ∈ (pools.nextTraces env reading room).1.filterMap Prod.snd, t.data.Of p :=
      (hp.nextTraces room).2
    rw [draws] at hread
    have hsafe : Safe p b (.trace (taken.filterMap Prod.snd) : Message T D E) := ⟨hb hpast, hread⟩
    exact fun m hm => safe_batch hsafe hm
  | _ => simp [Safe]

theorem SvmDrive.past (hpast : r.2.1.fsm.state.Past) : f.state.Past ∨ .commence ∈ r.2.1.sent := by
  cases h with
  | early source dest node packets => exact (dest.elim hpast.1 hpast.2).elim
  | commence source => exact .inr (.head _)
  | wait source =>
    simp only [mem_cons, Prod.mk.injEq, not_mem_nil, or_false] at source
    obtain ⟨h, -⟩ | ⟨h, -⟩ | ⟨h, -⟩ := source <;> exact .inl (by rw [h]; exact ⟨id, nofun⟩)
  | _ =>
    rename f.state = _ => source
    exact .inl (by rw [source]; exact ⟨id, nofun⟩)

/-- An SVM node is driven that replies with items of this pass. -/
theorem SvmDrive.handled (hp : pools.Of p) (hf : f.Of p) (hg : ∀ m ∈ r.2.1.sent, Given p m) :
    Handled p r.1 r.2.2 ∧ r.2.1.fsm.Of p := by
  cases h with
  | early source dest node packets batches =>
    exact ⟨.nil hp, by rw [batches.1]; exact hf.tests, by rw [batches.2]; exact hf.errors⟩
  | @txTrace room taken rest source draws =>
    have hrest : Pools.Of p (pools.nextTraces env reading room).2 := (hp.nextTraces room).1
    rw [draws] at hrest
    have htaken : ∀ t, (.taken env pools.traces.seen t : Label _ _ (Item E)).Of p ∧
        (.taken env pools.traces.seen t : Label _ _ (Item E)).passAfter p = p := by
      intro t
      obtain h | ⟨-, h⟩ := Label.taken_cases (E := Item E) env pools.traces.seen t <;> rw [h] <;>
        exact ⟨trivial, rfl⟩
    exact ⟨.map hrest (fun t _ => (htaken t).1) (fun t => (htaken t).2), hf.tests, hf.errors⟩
  | rxTest source reported => exact ⟨.nil hp, hg _ (.head _), hf.errors⟩
  | testRxed source =>
    exact ⟨.map (hp.insertAll hf.tests) hf.tests (fun _ => rfl), hf.tests, hf.errors⟩
  | testRxedError source reported =>
    exact ⟨.map (hp.insertAll hf.tests) hf.tests (fun _ => rfl), hf.tests, hg _ (.head _)⟩
  | rxError source reported => exact ⟨.nil hp, hf.tests, hg _ (.head _)⟩
  | errorRxed source => exact ⟨.map hp hf.errors (fun _ => rfl), hf.tests, nofun⟩
  | _ => exact ⟨.nil hp, hf.tests, hf.errors⟩

end Svm

end Drive

/-! ## 2. Packets of a step -/

section Packets

variable {k : Nat} {ls : List (Label (Item T) (Item D) (Item E))}

theorem packetsTo_append (k : Nat) (ls ls' : List (Label (Item T) (Item D) (Item E))) :
    packetsTo k (ls ++ ls') = packetsTo k ls ++ packetsTo k ls' := filterMap_append

theorem packetsTo_eq_nil (h : ∀ l ∈ ls, ∀ m, l ≠ .packet k m) : packetsTo k ls = [] := by
  refine filterMap_eq_nil_iff.2 fun l hl => ?_
  cases l with
  | packet j m =>
    refine if_neg fun e => ?_
    subst e
    exact h _ hl m rfl
  | _ => rfl

theorem mem_packetsTo {m : Message T D E} : m ∈ packetsTo k ls ↔ .packet k m ∈ ls := by
  refine mem_filterMap.trans ⟨fun h => ?_, fun h => ⟨_, h, if_pos rfl⟩⟩
  obtain ⟨l, hl, hm⟩ := h
  cases l with
  | packet j m' =>
    simp only at hm
    split at hm
    · rename_i e
      cases hm
      exact e ▸ hl
    · cases hm
  | _ => cases hm

/-- The packets to a node that is driven, and to others. -/
theorem packetsTo_driven {j : Nat} {sent : List (Message T D E)}
    (h : ∀ l ∈ ls, ∀ k m, l ≠ .packet k m) :
    packetsTo j (ls ++ sent.map (.packet k)) = if j = k then sent else [] := by
  rw [packetsTo_append, packetsTo_eq_nil fun l hl m => h l hl j m, nil_append]
  split
  · rename_i e
    subst e
    induction sent with
    | nil => rfl
    | cons m sent ih => rw [map_cons, packetsTo_cons, ih]; simp [packetsTo]
  · rename_i e
    refine packetsTo_eq_nil fun l hl m he => ?_
    obtain ⟨x, -, hx⟩ := mem_map.1 hl
    rw [← hx] at he
    cases he
    exact e rfl

end Packets

/-! ## 3. The system -/

/-- The node of a machine: it is settled, and has commenced if it was told to. -/
structure Tended (p : Nat) (r : Proc T D E) (past : Prop) : Prop where
  settled : r.Settled p
  commenced : past → r.commenced = true

/-- A node that has connected and is not known otherwise. -/
structure Stranger (d : Dispatcher (Item T) (Item D) (Item E)) (r : Proc T D E) (k : Nat) :
    Prop where
  settled : ∀ p, r.Settled p
  target : r.target = none
  nodes : k ∉ d.nodes
  vm : ∀ f ∈ d.vmFsms, f.node ≠ k
  svm : ∀ f ∈ d.svmFsms, f.node ≠ k

/-- The target of a VM node is in place, or about to be sent. -/
def Aimed (d : Dispatcher (Item T) (Item D) (Item E)) (r : Proc T D E) (k : Nat) : Prop :=
  ((d.phase = .assignNextTarget ∨ d.phase = .emptyFront) ∧ k ∈ d.nodes) ∨ Within d.pass r.target

/-- **The invariant**: the pools, the batches and the nodes of all machines hold nothing of another
    pass. Nodes without a machine may. -/
structure Separate (d : Dispatcher (Item T) (Item D) (Item E)) (ps : Nat → Proc T D E) : Prop where
  typed : d.Typed
  matched : ∀ k < d.connected, (ps k).peer.type = d.type k
  orderly : ∀ k, (ps k).Orderly
  joining : ∀ k, d.joining = .connected k → Stranger d (ps k) k
  pools : d.pools.Of d.pass
  vm : ∀ f ∈ d.vmFsms, f.Of d.pass ∧ Tended d.pass (ps f.node) f.state.Past ∧
    Aimed d (ps f.node) f.node
  svm : ∀ f ∈ d.svmFsms, f.Of d.pass ∧ Tended d.pass (ps f.node) f.state.Past
  early : d.phase = .resetNodes → (∀ f ∈ d.vmFsms, f.state.Early) ∧ ∀ f ∈ d.svmFsms, f.state.Early

section System

variable {d d' : Dispatcher (Item T) (Item D) (Item E)} {ps ps' : Nat → Proc T D E}
  {ls new : List (Label (Item T) (Item D) (Item E))} {status : Nat → NodeStatus}
  {env : Env (Item T) (Item D)} {a : Answers (Item T) (Item D) (Item E)} {k : Nat}

theorem Proc.target_of_svm {r : Proc T D E} (h : r.peer.type = .svm) : r.target = none := by
  obtain ⟨peer, inbox⟩ := r
  cases peer with
  | vm n => cases h
  | svm n =>
    have hnone : ∀ ms : List (Message T D E), ms.foldl (aim .svm) none = none := by
      intro ms
      induction ms with
      | nil => rfl
      | cons m ms ih => rw [foldl_cons, aim_svm, ih]
    exact hnone inbox

theorem Aimed.within {r : Proc T D E} (h : Aimed d r k)
    (hp : d.phase ≠ .assignNextTarget ∧ d.phase ≠ .emptyFront) : Within d.pass r.target := by
  obtain h | h := h
  · exact (h.1.elim hp.1 hp.2).elim
  · exact h

theorem Separate.init (o : Options (Item T)) :
    Separate (System.init o : System T D E).dispatcher (System.init o : System T D E).procs where
  typed := .init o
  matched := nofun
  orderly := fun _ => ⟨trivial, trivial⟩
  joining := nofun
  pools := .new
  vm := forall_mem_nil _
  svm := forall_mem_nil _
  early := fun h => (by cases h)

/-- The main thread goes to another phase. -/
theorem Separate.goto (hd : Separate d ps)
    (hp : d.phase ≠ .assignNextTarget ∧ d.phase ≠ .emptyFront) {phase : Phase} {first : Bool}
    (hreset : phase ≠ .resetNodes) :
    Separate { d with phase := phase, first := first } ps :=
  { hd with
    typed := { hd.typed with }
    joining := fun k hk => { hd.joining k hk with }
    vm := by
      intro f hf
      obtain ⟨hof, ht, ha⟩ := hd.vm f hf
      exact ⟨hof, ht, .inr (ha.within hp)⟩
    early := fun h => absurd h hreset }

/-- A node connects. -/
theorem Separate.connect (hd : Separate d ps) (type : NodeType) (others : Nat) (info : ImageInfo)
    (he : d' = { d with
      connected := d.connected + 1
      type := update d.type d.connected type
      status := status
      joining := .connected d.connected }) (typed : d'.Typed) :
    Separate d' (update ps d.connected ⟨.new type others info, []⟩) := by
  subst he
  have hnew : (⟨.new type others info, []⟩ : Proc T D E).Orderly := by
    cases type with
    | vm =>
      refine ⟨fun _ => ⟨rfl, rfl, fun q hq => ?_⟩, trivial⟩
      exact (mem_replicate.1 hq).2
    | svm => exact ⟨trivial, trivial⟩
  have hsettled : ∀ p, (⟨.new type others info, []⟩ : Proc T D E).Settled p := by
    intro p
    cases type with
    | vm =>
      refine ⟨⟨nofun, nofun, nofun⟩, fun q hq => ?_, nofun⟩
      rw [(mem_replicate.1 hq).2]
      exact .new
    | svm =>
      refine ⟨⟨nofun, nofun, nofun⟩, fun k hk => ?_, nofun⟩
      rw [(mem_replicate.1 hk).2]
      exact nofun
  have hold : ∀ {k}, k < d.connected →
      update ps d.connected ⟨.new type others info, []⟩ k = ps k :=
    fun hk => update_of_ne (Nat.ne_of_lt hk) _ _
  exact { hd with
    typed := typed
    matched := by
      intro k hk
      by_cases he : k = d.connected
      · subst he
        simp only [update_self]
        cases type <;> rfl
      · simp only [update_of_ne he]
        exact hd.matched k (Nat.lt_of_le_of_ne (Nat.le_of_lt_succ hk) he)
    orderly := by
      intro k
      by_cases he : k = d.connected
      · subst he
        rw [update_self]
        exact hnew
      · rw [update_of_ne he]
        exact hd.orderly k
    joining := by
      intro k hk
      cases hk
      rw [update_self]
      refine ⟨hsettled, by cases type <;> rfl, fun h => ?_, fun f hf => ?_, fun f hf => ?_⟩
      · exact Nat.lt_irrefl _ (hd.typed.nodes _ h)
      · exact Nat.ne_of_lt (hd.typed.vm f hf).1
      · exact Nat.ne_of_lt (hd.typed.svm f hf).1
    vm := by
      intro f hf
      rw [hold (hd.typed.vm f hf).1]
      exact hd.vm f hf
    svm := by
      intro f hf
      rw [hold (hd.typed.svm f hf).1]
      exact hd.svm f hf }

theorem VmState.not_past_txConfig : ¬ VmState.txConfig.Past := fun h => h.1 trivial

theorem SvmState.not_past_txConfig : ¬ SvmState.txConfig.Past := fun h => h.1 trivial

/-- A new machine for a settled VM node. -/
theorem tended_newVm {p : Nat} {o : Options (Item T)} {type : Nat → NodeType}
    (hs : (ps k).Settled p) {f : VmFsm (Item D) (Item E)} (hf : f ∈ newVm o type k) :
    f.node = k ∧ f.Of p ∧ Tended p (ps f.node) f.state.Past := by
  obtain ⟨-, hnode, hstate, htraces, herrors⟩ := mem_newVm hf
  refine ⟨hnode, ⟨by rw [htraces]; exact nofun, by rw [herrors]; exact nofun⟩, ?_, fun h => ?_⟩
  · rw [hnode]
    exact hs
  · rw [hstate] at h
    exact absurd h VmState.not_past_txConfig

/-- A new machine for a settled SVM node. -/
theorem tended_newSvm {p : Nat} {type : Nat → NodeType}
    (hs : (ps k).Settled p) {f : SvmFsm (Item T) (Item E)} (hf : f ∈ newSvm type k) :
    f.node = k ∧ f.Of p ∧ Tended p (ps f.node) f.state.Past := by
  obtain ⟨-, hnode, hstate, htests, herrors⟩ := mem_newSvm hf
  refine ⟨hnode, ⟨by rw [htests]; exact nofun, by rw [herrors]; exact nofun⟩, ?_, fun h => ?_⟩
  · rw [hnode]
    exact hs
  · rw [hstate] at h
    exact absurd h SvmState.not_past_txConfig

/-- The callback of a node that has connected. -/
theorem Separate.callBack (hd : Separate d ps) (known : d.joining = .connected k)
    (typed : Dispatcher.Typed { d.registerNodeFsm k with joining := .calledBack k }) :
    Separate { d.registerNodeFsm k with joining := .calledBack k } ps := by
  have hs := hd.joining k known
  rw [registerNodeFsm_eq] at typed ⊢
  exact { hd with
    typed := typed
    joining := nofun
    vm := by
      refine forall_mem_append.2 ⟨hd.vm, fun f hf => ?_⟩
      obtain ⟨hnode, hof, ht⟩ := tended_newVm (hs.settled d.pass) hf
      refine ⟨hof, ht, .inr ?_⟩
      rw [hnode, hs.target]
      exact .none _
    svm := forall_mem_append.2 ⟨hd.svm, fun f hf => (tended_newSvm (hs.settled d.pass) hf).2⟩
    early := by
      intro hp
      obtain ⟨evm, esvm⟩ := hd.early hp
      refine ⟨forall_mem_append.2 ⟨evm, fun f hf => ?_⟩, forall_mem_append.2 ⟨esvm, fun f hf => ?_⟩⟩
      · rw [(mem_newVm hf).2.2.1]
        trivial
      · rw [(mem_newSvm hf).2.2.1]
        trivial }

/-- A node is entered into the list. -/
theorem Separate.pushBack (hd : Separate d ps)
    (typed : Dispatcher.Typed { d with nodes := d.nodes ++ [k], joining := .waiting }) :
    Separate { d with nodes := d.nodes ++ [k], joining := .waiting } ps :=
  { hd with
    typed := typed
    joining := nofun
    vm := by
      intro f hf
      obtain ⟨hof, ht, ha⟩ := hd.vm f hf
      exact ⟨hof, ht, ha.imp_left fun h => ⟨h.1, mem_append_left _ h.2⟩⟩ }

/-- A pass begins. -/
theorem Separate.clear (hd : Separate d ps) : Separate { d with
    phase := .resetNodes
    pass := d.pass + 1
    pools := .new
    vmFsms := []
    svmFsms := [] } ps :=
  { hd with
    typed := { hd.typed with vm := forall_mem_nil _, svm := forall_mem_nil _ }
    joining := fun k hk => { hd.joining k hk with
      vm := forall_mem_nil _
      svm := forall_mem_nil _ }
    pools := .new
    vm := forall_mem_nil _
    svm := forall_mem_nil _
    early := fun _ => ⟨forall_mem_nil _, forall_mem_nil _⟩ }

/-- Machines have been driven: each is one that was there, or took the place of one. -/
theorem Separate.drives (hd : Separate d ps)
    (hp : d.phase ≠ .assignNextTarget ∧ d.phase ≠ .emptyFront) {phase : Phase}
    (hreset : phase ≠ .resetNodes)
    {pools : Pools (Item T) (Item D)} {fs : List (VmFsm (Item D) (Item E))}
    {gs : List (SvmFsm (Item T) (Item E))} (he : d' = { d with
      phase := phase, pools := pools, vmFsms := fs, svmFsms := gs, status := status })
    (typed : d'.Typed) (hpools : pools.Of d.pass)
    (hfs : ∀ f ∈ fs, f ∈ d.vmFsms ∨ (∃ g ∈ d.vmFsms, g.node = f.node) ∧ f.Of d.pass ∧
      Tended d.pass (ps f.node) f.state.Past ∧ Within d.pass (ps f.node).target)
    (hgs : ∀ f ∈ gs, f ∈ d.svmFsms ∨ (∃ g ∈ d.svmFsms, g.node = f.node) ∧ f.Of d.pass ∧
      Tended d.pass (ps f.node) f.state.Past) : Separate d' ps := by
  subst he
  exact { hd with
    typed := typed
    joining := by
      intro k hk
      have hs := hd.joining k hk
      refine { hs with vm := fun f hf => ?_, svm := fun f hf => ?_ }
      · obtain hf | ⟨⟨g, hg, hn⟩, -⟩ := hfs f hf
        · exact hs.vm f hf
        · exact hn ▸ hs.vm g hg
      · obtain hf | ⟨⟨g, hg, hn⟩, -⟩ := hgs f hf
        · exact hs.svm f hf
        · exact hn ▸ hs.svm g hg
    pools := hpools
    vm := by
      intro f hf
      obtain hf | ⟨-, hof, ht, hw⟩ := hfs f hf
      · obtain ⟨hof, ht, ha⟩ := hd.vm f hf
        exact ⟨hof, ht, .inr (ha.within hp)⟩
      · exact ⟨hof, ht, .inr hw⟩
    svm := fun f hf => (hgs f hf).elim (hd.svm f) fun h => h.2
    early := fun h => absurd h hreset }

/-- Every node of the loop is sent a target. -/
theorem assignTargets_sends (pass : Nat) : ∀ (ks : List Nat) {queue queue' : List String}
    {target target' : String} {ls : List (Label (Item T) (Item D) (Item E))},
    Dispatcher.assignTargets pass ks queue target = (ls, queue', some target') →
    ∀ k ∈ ks, ∃ t, .packet k (.nextTarget t pass) ∈ ls := by
  intro ks
  induction ks with
  | nil => exact fun _ k hk => by cases hk
  | cons j ks ih =>
    intro queue queue' target target' ls h k hk
    cases queue with
    | nil => cases h
    | cons t queue =>
      obtain ⟨hls, hrest⟩ := Prod.mk.inj h
      obtain rfl | hk := mem_cons.1 hk
      · exact ⟨t, hls ▸ mem_cons_self⟩
      · obtain ⟨u, hu⟩ := ih (Prod.ext rfl hrest) k hk
        exact ⟨u, hls ▸ mem_cons_of_mem _ hu⟩

/-- After targets of a pass the last counts. -/
theorem within_foldl_aim {p : Nat} {ms : List (Message T D E)}
    (hm : ∀ m ∈ ms, ∃ t, m = .nextTarget t p) : ∀ {q : Option Nat}, ms ≠ [] ∨ Within p q →
    Within p (ms.foldl (aim .vm) q) := by
  induction ms with
  | nil => exact fun h => h.elim (fun h => absurd rfl h) id
  | cons m ms ih =>
    intro q _
    obtain ⟨t, rfl⟩ := hm m (.head _)
    exact ih (forall_mem_cons.1 hm).2 (.inr (.inr rfl))

/-! ## 4. Labels of a step -/

/-- The labels of a step are of their pass, and lead to the pass of the next state. -/
def Follows (d d' : Dispatcher (Item T) (Item D) (Item E))
    (new : List (Label (Item T) (Item D) (Item E))) : Prop :=
  Isolated d.pass new ∧ new.foldl Label.passAfter d.pass = d'.pass

theorem Follows.of_forall (hpass : d'.pass = d.pass)
    (h : ∀ l ∈ new, l.Of d.pass ∧ l.passAfter d.pass = d.pass) : Follows d d' new := by
  obtain ⟨h₁, h₂⟩ := isolated_of_forall h
  exact ⟨h₁, h₂.trans hpass.symm⟩

/-- Packets start no pass. -/
theorem Follows.of_packets (hpass : d'.pass = d.pass)
    (h : ∀ l ∈ new, ∃ k m, l = .packet k m) : Follows d d' new := by
  refine .of_forall hpass fun l hl => ?_
  obtain ⟨k, m, rfl⟩ := h l hl
  exact ⟨trivial, rfl⟩

/-- A node is driven: the packets to it, too, start no pass. -/
theorem Handled.follows {pools : Pools (Item T) (Item D)} {sent : List (Message T D E)}
    (h : Handled d.pass pools ls) (hpass : d'.pass = d.pass) :
    Follows d d' (ls ++ sent.map (.packet k)) := by
  refine .of_forall hpass (forall_mem_append.2 ⟨h.labels, fun l hl => ?_⟩)
  obtain ⟨m, -, rfl⟩ := mem_map.1 hl
  exact ⟨trivial, rfl⟩

theorem Dispatcher.Asked.quiet (h : d.Asked ls) :
    (∀ l ∈ ls, l.Of d.pass ∧ l.passAfter d.pass = d.pass) ∧ ∀ l ∈ ls, ∀ k m, l ≠ .packet k m := by
  obtain rfl | ⟨row, q, -, rfl⟩ := h
  · exact ⟨nofun, nofun⟩
  · exact ⟨by simp [Label.Of, Label.passAfter], by simp⟩

/-! ## 5. Steps and runs -/

variable [DecidableEq T] [DecidableEq D] [DecidableEq E] {sizes : Sizes T D E}

/-- The nodes go on, and are sent safe packets. -/
theorem Separate.served (hd : Separate d ps) {ms : Nat → List (Message T D E)}
    (h : ∀ k, Serves sizes harmless (ps k) (ms k) (ps' k))
    (hsafe : ∀ k, ∀ m ∈ ms k, Safe d.pass (ps k).commenced m)
    (hcommence : ∀ k, .commence ∈ ms k → Within d.pass (ps k).target)
    (hknown : ∀ k, d.joining = .connected k → ms k = []) : Separate d ps' := by
  have keeps : ∀ k, Keeps d.pass (ps k) (ms k) (ps' k) :=
    fun k => (h k).keeps (hd.orderly k) (hsafe k)
  have tended : ∀ {k past}, Tended d.pass (ps k) past → Tended d.pass (ps' k) past :=
    fun {k _} ht => ⟨((keeps k).settled ht.settled (hcommence k)).1,
      fun hp => (keeps k).commenced (.inl (ht.commenced hp))⟩
  exact { hd with
    matched := fun k hk => (h k).type_eq.trans (hd.matched k hk)
    orderly := fun k => (keeps k).orderly
    joining := by
      intro k hk
      have hs := hd.joining k hk
      have serves := h k
      rw [hknown k hk] at serves
      refine { hs with settled := fun p => ?_, target := serves.target_eq.trans hs.target }
      exact ((serves.keeps (hd.orderly k) nofun).settled (hs.settled p) nofun).1
    vm := by
      intro f hf
      obtain ⟨hof, ht, ha⟩ := hd.vm f hf
      exact ⟨hof, tended ht, ha.imp_right (keeps f.node).target⟩
    svm := by
      intro f hf
      obtain ⟨hof, ht⟩ := hd.svm f hf
      exact ⟨hof, tended ht⟩ }

/-- The nodes go on, and are sent nothing. -/
theorem Separate.acts (hd : Separate d ps)
    (h : ∀ k, Serves sizes harmless (ps k) [] (ps' k)) : Separate d ps' :=
  hd.served h (fun _ => nofun) (fun _ => nofun) fun _ _ => rfl

/-- The nodes are sent their resets, and have new machines. -/
theorem Separate.resetNodes (hd : Separate d ps) (source : d.phase = .resetNodes)
    (serves : ∀ k, Serves sizes harmless (ps k)
      (packetsTo k (d.nodes.map fun k => .packet k .reset)) (ps' k)) (he : d' = { d with
      phase := .assignNextTarget
      vmFsms := d.vmFsms ++ d.nodes.flatMap (newVm d.options d.type)
      svmFsms := d.svmFsms ++ d.nodes.flatMap (newSvm d.type)
      status := status }) (typed : d'.Typed) : Separate d' ps' := by
  subst he
  have hreset : ∀ k, ∀ m ∈ packetsTo k (d.nodes.map fun k =>
      (.packet k .reset : Label (Item T) (Item D) (Item E))), m = .reset := by
    intro k m hm
    obtain ⟨j, -, hj⟩ := mem_map.1 (mem_packetsTo.1 hm)
    cases hj
    rfl
  have hsent : ∀ k ∈ d.nodes, packetsTo k (d.nodes.map fun k =>
      (.packet k .reset : Label (Item T) (Item D) (Item E))) ≠ [] := by
    intro k hk
    exact ne_nil_of_mem (mem_packetsTo.2 (mem_map_of_mem hk))
  have hnodes : ∀ k ∈ d.nodes, (ps' k).Settled d.pass := fun k hk =>
    (serves k).reset (hreset k) (hd.orderly k) fun h => absurd h (hsent k hk)
  have hold : ∀ k, (ps k).Settled d.pass → (ps' k).Settled d.pass := fun k hs =>
    (serves k).reset (hreset k) (hd.orderly k) fun _ => hs
  have htarget : ∀ k, (ps' k).target = (ps k).target := by
    intro k
    rw [(serves k).target_eq, eq_replicate_of_mem (hreset k)]
    generalize (packetsTo k _).length = n
    induction n with
    | zero => rfl
    | succ n ih => exact ih
  have hphase : d.phase ≠ .assignNextTarget ∧ d.phase ≠ .emptyFront := by simp [source]
  obtain ⟨evm, esvm⟩ := hd.early source
  refine ⟨typed, fun k hk => (serves k).type_eq.trans (hd.matched k hk),
    fun k => (serves k).orderly (fun m hm => by rw [hreset k m hm]; rfl) (hd.orderly k),
    fun k hk => ?_, hd.pools, forall_mem_append.2 ⟨fun f hf => ?_, fun f hf => ?_⟩,
    forall_mem_append.2 ⟨fun f hf => ?_, fun f hf => ?_⟩, nofun⟩
  · have hs := hd.joining k hk
    have hnone : packetsTo k (d.nodes.map fun k =>
        (.packet k .reset : Label (Item T) (Item D) (Item E))) = [] := by
      refine packetsTo_eq_nil fun l hl m he => ?_
      obtain ⟨j, hj, rfl⟩ := mem_map.1 hl
      cases he
      exact hs.nodes hj
    refine ⟨fun p => (serves k).reset (hreset k) (hd.orderly k) fun _ => hs.settled p,
      (htarget k).trans hs.target, hs.nodes, forall_mem_append.2 ⟨hs.vm, fun f hf => ?_⟩,
      forall_mem_append.2 ⟨hs.svm, fun f hf => ?_⟩⟩
    · obtain ⟨j, hj, hf⟩ := mem_flatMap.1 hf
      rw [(mem_newVm hf).2.1]
      exact fun e => hs.nodes (e ▸ hj)
    · obtain ⟨j, hj, hf⟩ := mem_flatMap.1 hf
      rw [(mem_newSvm hf).2.1]
      exact fun e => hs.nodes (e ▸ hj)
  · obtain ⟨hof, ht, ha⟩ := hd.vm f hf
    refine ⟨hof, ⟨hold _ ht.settled, fun h => absurd (evm f hf) h.1⟩, .inr ?_⟩
    rw [htarget]
    exact ha.within hphase
  · obtain ⟨j, hj, hf⟩ := mem_flatMap.1 hf
    obtain ⟨hnode, hof, ht⟩ := tended_newVm (hnodes j hj) hf
    exact ⟨hof, ht, .inl ⟨.inl rfl, hnode ▸ hj⟩⟩
  · obtain ⟨hof, ht⟩ := hd.svm f hf
    exact ⟨hof, hold _ ht.settled, fun h => absurd (esvm f hf) h.1⟩
  · obtain ⟨j, hj, hf⟩ := mem_flatMap.1 hf
    exact (tended_newSvm (hnodes j hj) hf).2

/-- The VM nodes are sent targets: the nodes go on. -/
theorem Separate.targets (hd : Separate d ps)
    (hnew : ∀ k m, .packet k m ∈ new → k ∈ d.nodes ∧ ∃ t, m = .nextTarget t d.pass)
    (serves : ∀ k, Serves sizes harmless (ps k) (packetsTo k new) (ps' k)) : Separate d ps' := by
  refine hd.served serves (fun k m hm => ?_) (fun k hm => ?_) fun k hk => ?_
  · obtain ⟨-, t, rfl⟩ := hnew k m (mem_packetsTo.1 hm)
    rfl
  · obtain ⟨-, t, ht⟩ := hnew k _ (mem_packetsTo.1 hm)
    cases ht
  · refine packetsTo_eq_nil fun l hl m he => ?_
    subst he
    exact (hd.joining k hk).nodes (hnew k m hl).1

/-- The targets of a pass are assigned. -/
theorem Separate.assign (hd : Separate d ps) {queue : List String} {target : String}
    (result : Dispatcher.assignTargets d.pass d.vmNodes d.targets d.target =
      (ls, queue, some target))
    (serves : ∀ k, Serves sizes harmless (ps k) (packetsTo k (ls ++ [.dispatchBegins])) (ps' k)) :
    Separate { d with targets := queue, target := target, phase := .dispatchVm 0 } ps' := by
  have hpackets : ∀ k m,
      .packet k m ∈ ls ++ [(.dispatchBegins : Label (Item T) (Item D) (Item E))] → k ∈ d.nodes ∧ ∃ t, m = .nextTarget t d.pass := by
    intro k m hm
    obtain hm | hm := mem_append.1 hm
    · obtain ⟨j, hj, t, he⟩ := mem_assignTargets result _ hm
      cases he
      exact ⟨(mem_filter.1 hj).1, t, rfl⟩
    · cases mem_singleton.1 hm
  have hd' := hd.targets hpackets serves
  refine { hd' with
    typed := { hd'.typed with }
    joining := fun k hk => { hd'.joining k hk with }
    vm := fun f hf => ?_
    early := nofun }
  obtain ⟨hof, ht, -⟩ := hd'.vm f hf
  obtain ⟨hlt, htype⟩ := hd.typed.vm f hf
  refine ⟨hof, ht, .inr ?_⟩
  rw [(serves f.node).target_eq, hd.matched f.node hlt, htype]
  refine within_foldl_aim (fun m hm => (hpackets _ _ (mem_packetsTo.1 hm)).2) ?_
  obtain ⟨-, hnode⟩ | hw := (hd.vm f hf).2.2
  · have hvm : f.node ∈ d.vmNodes := mem_filter.2 ⟨hnode, by simpa using htype⟩
    obtain ⟨t, hsent⟩ := assignTargets_sends d.pass d.vmNodes result f.node hvm
    exact .inl (ne_nil_of_mem (mem_packetsTo.2 (mem_append_left _ hsent)))
  · exact .inr hw

/-- The front of an empty queue is taken. -/
theorem Separate.assignFails (hd : Separate d ps) {queue : List String}
    (result : Dispatcher.assignTargets d.pass d.vmNodes d.targets d.target = (ls, queue, none))
    (serves : ∀ k, Serves sizes harmless (ps k) (packetsTo k ls) (ps' k)) :
    Separate { d with targets := queue, phase := .emptyFront } ps' := by
  have hd' := hd.targets (fun k m hm => by
    obtain ⟨j, hj, t, he⟩ := mem_assignTargets result _ hm
    cases he
    exact ⟨(mem_filter.1 hj).1, t, rfl⟩) serves
  refine { hd' with
    typed := { hd'.typed with }
    joining := fun k hk => { hd'.joining k hk with }
    vm := fun f hf => ?_
    early := nofun }
  obtain ⟨hof, ht, ha⟩ := hd'.vm f hf
  exact ⟨hof, ht, ha.imp_left fun h => ⟨.inr rfl, h.2⟩⟩

/-- A node is sent the packets of its machine: the nodes go on. -/
theorem Separate.driven (hd : Separate d ps) {past : Prop}
    (ht : Tended d.pass (ps k) past) (htarget : Within d.pass (ps k).target)
    (hknown : ∀ j, d.joining = .connected j → k ≠ j) (hplain : ∀ l ∈ ls, ∀ k m, l ≠ .packet k m)
    {sent : List (Message T D E)} (hsafe : ∀ m ∈ sent, Safe d.pass (ps k).commenced m)
    (serves : ∀ j, Serves sizes harmless (ps j) (packetsTo j (ls ++ sent.map (.packet k)))
      (ps' j)) :
    Separate d ps' ∧ Tended d.pass (ps' k) (past ∨ .commence ∈ sent) ∧
      Within d.pass (ps' k).target ∧ ∀ m ∈ sent, Given d.pass m := by
  have hto : ∀ j, packetsTo j (ls ++ sent.map (.packet k)) = if j = k then sent else [] :=
    fun j => packetsTo_driven hplain
  have hserves := serves k
  rw [hto, if_pos rfl] at hserves
  have keeps := hserves.keeps (hd.orderly k) hsafe
  obtain ⟨hsettled, hgiven⟩ := keeps.settled ht.settled fun _ => htarget
  refine ⟨hd.served serves (fun j m hm => ?_) (fun j hm => ?_) fun j hj => ?_,
    ⟨hsettled, fun h => keeps.commenced (h.imp_left ht.commenced)⟩, keeps.target htarget, hgiven⟩
  · rw [hto] at hm
    split at hm
    · rename_i e
      exact e ▸ hsafe m hm
    · cases hm
  · rw [hto] at hm
    split at hm
    · rename_i e
      exact e ▸ htarget
    · cases hm
  · rw [hto, if_neg fun e => hknown j hj e.symm]

/-- A VM node is driven. -/
theorem Separate.driveVm (hd : Separate d ps) {i : Nat} {f : VmFsm (Item D) (Item E)}
    {r : Pools (Item T) (Item D) × Moved (VmFsm (Item D) (Item E)) (Item T) (Item D) (Item E) ×
      List (Label (Item T) (Item D) (Item E))}
    (source : d.phase = .dispatchVm i) (hf : f ∈ d.vmFsms)
    (drive : VmDrive env d.pools (d.status f.node) a f r)
    (serves : ∀ k, Serves sizes harmless (ps k)
      (packetsTo k (r.2.2 ++ r.2.1.sent.map (.packet f.node))) (ps' k)) (he : d' = { d with
      phase := .dispatchVm (i + 1)
      pools := r.1
      vmFsms := d.vmFsms.set i r.2.1.fsm
      status := status }) (typed : d'.Typed) :
    Separate d' ps' ∧ Handled d.pass r.1 r.2.2 := by
  obtain ⟨hof, ht, ha⟩ := hd.vm f hf
  have hphase : d.phase ≠ .assignNextTarget ∧ d.phase ≠ .emptyFront := by simp [source]
  obtain ⟨hd', ht', htarget, hgiven⟩ := hd.driven ht (ha.within hphase)
    (fun j hj => (hd.joining j hj).vm f hf) drive.plain (drive.safe hd.pools ht.commenced) serves
  obtain ⟨handled, hof'⟩ := drive.handled hd.pools hof hgiven
  refine ⟨hd'.drives hphase (by simp) he typed handled.pools (fun g hg => ?_)
    fun g hg => .inl hg, handled⟩
  obtain hg | rfl := mem_or_eq_of_mem_set hg
  · exact .inl hg
  · rw [drive.node]
    exact .inr ⟨⟨f, hf, rfl⟩, hof', ⟨ht'.settled, fun hp => ht'.commenced (drive.past hp)⟩, htarget⟩

/-- An SVM node is driven. -/
theorem Separate.driveSvm {reading : Reading} (hd : Separate d ps) {i : Nat}
    {f : SvmFsm (Item T) (Item E)} {r : Pools (Item T) (Item D) ×
      Moved (SvmFsm (Item T) (Item E)) (Item T) (Item D) (Item E) ×
      List (Label (Item T) (Item D) (Item E))}
    (source : d.phase = .dispatchSvm i) (hf : f ∈ d.svmFsms)
    (drive : SvmDrive env reading d.pools (d.status f.node) a f r)
    (serves : ∀ k, Serves sizes harmless (ps k)
      (packetsTo k (r.2.2 ++ r.2.1.sent.map (.packet f.node))) (ps' k)) (he : d' = { d with
      phase := .dispatchSvm (i + 1)
      pools := r.1
      svmFsms := d.svmFsms.set i r.2.1.fsm
      status := status }) (typed : d'.Typed) :
    Separate d' ps' ∧ Handled d.pass r.1 r.2.2 := by
  obtain ⟨hof, ht⟩ := hd.svm f hf
  obtain ⟨hlt, htype⟩ := hd.typed.svm f hf
  have hnone : (ps f.node).target = none :=
    Proc.target_of_svm ((hd.matched f.node hlt).trans htype)
  obtain ⟨hd', ht', -, hgiven⟩ := hd.driven ht (.inl hnone)
    (fun j hj => (hd.joining j hj).svm f hf) drive.plain (drive.safe hd.pools ht.commenced) serves
  obtain ⟨handled, hof'⟩ := drive.handled hd.pools hof hgiven
  refine ⟨hd'.drives (by simp [source]) (by simp) he typed handled.pools
    (fun g hg => .inl hg) fun g hg => ?_, handled⟩
  obtain hg | rfl := mem_or_eq_of_mem_set hg
  · exact .inl hg
  · rw [drive.node]
    exact .inr ⟨⟨f, hf, rfl⟩, hof', ht'.settled, fun hp => ht'.commenced (drive.past hp)⟩

/-- **A step of the main thread.** -/
theorem Separate.polls {reading : Reading} (hd : Separate d ps)
    (polls : Polls env d a reading d' new) (typed : d'.Typed)
    (serves : ∀ k, Serves sizes harmless (ps k) (packetsTo k new) (ps' k)) :
    Separate d' ps' ∧ Follows d d' new := by
  -- where no packet is sent, the nodes only act
  have quiet : (∀ l ∈ new, ∀ k m, l ≠ .packet k m) → Separate d ps' := by
    intro h
    have acts : ∀ k, Serves sizes harmless (ps k) [] (ps' k) := by
      intro k
      have serves := serves k
      rw [packetsTo_eq_nil fun l hl m => h l hl k m] at serves
      exact serves
    exact hd.acts acts
  have hchecks : d.phase.Checks → d.phase ≠ .assignNextTarget ∧ d.phase ≠ .emptyFront := by
    intro h
    constructor <;> intro e <;> rw [e] at h <;> exact h
  cases polls with
  | ask source later | emptyFront source empty | vmDone source here | svmDone source here
  | terminated source =>
    exact ⟨(quiet nofun).goto (by simp [source]) (by simp), .of_forall rfl nofun⟩
  | refuse source asked | toTerminate source asked last | toNextTarget source asked mode due =>
    exact ⟨(quiet asked.quiet.2).goto (hchecks source) (by simp), .of_forall rfl asked.quiet.1⟩
  | toDispatch source asked mode =>
    obtain ⟨hls, hplain⟩ := asked.quiet
    have quiet := quiet (forall_mem_append.2 ⟨hplain, forall_mem_singleton.2 nofun⟩)
    exact ⟨quiet.goto (hchecks source) (by simp),
      .of_forall rfl (forall_mem_append.2 ⟨hls, forall_mem_singleton.2 ⟨trivial, rfl⟩⟩)⟩
  | clear source more => exact ⟨(quiet (by simp)).clear, ⟨trivial, trivial⟩, rfl⟩
  | resetNodes source =>
    refine ⟨hd.resetNodes source serves rfl typed, .of_packets rfl fun l hl => ?_⟩
    obtain ⟨k, -, rfl⟩ := mem_map.1 hl
    exact ⟨k, _, rfl⟩
  | assignFails source result =>
    refine ⟨hd.assignFails result serves, .of_packets rfl fun l hl => ?_⟩
    obtain ⟨k, -, t, rfl⟩ := mem_assignTargets result l hl
    exact ⟨k, _, rfl⟩
  | assign source result =>
    refine ⟨hd.assign result serves, .of_forall rfl (forall_mem_append.2 ⟨fun l hl => ?_,
      forall_mem_singleton.2 ⟨trivial, rfl⟩⟩)⟩
    obtain ⟨k, -, t, rfl⟩ := mem_assignTargets result l hl
    exact ⟨trivial, rfl⟩
  | driveVm source here drive =>
    obtain ⟨hd', handled⟩ := hd.driveVm source (mem_of_getElem? here) drive serves rfl typed
    exact ⟨hd', handled.follows rfl⟩
  | driveSvm source here drive =>
    obtain ⟨hd', handled⟩ := hd.driveSvm source (mem_of_getElem? here) drive serves rfl typed
    exact ⟨hd', handled.follows rfl⟩

/-- **A step of the system.** -/
theorem Separate.evolves {s s' : System T D E} {i : SystemInput T D E}
    (hd : Separate s.dispatcher s.procs) (h : Evolves env sizes harmless s i s' new) :
    Separate s'.dispatcher s'.procs ∧ Follows s.dispatcher s'.dispatcher new := by
  cases h with
  | connect moves =>
    have typed := moves.typed hd.typed
    cases moves with
    | connect idle =>
      exact ⟨hd.connect _ _ _ rfl typed, .of_packets rfl fun l hl => ⟨_, _, mem_singleton.1 hl⟩⟩
  | callBack moves =>
    have typed := moves.typed hd.typed
    cases moves with
    | callBack known free =>
      refine ⟨hd.callBack known typed, .of_forall ?_ nofun⟩
      rw [registerNodeFsm_eq]
  | pushBack moves =>
    have typed := moves.typed hd.typed
    cases moves with
    | pushBack known => exact ⟨hd.pushBack typed, .of_forall rfl nofun⟩
  | @poll answers reading elapsed between d new ps polls serves =>
    have moves : Moves env s.dispatcher (.poll answers reading elapsed) d new := .poll polls
    exact hd.polls polls (moves.typed hd.typed) serves
  | act serves => exact ⟨hd.acts serves, .of_forall rfl nofun⟩

/-- **Targets are isolated** in every run whose nodes carry nothing over: whenever a node handles a
    reset, its queue of errors is empty and none of its instances is retrieving tests; and an
    instance that throws has no tests of another target in its buffer. -/
theorem run_isolated (sizes : Sizes T D E) (env : Env (Item T) (Item D)) (o : Options (Item T))
    {ls : List (Label (Item T) (Item D) (Item E))} {s : System T D E}
    (h : Run (System.step sizes env) (System.Allows sizes env harmless) (.init o) ls s) :
    Isolated 0 ls := by
  have inv : Separate s.dispatcher s.procs ∧ Isolated 0 ls ∧
      ls.foldl Label.passAfter 0 = s.dispatcher.pass := by
    refine h.invariant (P := fun ls s => Separate s.dispatcher s.procs ∧ Isolated 0 ls ∧
      ls.foldl Label.passAfter 0 = s.dispatcher.pass) ⟨.init o, trivial, rfl⟩ ?_
    intro ls s i new s' ih meets moves
    obtain ⟨hd, hls, hpass⟩ := ih
    obtain ⟨hd', hnew, hpass'⟩ := hd.evolves (System.step_evolves meets moves)
    rw [← hpass] at hnew hpass'
    refine ⟨hd', isolated_append.2 ⟨hls, hnew⟩, ?_⟩
    rw [foldl_append, hpass']
  exact inv.2.1

end System

/-! ## 6. Two runs -/

instance (p : Nat) (l : Label (Item T) (Item D) (Item E)) : Decidable (l.Of p) := by
  cases l <;> dsimp only [Label.Of, Item.Of] <;> infer_instance

instance : ∀ (p : Nat) (ls : List (Label (Item T) (Item D) (Item E))), Decidable (Isolated p ls)
  | _, [] => inferInstanceAs (Decidable True)
  | p, l :: ls =>
    have := instDecidableIsolated (l.passAfter p) ls
    inferInstanceAs (Decidable (l.Of p ∧ Isolated (l.passAfter p) ls))

instance [DecidableEq T] [DecidableEq D] [DecidableEq E] (sizes : Sizes T D E)
    (env : Env (Item T) (Item D)) (allowed : Proc T D E → Act T D E → Bool) (s : System T D E)
    (i : SystemInput T D E) : Decidable (s.Allows sizes env allowed i) := by
  cases i <;> dsimp only [System.Allows] <;> infer_instance

/-- Everything has one byte. -/
def smallSizes : Sizes Nat Nat Nat := ⟨fun _ => 1, fun _ => 1, fun _ => 1⟩

/-- Pools that admit every item. -/
def openItems : Env (Item Nat) (Item Nat) :=
  ⟨fun _ _ => true, fun _ _ => true, fun _ _ => false⟩

/-- Two targets, in distributed mode. -/
def itemOptions : Options (Item Nat) := ⟨true, false, ⟨"", 0⟩, none, 100, 100, 100, ["a", "b"]⟩

/-- The main thread takes `n` steps; a node that is asked has one error of the first pass. -/
def systemPolls (n elapsed : Nat) : List (SystemInput Nat Nat Nat) := replicate n
  (.poll ⟨⟨"", 0⟩, ⟨0, 0, 1, true⟩, [], [], [⟨5, some 1, false⟩]⟩ ⟨fun _ => false, id, id⟩
    elapsed [])

/-- A VM node handles `n` packets. -/
def delivers (n : Nat) : List (SystemInput Nat Nat Nat) := replicate n (.act 0 (.deliver []))

/-- A VM node registers and commences with the first target; its instance cannot connect to its
    VM, and the error is queued. -/
def errorQueued : List (SystemInput Nat Nat Nat) :=
  [.connect .vm 0 ⟨"", 0⟩, .callBack, .pushBack] ++ systemPolls 17 0 ++ delivers 4 ++
    [.act 0 (.runVm [.goes true 0 0 0]), .act 0 (.runVm [.goes true 0 0 0]),
      .act 0 (.runVm [.throws true 5]), .act 0 (.runVm [])]

/-- The error is asked for before the second target. -/
def errorInTime : List (SystemInput Nat Nat Nat) :=
  errorQueued ++ systemPolls 42 0 ++ systemPolls 9 100 ++ delivers 2

/-- The second target comes first. -/
def errorLate : List (SystemInput Nat Nat Nat) :=
  errorQueued ++ systemPolls 9 100 ++ systemPolls 10 0 ++ delivers 4 ++ systemPolls 40 0

theorem errorInTime_ends : (runGuarded (System.step smallSizes openItems)
    (System.Allows smallSizes openItems harmless) (.init itemOptions) errorInTime).map
      (fun x => (decide (.logged ⟨5, some 1, false⟩ ∈ x.2),
        decide (.packet 0 (.nextTarget "b" 2) ∈ x.2), decide ((x.1.procs 0).inbox = []))) =
    some (true, true, true) := by decide +kernel

/-- An error that is logged in time: the reset of the second pass finds nothing. -/
theorem run_isolated_error : ∃ (ls : List (Label (Item Nat) (Item Nat) (Item Nat)))
    (s : System Nat Nat Nat),
    Run (System.step smallSizes openItems) (System.Allows smallSizes openItems harmless)
      (.init itemOptions) ls s ∧
    .logged ⟨5, some 1, false⟩ ∈ ls ∧ .packet 0 (.nextTarget "b" 2) ∈ ls ∧
    (s.procs 0).inbox = [] ∧ Isolated 0 ls := by
  obtain ⟨⟨s, ls⟩, hrun, hends⟩ := Option.map_eq_some_iff.1 errorInTime_ends
  simp only [Prod.mk.injEq, decide_eq_true_eq] at hends
  have run := Run.of_guarded hrun
  exact ⟨ls, s, run, hends.1, hends.2.1, hends.2.2,
    run_isolated smallSizes openItems itemOptions run⟩

theorem errorLate_isSome : (runGuarded (System.step smallSizes openItems) (fun _ _ => True)
    (.init itemOptions) errorLate).isSome = true := by decide +kernel

/-- **An error survives the reset**: it derives from the first target, and is logged under the
    second. -/
theorem error_survives : ∃ (ls : List (Label (Item Nat) (Item Nat) (Item Nat)))
    (s : System Nat Nat Nat),
    Run (System.step smallSizes openItems) (fun _ _ => True) (.init itemOptions) ls s ∧
    s.dispatcher.pass = 2 ∧ ls.getLast? = some (.logged ⟨5, some 1, false⟩) ∧ ¬ Isolated 0 ls := by
  refine ⟨_, _, .of_isSome errorLate_isSome, ?_, ?_, ?_⟩
  all_goals decide +kernel

end Crete.Cluster
