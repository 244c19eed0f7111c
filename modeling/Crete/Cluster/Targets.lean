/-
  File:      Crete/Cluster/Targets.lean
  Subject:   Which target is sent to which node, in distributed mode.

  `assign_next_target` takes a target off the queue for every VM node, not for every pass, and a
  VM node that registers later is sent none. With one VM node that is registered in time, and a
  target to begin with, all is well.

  * `Assigned` -- targets are sent in list order, one to a pass, to all VM nodes, before they
    commence; the front of an empty queue is never taken.
  * **`run_assigned`** -- runs in which every step meets `Sole`.
  * `two_nodes_two_targets` -- without it, one pass sends two targets.
-/
import Crete.Cluster.Conservation

namespace Crete.Cluster

open Crete.Lib List

variable {T D E : Type}

/-! ## 1. What is wanted -/

/-- The target of a packet. -/
def Label.target : Label T D E → Option String
  | .packet _ (.nextTarget t _) => some t
  | _ => none

/-- The targets sent, in order. -/
def sentTargets (ls : List (Label T D E)) : List String := ls.filterMap Label.target

/-- **Targets are assigned as they should.** -/
structure Assigned (o : Options T) (ls : List (Label T D E)) (d : Dispatcher T D E) : Prop where
  /-- The front of an empty queue has not been taken. -/
  front : d.phase ≠ .emptyFront
  /-- Every target of the list has been sent once, in the order of the list, or is still queued. -/
  queue : o.items = sentTargets ls ++ d.targets
  /-- A pass takes one target off the queue and sends it to every VM node. -/
  pass : d.phase = .assignNextTarget → ∃ t rest, d.targets = t :: rest ∧
    d.assignNextTarget = ({ d with targets := rest, target := t, phase := .dispatchVm 0 },
      (d.vmNodes.map fun k => .packet k (.nextTarget t d.pass)) ++ [.dispatchBegins])
  /-- A VM node commences after it was sent the current target. -/
  commenced : ∀ k, d.type k = .vm → Preceded (.packet k (.nextTarget d.target d.pass))
    (.packet k .commence) (since Label.isCleared ls)

/-- No second VM node connects, and one is registered when a pass begins. -/
def Sole (d : Dispatcher T D E) : Input T D E → Prop
  | .connect .vm _ => ∀ k < d.connected, d.type k ≠ .vm
  | .poll _ _ _ => d.phase = .nextTarget → d.vmNodes ≠ []
  | _ => True

/-! ## 2. The invariant -/

/-- What every step that meets `Sole` keeps. -/
structure Assigning (o : Options T) (ls : List (Label T D E)) (d : Dispatcher T D E) : Prop where
  options : d.options = o
  typed : d.Typed
  sole : ∀ j k, j < d.connected → k < d.connected → d.type j = .vm → d.type k = .vm → j = k
  outside : ∀ k, d.joining = .connected k ∨ d.joining = .calledBack k → k ∉ d.nodes
  nodup : d.nodes.Nodup
  vm : 0 < d.pass → ∃ k ∈ d.nodes, d.type k = .vm
  passes : d.first = false ∨ d.phase.Dispatches ∨ d.phase = .resetNodes ∨
    d.phase = .assignNextTarget → 0 < d.pass
  front : d.phase ≠ .emptyFront
  queue : o.items = sentTargets ls ++ d.targets
  more : d.phase = .nextTarget ∨ d.phase = .resetNodes ∨ d.phase = .assignNextTarget →
    d.targets ≠ []
  start : d.first = true → d.phase.Checks → sentTargets ls = []
  asked : ∀ row q, d.phase = .inactiveCheck row q → row ≠ .terminate → d.first = false
  sent : 0 < d.pass → d.phase ≠ .resetNodes → d.phase ≠ .assignNextTarget → ∀ f ∈ d.vmFsms,
    .packet f.node (.nextTarget d.target d.pass) ∈ since Label.isCleared ls
  quiet : d.phase = .resetNodes ∨ d.phase = .assignNextTarget → ∀ k,
    .packet k .commence ∉ since Label.isCleared ls
  known : ∀ k, .packet k .commence ∈ since Label.isCleared ls → k < d.connected
  commenced : ∀ k, d.type k = .vm → Preceded (.packet k (.nextTarget d.target d.pass))
    (.packet k .commence) (since Label.isCleared ls)

/-- A label that says nothing of targets and commencement. -/
def Label.Neutral : Label T D E → Prop
  | .packet _ (.nextTarget _ _) | .packet _ .commence | .cleared => False
  | _ => True

section Neutral

variable {d : Dispatcher T D E} {o : Options T} {ls new : List (Label T D E)}

theorem Label.Neutral.target {l : Label T D E} (h : l.Neutral) : l.target = none := by
  unfold Label.target
  split
  · exact h.elim
  · rfl

theorem Label.Neutral.isCleared {l : Label T D E} (h : l.Neutral) : l.isCleared = false := by
  cases l with
  | cleared => exact h.elim
  | _ => rfl

theorem sentTargets_append (ls new : List (Label T D E)) :
    sentTargets (ls ++ new) = sentTargets ls ++ sentTargets new := filterMap_append

theorem sentTargets_of_neutral (h : ∀ l ∈ new, l.Neutral) : sentTargets new = [] :=
  filterMap_eq_nil_iff.2 fun l hl => (h l hl).target

theorem Dispatcher.Asked.neutral (h : d.Asked new) : ∀ l ∈ new, l.Neutral := by
  obtain rfl | ⟨row, q, -, rfl⟩ := h
  · nofun
  · intro l hl
    cases mem_singleton.1 hl
    trivial

/-- Labels at the end of the history that start no pass and send no target. The nodes that commence
    are known, and have the target of the pass. -/
theorem Assigning.extend (hd : Assigning o ls d) (uncleared : new.any Label.isCleared = false)
    (unsent : sentTargets new = [])
    (quiet : d.phase = .resetNodes ∨ d.phase = .assignNextTarget → ∀ k, .packet k .commence ∉ new)
    (commences : ∀ k, .packet k .commence ∈ new → k < d.connected ∧ (d.type k = .vm →
      .packet k (.nextTarget d.target d.pass) ∈ since Label.isCleared ls)) :
    Assigning o (ls ++ new) d := by
  have hs : since Label.isCleared (ls ++ new) = since Label.isCleared ls ++ new :=
    since_append_of_none _ uncleared ls
  have ht : sentTargets (ls ++ new) = sentTargets ls := by
    rw [sentTargets_append, unsent, append_nil]
  exact { hd with
    queue := by rw [ht]; exact hd.queue
    start := by rw [ht]; exact hd.start
    sent := by
      intro h1 h2 h3 f hf
      rw [hs]
      exact mem_append_left _ (hd.sent h1 h2 h3 f hf)
    quiet := by
      intro h k
      rw [hs, mem_append, not_or]
      exact ⟨hd.quiet h k, quiet h k⟩
    known := by
      intro k hk
      rw [hs] at hk
      exact (mem_append.1 hk).elim (hd.known k) fun h => (commences k h).1
    commenced := by
      intro k hk
      rw [hs]
      exact (hd.commenced k hk).append fun hm => (commences k hm).2 hk }

/-- Neutral labels at the end of the history. -/
theorem Assigning.append (hd : Assigning o ls d) (h : ∀ l ∈ new, l.Neutral) :
    Assigning o (ls ++ new) d := by
  refine hd.extend ?_ (sentTargets_of_neutral h) (fun _ k hm => h _ hm) fun k hm => (h _ hm).elim
  exact any_eq_false.2 fun l hl => by simp [(h l hl).isCleared]

theorem Shows.target {k : Nat} {type : NodeType} {l : Label T D E} (h : Shows k type l) :
    l.target = none := by
  cases h with
  | @early _ q h => cases q <;> first | exact h.elim | rfl
  | _ => rfl

theorem Shows.commence_eq {j k : Nat} {type : NodeType}
    (h : Shows k type (.packet j .commence : Label T D E)) : j = k := by
  cases h <;> rfl

end Neutral

/-! ## 3. One step -/

section Step

variable {env : Env T D} {d d' : Dispatcher T D E} {o : Options T} {ls new : List (Label T D E)}
  {a : Answers T D E} {reading : Reading}

variable {status : Nat → NodeStatus}

section

variable (hd : Assigning o ls d)

include hd

/-- The main thread goes from a guard, from `dispatch` or from the end of a target to another
    phase. -/
theorem Assigning.goto {p : Phase} (h1 : d.phase ≠ .resetNodes)
    (h2 : d.phase ≠ .assignNextTarget) (h3 : p ≠ .resetNodes) (h4 : p ≠ .assignNextTarget)
    (front : p ≠ .emptyFront) (dispatches : p.Dispatches → 0 < d.pass)
    (more : p = .nextTarget → d.targets ≠ []) (start : d.first = true → p.Checks → d.phase.Checks)
    (asked : ∀ row q, p = .inactiveCheck row q → row ≠ .terminate → d.first = false) :
    Assigning o ls { d with phase := p } :=
  { hd with
    typed := { hd.typed with }
    passes := by
      intro h
      obtain h | h | h | h := h
      · exact hd.passes (.inl h)
      · exact dispatches h
      · exact absurd h h3
      · exact absurd h h4
    front := front
    more := by
      intro h
      obtain h | h | h := h
      · exact more h
      · exact absurd h h3
      · exact absurd h h4
    start := fun h hc => hd.start h (start h hc)
    asked := asked
    sent := fun hp _ _ => hd.sent hp h1 h2
    quiet := fun h => absurd h (not_or.2 ⟨h3, h4⟩) }

/-- The labels of a node that is driven. -/
theorem Assigning.shows {k : Nat} {type : NodeType} (hk : k < d.connected)
    (h1 : d.phase ≠ .resetNodes) (h2 : d.phase ≠ .assignNextTarget)
    (hsent : d.type k = .vm → .packet k (.nextTarget d.target d.pass) ∈ since Label.isCleared ls)
    (h : ∀ l ∈ new, Shows k type l) : Assigning o (ls ++ new) d := by
  refine hd.extend (Shows.not_any h).1 ?_ (fun h => absurd h (not_or.2 ⟨h1, h2⟩)) fun j hj => ?_
  · exact filterMap_eq_nil_iff.2 fun l hl => (h l hl).target
  · cases (h _ hj).commence_eq
    exact ⟨hk, hsent⟩

/-- A machine has been driven. -/
theorem Assigning.drives (source : d.phase.Dispatches) {p : Phase}
    (hp : p.Dispatches) {pools : Pools T D} {fs : List (VmFsm D E)} {gs : List (SvmFsm T E)}
    (typed : Dispatcher.Typed { d with
      phase := p, pools := pools, vmFsms := fs, svmFsms := gs, status := status })
    (hfs : ∀ f ∈ fs, ∃ g ∈ d.vmFsms, f.node = g.node) : Assigning o ls { d with
      phase := p, pools := pools, vmFsms := fs, svmFsms := gs, status := status } := by
  have hne : ∀ {q : Phase}, q.Dispatches → q ≠ .nextTarget ∧ q ≠ .resetNodes ∧
      q ≠ .assignNextTarget ∧ q ≠ .emptyFront := by
    intro q hq
    cases q <;> first | exact hq.elim | exact ⟨nofun, nofun, nofun, nofun⟩
  obtain ⟨h1, h2, h3, h4⟩ := hne hp
  exact { hd with
    typed := typed
    passes := fun _ => hd.passes (.inr (.inl source))
    front := h4
    more := fun h => absurd h (not_or.2 ⟨h1, not_or.2 ⟨h2, h3⟩⟩)
    start := fun _ h => absurd hp h.not_dispatches
    asked := by
      rintro row q rfl
      exact hp.elim
    sent := by
      intro hpass _ _ f hf
      obtain ⟨g, hg, he⟩ := hfs f hf
      rw [he]
      exact hd.sent hpass (hne source).2.1 (hne source).2.2.1 g hg
    quiet := fun h => absurd h (not_or.2 ⟨h2, h3⟩) }

/-- A node connects. -/
theorem Assigning.connect {type : NodeType} {status : NodeStatus}
    (hs : Sole d (.connect type status)) (typed : Dispatcher.Typed { d with
      connected := d.connected + 1
      type := Function.update d.type d.connected type
      status := Function.update d.status d.connected status
      joining := .connected d.connected }) :
    Assigning o (ls ++ [.packet d.connected (.statusRequest status)]) { d with
      connected := d.connected + 1
      type := Function.update d.type d.connected type
      status := Function.update d.status d.connected status
      joining := .connected d.connected } := by
  have hd' : Assigning o (ls ++ [.packet d.connected (.statusRequest status)]) d :=
    hd.append fun l hl => by
      cases mem_singleton.1 hl
      trivial
  have old : ∀ {k}, k < d.connected → Function.update d.type d.connected type k = d.type k :=
    fun hk => Function.update_of_ne (Nat.ne_of_lt hk) _ _
  have new : Function.update d.type d.connected type d.connected = type :=
    Function.update_self ..
  -- a second VM node is not let in
  have only : ∀ k < d.connected, d.type k = .vm → type ≠ .vm := by
    rintro k hk hv rfl
    exact hs k hk hv
  exact { hd' with
    typed := typed
    sole := by
      intro j k hj hk vj vk
      obtain hj | rfl := Nat.lt_succ_iff_lt_or_eq.1 hj <;>
        obtain hk | rfl := Nat.lt_succ_iff_lt_or_eq.1 hk
      · exact hd.sole j k hj hk ((old hj).symm.trans vj) ((old hk).symm.trans vk)
      · exact absurd (new.symm.trans vk) (only j hj ((old hj).symm.trans vj))
      · exact absurd (new.symm.trans vj) (only k hk ((old hk).symm.trans vk))
      · rfl
    outside := by
      rintro k (hk | hk)
      · cases hk
        exact fun hm => absurd (hd.typed.nodes _ hm) (Nat.lt_irrefl _)
      · cases hk
    vm := by
      intro hp
      obtain ⟨k, hk, hv⟩ := hd.vm hp
      exact ⟨k, hk, (old (hd.typed.nodes k hk)).trans hv⟩
    known := fun k hk => Nat.lt_succ_of_lt (hd'.known k hk)
    commenced := by
      intro k hk
      by_cases hlt : k < d.connected
      · exact hd'.commenced k ((old hlt).symm.trans hk)
      · exact preceded_of_not_mem fun hm => hlt (hd'.known k hm) }

/-- A node is given its machine. A VM node is given one before the first pass only: in later ones
    the VM node is registered. -/
theorem Assigning.callBack {k : Nat} (known : d.joining = .connected k)
    (typed : Dispatcher.Typed { d.registerNodeFsm k with joining := .calledBack k }) :
    Assigning o ls { d.registerNodeFsm k with joining := .calledBack k } := by
  rw [registerNodeFsm_eq] at typed ⊢
  exact { hd with
    typed := typed
    outside := by
      rintro j (hj | hj)
      · cases hj
      · cases hj
        exact hd.outside k (.inl known)
    sent := by
      intro hp h1 h2 f hf
      obtain hf | hf := mem_append.1 hf
      · exact hd.sent hp h1 h2 f hf
      · obtain ⟨j, hj, hv⟩ := hd.vm hp
        obtain ⟨ht, -, -⟩ := mem_newVm hf
        have hk : k < d.connected := hd.typed.joining k (.inl known)
        cases hd.sole j k (hd.typed.nodes j hj) hk hv ht
        exact absurd hj (hd.outside _ (.inl known)) }

/-- A node is put on the list of nodes. -/
theorem Assigning.pushBack {k : Nat} (known : d.joining = .calledBack k)
    (typed : Dispatcher.Typed { d with nodes := d.nodes ++ [k], joining := .waiting }) :
    Assigning o ls { d with nodes := d.nodes ++ [k], joining := .waiting } := by
  exact { hd with
    typed := typed
    outside := by rintro j (hj | hj) <;> cases hj
    nodup := by
      refine hd.nodup.append (nodup_singleton k) ?_
      rw [disjoint_singleton]
      exact hd.outside k (.inr known)
    vm := by
      intro hp
      obtain ⟨j, hj, hv⟩ := hd.vm hp
      exact ⟨j, mem_append_left _ hj, hv⟩ }

/-- A pass begins. -/
theorem Assigning.clear (hs : d.vmNodes ≠ []) (more : d.targets ≠ []) :
    Assigning o (ls ++ [.cleared]) { d with
      phase := .resetNodes, pass := d.pass + 1, pools := .new, vmFsms := [], svmFsms := [] } := by
  have hsince : since Label.isCleared (ls ++ [(.cleared : Label T D E)]) = [] :=
    since_append_last _ rfl ls
  have ht : sentTargets (ls ++ [(.cleared : Label T D E)]) = sentTargets ls := by
    rw [sentTargets_append]
    exact append_nil _
  exact { hd with
    typed := ⟨forall_mem_nil _, forall_mem_nil _, hd.typed.nodes, hd.typed.joining⟩
    vm := by
      intro _
      obtain ⟨k, hk⟩ := exists_mem_of_ne_nil _ hs
      obtain ⟨hk, hv⟩ := mem_filter.1 hk
      exact ⟨k, hk, by simpa using hv⟩
    passes := fun _ => Nat.succ_pos _
    front := nofun
    queue := by rw [ht]; exact hd.queue
    more := fun _ => more
    start := fun _ h => h.elim
    asked := nofun
    sent := fun _ h => absurd rfl h
    quiet := by
      intro _ k
      rw [hsince]
      exact not_mem_nil
    known := by
      intro k hk
      rw [hsince] at hk
      cases hk
    commenced := by
      intro k _
      rw [hsince]
      exact preceded_of_not_mem not_mem_nil }

/-- The nodes are reset. -/
theorem Assigning.resetNodes (source : d.phase = .resetNodes)
    {fs : List (VmFsm D E)} {gs : List (SvmFsm T E)} (typed : Dispatcher.Typed { d with
      phase := .assignNextTarget, vmFsms := fs, svmFsms := gs, status := status }) :
    Assigning o (ls ++ d.nodes.map fun k => .packet k .reset) { d with
      phase := .assignNextTarget, vmFsms := fs, svmFsms := gs, status := status } := by
  have hd' : Assigning o (ls ++ d.nodes.map fun k => .packet k .reset) d :=
    hd.append fun l hl => by
      obtain ⟨k, -, rfl⟩ := mem_map.1 hl
      trivial
  exact { hd' with
    typed := typed
    passes := fun _ => hd'.passes (.inr (.inr (.inl source)))
    front := nofun
    more := fun _ => hd'.more (.inr (.inl source))
    start := fun _ h => h.elim
    asked := nofun
    sent := fun _ _ h => absurd rfl h
    quiet := fun _ => hd'.quiet (.inl source) }

/-- In a pass there is one VM node. -/
theorem Assigning.vmNodes_eq (hp : 0 < d.pass) : ∃ k, d.type k = .vm ∧ d.vmNodes = [k] := by
  obtain ⟨k, hk, hv⟩ := hd.vm hp
  refine ⟨k, hv, ?_⟩
  have hnd : d.vmNodes.Nodup := hd.nodup.filter _
  have hmem : k ∈ d.vmNodes := mem_filter.2 ⟨hk, by simpa using hv⟩
  have hall : ∀ j ∈ d.vmNodes, j = k := by
    intro j hj
    obtain ⟨hj, hvj⟩ := mem_filter.1 hj
    exact hd.sole j k (hd.typed.nodes j hj) (hd.typed.nodes k hk) (by simpa using hvj) hv
  exact perm_singleton.1 ((perm_ext_iff_of_nodup hnd (nodup_singleton k)).2
    fun j => ⟨fun hj => mem_singleton.2 (hall j hj), fun hj => by
      cases mem_singleton.1 hj
      exact hmem⟩)

/-- The one VM node is sent the first target of the queue. -/
theorem Assigning.assignTargets_eq (source : d.phase = .assignNextTarget) :
    ∃ k t rest, d.type k = .vm ∧ d.vmNodes = [k] ∧ d.targets = t :: rest ∧
      (Dispatcher.assignTargets d.pass d.vmNodes d.targets d.target :
        List (Label T D E) × List String × Option String) =
          ([.packet k (.nextTarget t d.pass)], rest, some t) := by
  obtain ⟨k, hv, hk⟩ := hd.vmNodes_eq (hd.passes (.inr (.inr (.inr source))))
  obtain ⟨t, rest, ht⟩ := exists_cons_of_ne_nil (hd.more (.inr (.inr source)))
  exact ⟨k, t, rest, hv, hk, ht, by rw [hk, ht]; rfl⟩

/-- The target is sent. -/
theorem Assigning.assign (source : d.phase = .assignNextTarget)
    {k : Nat} {t : String} {rest : List String} (hv : d.type k = .vm) (hk : d.vmNodes = [k])
    (ht : d.targets = t :: rest) :
    Assigning o (ls ++ [.packet k (.nextTarget t d.pass), .dispatchBegins])
      { d with targets := rest, target := t, phase := .dispatchVm 0 } := by
  have hsince : since Label.isCleared (ls ++ [.packet k (.nextTarget t d.pass), .dispatchBegins]) =
      since Label.isCleared ls ++ [.packet k (.nextTarget t d.pass), .dispatchBegins] :=
    since_append_of_none _ rfl ls
  have quiet : ∀ j, .packet j .commence ∉ since Label.isCleared ls ++
      [.packet k (.nextTarget t d.pass), .dispatchBegins] := by
    intro j
    rw [mem_append, not_or]
    exact ⟨hd.quiet (.inr source) j, by simp⟩
  have hp : 0 < d.pass := hd.passes (.inr (.inr (.inr source)))
  have hkn : k ∈ d.nodes := (mem_filter.1 (hk ▸ mem_singleton_self k)).1
  exact { hd with
    typed := { hd.typed with }
    passes := fun _ => hp
    front := nofun
    queue := by
      have hq := hd.queue
      rw [ht] at hq
      rw [hq, sentTargets_append, append_assoc]
      rfl
    more := by rintro (h | h | h) <;> cases h
    start := fun _ h => h.elim
    asked := nofun
    sent := by
      intro _ _ _ f hf
      obtain ⟨hc, hf⟩ := hd.typed.vm f hf
      rw [hd.sole f.node k hc (hd.typed.nodes k hkn) hf hv, hsince]
      exact mem_append_right _ (.head _)
    quiet := by rintro (h | h) <;> cases h
    known := by
      intro j hj
      rw [hsince] at hj
      exact absurd hj (quiet j)
    commenced := by
      intro j _
      rw [hsince]
      exact preceded_of_not_mem (quiet j) }

/-- `dispatch` is over for the first time, or again. -/
theorem Assigning.later (hp : 0 < d.pass) : Assigning o ls { d with first := false } :=
  { hd with
    typed := { hd.typed with }
    passes := fun _ => hp
    start := nofun
    asked := fun _ _ _ _ => rfl }

end

theorem Phase.Checks.ne {p : Phase} (h : p.Checks) : p ≠ .resetNodes ∧ p ≠ .assignNextTarget := by
  constructor
  · rintro rfl
    exact h
  · rintro rfl
    exact h

/-- **A step of the main thread.** -/
theorem Assigning.polls (hd : Assigning o ls d) (hdist : o.distributed = true)
    (hitems : o.items ≠ []) (hs : d.phase = .nextTarget → d.vmNodes ≠ []) (typed : d'.Typed)
    (h : Polls env d a reading d' new) : Assigning o (ls ++ new) d' := by
  cases h with
  | ask source later =>
    rw [append_nil]
    refine hd.goto (by simp [source]) (by simp [source]) nofun nofun nofun nofun nofun
      (fun _ _ => by rw [source]; trivial) ?_
    rintro row q ⟨⟩ hrow
    exact later hrow
  | refuse source asked =>
    exact (hd.append asked.neutral).goto source.ne.1 source.ne.2 nofun nofun nofun nofun nofun
      (fun _ _ => source) nofun
  | toTerminate source asked last =>
    exact (hd.append asked.neutral).goto source.ne.1 source.ne.2 nofun nofun nofun nofun nofun
      nofun nofun
  | toNextTarget source asked mode due =>
    refine (hd.append asked.neutral).goto source.ne.1 source.ne.2 nofun nofun nofun nofun
      (fun _ => ?_) nofun nofun
    obtain first | more := due
    · -- no target has been sent before the first pass
      have queue := hd.queue
      rw [hd.start first source, nil_append] at queue
      rw [← queue]
      exact hitems
    · exact more
  | @toDispatch shown source asked mode =>
    have neutral : ∀ l ∈ shown ++ [.dispatchBegins], l.Neutral := by
      intro l hl
      obtain hl | hl := mem_append.1 hl
      · exact asked.neutral l hl
      · cases mem_singleton.1 hl
        trivial
    refine (hd.append neutral).goto source.ne.1 source.ne.2 nofun nofun nofun (fun _ => ?_)
      nofun nofun nofun
    obtain mode | ⟨q, mode⟩ := mode
    · rw [hd.options, hdist] at mode
      cases mode
    · exact hd.passes (.inl (hd.asked .dispatch q mode nofun))
  | emptyFront source empty => exact absurd empty (hd.more (.inl source))
  | clear source more => exact hd.clear (hs source) more
  | resetNodes source => exact hd.resetNodes source typed
  | assignFails source result =>
    obtain ⟨k, t, rest, -, -, -, he⟩ := hd.assignTargets_eq source
    rw [he] at result
    cases result
  | assign source result =>
    obtain ⟨k, t, rest, hv, hk, ht, he⟩ := hd.assignTargets_eq source
    rw [he] at result
    cases result
    exact hd.assign source hv hk ht
  | @driveVm i f r source here drive =>
    have hf : f ∈ d.vmFsms := mem_of_getElem? here
    have hp : 0 < d.pass := hd.passes (.inr (.inl (by rw [source]; trivial)))
    have h1 : d.phase ≠ .resetNodes := by simp [source]
    have h2 : d.phase ≠ .assignNextTarget := by simp [source]
    have labels := hd.shows (hd.typed.vm f hf).1 h1 h2 (fun _ => hd.sent hp h1 h2 f hf) drive.shows
    refine labels.drives (p := .dispatchVm (i + 1)) (by rw [source]; trivial) trivial typed
      fun g hg => ?_
    obtain hg | rfl := mem_or_eq_of_mem_set hg
    · exact ⟨g, hg, rfl⟩
    · exact ⟨f, hf, drive.node⟩
  | vmDone source here =>
    rw [append_nil]
    have hp : 0 < d.pass := hd.passes (.inr (.inl (by rw [source]; trivial)))
    exact hd.goto (by simp [source]) (by simp [source]) nofun nofun nofun (fun _ => hp) nofun
      nofun nofun
  | @driveSvm i f r source here drive =>
    obtain ⟨hk, htype⟩ := hd.typed.svm f (mem_of_getElem? here)
    have labels := hd.shows hk (by simp [source]) (by simp [source])
      (fun hv => by rw [htype] at hv; cases hv) drive.shows
    exact labels.drives (p := .dispatchSvm (i + 1)) (by rw [source]; trivial) trivial typed
      fun g hg => ⟨g, hg, rfl⟩
  | svmDone source here =>
    rw [append_nil]
    have hp : 0 < d.pass := hd.passes (.inr (.inl (by rw [source]; trivial)))
    exact (hd.later hp).goto (by simp [source]) (by simp [source]) nofun nofun nofun nofun nofun
      nofun nofun
  | terminated source =>
    rw [append_nil]
    exact hd.goto (by simp [source]) (by simp [source]) nofun nofun nofun nofun nofun nofun nofun

/-- **A step of either thread.** -/
theorem Assigning.moves (hd : Assigning o ls d) (hdist : o.distributed = true)
    (hitems : o.items ≠ []) {i : Input T D E} (hs : Sole d i) (h : Moves env d i d' new) :
    Assigning o (ls ++ new) d' := by
  have typed : d'.Typed := h.typed hd.typed
  cases h with
  | connect idle => exact hd.connect hs typed
  | callBack known free =>
    rw [append_nil]
    exact hd.callBack known typed
  | pushBack known =>
    rw [append_nil]
    exact hd.pushBack known typed
  | poll polls => exact hd.polls hdist hitems hs typed polls

theorem Assigning.init (o : Options T) : Assigning o ([] : List (Label T D E)) (.init o) where
  options := rfl
  typed := .init o
  sole := nofun
  outside := fun _ h => h.elim nofun nofun
  nodup := .nil
  vm := nofun
  passes := by rintro (h | h | h | h) <;> cases h
  front := nofun
  queue := rfl
  more := by rintro (h | h | h) <;> cases h
  start := fun _ _ => rfl
  asked := nofun
  sent := nofun
  quiet := by rintro (h | h) <;> cases h
  known := nofun
  commenced := fun _ _ => preceded_of_not_mem not_mem_nil

/-- What is wanted follows. -/
theorem Assigning.assigned (hd : Assigning o ls d) : Assigned o ls d where
  front := hd.front
  queue := hd.queue
  pass := by
    intro source
    obtain ⟨k, t, rest, -, hk, ht, he⟩ := hd.assignTargets_eq source
    refine ⟨t, rest, ht, ?_⟩
    rw [Dispatcher.assignNextTarget, he, hk]
    rfl
  commenced := hd.commenced

end Step

/-! ## 4. Runs -/

/-- **Targets with one VM node.** In distributed mode, with a target to begin with, every state
    that is reached by steps that meet `Sole` has the targets assigned as they should. -/
theorem run_assigned (env : Env T D) (o : Options T) (hdist : o.distributed = true)
    (hitems : o.items ≠ []) {ls : List (Label T D E)} {d : Dispatcher T D E}
    (h : Run (step env) Sole (.init o) ls d) : Assigned o ls d := by
  have inv : Assigning o ls d := by
    refine h.invariant (Assigning.init o) ?_
    intro ls d i new d' hd hs moves
    exact hd.moves hdist hitems hs (step_moves moves)
  exact inv.assigned

instance (d : Dispatcher T D E) (i : Input T D E) : Decidable (Sole d i) := by
  unfold Sole
  split <;> infer_instance

/-- Two targets, in distributed mode. -/
def targetOptions : Options Nat := ⟨true, false, ⟨"", 0⟩, none, 100, 100, 100, ["a", "b"]⟩

/-- A node of the given type registers. -/
def joins (type : NodeType) : List (Input Nat Nat Nat) :=
  [.connect type ⟨0, 0, 0, true⟩, .callBack, .pushBack]

/-- The main thread takes `n` steps; the nodes have nothing to offer. -/
def polls (n elapsed : Nat) : List (Input Nat Nat Nat) := replicate n
  (.poll ⟨⟨"", 0⟩, ⟨0, 0, 0, true⟩, [], [], []⟩ ⟨fun _ => false, id, id⟩ elapsed)

theorem oneNode_isSome : (runGuarded (step openEnv) Sole (.init targetOptions)
    (joins .vm ++ joins .svm ++ polls 60 0 ++ polls 8 100)).isSome = true := by decide +kernel

/-- One VM node: the first pass sends the first target, the second pass the second. -/
theorem run_assigned_one : ∃ (ls : List (Label Nat Nat Nat)) (d : Dispatcher Nat Nat Nat),
    targetOptions.distributed = true ∧ targetOptions.items ≠ [] ∧
    .packet 0 (.nextTarget "a" 1) ∈ ls ∧ .packet 0 .commence ∈ ls ∧
    .packet 0 (.nextTarget "b" 2) ∈ ls ∧ Assigned targetOptions ls d := by
  refine ⟨_, _, rfl, nofun, ?_, ?_, ?_,
    run_assigned openEnv targetOptions rfl nofun (.of_isSome oneNode_isSome)⟩
  all_goals decide +kernel

theorem twoNodes_isSome : (runGuarded (step openEnv) (fun _ _ => True) (.init targetOptions)
    (joins .vm ++ joins .vm ++ polls 7 0)).isSome = true := by decide +kernel

/-- **Two VM nodes:** the first pass sends both targets, one to each node. -/
theorem two_nodes_two_targets : ∃ (ls : List (Label Nat Nat Nat)) (d : Dispatcher Nat Nat Nat),
    Run (step openEnv) (fun _ _ => True) (.init targetOptions) ls d ∧ d.pass = 1 ∧
    .packet 0 (.nextTarget "a" 1) ∈ ls ∧ .packet 1 (.nextTarget "b" 1) ∈ ls ∧ d.targets = [] := by
  refine ⟨_, _, .of_isSome twoNodes_isSome, ?_, ?_, ?_, ?_⟩
  all_goals decide +kernel

end Crete.Cluster
