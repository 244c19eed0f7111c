/-
  File:      Crete/Cluster/Provenance.lean
  Subject:   Where the items of a node come from, and what a reset leaves of them.

  Between two targets dispatch starts anew and sends every node a reset. A reset leaves the errors
  of a node in their queue. On an SVM node it leaves the instances alone: a retrieval that is going
  on writes into the buffer of an instance later, and the buffer is handed over once more when the
  instance fails.

  * `Isolated` -- what goes into the pools and logs derives from the target of its pass, or from
    none.
  * `harmless` -- a reset finds no errors and no retrieval, and an instance that throws has no tests
    of another target in its buffer.
  * **`Serves.keeps`**, **`Serves.reset`** -- nodes stay settled, and a reset settles them.
-/
import Crete.Cluster.System

namespace Crete.Cluster

open Crete.Lib List Option

variable {T D E : Type}

/-! ## 1. What is wanted -/

/-- No pass, or this one. -/
def Within (p : Nat) (q : Option Nat) : Prop := q = none ∨ q = some p
  deriving Decidable

/-- The item derives from the target of this pass, or from no target. -/
def Item.Of {α : Type} (p : Nat) (i : Item α) : Prop := Within p i.pass

/-- What is delivered to the pools or written to the logs is of this pass. -/
def Label.Of (p : Nat) : Label (Item T) (Item D) (Item E) → Prop
  | .insertedTrace t => t.data.Of p
  | .insertedTest t => t.Of p
  | .logged e => e.Of p
  | _ => True

/-- The pass after a label. -/
def Label.passAfter (p : Nat) : Label (Item T) (Item D) (Item E) → Nat
  | .cleared => p + 1
  | _ => p

/-- **No target reaches into another**: each label of a history, read from pass `p` on, is of the
    pass that it stands in. -/
def Isolated : Nat → List (Label (Item T) (Item D) (Item E)) → Prop
  | _, [] => True
  | p, l :: ls => l.Of p ∧ Isolated (l.passAfter p) ls

theorem isolated_append {new : List (Label (Item T) (Item D) (Item E))} :
    ∀ {ls : List (Label (Item T) (Item D) (Item E))} {p : Nat},
      Isolated p (ls ++ new) ↔ Isolated p ls ∧ Isolated (ls.foldl Label.passAfter p) new := by
  intro ls
  induction ls with
  | nil =>
    intro p
    exact ⟨fun h => ⟨trivial, h⟩, And.right⟩
  | cons l ls ih =>
    intro p
    rw [cons_append, Isolated, Isolated, ih, and_assoc]
    rfl

/-- Labels that start no pass. -/
theorem isolated_of_forall {p : Nat} {ls : List (Label (Item T) (Item D) (Item E))}
    (h : ∀ l ∈ ls, l.Of p ∧ l.passAfter p = p) :
    Isolated p ls ∧ ls.foldl Label.passAfter p = p := by
  induction ls with
  | nil => exact ⟨trivial, rfl⟩
  | cons l ls ih =>
    have hl := h l (.head _)
    obtain ⟨h₁, h₂⟩ := ih (forall_mem_cons.1 h).2
    rw [Isolated, foldl_cons, hl.2]
    exact ⟨⟨hl.1, h₁⟩, h₂⟩

theorem Within.none (p : Nat) : Within p none := .inl rfl

theorem Within.older {p : Nat} {a b : Option Nat} (ha : Within p a) (hb : Within p b) :
    Within p (older a b) := by
  obtain rfl | rfl := ha
  · exact hb
  · obtain rfl | rfl := hb
    · exact .inr rfl
    · exact .inr (congrArg some (Nat.min_self p))

/-! ## 2. Instances and nodes that hold nothing of another pass -/

/-- The queues of a node. -/
structure Node.Clean (p : Nat) (n : Node T D E) : Prop where
  tests : ∀ t ∈ n.tests, t.Of p
  traces : ∀ t ∈ n.traces, t.data.Of p
  errors : ∀ e ∈ n.errors, e.Of p

/-- An instance of a VM node. -/
structure Qemu.Clean (p : Nat) (q : Qemu T D E) : Prop where
  pass : Within p q.pass
  test : ∀ t ∈ q.test, t.Of p
  trace : ∀ t ∈ q.trace, t.data.Of p
  initialTest : ∀ t ∈ q.initialTest, t.Of p
  errorLog : ∀ e ∈ q.errorLog, e.Of p

/-- An instance of an SVM node: what a retrieval is going to write. -/
def Klee.Clean (p : Nat) (k : Klee T D E) : Prop := ∀ ts ∈ k.retrieving, ∀ t ∈ ts, t.Of p

/-- The tests in the buffer are handed over, or about to be. -/
def Klee.Hands (k : Klee T D E) : Prop :=
  k.error = true ∨ k.state = .resultReady ∨ (k.state = .finished ∧ k.retrieving = none)

/-- An instance of a node that has commenced. The trace counts while it is worked on, the buffer
    when it is handed over. -/
structure Klee.Working (p : Nat) (k : Klee T D E) : Prop where
  trace : k.state ≠ .nextTrace → Within p k.pass
  errorLog : k.error = true → ∀ e ∈ k.errorLog, e.Of p
  tests : k.Hands → ∀ t ∈ k.tests, t.Of p

/-- A VM node. Instances that are started anew are given the target of the node. -/
structure VmNode.Clean (p : Nat) (n : VmNode T D E) : Prop where
  base : n.base.Clean p
  vms : ∀ q ∈ n.vms, q.Clean p
  target : n.base.commenced = true → Within p n.pass

/-- An SVM node. -/
structure SvmNode.Clean (p : Nat) (n : SvmNode T D E) : Prop where
  base : n.base.Clean p
  svms : ∀ k ∈ n.svms, k.Clean p
  working : n.base.commenced = true → ∀ k ∈ n.svms, k.Working p

section Vm

variable {p : Nat} {q : Qemu T D E} {n : VmNode T D E}

theorem Qemu.Clean.new : (Qemu.new : Qemu T D E).Clean p :=
  ⟨.none p, nofun, nofun, nofun, nofun⟩

section

variable (h : q.Clean p)

include h

theorem Qemu.Clean.throw (vmException : Bool) (log : E) : (q.throw vmException log).Clean p := by
  have herr : ∀ e ∈ some (⟨log, q.pass, false⟩ : Item E), e.Of p := by
    intro e he
    cases mem_some_iff.1 he
    exact h.pass
  unfold Qemu.throw
  simp only
  split
  · exact { h with errorLog := herr }
  · exact { h with errorLog := herr }

theorem Qemu.Clean.begin {pass : Option Nat} (hp : Within p pass)
    (o : NodeOptions (Item T)) (first : Bool) (target : String) (out : VmOutcome T D E) :
    (q.begin o first target pass out).Clean p := by
  cases out with
  | throws v log => exact h.throw false log
  | _ => exact { h with pass := hp }

theorem Qemu.Clean.traceOf (uuid : Nat) (data : D) : (q.traceOf uuid data).data.Of p := by
  refine Within.older h.pass ?_
  cases ht : q.test with
  | none => exact .none p
  | some t => exact h.test t ht

theorem Qemu.Clean.advance (valid : Bool) (guest : T) (uuid : Nat) (data : D) :
    (q.advance valid guest uuid data).Clean p := by
  unfold Qemu.advance
  split
  case h_3 =>
    split
    · exact h
    · exact { h with }
  case h_4 =>
    refine { h with initialTest := fun t ht => ?_ }
    cases mem_some_iff.1 ht
    exact h.pass
  case h_6 =>
    refine { h with trace := fun t ht => ?_ }
    cases mem_some_iff.1 ht
    exact h.traceOf uuid data
  all_goals first
    | exact h
    | exact { h with }

theorem Qemu.Clean.poll (out : VmOutcome T D E) : (q.poll out).Clean p := by
  unfold Qemu.poll
  split
  · exact h
  · split
    case h_1 | h_2 => exact { h with }
    all_goals first
      | exact h
      | (cases out with
         | waits => exact h
         | goes valid guest uuid data => exact h.advance valid guest uuid data
         | throws v log => exact h.throw v log)

theorem Qemu.Clean.nextTest {t : Item T} (ht : t.Of p) (out : VmOutcome T D E) :
    (q.nextTest t out).2.Clean p := by
  unfold Qemu.nextTest
  split
  · exact h
  · cases out with
    | waits => exact h
    | throws v log => exact h.throw v log
    | goes valid guest uuid data =>
      refine { h with test := fun u hu => ?_ }
      cases mem_some_iff.1 hu
      exact ht

theorem Qemu.Clean.traceQueued : q.traceQueued.Clean p := by
  unfold Qemu.traceQueued
  split
  · exact h
  · exact { h with }

theorem VmNode.initial_of : ∀ t ∈ n.initial q, t.Of p := by
  unfold VmNode.initial
  split
  · intro t ht
    cases mem_singleton.1 ht
    exact .none p
  · intro t ht
    exact h.initialTest t (mem_toList.1 ht)

end

/-- One instance is polled. -/
theorem VmNode.pollInstance_clean (hn : n.base.Clean p) (ht : Within p n.pass) (hq : q.Clean p)
    (out : VmOutcome T D E) :
    (n.pollInstance q out).1.base.Clean p ∧ (n.pollInstance q out).2.Clean p := by
  unfold VmNode.pollInstance
  split
  · refine ⟨{ hn with traces := forall_mem_append.2 ⟨hn.traces, fun t ht => ?_⟩ }, hq.traceQueued⟩
    exact hq.trace t (mem_toList.1 ht)
  · split
    · cases htests : n.base.tests with
      | nil => exact ⟨hn, hq⟩
      | cons t rest =>
        have hall : ∀ u ∈ t :: rest, u.Of p := htests ▸ hn.tests
        have hhead : t.Of p := hall t (.head _)
        refine ⟨{ hn with tests := fun u hu => ?_ }, hq.nextTest hhead out⟩
        simp only at hu
        split at hu
        · exact hall u (mem_cons_of_mem t hu)
        · obtain hu | hu := mem_append.1 hu
          · exact hall u (mem_cons_of_mem t hu)
          · cases mem_singleton.1 hu
            exact hhead
    · split
      · exact ⟨{ hn with tests := forall_mem_append.2 ⟨hn.tests, initial_of hq⟩ }, hq.poll out⟩
      · split
        · refine ⟨{ hn with errors := forall_mem_append.2 ⟨hn.errors, fun e he => ?_⟩ },
            Qemu.Clean.new.begin ht _ _ _ _⟩
          exact hq.errorLog e (mem_toList.1 he)
        · split
          · exact ⟨hn, hq⟩
          · exact ⟨hn, hq.poll out⟩

/-- All instances are polled. -/
theorem VmNode.pollVms_clean (qs : List (Qemu T D E)) : ∀ {n : VmNode T D E}, n.base.Clean p →
    Within p n.pass → (∀ q ∈ qs, q.Clean p) → ∀ outs : List (VmOutcome T D E),
    (n.pollVms qs outs).1.base.Clean p ∧ ∀ q ∈ (n.pollVms qs outs).2, q.Clean p := by
  induction qs with
  | nil =>
    intro n hn _ _ outs
    exact ⟨hn, forall_mem_nil _⟩
  | cons q qs ih =>
    intro n hn ht hqs outs
    have hone := pollInstance_clean hn ht (hqs q (.head _)) (outs.headD .waits)
    have ht' : Within p (n.pollInstance q (outs.headD .waits)).1.pass := by
      rw [(pollInstance_frame n q _).pass]
      exact ht
    have hrest := ih hone.1 ht' (forall_mem_cons.1 hqs).2 outs.tail
    exact ⟨hrest.1, forall_mem_cons.2 ⟨hone.2, hrest.2⟩⟩

theorem VmNode.Clean.run (h : n.Clean p) (outs : List (VmOutcome T D E)) :
    (n.run outs).Clean p := by
  have hframe := n.run_frame outs
  have htarget : (n.run outs).base.commenced = true → Within p (n.run outs).pass := by
    rw [hframe.commenced, hframe.pass]
    exact h.target
  unfold VmNode.run at htarget ⊢
  split at htarget
  · rename_i hc
    rw [if_pos hc]
    have hpoll := pollVms_clean n.vms h.base (h.target hc) h.vms outs
    exact ⟨{ hpoll.1 with }, hpoll.2, htarget⟩
  · rename_i hc
    rw [if_neg hc]
    exact h

theorem VmNode.startFsms_clean (ht : Within p n.pass) (qs : List (Qemu T D E)) :
    ∀ (first : Bool) (outs : List (VmOutcome T D E)), (∀ q ∈ qs, q.Clean p) →
      ∀ q ∈ n.startFsms first qs outs, q.Clean p := by
  induction qs with
  | nil =>
    intro first outs _ q hq
    cases hq
  | cons q qs ih =>
    intro first outs hqs r hr
    obtain rfl | hr := mem_cons.1 hr
    · have hq := hqs q (.head _)
      have hrestart : q.restart.Clean p := { hq with }
      exact hrestart.begin ht _ _ _ _
    · exact ih _ _ (forall_mem_cons.1 hqs).2 r hr

end Vm

/-! ## 3. Instances that throw -/

/-- An instance that throws now hands over the tests of the exception, or tests that its buffer has
    from a trace of the same target. -/
def Klee.calm (k : Klee T D E) : SvmOutcome T E → Bool
  | .throws tests _ =>
    (k.state = .storeTests && tests.isSome) || k.tests.all fun t => t.pass = k.pass
  | _ => true

/-- Each of the instances, with the outcome that it is polled with. -/
def calmAll : List (Klee T D E) → List (SvmOutcome T E) → Bool
  | [], _ => true
  | k :: ks, outs => k.calm (outs.headD .waits) && calmAll ks outs.tail

section Svm

variable {p : Nat} {k : Klee T D E} {n : SvmNode T D E}

theorem Klee.derive_of (h : Within p k.pass) (tests : List T) : ∀ t ∈ k.derive tests, t.Of p := by
  intro t ht
  obtain ⟨u, -, rfl⟩ := mem_map.1 ht
  exact h

theorem Klee.begin_working (k : Klee T D E) : k.begin.Working p where
  trace := fun h => absurd rfl h
  errorLog := nofun
  tests := by
    intro h
    obtain h | h | h := h
    · cases h
    · cases h
    · cases h.1

theorem Klee.throw_working (hk : k.Working p) (hs : k.state ≠ .nextTrace) (log : E)
    {tests : List (Item T)} (ht : ∀ t ∈ tests, t.Of p) (retrieving : Option (List (Item T))) :
    Klee.Working p { k.throw log with tests, retrieving } where
  trace := hk.trace
  errorLog := by
    intro _ e he
    cases mem_some_iff.1 he
    exact hk.trace hs
  tests := fun _ => ht

/-- A buffer that may be handed over. -/
theorem Klee.calm_tests (hk : k.Working p) (hs : k.state ≠ .nextTrace) {tests : Option (List T)}
    {log : E} (hcalm : k.calm (.throws tests log) = true)
    (hown : k.state = .storeTests → tests = none) : ∀ t ∈ k.tests, t.Of p := by
  simp only [Klee.calm, Bool.or_eq_true, Bool.and_eq_true, decide_eq_true_eq, List.all_eq_true]
    at hcalm
  obtain ⟨h, hsome⟩ | h := hcalm
  · rw [hown h] at hsome
    cases hsome
  · intro t ht
    have hw : Within p k.pass := hk.trace hs
    rw [← h t ht] at hw
    exact hw

theorem Klee.retrieve_clean (hc : k.Clean p) (hw : Within p k.pass) (he : k.error = false)
    (tests : List T) (old : Option Bool) :
    (k.retrieve tests old).Clean p ∧ (k.retrieve tests old).Working p := by
  have hnew : ∀ ts ∈ some (k.derive tests), ∀ t ∈ ts, t.Of p := by
    intro ts hts
    cases mem_some_iff.1 hts
    exact Klee.derive_of hw tests
  have herr : k.error = true → ∀ e ∈ k.errorLog, e.Of p := fun h => by rw [he] at h; cases h
  have hhands : ∀ {ts q : List (Item T)},
      ({ k with state := .finished, tests := ts, retrieving := some q } : Klee T D E).Hands →
        False := by
    intro ts q h
    obtain h | h | h := h
    · rw [show k.error = true from h] at he
      cases he
    · cases h
    · cases h.2
  unfold Klee.retrieve
  split
  · exact ⟨hnew, fun _ => hw, herr, fun h => (hhands h).elim⟩
  · rename_i ts hr
    exact ⟨nofun, fun _ => hw, herr, fun _ => hc ts hr⟩
  · exact ⟨hnew, fun _ => hw, herr, fun h => (hhands h).elim⟩

/-- An instance is polled that works on a trace. -/
theorem Klee.poll_clean (hc : k.Clean p) (hw : k.Working p) (he : k.error = false)
    (hn : k.state ≠ .nextTrace) {out : SvmOutcome T E} (hcalm : k.calm out = true) :
    (k.poll out).Clean p ∧ (k.poll out).Working p := by
  have herr : k.error = true → ∀ e ∈ k.errorLog, e.Of p := fun h => by rw [he] at h; cases h
  have hpass : Within p k.pass := hw.trace hn
  -- a state in which nothing is handed over
  have hgo : ∀ state, state ≠ .resultReady → state ≠ .finished →
      Klee.Working p { k with state } := by
    intro state h₁ h₂
    refine ⟨fun _ => hpass, herr, fun h => ?_⟩
    obtain h | h | h := h
    · rw [show k.error = true from h] at he
      cases he
    · exact absurd h h₁
    · exact absurd h.1 h₂
  unfold Klee.poll
  split
  case h_5 => exact ⟨hc, hgo _ nofun nofun⟩
  case h_6 => exact ⟨hc, hgo _ nofun nofun⟩
  case h_7 => exact ⟨hc, hgo _ nofun nofun⟩
  case h_8 => exact retrieve_clean hc hpass he _ _
  case h_9 hs =>
    split
    · exact ⟨hc, hw⟩
    · rename_i hnone
      have hr : k.retrieving = none := by simpa using hnone
      exact ⟨hc, fun _ => hpass, herr, fun _ => hw.tests (.inr (.inr ⟨hs, hr⟩))⟩
  case h_10 => exact ⟨hc, throw_working hw hn _ (derive_of hpass _) _⟩
  case h_11 hs =>
    refine ⟨nofun, throw_working hw hn _ (calm_tests hw hn hcalm ?_) _⟩
    intro h
    rw [hs] at h
    cases h
  case h_12 =>
    rename_i hstore _
    refine ⟨hc, throw_working hw hn _ (calm_tests hw hn hcalm fun h => ?_) _⟩
    exact eq_none_iff_forall_ne_some.2 fun ts => hstore ts h
  all_goals exact ⟨hc, hw⟩

/-- One instance is polled. -/
theorem SvmNode.pollInstance_clean (hn : n.base.Clean p) (hc : k.Clean p) (hw : k.Working p)
    {out : SvmOutcome T E} (hcalm : k.calm out = true) :
    (n.pollInstance k out).1.base.Clean p ∧ (n.pollInstance k out).2.Clean p ∧
      (n.pollInstance k out).2.Working p := by
  unfold SvmNode.pollInstance
  split
  · cases htraces : n.base.traces with
    | nil => exact ⟨hn, hc, hw⟩
    | cons t rest =>
      have hall : ∀ u ∈ t :: rest, u.data.Of p := htraces ▸ hn.traces
      refine ⟨{ hn with traces := (forall_mem_cons.1 hall).2 }, hc,
        fun _ => hall t (.head _), hw.errorLog, fun h => ?_⟩
      obtain h | h | h := h
      · exact hw.tests (.inl h)
      · cases h
      · cases h.1
  · rename_i hstate
    split
    · rename_i hready
      have htests := hw.tests (.inr (.inl hready))
      exact ⟨{ hn with tests := forall_mem_append.2 ⟨hn.tests, htests⟩ }, hc,
        fun h => absurd rfl h, hw.errorLog, fun _ => htests⟩
    · split
      · rename_i herror
        refine ⟨{ hn with
          tests := forall_mem_append.2 ⟨hn.tests, hw.tests (.inl herror)⟩
          errors := forall_mem_append.2 ⟨hn.errors, fun e he => ?_⟩ }, nofun,
          Klee.new.begin_working⟩
        exact hw.errorLog herror e (mem_toList.1 he)
      · rename_i herror
        exact ⟨hn, Klee.poll_clean hc hw (by simpa using herror) hstate hcalm⟩

/-- All instances are polled. -/
theorem SvmNode.pollSvms_clean (ks : List (Klee T D E)) : ∀ {n : SvmNode T D E},
    n.base.Clean p → (∀ k ∈ ks, k.Clean p ∧ k.Working p) → ∀ outs : List (SvmOutcome T E),
    calmAll ks outs = true → (n.pollSvms ks outs).1.base.Clean p ∧
      ∀ k ∈ (n.pollSvms ks outs).2, k.Clean p ∧ k.Working p := by
  induction ks with
  | nil =>
    intro n hn _ outs _
    exact ⟨hn, forall_mem_nil _⟩
  | cons k ks ih =>
    intro n hn hks outs hcalm
    obtain ⟨hcalm, hrest⟩ := Bool.and_eq_true_iff.1 hcalm
    obtain ⟨hc, hw⟩ := hks k (.head _)
    obtain ⟨h₁, h₂⟩ := pollInstance_clean hn hc hw hcalm
    obtain ⟨h₃, h₄⟩ := ih h₁ (forall_mem_cons.1 hks).2 outs.tail hrest
    exact ⟨h₃, forall_mem_cons.2 ⟨h₂, h₄⟩⟩

theorem SvmNode.Clean.run (h : n.Clean p) {outs : List (SvmOutcome T E)}
    (hcalm : calmAll n.svms outs = true) : (n.run outs).Clean p := by
  unfold SvmNode.run
  split
  · rename_i hc
    obtain ⟨h₁, h₂⟩ := pollSvms_clean n.svms h.base
      (fun k hk => ⟨h.svms k hk, h.working hc k hk⟩) outs hcalm
    exact ⟨{ h₁ with }, fun k hk => (h₂ k hk).1, fun _ k hk => (h₂ k hk).2⟩
  · exact h

theorem Klee.Clean.retrieved (hc : k.Clean p) : k.retrieved.Clean p := by
  unfold Klee.retrieved
  split
  · exact nofun
  · exact hc

theorem Klee.Working.retrieved (hw : k.Working p) (hc : k.Clean p) : k.retrieved.Working p := by
  unfold Klee.retrieved
  split
  · rename_i ts hr
    exact ⟨hw.trace, hw.errorLog, fun _ => hc ts hr⟩
  · exact hw

/-- A retrieval ends. -/
theorem SvmNode.Clean.retrieved (h : n.Clean p) (i : Nat) : (n.retrieved i).Clean p := by
  have hmem : ∀ k ∈ n.svms.modify i Klee.retrieved,
      k ∈ n.svms ∨ ∃ k' ∈ n.svms, k = k'.retrieved := by
    intro k hk
    obtain ⟨j, hj, rfl⟩ := getElem_of_mem hk
    rw [getElem_modify]
    split
    · exact .inr ⟨_, getElem_mem _, rfl⟩
    · exact .inl (getElem_mem _)
  refine ⟨h.base, fun k hk => ?_, fun hc k hk => ?_⟩
  · obtain hk | ⟨k', hk', rfl⟩ := hmem k hk
    · exact h.svms k hk
    · exact (h.svms k' hk').retrieved
  · obtain hk | ⟨k', hk', rfl⟩ := hmem k hk
    · exact h.working hc k hk
    · exact (h.working hc k' hk').retrieved (h.svms k' hk')

end Svm

/-! ## 4. Packets on their way -/

/-- Nothing is left for a reset to carry over. -/
def Peer.leavesNothing : Peer T D E → Bool
  | .vm n => n.base.errors.isEmpty
  | .svm n => n.base.errors.isEmpty && n.svms.all fun k => k.retrieving.isNone

/-- **A node acts without carrying anything over**: a reset finds nothing left, and instances that
    throw are calm. -/
def harmless (r : Proc T D E) : Act T D E → Bool
  | .runSvm outs =>
    match r.peer with
    | .svm n => calmAll n.svms outs
    | .vm _ => true
  | .deliver _ =>
    match r.inbox with
    | .reset :: _ => r.peer.leavesNothing
    | _ => true
  | _ => true

def Peer.Clean (p : Nat) : Peer T D E → Prop
  | .vm n => n.Clean p
  | .svm n => n.Clean p

/-- The pass of the target of a node. -/
def Peer.target : Peer T D E → Option Nat
  | .vm n => n.pass
  | .svm _ => none

/-- The pass of the target when a packet has been handled. -/
def aim (type : NodeType) (q : Option Nat) : Message T D E → Option Nat
  | .nextTarget _ p => if type = .vm then some p else q
  | _ => q

/-- The pass of the target when the packets on their way have been handled. -/
def Proc.target (r : Proc T D E) : Option Nat := r.inbox.foldl (aim r.peer.type) r.peer.target

/-- Whether a node will be clean when it has handled a packet; before, it is if `C`, and the pass of
    its target is `q`. -/
def settles (p : Nat) (C : Prop) (q : Option Nat) : Message T D E → Prop
  | .reset => True
  | .nextTarget _ p' => C ∧ p' = p
  | .commence => C ∧ Within p q
  | .trace batch => C ∧ ∀ t ∈ batch, t.data.Of p
  | .testCase batch => C ∧ ∀ t ∈ batch, t.Of p
  | _ => C

/-- The same, of packets one after another. -/
def willSettle (p : Nat) (type : NodeType) : Prop → Option Nat → List (Message T D E) → Prop
  | C, _, [] => C
  | C, q, m :: ms => willSettle p type (settles p C q m) (aim type q m) ms

/-- **The node will be clean** when it has handled the packets on their way. -/
def Proc.Settled (p : Nat) (r : Proc T D E) : Prop :=
  willSettle p r.peer.type (r.peer.Clean p) r.peer.target r.inbox

section Settles

variable {p : Nat} {type : NodeType} {C C' : Prop} {q : Option Nat} {m : Message T D E}

theorem settles_mono (hC : C → C') (h : settles p C q m) : settles p C' q m := by
  cases m <;> first | exact trivial | exact hC h | exact ⟨hC h.1, h.2⟩

/-- A packet that leaves a clean node clean. -/
theorem settles_of_true (hC : C) (h : settles p True q m) : settles p C q m :=
  settles_mono (fun _ => hC) h

theorem willSettle_mono {ms : List (Message T D E)} : ∀ {C C' : Prop} {q : Option Nat}, (C → C') →
    willSettle p type C q ms → willSettle p type C' q ms := by
  induction ms with
  | nil => exact fun hC h => hC h
  | cons m ms ih => exact fun hC h => ih (settles_mono hC) h

theorem willSettle_append {m : Message T D E} {ms : List (Message T D E)} :
    ∀ {C : Prop} {q : Option Nat}, willSettle p type C q (ms ++ [m]) ↔
      settles p (willSettle p type C q ms) (ms.foldl (aim type) q) m := by
  induction ms with
  | nil => exact Iff.rfl
  | cons x ms ih => exact ih

end Settles

/-! ## 5. Nodes that have not commenced -/

/-- Packets with tests or traces for the node. -/
def carries : Message T D E → Bool
  | .trace _ | .testCase _ => true
  | _ => false

/-- Tests and traces come when the node has commenced. -/
def ordered : Bool → List (Message T D E) → Prop
  | _, [] => True
  | b, m :: ms => (carries m = true → b = true) ∧ ordered (commences b m) ms

/-- A VM node that has not commenced has nothing. A reset leaves it as it is. -/
def VmNode.Quiet (n : VmNode T D E) : Prop :=
  n.base.commenced = false → n.base.tests = [] ∧ n.base.traces = [] ∧ ∀ q ∈ n.vms, q = .new

def Peer.Quiet : Peer T D E → Prop
  | .vm n => n.Quiet
  | .svm _ => True

structure Proc.Orderly (r : Proc T D E) : Prop where
  quiet : r.peer.Quiet
  inbox : ordered r.peer.base.commenced r.inbox

theorem ordered_append {m : Message T D E} {ms : List (Message T D E)} : ∀ {b : Bool},
    ordered b (ms ++ [m]) ↔ ordered b ms ∧ (carries m = true → ms.foldl commences b = true) := by
  induction ms with
  | nil =>
    intro b
    exact ⟨fun h => ⟨trivial, h.1⟩, fun h => ⟨h.2, trivial⟩⟩
  | cons x ms ih =>
    intro b
    rw [cons_append, ordered, ordered, ih, and_assoc]
    rfl

section Nodes

variable {p : Nat}

theorem Node.Clean.addTraces {n : Node T D E} (h : n.Clean p) {batch : List (Trace (Item D))}
    (hb : ∀ t ∈ batch, t.data.Of p) : Node.Clean p { n with traces := n.traces ++ batch } :=
  { h with traces := forall_mem_append.2 ⟨h.traces, hb⟩ }

theorem Node.Clean.addTests {n : Node T D E} (h : n.Clean p) {batch : List (Item T)}
    (hb : ∀ t ∈ batch, t.Of p) : Node.Clean p { n with tests := n.tests ++ batch } :=
  { h with tests := forall_mem_append.2 ⟨h.tests, hb⟩ }

theorem VmNode.Quiet.run {n : VmNode T D E} (h : n.Quiet) (outs : List (VmOutcome T D E)) :
    (n.run outs).Quiet := by
  intro hc
  have hf : n.base.commenced = false := by rw [← (n.run_frame outs).commenced, hc]
  rw [VmNode.run, if_neg (by simp [hf])]
  exact h hf

theorem VmNode.Quiet.process {n : VmNode T D E} (h : n.Quiet) (outs : List (VmOutcome T D E))
    {m : Message T D E} (hm : carries m = true → n.base.commenced = true) :
    (n.process outs m).Quiet := by
  cases m with
  | reset =>
    simp only [VmNode.process, VmNode.reset]
    split
    · intro _
      refine ⟨rfl, rfl, fun q hq => ?_⟩
      obtain ⟨_, -, hq⟩ := mem_map.1 hq
      exact hq.symm
    · exact h
  | commence => exact fun hc => Bool.noConfusion (show true = false from hc)
  | trace batch | testCase batch =>
    intro hc
    cases (hm rfl).symm.trans hc
  | _ => exact h

/-- A VM node handles a packet. -/
theorem VmNode.process_clean {n : VmNode T D E} (hq : n.Quiet) (outs : List (VmOutcome T D E))
    {m : Message T D E} (hreset : m = .reset → n.base.errors = [])
    (h : settles p (n.Clean p) n.pass m) : (n.process outs m).Clean p := by
  cases m with
  | reset =>
    have herr := hreset rfl
    simp only [VmNode.process, VmNode.reset]
    split
    · refine ⟨⟨forall_mem_nil _, forall_mem_nil _,
        fun e he => ?_⟩, fun q hq => ?_, fun hc => Bool.noConfusion (show false = true from hc)⟩
      · rw [show n.base.reset.errors = [] from herr] at he
        cases he
      · obtain ⟨_, -, rfl⟩ := mem_map.1 hq
        exact .new
    · rename_i hc
      have hf : n.base.commenced = false := by simpa using hc
      obtain ⟨htests, htraces, hvms⟩ := hq hf
      refine ⟨⟨by simp [htests], by simp [htraces], by simp [herr]⟩, fun q hq => ?_,
        fun h => absurd h hc⟩
      rw [hvms q hq]
      exact .new
  | nextTarget t p' =>
    obtain ⟨hn, rfl⟩ := h
    exact { hn with target := fun _ => .inr rfl }
  | commence =>
    obtain ⟨hn, hw⟩ := h
    exact ⟨{ hn.base with }, VmNode.startFsms_clean hw n.vms true outs hn.vms, fun _ => hw⟩
  | trace batch =>
    obtain ⟨hn, hb⟩ := h
    exact { hn with base := hn.base.addTraces hb }
  | testCase batch =>
    obtain ⟨hn, hb⟩ := h
    exact { hn with base := hn.base.addTests hb }
  | config o => exact { h with base := { h.base with } }
  | imageInfo info => exact { h with }
  | _ => exact h

/-- An SVM node handles a packet. -/
theorem SvmNode.process_clean {n : SvmNode T D E} {q : Option Nat} {m : Message T D E}
    (hreset : m = .reset → n.base.errors = [] ∧ ∀ k ∈ n.svms, k.retrieving = none)
    (h : settles p (n.Clean p) q m) : (n.process m).Clean p := by
  cases m with
  | reset =>
    obtain ⟨herr, hret⟩ := hreset rfl
    refine ⟨⟨forall_mem_nil _, forall_mem_nil _, fun e he => ?_⟩, fun k hk ts hts => ?_,
      fun hc => Bool.noConfusion (show false = true from hc)⟩
    · rw [show (n.process .reset).base.errors = [] from herr] at he
      cases he
    · rw [hret k hk] at hts
      cases hts
  | commence =>
    refine ⟨{ h.1.base with }, fun k hk => ?_, fun _ k hk => ?_⟩
    · obtain ⟨k', hk', rfl⟩ := mem_map.1 hk
      exact h.1.svms k' hk'
    · obtain ⟨k', -, rfl⟩ := mem_map.1 hk
      exact k'.begin_working
  | nextTarget t p' => exact h.1
  | trace batch =>
    obtain ⟨hn, hb⟩ := h
    exact { hn with base := hn.base.addTraces hb }
  | testCase batch =>
    obtain ⟨hn, hb⟩ := h
    exact { hn with base := hn.base.addTests hb }
  | config o => exact { h with base := { h.base with } }
  | _ => exact h

end Nodes

/-! ## 6. What nodes go through -/

section Serve

variable {p : Nat} {r r' : Proc T D E} {a : Act T D E} {m : Message T D E}

variable {allowed : Proc T D E → Act T D E → Bool}

theorem VmNode.process_target (n : VmNode T D E) (outs : List (VmOutcome T D E))
    (m : Message T D E) : (n.process outs m).pass = aim .vm n.pass m := by
  cases m with
  | reset =>
    simp only [VmNode.process, VmNode.reset]
    split <;> rfl
  | _ => rfl

theorem Acts.type_eq (h : Acts r a r') : r'.peer.type = r.peer.type := by
  cases h <;> rfl

theorem aim_svm (q : Option Nat) (m : Message T D E) : aim .svm q m = q := by
  cases m <;> rfl

theorem Acts.target_eq (h : Acts r a r') : r'.target = r.target := by
  cases h with
  | @runVm n inbox outs => simp only [Proc.target, Peer.target, Peer.type, (n.run_frame outs).pass]
  | runSvm | retrieved => rfl
  | deliverVm =>
    simp only [Proc.target, Peer.target, Peer.type, VmNode.process_target, foldl_cons]
  | deliverSvm => simp only [Proc.target, Peer.target, Peer.type, foldl_cons, aim_svm]

theorem Acts.orderly (h : Acts r a r') (ho : r.Orderly) : r'.Orderly := by
  cases h with
  | @runVm n inbox outs =>
    refine ⟨ho.quiet.run outs, ?_⟩
    simp only [Peer.base, (n.run_frame outs).commenced]
    exact ho.inbox
  | @runSvm n inbox outs =>
    refine ⟨trivial, ?_⟩
    simp only [Peer.base, SvmNode.run_commenced]
    exact ho.inbox
  | retrieved => exact ⟨trivial, ho.inbox⟩
  | @deliverVm n m rest outs =>
    refine ⟨ho.quiet.process outs ho.inbox.1, ?_⟩
    simp only [Peer.base, VmNode.process_commenced]
    exact ho.inbox.2
  | @deliverSvm n m rest outs =>
    refine ⟨trivial, ?_⟩
    simp only [Peer.base, SvmNode.process_commenced]
    exact ho.inbox.2

/-- **A harmless action keeps a node settled.** -/
theorem Acts.settled (h : Acts r a r') (ha : harmless r a = true) (ho : r.Orderly)
    (hs : r.Settled p) : r'.Settled p := by
  cases h with
  | @runVm n inbox outs =>
    simp only [Proc.Settled, Peer.target, (n.run_frame outs).pass]
    exact willSettle_mono (fun hn : n.Clean p => hn.run outs) hs
  | @runSvm n inbox outs => exact willSettle_mono (fun hn : n.Clean p => hn.run ha) hs
  | @retrieved n inbox i => exact willSettle_mono (fun hn : n.Clean p => hn.retrieved i) hs
  | @deliverVm n m rest outs =>
    have hreset : m = .reset → n.base.errors = [] := by
      intro hm
      subst hm
      exact List.isEmpty_iff.1 ha
    simp only [Proc.Settled, Peer.target, VmNode.process_target]
    exact willSettle_mono (VmNode.process_clean ho.quiet outs hreset) hs
  | @deliverSvm n m rest outs =>
    have hreset : m = .reset → n.base.errors = [] ∧ ∀ k ∈ n.svms, k.retrieving = none := by
      intro hm
      subst hm
      obtain ⟨h₁, h₂⟩ := Bool.and_eq_true_iff.1 ha
      refine ⟨List.isEmpty_iff.1 h₁, fun k hk => ?_⟩
      exact isNone_iff_eq_none.1 (all_eq_true.1 h₂ k hk)
    have hs' : willSettle p .svm (settles p (n.Clean p) none m) (aim .svm none m) rest := hs
    rw [aim_svm] at hs'
    exact willSettle_mono (SvmNode.process_clean hreset) hs'

/-- The part that both types of nodes have is replaced. -/
theorem Peer.Clean.setBase {c : Peer T D E} (h : c.Clean p) {b : Node T D E} (hb : b.Clean p)
    (hc : b.commenced = c.base.commenced) : (c.setBase b).Clean p := by
  cases c with
  | vm n => exact ⟨hb, h.vms, fun hn => h.target (hc ▸ hn)⟩
  | svm n => exact ⟨hb, h.svms, fun hn => h.working (hc ▸ hn)⟩

theorem Peer.Clean.base {c : Peer T D E} (h : c.Clean p) : c.base.Clean p := by
  cases c with
  | vm n => exact VmNode.Clean.base h
  | svm n => exact SvmNode.Clean.base h

theorem Peer.Quiet.setBase {c : Peer T D E} (h : c.Quiet) {b : Node T D E}
    (hc : b.commenced = c.base.commenced) (htests : c.base.tests = [] → b.tests = [])
    (htraces : c.base.traces = [] → b.traces = []) : (c.setBase b).Quiet := by
  cases c with
  | vm n =>
    intro hn
    obtain ⟨h₁, h₂, h₃⟩ := h (hc ▸ hn)
    exact ⟨htests h₁, htraces h₂, h₃⟩
  | svm n => trivial

theorem Peer.setBase_type (c : Peer T D E) (b : Node T D E) : (c.setBase b).type = c.type := by
  cases c <;> rfl

theorem Peer.setBase_target (c : Peer T D E) (b : Node T D E) :
    (c.setBase b).target = c.target := by
  cases c <;> rfl

/-- The items that the node replies with. -/
def Given (p : Nat) : Message T D E → Prop
  | .traceRequest reply => ∀ t ∈ reply, t.data.Of p
  | .testCaseRequest reply => ∀ t ∈ reply, t.Of p
  | .errorLogRequest reply => ∀ e ∈ reply, e.Of p
  | _ => True

theorem Proc.Settled.clean (h : r.Settled p) (he : r.inbox = []) : r.peer.Clean p := by
  rw [Proc.Settled, he] at h
  exact h

/-- A settled node that has handled all packets has its items replaced. -/
theorem Proc.Settled.setBase (h : r.Settled p) (he : r.inbox = []) {b : Node T D E}
    (hb : b.Clean p) (hc : b.commenced = r.peer.base.commenced) :
    Proc.Settled p { r with peer := r.peer.setBase b } := by
  rw [Proc.Settled, he]
  exact (h.clean he).setBase hb hc

section

variable (h : Takes r m r')

include h

theorem Takes.type_eq : r'.peer.type = r.peer.type := by
  cases h <;> first | rfl | exact Peer.setBase_type _ _

theorem Takes.target_eq : r'.target = aim r.peer.type r.target m := by
  cases h with
  | send plain => simp only [Proc.target, foldl_append, foldl_cons, foldl_nil]
  | status empty same | imageInfo empty => rfl
  | traces empty parts | tests empty parts | errors empty parts =>
    simp only [Proc.target, Peer.setBase_type, Peer.setBase_target, aim]

theorem Takes.orderly (hm : carries m = true → r.commenced = true)
    (ho : r.Orderly) : r'.Orderly := by
  cases h with
  | send plain => exact ⟨ho.quiet, ordered_append.2 ⟨ho.inbox, hm⟩⟩
  | status empty same | imageInfo empty => exact ho
  | traces empty parts =>
    refine ⟨ho.quiet.setBase rfl id fun h => ?_, by simpa only [Peer.setBase_base] using ho.inbox⟩
    rw [h] at parts
    exact (append_eq_nil_iff.1 parts).2
  | tests empty parts =>
    refine ⟨ho.quiet.setBase rfl (fun h => ?_) id, by simpa only [Peer.setBase_base] using ho.inbox⟩
    rw [h] at parts
    exact (append_eq_nil_iff.1 parts).2
  | errors empty parts =>
    exact ⟨ho.quiet.setBase rfl id id, by simpa only [Peer.setBase_base] using ho.inbox⟩

/-- **A packet keeps a node settled**, and what the node replies with is of this pass. -/
theorem Takes.settled (hm : settles p True r.target m) (hs : r.Settled p) :
    r'.Settled p ∧ Given p m := by
  cases h with
  | send plain =>
    refine ⟨willSettle_append.2 (settles_of_true hs hm), ?_⟩
    cases m <;> trivial
  | status empty same | imageInfo empty => exact ⟨hs, trivial⟩
  | traces empty parts =>
    have hc := (hs.clean empty).base
    have hall := hc.traces
    rw [← parts] at hall
    obtain ⟨hreply, hrest⟩ := forall_mem_append.1 hall
    exact ⟨hs.setBase empty { hc with traces := hrest } rfl, hreply⟩
  | tests empty parts =>
    have hc := (hs.clean empty).base
    have hall := hc.tests
    rw [← parts] at hall
    obtain ⟨hreply, hrest⟩ := forall_mem_append.1 hall
    exact ⟨hs.setBase empty { hc with tests := hrest } rfl, hreply⟩
  | errors empty parts =>
    have hc := (hs.clean empty).base
    have hall := hc.errors
    rw [← parts] at hall
    obtain ⟨hreply, hrest⟩ := forall_mem_append.1 hall
    exact ⟨hs.setBase empty { hc with errors := hrest } rfl, hreply⟩

end

/-- Packets that keep a settled node settled; `b` says whether it has commenced, and the target is
    looked at apart. -/
def Safe (p : Nat) (b : Bool) : Message T D E → Prop
  | .reset => False
  | .nextTarget _ p' => p' = p
  | .trace batch => b = true ∧ ∀ t ∈ batch, t.data.Of p
  | .testCase batch => b = true ∧ ∀ t ∈ batch, t.Of p
  | _ => True

theorem Safe.settles {b : Bool} {q : Option Nat} (h : Safe p b m)
    (hc : m = .commence → Within p q) : settles p True q m := by
  cases m with
  | reset => exact h.elim
  | nextTarget t p' => exact ⟨trivial, h⟩
  | commence => exact ⟨trivial, hc rfl⟩
  | trace batch | testCase batch => exact ⟨trivial, h.2⟩
  | _ => trivial

theorem Safe.carries {b : Bool} (h : Safe p b m) (hm : carries m = true) : b = true := by
  cases m with
  | trace batch | testCase batch => exact h.1
  | _ => cases hm

theorem Safe.commences {b c : Bool} (h : Safe p b m) (hc : c = true ∨ m = .commence) :
    commences c m = true := by
  cases m with
  | reset => exact h.elim
  | commence => rfl
  | _ =>
    obtain hc | hc := hc
    · exact hc
    · cases hc

theorem Safe.aim {b : Bool} (h : Safe p b m) (type : NodeType) {q : Option Nat}
    (hq : Within p q) : Within p (aim type q m) := by
  cases m with
  | nextTarget t p' =>
    cases type with
    | vm => exact .inr (congrArg some h)
    | svm => exact hq
  | _ => exact hq

variable [DecidableEq T] [DecidableEq D] [DecidableEq E] {sizes : Sizes T D E}
  {ms : List (Message T D E)}

section

variable (h : Serves sizes allowed r ms r')

include h

theorem Serves.type_eq : r'.peer.type = r.peer.type := by
  induction h with
  | start => rfl
  | act _ _ acts ih => exact (Proc.act_acts acts).type_eq.trans ih
  | take _ takes ih => exact (Proc.take_takes takes).type_eq.trans ih

/-- **Packets decide the target.** -/
theorem Serves.target_eq : r'.target = ms.foldl (Cluster.aim r.peer.type) r.target := by
  induction h with
  | start => rfl
  | act _ _ acts ih => rw [(Proc.act_acts acts).target_eq, ih]
  | take before takes ih =>
    rw [(Proc.take_takes takes).target_eq, ih, before.type_eq, foldl_append]
    rfl

theorem Serves.orderly (hm : ∀ m ∈ ms, Cluster.carries m = false)
    (ho : r.Orderly) : r'.Orderly := by
  induction h with
  | start => exact ho
  | act _ _ acts ih => exact (Proc.act_acts acts).orderly (ih hm)
  | @take ms r₁ r₂ m before takes ih =>
    have hlast : Cluster.carries m = false := hm m (by simp)
    refine (Proc.take_takes takes).orderly (fun h => ?_) (ih fun m hm' => hm m ?_)
    · rw [hlast] at h
      cases h
    · exact mem_append_left _ hm'

end

/-- What a node keeps while it is sent safe packets. -/
structure Keeps (p : Nat) (r : Proc T D E) (ms : List (Message T D E)) (r' : Proc T D E) :
    Prop where
  orderly : r'.Orderly
  commenced : r.commenced = true ∨ .commence ∈ ms → r'.commenced = true
  target : Within p r.target → Within p r'.target
  settled : r.Settled p → (.commence ∈ ms → Within p r.target) → r'.Settled p ∧ ∀ m ∈ ms, Given p m

/-- **A settled node stays settled**, and what it replies with is of this pass. -/
theorem Serves.keeps (h : Serves sizes harmless r ms r') (ho : r.Orderly)
    (hm : ∀ m ∈ ms, Safe p r.commenced m) : Keeps p r ms r' := by
  induction h with
  | start => exact ⟨ho, fun h => h.elim id nofun, id, fun hs _ => ⟨hs, nofun⟩⟩
  | @act ms r₁ r₂ a _ may moves ih =>
    have k := ih hm
    have acts := Proc.act_acts moves
    refine ⟨acts.orderly k.orderly, fun h => ?_, fun h => ?_, fun hs hc => ?_⟩
    · rw [Proc.act_commenced moves]
      exact k.commenced h
    · rw [acts.target_eq]
      exact k.target h
    · obtain ⟨hs', hg⟩ := k.settled hs hc
      exact ⟨acts.settled may k.orderly hs', hg⟩
  | @take ms r₁ r₂ m before takes ih =>
    have hmem : ∀ x ∈ ms, x ∈ ms ++ [m] := fun x hx => mem_append_left _ hx
    have k := ih fun x hx => hm x (hmem x hx)
    have safe : Safe p r.commenced m := hm m (by simp)
    have taken := Proc.take_takes takes
    refine ⟨taken.orderly (fun h => k.commenced (.inl (safe.carries h))) k.orderly,
      fun h => ?_, fun h => ?_, fun hs hc => ?_⟩
    · rw [Proc.take_commenced takes]
      refine safe.commences ?_
      obtain h | h := h
      · exact .inl (k.commenced (.inl h))
      · obtain h | h := mem_append.1 h
        · exact .inl (k.commenced (.inr h))
        · exact .inr (mem_singleton.1 h).symm
    · rw [taken.target_eq]
      exact safe.aim _ (k.target h)
    · obtain ⟨hs', hg⟩ := k.settled hs fun h => hc (hmem _ h)
      have hfine : Cluster.settles p True r₁.target m :=
        safe.settles fun e => k.target (hc (by simp [e]))
      obtain ⟨hs', hlast⟩ := taken.settled hfine hs'
      refine ⟨hs', fun x hx => ?_⟩
      obtain hx | hx := mem_append.1 hx
      · exact hg x hx
      · rw [mem_singleton.1 hx]
        exact hlast

/-- **A reset settles a node.** -/
theorem Serves.reset (h : Serves sizes harmless r ms r') (hm : ∀ m ∈ ms, m = .reset)
    (ho : r.Orderly) (hs : ms = [] → r.Settled p) : r'.Settled p := by
  induction h with
  | start => exact hs rfl
  | act before may acts ih =>
    have ho' := before.orderly (fun m h => by rw [hm m h]; rfl) ho
    exact (Proc.act_acts acts).settled may ho' (ih hm hs)
  | @take ms r₁ r₂ m before takes ih =>
    have hlast : m = .reset := hm m (by simp)
    subst hlast
    cases Proc.take_takes takes with
    | send plain => exact willSettle_append.2 trivial

end Serve

end Crete.Cluster
