/-
  File:      Crete/Cluster/Driver.lean
  Subject:   The driver of a node (include/crete/cluster/node_driver.h): the run loop, and the
             listener as an asynchronous task beside it.

  The listener catches whatever it throws and hands it to the run loop, which looks for it in every
  round. The other direction does not exist: when the run loop throws, the destructor of the task
  waits for the listener, and nobody tells the listener to stop.

  A run goes on without end. Both threads run again and again; the dispatcher stays connected and
  sends no shutdown.

  * `Running` -- a run; `Running.FailsOver` -- once a thread has thrown, the driver's caller gets an
    exception that was thrown.
  * **`failsOver_iff`** -- so it is exactly if the listener throws wherever the run loop does;
    `driver_hangs` is a run where it does not.
-/
import Crete.Lib.Temporal

namespace Crete.Cluster.Driver

open Crete.Lib

variable {ε : Type}

/-! ## 1. The two threads -/

/-- Where `operator()` is: at the loop's condition, at the look for the listener's exception, in
    `run`, in the destructor of the task, or back at its caller; `none` is a return. -/
inductive RunNode (ε : Type) where
  | atLoop
  | atCheck
  | inRun
  | joining (result : Option ε)
  | over (result : Option ε)
  deriving DecidableEq, Repr

/-- Where the listener is: connecting, at its loop's condition, in `read`, in `process`, in
    `execute_and_catch`'s handler, before the flag of the task, or at its end. -/
inductive Listener (ε : Type) where
  | connecting
  | atLoop
  | reading
  | processing (shutdown : Bool)
  | catching (e : ε)
  | returning
  | ended
  deriving DecidableEq, Repr

/-- The threads of a `NodeDriver`, with its `shutdown_` and its `eptr_`. -/
structure NodeDriver (ε : Type) where
  node : RunNode ε
  listener : Listener ε
  shutdown : Bool
  eptr : Option ε
  deriving DecidableEq, Repr

def start : NodeDriver ε := ⟨.atLoop, .connecting, false, none⟩

/-- What the world outside decides of one step: whether `run` throws; whether a call of the listener
    is not done, done (with whether the packet asks to shut down), or throws. -/
inductive Event (ε : Type) where
  | node (throws : Option ε)
  | waits
  | goes (shutdown : Bool)
  | throws (e : ε)
  deriving DecidableEq, Repr

/-- `operator()`, `run_node` and the destructor of the task. -/
def NodeDriver.runNode (d : NodeDriver ε) (throws : Option ε) : NodeDriver ε :=
  match d.node with
  | .atLoop => { d with node := if d.shutdown then .joining none else .atCheck }
  | .atCheck => { d with node := match d.eptr with
      | some e => .joining (some e)
      | none => .inRun }
  | .inRun => { d with node := match throws with
      | some e => .joining (some e)
      | none => .atLoop }
  | .joining result => match d.listener with
    | .ended => { d with node := .over result }
    | _ => d
  | .over _ => d

/-- `run_listener` goes on, or its call throws. The wrapper of the task then sets its flag. -/
def NodeDriver.runListener (d : NodeDriver ε) (shutdown : Bool) : NodeDriver ε :=
  match d.listener with
  | .connecting => { d with listener := .atLoop }
  | .atLoop => { d with listener := if d.shutdown then .returning else .reading }
  | .reading => { d with listener := .processing shutdown }
  | .processing shutdown => { d with listener := .atLoop, shutdown := shutdown }
  | .catching e => { d with listener := .returning, eptr := some e }
  | .returning => { d with listener := .ended }
  | .ended => d

/-- The listener is in a call that may wait or throw. -/
def Listener.inCall : Listener ε → Bool
  | .connecting | .reading | .processing _ => true
  | .atLoop | .catching _ | .returning | .ended => false

/-- One step of one thread. -/
def NodeDriver.step (d : NodeDriver ε) : Event ε → NodeDriver ε
  | .node throws => d.runNode throws
  | .waits => if d.listener.inCall then d else d.runListener false
  | .goes shutdown => d.runListener shutdown
  | .throws e => if d.listener.inCall then { d with listener := .catching e }
      else d.runListener false

/-- The step is one of the run loop. -/
def Event.isNode : Event ε → Bool
  | .node _ => true
  | _ => false

/-- **A run**: both threads run again and again, and no packet asks to shut down. -/
structure Running (ε : Type) where
  events : Nat → Event ε
  node : InfinitelyOften fun n => (events n).isNode = true
  listener : InfinitelyOften fun n => (events n).isNode = false
  noShutdown : ∀ n, events n ≠ .goes true

namespace Running

/-- The driver after `n` steps. -/
def after (r : Running ε) (n : Nat) : NodeDriver ε := states NodeDriver.step start r.events n

/-- `run` throws `e` in step `n`. -/
def NodeThrows (r : Running ε) (n : Nat) (e : ε) : Prop :=
  (r.after n).node = .inRun ∧ r.events n = .node (some e)

/-- The listener throws `e` in step `n`. -/
def ListenerThrows (r : Running ε) (n : Nat) (e : ε) : Prop :=
  (r.after n).listener.inCall = true ∧ r.events n = .throws e

/-- **Once a thread has thrown, the caller gets an exception that was thrown.** -/
def FailsOver (r : Running ε) : Prop :=
  (∃ n e, r.NodeThrows n e ∨ r.ListenerThrows n e) → ∃ m e, (r.after m).node = .over (some e) ∧
      ∃ n, n < m ∧ (r.NodeThrows n e ∨ r.ListenerThrows n e)

theorem after_succ (r : Running ε) (n : Nat) :
    r.after (n + 1) = (r.after n).step (r.events n) := rfl

end Running

/-! ## 2. What holds in every run -/

/-- What the state says of the steps before: the listener has thrown what `L` holds of, the run loop
    what `N` holds of. -/
structure Sound (L N : ε → Prop) (d : NodeDriver ε) : Prop where
  running : d.shutdown = false
  asked : d.listener ≠ .processing true
  left : ∀ e, d.listener = .catching e → L e
  stopped : d.listener = .returning ∨ d.listener = .ended → d.eptr ≠ none
  stored : ∀ e, d.eptr = some e → L e
  result : ∀ x, d.node = .joining x ∨ d.node = .over x → ∃ e, x = some e ∧ (N e ∨ L e)
  joined : ∀ x, d.node = .over x → d.listener = .ended

variable {L N L' N' : ε → Prop} {d : NodeDriver ε}

theorem sound_start : Sound L N (start : NodeDriver ε) where
  running := rfl
  asked h := by cases h
  left e h := by cases h
  stopped h := by rcases h with h | h <;> cases h
  stored e h := by cases h
  result x h := by rcases h with h | h <;> cases h
  joined x h := by cases h

section

variable (h : Sound L N d)

include h

theorem Sound.mono (hL : ∀ e, L e → L' e) (hN : ∀ e, N e → N' e) : Sound L' N' d where
  running := h.running
  asked := h.asked
  left e he := hL e (h.left e he)
  stopped := h.stopped
  stored e he := hL e (h.stored e he)
  result x hx := by
    obtain ⟨e, rfl, he⟩ := h.result x hx
    exact ⟨e, rfl, he.imp (hN e) (hL e)⟩
  joined := h.joined

/-- The run loop moves to `p`, other than to its caller. -/
theorem Sound.moveNode (p : RunNode ε) (hover : ∀ x, p ≠ .over x)
    (hp : ∀ x, p = .joining x → ∃ e, x = some e ∧ (N e ∨ L e)) :
    Sound L N { d with node := p } where
  running := h.running
  asked := h.asked
  left := h.left
  stopped := h.stopped
  stored := h.stored
  result x hx := hx.elim (hp x) fun e => absurd e (hover x)
  joined x hx := absurd hx (hover x)

theorem Sound.runNode {throws : Option ε}
    (hN : ∀ e, d.node = .inRun → throws = some e → N e) : Sound L N (d.runNode throws) := by
  unfold NodeDriver.runNode
  split
  · rw [if_neg (by rw [h.running]; exact Bool.false_ne_true)]
    exact h.moveNode .atCheck (fun x hx => (by cases hx)) fun x hx => (by cases hx)
  · refine h.moveNode _ (fun x hx => ?_) fun x hx => ?_
    · split at hx <;> cases hx
    · split at hx
      · rename_i e he
        cases hx
        exact ⟨e, rfl, .inr (h.stored e he)⟩
      · cases hx
  · rename_i hin
    cases throws with
    | none => exact h.moveNode .atLoop (fun x hx => (by cases hx)) fun x hx => (by cases hx)
    | some e =>
      refine h.moveNode (.joining (some e)) (fun x hx => (by cases hx)) fun x hx => ?_
      cases hx
      exact ⟨e, rfl, .inl (hN e hin rfl)⟩
  · rename_i x hj
    split
    · rename_i hl
      refine ⟨h.running, h.asked, h.left, h.stopped, h.stored, fun y hy => ?_, fun _ _ => hl⟩
      rcases hy with hy | hy
      · cases hy
      · cases hy
        exact h.result x (.inl hj)
    · exact h
  · exact h

/-- The listener moves to `p`; only from its end could the caller be back. -/
theorem Sound.moveListener (p : Listener ε) (hend : d.listener ≠ .ended)
    (hask : p ≠ .processing true) (hleft : ∀ e, p = .catching e → L e)
    (hstop : p = .returning ∨ p = .ended → d.eptr ≠ none) : Sound L N { d with listener := p } where
  running := h.running
  asked := hask
  left := hleft
  stopped := hstop
  stored := h.stored
  result := h.result
  joined x hx := absurd (h.joined x hx) hend

/-- Likewise, to a place in the loop. -/
theorem Sound.stayListener {p q : Listener ε} (hl : d.listener = q)
    (hq : q ≠ .ended) (hp : p = .atLoop ∨ p = .reading ∨ p = .processing false) :
    Sound L N { d with listener := p } := by
  refine h.moveListener p (by rw [hl]; exact hq) (fun e => ?_) (fun x e => ?_) fun e => ?_
  · subst e
    simp at hp
  · subst e
    simp at hp
  · rcases e with rfl | rfl
    · simp at hp
    · simp at hp

theorem Sound.runListener : Sound L N (d.runListener false) := by
  unfold NodeDriver.runListener
  split
  · rename_i hl
    exact h.stayListener hl (fun e => (by cases e)) (.inl rfl)
  · rename_i hl
    rw [if_neg (by rw [h.running]; exact Bool.false_ne_true)]
    exact h.stayListener hl (fun e => (by cases e)) (.inr (.inl rfl))
  · rename_i hl
    exact h.stayListener hl (fun e => (by cases e)) (.inr (.inr rfl))
  · rename_i b hl
    have hb : b = false := Bool.not_eq_true _ ▸ fun hb => h.asked (by rw [hl, hb])
    rw [hb, ← h.running]
    exact h.stayListener hl (fun e => (by cases e)) (.inl rfl)
  · rename_i e hl
    have hne : d.listener ≠ .ended := fun he => (by rw [hl] at he; cases he)
    exact ⟨h.running, fun he => (by cases he), fun e he => (by cases he),
      fun _ he => (by cases he), fun x hx => (Option.some.inj hx) ▸ h.left e hl, h.result,
      fun x hx => absurd (h.joined x hx) hne⟩
  · rename_i hl
    exact h.moveListener .ended (fun e => (by rw [hl] at e; cases e)) (fun e => (by cases e))
      (fun e he => (by cases he)) fun _ => h.stopped (.inl hl)
  · exact h

end

namespace Running

variable (r : Running ε)

/-- What the listener has thrown in the first `n` steps. -/
def ListenerThrew (n : Nat) (e : ε) : Prop := ∃ k, k < n ∧ r.ListenerThrows k e

def NodeThrew (n : Nat) (e : ε) : Prop := ∃ k, k < n ∧ r.NodeThrows k e

/-- **In every run, the state says what has been thrown.** -/
theorem sound (n : Nat) : Sound (r.ListenerThrew n) (r.NodeThrew n) (r.after n) := by
  induction n with
  | zero => exact sound_start
  | succ n ih =>
    have hL : ∀ e, r.ListenerThrew n e → r.ListenerThrew (n + 1) e :=
      fun e ⟨k, hk, ht⟩ => ⟨k, Nat.lt_succ_of_lt hk, ht⟩
    have hN : ∀ e, r.NodeThrew n e → r.NodeThrew (n + 1) e :=
      fun e ⟨k, hk, ht⟩ => ⟨k, Nat.lt_succ_of_lt hk, ht⟩
    have h := ih.mono hL hN
    rw [after_succ]
    cases hev : r.events n with
    | node throws =>
      refine h.runNode fun e hin ht => ?_
      subst ht
      exact ⟨n, Nat.lt_succ_self n, hin, hev⟩
    | waits =>
      show Sound _ _ (if _ then _ else _)
      split
      · exact h
      · exact h.runListener
    | goes shutdown =>
      cases shutdown with
      | true => exact absurd hev (r.noShutdown n)
      | false => exact h.runListener
    | throws e =>
      show Sound _ _ (if _ then _ else _)
      split
      · rename_i hcall
        refine h.moveListener (.catching e) (fun he => ?_) (fun he => (by cases he))
          (fun x hx => ?_) fun he => (by rcases he with he | he <;> cases he)
        · rw [he] at hcall
          cases hcall
        · cases hx
          exact ⟨n, Nat.lt_succ_self n, hcall, hev⟩
      · exact h.runListener

end Running

/-! ## 3. After the listener has thrown -/

/-- How many steps the listener is away from its end, if it has left its loop. -/
def Listener.rank : Listener ε → Nat
  | .ended => 0
  | .returning => 1
  | .catching _ => 2
  | .connecting | .atLoop | .reading | .processing _ => 3

/-- How many steps the run loop is away from its caller, once there is an exception to find. -/
def RunNode.rank : RunNode ε → Nat
  | .over _ => 0
  | .joining _ => 1
  | .atCheck => 2
  | .atLoop => 3
  | .inRun => 4

/-- Only where the caller is back nothing is left to do. -/
theorem RunNode.over_of_rank {p : RunNode ε} (h : p.rank = 0) : ∃ x, p = .over x := by
  cases p <;> first | exact ⟨_, rfl⟩ | cases h

/-- The run loop leaves the listener where it is. -/
theorem runNode_listener (d : NodeDriver ε) (throws : Option ε) :
    (d.runNode throws).listener = d.listener ∧ (d.runNode throws).eptr = d.eptr := by
  unfold NodeDriver.runNode
  split
  · exact ⟨rfl, rfl⟩
  · exact ⟨rfl, rfl⟩
  · exact ⟨rfl, rfl⟩
  · split <;> exact ⟨rfl, rfl⟩
  · exact ⟨rfl, rfl⟩

theorem Listener.left_cases {l : Listener ε} (h : l.rank ≤ 2) :
    (∃ e, l = .catching e) ∨ l = .returning ∨ l = .ended := by
  cases l with
  | catching e => exact .inl ⟨e, rfl⟩
  | returning => exact .inr (.inl rfl)
  | ended => exact .inr (.inr rfl)
  | connecting | atLoop | reading | processing =>
    exact absurd h (Nat.not_le_of_lt (Nat.lt_succ_self 2))

/-- A listener that has left its loop is in no call. -/
theorem step_of_left {d : NodeDriver ε} (h : d.listener.rank ≤ 2) {ev : Event ε}
    (hev : ev.isNode = false) : ∃ b, d.step ev = d.runListener b := by
  have hcall : ¬ d.listener.inCall = true := by
    rcases Listener.left_cases h with ⟨e, hl⟩ | hl | hl <;> rw [hl] <;> exact Bool.false_ne_true
  cases ev with
  | node throws => cases hev
  | waits | throws e => exact ⟨false, if_neg hcall⟩
  | goes b => exact ⟨b, rfl⟩

/-- It goes on to its end. -/
theorem runListener_rank {d : NodeDriver ε} (h : d.listener.rank ≤ 2) (b : Bool) :
    (d.runListener b).listener.rank ≤ d.listener.rank - 1 := by
  unfold NodeDriver.runListener
  rcases Listener.left_cases h with ⟨e, hl⟩ | hl | hl
  · rw [hl]
    exact Nat.le_refl 1
  · rw [hl]
    exact Nat.le_refl 0
  · simp only [hl]
    exact Nat.le_refl 0

/-- Each step brings the run loop closer to its caller. -/
theorem runNode_rank {d : NodeDriver ε} (hl : d.listener = .ended) (he : d.eptr ≠ none)
    (throws : Option ε) : (d.runNode throws).node.rank ≤ d.node.rank - 1 := by
  unfold NodeDriver.runNode
  split
  · rename_i hn
    rw [hn]
    show RunNode.rank (if _ then _ else _) ≤ 2
    split
    · exact Nat.le_succ 1
    · exact Nat.le_refl 2
  · rename_i hn
    rw [hn]
    obtain ⟨e, he⟩ := Option.ne_none_iff_exists'.1 he
    rw [he]
    exact Nat.le_refl 1
  · rename_i hn
    rw [hn]
    cases throws with
    | none => exact Nat.le_refl 3
    | some e => exact Nat.le_add_left 1 2
  · rename_i x hn
    rw [hl, hn]
    exact Nat.le_refl 0
  · rename_i x hn
    rw [hn]
    exact Nat.le_refl 0

namespace Running

variable (r : Running ε)

/-- The rank of a listener that has left its loop. -/
theorem after_listener_rank {k : Nat} (h : (r.after k).listener.rank ≤ 2) :
    (r.after (k + 1)).listener.rank ≤
      (r.after k).listener.rank - if (r.events k).isNode then 0 else 1 := by
  rw [after_succ]
  cases hev : (r.events k).isNode with
  | true =>
    cases hk : r.events k with
    | node throws =>
      rw [NodeDriver.step, (runNode_listener _ throws).1]
      exact le_rfl
    | waits | goes b | throws x => rw [hk] at hev; cases hev
  | false =>
    obtain ⟨b, hb⟩ := step_of_left h hev
    rw [hb]
    exact runListener_rank h b

/-- **The listener that has thrown comes to its end.** -/
theorem eventually_ended {n : Nat} {e : ε} (h : r.ListenerThrows n e) :
    ∃ m, (r.after m).listener = .ended := by
  have hstart : (r.after (n + 1)).listener.rank ≤ 2 := by
    rw [after_succ, h.2, NodeDriver.step, if_pos h.1]
    exact Nat.le_refl 2
  obtain ⟨m, -, -, hz⟩ := eventually_of_rank (fun k => (r.after k).listener.rank ≤ 2)
    (fun k => (r.after k).listener.rank)
    (fun k _ hk => Nat.le_trans (r.after_listener_rank hk) (Nat.le_trans (Nat.sub_le _ _) hk))
    r.listener (fun k _ hk => Nat.le_trans (r.after_listener_rank hk) (Nat.sub_le _ _))
    (fun k _ hk hhelp hne => by
      have hle := r.after_listener_rank hk
      rw [hhelp] at hle
      exact Nat.lt_of_le_of_lt hle (Nat.sub_lt (Nat.pos_of_ne_zero hne) Nat.zero_lt_one)) hstart
  refine ⟨m, ?_⟩
  cases hl : (r.after m).listener with
  | ended => rfl
  | connecting | atLoop | reading | processing b | catching x | returning => rw [hl] at hz; cases hz

/-- After the listener's end, only the run loop moves. -/
theorem after_ended {k : Nat} (h : (r.after k).listener = .ended) :
    (r.after (k + 1)).listener = .ended ∧ (r.after (k + 1)).node.rank ≤
      (r.after k).node.rank - if (r.events k).isNode then 1 else 0 := by
  rw [after_succ]
  cases hev : (r.events k).isNode with
  | true =>
    cases hk : r.events k with
    | node throws =>
      exact ⟨(runNode_listener _ throws).1.trans h,
        runNode_rank h ((r.sound k).stopped (.inr h)) throws⟩
    | waits | goes b | throws x => rw [hk] at hev; cases hev
  | false =>
    have hleft : (r.after k).listener.rank ≤ 2 := by
      rw [h]
      exact Nat.zero_le 2
    obtain ⟨b, hb⟩ := step_of_left hleft hev
    have hsame : (r.after k).runListener b = r.after k := by
      unfold NodeDriver.runListener
      rw [h]
    rw [hb, hsame]
    exact ⟨h, le_rfl⟩

/-- **And then the caller gets an exception that was thrown.** -/
theorem eventually_over {n : Nat} (h : (r.after n).listener = .ended) :
    ∃ m e, (r.after m).node = .over (some e) ∧
      ∃ k, k < m ∧ (r.NodeThrows k e ∨ r.ListenerThrows k e) := by
  obtain ⟨m, -, -, hz⟩ := eventually_of_rank (fun k => (r.after k).listener = .ended)
    (fun k => (r.after k).node.rank) (fun k _ hk => (r.after_ended hk).1) r.node
    (fun k _ hk => Nat.le_trans (r.after_ended hk).2 (Nat.sub_le _ _))
    (fun k _ hk hhelp hne => by
      have hle := (r.after_ended hk).2
      rw [hhelp] at hle
      exact Nat.lt_of_le_of_lt hle (Nat.sub_lt (Nat.pos_of_ne_zero hne) Nat.zero_lt_one)) h
  obtain ⟨x, hn⟩ := RunNode.over_of_rank hz
  obtain ⟨e, rfl, ht⟩ := (r.sound m).result x (.inr hn)
  refine ⟨m, e, hn, ?_⟩
  rcases ht with ⟨k, hk, ht⟩ | ⟨k, hk, ht⟩
  · exact ⟨k, hk, .inl ht⟩
  · exact ⟨k, hk, .inr ht⟩

/-- **The caller is back only after the listener has thrown.** -/
theorem listenerThrows_of_over {m : Nat} {x : Option ε} (h : (r.after m).node = .over x) :
    ∃ n e, r.ListenerThrows n e := by
  have hsound := r.sound m
  obtain ⟨e, he⟩ :=
    Option.ne_none_iff_exists'.1 (hsound.stopped (.inr (hsound.joined x h)))
  obtain ⟨n, -, hn⟩ := hsound.stored e he
  exact ⟨n, e, hn⟩

end Running

/-! ## 4. The driver fails over -/

/-- **A driver that fails ends exactly if the listener throws wherever the run loop does**: then,
    and only then, the caller gets an exception once a thread has thrown. -/
theorem failsOver_iff (r : Running ε) :
    r.FailsOver ↔ ((∃ n e, r.NodeThrows n e) → ∃ n e, r.ListenerThrows n e) := by
  constructor
  · intro h ⟨n, e, hn⟩
    obtain ⟨m, x, hm, -⟩ := h ⟨n, e, .inl hn⟩
    exact r.listenerThrows_of_over hm
  · intro h ⟨n, e, hn⟩
    have hl : ∃ n e, r.ListenerThrows n e := by
      rcases hn with hn | hn
      · exact h ⟨n, e, hn⟩
      · exact ⟨n, e, hn⟩
    obtain ⟨n, e, hl⟩ := hl
    obtain ⟨m, hm⟩ := r.eventually_ended hl
    exact r.eventually_over hm

/-- The listener waits for a packet; the run loop throws in its first round. -/
def waiting : Running Unit where
  events n := if n % 2 = 0 then .node (some ()) else if n ≤ 1 then .goes false else .waits
  node n := by
    refine ⟨2 * n, by omega, ?_⟩
    show Event.isNode (if _ then _ else _) = true
    rw [if_pos (by omega)]
    rfl
  listener n := by
    refine ⟨2 * n + 1, by omega, ?_⟩
    show Event.isNode (if _ then _ else _) = false
    rw [if_neg (by omega)]
    split <;> rfl
  noShutdown n := by
    split
    · exact fun h => (by cases h)
    · split <;> exact fun h => (by cases h)

/-- The run loop has thrown, the destructor waits for the listener, and the listener waits for the
    dispatcher. -/
theorem driver_hangs : ¬ waiting.FailsOver := by
  intro h
  obtain ⟨m, x, hm, -⟩ := h ⟨4, (), .inl ⟨rfl, rfl⟩⟩
  obtain ⟨n, e, -, hn⟩ := waiting.listenerThrows_of_over hm
  have hev : waiting.events n ≠ .throws e := by
    show (if _ then _ else if _ then _ else _) ≠ _
    split
    · exact fun h => (by cases h)
    · split <;> exact fun h => (by cases h)
  exact hev hn

end Crete.Cluster.Driver
