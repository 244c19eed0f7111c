/-
  File:      Crete/Cluster/Async.lean
  Subject:   Asynchronous tasks, and the guard through which a node polls them
             (include/crete/async_task.h; `is_prev_task_finished` of vm_node_fsm.cpp and
             svm_node_fsm.cpp).

  A task runs in a thread of its own. When it throws, the thread stores the exception in `eptr_` and
  then sets `flag_`; when it returns, it sets `flag_`. The guard reads `eptr_` and then `flag_`. The
  two threads run in any order, one access after the other.

  If the task stores its exception after the guard's first read and sets the flag before the second,
  the guard accepts: the failed task is taken for one that succeeded.

  * `Mistaken` -- both writes between the two reads, in an evaluation for a row that accepts.
  * **`failure_seen_iff`** -- the failure of a task is seen exactly if there is no such evaluation;
    `failure_missed` is an interleaving that has one.
  * `Qemu.taskRows`, `Klee.taskRows` -- the rows of the two machines; **`Qemu.poll_caught`**,
    **`Klee.poll_caught`** -- what they do then.
-/
import Crete.Cluster.Node
import Mathlib.Data.List.Induction

namespace Crete.Cluster.Async

open List

/-! ## 1. The two threads -/

/-- `class AsyncTask`, without its thread. -/
structure AsyncTask (ε : Type) where
  eptr : Option ε
  flag : Bool
  deriving DecidableEq, Repr

/-- Where the thread of a task is: in the task's function, before it stores the exception, before
    it sets the flag, or at its end. -/
inductive Worker (ε : Type) where
  | running
  | storing (e : ε)
  | flagging
  | ended
  deriving DecidableEq, Repr

/-- Where the polling thread is: between two events; in a guard, before its first or its second
    read, with what the other guards of the row and of the rows after it say; or past the transition
    of a finished task, or in `exception_caught`. -/
inductive Poller (ε : Type) where
  | idle
  | isExceptionThrown (row : Bool) (rows : List Bool)
  | isFinished (row : Bool) (rows : List Bool)
  | took
  | caught (e : ε)
  deriving DecidableEq, Repr

structure Sys (ε : Type) where
  worker : Worker ε
  poller : Poller ε
  task : AsyncTask ε
  deriving DecidableEq, Repr

inductive Thread where
  | worker
  | poller
  deriving DecidableEq, Repr

variable {ε : Type}

/-- A task that was just started, and a machine in the state that waits for it. -/
def Sys.start : Sys ε := ⟨.running, .idle, ⟨none, false⟩⟩

/-- The lambda `wrapper`: the next access of the task's thread; `result` is what the function
    throws, if it does. -/
def Sys.work (result : Option ε) (s : Sys ε) : Sys ε :=
  match s.worker with
  | .running => { s with worker := match result with
      | none => .flagging
      | some e => .storing e }
  | .storing e => { s with worker := .flagging, task.eptr := some e }
  | .flagging => { s with worker := .ended, task.flag := true }
  | .ended => s

/-- The row after one that did not accept; after the last one the event is over. -/
def Poller.next {ε : Type} : List Bool → Poller ε
  | [] => .idle
  | row :: rows => .isExceptionThrown row rows

/-- `is_prev_task_finished`: the next access of the polling thread. `rows` are the rows of the
    state, in the order in which they are tried; `releases` is whether the guard takes the exception
    out of the task, as that of the SVM node does. -/
def Sys.look (rows : List Bool) (releases : Bool) (s : Sys ε) : Sys ε :=
  match s.poller with
  | .idle => { s with poller := .next rows }
  | .isExceptionThrown row rest => match s.task.eptr with
    | some e => { s with
        poller := .caught e
        task.eptr := if releases then none else some e }
    | none => { s with poller := .isFinished row rest }
  | .isFinished row rest => { s with poller := if s.task.flag && row then .took else .next rest }
  | .took | .caught _ => s

/-- One access of one thread. -/
def Sys.step (result : Option ε) (rows : List Bool) (releases : Bool) (s : Sys ε) : Thread → Sys ε
  | .worker => s.work result
  | .poller => s.look rows releases

/-- **An interleaving.** -/
def run (result : Option ε) (rows : List Bool) (releases : Bool) (s : Sys ε)
    (sched : List Thread) : Sys ε :=
  sched.foldl (Sys.step result rows releases) s

/-- The exception has been stored, or there was none. -/
def Worker.stored : Worker ε → Bool
  | .running | .storing _ => false
  | .flagging | .ended => true

/-- **Both writes between the two reads**: the guard of a row that accepts starts before the task
    stores its exception, and the task's thread ends before the guard goes on. -/
def Mistaken (e : ε) (rows : List Bool) (releases : Bool) (sched : List Thread) : Prop :=
  ∃ before n after, sched = before ++ .poller :: replicate n .worker ++ .poller :: after ∧
    (∃ rest, (run (some e) rows releases .start before).poller = .isExceptionThrown true rest) ∧
    (run (some e) rows releases .start before).worker.stored = false ∧
    (run (some e) rows releases .start
      (before ++ .poller :: replicate n .worker)).worker = .ended

/-- **The failure of a task is seen**: the transition of a finished task is not taken, and once
    the task's thread has ended and an event has been handled, the exception is caught. -/
structure FailureSeen (e : ε) (rows : List Bool) (releases : Bool) (sched : List Thread) :
    Prop where
  not_took : (run (some e) rows releases .start sched).poller ≠ .took
  caught : ∀ before after, sched = before ++ after →
    (run (some e) rows releases .start before).worker = .ended → 3 ≤ after.count .poller →
    (run (some e) rows releases .start sched).poller = .caught e

/-! ## 2. What is shared -/

/-- What the task of a thread that throws `e` holds, by where the thread is. -/
structure Sound (e : ε) (s : Sys ε) : Prop where
  early : s.worker.stored = false → s.worker = .running ∨ s.worker = .storing e
  empty : s.worker.stored = false → s.task.eptr = none
  stored : s.worker.stored = true → s.task.eptr = some e ∨ s.poller = .caught e
  held : ∀ x, s.task.eptr = some x → x = e
  flag : s.task.flag = true ↔ s.worker = .ended
  caught : ∀ x, s.poller = .caught x → x = e

variable {e : ε} {rows : List Bool} {releases : Bool} {s : Sys ε} {sched : List Thread}

theorem sound_start : Sound e (.start : Sys ε) where
  early _ := .inl rfl
  empty _ := rfl
  stored h := by cases h
  held x h := by cases h
  flag := ⟨fun h => absurd h Bool.false_ne_true, fun h => by cases h⟩
  caught x h := by cases h

theorem Sound.work (h : Sound e s) : Sound e (s.work (some e)) := by
  unfold Sys.work
  split
  · rename_i hw
    have hst : s.worker.stored = false := by rw [hw]; rfl
    refine ⟨fun _ => .inr rfl, fun _ => h.empty hst, fun hs => absurd hs Bool.false_ne_true, h.held,
      ?_, h.caught⟩
    rw [h.flag, hw]
    exact ⟨fun hf => (by cases hf), fun hf => (by cases hf)⟩
  · rename_i x hw
    have hst : s.worker.stored = false := by rw [hw]; rfl
    have hx : x = e := by
      rcases h.early hst with hr | hr
      · rw [hw] at hr
        cases hr
      · rw [hw] at hr
        exact Worker.storing.inj hr
    subst hx
    refine ⟨fun hs => absurd hs.symm Bool.false_ne_true,
      fun hs => absurd hs.symm Bool.false_ne_true, fun _ => .inl rfl,
      fun y hy => (Option.some.inj hy).symm, ?_, h.caught⟩
    show s.task.flag = true ↔ _
    rw [h.flag, hw]
    exact ⟨fun hf => (by cases hf), fun hf => (by cases hf)⟩
  · rename_i hw
    have hst : s.worker.stored = true := by rw [hw]; rfl
    exact ⟨fun hs => absurd hs.symm Bool.false_ne_true,
      fun hs => absurd hs.symm Bool.false_ne_true, fun _ => h.stored hst, h.held,
      ⟨fun _ => rfl, fun _ => rfl⟩, h.caught⟩
  · exact h

theorem next_ne_caught (rows : List Bool) (x : ε) : Poller.next rows ≠ .caught x := by
  cases rows <;> exact fun h => (by cases h)

theorem Sound.look (h : Sound e s) : Sound e (s.look rows releases) := by
  -- a step that catches nothing
  have hmove : ∀ p : Poller ε, (∀ x, p ≠ .caught x) → (∀ x, s.poller ≠ .caught x) →
      Sound e { s with poller := p } := by
    intro p hp hs
    exact ⟨h.early, h.empty, fun hst => .inl ((h.stored hst).resolve_right (hs e)), h.held, h.flag,
      fun x hx => absurd hx (hp x)⟩
  unfold Sys.look
  split
  · rename_i hp
    exact hmove _ (next_ne_caught rows) fun x hx => (by rw [hp] at hx; cases hx)
  · rename_i row rest hp
    split
    · rename_i x hx
      obtain rfl := h.held x hx
      have hst : s.worker.stored = true := by
        refine Bool.eq_true_of_not_eq_false fun hs => ?_
        rw [h.empty hs] at hx
        cases hx
      refine ⟨h.early, fun hs => ?_, fun _ => .inr rfl, fun y hy => ?_, h.flag,
        fun y hy => (Poller.caught.inj hy).symm⟩
      · exact absurd (hst.symm.trans hs) Bool.noConfusion
      · cases releases with
        | true => cases hy
        | false => exact (Option.some.inj hy).symm
    · exact hmove _ (fun x hx => (by cases hx)) fun x hx => (by rw [hp] at hx; cases hx)
  · rename_i row rest hp
    refine hmove _ (fun x => ?_) fun x hx => (by rw [hp] at hx; cases hx)
    split
    · exact fun hx => (by cases hx)
    · exact next_ne_caught rest x
  · exact h
  · exact h

theorem Sound.step (h : Sound e s) (t : Thread) : Sound e (s.step (some e) rows releases t) := by
  cases t with
  | worker => exact h.work
  | poller => exact h.look

theorem Sound.run (sched : List Thread) : ∀ {s : Sys ε}, Sound e s →
    Sound e (run (some e) rows releases s sched) := by
  induction sched with
  | nil => exact fun h => h
  | cons t sched ih => exact fun h => ih (h.step t)

/-! ## 3. One thread at a time -/

theorem run_append (result : Option ε) (rows : List Bool) (releases : Bool) (s : Sys ε)
    (xs ys : List Thread) : run result rows releases s (xs ++ ys) =
      run result rows releases (run result rows releases s xs) ys :=
  foldl_append

theorem run_snoc (result : Option ε) (rows : List Bool) (releases : Bool) (s : Sys ε)
    (xs : List Thread) (t : Thread) : run result rows releases s (xs ++ [t]) =
      (run result rows releases s xs).step result rows releases t :=
  run_append result rows releases s xs [t]

/-- The task's thread leaves the polling thread where it is. -/
theorem work_poller (result : Option ε) (s : Sys ε) : (s.work result).poller = s.poller := by
  unfold Sys.work
  split <;> rfl

/-- The polling thread leaves the task's thread where it is. -/
theorem look_worker (rows : List Bool) (releases : Bool) (s : Sys ε) :
    (s.look rows releases).worker = s.worker := by
  unfold Sys.look
  split
  · rfl
  · split <;> rfl
  · rfl
  · rfl
  · rfl

theorem run_replicate_worker (result : Option ε) (n : Nat) : ∀ s : Sys ε,
    (run result rows releases s (replicate n .worker)).poller = s.poller := by
  induction n with
  | zero => exact fun s => rfl
  | succ n ih => exact fun s => (ih (s.work result)).trans (work_poller result s)

/-- A transition that was taken stays taken. -/
theorem run_took (result : Option ε) (sched : List Thread) : ∀ {s : Sys ε}, s.poller = .took →
    (run result rows releases s sched).poller = .took := by
  induction sched with
  | nil => exact fun h => h
  | cons t sched ih =>
    intro s h
    refine ih ?_
    cases t with
    | worker => exact (work_poller result s).trans h
    | poller =>
      show (s.look rows releases).poller = .took
      rw [Sys.look, h]
      exact h

/-- An ended thread stays ended. -/
theorem step_ended (result : Option ε) (t : Thread) (h : s.worker = .ended) :
    (s.step result rows releases t).worker = .ended := by
  cases t with
  | worker =>
    show (s.work result).worker = .ended
    simp only [Sys.work, h]
  | poller => exact (look_worker rows releases s).trans h

/-! ## 4. Where the transition comes from -/

/-- **Before its second read, the guard has read that there is no exception**, and since then only
    the task's thread has moved. -/
theorem isFinished_origin (sched : List Thread) : ∀ {row : Bool} {rest : List Bool},
    (run (some e) rows releases .start sched).poller = .isFinished row rest →
    ∃ before n, sched = before ++ .poller :: replicate n .worker ∧
      (run (some e) rows releases .start before).poller = .isExceptionThrown row rest ∧
      (run (some e) rows releases .start before).worker.stored = false := by
  induction sched using reverseRecOn with
  | nil =>
    intro row rest h
    cases h
  | append_singleton sched t ih =>
    intro row rest h
    have hsound : Sound e (run (some e) rows releases .start sched) := sound_start.run sched
    rw [run_snoc] at h
    cases t with
    | worker =>
      rw [Sys.step, work_poller] at h
      obtain ⟨before, n, rfl, hp, hs⟩ := ih h
      refine ⟨before, n + 1, ?_, hp, hs⟩
      rw [replicate_succ', append_assoc, cons_append]
    | poller =>
      -- the only way to the second read is the first
      rw [Sys.step] at h
      refine ⟨sched, 0, rfl, ?_⟩
      revert h
      unfold Sys.look
      split
      · rename_i hp
        intro h
        cases rows <;> cases h
      · rename_i row' rest' hp
        split
        · intro h
          cases h
        · rename_i hnone
          intro h
          obtain ⟨rfl, rfl⟩ := Poller.isFinished.inj h
          refine ⟨hp, Bool.eq_false_of_not_eq_true fun hst => ?_⟩
          rcases hsound.stored hst with hx | hx
          · rw [hnone] at hx
            cases hx
          · rw [hp] at hx
            cases hx
      · rename_i row' rest' hp
        intro h
        exfalso
        split at h
        · cases h
        · cases rest' <;> cases h
      · rename_i hp
        intro h
        rw [hp] at h
        cases h
      · rename_i x hp
        intro h
        rw [hp] at h
        cases h

theorem Mistaken.append (h : Mistaken e rows releases sched) (more : List Thread) :
    Mistaken e rows releases (sched ++ more) := by
  obtain ⟨before, n, after, rfl, h⟩ := h
  refine ⟨before, n, after ++ more, ?_, h⟩
  rw [append_assoc]
  rfl

/-- **The transition of a finished task is taken only by mistake.** -/
theorem mistaken_of_took (sched : List Thread)
    (h : (run (some e) rows releases .start sched).poller = .took) :
    Mistaken e rows releases sched := by
  induction sched using reverseRecOn with
  | nil => cases h
  | append_singleton sched t ih =>
    by_cases hold : (run (some e) rows releases .start sched).poller = .took
    · exact (ih hold).append [t]
    have hsound : Sound e (run (some e) rows releases .start sched) := sound_start.run sched
    rw [run_snoc] at h
    cases t with
    | worker =>
      rw [Sys.step, work_poller] at h
      exact absurd h hold
    | poller =>
      rw [Sys.step] at h
      revert h
      unfold Sys.look
      split
      · intro h
        cases rows <;> cases h
      · split
        · intro h
          cases h
        · intro h
          cases h
      · rename_i row rest hp
        intro h
        obtain ⟨before, n, rfl, hb, hs⟩ := isFinished_origin sched hp
        by_cases hgo : ((run (some e) rows releases .start
            (before ++ .poller :: replicate n .worker)).task.flag && row) = true
        · obtain ⟨hf, rfl⟩ := Bool.and_eq_true_iff.1 hgo
          exact ⟨before, n, [], rfl, ⟨rest, hb⟩, hs, hsound.flag.1 hf⟩
        · exfalso
          simp only [if_neg hgo] at h
          cases rest <;> cases h
      · rename_i hp
        exact fun _ => absurd hp hold
      · rename_i x hp
        intro h
        rw [hp] at h
        cases h

/-- **A mistake is made.** -/
theorem Mistaken.took (h : Mistaken e rows releases sched) :
    (run (some e) rows releases .start sched).poller = .took := by
  obtain ⟨before, n, after, rfl, ⟨rest, hp⟩, hs, hw⟩ := h
  have hsound : Sound e (run (some e) rows releases .start before) := sound_start.run before
  have hsound' : Sound e (run (some e) rows releases .start
      (before ++ .poller :: replicate n .worker)) := sound_start.run _
  -- the first read finds nothing, and the other thread then runs to its end
  have hread : (run (some e) rows releases .start
      (before ++ .poller :: replicate n .worker)).poller = .isFinished true rest := by
    rw [run_append]
    refine (run_replicate_worker (some e) n _).trans ?_
    show (Sys.look rows releases _).poller = _
    rw [Sys.look, hp, hsound.empty hs]
  rw [run_append]
  refine run_took (some e) after ?_
  show (Sys.look rows releases _).poller = _
  rw [Sys.look, hread, hsound'.flag.2 hw]
  rfl

/-! ## 5. The failure is seen -/

/-- How many accesses the polling thread is away from the exception. -/
def Poller.rank : Poller ε → Nat
  | .caught _ => 0
  | .isExceptionThrown _ _ => 1
  | .idle => 2
  | .isFinished _ _ => 3
  | .took => 0

theorem rank_next (rows : List Bool) : (Poller.next rows : Poller ε).rank ≤ 2 := by
  cases rows with
  | nil => exact Nat.le_refl 2
  | cons row rows => exact Nat.le_succ 1

theorem rank_le (p : Poller ε) : p.rank ≤ 3 := by
  cases p <;> simp [Poller.rank]

/-- After the task's thread has ended, each access brings the polling thread closer. -/
theorem look_rank {row : Bool} (h : Sound e s) (hw : s.worker = .ended) :
    (s.look (row :: rows) releases).poller.rank ≤ s.poller.rank - 1 := by
  unfold Sys.look
  split
  · rename_i hp
    rw [hp]
    exact Nat.le_refl 1
  · rename_i row' rest hp
    have hst : s.worker.stored = true := by rw [hw]; rfl
    rcases h.stored hst with hx | hx
    · rw [hx]
      exact Nat.zero_le _
    · rw [hp] at hx
      cases hx
  · rename_i row' rest hp
    rw [hp]
    show Poller.rank (if _ then _ else _) ≤ 2
    split
    · exact Nat.zero_le 2
    · exact rank_next rest
  · rename_i hp
    rw [hp]
    exact Nat.le_refl 0
  · rename_i x hp
    rw [hp]
    exact Nat.le_refl 0

theorem run_rank {row : Bool} (sched : List Thread) : ∀ {s : Sys ε}, Sound e s →
    s.worker = .ended → s.poller.rank ≤ sched.count .poller →
    (run (some e) (row :: rows) releases s sched).poller.rank = 0 := by
  induction sched with
  | nil => exact fun _ _ hr => Nat.le_zero.1 hr
  | cons t sched ih =>
    intro s h hw hr
    refine ih (h.step t) (step_ended (some e) t hw) ?_
    cases t with
    | worker =>
      rw [count_cons_of_ne (by decide)] at hr
      rw [Sys.step, work_poller]
      exact hr
    | poller =>
      rw [count_cons_self] at hr
      have hl : (s.look (row :: rows) releases).poller.rank ≤ s.poller.rank - 1 :=
        look_rank h hw
      rw [Sys.step]
      omega

theorem Sound.caught_of_rank (h : Sound e s) (hr : s.poller.rank = 0) (ht : s.poller ≠ .took) :
    s.poller = .caught e := by
  cases hp : s.poller with
  | caught x => rw [h.caught x hp]
  | took => exact absurd hp ht
  | idle | isExceptionThrown row rest | isFinished row rest => rw [hp] at hr; cases hr

/-- **The failure of a task is seen exactly if no guard is mistaken**, whatever the rows of the
    state are and whether or not the guard takes the exception out. -/
theorem failure_seen_iff (e : ε) (row : Bool) (rows : List Bool) (releases : Bool)
    (sched : List Thread) :
    FailureSeen e (row :: rows) releases sched ↔ ¬ Mistaken e (row :: rows) releases sched := by
  constructor
  · intro h hm
    exact h.not_took hm.took
  · intro h
    have hnot : (run (some e) (row :: rows) releases .start sched).poller ≠ .took :=
      fun ht => h (mistaken_of_took sched ht)
    refine ⟨hnot, fun before after he hw hcount => ?_⟩
    have hb : Sound e (run (some e) (row :: rows) releases .start before) :=
      sound_start.run before
    have hrank : (run (some e) (row :: rows) releases .start sched).poller.rank = 0 := by
      rw [he, run_append]
      exact run_rank after hb hw (Nat.le_trans (rank_le _) hcount)
    exact (sound_start.run sched).caught_of_rank hrank hnot

/-- The guard reads that there is no exception, the task throws, stores the exception and sets the
    flag, and the guard reads the flag; so with the guards of both nodes. -/
theorem failure_missed :
    ¬ FailureSeen () [true] false [.poller, .poller, .worker, .worker, .worker, .poller] ∧
      ¬ FailureSeen () [true] true [.poller, .poller, .worker, .worker, .worker, .poller] :=
  ⟨fun h => h.not_took rfl, fun h => h.not_took rfl⟩

end Crete.Cluster.Async

namespace Crete.Cluster

open List

variable {T D E : Type}

/-! ## 6. The rows of the two machines -/

/-- The rows of a state whose guards start with `is_prev_task_finished`, in the order in which they
    are tried: what the other guards of the row say. -/
def Qemu.taskRows (q : Qemu T D E) : List Bool :=
  match q.state with
  | .startVm | .rxGuestData | .nextTest | .storeTrace => [true]
  | .connectVm =>
    [q.distributed && q.target ≠ "" && q.firstVm, q.distributed && q.target ≠ "" && !q.firstVm,
      !q.distributed && q.firstVm, !q.distributed && !q.firstVm]
  | .start | .validateImage | .updateImage | .guestDataRxed | .testing | .finished => []

/-- Likewise; the guards consist of `is_prev_task_finished`. -/
def Klee.taskRows (k : Klee T D E) : List Bool :=
  match k.state with
  | .prepare | .executeConcolic | .executeSymbolic | .storeTests | .finished => [true]
  | .start | .nextTrace | .resultReady => []

/-- **What a machine does with an exception that a guard lets through**: it stays where it is, and
    another region leaves its initial state. -/
theorem Qemu.poll_caught (q : Qemu T D E) (hrows : q.taskRows ≠ []) (hstate : q.state ≠ .nextTest)
    (hterm : q.terminated = false) (vmException : Bool) (log : E) :
    (q.poll (.throws vmException log)).state = q.state ∧
      ((q.poll (.throws vmException log)).error = true ∨
        (q.poll (.throws vmException log)).terminated = true) := by
  have hpoll : q.poll (.throws vmException log) = q.throw vmException log := by
    rw [Qemu.taskRows] at hrows
    rw [Qemu.poll, hterm]
    cases hs : q.state <;> simp_all
  rw [hpoll, Qemu.throw]
  split
  · exact ⟨rfl, .inl rfl⟩
  · exact ⟨rfl, .inr rfl⟩

theorem Klee.poll_caught (k : Klee T D E) (hrows : k.taskRows ≠ []) (tests : Option (List T))
    (log : E) :
    (k.poll (.throws tests log)).state = k.state ∧ (k.poll (.throws tests log)).error = true := by
  rw [Klee.taskRows] at hrows
  unfold Klee.poll
  cases hs : k.state <;> cases tests <;> simp_all [Klee.throw]

/-- In `ConnectVM` exactly one row accepts, unless the instance has no target in distributed
    mode. -/
theorem Qemu.count_taskRows (q : Qemu T D E) (hs : q.state = .connectVm) :
    q.taskRows.count true = if q.distributed && q.target = "" then 0 else 1 := by
  rw [Qemu.taskRows, hs]
  cases q.distributed <;> cases q.firstVm <;> by_cases ht : q.target = "" <;> simp [ht]

/-- **The transition of a finished task**: where a row accepts, it leaves the state. -/
theorem Qemu.poll_took (q : Qemu T D E) (hstate : q.state ≠ .nextTest)
    (hterm : q.terminated = false) (hrow : true ∈ q.taskRows) (imageValid : Bool) (guest : T)
    (uuid : Nat) (data : D) : (q.poll (.goes imageValid guest uuid data)).state ≠ q.state := by
  have hadv : q.poll (.goes imageValid guest uuid data) = q.advance imageValid guest uuid data := by
    rw [Qemu.taskRows] at hrow
    rw [Qemu.poll, hterm]
    cases hs : q.state <;> simp_all
  rw [hadv]
  cases hs : q.state with
  | connectVm =>
    have hcount := q.count_taskRows hs
    have hgo : ¬ (q.distributed && q.target = "") = true := by
      intro hnone
      rw [if_pos hnone] at hcount
      exact absurd hrow (count_eq_zero.1 hcount)
    rw [Qemu.advance, hs]
    simp only [if_neg hgo]
    split <;> exact fun h => (by cases h)
  | startVm | rxGuestData | storeTrace => rw [Qemu.advance, hs]; exact fun h => (by cases h)
  | nextTest => exact absurd hs hstate
  | start | validateImage | updateImage | guestDataRxed | testing | finished =>
    rw [Qemu.taskRows, hs] at hrow
    cases hrow

end Crete.Cluster
