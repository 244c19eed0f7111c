/-
  File:      Crete/Lib/Search.lean
  Subject:   Breadth-first search with a visitor that can stop it.

  * **`bfs_ok`** -- a search that ends has visited everything it can reach.
  * **`bfs_error_level`** -- within `n` pops, on `n` vertices, only a visit can end it early, and
    everything on the levels above that vertex has been visited before.
-/
import Crete.Lib.Except
import Mathlib.Data.List.Nodup
import Mathlib.Data.List.Perm.Subperm

namespace Crete.Lib

open List

section Search

/-! ## 1. The search -/

variable {α ε : Type} [DecidableEq α]
variable (edges : α → List α) (resolve : α → Except ε α) (visit : α → Except ε Unit)

/-- Go through the out-edges of a vertex, with the discovered vertices and the queue. -/
def bfsEdges : List α → List α → List α → Except ε (List α × List α)
  | [], disc, queue => .ok (disc, queue)
  | t :: ts, disc, queue => do
      let v ← resolve t
      if v ∈ disc then bfsEdges ts disc queue
      else do
        visit v
        bfsEdges ts (v :: disc) (queue ++ [v])

/-- The search loop, for a number of pops; `exhausted` if they do not suffice. -/
def bfsLoop (exhausted : ε) : Nat → List α → List α → Except ε (List α)
  | _, disc, [] => .ok disc
  | 0, _, _ :: _ => .error exhausted
  | fuel + 1, disc, u :: queue => do
      let s ← bfsEdges resolve visit (edges u) disc queue
      bfsLoop exhausted fuel s.1 s.2

/-- The search from `s`. -/
def bfs (exhausted : ε) (fuel : Nat) (s : α) : Except ε (List α) := do
  visit s
  bfsLoop edges resolve visit exhausted fuel [s] [s]

/-- The edges of `u` lead to discovered vertices. -/
def Explored (disc : List α) (u : α) : Prop :=
  ∀ t ∈ edges u, ∀ v, resolve t = .ok v → v ∈ disc

/-- What holds at every turn of the loop. -/
structure BfsInv (disc queue : List α) : Prop where
  visited : ∀ v ∈ disc, visit v = .ok ()
  nodup : disc.Nodup
  queued : ∀ v ∈ queue, v ∈ disc
  explored : ∀ v ∈ disc, v ∈ queue ∨ Explored edges resolve disc v

variable {edges resolve visit}

theorem bfsEdges_ok : ∀ (ts : List α) {disc queue disc' queue' : List α},
    bfsEdges resolve visit ts disc queue = .ok (disc', queue') →
    (∀ v ∈ disc, visit v = .ok ()) → disc.Nodup → (∀ v ∈ queue, v ∈ disc) →
    (∀ v ∈ disc', visit v = .ok ()) ∧ disc'.Nodup ∧ (∀ v ∈ queue', v ∈ disc') ∧
      (∀ v ∈ disc, v ∈ disc') ∧ (∀ v ∈ disc', v ∈ disc ∨ v ∈ queue') ∧
      (∀ v ∈ queue, v ∈ queue') ∧ (∀ t ∈ ts, ∀ v, resolve t = .ok v → v ∈ disc') ∧
      queue'.length + disc.length = queue.length + disc'.length
  | [], disc, queue, disc', queue', h, hv, hn, hq => by
    cases h
    exact ⟨hv, hn, hq, fun _ => id, fun _ => .inl, fun _ => id, forall_mem_nil _, rfl⟩
  | t :: ts, disc, queue, disc', queue', h, hv, hn, hq => by
    rw [bfsEdges] at h
    obtain ⟨v, hr, h⟩ := bind_eq_ok.1 h
    by_cases hm : v ∈ disc
    · rw [if_pos hm] at h
      obtain ⟨h1, h2, h3, h4, h5, h6, h7, h8⟩ := bfsEdges_ok ts h hv hn hq
      refine ⟨h1, h2, h3, h4, h5, h6, fun t' ht' v' hv' => ?_, h8⟩
      rcases mem_cons.1 ht' with rfl | ht'
      · cases hr.symm.trans hv'
        exact h4 v hm
      · exact h7 t' ht' v' hv'
    · rw [if_neg hm] at h
      obtain ⟨⟨⟩, hvis, h⟩ := bind_eq_ok.1 h
      obtain ⟨h1, h2, h3, h4, h5, h6, h7, h8⟩ := bfsEdges_ok ts h (fun w hw => by
          rcases mem_cons.1 hw with rfl | hw
          · exact hvis
          · exact hv w hw)
        (nodup_cons.2 ⟨hm, hn⟩)
        (fun w hw => by
          rcases mem_append.1 hw with hw | hw
          · exact .tail _ (hq w hw)
          · rw [mem_singleton.1 hw]
            exact (.head _))
      refine ⟨h1, h2, h3, (forall_mem_cons.1 h4).2, fun w hw => ?_,
        fun w hw => h6 w (mem_append_left _ hw), fun t' ht' v' hv' => ?_, ?_⟩
      · rcases h5 w hw with hw | hw
        · rcases mem_cons.1 hw with rfl | hw
          · exact .inr (h6 w (mem_append_right _ (.head _)))
          · exact .inl hw
        · exact .inr hw
      · rcases mem_cons.1 ht' with rfl | ht'
        · cases hr.symm.trans hv'
          exact h4 v (.head _)
        · exact h7 t' ht' v' hv'
      · rw [length_cons, length_append, length_singleton] at h8
        omega

/-- One turn of the loop keeps the invariant. -/
theorem BfsInv.step {u : α} {disc queue disc' queue' : List α}
    (hi : BfsInv edges resolve visit disc (u :: queue))
    (h : bfsEdges resolve visit (edges u) disc queue = .ok (disc', queue')) :
    BfsInv edges resolve visit disc' queue' ∧
      queue'.length + disc.length = queue.length + disc'.length ∧ (∀ v ∈ disc, v ∈ disc') := by
  obtain ⟨h1, h2, h3, h4, h5, h6, h7, h8⟩ := bfsEdges_ok (edges u) h hi.visited hi.nodup
    (forall_mem_cons.1 hi.queued).2
  refine ⟨⟨h1, h2, h3, fun v hv => ?_⟩, h8, h4⟩
  rcases h5 v hv with hd | hq
  · rcases hi.explored v hd with hq | he
    · rcases mem_cons.1 hq with rfl | hq
      · exact .inr h7
      · exact .inl (h6 v hq)
    · exact .inr fun t ht w hw => h4 w (he t ht w hw)
  · exact .inl hq

theorem bfsLoop_ok {exhausted : ε} : ∀ (fuel : Nat) {disc queue disc' : List α},
    bfsLoop edges resolve visit exhausted fuel disc queue = .ok disc' →
    BfsInv edges resolve visit disc queue →
    BfsInv edges resolve visit disc' [] ∧ (∀ v ∈ disc, v ∈ disc')
  | _, disc, [], disc', h, hi => by
    rw [bfsLoop] at h
    cases h
    exact ⟨hi, fun _ => id⟩
  | 0, disc, u :: queue, disc', h, hi => by
    rw [bfsLoop] at h
    cases h
  | fuel + 1, disc, u :: queue, disc', h, hi => by
    rw [bfsLoop] at h
    obtain ⟨⟨d, q⟩, hs, h⟩ := bind_eq_ok.1 h
    obtain ⟨hi', -, hsub⟩ := hi.step hs
    obtain ⟨hf, hsub'⟩ := bfsLoop_ok fuel h hi'
    exact ⟨hf, fun v hv => hsub' v (hsub v hv)⟩

omit [DecidableEq α] in
theorem BfsInv.start {s : α} (h : visit s = .ok ()) : BfsInv edges resolve visit [s] [s] where
  visited v hv := by rw [mem_singleton.1 hv]; exact h
  nodup := nodup_singleton s
  queued _ hv := hv
  explored _ hv := .inl hv

/-- **A search that ends has visited everything it can reach.** -/
theorem bfs_ok {exhausted : ε} {fuel : Nat} {s : α} {disc : List α}
    (h : bfs edges resolve visit exhausted fuel s = .ok disc) :
    s ∈ disc ∧ ∀ v ∈ disc, visit v = .ok () ∧ Explored edges resolve disc v := by
  obtain ⟨⟨⟩, hv, h⟩ := bind_eq_ok.1 h
  obtain ⟨hi, hsub⟩ := bfsLoop_ok fuel h (.start hv)
  refine ⟨hsub s (.head _), fun v hv => ⟨hi.visited v hv, ?_⟩⟩
  exact (hi.explored v hv).resolve_left not_mem_nil

/-! ## 2. Level by level -/

variable (edges resolve) in
/-- A vertex `n` edges away from `s`. -/
inductive Level (s : α) : Nat → α → Prop
  | source : Level s 0 s
  | edge {n : Nat} {u t v : α} : Level s n u → t ∈ edges u → resolve t = .ok v →
      Level s (n + 1) v

/-- What the edges of a vertex add to the queue: vertices not yet discovered. -/
theorem bfsEdges_queue : ∀ (ts : List α) {disc queue disc' queue' : List α},
    bfsEdges resolve visit ts disc queue = .ok (disc', queue') →
    ∃ new, queue' = queue ++ new ∧ ∀ v ∈ new, v ∉ disc ∧ ∃ t ∈ ts, resolve t = .ok v
  | [], disc, queue, disc', queue', h => by
    cases h
    exact ⟨[], (append_nil _).symm, forall_mem_nil _⟩
  | t :: ts, disc, queue, disc', queue', h => by
    rw [bfsEdges] at h
    obtain ⟨v, hr, h⟩ := bind_eq_ok.1 h
    by_cases hm : v ∈ disc
    · rw [if_pos hm] at h
      obtain ⟨new, e, hnew⟩ := bfsEdges_queue ts h
      refine ⟨new, e, fun w hw => ?_⟩
      obtain ⟨hd, t', ht', hr'⟩ := hnew w hw
      exact ⟨hd, t', mem_cons_of_mem _ ht', hr'⟩
    · rw [if_neg hm] at h
      obtain ⟨⟨⟩, -, h⟩ := bind_eq_ok.1 h
      obtain ⟨new, e, hnew⟩ := bfsEdges_queue ts h
      refine ⟨v :: new, by rw [e, append_assoc, singleton_append], fun w hw => ?_⟩
      rcases mem_cons.1 hw with rfl | hw
      · exact ⟨hm, t, .head _, hr⟩
      · obtain ⟨hd, t', ht', hr'⟩ := hnew w hw
        exact ⟨fun hw' => hd (.tail _ hw'), t', mem_cons_of_mem _ ht', hr'⟩

/-- Where every edge leads somewhere, only a visit can fail. -/
theorem bfsEdges_error {e : ε} : ∀ (ts : List α), (∀ t ∈ ts, ∃ v, resolve t = .ok v) →
    ∀ {disc queue : List α}, bfsEdges resolve visit ts disc queue = .error e →
    ∃ t ∈ ts, ∃ v, resolve t = .ok v ∧ visit v = .error e
  | [], _, disc, queue, h => by cases h
  | t :: ts, ht, disc, queue, h => by
    obtain ⟨v, hr⟩ := ht t (.head _)
    have htail : ∀ {disc queue : List α}, bfsEdges resolve visit ts disc queue = .error e →
        ∃ t' ∈ t :: ts, ∃ v, resolve t' = .ok v ∧ visit v = .error e := by
      intro disc queue h
      obtain ⟨t', ht', hv'⟩ :=
        bfsEdges_error ts (forall_mem_cons.1 ht).2 h
      exact ⟨t', mem_cons_of_mem _ ht', hv'⟩
    rw [bfsEdges, hr, ok_bind] at h
    by_cases hm : v ∈ disc
    · rw [if_pos hm] at h
      exact htail h
    · rw [if_neg hm] at h
      cases hvis : visit v with
      | error e' =>
        rw [hvis, error_bind] at h
        cases h
        exact ⟨t, .head _, v, hr, hvis⟩
      | ok _ =>
        rw [hvis, ok_bind] at h
        exact htail h

variable (edges resolve) in
/-- **The queue holds one level, then the next.** Everything up to the first of them is
    discovered. -/
structure Layered (s : α) (n : Nat) (disc now later : List α) : Prop where
  now : ∀ v ∈ now, Level edges resolve s n v
  later : ∀ v ∈ later, Level edges resolve s (n + 1) v ∧ ∀ m ≤ n, ¬ Level edges resolve s m v
  reached : ∀ m ≤ n, ∀ w, Level edges resolve s m w → w ∈ disc

omit [DecidableEq α] in
theorem Layered.start (s : α) : Layered edges resolve s 0 [s] [s] [] where
  now v hv := by
    rw [mem_singleton.1 hv]
    exact .source
  later v hv := by cases hv
  reached m hm w hw := by
    cases hw with
    | source => exact mem_singleton_self s
    | edge => omega

omit [DecidableEq α] in
/-- When a level is done, the next one is discovered. -/
theorem Layered.turn {s : α} {n : Nat} {disc later : List α}
    (h : Layered edges resolve s n disc [] later) (hi : BfsInv edges resolve visit disc later) :
    Layered edges resolve s (n + 1) disc later [] where
  now v hv := (h.later v hv).1
  later v hv := by cases hv
  reached m hm w hw := by
    rcases Nat.lt_or_ge n m with hlt | hle
    · obtain rfl : m = n + 1 := by omega
      cases hw with
      | @edge _ u t _ hu ht hr =>
        have hex := (hi.explored u (h.reached n (Nat.le_refl n) u hu)).resolve_left
          fun hq => (h.later u hq).2 n (Nat.le_refl n) hu
        exact hex t ht w hr
    · exact h.reached m hle w hw

omit [DecidableEq α] in
/-- The front of the queue belongs to the level the search is at. -/
theorem Layered.front {s u : α} {n : Nat} {disc now later queue : List α}
    (h : Layered edges resolve s n disc now later) (hq : now ++ later = u :: queue)
    (hi : BfsInv edges resolve visit disc (u :: queue)) :
    ∃ n now later, now ++ later = queue ∧ Layered edges resolve s n disc (u :: now) later := by
  cases now with
  | nil =>
    rw [nil_append] at hq
    rw [hq] at h
    exact ⟨n + 1, queue, [], append_nil queue, h.turn hi⟩
  | cons v now =>
    obtain ⟨rfl, e⟩ := List.cons.inj hq
    exact ⟨n, now, later, e, h⟩

/-- One turn of the loop. -/
theorem Layered.step {s u : α} {n : Nat} {disc now later disc' queue' : List α}
    (h : Layered edges resolve s n disc (u :: now) later)
    (hs : bfsEdges resolve visit (edges u) disc (now ++ later) = .ok (disc', queue'))
    (hsub : ∀ v ∈ disc, v ∈ disc') :
    ∃ later', now ++ later' = queue' ∧ Layered edges resolve s n disc' now later' := by
  obtain ⟨new, e, hnew⟩ := bfsEdges_queue (edges u) hs
  refine ⟨later ++ new, by rw [e, append_assoc], (forall_mem_cons.1 h.now).2, fun v hv => ?_,
    fun m hm w hw => hsub w (h.reached m hm w hw)⟩
  rcases mem_append.1 hv with hv | hv
  · exact h.later v hv
  · obtain ⟨hd, t, ht, hr⟩ := hnew v hv
    exact ⟨.edge (h.now u (.head _)) ht hr, fun m hm hl => hd (h.reached m hm v hl)⟩

section Bounded

variable (U : List α) (hU : ∀ u ∈ U, ∀ t ∈ edges u, ∃ v ∈ U, resolve t = .ok v)
include hU

omit [DecidableEq α] in
theorem Level.mem {s v : α} {n : Nat} (hs : s ∈ U) (h : Level edges resolve s n v) : v ∈ U := by
  induction h with
  | source => exact hs
  | edge _ ht hr ih =>
    obtain ⟨w, hw, hr'⟩ := hU _ ih _ ht
    cases hr.symm.trans hr'
    exact hw

theorem bfsEdges_mem {u : α} (hu : u ∈ U) : ∀ (ts : List α), (∀ t ∈ ts, t ∈ edges u) →
    ∀ {disc queue disc' queue' : List α}, (∀ v ∈ disc, v ∈ U) →
    bfsEdges resolve visit ts disc queue = .ok (disc', queue') → ∀ v ∈ disc', v ∈ U
  | [], _, disc, queue, disc', queue', hd, h => by
    cases h
    exact hd
  | t :: ts, ht, disc, queue, disc', queue', hd, h => by
    obtain ⟨v, hv, hr⟩ := hU u hu t (ht t (.head _))
    have hts : ∀ t ∈ ts, t ∈ edges u := (forall_mem_cons.1 ht).2
    rw [bfsEdges, hr, ok_bind] at h
    by_cases hm : v ∈ disc
    · rw [if_pos hm] at h
      exact bfsEdges_mem hu ts hts hd h
    · rw [if_neg hm] at h
      obtain ⟨⟨⟩, -, h⟩ := bind_eq_ok.1 h
      refine bfsEdges_mem hu ts hts (fun w hw => ?_) h
      rcases mem_cons.1 hw with rfl | hw
      · exact hv
      · exact hd w hw

/-- **The visit that ends the loop** is on a level whose predecessors have all been visited. -/
theorem bfsLoop_error {s : α} {exhausted e : ε} : ∀ (fuel : Nat) {n : Nat}
    {disc queue now later : List α}, BfsInv edges resolve visit disc queue →
    now ++ later = queue → Layered edges resolve s n disc now later → (∀ v ∈ disc, v ∈ U) →
    queue.length + U.length ≤ fuel + disc.length →
    bfsLoop edges resolve visit exhausted fuel disc queue = .error e →
    ∃ n v, Level edges resolve s n v ∧ visit v = .error e ∧
      ∀ m < n, ∀ w, Level edges resolve s m w → visit w = .ok ()
  | _, _, disc, [], _, _, _, _, _, _, _, h => by
    rw [bfsLoop] at h
    cases h
  | 0, _, disc, u :: queue, _, _, hi, _, _, hd, hf, _ => by
    -- more vertices discovered than there are
    have hle := (subperm_of_subset hi.nodup hd).length_le
    rw [length_cons] at hf
    omega
  | fuel + 1, _, disc, u :: queue, _, _, hi, hq, hl, hd, hf, h => by
    have hu : u ∈ U := hd u (hi.queued u (.head _))
    obtain ⟨n, now, later, rfl, hl⟩ := hl.front hq hi
    rw [bfsLoop] at h
    cases hs : bfsEdges resolve visit (edges u) disc (now ++ later) with
    | error e' =>
      rw [hs, error_bind] at h
      cases h
      obtain ⟨t, ht, v, hr, hv⟩ := bfsEdges_error (edges u)
        (fun t ht => (hU u hu t ht).imp fun _ => And.right) hs
      exact ⟨n + 1, v, .edge (hl.now u (.head _)) ht hr, hv, fun m hm w hw =>
        hi.visited w (hl.reached m (by omega) w hw)⟩
    | ok d =>
      rw [hs, ok_bind] at h
      obtain ⟨hi', hlen, hsub⟩ := hi.step hs
      obtain ⟨later', hq', hl'⟩ := hl.step hs hsub
      refine bfsLoop_error fuel hi' hq' hl'
        (bfsEdges_mem U hU hu (edges u) (fun _ => id) hd hs) ?_ h
      rw [length_cons] at hf
      omega

/-- **Only a visit ends the search early**, if the edges stay within `U` and there are as many
    pops as vertices; all levels above that vertex have been visited before. -/
theorem bfs_error_level {exhausted e : ε} {fuel : Nat} {s : α} (hs : s ∈ U)
    (hf : U.length ≤ fuel) (h : bfs edges resolve visit exhausted fuel s = .error e) :
    ∃ n v, v ∈ U ∧ Level edges resolve s n v ∧ visit v = .error e ∧
      ∀ m < n, ∀ w, Level edges resolve s m w → visit w = .ok () := by
  rw [bfs] at h
  cases hv : visit s with
  | error e' =>
    rw [hv, error_bind] at h
    cases h
    exact ⟨0, s, hs, .source, hv, fun m hm => absurd hm (Nat.not_lt_zero m)⟩
  | ok _ =>
    rw [hv, ok_bind] at h
    obtain ⟨n, v, hl, he⟩ := bfsLoop_error U hU fuel (.start hv) (append_nil [s])
      (.start s) (fun v hm => by rw [mem_singleton.1 hm]; exact hs)
      (by rw [length_singleton]; omega) h
    exact ⟨n, v, hl.mem U hU hs, hl, he⟩

end Bounded

end Search

end Crete.Lib
