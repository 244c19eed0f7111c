/-
  File:      Crete/Traces/Scored.lean
  Subject:   Selection by score over whole runs: the selectors whose score depends on the blocks
             of a trace alone (WeightGroupSelector and LeastTreadedSelector).

  * `BlockRule.score` -- what the two scores are, in terms of how often blocks occur.
  * **`calculateWeightGroupScore_eq`**, **`calculateLeastTreadedScore_eq`** -- the loops compute
    them.
  * `Picks` -- what a sequence of calls may answer: `next` takes any pending trace of least score,
    and none if none is pending.
  * **`scored_selection`** -- the selectors answer so, whatever is drawn at random.
-/
import Crete.Traces.Selector
import Mathlib.Algebra.BigOperators.Group.Finset.Basic
import Mathlib.Data.List.ReduceOption

namespace Crete.Traces

open Crete.Lib List

variable {S : Type}

/-! ## 1. The table of frequencies -/

/-- The table of what has been seen: every block once, with its number of occurrences. -/
structure Tally (ws : List (Block × Nat)) (seen : List Block) : Prop where
  keys : (ws.map Prod.fst).Nodup
  mem : ∀ c n, (c, n) ∈ ws ↔ c ∈ seen ∧ n = seen.count c

/-- What is in the table after one more block. -/
theorem mem_addBlock {b c : Block} {n : Nat} : ∀ {ws : List (Block × Nat)},
    (ws.map Prod.fst).Nodup →
    ((c, n) ∈ addBlock ws b ↔ c ≠ b ∧ (c, n) ∈ ws ∨
      c = b ∧ ((∃ m, (b, m) ∈ ws ∧ n = m + 1) ∨ b ∉ ws.map Prod.fst ∧ n = 1))
  | [], _ => by
    rw [addBlock, mem_singleton, Prod.mk.injEq]
    simp
  | (d, m) :: ws, h => by
    obtain ⟨hd, hws⟩ := nodup_cons.1 h
    rw [addBlock]
    by_cases e : d = b
    · subst e
      have hother : ∀ k, (d, k) ∉ ws := fun k hk => hd (mem_map.2 ⟨(d, k), hk, rfl⟩)
      rw [if_pos rfl, mem_cons, Prod.mk.injEq]
      by_cases hc : c = d
      · subst hc
        simp [hother]
      · simp [hc]
    · rw [if_neg e, mem_cons, mem_addBlock hws, mem_cons, map_cons, mem_cons]
      by_cases hc : c = b
      · subst hc
        simp [Ne.symm e]
      · simp [hc]

theorem keys_addBlock (b : Block) : ∀ ws : List (Block × Nat), (addBlock ws b).map Prod.fst =
      if b ∈ ws.map Prod.fst then ws.map Prod.fst else ws.map Prod.fst ++ [b]
  | [] => by simp [addBlock]
  | (d, m) :: ws => by
    rw [addBlock]
    by_cases e : d = b
    · simp [e]
    · rw [if_neg e, map_cons, keys_addBlock b ws, map_cons]
      by_cases hb : b ∈ ws.map Prod.fst
      · rw [if_pos hb, if_pos (.tail _ hb)]
      · rw [if_neg hb, if_neg fun hm => ?_, cons_append]
        rcases mem_cons.1 hm with e' | hm
        · exact e e'.symm
        · exact hb hm

/-- One more block. -/
theorem Tally.step {ws : List (Block × Nat)} {seen : List Block} (h : Tally ws seen) (b : Block) :
    Tally (addBlock ws b) (seen ++ [b]) where
  keys := by
    rw [keys_addBlock]
    split
    · exact h.keys
    · rename_i hb
      exact nodup_append.2 ⟨h.keys, nodup_singleton b, fun x hx y hy e => hb (by
        rw [mem_singleton.1 hy] at e
        rw [← e]
        exact hx)⟩
  mem c n := by
    have hkey : b ∈ ws.map Prod.fst ↔ b ∈ seen := by
      constructor
      · intro hb
        obtain ⟨p, hp, rfl⟩ := mem_map.1 hb
        exact ((h.mem p.1 p.2).1 hp).1
      · intro hb
        exact mem_map.2 ⟨(b, seen.count b), (h.mem b _).2 ⟨hb, rfl⟩, rfl⟩
    rw [mem_addBlock h.keys, h.mem, hkey, count_append, mem_append, mem_singleton]
    by_cases hc : c = b
    · subst hc
      rw [count_singleton_self]
      by_cases hs : c ∈ seen
      · simp [h.mem, hs]
      · simp [h.mem, hs, count_eq_zero_of_not_mem hs]
    · have hzero : List.count c [b] = 0 :=
        count_eq_zero_of_not_mem fun hm => hc (mem_singleton.1 hm)
      simp [hc, hzero]

/-- **The table of a trace.** -/
theorem weighBlocksByFrequency_tally (blocks : List Block) :
    Tally (weighBlocksByFrequency blocks) blocks := by
  induction blocks using reverseRecOn with
  | nil => exact ⟨nodup_nil, fun c n => by simp [weighBlocksByFrequency]⟩
  | append_singleton blocks b ih =>
    rw [weighBlocksByFrequency, foldl_append]
    exact ih.step b

/-- The table, in the order of the first occurrences from the end. -/
theorem weighBlocksByFrequency_perm (blocks : List Block) :
    (weighBlocksByFrequency blocks).Perm (blocks.dedup.map fun b => (b, blocks.count b)) := by
  have ht := weighBlocksByFrequency_tally blocks
  refine (perm_ext_iff_of_nodup (Nodup.of_map _ ht.keys)
    (blocks.nodup_dedup.map fun a b e => (Prod.mk.inj e).1)).2 fun p => ?_
  obtain ⟨c, n⟩ := p
  rw [ht.mem, mem_map]
  constructor
  · intro ⟨hc, hn⟩
    exact ⟨c, mem_dedup.2 hc, by rw [hn]⟩
  · intro ⟨b, hb, e⟩
    obtain ⟨rfl, rfl⟩ := Prod.mk.inj e
    exact ⟨mem_dedup.1 hb, rfl⟩

/-- Looking up a block of the trace gives its number of occurrences. -/
theorem lookup_weighBlocks {blocks : List Block} {b : Block} (h : b ∈ blocks) :
    (weighBlocksByFrequency blocks).lookup b = some (blocks.count b) := by
  have ht := weighBlocksByFrequency_tally blocks
  have hm := (ht.mem b (blocks.count b)).2 ⟨h, rfl⟩
  obtain ⟨l₁, l₂, e⟩ := append_of_mem hm
  have hn := ht.keys
  rw [e, map_append, map_cons, nodup_append] at hn
  refine lookup_eq_some_iff.2 ⟨l₁, l₂, e, fun p hp => bne_iff_ne.2 fun e' => ?_⟩
  exact hn.2.2 p.1 (mem_map_of_mem hp) b (.head _) e'.symm

/-! ## 2. The scores -/

/-- **The weight-group score**: the positions whose block occurs at least twice. -/
theorem calculateWeightGroupScore_eq (sc : Scoring S) (blocks : List Block) :
    calculateWeightGroupScore sc blocks =
      sc.ofCount (blocks.countP fun b => 2 ≤ blocks.count b) := by
  have hsum : (((weighBlocksByFrequency blocks).filter fun w => ¬ w.2 < 2).map Prod.snd).sum =
      blocks.countP fun b => 2 ≤ blocks.count b := by
    rw [(((weighBlocksByFrequency_perm blocks).filter _).map _).sum_eq, filter_map,
      map_map, ← sum_map_count_dedup_filter_eq_countP]
    congr 2
    exact filter_congr fun b _ => decide_eq_decide.2 Nat.not_lt
  rw [calculateWeightGroupScore, hsum]

/-- **The least-treaded score**: the squares of the numbers of occurrences, by the length. -/
theorem calculateLeastTreadedScore_eq (sc : Scoring S) {blocks : List Block} (h : blocks ≠ []) :
    calculateLeastTreadedScore sc blocks =
      .ok (sc.quotient (∑ b ∈ blocks.toFinset, blocks.count b ^ 2) blocks.length) := by
  have hsum : (blocks.map fun b => ((weighBlocksByFrequency blocks).lookup b).getD 0).sum =
      ∑ b ∈ blocks.toFinset, blocks.count b ^ 2 := by
    have hcount : (blocks.map fun b => ((weighBlocksByFrequency blocks).lookup b).getD 0) =
        blocks.map fun b => blocks.count b := by
      refine map_congr_left fun b hb => ?_
      rw [lookup_weighBlocks hb]
      rfl
    rw [hcount, Finset.sum_list_map_count]
    exact Finset.sum_congr rfl fun b _ => (sq (blocks.count b)).symm
  rw [calculateLeastTreadedScore, ensure_bind, if_pos (length_pos_of_ne_nil h), hsum]
  rfl

/-- The rules that score a trace by its blocks. -/
inductive BlockRule where
  | weightGroup
  | leastTreaded
  deriving DecidableEq, Repr

namespace BlockRule

def rule : BlockRule → ScoreRule
  | .weightGroup => .weightGroup
  | .leastTreaded => .leastTreaded

/-- The score of a trace. -/
def score (sc : Scoring S) (blocks : List Block) : BlockRule → S
  | .weightGroup => sc.ofCount (blocks.countP fun b => 2 ≤ blocks.count b)
  | .leastTreaded => sc.quotient (∑ b ∈ blocks.toFinset, blocks.count b ^ 2) blocks.length

theorem calculateScore_eq (k : BlockRule) (sc : Scoring S) (random : S) {blocks : List Block}
    (h : blocks ≠ []) : calculateScore sc random blocks k.rule = .ok (k.score sc blocks) := by
  cases k with
  | weightGroup => exact congrArg Except.ok (calculateWeightGroupScore_eq sc blocks)
  | leastTreaded => exact calculateLeastTreadedScore_eq sc h

end BlockRule

/-! ## 3. The calls -/

/-- A call of a selector; `random` is the score a random selector would draw, `n` the random
    number. -/
inductive SelectorCall (S : Type) where
  | submit (t : Trace) (random : S)
  | next (n : Nat)

/-- The traces submitted. -/
def submittedTraces (cs : List (SelectorCall S)) : List Trace :=
  cs.filterMap fun
    | .submit t _ => some t
    | .next _ => none

section Run

variable [LinearOrder S] (sc : Scoring S) (rule : ScoreRule)

/-- A sequence of calls: what the calls of `next` return, and `trace_scores_` at the end. -/
def runScored : List (Trace × S) → List (SelectorCall S) →
    Except Stop (List (Option Trace) × List (Trace × S))
  | scores, [] => .ok ([], scores)
  | scores, .submit t random :: cs => do
      let scores ← submitScored sc rule random scores t
      runScored scores cs
  | scores, .next n :: cs => do
      let r ← nextScored scores n
      let rs ← runScored r.2 cs
      return (r.1 :: rs.1, rs.2)

variable (score : Trace → S)

/-- **What the calls may answer**, from some pending traces to others: `next` takes a pending
    trace of least score, or returns none when none is pending. -/
inductive Picks : List Trace → List (SelectorCall S) → List (Option Trace) → List Trace → Prop
  | done (pending : List Trace) : Picks pending [] [] pending
  | submit {pending left : List Trace} {t : Trace} {random : S} {cs : List (SelectorCall S)}
      {rs : List (Option Trace)} : Picks (pending ++ [t]) cs rs left →
      Picks pending (.submit t random :: cs) rs left
  | empty {left : List Trace} {n : Nat} {cs : List (SelectorCall S)} {rs : List (Option Trace)} :
      Picks [] cs rs left → Picks [] (.next n :: cs) (none :: rs) left
  | take {pending rest left : List Trace} {t : Trace} {n : Nat} {cs : List (SelectorCall S)}
      {rs : List (Option Trace)} : pending.Perm (t :: rest) → (∀ u ∈ pending, score t ≤ score u) →
      Picks rest cs rs left → Picks pending (.next n :: cs) (some t :: rs) left

variable {score}

/-- Every trace is returned once or still pending. -/
theorem Picks.conserves {pending left : List Trace} {cs : List (SelectorCall S)}
    {rs : List (Option Trace)} (h : Picks score pending cs rs left) :
    (rs.reduceOption ++ left).Perm (pending ++ submittedTraces cs) := by
  induction h with
  | done pending =>
    show pending.Perm (pending ++ [])
    rw [append_nil]
  | @submit pending left t random cs rs _ ih =>
    rw [append_assoc] at ih
    exact ih
  | empty _ ih => exact ih
  | @take pending rest left t n cs rs hp _ _ ih =>
    rw [reduceOption_cons_of_some, cons_append]
    exact (ih.cons t).trans (hp.symm.append_right _)

/-- As many calls of `next` as traces are pending return them all. -/
theorem Picks.drains {pending left : List Trace} {cs : List (SelectorCall S)}
    {rs : List (Option Trace)} (h : Picks score pending cs rs left)
    (hnext : submittedTraces cs = []) (hlen : pending.length ≤ cs.length) : left = [] := by
  induction h with
  | done pending => exact length_eq_zero_iff.1 (Nat.le_zero.1 hlen)
  | submit _ _ => cases hnext
  | empty _ ih => exact ih hnext (Nat.zero_le _)
  | take hp _ _ ih =>
    refine ih hnext ?_
    have := hp.length_eq
    rw [length_cons] at this hlen
    omega

/-! ## 4. The selectors answer so -/

/-- `trace_scores_` keeps every pending trace with its score. -/
structure Keeps (sc : Scoring S) (k : BlockRule) (scores : List (Trace × S)) : Prop where
  ids : (scores.map (·.1.id)).Nodup
  scored : ∀ p ∈ scores, p.2 = k.score sc p.1.blocks

variable {sc} {k : BlockRule} {scores : List (Trace × S)}

omit [LinearOrder S] in
theorem Keeps.submit (h : Keeps sc k scores) {t : Trace} (random : S) (hne : t.blocks ≠ [])
    (hnew : t.id ∉ scores.map (·.1.id)) :
    submitScored sc k.rule random scores t = .ok (scores ++ [(t, k.score sc t.blocks)]) ∧
      Keeps sc k (scores ++ [(t, k.score sc t.blocks)]) := by
  have hfresh : ∀ p ∈ scores, p.1.id ≠ t.id := fun p hp e => hnew (mem_map.2 ⟨p, hp, e⟩)
  refine ⟨?_, ?_, fun p hp => ?_⟩
  · rw [submitScored, k.calculateScore_eq sc random hne, ok_bind, ensure_bind, if_pos hfresh]
    rfl
  · rw [map_append]
    refine nodup_append.2 ⟨h.ids, nodup_singleton _, fun i hi j hj => ?_⟩
    rw [map_singleton, mem_singleton] at hj
    obtain ⟨p, hp, rfl⟩ := mem_map.1 hi
    rw [hj]
    exact hfresh p hp
  · rcases mem_append.1 hp with hp | hp
    · exact h.scored p hp
    · rw [mem_singleton.1 hp]

/-- `next` with something pending. -/
theorem Keeps.next (h : Keeps sc k scores) (hne : scores ≠ []) (n : Nat) :
    ∃ p scores', nextScored scores n = .ok (some p.1, scores') ∧ Keeps sc k scores' ∧
      scores.Perm (p :: scores') ∧
      ∀ q ∈ scores, k.score sc p.1.blocks ≤ k.score sc q.1.blocks := by
  obtain ⟨p, hp, hle, hn⟩ := nextScored_pick hne n
  obtain ⟨q, hq, e, hperm⟩ := perm_eraseP_id hp
  obtain rfl : q = p := inj_on_of_nodup_map h.ids hq hp e
  refine ⟨q, _, hn, ⟨?_, fun p' hp' => ?_⟩, hperm, fun p' hp' => ?_⟩
  · exact (nodup_cons.1 (((hperm.map fun p => p.1.id).nodup_iff).1 h.ids)).2
  · exact h.scored p' (mem_of_mem_eraseP hp')
  · rw [← h.scored q hq, ← h.scored p' hp']
    exact hle p' hp'

/-- All calls, from any state. -/
theorem Keeps.run (cs : List (SelectorCall S)) : ∀ {scores : List (Trace × S)},
    Keeps sc k scores → ((scores.map Prod.fst ++ submittedTraces cs).map Trace.id).Nodup →
    (∀ t ∈ submittedTraces cs, t.blocks ≠ []) →
    ∃ rs scores', runScored sc k.rule scores cs = .ok (rs, scores') ∧
      Picks (fun t => k.score sc t.blocks) (scores.map Prod.fst) cs rs (scores'.map Prod.fst) ∧
      Keeps sc k scores' := by
  induction cs with
  | nil => exact fun h _ _ => ⟨[], _, rfl, .done _, h⟩
  | cons c cs ih =>
    intro scores h hids hne
    cases c with
    | submit t random =>
      have hsplit : scores.map Prod.fst ++ submittedTraces (.submit t random :: cs) =
          (scores ++ [(t, k.score sc t.blocks)]).map Prod.fst ++ submittedTraces cs := by
        rw [map_append, append_assoc]
        rfl
      rw [hsplit] at hids
      have hnew : t.id ∉ scores.map (·.1.id) := by
        rw [map_append, map_append, map_append, map_map] at hids
        intro hm
        exact (nodup_append.1 (nodup_append.1 hids).1).2.2 t.id hm t.id (mem_singleton_self _) rfl
      obtain ⟨hs, h'⟩ := h.submit random (hne t (.head _)) hnew
      obtain ⟨rs, scores', hrun, hp, hk⟩ :=
        ih h' hids (forall_mem_cons.1 hne).2
      refine ⟨rs, scores', by rw [runScored, hs]; exact hrun, .submit ?_, hk⟩
      rw [map_append] at hp
      exact hp
    | next n =>
      by_cases hnil : scores = []
      · subst hnil
        obtain ⟨rs, scores', hrun, hp, hk⟩ := ih h hids hne
        refine ⟨none :: rs, scores', ?_, .empty hp, hk⟩
        rw [runScored, show nextScored ([] : List (Trace × S)) n = .ok (none, []) from rfl,
          ok_bind, hrun]
        rfl
      · obtain ⟨p, scores₁, hn, h', hperm, hle⟩ := h.next hnil n
        have hfst := hperm.map Prod.fst
        obtain ⟨rs, scores', hrun, hp, hk⟩ := ih h' (by
          have hall := ((hfst.append_right (submittedTraces cs)).map Trace.id).nodup_iff.1 hids
          exact (nodup_cons.1 hall).2) hne
        refine ⟨some p.1 :: rs, scores', ?_, .take hfst (fun u hu => ?_) hp, hk⟩
        · rw [runScored, hn, ok_bind, hrun]
          rfl
        · obtain ⟨q, hq, rfl⟩ := mem_map.1 hu
          exact hle q hq

/-- **Scored selection**: for all traces with blocks and distinct ids, and all random choices, no
    call fails; `next` returns a pending trace of least score, and none exactly if none is
    pending; every trace is returned once or still pending, and calling `next` as often as there
    are pending traces returns them all. -/
theorem scored_selection (sc : Scoring S) (k : BlockRule) (cs : List (SelectorCall S))
    (hids : ((submittedTraces cs).map Trace.id).Nodup)
    (hne : ∀ t ∈ submittedTraces cs, t.blocks ≠ []) :
    ∃ rs scores, runScored sc k.rule [] cs = .ok (rs, scores) ∧
      Picks (fun t => k.score sc t.blocks) [] cs rs (scores.map Prod.fst) ∧
      (rs.reduceOption ++ scores.map Prod.fst).Perm (submittedTraces cs) ∧
      ∀ ns : List Nat, scores.length ≤ ns.length → ∃ rs',
        runScored sc k.rule scores (ns.map .next) = .ok (rs', []) ∧
          ((rs ++ rs').reduceOption).Perm (submittedTraces cs) := by
  have hstart : Keeps sc k [] := ⟨nodup_nil, forall_mem_nil _⟩
  obtain ⟨rs, scores, hrun, hp, hk⟩ := hstart.run cs hids hne
  have hcons : (rs.reduceOption ++ scores.map Prod.fst).Perm (submittedTraces cs) := hp.conserves
  refine ⟨rs, scores, hrun, hp, hcons, fun ns hlen => ?_⟩
  have hnext : submittedTraces (ns.map (SelectorCall.next : Nat → SelectorCall S)) = [] := by
    rw [submittedTraces, filterMap_map]
    exact filterMap_eq_nil_iff.2 fun n _ => rfl
  obtain ⟨rs', scores', hrun', hp', -⟩ := hk.run (ns.map .next)
    (by rw [hnext, append_nil, map_map]; exact hk.ids)
    (by rw [hnext]; exact forall_mem_nil _)
  have hnil : scores' = [] := map_eq_nil_iff.1
    (hp'.drains hnext (by rw [length_map, length_map]; exact hlen))
  subst hnil
  refine ⟨rs', hrun', ?_⟩
  have hrest := hp'.conserves
  rw [hnext, append_nil, map_nil, append_nil] at hrest
  rw [reduceOption_append]
  exact (hrest.append_left _).trans hcons

end Run

/-- Three traces; the second is shorter than the others and the first repeats a block. -/
theorem scored_selection_three :
    ∃ rs scores, runScored (⟨id, (· / ·)⟩ : Scoring Nat) BlockRule.leastTreaded.rule []
        [.submit ⟨[1], [5, 5, 6]⟩ 0, .submit ⟨[2], [5, 7]⟩ 0, .next 3, .submit ⟨[3], [5, 8, 9]⟩ 0,
          .next 0] = .ok (rs, scores) ∧
      Picks (fun t => BlockRule.leastTreaded.score ⟨id, (· / ·)⟩ t.blocks) []
        [.submit ⟨[1], [5, 5, 6]⟩ 0, .submit ⟨[2], [5, 7]⟩ 0, .next 3, .submit ⟨[3], [5, 8, 9]⟩ 0,
          .next 0] rs (scores.map Prod.fst) := by
  obtain ⟨rs, scores, hrun, hp, -⟩ := scored_selection (⟨id, (· / ·)⟩ : Scoring Nat) .leastTreaded
    [.submit ⟨[1], [5, 5, 6]⟩ 0, .submit ⟨[2], [5, 7]⟩ 0, .next 3, .submit ⟨[3], [5, 8, 9]⟩ 0,
      .next 0] (by decide) (by decide)
  exact ⟨rs, scores, hrun, hp⟩

end Crete.Traces
