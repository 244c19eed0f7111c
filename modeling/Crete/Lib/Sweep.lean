/-
  File:      Crete/Lib/Sweep.lean
  Subject:   A loop over the members of a list, each changed in its turn together with a state they
             share.

  Every turn reads an input of its own; where the inputs run out there is a default.

  * `sweep` -- the loop; `seen` -- the shared state as a member finds it in its turn.
  * **`getElem?_sweep`** -- what becomes of one member.
-/
import Mathlib.Data.List.Basic

namespace Crete.Lib

open List

section Sweep

variable {ν κ ο : Type} (f : ν → κ → ο → ν × κ) (d : ο)

/-- The loop. -/
def sweep : ν → List κ → List ο → ν × List κ
  | n, [], _ => (n, [])
  | n, q :: qs, outs =>
    let r := f n q (outs.headD d)
    let rs := sweep r.1 qs outs.tail
    (rs.1, r.2 :: rs.2)

/-- The shared state in the turn of the member at position `i`. -/
def seen : ν → List κ → List ο → Nat → ν
  | n, [], _, _ => n
  | n, _ :: _, _, 0 => n
  | n, q :: qs, outs, i + 1 => seen (f n q (outs.headD d)).1 qs outs.tail i

theorem length_sweep (qs : List κ) : ∀ (n : ν) (outs : List ο),
    (sweep f d n qs outs).2.length = qs.length := by
  induction qs with
  | nil => exact fun _ _ => rfl
  | cons q qs ih => exact fun n outs => congrArg Nat.succ (ih _ _)

/-- **What becomes of one member.** -/
theorem getElem?_sweep (qs : List κ) : ∀ (n : ν) (outs : List ο) (i : Nat),
    (sweep f d n qs outs).2[i]? =
      qs[i]?.map fun q => (f (seen f d n qs outs i) q (outs.getD i d)).2 := by
  induction qs with
  | nil => exact fun _ _ _ => rfl
  | cons q qs ih =>
    intro n outs i
    have hhead : outs.headD d = outs.getD 0 d := by cases outs <;> rfl
    have htail : ∀ j, outs.tail.getD j d = outs.getD (j + 1) d := by
      cases outs <;> exact fun j => rfl
    cases i with
    | zero =>
      rw [sweep, seen, getElem?_cons_zero, getElem?_cons_zero, hhead]
      rfl
    | succ i =>
      rw [sweep, seen, getElem?_cons_succ, getElem?_cons_succ, ih, htail]

variable {f d}

/-- A member of the result was a member before its turn. -/
theorem mem_sweep {P : ν → Prop} (keeps : ∀ n q o, P n → P (f n q o).1) (qs : List κ) :
    ∀ {n : ν} (outs : List ο), P n → ∀ q' ∈ (sweep f d n qs outs).2,
      ∃ q ∈ qs, ∃ n' o, P n' ∧ q' = (f n' q o).2 := by
  induction qs with
  | nil => exact fun _ _ q' hq' => by cases hq'
  | cons q qs ih =>
    intro n outs h q' hq'
    rcases mem_cons.1 hq' with rfl | hq'
    · exact ⟨q, .head _, n, _, h, rfl⟩
    · obtain ⟨p, hp, n', o, hn', rfl⟩ := ih outs.tail (keeps n q _ h) q' hq'
      exact ⟨p, mem_cons_of_mem _ hp, n', o, hn', rfl⟩

/-- A member before its turn becomes a member of the result. -/
theorem exists_mem_sweep {P : ν → Prop} (keeps : ∀ n q o, P n → P (f n q o).1) (qs : List κ) :
    ∀ {n : ν} (outs : List ο), P n → ∀ q ∈ qs,
      ∃ n' o, P n' ∧ (f n' q o).2 ∈ (sweep f d n qs outs).2 := by
  induction qs with
  | nil => exact fun _ _ q hq => by cases hq
  | cons p qs ih =>
    intro n outs h q hq
    rcases mem_cons.1 hq with rfl | hq
    · exact ⟨n, _, h, .head _⟩
    · obtain ⟨n', o, hn', hm⟩ := ih outs.tail (keeps n p _ h) q hq
      exact ⟨n', o, hn', mem_cons_of_mem _ hm⟩

end Sweep

section Tally

variable {κ ο : Type}

/-- What the turns cost together. -/
def tally (cost : κ → ο → Nat) (d : ο) : List κ → List ο → Nat
  | [], _ => 0
  | q :: qs, outs => cost q (outs.headD d) + tally cost d qs outs.tail

theorem tally_eq_zero_iff {cost : κ → ο → Nat} {d : ο} (qs : List κ) : ∀ {outs : List ο},
    tally cost d qs outs = 0 ↔ ∀ i q, qs[i]? = some q → cost q (outs.getD i d) = 0 := by
  induction qs with
  | nil => exact fun {outs} => ⟨fun _ i q hq => absurd hq (by simp), fun _ => rfl⟩
  | cons p qs ih =>
    intro outs
    have hhead : outs.headD d = outs.getD 0 d := by cases outs <;> rfl
    have htail : ∀ j, outs.tail.getD j d = outs.getD (j + 1) d := by
      cases outs <;> exact fun j => rfl
    rw [tally, Nat.add_eq_zero_iff, ih, hhead]
    constructor
    · intro ⟨hzero, hrest⟩ i q hq
      cases i with
      | zero =>
        cases hq
        exact hzero
      | succ i =>
        rw [← htail]
        exact hrest i q hq
    · intro h
      refine ⟨h 0 p rfl, fun i q hq => ?_⟩
      rw [htail]
      exact h (i + 1) q hq

end Tally

end Crete.Lib
