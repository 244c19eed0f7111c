/-
  File:      Crete/Lib/Temporal.lean
  Subject:   Runs without end: what persists in them, and what they come to.

  * **`eventually_of_rank`** -- a rank that no step raises, and that some step lowers again and
    again, comes down to zero; **`until_of_rank`** -- the same where every step lowers it.
-/
import Mathlib.Data.Nat.Basic

namespace Crete.Lib

variable {σ ι : Type}

/-- The states of a run. -/
def states (step : σ → ι → σ) (s : σ) (inputs : Nat → ι) : Nat → σ
  | 0 => s
  | n + 1 => step (states step s inputs n) (inputs n)

/-- Again and again. -/
def InfinitelyOften (p : Nat → Prop) : Prop := ∀ n, ∃ m, n ≤ m ∧ p m

theorem persists {p : Nat → Prop} {n : Nat} (step : ∀ k, n ≤ k → p k → p (k + 1)) (hn : p n) :
    ∀ m, n ≤ m → p m := by
  intro m hm
  induction m, hm using Nat.le_induction with
  | base => exact hn
  | succ m hm ih => exact step m hm ih

/-- **The rank rule.** -/
theorem eventually_of_rank (p : Nat → Prop) (rank : Nat → Nat) {helpful : Nat → Prop} {n : Nat}
    (stays : ∀ k, n ≤ k → p k → p (k + 1)) (often : InfinitelyOften helpful)
    (keeps : ∀ k, n ≤ k → p k → rank (k + 1) ≤ rank k)
    (lowers : ∀ k, n ≤ k → p k → helpful k → rank k ≠ 0 → rank (k + 1) < rank k) (hn : p n) :
    ∃ m, n ≤ m ∧ p m ∧ rank m = 0 := by
  -- by induction on the rank where we are
  have main : ∀ r k, n ≤ k → p k → rank k ≤ r → ∃ m, n ≤ m ∧ p m ∧ rank m = 0 := by
    intro r
    induction r with
    | zero => exact fun k hk hp hr => ⟨k, hk, hp, Nat.le_zero.1 hr⟩
    | succ r ih =>
      intro k hk hp hr
      obtain ⟨m, hm, hhelp⟩ := often k
      have hboth : p m ∧ rank m ≤ rank k := by
        have hstep : ∀ j, k ≤ j → p j ∧ rank j ≤ rank k → p (j + 1) ∧ rank (j + 1) ≤ rank k := by
          intro j hj hpj
          have hnj := Nat.le_trans hk hj
          exact ⟨stays j hnj hpj.1, Nat.le_trans (keeps j hnj hpj.1) hpj.2⟩
        exact persists hstep ⟨hp, le_rfl⟩ m hm
      have hnm := Nat.le_trans hk hm
      by_cases hz : rank m = 0
      · exact ⟨m, hnm, hboth.1, hz⟩
      · have hlt := lowers m hnm hboth.1 hhelp hz
        exact ih (m + 1) (Nat.le_succ_of_le hnm) (stays m hnm hboth.1) (by omega)
  exact main (rank n) n (Nat.le_refl n) hn le_rfl

/-- What holds until something happens, with a rank that comes down meanwhile: it happens. -/
theorem until_of_rank {p q : Nat → Prop} (rank : Nat → Nat)
    (step : ∀ k, p k → ¬q k → p (k + 1) ∧ rank (k + 1) < rank k) {n : Nat} (hn : p n) :
    ∃ m, n ≤ m ∧ p m ∧ q m := by
  have main : ∀ r k, p k → rank k ≤ r → ∃ m, k ≤ m ∧ p m ∧ q m := by
    intro r
    induction r with
    | zero =>
      intro k hk hr
      by_cases hq : q k
      · exact ⟨k, Nat.le_refl k, hk, hq⟩
      · have := (step k hk hq).2
        omega
    | succ r ih =>
      intro k hk hr
      by_cases hq : q k
      · exact ⟨k, Nat.le_refl k, hk, hq⟩
      · obtain ⟨hk', hlt⟩ := step k hk hq
        obtain ⟨m, hm, hboth⟩ := ih (k + 1) hk' (by omega)
        exact ⟨m, Nat.le_of_succ_le hm, hboth⟩
  exact main (rank n) n hn le_rfl

end Crete.Lib
