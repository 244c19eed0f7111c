/-
  File:      Crete/Lib/Ledger.lean
  Subject:   Books of a party that opens one item at a time and closes it later.

  The party acts in steps, each with a list of entries. What an entry does to the open item is given
  by a function, undefined for an entry that must not be made where the books stand.

  * `Settles` -- again and again no item is open; up to then every entry was allowed.
  * **`settles_of_progress`** -- the rule: an invariant between the party and its books, and a rank
    that comes down while an item is open.
-/
import Crete.Lib.Temporal
import Mathlib.Data.List.Basic

namespace Crete.Lib

variable {κ α τ : Type}

/-- The entries of the first `m` steps. -/
def journal (entries : Nat → List α) : Nat → List α
  | 0 => []
  | m + 1 => journal entries m ++ entries m

/-- Again and again no item is open. -/
def Settles (account : Option τ → α → Option (Option τ)) (entries : Nat → List α) : Prop :=
  InfinitelyOften fun m => (journal entries m).foldlM account none = some none

variable {account : Option τ → α → Option (Option τ)} {entries : Nat → List α} {party : Nat → κ}
  {Holds : κ → Option τ → Prop}

/-- After an entry that was not allowed no item is ever settled. -/
theorem not_settles {k : Nat} (h : (journal entries k).foldlM account none = none) :
    ¬Settles account entries := by
  intro hsettles
  obtain ⟨m, hm, hsettled⟩ := hsettles k
  have hnone : (journal entries m).foldlM account none = none := by
    refine persists (p := fun m => (journal entries m).foldlM account none = none)
      (fun j _ hj => ?_) h m hm
    rw [journal, List.foldlM_append, hj]
    rfl
  cases hnone.symm.trans hsettled

/-- The invariant holds of the party and its books all along. -/
theorem exists_journal (start : Holds (party 0) none) (step : ∀ k o, Holds (party k) o →
      ∃ o', (entries k).foldlM account o = some o' ∧ Holds (party (k + 1)) o') (m : Nat) :
    ∃ o, (journal entries m).foldlM account none = some o ∧ Holds (party m) o := by
  induction m with
  | zero => exact ⟨none, rfl, start⟩
  | succ m ih =>
    obtain ⟨o, ho, hh⟩ := ih
    obtain ⟨o', ho', hh'⟩ := step m o hh
    refine ⟨o', ?_, hh'⟩
    rw [journal, List.foldlM_append, ho]
    exact ho'

/-- **The rule**: while an item is open a step leaves the party as it is or lowers its rank, and a
    party that stays as it is for ever has no open item. -/
theorem settles_of_progress (rank : κ → Nat) (start : Holds (party 0) none)
    (step : ∀ k o, Holds (party k) o →
      ∃ o', (entries k).foldlM account o = some o' ∧ Holds (party (k + 1)) o' ∧
        (o.isSome → o'.isSome → party (k + 1) = party k ∨ rank (party (k + 1)) < rank (party k)))
    (stuck : ∀ n o, (∀ m, n ≤ m → party m = party n) → Holds (party n) o → o = none) :
    Settles account entries := by
  have hstep : ∀ k o, Holds (party k) o →
      ∃ o', (entries k).foldlM account o = some o' ∧ Holds (party (k + 1)) o' := by
    intro k o h
    obtain ⟨o', ho', hh', -⟩ := step k o h
    exact ⟨o', ho', hh'⟩
  have books := exists_journal start hstep
  intro n
  -- suppose that from `n` on some item is open; then the rank would come down for ever
  by_contra hnone
  have hopen : ∀ k, n ≤ k → ∃ o, (journal entries k).foldlM account none = some o ∧
      Holds (party k) o ∧ o.isSome := by
    intro k hk
    obtain ⟨o, ho, hh⟩ := books k
    refine ⟨o, ho, hh, ?_⟩
    cases o with
    | some t => rfl
    | none => exact absurd ⟨k, hk, ho⟩ hnone
  have hone : ∀ k, n ≤ k → party (k + 1) = party k ∨ rank (party (k + 1)) < rank (party k) := by
    intro k hk
    obtain ⟨o, ho, hh, hs⟩ := hopen k hk
    obtain ⟨o', ho', -, hr⟩ := step k o hh
    refine hr hs ?_
    obtain ⟨p, hp, -, hs'⟩ := hopen (k + 1) (Nat.le_succ_of_le hk)
    rw [journal, List.foldlM_append, ho] at hp
    cases ho'.symm.trans hp
    exact hs'
  have main : ∀ r k, n ≤ k → rank (party k) < r → False := by
    intro r
    induction r with
    | zero => exact fun k _ hr => absurd hr (Nat.not_lt_zero _)
    | succ r ih =>
      intro k hk hr
      obtain ⟨o, -, hh, hs⟩ := hopen k hk
      have hsame : ∀ m, k ≤ m → party m = party k := by
        refine persists (fun j hj hsame => ?_) rfl
        rcases hone j (Nat.le_trans hk hj) with h | h
        · exact h.trans hsame
        · rw [hsame] at h
          exact (ih (j + 1) (Nat.le_succ_of_le (Nat.le_trans hk hj)) (by omega)).elim
      rw [stuck k o hsame hh] at hs
      cases hs
  exact main _ n (Nat.le_refl n) (Nat.lt_succ_self _)

end Crete.Lib
