/-
  File:      Crete/Lib/Machine.lean
  Subject:   Machines that read inputs and write labels, and what holds of all their runs.

  * `Run` -- the states a machine reaches, with what it has written; a condition restricts the
    inputs it may be given.
  * **`Run.invariant`** -- a property of state and history that every step keeps.
  * `since` -- the labels after the last one of a kind; `Preceded` -- one label before another.
-/
import Mathlib.Data.List.Infix

namespace Crete.Lib

open List

section Machine

variable {σ ι ℓ : Type}

/-- `Run step ok s ls t`: from `s` the machine reaches `t` and writes `ls`; every input met the
    condition `ok` in the state it was read in. -/
inductive Run (step : σ → ι → Option (σ × List ℓ)) (ok : σ → ι → Prop) (s : σ) :
    List ℓ → σ → Prop where
  | start : Run step ok s [] s
  | next {ls new : List ℓ} {t t' : σ} {i : ι} (before : Run step ok s ls t) (meets : ok t i)
      (moves : step t i = some (t', new)) : Run step ok s (ls ++ new) t'

variable {step : σ → ι → Option (σ × List ℓ)} {ok : σ → ι → Prop} {s t : σ} {ls : List ℓ}

/-- **The invariant rule.** -/
theorem Run.invariant {P : List ℓ → σ → Prop} (start : P [] s)
    (keeps : ∀ ls t i new t', P ls t → ok t i → step t i = some (t', new) → P (ls ++ new) t')
    (h : Run step ok s ls t) : P ls t := by
  induction h with
  | start => exact start
  | next _ meets moves ih => exact keeps _ _ _ _ _ ih meets moves

/-- One run after another. -/
theorem Run.trans {ls' : List ℓ} {u : σ} (h : Run step ok s ls t) (h' : Run step ok t ls' u) :
    Run step ok s (ls ++ ls') u := by
  induction h' with
  | start => rw [append_nil]; exact h
  | next _ meets moves ih => rw [← append_assoc]; exact .next ih meets moves

/-- A run, computed; the condition is checked at every input. -/
def runGuarded (step : σ → ι → Option (σ × List ℓ)) (ok : σ → ι → Prop)
    [∀ t i, Decidable (ok t i)] : σ → List ι → Option (σ × List ℓ)
  | s, [] => some (s, [])
  | s, i :: is =>
    if ok s i then
      match step s i with
      | none => none
      | some r => (runGuarded step ok r.1 is).map fun q => (q.1, r.2 ++ q.2)
    else none

/-- What is computed is a run. -/
theorem Run.of_guarded [∀ t i, Decidable (ok t i)] : ∀ {is : List ι} {s : σ} {ls : List ℓ},
    runGuarded step ok s is = some (t, ls) → Run step ok s ls t := by
  intro is
  induction is with
  | nil =>
    intro s ls h
    cases h
    exact .start
  | cons i is ih =>
    intro s ls h
    simp only [runGuarded] at h
    split at h
    · rename_i hok
      split at h
      · cases h
      · rename_i r hstep
        obtain ⟨q, hq, he⟩ := Option.map_eq_some_iff.1 h
        cases he
        have one : Run step ok s ([] ++ r.2) r.1 := .next .start hok hstep
        exact one.trans (ih hq)
    · cases h

/-- The run that a computation ends with. -/
theorem Run.of_isSome [∀ t i, Decidable (ok t i)] {is : List ι}
    (h : (runGuarded step ok s is).isSome = true) :
    Run step ok s ((runGuarded step ok s is).get h).2 ((runGuarded step ok s is).get h).1 :=
  Run.of_guarded (Option.some_get h).symm

end Machine

/-! ## Since the last label of a kind -/

section Since

variable {ℓ : Type} (p : ℓ → Bool)

/-- The labels after the last one that `p` holds of; all of them if there is none. -/
def since : List ℓ → List ℓ
  | [] => []
  | l :: ls => if ls.any p then since ls else if p l then ls else l :: ls

theorem since_of_none {ls : List ℓ} (h : ls.any p = false) : since p ls = ls := by
  cases ls with
  | nil => rfl
  | cons l ls =>
    simp only [any_cons, Bool.or_eq_false_iff] at h
    simp [since, h]

/-- Labels of other kinds are added at the end. -/
theorem since_append_of_none {new : List ℓ} (h : new.any p = false) (ls : List ℓ) :
    since p (ls ++ new) = since p ls ++ new := by
  induction ls with
  | nil => exact since_of_none p h
  | cons l ls ih =>
    simp only [cons_append, since, any_append, h, Bool.or_false, ih]
    split
    · rfl
    · split <;> rfl

/-- A label of the kind starts anew. -/
theorem since_append_last {l : ℓ} (hl : p l = true) (ls : List ℓ) : since p (ls ++ [l]) = [] := by
  induction ls with
  | nil => simp [since, hl]
  | cons a ls ih => simp [since, ih, hl]

/-- The invariant rule for histories that start anew at the labels of a kind. -/
theorem Run.since_invariant {σ ι : Type} {step : σ → ι → Option (σ × List ℓ)}
    {ok : σ → ι → Prop} {s t : σ} {ls : List ℓ} {P : List ℓ → σ → Prop} (start : P [] s)
    (keeps : ∀ ls t i new t', P ls t → ok t i → step t i = some (t', new) → new.any p = false →
      P (ls ++ new) t')
    (anew : ∀ ls t i new t', P ls t → ok t i → step t i = some (t', new) → new.any p = true →
      (∃ l, new = [l]) ∧ P [] t') (h : Run step ok s ls t) : P (since p ls) t := by
  refine h.invariant (P := fun ls t => P (since p ls) t) start ?_
  intro ls t i new t' ih meets moves
  cases hnew : new.any p with
  | false =>
    rw [since_append_of_none p hnew]
    exact keeps _ _ _ _ _ ih meets moves hnew
  | true =>
    obtain ⟨⟨l, rfl⟩, hP⟩ := anew _ _ _ _ _ ih meets moves hnew
    rw [since_append_last p (by simpa using hnew)]
    exact hP

end Since

/-! ## One label before another -/

section Preceded

variable {ℓ : Type}

/-- Wherever `p` stands in `ls`, `q` stands before it. -/
def Preceded (q p : ℓ) (ls : List ℓ) : Prop := ∀ before, before ++ [p] <+: ls → q ∈ before

theorem preceded_of_not_mem {q p : ℓ} {ls : List ℓ} (h : p ∉ ls) : Preceded q p ls := by
  intro before hb
  exact absurd (hb.subset (by simp)) h

/-- A longer history: where `p` is new, `q` is not. -/
theorem Preceded.append {q p : ℓ} {ls new : List ℓ} (h : Preceded q p ls)
    (hnew : p ∈ new → q ∈ ls) : Preceded q p (ls ++ new) := by
  intro before hb
  by_cases hl : (before ++ [p]).length ≤ ls.length
  · exact h before (prefix_of_prefix_length_le hb (prefix_append ls new) hl)
  · -- `ls` lies within `before`, so that `p` is new
    have hle : ls.length ≤ before.length := by
      rw [length_append, length_singleton] at hl
      omega
    have hpre : ls <+: before := prefix_of_prefix_length_le (prefix_append ls new)
      ((prefix_append before [p]).trans hb) hle
    obtain ⟨mid, rfl⟩ := hpre
    rw [append_assoc, prefix_append_right_inj] at hb
    exact mem_append_left mid (hnew (hb.subset (by simp)))

end Preceded

end Crete.Lib
