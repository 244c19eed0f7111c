/-
  File:      Crete/Lib/Fresh.lean
  Subject:   A store in which a key may be put only where there is nothing.

  * `PutAll.of_ok`, `exists_putAll` -- they all go through exactly if the keys are distinct and
    free; then each key holds its value and no other key has changed.
  * `forall₂_eq_of_perm` -- the same keys in two lists, none of more weight than its partner:
    the partners are of the same weight.
-/
import Crete.Lib.Except
import Mathlib.Algebra.BigOperators.Group.List.Basic
import Mathlib.Data.List.Nodup
import Mathlib.Data.List.Perm.Subperm

namespace Crete.Lib

open Function List

section Put

variable {α κ ν ε : Type} [DecidableEq κ] (key : α → κ) (val : α → ν) (clash : α → ε)

/-- Put a value at a key that holds none. -/
def putNew (m : κ → Option ν) (a : α) : Except ε (κ → Option ν) :=
  if m (key a) = none then .ok (update m (key a) (some (val a))) else .error (clash a)

/-- Put one after another. -/
def putAll (m : κ → Option ν) (xs : List α) : Except ε (κ → Option ν) :=
  xs.foldlM (putNew key val clash) m

/-- What the store is after puts that all went through. -/
structure PutAll (xs : List α) (m m' : κ → Option ν) : Prop where
  nodup : (xs.map key).Nodup
  free : ∀ x ∈ xs, m (key x) = none
  holds : ∀ x ∈ xs, m' (key x) = some (val x)
  others : ∀ k, k ∉ xs.map key → m' k = m k

variable {key val clash}

theorem putAll_cons {m m' : κ → Option ν} {x : α} {xs : List α} :
    putAll key val clash m (x :: xs) = .ok m' ↔ m (key x) = none ∧
      putAll key val clash (update m (key x) (some (val x))) xs = .ok m' := by
  rw [putAll, foldlM_cons, putNew]
  split
  · next h => simp [h, putAll]
  · next h => simp [h]

/-- **Puts that go through** had distinct and free keys. -/
theorem PutAll.of_ok : ∀ {xs : List α} {m m' : κ → Option ν},
    putAll key val clash m xs = .ok m' → PutAll key val xs m m'
  | [], m, m', h => by
    cases h
    exact ⟨.nil, forall_mem_nil _, forall_mem_nil _, fun _ _ => rfl⟩
  | x :: xs, m, m', h => by
    obtain ⟨hfree, h⟩ := putAll_cons.1 h
    have ih := PutAll.of_ok h
    -- the key just put is taken, so it is not put again
    have hnew : key x ∉ xs.map key := by
      intro hm
      obtain ⟨y, hy, e⟩ := mem_map.1 hm
      have := ih.free y hy
      rw [e, update_self] at this
      cases this
    have hkeep : ∀ k, k ≠ key x → update m (key x) (some (val x)) k = m k :=
      fun k hk => update_of_ne hk _ _
    refine ⟨nodup_cons.2 ⟨hnew, ih.nodup⟩, ?_, ?_, ?_⟩
    · intro y hy
      rcases mem_cons.1 hy with rfl | hy
      · exact hfree
      · rw [← hkeep _ fun e => hnew (e ▸ mem_map_of_mem hy)]
        exact ih.free y hy
    · intro y hy
      rcases mem_cons.1 hy with rfl | hy
      · rw [ih.others _ hnew, update_self]
      · exact ih.holds y hy
    · intro k hk
      rw [map_cons, mem_cons, not_or] at hk
      rw [ih.others k hk.2, hkeep k hk.1]

variable (val clash)

/-- Distinct and free keys are all put. -/
theorem exists_putAll : ∀ {xs : List α} {m : κ → Option ν}, (xs.map key).Nodup →
    (∀ x ∈ xs, m (key x) = none) → ∃ m', putAll key val clash m xs = .ok m'
  | [], m, _, _ => ⟨m, rfl⟩
  | x :: xs, m, hn, hf => by
    rw [map_cons, nodup_cons] at hn
    have hf' : ∀ y ∈ xs, update m (key x) (some (val x)) (key y) = none := by
      intro y hy
      have hne : key y ≠ key x := fun e => hn.1 (e ▸ mem_map_of_mem hy)
      rw [update_of_ne hne]
      exact hf y (.tail _ hy)
    obtain ⟨m', hm'⟩ := exists_putAll hn.2 hf'
    exact ⟨m', putAll_cons.2 ⟨hf x (.head _), hm'⟩⟩

end Put

/-! ## Keys against keys -/

section Keys

variable {κ : Type}

variable {ks ls : List κ}

theorem perm_of_subset (hn : ks.Nodup) (hs : ks ⊆ ls) (hlen : ls.length = ks.length) : ks.Perm ls :=
  (hn.subperm hs).perm_of_length_le hlen.le

theorem forall₂_sum_le {w : κ → Nat}
    (h : List.Forall₂ (fun k l => w k ≤ w l) ks ls) : (ks.map w).sum ≤ (ls.map w).sum := by
  induction h with
  | nil => exact le_rfl
  | cons hle _ ih =>
    rw [map_cons, map_cons, sum_cons, sum_cons]
    omega

theorem forall₂_eq_of_sum {w : κ → Nat}
    (h : List.Forall₂ (fun k l => w k ≤ w l) ks ls) (hsum : (ks.map w).sum = (ls.map w).sum) :
    List.Forall₂ (fun k l => w k = w l) ks ls := by
  induction h with
  | nil => exact .nil
  | cons hle hrest ih =>
    have hle' := forall₂_sum_le hrest
    rw [map_cons, map_cons, sum_cons, sum_cons] at hsum
    exact .cons (by omega) (ih (by omega))

/-- **The same keys in two lists**, none of more weight than its partner. -/
theorem forall₂_eq_of_perm {w : κ → Nat} (hp : ks.Perm ls)
    (h : List.Forall₂ (fun k l => w k ≤ w l) ks ls) :
    List.Forall₂ (fun k l => w k = w l) ks ls :=
  forall₂_eq_of_sum h (hp.map w).sum_eq

end Keys

end Crete.Lib
