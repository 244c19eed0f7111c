/-
  File:      Crete/Lib/Firsts.lean
  Subject:   The distinct members of a sequence, in order of first arrival.

  * `exists_key_firsts` -- every key that arrived is kept, and no other.
  * `firsts_sublist`, `firsts_pairwise` -- the order is that of arrival, and no two have one key.
  * `firsts_of_nodup`, `firsts_append_of_known` -- nothing is dropped of distinct members, and
    nothing is added by members that are known.
-/
import Mathlib.Data.List.Induction
import Mathlib.Data.List.Nodup

namespace Crete.Lib

open List

section Firsts

variable {τ κ : Type} [DecidableEq κ] (key : τ → κ)

/-- One more member. -/
def addFirst (kept : List τ) (t : τ) : List τ :=
  if ∃ s ∈ kept, key s = key t then kept else kept ++ [t]

/-- The members with a new key, in order of arrival. -/
def firsts (ts : List τ) : List τ := ts.foldl (addFirst key) []

theorem firsts_snoc (ts : List τ) (t : τ) :
    firsts key (ts ++ [t]) = addFirst key (firsts key ts) t := by
  rw [firsts, foldl_append]
  rfl

/-- Every key that arrived is kept, and no other. -/
theorem exists_key_firsts (ts : List τ) (k : κ) :
    (∃ s ∈ firsts key ts, key s = k) ↔ ∃ s ∈ ts, key s = k := by
  induction ts using reverseRecOn with
  | nil => exact Iff.rfl
  | append_singleton ts t ih =>
    rw [firsts_snoc, addFirst]
    simp only [mem_append, mem_singleton, or_and_right, exists_or, exists_eq_left, ← ih]
    split
    · next h =>
      refine ⟨.inl, fun hk => hk.elim id fun e => ?_⟩
      rw [← e]
      exact h
    · simp only [mem_append, mem_singleton, or_and_right, exists_or, exists_eq_left]

theorem firsts_sublist (ts : List τ) : (firsts key ts).Sublist ts := by
  induction ts using reverseRecOn with
  | nil => exact .slnil
  | append_singleton ts t ih =>
    rw [firsts_snoc, addFirst]
    split
    · exact ih.trans (sublist_append_left _ _)
    · exact ih.append (Sublist.refl _)

/-- No two kept members have the same key. -/
theorem firsts_pairwise (ts : List τ) : (firsts key ts).Pairwise (key · ≠ key ·) := by
  induction ts using reverseRecOn with
  | nil => exact .nil
  | append_singleton ts t ih =>
    rw [firsts_snoc, addFirst]
    split
    · exact ih
    · next h =>
      refine pairwise_append.2 ⟨ih, pairwise_singleton _ _, fun s hs x hx => ?_⟩
      rw [mem_singleton.1 hx]
      exact fun e => h ⟨s, hs, e⟩

/-- Distinct members are all kept. -/
theorem firsts_of_nodup {ts : List τ} (h : (ts.map key).Nodup) : firsts key ts = ts := by
  induction ts using reverseRecOn with
  | nil => rfl
  | append_singleton ts t ih =>
    rw [map_append, nodup_append] at h
    have hnew : ¬ ∃ s ∈ ts, key s = key t := by
      rintro ⟨s, hs, e⟩
      exact h.2.2 _ (mem_map_of_mem hs) _ (.head _) e
    rw [firsts_snoc, ih h.1, addFirst, if_neg hnew]

/-- Members whose keys have all arrived are all dropped. -/
theorem firsts_append_of_known {ts us : List τ} (h : ∀ u ∈ us, ∃ s ∈ ts, key s = key u) :
    firsts key (ts ++ us) = firsts key ts := by
  induction us using reverseRecOn with
  | nil => rw [append_nil]
  | append_singleton us u ih =>
    have hu : ∃ s ∈ firsts key ts, key s = key u :=
      (exists_key_firsts key ts (key u)).2 (h u (mem_append_right _ (.head _)))
    rw [← append_assoc, firsts_snoc, ih fun v hv => h v (mem_append_left _ hv), addFirst, if_pos hu]

end Firsts

section Swap

variable {α β γ : Type} (p : α → β → Prop) [∀ a b, Decidable (p a b)] (f : α → β → γ)

/-- All pairs that are related, by the first or by the second of the pair. -/
theorem flatMap_filter_perm (xs : List α) (ys : List β) :
    (xs.flatMap fun x => (ys.filter fun y => p x y).map (f x)).Perm
      (ys.flatMap fun y => (xs.filter fun x => p x y).map fun x => f x y) := by
  induction ys with
  | nil => exact .of_eq (flatMap_eq_nil_iff.2 fun _ _ => rfl)
  | cons y ys ih =>
    rw [flatMap_cons]
    refine .trans ?_ (ih.append_left _)
    clear ih
    induction xs with
    | nil => exact .refl _
    | cons x xs ih =>
      rw [flatMap_cons, flatMap_cons]
      by_cases h : p x y
      · rw [filter_cons_of_pos (by simpa using h),
          filter_cons_of_pos (by simpa using h), map_cons, map_cons,
          cons_append, cons_append]
        refine .cons _ (.trans (ih.append_left _) ?_)
        rw [← append_assoc, ← append_assoc]
        exact perm_append_comm.append_right _
      · rw [filter_cons_of_neg (by simpa using h), filter_cons_of_neg (by simpa using h)]
        refine .trans (ih.append_left _) ?_
        rw [← append_assoc, ← append_assoc]
        exact perm_append_comm.append_right _

end Swap

end Crete.Lib
