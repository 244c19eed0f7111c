/-
  File:      Crete/Lib/Replace.lean
  Subject:   Work lists: a loop that takes an item out of a list and puts any number of smaller
             items behind it comes to an end.

  * `Replaced size l l'` -- `l'` is `l` with one item replaced by smaller ones.
  * `replaced_wf` -- no list can be replaced for ever, by the multiset order on the sizes.
-/
import Mathlib.Data.Multiset.DershowitzManna

namespace Crete.Lib

open List

variable {α : Type}

/-- `l'` is `l` without its item at `i`, and with some items behind it that are all smaller than
    the one taken out. -/
def Replaced (size : α → Nat) (l' l : List α) : Prop :=
  ∃ (i : Nat) (x : α) (new : List α), l[i]? = some x ∧ l' = l.eraseIdx i ++ new ∧
    ∀ y ∈ new, size y < size x

/-- The multiset of sizes of a list. -/
def sizes (size : α → Nat) (l : List α) : Multiset Nat := (l.map size : List Nat)

theorem Replaced.sizes_lt {size : α → Nat} {l l' : List α} (h : Replaced size l' l) :
    (sizes size l').IsDershowitzMannaLT (sizes size l) := by
  obtain ⟨i, x, new, hx, rfl, hnew⟩ := h
  have hi : i < l.length := (List.getElem?_eq_some_iff.1 hx).1
  have hl : (l.eraseIdx i ++ [x]).Perm l := by
    have hp := getElem_cons_eraseIdx_perm hi
    rw [(List.getElem?_eq_some_iff.1 hx).2] at hp
    exact perm_append_comm.trans hp
  refine ⟨sizes size (l.eraseIdx i), sizes size new, {size x}, by simp, ?_, ?_, ?_⟩
  · rw [sizes, map_append]
    rfl
  · rw [sizes, ← Multiset.coe_eq_coe.2 (hl.map size), map_append]
    rfl
  · intro y hy
    obtain ⟨z, hz, rfl⟩ := mem_map.1 (Multiset.mem_coe.1 hy)
    exact ⟨size x, Multiset.mem_singleton_self _, hnew z hz⟩

/-- **Replacing items by smaller ones comes to an end.** -/
theorem replaced_wf (size : α → Nat) : WellFounded (Replaced size) :=
  Subrelation.wf Replaced.sizes_lt
    (InvImage.wf (sizes size) Multiset.wellFounded_isDershowitzMannaLT)

end Crete.Lib
