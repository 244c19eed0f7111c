/-
  File:      Crete/Lib/Fifo.lean
  Subject:   A pool that hands out in order of arrival what it has admitted.

  Whether a new member is admitted may depend on everything inserted before it.

  * `drawUpTo` -- the same where a member taken may turn out unusable and then takes no room.
  * `Books` -- what was inserted and taken, against what waits.
-/
import Mathlib.Data.List.Basic
import Mathlib.Data.List.TakeDrop
import Mathlib.Data.List.Perm.Basic
import Mathlib.Algebra.Order.Ring.Int

namespace Crete.Lib

open List

/-- The members inserted so far, how many of them were admitted, and those that wait. -/
structure Fifo (α : Type) where
  seen : List α
  kept : Nat
  waiting : List α
  deriving DecidableEq, Repr

namespace Fifo

section Operations

variable {α : Type} (admits : List α → α → Bool)

/-- Nothing inserted. -/
def empty : Fifo α := ⟨[], 0, []⟩

/-- Insert one member. -/
def insert (q : Fifo α) (x : α) : Fifo α :=
  if admits q.seen x then ⟨q.seen ++ [x], q.kept + 1, q.waiting ++ [x]⟩
  else { q with seen := q.seen ++ [x] }

/-- Insert members one after another. -/
def insertAll (q : Fifo α) (xs : List α) : Fifo α := xs.foldl (insert admits) q

/-- The member that has waited longest. -/
def next (q : Fifo α) : Option α × Fifo α :=
  match q.waiting with
  | [] => (none, q)
  | x :: rest => (some x, { q with waiting := rest })

/-- Take members until there is no more room or none waits. -/
def takeUpTo : Nat → Fifo α → List α × Fifo α
  | 0, q => ([], q)
  | room + 1, q =>
    match q.next with
    | (none, q) => ([], q)
    | (some x, q) => (x :: (takeUpTo room q).1, (takeUpTo room q).2)

theorem mem_waiting_insert {q : Fifo α} {x y : α} (h : y ∈ (q.insert admits x).waiting) :
    y ∈ q.waiting ∨ y = x := by
  simp only [insert] at h
  split at h
  · simpa using h
  · exact .inl h

theorem mem_waiting_insertAll {xs : List α} : ∀ {q : Fifo α} {y : α},
    y ∈ (q.insertAll admits xs).waiting → y ∈ q.waiting ∨ y ∈ xs := by
  induction xs with
  | nil =>
    intro q y h
    exact .inl h
  | cons x xs ih =>
    intro q y h
    have h' : y ∈ (q.insert admits x).waiting ∨ y ∈ xs := ih h
    obtain h' | h' := h'
    · obtain h' | h' := mem_waiting_insert admits h'
      · exact .inl h'
      · exact .inr (h' ▸ mem_cons_self)
    · exact .inr (mem_cons_of_mem x h')

theorem takeUpTo_eq (room : Nat) (q : Fifo α) :
    q.takeUpTo room = (q.waiting.take room, { q with waiting := q.waiting.drop room }) := by
  induction room generalizing q with
  | zero => rfl
  | succ room ih =>
    obtain ⟨seen, kept, waiting⟩ := q
    cases waiting with
    | nil => rfl
    | cons x rest => simp [takeUpTo, next, ih]

end Operations

/-! ## Members that may turn out unusable -/

section Draw

variable {α β φ : Type} (read : φ → α → Option β × φ)

/-- Take members until there is no more room or none waits. Each is read as it is taken, and only
    what could be read takes room. What was taken, with what was read of it; what waits on; and
    the state that reading leaves. -/
def drawUpTo : Nat → φ → List α → List (α × Option β) × List α × φ
  | _, s, [] => ([], [], s)
  | 0, s, x :: xs => ([], x :: xs, s)
  | room + 1, s, x :: xs =>
    match read s x with
    | (none, s) =>
      let r := drawUpTo (room + 1) s xs
      ((x, none) :: r.1, r.2)
    | (some y, s) =>
      let r := drawUpTo room s xs
      ((x, some y) :: r.1, r.2)

/-- A property of the reading state that every reading keeps, and that every value read
    inherits. -/
theorem drawUpTo_spec {I : φ → Prop} {Q : β → Prop} (keeps : ∀ s x, I s → I (read s x).2)
    (reads : ∀ s x y, I s → (read s x).1 = some y → Q y) (xs : List α) :
    ∀ (room : Nat) (s : φ), I s → I (drawUpTo read room s xs).2.2 ∧
      ∀ p ∈ (drawUpTo read room s xs).1, ∀ y, p.2 = some y → Q y := by
  induction xs with
  | nil =>
    intro room s hs
    simpa [drawUpTo] using hs
  | cons x xs ih =>
    intro room s hs
    cases room with
    | zero => simpa [drawUpTo] using hs
    | succ room =>
      have hkeep := keeps s x hs
      have hread := reads s x
      simp only [drawUpTo]
      split
      · rename_i s' hr
        rw [hr] at hkeep
        obtain ⟨hI, hQ⟩ := ih (room + 1) s' hkeep
        refine ⟨hI, ?_⟩
        intro p hp y hy
        obtain rfl | hp := mem_cons.1 hp
        · cases hy
        · exact hQ p hp y hy
      · rename_i z s' hr
        rw [hr] at hkeep hread
        obtain ⟨hI, hQ⟩ := ih room s' hkeep
        refine ⟨hI, ?_⟩
        intro p hp y hy
        obtain rfl | hp := mem_cons.1 hp
        · exact hread y hs hy
        · exact hQ p hp y hy

/-- What is taken and what waits on, together, is what waited. -/
theorem drawUpTo_perm (xs : List α) : ∀ (room : Nat) (s : φ),
    ((drawUpTo read room s xs).1.map Prod.fst ++ (drawUpTo read room s xs).2.1).Perm xs := by
  induction xs with
  | nil => exact fun room s => by simp [drawUpTo]
  | cons x xs ih =>
    intro room s
    cases room with
    | zero => simp [drawUpTo]
    | succ room =>
      simp only [drawUpTo]
      split
      · exact (ih (room + 1) _).cons x
      · exact (ih room _).cons x

end Draw

/-! ## Books -/

section Books

variable {α : Type} (admits : List α → α → Bool)

/-- Of members that are inserted after `seen`, those that are admitted. -/
def admitted : List α → List α → List α
  | _, [] => []
  | seen, x :: xs => (if admits seen x then [x] else []) ++ admitted (seen ++ [x]) xs

/-- **From `q` to `q'`** the members `ins` are inserted and the members `outs` taken: what is taken
    or waits has waited before or was admitted, and each once. -/
structure Books (q q' : Fifo α) (ins outs : List α) : Prop where
  seen : q'.seen = q.seen ++ ins
  waiting : (outs ++ q'.waiting).Perm (q.waiting ++ admitted admits q.seen ins)

variable {admits} {q q' q'' : Fifo α} {ins ins' outs outs' : List α}

theorem admitted_append (seen xs ys : List α) :
    admitted admits seen (xs ++ ys) =
      admitted admits seen xs ++ admitted admits (seen ++ xs) ys := by
  induction xs generalizing seen with
  | nil => simp [admitted]
  | cons x xs ih => simp [admitted, ih]

@[simp] theorem Books.refl (q : Fifo α) : Books admits q q [] [] := ⟨by simp, by simp [admitted]⟩

/-- One after the other. -/
theorem Books.append (h : Books admits q q' ins outs) (h' : Books admits q' q'' ins' outs') :
    Books admits q q'' (ins ++ ins') (outs ++ outs') where
  seen := by rw [h'.seen, h.seen, append_assoc]
  waiting := by
    rw [admitted_append, append_assoc, ← append_assoc q.waiting, ← h.seen]
    refine (h'.waiting.append_left outs).trans ?_
    rw [← append_assoc]
    exact h.waiting.append_right _

theorem books_insert (q : Fifo α) (x : α) : Books admits q (q.insert admits x) [x] [] := by
  unfold insert
  split
  · rename_i h
    exact ⟨rfl, by simp [admitted, h]⟩
  · rename_i h
    exact ⟨rfl, by simp [admitted, h]⟩

theorem books_insertAll (xs : List α) :
    ∀ q : Fifo α, Books admits q (q.insertAll admits xs) xs [] := by
  induction xs with
  | nil => exact .refl
  | cons x xs ih => exact fun q => (books_insert q x).append (ih _)

/-- Some of those that wait are taken. -/
theorem books_take {rest : List α} (h : (outs ++ rest).Perm q.waiting) :
    Books admits q { q with waiting := rest } [] outs :=
  ⟨by simp, by simpa [admitted] using h⟩

theorem books_takeUpTo {room : Nat} (h : q.takeUpTo room = (outs, q')) :
    Books admits q q' [] outs := by
  rw [takeUpTo_eq] at h
  cases h
  exact books_take (by rw [take_append_drop])

end Books

end Fifo

end Crete.Lib
