/-
  File:      Crete/Lib/Parse.lean
  Subject:   Reading a file front to back, where a short read ends the program.

  * `Reads p xs a` -- the rule of the proofs: on a file that starts with `xs`, `p` returns `a` and
    leaves what follows.
  * `Reads.bind`, `reads_readN`, `reads_readLe`, `reads_mapM` -- one after the other, a block of
    bytes, a word, and a list item by item.
-/
import Crete.Lib.Bytes
import Crete.Lib.Except

namespace Crete.Lib

open List

variable {xs : Bytes}

/-- A program that reads from the front of a file and may stop. -/
abbrev Parser (ε α : Type) := StateT Bytes (Except ε) α

variable {ε α β : Type}

/-- The next `n` bytes; the program ends with `e` if there are not that many. -/
def readN (n : Nat) (e : ε) : Parser ε Bytes := fun bs =>
  if n ≤ bs.length then .ok (bs.take n, bs.drop n) else .error e

/-- A little-endian number of `n` bytes. -/
def readLe (n : Nat) (e : ε) : Parser ε Nat := do
  let bs ← readN n e
  return ofLeBytes bs

/-- Go on if `c` holds. -/
def demand (c : Prop) [Decidable c] (e : ε) : Parser ε Unit := fun bs =>
  if c then .ok ((), bs) else .error e

/-- **On a file that starts with `xs`, `p` returns `a` and leaves the rest.** -/
def Reads (p : Parser ε α) (xs : Bytes) (a : α) : Prop :=
  ∀ rest, p (xs ++ rest) = .ok (a, rest)

theorem reads_pure (a : α) : Reads (pure a : Parser ε α) [] a := fun _ => rfl

theorem Reads.bind {p : Parser ε α} {f : α → Parser ε β} {xs ys : Bytes} {a : α} {b : β}
    (hp : Reads p xs a) (hf : Reads (f a) ys b) : Reads (p >>= f) (xs ++ ys) b := by
  intro rest
  show (p (xs ++ ys ++ rest) >>= fun r => f r.1 r.2) = _
  rw [append_assoc, hp]
  exact hf rest

/-- The last step: nothing is read after `p`. -/
theorem Reads.map {p : Parser ε α} {a : α} (hp : Reads p xs a) (f : α → β) :
    Reads (p >>= fun a => pure (f a)) xs (f a) := by
  have h := hp.bind (f := fun a => pure (f a)) (reads_pure (f a))
  rw [append_nil] at h
  exact h

theorem reads_readN {n : Nat} (h : xs.length = n) (e : ε) : Reads (readN n e) xs xs := by
  intro rest
  rw [readN, if_pos (by rw [length_append]; omega), take_left' h, drop_left' h]

/-- **A word that fits its bytes is read back.** -/
theorem reads_readLe {n k : Nat} (h : k < 256 ^ n) (e : ε) :
    Reads (readLe n e) (leBytes n k) k := by
  have hr := (reads_readN (leBytes_length n k) e).map ofLeBytes
  rw [ofLeBytes_leBytes_of_lt h] at hr
  exact hr

/-- A guard that holds reads nothing. -/
theorem Reads.demand {c : Prop} [Decidable c] (hc : c) {e : ε} {f : Unit → Parser ε β}
    {b : β} (hf : Reads (f ()) xs b) :
    Reads (Lib.demand c e >>= f) xs b := by
  have hguard : Reads (Lib.demand c e) [] () := fun rest => by rw [Lib.demand, if_pos hc]; rfl
  exact hguard.bind hf

/-- **Item by item.** -/
theorem reads_mapM {p : α → Parser ε β} {enc : α → Bytes} {val : α → β} (xs : List α)
    (h : ∀ x ∈ xs, Reads (p x) (enc x) (val x)) :
    Reads (xs.mapM p) (xs.flatMap enc) (xs.map val) := by
  induction xs with
  | nil => exact reads_pure []
  | cons x xs ih =>
    rw [mapM_cons, flatMap_cons, map_cons]
    exact (h x (.head _)).bind ((ih (forall_mem_cons.1 h).2).map fun ys => val x :: ys)

/-- Running a parser on a file that is just what it reads. -/
def parseFile (p : Parser ε α) (bs : Bytes) : Except ε α := (p bs).map Prod.fst

theorem Reads.parseFile {p : Parser ε α} {a : α} (h : Reads p xs a) :
    Lib.parseFile p xs = .ok a := by
  have hr := h []
  rw [append_nil] at hr
  rw [Lib.parseFile, hr]
  rfl

end Crete.Lib
