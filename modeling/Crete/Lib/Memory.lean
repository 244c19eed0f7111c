/-
  File:      Crete/Lib/Memory.lean
  Subject:   Memory as a function from addresses to bytes, read and written in words of several
             bytes that may lie anywhere.

  * `word b n` -- the word of the bytes `b 0, …, b (n - 1)`, lowest first; `byteOf` -- a byte of it.
  * `store mem loc v n` -- the memory after the bytes of `v` went to `loc 0, …, loc (n - 1)`, the
    highest first. `store_of_ne` is its frame, `store_congr` compares two stores of one word.
  * `fill mem loc b n` -- the memory after the values `b 0, …, b (n - 1)` went to
    `loc 0, …, loc (n - 1)`; `fill_of_ne` and `fill_at` say what it holds.
-/
import Mathlib.Algebra.Order.Ring.Int
import Mathlib.Data.Finset.Card

namespace Crete.Lib

open Function

/-- The word of `n` bytes, lowest first. -/
def word (b : Nat → UInt8) : Nat → UInt64
  | 0 => 0
  | n + 1 => word b n ||| ((b n).toUInt64 <<< UInt64.ofNat (8 * n))

/-- Byte `j` of a word. -/
def byteOf (v : UInt64) (j : Nat) : UInt8 := (v >>> UInt64.ofNat (8 * j)).toUInt8

theorem word_congr {b b' : Nat → UInt8} {n : Nat} (h : ∀ j < n, b j = b' j) :
    word b n = word b' n := by
  induction n with
  | zero => rfl
  | succ n ih =>
    rw [word, word, ih fun j hj => h j (Nat.lt_succ_of_lt hj), h n (Nat.lt_succ_self n)]

variable {A : Type} [DecidableEq A]

/-- The memory after a word of `n` bytes is stored. -/
def store (mem : A → UInt8) (loc : Nat → A) (v : UInt64) : Nat → A → UInt8
  | 0 => mem
  | n + 1 => store (update mem (loc n) (byteOf v n)) loc v n

theorem store_of_ne {mem : A → UInt8} {loc : Nat → A} {v : UInt64} {p : A} {n : Nat}
    (h : ∀ j < n, loc j ≠ p) : store mem loc v n p = mem p := by
  induction n generalizing mem with
  | zero => rfl
  | succ n ih =>
    rw [store, ih fun j hj => h j (Nat.lt_succ_of_lt hj),
      update_of_ne (h n (Nat.lt_succ_self n)).symm]

/-- Two memories that receive one word agree where it went, and where they agreed before. -/
theorem store_congr {mem mem' : A → UInt8} {loc : Nat → A} {v : UInt64} {p : A} {n : Nat}
    (h : mem p = mem' p ∨ ∃ j < n, loc j = p) : store mem loc v n p = store mem' loc v n p := by
  induction n generalizing mem mem' with
  | zero =>
    rcases h with h | ⟨j, hj, -⟩
    · exact h
    · exact absurd hj (Nat.not_lt_zero j)
  | succ n ih =>
    refine ih ?_
    by_cases hp : p = loc n
    · rw [hp, update_self, update_self]
      exact .inl rfl
    · rw [update_of_ne hp, update_of_ne hp]
      rcases h with h | ⟨j, hj, e⟩
      · exact .inl h
      · rcases Nat.lt_succ_iff_lt_or_eq.1 hj with hj | hj
        · exact .inr ⟨j, hj, e⟩
        · rw [hj] at e
          exact absurd e.symm hp

/-- **Two memories that may differ where they are marked** still do after each received a word: `b`
    marks the bytes of the words, `m` is the mark that `p` had. -/
theorem store_marked {mem mem' : A → UInt8} {loc : Nat → A} {v v' : UInt64} {p : A} {n : Nat}
    {hit : Prop} [Decidable hit] (hhit : hit ↔ ∃ j < n, loc j = p) {b m : Bool}
    (hm : m = false → mem p = mem' p) (hb : b = false → v = v')
    (h : (if hit then b else m) = false) : store mem loc v n p = store mem' loc v' n p := by
  by_cases hp : hit
  · rw [if_pos hp] at h
    rw [hb h]
    exact store_congr (.inr (hhit.1 hp))
  · rw [if_neg hp] at h
    have hne : ∀ j < n, loc j ≠ p := fun j hj e => hp (hhit.2 ⟨j, hj, e⟩)
    rw [store_of_ne hne, store_of_ne hne, hm h]

/-! ## Blocks of values -/

section Fill

variable {V : Type} {mem : A → V} {loc : Nat → A} {b : Nat → V} {p : A} {n : Nat}

/-- The memory after a block of `n` values was put. -/
def fill (mem : A → V) (loc : Nat → A) (b : Nat → V) : Nat → A → V
  | 0 => mem
  | n + 1 => update (fill mem loc b n) (loc n) (b n)

theorem fill_of_ne (h : ∀ j < n, loc j ≠ p) : fill mem loc b n p = mem p := by
  induction n with
  | zero => rfl
  | succ n ih =>
    rw [fill, update_of_ne (h n (Nat.lt_succ_self n)).symm]
    exact ih fun j hj => h j (Nat.lt_succ_of_lt hj)

/-- Where the block went, its values are. -/
theorem exists_fill_eq (h : ∃ j < n, loc j = p) :
    ∃ j < n, loc j = p ∧ fill mem loc b n p = b j := by
  induction n with
  | zero =>
    obtain ⟨j, hj, -⟩ := h
    exact absurd hj (Nat.not_lt_zero j)
  | succ n ih =>
    by_cases hp : loc n = p
    · exact ⟨n, Nat.lt_succ_self n, hp, by rw [fill, hp, update_self]⟩
    · obtain ⟨j, hj, e⟩ := h
      have hjn : j < n := by
        refine Nat.lt_of_le_of_ne (Nat.le_of_lt_succ hj) ?_
        rintro rfl
        exact hp e
      obtain ⟨k, hk, e', hv⟩ := ih ⟨j, hjn, e⟩
      exact ⟨k, Nat.lt_succ_of_lt hk, e', by rw [fill, update_of_ne (Ne.symm hp), hv]⟩

theorem fill_at (hloc : ∀ i < n, ∀ j < n, loc i = loc j → i = j) {j : Nat} (hj : j < n) :
    fill mem loc b n (loc j) = b j := by
  obtain ⟨k, hk, e, hv⟩ : ∃ k < n, loc k = loc j ∧ fill mem loc b n (loc j) = b k :=
    exists_fill_eq ⟨j, hj, rfl⟩
  rw [hv, hloc k hk j hj e]

/-- **`n` places that lie among `n` others are all of them.** -/
theorem exists_of_covers {f g : Nat → A} (hg : ∀ i < n, ∀ j < n, g i = g j → i = j)
    (h : ∀ j < n, ∃ i < n, g j = f i) {i : Nat} (hi : i < n) : ∃ j < n, f i = g j := by
  have hsub : (Finset.range n).image g ⊆ (Finset.range n).image f := by
    intro a ha
    obtain ⟨j, hj, rfl⟩ := Finset.mem_image.1 ha
    obtain ⟨i, hi, e⟩ := h j (Finset.mem_range.1 hj)
    exact Finset.mem_image.2 ⟨i, Finset.mem_range.2 hi, e.symm⟩
  have hcard : ((Finset.range n).image g).card = n := by
    rw [Finset.card_image_of_injOn, Finset.card_range]
    intro i hi j hj e
    exact hg i (Finset.mem_range.1 hi) j (Finset.mem_range.1 hj) e
  have heq := Finset.eq_of_subset_of_card_le hsub (by
    rw [hcard]
    exact Finset.card_image_le.trans_eq (Finset.card_range n))
  have hmem : f i ∈ (Finset.range n).image f :=
    Finset.mem_image_of_mem f (Finset.mem_range.2 hi)
  rw [← heq] at hmem
  obtain ⟨j, hj, e⟩ := Finset.mem_image.1 hmem
  exact ⟨j, Finset.mem_range.1 hj, e.symm⟩

end Fill

end Crete.Lib
