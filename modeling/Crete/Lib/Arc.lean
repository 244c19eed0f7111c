/-
  File:      Crete/Lib/Arc.lean
  Subject:   Ranges of a 64-bit address space that may go around its end.

  * `Arc.Covers` -- the address is less than `size` steps behind the first; `covers_iff` says it
    without the step around the end.
  * `Arc.Meets` -- one begins in the other: so do any two with a common address
    (`meets_of_covers`).
-/
import Mathlib.Algebra.Order.Ring.Int
import Mathlib.Data.UInt

namespace Crete.Lib

/-- The `size` addresses from `addr` on. -/
structure Arc where
  addr : UInt64
  size : Nat

namespace Arc

variable {r r' : Arc} {a : UInt64}

def Covers (r : Arc) (a : UInt64) : Prop := (a - r.addr).toNat < r.size
  deriving Decidable

/-- One begins in the other. -/
def Meets (r r' : Arc) : Prop := r.Covers r'.addr ∨ r'.Covers r.addr
  deriving Decidable

def Contains (r r' : Arc) : Prop := ∀ a, r'.Covers a → r.Covers a

theorem Meets.symm (h : r.Meets r') : r'.Meets r := Or.symm h

/-- The address is behind the first, or before it and around the end. -/
theorem covers_iff : r.Covers a ↔ (r.addr.toNat ≤ a.toNat ∧ a.toNat < r.addr.toNat + r.size) ∨
      (a.toNat < r.addr.toNat ∧ a.toNat + 2 ^ 64 < r.addr.toNat + r.size) := by
  have h₁ := a.toNat_lt
  have h₂ := r.addr.toNat_lt
  rw [Covers, UInt64.toNat_sub]
  omega

theorem covers_addr (h : 0 < r.size) : r.Covers r.addr := by
  rw [covers_iff]
  omega

/-- **Arcs with a common address meet.** -/
theorem meets_of_covers (h : r.Covers a) (h' : r'.Covers a) : r.Meets r' := by
  have h₁ := a.toNat_lt
  have h₂ := r.addr.toNat_lt
  have h₃ := r'.addr.toNat_lt
  rw [covers_iff] at h h'
  rw [Meets, covers_iff, covers_iff]
  omega

/-- **An arc that has all of another**: it begins before it, by no more than it is longer. -/
theorem contains_iff (hr : r.size < 2 ^ 64) (hr' : 0 < r'.size) :
    r.Contains r' ↔ (r'.addr - r.addr).toNat + r'.size ≤ r.size := by
  have h₂ := r.addr.toNat_lt
  have h₃ := r'.addr.toNat_lt
  constructor
  · intro h
    by_contra hlong
    have hfirst : (r'.addr - r.addr).toNat < r.size := h _ (covers_addr hr')
    -- the address behind the last of `r`
    have hnext := h (r.addr + UInt64.ofNat r.size)
    have hsize : (UInt64.ofNat r.size).toNat = r.size := UInt64.toNat_ofNat_of_lt' hr
    rw [Covers, Covers, UInt64.toNat_sub, UInt64.toNat_sub, UInt64.toNat_add, hsize] at hnext
    rw [UInt64.toNat_sub] at hlong hfirst
    omega
  · intro h a ha
    rw [Covers, UInt64.toNat_sub] at ha
    rw [UInt64.toNat_sub] at h
    have h₁ := a.toNat_lt
    rw [Covers, UInt64.toNat_sub]
    omega

/-- It begins before the other and ends behind it. -/
theorem contains_of_le (h : r.addr.toNat ≤ r'.addr.toNat)
    (h' : r'.addr.toNat + r'.size ≤ r.addr.toNat + r.size) : r.Contains r' := by
  intro a ha
  rw [covers_iff] at ha ⊢
  omega

end Arc

end Crete.Lib
