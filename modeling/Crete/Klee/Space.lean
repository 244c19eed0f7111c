/-
  File:      Crete/Klee/Space.lean
  Subject:   The memory objects of a replay state (klee/lib/Core/MemoryManager.cpp,
             AddressSpace.cpp).

  * `MemObj`, `overlaps` -- an object and the source's test for overlaps, which adds sizes to
    addresses in 64 bits.
  * `overlaps_iff` -- the test is right for ranges that end below `2 ^ 64`, and finds nothing else.
  * `Tidy` -- one object for each address, and none of those that end below `2 ^ 64` overlap.
-/
import Crete.Klee.Object
import Crete.Lib.Extent

namespace Crete.Klee

open Crete.Lib Crete.Lib.Extent List UInt64

variable {B : Type}

/-! ## 1. Objects -/

/-- A `MemoryObject` with its state. `symbolic` says that it is one of the state's `symbolics`. -/
structure MemObj (B : Type) where
  addr : UInt64
  os : ObjectState B
  symbolic : Bool

namespace MemObj

/-- `mo->size`. -/
def size (o : MemObj B) : UInt32 := o.os.size

/-- The address after the last byte, without a bound. -/
def stop (o : MemObj B) : Nat := o.addr.toNat + o.size.toNat

/-- The object ends below the end of the address space. -/
def Ends (o : MemObj B) : Prop := o.stop < 2 ^ 64
  deriving Decidable

/-- `mo->address + mo->size`. -/
def addrEnd (o : MemObj B) : UInt64 := o.addr + o.size.toUInt64

variable [ByteExpr B]

/-- The bytes of the object. -/
def extent (o : MemObj B) : Extent B := ⟨o.addr.toNat, o.os.bytes⟩

@[simp] theorem extent_stop (o : MemObj B) : o.extent.stop = o.stop := by
  simp [extent, Extent.stop, stop, size]

theorem byteAt_extent (o : MemObj B) {i : Nat} (hi : i < o.size.toNat) :
    o.extent.byteAt (o.extent.addr + i) = some (o.os.read8 i) := by
  rw [byteAt_add]
  change ((range o.size.toNat).map o.os.read8)[i]? = _
  rw [getElem?_map, getElem?_range hi]
  rfl

end MemObj

/-- `address+size > mo->address && address < mo->address+mo->size`. -/
def overlaps (addr size : UInt64) (o : MemObj B) : Bool :=
  decide (o.addr < addr + size) && decide (addr < o.addrEnd)

/-- The order of the objects in the memory manager is that of their pointers: any order. -/
abbrev PointerOrder (B : Type) :=
  { order : List (MemObj B) → List (MemObj B) // ∀ l, (order l).Perm l }

/-- `isOverlappedMO`. -/
def isOverlappedMO (objs : List (MemObj B)) (addr size : UInt64) : Bool :=
  objs.any (overlaps addr size)

/-- `findOverlapObjects`. -/
def findOverlapObjects (order : PointerOrder B) (objs : List (MemObj B)) (addr size : UInt64) :
    List (MemObj B) :=
  order.1 (objs.filter (overlaps addr size))

/-- `allocateFixed`: the size of the new object, which is cut to 32 bits. -/
def allocateFixed (objs : List (MemObj B)) (addr size : UInt64) : Except KleeStop UInt32 := do
  ensure (isOverlappedMO objs addr size = false)
    (.kleeError "Trying to allocate an overlapping object")
  return size.toUInt32

/-- `bindObject`: the map of objects has one for each address. -/
def bindObject (objs : List (MemObj B)) (o : MemObj B) : List (MemObj B) :=
  o :: objs.filter fun o' => o'.addr ≠ o.addr

variable {objs : List (MemObj B)} {addr size : UInt64}

theorem bindObject_bindObject {o o' : MemObj B} (h : o.addr = o'.addr) :
    bindObject (bindObject objs o) o' = bindObject objs o' := by
  simp [bindObject, h, filter_filter]

theorem isOverlappedMO_iff :
    isOverlappedMO objs addr size = true ↔ ∃ o ∈ objs, overlaps addr size o = true :=
  any_eq_true

theorem mem_findOverlapObjects (order : PointerOrder B) {o : MemObj B} :
    o ∈ findOverlapObjects order objs addr size ↔ o ∈ objs ∧ overlaps addr size o = true := by
  rw [findOverlapObjects, (order.2 _).mem_iff, mem_filter]

/-- What the merge finds, if it finds an object. -/
theorem exists_front (order : PointerOrder B) (hover : ∃ o ∈ objs, overlaps addr size o = true) :
    ∃ front others, findOverlapObjects order objs addr size = front :: others := by
  obtain ⟨o, ho, hov⟩ := hover
  exact exists_cons_of_ne_nil (ne_nil_of_mem ((mem_findOverlapObjects order).2 ⟨ho, hov⟩))

/-! ## 2. The test for overlaps -/

theorem MemObj.toNat_addrEnd {o : MemObj B} (h : o.Ends) : o.addrEnd.toNat = o.stop := by
  have h : o.addr.toNat + o.size.toNat < 2 ^ 64 := h
  rw [MemObj.addrEnd, UInt64.toNat_add, UInt32.toNat_toUInt64, Nat.mod_eq_of_lt h]
  rfl

theorem toNat_add_size (h : addr.toNat + size.toNat < 2 ^ 64) :
    (addr + size).toNat = addr.toNat + size.toNat := by
  rw [UInt64.toNat_add, Nat.mod_eq_of_lt h]

section Overlaps

variable {addr size : UInt64} {o : MemObj B}

/-- **The test, on a range of less than `2 ^ 32` bytes**: both the range and the object end below
    `2 ^ 64`, and each begins before the other ends. -/
theorem overlaps_iff (hsize : size.toNat < 2 ^ 32) :
    overlaps addr size o = true ↔ addr.toNat + size.toNat < 2 ^ 64 ∧ o.Ends ∧
      o.addr.toNat < addr.toNat + size.toNat ∧ addr.toNat < o.stop := by
  have hosize := o.size.toNat_lt
  have haddr := addr.toNat_lt
  have hoaddr := o.addr.toNat_lt
  rw [overlaps, Bool.and_eq_true, decide_eq_true_eq, decide_eq_true_eq, lt_iff_toNat_lt,
    lt_iff_toNat_lt, MemObj.addrEnd, UInt64.toNat_add, UInt64.toNat_add,
    UInt32.toNat_toUInt64]
  unfold MemObj.Ends MemObj.stop
  omega

/-- No object has all of the range, in the test of the source. -/
theorem not_covers (hsize : size.toNat < 2 ^ 32) (hover : overlaps addr size o = true)
    (hcov : ¬ (o.addr.toNat ≤ addr.toNat ∧ addr.toNat + size.toNat ≤ o.stop)) :
    ¬ (o.addr ≤ addr ∧ addr + size ≤ o.addrEnd) := by
  obtain ⟨hT, hends, -, -⟩ := (overlaps_iff hsize).1 hover
  rwa [le_iff_toNat_le, le_iff_toNat_le, toNat_add_size hT, MemObj.toNat_addrEnd hends]

end Overlaps

/-! ## 3. Objects that do not overlap -/

/-- One object ends before the other begins. -/
def Off (o o' : MemObj B) : Prop := o.stop ≤ o'.addr.toNat ∨ o'.stop ≤ o.addr.toNat

/-- **Objects as the replay keeps them**: one for each address, and none of those that end below
    `2 ^ 64` overlap. -/
def Tidy (objs : List (MemObj B)) : Prop :=
  objs.Pairwise fun o o' => o.addr ≠ o'.addr ∧ (o.Ends → o'.Ends → Off o o')

instance instSymmTidy :
    Std.Symm fun o o' : MemObj B => o.addr ≠ o'.addr ∧ (o.Ends → o'.Ends → Off o o') :=
  ⟨fun _ _ h => ⟨h.1.symm, fun h₁ h₂ => (h.2 h₂ h₁).symm⟩⟩

theorem Tidy.perm {l l' : List (MemObj B)} (h : Tidy l) (hp : l.Perm l') : Tidy l' :=
  (hp.pairwise_iff fun {_ _} => instSymmTidy.symm _ _).1 h

theorem Tidy.off (h : Tidy objs) {o o' : MemObj B} (ho : o ∈ objs)
    (ho' : o' ∈ objs) (hne : o ≠ o') (he : o.Ends) (he' : o'.Ends) : Off o o' :=
  (h.forall ho ho' hne).2 he he'

/-- Objects that end, in order of address, are in order of place. -/
theorem Tidy.sorted {l : List (MemObj B)} (h : Tidy l) (he : ∀ o ∈ l, o.Ends)
    (hs : l.Pairwise fun o o' => o.addr ≤ o'.addr) :
    l.Pairwise fun o o' => o.stop ≤ o'.addr.toNat := by
  refine (Pairwise.and h hs).imp_of_mem fun {o o'} ho ho' hoo => ?_
  obtain ⟨⟨hne, hoff⟩, hle⟩ := hoo
  have hlt : o.addr.toNat < o'.addr.toNat :=
    Nat.lt_of_le_of_ne (le_iff_toNat_le.1 hle) fun e => hne (UInt64.toNat_inj.1 e)
  rcases hoff (he o ho) (he o' ho') with h | h
  · exact h
  · unfold MemObj.stop at h
    omega

/-- **A new object** that is off the others. -/
theorem Tidy.bind (h : Tidy objs) {new : MemObj B}
    (hoff : ∀ o ∈ objs, o.addr ≠ new.addr → new.Ends → o.Ends → Off new o) :
    Tidy (bindObject objs new) := by
  refine pairwise_cons.2 ⟨fun o ho => ?_, Pairwise.filter _ h⟩
  obtain ⟨ho, haddr⟩ := mem_filter.1 ho
  have hne := of_decide_eq_true haddr
  exact ⟨hne.symm, hoff o ho hne⟩

/-- An object with other bytes. -/
theorem Tidy.rebind (h : Tidy objs) {o new : MemObj B} (ho : o ∈ objs)
    (haddr : new.addr = o.addr) (hsize : new.size = o.size) : Tidy (bindObject objs new) := by
  have hstop : new.stop = o.stop := by
    unfold MemObj.stop
    rw [haddr, hsize]
  refine h.bind fun x hx hne hends hxends => ?_
  have hoff : Off o x := by
    unfold MemObj.Ends at hends
    rw [hstop] at hends
    refine h.off ho hx (fun e => hne ?_) hends hxends
    rw [haddr, e]
  unfold Off at hoff ⊢
  rwa [hstop, haddr]

/-- **An object that the range does not overlap is off anything that is made of the range and the
    objects it does overlap.** -/
theorem off_of_not_overlaps {start stop : Nat}
    (htidy : Tidy objs) (hsize : size.toNat < 2 ^ 32) (hT : addr.toNat + size.toNat < 2 ^ 64)
    (hstart : start = addr.toNat ∨ ∃ a ∈ objs.filter (overlaps addr size), a.addr.toNat = start)
    (hstop : stop = addr.toNat + size.toNat ∨ ∃ b ∈ objs.filter (overlaps addr size), b.stop = stop)
    {o : MemObj B} (ho : o ∈ objs) (hnot : overlaps addr size o = false) (hends : o.Ends) :
    o.stop ≤ start ∨ stop ≤ o.addr.toNat := by
  have hout : ¬ (o.addr.toNat < addr.toNat + size.toNat ∧ addr.toNat < o.stop) := by
    intro hc
    rw [(overlaps_iff hsize).2 ⟨hT, hends, hc⟩] at hnot
    exact Bool.noConfusion hnot
  have hoff : ∀ x ∈ objs.filter (overlaps addr size),
      (o.stop ≤ x.addr.toNat ∨ x.stop ≤ o.addr.toNat) ∧ x.addr.toNat < addr.toNat + size.toNat ∧
        addr.toNat < x.stop := by
    intro x hx
    obtain ⟨hx, hxo⟩ := mem_filter.1 hx
    obtain ⟨-, hxends, hx₁, hx₂⟩ := (overlaps_iff hsize).1 hxo
    have hne : o ≠ x := by
      intro e
      rw [← e, hnot] at hxo
      exact Bool.noConfusion hxo
    exact ⟨htidy.off ho hx hne hends hxends, hx₁, hx₂⟩
  have hle : o.addr.toNat ≤ o.stop := Nat.le_add_right _ _
  rcases Nat.lt_or_ge o.addr.toNat (addr.toNat + size.toNat) with hlt | hge
  · left
    rcases hstart with h | ⟨a, ha, hastart⟩
    · omega
    · have := hoff a ha
      omega
  · right
    rcases hstop with h | ⟨b, hb, hbstop⟩
    · omega
    · have := hoff b hb
      omega

end Crete.Klee
