/-
  File:      Crete/Klee/Store.lean
  Subject:   Stores at constant addresses and the handling of missing memory
             (klee/lib/Core/Executor.cpp, `executeMemoryOperation`,
             `crete_handle_memory_missing`; AddressSpace.cpp, `resolveOne`).

  A store to memory that no object has in full makes an object for the range and is done again.

  * `Stored` -- what is expected of them; `Storable`, `Placeable` -- what it takes.
  * **`handleMemoryMissing_stored_iff`** -- the missing store does what is expected exactly if the
    width can be written, no object across the range but one at its start reaches the end of the
    address space, nor the range, and the merged object is shorter than `2 ^ 32` bytes.
-/
import Crete.Klee.Merge
import Crete.Lib.Arc
import Mathlib.Data.List.MinMax

namespace Crete.Klee

open Crete.Lib List UInt64

variable {E B : Type}

/-! ## 1. Expressions that are stored -/

/-- Expressions of any width. -/
class StoreExpr (E : Type) (B : outParam Type) where
  /-- `getWidth`. -/
  width : E → Nat
  /-- `dyn_cast<ConstantExpr>`, with its value. -/
  asConst : E → Option Nat
  /-- `ZExtExpr::create(value, Expr::Int8)`. -/
  zextByte : E → B
  /-- `ExtractExpr::create(value, 8 * i, Expr::Int8)`. -/
  extractByte : E → Nat → B
  /-- `concolics.evaluate`. -/
  evaluate : E → Nat

/-- What is promised of them. LLVM's widths are less than `2 ^ 23`. -/
class LawfulStoreExpr (E : Type) (B : outParam Type) [ByteExpr B] [StoreExpr E B] : Prop where
  width_pos : ∀ e : E, 0 < StoreExpr.width e
  width_lt : ∀ e : E, StoreExpr.width e < 2 ^ 23
  evaluate_asConst : ∀ {e : E} {v}, StoreExpr.asConst e = some v → StoreExpr.evaluate e = v
  evaluate_zextByte : ∀ e : E, StoreExpr.width e = 1 →
    ByteExpr.evaluate (StoreExpr.zextByte e) = UInt8.ofNat (StoreExpr.evaluate e)
  evaluate_extractByte : ∀ (e : E) (i : Nat), 8 * i < StoreExpr.width e →
    ByteExpr.evaluate (StoreExpr.extractByte e i) = UInt8.ofNat (StoreExpr.evaluate e >>> (8 * i))

section Bytes

variable [ByteExpr B]

/-- `write8`, `write16`, `write32`, `write64`: the bytes of a number, the lowest first. -/
def numberBytes (n v : Nat) : List B :=
  (range n).map fun i => ByteExpr.const (UInt8.ofNat (v >>> (8 * i)))

theorem evaluate_numberBytes [LawfulByteExpr B] {n v i : Nat}
    (h : i < (numberBytes n v : List B).length) :
    ByteExpr.evaluate (numberBytes n v : List B)[i] = UInt8.ofNat (v >>> (8 * i)) := by
  simp [numberBytes, LawfulByteExpr.evaluate_const]

variable [StoreExpr E B]

open StoreExpr

/-- `Expr::getMinBytesForWidth`. -/
def minBytes (value : E) : Nat := (width value + 7) / 8

/-- The constants of at most 64 bits. -/
def constBytes (w v : Nat) : Except KleeStop (List B) :=
  if w = 1 ∨ w = 8 then .ok (numberBytes 1 v)
  else if w = 16 then .ok (numberBytes 2 v)
  else if w = 32 then .ok (numberBytes 4 v)
  else if w = 64 then .ok (numberBytes 8 v)
  else .error (.assertion "0 && \"Invalid write size!\"")

/-- All other expressions. -/
def exprBytes (value : E) : Except KleeStop (List B) :=
  if width value = 1 then .ok [zextByte value]
  else do
    ensure (width value = width value / 8 * 8)
      (.assertion "w == NumBytes * 8 && \"Invalid write size!\"")
    return (range (width value / 8)).map (extractByte value)

/-- The bytes that `ObjectState::write` writes, the lowest first. -/
def storeBytes (value : E) : Except KleeStop (List B) :=
  match asConst value with
  | some v => if width value ≤ 64 then constBytes (width value) v else exprBytes value
  | none => exprBytes value

/-- **The width can be written**: a bool or whole bytes, and for a constant of at most 64 bits one
    of the machine's own widths. -/
def Storable (value : E) : Prop :=
  (width value = 1 ∨ 8 ∣ width value) ∧
    (asConst value ≠ none → width value ≤ 64 → width value ∈ [1, 8, 16, 32, 64])
  deriving Decidable

variable [LawfulStoreExpr E B]

theorem minBytes_pos (value : E) : 0 < minBytes value := by
  have := LawfulStoreExpr.width_pos value
  unfold minBytes
  omega

theorem minBytes_lt (value : E) : minBytes value < 2 ^ 32 := by
  have := LawfulStoreExpr.width_lt value
  unfold minBytes
  omega

/-- The bytes are those of the value. -/
structure BytesOf (value : E) (es : List B) : Prop where
  length : es.length = minBytes value
  evaluate : ∀ i (h : i < es.length),
    ByteExpr.evaluate es[i] = UInt8.ofNat (evaluate value >>> (8 * i))

theorem constBytes_cases [LawfulByteExpr B] {value : E} {v : Nat} (hv : asConst value = some v)
    (hw : width value ≤ 64) :
    (width value ∈ [1, 8, 16, 32, 64] ∧
      ∃ es : List B, constBytes (width value) v = .ok es ∧ BytesOf value es) ∨
    (width value ∉ [1, 8, 16, 32, 64] ∧
      ∃ msg, (constBytes (width value) v : Except _ (List B)) = .error (.assertion msg)) := by
  have hbytes : ∀ n, minBytes value = n → BytesOf value (numberBytes n v : List B) := by
    intro n hn
    refine ⟨by simp [numberBytes, hn], fun i h => ?_⟩
    rw [evaluate_numberBytes, LawfulStoreExpr.evaluate_asConst hv]
  unfold minBytes at hbytes
  unfold constBytes
  split
  · next h => exact .inl ⟨by simp; omega, _, rfl, hbytes 1 (by omega)⟩
  · split
    · next h => exact .inl ⟨by simp [h], _, rfl, hbytes 2 (by omega)⟩
    · split
      · next h => exact .inl ⟨by simp [h], _, rfl, hbytes 4 (by omega)⟩
      · split
        · next h => exact .inl ⟨by simp [h], _, rfl, hbytes 8 (by omega)⟩
        · exact .inr ⟨by simp; omega, _, rfl⟩

theorem exprBytes_cases (value : E) : ((width value = 1 ∨ 8 ∣ width value) ∧
      ∃ es : List B, exprBytes value = .ok es ∧ BytesOf value es) ∨
    (¬ (width value = 1 ∨ 8 ∣ width value) ∧ ∃ msg, exprBytes value = .error (.assertion msg)) := by
  unfold exprBytes
  split
  · next h =>
      refine .inl ⟨.inl h, _, rfl, by simp [minBytes, h], fun i hi => ?_⟩
      have hzero : i = 0 := by simpa using hi
      subst hzero
      exact LawfulStoreExpr.evaluate_zextByte value h
  · next h =>
      rw [ensure_bind]
      split
      · next hw =>
          refine .inl ⟨.inr (by omega), _, rfl, ?_, fun i hi => ?_⟩
          · simp [minBytes]
            omega
          · have hlt : i < width value / 8 := by simpa using hi
            have := LawfulStoreExpr.evaluate_extractByte value i (by omega)
            simpa using this
      · next hw => exact .inr ⟨by omega, _, rfl⟩

/-- **What is written of a value.** -/
theorem storeBytes_cases [LawfulByteExpr B] (value : E) :
    (Storable value ∧ ∃ es : List B, storeBytes value = .ok es ∧ BytesOf value es) ∨
    (¬ Storable value ∧ ∃ msg, storeBytes value = .error (.assertion msg)) := by
  unfold storeBytes Storable
  split
  · next v hv =>
      split
      · next hw =>
          rcases constBytes_cases hv hw with ⟨hmem, es, h⟩ | ⟨hmem, msg, h⟩
          · refine .inl ⟨⟨?_, fun _ _ => hmem⟩, es, h⟩
            simp only [mem_cons, not_mem_nil, or_false] at hmem
            omega
          · exact .inr ⟨fun hs => hmem (hs.2 (by simp [hv]) hw), msg, h⟩
      · next hw =>
          rcases exprBytes_cases value with ⟨hw', es, h⟩ | ⟨hw', msg, h⟩
          · exact .inl ⟨⟨hw', fun _ h => absurd h hw⟩, es, h⟩
          · exact .inr ⟨fun hs => hw' hs.1, msg, h⟩
  · next hv =>
      rcases exprBytes_cases value with ⟨hw', es, h⟩ | ⟨hw', msg, h⟩
      · exact .inl ⟨⟨hw', fun h => absurd hv h⟩, es, h⟩
      · exact .inr ⟨fun hs => hw' hs.1, msg, h⟩

end Bytes

/-! ## 2. The store -/

/-- `lookup_previous`: the object with the last address that is not behind `t`. -/
def lookupPrevious (objs : List (MemObj B)) (t : UInt64) : Option (MemObj B) :=
  (objs.filter fun o => o.addr ≤ t).argmax fun o => o.addr.toNat

/-- `resolveOne`. -/
def resolveOne (objs : List (MemObj B)) (t : UInt64) : Option (MemObj B) :=
  (lookupPrevious objs t).filter fun o =>
    (o.size = 0 ∧ t = o.addr) ∨ t - o.addr < o.size.toUInt64

/-- `getBoundsCheckOffset`. -/
def inBounds (t : UInt64) (bytes : Nat) (o : MemObj B) : Bool :=
  bytes ≤ o.size.toNat ∧ (t - o.addr).toNat < o.size.toNat - bytes + 1

section Store

variable [ByteExpr B] [StoreExpr E B]

/-- `ObjectState::write`. -/
def ObjectState.write (o : ObjectState B) (offset : UInt32) (value : E) :
    Except KleeStop (ObjectState B) := do
  let es ← storeBytes value
  o.writeN offset es

/-- **`executeMemoryOperation` of a store** at a constant address. A store that no object has room
    for is a case for `crete_handle_memory_missing`. -/
def executeStore (order : PointerOrder B) (t : UInt64) (value : E) :
    Nat → List (MemObj B) → Except KleeStop (List (MemObj B))
  | 0, _ => .error .fuel
  | fuel + 1, objs =>
    match (resolveOne objs t).filter (inBounds t (minBytes value)) with
    | some o =>
      if o.os.readOnly then .error (.terminated "memory error: object read only")
      else do
        let os ← o.os.write (t - o.addr).toUInt32 value
        return bindObject objs { o with os := os }
    | none => do
        let provided ← provide order objs t (UInt64.ofNat (minBytes value))
        executeStore order t value fuel provided.1

/-- **`crete_handle_memory_missing` of a store.** -/
def handleMemoryMissing (order : PointerOrder B) (t : UInt64) (value : E) (fuel : Nat)
    (objs : List (MemObj B)) : Except KleeStop (List (MemObj B)) := do
  let provided ← provide order objs t (UInt64.ofNat (minBytes value))
  executeStore order t value fuel provided.1

/-! ## 3. What is expected of a missing store -/

/-- The addresses of an object. -/
def MemObj.arc (o : MemObj B) : Arc := ⟨o.addr, o.size.toNat⟩

/-- The addresses of a store. -/
def target (t : UInt64) (value : E) : Arc := ⟨t, minBytes value⟩

/-- The object is across the range: it has the first address of the range, or begins behind it
    in the range. -/
def Across (range : Arc) (o : MemObj B) : Prop :=
  o.arc.Covers range.addr ∨ (range.Covers o.addr ∧ o.addr ≠ range.addr)
  deriving Decidable

/-- **Objects that are pairwise disjoint**: one for each address, and none begins in another. -/
def PairwiseApart (objs : List (MemObj B)) : Prop :=
  objs.Pairwise fun o o' => o.addr ≠ o'.addr ∧ ¬ o.arc.Meets o'.arc
  deriving Decidable

/-- The objects have the byte `e` at an address. -/
def HasByte (objs : List (MemObj B)) (a : UInt64) (e : B) : Prop :=
  ∃ o ∈ objs, o.arc.Covers a ∧ o.os.read8 (a - o.addr).toNat = e

/-- **A missing store**: no object has all of the range, and no symbolic object is across it. -/
structure Missing (objs : List (MemObj B)) (t : UInt64) (value : E) : Prop where
  apart : PairwiseApart objs
  missing : ∀ o ∈ objs, ¬ o.arc.Contains (target t value)
  concrete : ∀ o ∈ objs, Across (target t value) o → o.symbolic = false

/-- **What is expected of it.** -/
structure Stored (objs : List (MemObj B)) (t : UInt64) (value : E) (objs' : List (MemObj B)) :
    Prop where
  apart : PairwiseApart objs'
  one : ∃ o ∈ objs', o.arc.Contains (target t value) ∧
    ∀ o' ∈ objs', o'.arc.Contains (target t value) → o' = o
  bytes : ∀ i < minBytes value, ∃ e, HasByte objs' (t + UInt64.ofNat i) e ∧
    ByteExpr.evaluate e = UInt8.ofNat (StoreExpr.evaluate value >>> (8 * i))
  kept : ∀ a e, ¬ (target t value).Covers a → HasByte objs a e → HasByte objs' a e

/-- **What it takes**: nothing but an object at the very start reaches the end of the address
    space, and all that becomes one object is shorter than `2 ^ 32` bytes. -/
structure Placeable (objs : List (MemObj B)) (t : UInt64) (value : E) : Prop where
  below : ∀ o ∈ objs, Across (target t value) o →
    o.addr = t ∨ (t.toNat + minBytes value < 2 ^ 64 ∧ o.Ends)
  short : ∀ o ∈ objs, Across (target t value) o → ∀ o' ∈ objs, Across (target t value) o' →
    max (t.toNat + minBytes value) o'.stop < min t.toNat o.addr.toNat + 2 ^ 32

end Store

/-! ## 4. The objects across the range -/

section Arcs

variable {objs : List (MemObj B)} {o o' : MemObj B}

theorem MemObj.covers_arc {a : UInt64} : o.arc.Covers a ↔
    (o.addr.toNat ≤ a.toNat ∧ a.toNat < o.stop) ∨
      (a.toNat < o.addr.toNat ∧ a.toNat + 2 ^ 64 < o.stop) :=
  Arc.covers_iff

theorem MemObj.meets_arc :
    o.arc.Meets o'.arc ↔ o.arc.Covers o'.addr ∨ o'.arc.Covers o.addr := Iff.rfl

theorem PairwiseApart.forall (h : PairwiseApart objs) (ho : o ∈ objs) (ho' : o' ∈ objs)
    (hne : o ≠ o') : o.addr ≠ o'.addr ∧ ¬ o.arc.Meets o'.arc := by
  have : Std.Symm fun o o' : MemObj B => o.addr ≠ o'.addr ∧ ¬ o.arc.Meets o'.arc :=
    ⟨fun _ _ h => ⟨h.1.symm, fun hm => h.2 hm.symm⟩⟩
  exact Pairwise.forall h ho ho' hne

theorem PairwiseApart.tidy (h : PairwiseApart objs) : Tidy objs := by
  refine h.imp fun {o o'} hoo => ⟨hoo.1, fun hends hends' => ?_⟩
  have hmeets := hoo.2
  rw [MemObj.meets_arc, MemObj.covers_arc, MemObj.covers_arc] at hmeets
  unfold Off
  omega

end Arcs

section Across

variable [StoreExpr E B] {objs : List (MemObj B)} {t : UInt64} {value : E} {o : MemObj B}

theorem covers_target {a : UInt64} : (target t value).Covers a ↔
    (t.toNat ≤ a.toNat ∧ a.toNat < t.toNat + minBytes value) ∨
      (a.toNat < t.toNat ∧ a.toNat + 2 ^ 64 < t.toNat + minBytes value) :=
  Arc.covers_iff

theorem across_target : Across (target t value) o ↔
    o.arc.Covers t ∨ ((target t value).Covers o.addr ∧ o.addr ≠ t) := Iff.rfl

/-- No object has all of the range, as numbers. -/
theorem Missing.not_covers (h : Missing objs t value) (ho : o ∈ objs) :
    ¬ (o.addr.toNat ≤ t.toNat ∧ t.toNat + minBytes value ≤ o.stop) :=
  fun hc => h.missing o ho (Arc.contains_of_le hc.1 hc.2)

/-- An object that reaches the end of the address space begins behind a range that does not. -/
theorem Missing.lt_addr (h : Missing objs t value) (ho : o ∈ objs)
    (hT : t.toNat + minBytes value < 2 ^ 64) (hends : ¬ o.Ends) : t.toNat < o.addr.toNat := by
  have := h.not_covers ho
  unfold MemObj.Ends at hends
  omega

variable [ByteExpr B] [LawfulStoreExpr E B]

theorem toNat_minBytes (value : E) : (UInt64.ofNat (minBytes value)).toNat = minBytes value :=
  toNat_ofNat_of_lt' (Nat.lt_trans (minBytes_lt value) (by decide))

theorem overlaps_target : overlaps t (UInt64.ofNat (minBytes value)) o = true ↔
    t.toNat + minBytes value < 2 ^ 64 ∧ o.Ends ∧
      o.addr.toNat < t.toNat + minBytes value ∧ t.toNat < o.stop := by
  have hsize : (UInt64.ofNat (minBytes value)).toNat < 2 ^ 32 := by
    rw [toNat_minBytes]
    exact minBytes_lt value
  rw [overlaps_iff hsize, toNat_minBytes]

/-- The test of the source finds objects across the range, ... -/
theorem across_of_overlaps (h : overlaps t (UInt64.ofNat (minBytes value)) o = true) :
    Across (target t value) o := by
  obtain ⟨hT, hends, h₁, h₂⟩ := overlaps_target.1 h
  rw [across_target, MemObj.covers_arc, covers_target, ne_eq, ← UInt64.toNat_inj]
  omega

/-- ... and all of them that end, if the range does. -/
theorem overlaps_of_across (hT : t.toNat + minBytes value < 2 ^ 64) (hends : o.Ends)
    (h : Across (target t value) o) : overlaps t (UInt64.ofNat (minBytes value)) o = true := by
  have hle : o.addr.toNat ≤ o.stop := Nat.le_add_right _ _
  rw [across_target, MemObj.covers_arc, covers_target, ne_eq, ← UInt64.toNat_inj] at h
  refine overlaps_target.2 ⟨hT, hends, ?_⟩
  have hpos := minBytes_pos value
  unfold MemObj.Ends at hends
  omega

/-- The objects across the range become one of less than `2 ^ 32` bytes. -/
theorem Placeable.narrow_iff (h : Missing objs t value)
    (hbelow : ∀ o ∈ objs, Across (target t value) o →
      o.addr = t ∨ (t.toNat + minBytes value < 2 ^ 64 ∧ o.Ends)) :
    Narrow objs t (UInt64.ofNat (minBytes value)) ↔ Placeable objs t value := by
  unfold Narrow
  rw [toNat_minBytes]
  constructor
  · intro hn
    refine ⟨hbelow, fun o ho hac o' ho' hac' => ?_⟩
    by_cases hT : t.toNat + minBytes value < 2 ^ 64
    · have hover : ∀ x ∈ objs, Across (target t value) x →
          overlaps t (UInt64.ofNat (minBytes value)) x = true := by
        intro x hx hxa
        by_cases hends : x.Ends
        · exact overlaps_of_across hT hends hxa
        · have hlt := h.lt_addr hx hT hends
          rcases hbelow x hx hxa with e | he
          · rw [e] at hlt
            exact absurd hlt (Nat.lt_irrefl _)
          · exact absurd he.2 hends
      exact hn o ho (hover o ho hac) o' ho' (hover o' ho' hac')
    · -- both begin with the range
      have haddr : ∀ x ∈ objs, Across (target t value) x → x.addr = t := by
        intro x hx hxa
        rcases hbelow x hx hxa with e | he
        · exact e
        · exact absurd he.1 hT
      have hlt := minBytes_lt value
      have hsize := o'.size.toNat_lt
      unfold MemObj.stop
      rw [haddr o ho hac, haddr o' ho' hac']
      omega
  · intro hp o ho hov o' ho' hov'
    exact hp.short o ho (across_of_overlaps hov) o' ho' (across_of_overlaps hov')

end Across

/-! ## 5. The store done again -/

section Redo

variable {rest : List (MemObj B)} {new : MemObj B} {t : UInt64}

theorem lookupPrevious_cons (haddr : new.addr ≤ t)
    (hrest : ∀ o ∈ rest, o.addr ≤ t → o.addr < new.addr) :
    lookupPrevious (new :: rest) t = some new := by
  have hmem : new ∈ (new :: rest).filter fun o => o.addr ≤ t :=
    mem_filter.2 ⟨.head _, decide_eq_true haddr⟩
  unfold lookupPrevious
  cases hm : ((new :: rest).filter fun o => o.addr ≤ t).argmax fun o => o.addr.toNat with
  | none =>
    rw [argmax_eq_none.1 hm] at hmem
    cases hmem
  | some m =>
    have hle := le_of_mem_argmax hmem hm
    obtain ⟨hm₁, hm₂⟩ := mem_filter.1 (argmax_mem hm)
    rcases mem_cons.1 hm₁ with e | hm₁
    · rw [e]
    · have := lt_iff_toNat_lt.1 (hrest m hm₁ (of_decide_eq_true hm₂))
      omega

variable [StoreExpr E B] {value : E}

/-- The object of the range is found, and has room. -/
theorem resolve_cons (haddr : new.addr ≤ t) (hrest : ∀ o ∈ rest, o.addr ≤ t → o.addr < new.addr)
    (hroom : (t - new.addr).toNat + minBytes value ≤ new.size.toNat) (hpos : 0 < minBytes value) :
    (resolveOne (new :: rest) t).filter (inBounds t (minBytes value)) = some new := by
  have hlt : t - new.addr < new.size.toUInt64 := by
    rw [lt_iff_toNat_lt, UInt32.toNat_toUInt64]
    omega
  have hin : inBounds t (minBytes value) new = true := by
    refine decide_eq_true ⟨by omega, by omega⟩
  rw [resolveOne, lookupPrevious_cons haddr hrest, Option.filter_some,
    if_pos (decide_eq_true (.inr hlt)), Option.filter_some, if_pos hin]

variable [ByteExpr B] [LawfulByteExpr B] [LawfulStoreExpr E B]

/-- **The store, with an object that has the range**: the value is written into it. -/
theorem executeStore_cons (order : PointerOrder B) (fuel : Nat) (haddr : new.addr ≤ t)
    (hrest : ∀ o ∈ rest, o.addr ≠ new.addr ∧ (o.addr ≤ t → o.addr < new.addr))
    (hroom : (t - new.addr).toNat + minBytes value ≤ new.size.toNat)
    (hwrite : new.os.readOnly = false) :
    (Storable value ∧ ∃ es os, BytesOf value es ∧ new.os.Wrote (t - new.addr).toNat es os ∧
      executeStore order t value (fuel + 1) (new :: rest) = .ok ({ new with os := os } :: rest)) ∨
    (¬ Storable value ∧ ∃ e, executeStore order t value (fuel + 1) (new :: rest) = .error e) := by
  have hfound := resolve_cons haddr (fun o ho => (hrest o ho).2) hroom (minBytes_pos value)
  have hstep : executeStore order t value (fuel + 1) (new :: rest) =
      (new.os.write (t - new.addr).toUInt32 value).map fun os =>
        bindObject (new :: rest) { new with os := os } := by
    rw [executeStore, hfound]
    dsimp only
    rw [hwrite]
    cases new.os.write (t - new.addr).toUInt32 value <;> rfl
  have hbind : ∀ os, bindObject (new :: rest) { new with os := os } =
      { new with os := os } :: rest := by
    intro os
    simpa [bindObject] using fun o ho => (hrest o ho).1
  have hoffset : (t - new.addr).toUInt32.toNat = (t - new.addr).toNat := by
    have := new.size.toNat_lt
    rw [toNat_toUInt32]
    exact Nat.mod_eq_of_lt (by have := minBytes_pos value; omega)
  rw [hstep, ObjectState.write]
  rcases storeBytes_cases value with ⟨hs, es, hes, hbytes⟩ | ⟨hs, msg, hes⟩
  · obtain ⟨os, hos, hw⟩ : ∃ os, new.os.writeN (t - new.addr).toUInt32 es = .ok os ∧
        new.os.Wrote (t - new.addr).toUInt32.toNat es os := by
      refine ObjectState.writeN_ok ?_
      rw [hoffset, hbytes.length]
      exact hroom
    rw [hoffset] at hw
    refine .inl ⟨hs, es, os, hbytes, hw, ?_⟩
    rw [hes]
    change (new.os.writeN (t - new.addr).toUInt32 es).map _ = _
    rw [hos, ← hbind os]
    rfl
  · refine .inr ⟨hs, .assertion msg, ?_⟩
    rw [hes]
    rfl

end Redo

/-! ## 6. The range in one object -/

section Provided

variable [ByteExpr B] [StoreExpr E B]
variable {objs : List (MemObj B)} {t : UInt64} {value : E} {new o : MemObj B}

/-- The objects across the range, in the test of the source. -/
def crossed (objs : List (MemObj B)) (t : UInt64) (value : E) : List (MemObj B) :=
  objs.filter (overlaps t (UInt64.ofNat (minBytes value)))

/-- The objects that stay beside the new one. -/
def others (objs : List (MemObj B)) (t : UInt64) (value : E) (new : MemObj B) : List (MemObj B) :=
  (objs.filter fun o => !overlaps t (UInt64.ofNat (minBytes value)) o).filter
    fun o => o.addr ≠ new.addr

omit [ByteExpr B] in
theorem mem_others : o ∈ others objs t value new ↔
    o ∈ objs ∧ overlaps t (UInt64.ofNat (minBytes value)) o = false ∧ o.addr ≠ new.addr := by
  rw [others, mem_filter, mem_filter]
  simp [and_assoc]

omit [ByteExpr B] in
/-- What stays is apart from what becomes part of the new object. -/
theorem Missing.not_meets {a : MemObj B} (hm : Missing objs t value) (ha : a ∈ crossed objs t value)
    (ho : o ∈ others objs t value new) : ¬ a.arc.Meets o.arc := by
  obtain ⟨ha, hover⟩ := mem_filter.1 ha
  obtain ⟨ho, hnot, -⟩ := mem_others.1 ho
  refine (hm.apart.forall ha ho ?_).2
  intro e
  rw [e, hnot] at hover
  exact Bool.noConfusion hover

variable (hm : Missing objs t value)
  (hj : Joined (crossed objs t value) t.toNat (minBytes value) new)

include hj

theorem Joined.contains : new.arc.Contains (target t value) :=
  Arc.contains_of_le hj.addr_le.1 hj.le_stop.1

theorem Joined.room : (t - new.addr).toNat + minBytes value ≤ new.size.toNat := by
  have h₁ := hj.addr_le.1
  have h₂ := hj.le_stop.1
  unfold MemObj.stop at h₂
  rw [UInt64.toNat_sub_of_le _ _ (le_iff_toNat_le.2 h₁)]
  omega

include hm

/-- An object that has the address of the new one and is not part of it begins with the range. -/
theorem Joined.addr_eq_of_not_overlaps (ho : o ∈ objs)
    (hnot : overlaps t (UInt64.ofNat (minBytes value)) o = false) (haddr : o.addr = new.addr) :
    o.addr = t := by
  rcases hj.addr_eq with e | ⟨a, ha, e⟩
  · rw [haddr]
    exact UInt64.toNat_inj.1 e
  · obtain ⟨ha, hover⟩ := mem_filter.1 ha
    have hne : o ≠ a := by
      intro h
      rw [h, hover] at hnot
      exact Bool.noConfusion hnot
    exact absurd (haddr.trans e.symm) (hm.apart.forall ho ha hne).1

variable [LawfulStoreExpr E B]

/-- No object that stays begins between the new object and the range. -/
theorem Joined.lt_addr (ho : o ∈ others objs t value new) (hle : o.addr ≤ t) :
    o.addr < new.addr := by
  obtain ⟨ho, hnot, hne⟩ := mem_others.1 ho
  rw [le_iff_toNat_le] at hle
  rw [lt_iff_toNat_lt]
  by_contra hge
  have hlt : new.addr.toNat < o.addr.toNat :=
    Nat.lt_of_le_of_ne (Nat.not_lt.1 hge) fun e => hne (UInt64.toNat_inj.1 e.symm)
  -- the new object begins before the range, with an object across it
  rcases hj.addr_eq with e | ⟨a, ha, e⟩
  · omega
  · have hT := (overlaps_target.1 (mem_filter.1 ha).2).1
    by_cases hends : o.Ends
    · have hsize : (UInt64.ofNat (minBytes value)).toNat < 2 ^ 32 := by
        rw [toNat_minBytes]
        exact minBytes_lt value
      have hoff := off_of_not_overlaps hm.apart.tidy hsize (by rwa [toNat_minBytes])
        (.inr ⟨a, ha, by rw [e]⟩) (by rw [toNat_minBytes]; exact hj.stop_eq) ho hnot hends
      have hpos := minBytes_pos value
      have hstop := hj.le_stop.1
      have hos : o.addr.toNat ≤ o.stop := Nat.le_add_right _ _
      omega
    · have := hm.lt_addr ho hT hends
      omega

omit hm in
/-- The new object has no address but those of the range and of the objects across it. -/
theorem Joined.covers {x : UInt64} (hx : new.arc.Covers x) :
    (target t value).Covers x ∨ ∃ a ∈ crossed objs t value, a.arc.Covers x := by
  have hT : ∀ a ∈ crossed objs t value, t.toNat + minBytes value < 2 ^ 64 ∧ a.stop < 2 ^ 64 ∧
      a.addr.toNat < t.toNat + minBytes value ∧ t.toNat < a.stop :=
    fun a ha => overlaps_target.1 (mem_filter.1 ha).2
  by_contra hnone
  obtain ⟨hnt, hna⟩ := not_or.1 hnone
  have hout : ∀ a ∈ crossed objs t value, ¬ a.arc.Covers x := fun a ha h => hna ⟨a, ha, h⟩
  simp only [MemObj.covers_arc] at hx hout
  rw [covers_target] at hnt
  -- before the range with its first object, behind it with its last
  rcases hj.addr_eq with e | ⟨a, ha, e⟩
  · rcases hj.stop_eq with e' | ⟨b, hb, e'⟩
    · omega
    · have := hT b hb
      have := hout b hb
      omega
  · have ha₁ := hT a ha
    have ha₂ := hout a ha
    rw [e] at ha₂
    rcases hj.stop_eq with e' | ⟨b, hb, e'⟩
    · omega
    · have := hT b hb
      have := hout b hb
      omega

/-- What stays is not across the range. -/
theorem Joined.not_across (hbelow : ∀ o ∈ objs, Across (target t value) o →
      o.addr = t ∨ (t.toNat + minBytes value < 2 ^ 64 ∧ o.Ends))
    (hmem : o ∈ others objs t value new) : ¬ Across (target t value) o := by
  intro hac
  obtain ⟨ho, hnot, hne⟩ := mem_others.1 hmem
  have hends : t.toNat + minBytes value < 2 ^ 64 → ¬ o.Ends := by
    intro hT hends
    rw [overlaps_of_across hT hends hac] at hnot
    exact Bool.noConfusion hnot
  rcases hbelow o ho hac with e | ⟨hT, he⟩
  · by_cases hT : t.toNat + minBytes value < 2 ^ 64
    · have := hm.lt_addr ho hT (hends hT)
      rw [e] at this
      exact Nat.lt_irrefl _ this
    · rcases hj.addr_eq with e' | ⟨a, ha, -⟩
      · exact hne (e.trans (UInt64.toNat_inj.1 e'.symm))
      · exact hT (overlaps_target.1 (mem_filter.1 ha).2).1
  · exact hends hT he

/-- **The new object is apart from the others** exactly if nothing across the range but an object
    at its start reaches the end of the address space. -/
theorem Joined.apart_iff : (∀ o ∈ others objs t value new, ¬ new.arc.Meets o.arc) ↔
    ∀ o ∈ objs, Across (target t value) o →
      o.addr = t ∨ (t.toNat + minBytes value < 2 ^ 64 ∧ o.Ends) := by
  constructor
  · intro hapart o ho hac
    by_contra hbad
    obtain ⟨hne, hend⟩ := not_or.1 hbad
    have hnot : overlaps t (UInt64.ofNat (minBytes value)) o = false := by
      rw [Bool.eq_false_iff]
      intro hover
      obtain ⟨hT, hends, -⟩ := overlaps_target.1 hover
      exact hend ⟨hT, hends⟩
    have hmem : o ∈ others objs t value new :=
      mem_others.2 ⟨ho, hnot, fun e => hne (hj.addr_eq_of_not_overlaps hm ho hnot e)⟩
    rcases hac with h | ⟨h, -⟩
    · have hfirst := hj.contains _ (Arc.covers_addr (minBytes_pos value))
      exact hapart o hmem (Arc.meets_of_covers hfirst h)
    · exact hapart o hmem (.inl (hj.contains _ h))
  · intro hbelow o hmem hmeets
    have hnac := hj.not_across hm hbelow hmem
    have hcross : ∀ a ∈ crossed objs t value, ¬ a.arc.Meets o.arc :=
      fun a ha => hm.not_meets ha hmem
    rcases hmeets with h | h
    · rcases hj.covers h with hT | ⟨a, ha, hac⟩
      · have haddr : o.addr = t := by
          by_contra hne
          exact hnac (.inr ⟨hT, hne⟩)
        rcases hj.addr_eq with e | ⟨a, ha, e⟩
        · exact (mem_others.1 hmem).2.2 (haddr.trans (UInt64.toNat_inj.1 e.symm))
        · -- an object across the range begins before it, and has its start
          refine hcross a ha (.inl ?_)
          change a.arc.Covers o.addr
          rw [haddr, MemObj.covers_arc, e]
          exact .inl ⟨hj.addr_le.1, (overlaps_target.1 (mem_filter.1 ha).2).2.2.2⟩
      · exact hcross a ha (.inl hac)
    · rcases hj.addr_eq with e | ⟨a, ha, e⟩
      · refine hnac (.inl ?_)
        rwa [← UInt64.toNat_inj.1 e]
      · refine hcross a ha (.inr ?_)
        change o.arc.Covers a.addr
        rwa [e]

/-- **A byte outside the range keeps its expression**: it is in an object that stays, or in one
    that has become part of the new object. -/
theorem Joined.kept_byte {es : List B} {os : ObjectState B}
    (hlen : es.length = minBytes value) (hw : new.os.Wrote (t - new.addr).toNat es os)
    {a : UInt64} {e : B} (hout : ¬ (target t value).Covers a) (hbyte : HasByte objs a e) :
    HasByte ({ new with os := os } :: others objs t value new) a e := by
  obtain ⟨o, ho, hcov, rfl⟩ := hbyte
  have hnewaddr := hj.addr_le.1
  have htsub : (t - new.addr).toNat = t.toNat - new.addr.toNat :=
    UInt64.toNat_sub_of_le _ _ (le_iff_toNat_le.2 hnewaddr)
  by_cases hover : overlaps t (UInt64.ofNat (minBytes value)) o = true
  · have hcross : o ∈ crossed objs t value := mem_filter.2 ⟨ho, hover⟩
    obtain ⟨hT, hends, -, -⟩ := overlaps_target.1 hover
    have hle := hj.addr_le.2 o hcross
    have hstop := hj.le_stop.2 o hcross
    rw [MemObj.covers_arc] at hcov
    have hnum : o.stop = o.addr.toNat + o.size.toNat := rfl
    have hnew : new.stop = new.addr.toNat + new.size.toNat := rfl
    unfold MemObj.Ends at hends
    have hosub : (a - o.addr).toNat = a.toNat - o.addr.toNat :=
      UInt64.toNat_sub_of_le _ _ (le_iff_toNat_le.2 (by omega))
    have hasub : (a - new.addr).toNat = a.toNat - new.addr.toNat :=
      UInt64.toNat_sub_of_le _ _ (le_iff_toNat_le.2 (by omega))
    refine ⟨_, .head _, ?_, ?_⟩
    · change (a - new.addr).toNat < os.size.toNat
      rw [hw.size, hasub]
      change _ < new.size.toNat
      omega
    · change os.read8 (a - new.addr).toNat = _
      rw [covers_target] at hout
      rw [hasub, hw.outside _ (by rw [htsub, hlen]; omega), hosub, ← hj.kept o hcross _ (by omega)]
      congr 1
      omega
  · rw [Bool.not_eq_true] at hover
    by_cases haddr : o.addr = new.addr
    · -- an object at the start of the range that is replaced lies in the range
      refine absurd ?_ hout
      have hshort := hm.not_covers ho
      rw [MemObj.covers_arc] at hcov
      rw [hj.addr_eq_of_not_overlaps hm ho hover haddr] at hcov hshort
      rw [covers_target]
      omega
    · exact ⟨o, mem_cons_of_mem _ (mem_others.2 ⟨ho, hover, haddr⟩), hcov, rfl⟩

/-- **The store into the new object is as expected** exactly if the object is apart from the
    others. -/
theorem Joined.stored_iff {es : List B} {os : ObjectState B} (hes : BytesOf value es)
    (hw : new.os.Wrote (t - new.addr).toNat es os) :
    Stored objs t value ({ new with os := os } :: others objs t value new) ↔
      ∀ o ∈ others objs t value new, ¬ new.arc.Meets o.arc := by
  have harc : (MemObj.mk new.addr os new.symbolic).arc = new.arc := by
    unfold MemObj.arc MemObj.size
    rw [hw.size]
  constructor
  · intro hs o ho
    rw [← harc]
    exact ((pairwise_cons.1 hs.apart).1 o ho).2
  · intro hapart
    constructor
    case apart =>
      refine pairwise_cons.2 ⟨fun o ho => ?_, ?_⟩
      · rw [harc]
        exact ⟨(mem_others.1 ho).2.2.symm, hapart o ho⟩
      · exact Pairwise.filter _ (Pairwise.filter _ hm.apart)
    case one =>
      refine ⟨_, .head _, by rw [harc]; exact hj.contains, fun o ho hc => ?_⟩
      rcases mem_cons.1 ho with e | ho
      · exact e
      · -- the other one would have the start of the range too
        have hstart : (target t value).Covers t := Arc.covers_addr (minBytes_pos value)
        exact absurd (Arc.meets_of_covers (hj.contains t hstart) (hc t hstart)) (hapart o ho)
    case bytes =>
      intro i hi
      have hlt : i < es.length := hes.length.symm ▸ hi
      have hsize := new.size.toNat_lt
      have hroom := hj.room
      have hi' : (UInt64.ofNat i).toNat = i :=
        toNat_ofNat_of_lt' (Nat.lt_trans (by omega : i < 2 ^ 32) (by decide))
      refine ⟨es[i], ⟨_, .head _, ?_, ?_⟩, hes.evaluate i hlt⟩
      · rw [harc]
        refine hj.contains _ ?_
        change (t + UInt64.ofNat i - t).toNat < minBytes value
        rw [add_sub_cancel_left, hi']
        exact hi
      · change os.read8 (t + UInt64.ofNat i - new.addr).toNat = _
        rw [← hw.inside i hlt]
        rw [add_sub_right_comm, UInt64.toNat_add, hi', Nat.mod_eq_of_lt (by omega)]
    case kept => exact fun a e hout hbyte => hj.kept_byte hm hes.length hw hout hbyte

end Provided

/-! ## 7. Missing stores -/

section Missing

variable [ByteExpr B] [StoreExpr E B] [LawfulStoreExpr E B]
variable {objs : List (MemObj B)} {t : UInt64} {value : E}

theorem Missing.provide_error (hm : Missing objs t value) (order : PointerOrder B)
    (hn : ¬ Narrow objs t (UInt64.ofNat (minBytes value))) :
    ∃ e, Klee.provide order objs t (UInt64.ofNat (minBytes value)) = .error e :=
  provide_wide hm.apart.tidy (by rw [toNat_minBytes]; exact minBytes_lt value)
    (fun o ho _ => by rw [toNat_minBytes]; exact hm.not_covers ho)
    (fun o ho hover => hm.concrete o ho (across_of_overlaps hover)) hn

variable [LawfulByteExpr B]

/-- The object for the range of a missing store. -/
theorem Missing.provide (hm : Missing objs t value) (order : PointerOrder B)
    (hn : Narrow objs t (UInt64.ofNat (minBytes value))) :
    ∃ new, Joined (crossed objs t value) t.toNat (minBytes value) new ∧
      Klee.provide order objs t (UInt64.ofNat (minBytes value)) =
        .ok (new :: others objs t value new, new) := by
  have hsize : (UInt64.ofNat (minBytes value)).toNat < 2 ^ 32 := by
    rw [toNat_minBytes]
    exact minBytes_lt value
  obtain ⟨new, hok, hj⟩ := provide_joined hm.apart.tidy hsize
    (fun o ho _ => by rw [toNat_minBytes]; exact hm.not_covers ho)
    (fun o ho hover => hm.concrete o ho (across_of_overlaps hover)) order hn
  rw [toNat_minBytes] at hj
  exact ⟨new, hj, hok⟩

/-- **The missing store, with an object for its range.** -/
theorem Missing.handled (hm : Missing objs t value) (order : PointerOrder B)
    (hn : Narrow objs t (UInt64.ofNat (minBytes value))) (fuel : Nat) :
    (Storable value ∧ ∃ objs', handleMemoryMissing order t value (fuel + 1) objs = .ok objs' ∧
      (Stored objs t value objs' ↔ Placeable objs t value)) ∨
    (¬ Storable value ∧ ∃ e, handleMemoryMissing order t value (fuel + 1) objs = .error e) := by
  obtain ⟨new, hj, hprovide⟩ := hm.provide order hn
  have hstep : handleMemoryMissing order t value (fuel + 1) objs =
      executeStore order t value (fuel + 1) (new :: others objs t value new) := by
    rw [handleMemoryMissing, hprovide]
    rfl
  rw [hstep]
  rcases executeStore_cons order fuel (le_iff_toNat_le.2 hj.addr_le.1)
    (fun o ho => ⟨(mem_others.1 ho).2.2, hj.lt_addr hm ho⟩) hj.room hj.plain.2 with
    ⟨hs, es, os, hes, hw, hok⟩ | hbad
  · refine .inl ⟨hs, _, hok, ?_⟩
    rw [hj.stored_iff hm hes hw, hj.apart_iff hm]
    exact ⟨fun hbelow => (Placeable.narrow_iff hm hbelow).1 hn, Placeable.below⟩
  · exact .inr hbad

/-- **A store to missing memory** leaves the objects disjoint, with one that has the range and the
    stored value in it and every other byte as it was, exactly if its width can be written and its
    range placed. -/
theorem handleMemoryMissing_stored_iff (order : PointerOrder B) (hm : Missing objs t value) :
    (∃ fuel objs', handleMemoryMissing order t value fuel objs = .ok objs' ∧
      Stored objs t value objs') ↔ Storable value ∧ Placeable objs t value := by
  constructor
  · intro h
    obtain ⟨fuel, objs', hok, hs⟩ := h
    have hn : Narrow objs t (UInt64.ofNat (minBytes value)) := by
      by_contra hn
      obtain ⟨e, he⟩ := hm.provide_error order hn
      rw [handleMemoryMissing, he] at hok
      cases hok
    cases fuel with
    | zero =>
      obtain ⟨new, hj, hprovide⟩ := hm.provide order hn
      rw [handleMemoryMissing, hprovide] at hok
      cases hok
    | succ fuel =>
      rcases hm.handled order hn fuel with ⟨hst, objs'', hok', hiff⟩ | ⟨-, e, he⟩
      · rw [hok] at hok'
        cases hok'
        exact ⟨hst, hiff.1 hs⟩
      · rw [hok] at he
        cases he
  · intro h
    obtain ⟨hst, hp⟩ := h
    have hn := (Placeable.narrow_iff hm hp.below).2 hp
    rcases hm.handled order hn 0 with ⟨-, objs', hok, hiff⟩ | ⟨hns, -⟩
    · exact ⟨1, objs', hok, hiff.2 hp⟩
    · exact absurd hst hns

end Missing

/-! ## 8. Two stores -/

/-- The least expressions of a byte: constants, and inputs with their values. -/
inductive PlainByte where
  | const (v : UInt8)
  | input (v : UInt8)

instance : ByteExpr PlainByte where
  const := .const
  asConst
    | .const v => some v
    | .input _ => none
  evaluate
    | .const v => v
    | .input v => v

instance : LawfulByteExpr PlainByte where
  eq_const := by
    intro e v h
    cases e with
    | const w => exact congrArg PlainByte.const (Option.some.inj h)
    | input w => cases h
  evaluate_const _ := rfl

/-- Constants of some width. -/
structure PlainConst where
  width : Nat
  value : Nat
  width_pos : 0 < width
  width_lt : width < 2 ^ 23

instance : StoreExpr PlainConst PlainByte where
  width := PlainConst.width
  asConst e := some e.value
  zextByte e := .const (UInt8.ofNat e.value)
  extractByte e i := .const (UInt8.ofNat (e.value >>> (8 * i)))
  evaluate := PlainConst.value

instance : LawfulStoreExpr PlainConst PlainByte where
  width_pos := PlainConst.width_pos
  width_lt := PlainConst.width_lt
  evaluate_asConst h := Option.some.inj h
  evaluate_zextByte _ _ := rfl
  evaluate_extractByte _ _ _ := rfl

/-- Objects in the order of the list. -/
def listOrder : PointerOrder PlainByte := ⟨id, fun _ => .refl _⟩

/-- An object of zeros. -/
def zeros (addr : UInt64) (size : UInt32) : MemObj PlainByte := ⟨addr, .zeroed size, false⟩

/-- Four bytes. -/
def word : PlainConst := ⟨32, 0x11223344, by decide, by decide⟩

/-- A word across two objects, and the gap between them. -/
theorem handleMemoryMissing_stored_word : Missing [zeros 100 4, zeros 106 4] 103 word ∧
      ∃ fuel objs',
        handleMemoryMissing listOrder 103 word fuel [zeros 100 4, zeros 106 4] = .ok objs' ∧
          Stored [zeros 100 4, zeros 106 4] 103 word objs' := by
  have hm : Missing [zeros 100 4, zeros 106 4] 103 word := by
    refine ⟨by decide, fun o ho => ?_, fun o ho _ => ?_⟩
    · rw [Arc.contains_iff (Nat.lt_trans o.size.toNat_lt (by decide)) (by decide)]
      revert o
      decide
    · revert o
      decide
  refine ⟨hm, (handleMemoryMissing_stored_iff listOrder hm).2 ⟨by decide, ?_, ?_⟩⟩
  · intro o ho _
    revert o
    decide
  · intro o ho _ o' ho' _
    revert o o'
    decide

/-- **A word just before the last object of the address space**: `mo->address + mo->size` is 0,
    so the object is not seen, and the new one is allocated over its start. -/
theorem handleMemoryMissing_overlaps_last :
    Missing [zeros 0xfffffffffffffff8 8] 0xfffffffffffffff6 word ∧
      (∀ fuel, (handleMemoryMissing listOrder 0xfffffffffffffff6 word (fuel + 1)
          [zeros 0xfffffffffffffff8 8]).map (List.map MemObj.arc) =
        .ok [⟨0xfffffffffffffff6, 4⟩, ⟨0xfffffffffffffff8, 8⟩]) ∧
      (Arc.mk 0xfffffffffffffff6 4).Meets ⟨0xfffffffffffffff8, 8⟩ := by
  refine ⟨⟨by decide, fun o ho => ?_, fun o ho _ => ?_⟩, fun fuel => rfl, by decide⟩
  · rw [Arc.contains_iff (Nat.lt_trans o.size.toNat_lt (by decide)) (by decide)]
    revert o
    decide
  · revert o
    decide

end Crete.Klee
