/-
  File:      Crete/Klee/Object.lean
  Subject:   Memory objects of the replay and their bytes (klee/lib/Core/Memory.cpp,
             `ObjectState`).

  A byte of an object is an expression. It is kept in one of three places: the concrete store, the
  cache of symbolic bytes, or the list of updates, and two masks say where.

  * `ObjectState` -- the three places and the masks, with what the masks promise.
  * `read8_set8_self`, `read8_set8_of_ne` -- a byte is read back as the expression that was written,
    and the other bytes keep theirs; `writeN_ok` -- the same of a row of bytes.
-/
import Crete.Lib.Except
import Crete.Lib.Memory

namespace Crete.Klee

open Crete.Lib

/-! ## 1. Expressions of a byte -/

/-- Expressions of 8 bits: constants among them, and their values under the concrete inputs. -/
class ByteExpr (B : Type) where
  /-- `ConstantExpr::create(v, Expr::Int8)`. -/
  const : UInt8 → B
  /-- `dyn_cast<ConstantExpr>`. -/
  asConst : B → Option UInt8
  /-- `concolics.evaluate`. -/
  evaluate : B → UInt8

/-- What is promised of them. -/
class LawfulByteExpr (B : Type) [ByteExpr B] : Prop where
  eq_const : ∀ {e : B} {v}, ByteExpr.asConst e = some v → e = ByteExpr.const v
  evaluate_const : ∀ v, ByteExpr.evaluate (ByteExpr.const v : B) = v

/-! ## 2. Objects -/

/-- Where the bytes of an object are. A mask that is not there is full; a byte is flushed where
    its bit of `flushMask` is off. `updates i` is what `ReadExpr::create` makes of the list of
    updates at offset `i`. -/
structure ObjectData (B : Type) where
  concreteStore : Nat → UInt8
  concreteMask : Option (Nat → Bool)
  flushMask : Option (Nat → Bool)
  knownSymbolics : Option (Nat → Option B)
  updates : Nat → B

namespace ObjectData

variable {B : Type} (d : ObjectData B)

def isByteConcrete (i : Nat) : Bool := d.concreteMask.elim true fun m => m i

def isByteFlushed (i : Nat) : Bool := d.flushMask.elim false fun m => !m i

/-- `knownSymbolics[i]`; `isByteKnownSymbolic` asks whether there is one. -/
def knownSymbolic (i : Nat) : Option B := d.knownSymbolics.elim none fun k => k i

def setKnownSymbolic (i : Nat) (e : Option B) : ObjectData B :=
  match d.knownSymbolics, e with
  | some k, e => { d with knownSymbolics := some (Function.update k i e) }
  | none, some e => { d with knownSymbolics := some (Function.update (fun _ => none) i (some e)) }
  | none, none => d

def markByteConcrete (i : Nat) : ObjectData B :=
  { d with concreteMask := d.concreteMask.map fun m => Function.update m i true }

def markByteSymbolic (i : Nat) : ObjectData B :=
  { d with concreteMask := some (Function.update (d.concreteMask.getD fun _ => true) i false) }

def markByteUnflushed (i : Nat) : ObjectData B :=
  { d with flushMask := d.flushMask.map fun m => Function.update m i true }

/-- `write8` of a byte. -/
def writeByte (i : Nat) (v : UInt8) : ObjectData B :=
  ((({ d with concreteStore := Function.update d.concreteStore i v }).setKnownSymbolic i none
    ).markByteConcrete i).markByteUnflushed i

/-- `write8` of an expression that is no constant. -/
def writeExpr (i : Nat) (e : B) : ObjectData B :=
  ((d.setKnownSymbolic i (some e)).markByteSymbolic i).markByteUnflushed i

/-- `write8` of an expression. -/
def write8 [ByteExpr B] (i : Nat) (e : B) : ObjectData B :=
  match ByteExpr.asConst e with
  | some v => d.writeByte i v
  | none => d.writeExpr i e

/-- `read8`; it asserts that a byte without a cached value is flushed. -/
def read8 [ByteExpr B] (i : Nat) : B :=
  if d.isByteConcrete i then ByteExpr.const (d.concreteStore i)
  else (d.knownSymbolic i).getD (d.updates i)

/-- The assertion of `read8`. -/
def Cached (i : Nat) : Prop :=
  d.isByteConcrete i = true ∨ (d.knownSymbolic i).isSome ∨ d.isByteFlushed i = true

/-! ## 3. What a write changes -/

/-- Two objects have the same byte at an offset, in the same place. -/
structure SameAt (d d' : ObjectData B) (j : Nat) : Prop where
  concrete : d.isByteConcrete j = d'.isByteConcrete j
  store : d.concreteStore j = d'.concreteStore j
  known : d.knownSymbolic j = d'.knownSymbolic j
  flushed : d.isByteFlushed j = d'.isByteFlushed j
  updates : d.updates j = d'.updates j

section Marks

variable {d} {d' d'' : ObjectData B} {i j : Nat}

theorem SameAt.trans (h : SameAt d d' j) (h' : SameAt d' d'' j) : SameAt d d'' j :=
  ⟨h.concrete.trans h'.concrete, h.store.trans h'.store, h.known.trans h'.known,
    h.flushed.trans h'.flushed, h.updates.trans h'.updates⟩

theorem SameAt.cached_iff (h : SameAt d d' j) : d.Cached j ↔ d'.Cached j := by
  unfold Cached
  rw [h.concrete, h.known, h.flushed]

theorem SameAt.read8_eq [ByteExpr B] (h : SameAt d d' j) : d.read8 j = d'.read8 j := by
  unfold read8
  rw [h.concrete, h.store, h.known, h.updates]

theorem setKnownSymbolic_of_ne (e : Option B) (h : j ≠ i) :
    SameAt (d.setKnownSymbolic i e) d j := by
  unfold setKnownSymbolic
  split
  · next k e hk => exact ⟨rfl, rfl, by simp [knownSymbolic, hk, h], rfl, rfl⟩
  · next e hk => exact ⟨rfl, rfl, by simp [knownSymbolic, hk, h], rfl, rfl⟩
  · exact ⟨rfl, rfl, rfl, rfl, rfl⟩

theorem markByteConcrete_of_ne (h : j ≠ i) : SameAt (d.markByteConcrete i) d j := by
  refine ⟨?_, rfl, rfl, rfl, rfl⟩
  cases hm : d.concreteMask <;> simp [markByteConcrete, isByteConcrete, hm, h]

theorem markByteSymbolic_of_ne (h : j ≠ i) : SameAt (d.markByteSymbolic i) d j := by
  refine ⟨?_, rfl, rfl, rfl, rfl⟩
  cases hm : d.concreteMask <;> simp [markByteSymbolic, isByteConcrete, hm, h]

theorem markByteUnflushed_of_ne (h : j ≠ i) : SameAt (d.markByteUnflushed i) d j := by
  refine ⟨rfl, rfl, rfl, ?_, rfl⟩
  cases hm : d.flushMask <;> simp [markByteUnflushed, isByteFlushed, hm, h]

theorem markByteConcrete_self : (d.markByteConcrete i).isByteConcrete i = true := by
  cases hm : d.concreteMask <;> simp [markByteConcrete, isByteConcrete, hm]

theorem markByteSymbolic_self : (d.markByteSymbolic i).isByteConcrete i = false := by
  simp [markByteSymbolic, isByteConcrete]

theorem setKnownSymbolic_self (e : Option B) : (d.setKnownSymbolic i e).knownSymbolic i = e := by
  unfold setKnownSymbolic
  split
  · simp [knownSymbolic]
  · simp [knownSymbolic]
  · next hk => rw [knownSymbolic, hk, Option.elim_none]

theorem setKnownSymbolic_store (e : Option B) :
    (d.setKnownSymbolic i e).concreteStore = d.concreteStore := by
  unfold setKnownSymbolic
  split <;> rfl

end Marks

section Writes

variable {d} {i j : Nat} {v : UInt8} {e : B}

theorem writeByte_concrete : (d.writeByte i v).isByteConcrete i = true := markByteConcrete_self

theorem writeByte_store : (d.writeByte i v).concreteStore i = v := by
  simp [writeByte, markByteUnflushed, markByteConcrete, setKnownSymbolic_store]

theorem writeByte_of_ne (h : j ≠ i) : SameAt (d.writeByte i v) d j := by
  refine (markByteUnflushed_of_ne h).trans ((markByteConcrete_of_ne h).trans
    ((setKnownSymbolic_of_ne none h).trans ⟨rfl, ?_, rfl, rfl, rfl⟩))
  simp [h]

theorem writeExpr_known : (d.writeExpr i e).knownSymbolic i = some e :=
  setKnownSymbolic_self (some e)

theorem writeExpr_of_ne (h : j ≠ i) : SameAt (d.writeExpr i e) d j :=
  (markByteUnflushed_of_ne h).trans ((markByteSymbolic_of_ne h).trans
    (setKnownSymbolic_of_ne (some e) h))

variable [ByteExpr B]

theorem writeByte_self : (d.writeByte i v).read8 i = ByteExpr.const v := by
  rw [read8, if_pos writeByte_concrete, writeByte_store]

theorem writeExpr_self : (d.writeExpr i e).read8 i = e := by
  have hc : (d.writeExpr i e).isByteConcrete i = false := markByteSymbolic_self
  rw [read8, hc, writeExpr_known]
  rfl

theorem write8_of_ne (h : j ≠ i) : SameAt (d.write8 i e) d j := by
  unfold write8
  split
  · exact writeByte_of_ne h
  · exact writeExpr_of_ne h

theorem write8_cached (h : ∀ j, d.Cached j) (j : Nat) : (d.write8 i e).Cached j := by
  by_cases hj : j = i
  · rw [hj, write8]
    split
    · exact .inl writeByte_concrete
    · exact .inr (.inl (by rw [writeExpr_known, Option.isSome_some]))
  · exact (write8_of_ne hj).cached_iff.2 (h j)

/-- **A byte is read back as it was written**, also if it is a constant. -/
theorem write8_self [LawfulByteExpr B] : (d.write8 i e).read8 i = e := by
  unfold write8
  split
  · next v hv => rw [writeByte_self, LawfulByteExpr.eq_const hv]
  · exact writeExpr_self

end Writes

end ObjectData

/-! ## 4. Object states -/

/-- How the replay can end other than by returning: an assertion, `klee_error`, an access out of
    bounds of an array, the end of the state on a memory error; `fuel` is no end of the code. -/
inductive KleeStop where
  | assertion (expr : String)
  | kleeError (msg : String)
  | badAccess
  | terminated (msg : String)
  | fuel
  deriving DecidableEq, Repr

/-- **`class ObjectState`.** Every byte is in one of its places. -/
structure ObjectState (B : Type) extends ObjectData B where
  size : UInt32
  readOnly : Bool
  cached : ∀ i, toObjectData.Cached i

namespace ObjectState

variable {B : Type}

/-- A new object: all bytes are concrete and zero. -/
def zeroed [ByteExpr B] (size : UInt32) : ObjectState B where
  concreteStore _ := 0
  concreteMask := none
  flushMask := none
  knownSymbolics := none
  updates _ := ByteExpr.const 0
  size := size
  readOnly := false
  cached _ := .inl rfl

/-- A symbolic object: all bytes are those of `array`. -/
def symbolic (size : UInt32) (array : Nat → B) : ObjectState B where
  concreteStore _ := 0
  concreteMask := some fun _ => false
  flushMask := some fun _ => false
  knownSymbolics := none
  updates := array
  size := size
  readOnly := false
  cached _ := .inr (.inr rfl)

variable [ByteExpr B]

/-- The bytes, in order. -/
def bytes (o : ObjectState B) : List B := (List.range o.size.toNat).map o.read8

/-- `write8`, within the object. -/
def set8 (o : ObjectState B) (i : Nat) (e : B) : ObjectState B :=
  { o with
    toObjectData := o.toObjectData.write8 i e
    cached := ObjectData.write8_cached o.cached }

/-- `write_n`: the offsets are cut to 32 bits. -/
def writeN (o : ObjectState B) (offset : UInt32) : List B → Except KleeStop (ObjectState B)
  | [] => .ok o
  | e :: es => do
      ensure (offset < o.size) .badAccess
      writeN (o.set8 offset.toNat e) (offset + 1) es

section Bytes

variable {o : ObjectState B} {e : B}

@[simp] theorem bytes_length : o.bytes.length = o.size.toNat := by
  simp [bytes]

@[simp] theorem set8_size {i : Nat} : (o.set8 i e).size = o.size := rfl

theorem read8_set8_of_ne {i j : Nat} (h : j ≠ i) : (o.set8 i e).read8 j = o.read8 j :=
  (ObjectData.write8_of_ne h).read8_eq

theorem read8_set8_self [LawfulByteExpr B] {i : Nat} : (o.set8 i e).read8 i = e :=
  ObjectData.write8_self

theorem zeroed_read8 {size : UInt32} {i : Nat} :
    (zeroed size).read8 i = (ByteExpr.const 0 : B) := rfl

/-- `o'` is `o` with the row `es` from an offset on. -/
structure Wrote (o : ObjectState B) (offset : Nat) (es : List B) (o' : ObjectState B) : Prop where
  size : o'.size = o.size
  readOnly : o'.readOnly = o.readOnly
  inside : ∀ k (hk : k < es.length), o'.read8 (offset + k) = es[k]
  outside : ∀ j, j < offset ∨ offset + es.length ≤ j → o'.read8 j = o.read8 j

/-- One byte in front of a row. -/
theorem Wrote.cons [LawfulByteExpr B] {o' : ObjectState B} {offset : Nat} {es : List B}
    (h : Wrote (o.set8 offset e) (offset + 1) es o') : Wrote o offset (e :: es) o' where
  size := h.size
  readOnly := h.readOnly
  inside := by
    intro k hk
    cases k with
    | zero =>
      rw [h.outside _ (.inl (by omega))]
      exact read8_set8_self
    | succ k =>
      rw [show offset + (k + 1) = offset + 1 + k by omega]
      exact h.inside k (Nat.lt_of_succ_lt_succ hk)
  outside := by
    intro j hj
    rw [List.length_cons] at hj
    rw [h.outside j (by omega)]
    exact read8_set8_of_ne (by omega)

theorem Wrote.nil (o : ObjectState B) (offset : Nat) : Wrote o offset [] o :=
  ⟨rfl, rfl, fun k hk => absurd hk (Nat.not_lt_zero k), fun _ _ => rfl⟩

/-- **A row of bytes within the object.** -/
theorem writeN_ok [LawfulByteExpr B] : ∀ {es : List B} {o : ObjectState B} {offset : UInt32},
    offset.toNat + es.length ≤ o.size.toNat →
    ∃ o', o.writeN offset es = .ok o' ∧ Wrote o offset.toNat es o'
  | [], o, offset, _ => ⟨o, rfl, .nil o _⟩
  | e :: es, o, offset, h => by
    rw [List.length_cons] at h
    have hsize := o.size.toNat_lt
    have hlt : offset < o.size := UInt32.lt_iff_toNat_lt.2 (by omega)
    have hwrite : ∀ o', (o.set8 offset.toNat e).writeN (offset + 1) es = .ok o' →
        o.writeN offset (e :: es) = .ok o' := by
      intro o' ho'
      rw [writeN, ensure_bind, if_pos hlt, ho']
    -- the last byte may be the last of 2 ^ 32, after which the offset is 0
    by_cases hnil : es = []
    · subst hnil
      exact ⟨_, hwrite _ rfl, .cons (.nil _ _)⟩
    · have hpos := List.length_pos_of_ne_nil hnil
      have hnext : (offset + 1).toNat = offset.toNat + 1 := by
        rw [UInt32.toNat_add]
        exact Nat.mod_eq_of_lt (by simp; omega)
      obtain ⟨o', hok, hw⟩ : ∃ o', (o.set8 offset.toNat e).writeN (offset + 1) es = .ok o' ∧
          Wrote (o.set8 offset.toNat e) (offset + 1).toNat es o' :=
        writeN_ok (by rw [hnext, set8_size]; omega)
      rw [hnext] at hw
      exact ⟨o', hwrite o' hok, .cons hw⟩

/-- A row of bytes of which one is out of bounds. -/
theorem writeN_bad : ∀ {es : List B} {o : ObjectState B} {offset : UInt32},
    (∃ k < es.length, ¬ offset + UInt32.ofNat k < o.size) → o.writeN offset es = .error .badAccess
  | [], _, _, h => by
    obtain ⟨k, hk, -⟩ := h
    exact absurd hk (Nat.not_lt_zero k)
  | e :: es, o, offset, h => by
    rw [writeN, ensure_bind]
    by_cases hlt : offset < o.size
    · rw [if_pos hlt]
      obtain ⟨k, hk, hbad⟩ := h
      cases k with
      | zero =>
        rw [show offset + UInt32.ofNat 0 = offset from UInt32.add_zero offset] at hbad
        exact absurd hlt hbad
      | succ k =>
        refine writeN_bad ⟨k, Nat.lt_of_succ_lt_succ hk, ?_⟩
        rwa [set8_size, UInt32.add_assoc, ← UInt32.ofNat_one, ← UInt32.ofNat_add, Nat.add_comm]
    · rw [if_neg hlt]

end Bytes

end ObjectState

end Crete.Klee
