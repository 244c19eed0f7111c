/-
  File:      Crete/Lib/Bytes.lean
  Subject:   Little-endian words as byte lists, and a byte input stream with the
             read, position and failure behaviour of a C++ `std::istream`.

  * `leBytes k n` -- the `k` low bytes of `n`, lowest first; `ofLeBytes` reads
    them back (`ofLeBytes_leBytes`).
  * `IStream` -- the bytes of the stream, the read position and the fail bit.
  * `readInto buf` -- a read into a buffer that already holds `buf`: the bytes
    the stream does not deliver keep what the buffer held.
  * `readMany f n` -- the loop that calls a reader `n` times and stops at its first
    error. `readMany_at` runs it over the encodings of a list, item by item.
-/
import Mathlib.Algebra.Order.Ring.Int
import Mathlib.Data.List.TakeWhile
import Mathlib.Data.UInt

namespace Crete.Lib

open List

/-- A sequence of bytes. -/
abbrev Bytes := List UInt8

/-! ## 1. Little-endian words -/

/-- The `k` low bytes of `n`, lowest first. -/
def leBytes : Nat → Nat → Bytes
  | 0, _ => []
  | k + 1, n => UInt8.ofNat n :: leBytes k (n / 256)

theorem getElem?_leBytes : ∀ {k i : Nat} (n : Nat), i < k →
    (leBytes k n)[i]? = some (UInt8.ofNat (n / 256 ^ i))
  | k + 1, 0, n, _ => by rw [leBytes, getElem?_cons_zero, Nat.pow_zero, Nat.div_one]
  | k + 1, i + 1, n, h => by
    rw [leBytes, getElem?_cons_succ, getElem?_leBytes _ (Nat.lt_of_succ_lt_succ h),
      Nat.div_div_eq_div_mul, Nat.pow_succ, Nat.mul_comm]

/-- The number a byte list spells, lowest byte first. -/
def ofLeBytes : Bytes → Nat
  | [] => 0
  | b :: bs => b.toNat + 256 * ofLeBytes bs

@[simp] theorem leBytes_length : ∀ (k n : Nat), (leBytes k n).length = k
  | 0, _ => rfl
  | k + 1, n => by simp [leBytes, leBytes_length k (n / 256)]

/-- **Reading back the `k` low bytes gives the number modulo `256 ^ k`.** -/
theorem ofLeBytes_leBytes : ∀ (k n : Nat), ofLeBytes (leBytes k n) = n % 256 ^ k
  | 0, n => by simp [leBytes, ofLeBytes, Nat.mod_one]
  | k + 1, n => by
    have hb : (UInt8.ofNat n).toNat = n % 256 := UInt8.toNat_ofNat'
    rw [leBytes, ofLeBytes, ofLeBytes_leBytes k (n / 256), hb, Nat.pow_succ,
      Nat.mul_comm (256 ^ k) 256, Nat.mod_mul]

/-- **The bytes of the number that some bytes spell are those bytes.** -/
theorem leBytes_ofLeBytes : ∀ bs : Bytes, leBytes bs.length (ofLeBytes bs) = bs
  | [] => rfl
  | b :: bs => by
    have hb := b.toNat_lt
    have hlow : UInt8.ofNat (b.toNat + 256 * ofLeBytes bs) = b := by
      rw [← UInt8.toNat_inj, UInt8.toNat_ofNat', Nat.add_mul_mod_self_left, Nat.mod_eq_of_lt hb]
    have hhigh : (b.toNat + 256 * ofLeBytes bs) / 256 = ofLeBytes bs := by omega
    rw [ofLeBytes, length_cons, leBytes, hlow, hhigh, leBytes_ofLeBytes bs]

theorem ofLeBytes_lt : ∀ bs : Bytes, ofLeBytes bs < 256 ^ bs.length
  | [] => by decide
  | b :: bs => by
    have hb := b.toNat_lt
    have ih := ofLeBytes_lt bs
    rw [ofLeBytes, length_cons, Nat.pow_succ]
    omega

theorem ofLeBytes_leBytes_of_lt {k n : Nat} (h : n < 256 ^ k) : ofLeBytes (leBytes k n) = n := by
  rw [ofLeBytes_leBytes, Nat.mod_eq_of_lt h]

/-! ## 2. Texts and C strings -/

/-- The bytes of an ASCII text. -/
def bytesOf (s : String) : Bytes := s.toList.map fun c => UInt8.ofNat c.toNat

/-- The C string that starts a byte sequence: up to the first NUL. -/
def cstr (bs : Bytes) : Bytes := bs.takeWhile (· ≠ 0)

/-- A signed integer as a `size_t`. -/
def toSizeT (n : Int) : Nat := (n % 2 ^ 64).toNat

theorem cstr_eq_self_iff {bs : Bytes} : cstr bs = bs ↔ 0 ∉ bs := by
  rw [cstr, takeWhile_eq_self_iff]
  constructor
  · intro h h0
    simpa using h 0 h0
  · intro h b hb
    have : b ≠ 0 := fun e => h (e ▸ hb)
    simpa using this

/-! ## 3. The input stream -/

/-- A byte input stream: its bytes, the read position and the fail bit. -/
structure IStream where
  bytes : Bytes
  pos : Nat
  fail : Bool
  deriving DecidableEq, Repr

namespace IStream

variable {is : IStream}

/-- A fresh stream over `bs`. -/
def ofBytes (bs : Bytes) : IStream := ⟨bs, 0, false⟩

/-- The bytes at and after the read position. -/
def rest (is : IStream) : Bytes := is.bytes.drop is.pos

/-- `is.read(buf, n)`: the bytes delivered and the stream after the read. -/
def read (is : IStream) (n : Nat) : Bytes × IStream :=
  if is.fail then ([], is)
  else
    let got := is.rest.take n
    (got, ⟨is.bytes, is.pos + got.length, got.length < n⟩)

/-- A read into a buffer holding `buf`: undelivered bytes keep what the buffer held. -/
def readInto (is : IStream) (buf : Bytes) : Bytes × IStream :=
  let (got, is') := is.read buf.length
  (got ++ buf.drop got.length, is')

/-- `is.tellg()` as an unsigned word: `-1` on a failed stream. -/
def tellg (is : IStream) : Nat := if is.fail then 2 ^ 64 - 1 else is.pos

/-- `is.seekg(p)`: no effect on a failed stream. -/
def seekg (is : IStream) (p : Nat) : IStream := if is.fail then is else { is with pos := p }

@[simp] theorem ofBytes_bytes (bs : Bytes) : (ofBytes bs).bytes = bs := rfl

@[simp] theorem ofBytes_rest (bs : Bytes) : (ofBytes bs).rest = bs := rfl

/-- `is` is good and what it has still to deliver starts with `xs`, then `ys`. -/
def At (is : IStream) (xs ys : Bytes) : Prop := is.fail = false ∧ is.rest = xs ++ ys

/-- The stream `is` after `n` delivered bytes. -/
def advance (is : IStream) (n : Nat) : IStream := { is with pos := is.pos + n }

@[simp] theorem advance_advance (is : IStream) (m n : Nat) :
    (is.advance m).advance n = is.advance (m + n) := by
  simp [advance, Nat.add_assoc]

theorem advance_rest (is : IStream) (n : Nat) : (is.advance n).rest = is.rest.drop n := by
  simp [advance, rest, drop_drop, Nat.add_comm]

/-- Past `xs` the stream stands at `ys`. -/
theorem At.advance {xs ys zs : Bytes} (h : is.At (xs ++ ys) zs) :
    (is.advance xs.length).At ys zs := by
  refine ⟨h.1, ?_⟩
  rw [advance_rest, h.2, append_assoc, drop_left]

theorem At.left {xs ys zs : Bytes} (h : is.At (xs ++ ys) zs) :
    is.At xs (ys ++ zs) := ⟨h.1, by rw [h.2, append_assoc]⟩

/-- What a stream stands at is no longer than the stream. -/
theorem At.length_le {xs ys : Bytes} (h : is.At xs ys) : xs.length ≤ is.bytes.length := by
  have hr : is.rest.length ≤ is.bytes.length := by simp [rest]
  rw [h.2, length_append] at hr
  omega

theorem ofBytes_at (bs : Bytes) : (ofBytes bs).At bs [] := ⟨rfl, by simp⟩

/-- **A full read delivers exactly the next bytes.** -/
theorem readInto_at {xs ys : Bytes} (h : is.At xs ys) (buf : Bytes)
    (hl : buf.length = xs.length) : is.readInto buf = (xs, is.advance xs.length) := by
  obtain ⟨hf, hr⟩ := h
  have ht : is.rest.take buf.length = xs := by rw [hr, hl, take_left]
  simp only [readInto, read, hf, ht]
  simp only [Bool.false_eq_true, ↓reduceIte, IStream.advance, hf]
  rw [← hl, drop_length, append_nil, hl]
  simp

/-- A buffer keeps its length, whatever the stream delivers. -/
@[simp] theorem readInto_length (is : IStream) (buf : Bytes) :
    (is.readInto buf).1.length = buf.length := by
  simp only [readInto, read]
  split
  · rfl
  · simp only [length_append, length_take, length_drop]
    omega

/-- A word read into a variable that holds `old`. -/
def readWord (is : IStream) (old : UInt32) : UInt32 × IStream :=
  let (bs, is') := is.readInto (leBytes 4 old.toNat)
  (UInt32.ofNat (ofLeBytes bs), is')

theorem readWord_at {w : UInt32} {ys : Bytes} (h : is.At (leBytes 4 w.toNat) ys) (old : UInt32) :
    is.readWord old = (w, is.advance 4) := by
  have hw : w.toNat < 256 ^ 4 := w.toNat_lt
  rw [readWord, readInto_at h _ (by simp)]
  simp [ofLeBytes_leBytes_of_lt hw]

/-! ## 4. Reading a counted sequence -/

section Many

variable {α ε : Type}

/-- Calls the reader `f` `n` times and collects what it returns; stops at the first error. -/
def readMany (f : IStream → Except ε (α × IStream)) : Nat → IStream → Except ε (List α × IStream)
  | 0, is => .ok ([], is)
  | n + 1, is => do
      let (x, is) ← f is
      let (xs, is) ← readMany f n is
      return (x :: xs, is)

/-- What the loop collects: as many items as it was told to, and what every call returns. -/
theorem readMany_ok {f : IStream → Except ε (α × IStream)} {P : α → Prop}
    (hf : ∀ is x is', f is = .ok (x, is') → P x) : ∀ {n : Nat} {is is' : IStream} {xs : List α},
    readMany f n is = .ok (xs, is') → xs.length = n ∧ ∀ x ∈ xs, P x
  | 0, is, is', xs, h => by
    cases h
    exact ⟨rfl, forall_mem_nil _⟩
  | n + 1, is, is', xs, h => by
    rw [readMany] at h
    cases h₁ : f is with
    | error e => rw [h₁] at h; cases h
    | ok r =>
      rw [h₁] at h
      cases h₂ : readMany f n r.2 with
      | error e => simp only [bind, Except.bind, h₂] at h; cases h
      | ok rs =>
        simp only [bind, Except.bind, h₂] at h
        cases h
        obtain ⟨hl, hP⟩ := readMany_ok hf h₂
        refine ⟨by rw [length_cons, hl], fun x hx => ?_⟩
        rcases mem_cons.1 hx with rfl | hx
        · exact hf is _ _ h₁
        · exact hP x hx

/-- **The loop over encoded items.** If on a stream over `bs` the reader `f` returns the item it
    stands at when the item meets `Q`, and fails with `e` when it does not, then over the
    encodings of `xs` the loop returns `xs` when all items meet `Q`, and fails with `e`
    otherwise. -/
theorem readMany_at {f : IStream → Except ε (α × IStream)} {enc : α → Bytes}
    {P Q : α → Prop} [DecidablePred Q] {bs : Bytes} {e : ε}
    (hf : ∀ (x : α) (is : IStream) (ys : Bytes), P x → is.bytes = bs → is.At (enc x) ys →
      f is = if Q x then .ok (x, is.advance (enc x).length) else .error e) :
    ∀ (xs : List α) (is : IStream) (ys : Bytes), (∀ x ∈ xs, P x) → is.bytes = bs →
      is.At (xs.flatMap enc) ys →
      readMany f xs.length is =
        if ∀ x ∈ xs, Q x then .ok (xs, is.advance (xs.flatMap enc).length) else .error e
  | [], is, ys, _, _, _ => by simp [readMany, IStream.advance]
  | x :: xs, is, ys, hP, hb, hat => by
    rw [flatMap_cons] at hat
    have hx := hf x is _ (hP x (by simp)) hb hat.left
    have hxs := readMany_at hf xs (is.advance (enc x).length) ys
      (fun y hy => hP y (by simp [hy])) hb hat.advance
    simp only [length_cons, readMany, hx]
    by_cases hQ : Q x
    · simp only [if_pos hQ, bind, Except.bind, hxs]
      by_cases hQs : ∀ y ∈ xs, Q y
      · rw [if_pos hQs, if_pos (forall_mem_cons.2 ⟨hQ, hQs⟩)]
        simp [pure, Except.pure]
      · rw [if_neg hQs, if_neg (fun h => hQs (forall_mem_cons.1 h).2)]
    · rw [if_neg hQ, if_neg (fun h => hQ (forall_mem_cons.1 h).1)]
      rfl

end Many

end IStream

end Crete.Lib
