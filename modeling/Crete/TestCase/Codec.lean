/-
  File:      Crete/TestCase/Codec.lean
  Subject:   The binary test case format (lib/test-case/test_case.cpp): `write` and the
             sanity-checked readers.

  * `readTestCaseElement`, `readTestCase`, `readTestCases` -- the decoders, with their size
    limits, their assertions and what they leave in a variable after a short read.
  * `readTestCase_at` -- what the decoder does on the encoding of a test case,
    wherever in the stream it stands.
  * `readTestCases_write_iff` -- the round trip holds exactly when the element counts pass
    the decoder's count check.
-/
import Crete.Lib.Bytes
import Crete.Lib.Except
import Mathlib.Algebra.BigOperators.Group.List.Basic

namespace Crete

open Crete.Lib Crete.Lib.IStream List

/-! ## 1. Test cases -/

/-- `struct TestCaseElement`. The size fields are stored beside the vectors they count, so they
    can disagree with them. -/
structure TestCaseElement where
  nameSize : UInt32
  name : Bytes
  dataSize : UInt32
  data : Bytes
  deriving DecidableEq, Repr

/-- `class TestCase`. Its `priority_` is 0 from the constructor on and in no encoding. -/
structure TestCase where
  elems : List TestCaseElement
  deriving DecidableEq, Repr

/-- The size fields count the vectors. -/
structure TestCaseElement.Sized (e : TestCaseElement) : Prop where
  nameSize : e.nameSize.toNat = e.name.length
  dataSize : e.dataSize.toNat = e.data.length

/-- The size fields count the vectors, and the name keeps to the decoder's limit. -/
structure TestCaseElement.WellFormed (e : TestCaseElement) : Prop extends e.Sized where
  nameLimit : e.name.length ≤ 1000

/-- All elements have the right size fields. -/
def TestCase.Sized (tc : TestCase) : Prop := ∀ e ∈ tc.elems, e.Sized

/-- At least one element, and all elements well formed. -/
structure TestCase.WellFormed (tc : TestCase) : Prop where
  nonempty : tc.elems ≠ []
  elems : ∀ e ∈ tc.elems, e.WellFormed

/-! ## 2. The encoders -/

/-- `write(ostream&, const TestCaseElement&)`. -/
def writeElement (e : TestCaseElement) : Bytes :=
  leBytes 4 e.nameSize.toNat ++ (e.name ++ (leBytes 4 e.dataSize.toNat ++ e.data))

/-- `write(ostream&, const vector<TestCaseElement>&)`: the count is cut to 32 bits. -/
def writeElements (es : List TestCaseElement) : Bytes :=
  leBytes 4 (UInt32.ofNat es.length).toNat ++ es.flatMap writeElement

/-- `TestCase::write`. -/
def TestCase.write (tc : TestCase) : Bytes := writeElements tc.elems

/-- `write(ostream&, const vector<TestCase>&)`. -/
def writeTestCases (tcs : List TestCase) : Bytes :=
  leBytes 4 (UInt32.ofNat tcs.length).toNat ++ tcs.flatMap TestCase.write

/-- The bytes an element takes in an encoding. -/
def TestCaseElement.encodedSize (e : TestCaseElement) : Nat := 8 + e.name.length + e.data.length

/-- The bytes a test case takes in an encoding. -/
def TestCase.encodedSize (tc : TestCase) : Nat :=
  4 + (tc.elems.map TestCaseElement.encodedSize).sum

open TestCase

/-- The bytes a vector of test cases takes in an encoding. -/
def encodedSizeTestCases (tcs : List TestCase) : Nat := 4 + (tcs.map encodedSize).sum

@[simp] theorem writeElement_length (e : TestCaseElement) :
    (writeElement e).length = e.encodedSize := by
  simp only [writeElement, TestCaseElement.encodedSize, length_append, leBytes_length]
  omega

@[simp] theorem write_length (tc : TestCase) : tc.write.length = tc.encodedSize := by
  simp only [write, writeElements, encodedSize, length_append,
    leBytes_length, length_flatMap, writeElement_length]

@[simp] theorem writeTestCases_length (tcs : List TestCase) :
    (writeTestCases tcs).length = encodedSizeTestCases tcs := by
  simp only [writeTestCases, encodedSizeTestCases, length_append, leBytes_length,
    length_flatMap, write_length]

/-! ## 3. The decoders -/

/-- How a decoder call can end other than by returning. -/
inductive ReadError where
  | runtimeError (what : String)
  | assertion (expr : String)
  deriving DecidableEq, Repr

/-- What the uninitialised size and count variables hold before they are read into, by the
    stream position of the read. -/
structure Uninit where
  nameSize : Nat → UInt32
  dataSize : Nat → UInt32
  count : Nat → UInt32

/-- `stream_size`: where the end of the whole stream is. A failed stream answers `-1`. -/
def streamSize (is : IStream) : Nat × IStream :=
  let current := is.tellg
  let is := is.seekg is.bytes.length
  let size := is.tellg
  (size, is.seekg current)

def fileTooLarge : ReadError := .runtimeError
  "Sanity check: test case file size is unexpectedly large (size > 1000000)."

def nameTooLarge : ReadError := .runtimeError
  "Sanity check: test case element name size is unexpectedly large (size > 1000)."

/-- The data size check reports a name, as the source does. -/
def dataTooLarge : ReadError := .runtimeError
  "Sanity check: test case element name size is unexpectedly large (size > 1000000)."

/-- `read_test_case_element`. Both vectors are resized, so zero-filled, before they are read. -/
def readTestCaseElement (u : Uninit) (is : IStream) :
    Except ReadError (TestCaseElement × IStream) := do
  let (ssize, is) := streamSize is
  ensure (ssize ≤ 1000000) fileTooLarge
  let (nameSize, is) := is.readWord (u.nameSize is.pos)
  ensure (nameSize.toNat < ssize) (.assertion "elem.name_size < ssize")
  ensure (nameSize.toNat ≤ 1000) nameTooLarge
  let (name, is) := is.readInto (replicate nameSize.toNat 0)
  let (dataSize, is) := is.readWord (u.dataSize is.pos)
  ensure (dataSize.toNat < ssize) (.assertion "elem.data_size < ssize")
  ensure (dataSize.toNat ≤ 1000000) dataTooLarge
  let (data, is) := is.readInto (replicate dataSize.toNat 0)
  return (⟨nameSize, name, dataSize, data⟩, is)

def elemCountAssertion : ReadError :=
  .assertion "elem_count != 0 && elem_count < (ssize / elem_count)"

def tcCountAssertion : ReadError :=
  .assertion "tc_count != 0 && tc_count < (ssize / tc_count)"

/-- `read_test_case`. -/
def readTestCase (u : Uninit) (is : IStream) : Except ReadError (TestCase × IStream) := do
  let (ssize, is) := streamSize is
  ensure (ssize ≤ 1000000) fileTooLarge
  let (elemCount, is) := is.readWord (u.count is.pos)
  ensure (elemCount.toNat ≠ 0 ∧ elemCount.toNat < ssize / elemCount.toNat) elemCountAssertion
  let (elems, is) ← readMany (readTestCaseElement u) elemCount.toNat is
  return (⟨elems⟩, is)

/-- `read_test_cases`: no size check of its own. -/
def readTestCases (u : Uninit) (is : IStream) : Except ReadError (List TestCase × IStream) := do
  let (ssize, is) := streamSize is
  let (tcCount, is) := is.readWord (u.count is.pos)
  ensure (tcCount.toNat ≠ 0 ∧ tcCount.toNat < ssize / tcCount.toNat) tcCountAssertion
  readMany (readTestCase u) tcCount.toNat is

/-! ## 4. The decoders on encodings -/

theorem streamSize_good {is : IStream} (h : is.fail = false) :
    streamSize is = (is.bytes.length, is) := by
  cases is
  cases h
  rfl

/-- A read into a zero-filled vector of the right size. -/
theorem readInto_replicate_at {is : IStream} {xs ys : Bytes} (h : is.At xs ys) {n : Nat}
    (hn : n = xs.length) : is.readInto (replicate n 0) = (xs, is.advance n) := by
  rw [readInto_at h _ (by simp [hn]), hn]

/-- **A well-formed element in a stream of at most 1000000 bytes reads back.** -/
theorem readTestCaseElement_at (u : Uninit) {e : TestCaseElement} (he : e.WellFormed)
    {is : IStream} {ys : Bytes} (hs : is.bytes.length ≤ 1000000) (hat : is.At (writeElement e) ys) :
    readTestCaseElement u is = .ok (e, is.advance (writeElement e).length) := by
  have hlen : 8 + e.name.length + e.data.length ≤ is.bytes.length := by
    simpa [TestCaseElement.encodedSize] using hat.length_le
  -- the stream before each of the four reads
  have hname := hat.advance
  rw [leBytes_length] at hname
  have hsize := hname.advance
  rw [← he.nameSize] at hsize
  have hdata := hsize.advance
  rw [leBytes_length] at hdata
  simp only [readTestCaseElement, streamSize_good hat.1, ensure_bind, if_pos hs,
    readWord_at hat.left]
  rw [if_pos (by rw [he.nameSize]; omega), if_pos (by rw [he.nameSize]; exact he.nameLimit)]
  simp only [readInto_replicate_at hname.left he.nameSize, readWord_at hsize.left]
  rw [if_pos (by rw [he.dataSize]; omega), if_pos (by rw [he.dataSize]; omega)]
  simp only [readInto_replicate_at hdata he.dataSize]
  have hadv : 4 + e.nameSize.toNat + 4 + e.dataSize.toNat = (writeElement e).length := by
    rw [writeElement_length, TestCaseElement.encodedSize, he.nameSize, he.dataSize]
    omega
  simp only [advance_advance, hadv]
  rfl

/-- An element with a long name. -/
theorem readTestCaseElement_long (u : Uninit) {e : TestCaseElement} (he : e.Sized)
    (hlong : ¬ e.name.length ≤ 1000) {is : IStream} {ys : Bytes}
    (hs : is.bytes.length ≤ 1000000) (hat : is.At (writeElement e) ys) :
    readTestCaseElement u is = .error nameTooLarge := by
  have hlen : 8 + e.name.length + e.data.length ≤ is.bytes.length := by
    simpa [TestCaseElement.encodedSize] using hat.length_le
  simp only [readTestCaseElement, streamSize_good hat.1, ensure_bind, if_pos hs,
    readWord_at hat.left]
  rw [if_pos (by rw [he.nameSize]; omega), if_neg (by rwa [he.nameSize])]

/-- The decoder's count check, on a stream of `size` bytes: `n < size / n` for `n` items. -/
theorem count_lt_div_iff {n size : Nat} (hn : n ≠ 0) : n < size / n ↔ n * (n + 1) ≤ size := by
  rw [← Nat.succ_le_iff, Nat.le_div_iff_mul_le (Nat.pos_of_ne_zero hn), Nat.succ_eq_add_one,
    Nat.mul_comm]

/-- A count that its own encoding is longer than is not cut to 32 bits. -/
theorem toNat_ofNat_of_le {n size : Nat} (h : n ≤ size) (hs : size ≤ 1000000) :
    (UInt32.ofNat n).toNat = n := by
  rw [UInt32.toNat_ofNat', Nat.mod_eq_of_lt]
  omega

theorem length_le_encodedSize (tc : TestCase) : tc.elems.length ≤ tc.encodedSize := by
  have h := length_le_sum_of_one_le (tc.elems.map TestCaseElement.encodedSize) (by
    intro n hn
    obtain ⟨e, -, rfl⟩ := mem_map.1 hn
    unfold TestCaseElement.encodedSize
    omega)
  rw [length_map] at h
  unfold encodedSize
  omega

theorem length_le_encodedSizeTestCases (tcs : List TestCase) :
    tcs.length ≤ encodedSizeTestCases tcs := by
  have h := length_le_sum_of_one_le (tcs.map encodedSize) (by
    intro n hn
    obtain ⟨tc, -, rfl⟩ := mem_map.1 hn
    unfold encodedSize
    omega)
  rw [length_map] at h
  unfold encodedSizeTestCases
  omega

/-- `n` items pass the decoder's count check in a stream of `size` bytes. -/
def CountFits (n size : Nat) : Prop := n * (n + 1) ≤ size
  deriving Decidable

/-- **The decoder on a test case** in a stream of at most 1000000 bytes: it trips the count
    assertion unless there are elements and their count fits the whole stream, and then returns
    the test case unless a name is too long. -/
theorem readTestCase_at (u : Uninit) {tc : TestCase} (h : tc.Sized) {is : IStream}
    {ys : Bytes} (hs : is.bytes.length ≤ 1000000) (hat : is.At tc.write ys) :
    readTestCase u is =
      if tc.elems ≠ [] ∧ CountFits tc.elems.length is.bytes.length then
        if ∀ e ∈ tc.elems, e.name.length ≤ 1000 then .ok (tc, is.advance tc.write.length)
        else .error nameTooLarge
      else .error elemCountAssertion := by
  have hlen : tc.encodedSize ≤ is.bytes.length := by simpa using hat.length_le
  have hcount : (UInt32.ofNat tc.elems.length).toNat = tc.elems.length :=
    toNat_ofNat_of_le (length_le_encodedSize tc) (by omega)
  have hat' : is.At (leBytes 4 (UInt32.ofNat tc.elems.length).toNat ++
    tc.elems.flatMap writeElement) ys := hat
  have helems := hat'.advance
  rw [leBytes_length] at helems
  have hloop := readMany_at (Q := fun e : TestCaseElement => e.name.length ≤ 1000)
    (e := nameTooLarge) (fun e is ys he hb hat => by
      have hs' : is.bytes.length ≤ 1000000 := hb ▸ hs
      split
      · next hn => exact readTestCaseElement_at u ⟨he, hn⟩ hs' hat
      · next hn => exact readTestCaseElement_long u he hn hs' hat)
    tc.elems (is.advance 4) ys h rfl helems
  have hfit : (tc.elems.length ≠ 0 ∧ tc.elems.length < is.bytes.length / tc.elems.length) ↔
      tc.elems ≠ [] ∧ CountFits tc.elems.length is.bytes.length := by
    rw [Ne, length_eq_zero_iff]
    refine and_congr_right fun hne => count_lt_div_iff ?_
    rwa [Ne, length_eq_zero_iff]
  simp only [readTestCase, streamSize_good hat.1, ensure_bind, if_pos hs, readWord_at hat'.left,
    hcount, hloop, hfit]
  refine if_congr Iff.rfl ?_ rfl
  split
  · rw [write_length, encodedSize]
    simp [pure, Except.pure]
  · rfl

/-! ## 5. The round trip -/

/-- **A test case that `read_test_case` takes**: at least one element, no name beyond 1000 bytes,
    at most 1000000 bytes, and the count `n` of elements with `n * (n + 1)` within them. -/
structure Readable (tc : TestCase) : Prop where
  nonempty : tc.elems ≠ []
  names : ∀ e ∈ tc.elems, e.name.length ≤ 1000
  size : tc.encodedSize ≤ 1000000
  count : CountFits tc.elems.length tc.encodedSize

/-- **What `read_test_case` makes of the file of a test case**, check after check. -/
theorem readTestCase_write_sized (u : Uninit) {tc : TestCase} (h : tc.Sized) :
    (readTestCase u (ofBytes tc.write)).map Prod.fst = if tc.encodedSize ≤ 1000000 then
        if tc.elems ≠ [] ∧ CountFits tc.elems.length tc.encodedSize then
          if ∀ e ∈ tc.elems, e.name.length ≤ 1000 then .ok tc else .error nameTooLarge
        else .error elemCountAssertion
      else .error fileTooLarge := by
  have hlen : (ofBytes tc.write).bytes.length = tc.encodedSize := by simp
  by_cases hsize : tc.encodedSize ≤ 1000000
  · rw [readTestCase_at u h (hlen ▸ hsize) (ofBytes_at _), hlen, if_pos hsize]
    split
    · split <;> rfl
    · rfl
  · simp only [readTestCase, streamSize_good (ofBytes_at tc.write).1, hlen, ensure_bind,
      if_neg hsize]
    rfl

/-- **A test case comes back exactly if it is `Readable`.** -/
theorem readTestCase_eq_ok_iff (u : Uninit) {tc tc' : TestCase} (h : tc.Sized) :
    (readTestCase u (ofBytes tc.write)).map Prod.fst = .ok tc' ↔ tc' = tc ∧ Readable tc := by
  rw [readTestCase_write_sized u h]
  constructor
  · intro hok
    split at hok
    · next hsize =>
        split at hok
        · next hc =>
            split at hok
            · next hn =>
                cases hok
                exact ⟨rfl, hc.1, hn, hsize, hc.2⟩
            · cases hok
        · cases hok
    · cases hok
  · rintro ⟨rfl, hr⟩
    rw [if_pos hr.size, if_pos ⟨hr.nonempty, hr.count⟩, if_pos hr.names]

/-- Reading a vector of test cases from a stream that holds just its encoding: the first count
    that does not fit decides which assertion fails. -/
theorem readTestCases_write (u : Uninit) {tcs : List TestCase} (hne : tcs ≠ [])
    (htcs : ∀ tc ∈ tcs, tc.WellFormed) (hs : encodedSizeTestCases tcs ≤ 1000000) :
    readTestCases u (ofBytes (writeTestCases tcs)) =
      if CountFits tcs.length (encodedSizeTestCases tcs) then
        if ∀ tc ∈ tcs, CountFits tc.elems.length (encodedSizeTestCases tcs) then
          .ok (tcs, (ofBytes (writeTestCases tcs)).advance (encodedSizeTestCases tcs))
        else .error elemCountAssertion
      else .error tcCountAssertion := by
  have hlen : (ofBytes (writeTestCases tcs)).bytes.length = encodedSizeTestCases tcs := by simp
  have hcount : (UInt32.ofNat tcs.length).toNat = tcs.length :=
    toNat_ofNat_of_le (length_le_encodedSizeTestCases tcs) hs
  have hne' : tcs.length ≠ 0 := by simp [hne]
  have hat : (ofBytes (writeTestCases tcs)).At (leBytes 4 (UInt32.ofNat tcs.length).toNat ++
    tcs.flatMap write) [] := ofBytes_at _
  have htail := hat.advance
  rw [leBytes_length] at htail
  have hstep : ∀ (tc : TestCase) (is : IStream) (ys : Bytes), tc.WellFormed →
      is.bytes = writeTestCases tcs → is.At tc.write ys →
      readTestCase u is = if CountFits tc.elems.length (encodedSizeTestCases tcs) then
          .ok (tc, is.advance tc.write.length)
        else .error elemCountAssertion := by
    intro tc is ys htc hb hat
    have hsize : is.bytes.length = encodedSizeTestCases tcs := by rw [hb, writeTestCases_length]
    rw [readTestCase_at u (fun e he => (htc.elems e he).toSized) (hsize ▸ hs) hat, hsize,
      if_pos fun e he => (htc.elems e he).nameLimit]
    exact if_congr (and_iff_right htc.nonempty) rfl rfl
  have hloop := readMany_at hstep tcs _ [] htcs rfl htail
  simp only [readTestCases, streamSize_good hat.1, hlen, ensure_bind, readWord_at hat.left,
    hcount, count_lt_div_iff hne', hloop]
  by_cases hfit : CountFits tcs.length (encodedSizeTestCases tcs)
  · have hend : 4 + (tcs.flatMap write).length = encodedSizeTestCases tcs := by
      rw [← writeTestCases_length, writeTestCases, length_append, leBytes_length]
    rw [if_pos ⟨hne', hfit⟩, if_pos hfit, advance_advance, hend]
  · rw [if_neg (fun h => hfit h.2), if_neg hfit]

/-- **The codec round trip, exactly.** For well-formed test cases within the size limit, reading
    what `write` produced returns the same elements if and only if the element count `n` meets
    `n * (n + 1) ≤ size`; for a vector the count of test cases and every element count must
    meet it against the size of the whole vector. The decoder's assertion
    `count < size / count` asks for it, although an element can take as little as 8 bytes. -/
theorem readTestCases_write_iff (u : Uninit) :
    (∀ tc : TestCase, tc.WellFormed → tc.encodedSize ≤ 1000000 →
      ((readTestCase u (ofBytes tc.write)).map Prod.fst = .ok tc ↔
        CountFits tc.elems.length tc.encodedSize)) ∧
    (∀ tcs : List TestCase, tcs ≠ [] → (∀ tc ∈ tcs, tc.WellFormed) →
      encodedSizeTestCases tcs ≤ 1000000 →
      ((readTestCases u (ofBytes (writeTestCases tcs))).map Prod.fst = .ok tcs ↔
        CountFits tcs.length (encodedSizeTestCases tcs) ∧
        ∀ tc ∈ tcs, CountFits tc.elems.length (encodedSizeTestCases tcs))) := by
  refine ⟨fun tc htc hs => ?_, fun tcs hne htcs hs => ?_⟩
  · rw [readTestCase_eq_ok_iff u fun e he => (htc.elems e he).toSized]
    exact ⟨fun h => h.2.count,
      fun h => ⟨rfl, htc.nonempty, fun e he => (htc.elems e he).nameLimit, hs, h⟩⟩
  · rw [readTestCases_write u hne htcs hs]
    split
    · next hfit =>
      split
      · next hall => simpa [Except.map, hfit] using hall
      · next hall => simpa [Except.map, hfit] using hall
    · next hfit => simp [Except.map, hfit]

/-- A well-formed element with a one-byte name and one byte of data. -/
def tinyElement (name data : UInt8) : TestCaseElement := ⟨1, [name], 1, [data]⟩

theorem tinyElement_wellFormed (name data : UInt8) : (tinyElement name data).WellFormed where
  nameSize := rfl
  dataSize := rfl
  nameLimit := by simp [tinyElement]

/-- Two such elements pass the count check and come back, alone and in a vector. -/
theorem readTestCases_write_iff_two :
    (readTestCase ⟨0, 0, 0⟩ (ofBytes (TestCase.mk [tinyElement 97 1, tinyElement 98 2]).write)).map
        Prod.fst = .ok ⟨[tinyElement 97 1, tinyElement 98 2]⟩ ∧
    (readTestCases ⟨0, 0, 0⟩ (ofBytes (writeTestCases [⟨[tinyElement 97 1]⟩]))).map Prod.fst =
      .ok [⟨[tinyElement 97 1]⟩] :=
  ⟨((readTestCases_write_iff ⟨0, 0, 0⟩).1 ⟨[tinyElement 97 1, tinyElement 98 2]⟩
      ⟨by simp, by simp [tinyElement_wellFormed]⟩ (by decide)).2 (by decide),
    ((readTestCases_write_iff ⟨0, 0, 0⟩).2 [⟨[tinyElement 97 1]⟩] (by simp) (by
        intro tc htc
        rw [mem_singleton.1 htc]
        exact ⟨by simp, by simp [tinyElement_wellFormed]⟩) (by decide)).2
      (by decide)⟩

/-- Ten such elements: 104 bytes, well formed, and the decoder's count assertion fails. -/
theorem readTestCase_write_ten : (TestCase.mk (replicate 10 (tinyElement 97 1))).WellFormed ∧
    (TestCase.mk (replicate 10 (tinyElement 97 1))).write.length ≤ 1000000 ∧
    readTestCase ⟨0, 0, 0⟩ (ofBytes (TestCase.mk (replicate 10 (tinyElement 97 1))).write) =
      .error (.assertion "elem_count != 0 && elem_count < (ssize / elem_count)") := by
  refine ⟨⟨by simp, fun e he => ?_⟩, by decide, by rfl⟩
  rw [eq_of_mem_replicate he]
  exact tinyElement_wellFormed 97 1

end Crete
