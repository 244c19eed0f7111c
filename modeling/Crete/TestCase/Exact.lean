/-
  File:      Crete/TestCase/Exact.lean
  Subject:   What the decoder of lib/test-case/test_case.cpp accepts.

  No read is checked. A read that comes up short leaves the stream failed, and the next
  `stream_size` notices; but nothing is read after the last element, so that a stream that ends
  within it is accepted, with zeros or old values for the bytes that were not there.

  * `Complete` -- the bytes that the counts and sizes in a stream announce are all there.
  * **`readTestCase_exact_iff`** -- an accepted test case is encoded at the front of the stream
    exactly if the stream is complete.
  * `readTestCase_truncated` -- a stream that lacks its last byte, and is accepted.
-/
import Crete.TestCase.Codec

namespace Crete

open Crete.Lib Crete.Lib.IStream List

/-! ## 1. Streams that hold what they announce -/

/-- What follows an element whose fields, as long as its own sizes say, are all there. -/
def afterElement (bs : Bytes) : Option Bytes :=
  let n := ofLeBytes (bs.take 4)
  let m := ofLeBytes ((bs.drop (4 + n)).take 4)
  if 4 ≤ bs.length ∧ 4 + n + 4 ≤ bs.length ∧ 4 + n + 4 + m ≤ bs.length then
    some (bs.drop (4 + n + 4 + m))
  else none

/-- What follows `n` such elements. -/
def afterElements : Nat → Bytes → Option Bytes
  | 0, bs => some bs
  | n + 1, bs => (afterElement bs).bind (afterElements n)

/-- The count is there, and as many elements as it says, each with all of its bytes. -/
def Complete (bs : Bytes) : Prop :=
  4 ≤ bs.length ∧ (afterElements (ofLeBytes (bs.take 4)) (bs.drop 4)).isSome = true
  deriving Decidable

/-- The encoding of an element is a whole element. -/
theorem afterElement_write {e : TestCaseElement} (he : e.Sized) (r : Bytes) :
    afterElement (writeElement e ++ r) = some r := by
  have hn := e.nameSize.toNat_lt
  have hm := e.dataSize.toNat_lt
  have hname : ofLeBytes ((writeElement e ++ r).take 4) = e.nameSize.toNat := by
    rw [writeElement, append_assoc, take_left' (leBytes_length _ _), ofLeBytes_leBytes_of_lt hn]
  have hfront : (leBytes 4 e.nameSize.toNat ++ e.name).length = 4 + e.nameSize.toNat := by
    rw [length_append, leBytes_length, he.nameSize]
  have hdata : ofLeBytes (((writeElement e ++ r).drop (4 + e.nameSize.toNat)).take 4) =
      e.dataSize.toNat := by
    have hsplit : writeElement e ++ r = (leBytes 4 e.nameSize.toNat ++ e.name) ++
        (leBytes 4 e.dataSize.toNat ++ (e.data ++ r)) := by
      simp only [writeElement, append_assoc]
    rw [hsplit, drop_left' hfront, take_left' (leBytes_length _ _), ofLeBytes_leBytes_of_lt hm]
  have hlen : (writeElement e).length = 4 + e.nameSize.toNat + 4 + e.dataSize.toNat := by
    rw [writeElement_length, TestCaseElement.encodedSize, he.nameSize, he.dataSize]
    omega
  simp only [afterElement, hname, hdata]
  rw [if_pos (by rw [length_append, hlen]; omega), drop_left' hlen]

/-- A whole element is the encoding of one. -/
theorem exists_of_afterElement {bs r : Bytes} (h : afterElement bs = some r) :
    ∃ e : TestCaseElement, e.Sized ∧ bs = writeElement e ++ r := by
  simp only [afterElement] at h
  split at h
  · rename_i hc
    cases h
    obtain ⟨h₁, h₂, h₃⟩ := hc
    generalize hn : ofLeBytes (bs.take 4) = n at *
    generalize hm : ofLeBytes ((bs.drop (4 + n)).take 4) = m at *
    have hnl : (bs.take 4).length = 4 := by rw [length_take]; omega
    have hml : ((bs.drop (4 + n)).take 4).length = 4 := by
      rw [length_take, length_drop]
      omega
    -- a word of four bytes is the number they spell
    have word : ∀ {w : Bytes} {k : Nat}, w.length = 4 → ofLeBytes w = k →
        (UInt32.ofNat k).toNat = k ∧ leBytes 4 k = w := by
      intro w k hl hk
      have hlt := ofLeBytes_lt w
      have hb := leBytes_ofLeBytes w
      rw [hl, hk] at hlt hb
      refine ⟨?_, hb⟩
      rw [UInt32.toNat_ofNat']
      exact Nat.mod_eq_of_lt hlt
    obtain ⟨hnw, hnb⟩ := word hnl hn
    obtain ⟨hmw, hmb⟩ := word hml hm
    refine ⟨⟨.ofNat n, (bs.drop 4).take n, .ofNat m, (bs.drop (4 + n + 4)).take m⟩, ⟨?_, ?_⟩, ?_⟩
    · rw [hnw, length_take, length_drop]
      omega
    · rw [hmw, length_take, length_drop]
      omega
    · simp only [writeElement, hnw, hmw, hnb, hmb, append_assoc]
      have hdrop : ∀ a b : Nat, bs.drop (a + b) = (bs.drop a).drop b := fun a b => by
        rw [drop_drop]
      rw [hdrop (4 + n + 4) m, take_append_drop, hdrop (4 + n) 4, take_append_drop,
        hdrop 4 n, take_append_drop, take_append_drop]
  · cases h

theorem afterElements_write : ∀ {es : List TestCaseElement}, (∀ e ∈ es, e.Sized) →
    ∀ r : Bytes, afterElements es.length (es.flatMap writeElement ++ r) = some r
  | [], _, r => rfl
  | e :: es, h, r => by
    rw [flatMap_cons, append_assoc, length_cons, afterElements,
      afterElement_write (h e (.head _)), Option.bind_some]
    exact afterElements_write (forall_mem_cons.1 h).2 r

/-- The encoding of a test case is complete. -/
theorem complete_write {tc : TestCase} (hsized : ∀ e ∈ tc.elems, e.Sized)
    (hcount : tc.elems.length < 2 ^ 32) (r : Bytes) : Complete (tc.write ++ r) := by
  have hc : (UInt32.ofNat tc.elems.length).toNat = tc.elems.length := by
    rw [UInt32.toNat_ofNat']
    exact Nat.mod_eq_of_lt hcount
  have hl : (leBytes 4 tc.elems.length).length = 4 := leBytes_length _ _
  refine ⟨by simp [TestCase.write, writeElements], ?_⟩
  rw [TestCase.write, writeElements, hc, append_assoc, take_left' hl,
    drop_left' hl, ofLeBytes_leBytes_of_lt hcount, afterElements_write hsized]
  rfl

/-! ## 2. One element -/

section Element

variable {u : Uninit} {is is' : IStream} {e : TestCaseElement}

/-- A failed stream is refused. -/
theorem readTestCaseElement_failed (h : is.fail = true) :
    readTestCaseElement u is = .error fileTooLarge := by
  simp [readTestCaseElement, streamSize, tellg, seekg, h]

section

variable (h : readTestCaseElement u is = .ok (e, is'))

include h

/-- The four reads of an element that is returned. -/
theorem readTestCaseElement_reads :
    ∃ is₁ is₂ is₃ : IStream, is.fail = false ∧ is.readWord (u.nameSize is.pos) = (e.nameSize, is₁) ∧
      is₁.readInto (replicate e.nameSize.toNat 0) = (e.name, is₂) ∧
      is₂.readWord (u.dataSize is₂.pos) = (e.dataSize, is₃) ∧
      is₃.readInto (replicate e.dataSize.toNat 0) = (e.data, is') := by
  have hf : is.fail = false := by
    cases hfail : is.fail with
    | false => rfl
    | true =>
      rw [readTestCaseElement_failed hfail] at h
      cases h
  simp only [readTestCaseElement, streamSize_good hf] at h
  obtain ⟨-, h⟩ := ensure_bind_eq_ok.1 h
  obtain ⟨-, h⟩ := ensure_bind_eq_ok.1 h
  obtain ⟨-, h⟩ := ensure_bind_eq_ok.1 h
  obtain ⟨-, h⟩ := ensure_bind_eq_ok.1 h
  obtain ⟨-, h⟩ := ensure_bind_eq_ok.1 h
  cases h
  exact ⟨_, _, _, hf, rfl, rfl, rfl, rfl⟩

/-- An element that is returned has vectors of the sizes it says, read or not. -/
theorem readTestCaseElement_sized : e.Sized := by
  obtain ⟨is₁, is₂, is₃, -, -, h₂, -, h₄⟩ := readTestCaseElement_reads h
  have hname := readInto_length is₁ (replicate e.nameSize.toNat 0)
  have hdata := readInto_length is₃ (replicate e.dataSize.toNat 0)
  rw [h₂, length_replicate] at hname
  rw [h₄, length_replicate] at hdata
  exact ⟨hname.symm, hdata.symm⟩

/-- **A whole element is read as it stands in the stream.** -/
theorem readTestCaseElement_complete {r : Bytes} (ha : afterElement is.rest = some r) :
    is.rest = writeElement e ++ r ∧ is' = is.advance (writeElement e).length := by
  obtain ⟨is₁, is₂, is₃, hf, h₁, h₂, h₃, h₄⟩ := readTestCaseElement_reads h
  obtain ⟨e₀, he₀, hrest⟩ := exists_of_afterElement ha
  have hat : is.At (writeElement e₀) r := ⟨hf, hrest⟩
  have hname := hat.advance
  rw [leBytes_length] at hname
  have hsize := hname.advance
  rw [← he₀.nameSize] at hsize
  have hdata := hsize.advance
  rw [leBytes_length] at hdata
  -- each read finds the field of `e₀`
  obtain ⟨n, name, m, data⟩ := e
  rw [readWord_at hat.left] at h₁
  obtain ⟨rfl, rfl⟩ := Prod.mk.inj h₁
  rw [readInto_replicate_at hname.left he₀.nameSize] at h₂
  obtain ⟨rfl, rfl⟩ := Prod.mk.inj h₂
  rw [readWord_at hsize.left] at h₃
  obtain ⟨rfl, rfl⟩ := Prod.mk.inj h₃
  rw [readInto_replicate_at hdata he₀.dataSize] at h₄
  obtain ⟨rfl, rfl⟩ := Prod.mk.inj h₄
  have hlen : 4 + (e₀.nameSize.toNat + (4 + e₀.dataSize.toNat)) = (writeElement e₀).length := by
    rw [writeElement_length, TestCaseElement.encodedSize, he₀.nameSize, he₀.dataSize]
    omega
  refine ⟨hrest, ?_⟩
  rw [advance_advance, advance_advance, advance_advance, hlen]

end

end Element

/-! ## 3. The test case -/

/-- **The loop over whole elements.** -/
theorem readMany_complete {u : Uninit} : ∀ {n : Nat} {is is' : IStream}
    {es : List TestCaseElement} {r : Bytes},
    readMany (readTestCaseElement u) n is = .ok (es, is') → afterElements n is.rest = some r →
    is.rest = es.flatMap writeElement ++ r ∧ is' = is.advance (es.flatMap writeElement).length
  | 0, is, is', es, r, h, ha => by
    cases h
    cases ha
    exact ⟨rfl, rfl⟩
  | n + 1, is, is', es, r, h, ha => by
    obtain ⟨r₁, ha₁, ha⟩ := Option.bind_eq_some_iff.1 ha
    rw [readMany] at h
    obtain ⟨⟨e, is₁⟩, h₁, h⟩ := bind_eq_ok.1 h
    obtain ⟨⟨es₁, is₂⟩, h₂, h⟩ := bind_eq_ok.1 h
    cases h
    obtain ⟨hrest, rfl⟩ := readTestCaseElement_complete h₁ ha₁
    have hr₁ : (is.advance (writeElement e).length).rest = r₁ := by
      rw [advance_rest, hrest, drop_left]
    obtain ⟨hrest₁, rfl⟩ := readMany_complete h₂ (hr₁.symm ▸ ha)
    rw [hr₁] at hrest₁
    rw [flatMap_cons, append_assoc, ← hrest₁, advance_advance, length_append]
    exact ⟨hrest, rfl⟩

/-- The parts of a test case that is returned: the count, and as many elements. -/
theorem readTestCase_reads {u : Uninit} {is is' : IStream} {tc : TestCase}
    (h : readTestCase u is = .ok (tc, is')) :
    ∃ (count : UInt32) (is₁ : IStream), is.fail = false ∧
      is.readWord (u.count is.pos) = (count, is₁) ∧
      readMany (readTestCaseElement u) count.toNat is₁ = .ok (tc.elems, is') := by
  have hf : is.fail = false := by
    cases hfail : is.fail with
    | false => rfl
    | true => simp [readTestCase, streamSize, tellg, seekg, hfail] at h
  simp only [readTestCase, streamSize_good hf] at h
  obtain ⟨-, h⟩ := ensure_bind_eq_ok.1 h
  obtain ⟨-, h⟩ := ensure_bind_eq_ok.1 h
  obtain ⟨⟨es, is₂⟩, hmany, h⟩ := bind_eq_ok.1 h
  cases h
  exact ⟨_, _, hf, rfl, hmany⟩

/-- **What the decoder accepts.** If a test case is returned, then its encoding is the front of
    the stream and the stream stands just behind it, exactly if the stream holds all the bytes
    that its counts and sizes announce. -/
theorem readTestCase_exact_iff (u : Uninit) (is is' : IStream) (tc : TestCase)
    (h : readTestCase u is = .ok (tc, is')) :
    (tc.write <+: is.rest ∧ is' = is.advance tc.write.length) ↔ Complete is.rest := by
  obtain ⟨count, is₁, hf, hcount, hmany⟩ := readTestCase_reads h
  obtain ⟨hlen, hsized⟩ := readMany_ok (fun _ _ _ => readTestCaseElement_sized) hmany
  have hlt : tc.elems.length < 2 ^ 32 := by
    rw [hlen]
    exact count.toNat_lt
  constructor
  · rintro ⟨⟨r, hr⟩, -⟩
    rw [← hr]
    exact complete_write hsized hlt r
  · rintro ⟨h4, hall⟩
    obtain ⟨r, hall⟩ := Option.isSome_iff_exists.1 hall
    -- the count that was read is the one in the stream
    have hl : (is.rest.take 4).length = 4 := by rw [length_take]; omega
    have hbytes : leBytes 4 (ofLeBytes (is.rest.take 4)) = is.rest.take 4 := by
      have := leBytes_ofLeBytes (is.rest.take 4)
      rwa [hl] at this
    have hword : (UInt32.ofNat (ofLeBytes (is.rest.take 4))).toNat =
        ofLeBytes (is.rest.take 4) := by
      have := ofLeBytes_lt (is.rest.take 4)
      rw [hl] at this
      rw [UInt32.toNat_ofNat']
      exact Nat.mod_eq_of_lt this
    have hat : is.At (leBytes 4 (UInt32.ofNat (ofLeBytes (is.rest.take 4))).toNat)
        (is.rest.drop 4) := by
      rw [hword, hbytes]
      exact ⟨hf, (take_append_drop 4 is.rest).symm⟩
    rw [readWord_at hat] at hcount
    obtain ⟨rfl, rfl⟩ := Prod.mk.inj hcount
    rw [hword] at hlen hmany
    have hr₁ : (is.advance 4).rest = is.rest.drop 4 := advance_rest is 4
    obtain ⟨hrest, rfl⟩ := readMany_complete hmany (hr₁.symm ▸ hall)
    rw [hr₁] at hrest
    have hc : (UInt32.ofNat tc.elems.length).toNat = tc.elems.length := by
      rw [UInt32.toNat_ofNat']
      exact Nat.mod_eq_of_lt hlt
    have hwrite : tc.write = is.rest.take 4 ++ tc.elems.flatMap writeElement := by
      rw [TestCase.write, writeElements, hc, hlen, hbytes]
    refine ⟨⟨r, ?_⟩, ?_⟩
    · rw [hwrite, append_assoc, ← hrest, take_append_drop]
    · rw [hwrite, length_append, hl, advance_advance]

/-- A complete stream, with a byte behind the test case. -/
theorem readTestCase_exact_one :
    (TestCase.mk [tinyElement 97 1]).write <+: [1, 0, 0, 0, 1, 0, 0, 0, 97, 1, 0, 0, 0, 1, 9] ∧
    IStream.mk [1, 0, 0, 0, 1, 0, 0, 0, 97, 1, 0, 0, 0, 1, 9] 14 false =
      (ofBytes [1, 0, 0, 0, 1, 0, 0, 0, 97, 1, 0, 0, 0, 1, 9]).advance
        (TestCase.mk [tinyElement 97 1]).write.length :=
  (readTestCase_exact_iff ⟨0, 0, 0⟩ (ofBytes [1, 0, 0, 0, 1, 0, 0, 0, 97, 1, 0, 0, 0, 1, 9])
    ⟨[1, 0, 0, 0, 1, 0, 0, 0, 97, 1, 0, 0, 0, 1, 9], 14, false⟩ ⟨[tinyElement 97 1]⟩
    (by rfl)).2 (by decide)

/-- **A truncated stream that is accepted.** The element says that it has two bytes of data, and
    the stream ends after the first; the second is read as 0. -/
theorem readTestCase_truncated :
    (readTestCase ⟨0, 0, 0⟩ (ofBytes [1, 0, 0, 0, 1, 0, 0, 0, 97, 2, 0, 0, 0, 7])).map Prod.fst =
      .ok ⟨[⟨1, [97], 2, [7, 0]⟩]⟩ ∧
    ¬ (TestCase.mk [⟨1, [97], 2, [7, 0]⟩]).write <+:
      [1, 0, 0, 0, 1, 0, 0, 0, 97, 2, 0, 0, 0, 7] := by
  refine ⟨by rfl, ?_⟩
  decide

end Crete
