/-
  File:      Crete/Dump/MakeConcolic.lean
  Subject:   The instruction that makes a guest variable concolic
             (qemu-1.0/runtime-dump/custom-instructions.cpp, CRETE_INSTR_MAKE_CONCOLIC_VALUE, and
             `RuntimeEnv::feed_test_case` of runtime-dump.cpp), in the build for 64 bit guests.

  The variable is registered with the host address of its first byte. Then the test case is read
  and every registered object whose name it has is written again, from that one host address on.

  * `Framed` -- only the bytes behind the variable are written, and they hold its element.
  * **`makeConcolic_framed_iff`** -- that is so, whatever the bytes of the test case, exactly if it
    is `Fed`: among others, the host bytes behind the variable follow each other and the test case
    has no earlier object.
-/
import Crete.Dump.Concolics
import Crete.Dump.Recording
import Crete.Tci.Interp

namespace Crete

open List

/-! ## 1. Test cases that differ in their bytes -/

namespace TestCaseElement

variable {e e' : TestCaseElement}

/-- The element without its bytes. -/
def blank (e : TestCaseElement) : TestCaseElement :=
  { e with data := replicate e.data.length 0 }

/-- The element with other bytes. -/
def refill (e : TestCaseElement) (f : Nat → UInt8) : TestCaseElement :=
  { e with data := (range e.data.length).map f }

@[simp] theorem refill_length (e : TestCaseElement) (f : Nat → UInt8) :
    (e.refill f).data.length = e.data.length := by
  simp [refill]

@[simp] theorem blank_refill (e : TestCaseElement) (f : Nat → UInt8) :
    (e.refill f).blank = e.blank := by
  simp [refill, blank]

theorem refill_getD {e : TestCaseElement} {f : Nat → UInt8} {j : Nat} (h : j < e.data.length) :
    (e.refill f).data.getD j 0 = f j := by
  simp [refill, getD_eq_getElem?_getD, h]

theorem name_of_blank (h : e.blank = e'.blank) : e.name = e'.name := by
  change e.blank.name = e'.blank.name
  rw [h]

theorem length_of_blank (h : e.blank = e'.blank) : e.data.length = e'.data.length := by
  simpa [blank] using congrArg (fun x => x.data.length) h

theorem Sized.of_blank (h : e.blank = e'.blank) (hs : e.Sized) : e'.Sized where
  nameSize := by
    rw [← name_of_blank h, ← hs.nameSize]
    exact congrArg (fun x => x.nameSize.toNat) h.symm
  dataSize := by
    rw [← length_of_blank h, ← hs.dataSize]
    exact congrArg (fun x => x.dataSize.toNat) h.symm

theorem Sized.length_lt {e : TestCaseElement} (h : e.Sized) : e.data.length < 2 ^ 32 := by
  rw [← h.dataSize]
  exact e.dataSize.toNat_lt

end TestCaseElement

open TestCaseElement

/-- Two test cases of the same names and sizes. -/
def SameLayout (tc tc' : TestCase) : Prop :=
  tc.elems.map blank = tc'.elems.map blank

namespace SameLayout

variable {tc tc' : TestCase}

section

variable (h : SameLayout tc tc')

include h

theorem symm : SameLayout tc' tc := Eq.symm h

theorem map_eq {β : Type} {φ : TestCaseElement → β}
    (hφ : ∀ e, φ e.blank = φ e) : tc.elems.map φ = tc'.elems.map φ := by
  have hcomp : ∀ es : List TestCaseElement, es.map φ = (es.map blank).map φ := by
    intro es
    rw [map_map]
    exact map_congr_left fun e _ => (hφ e).symm
  rw [hcomp tc.elems, hcomp tc'.elems, h]

theorem exists_mem {e' : TestCaseElement} (he : e' ∈ tc'.elems) :
    ∃ e ∈ tc.elems, e.blank = e'.blank :=
  mem_map.1 (h ▸ mem_map_of_mem he)

theorem sized (hs : tc.Sized) : tc'.Sized := by
  intro e' he'
  obtain ⟨e, he, hb⟩ := h.exists_mem he'
  exact (hs e he).of_blank hb

theorem length_eq : tc.elems.length = tc'.elems.length := by
  simpa using congrArg List.length h

theorem encodedSize_eq : tc.encodedSize = tc'.encodedSize := by
  unfold TestCase.encodedSize
  rw [h.map_eq fun e => by simp [encodedSize, blank]]

theorem nonempty (hne : tc.elems ≠ []) : tc'.elems ≠ [] := by
  intro e
  have hlen := h.length_eq
  rw [e, length_nil, length_eq_zero_iff] at hlen
  exact hne hlen

theorem names_le (hn : ∀ e ∈ tc.elems, e.name.length ≤ 1000) :
    ∀ e ∈ tc'.elems, e.name.length ≤ 1000 := by
  intro e' he'
  obtain ⟨e, he, hb⟩ := h.exists_mem he'
  rw [← name_of_blank hb]
  exact hn e he

theorem readable (hr : Readable tc) : Readable tc' where
  nonempty := h.nonempty hr.nonempty
  names := h.names_le hr.names
  size := h.encodedSize_eq ▸ hr.size
  count := by
    rw [← h.length_eq, ← h.encodedSize_eq]
    exact hr.count

end

end SameLayout

namespace Dump

open Crete.Lib Crete.Lib.IStream Option

variable {tc tc' : TestCase}

/-! ## 2. Host memory -/

/-- What is added to the guest addresses of a page, as the TLB has it. -/
abbrev PageMap := UInt64 → UInt64

/-- `getHostAddress`, with pages of 4096 bytes. -/
def getHostAddress (m : PageMap) (addr : UInt64) : UInt64 := addr + m (addr >>> 12)

/-- `memcpy` to host memory. -/
def memcpy (mem : UInt64 → UInt8) (dst : UInt64) (value : Bytes) : UInt64 → UInt8 :=
  fill mem (fun j => dst + UInt64.ofNat j) (fun j => value.getD j 0) value.length

/-- `memset` of host memory. -/
def memset (mem : UInt64 → UInt8) (dst : UInt64) (b : UInt8) (size : UInt64) : UInt64 → UInt8 :=
  fill mem (fun j => dst + UInt64.ofNat j) (fun _ => b) size.toNat

/-- The arguments of a `memcpy`. -/
structure Copy where
  dst : UInt64
  value : Bytes
  deriving DecidableEq, Repr

/-- The copies, one after the other. -/
def copyAll (mem : UInt64 → UInt8) (cs : List Copy) : UInt64 → UInt8 :=
  cs.foldl (fun mem c => memcpy mem c.dst c.value) mem

/-! ## 3. The instruction -/

/-- The state that the instructions of the guest work on. `tci.guest` is the host memory behind the
    guest's. -/
structure HandlerState where
  tci : Tci.State
  recorder : RecorderState
  makeConcolics : List ConcolicMemoryObject
  flagIsFirstIteration : Bool
  flagWriteInitialInput : Bool
  customInstEmit : Bool
  targetPid : UInt64
  captureEnabled : Bool
  tmpWorkaround : Bool

/-- The state as the program starts, with some guest memory. -/
def HandlerState.start (mem : UInt64 → UInt8) : HandlerState where
  tci :=
    { tbPtr := 0, reg := fun _ => 0, host := fun _ => 0, guest := mem, tables := 0, next := none
      analyzer := .init, path := [], moved := [] }
  recorder := .init
  makeConcolics := []
  flagIsFirstIteration := false
  flagWriteInitialInput := false
  customInstEmit := false
  targetPid := 0
  captureEnabled := false
  tmpWorkaround := false

/-- The registers of a make_concolic instruction; `name` is the string at `nameAddr`. -/
structure MakeConcolicCall where
  name : Bytes
  nameAddr : UInt64
  guestAddr : UInt64
  size : UInt64
  deriving DecidableEq, Repr

/-- `cmo`. -/
def MakeConcolicCall.object (m : PageMap) (c : MakeConcolicCall) : ConcolicMemoryObject :=
  ⟨c.name, c.nameAddr, c.guestAddr, getHostAddress m c.guestAddr, c.size⟩

/-- The inner loop of `feed_test_case`: every object of the element's name. -/
def feedElement (objs : List ConcolicMemoryObject) (e : TestCaseElement) :
    Except String (List Copy) :=
  (objs.filter fun o => e.name = o.name).mapM fun o => do
    ensure (e.data.length = o.dataSize.toNat) "value.size() == iter->data_size_"
    return ⟨o.dataHostAddr, e.data⟩

/-- The loops of `feed_test_case`: the copies they make, or the assertion that fails.
    `found_inputs` is the number of copies. -/
def feedElements (objs : List ConcolicMemoryObject) (es : List TestCaseElement) :
    Except String (List Copy) := do
  let copies ← es.mapM (feedElement objs)
  ensure (0 < copies.flatten.length) "found_inputs > 0"
  return copies.flatten

/-- `feed_test_case`. -/
def feedTestCase (u : Uninit) (objs : List ConcolicMemoryObject) (file : Option Bytes) :
    Except ConcolicsStop (List Copy) :=
  match file with
  | none => .error (.assertion "inputs && \"failed to open input argument file!\"")
  | some bytes =>
    match (readTestCase u (ofBytes bytes)).map Prod.fst with
    | .error e => .error (.read e)
    | .ok tc => (feedElements objs tc.elems).mapError .assertion

namespace HandlerState

variable (s : HandlerState)

/-- Host memory, assigned. -/
def setGuest (mem : UInt64 → UInt8) : HandlerState := { s with tci := { s.tci with guest := mem } }

/-- The object is added and its bytes are marked; a new block begins. -/
def register (m : PageMap) (c : MakeConcolicCall) : HandlerState :=
  { s with
    makeConcolics := s.makeConcolics ++ [c.object m]
    tci := { s.tci with
      analyzer := (s.tci.analyzer.tciMakeSymbolic c.guestAddr c.size).tciNextBlock
      moved := [] } }

/-- What is done about a `runtime_error`. -/
def bypass : HandlerState :=
  { s with customInstEmit := false, targetPid := 0, tmpWorkaround := true }

end HandlerState

open HandlerState

/-- **CRETE_INSTR_MAKE_CONCOLIC_VALUE**; `file` is hostfile/input_arguments.bin. -/
def makeConcolic (u : Uninit) (m : PageMap) (file : Option Bytes) (c : MakeConcolicCall)
    (s : HandlerState) : Except ConcolicsStop HandlerState :=
  let s₁ := s.register m c
  if s₁.flagIsFirstIteration && file.isNone then
    .ok { s₁.setGuest (memset s₁.tci.guest (c.object m).dataHostAddr 0 (c.object m).dataSize) with
      flagWriteInitialInput := true }
  else
    match feedTestCase u s₁.makeConcolics file with
    | .ok copies => .ok (s₁.setGuest (copyAll s₁.tci.guest copies))
    | .error (.read (.runtimeError _)) => .ok s₁.bypass
    | .error e => .error e

/-! ## 4. Copies -/

/-- Consecutive addresses are different, within the address space. -/
theorem add_ofNat_inj {n : Nat} (hn : n ≤ 2 ^ 64) (dst : UInt64) :
    ∀ i < n, ∀ j < n, dst + UInt64.ofNat i = dst + UInt64.ofNat j → i = j := by
  intro i hi j hj e
  have h := congrArg UInt64.toNat (UInt64.add_right_inj dst |>.1 e)
  rwa [UInt64.toNat_ofNat', UInt64.toNat_ofNat', Nat.mod_eq_of_lt (by omega),
    Nat.mod_eq_of_lt (by omega)] at h

/-- Byte `j` of a block. -/
theorem fill_block_at {mem : UInt64 → UInt8} {b : Nat → UInt8} {n : Nat} (hn : n ≤ 2 ^ 64)
    (dst : UInt64) {j : Nat} (hj : j < n) :
    fill mem (fun j => dst + UInt64.ofNat j) b n (dst + UInt64.ofNat j) = b j :=
  fill_at (add_ofNat_inj hn dst) hj

/-- The copy writes to `p`. -/
def Copy.Touches (c : Copy) (p : UInt64) : Prop :=
  ∃ j < c.value.length, c.dst + UInt64.ofNat j = p

section Copies

variable {mem : UInt64 → UInt8} {p : UInt64} {cs front back : List Copy}

theorem copyAll_append : copyAll mem (front ++ back) = copyAll (copyAll mem front) back :=
  foldl_append

theorem copyAll_of_untouched (h : ∀ c ∈ cs, ¬ c.Touches p) : copyAll mem cs p = mem p := by
  induction cs generalizing mem with
  | nil => rfl
  | cons c cs ih =>
    have hc : memcpy mem c.dst c.value p = mem p :=
      fill_of_ne fun j hj e => h c (.head _) ⟨j, hj, e⟩
    exact (ih (forall_mem_cons.1 h).2).trans hc

/-- **What is written to comes from one of the copies.** -/
theorem exists_copyAll_eq (h : ∃ c ∈ cs, c.Touches p) :
    ∃ c ∈ cs, ∃ j < c.value.length, copyAll mem cs p = c.value.getD j 0 := by
  induction cs generalizing mem with
  | nil =>
    obtain ⟨c, hc, -⟩ := h
    cases hc
  | cons c cs ih =>
    by_cases hlater : ∃ c' ∈ cs, c'.Touches p
    · obtain ⟨c', hc', j, hj, e⟩ : ∃ c' ∈ cs, ∃ j < c'.value.length,
          copyAll (memcpy mem c.dst c.value) cs p = c'.value.getD j 0 := ih hlater
      exact ⟨c', mem_cons_of_mem c hc', j, hj, e⟩
    · have hrest : copyAll (memcpy mem c.dst c.value) cs p = memcpy mem c.dst c.value p :=
        copyAll_of_untouched fun c' hc' ht => hlater ⟨c', hc', ht⟩
      obtain ⟨c', hc', ht⟩ := h
      rcases mem_cons.1 hc' with rfl | hc'
      · obtain ⟨j, hj, -, hv⟩ : ∃ j < c'.value.length, c'.dst + UInt64.ofNat j = p ∧
            memcpy mem c'.dst c'.value p = c'.value.getD j 0 := exists_fill_eq ht
        exact ⟨c', .head _, j, hj, hrest.trans hv⟩
      · exact absurd ⟨c', hc', ht⟩ hlater

/-- What is written to by copies of one byte. -/
theorem copyAll_eq_of_const {b : UInt8} (h : ∃ c ∈ cs, c.Touches p)
    (hb : ∀ c ∈ cs, ∀ j < c.value.length, c.value.getD j 0 = b) : copyAll mem cs p = b := by
  obtain ⟨c, hc, j, hj, e⟩ := exists_copyAll_eq h
  rw [e, hb c hc j hj]

/-- **The last copy that writes to an address wins.** -/
theorem copyAll_last {c : Copy} {j : Nat} (hlen : c.value.length ≤ 2 ^ 64)
    (hj : j < c.value.length) (hback : ∀ c' ∈ back, ¬ c'.Touches (c.dst + UInt64.ofNat j)) :
    copyAll mem (front ++ c :: back) (c.dst + UInt64.ofNat j) = c.value.getD j 0 := by
  rw [copyAll_append]
  refine (copyAll_of_untouched hback).trans ?_
  exact fill_block_at hlen c.dst hj

end Copies

/-! ## 5. What is fed -/

/-- The element has the size of each object of its name. -/
def SizesFit (objs : List ConcolicMemoryObject) (e : TestCaseElement) : Prop :=
  ∀ o ∈ objs, e.name = o.name → e.data.length = o.dataSize.toNat

/-- The copies of an element. -/
def copiesOf (objs : List ConcolicMemoryObject) (e : TestCaseElement) : List Copy :=
  (objs.filter fun o => e.name = o.name).map fun o => ⟨o.dataHostAddr, e.data⟩

/-- The copies of some elements. -/
def allCopies (objs : List ConcolicMemoryObject) (es : List TestCaseElement) : List Copy :=
  es.flatMap (copiesOf objs)

section Feed

variable {objs : List ConcolicMemoryObject} {e : TestCaseElement} {es : List TestCaseElement}

theorem mem_copiesOf {k : Copy} :
    k ∈ copiesOf objs e ↔ ∃ o ∈ objs, e.name = o.name ∧ k = ⟨o.dataHostAddr, e.data⟩ := by
  simp [copiesOf, and_assoc, eq_comm]

theorem mem_allCopies {k : Copy} : k ∈ allCopies objs es ↔
      ∃ e ∈ es, ∃ o ∈ objs, e.name = o.name ∧ k = ⟨o.dataHostAddr, e.data⟩ := by
  simp only [allCopies, mem_flatMap, mem_copiesOf]

theorem feedElement_ok (h : SizesFit objs e) : feedElement objs e = .ok (copiesOf objs e) := by
  refine mapM_ok fun o ho => ?_
  rw [mem_filter, decide_eq_true_eq] at ho
  rw [ensure_bind, if_pos (h o ho.1 ho.2)]
  rfl

theorem sizesFit_of_ok {ks : List Copy} (h : feedElement objs e = .ok ks) : SizesFit objs e := by
  intro o ho hname
  obtain ⟨k, hk⟩ := mapM_defined h o (mem_filter.2 ⟨ho, decide_eq_true hname⟩)
  exact (ensure_bind_eq_ok.1 hk).1

/-- **The loops of `feed_test_case`.** -/
theorem feedElements_eq_ok_iff {ks : List Copy} : feedElements objs es = .ok ks ↔
      (∀ e ∈ es, SizesFit objs e) ∧ ks = allCopies objs es ∧ ks ≠ [] := by
  unfold feedElements
  constructor
  · intro h
    obtain ⟨kss, hkss, h⟩ := bind_eq_ok.1 h
    obtain ⟨hpos, h⟩ := ensure_bind_eq_ok.1 h
    have hfit : ∀ e ∈ es, SizesFit objs e := by
      intro e he
      obtain ⟨_, hk⟩ := mapM_defined hkss e he
      exact sizesFit_of_ok hk
    cases hkss.symm.trans (mapM_ok (g := copiesOf objs) fun e he => feedElement_ok (hfit e he))
    cases h
    exact ⟨hfit, flatMap_def.symm, ne_nil_of_length_pos hpos⟩
  · rintro ⟨hfit, rfl, hne⟩
    have hpos : 0 < (es.flatMap (copiesOf objs)).length := length_pos_of_ne_nil hne
    rw [mapM_ok (g := copiesOf objs) fun e he => feedElement_ok (hfit e he), ok_bind, ensure_bind,
      ← flatMap_def, if_pos hpos]
    rfl

end Feed

/-- Reading the test case ends in a `runtime_error`, and not in an assertion. -/
def Thrown (tc : TestCase) : Prop :=
  1000000 < tc.encodedSize ∨
    tc.elems ≠ [] ∧ CountFits tc.elems.length tc.encodedSize ∧ ∃ e ∈ tc.elems, 1000 < e.name.length

theorem Thrown.of_sameLayout (h : SameLayout tc tc') (ht : Thrown tc) : Thrown tc' := by
  rcases ht with hsize | ⟨hne, hfit, e, he, hlong⟩
  · exact .inl (h.encodedSize_eq ▸ hsize)
  · obtain ⟨e', he', hb⟩ := h.symm.exists_mem he
    refine .inr ⟨h.nonempty hne, ?_, e', he', ?_⟩
    · rw [← h.length_eq, ← h.encodedSize_eq]
      exact hfit
    · rw [name_of_blank hb]
      exact hlong

section Outcomes

variable (u : Uninit) (m : PageMap) (c : MakeConcolicCall) (s : HandlerState) {tc : TestCase}

/-- The instruction with a test case that is read. -/
theorem makeConcolic_readable (hs : tc.Sized) (hr : Readable tc) :
    makeConcolic u m (some tc.write) c s =
      match feedElements (s.makeConcolics ++ [c.object m]) tc.elems with
      | .ok ks => .ok ((s.register m c).setGuest (copyAll s.tci.guest ks))
      | .error expr => .error (.assertion expr) := by
  have hread := (readTestCase_eq_ok_iff u hs).2 ⟨rfl, hr⟩
  simp only [makeConcolic, feedTestCase, hread, isNone_some, Bool.and_false,
    Bool.false_eq_true, if_false]
  rw [show (s.register m c).makeConcolics = s.makeConcolics ++ [c.object m] from rfl]
  cases feedElements (s.makeConcolics ++ [c.object m]) tc.elems <;> rfl

theorem makeConcolic_feeds (hs : tc.Sized) (hr : Readable tc) (ks : List Copy)
    (hks : feedElements (s.makeConcolics ++ [c.object m]) tc.elems = .ok ks) :
    makeConcolic u m (some tc.write) c s =
      .ok ((s.register m c).setGuest (copyAll s.tci.guest ks)) := by
  rw [makeConcolic_readable u m c s hs hr, hks]

/-- The instruction with a test case that throws. -/
theorem makeConcolic_thrown (hs : tc.Sized) (ht : Thrown tc) :
    makeConcolic u m (some tc.write) c s = .ok (s.register m c).bypass := by
  simp only [makeConcolic, feedTestCase, readTestCase_write_sized u hs, isNone_some,
    Bool.and_false, Bool.false_eq_true, if_false]
  by_cases hsize : tc.encodedSize ≤ 1000000
  · obtain ⟨hne, hfit, e, he, hlong⟩ := ht.resolve_left (Nat.not_lt.2 hsize)
    have hnames : ¬ ∀ e ∈ tc.elems, e.name.length ≤ 1000 := fun h =>
      absurd (h e he) (Nat.not_le.2 hlong)
    rw [if_pos hsize, if_pos ⟨hne, hfit⟩, if_neg hnames]
    rfl
  · rw [if_neg hsize]
    rfl

/-- The instruction with a test case that is neither read nor thrown at. -/
theorem makeConcolic_aborts (hs : tc.Sized) (hr : ¬ Readable tc) (ht : ¬ Thrown tc) :
    makeConcolic u m (some tc.write) c s = .error (.read elemCountAssertion) := by
  have hsize : tc.encodedSize ≤ 1000000 := Nat.not_lt.1 fun h => ht (.inl h)
  have hc : ¬ (tc.elems ≠ [] ∧ CountFits tc.elems.length tc.encodedSize) := by
    rintro ⟨hne, hfit⟩
    by_cases hn : ∀ e ∈ tc.elems, e.name.length ≤ 1000
    · exact hr ⟨hne, hn, hsize, hfit⟩
    · push Not at hn
      exact ht (.inr ⟨hne, hfit, hn⟩)
  simp only [makeConcolic, feedTestCase, readTestCase_write_sized u hs, isNone_some,
    Bool.and_false, Bool.false_eq_true, if_false]
  rw [if_pos hsize, if_neg hc]
  rfl

end Outcomes

/-! ## 6. The frame -/

/-- The host byte is behind a byte of the new object. -/
def Backs (m : PageMap) (c : MakeConcolicCall) (p : UInt64) : Prop :=
  ∃ i < c.size.toNat, getHostAddress m (c.guestAddr + UInt64.ofNat i) = p

/-- **What the instruction should do to memory**: it writes behind the new object only, whose bytes
    are `byte 0, byte 1, …` afterwards, and so to no object from before. -/
structure Framed (m : PageMap) (c : MakeConcolicCall) (byte : Nat → UInt8) (s s' : HandlerState) :
    Prop where
  outside : ∀ p, ¬ Backs m c p → s'.tci.guest p = s.tci.guest p
  inside : ∀ i < c.size.toNat,
    s'.tci.guest (getHostAddress m (c.guestAddr + UInt64.ofNat i)) = byte i
  earlier : ∀ o ∈ s.makeConcolics, ∀ j < o.dataSize.toNat,
    ¬ Backs m c (getHostAddress m (o.dataGuestAddr + UInt64.ofNat j)) →
      s'.tci.guest (getHostAddress m (o.dataGuestAddr + UInt64.ofNat j)) =
        s.tci.guest (getHostAddress m (o.dataGuestAddr + UInt64.ofNat j))

theorem Framed.mk' {m : PageMap} {c : MakeConcolicCall} {byte : Nat → UInt8}
    {s s' : HandlerState} (outside : ∀ p, ¬ Backs m c p → s'.tci.guest p = s.tci.guest p)
    (inside : ∀ i < c.size.toNat,
      s'.tci.guest (getHostAddress m (c.guestAddr + UInt64.ofNat i)) = byte i) :
    Framed m c byte s s' :=
  ⟨outside, inside, fun _ _ _ _ hp => outside _ hp⟩

/-- Byte `i` of the test case's element of a name. -/
def elementByte (tc : TestCase) (name : Bytes) (i : Nat) : UInt8 :=
  match findValue tc.elems name with
  | some (_, value) => value.getD i 0
  | none => 0

/-- The elements in front of the first one of the name. -/
def elemsBefore (tc : TestCase) (name : Bytes) : List TestCaseElement :=
  tc.elems.takeWhile fun e => e.name ≠ name

/-- The elements behind the first one of the name. -/
def elemsAfter (tc : TestCase) (name : Bytes) : List TestCaseElement :=
  (tc.elems.dropWhile fun e => e.name ≠ name).tail

/-- **The conditions under which the test case feeds the new object and nothing else.** -/
structure Fed (m : PageMap) (objs : List ConcolicMemoryObject) (c : MakeConcolicCall)
    (tc : TestCase) : Prop where
  /-- The file is read. -/
  readable : Readable tc
  /-- Elements and objects of one name have one size. -/
  sizes : ∀ e ∈ tc.elems, SizesFit (objs ++ [c.object m]) e
  /-- The host bytes behind the new object follow each other. -/
  contiguous : ∀ i < c.size.toNat, getHostAddress m (c.guestAddr + UInt64.ofNat i) =
    getHostAddress m c.guestAddr + UInt64.ofNat i
  /-- Earlier objects with elements further in front lie behind the new object. -/
  before : ∀ e ∈ elemsBefore tc c.name, ∀ o ∈ objs, e.name = o.name →
    ∀ j < o.dataSize.toNat, Backs m c (o.dataHostAddr + UInt64.ofNat j)
  /-- So do earlier objects of the same name. -/
  same : ∀ o ∈ objs, o.name = c.name →
    ∀ j < o.dataSize.toNat, Backs m c (o.dataHostAddr + UInt64.ofNat j)
  /-- Objects with elements further behind are empty. -/
  after : ∀ e ∈ elemsAfter tc c.name, ∀ o ∈ objs ++ [c.object m], e.name = o.name → o.dataSize = 0

theorem elementByte_split {front back : List TestCaseElement} {e : TestCaseElement}
    {name : Bytes} (hfront : ∀ x ∈ front, x.name ≠ name) (hname : e.name = name) (i : Nat) :
    elementByte ⟨front ++ e :: back⟩ name i = e.data.getD i 0 := by
  have hnone : front.find? (fun e => e.name = name) = none := by
    rw [find?_eq_none]
    intro x hx
    simpa using hfront x hx
  have hfind : (front ++ e :: back).find? (fun e => e.name = name) = some e := by
    rw [find?_append, hnone, none_or, find?_cons_of_pos]
    exact decide_eq_true hname
  simp only [elementByte, findValue, hfind]
  rfl

theorem name_ne_of_mem_before {tc : TestCase} {name : Bytes} {e : TestCaseElement}
    (h : e ∈ elemsBefore tc name) : e.name ≠ name := by
  simpa using mem_takeWhile_imp h

/-- A test case around its first element of a name. -/
theorem exists_split {tc : TestCase} {name : Bytes} (h : ∃ e ∈ tc.elems, e.name = name) :
    ∃ e, e.name = name ∧ tc = ⟨elemsBefore tc name ++ e :: elemsAfter tc name⟩ := by
  cases hd : tc.elems.dropWhile fun e => e.name ≠ name with
  | nil =>
    obtain ⟨e, he, hn⟩ := h
    exact absurd hn (of_decide_eq_true (dropWhile_eq_nil_iff.1 hd e he))
  | cons e rest =>
    have hname : e.name = name := by
      have := head?_dropWhile_not (fun e : TestCaseElement => decide (e.name ≠ name)) tc.elems
      rw [hd] at this
      simpa using this
    have hsplit : tc.elems = elemsBefore tc name ++ e :: elemsAfter tc name := by
      rw [elemsAfter, hd, tail_cons, ← hd, elemsBefore, takeWhile_append_dropWhile]
    exact ⟨e, hname, congrArg TestCase.mk hsplit⟩

theorem ne_comp_blank (name : Bytes) :
    (fun e : TestCaseElement => decide (e.name ≠ name)) ∘ blank = fun e => decide (e.name ≠ name) :=
  rfl

theorem elemsBefore_sameLayout (h : SameLayout tc tc') (name : Bytes) :
    SameLayout ⟨elemsBefore tc name⟩ ⟨elemsBefore tc' name⟩ := by
  have key := congrArg (takeWhile fun e : TestCaseElement => decide (e.name ≠ name)) h
  rwa [takeWhile_map, takeWhile_map, ne_comp_blank] at key

theorem elemsAfter_sameLayout (h : SameLayout tc tc') (name : Bytes) :
    SameLayout ⟨elemsAfter tc name⟩ ⟨elemsAfter tc' name⟩ := by
  have key := congrArg (List.dropWhile fun e : TestCaseElement => decide (e.name ≠ name)) h
  rw [dropWhile_map, dropWhile_map, ne_comp_blank] at key
  have := congrArg List.tail key
  rwa [← map_tail, ← map_tail] at this

theorem Fed.of_sameLayout {m : PageMap} {objs : List ConcolicMemoryObject} {c : MakeConcolicCall}
    (h : SameLayout tc tc') (hf : Fed m objs c tc) : Fed m objs c tc' where
  readable := h.readable hf.readable
  sizes := by
    intro e' he' o ho hname
    obtain ⟨e, he, hb⟩ := h.exists_mem he'
    rw [← length_of_blank hb]
    exact hf.sizes e he o ho ((name_of_blank hb).trans hname)
  contiguous := hf.contiguous
  before := by
    intro e' he' o ho hname
    obtain ⟨e, he, hb⟩ := (elemsBefore_sameLayout h c.name).exists_mem he'
    exact hf.before e he o ho ((name_of_blank hb).trans hname)
  same := hf.same
  after := by
    intro e' he' o ho hname
    obtain ⟨e, he, hb⟩ := (elemsAfter_sameLayout h c.name).exists_mem he'
    exact hf.after e he o ho ((name_of_blank hb).trans hname)

/-! ## 7. From the conditions to the frame -/

section Frame

variable {m : PageMap} {objs : List ConcolicMemoryObject} {c : MakeConcolicCall} {tc : TestCase}

/-- The copies of the whole test case, around the one to the new object. -/
theorem allCopies_split {front back : List TestCaseElement} {e : TestCaseElement}
    (hname : e.name = c.name) :
    allCopies (objs ++ [c.object m]) (front ++ e :: back) =
      (allCopies (objs ++ [c.object m]) front ++ copiesOf objs e) ++
        ⟨getHostAddress m c.guestAddr, e.data⟩ :: allCopies (objs ++ [c.object m]) back := by
  have hlast : copiesOf (objs ++ [c.object m]) e =
      copiesOf objs e ++ [⟨getHostAddress m c.guestAddr, e.data⟩] := by
    have hobj : e.name = (c.object m).name := hname
    simp [copiesOf, filter_append, hobj, MakeConcolicCall.object]
  simp only [allCopies, flatMap_append, flatMap_cons, hlast, append_assoc, cons_append, nil_append]

section

variable (h : Fed m objs c tc) (he : ∃ e ∈ tc.elems, e.name = c.name)

include h he

/-- The element of the new object. -/
theorem Fed.exists_element : ∃ e ∈ tc.elems, e.name = c.name ∧ e.data.length = c.size.toNat ∧
      tc = ⟨elemsBefore tc c.name ++ e :: elemsAfter tc c.name⟩ := by
  obtain ⟨e, hname, hsplit⟩ := exists_split he
  have hmem : e ∈ tc.elems := by
    rw [hsplit]
    exact mem_append_right _ (.head _)
  exact ⟨e, hmem, hname,
    h.sizes e hmem (c.object m) (mem_append_right _ (.head _)) hname, hsplit⟩

/-- Elements further behind write nothing. -/
theorem Fed.after_untouched
    {k : Copy} (hk : k ∈ allCopies (objs ++ [c.object m]) (elemsAfter tc c.name)) (p : UInt64) :
    ¬ k.Touches p := by
  obtain ⟨e, -, -, -, hsplit⟩ := h.exists_element he
  rintro ⟨j, hj, -⟩
  obtain ⟨x, hx, o, ho, hxo, rfl⟩ := mem_allCopies.1 hk
  have hxm : x ∈ tc.elems := by
    rw [hsplit]
    exact mem_append_right _ (mem_cons_of_mem e hx)
  have hzero : x.data.length = 0 := by
    rw [h.sizes x hxm o ho hxo, h.after x hx o ho hxo]
    rfl
  exact absurd hj (by simp only [hzero, Nat.not_lt_zero, not_false_eq_true])

/-- **All that is written is behind the new object.** -/
theorem Fed.backs_of_touches
    {k : Copy} (hk : k ∈ allCopies (objs ++ [c.object m]) tc.elems) {p : UInt64}
    (ht : k.Touches p) : Backs m c p := by
  obtain ⟨e, -, hname, hlen, hsplit⟩ := h.exists_element he
  have hin : ∀ x ∈ elemsBefore tc c.name, x ∈ tc.elems := by
    intro x hx
    rw [hsplit]
    exact mem_append_left _ hx
  rw [hsplit, allCopies_split hname] at hk
  rcases mem_append.1 hk with hk | hk
  · rcases mem_append.1 hk with hk | hk
    · obtain ⟨x, hx, o, ho, hxo, rfl⟩ := mem_allCopies.1 hk
      obtain ⟨j, hj, rfl⟩ := ht
      have hsize := h.sizes x (hin x hx) o ho hxo
      rcases mem_append.1 ho with ho | ho
      · exact h.before x hx o ho hxo j (hsize ▸ hj)
      · rw [mem_singleton.1 ho] at hxo
        exact absurd hxo (name_ne_of_mem_before hx)
    · obtain ⟨o, ho, hxo, rfl⟩ := mem_copiesOf.1 hk
      obtain ⟨j, hj, rfl⟩ := ht
      have hsize := h.sizes e (by rw [hsplit]; simp) o (mem_append_left _ ho) hxo
      exact h.same o ho (hxo.symm.trans hname) j (hsize ▸ hj)
  · rcases mem_cons.1 hk with rfl | hk
    · obtain ⟨j, hj, rfl⟩ := ht
      exact ⟨j, hlen ▸ hj, h.contiguous j (hlen ▸ hj)⟩
    · exact absurd ht (h.after_untouched he hk p)

end

/-- **The conditions are enough.** -/
theorem Fed.framed (h : Fed m objs c tc) (hs : tc.Sized) (he : ∃ e ∈ tc.elems, e.name = c.name)
    (s : HandlerState) :
    Framed m c (elementByte tc c.name) s ((s.register m c).setGuest
      (copyAll s.tci.guest (allCopies (objs ++ [c.object m]) tc.elems))) := by
  refine .mk' (fun p hp => copyAll_of_untouched ?_) fun i hi => ?_
  · exact fun k hk ht => hp (h.backs_of_touches he hk ht)
  · obtain ⟨e, hmem, hname, hlen, hsplit⟩ := h.exists_element he
    have hshort : e.data.length ≤ 2 ^ 64 :=
      (hs e hmem).length_lt.le.trans (Nat.pow_le_pow_right Nat.two_pos (by decide))
    rw [h.contiguous i hi]
    have hback := fun k hk => h.after_untouched he (k := k) hk
      (getHostAddress m c.guestAddr + UInt64.ofNat i)
    rw [hsplit, elementByte_split (fun x hx => name_ne_of_mem_before hx) hname,
      allCopies_split hname]
    exact copyAll_last (c := ⟨getHostAddress m c.guestAddr, e.data⟩) hshort (hlen.symm ▸ hi) hback

/-! ## 8. From the frame to the conditions -/

/-- The memory property for all test cases of one layout and all memories. -/
def AlwaysFramed (u : Uninit) (m : PageMap) (objs : List ConcolicMemoryObject)
    (c : MakeConcolicCall) (tc : TestCase) : Prop :=
  ∀ tc', SameLayout tc tc' → ∀ s : HandlerState, s.makeConcolics = objs →
    ∃ s', makeConcolic u m (some tc'.write) c s = .ok s' ∧ Framed m c (elementByte tc' c.name) s s'

/-- A test case is refilled element by element. -/
theorem sameLayout_refill (es : List TestCaseElement) (f : Nat → UInt8) :
    SameLayout ⟨es⟩ ⟨es.map (·.refill f)⟩ := by
  simp [SameLayout, List.map_map, Function.comp_def]

theorem sameLayout_around (front back : List TestCaseElement) (e : TestCaseElement)
    (f g : Nat → UInt8) :
    SameLayout ⟨front ++ e :: back⟩
      ⟨front.map (·.refill f) ++ e.refill g :: back.map (·.refill f)⟩ := by
  simp [SameLayout, List.map_map, Function.comp_def]

/-- Refilled elements write where the elements do. -/
theorem exists_touches_refill {es : List TestCaseElement} {p : UInt64} (f : Nat → UInt8) :
    (∃ k ∈ allCopies objs (es.map (·.refill f)), k.Touches p) ↔
      ∃ k ∈ allCopies objs es, k.Touches p := by
  constructor
  · rintro ⟨k, hk, j, hj, hp⟩
    obtain ⟨e', he', o, ho, hname, rfl⟩ := mem_allCopies.1 hk
    obtain ⟨e, he, rfl⟩ := mem_map.1 he'
    rw [refill_length] at hj
    exact ⟨_, mem_allCopies.2 ⟨e, he, o, ho, hname, rfl⟩, j, hj, hp⟩
  · rintro ⟨k, hk, j, hj, hp⟩
    obtain ⟨e, he, o, ho, hname, rfl⟩ := mem_allCopies.1 hk
    rw [← refill_length e f] at hj
    exact ⟨_, mem_allCopies.2 ⟨e.refill f, mem_map_of_mem he, o, ho, hname, rfl⟩, j, hj, hp⟩

/-- Elements refilled with one byte write that byte. -/
theorem copyAll_refill_const {es : List TestCaseElement} {mem : UInt64 → UInt8} {p : UInt64}
    (b : UInt8) (h : ∃ k ∈ allCopies objs es, k.Touches p) :
    copyAll mem (allCopies objs (es.map (·.refill fun _ => b))) p = b := by
  refine copyAll_eq_of_const ((exists_touches_refill _).2 h) fun k hk j hj => ?_
  obtain ⟨e', he', o, -, -, rfl⟩ := mem_allCopies.1 hk
  obtain ⟨e, -, rfl⟩ := mem_map.1 he'
  rw [refill_length] at hj
  exact refill_getD hj

section Necessary

variable {u : Uninit} (h : AlwaysFramed u m objs c tc) (hs : tc.Sized) (hr : Readable tc)
include h hs hr

/-- What the property says of the copies. -/
theorem AlwaysFramed.copies {tc' : TestCase} (hl : SameLayout tc tc') (mem : UInt64 → UInt8) :
    (∀ e ∈ tc'.elems, SizesFit (objs ++ [c.object m]) e) ∧
    (∀ p, ¬ Backs m c p → copyAll mem (allCopies (objs ++ [c.object m]) tc'.elems) p = mem p) ∧
    ∀ i < c.size.toNat, copyAll mem (allCopies (objs ++ [c.object m]) tc'.elems)
      (getHostAddress m (c.guestAddr + UInt64.ofNat i)) = elementByte tc' c.name i := by
  obtain ⟨s', hok, hf⟩ := h tc' hl { start mem with makeConcolics := objs } rfl
  rw [makeConcolic_readable u m c _ (hl.sized hs) (hl.readable hr)] at hok
  split at hok
  · next ks hks =>
      obtain ⟨hfit, rfl, -⟩ := feedElements_eq_ok_iff.1 hks
      cases hok
      exact ⟨hfit, hf.outside, hf.inside⟩
  · cases hok

/-- Bytes that are written are behind the new object: with ones over zeros they show. -/
theorem AlwaysFramed.backs {p : UInt64}
    (ht : ∃ k ∈ allCopies (objs ++ [c.object m]) tc.elems, k.Touches p) : Backs m c p := by
  by_contra hp
  have hone := ((h.copies hs hr (sameLayout_refill tc.elems fun _ => 1) fun _ => 0).2.1 p hp)
  rw [copyAll_refill_const 1 ht] at hone
  cases hone

theorem AlwaysFramed.touches {e : TestCaseElement} (he : e ∈ tc.elems) {o : ConcolicMemoryObject}
    (ho : o ∈ objs ++ [c.object m]) (hname : e.name = o.name) {j : Nat}
    (hj : j < o.dataSize.toNat) : Backs m c (o.dataHostAddr + UInt64.ofNat j) := by
  have hsize := (h.copies hs hr rfl fun _ => 0).1 e he o ho hname
  exact h.backs hs hr ⟨_, mem_allCopies.2 ⟨e, he, o, ho, hname, rfl⟩, j, hsize.symm ▸ hj, rfl⟩

/-- What is left at a byte of the new object when its element is refilled with `g` and all other
    elements with the byte `b`. -/
theorem AlwaysFramed.refilled {e : TestCaseElement} (hname : e.name = c.name)
    (hlen : e.data.length = c.size.toNat)
    (hsplit : tc = ⟨elemsBefore tc c.name ++ e :: elemsAfter tc c.name⟩) {i : Nat}
    (hi : i < c.size.toNat) (b : UInt8) (g : Nat → UInt8) :
    ∃ front, copyAll (fun _ => 0) (front ++ ⟨getHostAddress m c.guestAddr, (e.refill g).data⟩ ::
      allCopies (objs ++ [c.object m]) ((elemsAfter tc c.name).map (·.refill fun _ => b)))
        (getHostAddress m (c.guestAddr + UInt64.ofNat i)) = g i := by
  have hl := sameLayout_around (elemsBefore tc c.name) (elemsAfter tc c.name) e (fun _ => b) g
  rw [← hsplit] at hl
  have hat := (h.copies hs hr hl fun _ => 0).2.2 i hi
  have hname' : (e.refill g).name = c.name := hname
  have hfront : ∀ x ∈ (elemsBefore tc c.name).map (·.refill fun _ => b), x.name ≠ c.name := by
    intro x hx
    obtain ⟨y, hy, rfl⟩ := mem_map.1 hx
    exact name_ne_of_mem_before (e := y) hy
  rw [elementByte_split hfront hname', refill_getD (hlen.symm ▸ hi)] at hat
  simp only [allCopies_split hname'] at hat
  exact ⟨_, hat⟩

variable (he : ∃ e ∈ tc.elems, e.name = c.name)
include he

/-- The element of the new object. -/
theorem AlwaysFramed.exists_element :
    ∃ e ∈ tc.elems, e.name = c.name ∧ e.data.length = c.size.toNat ∧
      tc = ⟨elemsBefore tc c.name ++ e :: elemsAfter tc c.name⟩ := by
  obtain ⟨e, hname, hsplit⟩ := exists_split he
  have hmem : e ∈ tc.elems := by
    rw [hsplit]
    exact mem_append_right _ (.head _)
  exact ⟨e, hmem, hname, (h.copies hs hr rfl fun _ => 0).1 e hmem (c.object m)
    (mem_append_right _ (.head _)) hname, hsplit⟩

/-- **The host bytes behind the new object follow each other**: a single one among zeros shows
    where it went. -/
theorem AlwaysFramed.contiguous {i : Nat} (hi : i < c.size.toNat) :
    getHostAddress m (c.guestAddr + UInt64.ofNat i) =
      getHostAddress m c.guestAddr + UInt64.ofNat i := by
  obtain ⟨e, hmem, hname, hlen, hsplit⟩ := h.exists_element hs hr he
  have hnew : c.object m ∈ objs ++ [c.object m] := mem_append_right _ (.head _)
  have hsmall : c.size.toNat ≤ 2 ^ 64 := c.size.toNat_lt.le
  obtain ⟨j, hj, hp⟩ := exists_of_covers (add_ofNat_inj hsmall (getHostAddress m c.guestAddr))
    (fun j hj => by
      obtain ⟨i, hi, e⟩ := h.touches hs hr hmem hnew hname hj
      exact ⟨i, hi, e.symm⟩) hi
  obtain ⟨front, hat⟩ := h.refilled hs hr hname hlen hsplit hi 0 fun k => if k = i then 1 else 0
  rw [if_pos rfl] at hat
  by_cases hback : ∃ k ∈ allCopies (objs ++ [c.object m])
      ((elemsAfter tc c.name).map (·.refill fun _ => 0)),
      k.Touches (getHostAddress m (c.guestAddr + UInt64.ofNat i))
  · rw [append_cons, copyAll_append,
      copyAll_refill_const 0 ((exists_touches_refill _).1 hback)] at hat
    cases hat
  · rw [hp] at hat hback
    have hj' : j < (e.refill fun k => if k = i then 1 else 0).data.length := by
      rw [refill_length, hlen]
      exact hj
    have hsmall' : (e.refill fun k => if k = i then 1 else 0).data.length ≤ 2 ^ 64 := by
      rw [refill_length, hlen]
      exact hsmall
    rw [copyAll_last
      (c := ⟨getHostAddress m c.guestAddr, (e.refill fun k => if k = i then 1 else 0).data⟩)
      hsmall' hj' fun k hk ht => hback ⟨k, hk, ht⟩,
      refill_getD (hlen.symm ▸ hj)] at hat
    by_cases hji : j = i
    · rw [hp, hji]
    · rw [if_neg hji] at hat
      cases hat

/-- **Objects with elements further behind are empty**: ones in them would be left in the zeros of
    the new object. -/
theorem AlwaysFramed.after {x : TestCaseElement} (hx : x ∈ elemsAfter tc c.name)
    {o : ConcolicMemoryObject} (ho : o ∈ objs ++ [c.object m]) (hxo : x.name = o.name) :
    o.dataSize = 0 := by
  obtain ⟨e, -, hname, hlen, hsplit⟩ := h.exists_element hs hr he
  have hxm : x ∈ tc.elems := by
    rw [hsplit]
    exact mem_append_right _ (mem_cons_of_mem e hx)
  by_contra hne
  have hpos : 0 < o.dataSize.toNat :=
    Nat.pos_of_ne_zero fun h0 => hne (UInt64.toNat_inj.1 h0)
  obtain ⟨i, hi, hp⟩ := h.touches hs hr hxm ho hxo hpos
  obtain ⟨front, hat⟩ := h.refilled hs hr hname hlen hsplit hi 1 fun _ => 0
  have hsize := (h.copies hs hr rfl fun _ => 0).1 x hxm o ho hxo
  have hback : ∃ k ∈ allCopies (objs ++ [c.object m]) (elemsAfter tc c.name),
      k.Touches (getHostAddress m (c.guestAddr + UInt64.ofNat i)) :=
    ⟨_, mem_allCopies.2 ⟨x, hx, o, ho, hxo, rfl⟩, 0, hsize.symm ▸ hpos, hp.symm⟩
  rw [append_cons, copyAll_append, copyAll_refill_const 1 hback] at hat
  cases hat

/-- **The conditions are necessary.** -/
theorem AlwaysFramed.fed : Fed m objs c tc := by
  obtain ⟨e, hmem, hname, -, hsplit⟩ := h.exists_element hs hr he
  have hbefore : ∀ x ∈ elemsBefore tc c.name, x ∈ tc.elems := by
    intro x hx
    rw [hsplit]
    exact mem_append_left _ hx
  exact {
    readable := hr
    sizes := (h.copies hs hr rfl fun _ => 0).1
    contiguous := fun i hi => h.contiguous hs hr he hi
    before := fun x hx o ho hxo j hj =>
      h.touches hs hr (hbefore x hx) (mem_append_left _ ho) hxo hj
    same := fun o ho hoc j hj =>
      h.touches hs hr hmem (mem_append_left _ ho) (hname.trans hoc.symm) hj
    after := fun x hx o ho hxo => h.after hs hr he hx ho hxo }

end Necessary

/-- A test case that throws leaves memory alone: the property is left to empty objects. -/
theorem alwaysFramed_thrown_iff (u : Uninit) (hs : tc.Sized) (ht : Thrown tc) :
    AlwaysFramed u m objs c tc ↔ c.size = 0 := by
  constructor
  · intro h
    by_contra hne
    have hpos : 0 < c.size.toNat := Nat.pos_of_ne_zero fun h0 => hne (UInt64.toNat_inj.1 h0)
    obtain ⟨s', hok, hf⟩ := h tc rfl { start (fun _ => elementByte tc c.name 0 + 1) with
      makeConcolics := objs } rfl
    rw [makeConcolic_thrown u m c _ hs ht] at hok
    cases hok
    have hat : elementByte tc c.name 0 + 1 = elementByte tc c.name 0 := hf.inside 0 hpos
    simp at hat
  · intro h0 tc' hl s _
    refine ⟨_, makeConcolic_thrown u m c s (hl.sized hs) (ht.of_sameLayout hl), ?_⟩
    refine .mk' (fun p _ => rfl) fun i hi => ?_
    rw [h0] at hi
    exact absurd hi (Nat.not_lt_zero i)

/-- The property, for a test case. -/
theorem alwaysFramed_iff (u : Uninit) (hs : tc.Sized) (he : ∃ e ∈ tc.elems, e.name = c.name) :
    AlwaysFramed u m objs c tc ↔ Fed m objs c tc ∨ c.size = 0 ∧ Thrown tc := by
  by_cases hr : Readable tc
  · have hnot : ¬ Thrown tc := by
      rintro (hsize | ⟨-, -, e, hmem, hlong⟩)
      · exact absurd hr.size (Nat.not_le.2 hsize)
      · exact absurd (hr.names e hmem) (Nat.not_le.2 hlong)
    constructor
    · exact fun h => .inl (h.fed hs hr he)
    · rintro (h | ⟨-, ht⟩)
      · intro tc' hl s hobjs
        have hfed := h.of_sameLayout hl
        have hs' := hl.sized hs
        have he' : ∃ e ∈ tc'.elems, e.name = c.name := by
          obtain ⟨e, hmem, hname⟩ := he
          obtain ⟨e', hmem', hb⟩ := hl.symm.exists_mem hmem
          exact ⟨e', hmem', (name_of_blank hb).trans hname⟩
        have hne : allCopies (objs ++ [c.object m]) tc'.elems ≠ [] := by
          obtain ⟨e, hmem, hname⟩ := he'
          exact ne_nil_of_mem (mem_allCopies.2
            ⟨e, hmem, c.object m, mem_append_right _ (.head _), hname, rfl⟩)
        refine ⟨_, ?_, hfed.framed hs' he' s⟩
        rw [makeConcolic_readable u m c s hs' hfed.readable, hobjs,
          feedElements_eq_ok_iff.2 ⟨hfed.sizes, rfl, hne⟩]
      · exact absurd ht hnot
  · by_cases ht : Thrown tc
    · rw [alwaysFramed_thrown_iff u hs ht]
      constructor
      · exact fun h0 => .inr ⟨h0, ht⟩
      · rintro (h | ⟨h0, -⟩)
        · exact absurd h.readable hr
        · exact h0
    · constructor
      · intro h
        obtain ⟨s', hok, -⟩ := h tc rfl { start (fun _ => 0) with
          makeConcolics := objs } rfl
        rw [makeConcolic_aborts u m c _ hs hr ht] at hok
        cases hok
      · rintro (h | ⟨-, h⟩)
        · exact absurd h.readable hr
        · exact absurd h ht

/-- The property on the first iteration, when there is no test case and the object is zeroed. -/
theorem zeroed_framed_iff (u : Uninit) :
    (∀ s : HandlerState, s.makeConcolics = objs → s.flagIsFirstIteration = true →
      ∃ s', makeConcolic u m none c s = .ok s' ∧ Framed m c (fun _ => 0) s s') ↔
      ∀ j < c.size.toNat, Backs m c (getHostAddress m c.guestAddr + UInt64.ofNat j) := by
  have hsmall : c.size.toNat ≤ 2 ^ 64 := c.size.toNat_lt.le
  have hrun : ∀ s : HandlerState, s.flagIsFirstIteration = true →
      makeConcolic u m none c s = .ok { (s.register m c).setGuest (memset s.tci.guest
        (getHostAddress m c.guestAddr) 0 c.size) with flagWriteInitialInput := true } := by
    intro s hfirst
    have hcond : ((s.register m c).flagIsFirstIteration && (none : Option Bytes).isNone) =
        true := by
      rw [show (s.register m c).flagIsFirstIteration = s.flagIsFirstIteration from rfl, hfirst]
      rfl
    rw [makeConcolic, if_pos hcond]
    rfl
  constructor
  · intro h j hj
    obtain ⟨s', hok, hf⟩ := h { start (fun _ => 1) with
      makeConcolics := objs, flagIsFirstIteration := true } rfl rfl
    rw [hrun _ rfl] at hok
    cases hok
    by_contra hp
    have hzero : memset (fun _ => 1) (getHostAddress m c.guestAddr) 0 c.size
        (getHostAddress m c.guestAddr + UInt64.ofNat j) = 0 :=
      fill_block_at hsmall _ hj
    have hone : memset (fun _ => 1) (getHostAddress m c.guestAddr) 0 c.size
        (getHostAddress m c.guestAddr + UInt64.ofNat j) = 1 := hf.outside _ hp
    rw [hzero] at hone
    cases hone
  · intro h s _ hfirst
    refine ⟨_, hrun s hfirst, .mk' (fun p hp => ?_) fun i hi => ?_⟩
    · exact fill_of_ne fun j hj e => hp (e ▸ h j hj)
    · obtain ⟨j, hj, e⟩ := exists_of_covers (add_ofNat_inj hsmall (getHostAddress m c.guestAddr))
        (fun j hj => by
          obtain ⟨i, hi, e⟩ := h j hj
          exact ⟨i, hi, e.symm⟩) hi
      rw [e]
      exact fill_block_at hsmall _ hj

end Frame

/-! ## 9. The theorem -/

/-- **The instruction writes the new object and nothing else, whatever the bytes of the test case
    and of memory, exactly if** the test case is `Fed`, or throws and there is nothing to write; on
    the first iteration, without a test case, exactly if the host bytes after the first one of the
    object are all behind it. -/
theorem makeConcolic_framed_iff (u : Uninit) (m : PageMap) (objs : List ConcolicMemoryObject)
    (c : MakeConcolicCall) (tc : TestCase) (hs : tc.Sized) (he : ∃ e ∈ tc.elems, e.name = c.name) :
    ((∀ tc', SameLayout tc tc' → ∀ s : HandlerState, s.makeConcolics = objs →
        ∃ s', makeConcolic u m (some tc'.write) c s = .ok s' ∧
          Framed m c (elementByte tc' c.name) s s') ↔
      Fed m objs c tc ∨ c.size = 0 ∧ Thrown tc) ∧
    ((∀ s : HandlerState, s.makeConcolics = objs → s.flagIsFirstIteration = true →
        ∃ s', makeConcolic u m none c s = .ok s' ∧ Framed m c (fun _ => 0) s s') ↔
      ∀ j < c.size.toNat, Backs m c (getHostAddress m c.guestAddr + UInt64.ofNat j)) :=
  ⟨alwaysFramed_iff u hs he, zeroed_framed_iff u⟩

/-- Uninitialised variables that happen to be zero. -/
def zeroUninit : Uninit := ⟨fun _ => 0, fun _ => 0, fun _ => 0⟩

/-- An object `a` of two bytes at 100, and a test case for it. -/
def callA : MakeConcolicCall := ⟨[97], 50, 100, 2⟩

def testA : TestCase := ⟨[⟨1, [97], 2, [7, 8]⟩]⟩

theorem testA_sized : testA.Sized := by
  intro e he
  cases mem_singleton.1 he
  exact ⟨rfl, rfl⟩

theorem testA_readable : Readable testA := ⟨by decide, by decide, by decide, by decide⟩

/-- The first page is two pages further on the host. -/
def movedPage : PageMap := fun page => if page = 0 then 8192 else 0

/-- The object is there already, and the program registers it again. -/
theorem makeConcolic_framed_two : testA.Sized ∧ ∀ tc', SameLayout testA tc' →
      ∀ s : HandlerState, s.makeConcolics = [callA.object movedPage] →
      ∃ s', makeConcolic zeroUninit movedPage (some tc'.write) callA s = .ok s' ∧
        Framed movedPage callA (elementByte tc' [97]) s s' := by
  have hhost : ∀ i < callA.size.toNat, getHostAddress movedPage (callA.guestAddr + UInt64.ofNat i) =
      getHostAddress movedPage callA.guestAddr + UInt64.ofNat i := by decide
  refine ⟨testA_sized, (makeConcolic_framed_iff zeroUninit movedPage [callA.object movedPage] callA
    testA testA_sized ⟨_, mem_singleton.2 rfl, rfl⟩).1.2 (.inl ?_)⟩
  refine ⟨testA_readable, ?_, hhost, ?_, ?_, ?_⟩
  · intro e he o ho _
    cases mem_singleton.1 he
    rcases mem_append.1 ho with ho | ho
    · cases mem_singleton.1 ho
      rfl
    · cases mem_singleton.1 ho
      rfl
  · exact forall_mem_nil _
  · intro o ho _ j hj
    cases mem_singleton.1 ho
    exact ⟨j, hj, hhost j hj⟩
  · exact forall_mem_nil _

/-- A second object `b`, and a test case for both. -/
def callB : MakeConcolicCall := ⟨[98], 60, 200, 1⟩

def testAB : TestCase := ⟨[⟨1, [97], 2, [7, 8]⟩, ⟨1, [98], 1, [9]⟩]⟩

theorem testAB_sized : testAB.Sized := by
  intro e he
  rcases mem_cons.1 he with rfl | he
  · exact ⟨rfl, rfl⟩
  · cases mem_singleton.1 he
    exact ⟨rfl, rfl⟩

theorem testAB_readable : Readable testAB := ⟨by decide, by decide, by decide, by decide⟩

/-- **The second instruction of an iteration undoes what the program did to the first object**, and
    an object over the end of a page is written to where its second page is not. -/
theorem makeConcolic_rewrites :
    (∃ s₁ s₂, makeConcolic zeroUninit (fun _ => 0) (some testAB.write) callA
        (start fun _ => 0) = .ok s₁ ∧
      makeConcolic zeroUninit (fun _ => 0) (some testAB.write) callB
        (s₁.setGuest (Function.update s₁.tci.guest 100 55)) = .ok s₂ ∧
      (s₁.setGuest (Function.update s₁.tci.guest 100 55)).tci.guest 100 = 55 ∧
      ¬ Backs (fun _ => 0) callB 100 ∧ s₂.tci.guest 100 = 7) ∧
    (∃ s₁, makeConcolic zeroUninit (fun page => if page = 1 then 8192 else 0) (some testA.write)
        ⟨[97], 50, 4095, 2⟩ (start fun _ => 0) = .ok s₁ ∧
      s₁.tci.guest (getHostAddress (fun page => if page = 1 then 8192 else 0) 4096) = 0 ∧
      elementByte testA [97] 1 = 8) := by
  refine ⟨⟨_, _, makeConcolic_feeds zeroUninit _ callA _ testAB_sized testAB_readable
      [⟨100, [7, 8]⟩] (by decide),
    makeConcolic_feeds zeroUninit _ callB _ testAB_sized testAB_readable
      [⟨100, [7, 8]⟩, ⟨200, [9]⟩] (by decide), rfl, ?_, by decide⟩,
    _, makeConcolic_feeds zeroUninit _ _ _ testA_sized testA_readable
      [⟨4095, [7, 8]⟩] (by decide), by decide, by decide⟩
  rintro ⟨i, hi, e⟩
  have h0 : i = 0 := Nat.lt_one_iff.1 hi
  rw [h0] at e
  exact absurd e (by decide)

end Dump

end Crete
