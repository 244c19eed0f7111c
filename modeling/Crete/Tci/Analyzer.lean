/-
  File:      Crete/Tci/Analyzer.lean
  Subject:   The dependence analysis of the byte code interpreter
             (front-end/qemu-1.0/runtime-dump/tci_analyzer.cpp).

  The analyzer marks registers, bytes of CPU state and bytes of guest memory as symbolic, and the
  current block as soon as one of its operations touches a symbolic value. The interpreter calls
  it at every register access and after every memory access.

  * `tciReadReg`, `tciWriteReg` -- a register is symbolic if the operation that wrote it had read
    something symbolic.
  * `tciLd…`, `tciSt…`, `tciQemuLd…`, `tciQemuSt…` -- the rules of the memory operations, each
    with the operation's own width.
-/
import Mathlib.Algebra.Order.Ring.Int

namespace Crete.Tci

/-- `register_count` registers. -/
abbrev Reg := Fin 16

instance instNeZeroRegisterCount : NeZero 16 := ⟨by decide⟩

/-- `class Analyzer`, with `is_block_branching` and `crete_read_was_symbolic`. -/
structure Analyzer where
  reg : Reg → Bool
  guestMem : UInt64 → Bool
  hostMem : UInt64 → Bool
  block : Bool
  branching : Bool
  readWasSymbolic : Bool

namespace Analyzer

/-! ## 1. Marks -/

/-- The analyzer and the static variables as the program starts: nothing is marked. -/
def init : Analyzer where
  reg _ := false
  guestMem _ := false
  hostMem _ := false
  block := false
  branching := false
  readWasSymbolic := false

def isRegSymbolic (a : Analyzer) (i : Reg) : Bool := a.reg i

def makeRegSymbolic (a : Analyzer) (i : Reg) : Analyzer :=
  { a with reg := Function.update a.reg i true, block := true }

def makeRegConcrete (a : Analyzer) (i : Reg) : Analyzer :=
  { a with reg := Function.update a.reg i false }

def makeGuestMemSymbolic (a : Analyzer) (addr : UInt64) : Analyzer :=
  { a with guestMem := Function.update a.guestMem addr true, block := true }

def makeGuestMemConcrete (a : Analyzer) (addr : UInt64) : Analyzer :=
  { a with guestMem := Function.update a.guestMem addr false }

def makeHostMemSymbolic (a : Analyzer) (addr : UInt64) : Analyzer :=
  { a with hostMem := Function.update a.hostMem addr true, block := true }

def makeHostMemConcrete (a : Analyzer) (addr : UInt64) : Analyzer :=
  { a with hostMem := Function.update a.hostMem addr false }

/-- The overloads for several bytes: one of `n` bytes from `addr` is marked. -/
def anyByte (marked : UInt64 → Bool) (addr : UInt64) (n : Nat) : Bool :=
  (List.range n).any fun j => marked (addr + UInt64.ofNat j)

/-- The overloads for several bytes: `f` at each of `n` bytes from `addr`. -/
def eachByte (f : Analyzer → UInt64 → Analyzer) (a : Analyzer) (addr : UInt64) : Nat → Analyzer
  | 0 => a
  | n + 1 => f (eachByte f a addr n) (addr + UInt64.ofNat n)

/-! ## 2. Blocks and registers -/

/-- `crete_tci_reg_monitor_begin`. -/
def regMonitorBegin (a : Analyzer) : Analyzer := { a with readWasSymbolic := false }

/-- `crete_tci_read_reg`. -/
def tciReadReg (a : Analyzer) (i : Reg) : Analyzer :=
  if a.isRegSymbolic i then { a with readWasSymbolic := true, block := true } else a

/-- `crete_tci_write_reg`. -/
def tciWriteReg (a : Analyzer) (i : Reg) : Analyzer :=
  if a.readWasSymbolic then a.makeRegSymbolic i else a.makeRegConcrete i

/-- `crete_tci_make_symbolic`. -/
def tciMakeSymbolic (a : Analyzer) (addr : UInt64) (size : UInt64) : Analyzer :=
  eachByte makeGuestMemSymbolic a addr size.toNat

/-- `crete_tci_next_block`. -/
def tciNextBlock (a : Analyzer) : Analyzer := { a with block := false, branching := false }

/-- `crete_tci_next_iteration`: a new `Analyzer`, which the two static variables are not part of. -/
def tciNextIteration (a : Analyzer) : Analyzer :=
  { init with branching := a.branching, readWasSymbolic := a.readWasSymbolic }

/-- `crete_tci_mark_block_symbolic`. -/
def tciMarkBlockSymbolic (a : Analyzer) : Analyzer := { a with block := true }

/-- `crete_tci_brcond`. -/
def tciBrcond (a : Analyzer) : Analyzer := { a with branching := true }

/-! ## 3. Memory operations -/

/-- The rule of all loads: the register is as symbolic as what was loaded. -/
def loadRule (a : Analyzer) (t0 : Reg) (symbolic : Bool) : Analyzer :=
  if symbolic then a.makeRegSymbolic t0 else a.makeRegConcrete t0

/-- A load of `n` bytes of CPU state. -/
def hostLoadRule (n : Nat) (a : Analyzer) (t0 : Reg) (t1 offset : UInt64) : Analyzer :=
  a.loadRule t0 (anyByte a.hostMem (t1 + offset) n)

/-- A store of `n` bytes of CPU state. -/
def hostStoreRule (n : Nat) (a : Analyzer) (t1 offset : UInt64) : Analyzer :=
  if a.readWasSymbolic then eachByte makeHostMemSymbolic a (t1 + offset) n
  else eachByte makeHostMemConcrete a (t1 + offset) n

/-- A load of `n` bytes of guest memory. -/
def guestLoadRule (n : Nat) (a : Analyzer) (t0 : Reg) (addr : UInt64) : Analyzer :=
  a.loadRule t0 (anyByte a.guestMem addr n)

/-- A store of `n` bytes of guest memory. -/
def guestStoreRule (n : Nat) (a : Analyzer) (symbolic : Bool) (addr : UInt64) : Analyzer :=
  if symbolic then eachByte makeGuestMemSymbolic a addr n
  else eachByte makeGuestMemConcrete a addr n

def tciLd8uI32 := hostLoadRule 1

def tciLdI32 := hostLoadRule 4

def tciSt8I32 := hostStoreRule 1

def tciSt16I32 := hostStoreRule 2

def tciStI32 := hostStoreRule 4

def tciLd8uI64 := tciLd8uI32

def tciLd32uI64 := tciLdI32

def tciLd32sI64 := tciLdI32

def tciLdI64 := hostLoadRule 8

def tciSt8I64 := tciSt8I32

def tciSt16I64 := tciSt16I32

def tciSt32I64 := tciStI32

def tciStI64 := hostStoreRule 8

def tciQemuLd8u := guestLoadRule 1

def tciQemuLd8s := tciQemuLd8u

def tciQemuLd16u := guestLoadRule 2

def tciQemuLd16s := tciQemuLd16u

def tciQemuLd32u := guestLoadRule 4

def tciQemuLd32s := tciQemuLd32u

def tciQemuLd32 := tciQemuLd32u

def tciQemuLd64 := guestLoadRule 8

/-- The narrow stores ask for the stored register. -/
def tciQemuSt8 (a : Analyzer) (t0 : Reg) := guestStoreRule 1 a (a.isRegSymbolic t0)

def tciQemuSt16 (a : Analyzer) (t0 : Reg) := guestStoreRule 2 a (a.isRegSymbolic t0)

def tciQemuSt32 (a : Analyzer) (t0 : Reg) := guestStoreRule 4 a (a.isRegSymbolic t0)

/-- The wide store asks whether anything symbolic was read. -/
def tciQemuSt64 (a : Analyzer) := guestStoreRule 8 a a.readWasSymbolic

/-! ## 4. Several bytes -/

theorem anyByte_eq_false {marked : UInt64 → Bool} {addr : UInt64} {n : Nat} :
    anyByte marked addr n = false ↔ ∀ j < n, marked (addr + UInt64.ofNat j) = false := by
  rw [anyByte, List.any_eq_false]
  constructor
  · intro h j hj
    exact Bool.eq_false_iff.2 (h j (List.mem_range.2 hj))
  · intro h j hj
    exact Bool.eq_false_iff.1 (h j (List.mem_range.1 hj))

section EachByte

variable (f : Analyzer → UInt64 → Analyzer) (a : Analyzer) (addr : UInt64)

/-- What `f` leaves alone. -/
theorem eachByte_frame {β : Type} (π : Analyzer → β) (h : ∀ a x, π (f a x) = π a) (n : Nat) :
    π (eachByte f a addr n) = π a := by
  induction n with
  | zero => rfl
  | succ n ih => rw [eachByte, h, ih]

/-- The marks that `f` sets to `b`, one address at a time. -/
theorem eachByte_marks (π : Analyzer → UInt64 → Bool) {b : Bool}
    (h : ∀ a x, π (f a x) = Function.update (π a) x b) (n : Nat) (p : UInt64) :
    π (eachByte f a addr n) p = if ∃ j < n, addr + UInt64.ofNat j = p then b else π a p := by
  induction n with
  | zero => simp [eachByte]
  | succ n ih =>
    rw [eachByte, h]
    by_cases hp : addr + UInt64.ofNat n = p
    · rw [← hp, Function.update_self, if_pos ⟨n, Nat.lt_succ_self n, rfl⟩]
    · rw [Function.update_of_ne (Ne.symm hp), ih]
      refine if_congr ⟨fun ⟨j, hj, e⟩ => ⟨j, Nat.lt_succ_of_lt hj, e⟩, fun ⟨j, hj, e⟩ => ?_⟩ rfl rfl
      rcases Nat.lt_succ_iff_lt_or_eq.1 hj with hj | hj
      · exact ⟨j, hj, e⟩
      · rw [hj] at e
        exact absurd e hp

/-- The block keeps its mark. -/
theorem eachByte_block (h : ∀ a x, (f a x).block = false → a.block = false) (n : Nat) :
    (eachByte f a addr n).block = false → a.block = false := by
  induction n with
  | zero => exact id
  | succ n ih => exact fun hb => ih (h _ _ hb)

end EachByte

/-! ## 5. What the rules of stores change -/

theorem hostStoreRule_hostMem (n : Nat) (a : Analyzer) (t1 offset p : UInt64) :
    (hostStoreRule n a t1 offset).hostMem p =
      if ∃ j < n, t1 + offset + UInt64.ofNat j = p then a.readWasSymbolic else a.hostMem p := by
  unfold hostStoreRule
  split
  · rename_i hr
    rw [hr]
    exact eachByte_marks makeHostMemSymbolic a _ hostMem (fun _ _ => rfl) n p
  · rename_i hr
    rw [Bool.eq_false_iff.2 hr]
    exact eachByte_marks makeHostMemConcrete a _ hostMem (fun _ _ => rfl) n p

theorem hostStoreRule_frame {β : Type} (π : Analyzer → β)
    (h : ∀ a x, π (makeHostMemSymbolic a x) = π a) (h' : ∀ a x, π (makeHostMemConcrete a x) = π a)
    (n : Nat) (a : Analyzer) (t1 offset : UInt64) : π (hostStoreRule n a t1 offset) = π a := by
  unfold hostStoreRule
  split
  · exact eachByte_frame makeHostMemSymbolic a _ π h n
  · exact eachByte_frame makeHostMemConcrete a _ π h' n

theorem hostStoreRule_block {n : Nat} {a : Analyzer} {t1 offset : UInt64}
    (h : (hostStoreRule n a t1 offset).block = false) : a.block = false := by
  unfold hostStoreRule at h
  split at h
  · exact eachByte_block makeHostMemSymbolic a _ (fun _ _ e => nomatch e) n h
  · exact eachByte_block makeHostMemConcrete a _ (fun _ _ e => e) n h

theorem guestStoreRule_guestMem (n : Nat) (a : Analyzer) (b : Bool) (addr p : UInt64) :
    (guestStoreRule n a b addr).guestMem p =
      if ∃ j < n, addr + UInt64.ofNat j = p then b else a.guestMem p := by
  cases b with
  | true => exact eachByte_marks makeGuestMemSymbolic a _ guestMem (fun _ _ => rfl) n p
  | false => exact eachByte_marks makeGuestMemConcrete a _ guestMem (fun _ _ => rfl) n p

theorem guestStoreRule_frame {β : Type} (π : Analyzer → β)
    (h : ∀ a x, π (makeGuestMemSymbolic a x) = π a) (h' : ∀ a x, π (makeGuestMemConcrete a x) = π a)
    (n : Nat) (a : Analyzer) (b : Bool) (addr : UInt64) : π (guestStoreRule n a b addr) = π a := by
  cases b with
  | true => exact eachByte_frame makeGuestMemSymbolic a _ π h n
  | false => exact eachByte_frame makeGuestMemConcrete a _ π h' n

theorem guestStoreRule_block {n : Nat} {a : Analyzer} {b : Bool} {addr : UInt64}
    (h : (guestStoreRule n a b addr).block = false) : a.block = false := by
  cases b with
  | true => exact eachByte_block makeGuestMemSymbolic a _ (fun _ _ e => nomatch e) n h
  | false => exact eachByte_block makeGuestMemConcrete a _ (fun _ _ e => e) n h

end Analyzer

end Crete.Tci
