/-
  File:      Crete/Tci/Interp.lean
  Subject:   The byte code interpreter with its calls of the analyzer
             (front-end/qemu-1.0/runtime-dump/crete_tci.c, on a 64 bit host).

  * `State` -- registers, CPU state, guest memory and the analyzer. Two fields are not of the code:
    `path`, the operations and memory accesses of the run, and `moved`, the values that the
    current block read and wrote.
-/
import Crete.Lib.Relational
import Crete.Lib.Memory
import Crete.Tci.Analyzer

namespace Crete.Tci

open Crete.Lib Analyzer

/-! ## 1. States -/

/-- How the interpreter ends: a marker for missing code, an index out of bounds, a division
    trap; `left` is an operation after the loop was left. -/
inductive Stop where
  | todo
  | assertion
  | trap
  | left
  deriving DecidableEq, Repr

/-- A register, or some bytes of CPU state or of guest memory. -/
inductive Place where
  | reg (i : Reg)
  | host (addr : UInt64) (n : Nat)
  | guest (addr : UInt64) (n : Nat)
  deriving DecidableEq, Repr

/-- What is followed of a run: its operations and the places its memory accesses resolve to. -/
inductive Observed where
  | op (tbPtr : UInt64)
  | access (place : Place)
  deriving DecidableEq, Repr

/-- A value that was read or written. -/
inductive Moved where
  | read (place : Place) (value : UInt64)
  | write (place : Place) (value : UInt64)
  deriving DecidableEq, Repr

/-- The state of the interpreter. `tables` says which page tables are in use, `next` is the result
    of the loop once it was left. -/
structure State where
  tbPtr : UInt64
  reg : Reg → UInt64
  host : UInt64 → UInt8
  guest : UInt64 → UInt8
  tables : Nat
  next : Option UInt64
  analyzer : Analyzer
  path : List Observed
  moved : List Moved

/-- `TARGET_LONG_BITS`. -/
inductive TargetLong where
  | bits32
  | bits64
  deriving DecidableEq, Repr

/-- A value as `target_ulong`. -/
def TargetLong.wrap : TargetLong → UInt64 → UInt64
  | .bits32, v => v.toUInt32.toUInt64
  | .bits64, v => v

/-- The shifts of C. -/
inductive Shift where
  | shl
  | shr
  | sar
  deriving DecidableEq, Repr

/-- What a run does not change. `translate` takes the page tables, the MMU index and a guest
    address to a byte of guest memory; `undefinedShift` is what a shift gives whose amount is out
    of range. -/
structure Env where
  code : UInt64 → UInt8
  target : TargetLong
  translate : Nat → UInt64 → UInt64 → UInt64
  helper : UInt64 → UInt64 → UInt64 → UInt64 → UInt64 → UInt64
  undefinedShift : Shift → UInt64 → UInt64 → UInt64

/-- A program of the interpreter. -/
abbrev Exec := Prog State Stop

/-- The widths of values. -/
inductive Width where
  | w8
  | w16
  | w32
  | w64
  deriving DecidableEq, Repr

namespace Width

def bytes : Width → Nat
  | .w8 => 1
  | .w16 => 2
  | .w32 => 4
  | .w64 => 8

/-- Cut to the width. -/
def trunc : Width → UInt64 → UInt64
  | .w8, v => v.toUInt8.toUInt64
  | .w16, v => v.toUInt16.toUInt64
  | .w32, v => v.toUInt32.toUInt64
  | .w64, v => v

/-- Cut to the width and extend the sign. -/
def signed : Width → UInt64 → UInt64
  | .w8, v => v.toUInt8.toInt8.toInt64.toUInt64
  | .w16, v => v.toUInt16.toInt16.toInt64.toUInt64
  | .w32, v => v.toUInt32.toInt32.toInt64.toUInt64
  | .w64, v => v

end Width

open Width

/-! ## 2. Operands -/

/-- An index into the registers. -/
def regOf (index : UInt8) : Except Stop Reg :=
  if h : index.toNat < 16 then .ok ⟨index.toNat, h⟩ else .error .assertion

/-- `tci_read_reg`. -/
def tciReadReg (index : UInt8) : Exec UInt64 := do
  let i ← regOf index
  modifyGet fun s => (s.reg i, { s with
    analyzer := s.analyzer.tciReadReg i
    moved := .read (.reg i) (s.reg i) :: s.moved })

/-- `tci_write_reg`. -/
def tciWriteReg (index : UInt8) (value : UInt64) : Exec Unit := do
  let i ← regOf index
  modifyGet fun s => ((), { s with
    analyzer := s.analyzer.tciWriteReg i
    reg := Function.update s.reg i value
    moved := .write (.reg i) value :: s.moved })

/-- `tci_write_reg8`, `tci_write_reg16`, `tci_write_reg32`, `tci_write_reg64`. -/
def writeReg (w : Width) (index : UInt8) (value : UInt64) : Exec Unit :=
  tciWriteReg index (w.trunc value)

section Operands

variable (env : Env)

/-- `*tb_ptr++`. -/
def readByte : Exec UInt8 :=
  modifyGet fun s => (env.code s.tbPtr, { s with tbPtr := s.tbPtr + 1 })

/-- `tci_read_i`, `tci_read_i32`, `tci_read_i64`: a constant of `n` bytes. -/
def readI (n : Nat) : Exec UInt64 :=
  modifyGet fun s => (word (fun j => env.code (s.tbPtr + UInt64.ofNat j)) n,
    { s with tbPtr := s.tbPtr + UInt64.ofNat n })

/-- `tci_read_r`, `tci_read_r8`, `tci_read_r16`, `tci_read_r32`, `tci_read_r64`. -/
def readR (w : Width) : Exec UInt64 := do
  let v ← tciReadReg (← readByte env)
  return w.trunc v

/-- `tci_read_ri`, `tci_read_ri32`, `tci_read_ri64`: a register, or a constant after
    `TCG_CONST`. -/
def readRi (w : Width) : Exec UInt64 := do
  let r ← readByte env
  if r = 255 then readI env w.bytes
  else do
    let v ← tciReadReg r
    return w.trunc v

/-- `tci_read_ulong`. -/
def readUlong : Exec UInt64 := do
  let v ← readR env .w64
  return env.target.wrap v

/-- `tci_read_label`. -/
def readLabel : Exec UInt64 := do
  let v ← readI env 8
  return env.target.wrap v

/-- `tb_ptr = p`. -/
def jump (p : UInt64) : Exec Unit := modifyGet fun s => ((), { s with tbPtr := p })

end Operands

/-- A call of the analyzer that names a register. -/
def analyse (index : UInt8) (f : Analyzer → Reg → Analyzer) : Exec Unit := do
  let i ← regOf index
  modifyGet fun s => ((), { s with analyzer := f s.analyzer i })

/-! ## 3. Memory -/

/-- A load of `n` bytes of CPU state. -/
def hostLoad (n : Nat) (addr : UInt64) : Exec UInt64 :=
  modifyGet fun s =>
    (word (fun j => s.host (addr + UInt64.ofNat j)) n, { s with
      path := .access (.host addr n) :: s.path
      moved := .read (.host addr n) (word (fun j => s.host (addr + UInt64.ofNat j)) n) :: s.moved })

/-- The state after a store of `n` bytes of CPU state. -/
def State.hostStored (s : State) (n : Nat) (addr v : UInt64) : State :=
  { s with
    host := store s.host (fun j => addr + UInt64.ofNat j) v n
    path := .access (.host addr n) :: s.path
    moved := .write (.host addr n) v :: s.moved }

def hostStore (n : Nat) (addr v : UInt64) : Exec Unit :=
  modifyGet fun s => ((), s.hostStored n addr v)

/-- Where byte `j` of an access to guest memory is: addresses are `target_ulong`. -/
def Env.location (env : Env) (tables : Nat) (mmuIdx addr : UInt64) (j : Nat) : UInt64 :=
  env.translate tables mmuIdx (env.target.wrap (addr + UInt64.ofNat j))

/-- `__ldb_mmu`, `__ldw_mmu`, `__ldl_mmu`, `__ldq_mmu`. -/
def ldMmu (env : Env) (n : Nat) (addr mmuIdx : UInt64) : Exec UInt64 :=
  modifyGet fun s =>
    (word (fun j => s.guest (env.location s.tables mmuIdx addr j)) n, { s with
      path := .access (.guest addr n) :: s.path
      moved := .read (.guest addr n)
        (word (fun j => s.guest (env.location s.tables mmuIdx addr j)) n) :: s.moved })

/-- The state after a store of `n` bytes of guest memory. -/
def State.guestStored (env : Env) (s : State) (n : Nat) (addr v mmuIdx : UInt64) : State :=
  { s with
    guest := store s.guest (env.location s.tables mmuIdx addr) v n
    path := .access (.guest addr n) :: s.path
    moved := .write (.guest addr n) v :: s.moved }

/-- `__stb_mmu`, `__stw_mmu`, `__stl_mmu`, `__stq_mmu`. -/
def stMmu (env : Env) (n : Nat) (addr v mmuIdx : UInt64) : Exec Unit :=
  modifyGet fun s => ((), s.guestStored env n addr v mmuIdx)

/-! ## 4. Arithmetic -/

inductive Cond where
  | eq
  | ne
  | lt
  | ge
  | le
  | gt
  | ltu
  | geu
  | leu
  | gtu
  deriving DecidableEq, Repr

/-- `TCGCond`; other values are missing code. -/
def condOf (b : UInt8) : Except Stop Cond :=
  match ([.eq, .ne, .lt, .ge, .le, .gt, .ltu, .geu, .leu, .gtu] : List Cond)[b.toNat]? with
  | some c => .ok c
  | none => .error .todo

/-- `tci_compare32`. -/
def tciCompare32 (v0 v1 : UInt64) (condition : UInt8) : Except Stop Bool := do
  let u0 := v0.toUInt32
  let u1 := v1.toUInt32
  let i0 := u0.toInt32
  let i1 := u1.toInt32
  match ← condOf condition with
  | .eq => return u0 = u1
  | .ne => return u0 ≠ u1
  | .lt => return i0 < i1
  | .ge => return i0 ≥ i1
  | .le => return i0 ≤ i1
  | .gt => return i0 > i1
  | .ltu => return u0 < u1
  | .geu => return u0 ≥ u1
  | .leu => return u0 ≤ u1
  | .gtu => return u0 > u1

/-- `tci_compare64`. -/
def tciCompare64 (u0 u1 : UInt64) (condition : UInt8) : Except Stop Bool := do
  let i0 := u0.toInt64
  let i1 := u1.toInt64
  match ← condOf condition with
  | .eq => return u0 = u1
  | .ne => return u0 ≠ u1
  | .lt => return i0 < i1
  | .ge => return i0 ≥ i1
  | .le => return i0 ≤ i1
  | .gt => return i0 > i1
  | .ltu => return u0 < u1
  | .geu => return u0 ≥ u1
  | .leu => return u0 ≤ u1
  | .gtu => return u0 > u1

/-- The comparison of a width. -/
def tciCompare : Width → UInt64 → UInt64 → UInt8 → Except Stop Bool
  | .w64 => tciCompare64
  | _ => tciCompare32

/-- The quotient or remainder of two signed 32 bit values, with the traps of the host. -/
def signedDiv (f : Int32 → Int32 → Int32) (t1 t2 : UInt64) : Except Stop UInt64 := do
  let a := t1.toUInt32.toInt32
  let b := t2.toUInt32.toInt32
  ensure (b ≠ 0) .trap
  ensure (¬ (a = Int32.minValue ∧ b = -1)) .trap
  return (f a b).toInt64.toUInt64

def unsignedDiv (f : UInt64 → UInt64 → UInt64) (t1 t2 : UInt64) : Except Stop UInt64 := do
  ensure (t2 ≠ 0) .trap
  return f t1 t2

section Shifts

variable (env : Env)

/-- `t1 << t2` on 64 bit values. -/
def shl (t1 t2 : UInt64) : UInt64 :=
  if t2 < 64 then t1 <<< t2 else env.undefinedShift .shl t1 t2

/-- `t1 >> t2` on unsigned 64 bit values. -/
def shr (t1 t2 : UInt64) : UInt64 :=
  if t2 < 64 then t1 >>> t2 else env.undefinedShift .shr t1 t2

/-- `(int32_t)t1 >> t2`. -/
def sar32 (t1 t2 : UInt64) : UInt64 :=
  if t2 < 32 then
    .ofBitVec ((t1.toUInt32.toBitVec.sshiftRight t2.toNat).signExtend 64)
  else env.undefinedShift .sar t1 t2

/-- `(int64_t)t1 >> t2`. -/
def sar64 (t1 t2 : UInt64) : UInt64 :=
  if t2 < 64 then .ofBitVec (t1.toBitVec.sshiftRight t2.toNat)
  else env.undefinedShift .sar t1 t2

def rotl32 (t1 t2 : UInt64) : UInt64 := shl env t1 t2 ||| shr env t1 (32 - t2)

def rotr32 (t1 t2 : UInt64) : UInt64 := shr env t1 t2 ||| shl env t1 (32 - t2)

end Shifts

/-- `bswap16`, `bswap32`, `bswap64`. -/
def bswap (w : Width) (v : UInt64) : UInt64 := word (fun j => byteOf v (w.bytes - 1 - j)) w.bytes

/-! ## 5. The operations -/

/-- The operations of `tcg-opc.h`, in order. -/
inductive Opcode where
  | opEnd | nop | nop1 | nop2 | nop3 | nopn | discard | setLabel | call | jmp | br
  | movI32 | moviI32 | setcondI32
  | ld8uI32 | ld8sI32 | ld16uI32 | ld16sI32 | ldI32 | st8I32 | st16I32 | stI32
  | addI32 | subI32 | mulI32 | divI32 | divuI32 | remI32 | remuI32 | div2I32 | divu2I32
  | andI32 | orI32 | xorI32 | shlI32 | shrI32 | sarI32 | rotlI32 | rotrI32 | depositI32
  | brcondI32 | add2I32 | sub2I32 | brcond2I32 | mulu2I32 | setcond2I32
  | ext8sI32 | ext16sI32 | ext8uI32 | ext16uI32 | bswap16I32 | bswap32I32 | notI32 | negI32
  | andcI32 | orcI32 | eqvI32 | nandI32 | norI32
  | movI64 | moviI64 | setcondI64
  | ld8uI64 | ld8sI64 | ld16uI64 | ld16sI64 | ld32uI64 | ld32sI64 | ldI64
  | st8I64 | st16I64 | st32I64 | stI64
  | addI64 | subI64 | mulI64 | divI64 | divuI64 | remI64 | remuI64 | div2I64 | divu2I64
  | andI64 | orI64 | xorI64 | shlI64 | shrI64 | sarI64 | rotlI64 | rotrI64 | depositI64
  | brcondI64 | ext8sI64 | ext16sI64 | ext32sI64 | ext8uI64 | ext16uI64 | ext32uI64
  | bswap16I64 | bswap32I64 | bswap64I64 | notI64 | negI64
  | andcI64 | orcI64 | eqvI64 | nandI64 | norI64
  | debugInsnStart | exitTb | gotoTb
  | qemuLd8u | qemuLd8s | qemuLd16u | qemuLd16s | qemuLd32 | qemuLd32u | qemuLd32s | qemuLd64
  | qemuSt8 | qemuSt16 | qemuSt32 | qemuSt64

open Opcode in
/-- The operation of a byte. -/
def opcodeOf (b : UInt8) : Option Opcode :=
  [opEnd, nop, nop1, nop2, nop3, nopn, discard, setLabel, call, jmp, br,
    movI32, moviI32, setcondI32,
    ld8uI32, ld8sI32, ld16uI32, ld16sI32, ldI32, st8I32, st16I32, stI32,
    addI32, subI32, mulI32, divI32, divuI32, remI32, remuI32, div2I32, divu2I32,
    andI32, orI32, xorI32, shlI32, shrI32, sarI32, rotlI32, rotrI32, depositI32,
    brcondI32, add2I32, sub2I32, brcond2I32, mulu2I32, setcond2I32,
    ext8sI32, ext16sI32, ext8uI32, ext16uI32, bswap16I32, bswap32I32, notI32, negI32,
    andcI32, orcI32, eqvI32, nandI32, norI32,
    movI64, moviI64, setcondI64,
    ld8uI64, ld8sI64, ld16uI64, ld16sI64, ld32uI64, ld32sI64, ldI64,
    st8I64, st16I64, st32I64, stI64,
    addI64, subI64, mulI64, divI64, divuI64, remI64, remuI64, div2I64, divu2I64,
    andI64, orI64, xorI64, shlI64, shrI64, sarI64, rotlI64, rotrI64, depositI64,
    brcondI64, ext8sI64, ext16sI64, ext32sI64, ext8uI64, ext16uI64, ext32uI64,
    bswap16I64, bswap32I64, bswap64I64, notI64, negI64,
    andcI64, orcI64, eqvI64, nandI64, norI64,
    debugInsnStart, exitTb, gotoTb,
    qemuLd8u, qemuLd8s, qemuLd16u, qemuLd16s, qemuLd32, qemuLd32u, qemuLd32s, qemuLd64,
    qemuSt8, qemuSt16, qemuSt32, qemuSt64][b.toNat]?

section Families

variable (env : Env)

/-- `setcond`. -/
def setcondOp (w : Width) : Exec Unit := do
  let t0 ← readByte env
  let t1 ← readR env w
  let t2 ← readRi env w
  let condition ← readByte env
  let result ← tciCompare w t1 t2 condition
  writeReg w t0 (if result then 1 else 0)

/-- One operand that is read at the width `r` and written at the width `w`. -/
def unaryOp (r : Width) (f : UInt64 → UInt64) (w : Width) : Exec Unit := do
  let t0 ← readByte env
  let t1 ← readR env r
  writeReg w t0 (f t1)

/-- `movi`. -/
def moviOp (w : Width) : Exec Unit := do
  let t0 ← readByte env
  let t1 ← readI env w.bytes
  writeReg w t0 t1

/-- Two operands. -/
def binaryOp (w : Width) (f : UInt64 → UInt64 → Except Stop UInt64) : Exec Unit := do
  let t0 ← readByte env
  let t1 ← readRi env w
  let t2 ← readRi env w
  let v ← f t1 t2
  writeReg w t0 v

/-- `brcond`. -/
def brcondOp (w : Width) : Exec Unit := do
  modifyGet fun s => ((), { s with analyzer := s.analyzer.tciBrcond })
  let t0 ← readR env w
  let t1 ← readRi env w
  let condition ← readByte env
  let label ← readLabel env
  let taken ← tciCompare w t0 t1 condition
  if taken then jump label else pure ()

/-- A load of CPU state: `ext` is how the value is written to the register. -/
def ldOp (n : Nat) (ext : UInt64 → UInt64)
    (rule : Analyzer → Reg → UInt64 → UInt64 → Analyzer) : Exec Unit := do
  let t0 ← readByte env
  let t1 ← readR env .w64
  let t2 ← readI env 4
  let v ← hostLoad n (t1 + t2)
  tciWriteReg t0 (ext v)
  analyse t0 fun a i => rule a i t1 t2

/-- A store of CPU state. -/
def stOp (w : Width) (rule : Analyzer → UInt64 → UInt64 → Analyzer) : Exec Unit := do
  let t0 ← readR env w
  let t1 ← readR env .w64
  let t2 ← readI env 4
  hostStore w.bytes (t1 + t2) t0
  modifyGet fun s => ((), { s with analyzer := rule s.analyzer t1 t2 })

/-- A load of guest memory. -/
def qemuLdOp (n : Nat) (ext : UInt64 → UInt64) (rule : Analyzer → Reg → UInt64 → Analyzer) :
    Exec Unit := do
  let t0 ← readByte env
  let taddr ← readUlong env
  let mmuIdx ← readI env 8
  let v ← ldMmu env n taddr mmuIdx
  tciWriteReg t0 (ext v)
  analyse t0 fun a i => rule a i taddr

/-- A store of guest memory that tells the analyzer the stored register. -/
def qemuStOp (w : Width) (rule : Analyzer → Reg → UInt64 → Analyzer) : Exec Unit := do
  let creteT0 ← readByte env
  let t0 ← tciReadReg creteT0
  let taddr ← readUlong env
  let t2 ← readI env 8
  stMmu env w.bytes taddr (w.trunc t0) t2
  analyse creteT0 fun a i => rule a i taddr

/-- `qemu_st64`. -/
def qemuSt64Op : Exec Unit := do
  let tmp64 ← readR env .w64
  let taddr ← readUlong env
  let t2 ← readI env 8
  stMmu env 8 taddr tmp64 t2
  modifyGet fun s => ((), { s with analyzer := s.analyzer.tciQemuSt64 taddr })

/-- `call`. -/
def callOp : Exec Unit := do
  let t0 ← readRi env .w64
  let a0 ← tciReadReg 0
  let a1 ← tciReadReg 1
  let a2 ← tciReadReg 2
  let a3 ← tciReadReg 3
  tciWriteReg 0 (env.helper t0 a0 a1 a2 a3)

/-- `jmp`, `br`. -/
def brOp : Exec Unit := do
  let label ← readLabel env
  jump label

/-- `exit_tb`. -/
def exitTbOp : Exec Unit :=
  modifyGet fun s => ((), { s with
    next := some (word (fun j => env.code (s.tbPtr + UInt64.ofNat j)) 8) })

/-- `goto_tb`: no direct jumps between translation blocks while `flag_rt_dump_enable` is set. -/
def gotoTbOp (dump : Bool) : Exec Unit := do
  let t0 ← readI env 4
  let t0 := if dump then 0 else t0
  modifyGet fun s => ((), { s with tbPtr := s.tbPtr + signed .w32 t0 })

/-- The operations; those not listed are missing code. -/
def execOp (dump : Bool) : Opcode → Exec Unit
  | .opEnd => pure ()
  | .nop => pure ()
  | .call => callOp env
  | .jmp => brOp env
  | .br => brOp env
  | .setcondI32 => setcondOp env .w32
  | .setcondI64 => setcondOp env .w64
  | .movI32 => unaryOp env .w32 id .w32
  | .moviI32 => moviOp env .w32
  | .ld8uI32 => ldOp env 1 (trunc .w8) tciLd8uI32
  | .ldI32 => ldOp env 4 (trunc .w32) tciLdI32
  | .st8I32 => stOp env .w8 tciSt8I32
  | .st16I32 => stOp env .w16 tciSt16I32
  | .stI32 => stOp env .w32 tciStI32
  | .addI32 => binaryOp env .w32 fun a b => .ok (a + b)
  | .subI32 => binaryOp env .w32 fun a b => .ok (a - b)
  | .mulI32 => binaryOp env .w32 fun a b => .ok (a * b)
  | .divI32 => binaryOp env .w32 (signedDiv (· / ·))
  | .divuI32 => binaryOp env .w32 (unsignedDiv (· / ·))
  | .remI32 => binaryOp env .w32 (signedDiv (· % ·))
  | .remuI32 => binaryOp env .w32 (unsignedDiv (· % ·))
  | .andI32 => binaryOp env .w32 fun a b => .ok (a &&& b)
  | .orI32 => binaryOp env .w32 fun a b => .ok (a ||| b)
  | .xorI32 => binaryOp env .w32 fun a b => .ok (a ^^^ b)
  | .shlI32 => binaryOp env .w32 fun a b => .ok (shl env a b)
  | .shrI32 => binaryOp env .w32 fun a b => .ok (shr env a b)
  | .sarI32 => binaryOp env .w32 fun a b => .ok (sar32 env a b)
  | .rotlI32 => binaryOp env .w32 fun a b => .ok (rotl32 env a b)
  | .rotrI32 => binaryOp env .w32 fun a b => .ok (rotr32 env a b)
  | .brcondI32 => brcondOp env .w32
  | .ext8sI32 => unaryOp env .w8 (signed .w8) .w32
  | .ext16sI32 => unaryOp env .w16 (signed .w16) .w32
  | .ext8uI32 => unaryOp env .w8 id .w32
  | .ext16uI32 => unaryOp env .w16 id .w32
  | .bswap16I32 => unaryOp env .w16 (bswap .w16) .w32
  | .bswap32I32 => unaryOp env .w32 (bswap .w32) .w32
  | .notI32 => unaryOp env .w32 (~~~ ·) .w32
  | .negI32 => unaryOp env .w32 (- ·) .w32
  | .movI64 => unaryOp env .w64 id .w64
  | .moviI64 => moviOp env .w64
  | .ld8uI64 => ldOp env 1 (trunc .w8) tciLd8uI64
  | .ld32uI64 => ldOp env 4 (trunc .w32) tciLd32uI64
  | .ld32sI64 => ldOp env 4 (signed .w32) tciLd32sI64
  | .ldI64 => ldOp env 8 (trunc .w64) tciLdI64
  | .st8I64 => stOp env .w8 tciSt8I64
  | .st16I64 => stOp env .w16 tciSt16I64
  | .st32I64 => stOp env .w32 tciSt32I64
  | .stI64 => stOp env .w64 tciStI64
  | .addI64 => binaryOp env .w64 fun a b => .ok (a + b)
  | .subI64 => binaryOp env .w64 fun a b => .ok (a - b)
  | .mulI64 => binaryOp env .w64 fun a b => .ok (a * b)
  | .andI64 => binaryOp env .w64 fun a b => .ok (a &&& b)
  | .orI64 => binaryOp env .w64 fun a b => .ok (a ||| b)
  | .xorI64 => binaryOp env .w64 fun a b => .ok (a ^^^ b)
  | .shlI64 => binaryOp env .w64 fun a b => .ok (shl env a b)
  | .shrI64 => binaryOp env .w64 fun a b => .ok (shr env a b)
  | .sarI64 => binaryOp env .w64 fun a b => .ok (sar64 env a b)
  | .brcondI64 => brcondOp env .w64
  | .ext8uI64 => unaryOp env .w8 id .w64
  | .ext8sI64 => unaryOp env .w8 (signed .w8) .w64
  | .ext16sI64 => unaryOp env .w16 (signed .w16) .w64
  | .ext16uI64 => unaryOp env .w16 id .w64
  | .ext32sI64 => unaryOp env .w32 (signed .w32) .w64
  | .ext32uI64 => unaryOp env .w32 id .w64
  | .bswap32I64 => unaryOp env .w32 (bswap .w32) .w64
  | .bswap64I64 => unaryOp env .w64 (bswap .w64) .w64
  | .notI64 => unaryOp env .w64 (~~~ ·) .w64
  | .negI64 => unaryOp env .w64 (- ·) .w64
  | .exitTb => exitTbOp env
  | .gotoTb => gotoTbOp env dump
  | .qemuLd8u => qemuLdOp env 1 (trunc .w8) tciQemuLd8u
  | .qemuLd8s => qemuLdOp env 1 (signed .w8) tciQemuLd8s
  | .qemuLd16u => qemuLdOp env 2 (trunc .w16) tciQemuLd16u
  | .qemuLd16s => qemuLdOp env 2 (signed .w16) tciQemuLd16s
  | .qemuLd32u => qemuLdOp env 4 (trunc .w32) tciQemuLd32u
  | .qemuLd32s => qemuLdOp env 4 (signed .w32) tciQemuLd32s
  | .qemuLd32 => qemuLdOp env 4 (trunc .w32) tciQemuLd32
  | .qemuLd64 => qemuLdOp env 8 (trunc .w64) tciQemuLd64
  | .qemuSt8 => qemuStOp env .w8 tciQemuSt8
  | .qemuSt16 => qemuStOp env .w16 tciQemuSt16
  | .qemuSt32 => qemuStOp env .w32 tciQemuSt32
  | .qemuSt64 => qemuSt64Op env
  | _ => throw .todo

/-! ## 6. Runs -/

/-- The start of a round of the loop: the opcode, past which and the size entry `tb_ptr` moves. -/
def fetch : Exec UInt8 :=
  modifyGet fun s => (env.code s.tbPtr, { s with
    tbPtr := s.tbPtr + 2
    analyzer := s.analyzer.regMonitorBegin
    path := .op s.tbPtr :: s.path })

/-- One round of the loop of `crete_tcg_qemu_tb_exec`. -/
def step (dump : Bool) : Exec Unit := do
  let done ← modifyGet fun s => (s.next.isSome, s)
  if done then throw .left
  else do
    let opc ← fetch env
    match opcodeOf opc with
    | none => throw .todo
    | some op => execOp env dump op

/-- `TCG_AREG0`. -/
def areg0 : Reg := 7

/-- What happens in a run: `crete_tcg_qemu_tb_exec` is entered, with the page tables of that time;
    it executes an operation, with `flag_rt_dump_enable` set or not; the guest makes bytes symbolic;
    a block ends; a helper marks the block. -/
inductive Event where
  | enter (cpustate tbPtr : UInt64) (tables : Nat)
  | op (dump : Bool)
  | makeSymbolic (addr size : UInt64)
  | nextBlock
  | markBlockSymbolic

def handle : Event → Exec PUnit
  | .enter cpustate tbPtr tables => modifyGet fun s => ((), { s with
      tbPtr := tbPtr
      reg := Function.update s.reg areg0 cpustate
      tables := tables
      next := none })
  | .op dump => step env dump
  | .makeSymbolic addr size => modifyGet fun s => ((), { s with
      analyzer := s.analyzer.tciMakeSymbolic addr size })
  | .nextBlock => modifyGet fun s => ((), { s with
      analyzer := s.analyzer.tciNextBlock
      moved := [] })
  | .markBlockSymbolic => modifyGet fun s => ((), { s with
      analyzer := s.analyzer.tciMarkBlockSymbolic })

/-- A run. -/
def run (es : List Event) : Exec PUnit := es.forM (handle env)

end Families

end Crete.Tci
