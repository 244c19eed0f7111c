/-
  File:      Crete/Dump/Iteration.lean
  Subject:   The end of an iteration (qemu-1.0/runtime-dump/custom-instructions.cpp,
             CRETE_INSTR_DUMP_VALUE), among the other instructions of the guest.

  The instructions are helpers that the byte code calls: the interpreter reads the argument
  registers, the handler runs, and the interpreter writes the result register.

  * `dump` -- the handler's three ways; `handleInstruction`, `step` -- the instructions and
    everything else that happens between them.
  * **`dump_fresh_iff`** -- which marks of the analyzer are left after the dump.
-/
import Crete.Dump.MakeConcolic
import Crete.Tci.Noninterference

namespace Crete.Dump

open Crete.Lib

/-! ## 1. The handler -/

/-- What both ways of dumping do: the files are written, the recorder and its objects are made
    anew. -/
def HandlerState.release (s : HandlerState) : HandlerState :=
  { s with
    customInstEmit := false
    targetPid := 0
    flagWriteInitialInput := false
    recorder := .init
    makeConcolics := [] }

/-- **CRETE_INSTR_DUMP_VALUE.** -/
def dump (s : HandlerState) : HandlerState :=
  if s.recorder.flagRtDumpStart = false then s
  else if s.tmpWorkaround then s.release
  else { s.release with tci := { s.tci with analyzer := s.tci.analyzer.tciNextIteration } }

/-- The instructions that this state is touched by. `throws` says that printing the message of the
    guest ended in a `runtime_error`. -/
inductive Instruction where
  | message (throws : Bool)
  | makeConcolic (m : PageMap) (file : Option Bytes) (c : MakeConcolicCall)
  | dump
  | captureBegin (cr3 : UInt64)
  | captureEnd
  | prime

/-- `bct_tcg_custom_instruction_handler`. -/
def handleInstruction (u : Uninit) (s : HandlerState) :
    Instruction → Except ConcolicsStop HandlerState
  | .message throws => .ok (if throws then s.bypass else s)
  | .makeConcolic m file c => makeConcolic u m file c s
  | .dump => .ok (dump s)
  | .captureBegin cr3 =>
    .ok { s with targetPid := cr3, customInstEmit := true, captureEnabled := true }
  | .captureEnd => .ok { s with
      targetPid := 0
      customInstEmit := false
      captureEnabled := false
      flagIsFirstIteration := false }
  | .prime => .ok { s with
      customInstEmit := false
      targetPid := 0
      flagIsFirstIteration := true }

/-! ## 2. Runs -/

/-- How a run ends. -/
inductive HandlerStop where
  | interp (e : Tci.Stop)
  | recorder (e : DumpStop)
  | concolics (e : ConcolicsStop)
  deriving DecidableEq

/-- The interpreter up to the call of a helper: the operation, its target, the arguments. -/
def callPrologue (env : Tci.Env) : Tci.Exec Unit := do
  let opc ← Tci.fetch env
  match Tci.opcodeOf opc with
  | some .call => do
      let _ ← Tci.readRi env .w64
      let _ ← Tci.tciReadReg 0
      let _ ← Tci.tciReadReg 1
      let _ ← Tci.tciReadReg 2
      let _ ← Tci.tciReadReg 3
  | _ => throw .todo

/-- What happens: the interpreter goes on, a block begins or ends, or an instruction is called,
    which leaves `ret` in the result register. -/
inductive HandlerEvent where
  | interp (e : Tci.Event)
  | beforeTb (t : Target) (b : TbExec)
  | afterTb (b : TbExec)
  | instr (i : Instruction) (ret : UInt64)

section Runs

variable (env : Tci.Env) (u : Uninit)

/-- The interpreter, within the whole state. -/
def HandlerState.interpret (s : HandlerState) (m : Tci.Exec Unit) :
    Except HandlerStop HandlerState := do
  let (_, t) ← (m s.tci).mapError .interp
  return { s with tci := t }

/-- The flags of a block that are the handler's. -/
def HandlerState.tbExec (s : HandlerState) (b : TbExec) : TbExec :=
  { b with
    customInstEmit := s.customInstEmit
    captureEnabled := s.captureEnabled
    symbolic := s.tci.analyzer.block }

/-- One event. -/
def step (s : HandlerState) : HandlerEvent → Except HandlerStop HandlerState
  | .interp e => s.interpret (Tci.handle env e)
  | .beforeTb t b => do
      let r ← ({ s.recorder with isTargetPid := b.targetPid : RecorderState }.creteRuntimeDump t
        (s.tbExec b)).mapError .recorder
      return { s with recorder := r }
  | .afterTb b => do
      let (r, _) ← (s.recorder.cretePostRuntimeDump (s.tbExec b)).mapError .recorder
      let s₁ := { s with recorder := { r with flagRtDumpEnable := false } }
      s₁.interpret (Tci.handle env .nextBlock)
  | .instr i ret => do
      let s₁ ← s.interpret (callPrologue env)
      let s₂ ← (handleInstruction u s₁ i).mapError .concolics
      s₂.interpret (Tci.tciWriteReg 0 ret)

/-- The events one after the other. -/
def steps (es : List HandlerEvent) (s : HandlerState) : Except HandlerStop HandlerState :=
  es.foldlM (step env u) s

/-- **The states in which a run enters the handler.** -/
def EntersHandler (s : HandlerState) : Prop :=
  ∃ mem es s₀, steps env u es (HandlerState.start mem) = .ok s₀ ∧
    s₀.interpret (callPrologue env) = .ok s

end Runs

/-! ## 3. What is left of the marks -/

/-- The static variables decide whether a new analyzer is a fresh one. -/
theorem tciNextIteration_eq_init_iff (a : Tci.Analyzer) :
    a.tciNextIteration = .init ↔ a.branching = false ∧ a.readWasSymbolic = false := by
  constructor
  · intro h
    exact ⟨congrArg Tci.Analyzer.branching h, congrArg Tci.Analyzer.readWasSymbolic h⟩
  · rintro ⟨hb, hr⟩
    rw [Tci.Analyzer.tciNextIteration, hb, hr]
    rfl

/-- **After the dump the analyzer is as it started, exactly if** the dump was a normal one in a
    block that had not branched, called with arguments that were not symbolic; or if it was not
    normal, but there was nothing in the analyzer to begin with. -/
theorem dump_fresh_iff (s : HandlerState) : (dump s).tci.analyzer = Tci.Analyzer.init ↔
      if s.recorder.flagRtDumpStart = true ∧ s.tmpWorkaround = false then
        s.tci.analyzer.branching = false ∧ s.tci.analyzer.readWasSymbolic = false
      else s.tci.analyzer = Tci.Analyzer.init := by
  unfold dump
  by_cases hstart : s.recorder.flagRtDumpStart = true
  · have hstart' : ¬ s.recorder.flagRtDumpStart = false := by
      rw [hstart]
      exact Bool.noConfusion
    rw [if_neg hstart']
    by_cases hw : s.tmpWorkaround = true
    · have hn : ¬ (s.recorder.flagRtDumpStart = true ∧ s.tmpWorkaround = false) := by
        rintro ⟨-, h⟩
        exact Bool.noConfusion (hw.symm.trans h)
      rw [if_pos hw, if_neg hn]
      rfl
    · rw [if_neg hw, if_pos ⟨hstart, Bool.eq_false_of_not_eq_true hw⟩]
      exact tciNextIteration_eq_init_iff s.tci.analyzer
  · have hn : ¬ (s.recorder.flagRtDumpStart = true ∧ s.tmpWorkaround = false) :=
      fun h => hstart h.1
    rw [if_pos (Bool.eq_false_of_not_eq_true hstart), if_neg hn]

/-- A call of a helper at address 0, and `qemu_ld8u r1, [r2]` at address 11. -/
def callEnv : Tci.Env :=
  Tci.codeEnv .bits64 id ([8, 11, 255, 0, 0, 0, 0, 0, 0, 0, 0] ++
    [111, 12, 1, 2, 0, 0, 0, 0, 0, 0, 0, 0])

/-- The byte at address 0 becomes concolic on the first iteration. -/
def makeByteConcolic : List HandlerEvent :=
  [.interp (.enter 0 0 0), .instr .prime 0,
    .interp (.enter 0 0 0), .instr (.makeConcolic (fun _ => 0) none ⟨[97], 50, 0, 1⟩) 0]

/-- Capture begins, and a block of the program. -/
def beginCapture : List HandlerEvent :=
  [.interp (.enter 0 0 0), .instr (.captureBegin 1) 0,
    .beforeTb ⟨0, 0, 0⟩ ⟨[], true, true, true, false, true, 0, "tb", [], false, none⟩]

/-- The state in which the handler is entered after some events. -/
def entered (es : List HandlerEvent) : Except HandlerStop HandlerState := do
  let s ← steps callEnv zeroUninit (es ++ [.interp (.enter 0 0 0)]) (HandlerState.start fun _ => 0)
  s.interpret (callPrologue callEnv)

theorem entersHandler_of_entered {es : List HandlerEvent} {s : HandlerState}
    (h : entered es = .ok s) : EntersHandler callEnv zeroUninit s := by
  obtain ⟨s₀, hrun, hcall⟩ := bind_eq_ok.1 h
  exact ⟨_, _, s₀, hrun, hcall⟩

/-- **Marks go over to the next iteration on each of the three ways**: nothing was captured, and the
    variable stays marked; a message threw, likewise; on the normal way an argument register had
    been loaded from the variable. -/
theorem dump_leaves_marks :
    (∃ s, EntersHandler callEnv zeroUninit s ∧ s.recorder.flagRtDumpStart = false ∧
      (dump s).tci.analyzer.guestMem 0 = true) ∧
    (∃ s, EntersHandler callEnv zeroUninit s ∧ s.recorder.flagRtDumpStart = true ∧
      s.tmpWorkaround = true ∧ (dump s).tci.analyzer.guestMem 0 = true) ∧
    ∃ s, EntersHandler callEnv zeroUninit s ∧ s.recorder.flagRtDumpStart = true ∧
      s.tmpWorkaround = false ∧ (dump s).tci.analyzer.readWasSymbolic = true := by
  have h₁ : (entered makeByteConcolic).map (fun s =>
      (s.recorder.flagRtDumpStart, (dump s).tci.analyzer.guestMem 0)) = .ok (false, true) := by
    decide +kernel
  have h₂ : (entered (makeByteConcolic ++ beginCapture ++
      [.interp (.enter 0 0 0), .instr (.message true) 0])).map (fun s =>
        (s.recorder.flagRtDumpStart, s.tmpWorkaround, (dump s).tci.analyzer.guestMem 0)) =
          .ok (true, true, true) := by
    decide +kernel
  have h₃ : (entered (makeByteConcolic ++ beginCapture ++
      [.interp (.enter 0 11 0), .interp (.op true)])).map (fun s =>
        (s.recorder.flagRtDumpStart, s.tmpWorkaround, (dump s).tci.analyzer.readWasSymbolic)) =
          .ok (true, false, true) := by
    decide +kernel
  obtain ⟨s₁, hs₁, e₁⟩ := map_eq_ok.1 h₁
  obtain ⟨s₂, hs₂, e₂⟩ := map_eq_ok.1 h₂
  obtain ⟨s₃, hs₃, e₃⟩ := map_eq_ok.1 h₃
  simp only [Prod.mk.injEq] at e₁ e₂ e₃
  exact ⟨⟨s₁, entersHandler_of_entered hs₁, e₁⟩, ⟨s₂, entersHandler_of_entered hs₂, e₂⟩,
    s₃, entersHandler_of_entered hs₃, e₃⟩

end Crete.Dump
