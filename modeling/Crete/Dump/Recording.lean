/-
  File:      Crete/Dump/Recording.lean
  Subject:   The recorder from block to block (qemu-1.0/runtime-dump/runtime-dump.cpp,
             `crete_runtime_dump` before a translation block and `crete_post_runtime_dump` after
             it; cpu-exec.c and op_helper.c, which call them).

  A block that passes the filters is recorded before it runs, and taken back after it if it turned
  out concrete. The mark of the last recorded block is changed when the next one is not recorded.

  * `Recorded` -- what holds between blocks; **`Recorded.execTb`** -- no assertion fails and it
    holds again.
  * **`recording_law`** -- any run of blocks.
  * `Recorded.mergeable` -- a recording whose tables could be merged was complete.
  * **`undo_exact_iff`** -- taking a concrete block back is as if it had been filtered out, exactly
    if recording had begun before and no CPU state is awaited for an interrupt.
-/
import Crete.Dump.Merge

namespace Crete.Dump

open Crete.Lib List

/-! ## 1. The recorder's state -/

/-- The dump vectors of `class RuntimeEnv` and the globals beside them. -/
structure RecorderState where
  flagRtDumpStart : Bool
  flagRtDumpEnable : Bool
  flagInterestedTb : Bool
  flagInterestedTbPrev : Bool
  flagDumpInterruptCpuState : Bool
  flagInterruptCpuStateDumped : Bool
  isBeginCapture : Bool
  isTargetPid : Bool
  isUserCode : Bool
  rtDumpTbCount : Nat
  cpuStates : List Bytes
  prologRegs : List (Option Bytes)
  memoSyncTables : List MemoSyncTable
  memoMergePoints : List MemoMergePoint
  tbExecSequ : List String
  tbDecl : List String
  tbExecSequInt : List UInt64
  interruptStates : List InterruptState
  deriving DecidableEq

/-- `runtime_dump_initialize`. -/
def RecorderState.init : RecorderState where
  flagRtDumpStart := false
  flagRtDumpEnable := false
  flagInterestedTb := false
  flagInterestedTbPrev := false
  flagDumpInterruptCpuState := false
  flagInterruptCpuStateDumped := false
  isBeginCapture := false
  isTargetPid := false
  isUserCode := false
  rtDumpTbCount := 0
  cpuStates := []
  prologRegs := []
  memoSyncTables := []
  memoMergePoints := []
  tbExecSequ := []
  tbDecl := []
  tbExecSequInt := []
  interruptStates := []

/-- An interrupt raised by a block: its numbers, and the bytes a new CPU state happens to have. -/
structure RaisedInterrupt where
  info : QemuInterruptInfo
  blank : Bytes

/-- A block and what is around it: the CPU state before it, what the filters say (`userCode` is
    `tb->pc < USER_CODE_RANGE`), the sync table that its loads leave, whether it turned out
    symbolic, and the interrupt that ended it. -/
structure TbExec where
  cpuState : Bytes
  customInstEmit : Bool
  targetPid : Bool
  userCode : Bool
  inExcludeFilter : Bool
  captureEnabled : Bool
  pc : UInt64
  funcName : String
  loads : MemoSyncTable
  symbolic : Bool
  interrupt : Option RaisedInterrupt

/-- `is_interested_tb`. -/
def TbExec.isInterested (b : TbExec) : Bool :=
  b.customInstEmit && b.targetPid && b.userCode && !b.inExcludeFilter && b.captureEnabled

/-- A recorder call. -/
abbrev Record := Except DumpStop RecorderState

/-! ## 2. The vectors -/

namespace RecorderState

variable (s : RecorderState)

/-- `addMemoMergePoint`. -/
def addMemoMergePoint (p : MemoMergePoint) : Record := do
  ensure (s.memoMergePoints = [] → s.flagInterestedTb = true) (.assertion "flag_interested_tb == 1")
  match p with
  | .normalTb | .backToInterestTb => do
      ensure (s.flagInterestedTb = true) (.assertion "flag_interested_tb == 1")
      return { s with memoMergePoints := s.memoMergePoints ++ [p] }
  | .outofInterestTb => do
      ensure (s.flagInterestedTb = false) (.assertion "flag_interested_tb == 0")
      match s.memoMergePoints.getLast? with
      | none => .error .badAccess
      | some .normalTb =>
        return { s with memoMergePoints := s.memoMergePoints.dropLast ++ [.outofInterestTb] }
      | some .backToInterestTb =>
        return { s with memoMergePoints := s.memoMergePoints.dropLast ++ [.outAndBackTb] }
      | some _ =>
        .error (.assertion "0 && \"[CRETE ERROR] Unexpected type of MemoMergePoint_ty\"")
  | .outAndBackTb => .error (.assertion "type_MMP == OutofInterestTb")

/-- The merge point for a change of interest. -/
def addChangeOfInterest : Record :=
  if s.flagInterestedTbPrev = false ∧ s.flagInterestedTb = true then
    s.addMemoMergePoint .backToInterestTb
  else if s.flagInterestedTbPrev = true ∧ s.flagInterestedTb = false then
    s.addMemoMergePoint .outofInterestTb
  else if s.flagInterestedTbPrev = true ∧ s.flagInterestedTb = true then
    s.addMemoMergePoint .normalTb
  else .ok s

/-- `addCpuStates`. -/
def addCpuStates (cpu : Bytes) : RecorderState := { s with cpuStates := s.cpuStates ++ [cpu] }

/-- `addPrologRegs`: the registers out of the CPU state, if they are to be dumped. -/
def addPrologRegs (t : Target) (cpu : Bytes) (isValid : Bool) : RecorderState :=
  { s with prologRegs := s.prologRegs ++
      [if isValid then some ((cpu.drop t.offsetRegs.toNat).take t.sizeRegs.toNat) else none] }

/-- `addMemoSyncTable`. -/
def addMemoSyncTable : RecorderState := { s with memoSyncTables := s.memoSyncTables ++ [[]] }

/-- `addTBExecSequ`. -/
def addTBExecSequ (b : TbExec) : RecorderState :=
  { s with
    tbExecSequ := s.tbExecSequ ++ [b.funcName]
    tbDecl := if b.funcName ∈ s.tbDecl then s.tbDecl else s.tbDecl ++ [b.funcName] }

/-- `addTBGraphInfo`. -/
def addTBGraphInfo (b : TbExec) : RecorderState :=
  { s with tbExecSequInt := s.tbExecSequInt ++ [b.pc] }

/-- `addQemuInterruptState`. -/
def addQemuInterruptState (i : RaisedInterrupt) : RecorderState :=
  { s with interruptStates := s.interruptStates ++ [⟨i.info, some i.blank⟩] }

/-- `addEmptyQemuInterruptState`. -/
def addEmptyQemuInterruptState : RecorderState :=
  { s with interruptStates := s.interruptStates ++ [⟨.blank, none⟩] }

/-- `dumpCpuStateForInterrupt`. -/
def dumpCpuStateForInterrupt (cpu : Bytes) : Record := do
  ensure (s.flagDumpInterruptCpuState = true) (.assertion "flag_dump_interrupt_CPUState == 1")
  match s.interruptStates.getLast? with
  | none => .error (.assertion "!m_interruptStates.empty()")
  | some ⟨_, none⟩ => .error (.assertion "src_cpuState && dst_cpuState")
  | some ⟨info, some _⟩ =>
    return { s with interruptStates := s.interruptStates.dropLast ++ [⟨info, some cpu⟩] }

/-- `verifyDumpData`. -/
def verifyDumpData : Record := do
  ensure (s.prologRegs.length = s.rtDumpTbCount)
    (.assertion "m_prolog_regs.size() == rt_dump_tb_count")
  ensure (s.memoSyncTables.length = s.rtDumpTbCount)
    (.assertion "m_memoSyncTables.size() == rt_dump_tb_count")
  ensure (s.memoMergePoints.length = s.rtDumpTbCount)
    (.assertion "m_memoMergePoints.size() == rt_dump_tb_count")
  ensure (s.tbExecSequ.length = s.rtDumpTbCount)
    (.assertion "m_tbExecSequ.size() == rt_dump_tb_count")
  ensure (s.rtDumpTbCount > 0 → s.interruptStates.length = s.rtDumpTbCount - 1)
    (.assertion "m_interruptStates.size() == (rt_dump_tb_count - 1)")
  return s

/-- The first part of `reverseTBDump`: what the block had put in is taken out. -/
def popTB : Record := do
  let s₁ ← (if s.rtDumpTbCount = 0 then do
    ensure (s.cpuStates.length = 1) (.assertion "m_cpuStates.size() == 1")
    return { s with cpuStates := s.cpuStates.dropLast }
  else .ok s : Record)
  ensure (s₁.prologRegs ≠ []) (.assertion "!m_prolog_regs.empty()")
  ensure (s₁.memoSyncTables ≠ []) .badAccess
  ensure (s₁.memoMergePoints ≠ []) .badAccess
  return { s₁ with
    prologRegs := s₁.prologRegs.dropLast
    memoSyncTables := s₁.memoSyncTables.dropLast
    memoMergePoints := s₁.memoMergePoints.dropLast }

/-- `reverseTBDump`. -/
def reverseTBDump : Record := do
  let s₁ ← s.popTB
  let s₂ ← s₁.addChangeOfInterest
  ensure (s₂.prologRegs.length = s₂.rtDumpTbCount)
    (.assertion "m_prolog_regs.size() == rt_dump_tb_count")
  ensure (s₂.memoSyncTables.length = s₂.rtDumpTbCount)
    (.assertion "m_memoSyncTables.size() == rt_dump_tb_count")
  ensure (s₂.memoMergePoints.length = s₂.rtDumpTbCount)
    (.assertion "m_memoMergePoints.size() == rt_dump_tb_count")
  ensure (s₂.tbExecSequ.length = s₂.rtDumpTbCount)
    (.assertion "m_tbExecSequ.size() == rt_dump_tb_count")
  ensure (s₂.interruptStates.length = s₂.rtDumpTbCount)
    (.assertion "m_interruptStates.size() == (rt_dump_tb_count)")
  return s₂

/-! ## 3. Before and after a block -/

/-- The flags that `crete_runtime_dump` sets. -/
def setFlags (b : TbExec) : RecorderState :=
  { s with
    flagInterestedTbPrev := s.flagInterestedTb
    isBeginCapture := b.customInstEmit
    isTargetPid := b.targetPid
    isUserCode := b.userCode
    flagRtDumpStart := s.flagRtDumpStart || b.isInterested
    flagRtDumpEnable := b.isInterested
    flagInterestedTb := b.isInterested }

/-- The records about interrupts of the block before. -/
def dumpInterrupt (b : TbExec) : Record :=
  if s.flagDumpInterruptCpuState then
    if s.flagRtDumpEnable then do
      let s₁ ← s.dumpCpuStateForInterrupt b.cpuState
      return { s₁ with flagDumpInterruptCpuState := false, flagInterruptCpuStateDumped := true }
    else .ok s
  else if s.flagInterestedTbPrev then .ok s.addEmptyQemuInterruptState
  else .ok s

/-- What is dumped for the block itself. -/
def dumpTB (t : Target) (b : TbExec) : RecorderState :=
  let s₁ := { s with rtDumpTbCount := s.rtDumpTbCount + 1 }
  let s₂ := if s₁.rtDumpTbCount = 1 then s₁.addCpuStates b.cpuState else s₁
  let s₃ := s₂.addPrologRegs t b.cpuState (!s₂.flagInterestedTbPrev && s₂.flagInterestedTb)
  s₃.addMemoSyncTable

/-- `crete_runtime_dump`. -/
def creteRuntimeDump (t : Target) (b : TbExec) : Record := do
  ensure (s.isTargetPid = b.targetPid)
    (.assertion "is_target_pid == (env->cr[3] == g_crete_target_pid)")
  let s₁ ← (s.setFlags b).addChangeOfInterest
  let s₂ ← s₁.dumpInterrupt b
  return if s₂.flagRtDumpEnable then s₂.dumpTB t b else s₂

/-- `crete_post_runtime_dump`, and whether the block is of interest after it. -/
def cretePostRuntimeDump (b : TbExec) : Except DumpStop (RecorderState × Bool) :=
  if s.flagInterestedTb && !b.symbolic then do
    let s₁ ← { s with
      flagInterestedTb := false
      flagRtDumpEnable := false
      rtDumpTbCount := s.rtDumpTbCount - 1 : RecorderState }.reverseTBDump
    return (s₁, false)
  else if s.flagInterestedTb then do
    let s₁ ← (s.addTBExecSequ b).verifyDumpData
    return (s₁.addTBGraphInfo b, true)
  else .ok (s, true)

/-- The block's loads go to the last sync table if the block is recorded. -/
def runLoads (b : TbExec) : RecorderState :=
  if s.flagRtDumpEnable then
    { s with memoSyncTables := s.memoSyncTables.dropLast ++ [b.loads] }
  else s

/-- `raise_interrupt`. -/
def raiseInterrupt (b : TbExec) (i : RaisedInterrupt) : Record :=
  if s.flagRtDumpEnable then do
    let (s₁, interested) ← s.cretePostRuntimeDump b
    return if interested then
      { s₁ with flagDumpInterruptCpuState := true }.addQemuInterruptState i
    else s₁
  else .ok s

/-- **One block in `cpu_exec`.** It runs to its end, or an interrupt ends it. -/
def execTb (t : Target) (b : TbExec) : Record := do
  let s₁ ← { s with isTargetPid := b.targetPid : RecorderState }.creteRuntimeDump t b
  let s₂ := s₁.runLoads b
  match b.interrupt with
  | some i => s₂.raiseInterrupt b i
  | none => do
      let (s₃, _) ← s₂.cretePostRuntimeDump b
      return { s₃ with flagRtDumpEnable := false }

end RecorderState

/-- The blocks one after the other. -/
def execTbs (t : Target) (bs : List TbExec) : Record :=
  bs.foldlM (fun s b => s.execTb t b) RecorderState.init

/-! ## 4. Open words -/

variable {w : List MemoMergePoint}

/-- The merge points while a segment is open. -/
def OpenWord (w : List MemoMergePoint) : Prop :=
  ∃ w₀ k, MergeWord w₀ ∧ w = w₀ ++ .backToInterestTb :: replicate k .normalTb

/-- The last mark, once the block after it is not recorded. -/
def closeLast (w : List MemoMergePoint) : List MemoMergePoint :=
  match w.getLast? with
  | some .normalTb => w.dropLast ++ [.outofInterestTb]
  | some .backToInterestTb => w.dropLast ++ [.outAndBackTb]
  | _ => w

@[simp] theorem closeLast_normal (w : List MemoMergePoint) :
    closeLast (w ++ [.normalTb]) = w ++ [.outofInterestTb] := by
  rw [closeLast, getLast?_concat, dropLast_concat]

@[simp] theorem closeLast_back (w : List MemoMergePoint) :
    closeLast (w ++ [.backToInterestTb]) = w ++ [.outAndBackTb] := by
  rw [closeLast, getLast?_concat, dropLast_concat]

theorem MergeWord.append {u v : List MemoMergePoint} (hu : MergeWord u) (hv : MergeWord v) :
    MergeWord (u ++ v) := by
  induction hu with
  | nil => exact hv
  | segment h ih =>
    rw [cons_append, append_assoc, cons_append]
    exact .segment ih
  | single h ih => exact .single ih

theorem MergeWord.open_back (h : MergeWord w) : OpenWord (w ++ [.backToInterestTb]) :=
  ⟨w, 0, h, rfl⟩

theorem OpenWord.open_normal (h : OpenWord w) : OpenWord (w ++ [.normalTb]) := by
  obtain ⟨w₀, k, h₀, rfl⟩ := h
  refine ⟨w₀, k + 1, h₀, ?_⟩
  rw [append_assoc, cons_append, ← replicate_succ']

/-- An open word is the beginning of a word. -/
theorem OpenWord.completed (h : OpenWord w) : MergeWord (w ++ [.outofInterestTb]) := by
  obtain ⟨w₀, k, h₀, rfl⟩ := h
  rw [append_assoc]
  exact h₀.append (.segment .nil)

/-- The last mark of an open word, and what it is changed to. -/
theorem OpenWord.last (h : OpenWord w) :
    ∃ w' p q, w = w' ++ [p] ∧ closeLast w = w' ++ [q] ∧ MergeWord (w' ++ [q]) ∧
      (p = .normalTb ∧ q = .outofInterestTb ∨ p = .backToInterestTb ∧ q = .outAndBackTb) := by
  obtain ⟨w₀, k, h₀, rfl⟩ := h
  cases k with
  | zero =>
    exact ⟨w₀, .backToInterestTb, .outAndBackTb, rfl, closeLast_back w₀,
      h₀.append (.single .nil), .inr ⟨rfl, rfl⟩⟩
  | succ k =>
    have heq : w₀ ++ .backToInterestTb :: replicate (k + 1) .normalTb =
        w₀ ++ .backToInterestTb :: replicate k .normalTb ++ [.normalTb] := by
      rw [replicate_succ', append_assoc]
      rfl
    refine ⟨_, .normalTb, .outofInterestTb, heq, ?_, ?_, .inl ⟨rfl, rfl⟩⟩
    · rw [heq, closeLast_normal]
    · rw [append_assoc]
      exact h₀.append (.segment .nil)

/-! ## 5. Between blocks -/

/-- The marks of blocks whose registers are dumped. -/
def MemoMergePoint.hasRegs (p : MemoMergePoint) : Bool :=
  p = .backToInterestTb ∨ p = .outAndBackTb

/-- **What holds between blocks.** -/
structure Recorded (s : RecorderState) : Prop where
  regs : s.prologRegs.length = s.rtDumpTbCount
  tables : s.memoSyncTables.length = s.rtDumpTbCount
  points : s.memoMergePoints.length = s.rtDumpTbCount
  execSequ : s.tbExecSequ.length = s.rtDumpTbCount
  cpu : s.cpuStates.length = if s.rtDumpTbCount = 0 then 0 else 1
  interrupts : s.interruptStates.length +
    (if s.flagInterestedTb ∧ s.flagDumpInterruptCpuState = false then 1 else 0) = s.rtDumpTbCount
  awaited : s.flagDumpInterruptCpuState = true →
    ∃ rest info cpu, s.interruptStates = rest ++ [⟨info, some cpu⟩]
  word : s.flagInterestedTb = false → MergeWord s.memoMergePoints
  openWord : s.flagInterestedTb = true → OpenWord s.memoMergePoints
  marks : s.prologRegs.map (·.isSome) = s.memoMergePoints.map (·.hasRegs)

theorem recorded_init : Recorded .init where
  regs := rfl
  tables := rfl
  points := rfl
  execSequ := rfl
  cpu := rfl
  interrupts := rfl
  awaited := nofun
  word _ := .nil
  openWord := nofun
  marks := rfl

/-! ## 6. Before a block -/

namespace RecorderState

/-- The interrupt records when a block is not recorded. -/
def interruptsPassed (s : RecorderState) : List InterruptState :=
  if s.flagInterestedTb ∧ s.flagDumpInterruptCpuState = false then
    s.interruptStates ++ [⟨.blank, none⟩]
  else s.interruptStates

/-- **The state after a block that is not recorded.** -/
def passed (s : RecorderState) (b : TbExec) : RecorderState :=
  { s.setFlags b with
    flagRtDumpEnable := false
    flagInterestedTb := false
    memoMergePoints :=
      if s.flagInterestedTb then closeLast s.memoMergePoints else s.memoMergePoints
    interruptStates := s.interruptsPassed }

/-- The interrupt records when a block is recorded: the CPU state that was awaited is filled in. -/
def interruptsFilled (s : RecorderState) (cpu : Bytes) : List InterruptState :=
  if s.flagDumpInterruptCpuState then
    match s.interruptStates.getLast? with
    | some ⟨info, _⟩ => s.interruptStates.dropLast ++ [⟨info, some cpu⟩]
    | none => []
  else s.interruptsPassed

/-- **The state while a recorded block runs.** -/
def entered (s : RecorderState) (t : Target) (b : TbExec) : RecorderState :=
  { s.setFlags b with
    flagRtDumpEnable := true
    flagInterestedTb := true
    flagDumpInterruptCpuState := false
    flagInterruptCpuStateDumped := s.flagInterruptCpuStateDumped || s.flagDumpInterruptCpuState
    rtDumpTbCount := s.rtDumpTbCount + 1
    cpuStates := if s.rtDumpTbCount = 0 then s.cpuStates ++ [b.cpuState] else s.cpuStates
    prologRegs := s.prologRegs ++ [if s.flagInterestedTb then none else
      some ((b.cpuState.drop t.offsetRegs.toNat).take t.sizeRegs.toNat)]
    memoSyncTables := s.memoSyncTables ++ [b.loads]
    memoMergePoints := s.memoMergePoints ++
      [if s.flagInterestedTb then .normalTb else .backToInterestTb]
    interruptStates := s.interruptsFilled b.cpuState }

/-- **The state after a block that was recorded and taken back.** -/
def undone (s : RecorderState) (b : TbExec) : RecorderState :=
  { s.passed b with
    flagDumpInterruptCpuState := false
    flagInterruptCpuStateDumped := s.flagInterruptCpuStateDumped || s.flagDumpInterruptCpuState
    interruptStates := s.interruptsFilled b.cpuState }

/-- **The state after a recorded block.** -/
def kept (s : RecorderState) (t : Target) (b : TbExec) : RecorderState :=
  ((s.entered t b).addTBExecSequ b).addTBGraphInfo b

end RecorderState

open RecorderState

section Before

variable {s : RecorderState} {t : Target} {b : TbExec}

/-- Changing the last mark. -/
theorem addMemoMergePoint_out (hflag : s.flagInterestedTb = false)
    (h : OpenWord s.memoMergePoints) : s.addMemoMergePoint .outofInterestTb =
      .ok { s with memoMergePoints := closeLast s.memoMergePoints } := by
  obtain ⟨w, p, q, hw, hclose, -, hpq⟩ := h.last
  have hne : s.memoMergePoints = [] → s.flagInterestedTb = true := by
    intro hnil
    rw [hnil] at hw
    exact absurd hw.symm (append_ne_nil_of_right_ne_nil w (cons_ne_nil p []))
  rw [addMemoMergePoint, ensure_bind, if_pos hne]
  rw [ensure_bind, if_pos hflag, hclose, hw, getLast?_concat, dropLast_concat]
  obtain ⟨rfl, rfl⟩ | ⟨rfl, rfl⟩ := hpq
  · rfl
  · rfl

/-- A new mark. -/
theorem addMemoMergePoint_in {p : MemoMergePoint} (hflag : s.flagInterestedTb = true)
    (hp : p = .normalTb ∨ p = .backToInterestTb) : s.addMemoMergePoint p =
      .ok { s with memoMergePoints := s.memoMergePoints ++ [p] } := by
  obtain rfl | rfl := hp
  · rw [addMemoMergePoint, ensure_bind, if_pos fun _ => hflag, ensure_bind, if_pos hflag]
    rfl
  · rw [addMemoMergePoint, ensure_bind, if_pos fun _ => hflag, ensure_bind, if_pos hflag]
    rfl

/-- The mark for a block that is not recorded. -/
theorem addChangeOfInterest_leave (hflag : s.flagInterestedTb = false)
    (h : s.flagInterestedTbPrev = true → OpenWord s.memoMergePoints) :
    s.addChangeOfInterest = .ok { s with memoMergePoints :=
      if s.flagInterestedTbPrev then closeLast s.memoMergePoints else s.memoMergePoints } := by
  have hin : ¬ s.flagInterestedTb = true := by
    rw [hflag]
    exact Bool.false_ne_true
  rw [addChangeOfInterest, if_neg fun hc => hin hc.2]
  by_cases hprev : s.flagInterestedTbPrev = true
  · rw [if_pos ⟨hprev, hflag⟩, if_pos hprev, addMemoMergePoint_out hflag (h hprev)]
  · rw [if_neg fun hc => hprev hc.1, if_neg fun hc => hprev hc.1, if_neg hprev]

/-- The mark for a block that is recorded. -/
theorem addChangeOfInterest_enter (hflag : s.flagInterestedTb = true) :
    s.addChangeOfInterest = .ok { s with memoMergePoints := s.memoMergePoints ++
      [if s.flagInterestedTbPrev then .normalTb else .backToInterestTb] } := by
  have hout : ¬ s.flagInterestedTb = false := by
    rw [hflag]
    exact Bool.noConfusion
  rw [addChangeOfInterest]
  by_cases hprev : s.flagInterestedTbPrev = true
  · rw [if_neg fun hc : _ ∧ _ => Bool.noConfusion (hprev.symm.trans hc.1),
      if_neg fun hc => hout hc.2, if_pos ⟨hprev, hflag⟩, if_pos hprev,
      addMemoMergePoint_in hflag (.inl rfl)]
  · rw [if_pos ⟨Bool.eq_false_of_not_eq_true hprev, hflag⟩, if_neg hprev,
      addMemoMergePoint_in hflag (.inr rfl)]

/-- The interrupt record of the block before, if this one is not recorded. -/
theorem dumpInterrupt_leave (henable : s.flagRtDumpEnable = false) :
    s.dumpInterrupt b = .ok { s with interruptStates :=
      if s.flagInterestedTbPrev ∧ s.flagDumpInterruptCpuState = false then
        s.interruptStates ++ [⟨.blank, none⟩]
      else s.interruptStates } := by
  have hno : ¬ s.flagRtDumpEnable = true := by
    rw [henable]
    exact Bool.false_ne_true
  rw [dumpInterrupt]
  by_cases hD : s.flagDumpInterruptCpuState = true
  · rw [if_pos hD, if_neg hno, if_neg fun hc : _ ∧ _ => Bool.noConfusion (hD.symm.trans hc.2)]
  · have hD' := Bool.eq_false_of_not_eq_true hD
    rw [if_neg hD]
    by_cases hprev : s.flagInterestedTbPrev = true
    · rw [if_pos hprev, if_pos ⟨hprev, hD'⟩]
      rfl
    · rw [if_neg hprev, if_neg fun hc => hprev hc.1]

/-- The interrupt record of the block before, if this one is recorded. -/
theorem dumpInterrupt_enter (henable : s.flagRtDumpEnable = true)
    (hawaited : s.flagDumpInterruptCpuState = true →
      ∃ rest info cpu, s.interruptStates = rest ++ [⟨info, some cpu⟩]) :
    s.dumpInterrupt b = .ok { s with
      flagDumpInterruptCpuState := false
      flagInterruptCpuStateDumped := s.flagInterruptCpuStateDumped || s.flagDumpInterruptCpuState
      interruptStates := if s.flagDumpInterruptCpuState then
          match s.interruptStates.getLast? with
          | some ⟨info, _⟩ => s.interruptStates.dropLast ++ [⟨info, some b.cpuState⟩]
          | none => []
        else if s.flagInterestedTbPrev ∧ s.flagDumpInterruptCpuState = false then
          s.interruptStates ++ [⟨.blank, none⟩]
        else s.interruptStates } := by
  rw [dumpInterrupt]
  by_cases hD : s.flagDumpInterruptCpuState = true
  · obtain ⟨rest, info, cpu, hrest⟩ := hawaited hD
    rw [if_pos hD, if_pos henable, if_pos hD, dumpCpuStateForInterrupt, ensure_bind,
      if_pos hD, hrest, getLast?_concat, hD, Bool.or_true]
    rfl
  · have hD' := Bool.eq_false_of_not_eq_true hD
    rw [if_neg hD, if_neg hD, hD', Bool.or_false]
    by_cases hprev : s.flagInterestedTbPrev = true
    · rw [if_pos hprev, if_pos ⟨hprev, rfl⟩, ← hD']
      rfl
    · rw [if_neg hprev, if_neg fun hc => hprev hc.1, ← hD']

/-- Before a block that is not recorded. -/
theorem creteRuntimeDump_passed (h : Recorded s) (hb : b.isInterested = false) :
    { s with isTargetPid := b.targetPid : RecorderState }.creteRuntimeDump t b =
      .ok (s.passed b) := by
  have hset : { s with isTargetPid := b.targetPid : RecorderState }.setFlags b = s.setFlags b := rfl
  rw [creteRuntimeDump, ensure_bind, if_pos rfl, hset,
    addChangeOfInterest_leave (s := s.setFlags b) hb h.openWord, ok_bind,
    dumpInterrupt_leave hb, ok_bind]
  unfold passed interruptsPassed setFlags
  simp only [hb, Bool.false_eq_true, if_false]
  rfl

/-- Before a block that is recorded. -/
theorem creteRuntimeDump_entered (h : Recorded s) (hb : b.isInterested = true) :
    ∃ s', { s with isTargetPid := b.targetPid : RecorderState }.creteRuntimeDump t b = .ok s' ∧
      s'.runLoads b = s.entered t b := by
  have hset : { s with isTargetPid := b.targetPid : RecorderState }.setFlags b = s.setFlags b := rfl
  refine ⟨{ s.entered t b with memoSyncTables := s.memoSyncTables ++ [[]] }, ?_, ?_⟩
  · rw [creteRuntimeDump, ensure_bind, if_pos rfl, hset,
      addChangeOfInterest_enter (s := s.setFlags b) hb, ok_bind,
      dumpInterrupt_enter (s := { s.setFlags b with memoMergePoints := _ }) hb h.awaited, ok_bind]
    dsimp only
    have henable : (s.setFlags b).flagRtDumpEnable = true := hb
    rw [if_pos henable]
    refine congrArg Except.ok ?_
    unfold dumpTB addPrologRegs addMemoSyncTable addCpuStates entered interruptsFilled
      interruptsPassed setFlags
    by_cases hn : s.rtDumpTbCount = 0
    · by_cases hF : s.flagInterestedTb = true
      · simp [hb, hn, hF]
      · simp [hb, hn, hF]
    · by_cases hF : s.flagInterestedTb = true
      · simp [hb, hn, hF]
      · simp [hb, hn, hF]
  · unfold runLoads entered
    simp

end Before

/-! ## 7. After a block -/

section After

variable {s : RecorderState} {t : Target} {b : TbExec}

theorem Recorded.length_passed (h : Recorded s) : s.interruptsPassed.length = s.rtDumpTbCount := by
  have hlen := h.interrupts
  unfold interruptsPassed
  by_cases hF : s.flagInterestedTb = true ∧ s.flagDumpInterruptCpuState = false
  · rw [if_pos hF] at hlen ⊢
    rw [length_append]
    exact hlen
  · rw [if_neg hF] at hlen ⊢
    exact hlen

/-- The number of interrupt records once the block before has its own. -/
theorem Recorded.length_filled (h : Recorded s) (cpu : Bytes) :
    (s.interruptsFilled cpu).length = s.rtDumpTbCount := by
  unfold interruptsFilled
  by_cases hD : s.flagDumpInterruptCpuState = true
  · have hlen := h.interrupts
    obtain ⟨rest, info, c, hrest⟩ := h.awaited hD
    rw [if_neg fun hc : _ ∧ _ => Bool.noConfusion (hD.symm.trans hc.2)] at hlen
    rw [if_pos hD, hrest, getLast?_concat, dropLast_concat, ← hlen, hrest]
    rw [length_append, length_append]
    rfl
  · rw [if_neg hD]
    exact h.length_passed

/-- A recorded block that turned out symbolic. -/
theorem cretePostRuntimeDump_kept (h : Recorded s) (hsym : b.symbolic = true) :
    (s.entered t b).cretePostRuntimeDump b = .ok (s.kept t b, true) := by
  have hfilled := h.length_filled b.cpuState
  have hregs : ((s.entered t b).addTBExecSequ b).prologRegs.length =
      ((s.entered t b).addTBExecSequ b).rtDumpTbCount := by
    change (s.prologRegs ++ [_]).length = s.rtDumpTbCount + 1
    rw [length_append, h.regs]
    rfl
  have htables : ((s.entered t b).addTBExecSequ b).memoSyncTables.length =
      ((s.entered t b).addTBExecSequ b).rtDumpTbCount := by
    change (s.memoSyncTables ++ [_]).length = s.rtDumpTbCount + 1
    rw [length_append, h.tables]
    rfl
  have hpoints : ((s.entered t b).addTBExecSequ b).memoMergePoints.length =
      ((s.entered t b).addTBExecSequ b).rtDumpTbCount := by
    change (s.memoMergePoints ++ [_]).length = s.rtDumpTbCount + 1
    rw [length_append, h.points]
    rfl
  have hexec : ((s.entered t b).addTBExecSequ b).tbExecSequ.length =
      ((s.entered t b).addTBExecSequ b).rtDumpTbCount := by
    change (s.tbExecSequ ++ [_]).length = s.rtDumpTbCount + 1
    rw [length_append, h.execSequ]
    rfl
  have hints : ((s.entered t b).addTBExecSequ b).rtDumpTbCount > 0 →
      ((s.entered t b).addTBExecSequ b).interruptStates.length =
        ((s.entered t b).addTBExecSequ b).rtDumpTbCount - 1 := fun _ => hfilled
  have hverify : ((s.entered t b).addTBExecSequ b).verifyDumpData =
      .ok ((s.entered t b).addTBExecSequ b) := by
    rw [verifyDumpData, ensure_bind, if_pos hregs, ensure_bind, if_pos htables,
      ensure_bind, if_pos hpoints, ensure_bind, if_pos hexec, ensure_bind, if_pos hints]
    rfl
  have hconcrete : ¬ ((s.entered t b).flagInterestedTb && !b.symbolic) = true := by
    rw [hsym]
    exact Bool.noConfusion
  have hF : (s.entered t b).flagInterestedTb = true := rfl
  rw [cretePostRuntimeDump, if_neg hconcrete, if_pos hF, hverify, ok_bind]
  rfl

/-- What the block had put in is taken out. -/
theorem popTB_entered (h : Recorded s) : { s.entered t b with
      flagInterestedTb := false
      flagRtDumpEnable := false
      rtDumpTbCount := (s.entered t b).rtDumpTbCount - 1 : RecorderState }.popTB =
        .ok { s.undone b with memoMergePoints := s.memoMergePoints } := by
  generalize hs' : { s.entered t b with
      flagInterestedTb := false
      flagRtDumpEnable := false
      rtDumpTbCount := (s.entered t b).rtDumpTbCount - 1 : RecorderState } = s'
  have hcount : s'.rtDumpTbCount = s.rtDumpTbCount := by
    rw [← hs']
    rfl
  have hcpu : s'.cpuStates =
      if s.rtDumpTbCount = 0 then s.cpuStates ++ [b.cpuState] else s.cpuStates := by
    rw [← hs']
    rfl
  -- the initial CPU state goes with the first recorded block
  have hfirst : (if s'.rtDumpTbCount = 0 then do
      ensure (s'.cpuStates.length = 1) (.assertion "m_cpuStates.size() == 1")
      return { s' with cpuStates := s'.cpuStates.dropLast }
    else .ok s' : Record) = .ok { s' with cpuStates := s.cpuStates } := by
    rw [← hcount] at hcpu
    by_cases hn : s'.rtDumpTbCount = 0
    · have hnil : s.cpuStates.length = 0 := by rw [h.cpu, ← hcount, if_pos hn]
      rw [if_pos hn] at hcpu
      rw [if_pos hn, ensure_bind, hcpu, dropLast_concat, if_pos (by rw [length_append, hnil]; rfl)]
      rfl
    · rw [if_neg hn] at hcpu ⊢
      rw [← hcpu]
  have happend : ∀ {α : Type} (l : List α) (a : α), l ++ [a] ≠ [] := fun l a =>
    append_ne_nil_of_right_ne_nil l (cons_ne_nil a [])
  rw [popTB, hfirst, ok_bind, ← hs']
  change (ensure (s.prologRegs ++ [_] ≠ []) _ >>= fun _ =>
    ensure (s.memoSyncTables ++ [_] ≠ []) _ >>= fun _ =>
    ensure (s.memoMergePoints ++ [_] ≠ []) _ >>= fun _ => _) = _
  rw [ensure_bind, if_pos (happend _ _), ensure_bind, if_pos (happend _ _), ensure_bind,
    if_pos (happend _ _)]
  refine congrArg Except.ok ?_
  unfold undone passed
  simp only [entered, dropLast_concat]
  rfl

/-- A recorded block that turned out concrete. -/
theorem cretePostRuntimeDump_undone (h : Recorded s) (hsym : b.symbolic = false) :
    (s.entered t b).cretePostRuntimeDump b = .ok (s.undone b, false) := by
  have hconcrete : ((s.entered t b).flagInterestedTb && !b.symbolic) = true := by
    rw [hsym]
    rfl
  have hclosed : (s.undone b).memoMergePoints.length = s.rtDumpTbCount := by
    change (if s.flagInterestedTb then closeLast s.memoMergePoints else s.memoMergePoints).length
      = s.rtDumpTbCount
    by_cases hF : s.flagInterestedTb = true
    · obtain ⟨w, p, q, hw, hclose, -, -⟩ := (h.openWord hF).last
      rw [if_pos hF, hclose, ← h.points, hw, length_append, length_append]
      rfl
    · rw [if_neg hF, h.points]
  have hreverse : { s.entered t b with
      flagInterestedTb := false
      flagRtDumpEnable := false
      rtDumpTbCount := (s.entered t b).rtDumpTbCount - 1 : RecorderState }.reverseTBDump =
        .ok (s.undone b) := by
    rw [reverseTBDump, popTB_entered h, ok_bind,
      addChangeOfInterest_leave (s := { s.undone b with memoMergePoints := s.memoMergePoints }) rfl
        h.openWord, ok_bind]
    change (ensure (s.prologRegs.length = s.rtDumpTbCount) _ >>= fun _ =>
      ensure (s.memoSyncTables.length = s.rtDumpTbCount) _ >>= fun _ =>
      ensure ((s.undone b).memoMergePoints.length = s.rtDumpTbCount) _ >>= fun _ =>
      ensure (s.tbExecSequ.length = s.rtDumpTbCount) _ >>= fun _ =>
      ensure ((s.interruptsFilled b.cpuState).length = s.rtDumpTbCount) _ >>= fun _ => _) = _
    rw [ensure_bind, if_pos h.regs, ensure_bind, if_pos h.tables, ensure_bind, if_pos hclosed,
      ensure_bind, if_pos h.execSequ, ensure_bind, if_pos (h.length_filled _)]
    rfl
  rw [cretePostRuntimeDump, if_pos hconcrete, hreverse, ok_bind]
  rfl

end After

/-! ## 8. A block -/

section Block

variable {s : RecorderState} {t : Target} {b : TbExec}

section

variable (h : Recorded s)

include h

/-- **A block that is not recorded.** -/
theorem execTb_passed (hb : b.isInterested = false) : s.execTb t b = .ok (s.passed b) := by
  rw [execTb, creteRuntimeDump_passed h hb, ok_bind]
  cases b.interrupt with
  | none | some i => rfl

/-- **A block that is recorded and taken back.** -/
theorem execTb_undone (hb : b.isInterested = true) (hsym : b.symbolic = false) :
    s.execTb t b = .ok (s.undone b) := by
  obtain ⟨s', hs', hloads⟩ := creteRuntimeDump_entered (t := t) h hb
  rw [execTb, hs', ok_bind]
  dsimp only
  rw [hloads, cretePostRuntimeDump_undone h hsym]
  cases b.interrupt with
  | none => rfl
  | some i =>
    have henable : (s.entered t b).flagRtDumpEnable = true := rfl
    dsimp only
    rw [raiseInterrupt, if_pos henable, cretePostRuntimeDump_undone h hsym]
    rfl

/-- **A block that is recorded.** -/
theorem execTb_kept (hb : b.isInterested = true) (hsym : b.symbolic = true) :
    s.execTb t b = .ok (match b.interrupt with
      | none => { s.kept t b with flagRtDumpEnable := false }
      | some i => { s.kept t b with
          flagDumpInterruptCpuState := true }.addQemuInterruptState i) := by
  obtain ⟨s', hs', hloads⟩ := creteRuntimeDump_entered (t := t) h hb
  rw [execTb, hs', ok_bind]
  dsimp only
  rw [hloads, cretePostRuntimeDump_kept h hsym]
  cases b.interrupt with
  | none => rfl
  | some i =>
    have henable : (s.entered t b).flagRtDumpEnable = true := rfl
    dsimp only
    rw [raiseInterrupt, if_pos henable, cretePostRuntimeDump_kept h hsym]
    rfl

/-- The marks once a block is not recorded. -/
theorem Recorded.closed :
    MergeWord (if s.flagInterestedTb then closeLast s.memoMergePoints else s.memoMergePoints) ∧
    (if s.flagInterestedTb then closeLast s.memoMergePoints else s.memoMergePoints).length =
      s.rtDumpTbCount ∧ s.prologRegs.map (·.isSome) =
      (if s.flagInterestedTb then closeLast s.memoMergePoints else s.memoMergePoints).map
        (·.hasRegs) := by
  by_cases hF : s.flagInterestedTb = true
  · obtain ⟨w, p, q, hw, hclose, hword, hpq⟩ := (h.openWord hF).last
    have hregs : p.hasRegs = q.hasRegs := by
      obtain ⟨rfl, rfl⟩ | ⟨rfl, rfl⟩ := hpq <;> rfl
    rw [if_pos hF, hclose]
    refine ⟨hword, ?_, ?_⟩
    · rw [← h.points, hw, length_append, length_append]
      rfl
    · rw [h.marks, hw, map_append, map_append, map_singleton, map_singleton, hregs]
  · rw [if_neg hF]
    exact ⟨h.word (Bool.eq_false_of_not_eq_true hF), h.points, h.marks⟩

theorem Recorded.passed : Recorded (s.passed b) where
  regs := h.regs
  tables := h.tables
  points := h.closed.2.1
  execSequ := h.execSequ
  cpu := h.cpu
  interrupts := h.length_passed
  awaited hD := by
    have hD : s.flagDumpInterruptCpuState = true := hD
    obtain ⟨rest, info, cpu, hrest⟩ := h.awaited hD
    refine ⟨rest, info, cpu, ?_⟩
    change s.interruptsPassed = _
    rw [interruptsPassed, if_neg fun hc : _ ∧ _ => Bool.noConfusion (hD.symm.trans hc.2), hrest]
  word _ := h.closed.1
  openWord := nofun
  marks := h.closed.2.2

theorem Recorded.undone : Recorded (s.undone b) where
  regs := h.regs
  tables := h.tables
  points := h.closed.2.1
  execSequ := h.execSequ
  cpu := h.cpu
  interrupts := h.length_filled b.cpuState
  awaited := nofun
  word _ := h.closed.1
  openWord := nofun
  marks := h.closed.2.2

theorem Recorded.kept : Recorded (s.kept t b) where
  regs := by
    change (s.prologRegs ++ [_]).length = s.rtDumpTbCount + 1
    rw [length_append, h.regs]
    rfl
  tables := by
    change (s.memoSyncTables ++ [_]).length = s.rtDumpTbCount + 1
    rw [length_append, h.tables]
    rfl
  points := by
    change (s.memoMergePoints ++ [_]).length = s.rtDumpTbCount + 1
    rw [length_append, h.points]
    rfl
  execSequ := by
    change (s.tbExecSequ ++ [_]).length = s.rtDumpTbCount + 1
    rw [length_append, h.execSequ]
    rfl
  cpu := by
    have hcpu := h.cpu
    change (if s.rtDumpTbCount = 0 then s.cpuStates ++ [b.cpuState] else s.cpuStates).length = 1
    by_cases hn : s.rtDumpTbCount = 0
    · rw [if_pos hn] at hcpu ⊢
      rw [length_append, hcpu]
      rfl
    · rw [if_neg hn] at hcpu ⊢
      exact hcpu
  interrupts := congrArg (· + 1) (h.length_filled b.cpuState)
  awaited := nofun
  word := nofun
  openWord _ := by
    change OpenWord (s.memoMergePoints ++ [if s.flagInterestedTb then _ else _])
    by_cases hF : s.flagInterestedTb = true
    · rw [if_pos hF]
      exact (h.openWord hF).open_normal
    · rw [if_neg hF]
      exact (h.word (Bool.eq_false_of_not_eq_true hF)).open_back
  marks := by
    change (s.prologRegs ++ [if s.flagInterestedTb then none else some _]).map _ =
      (s.memoMergePoints ++ [if s.flagInterestedTb then _ else _]).map _
    rw [map_append, map_append, h.marks]
    by_cases hF : s.flagInterestedTb = true
    · rw [if_pos hF, if_pos hF]
      rfl
    · rw [if_neg hF, if_neg hF]
      rfl

/-- **A block**: no assertion fails, and what holds between blocks holds again. The block is of
    interest afterwards exactly if it was recorded and symbolic. -/
theorem Recorded.execTb (t : Target) (b : TbExec) : ∃ s', s.execTb t b = .ok s' ∧ Recorded s' ∧
      s'.flagInterestedTb = (b.isInterested && b.symbolic) := by
  by_cases hb : b.isInterested = true
  · by_cases hsym : b.symbolic = true
    · have hk := h.kept (t := t) (b := b)
      refine ⟨_, execTb_kept h hb hsym, ?_⟩
      rw [hb, hsym]
      cases b.interrupt with
      | none =>
        exact ⟨⟨hk.regs, hk.tables, hk.points, hk.execSequ, hk.cpu, hk.interrupts, hk.awaited,
          hk.word, hk.openWord, hk.marks⟩, rfl⟩
      | some i =>
        refine ⟨⟨hk.regs, hk.tables, hk.points, hk.execSequ, hk.cpu, ?_,
          fun _ => ⟨_, i.info, i.blank, rfl⟩, hk.word, hk.openWord, hk.marks⟩, rfl⟩
        change ((s.interruptsFilled b.cpuState) ++ [_]).length + 0 = s.rtDumpTbCount + 1
        rw [length_append, h.length_filled]
        rfl
    · have hsym := Bool.eq_false_of_not_eq_true hsym
      refine ⟨_, execTb_undone h hb hsym, h.undone, ?_⟩
      rw [hb, hsym]
      rfl
  · have hb := Bool.eq_false_of_not_eq_true hb
    refine ⟨_, execTb_passed h hb, h.passed, ?_⟩
    rw [hb]
    rfl

end

end Block

/-! ## 9. Whole runs -/

/-- **The blocks one after the other**: the run goes through, and what holds between blocks holds
    after it. -/
theorem execTbs_recorded (t : Target) (bs : List TbExec) : ∃ s, execTbs t bs = .ok s ∧ Recorded s ∧
      s.flagInterestedTb = bs.getLast?.any fun b => b.isInterested && b.symbolic := by
  induction bs using reverseRecOn with
  | nil => exact ⟨.init, rfl, recorded_init, rfl⟩
  | append_singleton bs b ih =>
    obtain ⟨s, hs, hrec, -⟩ := ih
    obtain ⟨s', hs', hrec', hflag⟩ := hrec.execTb t b
    refine ⟨s', ?_, hrec', ?_⟩
    · unfold execTbs at hs ⊢
      rw [foldlM_append, hs, ok_bind, foldlM_cons, hs', ok_bind]
      rfl
    · rw [hflag, getLast?_concat]
      rfl

/-- The recording after some blocks. -/
structure RecordingLaw (bs : List TbExec) (s : RecorderState) : Prop extends Recorded s where
  beginning : ∃ w, MergeWord (s.memoMergePoints ++ w)
  complete : (∀ b, bs.getLast? = some b → (b.isInterested && b.symbolic) = false) →
    MergeWord s.memoMergePoints
  regsAt : ∀ (i : Nat) (r : Option Bytes) (p : MemoMergePoint),
    s.prologRegs[i]? = some r → s.memoMergePoints[i]? = some p →
    (r.isSome = true ↔ p = .backToInterestTb ∨ p = .outAndBackTb)

/-- **The recording of any sequence of blocks**, whatever the filters say, whichever blocks turn
    out symbolic and whichever end in an interrupt. -/
theorem recording_law (t : Target) (bs : List TbExec) :
    ∃ s, execTbs t bs = .ok s ∧ RecordingLaw bs s := by
  obtain ⟨s, hs, h, hflag⟩ := execTbs_recorded t bs
  refine ⟨s, hs, h, ?_, fun hlast => ?_, ?_⟩
  · by_cases hF : s.flagInterestedTb = true
    · exact ⟨_, (h.openWord hF).completed⟩
    · refine ⟨[], ?_⟩
      rw [append_nil]
      exact h.word (Bool.eq_false_of_not_eq_true hF)
  · refine h.word ?_
    rw [hflag]
    cases hb : bs.getLast? with
    | none => rfl
    | some b => exact hlast b hb
  · intro i r p hr hp
    have hmarks := congrArg (·[i]?) h.marks
    simp only [getElem?_map, hr, hp, Option.map_some, Option.some.injEq] at hmarks
    rw [hmarks]
    exact decide_eq_true_iff

/-! ## 10. Taking a block back -/

/-- The states that some blocks lead to. -/
def Reachable (t : Target) (s : RecorderState) : Prop := ∃ bs, execTbs t bs = .ok s

/-- Equal but for `flag_interrupt_CPUState_dumped`, which nothing reads. -/
def SameRecording (s₁ s₂ : RecorderState) : Prop :=
  { s₁ with flagInterruptCpuStateDumped := false } =
    { s₂ with flagInterruptCpuStateDumped := false }

/-- The same block, filtered out. -/
def TbExec.filtered (b : TbExec) : TbExec := { b with inExcludeFilter := true }

theorem TbExec.filtered_isInterested (b : TbExec) : b.filtered.isInterested = false := by
  unfold TbExec.isInterested TbExec.filtered
  simp

theorem Reachable.recorded {t : Target} {s : RecorderState} (h : Reachable t s) : Recorded s := by
  obtain ⟨bs, hbs⟩ := h
  obtain ⟨s', hs', hrec, -⟩ := execTbs_recorded t bs
  rw [hbs] at hs'
  cases hs'
  exact hrec

/-- What a block that is taken back leaves behind. -/
theorem sameRecording_iff {s : RecorderState} {b : TbExec} (hb : b.isInterested = true) :
    SameRecording (s.undone b) (s.passed b.filtered) ↔
      s.flagRtDumpStart = true ∧ s.flagDumpInterruptCpuState = false := by
  have hstart : (s.undone b).flagRtDumpStart = true := by
    change (s.flagRtDumpStart || b.isInterested) = true
    rw [hb, Bool.or_true]
  have hstart' : (s.passed b.filtered).flagRtDumpStart = s.flagRtDumpStart := by
    change (s.flagRtDumpStart || b.filtered.isInterested) = s.flagRtDumpStart
    rw [b.filtered_isInterested, Bool.or_false]
  constructor
  · intro h
    unfold SameRecording at h
    have h₁ := congrArg flagRtDumpStart h
    have h₂ := congrArg RecorderState.flagDumpInterruptCpuState h
    change (s.undone b).flagRtDumpStart = (s.passed b.filtered).flagRtDumpStart at h₁
    exact ⟨by rw [← hstart', ← h₁, hstart], h₂.symm⟩
  · intro h
    obtain ⟨h₁, h₂⟩ := h
    have hfilled : s.interruptsFilled b.cpuState = s.interruptsPassed := by
      rw [interruptsFilled, if_neg (by rw [h₂]; exact Bool.noConfusion)]
    unfold SameRecording undone passed setFlags
    simp only [hfilled, h₁, h₂, Bool.true_or]
    rfl

/-- **Taking a concrete block back is as if it had been filtered out exactly if** recording had
    begun before it and no CPU state was awaited for an interrupt. -/
theorem undo_exact_iff (t : Target) (s : RecorderState) (hs : Reachable t s) (b : TbExec)
    (hb : b.isInterested = true) (hsym : b.symbolic = false) :
    (∃ s₁ s₂, s.execTb t b = .ok s₁ ∧ s.execTb t b.filtered = .ok s₂ ∧ SameRecording s₁ s₂) ↔
      s.flagRtDumpStart = true ∧ s.flagDumpInterruptCpuState = false := by
  have hrec := hs.recorded
  have h₁ := execTb_undone (t := t) hrec hb hsym
  have h₂ := execTb_passed (t := t) hrec b.filtered_isInterested
  rw [← sameRecording_iff hb]
  constructor
  · intro h
    obtain ⟨s₁, s₂, hs₁, hs₂, hsame⟩ := h
    rw [h₁] at hs₁
    rw [h₂] at hs₂
    cases hs₁
    cases hs₂
    exact hsame
  · exact fun h => ⟨_, _, h₁, h₂, h⟩

/-- A block of interest with a CPU state of one byte. -/
def oneByteBlock (cpu : UInt8) (symbolic : Bool) (interrupt : Option RaisedInterrupt) : TbExec :=
  ⟨[cpu], true, true, true, false, true, 0, "tb", [], symbolic, interrupt⟩

/-- A guest whose CPU state is its registers. -/
def tinyTarget : Target := ⟨0, 1, 1⟩

/-- A concrete block after a recorded one. -/
theorem undo_exact_second : ∃ s, execTbs tinyTarget [oneByteBlock 1 true none] = .ok s ∧
    ∃ s₁ s₂, s.execTb tinyTarget (oneByteBlock 2 false none) = .ok s₁ ∧
      s.execTb tinyTarget (oneByteBlock 2 false none).filtered = .ok s₂ ∧
      SameRecording s₁ s₂ := by
  obtain ⟨s, hs, -⟩ := execTbs_recorded tinyTarget [oneByteBlock 1 true none]
  have hflags : (execTbs tinyTarget [oneByteBlock 1 true none]).toOption.map
      (fun s => (s.flagRtDumpStart, s.flagDumpInterruptCpuState)) = some (true, false) := rfl
  rw [hs] at hflags
  obtain ⟨h₁, h₂⟩ := Prod.mk.inj (Option.some.inj hflags)
  exact ⟨s, hs, (undo_exact_iff tinyTarget s ⟨_, hs⟩ _ rfl rfl).2 ⟨h₁, h₂⟩⟩

/-- An interrupt ends the first block; the second, which is taken back, has left its CPU state in
    the record of the interrupt, and the block that comes after it will leave none. -/
theorem undo_fills_interrupt :
    (execTbs tinyTarget [oneByteBlock 1 true (some ⟨.blank, [9]⟩), oneByteBlock 2 false none]).map
        (fun s => (s.interruptStates, s.flagDumpInterruptCpuState)) =
      .ok ([⟨.blank, some [2]⟩], false) ∧
    (execTbs tinyTarget [oneByteBlock 1 true (some ⟨.blank, [9]⟩),
        (oneByteBlock 2 false none).filtered]).map
        (fun s => (s.interruptStates, s.flagDumpInterruptCpuState)) =
      .ok ([⟨.blank, some [9]⟩], true) := ⟨rfl, rfl⟩

/-! ## 11. What is written -/

/-- The vectors that the files are written from. -/
def RecorderState.env (s : RecorderState) : RuntimeEnv :=
  ⟨UInt64.ofNat s.rtDumpTbCount, s.prologRegs, s.memoSyncTables, s.memoMergePoints,
    s.interruptStates⟩

/-- **A recording whose tables have been merged was complete**: its last block is marked as the
    last of its segment. -/
theorem Recorded.mergeable {s : RecorderState} (h : Recorded s)
    (hkept : ∀ t ∈ s.memoSyncTables, Kept t) {merged : List MemoSyncTable}
    (hm : s.env.mergeMemoSyncTables = .ok merged) : Mergeable s.env ∧ s.memoMergePoints ≠ [] := by
  rw [RuntimeEnv.mergeMemoSyncTables] at hm
  obtain ⟨htables, hm⟩ := ensure_bind_eq_ok.1 hm
  obtain ⟨hpoints, hm⟩ := ensure_bind_eq_ok.1 hm
  obtain ⟨hhead, hm⟩ := ensure_bind_eq_ok.1 hm
  obtain ⟨hlast, -⟩ := ensure_bind_eq_ok.1 hm
  refine ⟨⟨?_, hpoints, htables, hkept⟩, ?_⟩
  · cases hflag : s.flagInterestedTb with
    | false => exact h.word hflag
    | true =>
      obtain ⟨w, p, q, hw, -, -, hp⟩ := (h.openWord hflag).last
      change s.memoMergePoints.getLast? = _ ∨ s.memoMergePoints.getLast? = _ at hlast
      rw [hw, getLast?_concat] at hlast
      rcases hp with ⟨e, -⟩ | ⟨e, -⟩ <;> rw [e] at hlast <;> simp at hlast
  · intro hnil
    change s.memoMergePoints.head? = _ ∨ s.memoMergePoints.head? = _ at hhead
    rw [hnil] at hhead
    simp at hhead

end Crete.Dump
