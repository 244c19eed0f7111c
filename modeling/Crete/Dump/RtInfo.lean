/-
  File:      Crete/Dump/RtInfo.lean
  Subject:   The replay's side of a dump (klee/lib/bct-replay/qemu_rt_info.cpp): the three binary
             files read back.

  * `Recording` -- the recording invariant: one register slot, one sync table and one interrupt
    record for every block.
  * **`dump_agrees`** -- what the recorder writes is read back without a failed assertion, block by
    block.
-/
import Crete.Lib.Parse
import Crete.Dump.Recorder

namespace Crete.Dump

open Crete.Lib List

/-! ## 1. The readers -/

/-- `init_prolog_regs`: the offset and the size of the registers, and the registers of every
    block, none where they were not dumped. -/
def initPrologRegs : Parser DumpStop ((Nat × Nat) × List Bytes) := do
  let offset ← readLe 8 (.assertion "i_regs.gcount() == 8")
  let size ← readLe 8 (.assertion "i_regs.gcount() == 8")
  let amt ← readLe 8 (.assertion "i_regs.gcount() == 8")
  let isValid ← readN amt (.assertion "(uint64_t)i_regs.gcount() == amt_regs")
  let regs ← isValid.mapM fun flag =>
    if flag = 1 then readN size (.assertion "(uint64_t)i_regs.gcount() == size_regs_entry")
    else do
      demand (flag = 0) (.assertion "*it == 0")
      return []
  return ((offset, size), regs)

/-- The loop over the presence flags of `init_memoSyncTables` and `init_interruptStates`: `one`
    reads what is present, and the count goes down with it. -/
def readFlagged {α : Type} (one : Parser DumpStop α) (absent : α) (count : String) :
    Bytes → Nat → Parser DumpStop (List α × Nat)
  | [], amt => pure ([], amt)
  | flag :: flags, amt =>
    if flag = 1 then do
      demand (amt ≠ 0) (.assertion count)
      let a ← one
      let r ← readFlagged one absent count flags (amt - 1)
      return (a :: r.1, r.2)
    else do
      demand (flag = 0) (.assertion "*it == 0")
      let r ← readFlagged one absent count flags amt
      return (absent :: r.1, r.2)

/-- An entry of a sync table. -/
def readEntry : Parser DumpStop ConcreteMemoInfo := do
  let addr ← readLe 8 (.assertion "(uint64_t)i_sm.gcount() == 8")
  let size ← readLe 4 (.assertion "(uint64_t)i_sm.gcount() == 4")
  demand (size ≠ 0) (.assertion "size_memo_sync != 0")
  let data ← readN size (.assertion "(uint64_t)i_sm.gcount() == size_memo_sync")
  return ⟨UInt64.ofNat addr, UInt32.ofNat size, data⟩

/-- The entries of a sync table, inserted one by one. -/
def readEntries : Nat → MemoSyncTable → Parser DumpStop MemoSyncTable
  | 0, t => pure t
  | n + 1, t => do
      let e ← readEntry
      let t ← StateT.lift (insertEntry t e)
      readEntries n t

/-- A sync table that is not empty. -/
def readTable : Parser DumpStop MemoSyncTable := do
  let amt ← readLe 8 (.assertion "i_sm.gcount() == 8")
  readEntries amt []

/-- `init_memoSyncTables`. -/
def initMemoSyncTables : Parser DumpStop (List MemoSyncTable) := do
  let amtTbs ← readLe 8 (.assertion "i_sm.gcount() == 8")
  let flags ← readN amtTbs (.assertion "(uint64_t)i_sm.gcount() == amt_dumped_tbs")
  let amtTables ← readLe 8 (.assertion "i_sm.gcount() == 8")
  let r ← readFlagged readTable [] "(amt_memoSyncTables--) != 0" flags amtTables
  demand (r.2 = 0) (.assertion "amt_memoSyncTables == 0")
  return r.1

/-- A `QemuInterruptInfo`, read over its own bytes. -/
def readInterruptInfo : Parser DumpStop QemuInterruptInfo := do
  let short := DumpStop.assertion "(uint64_t)i_sm.gcount() == size_QemuInterruptInfo"
  let intno ← readLe 4 short
  let isInt ← readLe 4 short
  let errorCode ← readLe 4 short
  let nextEipAddend ← readLe 4 short
  return ⟨UInt32.ofNat intno, UInt32.ofNat isInt, UInt32.ofNat errorCode,
    UInt32.ofNat nextEipAddend⟩

/-- An interrupt state that is present. -/
def readInterruptState (sizeCpuState : Nat) : Parser DumpStop (QemuInterruptInfo × Bytes) := do
  let info ← readInterruptInfo
  let cpu ← readN sizeCpuState (.assertion "(uint64_t)i_sm.gcount() == size_CPUSate")
  return (info, cpu)

/-- `init_interruptStates`. -/
def initInterruptStates : Parser DumpStop (List (QemuInterruptInfo × Bytes)) := do
  let sizeInfo ← readLe 8 (.assertion "i_sm.gcount() == 8")
  demand (sizeInfo = sizeofInterruptInfo)
    (.assertion "size_QemuInterruptInfo == sizeof(QemuInterruptInfo)")
  let sizeCpuState ← readLe 8 (.assertion "i_sm.gcount() == 8")
  let amtTbs ← readLe 8 (.assertion "i_sm.gcount() == 8")
  let amtValid ← readLe 8 (.assertion "i_sm.gcount() == 8")
  let isValid ← readN amtTbs (.assertion "(uint64_t)i_sm.gcount() == amt_tbs")
  let r ← readFlagged (readInterruptState sizeCpuState) (QemuInterruptInfo.blank, [])
    "(amt_valid_interruptStates--) != 0" isValid amtValid
  demand (r.2 = 0) (.assertion "amt_valid_interruptStates == 0")
  return r.1

/-! ## 2. Flags and what they stand for -/

theorem presence_eq_one {b : Bool} : presence b = 1 ↔ b = true := by cases b <;> decide

theorem presence_eq_zero {b : Bool} (h : ¬ b = true) : presence b = 0 := by
  cases b with
  | false => rfl
  | true => exact absurd rfl h

/-- **Presence flags, their count, and the parts that are present.** -/
theorem reads_flagged {τ α : Type} (one : Parser DumpStop α) (absent : α) (count : String)
    (present : τ → Bool) (enc : τ → Bytes) (val : τ → α) (xs : List τ)
    (hone : ∀ x ∈ xs, present x = true → Reads one (enc x) (val x))
    (habs : ∀ x ∈ xs, ¬ present x = true → enc x = [] ∧ val x = absent) :
    Reads (readFlagged one absent count (xs.map fun x => presence (present x)) (xs.countP present))
      (xs.flatMap enc) (xs.map val, 0) := by
  induction xs with
  | nil => exact reads_pure _
  | cons x xs ih =>
    have ih' := ih (forall_mem_cons.1 hone).2 (forall_mem_cons.1 habs).2
    rw [map_cons, flatMap_cons, map_cons, readFlagged]
    by_cases hp : present x = true
    · rw [if_pos (presence_eq_one.2 hp), countP_cons_of_pos hp]
      refine Reads.demand (Nat.succ_ne_zero _) ?_
      exact (hone x (.head _) hp).bind (ih'.map fun r => (val x :: r.1, r.2))
    · obtain ⟨he, hv⟩ := habs x (.head _) hp
      rw [if_neg fun e => hp (presence_eq_one.1 e), countP_cons_of_neg hp, he, hv, nil_append]
      exact Reads.demand (presence_eq_zero hp) (ih'.map fun r => (absent :: r.1, r.2))

/-! ## 3. Sync tables -/

theorem reads_entry {e : ConcreteMemoInfo} (h : e.Ok) : Reads readEntry (entryBytes e) e := by
  refine (reads_readLe e.addr.toNat_lt _).bind ((reads_readLe e.size.toNat_lt _).bind
    (Reads.demand h.size ?_))
  simp only [UInt64.ofNat_toNat, UInt32.ofNat_toNat]
  exact (reads_readN h.data _).map fun data => (⟨e.addr, e.size, data⟩ : ConcreteMemoInfo)

theorem reads_lift {α : Type} {x : Except DumpStop α} {a : α} (h : x = .ok a) :
    Reads (StateT.lift x : Parser DumpStop α) [] a := by
  intro rest
  rw [h]
  rfl

theorem reads_entries (es : List ConcreteMemoInfo) : ∀ {t : MemoSyncTable}, TableOk (t ++ es) →
    Reads (readEntries es.length t) (es.flatMap entryBytes) (t ++ es) := by
  induction es with
  | nil =>
    intro t _
    rw [append_nil]
    exact reads_pure t
  | cons e es ih =>
    intro t h
    have hsplit : t ++ e :: es = (t ++ [e]) ++ es := by
      rw [append_assoc, singleton_append]
    have hlast : ∀ x ∈ t, x.addr < e.addr := fun x hx =>
      (pairwise_append.1 h.sorted).2.2 x hx e (.head _)
    have hinsert : insertEntry t e = .ok (t ++ [e]) := by
      have hc := h.count
      rw [length_append, length_cons] at hc
      have hsorted := insertSorted_between hlast (forall_mem_nil _)
      rw [append_nil] at hsorted
      rw [insertEntry, if_pos (by omega), hsorted]
    have he := reads_entry (h.entries e (mem_append_right _ (.head _)))
    rw [hsplit] at h ⊢
    rw [flatMap_cons]
    have hrest := (reads_lift hinsert).bind (f := fun t => readEntries es.length t) (ih h)
    rw [nil_append] at hrest
    exact he.bind hrest

theorem reads_table {t : MemoSyncTable} (h : TableOk t) (hne : t ≠ []) :
    Reads readTable (tableBytes t) t := by
  rw [tableBytes, if_neg hne]
  exact (reads_readLe h.count _).bind (reads_entries t h)

/-! ## 4. The three files -/

/-- **The recording invariant**: for every block one register slot, one sync table with its merge
    point, and one interrupt record; no empty entries in the tables. -/
structure Recording (t : Target) (r : RuntimeEnv) : Prop where
  regs : r.prologRegs.length = r.tbCount.toNat
  regsSize : ∀ s ∈ r.prologRegs, ∀ bs, s = some bs → bs.length = t.sizeRegs.toNat
  tables : ∀ tb ∈ r.memoSyncTables, TableOk tb
  interrupts : r.interruptStates.length = r.tbCount.toNat
  cpuSize : ∀ s ∈ r.interruptStates, ∀ bs, s.cpuState = some bs → bs.length = t.sizeCpuState.toNat
  blank : ∀ s ∈ r.interruptStates, s.cpuState = none → s.info = .blank

theorem reads_prologRegs {t : Target} {r : RuntimeEnv} (h : Recording t r) :
    ∃ bs, writePrologRegs t r = .ok bs ∧
      Reads initPrologRegs bs ((t.offsetRegs.toNat, t.sizeRegs.toNat),
        r.prologRegs.map fun s => s.getD []) := by
  have hcount : r.prologRegs.length < 256 ^ 8 := by
    rw [h.regs]
    exact r.tbCount.toNat_lt
  refine ⟨_, by rw [writePrologRegs, ensure_bind, if_pos h.regs]; rfl, ?_⟩
  refine (reads_readLe t.offsetRegs.toNat_lt _).bind ((reads_readLe t.sizeRegs.toNat_lt _).bind
    ((reads_readLe hcount _).bind ((reads_readN (length_map _) _).bind ?_)))
  refine Reads.map ?_ fun regs => ((t.offsetRegs.toNat, t.sizeRegs.toNat), regs)
  rw [mapM_map]
  refine reads_mapM r.prologRegs fun s hs => ?_
  cases s with
  | none => exact Reads.demand rfl (reads_pure [])
  | some bs => exact reads_readN (h.regsSize _ hs bs rfl) _

theorem reads_memoSyncTables {t : Target} {r : RuntimeEnv} (h : Recording t r)
    {merged : List MemoSyncTable} (hm : r.mergeMemoSyncTables = .ok merged) :
    ∃ bs, writeMemoSyncTables r = .ok bs ∧ Reads initMemoSyncTables bs merged := by
  obtain ⟨hlen, hpts, hok, hclear⟩ := mergeMemoSyncTables_spec h.tables hm
  have hcheck : ∀ x ∈ r.memoMergePoints.zip merged, x.1.IsSource → x.2 = [] := by
    intro x hx hsrc
    obtain ⟨i, hi⟩ := mem_iff_getElem?.1 hx
    obtain ⟨h₁, h₂⟩ := getElem?_zip_eq_some.1 hi
    rw [hclear i x.1 h₁ hsrc] at h₂
    exact (Option.some.inj h₂).symm
  have htake : merged.take r.memoMergePoints.length = merged :=
    take_of_length_le (by omega)
  have hcount : r.memoMergePoints.length < 256 ^ 8 := by
    rw [hpts]
    exact r.tbCount.toNat_lt
  have hpresent : merged.countP (fun tb => decide (tb ≠ [])) < 256 ^ 8 :=
    Nat.lt_of_le_of_lt countP_le_length (by omega)
  refine ⟨_, by rw [writeMemoSyncTables, hm, ok_bind, ensure_bind, if_pos hcheck, htake]; rfl, ?_⟩
  refine (reads_readLe hcount _).bind ((reads_readN (by rw [length_map]; omega) _).bind
    ((reads_readLe hpresent _).bind ?_))
  have hflagged := reads_flagged readTable [] "(amt_memoSyncTables--) != 0"
    (fun tb : MemoSyncTable => decide (tb ≠ [])) tableBytes id merged
    (fun tb htb hne => reads_table (hok tb htb) (of_decide_eq_true hne))
    (fun tb _ hp => by
      obtain rfl : tb = [] := Classical.byContradiction fun hne => hp (decide_eq_true hne)
      exact ⟨rfl, rfl⟩)
  rw [map_id] at hflagged
  have hrest := hflagged.bind (f := fun p => do
    demand (p.2 = 0) (.assertion "amt_memoSyncTables == 0")
    return p.1) (Reads.demand rfl (reads_pure merged))
  rw [append_nil] at hrest
  exact hrest

theorem reads_interruptInfo (i : QemuInterruptInfo) :
    Reads readInterruptInfo (interruptInfoBytes i) i := by
  refine (reads_readLe i.intno.toNat_lt _).bind ((reads_readLe i.isInt.toNat_lt _).bind
    ((reads_readLe i.errorCode.toNat_lt _).bind ?_))
  have hlast := (reads_readLe (n := 4) i.nextEipAddend.toNat_lt
    (DumpStop.assertion "(uint64_t)i_sm.gcount() == size_QemuInterruptInfo")).map fun n =>
      (⟨i.intno, i.isInt, i.errorCode, UInt32.ofNat n⟩ : QemuInterruptInfo)
  rw [UInt32.ofNat_toNat] at hlast
  simp only [UInt32.ofNat_toNat]
  exact hlast

theorem reads_interruptStates {t : Target} {r : RuntimeEnv} (h : Recording t r) :
    ∃ bs, writeInterruptStates t r = .ok bs ∧ Reads initInterruptStates bs
        (r.interruptStates.map fun s => (s.info, s.cpuState.getD [])) := by
  have hvalid : r.interruptStates.countP (·.cpuState.isSome) < 256 ^ 8 :=
    Nat.lt_of_le_of_lt countP_le_length (by rw [h.interrupts]; exact r.tbCount.toNat_lt)
  refine ⟨_, by rw [writeInterruptStates, ensure_bind, if_pos h.interrupts]; rfl, ?_⟩
  refine (reads_readLe (by decide) _).bind (Reads.demand rfl
    ((reads_readLe t.sizeCpuState.toNat_lt _).bind ((reads_readLe r.tbCount.toNat_lt _).bind
      ((reads_readLe hvalid _).bind ((reads_readN (by rw [length_map, h.interrupts]) _).bind ?_)))))
  have hflagged := reads_flagged (readInterruptState t.sizeCpuState.toNat)
    (QemuInterruptInfo.blank, []) "(amt_valid_interruptStates--) != 0"
    (fun s : InterruptState => s.cpuState.isSome) interruptBytes
    (fun s => (s.info, s.cpuState.getD [])) r.interruptStates
    (fun s hs hp => by
      obtain ⟨cpu, hcpu⟩ := Option.isSome_iff_exists.1 hp
      rw [interruptBytes, hcpu]
      exact (reads_interruptInfo s.info).bind
        ((reads_readN (h.cpuSize s hs cpu hcpu) _).map fun cpu => (s.info, cpu)))
    (fun s hs hp => by
      have hnone : s.cpuState = none := Option.not_isSome_iff_eq_none.1 hp
      rw [interruptBytes, hnone, h.blank s hs hnone]
      exact ⟨rfl, rfl⟩)
  have hrest := hflagged.bind (f := fun p => do
    demand (p.2 = 0) (.assertion "amt_valid_interruptStates == 0")
    return p.1) (Reads.demand rfl (reads_pure (r.interruptStates.map fun s =>
      (s.info, s.cpuState.getD []))))
  rw [append_nil] at hrest
  exact hrest

/-- **The two sides of a dump agree.** From a state that meets the recording invariant, with the
    sync tables merged: the three files are written, they are read back without a failed
    assertion, and for every block the replay has the registers (none if they were not dumped),
    the merged sync table, and the interrupt information with the CPU state (none if there was
    no interrupt). -/
theorem dump_agrees (t : Target) (r : RuntimeEnv) (h : Recording t r)
    (merged : List MemoSyncTable) (hm : r.mergeMemoSyncTables = .ok merged) :
    ∃ regs memos interrupts, writePrologRegs t r = .ok regs ∧ writeMemoSyncTables r = .ok memos ∧
      writeInterruptStates t r = .ok interrupts ∧
      parseFile initPrologRegs regs = .ok ((t.offsetRegs.toNat, t.sizeRegs.toNat),
        r.prologRegs.map fun s => s.getD []) ∧
      parseFile initMemoSyncTables memos = .ok merged ∧
      parseFile initInterruptStates interrupts =
        .ok (r.interruptStates.map fun s => (s.info, s.cpuState.getD [])) := by
  obtain ⟨regs, hw, hr⟩ := reads_prologRegs h
  obtain ⟨memos, hw', hr'⟩ := reads_memoSyncTables h hm
  obtain ⟨interrupts, hw'', hr''⟩ := reads_interruptStates h
  exact ⟨regs, memos, interrupts, hw, hw', hw'', hr.parseFile, hr'.parseFile, hr''.parseFile⟩

/-- Three blocks: the sync table of the second goes into that of the first, where it meets an
    entry; the third has registers and an interrupt, the first two have neither. -/
def threeBlocks : RuntimeEnv :=
  ⟨3, [none, none, some [1, 2, 3, 4]], [[⟨16, 2, [1, 2]⟩], [⟨17, 2, [9, 8]⟩], []],
    [.backToInterestTb, .outofInterestTb, .outAndBackTb],
    [⟨.blank, none⟩, ⟨.blank, none⟩, ⟨⟨14, 0, 4, 0⟩, some [7, 7]⟩]⟩

theorem dump_agrees_three :
    ∃ regs memos interrupts, writePrologRegs ⟨0, 4, 2⟩ threeBlocks = .ok regs ∧
      writeMemoSyncTables threeBlocks = .ok memos ∧
      writeInterruptStates ⟨0, 4, 2⟩ threeBlocks = .ok interrupts ∧
      parseFile initPrologRegs regs = .ok ((0, 4), [[], [], [1, 2, 3, 4]]) ∧
      parseFile initMemoSyncTables memos = .ok [[⟨16, 3, [1, 2, 8]⟩], [], []] ∧
      parseFile initInterruptStates interrupts =
        .ok [(.blank, []), (.blank, []), (⟨14, 0, 4, 0⟩, [7, 7])] :=
  dump_agrees ⟨0, 4, 2⟩ threeBlocks
    { regs := rfl
      regsSize := by
        intro s hs bs hb
        simp only [threeBlocks, mem_cons, not_mem_nil, or_false] at hs
        rcases hs with rfl | rfl | rfl <;> cases hb
        rfl
      tables := by
        intro tb htb
        simp only [threeBlocks, mem_cons, not_mem_nil, or_false] at htb
        rcases htb with rfl | rfl | rfl
        · exact ⟨by decide, by rintro e (_ | ⟨_, ⟨⟩⟩); exact ⟨by decide, rfl⟩, by decide⟩
        · exact ⟨by decide, by rintro e (_ | ⟨_, ⟨⟩⟩); exact ⟨by decide, rfl⟩, by decide⟩
        · exact tableOk_nil
      interrupts := rfl
      cpuSize := by
        intro s hs bs hb
        simp only [threeBlocks, mem_cons, not_mem_nil, or_false] at hs
        rcases hs with rfl | rfl | rfl <;> cases hb
        rfl
      blank := by decide } [[⟨16, 3, [1, 2, 8]⟩], [], []] (by decide +kernel)

end Crete.Dump
