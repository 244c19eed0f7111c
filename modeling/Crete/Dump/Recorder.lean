/-
  File:      Crete/Dump/Recorder.lean
  Subject:   The recorder's side of a dump (qemu-1.0/runtime-dump/runtime-dump.cpp): the sync
             tables with their merge, and the three binary files.

  * `TableOk` -- the entries of a table: in order of address, not empty, and as long as they say.
  * **`mergeMemoSyncTables_spec`** -- a merge that returns keeps all tables so, and leaves the
    tables it merged from empty.
-/
import Crete.Lib.Bytes
import Crete.Lib.Except

namespace Crete.Dump

open Crete.Lib List

/-! ## 1. The recorder's state -/

/-- How a call of the recorder or of the replay can end other than by returning. -/
inductive DumpStop where
  | assertion (expr : String)
  | badAccess
  | badAlloc
  deriving DecidableEq, Repr

/-- `struct ConcreteMemoInfo`. -/
structure ConcreteMemoInfo where
  addr : UInt64
  size : UInt32
  data : Bytes
  deriving DecidableEq, Repr

/-- `memoSyncTable_ty`: a map keyed by the address of its entries, in key order. -/
abbrev MemoSyncTable := List ConcreteMemoInfo

/-- `MemoMergePoint_ty`. -/
inductive MemoMergePoint where
  | normalTb
  | outofInterestTb
  | backToInterestTb
  | outAndBackTb
  deriving DecidableEq, Repr

/-- `struct QemuInterruptInfo`: four ints, as their bits. -/
structure QemuInterruptInfo where
  intno : UInt32
  isInt : UInt32
  errorCode : UInt32
  nextEipAddend : UInt32
  deriving DecidableEq, Repr

/-- `QemuInterruptInfo(0, 0, 0, 0)`. -/
def QemuInterruptInfo.blank : QemuInterruptInfo := ⟨0, 0, 0, 0⟩

/-- `interruptState_ty` of the recorder: the CPU state is behind a pointer that may be null. -/
structure InterruptState where
  info : QemuInterruptInfo
  cpuState : Option Bytes
  deriving DecidableEq, Repr

/-- What the guest's architecture fixes: `CPU_OFFSET(regs)`, the size of the registers, and
    `sizeof(CPUState)`. -/
structure Target where
  offsetRegs : UInt64
  sizeRegs : UInt64
  sizeCpuState : UInt64

/-- The parts of `class RuntimeEnv` that the three files are written from. -/
structure RuntimeEnv where
  tbCount : UInt64
  prologRegs : List (Option Bytes)
  memoSyncTables : List MemoSyncTable
  memoMergePoints : List MemoMergePoint
  interruptStates : List InterruptState

/-! ## 2. Sync tables -/

/-- Where an entry goes in key order; a key that is there keeps its entry. -/
def insertSorted (e : ConcreteMemoInfo) : MemoSyncTable → MemoSyncTable
  | [] => [e]
  | x :: t => if e.addr < x.addr then e :: x :: t
      else if e.addr = x.addr then x :: t
      else x :: insertSorted e t

/-- `insert` of a map, whose size is a `size_t`. -/
def insertEntry (t : MemoSyncTable) (e : ConcreteMemoInfo) : Except DumpStop MemoSyncTable :=
  if t.length + 1 < 2 ^ 64 then .ok (insertSorted e t) else .error .badAlloc

/-- The end address of an entry. -/
def ConcreteMemoInfo.addrEnd (e : ConcreteMemoInfo) : UInt64 := e.addr + e.size.toUInt64

/-- The second loop of `overlapsMemoSyncEntry`: the addresses of the entries that overlap, up to
    the first one behind the given range. -/
def overlapsFrom (addr addrEnd : UInt64) : MemoSyncTable → List UInt64
  | [] => []
  | e :: t =>
    let later := if e.addr ≥ addrEnd then [] else overlapsFrom addr addrEnd t
    if e.addrEnd > addr ∧ e.addr < addrEnd then e.addr :: later else later

/-- `overlapsMemoSyncEntry`: from the last entry before the address on. -/
def overlapsMemoSyncEntry (addr : UInt64) (size : UInt32) (t : MemoSyncTable) : List UInt64 :=
  let before := (t.takeWhile fun e => e.addr < addr).length
  overlapsFrom addr (addr + size.toUInt64) (t.drop (before - 1))

/-- `v[offset]` of a vector. -/
def vectorAt (v : Bytes) (offset : UInt32) : Except DumpStop UInt8 :=
  match v[offset.toNat]? with
  | some b => .ok b
  | none => .error .badAccess

/-- A loop `while(current < stop)` that pushes a byte for every address on the way. -/
def copyBytes (current stop : UInt64) (byte : UInt64 → Except DumpStop UInt8) :
    Except DumpStop Bytes :=
  (List.range (stop.toNat - current.toNat)).mapM fun i => byte (current + UInt64.ofNat i)

/-- The bytes of an existing entry, for the merged entry. -/
def existingByte (e : ConcreteMemoInfo) (a : UInt64) : Except DumpStop UInt8 := do
  ensure ((a - e.addr).toUInt32 < e.size)
    (.assertion "offset_exist_entry >= 0 && offset_exist_entry < exist_entry_size")
  vectorAt e.data (a - e.addr).toUInt32

/-- What the loop over the overlapped entries carries: where it writes, what it wrote, and the
    table without the entries it has taken. -/
structure MergeState where
  current : UInt64
  value : Bytes
  table : MemoSyncTable

/-- One overlapped entry: the missing bytes before it from the new entry, then its own. -/
def mergeExisting (addr : UInt64) (v : Bytes) (s : MergeState) (a : UInt64) :
    Except DumpStop MergeState :=
  match s.table.find? fun e => e.addr = a with
  | none => .error (.assertion "it_memo_entry != target_memoSyncTable.end()")
  | some e => do
      ensure (s.current ≤ e.addr) (.assertion "current_writing_byte_addr < exist_entry_addr")
      let missing ← copyBytes s.current e.addr fun x => vectorAt v (x - addr).toUInt32
      let own ← copyBytes e.addr e.addrEnd (existingByte e)
      return ⟨max e.addr e.addrEnd, s.value ++ missing ++ own, s.table.eraseP fun x => x.addr = a⟩

/-- What is left of the new entry after the last overlapped one. -/
def mergeTail (addr addrEnd newEnd : UInt64) (v : Bytes) (current : UInt64) :
    Except DumpStop Bytes :=
  if current < newEnd then do
    ensure (current < addrEnd) (.assertion "current_writing_byte_addr < (addr + size)")
    copyBytes current addrEnd fun x => vectorAt v (x - addr).toUInt32
  else .ok []

/-- `addMemoSyncTableEntryInternal`. -/
def addMemoSyncTableEntryInternal (addr : UInt64) (size : UInt32) (v : Bytes)
    (t : MemoSyncTable) : Except DumpStop MemoSyncTable := do
  ensure (v.length = size.toNat) (.assertion "v_value.size() == size")
  match overlapsMemoSyncEntry addr size t with
  | [] => insertEntry t ⟨addr, size, v⟩
  | first :: others => do
      let last := (first :: others).getLast (cons_ne_nil _ _)
      let lastEnd := last + ((t.find? fun e => e.addr = last).elim 0 (·.size)).toUInt64
      let newAddr := if first < addr then first else addr
      let newEnd := if lastEnd > addr + size.toUInt64 then lastEnd else addr + size.toUInt64
      let s ← (first :: others).foldlM (mergeExisting addr v) ⟨newAddr, [], t⟩
      let tail ← mergeTail addr (addr + size.toUInt64) newEnd v s.current
      ensure ((s.value ++ tail).length = (newEnd - newAddr).toUInt32.toNat)
        (.assertion "new_merged_value.size() == new_merged_size")
      ensure (overlapsMemoSyncEntry addr size s.table = [])
        (.assertion "overlapsMemoSyncEntry(addr, size, target_memoSyncTable).empty()")
      insertEntry s.table ⟨newAddr, (newEnd - newAddr).toUInt32, s.value ++ tail⟩

/-! ## 3. The merge -/

/-- All entries of one table into another. -/
def mergeTable (src dst : MemoSyncTable) : Except DumpStop MemoSyncTable :=
  src.foldlM (fun dst e => addMemoSyncTableEntryInternal e.addr e.size e.data dst) dst

/-- One round of the loop of `mergeMemoSyncTables`, on the tables and the index of the
    destination. -/
def mergeStep (points : List MemoMergePoint) (s : List MemoSyncTable × Option Nat) (i : Nat) :
    Except DumpStop (List MemoSyncTable × Option Nat) :=
  match points[i]? with
  | some .backToInterestTb => .ok (s.1, some i)
  | some .outAndBackTb => .ok (s.1, none)
  | some .normalTb | some .outofInterestTb =>
    match s.2 with
    | none => .error (.assertion "dst_mst && src_mst")
    | some d => do
        let merged ← mergeTable (s.1.getD i []) (s.1.getD d [])
        return ((s.1.set d merged).set i [], some d)
  | none => .error .badAccess

/-- `mergeMemoSyncTables`. -/
def RuntimeEnv.mergeMemoSyncTables (r : RuntimeEnv) : Except DumpStop (List MemoSyncTable) := do
  ensure (r.memoSyncTables.length = r.tbCount.toNat)
    (.assertion "m_memoSyncTables.size() == rt_dump_tb_count")
  ensure (r.memoMergePoints.length = r.tbCount.toNat)
    (.assertion "m_memoMergePoints.size() == rt_dump_tb_count")
  ensure (r.memoMergePoints.head? = some .backToInterestTb ∨
      r.memoMergePoints.head? = some .outAndBackTb)
    (.assertion "m_memoMergePoints.front() == BackToInterestTb || m_memoMergePoints.front() == OutAndBackTb")
  ensure (r.memoMergePoints.getLast? = some .outofInterestTb ∨
      r.memoMergePoints.getLast? = some .outAndBackTb)
    (.assertion "m_memoMergePoints.back() == OutofInterestTb || m_memoMergePoints.back() == OutAndBackTb")
  let s ← (List.range r.memoSyncTables.length).foldlM (mergeStep r.memoMergePoints)
    (r.memoSyncTables, none)
  return s.1

/-! ## 4. What the merge keeps -/

variable {addr : UInt64} {e : ConcreteMemoInfo} {t t' : MemoSyncTable}

/-- An entry that is not empty and as long as it says. -/
structure ConcreteMemoInfo.Ok (e : ConcreteMemoInfo) : Prop where
  size : e.size.toNat ≠ 0
  data : e.data.length = e.size.toNat

/-- **A table the recorder keeps**: in order of address, all entries `Ok`. -/
structure TableOk (t : MemoSyncTable) : Prop where
  sorted : t.Pairwise fun e e' => e.addr < e'.addr
  entries : ∀ e ∈ t, e.Ok
  count : t.length < 2 ^ 64

theorem tableOk_nil : TableOk [] :=
  ⟨.nil, forall_mem_nil _, by decide⟩

theorem mem_insertSorted {e x : ConcreteMemoInfo} : ∀ {t : MemoSyncTable},
    x ∈ insertSorted e t → x = e ∨ x ∈ t
  | [], h => .inl (mem_singleton.1 h)
  | y :: t, h => by
    unfold insertSorted at h
    split at h
    · exact mem_cons.1 h
    · split at h
      · exact .inr h
      · rcases mem_cons.1 h with rfl | h
        · exact .inr (.head _)
        · exact (mem_insertSorted h).imp id (mem_cons_of_mem y)

theorem insertSorted_sorted : ∀ {t : MemoSyncTable}, t.Pairwise (fun x y => x.addr < y.addr) →
    (insertSorted e t).Pairwise fun x y => x.addr < y.addr
  | [], _ => pairwise_singleton _ _
  | y :: t, h => by
    obtain ⟨hy, ht⟩ := pairwise_cons.1 h
    unfold insertSorted
    split
    · next hlt =>
      refine pairwise_cons.2 ⟨fun x hx => ?_, h⟩
      rcases mem_cons.1 hx with rfl | hx
      · exact hlt
      · exact UInt64.lt_trans hlt (hy x hx)
    · next hge =>
      split
      · exact h
      · next hne =>
        refine pairwise_cons.2 ⟨fun x hx => ?_, insertSorted_sorted ht⟩
        rcases mem_insertSorted hx with rfl | hx
        · exact UInt64.lt_of_le_of_ne (UInt64.not_lt.1 hge) fun e' => hne e'.symm
        · exact hy x hx

/-- An entry between others. -/
theorem insertSorted_between {before after : MemoSyncTable}
    (hb : ∀ x ∈ before, x.addr < e.addr) (ha : ∀ x ∈ after, e.addr < x.addr) :
    insertSorted e (before ++ after) = before ++ e :: after := by
  induction before with
  | nil =>
    cases after with
    | nil => rfl
    | cons x after => exact if_pos (ha x (.head _))
  | cons x before ih =>
    have hlt := hb x (.head _)
    rw [cons_append, insertSorted, if_neg (UInt64.not_lt.2 (UInt64.le_of_lt hlt)),
      if_neg (UInt64.ne_of_lt hlt).symm, ih (forall_mem_cons.1 hb).2]
    rfl

theorem length_insertSorted_le (e : ConcreteMemoInfo) : ∀ t : MemoSyncTable,
    (insertSorted e t).length ≤ t.length + 1
  | [] => le_rfl
  | y :: t => by
    unfold insertSorted
    split
    · exact le_rfl
    · split
      · exact Nat.le_succ _
      · exact Nat.succ_le_succ (length_insertSorted_le e t)

theorem TableOk.insertEntry (h : TableOk t)
    (he : e.Ok) (hi : insertEntry t e = .ok t') : TableOk t' := by
  unfold Dump.insertEntry at hi
  split at hi
  · next hlt =>
    cases hi
    refine ⟨insertSorted_sorted h.sorted, fun x hx => ?_, ?_⟩
    · rcases mem_insertSorted hx with rfl | hx
      · exact he
      · exact h.entries x hx
    · have := length_insertSorted_le e t
      omega
  · cases hi

/-- A part of a table is a table. -/
theorem TableOk.sublist (h : TableOk t) (hs : t'.Sublist t) : TableOk t' :=
  ⟨h.sorted.sublist hs, fun e he => h.entries e (hs.subset he),
    Nat.lt_of_le_of_lt hs.length_le h.count⟩

theorem TableOk.eq_of_addr {t : MemoSyncTable} (h : TableOk t) {e e' : ConcreteMemoInfo}
    (he : e ∈ t) (he' : e' ∈ t) (ha : e.addr = e'.addr) : e = e' := by
  have hn : (t.map ConcreteMemoInfo.addr).Nodup := by
    rw [List.Nodup, pairwise_map]
    exact h.sorted.imp fun hlt => UInt64.ne_of_lt hlt
  exact inj_on_of_nodup_map hn he he' ha

/-- The first overlapped address is that of an entry that overlaps. -/
theorem mem_overlapsFrom {addr addrEnd a : UInt64} : ∀ {t : MemoSyncTable},
    a ∈ overlapsFrom addr addrEnd t →
    ∃ e ∈ t, e.addr = a ∧ e.addrEnd > addr ∧ e.addr < addrEnd
  | e :: t, h => by
    have hlater : ∀ x ∈ (if e.addr ≥ addrEnd then [] else overlapsFrom addr addrEnd t),
        x ∈ overlapsFrom addr addrEnd t := by
      intro x hx
      split at hx
      · cases hx
      · exact hx
    have hrest : a ∈ overlapsFrom addr addrEnd t →
        ∃ e' ∈ e :: t, e'.addr = a ∧ e'.addrEnd > addr ∧ e'.addr < addrEnd := by
      intro hm
      obtain ⟨e', he', hr⟩ := mem_overlapsFrom hm
      exact ⟨e', mem_cons_of_mem _ he', hr⟩
    unfold overlapsFrom at h
    by_cases ho : e.addrEnd > addr ∧ e.addr < addrEnd
    · rw [if_pos ho] at h
      rcases mem_cons.1 h with rfl | h
      · exact ⟨e, .head _, rfl, ho⟩
      · exact hrest (hlater a h)
    · rw [if_neg ho] at h
      exact hrest (hlater a h)

/-- An entry that overlaps a range of less than 2^32 bytes does not wrap. -/
theorem addrEnd_of_overlap {size : UInt32}
    (h₁ : e.addrEnd > addr) (h₂ : e.addr < addr + size.toUInt64) :
    e.addrEnd.toNat = e.addr.toNat + e.size.toNat := by
  have hs := e.size.toNat_lt
  have hz := size.toNat_lt
  have ha := e.addr.toNat_lt
  have hb := addr.toNat_lt
  have h₁' := UInt64.lt_iff_toNat_lt.1 h₁
  have h₂' := UInt64.lt_iff_toNat_lt.1 h₂
  unfold ConcreteMemoInfo.addrEnd at h₁' ⊢
  rw [UInt64.toNat_add, UInt32.toNat_toUInt64] at h₁' h₂' ⊢
  omega

theorem copyBytes_length {a b : UInt64} {f : UInt64 → Except DumpStop UInt8} {bs : Bytes}
    (h : copyBytes a b f = .ok bs) : bs.length = b.toNat - a.toNat := by
  have hl := (mapM_forall₂ h).length_eq
  rw [length_range] at hl
  exact hl.symm

/-- One overlapped entry: bytes are added, at least those of the entry, and the table loses it. -/
theorem mergeExisting_spec {v : Bytes} {s s' : MergeState} {a : UInt64}
    (h : mergeExisting addr v s a = .ok s') :
    s'.table.Sublist s.table ∧ ∃ e ∈ s.table, e.addr = a ∧
      s.value.length + (e.addrEnd.toNat - e.addr.toNat) ≤ s'.value.length := by
  unfold mergeExisting at h
  split at h
  · cases h
  · next e he =>
    obtain ⟨-, h⟩ := ensure_bind_eq_ok.1 h
    obtain ⟨missing, -, h⟩ := bind_eq_ok.1 h
    obtain ⟨own, hown, h⟩ := bind_eq_ok.1 h
    cases h
    refine ⟨eraseP_sublist, e, mem_of_find?_eq_some he, ?_, ?_⟩
    · simpa using find?_some he
    · rw [length_append, length_append, copyBytes_length hown]
      omega

/-- The loop over the overlapped entries. -/
theorem foldlM_mergeExisting_spec {v : Bytes} (as : List UInt64) :
    ∀ {s s' : MergeState}, as.foldlM (mergeExisting addr v) s = .ok s' →
      s'.table.Sublist s.table ∧ s.value.length ≤ s'.value.length := by
  induction as with
  | nil =>
    intro s s' h
    cases h
    exact ⟨.refl _, le_rfl⟩
  | cons a as ih =>
    intro s s' h
    rw [foldlM_cons] at h
    obtain ⟨s₁, h₁, h⟩ := bind_eq_ok.1 h
    obtain ⟨ht, e, -, -, hl⟩ := mergeExisting_spec h₁
    obtain ⟨ht', hl'⟩ := ih h
    exact ⟨ht'.trans ht, by omega⟩

/-- **A new entry keeps the table `Ok`**, alone or merged with what it overlaps. -/
theorem TableOk.add (h : TableOk t) {size : UInt32} {v : Bytes} (hsize : size.toNat ≠ 0)
    (ha : addMemoSyncTableEntryInternal addr size v t = .ok t') : TableOk t' := by
  unfold addMemoSyncTableEntryInternal at ha
  obtain ⟨hv, ha⟩ := ensure_bind_eq_ok.1 ha
  split at ha
  · exact h.insertEntry ⟨hsize, hv⟩ ha
  · next first others ho =>
    obtain ⟨s, hs, ha⟩ := bind_eq_ok.1 ha
    obtain ⟨tail, -, ha⟩ := bind_eq_ok.1 ha
    obtain ⟨hlen, ha⟩ := ensure_bind_eq_ok.1 ha
    obtain ⟨-, ha⟩ := ensure_bind_eq_ok.1 ha
    -- the first overlapped entry gives at least one byte
    have hmem : first ∈ overlapsMemoSyncEntry addr size t := by
      rw [ho]
      exact (.head _)
    obtain ⟨e₀, he₀, hfirst, h₁, h₂⟩ := mem_overlapsFrom hmem
    have hend := addrEnd_of_overlap h₁ h₂
    rw [foldlM_cons] at hs
    obtain ⟨s₁, hs₁, hs⟩ := bind_eq_ok.1 hs
    obtain ⟨ht₁, e, he, hea, hl₁⟩ := mergeExisting_spec hs₁
    obtain ⟨ht, hl⟩ := foldlM_mergeExisting_spec others hs
    obtain rfl : e = e₀ := by
      refine h.eq_of_addr he (mem_of_mem_drop he₀) ?_
      rw [hea, hfirst]
    have hpos := (h.entries e he).size
    refine (h.sublist (ht.trans ht₁)).insertEntry ⟨?_, hlen⟩ ha
    rw [← hlen, length_append]
    have hnil : ([] : Bytes).length = 0 := rfl
    omega

theorem TableOk.merge (src : MemoSyncTable) : ∀ {dst t : MemoSyncTable}, TableOk dst →
    (∀ e ∈ src, e.Ok) → mergeTable src dst = .ok t → TableOk t := by
  induction src with
  | nil =>
    intro dst t h _ hm
    cases hm
    exact h
  | cons e src ih =>
    intro dst t h hs hm
    rw [mergeTable, foldlM_cons] at hm
    obtain ⟨dst₁, h₁, hm⟩ := bind_eq_ok.1 hm
    exact ih (h.add (hs e (.head _)).size h₁) (forall_mem_cons.1 hs).2 hm

/-- The points whose tables are merged into an earlier one. -/
def MemoMergePoint.IsSource (p : MemoMergePoint) : Prop := p = .normalTb ∨ p = .outofInterestTb
  deriving Decidable

/-- The state of the merge before round `i`. -/
structure Merging (points : List MemoMergePoint) (n i : Nat)
    (s : List MemoSyncTable × Option Nat) : Prop where
  length : s.1.length = n
  tables : ∀ t ∈ s.1, TableOk t
  cleared : ∀ j p, j < i → points[j]? = some p → p.IsSource → s.1[j]? = some []
  dst : ∀ d, s.2 = some d → points[d]? = some .backToInterestTb

theorem tableOk_getD {ts : List MemoSyncTable} (h : ∀ t ∈ ts, TableOk t) (i : Nat) :
    TableOk (ts.getD i []) := by
  rw [getD_eq_getElem?_getD]
  cases hi : ts[i]? with
  | none => exact tableOk_nil
  | some t => exact h t (mem_of_getElem? hi)

/-- **One round of the merge.** -/
theorem Merging.step {points : List MemoMergePoint} {n i : Nat}
    {s s' : List MemoSyncTable × Option Nat} (h : Merging points n i s) (hi : i < n)
    (hs : mergeStep points s i = .ok s') : Merging points n (i + 1) s' := by
  -- a round that leaves the tables alone
  have hskip : ∀ p, points[i]? = some p → ¬ p.IsSource →
      ∀ j q, j < i + 1 → points[j]? = some q → q.IsSource → s.1[j]? = some [] := by
    intro p hp hn j q hj hq hsrc
    rcases Nat.lt_succ_iff_lt_or_eq.1 hj with hj | rfl
    · exact h.cleared j q hj hq hsrc
    · rw [hp] at hq
      cases hq
      exact absurd hsrc hn
  have hsource : ∀ p, points[i]? = some p → p.IsSource → ∀ d, s.2 = some d →
      (mergeTable (s.1.getD i []) (s.1.getD d []) >>= fun merged =>
        pure ((s.1.set d merged).set i [], some d)) = .ok s' → Merging points n (i + 1) s' := by
    intro p hp hsrc d hd hs
    obtain ⟨merged, hm, hs⟩ := bind_eq_ok.1 hs
    cases hs
    have hmerged : TableOk merged :=
      (tableOk_getD h.tables d).merge _ (tableOk_getD h.tables i).entries hm
    refine ⟨by rw [length_set, length_set, h.length], fun t ht => ?_, ?_, ?_⟩
    · rcases mem_or_eq_of_mem_set ht with ht | rfl
      · rcases mem_or_eq_of_mem_set ht with ht | rfl
        · exact h.tables t ht
        · exact hmerged
      · exact tableOk_nil
    · intro j q hj hq hsrc'
      by_cases e : j = i
      · subst e
        rw [getElem?_set_self (by rw [length_set, h.length]; exact hi)]
      · have hne : d ≠ j := by
          rintro rfl
          rw [h.dst d hd] at hq
          cases hq
          rcases hsrc' with e | e <;> cases e
        rw [getElem?_set_ne (fun e' => e e'.symm), getElem?_set_ne hne]
        exact h.cleared j q (by omega) hq hsrc'
    · intro d' hd'
      cases hd'
      exact h.dst d hd
  unfold mergeStep at hs
  split at hs
  · next hp =>
    cases hs
    refine ⟨h.length, h.tables, hskip _ hp (by decide), fun d hd => ?_⟩
    cases hd
    exact hp
  · next hp =>
    cases hs
    exact ⟨h.length, h.tables, hskip _ hp (by decide), fun d hd => by cases hd⟩
  · next hp =>
    split at hs
    · cases hs
    · next d hd => exact hsource _ hp (.inl rfl) d hd hs
  · next hp =>
    split at hs
    · cases hs
    · next d hd => exact hsource _ hp (.inr rfl) d hd hs
  · cases hs

/-- **A merge that returns**: as many tables as before, all `Ok`, and those that were merged into
    an earlier one are empty. -/
theorem mergeMemoSyncTables_spec {r : RuntimeEnv} {merged : List MemoSyncTable}
    (hok : ∀ t ∈ r.memoSyncTables, TableOk t) (h : r.mergeMemoSyncTables = .ok merged) :
    merged.length = r.tbCount.toNat ∧ r.memoMergePoints.length = r.tbCount.toNat ∧
      (∀ t ∈ merged, TableOk t) ∧
      ∀ (i : Nat) (p : MemoMergePoint), r.memoMergePoints[i]? = some p → p.IsSource →
        merged[i]? = some [] := by
  unfold RuntimeEnv.mergeMemoSyncTables at h
  obtain ⟨hlen, h⟩ := ensure_bind_eq_ok.1 h
  obtain ⟨hpts, h⟩ := ensure_bind_eq_ok.1 h
  obtain ⟨-, h⟩ := ensure_bind_eq_ok.1 h
  obtain ⟨-, h⟩ := ensure_bind_eq_ok.1 h
  obtain ⟨s, hs, h⟩ := bind_eq_ok.1 h
  cases h
  have hrun : ∀ k s, k ≤ r.memoSyncTables.length →
      (List.range k).foldlM (mergeStep r.memoMergePoints) (r.memoSyncTables, none) = .ok s →
      Merging r.memoMergePoints r.memoSyncTables.length k s := by
    intro k
    induction k with
    | zero =>
      intro s _ hs
      cases hs
      exact ⟨rfl, hok, fun j _ hj => absurd hj (Nat.not_lt_zero j), fun d hd => by cases hd⟩
    | succ k ih =>
      intro s hk hs
      rw [range_succ, foldlM_append] at hs
      obtain ⟨s₁, hs₁, hs⟩ := bind_eq_ok.1 hs
      rw [foldlM_cons] at hs
      obtain ⟨s₂, hs₂, hs⟩ := bind_eq_ok.1 hs
      cases hs
      exact (ih s₁ (by omega) hs₁).step (by omega) hs₂
  have hm := hrun _ s le_rfl hs
  refine ⟨by rw [hm.length, hlen], hpts, hm.tables, fun i p hp hsrc => hm.cleared i p ?_ hp hsrc⟩
  have := (List.getElem?_eq_some_iff.1 hp).1
  omega

/-! ## 5. The files -/

/-- `sizeof(QemuInterruptInfo)`. -/
def sizeofInterruptInfo : Nat := 16

/-- The bytes of a `QemuInterruptInfo`. -/
def interruptInfoBytes (i : QemuInterruptInfo) : Bytes :=
  leBytes 4 i.intno.toNat ++ (leBytes 4 i.isInt.toNat ++ (leBytes 4 i.errorCode.toNat ++
    leBytes 4 i.nextEipAddend.toNat))

/-- A presence flag. -/
def presence (b : Bool) : UInt8 := if b then 1 else 0

/-- `writePrologRegs`. -/
def writePrologRegs (t : Target) (r : RuntimeEnv) : Except DumpStop Bytes := do
  ensure (r.prologRegs.length = r.tbCount.toNat)
    (.assertion "m_prolog_regs.size() == rt_dump_tb_count")
  return leBytes 8 t.offsetRegs.toNat ++ (leBytes 8 t.sizeRegs.toNat ++
    (leBytes 8 r.prologRegs.length ++ (r.prologRegs.map (fun s => presence s.isSome) ++
      r.prologRegs.flatMap fun s => s.getD [])))

/-- The bytes of an entry of a sync table. -/
def entryBytes (e : ConcreteMemoInfo) : Bytes :=
  leBytes 8 e.addr.toNat ++ (leBytes 4 e.size.toNat ++ e.data)

/-- The bytes of a sync table; an empty one has none. -/
def tableBytes (t : MemoSyncTable) : Bytes :=
  if t = [] then [] else leBytes 8 t.length ++ t.flatMap entryBytes

/-- `writeMemoSyncTables`. -/
def writeMemoSyncTables (r : RuntimeEnv) : Except DumpStop Bytes := do
  let merged ← r.mergeMemoSyncTables
  ensure (∀ x ∈ r.memoMergePoints.zip merged, x.1.IsSource → x.2 = [])
    (.assertion "m_memoSyncTables[i].empty() && \"Something is wrong in mergeMemoSyncTables().\"")
  let tables := merged.take r.memoMergePoints.length
  return leBytes 8 r.memoMergePoints.length ++ (tables.map (fun t => presence (t ≠ [])) ++
    (leBytes 8 (tables.countP (· ≠ [])) ++ tables.flatMap tableBytes))

/-- The bytes of an interrupt state; one without a CPU state has none. -/
def interruptBytes (s : InterruptState) : Bytes :=
  match s.cpuState with
  | none => []
  | some cpu => interruptInfoBytes s.info ++ cpu

/-- `writeInterruptStates`. -/
def writeInterruptStates (t : Target) (r : RuntimeEnv) : Except DumpStop Bytes := do
  ensure (r.interruptStates.length = r.tbCount.toNat)
    (.assertion "m_interruptStates.size() == rt_dump_tb_count")
  return leBytes 8 sizeofInterruptInfo ++ (leBytes 8 t.sizeCpuState.toNat ++
    (leBytes 8 r.tbCount.toNat ++ (leBytes 8 (r.interruptStates.countP (·.cpuState.isSome)) ++
      (r.interruptStates.map (fun s => presence s.cpuState.isSome) ++
        r.interruptStates.flatMap interruptBytes))))

end Crete.Dump
