/-
  File:      Crete/Klee/Replay.lean
  Subject:   The recorder's tables on the replay's side: when `crete_sync_memory` gets through all
             of them.

  * `addLoads_bridged`, `Clear.congr` -- tables bridge what their loads bridge, and that is all
    that decides whether they lie across a boundary.
  * **`replay_recorded_iff`** -- the tables of a recording are replayed exactly if no load lies
    across the start or the end of a symbolic object, and the loads chain no `2 ^ 32` bytes.
  * **`replay_objects`** -- the memory objects after any tables.
-/
import Crete.Dump.Recording
import Crete.Klee.Sync

namespace Crete.Klee

open Crete.Lib Crete.Lib.Extent List
open Crete.Dump (ConcolicVariable MemoSyncTable MemoLoad TbExec RecorderState Target Kept addLoads
  addLoads_cases execTbs execTbs_recorded allExtents extents)

variable {B : Type}

/-! ## 1. Loads and tables -/

/-- An extent lies across an address exactly if it bridges it and the one before. -/
theorem exists_inside_iff {β : Type} {l : List (Extent β)} {p : Nat} :
    (∃ e ∈ l, Inside e p) ↔ 0 < p ∧ Bridged l (p - 1) := by
  constructor
  · intro h
    obtain ⟨e, he, h₁, h₂⟩ := h
    exact ⟨by omega, e, he, ⟨by omega, by omega⟩, ⟨by omega, by omega⟩⟩
  · intro h
    obtain ⟨hp, e, he, h₁, h₂⟩ := h
    rw [Nat.sub_add_cancel hp] at h₂
    have := h₁.1
    exact ⟨e, he, by omega, h₂.2⟩

/-- Extents that bridge the same are clear of the same objects. -/
theorem Clear.congr {β γ : Type} {objs : List (MemObj B)} {l : List (Extent β)}
    {l' : List (Extent γ)} (h : ∀ x, Bridged l x ↔ Bridged l' x) :
    Clear objs l ↔ Clear objs l' := by
  have hiff : ∀ p, (∃ e ∈ l, Inside e p) ↔ ∃ e ∈ l', Inside e p := by
    intro p
    rw [exists_inside_iff, exists_inside_iff, h]
  constructor
  · intro hc o ho hends e he
    refine ⟨fun hin => ?_, fun hin => ?_⟩
    · obtain ⟨e', he', hin'⟩ := (hiff _).2 ⟨e, he, hin⟩
      exact (hc o ho hends e' he').1 hin'
    · obtain ⟨e', he', hin'⟩ := (hiff _).2 ⟨e, he, hin⟩
      exact (hc o ho hends e' he').2 hin'
  · intro hc o ho hends e he
    refine ⟨fun hin => ?_, fun hin => ?_⟩
    · obtain ⟨e', he', hin'⟩ := (hiff _).1 ⟨e, he, hin⟩
      exact (hc o ho hends e' he').1 hin'
    · obtain ⟨e', he', hin'⟩ := (hiff _).1 ⟨e, he, hin⟩
      exact (hc o ho hends e' he').2 hin'

/-- The bytes of all loads, block after block. -/
abbrev loadExtents (tbs : List (List MemoLoad)) : List (Extent UInt8) :=
  tbs.flatMap fun loads => loads.map (·.extent)

/-- The tables of the blocks are kept, and bridge what the loads bridge. -/
theorem addLoads_bridged {tbs : List (List MemoLoad)} {tables : List MemoSyncTable}
    (h : List.Forall₂ (fun loads t => addLoads loads = .ok t) tbs tables)
    (hvalid : ∀ loads ∈ tbs, ∀ l ∈ loads, l.Valid) :
    (∀ t ∈ tables, Kept t) ∧ ∀ x, Bridged (allExtents tables) x ↔ Bridged (loadExtents tbs) x := by
  induction h with
  | nil => exact ⟨forall_mem_nil _, fun _ => Iff.rfl⟩
  | @cons loads t tbs tables ht _ ih =>
    obtain ⟨hkept, hb⟩ := ih (forall_mem_cons.1 hvalid).2
    rcases addLoads_cases (hvalid loads (.head _)) with
      ⟨t', ht', hholds⟩ | ⟨⟨e, he⟩, -⟩
    · rw [ht] at ht'
      cases ht'
      refine ⟨fun x hx => ?_, fun x => ?_⟩
      · rcases mem_cons.1 hx with e | hx
        · rw [e]
          exact hholds.kept
        · exact hkept x hx
      · rw [allExtents, loadExtents, flatMap_cons, flatMap_cons, bridged_append, bridged_append]
        exact or_congr (hholds.bridged x) (hb x)
    · rw [ht] at he
      cases he

/-! ## 2. Recording and replay -/

section Replay

variable [ByteExpr B] [LawfulByteExpr B]

/-- **The tables of a recording are replayed exactly if** no load covers the address before the
    start of a symbolic object and the start, or its last address and the one behind it, and no
    `2 ^ 32` addresses in a row are chained by loads that cover two neighbours. -/
theorem replay_recorded_iff (target : Target) (bs : List TbExec) {s : RecorderState}
    (hrun : execTbs target bs = .ok s) {tbs : List (List MemoLoad)}
    (hloads : tbs.mapM addLoads = .ok s.memoSyncTables)
    (hvalid : ∀ loads ∈ tbs, ∀ l ∈ loads, l.Valid) {merged : List MemoSyncTable}
    (hmerge : s.env.mergeMemoSyncTables = .ok merged) {vars : List ConcolicVariable}
    (hvars : ∀ v ∈ vars, 0 < v.dataSize.toNat ∧ v.dataSize.toNat < 2 ^ 32)
    {array : ConcolicVariable → Nat → B} {syms : List (MemObj B)}
    (hsyms : symbolicObjects array vars = .ok syms) (order : PointerOrder B) :
    (∃ objs', syncTables order merged syms = .ok objs') ↔
      Clear syms (loadExtents tbs) ∧ Short (2 ^ 32) (loadExtents tbs) := by
  obtain ⟨hkept, hbridged⟩ := addLoads_bridged (mapM_forall₂ hloads) hvalid
  obtain ⟨s', hs', hrec, -⟩ := execTbs_recorded target bs
  rw [hrun] at hs'
  cases hs'
  obtain ⟨hmergeable, hne⟩ := hrec.mergeable hkept hmerge
  rcases hmergeable.cases hne with ⟨merged', hok, hby, -, hsame⟩ | ⟨⟨e, he⟩, -⟩
  · rw [hmerge] at hok
    cases hok
    have hmerged : ∀ m ∈ merged, Kept m := hby.kept hkept
    have hall : ∀ x, Bridged (merged.flatMap extents) x ↔ Bridged (loadExtents tbs) x :=
      fun x => (hsame x).trans (hbridged x)
    rw [syncTables_ok_iff order (symbolicObjects_allSymbolic hvars hsyms) fun t ht e he =>
      ⟨(hmerged t ht).entries e he, (hmerged t ht).fits e he⟩, Clear.congr hall]
    exact and_congr Iff.rfl
      ⟨fun h => h.mono fun x => (hall x).2, fun h => h.mono fun x => (hall x).1⟩
  · rw [hmerge] at he
    cases he

end Replay

/-! ## 3. Two recordings -/

/-- A recorded block with a table, and a block that is not recorded. -/
def recordedBlock (t : MemoSyncTable) : List TbExec :=
  [⟨[1], true, true, true, false, true, 0, "tb", t, true, none⟩,
    ⟨[2], true, true, true, true, true, 0, "tb", [], false, none⟩]

/-- A variable of four bytes at address 100. -/
def fourBytes : ConcolicVariable := ⟨[120], [1, 2, 3, 4], 4, 100, 0⟩

/-- The arrays of variables whose bytes are all 7. -/
def sevens : ConcolicVariable → Nat → PlainByte := fun _ _ => .input 7

/-- The object of `fourBytes`. -/
def fourSevens : MemObj PlainByte := ⟨100, .symbolic 4 (sevens fourBytes), true⟩

/-- A load of the variable and one of other memory. -/
def besideLoads : List MemoLoad := [⟨100, 4, 0x04030201⟩, ⟨200, 2, 0x0605⟩]

/-- Their table. -/
def besideTable : MemoSyncTable := [⟨100, 4, [1, 2, 3, 4]⟩, ⟨200, 2, [5, 6]⟩]

theorem besideLoads_valid : ∀ l ∈ besideLoads, l.Valid := by
  intro l hl
  obtain rfl | rfl : l = ⟨100, 4, 0x04030201⟩ ∨ l = ⟨200, 2, 0x0605⟩ := by
    simpa [besideLoads] using hl
  · exact ⟨by decide, by decide, by decide⟩
  · exact ⟨by decide, by decide, by decide⟩

/-- They are recorded and replayed. -/
theorem replay_recorded_two : ∃ s, execTbs Dump.tinyTarget (recordedBlock besideTable) = .ok s ∧
    [besideLoads].mapM addLoads = .ok s.memoSyncTables ∧
    ∃ merged, s.env.mergeMemoSyncTables = .ok merged ∧
      symbolicObjects sevens [fourBytes] = .ok [fourSevens] ∧
      ∃ objs', syncTables listOrder merged [fourSevens] = .ok objs' := by
  have hvalid : ∀ loads ∈ [besideLoads], ∀ l ∈ loads, l.Valid := by
    intro loads hl
    rw [mem_singleton.1 hl]
    exact besideLoads_valid
  have hvars : ∀ v ∈ [fourBytes], 0 < v.dataSize.toNat ∧ v.dataSize.toNat < 2 ^ 32 := by decide
  have hsyms : symbolicObjects sevens [fourBytes] = .ok [fourSevens] := rfl
  obtain ⟨s, hrun, -⟩ := execTbs_recorded Dump.tinyTarget (recordedBlock besideTable)
  have htables : (execTbs Dump.tinyTarget (recordedBlock besideTable)).toOption.map
      (fun s => (s.memoSyncTables, s.env.mergeMemoSyncTables)) =
        some ([besideTable], .ok [besideTable]) := rfl
  rw [hrun] at htables
  obtain ⟨h₁, h₂⟩ := Prod.mk.inj (Option.some.inj htables)
  have hloads : [besideLoads].mapM addLoads = .ok s.memoSyncTables := by
    rw [h₁]
    rfl
  refine ⟨s, hrun, hloads, _, h₂, hsyms,
    (replay_recorded_iff Dump.tinyTarget _ hrun hloads hvalid h₂ hvars hsyms listOrder).2
      ⟨by decide, ?_⟩⟩
  rcases addLoads_cases besideLoads_valid with ⟨t, -, hholds⟩ | ⟨⟨e, he⟩, -⟩
  · exact hholds.short
  · cases he

/-- **A load across the end of the variable**: the replay stops at the assertion on symbolic
    objects. -/
theorem replay_straddles_end : MemoLoad.Valid ⟨102, 4, 0x0403⟩ ∧
    ∃ s, execTbs Dump.tinyTarget (recordedBlock [⟨102, 4, [3, 4, 0, 0]⟩]) = .ok s ∧
      [[⟨102, 4, 0x0403⟩]].mapM addLoads = .ok s.memoSyncTables ∧
      ∃ merged, s.env.mergeMemoSyncTables = .ok merged ∧
        symbolicObjects sevens [fourBytes] = .ok [fourSevens] ∧
        syncTables listOrder merged [fourSevens] = .error overlappedWithSymbolics :=
  ⟨⟨by decide, by decide, by decide⟩, _, rfl, rfl, _, rfl, rfl, rfl⟩

end Crete.Klee
