/-
  File:      Crete/Klee/Sync.lean
  Subject:   The memory of the replay before a block (klee/lib/Core/Executor.cpp,
             `crete_init_symbolics`, `handleCreteMakeSymbolic`, `crete_divide_memoSyncTable`,
             `crete_sync_memory`).

  Every block has a table of the memory it reads. Before the block the replay makes an object for
  each entry, merging what is there, and writes the entry into it unless it has its bytes already.

  * `Clear` -- no entry lies across the start or the end of an object.
  * `Synced` -- what holds from entry to entry: the symbolic objects stay as they are, and the
    others are chains of entries; **`Synced.provide`** -- an entry gets its object, or the entries
    are not clear of the symbolic objects or chain `2 ^ 32` bytes.
  * **`syncTables_ok_iff`** -- the tables are replayed exactly if neither is the case.
-/
import Crete.Klee.Store
import Crete.Dump.KTest
import Crete.Dump.SyncTable

namespace Crete.Klee

open Crete.Lib Crete.Lib.Extent List UInt64
open Crete.Dump (ConcolicVariable ConcreteMemoInfo MemoSyncTable extents)

variable {B : Type} [ByteExpr B]

/-! ## 1. The concolic variables -/

/-- One round of `crete_init_symbolics`. -/
def initSymbolic (objs : List (MemObj B)) (v : ConcolicVariable) :
    Except KleeStop (List (MemObj B)) := do
  let n ← allocateFixed objs v.guestAddr v.dataSize
  return bindObject objs ⟨v.guestAddr, .zeroed n, false⟩

/-- `handleCreteMakeSymbolic` and `executeMakeSymbolic`; `array v` are the bytes of the array that
    is made for `v`. -/
def makeSymbolic (array : ConcolicVariable → Nat → B) (objs : List (MemObj B))
    (v : ConcolicVariable) : Except KleeStop (List (MemObj B)) :=
  match resolveOne objs v.guestAddr with
  | none => .error (.assertion
      ("state->addressSpace.resolveOne(ConstantExpr::alloc(addr, Expr::Int64), res) && " ++
        "\"crete_make_symbolic is failed\\n\""))
  | some mo => .ok (bindObject objs ⟨mo.addr, .symbolic mo.size (array v), true⟩)

/-- **The objects after the concolic variables have been made symbolic.** -/
def symbolicObjects (array : ConcolicVariable → Nat → B) (vars : List ConcolicVariable) :
    Except KleeStop (List (MemObj B)) := do
  let objs ← vars.foldlM initSymbolic []
  vars.foldlM (makeSymbolic array) objs

/-! ## 2. The tables -/

/-- `(mo->address <= addr) && (mo->address + mo->size >= addr + size)`. -/
def Belongs (e : ConcreteMemoInfo) (mo : MemObj B) : Prop :=
  mo.addr ≤ e.addr ∧ e.addr + e.size.toUInt64 ≤ mo.addrEnd
  deriving Decidable

/-- The assertion on the object of an entry. -/
def notBelonging : KleeStop :=
  .assertion ("(mo->address <= addr) && (mo->address + mo->size >= addr + size) && " ++
    "\"The given MO does not completely belong to the found MO.\\n\"")

/-- A byte of an object, evaluated. -/
def readConcrete (os : ObjectState B) (i : UInt32) : Except KleeStop UInt8 := do
  ensure (i < os.size) .badAccess
  return ByteExpr.evaluate (os.read8 i.toNat)

/-- One round of `crete_divide_memoSyncTable`: the objects, and whether the entry has a side
    effect. -/
def divideEntry (order : PointerOrder B) (objs : List (MemObj B)) (e : ConcreteMemoInfo) :
    Except KleeStop (List (MemObj B) × Bool) :=
  if isOverlappedMO objs e.addr e.size.toUInt64 then do
    let merged ← mergeOverlappedMos order objs e.addr e.size.toUInt64
    ensure (Belongs e merged.2) notBelonging
    let current ← (range e.size.toNat).mapM fun i =>
      readConcrete merged.2.os ((e.addr - merged.2.addr).toUInt32 + UInt32.ofNat i)
    ensure (current.length = e.data.length) (.assertion "v_current_value.size() == data.size()")
    return (merged.1, decide (current ≠ e.data))
  else return (objs, true)

/-- `crete_divide_memoSyncTable`: the objects, the entries with a side effect, and those
    without. -/
def divideMemoSyncTable (order : PointerOrder B) : MemoSyncTable → List (MemObj B) →
    Except KleeStop (List (MemObj B) × MemoSyncTable × MemoSyncTable)
  | [], objs => .ok (objs, [], [])
  | e :: t, objs => do
      let divided ← divideEntry order objs e
      let rest ← divideMemoSyncTable order t divided.1
      return if divided.2 then (rest.1, e :: rest.2.1, rest.2.2)
        else (rest.1, rest.2.1, e :: rest.2.2)

/-- The entries without a side effect are merged. -/
def mergeEntry (order : PointerOrder B) (objs : List (MemObj B)) (e : ConcreteMemoInfo) :
    Except KleeStop (List (MemObj B)) := do
  let merged ← mergeOverlappedMos order objs e.addr e.size.toUInt64
  return merged.1

/-- The others are also written. -/
def writeEntry (order : PointerOrder B) (objs : List (MemObj B)) (e : ConcreteMemoInfo) :
    Except KleeStop (List (MemObj B)) :=
  if isOverlappedMO objs e.addr e.size.toUInt64 then do
    let merged ← mergeOverlappedMos order objs e.addr e.size.toUInt64
    ensure (Belongs e merged.2) notBelonging
    ensure (merged.2.os.readOnly = false) (.assertion "!os->readOnly")
    let os ← merged.2.os.writeN (e.addr - merged.2.addr).toUInt32 (e.data.map ByteExpr.const)
    return bindObject merged.1 { merged.2 with os := os }
  else do
    let n ← allocateFixed objs e.addr e.size.toUInt64
    let os ← (ObjectState.zeroed n).writeN 0 (e.data.map ByteExpr.const)
    return bindObject objs ⟨e.addr, os, false⟩

/-- **`crete_sync_memory`.** -/
def syncMemory (order : PointerOrder B) (objs : List (MemObj B)) (t : MemoSyncTable) :
    Except KleeStop (List (MemObj B)) := do
  let divided ← divideMemoSyncTable order t objs
  let objs' ← divided.2.2.foldlM (mergeEntry order) divided.1
  divided.2.1.foldlM (writeEntry order) objs'

/-- The tables, one block after the other. -/
def syncTables (order : PointerOrder B) (tables : List MemoSyncTable) (objs : List (MemObj B)) :
    Except KleeStop (List (MemObj B)) :=
  tables.foldlM (syncMemory order) objs

/-! ## 3. Entries and objects -/

/-- An address with one before it in the extent. -/
def Inside {β : Type} (e : Extent β) (p : Nat) : Prop := e.addr < p ∧ p < e.stop
  deriving Decidable

/-- **No extent lies across the start or the end of an object** that ends below `2 ^ 64`. -/
def Clear {β : Type} (objs : List (MemObj B)) (l : List (Extent β)) : Prop :=
  ∀ o ∈ objs, o.Ends → ∀ e ∈ l, ¬ Inside e o.addr.toNat ∧ ¬ Inside e o.stop
  deriving Decidable

/-- **Why the replay stops**: an extent lies across a boundary of an object, or they chain `2 ^ 32`
    bytes. -/
def Blocked {β : Type} (objs : List (MemObj B)) (l : List (Extent β)) : Prop :=
  ¬ (Clear objs l ∧ Short (2 ^ 32) l)

/-! ## 4. From entry to entry -/

/-- **From entry to entry.** The symbolic objects `syms` stay, and every other object is a chain of
    the entries `l`. -/
structure Synced (syms : List (MemObj B)) (l : List (Extent UInt8)) (objs : List (MemObj B)) :
    Prop where
  tidy : Tidy objs
  writable : ∀ o ∈ objs, o.os.readOnly = false
  symbolic : ∀ o ∈ objs, o.symbolic = true → ∃ s ∈ syms, s.addr = o.addr ∧ s.size = o.size
  persists : ∀ s ∈ syms, s.Ends → ∃ o ∈ objs, o.symbolic = true ∧ o.addr = s.addr ∧ o.size = s.size
  chained : ∀ o ∈ objs, o.symbolic = false → o.Ends → ∀ x, o.addr.toNat ≤ x → x + 1 < o.stop →
    Bridged l x

/-- An object has the range. -/
def Covered (objs : List (MemObj B)) (a b : Nat) : Prop :=
  ∃ o ∈ objs, o.Ends ∧ o.addr.toNat ≤ a ∧ b ≤ o.stop

/-- What an object had, an object has. -/
def Grows (objs objs' : List (MemObj B)) : Prop :=
  ∀ a b, a < b → Covered objs a b → Covered objs' a b

omit [ByteExpr B] in
theorem Grows.refl (objs : List (MemObj B)) : Grows objs objs := fun _ _ _ h => h

omit [ByteExpr B] in
theorem Grows.trans {objs objs' objs'' : List (MemObj B)} (h : Grows objs objs')
    (h' : Grows objs' objs'') : Grows objs objs'' :=
  fun a b hab hc => h' a b hab (h a b hab hc)

omit [ByteExpr B] in
theorem MemObj.stop_congr {o o' : MemObj B} (haddr : o.addr = o'.addr) (hsize : o.size = o'.size) :
    o.stop = o'.stop := by
  rw [stop, stop, haddr, hsize]

omit [ByteExpr B] in
theorem MemObj.Ends.congr {o o' : MemObj B} (h : o.Ends) (hstop : o'.stop = o.stop) : o'.Ends := by
  rwa [Ends, hstop]

section Provide

variable {syms objs : List (MemObj B)} {l : List (Extent UInt8)} {addr size : UInt64}

omit [ByteExpr B] in
/-- A chain of a range and objects across it that are chains themselves. -/
theorem Synced.bridged (h : Synced syms l objs) (hsize : size.toNat < 2 ^ 32)
    (hrange : ∀ x, addr.toNat ≤ x → x + 1 < addr.toNat + size.toNat → Bridged l x)
    (hsym : ∀ o ∈ objs, overlaps addr size o = true → o.symbolic = false) {lo hi : Nat}
    (hlo : lo = addr.toNat ∨ ∃ o ∈ objs.filter (overlaps addr size), o.addr.toNat = lo)
    (hhi : hi = addr.toNat + size.toNat ∨ ∃ o ∈ objs.filter (overlaps addr size), o.stop = hi)
    {x : Nat} (h₁ : lo ≤ x) (h₂ : x + 1 < hi) : Bridged l x := by
  have hobj : ∀ o ∈ objs.filter (overlaps addr size),
      (o.addr.toNat ≤ x → x + 1 < o.stop → Bridged l x) ∧
        o.addr.toNat < addr.toNat + size.toNat ∧ addr.toNat < o.stop := by
    intro o ho
    obtain ⟨ho, hover⟩ := mem_filter.1 ho
    obtain ⟨-, hends, ho₁, ho₂⟩ := (overlaps_iff hsize).1 hover
    exact ⟨h.chained o ho (hsym o ho hover) hends x, ho₁, ho₂⟩
  by_cases hbefore : x < addr.toNat
  · rcases hlo with e | ⟨o, ho, e⟩
    · omega
    · obtain ⟨hb, -, ho₂⟩ := hobj o ho
      exact hb (by omega) (by omega)
  · by_cases hin : x + 1 < addr.toNat + size.toNat
    · exact hrange x (by omega) hin
    · rcases hhi with e | ⟨o, ho, e⟩
      · omega
      · obtain ⟨hb, ho₁, -⟩ := hobj o ho
        exact hb (by omega) (by omega)

omit [ByteExpr B] in
/-- A range across a boundary of a symbolic object. -/
theorem Synced.not_clear (h : Synced syms l objs) (hsize : size.toNat < 2 ^ 32)
    {e : Extent UInt8} (he : e ∈ l) (hea : e.addr = addr.toNat)
    (hes : e.stop = addr.toNat + size.toNat) {o : MemObj B} (ho : o ∈ objs)
    (hover : overlaps addr size o = true)
    (hcov : ¬ (o.addr.toNat ≤ addr.toNat ∧ addr.toNat + size.toNat ≤ o.stop))
    (hsym : o.symbolic = true) : ¬ Clear syms l := by
  intro hclear
  obtain ⟨-, hends, h₁, h₂⟩ := (overlaps_iff hsize).1 hover
  obtain ⟨s, hs, hsaddr, hssize⟩ := h.symbolic o ho hsym
  have hstop := MemObj.stop_congr hsaddr hssize
  have hin := hclear s hs (hends.congr hstop) e he
  have hle : o.addr.toNat ≤ o.stop := Nat.le_add_right _ _
  unfold Inside at hin
  rw [hstop, hsaddr] at hin
  omega

variable {new : MemObj B}

omit [ByteExpr B] in
/-- What is bound beside the new object. -/
theorem mem_bindObject_filter {o : MemObj B} :
    o ∈ bindObject (objs.filter fun o => !overlaps addr size o) new ↔
      o = new ∨ o ∈ objs ∧ overlaps addr size o = false ∧ o.addr ≠ new.addr := by
  rw [bindObject, mem_cons, mem_filter, mem_filter]
  simp [and_assoc]

section Bound

variable (htidy : Tidy objs) (hsize : size.toNat < 2 ^ 32) (hpos : 0 < size.toNat)
  (hT : addr.toNat + size.toNat < 2 ^ 64)
  (hj : Joined (objs.filter (overlaps addr size)) addr.toNat size.toNat new)

include hsize hT hj

theorem Joined.ends : new.Ends := by
  unfold MemObj.Ends
  rcases hj.stop_eq with e | ⟨b, hb, e⟩
  · rw [e]
    exact hT
  · rw [← e]
    exact ((overlaps_iff hsize).1 (mem_filter.1 hb).2).2.1

include htidy hpos

/-- The new object begins with no object that stays and has bytes. -/
theorem Joined.addr_ne {o : MemObj B} (ho : o ∈ objs) (hnot : overlaps addr size o = false)
    (hends : o.Ends) (hlt : o.addr.toNat < o.stop) : o.addr ≠ new.addr := by
  intro e
  have hoff := hj.off htidy hsize hT ho hnot hends
  have h₁ := hj.addr_le.1
  have h₂ := hj.le_stop.1
  rw [e] at hoff hlt
  omega

theorem Joined.grows :
    Grows objs (bindObject (objs.filter fun o => !overlaps addr size o) new) := by
  intro a b hab hc
  obtain ⟨o, ho, hends, h₁, h₂⟩ := hc
  by_cases hover : overlaps addr size o = true
  · have hmem : o ∈ objs.filter (overlaps addr size) := mem_filter.2 ⟨ho, hover⟩
    exact ⟨new, mem_bindObject_filter.2 (.inl rfl), hj.ends hsize hT,
      Nat.le_trans (hj.addr_le.2 o hmem) h₁, Nat.le_trans h₂ (hj.le_stop.2 o hmem)⟩
  · rw [Bool.not_eq_true] at hover
    exact ⟨o, mem_bindObject_filter.2 (.inr ⟨ho, hover,
      hj.addr_ne htidy hsize hpos hT ho hover hends (by omega)⟩), hends, h₁, h₂⟩

end Bound

/-- **The new object in the place of those across the range.** -/
theorem Synced.joined (h : Synced syms l objs) (hne : ∀ s ∈ syms, s.size.toNat ≠ 0)
    (hsize : size.toNat < 2 ^ 32) (hpos : 0 < size.toNat) (hT : addr.toNat + size.toNat < 2 ^ 64)
    (hrange : ∀ x, addr.toNat ≤ x → x + 1 < addr.toNat + size.toNat → Bridged l x)
    (hsym : ∀ o ∈ objs, overlaps addr size o = true → o.symbolic = false)
    (hj : Joined (objs.filter (overlaps addr size)) addr.toNat size.toNat new) :
    Synced syms l (bindObject (objs.filter fun o => !overlaps addr size o) new) where
  tidy := hj.tidy h.tidy hsize
  writable := by
    intro o ho
    rcases mem_bindObject_filter.1 ho with e | ⟨ho, -, -⟩
    · rw [e]
      exact hj.plain.2
    · exact h.writable o ho
  symbolic := by
    intro o ho hs
    rcases mem_bindObject_filter.1 ho with e | ⟨ho, -, -⟩
    · rw [e, hj.plain.1] at hs
      exact Bool.noConfusion hs
    · exact h.symbolic o ho hs
  persists := by
    intro s hs hends
    obtain ⟨o, ho, hos, haddr, hosize⟩ := h.persists s hs hends
    have hstop := MemObj.stop_congr haddr hosize
    have hnot : overlaps addr size o = false := by
      rw [Bool.eq_false_iff]
      intro hover
      rw [hsym o ho hover] at hos
      exact Bool.noConfusion hos
    have hlt : o.addr.toNat < o.stop := by
      have := hne s hs
      rw [hstop, haddr]
      unfold MemObj.stop
      omega
    exact ⟨o, mem_bindObject_filter.2 (.inr ⟨ho, hnot,
      hj.addr_ne h.tidy hsize hpos hT ho hnot (hends.congr hstop) hlt⟩), hos, haddr, hosize⟩
  chained := by
    intro o ho hs hends x h₁ h₂
    rcases mem_bindObject_filter.1 ho with e | ⟨ho, -, -⟩
    · rw [e] at h₁ h₂
      exact h.bridged hsize hrange hsym hj.addr_toNat_eq hj.stop_eq h₁ h₂
    · exact h.chained o ho hs hends x h₁ h₂

/-- **An object for an entry.** There is one after the merge, or an entry lies across a boundary of
    a symbolic object, or the entries chain `2 ^ 32` bytes. -/
theorem Synced.provide [LawfulByteExpr B] (order : PointerOrder B) (h : Synced syms l objs)
    (hne : ∀ s ∈ syms, s.size.toNat ≠ 0) (hsize : size.toNat < 2 ^ 32) (hpos : 0 < size.toNat)
    (hT : addr.toNat + size.toNat < 2 ^ 64) {e : Extent UInt8} (he : e ∈ l)
    (hea : e.addr = addr.toNat) (hes : e.stop = addr.toNat + size.toNat) :
    ReturnsOr (Blocked syms l) (Klee.provide order objs addr size) fun r =>
      Synced syms l r.1 ∧ Grows objs r.1 ∧ r.2 ∈ r.1 ∧ r.2.Ends ∧ r.2.addr.toNat ≤ addr.toNat ∧
        addr.toNat + size.toNat ≤ r.2.stop := by
  have hrange : ∀ x, addr.toNat ≤ x → x + 1 < addr.toNat + size.toNat → Bridged l x := by
    intro x h₁ h₂
    exact ⟨e, he, ⟨by omega, by omega⟩, ⟨by omega, by omega⟩⟩
  by_cases hc : ∃ o ∈ objs, overlaps addr size o = true ∧
      (o.addr.toNat ≤ addr.toNat ∧ addr.toNat + size.toNat ≤ o.stop)
  · obtain ⟨o, ho, hover, hcov⟩ := hc
    refine .inl ⟨(objs, o), ?_, h, .refl objs, ho, ((overlaps_iff hsize).1 hover).2.1, hcov⟩
    rw [Klee.provide, if_pos (isOverlappedMO_iff.2 ⟨o, ho, hover⟩)]
    exact merge_covered h.tidy hsize ho hover hcov
  · have hcov : ∀ o ∈ objs, overlaps addr size o = true →
        ¬ (o.addr.toNat ≤ addr.toNat ∧ addr.toNat + size.toNat ≤ o.stop) :=
      fun o ho hover hcov => hc ⟨o, ho, hover, hcov⟩
    by_cases hs : ∃ o ∈ objs, overlaps addr size o = true ∧ o.symbolic = true
    · obtain ⟨o, ho, hover, hsym⟩ := hs
      refine .inr ⟨⟨overlappedWithSymbolics, ?_⟩, fun hcl =>
        h.not_clear hsize he hea hes ho hover (hcov o ho hover) hsym hcl.1⟩
      rw [Klee.provide, if_pos (isOverlappedMO_iff.2 ⟨o, ho, hover⟩)]
      exact merge_symbolic hsize hcov ho hover hsym
    · have hsym : ∀ o ∈ objs, overlaps addr size o = true → o.symbolic = false := by
        intro o ho hover
        rw [Bool.eq_false_iff]
        exact fun hsym => hs ⟨o, ho, hover, hsym⟩
      by_cases hn : Narrow objs addr size
      · obtain ⟨new, hok, hj⟩ := provide_joined h.tidy hsize hcov hsym order hn
        exact .inl ⟨_, hok, h.joined hne hsize hpos hT hrange hsym hj,
          hj.grows h.tidy hsize hpos hT, .head _, hj.ends hsize hT, hj.addr_le.1,
          hj.le_stop.1⟩
      · refine .inr ⟨provide_wide h.tidy hsize hcov hsym hn, fun hcl => hn ?_⟩
        intro o ho hover o' ho' hover'
        by_contra hwide
        obtain ⟨x, hx₁, hx₂, hx⟩ := hcl.2 (min addr.toNat o.addr.toNat)
        refine hx (h.bridged hsize hrange hsym ?_ ?_ hx₁
          (Nat.lt_of_lt_of_le hx₂ (Nat.not_lt.1 hwide)))
        · rcases Nat.le_total addr.toNat o.addr.toNat with hle | hle
          · exact .inl (Nat.min_eq_left hle)
          · exact .inr ⟨o, mem_filter.2 ⟨ho, hover⟩, (Nat.min_eq_right hle).symm⟩
        · rcases Nat.le_total o'.stop (addr.toNat + size.toNat) with hle | hle
          · exact .inl (Nat.max_eq_left hle)
          · exact .inr ⟨o', mem_filter.2 ⟨ho', hover'⟩, (Nat.max_eq_right hle).symm⟩

end Provide

/-! ## 5. One entry -/

section Entry

variable {syms objs : List (MemObj B)} {l : List (Extent UInt8)} {e : ConcreteMemoInfo}
  {o : MemObj B}

omit [ByteExpr B] in
/-- An object with other bytes. -/
theorem Synced.rebind (h : Synced syms l objs) (ho : o ∈ objs) {os : ObjectState B}
    (hsize : os.size = o.os.size) (hro : os.readOnly = o.os.readOnly) :
    Synced syms l (bindObject objs { o with os := os }) ∧
      Grows objs (bindObject objs { o with os := os }) := by
  have hmem : ∀ x, x ∈ bindObject objs { o with os := os } ↔
      x = { o with os := os } ∨ x ∈ objs ∧ x.addr ≠ o.addr := by
    intro x
    rw [bindObject, mem_cons, mem_filter, decide_eq_true_eq]
  have hnew : (MemObj.mk o.addr os o.symbolic).size = o.size := hsize
  have hstop : (MemObj.mk o.addr os o.symbolic).stop = o.stop := by
    unfold MemObj.stop
    rw [hnew]
  -- an object that is replaced is the one that is written
  have hkeep : ∀ x ∈ objs, x = o ∨ x ∈ bindObject objs { o with os := os } := by
    intro x hx
    by_cases hxo : x = o
    · exact .inl hxo
    · exact .inr ((hmem x).2 (.inr ⟨hx, (h.tidy.forall hx ho hxo).1⟩))
  refine ⟨⟨h.tidy.rebind ho rfl hnew, ?_, ?_, ?_, ?_⟩, ?_⟩
  · intro x hx
    rcases (hmem x).1 hx with e | ⟨hx, -⟩
    · rw [e]
      exact hro.trans (h.writable o ho)
    · exact h.writable x hx
  · intro x hx hs
    rcases (hmem x).1 hx with e | ⟨hx, -⟩
    · rw [e] at hs ⊢
      rw [hnew]
      exact h.symbolic o ho hs
    · exact h.symbolic x hx hs
  · intro s hs hends
    obtain ⟨x, hx, hxs, haddr, hxsize⟩ := h.persists s hs hends
    rcases hkeep x hx with e | hx
    · rw [e] at hxs haddr hxsize
      exact ⟨_, (hmem _).2 (.inl rfl), hxs, haddr, hnew.trans hxsize⟩
    · exact ⟨x, hx, hxs, haddr, hxsize⟩
  · intro x hx hs hends
    rcases (hmem x).1 hx with e | ⟨hx, -⟩
    · unfold MemObj.Ends at hends
      rw [e] at hs hends ⊢
      rw [hstop] at hends ⊢
      exact h.chained o ho hs hends
    · exact h.chained x hx hs hends
  · intro a b _ hc
    obtain ⟨x, hx, hends, h₁, h₂⟩ := hc
    rcases hkeep x hx with e | hx
    · unfold MemObj.Ends at hends
      rw [e] at hends h₁ h₂
      refine ⟨_, (hmem _).2 (.inl rfl), ?_, h₁, ?_⟩
      · unfold MemObj.Ends
        rwa [hstop]
      · rwa [hstop]
    · exact ⟨x, hx, hends, h₁, h₂⟩

/-- An entry that is one of `l` and ends below `2 ^ 64`. -/
structure EntryOf (l : List (Extent UInt8)) (e : ConcreteMemoInfo) : Prop where
  ok : e.Ok
  fits : e.extent.stop < 2 ^ 64
  mem : e.extent ∈ l

theorem EntryOf.stop (he : EntryOf l e) : e.extent.stop = e.addr.toNat + e.size.toUInt64.toNat := by
  rw [Dump.stop_eq he.ok, UInt32.toNat_toUInt64]

/-- The object of an entry, as the code sees it. -/
structure Holding (e : ConcreteMemoInfo) (o : MemObj B) : Prop where
  belongs : Belongs e o
  offset : ∀ i, i < e.size.toNat →
    ((e.addr - o.addr).toUInt32 + UInt32.ofNat i).toNat = (e.addr - o.addr).toUInt32.toNat + i ∧
      (e.addr - o.addr).toUInt32.toNat + i < o.size.toNat
  room : (e.addr - o.addr).toUInt32.toNat + e.size.toNat ≤ o.size.toNat

omit [ByteExpr B] in
theorem EntryOf.holding (he : EntryOf l e) (hends : o.Ends) (h₁ : o.addr.toNat ≤ e.addr.toNat)
    (h₂ : e.addr.toNat + e.size.toUInt64.toNat ≤ o.stop) : Holding e o := by
  have hfits := he.fits
  rw [he.stop] at hfits
  have hosize := o.size.toNat_lt
  have hpos := he.ok.size
  have hoff : (e.addr - o.addr).toUInt32.toNat = e.addr.toNat - o.addr.toNat := by
    rw [toNat_toUInt32, UInt64.toNat_sub_of_le _ _ (le_iff_toNat_le.2 h₁)]
    rw [UInt32.toNat_toUInt64] at h₂
    unfold MemObj.stop at h₂
    exact Nat.mod_eq_of_lt (by omega)
  have hroom : (e.addr - o.addr).toUInt32.toNat + e.size.toNat ≤ o.size.toNat := by
    rw [UInt32.toNat_toUInt64] at h₂
    unfold MemObj.stop at h₂
    rw [hoff]
    omega
  refine ⟨⟨le_iff_toNat_le.2 h₁, ?_⟩, fun i hi => ⟨?_, by omega⟩, hroom⟩
  · rw [le_iff_toNat_le, toNat_add_size hfits, MemObj.toNat_addrEnd hends]
    exact h₂
  · have hi' : (UInt32.ofNat i).toNat = i := UInt32.toNat_ofNat_of_lt' (by
      change i < 2 ^ 32
      omega)
    rw [UInt32.toNat_add, hi', Nat.mod_eq_of_lt (by omega)]

theorem EntryOf.lt (he : EntryOf l e) : e.extent.addr < e.extent.stop := by
  have := he.ok.size
  rw [he.stop, UInt32.toNat_toUInt64]
  change e.addr.toNat < _
  omega

variable [LawfulByteExpr B] (order : PointerOrder B)

/-- The bytes of an entry, written into its object. -/
theorem EntryOf.writeN (he : EntryOf l e) (hh : Holding e o) :
    ∃ os, o.os.writeN (e.addr - o.addr).toUInt32 (e.data.map ByteExpr.const) = .ok os ∧
      os.size = o.os.size ∧ os.readOnly = o.os.readOnly := by
  have hroom : (e.addr - o.addr).toUInt32.toNat + (e.data.map (ByteExpr.const (B := B))).length ≤
      o.os.size.toNat := by
    rw [length_map, he.ok.data]
    exact hh.room
  obtain ⟨os, hok, hw⟩ := ObjectState.writeN_ok hroom
  exact ⟨os, hok, hw.size, hw.readOnly⟩

variable (h : Synced syms l objs) (hne : ∀ s ∈ syms, s.size.toNat ≠ 0) (he : EntryOf l e)

include h hne he

/-- An object for an entry of a table. -/
theorem Synced.provide_entry :
    ReturnsOr (Blocked syms l) (Klee.provide order objs e.addr e.size.toUInt64) fun r =>
      Synced syms l r.1 ∧ Grows objs r.1 ∧ r.2 ∈ r.1 ∧ Holding e r.2 ∧
        Covered r.1 e.extent.addr e.extent.stop := by
  have hsize : e.size.toUInt64.toNat < 2 ^ 32 := by
    rw [UInt32.toNat_toUInt64]
    exact e.size.toNat_lt
  have hpos : 0 < e.size.toUInt64.toNat := by
    rw [UInt32.toNat_toUInt64]
    exact Nat.pos_of_ne_zero he.ok.size
  have hT := he.fits
  rw [he.stop] at hT
  refine (h.provide order hne hsize hpos hT he.mem rfl he.stop).imp (fun r hr => ?_) id
  obtain ⟨hs, hg, ho, hends, h₁, h₂⟩ := hr
  refine ⟨hs, hg, ho, he.holding hends h₁ h₂, r.2, ho, hends, h₁, ?_⟩
  rwa [he.stop]

/-- ... by a merge, if there are objects across it. -/
theorem Synced.merge_entry (hover : isOverlappedMO objs e.addr e.size.toUInt64 = true) :
    ReturnsOr (Blocked syms l) (mergeOverlappedMos order objs e.addr e.size.toUInt64) fun r =>
      Synced syms l r.1 ∧ Grows objs r.1 ∧ r.2 ∈ r.1 ∧ Holding e r.2 ∧
        Covered r.1 e.extent.addr e.extent.stop := by
  have hprovide := h.provide_entry order hne he
  rwa [Klee.provide, if_pos hover] at hprovide

/-- One round of the division. -/
theorem Synced.divideEntry : ReturnsOr (Blocked syms l) (Klee.divideEntry order objs e) fun r =>
      Synced syms l r.1 ∧ Grows objs r.1 ∧
        (r.2 = false → Covered r.1 e.extent.addr e.extent.stop) := by
  unfold Klee.divideEntry
  split
  · next hover =>
    refine (h.merge_entry order hne he hover).bind fun r hr => ?_
    obtain ⟨hs, hg, -, hh, hc⟩ := hr
    have hread : ∀ i ∈ range e.size.toNat,
        readConcrete r.2.os ((e.addr - r.2.addr).toUInt32 + UInt32.ofNat i) = .ok (ByteExpr.evaluate
            (r.2.os.read8 ((e.addr - r.2.addr).toUInt32 + UInt32.ofNat i).toNat)) := by
      intro i hi
      obtain ⟨heq, hlt⟩ := hh.offset i (mem_range.1 hi)
      rw [readConcrete, ensure_bind, if_pos]
      · rfl
      · rw [UInt32.lt_iff_toNat_lt, heq]
        exact hlt
    rw [ensure_bind, if_pos hh.belongs, mapM_ok hread, ok_bind, ensure_bind, if_pos]
    · exact .inl ⟨_, rfl, hs, hg, fun _ => hc⟩
    · rw [length_map, length_range, he.ok.data]
  · exact .inl ⟨_, rfl, h, .refl objs, fun hf => Bool.noConfusion hf⟩

/-- One entry without a side effect, which has its object already. -/
theorem Synced.mergeEntry (hc : Covered objs e.extent.addr e.extent.stop) :
    ReturnsOr (Blocked syms l) (Klee.mergeEntry order objs e) fun objs' =>
      Synced syms l objs' ∧ Grows objs objs' := by
  have hover : isOverlappedMO objs e.addr e.size.toUInt64 = true := by
    obtain ⟨o, ho, hends, h₁, h₂⟩ := hc
    refine isOverlappedMO_iff.2 ⟨o, ho, (overlaps_iff ?_).2 ?_⟩
    · rw [UInt32.toNat_toUInt64]
      exact e.size.toNat_lt
    · have hfits := he.fits
      have hpos := he.ok.size
      rw [he.stop, UInt32.toNat_toUInt64] at hfits h₂
      rw [UInt32.toNat_toUInt64]
      change o.addr.toNat ≤ e.addr.toNat at h₁
      exact ⟨hfits, hends, by omega, by omega⟩
  exact (h.merge_entry order hne he hover).bind fun r hr => .inl ⟨r.1, rfl, hr.1, hr.2.1⟩

/-- One entry that is written. -/
theorem Synced.writeEntry : ReturnsOr (Blocked syms l) (Klee.writeEntry order objs e) fun objs' =>
      Synced syms l objs' ∧ Grows objs objs' ∧ Covered objs' e.extent.addr e.extent.stop := by
  unfold Klee.writeEntry
  by_cases hover : isOverlappedMO objs e.addr e.size.toUInt64 = true
  · rw [if_pos hover]
    refine (h.merge_entry order hne he hover).bind fun r hr => ?_
    obtain ⟨hs, hg, ho, hh, hc⟩ := hr
    obtain ⟨os, hos, hsize, hro⟩ := he.writeN hh
    obtain ⟨hs', hg'⟩ := hs.rebind ho hsize hro
    rw [ensure_bind, if_pos hh.belongs, ensure_bind, if_pos (hs.writable r.2 ho), hos]
    exact .inl ⟨_, rfl, hs', hg.trans hg', hg' _ _ he.lt hc⟩
  · have hprovide := h.provide_entry order hne he
    rw [Klee.provide, if_neg hover, allocateFixed, ensure_bind,
      if_pos (Bool.eq_false_iff.2 hover), pure_bind] at hprovide
    rw [if_neg hover, allocateFixed, ensure_bind, if_pos (Bool.eq_false_iff.2 hover), pure_bind]
    rcases hprovide with ⟨r, hok, hs, hg, ho, hh, hc⟩ | ⟨⟨err, herr⟩, -⟩
    · cases hok
      obtain ⟨os, hos, hsize, hro⟩ := he.writeN hh
      obtain ⟨hs', hg'⟩ := hs.rebind ho hsize hro
      have hbind : bindObject (bindObject objs ⟨e.addr, .zeroed e.size.toUInt64.toUInt32, false⟩)
          ⟨e.addr, os, false⟩ = bindObject objs ⟨e.addr, os, false⟩ := bindObject_bindObject rfl
      dsimp only at hs' hg'
      rw [hbind] at hs' hg'
      refine .inl ⟨_, ?_, hs', hg.trans hg', hg' _ _ he.lt hc⟩
      have hzero : (e.addr - e.addr).toUInt32 = 0 := by
        rw [UInt64.sub_self]
        rfl
      dsimp only at hos
      rw [hzero] at hos
      rw [hos]
      rfl
    · cases herr

end Entry

/-! ## 6. Whole tables -/

/-- An object has all of the entry. -/
def HasEntry (objs : List (MemObj B)) (e : ConcreteMemoInfo) : Prop :=
  e.extent.addr < e.extent.stop ∧ Covered objs e.extent.addr e.extent.stop

omit [ByteExpr B] in
theorem HasEntry.grow {objs objs' : List (MemObj B)} {e : ConcreteMemoInfo} (h : HasEntry objs e)
    (hg : Grows objs objs') : HasEntry objs' e :=
  ⟨h.1, hg _ _ h.1 h.2⟩

section Tables

variable [LawfulByteExpr B] {syms : List (MemObj B)} {l : List (Extent UInt8)}
  (order : PointerOrder B) (hne : ∀ s ∈ syms, s.size.toNat ≠ 0)

variable {objs : List (MemObj B)} {t : MemoSyncTable}

include hne

/-- The division of a table. -/
theorem Synced.divide (h : Synced syms l objs) (ht : ∀ e ∈ t, EntryOf l e) :
    ReturnsOr (Blocked syms l) (divideMemoSyncTable order t objs) fun r =>
      Synced syms l r.1 ∧ Grows objs r.1 ∧ (∀ e, e ∈ t ↔ e ∈ r.2.1 ∨ e ∈ r.2.2) ∧
        ∀ e ∈ r.2.2, HasEntry r.1 e := by
  induction t generalizing objs with
  | nil => exact .inl ⟨(objs, [], []), rfl, h, .refl objs, by simp, forall_mem_nil _⟩
  | cons e t ih =>
    obtain ⟨he, ht⟩ := forall_mem_cons.1 ht
    rw [divideMemoSyncTable]
    refine (h.divideEntry order hne he).bind fun d hd => ?_
    obtain ⟨hs, hg, hcov⟩ := hd
    refine (ih hs ht).bind fun r hr => ?_
    obtain ⟨hs', hg', hsplit, hnone⟩ := hr
    refine .inl ⟨_, rfl, ?_⟩
    cases hb : d.2 with
    | true =>
      refine ⟨hs', hg.trans hg', fun x => ?_, hnone⟩
      rw [mem_cons, hsplit, ← or_assoc, ← mem_cons]
      rfl
    | false =>
      have hx : HasEntry d.1 e := ⟨he.lt, hcov hb⟩
      refine ⟨hs', hg.trans hg', fun x => ?_, forall_mem_cons.2 ⟨hx.grow hg', hnone⟩⟩
      rw [mem_cons, hsplit, or_left_comm, ← mem_cons]
      rfl

variable (h : Synced syms l objs) (ht : ∀ e ∈ t, EntryOf l e)

include h ht

/-- The entries without a side effect, which keep their objects. -/
theorem Synced.mergeEntries (hhas : ∀ e ∈ t, HasEntry objs e) :
    ReturnsOr (Blocked syms l) (t.foldlM (Klee.mergeEntry order) objs) fun objs' =>
      (Synced syms l objs' ∧ ∀ e ∈ t, HasEntry objs' e) ∧ Grows objs objs' ∧
        ∀ e ∈ t, HasEntry objs' e := by
  refine foldlM_progress Grows.refl Grows.trans (fun hq hg => hq.grow hg) (fun e he s hs => ?_)
    (And.intro h hhas)
  refine (hs.1.mergeEntry order hne (ht e he) (hs.2 e he).2).imp (fun s' hs' => ?_) id
  exact ⟨⟨hs'.1, fun x hx => (hs.2 x hx).grow hs'.2⟩, hs'.2, (hs.2 e he).grow hs'.2⟩

/-- The entries that are written. -/
theorem Synced.writeEntries :
    ReturnsOr (Blocked syms l) (t.foldlM (Klee.writeEntry order) objs) fun objs' =>
      Synced syms l objs' ∧ Grows objs objs' ∧ ∀ e ∈ t, HasEntry objs' e := by
  refine foldlM_progress Grows.refl Grows.trans (fun hq hg => hq.grow hg) (fun e he s hs => ?_) h
  refine (hs.writeEntry order hne (ht e he)).imp (fun s' hs' => ?_) id
  exact ⟨hs'.1, hs'.2.1, (ht e he).lt, hs'.2.2⟩

/-- **One table.** -/
theorem Synced.syncMemory : ReturnsOr (Blocked syms l) (Klee.syncMemory order objs t) fun objs' =>
      Synced syms l objs' ∧ Grows objs objs' ∧ ∀ e ∈ t, HasEntry objs' e := by
  refine (h.divide order hne ht).bind fun r hr => ?_
  obtain ⟨hs, hg, hsplit, hnone⟩ := hr
  have hr₁ : ∀ e ∈ r.2.1, EntryOf l e := fun e he => ht e ((hsplit e).2 (.inl he))
  have hr₂ : ∀ e ∈ r.2.2, EntryOf l e := fun e he => ht e ((hsplit e).2 (.inr he))
  refine (hs.mergeEntries order hne hr₂ hnone).bind fun s₁ h₁ => ?_
  refine (h₁.1.1.writeEntries order hne hr₁).imp (fun s₂ h₂ => ?_) id
  refine ⟨h₂.1, hg.trans (h₁.2.1.trans h₂.2.1), fun e he => ?_⟩
  rcases (hsplit e).1 he with he | he
  · exact h₂.2.2 e he
  · exact (h₁.2.2 e he).grow h₂.2.1

omit ht in
/-- **All tables**: they are replayed and every entry has its object, or the condition fails. -/
theorem Synced.syncTables {tables : List MemoSyncTable} (ht : ∀ t ∈ tables, ∀ e ∈ t, EntryOf l e) :
    ReturnsOr (Blocked syms l) (Klee.syncTables order tables objs) fun objs' =>
      Synced syms l objs' ∧ Grows objs objs' ∧ ∀ t ∈ tables, ∀ e ∈ t, HasEntry objs' e :=
  foldlM_progress Grows.refl Grows.trans (fun hq hg e he => (hq e he).grow hg)
    (fun t htm _ hs => hs.syncMemory order hne (ht t htm)) h

end Tables

/-! ## 7. When the tables are replayed -/

section Condition

variable {syms objs : List (MemObj B)} {l : List (Extent UInt8)}

omit [ByteExpr B] in
/-- Entries that have their objects lie across no boundary of a symbolic object. -/
theorem Synced.clear (h : Synced syms l objs) (hl : ∀ e ∈ l, Covered objs e.addr e.stop) :
    Clear syms l := by
  intro s hs hends e he
  obtain ⟨o, ho, -, haddr, hsize⟩ := h.persists s hs hends
  obtain ⟨c, hc, hcends, hc₁, hc₂⟩ := hl e he
  have hstop := MemObj.stop_congr haddr hsize
  have hle : s.addr.toNat ≤ s.stop := Nat.le_add_right _ _
  unfold Inside
  by_cases hoc : o = c
  · rw [← hoc, haddr] at hc₁
    rw [← hoc, hstop] at hc₂
    omega
  · have hoff := h.tidy.off ho hc hoc (hends.congr hstop) hcends
    unfold Off at hoff
    rw [hstop, haddr] at hoff
    omega

/-- ... and chain no `2 ^ 32` bytes, which no object has. -/
theorem Synced.short (h : Synced syms l objs) (hl : ∀ e ∈ l, Covered objs e.addr e.stop) :
    Short (2 ^ 32) l := by
  have hobjs : Short (2 ^ 32) ((objs.filter fun o => o.Ends).map MemObj.extent) := by
    refine short_of_disjoint (by decide) (fun e he e' he' x hx hx' => ?_) fun e he => ?_
    · obtain ⟨o, ho, rfl⟩ := mem_map.1 he
      obtain ⟨o', ho', rfl⟩ := mem_map.1 he'
      obtain ⟨ho, hends⟩ := mem_filter.1 ho
      obtain ⟨ho', hends'⟩ := mem_filter.1 ho'
      by_contra hne
      have hoff := h.tidy.off ho ho' (fun e => hne (by rw [e])) (of_decide_eq_true hends)
        (of_decide_eq_true hends')
      have h₁ := hx.2
      have h₂ := hx'.2
      have h₃ : o.addr.toNat ≤ x := hx.1
      have h₄ : o'.addr.toNat ≤ x := hx'.1
      rw [MemObj.extent_stop] at h₁ h₂
      unfold Off at hoff
      omega
    · obtain ⟨o, ho, rfl⟩ := mem_map.1 he
      have := o.size.toNat_lt
      rw [MemObj.extent_stop]
      change o.addr.toNat + o.size.toNat < o.addr.toNat + _
      omega
  refine hobjs.mono fun x hb => ?_
  obtain ⟨e, he, h₁, h₂⟩ := hb
  obtain ⟨o, ho, hends, hc₁, hc₂⟩ := hl e he
  refine ⟨o.extent, mem_map_of_mem (mem_filter.2 ⟨ho, decide_eq_true hends⟩),
    ⟨Nat.le_trans hc₁ h₁.1, ?_⟩, ⟨Nat.le_trans hc₁ h₂.1, ?_⟩⟩
  · rw [MemObj.extent_stop]
    exact Nat.lt_of_lt_of_le h₁.2 hc₂
  · rw [MemObj.extent_stop]
    exact Nat.lt_of_lt_of_le h₂.2 hc₂

/-- **Objects as the concolic variables leave them.** -/
structure AllSymbolic (syms : List (MemObj B)) : Prop where
  tidy : Tidy syms
  symbolic : ∀ o ∈ syms, o.symbolic = true
  writable : ∀ o ∈ syms, o.os.readOnly = false
  nonempty : ∀ o ∈ syms, o.size.toNat ≠ 0

omit [ByteExpr B] in
theorem AllSymbolic.synced (h : AllSymbolic syms) (l : List (Extent UInt8)) :
    Synced syms l syms where
  tidy := h.tidy
  writable := h.writable
  symbolic := fun o ho _ => ⟨o, ho, rfl, rfl⟩
  persists := fun s hs _ => ⟨s, hs, h.symbolic s hs, rfl, rfl⟩
  chained := by
    intro o ho hs
    rw [h.symbolic o ho] at hs
    exact Bool.noConfusion hs

/-- **The tables are replayed exactly if** no entry lies across a boundary of a symbolic object,
    and no `2 ^ 32` addresses are chained by the entries of all tables. -/
theorem syncTables_ok_iff [LawfulByteExpr B] (order : PointerOrder B) (h : AllSymbolic syms)
    {tables : List MemoSyncTable} (ht : ∀ t ∈ tables, ∀ e ∈ t, e.Ok ∧ e.extent.stop < 2 ^ 64) :
    (∃ objs', syncTables order tables syms = .ok objs') ↔
      Clear syms (tables.flatMap extents) ∧ Short (2 ^ 32) (tables.flatMap extents) := by
  have hentry : ∀ t ∈ tables, ∀ e ∈ t, EntryOf (tables.flatMap extents) e := by
    intro t htm e he
    obtain ⟨hok, hfits⟩ := ht t htm e he
    exact ⟨hok, hfits, mem_flatMap.2 ⟨t, htm, mem_map_of_mem he⟩⟩
  rcases (h.synced (tables.flatMap extents)).syncTables order h.nonempty hentry with
    ⟨objs', hok, hs, -, hhas⟩ | ⟨⟨err, herr⟩, hbad⟩
  · have hl : ∀ e ∈ tables.flatMap extents, Covered objs' e.addr e.stop := by
      intro e he
      obtain ⟨t, htm, he⟩ := mem_flatMap.1 he
      obtain ⟨entry, hentry, rfl⟩ := mem_map.1 he
      exact (hhas t htm entry hentry).2
    exact ⟨fun _ => ⟨hs.clear hl, hs.short hl⟩, fun _ => ⟨objs', hok⟩⟩
  · refine ⟨fun hex => ?_, fun hc => absurd hc hbad⟩
    obtain ⟨objs', hok⟩ := hex
    rw [hok] at herr
    cases herr

end Condition

/-! ## 8. The concolic variables made symbolic -/

section Variables

variable {objs objs' : List (MemObj B)} {vars : List ConcolicVariable}

/-- What holds while the variables are allocated and made symbolic. -/
structure Allocated (vars : List ConcolicVariable) (objs : List (MemObj B)) : Prop where
  tidy : Tidy objs
  writable : ∀ o ∈ objs, o.os.readOnly = false
  nonempty : ∀ o ∈ objs, o.size.toNat ≠ 0
  addrs : ∀ o ∈ objs, ∃ v ∈ vars, v.guestAddr = o.addr

omit [ByteExpr B] in
theorem Allocated.bind (h : Allocated vars objs) {new : MemObj B}
    (htidy : Tidy (bindObject objs new)) (hro : new.os.readOnly = false)
    (hsize : new.size.toNat ≠ 0) (haddr : ∃ v ∈ vars, v.guestAddr = new.addr) :
    Allocated vars (bindObject objs new) := by
  have hmem : ∀ {P : MemObj B → Prop}, P new → (∀ x ∈ objs, P x) → ∀ x ∈ bindObject objs new, P x :=
    fun hn ho => forall_mem_cons.2 ⟨hn, fun x hx => ho x (mem_filter.1 hx).1⟩
  exact ⟨htidy, hmem hro h.writable, hmem hsize h.nonempty, hmem haddr h.addrs⟩

/-- A variable is allocated. -/
theorem Allocated.initSymbolic (h : Allocated vars objs) {v : ConcolicVariable} (hv : v ∈ vars)
    (hpos : 0 < v.dataSize.toNat) (hlt : v.dataSize.toNat < 2 ^ 32)
    (hok : Klee.initSymbolic objs v = .ok objs') : Allocated vars objs' := by
  rw [Klee.initSymbolic, allocateFixed] at hok
  obtain ⟨n, hn, hok⟩ := bind_eq_ok.1 hok
  obtain ⟨hover, hn⟩ := ensure_bind_eq_ok.1 hn
  cases hn
  cases hok
  have hsize : v.dataSize.toUInt32.toNat = v.dataSize.toNat := by
    rw [toNat_toUInt32, Nat.mod_eq_of_lt hlt]
  have hstop : (MemObj.mk v.guestAddr (.zeroed v.dataSize.toUInt32) false : MemObj B).stop =
      v.guestAddr.toNat + v.dataSize.toNat := by
    change v.guestAddr.toNat + v.dataSize.toUInt32.toNat = _
    rw [hsize]
  refine h.bind (h.tidy.bind fun o ho _ hnew hends => ?_) rfl ?_ ⟨v, hv, rfl⟩
  · have hnot : ¬ overlaps v.guestAddr v.dataSize o = true := by
      intro hov
      rw [isOverlappedMO_iff.2 ⟨o, ho, hov⟩] at hover
      exact Bool.noConfusion hover
    unfold MemObj.Ends at hnew
    rw [overlaps_iff hlt] at hnot
    rw [hstop] at hnew
    unfold Off
    rw [hstop]
    change _ ∨ o.stop ≤ v.guestAddr.toNat
    by_contra hboth
    exact hnot ⟨hnew, hends, by omega, by omega⟩
  · change v.dataSize.toUInt32.toNat ≠ 0
    omega

omit [ByteExpr B] in
theorem resolveOne_spec {t : UInt64} {mo : MemObj B} (h : resolveOne objs t = some mo) :
    mo ∈ objs ∧ mo.addr.toNat ≤ t.toNat ∧
      ∀ o ∈ objs, o.addr.toNat ≤ t.toNat → o.addr.toNat ≤ mo.addr.toNat := by
  obtain ⟨hmax, -⟩ := Option.filter_eq_some_iff.1 h
  obtain ⟨hmem, hle⟩ := mem_filter.1 (argmax_mem hmax)
  refine ⟨hmem, le_iff_toNat_le.1 (of_decide_eq_true hle), fun o ho hot => ?_⟩
  have hmem : o ∈ objs.filter fun o => o.addr ≤ t :=
    mem_filter.2 ⟨ho, decide_eq_true (le_iff_toNat_le.2 hot)⟩
  have hle := le_of_mem_argmax (f := fun o : MemObj B => o.addr.toNat) hmem hmax
  exact hle

omit [ByteExpr B] in
/-- **The variables are made symbolic, one after the other.** -/
theorem Allocated.makeSymbolics {array : ConcolicVariable → Nat → B} :
    ∀ {vs : List ConcolicVariable} {objs : List (MemObj B)}, Allocated vars objs →
    (∀ o ∈ objs, o.symbolic = true ∨ ∃ v ∈ vs, v.guestAddr = o.addr) →
    vs.foldlM (makeSymbolic array) objs = .ok objs' →
    Allocated vars objs' ∧ ∀ o ∈ objs', o.symbolic = true
  | [], objs, h, hleft, hok => by
    cases hok
    refine ⟨h, fun o ho => (hleft o ho).resolve_right fun hv => ?_⟩
    obtain ⟨v, hv, -⟩ := hv
    exact not_mem_nil hv
  | v :: vs, objs, h, hleft, hok => by
    rw [foldlM_cons] at hok
    obtain ⟨objs₁, h₁, hok⟩ := bind_eq_ok.1 hok
    unfold makeSymbolic at h₁
    split at h₁
    · cases h₁
    · next mo hmo =>
        cases h₁
        obtain ⟨hmem, hle, hmax⟩ := resolveOne_spec hmo
        have hbound : Allocated vars
            (bindObject objs ⟨mo.addr, .symbolic mo.size (array v), true⟩) :=
          h.bind (h.tidy.rebind hmem rfl rfl) rfl (h.nonempty mo hmem) (h.addrs mo hmem)
        refine Allocated.makeSymbolics hbound (fun o ho => ?_) hok
        rcases mem_cons.1 ho with e | ho
        · exact .inl (by rw [e])
        · obtain ⟨ho, hne⟩ := mem_filter.1 ho
          refine (hleft o ho).imp id fun hv => ?_
          obtain ⟨w, hw, haddr⟩ := hv
          rcases mem_cons.1 hw with e | hw
          · -- the object at the address of `v` is the one that was found
            rw [e] at haddr
            have := hmax o ho (by rw [haddr])
            refine absurd (UInt64.toNat_inj.1 ?_) (of_decide_eq_true hne)
            rw [← haddr] at this ⊢
            change v.guestAddr.toNat = mo.addr.toNat
            omega
          · exact ⟨w, hw, haddr⟩

/-- **The concolic variables leave symbolic objects only.** -/
theorem symbolicObjects_allSymbolic {array : ConcolicVariable → Nat → B} {syms : List (MemObj B)}
    (hvars : ∀ v ∈ vars, 0 < v.dataSize.toNat ∧ v.dataSize.toNat < 2 ^ 32)
    (hok : symbolicObjects array vars = .ok syms) : AllSymbolic syms := by
  obtain ⟨objs, hinit, hmake⟩ := bind_eq_ok.1 hok
  have hstart : Allocated vars ([] : List (MemObj B)) :=
    ⟨.nil, forall_mem_nil _, forall_mem_nil _, forall_mem_nil _⟩
  have halloc : Allocated vars objs := by
    refine foldlM_invariant (fun v hv _ _ hs hv' => ?_) hstart hinit
    exact hs.initSymbolic hv (hvars v hv).1 (hvars v hv).2 hv'
  obtain ⟨h, hsym⟩ := halloc.makeSymbolics (fun o ho => .inr (halloc.addrs o ho)) hmake
  exact ⟨h.tidy, hsym, h.writable, h.nonempty⟩

end Variables

end Crete.Klee
