/-
  File:      Crete/Klee/Merge.lean
  Subject:   How overlapping memory objects become one (klee/lib/Core/Executor.cpp,
             `crete_merge_overlapped_mos`).

  * `mergeOverlappedMos` -- the objects across a range are gathered and written into a new one.
  * `Joined` -- what a merged object is; **`merge_joined`** -- the merge makes one, unless one
    object has all of the range (`merge_covered`), a symbolic object is in the way
    (`merge_symbolic`), or the new one would have `2 ^ 32` bytes (`merge_wide`).
  * `provide` -- an object for a range, merged or new; `Joined.tidy` -- the objects stay `Tidy`.
-/
import Crete.Klee.Space

namespace Crete.Klee

open Crete.Lib Crete.Lib.Extent List UInt64 MemObj ObjectState

variable {B : Type}

variable [ByteExpr B]

/-! ## 1. The merge -/

/-- The bytes of the overlapped objects in order, with zeros between them. -/
def gather (previousEnd : UInt64) : List (MemObj B) → List B
  | [] => []
  | o :: rest =>
    replicate (o.addr - previousEnd).toNat (ByteExpr.const 0) ++
      (o.os.bytes ++ gather o.addrEnd rest)

/-- The second half of `crete_merge_overlapped_mos`: the object from the first start to the last
    end is allocated among the other objects, and gets back the bytes that were gathered. -/
def mergeInto (remaining : List (MemObj B)) (oldStart oldEnd : UInt64) (values : List B)
    (targetStart targetEnd : UInt64) : Except KleeStop (List (MemObj B) × MemObj B) := do
  let newStart := if oldStart ≤ targetStart then oldStart else targetStart
  let newEnd := if oldEnd ≥ targetEnd then oldEnd else targetEnd
  let newSize ← allocateFixed remaining newStart (newEnd - newStart)
  let os ← (zeroed newSize).writeN (oldStart - newStart).toUInt32 values
  return (bindObject remaining ⟨newStart, os, false⟩, ⟨newStart, os, false⟩)

/-- The assertion that no overlapped object is symbolic. -/
def overlappedWithSymbolics : KleeStop :=
  .assertion ("!state.isSymbolics(*it) && " ++
    "\"[CRETE ERROR] The given MO is overlapped with symbolics MO\\n\"")

/-- **`crete_merge_overlapped_mos`**: the objects, and the one that has the range. -/
def mergeOverlappedMos (order : PointerOrder B) (objs : List (MemObj B)) (addr size : UInt64) :
    Except KleeStop (List (MemObj B) × MemObj B) :=
  match findOverlapObjects order objs addr size with
  | [] => .error (.assertion "!overlapped_mos.empty() && \"No overlapped MO for the given MO.\\n\"")
  | front :: others =>
    if front.addr ≤ addr ∧ addr + size ≤ front.addrEnd then do
      ensure (others = []) (.assertion "overlapped_mos.size() == 1")
      return (objs, front)
    else do
      ensure (∀ o ∈ front :: others, o.symbolic = false) overlappedWithSymbolics
      let ordered := (front :: others).mergeSort fun o o' => o.addr ≤ o'.addr
      let oldStart := (ordered.headD front).addr
      let oldEnd := (ordered.getLastD front).addrEnd
      let values := gather oldStart ordered
      ensure ((oldEnd - oldStart).toNat = values.length)
        (.assertion "old_mos_size == old_os_value.size()")
      mergeInto (objs.filter fun o => !overlaps addr size o) oldStart oldEnd values addr
        (addr + size)

/-! ## 2. The bytes that are gathered -/

section Rows

omit [ByteExpr B]

/-- Objects in order, from an address on. -/
structure Row (prev : Nat) (l : List (MemObj B)) : Prop where
  sorted : l.Pairwise fun o o' => o.stop ≤ o'.addr.toNat
  ends : ∀ o ∈ l, o.Ends
  from' : ∀ o ∈ l, prev ≤ o.addr.toNat

/-- Where the last object ends. -/
def rowEnd (prev : Nat) (l : List (MemObj B)) : Nat := l.getLast?.elim prev MemObj.stop

theorem Row.tail {prev : Nat} {o : MemObj B} {l : List (MemObj B)} (h : Row prev (o :: l)) :
    Row o.stop l :=
  ⟨(pairwise_cons.1 h.sorted).2, (forall_mem_cons.1 h.ends).2, (pairwise_cons.1 h.sorted).1⟩

theorem exists_stop_eq_rowEnd {l : List (MemObj B)} (prev : Nat) (hne : l ≠ []) :
    ∃ o ∈ l, o.stop = rowEnd prev l ∧ ∀ d, l.getLastD d = o := by
  refine ⟨l.getLast hne, getLast_mem hne, ?_, fun d => ?_⟩
  · rw [rowEnd, getLast?_eq_getLast_of_ne_nil hne]
    rfl
  · rw [getLastD_eq_getLast?, getLast?_eq_getLast_of_ne_nil hne]
    rfl

theorem Row.stop_le_rowEnd {prev : Nat} {l : List (MemObj B)} (h : Row prev l) {o : MemObj B}
    (ho : o ∈ l) : o.stop ≤ rowEnd prev l := by
  have hne : l ≠ [] := ne_nil_of_mem ho
  rw [rowEnd, getLast?_eq_getLast_of_ne_nil hne]
  change o.stop ≤ (l.getLast hne).stop
  have hs := h.sorted
  rw [← dropLast_append_getLast hne] at hs ho
  rcases mem_append.1 ho with ho | ho
  · have hle := (pairwise_append.1 hs).2.2 o ho _ (.head _)
    unfold MemObj.stop at hle ⊢
    omega
  · rw [mem_singleton.1 ho]

end Rows

/-- **What is gathered**: the bytes of the objects, and zeros where there are none. -/
theorem gather_copies : ∀ {l : List (MemObj B)} {prev : UInt64}, Row prev.toNat l →
    prev.toNat + (gather prev l).length = rowEnd prev.toNat l ∧
      Copies (fun x => some ((first (l.map extent) x).getD (ByteExpr.const 0))) prev.toNat
        (gather prev l)
  | [], prev, _ => ⟨rfl, .nil _ _⟩
  | o :: l, prev, h => by
    have hends := h.ends o (.head _)
    have hprev := h.from' o (.head _)
    have hend : o.addrEnd.toNat = o.stop := toNat_addrEnd hends
    have htail : Row o.addrEnd.toNat l := hend ▸ h.tail
    obtain ⟨hlen, hcopies⟩ := gather_copies htail
    have hgap : (o.addr - prev).toNat = o.addr.toNat - prev.toNat :=
      UInt64.toNat_sub_of_le _ _ (le_iff_toNat_le.2 hprev)
    have hstop : o.stop = o.addr.toNat + o.os.bytes.length := by
      rw [bytes_length]
      rfl
    constructor
    · rw [gather, length_append, length_append, length_replicate, hgap]
      have hlast : rowEnd prev.toNat (o :: l) = rowEnd o.addrEnd.toNat l := by
        rw [rowEnd, rowEnd, hend, getLast?_cons]
        cases l.getLast? <;> rfl
      rw [hlast, ← hlen, hend]
      omega
    · -- zeros up to the object, its bytes, and what is gathered behind it
      refine .append (fun i hi => ?_) (.append (fun i hi => ?_) ?_)
      · rw [length_replicate] at hi
        have hnone : first ((o :: l).map extent) (prev.toNat + i) = none := by
          refine first_eq_none.2 fun e he hc => ?_
          obtain ⟨x, hx, rfl⟩ := mem_map.1 he
          have hle : o.addr.toNat ≤ x.addr.toNat := by
            rcases mem_cons.1 hx with rfl | hx
            · exact le_rfl
            · have := (pairwise_cons.1 h.sorted).1 x hx
              unfold MemObj.stop at this
              omega
          have hxc : x.addr.toNat ≤ prev.toNat + i := hc.1
          omega
        rw [hnone, getElem?_replicate_of_lt hi]
        rfl
      · rw [length_replicate, hgap, show prev.toNat + (o.addr.toNat - prev.toNat) + i =
          o.extent.addr + i from (by change _ = o.addr.toNat + i; omega), map_cons,
          first_cons, byteAt_add]
        change o.os.bytes[i]? = some ((((o.os.bytes)[i]?).or _).getD _)
        rw [getElem?_eq_getElem hi]
        rfl
      · rw [length_replicate, hgap, show prev.toNat + (o.addr.toNat - prev.toNat) +
          o.os.bytes.length = o.addrEnd.toNat by omega]
        refine hcopies.congr fun x hx _ => ?_
        have hnot : o.extent.byteAt x = none := by
          rw [byteAt_eq_none]
          intro hc
          have := hc.2
          rw [extent_stop] at this
          omega
        rw [map_cons, first_cons, hnot, Option.none_or]

/-- **What is kept of the objects `across` while they are put together**: their bytes from the
    first to the last, and zeros between them. -/
structure Gathered (across : List (MemObj B)) (start stop : UInt64) (values : List B) : Prop where
  first : ∃ o ∈ across, o.addr = start
  last : ∃ o ∈ across, o.stop = stop.toNat
  within : ∀ o ∈ across, start.toNat ≤ o.addr.toNat ∧ o.stop ≤ stop.toNat
  length : start.toNat + values.length = stop.toNat
  kept : ∀ o ∈ across, ∀ i < o.size.toNat,
    values[o.addr.toNat - start.toNat + i]? = some (o.os.read8 i)
  zero : ∀ x, start.toNat ≤ x → x < stop.toNat → (∀ o ∈ across, ¬ (o.addr.toNat ≤ x ∧ x < o.stop)) →
      values[x - start.toNat]? = some (ByteExpr.const 0)

theorem Gathered.congr {l l' : List (MemObj B)} (hmem : ∀ o, o ∈ l ↔ o ∈ l') {start stop : UInt64}
    {values : List B} (h : Gathered l start stop values) : Gathered l' start stop values where
  first := by simpa only [hmem] using h.first
  last := by simpa only [hmem] using h.last
  within := by simpa only [hmem] using h.within
  length := h.length
  kept := by simpa only [hmem] using h.kept
  zero := by simpa only [hmem] using h.zero

/-- The objects in a row, gathered. -/
theorem gathered_of_row {o : MemObj B} {l : List (MemObj B)} (h : Row o.addr.toNat (o :: l))
    (d : MemObj B) :
    Gathered (o :: l) o.addr ((o :: l).getLastD d).addrEnd (gather o.addr (o :: l)) := by
  obtain ⟨last, hmem, hstop, hlast⟩ :=
    exists_stop_eq_rowEnd o.addr.toNat (cons_ne_nil o l)
  have hend : ((o :: l).getLastD d).addrEnd.toNat = last.stop := by
    rw [hlast d, toNat_addrEnd (h.ends last hmem)]
  obtain ⟨hlen, hcopies⟩ := gather_copies h
  constructor
  case first => exact ⟨o, .head _, rfl⟩
  case last => exact ⟨last, hmem, hend.symm⟩
  case within =>
    intro x hx
    rw [hend, hstop]
    exact ⟨h.from' x hx, h.stop_le_rowEnd hx⟩
  case length => rw [hlen, hend, hstop]
  case kept =>
    intro x hx i hi
    have hfrom := h.from' x hx
    have hle := h.stop_le_rowEnd hx
    have hxs : x.stop = x.addr.toNat + x.size.toNat := rfl
    rw [hcopies _ (by omega), show o.addr.toNat + (x.addr.toNat - o.addr.toNat + i) =
      x.extent.addr + i from (by change _ = x.addr.toNat + i; omega)]
    have hsorted : ((o :: l).map extent).Pairwise fun e e' => e.stop ≤ e'.addr := by
      rw [pairwise_map]
      refine h.sorted.imp fun {a b} hab => ?_
      rw [extent_stop]
      exact hab
    have hbyte := x.byteAt_extent hi
    dsimp only
    rw [first_eq_of_sorted hsorted (mem_map_of_mem hx) (covers_iff.2 ⟨_, hbyte⟩), hbyte]
    rfl
  case zero =>
    intro x h₁ h₂ hnone
    rw [hend, hstop, ← hlen] at h₂
    have hfirst : Extent.first ((o :: l).map extent) x = none := by
      rw [first_eq_none]
      intro e he hc
      obtain ⟨y, hy, rfl⟩ := mem_map.1 he
      refine hnone y hy ⟨hc.1, ?_⟩
      have := hc.2
      rwa [extent_stop] at this
    rw [hcopies _ (by omega), Nat.add_sub_cancel' h₁]
    dsimp only
    rw [hfirst]
    rfl

/-! ## 3. What the merge makes -/

/-- **The object `new` is the range from `addr` on, joined with the objects `across`**: it begins
    and ends with the range or one of them, has their bytes, and zeros where there are none. -/
structure Joined (across : List (MemObj B)) (addr size : Nat) (new : MemObj B) : Prop where
  addr_le : new.addr.toNat ≤ addr ∧ ∀ o ∈ across, new.addr.toNat ≤ o.addr.toNat
  addr_eq : new.addr.toNat = addr ∨ ∃ o ∈ across, o.addr = new.addr
  le_stop : addr + size ≤ new.stop ∧ ∀ o ∈ across, o.stop ≤ new.stop
  stop_eq : new.stop = addr + size ∨ ∃ o ∈ across, o.stop = new.stop
  plain : new.symbolic = false ∧ new.os.readOnly = false
  kept : ∀ o ∈ across, ∀ i < o.size.toNat,
    new.os.read8 (o.addr.toNat - new.addr.toNat + i) = o.os.read8 i
  zero : ∀ x, new.addr.toNat ≤ x → x < new.stop →
    (∀ o ∈ across, ¬ (o.addr.toNat ≤ x ∧ x < o.stop)) →
      new.os.read8 (x - new.addr.toNat) = ByteExpr.const 0

section Merge

variable {order : PointerOrder B} {objs : List (MemObj B)} {addr size : UInt64}

/-- **One object has all of the range.** -/
theorem merge_covered (htidy : Tidy objs) (hsize : size.toNat < 2 ^ 32) {o : MemObj B}
    (ho : o ∈ objs) (hover : overlaps addr size o = true)
    (hcov : o.addr.toNat ≤ addr.toNat ∧ addr.toNat + size.toNat ≤ o.stop) :
    mergeOverlappedMos order objs addr size = .ok (objs, o) := by
  obtain ⟨hT, hends, -, -⟩ := (overlaps_iff hsize).1 hover
  have hunique : ∀ o' ∈ findOverlapObjects order objs addr size, o' = o := by
    intro o' ho'
    obtain ⟨hm, hover'⟩ := (mem_findOverlapObjects order).1 ho'
    obtain ⟨-, hends', h₁, h₂⟩ := (overlaps_iff hsize).1 hover'
    by_contra hne
    rcases htidy.off hm ho hne hends' hends with h | h
    · omega
    · omega
  have hpair : (findOverlapObjects order objs addr size).Pairwise fun o o' => o.addr ≠ o'.addr :=
    (Tidy.perm (Pairwise.filter _ htidy) (order.2 _).symm).imp And.left
  have hlist : findOverlapObjects order objs addr size = [o] := by
    cases hl : findOverlapObjects order objs addr size with
    | nil =>
      have := (mem_findOverlapObjects order).2 ⟨ho, hover⟩
      rw [hl] at this
      cases this
    | cons o₁ rest =>
      rw [hl] at hunique hpair
      have h₁ := hunique o₁ (.head _)
      cases rest with
      | nil => rw [h₁]
      | cons o₂ rest =>
        have h₂ := hunique o₂ (.tail _ (.head _))
        have hne := (pairwise_cons.1 hpair).1 o₂ (.head _)
        rw [h₁, h₂] at hne
        exact absurd rfl hne
  have hcond : o.addr ≤ addr ∧ addr + size ≤ o.addrEnd := by
    rw [le_iff_toNat_le, le_iff_toNat_le, toNat_add_size hT, toNat_addrEnd hends]
    exact hcov
  rw [mergeOverlappedMos, hlist]
  simp only [hcond, and_self, if_true, ensure_bind]
  rfl

/-- **No object has all of the range, but a symbolic one overlaps it.** -/
theorem merge_symbolic (hsize : size.toNat < 2 ^ 32)
    (hcov : ∀ o ∈ objs, overlaps addr size o = true →
      ¬ (o.addr.toNat ≤ addr.toNat ∧ addr.toNat + size.toNat ≤ o.stop))
    {o : MemObj B} (ho : o ∈ objs) (hover : overlaps addr size o = true)
    (hsym : o.symbolic = true) :
    mergeOverlappedMos order objs addr size = .error overlappedWithSymbolics := by
  obtain ⟨front, others, hl⟩ := exists_front order ⟨o, ho, hover⟩
  have hmem : ∀ x, x ∈ front :: others ↔ x ∈ objs ∧ overlaps addr size x = true := by
    intro x
    rw [← hl, mem_findOverlapObjects]
  obtain ⟨hf, hfo⟩ := (hmem front).1 (.head _)
  have hall : ¬ ∀ x ∈ front :: others, x.symbolic = false := by
    intro h
    have := h o ((hmem o).2 ⟨ho, hover⟩)
    rw [hsym] at this
    exact Bool.noConfusion this
  rw [mergeOverlappedMos, hl]
  dsimp only
  rw [if_neg (not_covers hsize hfo (hcov front hf hfo)), ensure_bind, if_neg hall]

/-- **What the merge makes is shorter than `2 ^ 32`**: the range and any two objects it overlaps. -/
def Narrow (objs : List (MemObj B)) (addr size : UInt64) : Prop :=
  ∀ o ∈ objs, overlaps addr size o = true → ∀ o' ∈ objs, overlaps addr size o' = true →
    max (addr.toNat + size.toNat) o'.stop < min addr.toNat o.addr.toNat + 2 ^ 32

section Into

variable {oldStart oldEnd : UInt64} {values : List B}

/-- Where the new object is. -/
structure Spans (addr size oldStart oldEnd newStart newEnd : UInt64) : Prop where
  target : (addr + size).toNat = addr.toNat + size.toNat
  old : oldStart.toNat < addr.toNat + size.toNat ∧ addr.toNat < oldEnd.toNat
  start : newStart.toNat = min oldStart.toNat addr.toNat
  stop : newEnd.toNat = max oldEnd.toNat (addr.toNat + size.toNat)
  size : (newEnd - newStart).toNat = newEnd.toNat - newStart.toNat
  offset : (oldStart - newStart).toUInt32.toNat = oldStart.toNat - newStart.toNat

variable (htidy : Tidy objs) (hsize : size.toNat < 2 ^ 32)
  (h : Gathered (objs.filter (overlaps addr size)) oldStart oldEnd values)

include h

theorem Gathered.narrow_iff {newStart newEnd : UInt64}
    (hs : Spans addr size oldStart oldEnd newStart newEnd) :
    Narrow objs addr size ↔ newEnd.toNat < newStart.toNat + 2 ^ 32 := by
  rw [hs.start, hs.stop]
  constructor
  · intro hn
    obtain ⟨a, ha, hastart⟩ := h.first
    obtain ⟨b, hb, hbstop⟩ := h.last
    obtain ⟨ha, hao⟩ := mem_filter.1 ha
    obtain ⟨hb, hbo⟩ := mem_filter.1 hb
    have := hn a ha hao b hb hbo
    rw [hastart] at this
    omega
  · intro hlt o ho hoo o' ho' hoo'
    have h₁ := (h.within o (mem_filter.2 ⟨ho, hoo⟩)).1
    have h₂ := (h.within o' (mem_filter.2 ⟨ho', hoo'⟩)).2
    omega

include hsize

theorem Gathered.spans :
    Spans addr size oldStart oldEnd (if oldStart ≤ addr then oldStart else addr)
      (if oldEnd ≥ addr + size then oldEnd else addr + size) := by
  obtain ⟨a, ha, hastart⟩ := h.first
  obtain ⟨b, hb, hbstop⟩ := h.last
  obtain ⟨hT, -, ha₁, -⟩ := (overlaps_iff hsize).1 (mem_filter.1 ha).2
  obtain ⟨-, -, -, hb₂⟩ := (overlaps_iff hsize).1 (mem_filter.1 hb).2
  have htarget := toNat_add_size hT
  have hstart : (if oldStart ≤ addr then oldStart else addr).toNat =
      min oldStart.toNat addr.toNat := by
    split
    · next h => exact (Nat.min_eq_left (le_iff_toNat_le.1 h)).symm
    · next h =>
        rw [le_iff_toNat_le] at h
        omega
  have hstop : (if oldEnd ≥ addr + size then oldEnd else addr + size).toNat =
      max oldEnd.toNat (addr.toNat + size.toNat) := by
    split
    · next h =>
        have := le_iff_toNat_le.1 h
        omega
    · next h =>
        rw [ge_iff_le, le_iff_toNat_le] at h
        omega
  rw [hastart] at ha₁
  refine ⟨htarget, ⟨ha₁, hbstop ▸ hb₂⟩, hstart, hstop, ?_, ?_⟩
  · exact UInt64.toNat_sub_of_le _ _ (le_iff_toNat_le.2 (by omega))
  · rw [toNat_toUInt32, UInt64.toNat_sub_of_le _ _ (le_iff_toNat_le.2 (by omega))]
    exact Nat.mod_eq_of_lt (by omega)

/-- An object of `2 ^ 32` bytes or more: its size is cut, and the bytes gathered have no room. -/
theorem mergeInto_wide (hn : ¬ Narrow objs addr size) :
    ∃ e, mergeInto (objs.filter fun o => !overlaps addr size o) oldStart oldEnd values addr
        (addr + size) = .error e := by
  have hs := h.spans hsize
  rw [h.narrow_iff hs] at hn
  obtain ⟨a, ha, hastart⟩ := h.first
  obtain ⟨b, hb, hbstop⟩ := h.last
  obtain ⟨-, -, -, ha₂⟩ := (overlaps_iff hsize).1 (mem_filter.1 ha).2
  obtain ⟨-, -, hb₁, -⟩ := (overlaps_iff hsize).1 (mem_filter.1 hb).2
  have hasize := a.size.toNat_lt
  have hbsize := b.size.toNat_lt
  unfold mergeInto
  generalize (if oldStart ≤ addr then oldStart else addr) = newStart at hs hn ⊢
  generalize (if oldEnd ≥ addr + size then oldEnd else addr + size) = newEnd at hs hn ⊢
  dsimp only
  rw [allocateFixed, ensure_bind]
  split
  · obtain ⟨htarget, hold, hstart, hstop, hdiff, hoffset⟩ := hs
    have hlen := h.length
    have hnew : (newEnd - newStart).toUInt32.toNat = (newEnd.toNat - newStart.toNat) % 2 ^ 32 := by
      rw [toNat_toUInt32, hdiff]
    rw [pure_bind, writeN_bad]
    · exact ⟨_, rfl⟩
    · -- the first offset that is neither before the bytes nor in the object
      refine ⟨max ((newEnd.toNat - newStart.toNat) % 2 ^ 32) (oldStart.toNat - newStart.toNat) -
        (oldStart.toNat - newStart.toNat), ?_, ?_⟩
      · unfold MemObj.stop at ha₂ hbstop
        rw [hastart] at ha₂
        omega
      · rw [UInt32.lt_iff_toNat_lt, UInt32.toNat_add, hoffset]
        change ¬ _ < (newEnd - newStart).toUInt32.toNat
        rw [hnew, UInt32.toNat_ofNat']
        omega
  · exact ⟨_, rfl⟩

include htidy

/-- The new object overlaps none of the others. -/
theorem not_isOverlappedMO {newStart newEnd : UInt64}
    (hs : Spans addr size oldStart oldEnd newStart newEnd)
    (hlt : newEnd.toNat < newStart.toNat + 2 ^ 32) :
    isOverlappedMO (objs.filter fun o => !overlaps addr size o) newStart (newEnd - newStart) =
      false := by
  obtain ⟨a, ha, hastart⟩ := h.first
  obtain ⟨b, hb, hbstop⟩ := h.last
  have hT := ((overlaps_iff hsize).1 (mem_filter.1 ha).2).1
  have hstart := hs.start
  have hstop := hs.stop
  rw [isOverlappedMO, any_eq_false]
  intro o ho hover
  obtain ⟨ho, hnot⟩ := mem_filter.1 ho
  rw [Bool.not_eq_true'] at hnot
  rw [overlaps_iff (by rw [hs.size]; omega), hs.size] at hover
  obtain ⟨-, hends, ho₁, ho₂⟩ := hover
  have hoff : o.stop ≤ newStart.toNat ∨ newEnd.toNat ≤ o.addr.toNat := by
    refine off_of_not_overlaps htidy hsize hT ?_ ?_ ho hnot hends
    · rcases Nat.le_total oldStart.toNat addr.toNat with hle | hle
      · exact .inr ⟨a, ha, by rw [hastart]; omega⟩
      · exact .inl (by omega)
    · rcases Nat.le_total oldEnd.toNat (addr.toNat + size.toNat) with hle | hle
      · exact .inl (by omega)
      · exact .inr ⟨b, hb, by omega⟩
  omega

/-- The new object, of less than `2 ^ 32` bytes. -/
theorem mergeInto_ok [LawfulByteExpr B] (hn : Narrow objs addr size) :
    ∃ new, mergeInto (objs.filter fun o => !overlaps addr size o) oldStart oldEnd values addr
        (addr + size) = .ok (bindObject (objs.filter fun o => !overlaps addr size o) new, new) ∧
      Joined (objs.filter (overlaps addr size)) addr.toNat size.toNat new := by
  have hs := h.spans hsize
  have hlt := (h.narrow_iff hs).1 hn
  have hfree := not_isOverlappedMO htidy hsize h hs hlt
  unfold mergeInto
  generalize (if oldStart ≤ addr then oldStart else addr) = newStart at hs hlt hfree ⊢
  generalize (if oldEnd ≥ addr + size then oldEnd else addr + size) = newEnd at hs hlt hfree ⊢
  have hstart := hs.start
  have hstop := hs.stop
  have hlen := h.length
  have hnew : (newEnd - newStart).toUInt32.toNat = newEnd.toNat - newStart.toNat := by
    rw [toNat_toUInt32, hs.size]
    exact Nat.mod_eq_of_lt (by omega)
  obtain ⟨os, hos, hw⟩ : ∃ os, (zeroed (newEnd - newStart).toUInt32).writeN
      (oldStart - newStart).toUInt32 values = .ok os ∧
      (zeroed (newEnd - newStart).toUInt32).Wrote
        (oldStart - newStart).toUInt32.toNat values os := by
    refine writeN_ok ?_
    change _ ≤ (newEnd - newStart).toUInt32.toNat
    rw [hs.offset, hnew]
    omega
  rw [hs.offset] at hw
  have hnewstop : (MemObj.mk newStart os false).stop = newEnd.toNat := by
    change newStart.toNat + os.size.toNat = _
    rw [hw.size]
    change newStart.toNat + (newEnd - newStart).toUInt32.toNat = _
    rw [hnew]
    omega
  refine ⟨⟨newStart, os, false⟩, ?_, ?_⟩
  · dsimp only
    rw [allocateFixed, ensure_bind, if_pos hfree, pure_bind, hos]
    rfl
  · constructor
    case addr_le =>
      refine ⟨hstart ▸ Nat.min_le_right _ _, fun o ho => ?_⟩
      have := (h.within o ho).1
      dsimp only
      omega
    case addr_eq =>
      obtain ⟨a, ha, hastart⟩ := h.first
      rcases Nat.le_total oldStart.toNat addr.toNat with hle | hle
      · refine .inr ⟨a, ha, hastart.trans (UInt64.toNat_inj.1 ?_)⟩
        dsimp only
        omega
      · refine .inl ?_
        dsimp only
        omega
    case le_stop =>
      rw [hnewstop]
      refine ⟨hstop ▸ Nat.le_max_right _ _, fun o ho => ?_⟩
      have := (h.within o ho).2
      omega
    case stop_eq =>
      obtain ⟨b, hb, hbstop⟩ := h.last
      rw [hnewstop]
      rcases Nat.le_total oldEnd.toNat (addr.toNat + size.toNat) with hle | hle
      · exact .inl (by omega)
      · exact .inr ⟨b, hb, by omega⟩
    case plain => exact ⟨rfl, hw.readOnly⟩
    case kept =>
      intro o ho i hi
      obtain ⟨h₁, h₂⟩ := h.within o ho
      have hos : o.stop = o.addr.toNat + o.size.toNat := rfl
      have hk : o.addr.toNat - oldStart.toNat + i < values.length := by omega
      have hin := hw.inside _ hk
      rw [show o.addr.toNat - newStart.toNat + i = oldStart.toNat - newStart.toNat +
        (o.addr.toNat - oldStart.toNat + i) by omega]
      change os.read8 _ = _
      rw [hin]
      have hkept := h.kept o ho i hi
      rw [getElem?_eq_getElem hk] at hkept
      exact Option.some.inj hkept
    case zero =>
      intro x hx₁ hx₂ hnone
      rw [hnewstop] at hx₂
      change newStart.toNat ≤ x at hx₁
      change os.read8 (x - newStart.toNat) = _
      by_cases hin : oldStart.toNat ≤ x ∧ x < oldEnd.toNat
      · have hk : x - oldStart.toNat < values.length := by omega
        have hzero := h.zero x hin.1 hin.2 hnone
        rw [getElem?_eq_getElem hk] at hzero
        rw [show x - newStart.toNat = oldStart.toNat - newStart.toNat + (x - oldStart.toNat) by
          omega, hw.inside _ hk]
        exact Option.some.inj hzero
      · rw [hw.outside _ (by omega)]
        exact zeroed_read8

end Into

section Across

variable (htidy : Tidy objs) (hsize : size.toNat < 2 ^ 32)
  (hcov : ∀ o ∈ objs, overlaps addr size o = true →
    ¬ (o.addr.toNat ≤ addr.toNat ∧ addr.toNat + size.toNat ≤ o.stop))
  (hsym : ∀ o ∈ objs, overlaps addr size o = true → o.symbolic = false)

include htidy hsize hcov hsym

/-- **The merge proper**: the overlapped objects are gathered, and the new object is allocated. -/
theorem merge_eq (order : PointerOrder B) (hover : ∃ o ∈ objs, overlaps addr size o = true) :
    ∃ oldStart oldEnd values, Gathered (objs.filter (overlaps addr size)) oldStart oldEnd values ∧
      mergeOverlappedMos order objs addr size =
        mergeInto (objs.filter fun o => !overlaps addr size o) oldStart oldEnd values addr
          (addr + size) := by
  obtain ⟨front, others, hl⟩ := exists_front order hover
  have hfound : (front :: others).Perm (objs.filter (overlaps addr size)) := hl ▸ order.2 _
  have hmem : ∀ o ∈ front :: others, o ∈ objs ∧ overlaps addr size o = true := by
    intro o ho
    exact mem_filter.1 (hfound.subset ho)
  have hall : ∀ o ∈ front :: others, o.symbolic = false :=
    fun o ho => hsym o (hmem o ho).1 (hmem o ho).2
  obtain ⟨hf, hfo⟩ := hmem front (.head _)
  -- the map of the overlapped objects by their addresses
  let ordered := (front :: others).mergeSort fun o o' => o.addr ≤ o'.addr
  have hperm : ordered.Perm (front :: others) := mergeSort_perm _ _
  have haddr : ordered.Pairwise fun o o' => o.addr ≤ o'.addr := by
    refine (pairwise_mergeSort ?_ ?_ (front :: others)).imp fun {o o'} h =>
      of_decide_eq_true h
    · intro a b c h h'
      exact decide_eq_true (UInt64.le_trans (of_decide_eq_true h) (of_decide_eq_true h'))
    · intro a b
      rcases UInt64.le_total a.addr b.addr with h | h <;> simp [h]
  have hends : ∀ o ∈ ordered, o.Ends := by
    intro o ho
    exact ((overlaps_iff hsize).1 (hmem o (hperm.subset ho)).2).2.1
  have hsorted : ordered.Pairwise fun o o' => o.stop ≤ o'.addr.toNat :=
    Tidy.sorted (Tidy.perm (Pairwise.filter _ htidy) (hperm.trans hfound).symm) hends haddr
  obtain ⟨o₁, rest, hcons⟩ : ∃ o₁ rest, ordered = o₁ :: rest :=
    exists_cons_of_ne_nil fun h => cons_ne_nil front others (h ▸ hperm).symm.eq_nil
  have hrow : Row o₁.addr.toNat (o₁ :: rest) := by
    rw [hcons] at hsorted hends haddr
    refine ⟨hsorted, hends, fun o ho => ?_⟩
    rcases mem_cons.1 ho with rfl | ho
    · exact le_rfl
    · exact le_iff_toNat_le.1 ((pairwise_cons.1 haddr).1 o ho)
  have hg := gathered_of_row hrow front
  refine ⟨o₁.addr, ((o₁ :: rest).getLastD front).addrEnd, gather o₁.addr (o₁ :: rest),
    hg.congr fun o => ?_, ?_⟩
  · rw [← hcons]
    exact (hperm.trans hfound).mem_iff
  · have hlen : (((o₁ :: rest).getLastD front).addrEnd - o₁.addr).toNat =
        (gather o₁.addr (o₁ :: rest)).length := by
      have := hg.length
      rw [UInt64.toNat_sub_of_le _ _ (le_iff_toNat_le.2 (by omega))]
      omega
    rw [mergeOverlappedMos, hl]
    dsimp only
    rw [if_neg (not_covers hsize hfo (hcov front hf hfo)), ensure_bind, if_pos hall,
      show ((front :: others).mergeSort fun o o' => decide (o.addr ≤ o'.addr)) = o₁ :: rest
        from hcons, ensure_bind, headD_cons, if_pos hlen]

/-- **The merge, of objects that are not symbolic**: one object in their place. -/
theorem merge_joined [LawfulByteExpr B]
    (hover : ∃ o ∈ objs, overlaps addr size o = true) (hn : Narrow objs addr size) :
    ∃ new, mergeOverlappedMos order objs addr size =
        .ok (bindObject (objs.filter fun o => !overlaps addr size o) new, new) ∧
      Joined (objs.filter (overlaps addr size)) addr.toNat size.toNat new := by
  obtain ⟨oldStart, oldEnd, values, hg, heq⟩ := merge_eq htidy hsize hcov hsym order hover
  rw [heq]
  exact mergeInto_ok htidy hsize hg hn

theorem merge_wide (hover : ∃ o ∈ objs, overlaps addr size o = true)
    (hn : ¬ Narrow objs addr size) : ∃ e, mergeOverlappedMos order objs addr size = .error e := by
  obtain ⟨oldStart, oldEnd, values, hg, heq⟩ := merge_eq htidy hsize hcov hsym order hover
  rw [heq]
  exact mergeInto_wide hsize hg hn

/-! ## 4. An object for a range -/

/-- **The object for a range**: the merged one if there are objects across the range, a new one
    if there are none (`crete_handle_memory_missing`, `crete_sync_memory`). -/
def provide (order : PointerOrder B) (objs : List (MemObj B)) (addr size : UInt64) :
    Except KleeStop (List (MemObj B) × MemObj B) :=
  if isOverlappedMO objs addr size then mergeOverlappedMos order objs addr size
  else do
    let n ← allocateFixed objs addr size
    return (bindObject objs ⟨addr, .zeroed n, false⟩, ⟨addr, .zeroed n, false⟩)

/-- **One object, in the place of those across the range.** -/
theorem provide_joined [LawfulByteExpr B] (order : PointerOrder B) (hn : Narrow objs addr size) :
    ∃ new, provide order objs addr size =
        .ok (bindObject (objs.filter fun o => !overlaps addr size o) new, new) ∧
      Joined (objs.filter (overlaps addr size)) addr.toNat size.toNat new := by
  unfold provide
  by_cases hover : isOverlappedMO objs addr size = true
  · rw [if_pos hover]
    exact merge_joined htidy hsize hcov hsym (isOverlappedMO_iff.1 hover) hn
  · have hnone : ∀ o ∈ objs, overlaps addr size o = false := by
      intro o ho
      rw [Bool.eq_false_iff]
      exact fun h => hover (isOverlappedMO_iff.2 ⟨o, ho, h⟩)
    have hacross : objs.filter (overlaps addr size) = [] :=
      filter_eq_nil_iff.2 fun o ho => by rw [hnone o ho]; exact Bool.noConfusion
    have hrest : (objs.filter fun o => !overlaps addr size o) = objs :=
      filter_eq_self.2 fun o ho => by rw [hnone o ho]; rfl
    have hstop : (MemObj.mk addr (.zeroed size.toUInt32) false : MemObj B).stop =
        addr.toNat + size.toNat := by
      change addr.toNat + size.toUInt32.toNat = _
      rw [toNat_toUInt32, Nat.mod_eq_of_lt hsize]
    rw [if_neg hover, allocateFixed, ensure_bind, if_pos (Bool.eq_false_iff.2 hover), pure_bind,
      hacross, hrest]
    refine ⟨_, rfl, ?_⟩
    constructor
    case addr_le => exact ⟨le_rfl, forall_mem_nil _⟩
    case addr_eq => exact .inl rfl
    case le_stop => exact ⟨Nat.le_of_eq hstop.symm, forall_mem_nil _⟩
    case stop_eq => exact .inl hstop
    case plain => exact ⟨rfl, rfl⟩
    case kept => exact forall_mem_nil _
    case zero => exact fun _ _ _ _ => zeroed_read8

/-- The new object would have `2 ^ 32` bytes or more. -/
theorem provide_wide (hn : ¬ Narrow objs addr size) :
    ∃ e, provide order objs addr size = .error e := by
  have hover : ∃ o ∈ objs, overlaps addr size o = true := by
    by_contra hnone
    exact hn fun o ho h => absurd ⟨o, ho, h⟩ hnone
  rw [provide, if_pos (isOverlappedMO_iff.2 hover)]
  exact merge_wide htidy hsize hcov hsym hover hn

end Across

theorem Joined.addr_toNat_eq {across : List (MemObj B)} {a n : Nat} {new : MemObj B}
    (h : Joined across a n new) :
    new.addr.toNat = a ∨ ∃ o ∈ across, o.addr.toNat = new.addr.toNat := by
  rcases h.addr_eq with e | ⟨o, ho, e⟩
  · exact .inl e
  · exact .inr ⟨o, ho, by rw [e]⟩

section Bound

variable {new : MemObj B} (htidy : Tidy objs) (hsize : size.toNat < 2 ^ 32)
  (h : Joined (objs.filter (overlaps addr size)) addr.toNat size.toNat new)

include htidy hsize h

/-- The new object is off every object that stays. -/
theorem Joined.off (hT : addr.toNat + size.toNat < 2 ^ 64) {o : MemObj B} (ho : o ∈ objs)
    (hnot : overlaps addr size o = false) (hends : o.Ends) :
    o.stop ≤ new.addr.toNat ∨ new.stop ≤ o.addr.toNat :=
  off_of_not_overlaps htidy hsize hT h.addr_toNat_eq h.stop_eq ho hnot hends

/-- **The objects stay tidy.** -/
theorem Joined.tidy : Tidy (bindObject (objs.filter fun o => !overlaps addr size o) new) := by
  refine Tidy.bind (Pairwise.filter _ htidy) fun o ho _ hnew hends => ?_
  obtain ⟨ho, hnot⟩ := mem_filter.1 ho
  rw [Bool.not_eq_true'] at hnot
  exact (h.off htidy hsize (Nat.lt_of_le_of_lt h.le_stop.1 hnew) ho hnot hends).symm

end Bound

end Merge

end Crete.Klee
