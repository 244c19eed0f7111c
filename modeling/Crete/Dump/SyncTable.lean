/-
  File:      Crete/Dump/SyncTable.lean
  Subject:   What a sync table holds after any number of loads (qemu-1.0/runtime-dump/
             runtime-dump.cpp, `addMemoSyncTableEntry`).

  A table keeps, of every byte that was loaded, the value of the first load. Its entries are the
  chains of overlapping loads, each chain put together into one entry.

  * `Holds t l` -- the table `t` has the bytes of the extents `l`, the first one winning, and
    bridges the addresses that they bridge.
  * **`Holds.add`** -- a new entry keeps that, or the chain it closes has `2 ^ 32` bytes and the
    assertion on the size of the merged entry fails.
  * **`addLoads_represents_iff`** -- the loads are represented exactly if there is no such chain.
-/
import Crete.Lib.Extent
import Crete.Dump.Recorder

namespace Crete.Dump

open Crete.Lib Crete.Lib.Extent List UInt64 Option

/-! ## 1. Loads -/

/-- The arguments of `addMemoSyncTableEntry`. -/
structure MemoLoad where
  addr : UInt64
  size : UInt32
  value : UInt64
  deriving DecidableEq, Repr

/-- `addMemoSyncTableEntry`, on the last table. -/
def addMemoSyncTableEntry (t : MemoSyncTable) (l : MemoLoad) : Except DumpStop MemoSyncTable := do
  ensure (l.size ≤ 8)
    (.assertion "size <= 8 && \"[CRETE ERROR] Data size dumped from qemu is more than 8 bytes!\"")
  let v := (range l.size.toNat).map fun i =>
    ((l.value >>> UInt64.ofNat (i * 8)) &&& 0xff).toUInt8
  addMemoSyncTableEntryInternal l.addr l.size v t

/-- The bytes of an entry. -/
def ConcreteMemoInfo.extent (e : ConcreteMemoInfo) : Extent UInt8 := ⟨e.addr.toNat, e.data⟩

/-- The bytes of a load, lowest first. -/
def MemoLoad.extent (l : MemoLoad) : Extent UInt8 :=
  ⟨l.addr.toNat, leBytes l.size.toNat l.value.toNat⟩

/-- **The table holds the loads**: entries in order of address and without overlaps, as long as
    they say, with the bytes of the first load at each address and no others. -/
structure Represents (t : MemoSyncTable) (loads : List MemoLoad) : Prop where
  disjoint : t.Pairwise fun e e' => e.addr.toNat + e.size.toNat ≤ e'.addr.toNat
  sized : ∀ e ∈ t, e.data.length = e.size.toNat
  bytes : ∀ x, first (t.map (·.extent)) x = first (loads.map (·.extent)) x

/-- A load of 1 to 8 bytes whose end address does not wrap around. -/
structure MemoLoad.Valid (l : MemoLoad) : Prop where
  pos : 1 ≤ l.size
  small : l.size ≤ 8
  noWrap : l.addr.toNat + l.size.toNat < 2 ^ 64

/-! ## 2. The bytes that are copied -/

variable {e : ConcreteMemoInfo}

/-- A copying loop that can read all the bytes copies them. -/
theorem copyBytes_copies {f : UInt64 → Except DumpStop UInt8} {g : Nat → Option UInt8}
    {a b : UInt64} (h : ∀ x : UInt64, a.toNat ≤ x.toNat → x.toNat < b.toNat →
      ∃ y, f x = .ok y ∧ g x.toNat = some y) :
    ∃ bs, copyBytes a b f = .ok bs ∧ bs.length = b.toNat - a.toNat ∧ Copies g a.toNat bs := by
  have haddr : ∀ i < b.toNat - a.toNat, (a + UInt64.ofNat i).toNat = a.toNat + i := by
    intro i hi
    have := b.toNat_lt
    rw [UInt64.toNat_add, toNat_ofNat', Nat.mod_eq_of_lt (a := i) (by omega),
      Nat.mod_eq_of_lt (by omega)]
  refine ⟨(range (b.toNat - a.toNat)).map fun i => (g (a.toNat + i)).getD 0, ?_, ?_, ?_⟩
  · refine mapM_ok fun i hi => ?_
    have hi := mem_range.1 hi
    obtain ⟨y, hf, hg⟩ := h (a + UInt64.ofNat i) (by rw [haddr i hi]; omega)
      (by rw [haddr i hi]; omega)
    rw [hf, ← haddr i hi, hg]
    rfl
  · rw [length_map, length_range]
  · intro i hi
    rw [length_map, length_range] at hi
    obtain ⟨y, -, hg⟩ := h (a + UInt64.ofNat i) (by rw [haddr i hi]; omega)
      (by rw [haddr i hi]; omega)
    rw [haddr i hi] at hg
    rw [getElem?_map, getElem?_range hi, map_some, hg]
    rfl

/-- The offset of an address in a vector. -/
theorem toNat_offset {x addr : UInt64} {n : Nat} (h₁ : addr.toNat ≤ x.toNat)
    (h₂ : x.toNat < addr.toNat + n) (hn : n < 2 ^ 32) :
    (x - addr).toUInt32.toNat = x.toNat - addr.toNat := by
  rw [toNat_toUInt32, UInt64.toNat_sub_of_le _ _ (le_iff_toNat_le.2 h₁)]
  exact Nat.mod_eq_of_lt (by omega)

/-- Reading the new entry. -/
theorem vectorAt_offset {addr x : UInt64} {v : Bytes} (hv : v.length < 2 ^ 32)
    (h₁ : addr.toNat ≤ x.toNat) (h₂ : x.toNat < addr.toNat + v.length) :
    ∃ y, vectorAt v (x - addr).toUInt32 = .ok y ∧
      (Extent.mk addr.toNat v).byteAt x.toNat = some y := by
  have hlt : x.toNat - addr.toNat < v.length := by omega
  refine ⟨v[x.toNat - addr.toNat], ?_, ?_⟩
  · rw [vectorAt, toNat_offset h₁ h₂ hv, getElem?_eq_getElem hlt]
  · rw [byteAt, if_pos h₁, getElem?_eq_getElem hlt]

/-- Reading an existing entry. -/
theorem existingByte_offset (he : e.Ok) {x : UInt64} (hx : e.extent.Covers x.toNat) :
    ∃ y, existingByte e x = .ok y ∧ e.extent.byteAt x.toNat = some y := by
  obtain ⟨h₁, h₂⟩ : e.addr.toNat ≤ x.toNat ∧ x.toNat < e.addr.toNat + e.data.length := hx
  have hsize := e.size.toNat_lt
  have hdata := he.data
  have hv : e.data.length < 2 ^ 32 := by omega
  obtain ⟨y, hok, hy⟩ := vectorAt_offset hv h₁ h₂
  refine ⟨y, ?_, hy⟩
  have hoff : (x - e.addr).toUInt32 < e.size := by
    rw [UInt32.lt_iff_toNat_lt, toNat_offset h₁ h₂ hv]
    omega
  rw [existingByte, ensure_bind, if_pos hoff, hok]

/-! ## 3. The overlapped entries -/

/-- The extents of a table. -/
abbrev extents (t : MemoSyncTable) : List (Extent UInt8) := t.map (·.extent)

/-- **A table as the recorder keeps it**: entries without overlaps, in order of address, none of
    them empty or at the end of the address space. -/
structure Kept (t : MemoSyncTable) : Prop where
  entries : ∀ e ∈ t, e.Ok
  apart : Apart (extents t)
  fits : ∀ e ∈ t, e.extent.stop < 2 ^ 64

theorem Kept.nil : Kept [] :=
  ⟨forall_mem_nil _, .nil, forall_mem_nil _⟩

theorem Kept.sublist {t t' : MemoSyncTable} (h : Kept t) (hs : t'.Sublist t) : Kept t' :=
  ⟨fun e he => h.entries e (hs.subset he), h.apart.sublist (hs.map _),
    fun e he => h.fits e (hs.subset he)⟩

theorem stop_eq (he : e.Ok) : e.extent.stop = e.addr.toNat + e.size.toNat := by
  rw [← he.data]
  rfl

theorem toNat_addrEnd (he : e.Ok) (hfits : e.extent.stop < 2 ^ 64) :
    e.addrEnd.toNat = e.extent.stop := by
  rw [stop_eq he] at hfits ⊢
  rw [ConcreteMemoInfo.addrEnd, UInt64.toNat_add, UInt32.toNat_toUInt64]
  exact Nat.mod_eq_of_lt hfits

/-- The second loop finds the entries across the range. -/
theorem overlapsFrom_eq {addr addrEnd : UInt64} (hlt : addr.toNat < addrEnd.toNat) :
    ∀ {before across after : MemoSyncTable},
    (∀ e ∈ before ++ across, e.Ok ∧ e.extent.stop < 2 ^ 64) →
    (∀ e ∈ before, e.extent.stop ≤ addr.toNat) →
    (∀ e ∈ across, addr.toNat < e.extent.stop ∧ e.extent.addr < addrEnd.toNat) →
    (∀ e ∈ after, addrEnd.toNat ≤ e.extent.addr) →
    overlapsFrom addr addrEnd (before ++ (across ++ after)) = across.map (·.addr)
  | e :: before, across, after, hok, hb, ho, ha => by
    obtain ⟨⟨he, hfits⟩, hok⟩ := forall_mem_cons.1 hok
    obtain ⟨hstop, hb⟩ := forall_mem_cons.1 hb
    have hpos := he.size
    have hend : ¬ (e.addrEnd > addr ∧ e.addr < addrEnd) := by
      rw [gt_iff_lt, lt_iff_toNat_lt, toNat_addrEnd he hfits]
      omega
    have hgo : ¬ e.addr ≥ addrEnd := by
      rw [stop_eq he] at hstop
      rw [ge_iff_le, le_iff_toNat_le]
      omega
    rw [cons_append, overlapsFrom, if_neg hend, if_neg hgo]
    exact overlapsFrom_eq hlt hok hb ho ha
  | [], e :: across, after, hok, hb, ho, ha => by
    obtain ⟨⟨he, hfits⟩, hok⟩ := forall_mem_cons.1 hok
    obtain ⟨⟨hstop, haddr⟩, ho⟩ := forall_mem_cons.1 ho
    have hgo : ¬ e.addr ≥ addrEnd := by
      rw [ge_iff_le, le_iff_toNat_le]
      exact Nat.not_le.2 haddr
    have hend : e.addrEnd > addr ∧ e.addr < addrEnd := by
      rw [gt_iff_lt, lt_iff_toNat_lt, lt_iff_toNat_lt, toNat_addrEnd he hfits]
      exact ⟨hstop, haddr⟩
    have ih : overlapsFrom addr addrEnd ([] ++ (across ++ after)) = across.map (·.addr) :=
      overlapsFrom_eq hlt hok hb ho ha
    rw [nil_append, cons_append, overlapsFrom, if_pos hend, if_neg hgo, map_cons]
    exact congrArg _ ih
  | [], [], [], _, _, _, _ => rfl
  | [], [], e :: after, _, _, _, ha => by
    have haddr : addrEnd ≤ e.addr := le_iff_toNat_le.2 (ha e (.head _))
    have hend : ¬ (e.addrEnd > addr ∧ e.addr < addrEnd) := fun h =>
      absurd h.2 (UInt64.not_lt.2 haddr)
    rw [nil_append, nil_append, overlapsFrom, if_neg hend, if_pos haddr]
    rfl

/-- At most one entry behind those that end before the address begins before it. -/
theorem length_takeWhile_le {addr : UInt64} {before rest : MemoSyncTable}
    (hk : Kept (before ++ rest)) (hr : ∀ e ∈ rest, addr.toNat < e.extent.stop) :
    ((before ++ rest).takeWhile fun e => e.addr < addr).length ≤ before.length + 1 := by
  have htail : (rest.takeWhile fun e => e.addr < addr).length ≤ 1 := by
    cases rest with
    | nil => exact Nat.zero_le 1
    | cons e rest =>
      have hnil : (rest.takeWhile fun e => decide (e.addr < addr)) = [] := by
        cases rest with
        | nil => rfl
        | cons e' rest =>
          have hsort := (hk.sublist (sublist_append_right _ _)).apart.sorted
          have hle : e.extent.stop ≤ e'.extent.addr :=
            (pairwise_cons.1 hsort).1 _ (.head _)
          have hlt := hr e (.head _)
          refine takeWhile_cons_of_neg ?_
          rw [decide_eq_true_eq, lt_iff_toNat_lt]
          exact Nat.not_lt.2 (Nat.le_trans (Nat.le_of_lt hlt) hle)
      rw [takeWhile_cons, hnil]
      split <;> simp
  have hsplit : ((before ++ rest).takeWhile fun e => e.addr < addr).length ≤
      before.length + (rest.takeWhile fun e => e.addr < addr).length := by
    rw [takeWhile_append]
    split
    · rw [length_append]
    · exact Nat.le_trans (IsPrefix.length_le <| takeWhile_prefix _) (Nat.le_add_right _ _)
  omega

/-- **`overlapsMemoSyncEntry` finds the entries across the range.** -/
theorem overlapsMemoSyncEntry_eq {addr : UInt64} {size : UInt32} (hsize : size.toNat ≠ 0)
    (hwrap : addr.toNat + size.toNat < 2 ^ 64) {before across after : MemoSyncTable}
    (hk : Kept (before ++ (across ++ after))) (hb : ∀ e ∈ before, e.extent.stop ≤ addr.toNat)
    (ho : ∀ e ∈ across, addr.toNat < e.extent.stop ∧ e.extent.addr < addr.toNat + size.toNat)
    (ha : ∀ e ∈ after, addr.toNat + size.toNat ≤ e.extent.addr) :
    overlapsMemoSyncEntry addr size (before ++ (across ++ after)) = across.map (·.addr) := by
  have hend : (addr + size.toUInt64).toNat = addr.toNat + size.toNat := by
    rw [UInt64.toNat_add, UInt32.toNat_toUInt64]
    exact Nat.mod_eq_of_lt hwrap
  have hlate : ∀ e ∈ across ++ after, addr.toNat < e.extent.stop := by
    intro e he
    obtain ho' | ha' := mem_append.1 he
    · exact (ho e ho').1
    · have h₁ := ha e ha'
      have h₂ := hk.apart.nonempty _ (mem_map_of_mem (mem_append_right _ he))
      omega
  have hcount := length_takeWhile_le hk hlate
  rw [overlapsMemoSyncEntry, drop_append_of_le_length (by omega)]
  refine overlapsFrom_eq (by rw [hend]; omega) (fun e he => ?_)
    (fun e he => hb e (mem_of_mem_drop he)) (by rwa [hend]) (by rwa [hend])
  have hmem : e ∈ before ++ (across ++ after) := by
    obtain he | he := mem_append.1 he
    · exact mem_append_left _ (mem_of_mem_drop he)
    · exact mem_append_right _ (mem_append_left _ he)
  exact ⟨hk.entries e hmem, hk.fits e hmem⟩

/-! ## 4. The merged entry -/

/-- **A kept table is in order**, and has room for its entries. -/
theorem Kept.tableOk {t : MemoSyncTable} (h : Kept t) : TableOk t where
  entries := h.entries
  sorted := by
    refine (pairwise_map.1 h.apart.sorted).imp_of_mem fun {e e'} he _ hle => ?_
    have hne : e.extent.addr < e.extent.stop := h.apart.nonempty _ (mem_map_of_mem he)
    exact lt_iff_toNat_lt.2 (Nat.lt_of_lt_of_le hne hle)
  count := by
    have := h.apart.length_le (k := 0) (n := 2 ^ 64 - 1) (fun _ _ => Nat.zero_le _) (fun e he => by
      obtain ⟨e', he', rfl⟩ := mem_map.1 he
      exact Nat.le_sub_one_of_lt (h.fits e' he')) (Nat.zero_le _)
    rw [length_map] at this
    omega

theorem Kept.addr_lt {t t' : MemoSyncTable} (h : Kept (t ++ t')) {e e' : ConcreteMemoInfo}
    (he : e ∈ t) (he' : e' ∈ t') : e.addr < e'.addr :=
  (pairwise_append.1 h.tableOk.sorted).2.2 e he e' he'

/-- Looking an entry up, and erasing it. -/
theorem find_erase {before rest : MemoSyncTable} (h : Kept (before ++ e :: rest)) :
    (before ++ e :: rest).find? (fun x => x.addr = e.addr) = some e ∧
      (before ++ e :: rest).eraseP (fun x => x.addr = e.addr) = before ++ rest := by
  have hne : ∀ x ∈ before, ¬ decide (x.addr = e.addr) = true := by
    intro x hx
    rw [decide_eq_true_eq]
    exact UInt64.ne_of_lt (h.addr_lt hx (.head _))
  constructor
  · rw [find?_append, find?_eq_none.2 hne, none_or]
    exact find?_cons_of_pos (decide_eq_true rfl)
  · rw [eraseP_append_right _ hne]
    exact congrArg _ (eraseP_cons_of_pos (decide_eq_true rfl))

/-- The state of the loop before the entries `rest` of those across the range of `c`. -/
structure Folding (before across after rest : MemoSyncTable) (c : Extent UInt8) (start : Nat)
    (s : MergeState) : Prop where
  table : s.table = before ++ (rest ++ after)
  suffix : rest <:+ across
  current : s.current.toNat = start + s.value.length
  value : Copies (first (extents across ++ [c])) start s.value
  done : ∀ e ∈ across, e ∈ rest ∨ e.extent.stop ≤ s.current.toNat
  next : ∀ e ∈ rest, s.current.toNat ≤ e.extent.addr
  inside : c.addr ≤ s.current.toNat ∨ ∃ e, rest.head? = some e ∧ e.addr = s.current

section Merge

variable {before across after rest : MemoSyncTable} {addr : UInt64} {v : Bytes} {start : Nat}

/-- Where no entry across the range has a byte, the new one has. -/
theorem first_gap {x : Nat} (h : ∀ e ∈ across, ¬ e.extent.Covers x) (c : Extent UInt8) :
    first (extents across ++ [c]) x = c.byteAt x := by
  have hnone : first (extents across) x = none := by
    refine first_eq_none.2 fun e he => ?_
    obtain ⟨e', he', rfl⟩ := mem_map.1 he
    exact h e' he'
  rw [first_append, hnone, none_or, first_cons, first_nil, or_none]

/-- **One overlapped entry.** -/
theorem Folding.step {e : ConcreteMemoInfo} {s : MergeState}
    (hk : Kept (before ++ (across ++ after))) (hv : v.length < 2 ^ 32)
    (ho : e.extent.addr < addr.toNat + v.length ∧ addr.toNat < e.extent.stop)
    (h : Folding before across after (e :: rest) ⟨addr.toNat, v⟩ start s) :
    ∃ s', mergeExisting addr v s e.addr = .ok s' ∧ s'.current.toNat = e.extent.stop ∧
      Folding before across after rest ⟨addr.toNat, v⟩ start s' := by
  have hover : Kept across := hk.sublist
    ((sublist_append_left across after).trans (sublist_append_right before _))
  have heo : e ∈ across := h.suffix.subset (.head _)
  have he := hover.entries e heo
  have hfits := hover.fits e heo
  have hrest : Kept (e :: rest) := hover.sublist h.suffix.sublist
  have hsort : ∀ e' ∈ rest, e.extent.stop ≤ e'.extent.addr := fun e' he' =>
    (pairwise_cons.1 hrest.apart.sorted).1 _ (mem_map_of_mem he')
  have hne : e.extent.addr < e.extent.stop := hrest.apart.nonempty _ (.head _)
  have haddr : e.extent.addr = e.addr.toNat := rfl
  have htable : Kept (before ++ e :: (rest ++ after)) :=
    hk.sublist (Sublist.append_left (h.suffix.sublist.append_right after) before)
  obtain ⟨hfind, herase⟩ := find_erase htable
  have hcur := h.next e (.head _)
  have hle : s.current ≤ e.addr := le_iff_toNat_le.2 hcur
  -- the bytes before the entry come from the new one
  have hgap : ∀ x, s.current.toNat ≤ x → x < e.extent.addr →
      ∀ e' ∈ across, ¬ e'.extent.Covers x := by
    intro x h₁ h₂ e' he' hc
    obtain hr | hd := h.done e' he'
    · obtain rfl | hr := mem_cons.1 hr
      · exact absurd hc.1 (by omega)
      · have := hsort e' hr
        exact absurd hc.1 (by omega)
    · exact absurd hc.2 (by omega)
  obtain ⟨missing, hmiss, hmlen, hmcopy⟩ := copyBytes_copies
    (f := fun x => vectorAt v (x - addr).toUInt32) (g := (Extent.mk addr.toNat v).byteAt)
    (a := s.current) (b := e.addr) fun x h₁ h₂ => by
      refine vectorAt_offset hv ?_ (by omega)
      obtain hin | ⟨e', he', heq⟩ := h.inside
      · exact Nat.le_trans hin h₁
      · cases he'
        rw [heq] at h₂
        omega
  obtain ⟨own, hown, holen, hocopy⟩ := copyBytes_copies
    (f := existingByte e) (g := e.extent.byteAt) (a := e.addr) (b := e.addrEnd) fun x h₁ h₂ =>
      existingByte_offset he ⟨h₁, by rwa [toNat_addrEnd he hfits] at h₂⟩
  rw [toNat_addrEnd he hfits] at holen
  have hmax : max e.addr e.addrEnd = e.addrEnd := by
    refine if_pos (le_iff_toNat_le.2 ?_)
    rw [toNat_addrEnd he hfits]
    exact Nat.le_of_lt hne
  refine ⟨⟨e.addrEnd, s.value ++ missing ++ own, before ++ (rest ++ after)⟩, ?_,
    toNat_addrEnd he hfits, rfl, ?_, ?_, ?_, ?_, ?_, ?_⟩
  · have htab : s.table = before ++ e :: (rest ++ after) := h.table
    unfold mergeExisting
    rw [htab, hfind]
    dsimp only
    rw [ensure_bind, if_pos hle, hmiss, ok_bind, hown, ok_bind, hmax, herase]
    rfl
  · exact (suffix_cons e rest).trans h.suffix
  · dsimp only
    rw [toNat_addrEnd he hfits, length_append, length_append, hmlen, holen]
    have := h.current
    omega
  · refine (h.value.append ?_).append ?_
    · rw [← h.current]
      exact hmcopy.congr fun x h₁ h₂ => (first_gap (hgap x h₁ (by omega)) _).symm
    · have hpos : start + (s.value ++ missing).length = e.addr.toNat := by
        rw [length_append, hmlen]
        have := h.current
        omega
      rw [hpos]
      refine hocopy.congr fun x h₁ h₂ => ?_
      have hx : e.extent.Covers x := ⟨h₁, by omega⟩
      obtain ⟨y, hy⟩ := covers_iff.1 hx
      rw [first_append, first_eq_of_sorted hover.apart.sorted (mem_map_of_mem heo) hx, hy, some_or]
  · intro e' he'
    dsimp only
    rw [toNat_addrEnd he hfits]
    obtain hr | hd := h.done e' he'
    · obtain rfl | hr := mem_cons.1 hr
      · exact .inr le_rfl
      · exact .inl hr
    · exact .inr (by omega)
  · intro e' he'
    dsimp only
    rw [toNat_addrEnd he hfits]
    exact hsort e' he'
  · dsimp only
    rw [toNat_addrEnd he hfits]
    exact .inl (Nat.le_of_lt ho.2)

/-- **All overlapped entries.** -/
theorem Folding.run (hk : Kept (before ++ (across ++ after))) (hv : v.length < 2 ^ 32)
    (ho : ∀ e ∈ across, addr.toNat < e.extent.stop ∧ e.extent.addr < addr.toNat + v.length)
    {s : MergeState} (h : Folding before across after rest ⟨addr.toNat, v⟩ start s) :
    ∃ s', (rest.map (·.addr)).foldlM (mergeExisting addr v) s = .ok s' ∧
      Folding before across after [] ⟨addr.toNat, v⟩ start s' ∧
      ∀ e, rest.getLast? = some e → s'.current.toNat = e.extent.stop := by
  induction rest generalizing s with
  | nil => exact ⟨s, rfl, h, nofun⟩
  | cons e rest ih =>
    have hoe := ho e (h.suffix.subset (.head _))
    obtain ⟨s₁, hs₁, hcur, h₁⟩ := h.step hk hv hoe.symm
    obtain ⟨s', hs', hend, hlast⟩ := ih h₁
    refine ⟨s', ?_, hend, fun e' he' => ?_⟩
    · rw [map_cons, foldlM_cons, hs₁, ok_bind, hs']
    · cases rest with
      | nil =>
        cases hs'
        cases he'
        exact hcur
      | cons e₁ rest =>
        rw [getLast?_cons_cons] at he'
        exact hlast e' he'

end Merge

/-! ## 5. A new entry -/

variable {t : MemoSyncTable} {l : List (Extent UInt8)}

theorem insertEntry_between {before after : MemoSyncTable} (h : Kept (before ++ e :: after)) :
    insertEntry (before ++ after) e = .ok (before ++ e :: after) := by
  have hlen := h.tableOk.count
  have hcons : Kept ([e] ++ after) := h.sublist (sublist_append_right before _)
  rw [length_append, length_cons] at hlen
  rw [insertEntry, if_pos (by rw [length_append]; omega)]
  exact congrArg _ (insertSorted_between (fun x hx => h.addr_lt hx (.head _))
    fun x hx => hcons.addr_lt (.head _) hx)

theorem Kept.find? (h : Kept t) (he : e ∈ t) : t.find? (fun x => x.addr = e.addr) = some e := by
  obtain ⟨t₁, t₂, rfl⟩ := append_of_mem he
  exact (find_erase h).1

/-- The first entry begins first. -/
theorem Kept.head_le (h : Kept t) {e₀ : ConcreteMemoInfo}
    (h₀ : t.head? = some e₀) : ∀ e ∈ t, e₀.extent.addr ≤ e.extent.addr := by
  obtain ⟨t', rfl⟩ := head?_eq_some_iff.1 h₀
  intro e he
  obtain rfl | he := mem_cons.1 he
  · exact le_rfl
  · have hsort : e₀.extent.stop ≤ e.extent.addr :=
      (pairwise_cons.1 h.apart.sorted).1 _ (mem_map_of_mem he)
    have hne : e₀.extent.addr < e₀.extent.stop := h.apart.nonempty _ (.head _)
    omega

/-- The last entry ends last. -/
theorem Kept.le_getLast (h : Kept t) {eₙ : ConcreteMemoInfo}
    (hₙ : t.getLast? = some eₙ) : ∀ e ∈ t, e.extent.stop ≤ eₙ.extent.stop := by
  obtain ⟨t', rfl⟩ := getLast?_eq_some_iff.1 hₙ
  intro e he
  obtain he | he := mem_append.1 he
  · have hsort := h.apart.sorted
    rw [extents, map_append, pairwise_append] at hsort
    have hle : e.extent.stop ≤ eₙ.extent.addr :=
      hsort.2.2 _ (mem_map_of_mem he) _ (.head _)
    have hne : eₙ.extent.addr < eₙ.extent.stop :=
      h.apart.nonempty _ (mem_map_of_mem (mem_append_right _ (.head _)))
    omega
  · obtain rfl := mem_singleton.1 he
    exact le_rfl

section Add

variable {addr addrEnd newAddr newEnd : UInt64} {v : Bytes} {before across after : MemoSyncTable}
  {e₀ eₙ : ConcreteMemoInfo}

/-- **The bytes of the merged entry**, if `e₀` and `eₙ` are the first and the last entry across
    the range: those of the new entry joined with them. -/
theorem merge_joins (hk : Kept (before ++ (across ++ after))) (hv : v.length < 2 ^ 32)
    (ho : ∀ e ∈ across, addr.toNat < e.extent.stop ∧ e.extent.addr < addr.toNat + v.length)
    (h₀ : across.head? = some e₀) (hₙ : across.getLast? = some eₙ)
    (hend : addrEnd.toNat = addr.toNat + v.length)
    (hnewAddr : newAddr.toNat = min e₀.extent.addr addr.toNat)
    (hnewEnd : newEnd.toNat = max eₙ.extent.stop addrEnd.toNat) :
    ∃ s tail, (across.map (·.addr)).foldlM (mergeExisting addr v)
        ⟨newAddr, [], before ++ (across ++ after)⟩ = .ok s ∧
      mergeTail addr addrEnd newEnd v s.current = .ok tail ∧ s.table = before ++ after ∧
      (s.value ++ tail).length = newEnd.toNat - newAddr.toNat ∧
      Joins (extents across) ⟨addr.toNat, v⟩ ⟨newAddr.toNat, s.value ++ tail⟩ := by
  have hover : Kept across := hk.sublist
    ((sublist_append_left across after).trans (sublist_append_right before _))
  have hmin := hover.head_le h₀
  have hmax := hover.le_getLast hₙ
  have hinit : Folding before across after across ⟨addr.toNat, v⟩ newAddr.toNat
      ⟨newAddr, [], before ++ (across ++ after)⟩ := by
    refine ⟨rfl, suffix_refl _, rfl, .nil _ _, fun e he => .inl he, fun e he => ?_, ?_⟩
    · have := hmin e he
      dsimp only
      omega
    · by_cases hlt : addr.toNat ≤ e₀.extent.addr
      · exact .inl (by dsimp only; omega)
      · refine .inr ⟨e₀, h₀, UInt64.toNat.inj ?_⟩
        have : e₀.extent.addr = e₀.addr.toNat := rfl
        dsimp only
        omega
  obtain ⟨s, hs, hfin, hcur⟩ := hinit.run hk hv ho
  have hcur := hcur eₙ hₙ
  have hₙ' := ho eₙ (mem_of_getLast? hₙ)
  have hlate : ∀ x, s.current.toNat ≤ x → ∀ e ∈ across, ¬ e.extent.Covers x := by
    intro x hx e he hc
    have h₁ := hmax e he
    have h₂ := hc.2
    omega
  -- behind the last entry the bytes are those of the new one again
  have htail : ∃ tail, mergeTail addr addrEnd newEnd v s.current = .ok tail ∧
      tail.length = newEnd.toNat - s.current.toNat ∧
      Copies (first (extents across ++ [⟨addr.toNat, v⟩])) s.current.toNat tail := by
    unfold mergeTail
    by_cases hlt : s.current < newEnd
    · have hlt' := lt_iff_toNat_lt.1 hlt
      have hcurEnd : s.current < addrEnd := lt_iff_toNat_lt.2 (by omega)
      obtain ⟨tail, hok, hlen, hcopy⟩ := copyBytes_copies
        (f := fun x => vectorAt v (x - addr).toUInt32) (g := (Extent.mk addr.toNat v).byteAt)
        (a := s.current) (b := addrEnd) fun x h₁ h₂ =>
          vectorAt_offset hv (by omega) (by omega)
      refine ⟨tail, ?_, by omega, hcopy.congr fun x h₁ _ => (first_gap (hlate x h₁) _).symm⟩
      rw [if_pos hlt, ensure_bind, if_pos hcurEnd, hok]
    · have hge : newEnd.toNat ≤ s.current.toNat := le_iff_toNat_le.1 (UInt64.not_lt.1 hlt)
      refine ⟨[], if_neg hlt, ?_, .nil _ _⟩
      rw [length_nil]
      omega
  obtain ⟨tail, htok, htlen, htcopy⟩ := htail
  have hscur := hfin.current
  have hlen : (s.value ++ tail).length = newEnd.toNat - newAddr.toNat := by
    rw [length_append]
    omega
  refine ⟨s, tail, hs, htok, hfin.table, hlen, ?_⟩
  refine (hfin.value.append (by rwa [← hscur])).byteAt_eq fun x hx => ?_
  rw [hlen] at hx
  refine first_eq_none.2 fun e he hc => ?_
  obtain he | he := mem_append.1 he
  · obtain ⟨e', he', rfl⟩ := mem_map.1 he
    have h₁ := hmin e' he'
    have h₂ := hmax e' he'
    have h₃ := hc.1
    have h₄ := hc.2
    omega
  · obtain rfl := mem_singleton.1 he
    obtain ⟨h₃, h₄⟩ : addr.toNat ≤ x ∧ x < addr.toNat + v.length := hc
    omega

end Add

/-- The table has the bytes of the extents, the first one winning, and bridges what they bridge. -/
structure Holds (t : MemoSyncTable) (l : List (Extent UInt8)) : Prop where
  kept : Kept t
  bytes : ∀ x, first (extents t) x = first l x
  bridged : ∀ x, Bridged (extents t) x ↔ Bridged l x

/-- **The extents are held in the end, or they are not short.** -/
abbrev HoldsOr (l : List (Extent UInt8)) (x : Except DumpStop MemoSyncTable) : Prop :=
  ReturnsOr (¬ Short (2 ^ 32) l) x (Holds · l)

theorem Kept.holds (h : Kept t) : Holds t (extents t) :=
  ⟨h, fun _ => rfl, fun _ => Iff.rfl⟩

/-- A cut of the extents is one of the entries. -/
theorem Kept.exists_cut (h : Kept t) (a b : Nat) :
    ∃ before across after, t = before ++ (across ++ after) ∧
      Cut a b (extents t) (extents before) (extents across) (extents after) := by
  obtain ⟨bs, os, as, hcut⟩ := Extent.exists_cut h.apart a b
  obtain ⟨before, t₁, rfl, rfl, h₁⟩ := map_eq_append_iff.1 hcut.eq
  obtain ⟨across, after, rfl, rfl, rfl⟩ := map_eq_append_iff.1 h₁
  exact ⟨before, across, after, rfl, hcut⟩

/-- An entry in the place of those it was joined with. -/
theorem Holds.join {t before across after : MemoSyncTable}
    {c : Extent UInt8} (h : Holds t l) (hc : c.addr < c.stop)
    (heq : t = before ++ (across ++ after))
    (hcut : Cut c.addr c.stop (extents t) (extents before) (extents across) (extents after))
    (hj : Joins (extents across) c e.extent) (hstop : e.extent.stop < 2 ^ 64)
    (hdata : e.data.length = e.size.toNat) : Holds (before ++ e :: after) (l ++ [c]) := by
  have hmap : extents (before ++ e :: after) = extents before ++ e.extent :: extents after := by
    rw [extents, map_append, map_cons]
  have hne := hj.nonempty hc
  have he : e.Ok := ⟨fun h₀ => by
    rw [h₀] at hdata
    unfold stop ConcreteMemoInfo.extent at hne
    dsimp only at hne
    omega, hdata⟩
  have hmem : ∀ x ∈ before ++ e :: after, x = e ∨ x ∈ t := by
    intro x hx
    rw [heq]
    obtain hx | hx := mem_append.1 hx
    · exact .inr (mem_append_left _ hx)
    · exact (mem_cons.1 hx).imp id fun hx =>
        mem_append_right _ (mem_append_right _ hx)
  refine ⟨⟨fun x hx => ?_, ?_, fun x hx => ?_⟩, fun x => ?_, fun x => ?_⟩
  · obtain rfl | hx := hmem x hx
    · exact he
    · exact h.kept.entries x hx
  · rw [hmap]
    exact hcut.apart_join h.kept.apart hc hj
  · obtain rfl | hx := hmem x hx
    · exact hstop
    · exact h.kept.fits x hx
  · rw [hmap, hcut.first_join hj, first_append, first_append, h.bytes]
  · rw [hmap, hcut.bridged_join hj, bridged_append, bridged_append, h.bridged]

/-- What is bridged by the entry that joins them is bridged by the extents. -/
theorem Holds.not_short {t before across after : MemoSyncTable} {c m : Extent UInt8} (h : Holds t l)
    (hcut : Cut c.addr c.stop (extents t) (extents before) (extents across) (extents after))
    (hj : Joins (extents across) c m) (hlong : 2 ^ 32 ≤ m.data.length) :
    ¬ Short (2 ^ 32) (l ++ [c]) := by
  intro hshort
  have hjoin : Short (2 ^ 32) (extents before ++ m :: extents after) := by
    intro a
    obtain ⟨x, h₁, h₂, hx⟩ := hshort a
    refine ⟨x, h₁, h₂, fun hb => hx ?_⟩
    rw [hcut.bridged_join hj, bridged_append, h.bridged] at hb
    exact bridged_append.2 hb
  have := hjoin.stop_lt (mem_append_right _ (.head _))
  unfold stop at this
  omega

section Cases

variable {t before across after : MemoSyncTable} {l : List (Extent UInt8)} {addr : UInt64}
  {size : UInt32} {v : Bytes}

theorem stop_mk (addr : UInt64) (hv : v.length = size.toNat) :
    (Extent.mk addr.toNat v).stop = addr.toNat + size.toNat := hv ▸ rfl

variable (h : Holds t l) (hsize : size.toNat ≠ 0) (hv : v.length = size.toNat)
  (hwrap : addr.toNat + size.toNat < 2 ^ 64)

include h hsize hv hwrap

/-- Nothing is overlapped. -/
theorem Holds.add_new (heq : t = before ++ ([] ++ after))
    (hcut : Cut addr.toNat (Extent.mk addr.toNat v).stop (extents t) (extents before) (extents [])
      (extents after)) (hover : overlapsMemoSyncEntry addr size t = []) :
    HoldsOr (l ++ [⟨addr.toNat, v⟩]) (addMemoSyncTableEntryInternal addr size v t) := by
  have hstop := stop_mk addr hv
  have hj : Joins (extents []) ⟨addr.toNat, v⟩ (ConcreteMemoInfo.mk addr size v).extent := by
    intro x
    change _ = first [⟨addr.toNat, v⟩] x
    rw [first_cons, first_nil, or_none]
    rfl
  have hnew := h.join (c := ⟨addr.toNat, v⟩) (e := ⟨addr, size, v⟩) (by dsimp only; omega) heq
    hcut hj (Nat.lt_of_le_of_lt (Nat.le_of_eq hstop) hwrap) hv
  refine .inl ⟨_, ?_, hnew⟩
  rw [addMemoSyncTableEntryInternal, ensure_bind, if_pos hv, hover, heq]
  exact insertEntry_between hnew.kept

/-- Some entries are overlapped. -/
theorem Holds.add_merged (heq : t = before ++ (across ++ after))
    (hcut : Cut addr.toNat (Extent.mk addr.toNat v).stop (extents t) (extents before)
      (extents across) (extents after))
    (hne : across ≠ []) (hover : overlapsMemoSyncEntry addr size t = across.map (·.addr))
    (hnone : overlapsMemoSyncEntry addr size (before ++ after) = []) :
    HoldsOr (l ++ [⟨addr.toNat, v⟩]) (addMemoSyncTableEntryInternal addr size v t) := by
  have hstop := stop_mk addr hv
  have hk : Kept (before ++ (across ++ after)) := heq ▸ h.kept
  have hvlt : v.length < 2 ^ 32 := by
    rw [hv]
    exact size.toNat_lt
  have hend : (addr + size.toUInt64).toNat = addr.toNat + v.length := by
    rw [UInt64.toNat_add, UInt32.toNat_toUInt64, hv]
    exact Nat.mod_eq_of_lt hwrap
  obtain ⟨e₀, others, rfl⟩ := exists_cons_of_ne_nil hne
  obtain ⟨eₙ, hₙ⟩ : ∃ eₙ, (e₀ :: others).getLast? = some eₙ :=
    ⟨_, getLast?_eq_some_getLast hne⟩
  have hmem : eₙ ∈ t := by
    rw [heq]
    exact mem_append_right _ (mem_append_left _ (mem_of_getLast? hₙ))
  have heₙ := h.kept.entries eₙ hmem
  have hlastEnd := toNat_addrEnd heₙ (h.kept.fits eₙ hmem)
  have ho : ∀ e ∈ e₀ :: others,
      addr.toNat < e.extent.stop ∧ e.extent.addr < addr.toNat + v.length := by
    intro e he
    have := hcut.across _ (mem_map_of_mem he)
    rwa [hstop, ← hv] at this
  -- what the function computes before the loop
  have hlast : (e₀.addr :: others.map (·.addr)).getLast (cons_ne_nil _ _) = eₙ.addr := by
    have : ((e₀ :: others).map (·.addr)).getLast? = some eₙ.addr := by
      rw [getLast?_map, hₙ, map_some]
    exact Option.some.inj ((getLast?_eq_some_getLast _).symm.trans this)
  have hfind : ((t.find? fun e => e.addr = eₙ.addr).elim 0 (·.size)) = eₙ.size := by
    rw [h.kept.find? hmem]
    rfl
  generalize hnewAddr : (if e₀.addr < addr then e₀.addr else addr) = newAddr
  generalize hnewEnd : (if eₙ.addrEnd > addr + size.toUInt64 then eₙ.addrEnd
    else addr + size.toUInt64) = newEnd
  have hA : newAddr.toNat = min e₀.extent.addr addr.toNat := by
    rw [← hnewAddr]
    have : e₀.extent.addr = e₀.addr.toNat := rfl
    split
    · next hlt =>
      have := lt_iff_toNat_lt.1 hlt
      omega
    · next hlt =>
      have := le_iff_toNat_le.1 (UInt64.not_lt.1 hlt)
      omega
  have hE : newEnd.toNat = max eₙ.extent.stop (addr + size.toUInt64).toNat := by
    rw [← hnewEnd, ← hlastEnd]
    split
    · next hlt =>
      have := lt_iff_toNat_lt.1 hlt
      omega
    · next hlt =>
      have := le_iff_toNat_le.1 (UInt64.not_lt.1 hlt)
      omega
  obtain ⟨s, tail, hs, htail, htab, hlen, hj⟩ := merge_joins hk hvlt ho rfl hₙ hend hA hE
  have hsize' : (newEnd - newAddr).toUInt32.toNat = (s.value ++ tail).length % 2 ^ 32 := by
    rw [toNat_toUInt32, UInt64.toNat_sub_of_le _ _ (le_iff_toNat_le.2 (by omega)), hlen]
  have hadd : addMemoSyncTableEntryInternal addr size v t =
      (if (s.value ++ tail).length = (newEnd - newAddr).toUInt32.toNat then
        insertEntry (before ++ after) ⟨newAddr, (newEnd - newAddr).toUInt32, s.value ++ tail⟩
      else .error (.assertion "new_merged_value.size() == new_merged_size")) := by
    have hcons : overlapsMemoSyncEntry addr size t = e₀.addr :: others.map (·.addr) := hover
    rw [addMemoSyncTableEntryInternal, ensure_bind, if_pos hv, hcons]
    dsimp only
    have hsum : eₙ.addr + eₙ.size.toUInt64 = eₙ.addrEnd := rfl
    rw [hlast, hfind, hnewAddr, hsum, hnewEnd]
    change (((e₀ :: others).map (·.addr)).foldlM (mergeExisting addr v) ⟨newAddr, [], t⟩ >>= _) = _
    rw [heq, hs, ok_bind, htail, ok_bind, ensure_bind, ensure_bind, htab, if_pos hnone]
  by_cases hshort : (s.value ++ tail).length < 2 ^ 32
  · have hdata : (s.value ++ tail).length = (newEnd - newAddr).toUInt32.toNat := by
      rw [hsize', Nat.mod_eq_of_lt hshort]
    have hfits : newEnd.toNat < 2 ^ 64 := newEnd.toNat_lt
    have hnew := h.join (c := ⟨addr.toNat, v⟩)
      (e := ⟨newAddr, (newEnd - newAddr).toUInt32, s.value ++ tail⟩) (by dsimp only; omega) heq
      hcut hj (by unfold stop ConcreteMemoInfo.extent; dsimp only; omega) hdata
    refine .inl ⟨_, ?_, hnew⟩
    rw [hadd, if_pos hdata]
    exact insertEntry_between hnew.kept
  · refine .inr ⟨⟨.assertion "new_merged_value.size() == new_merged_size", ?_⟩,
      h.not_short hcut hj (Nat.not_lt.1 hshort)⟩
    have hlt : (s.value ++ tail).length % 2 ^ 32 < 2 ^ 32 := Nat.mod_lt _ (by decide)
    rw [hadd, if_neg (by omega)]

/-- **A new entry is added, or closes a chain of `2 ^ 32` bytes.** -/
theorem Holds.add :
    HoldsOr (l ++ [⟨addr.toNat, v⟩]) (addMemoSyncTableEntryInternal addr size v t) := by
  have hstop := stop_mk addr hv
  obtain ⟨before, across, after, heq, hcut⟩ :=
    h.kept.exists_cut addr.toNat (Extent.mk addr.toNat v).stop
  have hk : Kept (before ++ (across ++ after)) := heq ▸ h.kept
  have hb : ∀ e ∈ before, e.extent.stop ≤ addr.toNat := fun e he =>
    hcut.before _ (mem_map_of_mem he)
  have ho : ∀ e ∈ across,
      addr.toNat < e.extent.stop ∧ e.extent.addr < addr.toNat + size.toNat := fun e he =>
    hstop ▸ hcut.across _ (mem_map_of_mem he)
  have ha : ∀ e ∈ after, addr.toNat + size.toNat ≤ e.extent.addr := fun e he =>
    hstop ▸ hcut.after _ (mem_map_of_mem he)
  have hover : overlapsMemoSyncEntry addr size t = across.map (·.addr) := by
    rw [heq]
    exact overlapsMemoSyncEntry_eq hsize hwrap hk hb ho ha
  by_cases hne : across = []
  · subst hne
    exact h.add_new hsize hv hwrap heq hcut hover
  · have hk' : Kept (before ++ ([] ++ after)) :=
      hk.sublist (Sublist.append_left (sublist_append_right across after) before)
    exact h.add_merged hsize hv hwrap heq hcut hne hover
      (overlapsMemoSyncEntry_eq hsize hwrap hk' hb (forall_mem_nil _) ha)

end Cases

/-! ## 6. Any number of entries -/

/-- A table that holds extents is a sign that they are short. -/
theorem Holds.short (h : Holds t l) : Short (2 ^ 32) l := by
  have hlt : ∀ e ∈ extents t, e.stop < e.addr + 2 ^ 32 := by
    intro e he
    obtain ⟨e', he', rfl⟩ := mem_map.1 he
    have hsize := e'.size.toNat_lt
    rw [stop_eq (h.kept.entries e' he')]
    change e'.addr.toNat + _ < e'.addr.toNat + _
    omega
  refine Short.mono (short_of_disjoint (by decide) ?_ hlt) fun x hb => (h.bridged x).2 hb
  exact fun e he e' he' x => h.kept.apart.eq_of_covers he he'

/-- **Adding one extent after the other**: all are held, or they are not short. -/
theorem Holds.foldlM {α : Type} {f : MemoSyncTable → α → Except DumpStop MemoSyncTable}
    {ext : α → Extent UInt8} {xs : List α}
    (hstep : ∀ x ∈ xs, ∀ {t l}, Holds t l → HoldsOr (l ++ [ext x]) (f t x)) (h : Holds t l) :
    HoldsOr (l ++ xs.map ext) (xs.foldlM f t) := by
  induction xs generalizing t l with
  | nil =>
    refine .inl ⟨t, rfl, ?_⟩
    rw [map_nil, append_nil]
    exact h
  | cons x xs ih =>
    obtain ⟨hx, hxs⟩ := forall_mem_cons.1 hstep
    have happ : l ++ (x :: xs).map ext = l ++ [ext x] ++ xs.map ext := append_cons ..
    rw [happ, foldlM_cons]
    exact ((hx h).imp (fun _ => id) fun hlong hs => hlong hs.of_append).bind fun _ => ih hxs

/-! ## 7. Loads -/

/-- The bytes `addMemoSyncTableEntry` takes out of the value are its low bytes. -/
theorem loadBytes_eq {n : Nat} (hn : n ≤ 8) (value : UInt64) :
    ((range n).map fun i => ((value >>> UInt64.ofNat (i * 8)) &&& 0xff).toUInt8) =
      leBytes n value.toNat := by
  refine ext_getElem? fun i => ?_
  by_cases hi : i < n
  · rw [getElem?_leBytes _ hi, getElem?_map, getElem?_range hi, map_some]
    refine congrArg some (UInt8.toNat.inj ?_)
    have hshift : (UInt64.ofNat (i * 8)).toNat % 64 = 8 * i := by
      rw [toNat_ofNat']
      omega
    have hmask : (0xff : UInt64).toNat = 2 ^ 8 - 1 := rfl
    rw [toNat_toUInt8, UInt64.toNat_and, UInt64.toNat_shiftRight, hshift, hmask,
      Nat.and_two_pow_sub_one_eq_mod, Nat.shiftRight_eq_div_pow, UInt8.toNat_ofNat', Nat.pow_mul]
    exact Nat.mod_mod _ _
  · rw [getElem?_eq_none (by simpa using hi), getElem?_eq_none (by simpa using hi)]

/-- A load is an entry of its bytes. -/
theorem addMemoSyncTableEntry_eq {l : MemoLoad} (h : l.Valid) (t : MemoSyncTable) :
    addMemoSyncTableEntry t l = addMemoSyncTableEntryInternal l.addr l.size l.extent.data t := by
  have hsmall : l.size.toNat ≤ 8 := UInt32.le_iff_toNat_le.1 h.small
  rw [addMemoSyncTableEntry, ensure_bind, if_pos h.small]
  dsimp only
  rw [loadBytes_eq hsmall]
  rfl

/-- The loads, one after the other, on an empty table. -/
def addLoads (loads : List MemoLoad) : Except DumpStop MemoSyncTable :=
  loads.foldlM addMemoSyncTableEntry []

/-- All loads are held, or they are not short. -/
theorem addLoads_cases {loads : List MemoLoad} (hvalid : ∀ l ∈ loads, l.Valid) :
    HoldsOr (loads.map (·.extent)) (addLoads loads) := by
  have hstep : ∀ l ∈ loads, ∀ {t : MemoSyncTable} {es : List (Extent UInt8)}, Holds t es →
      HoldsOr (es ++ [l.extent]) (addMemoSyncTableEntry t l) := by
    intro l hl t es ht
    have hl := hvalid l hl
    have hpos : 1 ≤ l.size.toNat := UInt32.le_iff_toNat_le.1 hl.pos
    rw [addMemoSyncTableEntry_eq hl]
    exact ht.add (by omega) (leBytes_length _ _) hl.noWrap
  exact Kept.nil.holds.foldlM hstep

/-- **Loads of 1 to 8 bytes are represented by the table exactly if** no `2 ^ 32` addresses in a
    row are chained by loads that cover two neighbours. -/
theorem addLoads_represents_iff (loads : List MemoLoad) (hvalid : ∀ l ∈ loads, l.Valid) :
    (∃ t, addLoads loads = .ok t ∧ Represents t loads) ↔ Short (2 ^ 32) (loads.map (·.extent)) := by
  refine ⟨fun h => ?_, fun hshort => ?_⟩
  · obtain ⟨t, ht, -⟩ := h
    obtain ⟨t', -, hholds⟩ | ⟨⟨e, he⟩, -⟩ := addLoads_cases hvalid
    · exact hholds.short
    · rw [ht] at he
      cases he
  · obtain ⟨t, ht, hholds⟩ | ⟨-, hlong⟩ := addLoads_cases hvalid
    · refine ⟨t, ht, ?_, fun e he => (hholds.kept.entries e he).data, hholds.bytes⟩
      have hsort := pairwise_map.1 hholds.kept.apart.sorted
      refine hsort.imp_of_mem fun {e e'} he _ hle => ?_
      rwa [stop_eq (hholds.kept.entries e he)] at hle
    · exact absurd hshort hlong

/-- Two loads, the second of which overlaps the end of the first. -/
def twoLoads : List MemoLoad := [⟨16, 4, 0x11223344⟩, ⟨18, 4, 0xaabbccdd⟩]

/-- They are represented. -/
theorem addLoads_represents_two : ∃ t, addLoads twoLoads = .ok t ∧ Represents t twoLoads := by
  refine (addLoads_represents_iff twoLoads fun l hl => ?_).2 fun a => ?_
  · obtain rfl | rfl : l = ⟨16, 4, 0x11223344⟩ ∨ l = ⟨18, 4, 0xaabbccdd⟩ := by
      simpa [twoLoads] using hl
    · exact ⟨by decide, by decide, by decide⟩
    · exact ⟨by decide, by decide, by decide⟩
  · refine ⟨max a 22, le_max_left _ _, by omega, fun hb => ?_⟩
    obtain ⟨e, he, hx, -⟩ := hb
    have hstop : e.stop ≤ 22 := by
      obtain rfl | rfl : e = MemoLoad.extent ⟨16, 4, 0x11223344⟩ ∨
          e = MemoLoad.extent ⟨18, 4, 0xaabbccdd⟩ := by
        simpa [twoLoads] using he
      · decide
      · decide
    have := hx.2
    omega

/-- Loads of eight bytes, each of which begins with the last byte of the one before. -/
def chainedLoads (n : Nat) : List MemoLoad :=
  (range n).map fun i => ⟨UInt64.ofNat (7 * i), 8, 0⟩

theorem chainedLoads_addr {n i : Nat} (hn : n < 2 ^ 32) (hi : i < n) :
    (UInt64.ofNat (7 * i)).toNat = 7 * i := by
  rw [toNat_ofNat']
  exact Nat.mod_eq_of_lt (by omega)

theorem chainedLoads_valid {n : Nat} (hn : n < 2 ^ 32) : ∀ l ∈ chainedLoads n, l.Valid := by
  intro l hl
  obtain ⟨i, hi, rfl⟩ := mem_map.1 hl
  have hi := mem_range.1 hi
  refine ⟨(by decide : (1 : UInt32) ≤ 8), UInt32.le_refl 8, ?_⟩
  change (UInt64.ofNat (7 * i)).toNat + 8 < 2 ^ 64
  rw [chainedLoads_addr hn hi]
  omega

/-- The chain bridges all its addresses. -/
theorem chainedLoads_bridged {n x : Nat} (hn : n < 2 ^ 32) (hx : x < 7 * n) :
    Bridged ((chainedLoads n).map (·.extent)) x := by
  have hi : x / 7 < n := by omega
  refine ⟨MemoLoad.extent ⟨UInt64.ofNat (7 * (x / 7)), 8, 0⟩,
    mem_map_of_mem (mem_map_of_mem (mem_range.2 hi)), ?_⟩
  have haddr := chainedLoads_addr hn hi
  unfold Covers stop MemoLoad.extent
  rw [haddr, leBytes_length]
  change (7 * (x / 7) ≤ x ∧ x < 7 * (x / 7) + 8) ∧ 7 * (x / 7) ≤ x + 1 ∧ x + 1 < 7 * (x / 7) + 8
  omega

/-- A chain of `2 ^ 30` loads reaches beyond 4 GiB, and stops the recorder. -/
theorem addLoads_chained : (∀ l ∈ chainedLoads (2 ^ 30), l.Valid) ∧
    ∃ e, addLoads (chainedLoads (2 ^ 30)) = .error e := by
  have hvalid := chainedLoads_valid (n := 2 ^ 30) (by decide)
  refine ⟨hvalid, ?_⟩
  obtain ⟨t, -, hholds⟩ | ⟨he, -⟩ := addLoads_cases hvalid
  · obtain ⟨x, -, h₂, hx⟩ := hholds.short 0
    exact absurd (chainedLoads_bridged (by decide) (by omega)) hx
  · exact he

end Crete.Dump
