/-
  File:      Crete/Proc/Maps.lean
  Subject:   The maps of a process, condensed to one per binary (lib/proc-reader/proc_reader.cpp).

  `condense` keeps one map for each path and widens it by every further map of the path. The two
  ends are widened one after the other, each from the range as it was before: where a map reaches
  out at both ends at once, the new begin is overwritten by the old one.

  * `Condensed` -- one entry for each path, from the least begin to the greatest end.
  * `Notices`, `Noticed` -- the maps of which the begin is taken over: the first of a path, and
    those that end no later than some map of the path before.
  * `Stored`, **`condense_stored`** -- what is stored after the maps so far.
  * **`condense_condensed_iff`** -- the result is condensed exactly if the least begin of every path
    is noticed; `condense_slips` is a map around another. `condensed_of_ascending` -- maps in the
    order of their addresses.
-/
import Mathlib.Data.UInt
import Mathlib.Order.Bounds.Basic

namespace Crete.Proc

open List

/-! ## 1. The maps -/

/-- `class ProcMap`. -/
structure ProcMap where
  address : UInt64 × UInt64
  perms : List UInt8
  offset : UInt64
  devNum : List UInt8
  inode : UInt64
  path : List UInt8
  deriving DecidableEq, Repr

/-- `set_address`. -/
def ProcMap.setAddress (pm : ProcMap) (address : UInt64 × UInt64) : ProcMap := { pm with address }

/-- The stored map `pm` meets another map of its path, at `addr`. -/
def ProcMap.widen (pm : ProcMap) (addr : UInt64 × UInt64) : ProcMap :=
  let stored := pm.address
  let pm := if stored.1 > addr.1 then pm.setAddress (addr.1, stored.2) else pm
  if stored.2 < addr.2 then pm.setAddress (stored.1, addr.2) else pm

/-- The loop of `condense`, for one map. The keys of `cmaps` are the paths of its values, and its
    values are kept in the order of their keys. -/
def absorb (cmaps : List ProcMap) (m : ProcMap) : List ProcMap :=
  if m.path = [] then cmaps
  else if ∃ pm ∈ cmaps, pm.path = m.path then
    cmaps.map fun pm => if pm.path = m.path then pm.widen m.address else pm
  else cmaps.orderedInsert (fun a b => a.path ≤ b.path) m

/-- `condense`. -/
def condense (maps : List ProcMap) : List ProcMap := maps.foldl absorb []

/-! ## 2. What is wanted, and what is stored -/

/-- The maps of one path. -/
def ofPath (maps : List ProcMap) (path : List UInt8) : Set ProcMap :=
  {m | m ∈ maps ∧ m.path = path}

/-- **One entry for each path**, and it reaches over all maps of the path. -/
structure Condensed (maps cmaps : List ProcMap) : Prop where
  nodup : (cmaps.map ProcMap.path).Nodup
  paths : ∀ p, p ∈ cmaps.map ProcMap.path ↔ p ≠ [] ∧ p ∈ maps.map ProcMap.path
  least : ∀ r ∈ cmaps, IsLeast ((fun m => m.address.1) '' ofPath maps r.path) r.address.1
  greatest : ∀ r ∈ cmaps, IsGreatest ((fun m => m.address.2) '' ofPath maps r.path) r.address.2

/-- The begin of `x` is taken over, after the maps `before`: `x` is the first of its path, or it
    ends no later than another map of the path. -/
def Notices (before : List ProcMap) (x : ProcMap) : Prop :=
  (∀ y ∈ before, y.path ≠ x.path) ∨ ∃ y ∈ before, y.path = x.path ∧ x.address.2 ≤ y.address.2

/-- A map of the list is noticed where it stands. -/
def Noticed (maps : List ProcMap) (x : ProcMap) : Prop :=
  ∃ pre post, maps = pre ++ x :: post ∧ Notices pre x

/-- The noticed maps of one path. -/
def noticedOf (maps : List ProcMap) (path : List UInt8) : Set ProcMap :=
  {x | Noticed maps x ∧ x.path = path}

/-- **What is stored after the maps so far**: the least of the noticed begins, and the greatest
    end. -/
structure Stored (maps cmaps : List ProcMap) : Prop where
  nodup : (cmaps.map ProcMap.path).Nodup
  paths : ∀ p, p ∈ cmaps.map ProcMap.path ↔ p ≠ [] ∧ p ∈ maps.map ProcMap.path
  least : ∀ r ∈ cmaps, IsLeast ((fun m => m.address.1) '' noticedOf maps r.path) r.address.1
  greatest : ∀ r ∈ cmaps, IsGreatest ((fun m => m.address.2) '' ofPath maps r.path) r.address.2

section Concat

variable {maps cmaps : List ProcMap} {m : ProcMap} {p : List UInt8}

theorem ofPath_concat_ne (h : m.path ≠ p) : ofPath (maps ++ [m]) p = ofPath maps p := by
  ext x
  simp only [ofPath, mem_append, mem_singleton, Set.mem_ofPred_eq]
  constructor
  · intro hx
    obtain ⟨hx | rfl, hp⟩ := hx
    · exact ⟨hx, hp⟩
    · exact absurd hp h
  · exact fun hx => ⟨.inl hx.1, hx.2⟩

theorem ofPath_concat_self : ofPath (maps ++ [m]) m.path = insert m (ofPath maps m.path) := by
  ext x
  simp only [ofPath, mem_append, mem_singleton, Set.mem_ofPred_eq, Set.mem_insert_iff]
  constructor
  · intro hx
    obtain ⟨hx | rfl, hp⟩ := hx
    · exact .inr ⟨hx, hp⟩
    · exact .inl rfl
  · intro hx
    obtain rfl | hx := hx
    · exact ⟨.inr rfl, rfl⟩
    · exact ⟨.inl hx.1, hx.2⟩

/-- One more map: it is noticed or not, and the maps before stay as they were. -/
theorem noticed_concat {x : ProcMap} :
    Noticed (maps ++ [m]) x ↔ Noticed maps x ∨ x = m ∧ Notices maps m := by
  constructor
  · intro h
    obtain ⟨pre, post, heq, hx⟩ := h
    rcases eq_nil_or_concat post with rfl | ⟨post', z, rfl⟩
    · obtain ⟨rfl, hm⟩ := append_inj' heq rfl
      cases hm
      exact .inr ⟨rfl, hx⟩
    · rw [concat_eq_append, ← cons_append, ← append_assoc] at heq
      obtain ⟨rfl, -⟩ := append_inj' heq rfl
      exact .inl ⟨pre, post', rfl, hx⟩
  · intro h
    obtain ⟨pre, post, rfl, hx⟩ | ⟨rfl, hx⟩ := h
    · exact ⟨pre, post ++ [m], by simp, hx⟩
    · exact ⟨maps, [], rfl, hx⟩

/-- A map of another path, or one that is not noticed, does not count. -/
theorem noticedOf_concat_of_not (h : ¬ (m.path = p ∧ Notices maps m)) :
    noticedOf (maps ++ [m]) p = noticedOf maps p := by
  ext x
  simp only [noticedOf, noticed_concat, Set.mem_ofPred_eq]
  constructor
  · intro hx
    obtain ⟨hx | ⟨rfl, hn⟩, hp⟩ := hx
    · exact ⟨hx, hp⟩
    · exact absurd ⟨hp, hn⟩ h
  · exact fun hx => ⟨.inl hx.1, hx.2⟩

theorem noticedOf_concat_self (h : Notices maps m) :
    noticedOf (maps ++ [m]) m.path = insert m (noticedOf maps m.path) := by
  ext x
  simp only [noticedOf, noticed_concat, Set.mem_ofPred_eq, Set.mem_insert_iff]
  constructor
  · intro hx
    obtain ⟨hx | ⟨rfl, -⟩, hp⟩ := hx
    · exact .inr ⟨hx, hp⟩
    · exact .inl rfl
  · intro hx
    obtain rfl | hx := hx
    · exact ⟨.inr ⟨rfl, h⟩, rfl⟩
    · exact ⟨.inl hx.1, hx.2⟩

end Concat

/-! ## 3. One map -/

section Order

/-- The least of a set with one more member. -/
theorem isLeast_insert {s : Set UInt64} {a b : UInt64} (h : IsLeast s b) :
    IsLeast (insert a s) (if b > a then a else b) := by
  split
  · rename_i hlt
    refine ⟨Set.mem_insert a s, fun c hc => ?_⟩
    obtain rfl | hc := hc
    · exact UInt64.le_refl _
    · exact UInt64.le_trans (UInt64.le_of_lt hlt) (h.2 hc)
  · rename_i hle
    refine ⟨Set.mem_insert_of_mem a h.1, fun c hc => ?_⟩
    obtain rfl | hc := hc
    · exact UInt64.not_lt.1 hle
    · exact h.2 hc

/-- The greatest of a set with one more member. -/
theorem isGreatest_insert {s : Set UInt64} {a b : UInt64} (h : IsGreatest s b) :
    IsGreatest (insert a s) (if b < a then a else b) := by
  split
  · rename_i hlt
    refine ⟨Set.mem_insert a s, fun c hc => ?_⟩
    obtain rfl | hc := hc
    · exact UInt64.le_refl _
    · exact UInt64.le_trans (h.2 hc) (UInt64.le_of_lt hlt)
  · rename_i hle
    refine ⟨Set.mem_insert_of_mem a h.1, fun c hc => ?_⟩
    obtain rfl | hc := hc
    · exact UInt64.not_lt.1 hle
    · exact h.2 hc

end Order

/-- **The widened range**: the begin is the old one again if the end moves. -/
theorem widen_address (pm : ProcMap) (addr : UInt64 × UInt64) : (pm.widen addr).address =
      (if pm.address.2 < addr.2 then pm.address.1
        else if pm.address.1 > addr.1 then addr.1 else pm.address.1,
      if pm.address.2 < addr.2 then addr.2 else pm.address.2) := by
  unfold ProcMap.widen ProcMap.setAddress
  by_cases h1 : pm.address.1 > addr.1 <;> by_cases h2 : pm.address.2 < addr.2 <;> simp [h1, h2]

@[simp] theorem widen_path (pm : ProcMap) (addr : UInt64 × UInt64) :
    (pm.widen addr).path = pm.path := by
  unfold ProcMap.widen ProcMap.setAddress
  dsimp only
  split <;> split <;> rfl

section Step

variable {maps cmaps : List ProcMap} {m : ProcMap}

section

variable (h : Stored maps cmaps)

include h

/-- What is stored under other paths stays. -/
theorem Stored.other {r : ProcMap} (hr : r ∈ cmaps) (hne : m.path ≠ r.path) :
    IsLeast ((fun m => m.address.1) '' noticedOf (maps ++ [m]) r.path) r.address.1 ∧
      IsGreatest ((fun m => m.address.2) '' ofPath (maps ++ [m]) r.path) r.address.2 := by
  rw [noticedOf_concat_of_not fun hc => hne hc.1, ofPath_concat_ne hne]
  exact ⟨h.least r hr, h.greatest r hr⟩

/-- A map without a path is passed over. -/
theorem Stored.nameless (hm : m.path = []) : Stored (maps ++ [m]) cmaps := by
  have hne : ∀ r ∈ cmaps, m.path ≠ r.path := by
    intro r hr he
    exact ((h.paths r.path).1 (mem_map_of_mem hr)).1 (he.symm.trans hm)
  refine ⟨h.nodup, fun p => ?_, fun r hr => (h.other hr (hne r hr)).1,
    fun r hr => (h.other hr (hne r hr)).2⟩
  rw [h.paths, map_append, mem_append, map_singleton, mem_singleton, hm]
  exact ⟨fun hp => ⟨hp.1, .inl hp.2⟩, fun hp => ⟨hp.1, hp.2.resolve_right hp.1⟩⟩

/-- The first map of a path is entered. -/
theorem Stored.first (hm : m.path ≠ []) (hnew : ¬ ∃ pm ∈ cmaps, pm.path = m.path) :
    Stored (maps ++ [m]) (cmaps.orderedInsert (fun a b => a.path ≤ b.path) m) := by
  have hperm := perm_orderedInsert (fun a b : ProcMap => a.path ≤ b.path) m cmaps
  have hpath : m.path ∉ cmaps.map ProcMap.path := fun hc => by
    obtain ⟨pm, hpm, he⟩ := mem_map.1 hc
    exact hnew ⟨pm, hpm, he⟩
  have hfirst : ∀ y ∈ maps, y.path ≠ m.path := fun y hy he =>
    hpath ((h.paths m.path).2 ⟨hm, mem_map.2 ⟨y, hy, he⟩⟩)
  have hnone : ofPath maps m.path = ∅ := by
    refine Set.eq_empty_of_forall_notMem fun x hx => ?_
    exact hfirst x hx.1 hx.2
  have hnone' : noticedOf maps m.path = ∅ := by
    refine Set.eq_empty_of_forall_notMem fun x hx => ?_
    obtain ⟨⟨pre, post, rfl, -⟩, hp⟩ := hx
    exact hfirst x (by simp) hp
  refine ⟨?_, fun p => ?_, fun r hr => ?_, fun r hr => ?_⟩
  · rw [(hperm.map ProcMap.path).nodup_iff, map_cons, nodup_cons]
    exact ⟨hpath, h.nodup⟩
  · rw [(hperm.map ProcMap.path).mem_iff, map_cons, mem_cons, h.paths, map_append,
      mem_append, map_singleton, mem_singleton]
    constructor
    · intro hp
      obtain rfl | hp := hp
      · exact ⟨hm, .inr rfl⟩
      · exact ⟨hp.1, .inl hp.2⟩
    · intro hp
      obtain ⟨hp, hin | rfl⟩ := hp
      · exact .inr ⟨hp, hin⟩
      · exact .inl rfl
  · obtain rfl | hr := mem_cons.1 (hperm.mem_iff.1 hr)
    · rw [noticedOf_concat_self (.inl hfirst), hnone', insert_empty_eq, Set.image_singleton]
      exact ⟨rfl, fun c hc => hc ▸ UInt64.le_refl _⟩
    · exact (h.other hr fun he => hnew ⟨r, hr, he.symm⟩).1
  · obtain rfl | hr := mem_cons.1 (hperm.mem_iff.1 hr)
    · rw [ofPath_concat_self, hnone, insert_empty_eq, Set.image_singleton]
      exact ⟨rfl, fun c hc => hc ▸ UInt64.le_refl _⟩
    · exact (h.other hr fun he => hnew ⟨r, hr, he.symm⟩).2

/-- A further map of a path is noticed if it ends no later than the stored range. -/
theorem Stored.notices_iff {pm : ProcMap} (hpm : pm ∈ cmaps)
    (he : pm.path = m.path) : Notices maps m ↔ ¬ pm.address.2 < m.address.2 := by
  obtain ⟨⟨y, hy, hye⟩, hupper⟩ := h.greatest pm hpm
  have hye : y.address.2 = pm.address.2 := hye
  rw [UInt64.not_lt]
  constructor
  · intro hn
    obtain hn | ⟨z, hz, hzp, hze⟩ := hn
    · exact absurd (hy.2.trans he) (hn y hy.1)
    · exact UInt64.le_trans hze (hupper ⟨z, ⟨hz, hzp.trans he.symm⟩, rfl⟩)
  · exact fun hle => .inr ⟨y, hy.1, hy.2.trans he, hye ▸ hle⟩

/-- **A further map of a path** widens what is stored. -/
theorem Stored.again {pm : ProcMap} (hpm : pm ∈ cmaps) (he : pm.path = m.path) :
    Stored (maps ++ [m])
      (cmaps.map fun pm => if pm.path = m.path then pm.widen m.address else pm) := by
  have hpaths : (cmaps.map fun pm => if pm.path = m.path then pm.widen m.address else pm).map
      ProcMap.path = cmaps.map ProcMap.path := by
    rw [map_map]
    refine map_congr_left fun r _ => ?_
    rw [Function.comp_apply]
    split
    · exact widen_path r m.address
    · rfl
  have hnew : m.path ∈ maps.map ProcMap.path :=
    ((h.paths m.path).1 (mem_map.2 ⟨pm, hpm, he⟩)).2
  have hentry : ∀ r ∈ cmaps.map fun pm => if pm.path = m.path then pm.widen m.address else pm,
      IsLeast ((fun m => m.address.1) '' noticedOf (maps ++ [m]) r.path) r.address.1 ∧
        IsGreatest ((fun m => m.address.2) '' ofPath (maps ++ [m]) r.path) r.address.2 := by
    intro r hr
    obtain ⟨q, hq, rfl⟩ := mem_map.1 hr
    by_cases hqm : q.path = m.path
    case neg =>
      rw [if_neg hqm]
      exact h.other hq fun hc => hqm hc.symm
    rw [if_pos hqm, widen_path, widen_address, hqm]
    have hleast := h.least q hq
    have hgreatest := h.greatest q hq
    rw [hqm] at hleast hgreatest
    refine ⟨?_, ?_⟩
    · by_cases hlt : q.address.2 < m.address.2
      · have hn : ¬ Notices maps m := fun hc => (h.notices_iff hq hqm).1 hc hlt
        rw [noticedOf_concat_of_not fun hc => hn hc.2]
        simpa only [if_pos hlt] using hleast
      · rw [noticedOf_concat_self ((h.notices_iff hq hqm).2 hlt), Set.image_insert_eq]
        simpa only [if_neg hlt] using isLeast_insert hleast
    · rw [ofPath_concat_self, Set.image_insert_eq]
      exact isGreatest_insert hgreatest
  refine ⟨by rw [hpaths]; exact h.nodup, fun p => ?_, fun r hr => (hentry r hr).1,
    fun r hr => (hentry r hr).2⟩
  rw [hpaths, h.paths, map_append, mem_append, map_singleton, mem_singleton]
  constructor
  · exact fun hp => ⟨hp.1, .inl hp.2⟩
  · intro hp
    obtain ⟨hp, hin | rfl⟩ := hp
    · exact ⟨hp, hin⟩
    · exact ⟨hp, hnew⟩

/-- **One turn of the loop.** -/
theorem Stored.absorb (m : ProcMap) : Stored (maps ++ [m]) (absorb cmaps m) := by
  unfold Proc.absorb
  by_cases hm : m.path = []
  · rw [if_pos hm]
    exact h.nameless hm
  rw [if_neg hm]
  by_cases hex : ∃ pm ∈ cmaps, pm.path = m.path
  · rw [if_pos hex]
    obtain ⟨pm, hpm, he⟩ := hex
    exact h.again hpm he
  · rw [if_neg hex]
    exact h.first hm hex

end

end Step

/-! ## 4. The loop -/

/-- **`condense` stores the least noticed begin and the greatest end of every path.** -/
theorem condense_stored (maps : List ProcMap) : Stored maps (condense maps) := by
  induction maps using reverseRecOn with
  | nil => exact ⟨.nil, fun p => by simp [condense], by simp [condense], by simp [condense]⟩
  | append_singleton maps m ih =>
    rw [condense, foldl_append]
    exact ih.absorb m

/-- A begin at or below every begin of its path is taken over. -/
theorem condensed_of_noticed {maps : List ProcMap} (hall : ∀ m ∈ maps, m.path ≠ [] →
      ∃ x, Noticed maps x ∧ x.path = m.path ∧ x.address.1 ≤ m.address.1) :
    Condensed maps (condense maps) := by
  have h := condense_stored maps
  refine ⟨h.nodup, h.paths, fun r hr => ?_, h.greatest⟩
  obtain ⟨⟨x, hx, hxr⟩, hlower⟩ := h.least r hr
  have hmem : x ∈ ofPath maps r.path := by
    obtain ⟨⟨pre, post, rfl, -⟩, hp⟩ := hx
    exact ⟨by simp, hp⟩
  refine ⟨⟨x, hmem, hxr⟩, fun c hc => ?_⟩
  obtain ⟨m, hm, rfl⟩ := hc
  have hpath : m.path ≠ [] := by
    rw [hm.2]
    exact ((h.paths r.path).1 (mem_map_of_mem hr)).1
  obtain ⟨y, hy, hyp, hle⟩ := hall m hm.1 hpath
  exact UInt64.le_trans (hlower ⟨y, ⟨hy, hyp.trans hm.2⟩, rfl⟩) hle

/-- **`condense` does what it is for** exactly if no begin lies below the noticed ones of its
    path. -/
theorem condense_condensed_iff (maps : List ProcMap) :
    Condensed maps (condense maps) ↔ ∀ m ∈ maps, m.path ≠ [] →
      ∃ x, Noticed maps x ∧ x.path = m.path ∧ x.address.1 ≤ m.address.1 := by
  refine ⟨fun hc m hm hpath => ?_, condensed_of_noticed⟩
  have h := condense_stored maps
  obtain ⟨r, hr, hrp⟩ := mem_map.1 ((h.paths m.path).2 ⟨hpath, mem_map_of_mem hm⟩)
  obtain ⟨⟨x, hx, hxr⟩, -⟩ := h.least r hr
  have hxr : x.address.1 = r.address.1 := hxr
  refine ⟨x, hx.1, hx.2.trans hrp, ?_⟩
  rw [hxr]
  exact (hc.least r hr).2 ⟨m, ⟨hm, hrp.symm⟩, rfl⟩

/-- Two maps of one binary, the second around the first: the begin of the second is lost. -/
theorem condense_slips : condense [⟨(10, 20), [], 0, [], 0, [47]⟩, ⟨(5, 30), [], 0, [], 0, [47]⟩] =
        [⟨(10, 30), [], 0, [], 0, [47]⟩] ∧
      ¬ Condensed [⟨(10, 20), [], 0, [], 0, [47]⟩, ⟨(5, 30), [], 0, [], 0, [47]⟩]
        (condense [⟨(10, 20), [], 0, [], 0, [47]⟩, ⟨(5, 30), [], 0, [], 0, [47]⟩]) := by
  have heq : condense [⟨(10, 20), [], 0, [], 0, [47]⟩, ⟨(5, 30), [], 0, [], 0, [47]⟩] =
      [⟨(10, 30), [], 0, [], 0, [47]⟩] := by decide
  refine ⟨heq, fun h => ?_⟩
  rw [heq] at h
  have hle := (h.least _ (mem_singleton_self _)).2
    ⟨⟨(5, 30), [], 0, [], 0, [47]⟩, ⟨by decide, rfl⟩, rfl⟩
  exact absurd hle (by decide)

/-- Maps of a path that come in the order of their begins, as the kernel lists them, are condensed
    as they should be. -/
theorem condensed_of_ascending {maps : List ProcMap}
    (h : maps.Pairwise fun a b => a.path = b.path → a.address.1 ≤ b.address.1) :
    Condensed maps (condense maps) := by
  refine condensed_of_noticed fun m hm _ => ?_
  obtain ⟨x, hx⟩ : ∃ x, maps.find? (fun y => y.path = m.path) = some x :=
    Option.isSome_iff_exists.1 (find?_isSome.2 ⟨m, hm, by simp⟩)
  obtain ⟨hxp, pre, post, rfl, hpre⟩ := find?_eq_some_iff_append.1 hx
  have hxp : x.path = m.path := by simpa using hxp
  have hpre : ∀ y ∈ pre, y.path ≠ x.path := by simpa [hxp] using hpre
  refine ⟨x, ⟨pre, post, rfl, .inl hpre⟩, hxp, ?_⟩
  obtain hm | hm := mem_append.1 hm
  · exact absurd hxp.symm (hpre m hm)
  · obtain rfl | hm := mem_cons.1 hm
    · exact UInt64.le_refl _
    · exact (pairwise_cons.1 (pairwise_append.1 h).2.1).1 m hm hxp

theorem condensed_of_ascending_two : let maps := [⟨(5, 20), [], 0, [], 0, [47]⟩,
    ⟨(10, 30), [], 0, [], 0, [47]⟩]; Condensed maps (condense maps) :=
  condensed_of_ascending (by decide)

end Crete.Proc
