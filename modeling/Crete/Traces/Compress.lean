/-
  File:      Crete/Traces/Compress.lean
  Subject:   Trace compression (lib/include/crete/trace.h, lib/include/crete/util/cycle.h):
             `compress` cuts the ranges that `find_cycles_custom` returns out of a trace and puts a
             hash in the place of each.

  The cut is a partition of the trace when no two returned ranges share a block, and only then:
  `std::copy(bit, range.first, ..)` with `bit` behind `range.first` runs out of the trace.

  Ranges can share a block. `remove_subranges` and `remove_overlapping_ranges` both move their
  iterator past ranges they have not looked at, and ranges found by the recursive search are put
  behind the others without being checked against them.

  * `removeOverlapping_apart` -- if every round goes well, no two ranges share a block.
  * **`compress_partition`** -- compression is a partition exactly when the returned ranges are
    apart, and they are after a search in which none of this happens (`Untangled`).
  * `compress_first` -- where compression returns, the first block is kept.
-/
import Crete.Traces.Graph
import Crete.Traces.Subranges
import Mathlib.Data.List.InsertIdx

namespace Crete.Traces

open Option
open List hiding set

variable {B : Type} [DecidableEq B]

/-! ## 1. Compression -/

/-- The copying loop of `compress`. A copy that begins behind its end leaves the trace. -/
def copyRanges (hash : List B → B) (a : List B) : Nat → List Range → Except Stop (List B)
  | bit, [] => .ok (a.drop bit)
  | bit, r :: cs =>
    if bit ≤ r.1 then do
      let rblocks ← copyRanges hash a r.2 cs
      return (a.take r.1).drop bit ++ hash ((a.take r.2).drop r.1) :: rblocks
    else .error .badAccess

/-- `compress`, on the blocks of a trace; `hash` is `boost::hash_range`. The first block is not
    part of the search. -/
def compress (hash : List B → B) (n : Nat) (u : Unspecified) (a : List B) :
    Option (Except Stop (List B)) :=
  if a = [] then some (.ok a)
  else (findCyclesCustom a n u 1 a.length).map fun cs => copyRanges hash a 0 (sortRanges cs)

/-- A piece of a trace: a block that is copied, or a range that is replaced. -/
inductive Piece (B : Type) where
  | block (b : B)
  | cycle (bs : List B)

/-- The blocks a piece stands for. -/
def Piece.blocks : Piece B → List B
  | .block b => [b]
  | .cycle bs => bs

/-- The entry of the compressed trace for a piece. -/
def Piece.entry (hash : List B → B) : Piece B → B
  | .block b => b
  | .cycle bs => hash bs

/-- Where the replaced ranges lie, if the first piece begins at `pos`. -/
def rangesOf : Nat → List (Piece B) → List Range
  | _, [] => []
  | pos, .block _ :: ps => rangesOf (pos + 1) ps
  | pos, .cycle bs :: ps => (pos, pos + bs.length) :: rangesOf (pos + bs.length) ps

/-- **A partition of the trace**: pieces that make up the trace, with one entry each in the
    compressed trace, whose first is the first block and whose replaced ranges are `cs`. -/
def Partition (hash : List B → B) (a : List B) (cs : List Range) (out : List B) : Prop :=
  ∃ b ps, (Piece.block b :: ps).flatMap Piece.blocks = a ∧
    (Piece.block b :: ps).map (Piece.entry hash) = out ∧ rangesOf 0 (Piece.block b :: ps) = cs

/-- Two ranges share no block. -/
def Apart (x y : Range) : Prop := x.2 ≤ y.1 ∨ y.2 ≤ x.1

/-- A range of the trace behind its first block, and not empty. -/
def Proper (a : List B) (r : Range) : Prop := 1 ≤ r.1 ∧ r.1 < r.2 ∧ r.2 ≤ a.length

/-! ## 2. Cutting out ranges that are apart -/

section Copy

variable {a : List B} {hash : List B → B}

/-- One behind the other, from `pos` on. -/
def InLine : Nat → List Range → Prop
  | _, [] => True
  | pos, r :: cs => pos ≤ r.1 ∧ InLine r.2 cs

omit [DecidableEq B] in
/-- The ranges of pieces lie one behind the other. -/
theorem rangesOf_inLine : ∀ (ps : List (Piece B)) (pos pos' : Nat), pos' ≤ pos →
    InLine pos' (rangesOf pos ps)
  | [], _, _, _ => trivial
  | .block _ :: ps, pos, pos', h => rangesOf_inLine ps (pos + 1) pos' (by omega)
  | .cycle bs :: ps, pos, pos', h => ⟨h, rangesOf_inLine ps _ _ le_rfl⟩

omit [DecidableEq B] in
theorem rangesOf_block_append : ∀ (bs : List B) (pos : Nat) (ps : List (Piece B)),
    rangesOf pos (bs.map Piece.block ++ ps) = rangesOf (pos + bs.length) ps
  | [], pos, ps => rfl
  | b :: bs, pos, ps => by
    rw [map_cons, cons_append, rangesOf, rangesOf_block_append bs, length_cons,
      Nat.add_right_comm, Nat.add_assoc]

omit [DecidableEq B] in
theorem flatMap_block (bs : List B) : (bs.map Piece.block).flatMap Piece.blocks = bs := by
  rw [flatMap_map]
  exact flatMap_singleton' bs

omit [DecidableEq B] in
theorem map_entry_block (bs : List B) : (bs.map Piece.block).map (Piece.entry hash) = bs := by
  rw [List.map_map]
  exact map_id bs

omit [DecidableEq B] in
/-- **The copying loop cuts the rest of the trace into pieces**, if the ranges lie one behind the
    other. -/
theorem copyRanges_pieces (hash : List B → B) (a : List B) : ∀ (cs : List Range) (bit : Nat),
    bit ≤ a.length → InLine bit cs →
    (∀ r ∈ cs, r.1 < r.2 ∧ r.2 ≤ a.length) →
    ∃ ps : List (Piece B), ps.flatMap Piece.blocks = a.drop bit ∧
      copyRanges hash a bit cs = .ok (ps.map (Piece.entry hash)) ∧ rangesOf bit ps = cs
  | [], bit, _, _, _ => by
    refine ⟨(a.drop bit).map Piece.block, flatMap_block _, ?_, ?_⟩
    · rw [copyRanges, map_entry_block]
    · simpa [rangesOf] using rangesOf_block_append (a.drop bit) bit []
  | r :: cs, bit, hbit, hl, hr => by
    obtain ⟨h1, h2⟩ := hr r (.head _)
    obtain ⟨ps, hps, hcopy, hran⟩ := copyRanges_pieces hash a cs r.2 h2 hl.2
      (forall_mem_cons.1 hr).2
    have hlen : ((a.take r.1).drop bit).length = r.1 - bit := by
      rw [length_drop, length_take]
      omega
    have hcyc : ((a.take r.2).drop r.1).length = r.2 - r.1 := by
      rw [length_drop, length_take]
      omega
    refine ⟨((a.take r.1).drop bit).map Piece.block ++
      Piece.cycle ((a.take r.2).drop r.1) :: ps, ?_, ?_, ?_⟩
    · have hcut : (a.take r.2).drop r.1 ++ a.drop r.2 = a.drop r.1 := by
        rw [← drop_append_of_le_length (by rw [length_take]; omega), take_append_drop]
      have hcut' : (a.take r.1).drop bit ++ a.drop r.1 = a.drop bit := by
        rw [← drop_append_of_le_length (by rw [length_take]; have := hl.1; omega), take_append_drop]
      rw [flatMap_append, flatMap_block, flatMap_cons, hps, Piece.blocks, hcut, hcut']
    · rw [copyRanges, if_pos hl.1, hcopy, map_append, map_entry_block, map_cons]
      rfl
    · have hpos : bit + (r.1 - bit) = r.1 := by
        have := hl.1
        omega
      rw [rangesOf_block_append, hlen, hpos, rangesOf, hcyc, Nat.add_sub_of_le (by omega), hran]

instance : Std.Total rangeLe := ⟨fun p q => by unfold rangeLe; omega⟩

instance : IsTrans Range rangeLe := ⟨fun p q r => by unfold rangeLe; omega⟩

instance : Std.Antisymm rangeLe :=
  ⟨fun p q h h' => Prod.ext (by unfold rangeLe at h h'; omega) (by unfold rangeLe at h h'; omega)⟩

theorem mem_sortRanges {cs : List Range} {r : Range} : r ∈ sortRanges cs ↔ r ∈ cs :=
  mem_insertionSort rangeLe

theorem InLine.le : ∀ {cs : List Range} {pos : Nat}, InLine pos cs → (∀ r ∈ cs, r.1 < r.2) →
    ∀ r ∈ cs, pos ≤ r.1
  | [], _, _, _, r, hr => by cases hr
  | s :: cs, pos, hl, hne, r, hr => by
    rcases mem_cons.1 hr with rfl | hr
    · exact hl.1
    · have h1 := InLine.le hl.2 (forall_mem_cons.1 hne).2 r hr
      have h2 := hl.1
      have h3 := hne s (.head _)
      omega

/-- **Sorted ranges lie one behind the other exactly when they are apart.** -/
theorem inLine_iff_apart : ∀ (cs : List Range) (pos : Nat), cs.Pairwise rangeLe →
    (∀ r ∈ cs, pos ≤ r.1 ∧ r.1 < r.2) → (InLine pos cs ↔ cs.Pairwise Apart)
  | [], _, _, _ => by simp [InLine]
  | r :: cs, pos, hs, hr => by
    obtain ⟨hle, hs⟩ := pairwise_cons.1 hs
    have h0 := hr r (.head _)
    have hcs : ∀ s ∈ cs, pos ≤ s.1 ∧ s.1 < s.2 := (forall_mem_cons.1 hr).2
    rw [InLine, pairwise_cons]
    constructor
    · rintro ⟨-, hl⟩
      have hge : ∀ s ∈ cs, r.2 ≤ s.1 := InLine.le hl fun s h => (hcs s h).2
      exact ⟨fun s h => .inl (hge s h),
        (inLine_iff_apart cs r.2 hs fun s h => ⟨hge s h, (hcs s h).2⟩).1 hl⟩
    · rintro ⟨ha, hp⟩
      have hge : ∀ s ∈ cs, r.2 ≤ s.1 := by
        intro s h
        have h1 := hle s h
        have h2 := (hcs s h).2
        have h3 := ha s h
        unfold rangeLe at h1
        unfold Apart at h3
        omega
      exact ⟨h0.1, (inLine_iff_apart cs r.2 hs fun s h => ⟨hge s h, (hcs s h).2⟩).2 hp⟩

omit [DecidableEq B] in
/-- **Compression is a partition exactly when the ranges are apart.** -/
theorem copyRanges_partition_iff (hash : List B → B) {a : List B} (hne : a ≠ [])
    {cs : List Range} (hcs : ∀ r ∈ cs, Proper a r) :
    (∃ out, copyRanges hash a 0 (sortRanges cs) = .ok out ∧
      Partition hash a (sortRanges cs) out) ↔ cs.Pairwise Apart := by
  have hproper : ∀ r ∈ sortRanges cs, Proper a r := fun r hr => hcs r (mem_sortRanges.1 hr)
  have hline := inLine_iff_apart (sortRanges cs) 1 (pairwise_insertionSort rangeLe cs)
    fun r hr => ⟨(hproper r hr).1, (hproper r hr).2.1⟩
  have hperm : (sortRanges cs).Pairwise Apart ↔ cs.Pairwise Apart :=
    (perm_insertionSort rangeLe cs).pairwise_iff fun h => h.symm
  rw [← hperm, ← hline]
  constructor
  · rintro ⟨out, -, b, ps, -, -, hran⟩
    rw [rangesOf] at hran
    exact hran ▸ rangesOf_inLine ps 1 1 (Nat.le_refl 1)
  · intro hl
    obtain ⟨b, bs, rfl⟩ := exists_cons_of_ne_nil hne
    -- the first block is copied; the loop does the rest as if it began behind it
    obtain ⟨ps, hps, hcopy, hran⟩ := copyRanges_pieces hash (b :: bs)
      (sortRanges cs) 1 (by simp) hl fun r hr => (hproper r hr).2
    refine ⟨b :: ps.map (Piece.entry hash), ?_, b, ps, ?_, rfl, ?_⟩
    · cases hc : sortRanges cs with
      | nil =>
        rw [hc] at hcopy
        simp only [copyRanges, Except.ok.injEq] at hcopy ⊢
        rw [← hcopy]
        rfl
      | cons r rs =>
        rw [hc] at hcopy hl
        rw [copyRanges, if_pos hl.1] at hcopy
        rw [copyRanges, if_pos (Nat.zero_le _)]
        cases hrest : copyRanges hash (b :: bs) r.2 rs with
        | error e =>
          rw [hrest] at hcopy
          cases hcopy
        | ok rblocks =>
          rw [hrest] at hcopy
          have hcopy := Except.ok.inj hcopy
          obtain ⟨m, hm⟩ : ∃ m, r.1 = m + 1 := ⟨r.1 - 1, by have := hl.1; omega⟩
          rw [← hcopy, hm]
          rfl
    · rw [flatMap_cons, hps]
      rfl
    · rw [rangesOf, hran]

end Copy

/-! ## 3. Overlapping ranges -/

variable {cs : List Range} {u : Unspecified}

/-- Neither range lies in the other. -/
def Beside (x y : Range) : Prop := x ≠ y ∧ subrange x y = false ∧ subrange y x = false
  deriving Decidable

theorem sortUnique_sorted (cs : List Range) : Sorted (sortUnique cs) := by
  have hs : (sortRanges cs).Pairwise rangeLe := pairwise_insertionSort rangeLe cs
  have hn : (sortUnique cs).Nodup := by
    rw [sortUnique, hs.destutter_eq_dedup]
    exact nodup_dedup _
  have hle : (sortUnique cs).Pairwise rangeLe := hs.sublist (destutter_sublist _ _)
  refine (hle.and hn).imp fun {x y} hxy => ?_
  have hne : ¬ (x.1 = y.1 ∧ x.2 = y.2) := fun e => hxy.2 (Prod.ext e.1 e.2)
  have hle := hxy.1
  unfold rangeLe at hle
  omega

/-- **`remove_subranges` without twins**: no range that is left lies in another. -/
theorem removeSubranges_beside {n : Nat} {res : List Range} (hs : Sorted cs) (ht : NoTwins cs)
    (h : removeSubranges u n 0 0 cs.length cs = some res) : res.Pairwise Beside := by
  rw [removeSubranges_eq hs ht h]
  have hs : (cs.filter (maximal cs)).Pairwise _ := hs.filter _
  refine hs.imp_of_mem fun {x y} hx hy hlt => ⟨fun e => ?_, ?_, ?_⟩
  · rw [e] at hlt
    omega
  · exact maximal_iff.1 (mem_filter.1 hy).2 x (mem_filter.1 hx).1
  · exact maximal_iff.1 (mem_filter.1 hx).2 y (mem_filter.1 hy).1

theorem overlapping_iff {x y : Range} :
    overlapping x y = true ↔ x.1 < y.1 ∧ x.2 < y.2 ∧ y.1 < x.2 := by
  simp [overlapping, and_assoc]

/-- Ranges of which none lies in the other and none overlaps the other share no block. -/
theorem Beside.apart {x y : Range} (h : Beside x y) (hxy : overlapping x y = false)
    (hyx : overlapping y x = false) : Apart x y := by
  obtain ⟨hne, h1, h2⟩ := h
  have hne : ¬ (x.1 = y.1 ∧ x.2 = y.2) := fun e => hne (Prod.ext e.1 e.2)
  rw [← Bool.not_eq_true, subrange_iff] at h1 h2
  rw [← Bool.not_eq_true, overlapping_iff] at hxy hyx
  unfold Apart
  omega

/-- **A round goes well**: when a range gives way, the ranges that `ranges.erase` makes the iterator
    pass over overlap none of those left, and no range that is found in what is left of it lies in
    another or around it. -/
structure GoesWell (ranges : List Range) (i : Nat) (g : Range × Nat) (new : List Range) : Prop where
  passed : new = [] → ∀ x ∈ (ranges.take g.2).drop i, ∀ y ∈ ranges.eraseIdx g.2,
    overlapping x y = false
  beside : (ranges.eraseIdx g.2 ++ new).Pairwise Beside

/-- **`remove_overlapping_ranges`**, if every round goes well: no two ranges that are left share a
    block. Before the iterator no range overlaps another. -/
theorem removeOverlapping_apart {find : Unspecified → Nat → Nat → Option (List Range)} {n : Nat}
    {ranges : List Range} (hb : ranges.Pairwise Beside)
    (hwell : EveryRound find u (fun _ => GoesWell) n 0 ranges 0)
    (h : removeOverlapping find u n 0 ranges 0 = some cs) : cs.Pairwise Apart := by
  have hend := removeOverlapping_invariant
    (I := fun ranges i => ranges.Pairwise Beside ∧
      ∀ x ∈ ranges.take i, ∀ y ∈ ranges, overlapping x y = false)
    (fun ranges i x hinv hx hnot => ⟨hinv.1, fun z hz => ?_⟩)
    (fun c ranges i x y new hinv hx hy hnew hok => ⟨hok.beside, fun z hz w hw => ?_⟩)
    n 0 ranges 0 cs ⟨hb, by simp⟩ hwell h
  · obtain ⟨i, hi, hb, hbefore⟩ := hend
    rw [take_of_length_le hi] at hbefore
    exact hb.imp_of_mem fun {x y} hx hy hxy => hxy.apart (hbefore x hx y hy) (hbefore y hy x hx)
  · rw [take_add_one, hx] at hz
    rcases mem_append.1 hz with hz | hz
    · exact hinv.2 z hz
    · cases mem_singleton.1 hz
      exact hnot
  · by_cases he : new = []
    · generalize giveWay x y i (ranges.findIdx (overlapping x)) = g at hz hw hok
      rw [if_pos he, he, append_nil, take_eraseIdx_eq_take_of_le _ _ _ le_rfl,
        ← take_append_drop i (ranges.take g.2)] at hz
      rw [he, append_nil] at hw
      rcases mem_append.1 hz with hz | hz
      · rw [take_take, Nat.min_comm, ← take_take] at hz
        exact hinv.2 z (mem_of_mem_take hz) w (mem_of_mem_eraseIdx hw)
      · exact hok.passed he z hz w hw
    · rw [if_neg he] at hz
      cases hz

/-! ## 4. Compression is a partition -/

/-- **A condition on the search** of the part from `lo` to `hi`: the ranges that the walkers record
    have no twins, and every round of `remove_overlapping_ranges` goes well. -/
def Untangled (a : List B) : Nat → Unspecified → Nat → Nat → Prop
  | 0, _, _, _ => True
  | n + 1, u, lo, hi =>
    let cs := sortUnique (rawCycles .optimized (u.inner 0) a lo hi)
    NoTwins cs ∧ match removeSubranges (u.inner 1) n 0 0 cs.length cs with
      | none => True
      | some cs => EveryRound (findCycles .optimized a n) (u.inner 2) (fun _ => GoesWell) n 0 cs 0

/-- **The ranges of an untangled search are apart.** -/
theorem Untangled.apart {a : List B} {n lo hi : Nat} (h : Untangled a n u lo hi)
    (hcs : findCycles .optimized a n u lo hi = some cs) : cs.Pairwise Apart := by
  cases n with
  | zero => cases hcs
  | succ n =>
    rw [findCycles] at hcs
    obtain ⟨cs', hcs', hcs⟩ := bind_eq_some_iff.1 hcs
    obtain ⟨htwins, hwell⟩ := h
    rw [hcs'] at hwell
    exact removeOverlapping_apart (removeSubranges_beside (sortUnique_sorted _) htwins hcs')
      hwell hcs

section Constant

variable {a : List B} {x : B} {lo hi : Nat}

/-- Positions that have a walker get no second one. -/
theorem spawn_known (it : Nat) : ∀ (fs : List Nat) (cws : List CycleWalker) (set : List Nat),
    (∀ f ∈ fs, f ∈ set) → spawn .optimized it fs cws set = (cws, set)
  | [], _, _, _ => rfl
  | f :: fs, cws, set, h => by
    rw [spawn, if_pos ⟨rfl, h f (.head _)⟩]
    exact spawn_known it fs cws set (forall_mem_cons.1 h).2

/-- The one position without a walker gets one. -/
theorem spawn_one (it p : Nat) : ∀ (fs : List Nat) (cws : List CycleWalker) (set : List Nat),
    p ∈ fs → p ∉ set → (∀ f ∈ fs, f = p ∨ f ∈ set) →
    spawn .optimized it fs cws set = (cws ++ [.new p it], p :: set)
  | [], _, _, hp, _, _ => by cases hp
  | f :: fs, cws, set, hp, hnew, h => by
    have hfs : ∀ g ∈ fs, g = p ∨ g ∈ set := (forall_mem_cons.1 h).2
    by_cases hf : f = p
    · rw [spawn, if_neg fun e => hnew (hf ▸ e.2), hf]
      refine spawn_known it fs _ _ fun g hg => ?_
      exact (hfs g hg).elim (fun e => e ▸ mem_cons_self) (mem_cons_of_mem p)
    · have hset : f ∈ set := (h f (.head _)).resolve_left hf
      have hp' : p ∈ fs := (mem_cons.1 hp).resolve_left fun e => hf e.symm
      rw [spawn, if_pos ⟨rfl, hset⟩]
      exact spawn_one it p fs cws set hp' hnew hfs

/-- **The scan of a constant part before block `it`**: one walker from every block but the last
    one seen, each one block behind. -/
structure Steady (x : B) (lo it : Nat) (s : Scan B) : Prop where
  m : s.m = (List.range' lo (it - lo)).map fun i => (x, i)
  cws : s.walkers.cws = (List.range' lo (it - lo - 1)).map fun f => ⟨f, it - 2, f + 1⟩
  cwsSet : ∀ f, f ∈ s.walkers.cwsSet ↔ lo ≤ f ∧ f + 1 < it
  cs : s.walkers.cs = []

theorem Steady.step (h : ∀ i, lo ≤ i → i < hi → a[i]? = some x) (u : Unspecified) {it : Nat}
    (hlo : lo ≤ it) (hit : it < hi) {s : Scan B} (hs : Steady x lo it s) :
    Steady x lo (it + 1) (scanStep .optimized u a hi it s) := by
  have hall : (s.m.filter (·.1 = x)).map Prod.snd = List.range' lo (it - lo) := by
    rw [hs.m, List.filter_map, List.map_map]
    simp
  have hadv : advance .optimized (u.inner it) a hi x 0 s.walkers.cws s.walkers.cwsSet =
      ⟨s.walkers.cws.map fun w => { w with current := w.current + 1 }, s.walkers.cwsSet, []⟩ := by
    refine advance_all _ _ _ _ _ fun w hw => ?_
    rw [hs.cws] at hw
    obtain ⟨f, hf, rfl⟩ := mem_map.1 hw
    have := mem_range'_1.1 hf
    exact h _ (by show lo ≤ it - 2 + 1; omega) (by show it - 2 + 1 < hi; omega)
  have hmem : ∀ f, f ∈ (u.inner it).order [] (List.range' lo (it - lo)) ↔ lo ≤ f ∧ f < it := by
    intro f
    rw [((u.inner it).perm [] _).mem_iff, mem_range'_1]
    omega
  have hm : s.m ++ [(x, it)] = (List.range' lo (it + 1 - lo)).map fun i => (x, i) := by
    rw [hs.m, show it + 1 - lo = it - lo + 1 by omega, range'_concat, map_append,
      Nat.one_mul, Nat.add_sub_of_le hlo]
    rfl
  rw [scanStep, h it hlo hit]
  simp only [hall, hadv]
  rcases Nat.eq_or_lt_of_le hlo with e | hlt
  · -- the first block: nothing to walk from
    subst e
    have hcws : s.walkers.cws = [] := by
      rw [hs.cws, Nat.sub_self]
      rfl
    rw [spawn_known lo _ _ _ fun f hf => absurd ((hmem f).1 hf) (by omega)]
    refine ⟨hm, ?_, fun f => ?_, by rw [hs.cs]; rfl⟩
    · rw [hcws, Nat.add_sub_cancel_left]
      rfl
    · rw [hs.cwsSet]
      omega
  · rw [spawn_one it (it - 1) _ _ _ ((hmem _).2 ⟨by omega, by omega⟩)
      (fun e => by have := (hs.cwsSet _).1 e; omega) fun f hf => ?_]
    · refine ⟨hm, ?_, fun f => ?_, by rw [hs.cs]; rfl⟩
      · have hgo : ((List.range' lo (it - lo - 1)).map fun f => (⟨f, it - 2, f + 1⟩ :
              CycleWalker)).map (fun w => { w with current := w.current + 1 }) =
            (List.range' lo (it - lo - 1)).map fun f => ⟨f, it + 1 - 2, f + 1⟩ := by
          rw [List.map_map]
          refine map_congr_left fun f hf => ?_
          have := mem_range'_1.1 hf
          show (⟨f, it - 2 + 1, f + 1⟩ : CycleWalker) = _
          rw [show it - 2 + 1 = it + 1 - 2 by omega]
        have hlast : (⟨it - 1, it + 1 - 2, it - 1 + 1⟩ : CycleWalker) = .new (it - 1) it := by
          rw [Nat.sub_add_cancel (by omega)]
          rfl
        rw [hs.cws, hgo, show it + 1 - lo - 1 = it - lo - 1 + 1 by omega, range'_concat,
          map_append, Nat.one_mul, show lo + (it - lo - 1) = it - 1 by omega,
          map_singleton, hlast]
      · rw [mem_cons, hs.cwsSet]
        omega
    · rw [hs.cwsSet]
      have := (hmem f).1 hf
      omega

theorem Steady.scan (h : ∀ i, lo ≤ i → i < hi → a[i]? = some x) (u : Unspecified) :
    ∀ (left : Nat) {it : Nat} {s : Scan B}, Steady x lo it s → lo ≤ it → it + left = hi →
    Steady x lo hi (Traces.scan .optimized u a hi left it s)
  | 0, it, s, hs, _, e => by
    rw [Nat.add_zero] at e
    exact e ▸ hs
  | left + 1, it, s, hs, hlo, e =>
    Steady.scan h u left (hs.step h u hlo (by omega)) (by omega) (by omega)

/-- From every block but the last a walker reaches the end. -/
theorem rawCycles_constant (h : ∀ i, lo ≤ i → i < hi → a[i]? = some x) (hlt : lo + 1 < hi)
    (u : Unspecified) :
    rawCycles .optimized u a lo hi = (List.range' lo (hi - lo - 1)).map fun f => (f, hi) := by
  have h0 : Steady x lo lo (⟨[], [], [], []⟩ : Scan B) := by
    refine ⟨?_, ?_, fun f => ?_, rfl⟩
    · rw [Nat.sub_self]
      rfl
    · rw [Nat.sub_self]
      rfl
    · refine ⟨fun hf => absurd hf not_mem_nil, fun hf => ?_⟩
      omega
  have hs := h0.scan h u (hi - lo) (Nat.le_refl lo) (by omega)
  have hrec : ∀ f ∈ List.range' lo (hi - lo - 1),
      record a hi ⟨f, hi - 2 + 1, f + 1⟩ = [(f, hi)] := by
    intro f hf
    have hf := mem_range'_1.1 hf
    have hback : a[hi - 1]? = a[f]? := (h _ (by omega) (by omega)).trans (h f hf.1 (by omega)).symm
    rw [show hi - 2 + 1 = hi - 1 by omega, record, if_pos hback]
    simp only [show hi - (hi - 1) = 1 by omega, walkOn, if_pos hback.symm]
    rw [if_pos (by omega), Nat.sub_add_cancel (by omega)]
  rw [rawCycles]
  simp only [hs.cs, hs.cws, nil_append, flatMap_map]
  rw [flatMap_congr hrec, ← map_eq_flatMap]

theorem sortUnique_eq {cs : List Range} (h : cs.Pairwise fun x y => x.1 < y.1) :
    sortUnique cs = cs := by
  have hs : sortRanges cs = cs := (h.imp fun hpq => .inl hpq).insertionSort_eq
  have hne : cs.Pairwise (· ≠ ·) := by
    apply h.imp
    intro p q hpq e
    subst q
    exact Nat.lt_irrefl p.1 hpq
  rw [sortUnique, hs]
  exact destutter_of_isChain _ cs hne.isChain

/-- A pass under a range that has all others inside keeps this one only. -/
theorem removeIf_inside (u : Unspecified) {r : Range} {last : Nat} (hlast : 0 < last) :
    ∀ (left k : Nat) (store : List Range), store[0]? = some r →
    (∀ i, k ≤ i → i < k + left → subrange r (store.getD i (0, 0)) = true) →
    removeIf u 0 last left k 1 store = (store, 1)
  | 0, _, _, _, _ => rfl
  | left + 1, k, store, h0, h => by
    have hr : rangeUnder u 0 last k store = r := by
      rw [rangeUnder, if_pos hlast, getD_eq_getElem?_getD, h0]
      rfl
    rw [removeIf]
    simp only [hr, h k (Nat.le_refl k) (by omega), if_true]
    exact removeIf_inside u hlast left (k + 1) store h0 fun i h1 h2 => h i (by omega) (by omega)

theorem removeSubranges_inside (u : Unspecified) (n : Nat) {r : Range} {cs : List Range}
    (h : ∀ p ∈ cs, subrange r p = true) :
    removeSubranges u (n + 2) 0 0 (r :: cs).length (r :: cs) = some [r] := by
  have hself : subrange r r = false := by
    simp [subrange]
  have hpass : removeIf (u.inner 0) 0 (r :: cs).length (r :: cs).length 0 0 (r :: cs) =
      (r :: cs, 1) := by
    rw [length_cons, removeIf]
    have hr : rangeUnder (u.inner 0) 0 (cs.length + 1) 0 (r :: cs) = r := if_pos (by omega)
    simp only [hr, getD_cons_zero, hself, Bool.false_eq_true, if_false, set_cons_zero]
    refine removeIf_inside (u.inner 0) (by omega) cs.length 1 (r :: cs) rfl fun i h1 h2 => ?_
    obtain ⟨i, rfl⟩ : ∃ j, i = j + 1 := ⟨i - 1, by omega⟩
    have hi : i < cs.length := by omega
    rw [getD_cons_succ, getD_eq_getElem?_getD, getElem?_eq_getElem hi]
    exact h _ (getElem_mem hi)
  rw [removeSubranges, if_neg (by simp)]
  simp only [hpass]
  rw [if_neg (by omega), removeSubranges, if_pos rfl]
  rfl

theorem removeOverlapping_single (find : Unspecified → Nat → Nat → Option (List Range))
    (u : Unspecified) (n : Nat) (r : Range) :
    removeOverlapping find u (n + 2) 0 [r] 0 = some [r] := by
  have hself : overlapping r r = false := by
    simp [overlapping]
  have hidx : [r].findIdx (overlapping r) = 1 := by
    rw [findIdx_cons, hself]
    rfl
  rw [removeOverlapping]
  simp only [getElem?_cons_zero, hidx]
  rfl

/-- **A constant part is one cycle**, whatever is left open. -/
theorem findCyclesCustom_constant (h : ∀ i, lo ≤ i → i < hi → a[i]? = some x) (hlt : lo + 1 < hi)
    (n : Nat) (u : Unspecified) : findCyclesCustom a (n + 3) u lo hi = some [(lo, hi)] := by
  obtain ⟨k, hk⟩ : ∃ k, hi - lo - 1 = k + 1 := ⟨hi - lo - 2, by omega⟩
  have hsort : sortUnique (rawCycles .optimized (u.inner 0) a lo hi) =
      (lo, hi) :: (List.range' (lo + 1) k).map fun f => (f, hi) := by
    rw [rawCycles_constant h hlt, sortUnique_eq, hk]
    · rfl
    · exact pairwise_map.2 pairwise_lt_range'
  have hin : ∀ p ∈ (List.range' (lo + 1) k).map fun f => (f, hi), subrange (lo, hi) p = true := by
    intro p hp
    obtain ⟨f, hf, rfl⟩ := mem_map.1 hp
    have := mem_range'_1.1 hf
    simp only [subrange, Bool.or_eq_true, Bool.and_eq_true, decide_eq_true_eq]
    omega
  rw [findCyclesCustom, findCycles]
  simp only [hsort, removeSubranges_inside (u.inner 1) n hin]
  exact removeOverlapping_single _ (u.inner 2) n (lo, hi)

end Constant

/-- **A constant trace is compressed to two entries.** -/
theorem compress_constant (hash : List B → B) (n : Nat) (u : Unspecified) (b x : B) {m : Nat}
    (hm : 2 ≤ m) : compress hash (n + 3) u (b :: List.replicate m x) =
      some (.ok [b, hash (List.replicate m x)]) := by
  have hx : ∀ i, 1 ≤ i → i < m + 1 → (b :: replicate m x)[i]? = some x := by
    intro i h1 h2
    obtain ⟨i, rfl⟩ : ∃ j, i = j + 1 := ⟨i - 1, by omega⟩
    rw [getElem?_cons_succ, getElem?_replicate, if_pos (by omega)]
  rw [compress, if_neg (cons_ne_nil _ _), length_cons, length_replicate,
    findCyclesCustom_constant hx (by omega)]
  have hdrop : (b :: replicate m x).drop (m + 1) = [] := by
    simp
  have htake : (b :: replicate m x).take (m + 1) = b :: replicate m x := by
    simp
  show some (copyRanges hash (b :: replicate m x) 0 [(1, m + 1)]) = _
  rw [copyRanges, if_pos (Nat.zero_le _), copyRanges, hdrop, htake]
  rfl

/-- More fuel changes nothing. -/
theorem compress_mono (hash : List B → B) {a : List B} {n m : Nat}
    {r : Except Stop (List B)} (hnm : n ≤ m) (h : compress hash n u a = some r) :
    compress hash m u a = some r := by
  unfold compress at h ⊢
  split
  · rename_i ha
    rwa [if_pos ha] at h
  · rename_i ha
    rw [if_neg ha] at h
    obtain ⟨cs, hcs, e⟩ := map_eq_some_iff.1 h
    rw [findCyclesCustom, findCycles_mono .optimized a hnm hcs]
    exact congrArg some e

/-- **`comp` is what `compress` returns**, for every trace with some outcome of what is left open;
    where `compress` leaves the trace nothing is said. -/
def Compresses (hash : List B → B) (comp : List B → List B) : Prop :=
  ∀ a, ∃ n u r, compress hash n u a = some r ∧ ∀ out, r = .ok out → comp a = out

/-- The compression keeps the first block of a trace. -/
def KeepsFirst (comp : List B → List B) : Prop := ∀ b bs, ∃ bs', comp (b :: bs) = b :: bs'

/-- **Where compression returns, the first block is kept**: the ranges lie behind it. -/
theorem compress_first {hash : List B → B} {n : Nat} {b : B} {bs out : List B}
    (h : compress hash n u (b :: bs) = some (.ok out)) : ∃ bs', out = b :: bs' := by
  rw [compress, if_neg (cons_ne_nil b bs)] at h
  obtain ⟨cs, hcs, h⟩ := map_eq_some_iff.1 h
  have hproper : ∀ r ∈ sortRanges cs, 1 ≤ r.1 := fun r hr =>
    (findCycles_found .optimized _ n u 1 _ cs le_rfl hcs r (mem_sortRanges.1 hr)).within.1
  cases hc : sortRanges cs with
  | nil =>
    rw [hc] at h
    cases h
    exact ⟨bs, rfl⟩
  | cons r rs =>
    rw [hc, copyRanges, if_pos (Nat.zero_le _)] at h
    obtain ⟨m, hm⟩ : ∃ m, r.1 = m + 1 := ⟨r.1 - 1, by have := hproper r (hc ▸ .head _); omega⟩
    cases hrest : copyRanges hash (b :: bs) r.2 rs with
    | error e =>
      rw [hrest] at h
      cases h
    | ok rblocks =>
      rw [hrest, hm] at h
      cases h
      exact ⟨_, rfl⟩

theorem exists_compresses (hash : List B → B) :
    ∃ comp, Compresses hash comp ∧ KeepsFirst comp := by
  have hret : ∀ a : List B, ∃ n r, compress hash n newestFirst a = some r := by
    intro a
    by_cases ha : a = []
    · exact ⟨0, _, if_pos ha⟩
    · obtain ⟨n, cs, hcs⟩ := findCycles_returns .optimized a 1 newestFirst
      refine ⟨n, copyRanges hash a 0 (sortRanges cs), ?_⟩
      rw [compress, if_neg ha, findCyclesCustom, hcs]
      rfl
  choose n r hr using hret
  refine ⟨fun a => match r a with
    | .ok out => out
    | .error _ => a, fun a => ⟨n a, newestFirst, r a, hr a, fun out e => ?_⟩, fun b bs => ?_⟩
  · simp only [e]
  · dsimp only
    split
    · rename_i out hout
      exact compress_first (hout ▸ hr (b :: bs))
    · exact ⟨bs, rfl⟩

theorem Compresses.constant {hash : List B → B} {comp : List B → List B} (h : Compresses hash comp)
    (b x : B) {m : Nat} (hm : 2 ≤ m) :
    comp (b :: List.replicate m x) = [b, hash (List.replicate m x)] := by
  obtain ⟨n, u, r, hr, hout⟩ := h (b :: replicate m x)
  have hr' := compress_mono hash (Nat.le_add_right n 3) hr
  rw [compress_constant hash n u b x hm] at hr'
  exact hout _ (Option.some.inj hr').symm

end Crete.Traces
