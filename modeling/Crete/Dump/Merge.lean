/-
  File:      Crete/Dump/Merge.lean
  Subject:   What `mergeMemoSyncTables` (qemu-1.0/runtime-dump/runtime-dump.cpp) makes of the sync
             tables of a whole recording.

  The merge points of a recording are a word of `(Back Normal* Out | OutAndBack)*`. The tables of
  a segment go into that of its first block.

  * `MergedBy` -- the tables after the merge: in a segment's first block each byte as the earliest
    block has it that loaded it; the others empty.
  * **`mergeMemoSyncTables_iff`** -- the merge does that exactly if there is a block at all and no
    segment has a chain of `2 ^ 32` bytes.
-/
import Crete.Dump.SyncTable

namespace Crete.Dump

open Crete.Lib Crete.Lib.Extent List

/-! ## 1. Words and segments -/

/-- A word of `(Back Normal* Out | OutAndBack)*`. -/
inductive MergeWord : List MemoMergePoint → Prop
  | nil : MergeWord []
  | segment {k : Nat} {w : List MemoMergePoint} (h : MergeWord w) :
      MergeWord (.backToInterestTb :: (replicate k .normalTb ++ .outofInterestTb :: w))
  | single {w : List MemoMergePoint} (h : MergeWord w) : MergeWord (.outAndBackTb :: w)

/-- The tables that go into one further to the left, and the segments behind them. -/
def splitSegments : List MemoMergePoint → List MemoSyncTable →
    List MemoSyncTable × List (List MemoSyncTable)
  | p :: ps, t :: ts =>
    if p.IsSource then (t :: (splitSegments ps ts).1, (splitSegments ps ts).2)
    else ([], (t :: (splitSegments ps ts).1) :: (splitSegments ps ts).2)
  | _, _ => ([], [])

/-- The tables segment by segment. -/
def segments (points : List MemoMergePoint) (tables : List MemoSyncTable) :
    List (List MemoSyncTable) :=
  (splitSegments points tables).2

/-- The table has, of each byte that a table of the segment has, what the earliest has. -/
structure Gathers (t : MemoSyncTable) (seg : List MemoSyncTable) : Prop where
  kept : Kept t
  bytes : ∀ x, first (extents t) x = seg.findSome? fun t' => first (extents t') x

/-- **The tables before and after the merge**, along the word of the merge points. -/
inductive MergedBy : List MemoMergePoint → List MemoSyncTable → List MemoSyncTable → Prop
  | nil : MergedBy [] [] []
  | segment {k : Nat} {w : List MemoMergePoint} {t₀ t : MemoSyncTable}
      {sources ts ms : List MemoSyncTable} (hlen : sources.length = k + 1)
      (hgather : Gathers t (t₀ :: sources)) (h : MergedBy w ts ms) :
      MergedBy (.backToInterestTb :: (replicate k .normalTb ++ .outofInterestTb :: w))
        (t₀ :: (sources ++ ts)) (t :: (replicate (k + 1) [] ++ ms))
  | single {w : List MemoMergePoint} {t : MemoSyncTable} {ts ms : List MemoSyncTable}
      (h : MergedBy w ts ms) : MergedBy (.outAndBackTb :: w) (t :: ts) (t :: ms)

/-- The extents of all tables, one table after the other. -/
abbrev allExtents (seg : List MemoSyncTable) : List (Extent UInt8) := seg.flatMap extents

theorem allExtents_cons (t : MemoSyncTable) (ts : List MemoSyncTable) :
    allExtents (t :: ts) = extents t ++ allExtents ts := flatMap_cons

theorem first_allExtents (seg : List MemoSyncTable) (x : Nat) :
    first (allExtents seg) x = seg.findSome? fun t => first (extents t) x := by
  induction seg with
  | nil => rfl
  | cons t seg ih =>
    rw [allExtents_cons, first_append, findSome?_cons, ← ih]
    cases first (extents t) x <;> rfl

/-! ## 2. One table into another -/

/-- **A table is merged into another, or they make up a chain that is too long.** -/
theorem Holds.mergeTable {dst src : MemoSyncTable} {l : List (Extent UInt8)} (h : Holds dst l)
    (hsrc : Kept src) : HoldsOr (l ++ extents src) (mergeTable src dst) := by
  have hstep : ∀ e ∈ src, ∀ {t : MemoSyncTable} {es : List (Extent UInt8)}, Holds t es →
      HoldsOr (es ++ [e.extent]) (addMemoSyncTableEntryInternal e.addr e.size e.data t) := by
    intro e he t es ht
    have hok := hsrc.entries e he
    have hfits := hsrc.fits e he
    rw [stop_eq hok] at hfits
    exact ht.add hok.size hok.data hfits
  exact h.foldlM hstep

section Steps

variable {points : List MemoMergePoint} {done mid rest : List MemoSyncTable}
  {dst src : MemoSyncTable}

/-- A round for a source block. -/
theorem mergeStep_source {p : MemoMergePoint} {i : Nat} (hp : points[i]? = some p)
    (hsrc : p.IsSource) (hi : i = done.length + 1 + mid.length) :
    mergeStep points (done ++ dst :: (mid ++ src :: rest), some done.length) i =
      (mergeTable src dst >>= fun t =>
        .ok (done ++ t :: (mid ++ [] :: rest), some done.length)) := by
  have hget : (done ++ dst :: (mid ++ src :: rest)).getD i [] = src := by
    rw [getD_eq_getElem?_getD, getElem?_append_right (by omega), hi]
    have : done.length + 1 + mid.length - done.length = mid.length + 1 := by omega
    rw [this, getElem?_cons_succ, getElem?_append_right le_rfl, Nat.sub_self]
    rfl
  have hgetd : (done ++ dst :: (mid ++ src :: rest)).getD done.length [] = dst := by
    rw [getD_eq_getElem?_getD, getElem?_append_right le_rfl, Nat.sub_self]
    rfl
  have hset : ∀ t : MemoSyncTable,
      ((done ++ dst :: (mid ++ src :: rest)).set done.length t).set i [] =
        done ++ t :: (mid ++ [] :: rest) := by
    intro t
    rw [set_append_right _ _ le_rfl, Nat.sub_self, set_cons_zero,
      set_append_right _ _ (by omega), hi]
    have : done.length + 1 + mid.length - done.length = mid.length + 1 := by omega
    rw [this, set_cons_succ, set_append_right _ _ le_rfl, Nat.sub_self]
    rfl
  have hstep : mergeStep points (done ++ dst :: (mid ++ src :: rest), some done.length) i =
      (mergeTable ((done ++ dst :: (mid ++ src :: rest)).getD i [])
        ((done ++ dst :: (mid ++ src :: rest)).getD done.length []) >>= fun t =>
          pure (((done ++ dst :: (mid ++ src :: rest)).set done.length t).set i [],
            some done.length)) := by
    unfold mergeStep
    rw [hp]
    obtain rfl | rfl := hsrc
    · rfl
    · rfl
  rw [hstep, hget, hgetd]
  simp only [hset]
  rfl

/-- A round for the first block of a segment. -/
theorem mergeStep_back {pre post : List MemoMergePoint} {ts : List MemoSyncTable} {d : Option Nat}
    (hpre : pre.length = done.length) :
    mergeStep (pre ++ .backToInterestTb :: post) (ts, d) pre.length =
      .ok (ts, some done.length) := by
  unfold mergeStep
  rw [getElem?_append_right le_rfl, Nat.sub_self, getElem?_cons_zero, hpre]

/-- A round for a block by itself. -/
theorem mergeStep_outAndBack {pre post : List MemoMergePoint} {ts : List MemoSyncTable}
    {d : Option Nat} :
    mergeStep (pre ++ .outAndBackTb :: post) (ts, d) pre.length = .ok (ts, none) := by
  unfold mergeStep
  rw [getElem?_append_right le_rfl, Nat.sub_self, getElem?_cons_zero]

/-- **The source blocks of a segment.** -/
theorem mergeSources {ps post : List MemoMergePoint} (hps : ∀ p ∈ ps, p.IsSource) :
    ∀ {pre : List MemoMergePoint} {sources mid : List MemoSyncTable} {dst : MemoSyncTable}
      {l : List (Extent UInt8)}, pre.length = done.length + 1 + mid.length →
    sources.length = ps.length → (∀ t ∈ sources, Kept t) → Holds dst l →
    ReturnsOr (¬ Short (2 ^ 32) (l ++ allExtents sources))
      ((range' pre.length ps.length).foldlM (mergeStep (pre ++ (ps ++ post)))
        (done ++ dst :: (mid ++ (sources ++ rest)), some done.length)) fun s =>
      ∃ t, s = (done ++ t :: (mid ++ (replicate ps.length [] ++ rest)), some done.length) ∧
        Holds t (l ++ allExtents sources) := by
  induction ps with
  | nil =>
    intro pre sources mid dst l _ hlen _ hdst
    obtain rfl := length_eq_zero_iff.1 hlen
    refine .inl ⟨_, rfl, dst, rfl, ?_⟩
    rw [allExtents, flatMap_nil, append_nil]
    exact hdst
  | cons p ps ih =>
    intro pre sources mid dst l hpre hlen hkept hdst
    obtain ⟨src, sources, rfl⟩ := exists_cons_of_length_pos (by rw [hlen]; exact Nat.succ_pos _)
    have hp : (pre ++ p :: (ps ++ post))[pre.length]? = some p := by
      rw [getElem?_append_right le_rfl, Nat.sub_self]
      rfl
    have happ : l ++ allExtents (src :: sources) = l ++ extents src ++ allExtents sources := by
      rw [allExtents_cons, append_assoc]
    obtain ⟨hpsrc, hps⟩ := forall_mem_cons.1 hps
    obtain ⟨hsrc, hkept⟩ := forall_mem_cons.1 hkept
    rw [length_cons, range'_succ, foldlM_cons, cons_append,
      cons_append, mergeStep_source hp hpsrc hpre, happ, bind_assoc]
    refine ((hdst.mergeTable hsrc).imp (fun _ => id) fun hl hs => hl hs.of_append).bind
      fun t hholds => ?_
    have hlenPre : pre.length + 1 = (pre ++ [p]).length := by
      rw [length_append]
      rfl
    rw [ok_bind, append_cons pre, hlenPre, append_cons mid [] (sources ++ rest),
      replicate_succ, cons_append, append_cons mid [] (_ ++ rest)]
    refine ih hps ?_ (Nat.succ.inj hlen) hkept hholds
    rw [length_append, length_append]
    change pre.length + 1 = done.length + 1 + (mid.length + 1)
    omega

end Steps

/-! ## 3. Whole words -/

variable {w : List MemoMergePoint}

theorem splitSegments_sources {ps : List MemoMergePoint} (hps : ∀ p ∈ ps, p.IsSource) :
    ∀ {sources : List MemoSyncTable}, sources.length = ps.length →
    ∀ (w : List MemoMergePoint) (ts : List MemoSyncTable),
    splitSegments (ps ++ w) (sources ++ ts) =
      (sources ++ (splitSegments w ts).1, (splitSegments w ts).2) := by
  induction ps with
  | nil =>
    intro sources hlen w ts
    obtain rfl := length_eq_zero_iff.1 hlen
    rfl
  | cons p ps ih =>
    intro sources hlen w ts
    obtain ⟨src, sources, rfl⟩ := exists_cons_of_length_pos (by rw [hlen]; exact Nat.succ_pos _)
    rw [cons_append, cons_append, splitSegments, ih (forall_mem_cons.1 hps).2 (Nat.succ.inj hlen),
      if_pos (hps p (.head _))]
    rfl

/-- No table of a word goes to the left of it. -/
theorem MergeWord.pending (h : MergeWord w) (ts : List MemoSyncTable) :
    (splitSegments w ts).1 = [] := by
  cases h with
  | nil => rfl
  | segment h | single h =>
    cases ts with
    | nil => rfl
    | cons t ts => rw [splitSegments, if_neg (by decide)]

/-- The sources of a segment. -/
def sourcePoints (k : Nat) : List MemoMergePoint := replicate k .normalTb ++ [.outofInterestTb]

theorem sourcePoints_isSource {k : Nat} : ∀ p ∈ sourcePoints k, p.IsSource := by
  intro p hp
  obtain hp | hp := mem_append.1 hp
  · exact .inl (eq_of_mem_replicate hp)
  · exact .inr (mem_singleton.1 hp)

theorem sourcePoints_append (k : Nat) (w : List MemoMergePoint) :
    replicate k .normalTb ++ .outofInterestTb :: w = sourcePoints k ++ w := by
  rw [sourcePoints, append_assoc]
  rfl

@[simp] theorem length_sourcePoints (k : Nat) : (sourcePoints k).length = k + 1 := by
  rw [sourcePoints, length_append, length_replicate]
  rfl

theorem segments_segment {k : Nat} (h : MergeWord w)
    {t₀ : MemoSyncTable} {sources : List MemoSyncTable} (hlen : sources.length = k + 1)
    (ts : List MemoSyncTable) :
    segments (.backToInterestTb :: (sourcePoints k ++ w)) (t₀ :: (sources ++ ts)) =
      (t₀ :: sources) :: segments w ts := by
  rw [segments, splitSegments, splitSegments_sources sourcePoints_isSource
    (by rw [hlen, length_sourcePoints]), if_neg (by decide), h.pending, append_nil]
  rfl

theorem segments_single (h : MergeWord w) (t : MemoSyncTable) (ts : List MemoSyncTable) :
    segments (.outAndBackTb :: w) (t :: ts) = [t] :: segments w ts := by
  rw [segments, splitSegments, if_neg (by decide), h.pending]
  rfl

/-- The merged tables bridge what the tables did. -/
def SameBridges (ms ts : List MemoSyncTable) : Prop :=
  ∀ x, Bridged (allExtents ms) x ↔ Bridged (allExtents ts) x

theorem allExtents_append (ts ts' : List MemoSyncTable) :
    allExtents (ts ++ ts') = allExtents ts ++ allExtents ts' := flatMap_append

theorem allExtents_replicate (k : Nat) : allExtents (replicate k []) = [] := by
  simp [allExtents]

/-- No segment has a chain of `2 ^ 32` bytes. -/
def SegmentsShort (points : List MemoMergePoint) (tables : List MemoSyncTable) : Prop :=
  ∀ seg ∈ segments points tables, Short (2 ^ 32) (allExtents seg)

/-- **The merge along a word**: the tables are merged and the segments are short, or the merge
    stops and they are not. -/
theorem MergeWord.run (hw : MergeWord w) :
    ∀ (pre : List MemoMergePoint) (done ts : List MemoSyncTable) (d : Option Nat),
    pre.length = done.length → ts.length = w.length → (∀ t ∈ ts, Kept t) →
    ReturnsOr (¬ SegmentsShort w ts)
      ((range' pre.length w.length).foldlM (mergeStep (pre ++ w)) (done ++ ts, d)) fun s =>
      ∃ ms, s.1 = done ++ ms ∧ MergedBy w ts ms ∧ SegmentsShort w ts ∧ SameBridges ms ts := by
  induction hw with
  | nil =>
    intro pre done ts d _ hlen _
    obtain rfl := length_eq_zero_iff.1 hlen
    exact .inl ⟨_, rfl, [], rfl, .nil, forall_mem_nil _, fun _ => Iff.rfl⟩
  | @segment k w hw ih =>
    intro pre done ts d hpre hlen hkept
    obtain ⟨t₀, ts, rfl⟩ := exists_cons_of_length_pos (by rw [hlen]; exact Nat.succ_pos _)
    rw [sourcePoints_append] at hlen ⊢
    rw [length_cons, length_cons, length_append, length_sourcePoints] at hlen
    obtain ⟨sources, ts, rfl, hsrcs⟩ : ∃ sources ts', ts = sources ++ ts' ∧
        sources.length = k + 1 :=
      ⟨ts.take (k + 1), ts.drop (k + 1), (take_append_drop _ _).symm, by
        rw [length_take]; omega⟩
    rw [length_append] at hlen
    obtain ⟨hk₀, hkept⟩ := forall_mem_cons.1 hkept
    obtain ⟨hkSrcs, hkTs⟩ := forall_mem_append.1 hkept
    rw [length_cons, range'_succ, foldlM_cons, mergeStep_back hpre, ok_bind]
    obtain ⟨pre', hpre', hlenPre⟩ : ∃ pre', pre ++ .backToInterestTb :: (sourcePoints k ++ w) =
        pre' ++ (sourcePoints k ++ w) ∧ pre'.length = pre.length + 1 :=
      ⟨pre ++ [.backToInterestTb], by rw [append_assoc]; rfl, by
        rw [length_append]; rfl⟩
    have hrange : range' (pre.length + 1) (sourcePoints k ++ w).length =
        range' pre'.length (sourcePoints k).length ++
          range' (pre' ++ sourcePoints k).length w.length := by
      rw [length_append, length_append, hlenPre, ← range'_append_1]
    rw [hrange, foldlM_append, hpre']
    unfold SegmentsShort
    rw [segments_segment hw hsrcs]
    have hsources := @mergeSources done ts (sourcePoints k) w sourcePoints_isSource pre' sources []
      t₀ _ (by rw [hlenPre, hpre]; rfl) (by rw [hsrcs, length_sourcePoints]) hkSrcs hk₀.holds
    rw [nil_append] at hsources
    refine (hsources.imp (fun _ => id) fun hlong h => ?_).bind fun s hs => ?_
    · rw [← allExtents_cons] at hlong
      exact hlong (h _ (.head _))
    obtain ⟨t, rfl, hholds⟩ := hs
    have hshift : done ++ t :: ([] ++ (replicate (sourcePoints k).length [] ++ ts)) =
        done ++ t :: replicate (k + 1) [] ++ ts := by
      rw [length_sourcePoints, append_assoc]
      rfl
    have hrest := ih (pre' ++ sourcePoints k) (done ++ t :: replicate (k + 1) []) ts
      (some done.length) (by
        rw [length_append, length_append, hlenPre, length_sourcePoints, hpre,
          length_cons, length_replicate]
        omega) (by omega) hkTs
    rw [hshift, ← append_assoc]
    refine hrest.imp (fun s hs => ?_) fun hlong h => hlong (forall_mem_cons.1 h).2
    obtain ⟨ms, hs, hby, hshort, hsame⟩ := hs
    refine ⟨t :: (replicate (k + 1) [] ++ ms), ?_, ?_, forall_mem_cons.2 ⟨?_, hshort⟩,
      fun x => ?_⟩
    · rw [hs, append_assoc]
      rfl
    · rw [← sourcePoints_append]
      refine .segment hsrcs ⟨hholds.kept, fun x => ?_⟩ hby
      rw [hholds.bytes, ← allExtents_cons, first_allExtents]
    · rw [allExtents_cons]
      exact hholds.short
    · rw [allExtents_cons, allExtents_append, allExtents_replicate, nil_append, ← cons_append,
        allExtents_append, allExtents_cons, bridged_append, bridged_append, hholds.bridged, hsame x]
  | @single w hw ih =>
    intro pre done ts d hpre hlen hkept
    obtain ⟨t, ts, rfl⟩ := exists_cons_of_length_pos (by rw [hlen]; exact Nat.succ_pos _)
    have ht : Short (2 ^ 32) (allExtents [t]) := by
      have := (hkept t (.head _)).holds.short
      rwa [allExtents, flatMap_singleton]
    rw [length_cons, range'_succ, foldlM_cons, mergeStep_outAndBack, ok_bind]
    have hlenPre : pre.length + 1 = (pre ++ [MemoMergePoint.outAndBackTb]).length := by
      rw [length_append]
      rfl
    have hrest := ih (pre ++ [.outAndBackTb]) (done ++ [t]) ts none
      (by rw [length_append, length_append, hpre]; rfl) (Nat.succ.inj hlen)
      (forall_mem_cons.1 hkept).2
    unfold SegmentsShort at hrest ⊢
    rw [append_cons pre, append_cons done, hlenPre, segments_single hw]
    refine hrest.imp (fun s hs => ?_) fun hlong h => hlong (forall_mem_cons.1 h).2
    obtain ⟨ms, hs, hby, hshort, hsame⟩ := hs
    refine ⟨t :: ms, ?_, .single hby, forall_mem_cons.2 ⟨ht, hshort⟩, fun x => ?_⟩
    · rw [hs, append_assoc]
      rfl
    · rw [allExtents_cons, allExtents_cons, bridged_append, bridged_append]
      exact or_congr Iff.rfl (hsame x)

/-- Merged tables are kept as the tables were. -/
theorem MergedBy.kept {ts ms : List MemoSyncTable}
    (h : MergedBy w ts ms) : (∀ t ∈ ts, Kept t) → ∀ m ∈ ms, Kept m := by
  induction h with
  | nil => exact fun h => h
  | segment hlen hgather h ih =>
    intro hts
    have hts := (forall_mem_append.1 (forall_mem_cons.1 hts).2).2
    refine forall_mem_cons.2 ⟨hgather.kept, forall_mem_append.2 ⟨fun m hm => ?_, ih hts⟩⟩
    rw [eq_of_mem_replicate hm]
    exact .nil
  | single h ih =>
    intro hts
    obtain ⟨ht, hts⟩ := forall_mem_cons.1 hts
    exact forall_mem_cons.2 ⟨ht, ih hts⟩

/-! ## 4. The merge -/

theorem MergeWord.head (h : MergeWord w) (hne : w ≠ []) :
    w.head? = some .backToInterestTb ∨ w.head? = some .outAndBackTb := by
  cases h with
  | nil => exact absurd rfl hne
  | segment h => exact .inl rfl
  | single h => exact .inr rfl

theorem MergeWord.last (h : MergeWord w) (hne : w ≠ []) :
    w.getLast? = some .outofInterestTb ∨ w.getLast? = some .outAndBackTb := by
  induction h with
  | nil => exact absurd rfl hne
  | @segment k w h ih =>
    rw [← cons_append, getLast?_append_of_ne_nil _ (cons_ne_nil _ _)]
    cases w with
    | nil => exact .inl rfl
    | cons p w =>
      rw [getLast?_cons_cons]
      exact ih (cons_ne_nil p w)
  | @single w h ih =>
    cases w with
    | nil => exact .inr rfl
    | cons p w =>
      rw [getLast?_cons_cons]
      exact ih (cons_ne_nil p w)

/-- A recording whose tables can be merged: one merge point and one kept table for each block,
    and the merge points are a word. -/
structure Mergeable (r : RuntimeEnv) : Prop where
  word : MergeWord r.memoMergePoints
  points : r.memoMergePoints.length = r.tbCount.toNat
  tables : r.memoSyncTables.length = r.tbCount.toNat
  kept : ∀ t ∈ r.memoSyncTables, Kept t

theorem Mergeable.cases {r : RuntimeEnv} (h : Mergeable r) (hne : r.memoMergePoints ≠ []) :
    ReturnsOr (¬ SegmentsShort r.memoMergePoints r.memoSyncTables) r.mergeMemoSyncTables
      fun merged => MergedBy r.memoMergePoints r.memoSyncTables merged ∧
        SegmentsShort r.memoMergePoints r.memoSyncTables ∧
        SameBridges merged r.memoSyncTables := by
  have hrun := h.word.run [] [] r.memoSyncTables none rfl (by rw [h.tables, h.points]) h.kept
  have hloop : r.mergeMemoSyncTables =
      ((range' 0 r.memoMergePoints.length).foldlM (mergeStep ([] ++ r.memoMergePoints))
        ([] ++ r.memoSyncTables, none) >>= fun s => .ok s.1) := by
    rw [RuntimeEnv.mergeMemoSyncTables, ensure_bind, if_pos h.tables, ensure_bind,
      if_pos h.points, ensure_bind, if_pos (h.word.head hne), ensure_bind,
      if_pos (h.word.last hne), h.tables, ← h.points, range_eq_range']
    rfl
  rw [hloop]
  refine hrun.bind fun s hs => ?_
  obtain ⟨ms, rfl, hms⟩ := hs
  exact .inl ⟨_, rfl, hms⟩

/-- **The merge gathers every segment in its first block exactly if** there is a block and no
    segment has a chain of `2 ^ 32` bytes. -/
theorem mergeMemoSyncTables_iff (r : RuntimeEnv) (h : Mergeable r) :
    (∃ merged, r.mergeMemoSyncTables = .ok merged ∧
      MergedBy r.memoMergePoints r.memoSyncTables merged) ↔
    r.memoMergePoints ≠ [] ∧ SegmentsShort r.memoMergePoints r.memoSyncTables := by
  refine ⟨fun hex => ?_, fun hshort => ?_⟩
  · obtain ⟨merged, hok, -⟩ := hex
    have hne : r.memoMergePoints ≠ [] := by
      -- `front()` of an empty vector
      intro hnil
      rw [RuntimeEnv.mergeMemoSyncTables] at hok
      obtain ⟨-, hok⟩ := ensure_bind_eq_ok.1 hok
      obtain ⟨-, hok⟩ := ensure_bind_eq_ok.1 hok
      obtain ⟨hhead, -⟩ := ensure_bind_eq_ok.1 hok
      rw [hnil] at hhead
      obtain h | h := hhead
      · cases h
      · cases h
    refine ⟨hne, ?_⟩
    obtain ⟨-, -, -, hshort, -⟩ | ⟨⟨e, he⟩, -⟩ := h.cases hne
    · exact hshort
    · rw [hok] at he
      cases he
  · obtain ⟨merged, hok, hby, -⟩ | ⟨-, hlong⟩ := h.cases hshort.1
    · exact ⟨merged, hok, hby⟩
    · exact absurd hshort.2 hlong

/-- A table of one entry. -/
def oneEntry (addr : UInt64) (size : UInt32) (b : UInt8) : MemoSyncTable :=
  [⟨addr, size, replicate size.toNat b⟩]

theorem oneEntry_kept {addr : UInt64} {size : UInt32} (b : UInt8) (hsize : size.toNat ≠ 0)
    (hwrap : addr.toNat + size.toNat < 2 ^ 64) : Kept (oneEntry addr size b) := by
  have hok : ∀ e ∈ oneEntry addr size b, e.Ok := by
    intro e he
    obtain rfl := mem_singleton.1 he
    exact ⟨hsize, length_replicate⟩
  have hstop : ∀ e ∈ oneEntry addr size b, e.extent.addr = addr.toNat ∧
      e.extent.stop = addr.toNat + size.toNat := by
    intro e he
    rw [stop_eq (hok e he)]
    obtain rfl := mem_singleton.1 he
    exact ⟨rfl, rfl⟩
  refine ⟨hok, ⟨pairwise_singleton _ _, fun e he => ?_⟩, fun e he => ?_⟩
  · obtain ⟨e', he', rfl⟩ := mem_map.1 he
    obtain ⟨h₁, h₂⟩ := hstop e' he'
    omega
  · rw [(hstop e he).2]
    exact hwrap

theorem oneEntry_bridged {addr : UInt64} {size : UInt32} {b : UInt8} {x : Nat}
    (h₁ : addr.toNat ≤ x) (h₂ : x + 1 < addr.toNat + size.toNat) :
    Bridged (extents (oneEntry addr size b)) x := by
  refine ⟨⟨addr.toNat, replicate size.toNat b⟩, .head _, ?_⟩
  unfold Covers stop
  rw [length_replicate]
  dsimp only
  omega

/-- A recording of one segment of two blocks, each of which loaded one run of bytes. -/
def twoBlocks (a : UInt64) (n : UInt32) (a' : UInt64) (n' : UInt32) : RuntimeEnv :=
  ⟨2, [none, none], [oneEntry a n 1, oneEntry a' n' 2], [.backToInterestTb, .outofInterestTb], []⟩

theorem twoBlocks_mergeable {a a' : UInt64} {n n' : UInt32} (hn : n.toNat ≠ 0)
    (hn' : n'.toNat ≠ 0) (h : a.toNat + n.toNat < 2 ^ 64) (h' : a'.toNat + n'.toNat < 2 ^ 64) :
    Mergeable (twoBlocks a n a' n') := by
  refine ⟨.segment (k := 0) .nil, rfl, rfl, fun t ht => ?_⟩
  obtain rfl | ht := mem_cons.1 ht
  · exact oneEntry_kept 1 hn h
  · obtain rfl := mem_singleton.1 ht
    exact oneEntry_kept 2 hn' h'

theorem twoBlocks_segments (a a' : UInt64) (n n' : UInt32) :
    segments (twoBlocks a n a' n').memoMergePoints (twoBlocks a n a' n').memoSyncTables =
      [[oneEntry a n 1, oneEntry a' n' 2]] := rfl

/-- Two overlapping loads are merged. -/
theorem mergeMemoSyncTables_two : ∃ merged, (twoBlocks 16 4 18 4).mergeMemoSyncTables = .ok merged ∧
      MergedBy (twoBlocks 16 4 18 4).memoMergePoints (twoBlocks 16 4 18 4).memoSyncTables
        merged := by
  have hmergeable : Mergeable (twoBlocks 16 4 18 4) :=
    twoBlocks_mergeable (by decide) (by decide) (by decide) (by decide)
  refine (mergeMemoSyncTables_iff _ hmergeable).2 ⟨nofun, fun seg hseg a => ?_⟩
  rw [twoBlocks_segments] at hseg
  obtain rfl := mem_singleton.1 hseg
  refine ⟨max a 22, le_max_left _ _, by omega, fun hb => ?_⟩
  obtain ⟨e, he, hx, -⟩ := hb
  have hstop : ∀ e ∈ allExtents [oneEntry 16 4 1, oneEntry 18 4 2], e.stop ≤ 22 := by decide
  have h₁ := hstop e he
  have h₂ := hx.2
  omega

/-- Two loads of `2 ^ 31` and `2 ^ 31 + 1` bytes with one byte in common make up `2 ^ 32` bytes,
    and the merge stops. -/
theorem mergeMemoSyncTables_long : Mergeable (twoBlocks 0 0x80000000 0x7fffffff 0x80000001) ∧
    ∃ e, (twoBlocks 0 0x80000000 0x7fffffff 0x80000001).mergeMemoSyncTables = .error e := by
  have hmergeable : Mergeable (twoBlocks 0 0x80000000 0x7fffffff 0x80000001) :=
    twoBlocks_mergeable (by decide) (by decide) (by decide) (by decide)
  refine ⟨hmergeable, ?_⟩
  obtain ⟨-, -, -, hshort, -⟩ | ⟨he, -⟩ := hmergeable.cases nofun
  · obtain ⟨x, -, hx, hb⟩ := hshort _ (by rw [twoBlocks_segments]; exact (.head _)) 0
    refine absurd (bridged_append.2 ?_) hb
    by_cases hlt : x + 1 < 2 ^ 31
    · exact .inl (oneEntry_bridged (Nat.zero_le x) hlt)
    · exact .inr (bridged_append.2 (.inl (oneEntry_bridged
        (show 2 ^ 31 - 1 ≤ x by omega) (show x + 1 < 2 ^ 31 - 1 + (2 ^ 31 + 1) by omega))))
  · exact he

end Crete.Dump
