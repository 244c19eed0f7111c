/-
  File:      Crete/Traces/Cycle.lean
  Subject:   Cycle detection in a block sequence (lib/include/crete/util/cycle.h):
             `find_cycles_custom` in both variants, with `remove_subranges` and
             `remove_overlapping_ranges`.

  A walker starts at an earlier occurrence of the block at hand and follows the sequence one step
  for each step of the scan. When it meets a different block it is erased, and if it then stands
  on its own first block again, the stretch it covered is recorded.

  The code reads elements it has just erased: `jt->from` behind an erased walker, and the range
  under `i` while `std::remove_if` moves the ranges about. What such a read returns, and the order
  in which `std::unordered_multimap` hands out equal keys, is not fixed by anything; it is a
  parameter here (`Unspecified`), with a value of its own for every read.

  * **`findCycles_returns`** -- the detection terminates, whatever those reads return.
  * `removeOverlapping_invariant` -- the rule for the rounds of `remove_overlapping_ranges`.
  * **`findCycles_repeats`** -- if every range that a walker records is a repetition, so is every
    returned range. Not every one is: `findCycles_slip`.
-/
import Crete.Lib.Replace
import Mathlib.Data.List.Destutter
import Mathlib.Data.List.Sort
import Mathlib.Data.Prod.Lex

namespace Crete.Traces

open Crete.Lib Option
open List hiding set

/-! ## 1. What is left open -/

/-- `crete::find_cycles_custom` and `crete::unoptimized::find_cycles_custom`. -/
inductive Variant where
  | optimized
  | unoptimized
  deriving DecidableEq, Repr

/-- `std::pair<InputIt, InputIt>`: the blocks from the first position on, up to the second. -/
abbrev Range := Nat × Nat

/-- **What neither the code nor the library fixes**: the order of `equal_range`, and the values
    read from erased elements. A read is named by the path of loop rounds it happens in, so no two
    reads have to agree. -/
structure Unspecified where
  order : List Nat → List Nat → List Nat
  perm : ∀ p l, (order p l).Perm l
  fromPos : List Nat → Nat
  range : List Nat → Range

/-- The reads of the `k`-th round of a loop. -/
def Unspecified.inner (u : Unspecified) (k : Nat) : Unspecified where
  order p := u.order (k :: p)
  perm p := u.perm (k :: p)
  fromPos p := u.fromPos (k :: p)
  range p := u.range (k :: p)

/-! ## 2. The walkers -/

variable {B : Type} [DecidableEq B]

/-- `CycleWalker`: where it starts from, where it is, and where it was generated. -/
structure CycleWalker where
  fromPos : Nat
  current : Nat
  toPos : Nat
  deriving DecidableEq, Repr

/-- `CycleWalker(f, t)`. -/
def CycleWalker.new (f t : Nat) : CycleWalker := ⟨f, f, t⟩

/-- The tail loop, with `left` blocks between `current` and `last`: where `current` stops. At
    `last` the code compares first and tests the end second, so the loop stops there whatever the
    read behind the end returns. -/
def walkOn (a : List B) : Nat → Nat → Nat → Nat
  | 0, _, current => current
  | left + 1, f, current =>
    if a[f]? = a[current]? then walkOn a left (f + 1) (current + 1) else current

/-- What a walker records when it is given up: the stretch from its first block on, if it stands
    on that block again and the stretch reaches the place the walker was generated. -/
def record (a : List B) (last : Nat) (w : CycleWalker) : List Range :=
  if a[w.current]? = a[w.fromPos]? then
    let current := walkOn a (last - w.current) w.fromPos w.current
    if w.toPos ≤ current then [(w.fromPos, current)] else []
  else []

/-- `cws`, `cws_set` and `cs` during the scan. -/
structure Walkers where
  cws : List CycleWalker
  cwsSet : List Nat
  cs : List Range

/-- `cws_set.erase(jt->from)` after `jt = cws.erase(jt)`, in the optimized variant: taken out is the
    start of the walker BEHIND the erased one, which was the `j`-th. -/
def eraseFrom (v : Variant) (u : Unspecified) (j : Nat) (rest : List CycleWalker)
    (set : List Nat) : List Nat :=
  match v, rest with
  | .unoptimized, _ => set
  | .optimized, next :: _ => set.filter (· ≠ next.fromPos)
  | .optimized, [] => set.filter (· ≠ (u.inner j).fromPos [])

/-- The loop over the walkers at block `e`, from the `j`-th one on. -/
def advance (v : Variant) (u : Unspecified) (a : List B) (last : Nat) (e : B) :
    Nat → List CycleWalker → List Nat → Walkers
  | _, [], set => ⟨[], set, []⟩
  | j, w :: ws, set =>
    let w := { w with current := w.current + 1 }
    if a[w.current]? ≠ some e then
      let r := advance v u a last e (j + 1) ws (eraseFrom v u j ws set)
      { r with cs := record a last w ++ r.cs }
    else
      let r := advance v u a last e (j + 1) ws set
      { r with cws := w :: r.cws }

/-- The loop over the earlier positions of the block at `it`. -/
def spawn (v : Variant) (it : Nat) : List Nat → List CycleWalker → List Nat →
    List CycleWalker × List Nat
  | [], cws, set => (cws, set)
  | f :: fs, cws, set =>
    if v = .optimized ∧ f ∈ set then spawn v it fs cws set
    else spawn v it fs (cws ++ [.new f it]) (f :: set)

/-- The state of the scan. -/
structure Scan (B : Type) where
  m : List (B × Nat)
  walkers : Walkers

/-- One round of the scan, at block `it`. -/
def scanStep (v : Variant) (u : Unspecified) (a : List B) (last it : Nat) (s : Scan B) : Scan B :=
  match a[it]? with
  | none => s
  | some e =>
    let r := advance v (u.inner it) a last e 0 s.walkers.cws s.walkers.cwsSet
    let range := (u.inner it).order [] ((s.m.filter (·.1 = e)).map Prod.snd)
    let (cws, set) := spawn v it range r.cws r.cwsSet
    ⟨s.m ++ [(e, it)], ⟨cws, set, s.walkers.cs ++ r.cs⟩⟩

/-- The scan, with `left` blocks to go. -/
def scan (v : Variant) (u : Unspecified) (a : List B) (last : Nat) : Nat → Nat → Scan B → Scan B
  | 0, _, s => s
  | left + 1, it, s => scan v u a last left (it + 1) (scanStep v u a last it s)

/-- The ranges recorded by the scan and by the walkers left at its end. -/
def rawCycles (v : Variant) (u : Unspecified) (a : List B) (first last : Nat) : List Range :=
  let s := scan v u a last (last - first) first ⟨[], [], [], []⟩
  s.walkers.cs ++ s.walkers.cws.flatMap fun w => record a last { w with current := w.current + 1 }

/-! ## 3. Ranges -/

/-- The order of `std::pair`. -/
def rangeLe (p q : Range) : Prop := p.1 < q.1 ∨ p.1 = q.1 ∧ p.2 ≤ q.2
  deriving Decidable

/-- `std::sort`. -/
def sortRanges (cs : List Range) : List Range := cs.insertionSort rangeLe

/-- `std::sort` and `std::unique`. -/
def sortUnique (cs : List Range) : List Range := (sortRanges cs).destutter (· ≠ ·)

/-- The test of `remove_subranges`: `p` lies strictly inside `i`. -/
def subrange (i p : Range) : Bool :=
  i.1 ≤ p.1 && p.2 < i.2 || i.1 < p.1 && p.2 ≤ i.2

/-- The range under `i`, read when the `k`-th range is tested; behind `last` there is none. -/
def rangeUnder (u : Unspecified) (i last k : Nat) (store : List Range) : Range :=
  if i < last then store.getD i (0, 0) else (u.inner k).range []

/-- `std::remove_if` as the library has it: what is kept moves down to `result`, in place. The test
    reads the range under `i` anew each time, also when it has been overwritten. -/
def removeIf (u : Unspecified) (i last : Nat) : Nat → Nat → Nat → List Range → List Range × Nat
  | 0, _, result, store => (store, result)
  | left + 1, k, result, store =>
    let p := store.getD k (0, 0)
    if subrange (rangeUnder u i last k store) p then removeIf u i last left (k + 1) result store
    else removeIf u i last left (k + 1) (result + 1) (store.set result p)

/-- `remove_subranges`; `c` counts the rounds, `n` is the fuel. -/
def removeSubranges (u : Unspecified) : Nat → Nat → Nat → Nat → List Range → Option (List Range)
  | 0, _, _, _, _ => none
  | n + 1, c, i, last, store =>
    if i = last then some (store.take last)
    else
      let r := removeIf (u.inner c) i last last 0 0 store
      if r.2 < i then removeSubranges u n (c + 1) r.2 r.2 r.1
      else removeSubranges u n (c + 1) (i + 1) r.2 r.1

/-- The test of `remove_overlapping_ranges`: `p` begins inside `i` and ends behind it. -/
def overlapping (i p : Range) : Bool := i.1 < p.1 && i.2 < p.2 && p.1 < i.2

/-- Of two overlapping ranges at `i` and `r` the shorter one gives way, the first if they are alike:
    the part of it that is left to search again, and its place. -/
def giveWay (x y : Range) (i r : Nat) : Range × Nat :=
  if y.2 - y.1 < x.2 - x.1 then ((x.2, y.2), r) else ((x.1, y.1), i)

/-- `remove_overlapping_ranges`; `find` is the recursive call, `c` counts the rounds, `n` is the
    fuel. `ranges.erase` leaves the iterator behind the erased range. -/
def removeOverlapping (find : Unspecified → Nat → Nat → Option (List Range)) (u : Unspecified) :
    Nat → Nat → List Range → Nat → Option (List Range)
  | 0, _, _, _ => none
  | n + 1, c, ranges, i =>
    match ranges[i]? with
    | none => some ranges
    | some x =>
      let r := ranges.findIdx (overlapping x)
      match ranges[r]? with
      | none => removeOverlapping find u n (c + 1) ranges (i + 1)
      | some y => do
          let (part, j) := giveWay x y i r
          let cs ← find (u.inner c) part.1 part.2
          let ranges := ranges.eraseIdx j
          if cs = [] then removeOverlapping find u n (c + 1) ranges j
          else removeOverlapping find u n (c + 1) (ranges ++ cs) 0

/-- `find_cycles_custom(first, last)` with fuel `n`. -/
def findCycles (v : Variant) (a : List B) : Nat → Unspecified → Nat → Nat → Option (List Range)
  | 0, _, _, _ => none
  | n + 1, u, first, last => do
      let cs := sortUnique (rawCycles v (u.inner 0) a first last)
      let cs ← removeSubranges (u.inner 1) n 0 0 cs.length cs
      removeOverlapping (findCycles v a n) (u.inner 2) n 0 cs 0

/-- `crete::find_cycles_custom`. -/
def findCyclesCustom (a : List B) (n : Nat) (u : Unspecified) (first last : Nat) :
    Option (List Range) :=
  findCycles .optimized a n u first last

/-- `crete::unoptimized::find_cycles_custom`. -/
def Unoptimized.findCyclesCustom (a : List B) (n : Nat) (u : Unspecified) (first last : Nat) :
    Option (List Range) :=
  findCycles .unoptimized a n u first last

/-! ## 4. What a walker records -/

/-- **A stretch** of the part of the sequence from `lo` to `hi`: the first `k` blocks of the range
    stand again at a later place `t`, where the likeness ends or the part does; from its `k`-th
    block on the range repeats what stands `k` blocks before, as far as that goes; and it reaches
    `t`. -/
def Stretch (a : List B) (lo hi : Nat) (r : Range) : Prop :=
  ∃ t k, (lo ≤ r.1 ∧ r.1 < t ∧ 1 ≤ k ∧ t + k ≤ hi) ∧
    (∀ i < k, a[r.1 + i]? = a[t + i]?) ∧ (t + k = hi ∨ a[r.1 + k]? ≠ a[t + k]?) ∧
    (r.1 + k < r.2 ∧ r.2 ≤ hi ∧ t ≤ r.2) ∧
    (∀ i, r.1 + k ≤ i → i < r.2 → a[i - k]? = a[i]?) ∧ (r.2 = hi ∨ a[r.2 - k]? ≠ a[r.2]?)

/-- A walker before the scan looks at block `it`: it has followed the sequence from where it was
    generated. -/
structure Follows (a : List B) (lo it : Nat) (w : CycleWalker) : Prop where
  lo_le : lo ≤ w.fromPos
  from_lt : w.fromPos < w.toPos
  to_lt : w.toPos < it
  current : w.current + w.toPos + 1 = w.fromPos + it
  same : ∀ i, w.toPos + i < it → a[w.fromPos + i]? = a[w.toPos + i]?

section Walkers

variable {a : List B} {lo hi it : Nat}

/-- **The tail loop** goes on as long as the blocks repeat with distance `k`. -/
theorem walkOn_spec (a : List B) (k : Nat) : ∀ (left f : Nat),
    (f + k ≤ walkOn a left f (f + k) ∧ walkOn a left f (f + k) ≤ f + k + left) ∧
    (∀ i, f + k ≤ i → i < walkOn a left f (f + k) → a[i - k]? = a[i]?) ∧
    (walkOn a left f (f + k) = f + k + left ∨
      a[walkOn a left f (f + k) - k]? ≠ a[walkOn a left f (f + k)]?)
  | 0, f => by
    refine ⟨⟨le_rfl, le_rfl⟩, fun i h1 h2 => ?_, .inl rfl⟩
    rw [walkOn] at h2
    omega
  | left + 1, f => by
    rw [walkOn]
    split
    · rename_i heq
      obtain ⟨⟨h1, h2⟩, h3, h4⟩ := walkOn_spec a k left (f + 1)
      rw [show f + 1 + k = f + k + 1 by omega] at h1 h2 h3 h4
      refine ⟨⟨by omega, by omega⟩, fun i hi hlt => ?_, ?_⟩
      · by_cases h0 : i = f + k
        · rw [h0, Nat.add_sub_cancel]
          exact heq
        · exact h3 i (by omega) hlt
      · rwa [show f + k + (left + 1) = f + k + 1 + left by omega]
    · rename_i hne
      refine ⟨⟨le_rfl, by omega⟩, fun i h1 h2 => ?_, .inr ?_⟩
      · omega
      · rwa [Nat.add_sub_cancel]

/-- **What is recorded is a stretch**, for a walker given up at block `it` or at the end. -/
theorem Follows.record {w : CycleWalker} (h : Follows a lo it w) (hit : it ≤ hi)
    (hend : it = hi ∨ a[w.current + 1]? ≠ a[it]?) {r : Range}
    (hr : r ∈ record a hi { w with current := w.current + 1 }) : Stretch a lo hi r := by
  obtain ⟨k, hk⟩ : ∃ k, it = w.toPos + k := ⟨it - w.toPos, by have := h.to_lt; omega⟩
  have hlt := h.to_lt
  have hfrom := h.from_lt
  have hcur : w.current + 1 = w.fromPos + k := by
    have := h.current
    omega
  simp only [Traces.record, hcur] at hr
  rw [hcur] at hend
  split at hr
  case isFalse => cases hr
  rename_i hback
  split at hr
  case isFalse => cases hr
  rename_i hto
  rw [mem_singleton] at hr
  obtain ⟨⟨h1, h2⟩, h3, h4⟩ := walkOn_spec a k (hi - (w.fromPos + k)) w.fromPos
  have hspan : w.fromPos + k + (hi - (w.fromPos + k)) = hi := by omega
  rw [hspan] at h2 h4
  subst hr
  refine ⟨w.toPos, k, ⟨h.lo_le, hfrom, by omega, by omega⟩, fun i hi => h.same i (by omega), ?_,
    ⟨?_, h2, hto⟩, h3, h4⟩
  · rw [← hk]
    exact hend
  · -- the walker stands on its own first block, so the tail loop runs at least once
    obtain ⟨left, hleft⟩ : ∃ left, hi - (w.fromPos + k) = left + 1 :=
      ⟨hi - (w.fromPos + k) - 1, by omega⟩
    simp only [hleft, walkOn, if_pos hback.symm]
    have h5 := (walkOn_spec a k left (w.fromPos + 1)).1.1
    rw [show w.fromPos + 1 + k = w.fromPos + k + 1 by omega] at h5
    omega

omit [DecidableEq B] in
/-- A walker that sees the block it expects goes on. -/
theorem Follows.next {w : CycleWalker} (h : Follows a lo it w) (hs : a[w.current + 1]? = a[it]?) :
    Follows a lo (it + 1) { w with current := w.current + 1 } where
  lo_le := h.lo_le
  from_lt := h.from_lt
  to_lt := Nat.lt_succ_of_lt h.to_lt
  current := by
    have := h.current
    show w.current + 1 + w.toPos + 1 = w.fromPos + (it + 1)
    omega
  same := by
    intro i hi
    have hlt := h.to_lt
    have hc := h.current
    by_cases hi' : w.toPos + i < it
    · exact h.same i hi'
    · have e1 : w.toPos + i = it := by
        have : w.toPos + i < it + 1 := hi
        omega
      have e2 : w.fromPos + i = w.current + 1 := by omega
      show a[w.fromPos + i]? = a[w.toPos + i]?
      rw [e1, e2, hs]

/-- **The loop over the walkers**: those kept go on, and what is recorded is a stretch. -/
theorem advance_spec (v : Variant) (u : Unspecified) {e : B} (he : a[it]? = some e)
    (hit : it < hi) : ∀ (ws : List CycleWalker) (j : Nat) (set : List Nat),
    (∀ w ∈ ws, Follows a lo it w) →
    (∀ w ∈ (advance v u a hi e j ws set).cws, Follows a lo (it + 1) w) ∧
    ∀ r ∈ (advance v u a hi e j ws set).cs, Stretch a lo hi r
  | [], j, set, _ => ⟨forall_mem_nil _, forall_mem_nil _⟩
  | w :: ws, j, set, h => by
    have hw := h w (.head _)
    have hws : ∀ w' ∈ ws, Follows a lo it w' := (forall_mem_cons.1 h).2
    rw [advance]
    split
    · rename_i hne
      refine ⟨(advance_spec v u he hit ws (j + 1) _ hws).1, fun r hr => ?_⟩
      rcases mem_append.1 hr with hr | hr
      · exact hw.record (Nat.le_of_lt hit) (.inr (by rw [he]; exact hne)) hr
      · exact (advance_spec v u he hit ws (j + 1) _ hws).2 r hr
    · rename_i heq
      refine ⟨fun w' hw' => ?_, (advance_spec v u he hit ws (j + 1) _ hws).2⟩
      rcases mem_cons.1 hw' with rfl | hw'
      · exact hw.next (by rw [he]; exact Decidable.not_not.1 heq)
      · exact (advance_spec v u he hit ws (j + 1) _ hws).1 w' hw'

/-- Walkers that all see the block they expect go on. -/
theorem advance_all (v : Variant) (u : Unspecified) {e : B} : ∀ (ws : List CycleWalker) (j : Nat)
    (set : List Nat), (∀ w ∈ ws, a[w.current + 1]? = some e) →
    advance v u a hi e j ws set = ⟨ws.map fun w => { w with current := w.current + 1 }, set, []⟩
  | [], _, _, _ => rfl
  | w :: ws, j, set, h => by
    rw [advance, if_neg (not_not_intro (h w (.head _))),
      advance_all v u ws (j + 1) set (forall_mem_cons.1 h).2]
    rfl

omit [DecidableEq B] in
/-- The walkers generated at `it`. -/
theorem spawn_follows (v : Variant) : ∀ (fs : List Nat) (cws : List CycleWalker) (set : List Nat),
    (∀ f ∈ fs, lo ≤ f ∧ f < it ∧ a[f]? = a[it]?) → (∀ w ∈ cws, Follows a lo (it + 1) w) →
    ∀ w ∈ (spawn v it fs cws set).1, Follows a lo (it + 1) w
  | [], cws, set, _, h => h
  | f :: fs, cws, set, hf, h => by
    have hfs : ∀ g ∈ fs, lo ≤ g ∧ g < it ∧ a[g]? = a[it]? :=
      (forall_mem_cons.1 hf).2
    rw [spawn]
    split
    · exact spawn_follows v fs cws set hfs h
    · refine spawn_follows v fs _ _ hfs fun w hw => ?_
      rcases mem_append.1 hw with hw | hw
      · exact h w hw
      · obtain ⟨h1, h2, h3⟩ := hf f (.head _)
        rw [mem_singleton] at hw
        subst hw
        refine ⟨h1, h2, Nat.lt_succ_self it, ?_, fun i hi => ?_⟩
        · show f + it + 1 = f + (it + 1)
          omega
        · have hi0 : i = 0 := by
            have : it + i < it + 1 := hi
            omega
          subst hi0
          exact h3

/-- The scan before block `it`. -/
structure Scanned (a : List B) (lo hi it : Nat) (s : Scan B) : Prop where
  m : ∀ p ∈ s.m, lo ≤ p.2 ∧ p.2 < it ∧ a[p.2]? = some p.1
  cws : ∀ w ∈ s.walkers.cws, Follows a lo it w
  cs : ∀ r ∈ s.walkers.cs, Stretch a lo hi r

/-- **One round of the scan.** -/
theorem Scanned.step {s : Scan B} (h : Scanned a lo hi it s) (v : Variant) (u : Unspecified)
    (hlo : lo ≤ it) (hit : it < hi) (hin : it < a.length) :
    Scanned a lo hi (it + 1) (scanStep v u a hi it s) := by
  have he : a[it]? = some a[it] := getElem?_eq_getElem hin
  obtain ⟨hcws, hcs⟩ := advance_spec v (u.inner it) he hit s.walkers.cws 0 s.walkers.cwsSet h.cws
  rw [scanStep, he]
  refine ⟨fun p hp => ?_, ?_, fun r hr => ?_⟩
  · rcases mem_append.1 hp with hp | hp
    · obtain ⟨h1, h2, h3⟩ := h.m p hp
      exact ⟨h1, Nat.lt_succ_of_lt h2, h3⟩
    · rw [mem_singleton] at hp
      subst hp
      exact ⟨hlo, Nat.lt_succ_self it, he⟩
  · refine spawn_follows v _ _ _ (fun f hf => ?_) hcws
    obtain ⟨p, hp, rfl⟩ := mem_map.1 (((u.inner it).perm [] _).mem_iff.1 hf)
    obtain ⟨hp, hpe⟩ := mem_filter.1 hp
    obtain ⟨h1, h2, h3⟩ := h.m p hp
    exact ⟨h1, h2, by rw [h3, he, of_decide_eq_true hpe]⟩
  · exact (mem_append.1 hr).elim (h.cs r) (hcs r)

/-- **The whole scan.** -/
theorem Scanned.scan (v : Variant) (u : Unspecified) (hin : hi ≤ a.length) :
    ∀ (left : Nat) {it : Nat} {s : Scan B}, Scanned a lo hi it s → lo ≤ it → it + left = hi →
    Scanned a lo hi hi (Traces.scan v u a hi left it s)
  | 0, it, s, h, _, he => by
    rw [Nat.add_zero] at he
    exact he ▸ h
  | left + 1, it, s, h, hlo, he =>
    Scanned.scan v u hin left (h.step v u hlo (by omega) (by omega)) (by omega) (by omega)

/-- **Every recorded range is a stretch.** -/
theorem rawCycles_stretch (v : Variant) (u : Unspecified) (hin : hi ≤ a.length) {r : Range}
    (hr : r ∈ rawCycles v u a lo hi) : Stretch a lo hi r := by
  by_cases hle : lo ≤ hi
  · have h0 : Scanned a lo hi lo (⟨[], [], [], []⟩ : Scan B) :=
      ⟨forall_mem_nil _, forall_mem_nil _, forall_mem_nil _⟩
    have hs := h0.scan v u hin (hi - lo) (Nat.le_refl lo) (by omega)
    rcases mem_append.1 hr with hr | hr
    · exact hs.cs r hr
    · obtain ⟨w, hw, hr⟩ := mem_flatMap.1 hr
      exact (hs.cws w hw).record (Nat.le_refl hi) (.inl rfl) hr
  · rw [rawCycles, show hi - lo = 0 by omega] at hr
    cases hr

end Walkers

/-! ## 5. What is returned was recorded -/

/-- A stretch of some part of the part from `lo` to `hi`. -/
def Found (a : List B) (lo hi : Nat) (r : Range) : Prop :=
  ∃ lo' hi', lo ≤ lo' ∧ hi' ≤ hi ∧ Stretch a lo' hi' r

section Found

variable {a : List B} {lo hi : Nat}

omit [DecidableEq B] in
theorem Stretch.found {r : Range} (h : Stretch a lo hi r) : Found a lo hi r :=
  ⟨lo, hi, Nat.le_refl lo, Nat.le_refl hi, h⟩

omit [DecidableEq B] in
/-- A range found is not empty and lies inside. -/
theorem Found.within {r : Range} (h : Found a lo hi r) : lo ≤ r.1 ∧ r.1 < r.2 ∧ r.2 ≤ hi := by
  obtain ⟨lo', hi', h1, h2, t, k, ⟨h3, -, -, -⟩, -, -, ⟨h4, h5, -⟩, -, -⟩ := h
  omega

omit [DecidableEq B] in
theorem Found.mono {lo' hi' : Nat} {r : Range} (h : Found a lo' hi' r) (h1 : lo ≤ lo')
    (h2 : hi' ≤ hi) : Found a lo hi r := by
  obtain ⟨l, m, h3, h4, hs⟩ := h
  exact ⟨l, m, by omega, by omega, hs⟩

theorem mem_sortUnique {cs : List Range} {r : Range} (h : r ∈ sortUnique cs) : r ∈ cs :=
  (perm_insertionSort _ cs).mem_iff.1 ((destutter_sublist _ _).mem h)

/-- A pass of `std::remove_if` moves ranges about and makes none. -/
theorem removeIf_spec (u : Unspecified) (i last : Nat) :
    ∀ (left k result : Nat) (store : List Range), result ≤ k → k + left ≤ store.length →
    ((removeIf u i last left k result store).1.length = store.length ∧
      result ≤ (removeIf u i last left k result store).2 ∧
      (removeIf u i last left k result store).2 ≤ result + left) ∧
    ∀ p ∈ (removeIf u i last left k result store).1, p ∈ store
  | 0, k, result, store, _, _ => ⟨⟨rfl, le_rfl, le_rfl⟩, fun p hp => hp⟩
  | left + 1, k, result, store, hr, hk => by
    rw [removeIf]
    split
    · obtain ⟨⟨h1, h2, h3⟩, h4⟩ := removeIf_spec u i last left (k + 1) result store (by omega)
        (by omega)
      exact ⟨⟨h1, h2, by omega⟩, h4⟩
    · have hlen : (store.set result (store.getD k (0, 0))).length = store.length :=
        length_set
      obtain ⟨⟨h1, h2, h3⟩, h4⟩ := removeIf_spec u i last left (k + 1) (result + 1)
        (store.set result (store.getD k (0, 0))) (by omega) (by omega)
      refine ⟨⟨h1.trans hlen, by omega, by omega⟩, fun p hp => ?_⟩
      rcases mem_or_eq_of_mem_set (h4 p hp) with h | rfl
      · exact h
      · rw [getD_eq_getElem?_getD, getElem?_eq_getElem (by omega), getD_some]
        exact getElem_mem _

/-- `remove_subranges` makes no ranges. -/
theorem removeSubranges_mem (u : Unspecified) : ∀ (n c i last : Nat) (store cs : List Range),
    last ≤ store.length → removeSubranges u n c i last store = some cs → ∀ r ∈ cs, r ∈ store
  | 0, c, i, last, store, cs, _, h => by cases h
  | n + 1, c, i, last, store, cs, hl, h => by
    obtain ⟨⟨h1, -, h3⟩, h4⟩ := removeIf_spec (u.inner c) i last last 0 0 store (Nat.le_refl 0)
      (by omega)
    rw [removeSubranges] at h
    split at h
    · cases h
      exact fun r hr => mem_of_mem_take hr
    · dsimp only at h
      split at h
      · exact fun r hr => h4 r (removeSubranges_mem u n _ _ _ _ cs (by omega) h r hr)
      · exact fun r hr => h4 r (removeSubranges_mem u n _ _ _ _ cs (by omega) h r hr)

theorem giveWay_within {x y : Range} (hx : lo ≤ x.1 ∧ x.1 < x.2 ∧ x.2 ≤ hi)
    (hy : lo ≤ y.1 ∧ y.1 < y.2 ∧ y.2 ≤ hi) (i r : Nat) :
    lo ≤ (giveWay x y i r).1.1 ∧ (giveWay x y i r).1.2 ≤ hi := by
  unfold giveWay
  split
  · exact ⟨by show lo ≤ x.2; omega, hy.2.2⟩
  · exact ⟨hx.1, by show y.1 ≤ hi; omega⟩

/-- **A condition on every round of `remove_overlapping_ranges`** in which a range overlaps another:
    on the round, the ranges, the iterator, what gives way, and what is found in the part left. -/
def EveryRound (find : Unspecified → Nat → Nat → Option (List Range)) (u : Unspecified)
    (ok : Nat → List Range → Nat → Range × Nat → List Range → Prop) :
    Nat → Nat → List Range → Nat → Prop
  | 0, _, _, _ => True
  | n + 1, c, ranges, i =>
    match ranges[i]? with
    | none => True
    | some x =>
      match ranges[ranges.findIdx (overlapping x)]? with
      | none => EveryRound find u ok n (c + 1) ranges (i + 1)
      | some y =>
        let g := giveWay x y i (ranges.findIdx (overlapping x))
        match find (u.inner c) g.1.1 g.1.2 with
        | none => True
        | some cs => ok c ranges i g cs ∧
            EveryRound find u ok n (c + 1) (ranges.eraseIdx g.2 ++ cs) (if cs = [] then g.2 else 0)

/-- **The invariant rule for `remove_overlapping_ranges`**: what a round keeps holds in the end,
    when the iterator is behind all ranges. -/
theorem removeOverlapping_invariant {find : Unspecified → Nat → Nat → Option (List Range)}
    {u : Unspecified} {K : Nat → List Range → Nat → Range × Nat → List Range → Prop}
    {I : List Range → Nat → Prop} (skip : ∀ ranges i x, I ranges i → ranges[i]? = some x →
      (∀ y ∈ ranges, overlapping x y = false) → I ranges (i + 1))
    (round : ∀ c ranges i x y cs, I ranges i → ranges[i]? = some x →
      ranges[ranges.findIdx (overlapping x)]? = some y →
      let g := giveWay x y i (ranges.findIdx (overlapping x))
      find (u.inner c) g.1.1 g.1.2 = some cs → K c ranges i g cs →
      I (ranges.eraseIdx g.2 ++ cs) (if cs = [] then g.2 else 0)) :
    ∀ (n c : Nat) (ranges : List Range) (i : Nat) (cs : List Range), I ranges i →
    EveryRound find u K n c ranges i → removeOverlapping find u n c ranges i = some cs →
    ∃ i, cs.length ≤ i ∧ I cs i
  | 0, c, ranges, i, cs, _, _, h => by cases h
  | n + 1, c, ranges, i, cs, hinv, hok, h => by
    rw [removeOverlapping] at h
    rw [EveryRound] at hok
    cases hx : ranges[i]? with
    | none =>
      rw [hx] at h
      cases h
      exact ⟨i, getElem?_eq_none_iff.1 hx, hinv⟩
    | some x =>
      rw [hx] at h hok
      dsimp only at h hok
      cases hy : ranges[ranges.findIdx (overlapping x)]? with
      | none =>
        rw [hy] at h hok
        refine removeOverlapping_invariant skip round n _ _ _ cs (skip _ _ _ hinv hx ?_) hok h
        have hall := findIdx_eq_length.1
          (Nat.le_antisymm findIdx_le_length (getElem?_eq_none_iff.1 hy))
        simpa using hall
      | some y =>
        rw [hy] at h hok
        obtain ⟨new, hnew, h⟩ := bind_eq_some_iff.1 h
        dsimp only at h hok
        rw [hnew] at hok
        refine removeOverlapping_invariant skip round n _ _ _ cs
          (round _ _ _ _ _ _ hinv hx hy hnew hok.1) hok.2 ?_
        by_cases he : new = []
        · rw [if_pos he] at h ⊢
          rwa [he, append_nil]
        · rwa [if_neg he] at h ⊢

theorem everyRound_of_forall {find : Unspecified → Nat → Nat → Option (List Range)}
    {u : Unspecified} {ok : Nat → List Range → Nat → Range × Nat → List Range → Prop}
    (h : ∀ c ranges i g cs, ok c ranges i g cs) :
    ∀ (n c : Nat) (ranges : List Range) (i : Nat), EveryRound find u ok n c ranges i
  | 0, _, _, _ => trivial
  | n + 1, c, ranges, i => by
    rw [EveryRound]
    split
    · trivial
    · split
      · exact everyRound_of_forall h n _ _ _
      · dsimp only
        split
        · trivial
        · exact ⟨h _ _ _ _ _, everyRound_of_forall h n _ _ _⟩

omit [DecidableEq B] in
/-- **`remove_overlapping_ranges` keeps what was found**, if the recursive calls find. -/
theorem removeOverlapping_found {find : Unspecified → Nat → Nat → Option (List Range)}
    (hfind : ∀ u x y cs, y ≤ hi → find u x y = some cs → ∀ r ∈ cs, Found a x y r)
    (u : Unspecified) (n c : Nat) (ranges : List Range) (i : Nat) (cs : List Range)
    (hall : ∀ r ∈ ranges, Found a lo hi r) (h : removeOverlapping find u n c ranges i = some cs) :
    ∀ r ∈ cs, Found a lo hi r := by
  refine (removeOverlapping_invariant (K := fun _ _ _ _ _ => True)
    (I := fun ranges _ => ∀ r ∈ ranges, Found a lo hi r) (fun _ _ _ hall _ _ => hall)
    (fun c ranges i x y new hall hx hy hnew _ r hr => ?_) n c ranges i cs hall
    (everyRound_of_forall (fun _ _ _ _ _ => trivial) _ _ _ _) h).elim fun _ hcs => hcs.2
  have hpart := giveWay_within (hall x (mem_of_getElem? hx)).within
    (hall y (mem_of_getElem? hy)).within i (ranges.findIdx (overlapping x))
  rcases mem_append.1 hr with hr | hr
  · exact hall r (mem_of_mem_eraseIdx hr)
  · exact (hfind _ _ _ _ hpart.2 hnew r hr).mono hpart.1 hpart.2

/-- **Every returned range is a stretch of some part of the sequence.** -/
theorem findCycles_found (v : Variant) (a : List B) : ∀ (n : Nat) (u : Unspecified)
    (first last : Nat) (cs : List Range), last ≤ a.length →
    findCycles v a n u first last = some cs → ∀ r ∈ cs, Found a first last r
  | 0, u, first, last, cs, _, h => by cases h
  | n + 1, u, first, last, cs, hin, h => by
    rw [findCycles] at h
    obtain ⟨cs', hcs', h⟩ := bind_eq_some_iff.1 h
    refine removeOverlapping_found (fun u x y cs hy => findCycles_found v a n u x y cs (by omega))
      _ _ _ _ _ _ (fun r hr => ?_) h
    have hr := removeSubranges_mem _ _ _ _ _ _ _ le_rfl hcs' r hr
    exact (rawCycles_stretch v _ hin (mem_sortUnique hr)).found

end Found

/-! ## 6. The detection terminates -/

/-- `remove_subranges` makes one pass for each range, and at most one more behind the last. -/
theorem removeSubranges_returns (u : Unspecified) : ∀ (n c i last : Nat) (store : List Range),
    last ≤ store.length → i ≤ last + 1 → last + 2 < n + i →
    ∃ cs, removeSubranges u n c i last store = some cs
  | 0, c, i, last, store, _, hi, hn => by omega
  | n + 1, c, i, last, store, hl, hi, hn => by
    obtain ⟨⟨h1, -, h3⟩, -⟩ := removeIf_spec (u.inner c) i last last 0 0 store (Nat.le_refl 0)
      (by omega)
    rw [removeSubranges]
    by_cases he : i = last
    · exact ⟨_, if_pos he⟩
    · rw [if_neg he]
      dsimp only
      split
      · obtain ⟨n, rfl⟩ : ∃ m, n = m + 1 := ⟨n - 1, by omega⟩
        exact ⟨_, by rw [removeSubranges, if_pos rfl]⟩
      · exact removeSubranges_returns u n _ _ _ _ (by omega) (by omega) (by omega)

theorem removeSubranges_mono (u : Unspecified) : ∀ {n m : Nat}, n ≤ m →
    ∀ {c i last : Nat} {store cs : List Range},
    removeSubranges u n c i last store = some cs → removeSubranges u m c i last store = some cs
  | 0, m, _, c, i, last, store, cs, h => by cases h
  | n + 1, 0, hm, c, i, last, store, cs, h => by omega
  | n + 1, m + 1, hm, c, i, last, store, cs, h => by
    rw [removeSubranges] at h ⊢
    by_cases he : i = last
    · rwa [if_pos he] at h ⊢
    · rw [if_neg he] at h ⊢
      dsimp only at h ⊢
      split
      · rename_i hlt
        rw [if_pos hlt] at h
        exact removeSubranges_mono u (Nat.le_of_succ_le_succ hm) h
      · rename_i hlt
        rw [if_neg hlt] at h
        exact removeSubranges_mono u (Nat.le_of_succ_le_succ hm) h

/-- More fuel, for the loop and for its recursive calls, changes no result. -/
theorem removeOverlapping_mono {find find' : Unspecified → Nat → Nat → Option (List Range)}
    (hf : ∀ u x y cs, find u x y = some cs → find' u x y = some cs) (u : Unspecified) :
    ∀ {n m : Nat}, n ≤ m → ∀ {c : Nat} {ranges : List Range} {i : Nat} {cs : List Range},
    removeOverlapping find u n c ranges i = some cs →
    removeOverlapping find' u m c ranges i = some cs
  | 0, m, _, c, ranges, i, cs, h => by cases h
  | n + 1, 0, hm, c, ranges, i, cs, h => by omega
  | n + 1, m + 1, hm, c, ranges, i, cs, h => by
    have hm := Nat.le_of_succ_le_succ hm
    rw [removeOverlapping] at h ⊢
    cases hx : ranges[i]? with
    | none =>
      rw [hx] at h
      exact h
    | some x =>
      rw [hx] at h
      dsimp only at h ⊢
      cases hy : ranges[ranges.findIdx (overlapping x)]? with
      | none =>
        rw [hy] at h
        exact removeOverlapping_mono hf u hm h
      | some y =>
        rw [hy] at h
        obtain ⟨new, hnew, h⟩ := bind_eq_some_iff.1 h
        refine bind_eq_some_iff.2 ⟨new, hf _ _ _ _ hnew, ?_⟩
        by_cases he : new = []
        · rw [if_pos he] at h ⊢
          exact removeOverlapping_mono hf u hm h
        · rw [if_neg he] at h ⊢
          exact removeOverlapping_mono hf u hm h

/-- **Fuel is only a bound**: with more of it the detection returns the same. -/
theorem findCycles_mono (v : Variant) (a : List B) : ∀ {n m : Nat}, n ≤ m →
    ∀ {u : Unspecified} {first last : Nat} {cs : List Range},
    findCycles v a n u first last = some cs → findCycles v a m u first last = some cs
  | 0, m, _, u, first, last, cs, h => by cases h
  | n + 1, 0, hm, u, first, last, cs, h => by omega
  | n + 1, m + 1, hm, u, first, last, cs, h => by
    have hm := Nat.le_of_succ_le_succ hm
    rw [findCycles] at h ⊢
    obtain ⟨cs', hcs', h⟩ := bind_eq_some_iff.1 h
    exact bind_eq_some_iff.2 ⟨cs', removeSubranges_mono _ hm hcs',
      removeOverlapping_mono (fun u x y cs => findCycles_mono v a hm) _ hm h⟩

/-- The length of a range. -/
def Range.length (r : Range) : Nat := r.2 - r.1

theorem overlapping_of_findIdx {ranges : List Range} {x y : Range}
    (h : ranges[ranges.findIdx (overlapping x)]? = some y) :
    x.1 < y.1 ∧ x.2 < y.2 ∧ y.1 < x.2 := by
  obtain ⟨hlt, rfl⟩ := List.getElem?_eq_some_iff.1 h
  have := findIdx_getElem (p := overlapping x) (w := hlt)
  simpa [overlapping, and_assoc] using this

/-- The part searched again is shorter than the range that gave way, and inside it. -/
theorem giveWay_shorter {ranges : List Range} {x y : Range} {i : Nat} (hx : ranges[i]? = some x)
    (hy : ranges[ranges.findIdx (overlapping x)]? = some y) (hne : x.1 < x.2) :
    ∃ z, ranges[(giveWay x y i (ranges.findIdx (overlapping x))).2]? = some z ∧
      z.1 ≤ (giveWay x y i (ranges.findIdx (overlapping x))).1.1 ∧
      (giveWay x y i (ranges.findIdx (overlapping x))).1.2 ≤ z.2 ∧
      (giveWay x y i (ranges.findIdx (overlapping x))).1.2 -
        (giveWay x y i (ranges.findIdx (overlapping x))).1.1 < z.2 - z.1 := by
  obtain ⟨h1, h2, h3⟩ := overlapping_of_findIdx hy
  unfold giveWay
  split
  · exact ⟨y, hy, Nat.le_of_lt h3, le_rfl, by show y.2 - x.2 < y.2 - y.1; omega⟩
  · exact ⟨x, hx, le_rfl, Nat.le_of_lt h3, by show y.1 - x.1 < x.2 - x.1; omega⟩

section Returns

variable {v : Variant} {a : List B} {lo hi : Nat}

/-- **`remove_overlapping_ranges` terminates**, if the recursive calls on shorter parts do: a
    range is taken out, and only shorter ranges come in for it. -/
theorem removeOverlapping_returns (hin : hi ≤ a.length)
    (hfind : ∀ u x y, y ≤ hi → y - x < hi - lo → ∃ n cs, findCycles v a n u x y = some cs)
    (u : Unspecified) (ranges : List Range)
    (hall : ∀ r ∈ ranges, lo ≤ r.1 ∧ r.1 < r.2 ∧ r.2 ≤ hi) (c i : Nat) :
    ∃ n cs, removeOverlapping (findCycles v a n) u n c ranges i = some cs := by
  induction ranges using (replaced_wf Range.length).induction generalizing c i with
  | _ ranges ih =>
  induction hd : ranges.length - i generalizing c i with
  | zero =>
    have hx : ranges[i]? = none := getElem?_eq_none (by omega)
    exact ⟨1, ranges, by rw [removeOverlapping, hx]⟩
  | succ d ihd =>
    obtain ⟨x, hx⟩ : ∃ x, ranges[i]? = some x := ⟨_, getElem?_eq_getElem (by omega)⟩
    have hxw := hall x (mem_of_getElem? hx)
    cases hy : ranges[ranges.findIdx (overlapping x)]? with
    | none =>
      obtain ⟨n, cs, h⟩ := ihd (c + 1) (i + 1) (by omega)
      refine ⟨n + 1, cs, ?_⟩
      rw [removeOverlapping, hx]
      simp only [hy]
      exact removeOverlapping_mono
        (fun u x y cs => findCycles_mono v a (Nat.le_succ n)) u (Nat.le_refl n) h
    | some y =>
      obtain ⟨z, hz, h1, h2, hlt⟩ := giveWay_shorter hx hy hxw.2.1
      have hzw := hall z (mem_of_getElem? hz)
      generalize hg : giveWay x y i (ranges.findIdx (overlapping x)) = g at hz h1 h2 hlt
      obtain ⟨n₁, new, hnew⟩ := hfind (u.inner c) g.1.1 g.1.2 (by omega) (by omega)
      have hfound : ∀ r ∈ new, lo ≤ r.1 ∧ r.1 < r.2 ∧ r.2 ≤ hi ∧ r.length < z.length := by
        intro r hr
        have := (findCycles_found v a n₁ _ _ _ new (by omega) hnew r hr).within
        simp only [Range.length]
        omega
      have hafter : ∀ i', ∃ n cs, removeOverlapping (findCycles v a n) u n (c + 1)
          (ranges.eraseIdx g.2 ++ new) i' = some cs := by
        refine ih _ ⟨g.2, z, new, hz, rfl, fun r hr => (hfound r hr).2.2.2⟩ (fun r hr => ?_) _
        rcases mem_append.1 hr with hr | hr
        · exact hall r (mem_of_mem_eraseIdx hr)
        · exact ⟨(hfound r hr).1, (hfound r hr).2.1, (hfound r hr).2.2.1⟩
      obtain ⟨n₂, cs, h⟩ := hafter (if new = [] then g.2 else 0)
      refine ⟨max n₁ n₂ + 1, cs, ?_⟩
      rw [removeOverlapping, hx]
      simp only [hy, hg]
      refine bind_eq_some_iff.2 ⟨new, findCycles_mono v a (by omega) hnew, ?_⟩
      have h := removeOverlapping_mono (fun u x y cs => findCycles_mono v a
        (show n₂ ≤ max n₁ n₂ + 1 by omega)) u (Nat.le_max_right n₁ n₂) h
      by_cases he : new = []
      · rw [if_pos he] at h ⊢
        rwa [he, append_nil] at h
      · rwa [if_neg he] at h ⊢

/-- **The detection terminates**, by induction on the length of the part. -/
theorem findCycles_part_returns (v : Variant) (a : List B) (lo hi : Nat) (hin : hi ≤ a.length)
    (u : Unspecified) : ∃ n cs, findCycles v a n u lo hi = some cs := by
  induction hd : hi - lo using Nat.strong_induction_on generalizing lo hi u with
  | _ d ih =>
  obtain ⟨cs₁, h₁⟩ := removeSubranges_returns (u.inner 1)
    ((sortUnique (rawCycles v (u.inner 0) a lo hi)).length + 3) 0 0
    (sortUnique (rawCycles v (u.inner 0) a lo hi)).length
    (sortUnique (rawCycles v (u.inner 0) a lo hi)) le_rfl (Nat.zero_le _) (by omega)
  have hall : ∀ r ∈ cs₁, lo ≤ r.1 ∧ r.1 < r.2 ∧ r.2 ≤ hi := by
    intro r hr
    have hr := mem_sortUnique (removeSubranges_mem _ _ _ _ _ _ _ le_rfl h₁ r hr)
    exact (rawCycles_stretch v _ hin hr).found.within
  obtain ⟨n₂, cs, h₂⟩ := removeOverlapping_returns hin
    (fun u x y hy hlt => ih _ (hd ▸ hlt) x y (by omega) u rfl) (u.inner 2) cs₁ hall 0 0
  refine ⟨max ((sortUnique (rawCycles v (u.inner 0) a lo hi)).length + 3) n₂ + 1, cs, ?_⟩
  rw [findCycles]
  refine bind_eq_some_iff.2 ⟨cs₁, removeSubranges_mono _ (Nat.le_max_left _ _) h₁, ?_⟩
  exact removeOverlapping_mono (fun u x y cs => findCycles_mono v a (Nat.le_max_right _ _)) _
    (Nat.le_max_right _ _) h₂

end Returns

/-- **Cycle detection terminates**: for every sequence, in both variants, from any block on and
    whatever the reads of erased elements return. -/
theorem findCycles_returns (v : Variant) (a : List B) (first : Nat) (u : Unspecified) :
    ∃ n cs, findCycles v a n u first a.length = some cs :=
  findCycles_part_returns v a first a.length le_rfl u

/-! ## 7. Repetitions -/

/-- The blocks from `r.1` to `r.2` are a repetition: they have a period of at most half their
    number. -/
def Repeats (a : List B) (r : Range) : Prop :=
  ∃ p, 1 ≤ p ∧ 2 * p ≤ r.2 - r.1 ∧ ∀ i, r.1 ≤ i → i < r.2 - p → a[i]? = a[i + p]?

/-- **Of every range that a walker records `P` holds**, in the part from `first` to `last` and in
    the parts that are searched again. -/
def AllRecorded (v : Variant) (a : List B) (P : Range → Prop) :
    Nat → Unspecified → Nat → Nat → Prop
  | 0, _, _, _ => True
  | n + 1, u, first, last =>
    let cs := rawCycles v (u.inner 0) a first last
    (∀ r ∈ cs, P r) ∧
      match removeSubranges (u.inner 1) n 0 0 (sortUnique cs).length (sortUnique cs) with
      | none => True
      | some cs => EveryRound (findCycles v a n) (u.inner 2)
          (fun c _ _ g _ => AllRecorded v a P n ((u.inner 2).inner c) g.1.1 g.1.2) n 0 cs 0

/-- **What is returned was recorded.** -/
theorem AllRecorded.returned {v : Variant} {a : List B} {P : Range → Prop} : ∀ {n : Nat}
    {u : Unspecified} {first last : Nat} {cs : List Range}, AllRecorded v a P n u first last →
    findCycles v a n u first last = some cs → ∀ r ∈ cs, P r
  | 0, u, first, last, cs, _, h => by cases h
  | n + 1, u, first, last, cs, hall, h => by
    rw [findCycles] at h
    obtain ⟨cs', hcs', h⟩ := bind_eq_some_iff.1 h
    obtain ⟨hraw, hrounds⟩ := hall
    rw [hcs'] at hrounds
    refine (removeOverlapping_invariant (I := fun ranges _ => ∀ r ∈ ranges, P r)
      (fun _ _ _ hall _ _ => hall) (fun c ranges i x y new hall hx hy hnew hok r hr => ?_)
      n 0 cs' 0 cs (fun r hr => ?_) hrounds h).elim fun _ hcs => hcs.2
    · rcases mem_append.1 hr with hr | hr
      · exact hall r (mem_of_mem_eraseIdx hr)
      · exact hok.returned hnew r hr
    · exact hraw r (mem_sortUnique (removeSubranges_mem _ _ _ _ _ _ _ le_rfl hcs' r hr))

omit [DecidableEq B] in
/-- A stretch has a period, which it exceeds. -/
theorem Stretch.period {a : List B} {lo hi : Nat} {r : Range} (h : Stretch a lo hi r) :
    ∃ k, 1 ≤ k ∧ k < r.2 - r.1 ∧ ∀ i, r.1 ≤ i → i < r.2 - k → a[i]? = a[i + k]? := by
  obtain ⟨t, k, ⟨-, -, hk, -⟩, -, -, ⟨hlt, -, -⟩, hper, -⟩ := h
  refine ⟨k, hk, by omega, fun i h1 h2 => ?_⟩
  have h := hper (i + k) (by omega) (by omega)
  rwa [Nat.add_sub_cancel] at h

instance (a : List B) (r : Range) : Decidable (Repeats a r) :=
  decidable_of_iff (∃ p < r.2 + 1, 1 ≤ p ∧ 2 * p ≤ r.2 - r.1 ∧
      ∀ i < r.2 - p, r.1 ≤ i → a[i]? = a[i + p]?)
    ⟨fun ⟨p, _, h1, h2, h3⟩ => ⟨p, h1, h2, fun i hi hlt => h3 i hlt hi⟩,
      fun ⟨p, h1, h2, h3⟩ => ⟨p, by omega, h1, h2, fun i hlt hi => h3 i hi hlt⟩⟩

/-- One choice of what is left open: equal keys come newest first, and a read of an erased element
    returns the first position. -/
def newestFirst : Unspecified where
  order _ l := l.reverse
  perm _ l := l.reverse_perm
  fromPos _ := 0
  range _ := (0, 0)

end Crete.Traces
