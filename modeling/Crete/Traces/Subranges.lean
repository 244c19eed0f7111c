/-
  File:      Crete/Traces/Subranges.lean
  Subject:   What `remove_subranges` keeps (lib/include/crete/util/cycle.h).

  The list is sorted, so a range inside the one under `i` stands behind it, or before it with the
  same begin. In the second case `std::remove_if` takes ranges away before `i`: the range under `i`
  moves down, `i` does not, and the next turn skips a range, or stands behind the end if there is
  none to skip.

  * `RemovesSubranges` -- what is left are the ranges inside no other, in their order.
  * `NoTwins` -- of two ranges with one begin, the shorter ends no later than a range that begins
    before.
  * `Tidied` -- the list after some turns; **`Tidied.round`** -- one turn more.
  * **`removeSubranges_right_iff`** -- the list and all its prefixes come out right exactly if it
    has no twins; `removeSubranges_reads_behind` are two ranges with one begin.
-/
import Crete.Traces.Cycle
import Mathlib.Data.Finset.Max

namespace Crete.Traces

open Option List

/-! ## 1. The statement -/

/-- Sorted, and no two alike. -/
def Sorted (cs : List Range) : Prop := cs.Pairwise fun p q => p.1 < q.1 ∨ p.1 = q.1 ∧ p.2 < q.2
  deriving Decidable

/-- Inside no range of the list. -/
def maximal (cs : List Range) (p : Range) : Bool := cs.all fun q => !subrange q p

/-- The turns of `remove_subranges`: each that reads the range under `i` finds one in the list. -/
def StaysInside (u : Unspecified) : Nat → Nat → Nat → Nat → List Range → Prop
  | 0, _, _, _, _ => True
  | n + 1, c, i, last, store =>
    if i = last then True
    else
      let r := removeIf (u.inner c) i last last 0 0 store
      (i < last ∨ last = 0) ∧ if r.2 < i then StaysInside u n (c + 1) r.2 r.2 r.1
        else StaysInside u n (c + 1) (i + 1) r.2 r.1

/-- **What `remove_subranges` is for**: exactly the ranges inside no other are kept, in their order,
    and nothing outside the list is read. -/
def RemovesSubranges (cs : List Range) : Prop :=
  ∀ u, ∃ n, removeSubranges u n 0 0 cs.length cs = some (cs.filter (maximal cs)) ∧
    StaysInside u n 0 0 cs.length cs

/-- **No twins**: of two ranges with one begin, the shorter ends no later than a range that begins
    before. -/
def NoTwins (cs : List Range) : Prop :=
  ∀ p ∈ cs, ∀ q ∈ cs, p.1 = q.1 → p.2 < q.2 → ∃ r ∈ cs, r.1 < p.1 ∧ p.2 ≤ r.2

/-! ## 2. Inside another range -/

variable {cs : List Range}

theorem subrange_iff {i p : Range} :
    subrange i p = true ↔ i.1 ≤ p.1 ∧ p.2 < i.2 ∨ i.1 < p.1 ∧ p.2 ≤ i.2 := by
  simp [subrange]

theorem subrange_self (p : Range) : subrange p p = false := by
  simp [subrange]

theorem subrange_trans {a b c : Range} (hab : subrange a b = true) (hbc : subrange b c = true) :
    subrange a c = true := by
  rw [subrange_iff] at *
  omega

/-- In a sorted list only a range with the same begin can be inside a later one. -/
theorem subrange_later {p q : Range} (h : p.1 < q.1 ∨ p.1 = q.1 ∧ p.2 < q.2) :
    subrange q p = true ↔ p.1 = q.1 := by
  rw [subrange_iff]
  omega

theorem maximal_iff {p : Range} : maximal cs p = true ↔ ∀ q ∈ cs, subrange q p = false := by
  simp [maximal]

/-- **Every range is in a maximal one.** -/
theorem exists_maximal {r : Range} (hr : r ∈ cs) :
    ∃ m ∈ cs, maximal cs m = true ∧ (m = r ∨ subrange m r = true) := by
  -- of the ranges around `r`, the longest is maximal
  obtain ⟨m, hm, hmax⟩ := (cs.toFinset.filter fun m => m = r ∨ subrange m r = true).exists_max_image
    (fun m => (m.2 : Int) - m.1) ⟨r, by simp [hr]⟩
  obtain ⟨hmem, hmr⟩ := Finset.mem_filter.1 hm
  refine ⟨m, mem_toFinset.1 hmem, maximal_iff.2 fun q hq => ?_, hmr⟩
  by_contra hqm
  have hqm : subrange q m = true := by simpa using hqm
  have hqr : subrange q r = true := by
    obtain rfl | hmr := hmr
    · exact hqm
    · exact subrange_trans hqm hmr
  have hle := hmax q (Finset.mem_filter.2 ⟨mem_toFinset.2 hq, .inr hqr⟩)
  rw [subrange_iff] at hqm
  omega

/-! ## 3. One pass -/

/-- **The end of a pass**: behind `i` the test reads one and the same range, and the pass is a
    filter. -/
theorem removeIf_behind (u : Unspecified) {i last : Nat} (hi : i < last) (q : Range) :
    ∀ (left k result : Nat) (store : List Range), i < result → result ≤ k →
    k + left ≤ store.length → store[i]? = some q →
    (removeIf u i last left k result store).1.take (removeIf u i last left k result store).2 =
      store.take result ++ ((store.drop k).take left).filter fun p => !subrange q p
  | 0, k, result, store, _, _, _, _ => by simp [removeIf]
  | left + 1, k, result, store, hr, hrk, hk, hq => by
    have hkl : k < store.length := by omega
    have hp : store.getD k (0, 0) = store[k] := by
      rw [getD_eq_getElem?_getD, getElem?_eq_getElem hkl, getD_some]
    have hdrop : (store.drop k).take (left + 1) = store[k] :: (store.drop (k + 1)).take left := by
      rw [drop_eq_getElem_cons hkl, take_succ_cons]
    have hunder : rangeUnder u i last k store = q := by
      rw [rangeUnder, if_pos hi, getD_eq_getElem?_getD, hq, getD_some]
    rw [removeIf]
    simp only [hunder, hp, hdrop]
    by_cases hs : subrange q store[k] = true
    · rw [if_pos hs, removeIf_behind u hi q left (k + 1) result store hr (by omega) (by omega) hq]
      simp [hs]
    · have hq' : (store.set result store[k])[i]? = some q := by
        rw [getElem?_set_ne (by omega), hq]
      rw [if_neg hs, removeIf_behind u hi q left (k + 1) (result + 1) _ (by omega) (by omega)
        (by rw [length_set]; omega) hq']
      have htake : (store.set result store[k]).take (result + 1) =
          store.take result ++ [store[k]] := by
        rw [take_add_one, take_set_of_le le_rfl]
        simp [getElem?_set_self (show result < store.length by omega)]
      rw [htake, drop_set_of_lt (by omega)]
      simp [hs]

/-- **The beginning of a pass**: up to `i` nothing is inside the range under `i`, and the store
    stays as it is. -/
theorem removeIf_before (u : Unspecified) {i last : Nat} (hi : i < last) (q : Range)
    (store : List Range) (hl : last ≤ store.length) (hq : store[i]? = some q)
    (hnot : ∀ p ∈ store.take (i + 1), subrange q p = false) :
    ∀ (k left : Nat), k ≤ i + 1 → k + left = last →
    removeIf u i last left k k store =
      removeIf u i last (last - (i + 1)) (i + 1) (i + 1) store := by
  intro k left hk hleft
  induction hd : i + 1 - k generalizing k left with
  | zero =>
    obtain rfl : k = i + 1 := by omega
    rw [show last - (i + 1) = left by omega]
  | succ d ih =>
    obtain ⟨left', rfl⟩ : ∃ m, left = m + 1 := ⟨left - 1, by omega⟩
    have hkl : k < store.length := by omega
    have hp : store.getD k (0, 0) = store[k] := by
      rw [getD_eq_getElem?_getD, getElem?_eq_getElem hkl, getD_some]
    have hunder : rangeUnder u i last k store = q := by
      rw [rangeUnder, if_pos hi, getD_eq_getElem?_getD, hq, getD_some]
    have hs : subrange q store[k] = false := by
      refine hnot _ (mem_iff_getElem?.2 ⟨k, ?_⟩)
      rw [getElem?_take_of_lt (by omega), getElem?_eq_getElem hkl]
    rw [removeIf]
    simp only [hunder, hp, hs, Bool.false_eq_true, if_false, set_getElem_self]
    exact ih (k + 1) left' (by omega) (by omega) (by omega)

/-- **One pass**: what lies inside the range under `i` goes. -/
theorem removeIf_pass (u : Unspecified) {i last : Nat} (hi : i < last) {q : Range}
    {store : List Range} (hl : last ≤ store.length) (hq : store[i]? = some q)
    (hnot : ∀ p ∈ store.take (i + 1), subrange q p = false) :
    (removeIf u i last last 0 0 store).1.take (removeIf u i last last 0 0 store).2 =
      (store.take last).filter (fun p => !subrange q p) ∧
    store.take (i + 1) <+: (store.take last).filter (fun p => !subrange q p) := by
  have hsplit : store.take last =
      store.take (i + 1) ++ (store.drop (i + 1)).take (last - (i + 1)) := by
    rw [← take_add, Nat.add_sub_of_le (by omega)]
  have hkeep : (store.take (i + 1)).filter (fun p => !subrange q p) = store.take (i + 1) :=
    filter_eq_self.2 fun p hp => by rw [hnot p hp]; rfl
  rw [removeIf_before u hi q store hl hq hnot 0 last (Nat.zero_le _) (Nat.zero_add _),
    removeIf_behind u hi q _ (i + 1) (i + 1) store (Nat.lt_succ_self i) le_rfl
      (by omega) hq,
    hsplit, filter_append, hkeep]
  exact ⟨rfl, prefix_append _ _⟩

/-! ## 4. The turns -/

/-- **The list after some turns**, at `i`: some ranges are gone and no maximal one is, and nothing
    is left inside the ranges up to `i`. -/
structure Tidied (cs : List Range) (i last : Nat) (store : List Range) : Prop where
  last_le : last ≤ store.length
  le : i ≤ last
  kept : ∃ keep : Range → Bool, store.take last = cs.filter keep
  maximal : ∀ p ∈ cs, maximal cs p = true → p ∈ store.take last
  done : ∀ q ∈ (store.take last).take i, ∀ p ∈ store.take last, subrange q p = false

section Tidied

variable {cs store : List Range} {i last : Nat} {q : Range}

theorem Tidied.start (cs : List Range) : Tidied cs 0 cs.length cs where
  last_le := le_rfl
  le := Nat.zero_le _
  kept := ⟨fun _ => true, by simp⟩
  maximal p hp _ := by rwa [take_length]
  done q hq := by simp at hq

section

variable (h : Tidied cs i last store)

include h

theorem Tidied.mem {p : Range} (hp : p ∈ store.take last) : p ∈ cs := by
  obtain ⟨keep, hk⟩ := h.kept
  rw [hk] at hp
  exact (mem_filter.1 hp).1

theorem Tidied.sorted (hs : Sorted cs) : Sorted (store.take last) := by
  obtain ⟨keep, hk⟩ := h.kept
  rw [hk]
  exact hs.filter keep

theorem Tidied.exists_under (hi : i < last) : ∃ q, store[i]? = some q ∧ q ∈ store.take last := by
  have hil : i < store.length := Nat.lt_of_lt_of_le hi h.last_le
  refine ⟨store[i], getElem?_eq_getElem hil, mem_iff_getElem?.2 ⟨i, ?_⟩⟩
  rw [getElem?_take_of_lt hi, getElem?_eq_getElem hil]

/-- A range that begins before the one under `i` stands before it. -/
theorem Tidied.before (hs : Sorted cs) (hi : i < last)
    (hq : store[i]? = some q) {m : Range} (hm : m ∈ store.take last) (hlt : m.1 < q.1) :
    m ∈ (store.take last).take i := by
  obtain ⟨j, hj⟩ := mem_iff_getElem?.1 hm
  have hqi : (store.take last)[i]? = some q := by rw [getElem?_take_of_lt hi, hq]
  obtain ⟨hjl, hje⟩ := List.getElem?_eq_some_iff.1 hj
  obtain ⟨hil, hie⟩ := List.getElem?_eq_some_iff.1 hqi
  have hji : j < i := by
    by_contra hge
    obtain heq | hlt' := Nat.eq_or_lt_of_le (Nat.not_lt.1 hge)
    · subst heq
      rw [← hje, ← hie] at hlt
      exact absurd hlt (Nat.lt_irrefl _)
    · have hord := pairwise_iff_getElem.1 (h.sorted hs) i j hil hjl hlt'
      rw [hje, hie] at hord
      omega
  exact mem_iff_getElem?.2 ⟨j, by rw [getElem?_take_of_lt hji, hj]⟩

/-- **Nothing before `i` is inside the range under it**, if the ranges with its begin that stand
    before it are covered from before. -/
theorem Tidied.not_before (hs : Sorted cs) (hi : i < last) (hq : store[i]? = some q)
    (hfree : ∀ p ∈ cs, p.1 = q.1 → p.2 < q.2 → ∃ r ∈ cs, r.1 < p.1 ∧ p.2 ≤ r.2) :
    ∀ p ∈ store.take (i + 1), subrange q p = false := by
  intro p hp
  have hqi : (store.take last)[i]? = some q := by rw [getElem?_take_of_lt hi, hq]
  obtain ⟨hil, hie⟩ := List.getElem?_eq_some_iff.1 hqi
  have hp' : p ∈ (store.take last).take (i + 1) := by
    rwa [take_take, Nat.min_eq_left hi]
  obtain ⟨j, hj, rfl⟩ := mem_take_iff_getElem.1 hp'
  obtain heq | hji := Nat.eq_or_lt_of_le (show j ≤ i by omega)
  · subst heq
    rw [hie]
    exact subrange_self q
  have hord := pairwise_iff_getElem.1 (h.sorted hs) j i (by omega) hil hji
  rw [hie] at hord
  by_contra hsub
  have hfirst := (subrange_later hord).1 (by simpa using hsub)
  -- it is inside a maximal range from before, which has been looked at
  have hpm : (store.take last)[j] ∈ store.take last := getElem_mem _
  obtain ⟨r, hr, hr1, hr2⟩ := hfree _ (h.mem hpm) hfirst (by omega)
  obtain ⟨m, hm, hmax, hmr⟩ := exists_maximal hr
  have hm1 : m.1 ≤ r.1 := by
    obtain rfl | hmr := hmr
    · exact le_rfl
    · rw [subrange_iff] at hmr
      omega
  have hrp : subrange r (store.take last)[j] = true := subrange_iff.2 (.inr ⟨hr1, hr2⟩)
  have hmp : subrange m (store.take last)[j] = true := by
    obtain rfl | hmr := hmr
    · exact hrp
    · exact subrange_trans hmr hrp
  have hmq := h.before hs hi hq (h.maximal m hm hmax) (by omega)
  rw [h.done m hmq _ hpm] at hmp
  cases hmp

/-- **One turn**: what is inside the range under `i` goes. -/
theorem Tidied.round (hi : i < last) (hq : store[i]? = some q)
    (hnot : ∀ p ∈ store.take (i + 1), subrange q p = false) (u : Unspecified) :
    i + 1 ≤ (removeIf u i last last 0 0 store).2 ∧
      Tidied cs (i + 1) (removeIf u i last last 0 0 store).2
        (removeIf u i last last 0 0 store).1 := by
  obtain ⟨hpass, hpre⟩ := removeIf_pass u hi h.last_le hq hnot
  obtain ⟨⟨h1, -, h3⟩, -⟩ := removeIf_spec u i last last 0 0 store (Nat.le_refl 0)
    (by have := h.last_le; omega)
  have hlast := h.last_le
  generalize removeIf u i last last 0 0 store = r at hpass h1 h3
  have hpre' := hpre
  rw [← hpass] at hpre'
  have hle : i + 1 ≤ r.2 := by
    have hlen := hpre'.length_le
    simp only [length_take] at hlen
    omega
  have hqc : q ∈ cs := by
    refine h.mem (mem_iff_getElem?.2 ⟨i, ?_⟩)
    rw [getElem?_take_of_lt hi, hq]
  refine ⟨hle, by omega, hle, ?_, fun p hp hmax => ?_, fun q' hq' p hp => ?_⟩
  · obtain ⟨keep, hk⟩ := h.kept
    exact ⟨fun p => !subrange q p && keep p, by rw [hpass, hk, List.filter_filter]⟩
  · rw [hpass]
    refine mem_filter.2 ⟨h.maximal p hp hmax, ?_⟩
    rw [maximal_iff.1 hmax q hqc]
    rfl
  · have htake : (r.1.take r.2).take (i + 1) = store.take (i + 1) := by
      rw [prefix_iff_eq_take.1 hpre', length_take, Nat.min_eq_left (by omega)]
    rw [htake, take_add_one, hq, toList_some] at hq'
    rw [hpass] at hp
    obtain ⟨hp, hsub⟩ := mem_filter.1 hp
    obtain h0 | h0 := mem_append.1 hq'
    · refine h.done q' ?_ p hp
      rwa [take_take, Nat.min_eq_left (by omega)]
    · rw [mem_singleton] at h0
      rw [h0]
      simpa using hsub

end

/-- **At the end** the maximal ranges are left. -/
theorem Tidied.finish (h : Tidied cs last last store) :
    store.take last = cs.filter (Traces.maximal cs) := by
  obtain ⟨keep, hk⟩ := h.kept
  rw [hk]
  refine filter_congr fun p hp => ?_
  have hmem : keep p = true ↔ p ∈ store.take last := by
    rw [hk, mem_filter]
    exact ⟨fun hkp => ⟨hp, hkp⟩, fun hkp => hkp.2⟩
  rw [Bool.eq_iff_iff, hmem]
  refine ⟨fun hin => ?_, h.maximal p hp⟩
  refine maximal_iff.2 fun q hq => ?_
  by_contra hsub
  have hsub : subrange q p = true := by simpa using hsub
  obtain ⟨m, hm, hmax, hmq⟩ := exists_maximal hq
  have hmp : subrange m p = true := by
    obtain rfl | hmq := hmq
    · exact hsub
    · exact subrange_trans hmq hsub
  have hmin := h.maximal m hm hmax
  have hfalse := h.done m (by rwa [take_take, Nat.min_self]) p hin
  rw [hmp] at hfalse
  cases hfalse

end Tidied

/-! ## 5. Without twins -/

/-- **All turns.** -/
theorem Tidied.run (hs : Sorted cs) (ht : NoTwins cs) (u : Unspecified) :
    ∀ (d c i last : Nat) (store : List Range), Tidied cs i last store → last - i ≤ d →
    ∃ n, removeSubranges u n c i last store = some (cs.filter (Traces.maximal cs)) ∧
      StaysInside u n c i last store := by
  intro d
  induction d with
  | zero =>
    intro c i last store h hd
    obtain rfl : i = last := by have := h.le; omega
    refine ⟨1, ?_, ?_⟩
    · rw [removeSubranges, if_pos rfl, h.finish]
    · rw [StaysInside, if_pos rfl]
      trivial
  | succ d ih =>
    intro c i last store h hd
    obtain rfl | hi := Nat.eq_or_lt_of_le h.le
    · exact ih c i i store h (by omega)
    obtain ⟨q, hq, hmem⟩ := h.exists_under hi
    have hnot := h.not_before hs hi hq fun p hp he hlt => ht p hp q (h.mem hmem) he hlt
    obtain ⟨hle, hnext⟩ := h.round hi hq hnot (u.inner c)
    obtain ⟨⟨-, -, hge⟩, -⟩ := removeIf_spec (u.inner c) i last last 0 0 store (Nat.le_refl 0)
      (by have := h.last_le; omega)
    obtain ⟨n, hn, hin⟩ := ih (c + 1) (i + 1) _ _ hnext (by omega)
    refine ⟨n + 1, ?_, ?_⟩
    · rw [removeSubranges, if_neg (Nat.ne_of_lt hi)]
      dsimp only
      rw [if_neg (by omega), hn]
    · rw [StaysInside, if_neg (Nat.ne_of_lt hi)]
      dsimp only
      rw [if_neg (by omega)]
      exact ⟨.inl hi, hin⟩

/-- **Without twins the list comes out right.** -/
theorem NoTwins.removes (hs : Sorted cs) (ht : NoTwins cs) : RemovesSubranges cs :=
  fun u => (Tidied.start cs).run hs ht u _ 0 0 cs.length cs le_rfl

theorem removeSubranges_eq {u : Unspecified} {n : Nat} {cs res : List Range} (hs : Sorted cs)
    (ht : NoTwins cs) (h : removeSubranges u n 0 0 cs.length cs = some res) :
    res = cs.filter (maximal cs) := by
  obtain ⟨m, hm, -⟩ := ht.removes hs u
  have h1 := removeSubranges_mono u (Nat.le_max_left n m) h
  have h2 := removeSubranges_mono u (Nat.le_max_right n m) hm
  rw [h1] at h2
  exact Option.some.inj h2

/-! ## 6. Twins -/

/-- **The pass of the last range**: the ranges that are not inside it are counted. -/
theorem removeIf_last (u : Unspecified) {i : Nat} {q : Range} :
    ∀ (left k result : Nat) (store : List Range), result ≤ k → k + left = i + 1 →
    i < store.length → store[i]? = some q →
    (removeIf u i (i + 1) left k result store).2 =
      result + ((store.take (i + 1)).drop k).countP fun p => !subrange q p
  | 0, k, result, store, _, hk, _, _ => by
    rw [removeIf, drop_of_length_le (by rw [length_take]; omega)]
    rfl
  | left + 1, k, result, store, hr, hk, hi, hq => by
    have hkl : k < store.length := by omega
    have hp : store.getD k (0, 0) = store[k] := by
      rw [getD_eq_getElem?_getD, getElem?_eq_getElem hkl, getD_some]
    have hunder : rangeUnder u i (i + 1) k store = q := by
      rw [rangeUnder, if_pos (Nat.lt_succ_self i), getD_eq_getElem?_getD, hq, getD_some]
    have hdrop : (store.take (i + 1)).drop k = store[k] :: (store.take (i + 1)).drop (k + 1) := by
      rw [drop_eq_getElem_cons (by rw [length_take]; omega), getElem_take]
    rw [removeIf]
    simp only [hunder, hp, hdrop, countP_cons]
    by_cases hs : subrange q store[k] = true
    · rw [if_pos hs, removeIf_last u left (k + 1) result store (by omega) (by omega) hi hq]
      simp [hs]
    · rw [if_neg hs]
      obtain rfl | hlt := Nat.eq_or_lt_of_le (show k ≤ i by omega)
      · -- the range itself is the last
        obtain rfl : left = 0 := by omega
        rw [removeIf, drop_of_length_le (by rw [length_take]; omega)]
        simp [hs]
      · have hq' : (store.set result store[k])[i]? = some q := by
          rw [getElem?_set_ne (by omega), hq]
        have hdrop' : ((store.set result store[k]).take (i + 1)).drop (k + 1) =
            (store.take (i + 1)).drop (k + 1) := by
          rw [take_set, drop_set_of_lt (by omega)]
        rw [removeIf_last u left (k + 1) (result + 1) _ (by omega) (by omega)
          (by rw [length_set]; exact hi) hq', hdrop']
        simp [hs]
        omega

/-- The last range of a list has the begin of one before it that no range covers from before, and
    there are no twins up to it. -/
structure Twin (pre : List Range) (p q : Range) : Prop where
  sorted : Sorted (pre ++ [q])
  noTwins : NoTwins pre
  mem : p ∈ pre
  first : p.1 = q.1
  bare : ∀ r ∈ pre, r.1 < p.1 → ¬ p.2 ≤ r.2

section Twin

variable {pre store : List Range} {p q : Range} {i last : Nat}

theorem Twin.lt (h : Twin pre p q) {x : Range} (hx : x ∈ pre) : x.1 < q.1 ∨ x.1 = q.1 ∧ x.2 < q.2 :=
  (pairwise_append.1 h.sorted).2.2 x hx q (mem_singleton_self q)

theorem Twin.not_mem (h : Twin pre p q) : q ∉ pre := fun hq => by
  have := h.lt hq
  omega

/-- The earlier twin is inside the later one only. -/
theorem Twin.not_inside (h : Twin pre p q) {e : Range} (he : e ∈ pre) : subrange e p = false := by
  by_contra hsub
  have hsub : e.1 ≤ p.1 ∧ p.2 < e.2 ∨ e.1 < p.1 ∧ p.2 ≤ e.2 := subrange_iff.1 (by simpa using hsub)
  by_cases hlt : e.1 < p.1
  · exact h.bare e he hlt (by omega)
  · obtain ⟨r, hr, hr1, hr2⟩ := h.noTwins p h.mem e he (by omega) (by omega)
    exact h.bare r hr hr1 hr2

theorem Twin.maximal (h : Twin pre p q) : Traces.maximal (pre ++ [q]) q = true := by
  refine maximal_iff.2 fun x hx => ?_
  obtain hx | hx := mem_append.1 hx
  · have hlt := h.lt hx
    by_contra hsub
    have hsub := subrange_iff.1 (by simpa using hsub)
    -- what covers the later twin covers the earlier one
    have hfirst := h.first
    have hpq := h.lt h.mem
    exact h.bare x hx (by omega) (by omega)
  · rw [mem_singleton.1 hx]
    exact subrange_self q

/-- The later twin stays the last range. -/
theorem Twin.split (h : Twin pre p q) (ht : Tidied (pre ++ [q]) i last store) :
    ∃ keep : Range → Bool, store.take last = pre.filter keep ++ [q] := by
  obtain ⟨keep, hk⟩ := ht.kept
  have hq := ht.maximal q (by simp) h.maximal
  rw [hk] at hq
  refine ⟨keep, ?_⟩
  rw [hk, filter_append, filter_singleton, (mem_filter.1 hq).2]
  rfl

/-- **The pass of the later twin** takes away the earlier one and nothing else. -/
theorem Twin.last_pass (h : Twin pre p q) (ht : Tidied (pre ++ [q]) i (i + 1) store)
    (hp : p ∈ store.take (i + 1)) (u : Unspecified) :
    (removeIf u i (i + 1) (i + 1) 0 0 store).2 = i ∧ i ≠ 0 := by
  obtain ⟨keep, hk⟩ := h.split ht
  have hi : i < store.length := ht.last_le
  have hlen : (pre.filter keep).length = i := by
    have := congrArg List.length hk
    rw [length_take, length_append, length_singleton] at this
    omega
  have hdone : (store.take (i + 1)).take i = pre.filter keep := by
    rw [hk, take_left' hlen]
  have hq : store[i]? = some q := by
    rw [← getElem?_take_of_lt (Nat.lt_succ_self i), hk,
      getElem?_append_right (Nat.le_of_eq hlen), hlen, Nat.sub_self]
    rfl
  have hnodup : (store.take (i + 1)).Nodup :=
    (ht.sorted h.sorted).imp fun {x y} hxy he => by
      rw [he] at hxy
      omega
  have hpk : p ∈ pre.filter keep := by
    rw [hk] at hp
    obtain hp | hp := mem_append.1 hp
    · exact hp
    · exact absurd (mem_singleton.1 hp ▸ h.mem) h.not_mem
  -- inside the later twin is what has its begin, and two of these would be inside one another
  have hone : ((store.take (i + 1)).countP fun x => subrange q x) = 1 := by
    refine Eq.trans (countP_congr fun x hx => ?_) (count_eq_one_of_mem hnodup hp)
    rw [beq_iff_eq]
    constructor
    · intro hsub
      rw [hk] at hx
      obtain hx | hx := mem_append.1 hx
      · have hfirst := (subrange_later (h.lt (mem_filter.1 hx).1)).1 hsub
        have h1 := ht.done x (hdone ▸ hx) p hp
        have h2 := ht.done p (hdone ▸ hpk) x (hk ▸ mem_append_left _ hx)
        have hpq := h.first
        simp only [subrange, Bool.or_eq_false_iff, Bool.and_eq_false_iff, decide_eq_false_iff_not]
          at h1 h2
        exact Prod.ext (by omega) (by omega)
      · rw [mem_singleton.1 hx, subrange_self] at hsub
        cases hsub
    · intro he
      rw [he]
      exact (subrange_later (h.lt h.mem)).2 h.first
  refine ⟨?_, fun h0 => ?_⟩
  · have hcount := length_eq_countP_add_countP (fun x => subrange q x) (l := store.take (i + 1))
    rw [removeIf_last u (i + 1) 0 0 store (Nat.le_refl 0) (Nat.zero_add _) hi hq, drop_zero]
    rw [hone, length_take] at hcount
    simp only [Bool.decide_eq_true, decide_not] at hcount
    omega
  · rw [h0, length_eq_zero_iff] at hlen
    rw [hlen] at hpk
    exact not_mem_nil hpk

/-- **The list of the twins comes to a turn behind its end.** -/
theorem Twin.stuck (h : Twin pre p q) (u : Unspecified) :
    ∀ (n c i last : Nat) (store res : List Range), Tidied (pre ++ [q]) i last store → i < last →
    p ∈ store.take last → removeSubranges u n c i last store = some res →
    ¬ StaysInside u n c i last store
  | 0, c, i, last, store, res, _, _, _, hres => by cases hres
  | n + 1, c, i, last, store, res, ht, hi, hp, hres => by
    intro hin
    rw [removeSubranges, if_neg (Nat.ne_of_lt hi)] at hres
    rw [StaysInside, if_neg (Nat.ne_of_lt hi)] at hin
    dsimp only at hres hin
    obtain rfl | hlt := Nat.eq_or_lt_of_le (Nat.succ_le_of_lt hi)
    · obtain ⟨hcount, h0⟩ := h.last_pass ht hp (u.inner c)
      rw [hcount, if_neg (Nat.lt_irrefl i)] at hres hin
      cases n with
      | zero => cases hres
      | succ n =>
        have hturn := hin.2
        rw [StaysInside, if_neg (Nat.succ_ne_self i)] at hturn
        have := hturn.1
        omega
    · obtain ⟨keep, hk⟩ := h.split ht
      obtain ⟨e, he, hmem⟩ := ht.exists_under hi
      have hshort : i < (pre.filter keep).length := by
        have := congrArg List.length hk
        rw [length_take, length_append, length_singleton] at this
        have := ht.last_le
        omega
      have hpre : e ∈ pre := by
        have hget : (pre.filter keep)[i]? = some e := by
          rw [← getElem?_append_left hshort, ← hk, getElem?_take_of_lt hi, he]
        exact (mem_filter.1 (mem_of_getElem? hget)).1
      have hnot := ht.not_before h.sorted hi he fun x hx hxe hlt => by
        obtain hx | hx := mem_append.1 hx
        · obtain ⟨r, hr, hr1, hr2⟩ := h.noTwins x hx e hpre hxe hlt
          exact ⟨r, mem_append_left _ hr, hr1, hr2⟩
        · have hlt' := h.lt hpre
          rw [mem_singleton.1 hx] at hxe hlt
          omega
      obtain ⟨hle, hnext⟩ := ht.round hi he hnot (u.inner c)
      obtain ⟨hpass, hprefix⟩ := removeIf_pass (u.inner c) hi ht.last_le he hnot
      rw [if_neg (by omega)] at hres hin
      refine h.stuck u n (c + 1) (i + 1) _ _ res hnext ?_ ?_ hres hin.2
      · -- else the later twin is among the ranges looked at
        refine Nat.lt_of_le_of_ne hle fun heq => h.not_mem ?_
        have hq := hnext.maximal q (by simp) h.maximal
        rw [← hpass] at hprefix
        have hsame := hprefix.eq_of_length (by
          rw [length_take, length_take, Nat.min_eq_left hnext.last_le, ← heq,
            Nat.min_eq_left (by have := ht.last_le; omega)])
        rw [← hsame, show store.take (i + 1) = (store.take last).take (i + 1) by
          rw [take_take, Nat.min_eq_left (by omega)], hk,
          take_append_of_le_length (by omega)] at hq
        exact (mem_filter.1 (mem_of_mem_take hq)).1
      · rw [hpass]
        exact mem_filter.2 ⟨hp, by rw [h.not_inside hpre]; rfl⟩

/-- **Twins spoil the list up to the second of them.** -/
theorem Twin.not_removes (h : Twin pre p q) : ¬ RemovesSubranges (pre ++ [q]) := by
  intro hall
  obtain ⟨n, hres, hin⟩ := hall ⟨fun _ l => l, fun _ _ => .refl _, fun _ => 0, fun _ => (0, 0)⟩
  refine h.stuck _ n 0 0 _ _ _ (Tidied.start _) (by simp) ?_ hres hin
  rw [take_length]
  exact mem_append_left _ h.mem

end Twin

/-- What covers a range from before is in every prefix with that range. -/
theorem NoTwins.of_prefix {cs cs' : List Range} (ht : NoTwins cs) (hs : Sorted cs)
    (hpre : cs' <+: cs) : NoTwins cs' := by
  obtain ⟨post, rfl⟩ := hpre
  intro p hp q hq he hlt
  obtain ⟨r, hr, hr1, hr2⟩ := ht p (mem_append_left _ hp) q (mem_append_left _ hq) he hlt
  obtain hr | hr := mem_append.1 hr
  · exact ⟨r, hr, hr1, hr2⟩
  · have := (pairwise_append.1 hs).2.2 p hp r hr
    omega

/-- **The list and all its prefixes come out right** exactly if it has no twins. -/
theorem removeSubranges_right_iff (cs : List Range) (hs : Sorted cs) :
    (∀ cs', cs' <+: cs → RemovesSubranges cs') ↔ NoTwins cs := by
  constructor
  · intro hall
    induction cs using List.reverseRecOn with
    | nil => exact forall_mem_nil _
    | append_singleton cs q ih =>
      have hpre : cs <+: cs ++ [q] := prefix_append cs [q]
      have ht := ih (hs.sublist hpre.sublist) fun cs' h => hall cs' (h.trans hpre)
      have hlast : ∀ x ∈ cs, x.1 < q.1 ∨ x.1 = q.1 ∧ x.2 < q.2 := fun x hx =>
        (pairwise_append.1 hs).2.2 x hx q (mem_singleton_self q)
      intro x hx y hy he hlt
      obtain hxc | hx := mem_append.1 hx
      · obtain hy | hy := mem_append.1 hy
        · obtain ⟨r, hr, hr1, hr2⟩ := ht x hxc y hy he hlt
          exact ⟨r, mem_append_left _ hr, hr1, hr2⟩
        · -- the last range and one before it: they would be twins
          obtain rfl := mem_singleton.1 hy
          by_contra hno
          have htwin : Twin cs x y := ⟨hs, ht, hxc, he, fun r hr hr1 hr2 =>
            hno ⟨r, mem_append_left _ hr, hr1, hr2⟩⟩
          exact htwin.not_removes (hall _ (prefix_refl _))
      · obtain rfl := mem_singleton.1 hx
        obtain hy | hy := mem_append.1 hy
        · have := hlast y hy
          omega
        · rw [mem_singleton.1 hy] at hlt
          exact absurd hlt (Nat.lt_irrefl _)
  · exact fun ht cs' hpre => (ht.of_prefix hs hpre).removes (hs.sublist hpre.sublist)

/-- Two ranges with one begin, the shorter inside a range from before. -/
theorem removeSubranges_right_three : Sorted [(0, 4), (1, 3), (1, 6)] ∧
    RemovesSubranges [(0, 4), (1, 3), (1, 6)] :=
  ⟨by decide, (removeSubranges_right_iff _ (by decide)).2 (by unfold NoTwins; decide) _
    (prefix_refl _)⟩

/-- Two ranges with one begin: the second takes the first away, and the next turn reads behind the
    end. -/
theorem removeSubranges_reads_behind :
    Sorted [(0, 1), (0, 2)] ∧ ¬ RemovesSubranges [(0, 1), (0, 2)] := by
  refine ⟨by decide, ?_⟩
  have htwin : Twin [(0, 1)] (0, 1) (0, 2) := ⟨by decide, fun p hp q hq _ hlt => ?_, by simp, rfl,
    fun r hr hlt => ?_⟩
  · exact htwin.not_removes
  · rw [mem_singleton.1 hp, mem_singleton.1 hq] at hlt
    exact absurd hlt (Nat.lt_irrefl _)
  · exact absurd hlt (Nat.not_lt_zero _)

end Crete.Traces
