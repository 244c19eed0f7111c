/-
  File:      Crete/Traces/Breadth.lean
  Subject:   Breadth-first selection over a whole run: `next_bfs`, called again and again on a
             graph built by inserts, with any traces executed already.

  The search skips the vertices with one child (`crete_find_relevant`). What grows along it is
  therefore not the depth of a vertex but the number of branchings above it.

  * `Exhausts` -- every unexecuted trace once, each as shallow as possible, then none forever.
  * **`level_branchings`**, **`exists_level`** -- the levels of the search are the branchings.
  * **`nextsBfs_exhausts`** -- the calls exhaust the graph, counting branchings.
-/
import Crete.Traces.Calls

namespace Crete.Traces

open Crete.Lib Crete.Lib.AdjList List Option

/-! ## 1. The calls -/

/-- `next_bfs`, so many times: the answers and the graph at the end. -/
def nextsBfs (tg : TraceGraph) : Nat → Except Stop (List (Option Id) × TraceGraph)
  | 0 => .ok ([], tg)
  | n + 1 => do
      let r ← nextBfs tg
      let rs ← nextsBfs r.2 n
      return (r.1 :: rs.1, rs.2)

/-- The id is at a vertex whose depth is the least among the vertices with the id of an
    unexecuted trace. `depth` is a function of the blocks from the root to the vertex. -/
def Shallowest (depth : List Block → Nat) (tg : TraceGraph) (id : Id) : Prop :=
  ∃ p v, reach tg.graph p = some v ∧ idAt tg.graph v = some id ∧
    ∀ q w i, reach tg.graph q = some w → idAt tg.graph w = some i →
      tg.executed i = some false → depth p ≤ depth q

/-- **The answers of all calls**: the ids of the unexecuted traces, each once and each the
    shallowest at its call, then none for ever. -/
structure Exhausts (depth : List Block → Nat) (tg : TraceGraph) (ids : List Id) : Prop where
  once : ids.Nodup
  unexecuted : ∀ id, id ∈ ids ↔ tg.executed id = some false
  calls : ∀ n, ∃ tg', nextsBfs tg n =
      .ok ((ids.take n).map some ++ replicate (n - ids.length) none, tg') ∧
    ∀ id, ids[n]? = some id → Shallowest depth tg' id

/-! ## 2. Branchings -/

/-- 1 at a vertex that does not have exactly one child. -/
def branching (g : Graph) (v : Nat) : Nat := if (outEdges g v).length = 1 then 0 else 1

/-- The branchings on a path from `v`, its end not counted. -/
def branchings (g : Graph) : Nat → List Block → Nat
  | _, [] => 0
  | v, b :: p => match child VertexProperty.uniqueHash g v b with
    | none => 0
    | some c => branching g v + branchings g c p

theorem branchings_snoc {g : Graph} {b : Block} {c : Nat} (p : List Block) : ∀ {v u : Nat},
    walk VertexProperty.uniqueHash g v p = some u →
    child VertexProperty.uniqueHash g u b = some c →
    branchings g v (p ++ [b]) = branchings g v p + branching g u := by
  induction p with
  | nil =>
    intro v u hu hc
    cases hu
    simp only [nil_append, branchings, hc]
    omega
  | cons a p ih =>
    intro v u hu hc
    obtain ⟨d, hd, hu'⟩ := bind_eq_some_iff.1 hu
    rw [cons_append, branchings, branchings, hd]
    show branching g v + branchings g d (p ++ [b]) = branching g v + branchings g d p + _
    rw [ih hu' hc, Nat.add_assoc]

theorem branching_single {g : Graph} {v c : Nat} (h : outEdges g v = [c]) : branching g v = 0 := by
  rw [branching, h]
  rfl

theorem branching_other {g : Graph} {v : Nat} (h : ∀ c, outEdges g v ≠ [c]) :
    branching g v = 1 := by
  refine if_neg fun hl => ?_
  obtain ⟨c, hc⟩ := length_eq_one_iff.1 hl
  exact h c hc

/-! ## 3. What the search skips -/

/-- More fuel changes nothing. -/
theorem findRelevant_succ {g : Graph} {w : Nat} (fuel : Nat) : ∀ {v : Nat},
    findRelevant g fuel v = .ok w → findRelevant g (fuel + 1) v = .ok w := by
  induction fuel with
  | zero =>
    intro v h
    cases h
  | succ fuel ih =>
    intro v h
    by_cases hone : ∃ c, outEdges g v = [c]
    · obtain ⟨c, hc⟩ := hone
      rw [findRelevant_single _ hc] at h ⊢
      exact ih h
    · have hne : ∀ c, outEdges g v ≠ [c] := fun c hc => hone ⟨c, hc⟩
      rw [findRelevant_stop _ hne] at h ⊢
      exact h

section Skip

variable {r : Block} {g : Graph} {ts : List Trace} (h : Spells r g ts)
include h

/-- An only child has the id of its parent. -/
theorem Spells.id_single {p : List Block} {v c : Nat} (hp : reach g p = some v)
    (hc : outEdges g v = [c]) : idAt g c = idAt g v := by
  obtain ⟨t, ht, hown, hid⟩ := h.owner hp
  obtain ⟨q, w, hb, hq, ho, -⟩ := h.stored t ht
  have hthrough := hown.through
  rw [hb, cons_prefix_cons] at hthrough
  obtain ⟨s, rfl⟩ := hthrough.2
  cases s with
  | nil =>
    -- the owner ends here
    rw [append_nil] at hq
    cases hp.symm.trans hq
    rw [ho] at hc
    cases hc
  | cons b s =>
    have hpre : p ++ [b] <+: p ++ b :: s := ⟨s, by rw [append_assoc, singleton_append]⟩
    obtain ⟨c', hc'⟩ := reach_initial hpre hq
    have hchild := hc'
    rw [reach_snoc, hp] at hchild
    have hm := (mem_of_child _ (show child _ g v b = some c' from hchild)).1
    rw [hc, mem_singleton] at hm
    subst hm
    rw [hid]
    refine hown.ids (p ++ [b]) c' (prefix_append p [b]) ?_ hc'
    rw [hb]
    exact cons_prefix_cons.2 ⟨rfl, hpre⟩

/-- The vertex the search goes on to: below `v`, with the branchings and the id of `v`. -/
theorem Spells.findRelevant_path (fuel : Nat) : ∀ {p : List Block} {v w : Nat},
    reach g p = some v → findRelevant g fuel v = .ok w →
    ∃ q, reach g q = some w ∧ branchings g 0 q = branchings g 0 p ∧ branching g w = 1 ∧
      idAt g w = idAt g v := by
  induction fuel with
  | zero =>
    intro p v w _ hf
    cases hf
  | succ fuel ih =>
    intro p v w hp hf
    by_cases hone : ∃ c, outEdges g v = [c]
    · obtain ⟨c, hc⟩ := hone
      rw [findRelevant_single _ hc] at hf
      obtain ⟨b, hb⟩ := h.trie.exists_walk_child hp (by rw [hc]; exact mem_singleton_self c)
      have hchild := hb
      rw [walk_snoc, show walk _ g 0 p = some v from hp] at hchild
      obtain ⟨q, hq, hn, hw, hid⟩ := ih hb hf
      refine ⟨q, hq, ?_, hw, hid.trans (h.id_single hp hc)⟩
      rw [hn, branchings_snoc p hp hchild, branching_single hc]
      exact Nat.add_zero _
    · have hne : ∀ c, outEdges g v ≠ [c] := fun c hc => hone ⟨c, hc⟩
      rw [findRelevant_stop _ hne] at hf
      cases hf
      exact ⟨p, hp, rfl, branching_other hne, rfl⟩

omit h in
theorem relevant_eq_ok {v w : Nat} : relevant g v = .ok w ↔ findRelevant g g.length v = .ok w := by
  rw [relevant]
  cases findRelevant g g.length v with
  | ok u =>
    show Except.ok u = Except.ok w ↔ Except.ok u = Except.ok w
    rw [Except.ok.injEq, Except.ok.injEq]
  | error s =>
    constructor
    · intro h
      cases h
    · intro h
      cases h

/-- One edge of the search: down to a child, and on. -/
theorem Spells.relevant_child {p : List Block} {u t w : Nat} (hp : reach g p = some u)
    (ht : t ∈ outEdges g u) (hr : relevant g t = .ok w) :
    ∃ q, reach g q = some w ∧ branchings g 0 q = branchings g 0 p + branching g u ∧
      branching g w = 1 := by
  obtain ⟨b, hb⟩ := h.trie.exists_walk_child hp ht
  have hchild := hb
  rw [walk_snoc, show walk _ g 0 p = some u from hp] at hchild
  obtain ⟨q, hq, hn, hw, -⟩ := h.findRelevant_path g.length hb (relevant_eq_ok.1 hr)
  exact ⟨q, hq, hn.trans (branchings_snoc p hp hchild), hw⟩

/-- **The level of a vertex counts the branchings above it.** -/
theorem level_branchings (n : Nat) : ∀ {w : Nat}, Level (outEdges g) (relevant g) 0 (n + 1) w →
    ∃ q, reach g q = some w ∧ branchings g 0 q = n + branching g 0 ∧ branching g w = 1 := by
  induction n with
  | zero =>
    intro w hw
    cases hw with
    | edge hu ht hr =>
      cases hu
      exact h.relevant_child (p := []) rfl ht hr
  | succ n ih =>
    intro w hw
    cases hw with
    | edge hu ht hr =>
      obtain ⟨p, hp, hn, hone⟩ := ih hu
      obtain ⟨q, hq, hn', hw⟩ := h.relevant_child hp ht hr
      refine ⟨q, hq, ?_, hw⟩
      rw [hn', hn, hone]
      omega

/-- **Every vertex below the root is skipped on the way to a vertex of its level.** -/
theorem exists_level (q : List Block) : ∀ {w : Nat}, q ≠ [] → reach g q = some w →
    ∃ n w', relevant g w = .ok w' ∧ Level (outEdges g) (relevant g) 0 (n + 1) w' ∧
      branchings g 0 q = n + branching g 0 := by
  induction q using reverseRecOn with
  | nil => exact fun hne => absurd rfl hne
  | append_singleton p b ih =>
    intro w _ hw
    have hstep := hw
    rw [reach_snoc] at hstep
    obtain ⟨u, hu, hchild⟩ := bind_eq_some_iff.1 hstep
    have hmem := (mem_of_child _ hchild).1
    obtain ⟨w', hr, -⟩ := relevant_ok h.trie (h.trie.forward u w hmem).2
    have hsnoc := branchings_snoc p hu hchild
    by_cases hp : p = []
    · subst hp
      cases hu
      exact ⟨0, w', hr, .edge .source hmem hr, hsnoc⟩
    · obtain ⟨n, u', hru, hlevel, hn⟩ := ih hp hu
      obtain ⟨m, hm⟩ : ∃ m, g.length = m + 1 :=
        Nat.exists_eq_add_one_of_ne_zero (Nat.ne_of_gt h.length_pos)
      rw [relevant_eq_ok, hm] at hru
      by_cases hone : ∃ c, outEdges g u = [c]
      · -- an only child is on the level of its parent
        obtain ⟨c, hc⟩ := hone
        rw [hc, mem_singleton] at hmem
        subst hmem
        rw [findRelevant_single m hc] at hru
        have hrw : relevant g w = .ok u' := by
          rw [relevant_eq_ok, hm]
          exact findRelevant_succ m hru
        refine ⟨n, u', hrw, hlevel, ?_⟩
        rw [hsnoc, hn, branching_single hc]
        exact Nat.add_zero _
      · have hne : ∀ c, outEdges g u ≠ [c] := fun c hc => hone ⟨c, hc⟩
        rw [findRelevant_stop m hne] at hru
        cases hru
        refine ⟨n + 1, w', hr, .edge hlevel hmem hr, ?_⟩
        rw [hsnoc, hn, branching_other hne]
        omega

end Skip

/-! ## 4. One call -/

/-- **What a call returns is the shallowest**, counting branchings. -/
theorem nextBfs_shallowest {r : Block} {tg tg' : TraceGraph} {id : Id} (h : GraphInv r tg)
    (hn : nextBfs tg = .ok (some id, tg')) : Shallowest (branchings tg.graph 0) tg id := by
  have hpos := h.spells.length_pos
  rw [nextBfs, if_neg (ne_nil_of_length_pos hpos)] at hn
  cases hb : bfs (outEdges tg.graph) (relevant tg.graph) (discoverVertex tg) (.stop .diverges)
      tg.graph.length 0 with
  | ok disc =>
    rw [hb] at hn
    cases hn
  | error e =>
    rw [hb] at hn
    obtain ⟨n, v, hv, hlevel, hve, habove⟩ := bfs_error_level _
      (relevant_within h.spells.trie) (mem_range.2 hpos) (Nat.le_of_eq length_range) hb
    obtain ⟨t, -, hid, he⟩ := discoverVertex_eq h (mem_range.1 hv)
    rw [hve] at he
    obtain ⟨-, he⟩ := he.resolve_left fun he => by cases he.2
    cases he
    cases hn
    -- on the levels above everything is executed
    have hexec : ∀ m < n, ∀ w i, Level (outEdges tg.graph) (relevant tg.graph) 0 m w →
        idAt tg.graph w = some i → tg.executed i ≠ some false := by
      intro m hm w i hw hi hf
      have hok := habove m hm w hw
      rw [discoverVertex, hi] at hok
      simp only [hf] at hok
      cases hok
    cases n with
    | zero =>
      cases hlevel
      exact ⟨[], 0, rfl, hid, fun q w i _ _ _ => Nat.zero_le _⟩
    | succ n =>
      obtain ⟨p, hp, hbr, -⟩ := level_branchings h.spells n hlevel
      refine ⟨p, v, hp, hid, fun q w i hq hi hf => ?_⟩
      by_cases hroot : q = []
      · subst hroot
        cases hq
        exact absurd hf (hexec 0 (Nat.succ_pos n) 0 i .source hi)
      · obtain ⟨m, w', hr, hl', hm⟩ := exists_level h.spells q hroot hq
        obtain ⟨-, -, -, -, hi'⟩ :=
          h.spells.findRelevant_path tg.graph.length hq (relevant_eq_ok.1 hr)
        rw [hbr, hm]
        refine Nat.add_le_add_right (Nat.le_of_not_lt fun hlt => ?_) _
        exact hexec (m + 1) (by omega) w' i hl' (hi'.trans hi) hf

/-! ## 5. All calls -/

/-- A call that finds nothing. -/
theorem exhausts_nil {depth : List Block → Nat} {tg : TraceGraph}
    (hn : nextBfs tg = .ok (none, tg)) (hall : ∀ id, tg.executed id ≠ some false) :
    Exhausts depth tg [] where
  once := nodup_nil
  unexecuted id := ⟨fun hm => absurd hm not_mem_nil, fun he => absurd he (hall id)⟩
  calls n := by
    refine ⟨tg, ?_, fun id hid => ?_⟩
    · rw [take_nil, map_nil, nil_append, length_nil, Nat.sub_zero]
      induction n with
      | zero => rfl
      | succ n ih =>
        rw [nextsBfs, hn, ok_bind, ih]
        rfl
    · cases hid

/-- A call that finds a trace, and then the others. -/
theorem exhausts_cons {depth : List Block → Nat} {tg : TraceGraph} {id : Id} {ids : List Id}
    (hn : nextBfs tg = .ok (some id, tg.mark id)) (he : tg.executed id = some false)
    (hs : Shallowest depth tg id) (h : Exhausts depth (tg.mark id) ids) :
    Exhausts depth tg (id :: ids) where
  once := by
    refine nodup_cons.2 ⟨fun hm => ?_, h.once⟩
    have hmark := (h.unexecuted id).1 hm
    rw [show (tg.mark id).executed id = some true from if_pos rfl] at hmark
    cases hmark
  unexecuted i := by
    rw [mem_cons, h.unexecuted]
    by_cases hi : i = id
    · rw [hi]
      exact ⟨fun _ => he, fun _ => .inl rfl⟩
    · rw [mark_executed hi]
      exact ⟨fun hm => hm.resolve_left hi, .inr⟩
  calls n := by
    cases n with
    | zero =>
      refine ⟨tg, by rw [Nat.zero_sub]; rfl, fun i hi => ?_⟩
      cases hi
      exact hs
    | succ n =>
      obtain ⟨tg', hcalls, hnext⟩ := h.calls n
      refine ⟨tg', ?_, fun i hi => hnext i hi⟩
      rw [nextsBfs, hn, ok_bind]
      show (nextsBfs (tg.mark id) n >>= fun rs => pure (some id :: rs.1, rs.2)) = _
      rw [hcalls, length_cons, Nat.add_sub_add_right]
      rfl

/-- The calls exhaust a graph built by inserts. The induction is on the unexecuted traces, of
    which every call takes one. -/
theorem GraphInv.exhausts {r : Block} (n : Nat) : ∀ {tg : TraceGraph} {left : List Id},
    GraphInv r tg → left.length = n → left.Nodup →
    (∀ id, id ∈ left ↔ tg.executed id = some false) →
    ∃ ids, Exhausts (branchings tg.graph 0) tg ids := by
  induction n with
  | zero =>
    intro tg left h hlen _ hleft
    have hall : ∀ id, tg.executed id ≠ some false := by
      intro id he
      have hm := (hleft id).2 he
      rw [length_eq_zero_iff.1 hlen] at hm
      cases hm
    rcases nextBfs_spec h with ⟨hn, -⟩ | ⟨id, -, he⟩
    · exact ⟨[], exhausts_nil hn hall⟩
    · exact absurd he (hall id)
  | succ n ih =>
    intro tg left h hlen hnodup hleft
    rcases nextBfs_spec h with ⟨-, hall⟩ | ⟨id, hn, he⟩
    · -- an unexecuted key is the id of a kept trace
      obtain ⟨id, rest, e⟩ := exists_cons_of_length_eq_add_one hlen
      have hid := (hleft id).1 (by rw [e]; exact (.head _))
      obtain ⟨t, ht, hti⟩ := (h.keys id).1 (by rw [hid]; exact some_ne_none false)
      rw [← hti, hall t ht] at hid
      cases hid
    · have hm := (hleft id).2 he
      have hrest : ∀ i, i ∈ left.erase id ↔ (tg.mark id).executed i = some false := by
        intro i
        rw [hnodup.mem_erase_iff, hleft]
        by_cases hi : i = id
        · rw [hi, show (tg.mark id).executed id = some true from if_pos rfl]
          exact ⟨fun hne => absurd rfl hne.1, fun e => by cases e⟩
        · rw [mark_executed hi]
          exact ⟨And.right, fun hf => ⟨hi, hf⟩⟩
      obtain ⟨ids, hids⟩ := ih (h.mark (by rw [he]; exact some_ne_none false))
        (by rw [length_erase_of_mem hm, hlen]; rfl) (hnodup.erase id) hrest
      exact ⟨id :: ids, exhausts_cons hn he (nextBfs_shallowest h hn) hids⟩

/-- **Breadth-first selection is exhaustive and fair**: on every graph reached by inserts of
    non-empty traces and by executed traces, the calls return every unexecuted trace once, each
    at the fewest branchings, and then none for ever. -/
theorem nextsBfs_exhausts (cs : List GraphCall) (hids : Identified (insertedTraces cs))
    (hne : ∀ t ∈ insertedTraces cs, t.blocks ≠ []) {tg : TraceGraph}
    (hc : callAll .empty cs = .ok tg) : ∃ ids, Exhausts (branchings tg.graph 0) tg ids := by
  rcases (callAll_called cs hids hc).built_of_ne hne with rfl | ⟨r, hg⟩
  · exact ⟨[], exhausts_nil rfl fun id he => by cases he⟩
  · have hleft : ∀ id, id ∈ (tg.traces.filter fun t => tg.executed t.id = some false).map Trace.id ↔
        tg.executed id = some false := by
      intro id
      constructor
      · intro hm
        obtain ⟨t, ht, rfl⟩ := mem_map.1 hm
        exact of_decide_eq_true (mem_filter.1 ht).2
      · intro he
        obtain ⟨t, ht, rfl⟩ := (hg.keys id).1 (by rw [he]; exact some_ne_none false)
        exact mem_map_of_mem (mem_filter.2 ⟨ht, decide_eq_true he⟩)
    exact hg.exhausts _ rfl (hg.spells.ids.sublist (filter_sublist.map _)) hleft

/-- Two pairs of traces, one of which branches later than the other. -/
def twoPairs : List GraphCall :=
  [.insert ⟨[1], [0, 1, 2, 5]⟩, .insert ⟨[2], [0, 1, 2, 6]⟩, .insert ⟨[3], [0, 7, 8]⟩,
    .insert ⟨[4], [0, 7, 9]⟩]

/-- With one of the four executed. -/
theorem nextsBfs_exhausts_pairs : ∃ tg,
    callAll .empty (twoPairs ++ [.submitExecuted [3]]) = .ok tg ∧
    ∃ ids, Exhausts (branchings tg.graph 0) tg ids :=
  ⟨_, rfl, nextsBfs_exhausts (twoPairs ++ [.submitExecuted [3]]) (by decide) (by decide) rfl⟩

/-- Their graph: the branching vertices are 0, 2 and 5. -/
def pairsGraph : Graph :=
  [⟨⟨0, [1]⟩, [1, 5]⟩, ⟨⟨1, [1]⟩, [2]⟩, ⟨⟨2, [1]⟩, [3, 4]⟩, ⟨⟨5, [1]⟩, []⟩, ⟨⟨6, [2]⟩, []⟩,
    ⟨⟨7, [3]⟩, [6, 7]⟩, ⟨⟨8, [3]⟩, []⟩, ⟨⟨9, [4]⟩, []⟩]

theorem twoPairs_calls : ∃ tg, callAll .empty twoPairs = .ok tg ∧ tg.graph = pairsGraph ∧
    (∃ tg₂, nextsBfs tg 2 = .ok ([some [1], some [3]], tg₂) ∧ tg₂.graph = pairsGraph ∧
      tg₂.executed [4] = some false) ∧
    ∃ tg₃, nextsBfs tg 3 = .ok ([some [1], some [3], some [2]], tg₃) :=
  ⟨_, rfl, rfl, ⟨_, rfl, rfl, rfl⟩, _, rfl⟩

/-- The second trace only labels the vertex 4. -/
theorem pairsGraph_second {v : Nat} (h : idAt pairsGraph v = some [2]) : v = 4 := by
  have hlt : v < pairsGraph.length := by
    refine Nat.lt_of_not_le fun hle => ?_
    rw [idAt, prop?, getElem?_eq_none hle] at h
    cases h
  have hall : ∀ v < pairsGraph.length, idAt pairsGraph v = some [2] → v = 4 := by decide
  exact hall v hlt h

/-- **Depth is not what the search minimises**: the third call returns the second trace, which
    only labels a vertex at depth 3, while the fourth labels one at depth 2. -/
theorem nextsBfs_depth_slip : ∃ tg, callAll .empty twoPairs = .ok tg ∧
    ¬ ∃ ids, Exhausts List.length tg ids := by
  obtain ⟨tg, hc, hg, ⟨tg₂, h₂, hg₂, he₂⟩, tg₃, h₃⟩ := twoPairs_calls
  refine ⟨tg, hc, fun ⟨ids, h⟩ => ?_⟩
  have hthird : ids[2]? = some [2] := by
    obtain ⟨_, hcalls, -⟩ := h.calls 3
    rw [h₃] at hcalls
    have e := (Prod.mk.inj (Except.ok.inj hcalls)).1
    match ids, e with
    | [], e => cases e
    | [_], e => cases e
    | [_, _], e => cases e
    | a :: b :: c :: rest, e =>
      obtain ⟨-, e⟩ := List.cons.inj e
      obtain ⟨-, e⟩ := List.cons.inj e
      exact (List.cons.inj e).1.symm
  obtain ⟨tg', hcalls, hs⟩ := h.calls 2
  rw [h₂] at hcalls
  obtain rfl : tg₂ = tg' := (Prod.mk.inj (Except.ok.inj hcalls)).2
  obtain ⟨p, v, hp, hv, hmin⟩ := hs [2] hthird
  have hle : p.length ≤ [7, 9].length := by
    refine hmin [7, 9] 7 [4] ?_ ?_ he₂
    · rw [hg₂]
      decide
    · rw [hg₂]
      decide
  rw [hg₂] at hp hv
  obtain rfl := pairsGraph_second hv
  have hb := (callAll_called twoPairs (by decide) hc).built_of_ne (by decide)
  have htrie : IsTrie VertexProperty.uniqueHash pairsGraph := by
    rw [← hg]
    rcases hb with e | ⟨r, hgi⟩
    · rw [e] at hg
      cases hg
    · exact hgi.spells.trie
  rw [htrie.walk_inj p [1, 2, 6] hp (by decide)] at hle
  exact absurd hle (by decide)

end Crete.Traces
