/-
  File:      Crete/Traces/Kept.lean
  Subject:   The trace graph keeps the longest traces: what `insert` does to them, to the ids in
             the graph and to `executed_traces_`.

  * `Spells` -- the leaves are the kept traces with their ids, and every vertex has the id of a
    kept trace, all the way down to that trace's leaf.
  * `GraphInv` -- also: the keys of `executed_traces_` are the kept ids.
  * **`insert_spec`** -- `insert` of a new trace with the common first block does not fail; the
    kept traces change as `Lib.absorb` says, and those that stay keep their flag.
-/
import Crete.Lib.Longest
import Crete.Traces.Graph

namespace Crete.Traces

open Crete.Lib Crete.Lib.AdjList List Option
open VertexProperty (uniqueHash)

/-! ## 1. What the graph spells -/

/-- The vertices from `p` down to the leaf of `t` have the id of `t`. -/
structure Owns (r : Block) (g : Graph) (t : Trace) (p : List Block) : Prop where
  through : r :: p <+: t.blocks
  ids : ∀ q w, p <+: q → r :: q <+: t.blocks → reach g q = some w → idAt g w = some t.id

/-- **The graph spells the traces `ts`**, all of which begin with `r`. -/
structure Spells (r : Block) (g : Graph) (ts : List Trace) : Prop where
  trie : IsTrie uniqueHash g
  root : keyAt uniqueHash g 0 = some r
  stored : ∀ t ∈ ts, ∃ p v, t.blocks = r :: p ∧ reach g p = some v ∧ outEdges g v = [] ∧
    idAt g v = some t.id
  leaf : ∀ p v, reach g p = some v → outEdges g v = [] → ∃ t ∈ ts, t.blocks = r :: p
  owned : ∀ p v, reach g p = some v → ∃ t ∈ ts, Owns r g t p
  ids : (ts.map Trace.id).Nodup

namespace Spells

variable {r : Block} {g : Graph} {ts : List Trace} (h : Spells r g ts)
include h

theorem length_pos : 0 < g.length := by
  refine Nat.pos_of_ne_zero fun e => ?_
  have hroot := h.root
  rw [length_eq_zero_iff.1 e] at hroot
  cases hroot

theorem eq_of_id {s t : Trace} (hs : s ∈ ts) (ht : t ∈ ts) (e : s.id = t.id) : s = t :=
  inj_on_of_nodup_map h.ids hs ht e

/-- The vertex has an id, that of its owner. -/
theorem owner {p : List Block} {v : Nat} (hp : reach g p = some v) :
    ∃ t ∈ ts, Owns r g t p ∧ idAt g v = some t.id := by
  obtain ⟨t, ht, ho⟩ := h.owned p v hp
  exact ⟨t, ht, ho, ho.ids p v prefix_rfl ho.through hp⟩

/-- **The id at a vertex is that of a kept trace.** -/
theorem idAt_mem {v : Nat} (hv : v < g.length) : ∃ t ∈ ts, idAt g v = some t.id := by
  obtain ⟨p, hp⟩ := h.trie.exists_walk v hv
  obtain ⟨t, ht, -, hid⟩ := h.owner hp
  exact ⟨t, ht, hid⟩

/-- **A leaf has the id of the trace it ends.** -/
theorem leaf_id {p : List Block} {v : Nat} (hp : reach g p = some v) (ho : outEdges g v = []) :
    ∃ t ∈ ts, t.blocks = r :: p ∧ idAt g v = some t.id := by
  obtain ⟨t, ht, hb⟩ := h.leaf p v hp ho
  obtain ⟨q, w, hb', hq, -, hid⟩ := h.stored t ht
  obtain rfl : p = q := (List.cons.inj (hb.symm.trans hb')).2
  cases hp.symm.trans hq
  exact ⟨t, ht, hb, hid⟩

end Spells

/-- A walk passes through its initial parts. -/
theorem reach_initial {g : Graph} {p q : List Block} {w : Nat} (h : p <+: q)
    (hq : reach g q = some w) : ∃ v, reach g p = some v := by
  obtain ⟨s, rfl⟩ := h
  rw [reach, walk_append] at hq
  obtain ⟨v, hv, -⟩ := bind_eq_some_iff.1 hq
  exact ⟨v, hv⟩

/-- Below a leaf there is nothing. -/
theorem eq_of_leaf_initial {g : Graph} {p q : List Block} {v w : Nat} (h : p <+: q)
    (hp : reach g p = some v) (ho : outEdges g v = []) (hq : reach g q = some w) : p = q := by
  obtain ⟨s, rfl⟩ := h
  cases s with
  | nil => exact (append_nil p).symm
  | cons b s =>
    rw [reach, walk_append, show walk _ g 0 p = some v from hp] at hq
    obtain ⟨c, hc, -⟩ := bind_eq_some_iff.1 (show (child _ g v b).bind _ = some w from hq)
    have hm := (mem_of_child _ hc).1
    rw [ho] at hm
    cases hm

/-! ## 2. A new branch -/

section Branch

variable {r : Block} {g : Graph} {ts : List Trace} {t : Trace} {p₀ rest : List Block} {d : Nat}

/-- The trace `t` leaves the trie at `p₀`, with `rest` still to come. -/
structure Leaves (r : Block) (g : Graph) (t : Trace) (p₀ rest : List Block) (d : Nat) : Prop where
  blocks : t.blocks = r :: (p₀ ++ rest)
  reached : reach g p₀ = some d
  more : rest ≠ []
  fresh : ∀ b ∈ rest.head?, child uniqueHash g d b = none

section

variable (h : Leaves r g t p₀ rest d)

include h

/-- The trie has nothing of the trace beyond the divergence. -/
theorem Leaves.not_reach {q : List Block} (hq : q ≠ [])
    (hp : q <+: rest) {s : List Block} {w : Nat} : reach g (p₀ ++ q ++ s) ≠ some w := by
  intro hw
  obtain ⟨b, q', rfl⟩ := exists_cons_of_ne_nil hq
  obtain ⟨v, hv⟩ := reach_initial (p := p₀ ++ [b]) ⟨q' ++ s, by simp⟩ hw
  rw [reach_snoc, h.reached] at hv
  have hb : child uniqueHash g d b = some v := hv
  rw [h.fresh b] at hb
  · cases hb
  · obtain ⟨s', rfl⟩ := hp
    rfl

/-- What the trie has of the trace ends at the divergence. -/
theorem Leaves.initial {q : List Block} {w : Nat}
    (hq : r :: q <+: t.blocks) (hw : reach g q = some w) : q <+: p₀ := by
  rw [h.blocks, cons_prefix_cons] at hq
  rcases prefix_or_prefix_of_prefix hq.2 (prefix_append p₀ rest) with hq' | ⟨s, rfl⟩
  · exact hq'
  · by_cases hs : s = []
    · exact ⟨[], by rw [hs, append_nil, append_nil]⟩
    · have hs' : s <+: rest := (prefix_append_right_inj p₀).1 hq.2
      exact absurd (by rw [append_nil]; exact hw) (h.not_reach hs hs' (s := []) (w := w))

/-- A kept trace that the new one extends ends at the divergence. -/
theorem Leaves.extended (hs : Spells r g ts) {s : Trace}
    (hm : s ∈ ts) (hp : s.blocks <+: t.blocks) :
    s.blocks = r :: p₀ ∧ outEdges g d = [] ∧ idAt g d = some s.id := by
  obtain ⟨p, v, hb, hv, ho, hid⟩ := hs.stored s hm
  rw [hb] at hp
  obtain rfl : p = p₀ := eq_of_leaf_initial (h.initial hp hv) hv ho h.reached
  cases hv.symm.trans h.reached
  exact ⟨hb, ho, hid⟩

end

/-- The id after a new trace: what it extends gets its id. -/
def rename (ts : List Trace) (t : Trace) (i : Id) : Id :=
  if ∃ s ∈ ts, s.id = i ∧ s.blocks <+: t.blocks then t.id else i

section

variable (hs : Spells r g ts) (h : Leaves r g t p₀ rest d)

include hs h

/-- **A new branch**: with the ids of what the trace extends renamed, the graph spells the traces
    with the new one in place of what it extends. -/
theorem spells_branch {g₁ g₂ : Graph}
    (hreach : ∀ p, reach g₁ p = reach g p) (hout : ∀ w, outEdges g₁ w = outEdges g w)
    (hroot : keyAt uniqueHash g₁ 0 = keyAt uniqueHash g 0)
    (hid : ∀ w, idAt g₁ w = (idAt g w).map (rename ts t))
    (hfresh : ∀ s ∈ ts, s.id ≠ t.id) (hx : Extends t.id g₁ g₂ p₀ rest) :
    Spells r g₂ (ts.filter (fun s => ¬ s.blocks <+: t.blocks) ++ [t]) := by
  have hmem : ∀ {s}, s ∈ ts.filter (fun s => ¬ s.blocks <+: t.blocks) ++ [t] ↔
      s ∈ ts ∧ ¬ s.blocks <+: t.blocks ∨ s = t := by
    intro s
    rw [mem_append, mem_filter, mem_singleton, decide_eq_true_iff]
  -- a kept trace keeps its id, an extended one gets the new id
  have hkeep : ∀ s ∈ ts, ¬ s.blocks <+: t.blocks → rename ts t s.id = s.id := by
    intro s hm hn
    refine if_neg fun ⟨s', hm', e, hp⟩ => ?_
    rw [hs.eq_of_id hm' hm e] at hp
    exact hn hp
  have hext : ∀ s ∈ ts, s.blocks <+: t.blocks → rename ts t s.id = t.id := fun s hm hp =>
    if_pos ⟨s, hm, rfl, hp⟩
  have hold : ∀ {p w}, reach g p = some w → reach g₂ p = some w ∧
      idAt g₂ w = (idAt g w).map (rename ts t) ∧
      (outEdges g₂ w = [] ↔ outEdges g w = [] ∧ p ≠ p₀) := by
    intro p w hw
    obtain ⟨h1, h2, h3⟩ := hx.old p w (by rw [hreach]; exact hw)
    refine ⟨h1, by rw [h2, hid], ?_⟩
    rw [h3, hout]
    exact ⟨fun ⟨ho, hp⟩ => ⟨ho, fun e => h.more (hp e)⟩, fun ⟨ho, hp⟩ => ⟨ho, fun e => absurd e hp⟩⟩
  have honly : ∀ {p w}, reach g₂ p = some w →
      reach g p = some w ∨ ∃ q, q ≠ [] ∧ q <+: rest ∧ p = p₀ ++ q := by
    intro p w hw
    rw [← hreach]
    exact hx.only p w hw
  have hnew : ∀ {q w}, q ≠ [] → q <+: rest → reach g₂ (p₀ ++ q) = some w →
      idAt g₂ w = some t.id ∧ (outEdges g₂ w = [] ↔ q = rest) := by
    intro q w hq hp hw
    obtain ⟨w', hw', hi, ho⟩ := hx.new q hq hp
    cases hw.symm.trans hw'
    exact ⟨hi, ho⟩
  refine ⟨hx.trie, by rw [hx.root, hroot]; exact hs.root, fun s hm => ?_, fun p v hv ho => ?_,
    fun p v hv => ?_, ?_⟩
  · rcases hmem.1 hm with ⟨hm, hn⟩ | rfl
    · obtain ⟨p, v, hb, hv, ho, hi⟩ := hs.stored s hm
      obtain ⟨h1, h2, h3⟩ := hold hv
      refine ⟨p, v, hb, h1, h3.2 ⟨ho, fun e => hn ?_⟩, ?_⟩
      · rw [hb, e, h.blocks]
        exact cons_prefix_cons.2 ⟨rfl, prefix_append _ _⟩
      · rw [h2, hi, map_some, hkeep s hm hn]
    · obtain ⟨w, hw, hi, ho⟩ := hx.new rest h.more prefix_rfl
      exact ⟨p₀ ++ rest, w, h.blocks, hw, ho.2 rfl, hi⟩
  · rcases honly hv with hv' | ⟨q, hq, hp, rfl⟩
    · obtain ⟨ho', hne⟩ := (hold hv').2.2.1 ho
      obtain ⟨s, hm, hb⟩ := hs.leaf p v hv' ho'
      refine ⟨s, hmem.2 (.inl ⟨hm, fun hp => hne ?_⟩), hb⟩
      exact (List.cons.inj (hb.symm.trans (h.extended hs hm hp).1)).2
    · obtain ⟨-, ho'⟩ := hnew hq hp hv
      exact ⟨t, hmem.2 (.inr rfl), by rw [ho'.1 ho]; exact h.blocks⟩
  · rcases honly hv with hv' | ⟨q, hq, hp, rfl⟩
    · obtain ⟨s, hm, hown⟩ := hs.owned p v hv'
      by_cases hsp : s.blocks <+: t.blocks
      · -- the owner is extended: now the new trace owns the vertex
        refine ⟨t, hmem.2 (.inr rfl), hown.through.trans hsp, fun q w hpq hq hw => ?_⟩
        rcases honly hw with hw' | ⟨q', hq', hp', rfl⟩
        · have hqs : r :: q <+: s.blocks := by
            rw [(h.extended hs hm hsp).1]
            exact cons_prefix_cons.2 ⟨rfl, h.initial hq hw'⟩
          rw [(hold hw').2.1, hown.ids q w hpq hqs hw', map_some, hext s hm hsp]
        · exact (hnew hq' hp' hw).1
      · refine ⟨s, hmem.2 (.inl ⟨hm, hsp⟩), hown.through, fun q w hpq hq hw => ?_⟩
        rcases honly hw with hw' | ⟨q', hq', hp', rfl⟩
        · rw [(hold hw').2.1, hown.ids q w hpq hq hw', map_some, hkeep s hm hsp]
        · obtain ⟨ps, vs, hb, hvs, -⟩ := hs.stored s hm
          rw [hb, cons_prefix_cons] at hq
          obtain ⟨s', rfl⟩ := hq.2
          exact absurd hvs (h.not_reach hq' hp')
    · refine ⟨t, hmem.2 (.inr rfl), ?_, fun q' w hpq hq' hw => ?_⟩
      · rw [h.blocks]
        exact cons_prefix_cons.2 ⟨rfl, (prefix_append_right_inj p₀).2 hp⟩
      · rcases honly hw with hw' | ⟨q'', hq'', hp'', rfl⟩
        · obtain ⟨s', rfl⟩ := hpq
          exact absurd hw' (h.not_reach hq hp)
        · exact (hnew hq'' hp'' hw).1
  · rw [map_append, nodup_append]
    refine ⟨hs.ids.sublist (filter_sublist.map _), nodup_singleton _, ?_⟩
    intro i hi j hj
    obtain ⟨s, hm, rfl⟩ := mem_map.1 hi
    rw [map_singleton, mem_singleton] at hj
    rw [hj]
    exact hfresh s (mem_filter.1 hm).1

/-- If the trie goes on at the divergence, the new trace extends none of the kept ones. -/
theorem rename_branching (ho : outEdges g d ≠ []) (i : Id) : rename ts t i = i :=
  if_neg fun ⟨_, hm, _, hp⟩ => ho (h.extended hs hm hp).2.1

/-- If a trace ends at the divergence, it is the one that is extended. -/
theorem rename_ended {t₀ : Trace}
    (hm₀ : t₀ ∈ ts) (hb₀ : t₀.blocks = r :: p₀) (hid₀ : idAt g d = some t₀.id) (i : Id) :
    rename ts t i = if i = t₀.id then t.id else i := by
  have hp₀ : t₀.blocks <+: t.blocks := by
    rw [hb₀, h.blocks]
    exact cons_prefix_cons.2 ⟨rfl, prefix_append _ _⟩
  by_cases e : i = t₀.id
  · rw [if_pos e, rename, if_pos ⟨t₀, hm₀, e.symm, hp₀⟩]
  · rw [if_neg e, rename, if_neg]
    intro ⟨s, hm, hi, hp⟩
    have hid := (h.extended hs hm hp).2.2
    rw [hid₀] at hid
    exact e (hi.symm.trans (Option.some.inj hid).symm)

/-- **`back_insert` on the path to the end of a trace** gives all its vertices the new id. -/
theorem backInsert_ended {t₀ : Trace}
    (hm₀ : t₀ ∈ ts) (hb₀ : t₀.blocks = r :: p₀) (hid₀ : idAt g d = some t₀.id) (w : Nat) :
    idAt (backInsert t.id t₀.id g (along uniqueHash g 0 p₀).reverse) w =
      (idAt g w).map (rename ts t) := by
  -- a vertex with the old id is owned by the old trace
  have howner : ∀ {p v}, reach g p = some v → idAt g v = some t₀.id → Owns r g t₀ p := by
    intro p v hv hi
    obtain ⟨s, hm, hown, hid⟩ := hs.owner hv
    rw [hs.eq_of_id hm₀ hm (Option.some.inj (hi.symm.trans hid))]
    exact hown
  have hnodup : (along uniqueHash g 0 p₀).Nodup :=
    (hs.trie.along_lt p₀ 0).imp Nat.ne_of_lt
  have hlower : (along uniqueHash g 0 p₀).Pairwise
      (fun u v => idAt g u = some t₀.id → idAt g v = some t₀.id) := by
    refine (along_pairwise _ p₀ 0).imp_of_mem fun {u v} hu hv ⟨q₁, hq₁⟩ hi => ?_
    obtain ⟨p₁, hp₁⟩ := below_of_mem_along _ p₀ 0 u hu
    obtain ⟨q₂, hq₂⟩ := below_end _ p₀ 0 d v h.reached hv
    have hv' : reach g (p₁ ++ q₁) = some v := by
      rw [reach, walk_append, hp₁]
      exact hq₁
    have hd' : reach g (p₁ ++ q₁ ++ q₂) = some d := by
      rw [reach, walk_append, show walk _ g 0 (p₁ ++ q₁) = some v from hv']
      exact hq₂
    refine (howner hp₁ hi).ids (p₁ ++ q₁) v (prefix_append _ _) ?_ hv'
    rw [hb₀, ← hs.trie.walk_inj _ _ hd' h.reached]
    exact cons_prefix_cons.2 ⟨rfl, prefix_append _ _⟩
  rw [backInsert_rename _ _ _ g (nodup_reverse.2 hnodup) (pairwise_reverse.2 hlower)]
  cases hw : idAt g w with
  | none =>
    rw [if_neg fun e => some_ne_none _ e.2.symm]
    rfl
  | some i =>
    rw [map_some, rename_ended hs h hm₀ hb₀ hid₀]
    by_cases e : i = t₀.id
    · have hlt : w < g.length := by
        refine Nat.lt_of_not_le fun hle => ?_
        rw [idAt, prop?, getElem?_eq_none hle] at hw
        cases hw
      obtain ⟨p, hp⟩ := hs.trie.exists_walk w hlt
      have hthrough := (howner hp (by rw [hw, e])).through
      rw [hb₀, cons_prefix_cons] at hthrough
      obtain ⟨s, rfl⟩ := hthrough.2
      have hmem := mem_reverse.2 (mem_along uniqueHash p s 0 w hp)
      rw [if_pos e, if_pos ⟨hmem, by rw [e]⟩]
    · rw [if_neg e, if_neg fun e' => e (Option.some.inj e'.2)]

end

end Branch

/-! ## 3. The invariant -/

/-- **The graph spells the kept traces, whose ids are the keys of `executed_traces_`.** -/
structure GraphInv (r : Block) (tg : TraceGraph) : Prop where
  spells : Spells r tg.graph tg.traces
  keys : ∀ id, tg.executed id ≠ none ↔ ∃ t ∈ tg.traces, t.id = id

/-- A graph built by inserts. -/
def Built (r : Block) (tg : TraceGraph) : Prop := tg = .empty ∨ GraphInv r tg

theorem GraphInv.traces_ne_nil {r : Block} {tg : TraceGraph} (h : GraphInv r tg) :
    tg.traces ≠ [] := by
  intro e
  obtain ⟨t, ht, -⟩ := h.spells.owned [] 0 rfl
  rw [e] at ht
  cases ht

/-- What is left of the traces when one is removed by its id. -/
theorem eraseP_id {ts : List Trace} (hn : (ts.map Trace.id).Nodup) (i : Id) :
    ts.eraseP (fun t => t.id = i) = ts.filter fun t => ¬ t.id = i := by
  induction ts with
  | nil => rfl
  | cons s ts ih =>
    obtain ⟨hs, hn'⟩ := nodup_cons.1 hn
    by_cases e : s.id = i
    · rw [eraseP_cons_of_pos (by simpa using e), filter_cons_of_neg (by simpa using e),
        filter_eq_self.2]
      intro x hx
      refine decide_eq_true fun ex => hs ?_
      exact mem_map.2 ⟨x, hx, ex.trans e.symm⟩
    · rw [eraseP_cons_of_neg (by simpa using e), filter_cons_of_pos (by simpa using e), ih hn']

/-! ## 4. Insertion -/

section Insert

variable {r : Block} {tg : TraceGraph} {t : Trace} {bs : List Block}

/-- The flags after a new trace. -/
def flagsAfter (tg : TraceGraph) (t : Trace) (i : Id) : Option Bool :=
  if i = t.id then some false else if rename tg.traces t i = i then tg.executed i else none

theorem keys_after (h : GraphInv r tg) (i : Id) : flagsAfter tg t i ≠ none ↔
      ∃ s ∈ tg.traces.filter (fun s => ¬ s.blocks <+: t.blocks) ++ [t], s.id = i := by
  unfold flagsAfter
  by_cases hi : i = t.id
  · rw [if_pos hi]
    refine ⟨fun _ => ⟨t, mem_append_right _ (.head _), hi.symm⟩, fun _ => ?_⟩
    exact some_ne_none _
  · rw [if_neg hi]
    by_cases hr : rename tg.traces t i = i
    · rw [if_pos hr, h.keys]
      constructor
      · intro ⟨s, hm, e⟩
        refine ⟨s, mem_append_left _ (mem_filter.2 ⟨hm, decide_eq_true fun hp => ?_⟩), e⟩
        have : rename tg.traces t i = t.id := if_pos ⟨s, hm, e, hp⟩
        exact hi (hr.symm.trans this)
      · intro ⟨s, hm, e⟩
        rcases mem_append.1 hm with hm | hm
        · exact ⟨s, (mem_filter.1 hm).1, e⟩
        · rw [mem_singleton.1 hm] at e
          exact absurd e.symm hi
    · rw [if_neg hr]
      refine ⟨fun e => absurd rfl e, fun ⟨s, hm, e⟩ => absurd ?_ hr⟩
      rcases mem_append.1 hm with hm | hm
      · obtain ⟨hm, hn⟩ := mem_filter.1 hm
        refine if_neg fun ⟨s', hm', e', hp⟩ => ?_
        rw [h.spells.eq_of_id hm' hm (e'.trans e.symm)] at hp
        exact of_decide_eq_true hn hp
      · rw [mem_singleton.1 hm] at e
        exact absurd e.symm hi

/-- The graph of one trace. -/
theorem spells_single (id : Id) (r : Block) (bs : List Block) :
    Spells r (makeGraph ⟨id, r :: bs⟩) [⟨id, r :: bs⟩] := by
  have hsingle : IsTrie uniqueHash [(⟨⟨r, id⟩, []⟩ : Node VertexProperty)] :=
    isTrie_single _
  have hroot : ∀ p w, reach [(⟨⟨r, id⟩, []⟩ : Node VertexProperty)] p = some w →
      p = [] ∧ w = 0 := by
    intro p w hw
    cases p with
    | nil =>
      cases hw
      exact ⟨rfl, rfl⟩
    | cons a p => cases hw
  -- the path is a branch below the first vertex
  have hx : Extends id [⟨⟨r, id⟩, []⟩] (makeGraph ⟨id, r :: bs⟩) [] bs := by
    rw [makeGraph_eq]
    exact mergeFrom_extends bs hsingle (Nat.zero_lt_succ 0) rfl fun b _ => rfl
  have hall : ∀ p w, reach (makeGraph ⟨id, r :: bs⟩) p = some w → p <+: bs ∧
      idAt (makeGraph ⟨id, r :: bs⟩) w = some id ∧
      (outEdges (makeGraph ⟨id, r :: bs⟩) w = [] ↔ p = bs) := by
    intro p w hw
    rcases hx.only p w hw with hw' | ⟨q, hq, hp, e⟩
    · obtain ⟨rfl, rfl⟩ := hroot p w hw'
      obtain ⟨-, hi, ho⟩ := hx.old [] 0 hw'
      refine ⟨List.nil_prefix, hi, ho.trans ⟨fun e => (e.2 rfl).symm, fun e => ?_⟩⟩
      exact ⟨rfl, fun _ => e.symm⟩
    · obtain ⟨w', hw', hi, ho⟩ := hx.new q hq hp
      rw [nil_append] at e hw'
      subst e
      obtain rfl : w = w' := Option.some.inj (hw.symm.trans hw')
      exact ⟨hp, hi, ho⟩
  have hend : ∃ w, reach (makeGraph ⟨id, r :: bs⟩) bs = some w := by
    by_cases e : bs = []
    · rw [e]
      exact ⟨0, rfl⟩
    · obtain ⟨w, hw, -⟩ := hx.new bs e prefix_rfl
      exact ⟨w, hw⟩
  refine ⟨hx.trie, hx.root, fun s hm => ?_, fun p v hv ho => ?_, fun p v hv => ?_,
    nodup_singleton _⟩
  · rw [mem_singleton.1 hm]
    obtain ⟨w, hw⟩ := hend
    obtain ⟨-, hi, ho⟩ := hall bs w hw
    exact ⟨bs, w, rfl, hw, ho.2 rfl, hi⟩
  · refine ⟨_, mem_singleton_self _, ?_⟩
    rw [(hall p v hv).2.2.1 ho]
  · refine ⟨_, mem_singleton_self _, ?_, fun q w _ _ hw => (hall q w hw).2.1⟩
    exact cons_prefix_cons.2 ⟨rfl, (hall p v hv).1⟩

/-- The trace graph after a new trace that is no initial part of a kept one. -/
structure Grown (r : Block) (tg : TraceGraph) (t : Trace) (tg' : TraceGraph) : Prop where
  inv : GraphInv r tg'
  traces : tg'.traces = tg.traces.filter (fun s => ¬ s.blocks <+: t.blocks) ++ [t]
  executed : ∀ i, tg'.executed i = flagsAfter tg t i

theorem insertKey_new {m : Id → Option Bool} {id : Id} (h : m id = none) (i : Id) :
    insertKey m id false i = if i = id then some false else m i := by
  unfold insertKey
  by_cases e : i = id
  · rw [if_pos ⟨e, h⟩, if_pos e]
  · rw [if_neg fun e' => e e'.1, if_neg e]

/-- The first insert. -/
theorem insert_first (hb : t.blocks = r :: bs) :
    ∃ tg', TraceGraph.empty.insert t = .ok (true, tg') ∧ Grown r .empty t tg' := by
  obtain ⟨id, blocks⟩ := t
  cases hb
  refine ⟨_, rfl, ⟨spells_single id r bs, fun i => ?_⟩, rfl, fun i => ?_⟩
  · show insertKey _ id false i ≠ none ↔ ∃ t ∈ [(⟨id, r :: bs⟩ : Trace)], t.id = i
    rw [insertKey_new rfl]
    by_cases e : i = id
    · rw [if_pos e]
      exact ⟨fun _ => ⟨_, mem_singleton_self _, e.symm⟩, fun _ => some_ne_none _⟩
    · rw [if_neg e]
      refine ⟨fun h => absurd rfl h, fun ⟨s, hm, hi⟩ => ?_⟩
      rw [mem_singleton.1 hm] at hi
      exact absurd hi.symm e
  · show insertKey _ id false i = _
    rw [insertKey_new rfl, flagsAfter]
    split
    · rfl
    · split <;> rfl

/-- Where the trie goes on at the divergence, the kept traces all stay. -/
theorem grown_branching (h : GraphInv r tg) {p₀ rest : List Block} {d : Nat}
    (hl : Leaves r tg.graph t p₀ rest d) (hfresh : ∀ s ∈ tg.traces, s.id ≠ t.id)
    (ho : outEdges tg.graph d ≠ []) :
    Grown r tg t ⟨mergeFrom t.id tg.graph d rest, TraceGraph.addTrace tg.traces t,
      insertKey tg.executed t.id false⟩ := by
  have hren := rename_branching h.spells hl ho
  have hx : Extends t.id tg.graph (mergeFrom t.id tg.graph d rest) p₀ rest :=
    mergeFrom_extends rest h.spells.trie h.spells.length_pos hl.reached hl.fresh
  have hfilter : tg.traces.filter (fun s => ¬ s.blocks <+: t.blocks) = tg.traces :=
    filter_eq_self.2 fun s hm =>
      decide_eq_true fun hp => ho (hl.extended h.spells hm hp).2.1
  have hadd : TraceGraph.addTrace tg.traces t = tg.traces ++ [t] :=
    if_neg fun ⟨s, hm, e⟩ => hfresh s hm e
  have hkey : tg.executed t.id = none := by
    refine Classical.byContradiction fun hne => ?_
    obtain ⟨s, hm, e⟩ := (h.keys t.id).1 hne
    exact hfresh s hm e
  have hexec : ∀ i, insertKey tg.executed t.id false i = flagsAfter tg t i := by
    intro i
    rw [insertKey_new hkey, flagsAfter, if_pos (hren i)]
  refine ⟨⟨?_, fun i => ?_⟩, by rw [hfilter]; exact hadd, hexec⟩
  · show Spells r (mergeFrom t.id tg.graph d rest) (TraceGraph.addTrace tg.traces t)
    rw [hadd, ← hfilter]
    have hid : ∀ w, idAt tg.graph w = (idAt tg.graph w).map (rename tg.traces t) := by
      intro w
      rw [show rename tg.traces t = id from funext hren, Option.map_id, id]
    exact spells_branch h.spells hl (fun _ => rfl) (fun _ => rfl) rfl hid hfresh hx
  · show insertKey tg.executed t.id false i ≠ none ↔ ∃ s ∈ TraceGraph.addTrace tg.traces t, s.id = i
    rw [hexec, keys_after h, hfilter, hadd]

/-- Where a trace ends at the divergence, it is superseded. -/
theorem grown_ended (h : GraphInv r tg) {p₀ rest : List Block} {d : Nat}
    (hl : Leaves r tg.graph t p₀ rest d) (hfresh : ∀ s ∈ tg.traces, s.id ≠ t.id)
    (ho : outEdges tg.graph d = []) :
    ∃ tg₁, tg.supersede t.id d (along uniqueHash tg.graph 0 p₀) = .ok tg₁ ∧
      Grown r tg t ⟨mergeFrom t.id tg₁.graph d rest, TraceGraph.addTrace tg₁.traces t,
        insertKey tg₁.executed t.id false⟩ := by
  obtain ⟨t₀, hm₀, hb₀, hid₀⟩ := h.spells.leaf_id hl.reached ho
  have hren := rename_ended h.spells hl hm₀ hb₀ hid₀
  have hne : t.id ≠ t₀.id := fun e => hfresh t₀ hm₀ e.symm
  -- the superseded trace is the one with that id
  have hsup : ∀ s ∈ tg.traces, s.blocks <+: t.blocks ↔ s.id = t₀.id := by
    intro s hm
    constructor
    · intro hp
      exact Option.some.inj ((hl.extended h.spells hm hp).2.2.symm.trans hid₀)
    · intro e
      rw [h.spells.eq_of_id hm hm₀ e, hb₀, hl.blocks]
      exact cons_prefix_cons.2 ⟨rfl, prefix_append _ _⟩
  have herase : tg.traces.eraseP (fun s => s.id = t₀.id) =
      tg.traces.filter (fun s => ¬ s.blocks <+: t.blocks) := by
    rw [eraseP_id h.spells.ids]
    refine filter_congr fun s hm => ?_
    rw [decide_eq_decide, hsup s hm]
  obtain ⟨hlen, hout, hkeyAt⟩ := backInsert_frame t.id t₀.id
    (along uniqueHash tg.graph 0 p₀).reverse tg.graph
  have hwalk := walk_congr uniqueHash hout hkeyAt
  refine ⟨⟨backInsert t.id t₀.id tg.graph (along uniqueHash tg.graph 0 p₀).reverse,
    tg.traces.eraseP fun s => s.id = t₀.id,
    fun i => if i = t₀.id then none else tg.executed i⟩, ?_, ?_⟩
  · rw [TraceGraph.supersede, hid₀]
    show TraceGraph.remove _ t₀.id = _
    rw [TraceGraph.remove, ensure_bind, if_pos ⟨t₀, hm₀, rfl⟩, ensure_bind,
      if_pos ((h.keys t₀.id).2 ⟨t₀, hm₀, rfl⟩)]
    rfl
  · have hadd : TraceGraph.addTrace (tg.traces.eraseP fun s => s.id = t₀.id) t =
        tg.traces.filter (fun s => ¬ s.blocks <+: t.blocks) ++ [t] := by
      rw [TraceGraph.addTrace, if_neg, herase]
      intro ⟨s, hm, e⟩
      exact hfresh s (mem_of_mem_eraseP hm) e
    have hkey : (if t.id = t₀.id then none else tg.executed t.id) = none := by
      rw [if_neg hne]
      refine Classical.byContradiction fun hn => ?_
      obtain ⟨s, hm, e⟩ := (h.keys t.id).1 hn
      exact hfresh s hm e
    have hexec : ∀ i, insertKey (fun i => if i = t₀.id then none else tg.executed i) t.id false i =
        flagsAfter tg t i := by
      intro i
      rw [insertKey_new hkey, flagsAfter, hren]
      by_cases ht : i = t.id
      · rw [if_pos ht, if_pos ht]
      · by_cases e : i = t₀.id
        · rw [if_neg ht, if_neg ht, if_pos e, if_pos e, if_neg fun e' => ht e'.symm]
        · rw [if_neg ht, if_neg ht, if_neg e, if_neg e, if_pos rfl]
    have hx : Extends t.id (backInsert t.id t₀.id tg.graph
        (along uniqueHash tg.graph 0 p₀).reverse) _ p₀ rest := mergeFrom_extends rest
      (h.spells.trie.congr hlen hout hkeyAt) (by rw [hlen]; exact h.spells.length_pos)
      (by rw [reach, hwalk]; exact hl.reached)
      (fun b hb => (child_congr _ hout hkeyAt d b).trans (hl.fresh b hb))
    refine ⟨⟨?_, fun i => ?_⟩, hadd, hexec⟩
    · show Spells r _ (TraceGraph.addTrace _ t)
      rw [hadd]
      exact spells_branch h.spells hl (fun p => hwalk p 0) hout (hkeyAt 0)
        (backInsert_ended h.spells hl hm₀ hb₀ hid₀) hfresh hx
    · show insertKey _ t.id false i ≠ none ↔ ∃ s ∈ TraceGraph.addTrace _ t, s.id = i
      rw [hexec, keys_after h, hadd]

/-- `merge_trace` on a trace with the common first block. -/
theorem mergeTrace_eq (h : keyAt uniqueHash tg.graph 0 = some r)
    (hb : t.blocks = r :: bs) {path : List Nat} {d : Nat} {rest : List Block}
    (hf : findTraceDivergence tg.graph 0 [] bs = (path, d, rest)) :
    tg.mergeTrace t = if rest = [] then .ok (false, tg) else do
      let tg ← if outEdges tg.graph d = [] then tg.supersede t.id d path else .ok tg
      return (true, { tg with graph := mergeFrom t.id tg.graph d rest }) := by
  unfold TraceGraph.mergeTrace
  split
  · rename_i e
    rw [hb] at e
    cases e
  · rename_i e _
    rw [e] at h
    cases h
  · rename_i b bs' root g' eb eg
    rw [hb] at eb
    cases eb
    have hroot : r = root.prop.uniqueHash := by
      rw [eg] at h
      exact (Option.some.inj h).symm
    rw [ensure_bind, if_pos hroot, hf]
    rfl

/-- `insert` of a trace with the common first block, into a graph with traces. -/
theorem insert_eq (hts : tg.traces ≠ []) (h : keyAt uniqueHash tg.graph 0 = some r)
    (hb : t.blocks = r :: bs) {path : List Nat} {d : Nat} {rest : List Block}
    (hf : findTraceDivergence tg.graph 0 [] bs = (path, d, rest)) :
    tg.insert t = if rest = [] then .ok (false, tg) else do
      let tg ← if outEdges tg.graph d = [] then tg.supersede t.id d path else .ok tg
      return (true, ⟨mergeFrom t.id tg.graph d rest, TraceGraph.addTrace tg.traces t,
        insertKey tg.executed t.id false⟩) := by
  rw [TraceGraph.insert, if_neg hts, mergeTrace_eq h hb hf]
  by_cases hr : rest = []
  · rw [if_pos hr, if_pos hr]
    rfl
  · rw [if_neg hr, if_neg hr]
    by_cases ho : outEdges tg.graph d = []
    · rw [if_pos ho, if_pos ho]
      cases tg.supersede t.id d path <;> rfl
    · rw [if_neg ho, if_neg ho]
      rfl

/-- **`insert` of a trace with the common first block never fails**, if a kept trace with its id
    has all of it. An initial part of a kept trace changes nothing; any other trace is kept in
    place of what it extends. -/
theorem insert_spec (h : Built r tg) (hb : t.blocks = r :: bs)
    (hknown : ∀ s ∈ tg.traces, s.id = t.id → t.blocks <+: s.blocks) :
    (∃ s ∈ tg.traces, t.blocks <+: s.blocks) ∧ tg.insert t = .ok (false, tg) ∨
      (¬ ∃ s ∈ tg.traces, t.blocks <+: s.blocks) ∧
        ∃ tg', tg.insert t = .ok (true, tg') ∧ Grown r tg t tg' := by
  rcases h with rfl | h
  · exact .inr ⟨fun ⟨s, hm, _⟩ => absurd hm not_mem_nil, insert_first hb⟩
  · obtain ⟨p₀, rest, d, hbs, hd, hnext, hf⟩ := find_spec tg.graph bs 0 []
    rw [nil_append] at hf
    have hins := insert_eq h.traces_ne_nil h.spells.root hb hf
    by_cases hr : rest = []
    · -- the trie has all of the trace
      subst hr
      rw [append_nil] at hbs
      subst hbs
      obtain ⟨s, hm, hown⟩ := h.spells.owned bs d hd
      refine .inl ⟨⟨s, hm, by rw [hb]; exact hown.through⟩, ?_⟩
      rw [hins, if_pos rfl]
    · have hl : Leaves r tg.graph t p₀ rest d := ⟨by rw [hb, hbs], hd, hr, hnext⟩
      have hnew : ¬ ∃ s ∈ tg.traces, t.blocks <+: s.blocks := by
        intro ⟨s, hm, hp⟩
        obtain ⟨p, v, hs, hv, -⟩ := h.spells.stored s hm
        rw [hs, hl.blocks, cons_prefix_cons] at hp
        obtain ⟨q, rfl⟩ := hp.2
        exact hl.not_reach hr prefix_rfl hv
      have hfresh : ∀ s ∈ tg.traces, s.id ≠ t.id := fun s hs e => hnew ⟨s, hs, hknown s hs e⟩
      refine .inr ⟨hnew, ?_⟩
      rw [hins, if_neg hr]
      by_cases ho : outEdges tg.graph d = []
      · obtain ⟨tg₁, hs, hg⟩ := grown_ended h hl hfresh ho
        refine ⟨_, ?_, hg⟩
        rw [if_pos ho, hs]
        rfl
      · refine ⟨_, ?_, grown_branching h hl hfresh ho⟩
        rw [if_neg ho]
        rfl

end Insert

end Crete.Traces
