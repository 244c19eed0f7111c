/-
  File:      Crete/Traces/Trie.lean
  Subject:   What the trace graph is after any sequence of inserts.

  * `Holds` -- the invariant of the calls: the graph spells what `Lib.absorbAll` keeps of the
    traces so far.
  * `TrieOf` -- the trie of a sequence of traces: its shape, its leaves, its ids, the keys of
    `executed_traces_` and the answers of the calls.
  * **`insertAll_trieOf`** -- the calls build it.
-/
import Crete.Traces.Kept

namespace Crete.Traces

open Crete.Lib Crete.Lib.AdjList List

/-! ## 1. The calls -/

/-- `insert`, called on one trace after another: the answers and the graph at the end. -/
def insertAll (tg : TraceGraph) : List Trace → Except Stop (List Bool × TraceGraph)
  | [] => .ok ([], tg)
  | t :: ts => do
      let r ← tg.insert t
      let rs ← insertAll r.2 ts
      return (r.1 :: rs.1, rs.2)

/-- The labels from the root to a leaf `v`. -/
def LeafAt (g : Graph) (labels : List Block) (v : Nat) : Prop :=
  ∃ r p, labels = r :: p ∧ keyAt VertexProperty.uniqueHash g 0 = some r ∧ reach g p = some v ∧
    outEdges g v = []

/-- **The trie of the traces `ts`**, and the answers `rets` of the inserts that build it. -/
structure TrieOf (ts : List Trace) (rets : List Bool) (tg : TraceGraph) : Prop where
  tree : IsTrie VertexProperty.uniqueHash tg.graph
  leaves : ∀ labels, (∃ v, LeafAt tg.graph labels v) ↔
    (∃ t ∈ ts, t.blocks = labels) ∧ ∀ t ∈ ts, labels <+: t.blocks → t.blocks = labels
  leafIds : ∀ labels v, LeafAt tg.graph labels v →
    ∃ t ∈ ts, t.blocks = labels ∧ idAt tg.graph v = some t.id
  vertexIds : ∀ v, v < tg.graph.length → ∃ id, idAt tg.graph v = some id ∧ tg.executed id ≠ none
  keys : ∀ id, tg.executed id ≠ none ↔ ∃ labels v, LeafAt tg.graph labels v ∧
    idAt tg.graph v = some id
  answered : rets.length = ts.length
  answers : ∀ earlier t later, ts = earlier ++ t :: later →
    rets[earlier.length]? = some (decide (∀ s ∈ earlier, ¬ t.blocks <+: s.blocks))

/-! ## 2. One insert -/

/-- The graph after the traces `seen`. -/
structure Holds (r : Block) (seen : List Trace) (tg : TraceGraph) : Prop where
  built : Built r tg
  kept : tg.traces = absorbAll Trace.blocks seen

theorem holds_empty (r : Block) : Holds r [] .empty := ⟨.inl rfl, rfl⟩

/-- A kept trace extends the new one exactly if an earlier trace does. -/
theorem Holds.covered_iff {r : Block} {seen : List Trace} {tg : TraceGraph} (h : Holds r seen tg)
    (t : Trace) :
    (∃ s ∈ tg.traces, t.blocks <+: s.blocks) ↔ ∃ s ∈ seen, t.blocks <+: s.blocks := by
  rw [h.kept]
  constructor
  · intro ⟨s, hs, hp⟩
    exact ⟨s, absorbAll_subset Trace.blocks seen s hs, hp⟩
  · intro ⟨s, hs, hp⟩
    obtain ⟨s', hs', hp'⟩ := absorbAll_covers Trace.blocks seen s hs
    exact ⟨s', hs', hp.trans hp'⟩

/-- **One insert**: it returns, its answer says whether an earlier trace has all of the new one,
    and the graph is that of one more trace. -/
theorem Holds.insert {r : Block} {seen : List Trace} {tg : TraceGraph} (h : Holds r seen tg)
    {t : Trace} {bs : List Block} (hb : t.blocks = r :: bs) (hfresh : ∀ s ∈ seen, s.id ≠ t.id) :
    ∃ tg', tg.insert t = .ok (decide (∀ s ∈ seen, ¬ t.blocks <+: s.blocks), tg') ∧
      Holds r (seen ++ [t]) tg' := by
  have hfresh' : ∀ s ∈ tg.traces, s.id ≠ t.id := by
    intro s hs
    rw [h.kept] at hs
    exact hfresh s (absorbAll_subset Trace.blocks seen s hs)
  rcases insert_spec h.built hb fun s hs e => absurd e (hfresh' s hs) with
    ⟨hc, hi⟩ | ⟨hc, tg', hi, hg⟩
  · refine ⟨tg, ?_, h.built, ?_⟩
    · obtain ⟨s, hs, hp⟩ := (h.covered_iff t).1 hc
      rw [hi, decide_eq_false fun hn => hn s hs hp]
    · rw [absorbAll_snoc, ← h.kept, absorb_covered _ hc]
  · refine ⟨tg', ?_, .inr hg.inv, ?_⟩
    · have hnew : ∀ s ∈ seen, ¬ t.blocks <+: s.blocks := fun s hs hp =>
        hc ((h.covered_iff t).2 ⟨s, hs, hp⟩)
      rw [hi, decide_eq_true hnew]
    · rw [absorbAll_snoc, ← h.kept, absorb, if_neg hc, hg.traces]

/-! ## 3. All inserts -/

/-- The answers to `ts` after `seen`. -/
def Answers (seen ts : List Trace) (rets : List Bool) : Prop :=
  rets.length = ts.length ∧ ∀ earlier t later, ts = earlier ++ t :: later →
    rets[earlier.length]? = some (decide (∀ s ∈ seen ++ earlier, ¬ t.blocks <+: s.blocks))

theorem Answers.cons {seen ts : List Trace} {t : Trace} {rets : List Bool}
    (h : Answers (seen ++ [t]) ts rets) :
    Answers seen (t :: ts) (decide (∀ s ∈ seen, ¬ t.blocks <+: s.blocks) :: rets) := by
  refine ⟨congrArg (· + 1) h.1, fun earlier x later e => ?_⟩
  cases earlier with
  | nil =>
    cases e
    rw [append_nil]
    rfl
  | cons y earlier =>
    rw [cons_append] at e
    obtain ⟨rfl, e'⟩ := List.cons.inj e
    have hx := h.2 earlier x later e'
    rw [append_assoc] at hx
    exact hx

/-- **The calls keep the invariant.** -/
theorem Holds.insertAll {r : Block} (ts : List Trace) : ∀ {seen : List Trace} {tg : TraceGraph},
    Holds r seen tg → (∀ t ∈ ts, ∃ bs, t.blocks = r :: bs) →
    ((seen ++ ts).map Trace.id).Nodup →
    ∃ rets tg', insertAll tg ts = .ok (rets, tg') ∧ Holds r (seen ++ ts) tg' ∧
      Answers seen ts rets := by
  induction ts with
  | nil =>
    intro seen tg h _ _
    refine ⟨[], tg, rfl, by rw [append_nil]; exact h, rfl, fun earlier t later e => ?_⟩
    cases earlier <;> cases e
  | cons t ts ih =>
    intro seen tg h hfirst hids
    obtain ⟨bs, hb⟩ := hfirst t (.head _)
    have hfresh : ∀ s ∈ seen, s.id ≠ t.id := by
      intro s hs e
      rw [map_append, nodup_append] at hids
      exact hids.2.2 s.id (mem_map_of_mem hs) t.id (mem_map_of_mem (.head _)) e
    obtain ⟨tg₁, hi, h₁⟩ := h.insert hb hfresh
    have hsplit : seen ++ t :: ts = (seen ++ [t]) ++ ts := by
      rw [append_assoc, singleton_append]
    rw [hsplit] at hids ⊢
    obtain ⟨rets, tg', hall, h', ha⟩ :=
      ih h₁ (forall_mem_cons.1 hfirst).2 hids
    refine ⟨_ :: rets, tg', ?_, h', ha.cons⟩
    rw [Traces.insertAll, hi]
    show (Traces.insertAll tg₁ ts >>= fun rs => pure (_ :: rs.1, rs.2)) = _
    rw [hall]
    rfl

/-! ## 4. The trie -/

/-- What is kept of `ts` is spelled by what no other trace of `ts` extends. -/
theorem kept_blocks_iff (ts : List Trace) (labels : List Block) :
    (∃ t ∈ absorbAll Trace.blocks ts, t.blocks = labels) ↔
      (∃ t ∈ ts, t.blocks = labels) ∧ ∀ t ∈ ts, labels <+: t.blocks → t.blocks = labels := by
  constructor
  · rintro ⟨s, hs, rfl⟩
    refine ⟨⟨s, absorbAll_subset Trace.blocks ts s hs, rfl⟩, fun x hx hp => ?_⟩
    obtain ⟨s', hs', hp'⟩ := absorbAll_covers Trace.blocks ts x hx
    have e := absorbAll_antichain Trace.blocks ts s hs s' hs' (hp.trans hp')
    rw [← e] at hp'
    exact hp'.eq_of_length_le hp.length_le
  · rintro ⟨⟨t, ht, rfl⟩, hmax⟩
    obtain ⟨s, hs, hp⟩ := absorbAll_covers Trace.blocks ts t ht
    exact ⟨s, hs, hmax s (absorbAll_subset Trace.blocks ts s hs) hp⟩

section Leaves

variable {r : Block} {tg : TraceGraph} (h : GraphInv r tg)
include h

/-- The leaves are the kept traces, with their ids. -/
theorem GraphInv.leafAt_iff {labels : List Block} {v : Nat} : LeafAt tg.graph labels v ↔
    ∃ t ∈ tg.traces, t.blocks = labels ∧ idAt tg.graph v = some t.id ∧
      ∃ p, labels = r :: p ∧ reach tg.graph p = some v := by
  constructor
  · rintro ⟨r', p, rfl, hr, hp, ho⟩
    rw [h.spells.root] at hr
    cases hr
    obtain ⟨t, ht, hb, hid⟩ := h.spells.leaf_id hp ho
    exact ⟨t, ht, hb, hid, p, rfl, hp⟩
  · rintro ⟨t, ht, hb, -, p, rfl, hp⟩
    obtain ⟨p', v', hb', hp', ho, -⟩ := h.spells.stored t ht
    rw [hb] at hb'
    cases hb'
    rw [hp] at hp'
    cases hp'
    exact ⟨r, p, rfl, h.spells.root, hp, ho⟩

/-- Every kept trace has its leaf. -/
theorem GraphInv.exists_leaf {t : Trace} (ht : t ∈ tg.traces) :
    ∃ v, LeafAt tg.graph t.blocks v ∧ idAt tg.graph v = some t.id := by
  obtain ⟨p, v, hb, hp, ho, hid⟩ := h.spells.stored t ht
  exact ⟨v, ⟨r, p, hb, h.spells.root, hp, ho⟩, hid⟩

end Leaves

theorem not_leafAt_nil (labels : List Block) (v : Nat) : ¬ LeafAt [] labels v :=
  fun ⟨_, _, _, hr, _⟩ => nomatch hr

/-- No traces, no vertices. -/
theorem trieOf_empty {rets : List Bool} (hlen : rets.length = ([] : List Trace).length) :
    TrieOf [] rets .empty where
  tree := ⟨⟨fun _ _ hc => absurd hc not_mem_nil, fun _ _ _ hc => absurd hc not_mem_nil,
    fun _ => nodup_nil, fun c _ hc => absurd hc (Nat.not_lt_zero c)⟩,
    fun _ _ _ hc => absurd hc not_mem_nil⟩
  leaves labels := ⟨fun ⟨v, hl⟩ => absurd hl (not_leafAt_nil labels v),
    fun ⟨⟨_, ht, _⟩, _⟩ => absurd ht not_mem_nil⟩
  leafIds labels v hl := absurd hl (not_leafAt_nil labels v)
  vertexIds v hv := absurd hv (Nat.not_lt_zero v)
  keys _ := ⟨fun h => absurd rfl h, fun ⟨labels, v, hl, _⟩ => absurd hl (not_leafAt_nil labels v)⟩
  answered := hlen
  answers earlier t later e := by cases earlier <;> cases e

/-- **Any sequence of inserts** of traces with a common first block and distinct ids builds the
    trie of these traces. -/
theorem insertAll_trieOf (r : Block) (ts : List Trace)
    (hfirst : ∀ t ∈ ts, ∃ bs, t.blocks = r :: bs) (hids : (ts.map Trace.id).Nodup) :
    ∃ rets tg, insertAll .empty ts = .ok (rets, tg) ∧ TrieOf ts rets tg := by
  obtain ⟨rets, tg, hall, h, hlen, hans⟩ := (holds_empty r).insertAll ts hfirst hids
  rw [nil_append] at h
  refine ⟨rets, tg, hall, ?_⟩
  rcases h.built with rfl | hg
  · -- nothing is kept of the traces, so there were none
    obtain rfl : ts = [] := by
      refine eq_nil_iff_forall_not_mem.2 fun t ht => ?_
      obtain ⟨s, hs, -⟩ := absorbAll_covers Trace.blocks ts t ht
      rw [← h.kept] at hs
      cases hs
    exact trieOf_empty hlen
  · refine ⟨hg.spells.trie, fun labels => ?_, fun labels v hl => ?_, fun v hv => ?_, fun id => ?_,
      hlen, hans⟩
    · rw [← kept_blocks_iff, ← h.kept]
      constructor
      · intro ⟨v, hl⟩
        obtain ⟨t, ht, hb, -⟩ := hg.leafAt_iff.1 hl
        exact ⟨t, ht, hb⟩
      · rintro ⟨t, ht, rfl⟩
        obtain ⟨v, hl, -⟩ := hg.exists_leaf ht
        exact ⟨v, hl⟩
    · obtain ⟨t, ht, hb, hid, -⟩ := hg.leafAt_iff.1 hl
      rw [h.kept] at ht
      exact ⟨t, absorbAll_subset Trace.blocks ts t ht, hb, hid⟩
    · obtain ⟨t, ht, hid⟩ := hg.spells.idAt_mem hv
      exact ⟨t.id, hid, (hg.keys t.id).2 ⟨t, ht, rfl⟩⟩
    · rw [hg.keys]
      constructor
      · rintro ⟨t, ht, rfl⟩
        obtain ⟨v, hl, hid⟩ := hg.exists_leaf ht
        exact ⟨t.blocks, v, hl, hid⟩
      · intro ⟨labels, v, hl, hid⟩
        obtain ⟨t, ht, -, hid', -⟩ := hg.leafAt_iff.1 hl
        exact ⟨t, ht, Option.some.inj (hid'.symm.trans hid)⟩

/-- A trace, one that extends it, one that branches off, and an initial part of the last. -/
theorem insertAll_trieOf_four :
    ∃ rets tg, insertAll .empty [⟨[1], [5, 6]⟩, ⟨[2], [5, 6, 7]⟩, ⟨[3], [5, 8]⟩, ⟨[4], [5]⟩] =
        .ok (rets, tg) ∧
      TrieOf [⟨[1], [5, 6]⟩, ⟨[2], [5, 6, 7]⟩, ⟨[3], [5, 8]⟩, ⟨[4], [5]⟩] rets tg :=
  insertAll_trieOf 5 _ (by simp) (by decide)

end Crete.Traces
