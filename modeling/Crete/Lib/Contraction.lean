/-
  File:      Crete/Lib/Contraction.lean
  Subject:   Trees kept as adjacency lists, with their chains of only children skipped.

  * `Chain` -- from an only child to an only child; a `LeafBranch` is a vertex whose chain ends in
    a leaf.
  * `Stands` -- the vertex that stands for a chain: its first vertex if the chain ends in a leaf,
    and otherwise the branching vertex at its end.
  * `Contracts` -- a graph whose vertices stand for the chains of a tree, one below another as the
    chains are. From this: **`Contracts.source_inj`**, **`Contracts.covers_branching`**,
    **`Contracts.covers_leaf`** and **`Contracts.above_iff`**.
-/
import Crete.Lib.AdjList
import Mathlib.Data.List.Zip

namespace Crete.Lib.AdjList

open Function List Relation

variable {π : Type}

/-! ## 1. Trees -/

variable {g : AdjList π}

/-- `v` is a child of `u`. -/
def Edge (g : AdjList π) (u v : Nat) : Prop := v ∈ outEdges g u

/-- **`u` is an ancestor of `v`.** -/
def Above (g : AdjList π) (u v : Nat) : Prop := TransGen (Edge g) u v

theorem not_above_zero (h : IsTree g) {u : Nat} : ¬ Above g u 0 := by
  intro ha
  obtain ⟨b, -, hb⟩ := TransGen.tail'_iff.1 ha
  have := (h.forward b 0 hb).1
  omega

/-- The ancestors of a child: its parent, and the ancestors of that. -/
theorem above_child (h : IsTree g) {u p v : Nat} (hv : v ∈ outEdges g p) :
    Above g u v ↔ u = p ∨ Above g u p := by
  constructor
  · intro ha
    obtain ⟨b, hub, hb⟩ := TransGen.tail'_iff.1 ha
    rw [h.parent b p v hb hv] at hub
    rcases reflTransGen_iff_eq_or_transGen.1 hub with e | ha
    · exact .inl e.symm
    · exact .inr ha
  · intro ha
    rcases ha with rfl | ha
    · exact .single hv
    · exact ha.tail hv

/-! ## 2. Chains -/

variable {u v : Nat}

def OnlyChild (g : AdjList π) (u v : Nat) : Prop := outEdges g u = [v]

/-- **From `u` down to `v`, each vertex the only child of the one before.** -/
def Chain (g : AdjList π) (u v : Nat) : Prop := ReflTransGen (OnlyChild g) u v

/-- What is below `v` is a chain that ends in a leaf. -/
def LeafBranch (g : AdjList π) (v : Nat) : Prop := ∃ l, Chain g v l ∧ outEdges g l = []

/-- A vertex with two children or more. -/
def Branching (g : AdjList π) (v : Nat) : Prop := 2 ≤ (outEdges g v).length

theorem Branching.exists_cons {v : Nat} (h : Branching g v) :
    ∃ a b cs, outEdges g v = a :: b :: cs := by
  rw [Branching] at h
  rcases he : outEdges g v with _ | ⟨a, _ | ⟨b, cs⟩⟩
  · rw [he] at h
    exact absurd h (by decide)
  · rw [he] at h
    exact absurd h (by simp)
  · exact ⟨a, b, cs, rfl⟩

theorem OnlyChild.edge (h : OnlyChild g u v) : v ∈ outEdges g u := by
  rw [h]
  exact mem_singleton_self v

theorem OnlyChild.not_branching (h : OnlyChild g u v) : ¬ Branching g u := by
  rw [Branching, h, length_singleton]
  omega

theorem Chain.edges (h : Chain g u v) : ReflTransGen (Edge g) u v :=
  ReflTransGen.mono (fun _ _ he => OnlyChild.edge he) u v h

/-- A vertex is a leaf, has an only child, or branches. -/
theorem children_cases (g : AdjList π) (v : Nat) :
    outEdges g v = [] ∨ (∃ c, OnlyChild g v c) ∨ Branching g v := by
  unfold OnlyChild Branching
  match outEdges g v with
  | [] => exact .inl rfl
  | [c] => exact .inr (.inl ⟨c, rfl⟩)
  | _ :: _ :: _ => exact .inr (.inr (by simp))

theorem Branching.not_leafBranch {v : Nat} (h : Branching g v) : ¬ LeafBranch g v := by
  intro ⟨l, hc, hl⟩
  rcases ReflTransGen.cases_head hc with rfl | ⟨c, hvc, -⟩
  · rw [Branching, hl] at h
    exact absurd h (by decide)
  · exact hvc.not_branching h

/-- A vertex and its only child: both are leaf branches, or none is. -/
theorem OnlyChild.leafBranch_iff (h : OnlyChild g u v) : LeafBranch g u ↔ LeafBranch g v := by
  constructor
  · intro ⟨l, hc, hl⟩
    rcases ReflTransGen.cases_head hc with rfl | ⟨c, huc, hc⟩
    · rw [h] at hl
      exact absurd hl (cons_ne_nil _ _)
    · rw [OnlyChild, h] at huc
      rw [← (List.cons.inj huc).1] at hc
      exact ⟨l, hc, hl⟩
  · intro ⟨l, hc, hl⟩
    exact ⟨l, ReflTransGen.head h hc, hl⟩

theorem Chain.leafBranch_iff (h : Chain g u v) : LeafBranch g u ↔ LeafBranch g v := by
  induction h with
  | refl => exact Iff.rfl
  | tail _ he ih => exact ih.trans he.leafBranch_iff

/-- Below a leaf branch there are leaf branches only. -/
theorem LeafBranch.below (h : LeafBranch g u) (ha : Above g u v) : LeafBranch g v := by
  have hstep : ∀ {p c : Nat}, LeafBranch g p → Edge g p c → LeafBranch g c := by
    intro p c hp hc
    rcases children_cases g p with he | ⟨c', hc'⟩ | hb
    · rw [Edge, he] at hc
      cases hc
    · rw [Edge, hc', mem_singleton] at hc
      rw [hc]
      exact hc'.leafBranch_iff.1 hp
    · exact absurd hp hb.not_leafBranch
  induction ha with
  | single he => exact hstep h he
  | tail _ he ih => exact hstep ih he

/-- No chain comes to `t` from above. -/
def Top (g : AdjList π) (t : Nat) : Prop := ∀ p, t ∈ outEdges g p → Branching g p

theorem top_zero (h : IsTree g) : Top g 0 := by
  intro p hp
  have := (h.forward p 0 hp).1
  omega

theorem top_child (h : IsTree g) {p t : Nat} (ht : t ∈ outEdges g p)
    (hp : Branching g p) : Top g t := by
  intro q hq
  rw [h.parent q p t hq ht]
  exact hp

/-- Nothing above a top vertex is on its chain. -/
theorem Top.eq_of_chain {u t : Nat} (h : Top g t) (hc : Chain g u t) : u = t := by
  rcases ReflTransGen.cases_tail hc with e | ⟨p, -, hp⟩
  · exact e.symm
  · exact absurd (h p hp.edge) hp.not_branching

/-- **A chain has one top.** -/
theorem Top.unique (h : IsTree g) {t t' x : Nat} (ht : Top g t) (ht' : Top g t')
    (hc : Chain g t x) (hc' : Chain g t' x) : t = t' := by
  have huniq : Relator.RightUnique (Function.swap (OnlyChild g)) := by
    intro a b b' hb hb'
    exact h.parent b b' a (OnlyChild.edge hb) (OnlyChild.edge hb')
  rcases ReflTransGen.total_of_right_unique huniq (reflTransGen_swap.2 hc)
    (reflTransGen_swap.2 hc') with hu | hu
  · exact (ht.eq_of_chain (reflTransGen_swap.1 hu)).symm
  · exact ht'.eq_of_chain (reflTransGen_swap.1 hu)

/-- An ancestor of a vertex on a chain is above the chain, or has an only child. -/
theorem Chain.above (h : IsTree g) {t x a : Nat} (hc : Chain g t x)
    (ha : Above g a x) (hone : ¬ ∃ c, OnlyChild g a c) : Above g a t := by
  induction hc with
  | refl => exact ha
  | tail _ he ih =>
    rcases (above_child h he.edge).1 ha with rfl | ha
    · exact absurd ⟨_, he⟩ hone
    · exact ih ha

/-! ## 3. The vertex that stands for a chain -/

/-- **`x` stands for the chain that starts at `v`.** -/
def Stands (g : AdjList π) (v x : Nat) : Prop :=
  LeafBranch g v ∧ x = v ∨ Chain g v x ∧ Branching g x

section Stands

variable {g : AdjList π} {v x : Nat}

theorem Stands.chain (h : Stands g v x) : Chain g v x := by
  rcases h with ⟨-, rfl⟩ | ⟨hc, -⟩
  · exact .refl
  · exact hc

theorem Stands.leafBranch_or (h : Stands g v x) : LeafBranch g x ∨ Branching g x := by
  rcases h with ⟨hl, rfl⟩ | ⟨-, hb⟩
  · exact .inl hl
  · exact .inr hb

/-- Where the chain ends in a leaf, its first vertex stands for it. -/
theorem Stands.eq_of_leafBranch (h : Stands g v x) (hl : LeafBranch g x) : x = v := by
  rcases h with ⟨-, e⟩ | ⟨-, hb⟩
  · exact e
  · exact absurd hl hb.not_leafBranch

/-- What is above the vertex that stands for a chain and stands for a chain itself is above the
    whole chain. -/
theorem Stands.above (ht : IsTree g) {a : Nat} (h : Stands g v x)
    (hk : LeafBranch g a ∨ Branching g a) (ha : Above g a x) : Above g a v := by
  rcases hk with hl | hb
  · rw [← h.eq_of_leafBranch (hl.below ha)]
    exact ha
  · exact h.chain.above ht ha fun ⟨c, hc⟩ => hc.not_branching hb

end Stands

/-! ## 4. Contractions -/

/-- Vertex `v` of `c` is a copy of `src v`, and its children stand, in order, for the chains
    below. -/
structure Copies (g c : AdjList π) (src : Nat → Nat) (v : Nat) : Prop where
  prop : prop? c v = prop? g (src v)
  ended : LeafBranch g (src v) → outEdges c v = []
  degree : ¬ LeafBranch g (src v) → (outEdges c v).length = (outEdges g (src v)).length
  children : ∀ p ∈ (outEdges c v).zip (outEdges g (src v)), Stands g p.2 (src p.1)

/-- **The vertices of `c` stand for the chains of `g`.** -/
structure Contracts (g c : AdjList π) (src : Nat → Nat) : Prop where
  tree : IsTree c
  nonempty : 0 < c.length
  start : Stands g 0 (src 0)
  copies : ∀ v < c.length, Copies g c src v

theorem exists_mem_zip {α β : Type} {a : α} : ∀ {xs : List α} {ys : List β}, a ∈ xs →
    xs.length = ys.length → ∃ b, (a, b) ∈ xs.zip ys
  | x :: xs, [], _, hl => absurd hl (by simp)
  | x :: xs, y :: ys, ha, hl => by
    rcases mem_cons.1 ha with rfl | ha
    · exact ⟨y, .head _⟩
    · obtain ⟨b, hb⟩ := exists_mem_zip ha (Nat.succ.inj hl)
      exact ⟨b, mem_cons_of_mem _ hb⟩

theorem exists_mem_zip_right {α β : Type} {b : β} {xs : List α} {ys : List β} (hb : b ∈ ys)
    (hl : xs.length = ys.length) : ∃ a, (a, b) ∈ xs.zip ys := by
  obtain ⟨a, ha⟩ := exists_mem_zip hb hl.symm
  refine ⟨a, ?_⟩
  rw [← zip_swap, mem_map]
  exact ⟨(b, a), ha, rfl⟩

/-- In a list without duplicates, a partner has one position. -/
theorem eq_of_mem_zip {α β : Type} {a a' : α} {b : β} : ∀ {xs : List α} {ys : List β},
    ys.Nodup → (a, b) ∈ xs.zip ys → (a', b) ∈ xs.zip ys → a = a'
  | [], _, _, h, _ => by
    rw [zip_nil_left] at h
    cases h
  | _ :: _, [], _, h, _ => by
    rw [zip_nil_right] at h
    cases h
  | x :: xs, y :: ys, hn, h, h' => by
    obtain ⟨hy, hn⟩ := nodup_cons.1 hn
    rw [zip_cons_cons, mem_cons] at h h'
    rcases h with h | h
    · rcases h' with h' | h'
      · exact (Prod.mk.inj h).1.trans (Prod.mk.inj h').1.symm
      · rw [(Prod.mk.inj h).2] at h'
        exact absurd (of_mem_zip h').2 hy
    · rcases h' with h' | h'
      · rw [(Prod.mk.inj h').2] at h
        exact absurd (of_mem_zip h).2 hy
      · exact eq_of_mem_zip hn h h'

namespace Contracts

variable {g c : AdjList π} {src : Nat → Nat} (h : Contracts g c src) (hg : IsTree g)
include h

/-- A vertex with a child does not stand for a chain that ends in a leaf. -/
theorem not_leafBranch {u v : Nat} (hv : v ∈ outEdges c u) : ¬ LeafBranch g (src u) := by
  intro hl
  rw [(h.copies u (lt_of_mem_outEdges hv)).ended hl] at hv
  cases hv

/-- The chain that a child stands for. -/
theorem exists_slot {u v : Nat} (hv : v ∈ outEdges c u) :
    ∃ t, (v, t) ∈ (outEdges c u).zip (outEdges g (src u)) ∧ t ∈ outEdges g (src u) ∧
      Stands g t (src v) := by
  have hu := lt_of_mem_outEdges hv
  obtain ⟨t, ht⟩ := exists_mem_zip hv ((h.copies u hu).degree (h.not_leafBranch hv))
  exact ⟨t, ht, (of_mem_zip ht).2, (h.copies u hu).children _ ht⟩

/-- A vertex stands for a chain that ends in a leaf or in a branching vertex. -/
theorem leafBranch_or {v : Nat} (hv : v < c.length) :
    LeafBranch g (src v) ∨ Branching g (src v) := by
  rcases Nat.eq_zero_or_pos v with rfl | hpos
  · exact h.start.leafBranch_or
  · obtain ⟨u, hu⟩ := h.tree.reached v hpos hv
    obtain ⟨t, -, -, hs⟩ := h.exists_slot hu
    exact hs.leafBranch_or

theorem branching_of_child {u v : Nat} (hv : v ∈ outEdges c u) : Branching g (src u) :=
  (h.leafBranch_or (lt_of_mem_outEdges hv)).resolve_left (h.not_leafBranch hv)

/-- A vertex without children stands for a chain that ends in a leaf. -/
theorem leafBranch_iff {v : Nat} (hv : v < c.length) :
    LeafBranch g (src v) ↔ outEdges c v = [] := by
  refine ⟨(h.copies v hv).ended, fun he => ?_⟩
  refine (h.leafBranch_or hv).resolve_right fun hb => ?_
  have hd := (h.copies v hv).degree hb.not_leafBranch
  rw [he] at hd
  rw [Branching, ← hd] at hb
  exact absurd hb (by decide)

/-- **No vertex has an only child.** -/
theorem length_ne_one {v : Nat} (hv : v < c.length) : (outEdges c v).length ≠ 1 := by
  rcases h.leafBranch_or hv with hl | hb
  · rw [(h.copies v hv).ended hl]
    exact Nat.zero_ne_one
  · rw [(h.copies v hv).degree hb.not_leafBranch]
    exact Nat.ne_of_gt hb

include hg

/-- The top of the chain that a vertex stands for. -/
theorem exists_top {v : Nat} (hv : v < c.length) : ∃ t, Top g t ∧ Stands g t (src v) ∧
    (v = 0 ∧ t = 0 ∨ ∃ u, (v, t) ∈ (outEdges c u).zip (outEdges g (src u))) := by
  rcases Nat.eq_zero_or_pos v with rfl | hpos
  · exact ⟨0, top_zero hg, h.start, .inl ⟨rfl, rfl⟩⟩
  · obtain ⟨u, hu⟩ := h.tree.reached v hpos hv
    obtain ⟨t, hz, ht, hs⟩ := h.exists_slot hu
    exact ⟨t, top_child hg ht (h.branching_of_child hu), hs, .inr ⟨u, hz⟩⟩

/-- **Two vertices do not stand for one chain.** -/
theorem source_inj : ∀ {v w : Nat}, v < c.length → w < c.length → src v = src w → v = w := by
  intro v
  induction v using Nat.strongRecOn with
  | ind v ih =>
    intro w hv hw e
    obtain ⟨t, ht, hs, hcase⟩ := h.exists_top hg hv
    obtain ⟨t', ht', hs', hcase'⟩ := h.exists_top hg hw
    have htt : t = t' := ht.unique hg ht' hs.chain (by rw [e]; exact hs'.chain)
    subst htt
    have hroot : ∀ {x y : Nat}, (x, t) ∈ (outEdges c y).zip (outEdges g (src y)) → t ≠ 0 := by
      intro x y hz e0
      have := (hg.forward _ t (of_mem_zip hz).2).1
      omega
    rcases hcase with ⟨rfl, e0⟩ | ⟨u, hz⟩
    · rcases hcase' with ⟨rfl, -⟩ | ⟨u', hz'⟩
      · rfl
      · exact absurd e0 (hroot hz')
    · rcases hcase' with ⟨-, e0⟩ | ⟨u', hz'⟩
      · exact absurd e0 (hroot hz)
      · -- both hang below the one parent of `t`
        have hsrc : src u = src u' :=
          hg.parent _ _ t (of_mem_zip hz).2 (of_mem_zip hz').2
        have hu := h.tree.forward u v (of_mem_zip hz).1
        have huu : u = u' := ih u hu.1 (lt_of_mem_outEdges (of_mem_zip hz).1)
          (lt_of_mem_outEdges (of_mem_zip hz').1) hsrc
        subst huu
        exact eq_of_mem_zip (hg.outNodup _) hz hz'

/-- Every chain has its vertex. -/
theorem covers : ∀ {x : Nat}, x < g.length →
    (LeafBranch g x → ∃ v < c.length, LeafBranch g (src v) ∧ Chain g (src v) x) ∧
      (¬ LeafBranch g x → ∃ v < c.length, Chain g x (src v) ∧ Branching g (src v)) := by
  -- the vertex that stands for the chain that starts at `x`
  have hof : ∀ {x v : Nat}, v < c.length → Stands g x (src v) →
      (LeafBranch g x → ∃ v < c.length, LeafBranch g (src v) ∧ Chain g (src v) x) ∧
        (¬ LeafBranch g x → ∃ v < c.length, Chain g x (src v) ∧ Branching g (src v)) := by
    intro x v hv hs
    rcases hs with ⟨hl, e⟩ | hb
    · refine ⟨fun _ => ⟨v, hv, by rw [e]; exact hl, by rw [e]; exact .refl⟩, fun hn => ?_⟩
      exact absurd hl hn
    · refine ⟨fun hl => ?_, fun _ => ⟨v, hv, hb⟩⟩
      exact absurd (hb.1.leafBranch_iff.1 hl) hb.2.not_leafBranch
  intro x
  induction x using Nat.strongRecOn with
  | ind x ih =>
    intro hx
    rcases Nat.eq_zero_or_pos x with rfl | hpos
    · exact hof h.nonempty h.start
    · obtain ⟨y, hy⟩ := hg.reached x hpos hx
      obtain ⟨hleaf, hinner⟩ := ih y (hg.forward y x hy).1 (lt_of_mem_outEdges hy)
      rcases children_cases g y with he | ⟨x', hx'⟩ | hb
      · rw [he] at hy
        cases hy
      · -- on the chain of its parent
        rw [hx', mem_singleton] at hy
        subst hy
        refine ⟨fun hl => ?_, fun hn => ?_⟩
        · obtain ⟨v, hv, hlv, hc⟩ := hleaf (hx'.leafBranch_iff.2 hl)
          exact ⟨v, hv, hlv, hc.tail hx'⟩
        · obtain ⟨v, hv, hc, hb⟩ := hinner (fun hl => hn (hx'.leafBranch_iff.1 hl))
          rcases ReflTransGen.cases_head hc with e | ⟨z, hz, hc⟩
          · rw [← e] at hb
            exact absurd hb hx'.not_branching
          · rw [OnlyChild, hx'] at hz
            rw [← (List.cons.inj hz).1] at hc
            exact ⟨v, hv, hc, hb⟩
      · -- below a branching vertex, which stands for its own chain
        obtain ⟨v, hv, hc, -⟩ := hinner hb.not_leafBranch
        have hvy : src v = y := by
          rcases ReflTransGen.cases_head hc with e | ⟨z, hz, -⟩
          · exact e.symm
          · exact absurd hb hz.not_branching
        have hlen := (h.copies v hv).degree (by rw [hvy]; exact hb.not_leafBranch)
        obtain ⟨w, hw⟩ := exists_mem_zip_right (by rw [hvy]; exact hy) hlen
        exact hof (h.tree.forward v w (of_mem_zip hw).1).2 ((h.copies v hv).children _ hw)

/-- **A branching vertex has exactly one copy.** -/
theorem covers_branching {x : Nat} (hb : Branching g x) :
    ∃ v < c.length, src v = x ∧ ∀ w < c.length, src w = x → w = v := by
  have hx : x < g.length := by
    refine Nat.lt_of_not_le fun hx => ?_
    rw [Branching, outEdges, getElem?_eq_none hx, Option.map_none, Option.getD_none,
      length_nil] at hb
    exact absurd hb (by decide)
  obtain ⟨v, hv, hc, -⟩ := (h.covers hg hx).2 hb.not_leafBranch
  have hvx : src v = x := by
    rcases ReflTransGen.cases_head hc with e | ⟨z, hz, -⟩
    · exact e.symm
    · exact absurd hb hz.not_branching
  exact ⟨v, hv, hvx, fun w hw e => h.source_inj hg hw hv (e.trans hvx.symm)⟩

/-- **A leaf has exactly one leaf on the chain that ends in it.** -/
theorem covers_leaf {l : Nat} (hl : l < g.length) (he : outEdges g l = []) :
    ∃ v < c.length, outEdges c v = [] ∧ Chain g (src v) l ∧
      ∀ w < c.length, outEdges c w = [] → Chain g (src w) l → w = v := by
  obtain ⟨v, hv, hlv, hc⟩ := (h.covers hg hl).1 ⟨l, .refl, he⟩
  refine ⟨v, hv, (h.copies v hv).ended hlv, hc, fun w hw hwe hwc => ?_⟩
  -- both stand at the top of the chain
  have htop : ∀ {x : Nat}, x < c.length → LeafBranch g (src x) → Top g (src x) := by
    intro x hx hlx
    obtain ⟨t, ht, hs, -⟩ := h.exists_top hg hx
    rw [hs.eq_of_leafBranch hlx]
    exact ht
  have hlw := (h.leafBranch_iff hw).2 hwe
  exact h.source_inj hg hw hv ((htop hw hlw).unique hg (htop hv hlv) hwc hc)

/-- **A vertex is an ancestor of another exactly if what they stand for is.** -/
theorem above_iff {v w : Nat} (hv : v < c.length) (hw : w < c.length) :
    Above c v w ↔ Above g (src v) (src w) := by
  constructor
  · intro ha
    refine TransGen.lift' src (fun a b hab => ?_) v w ha
    obtain ⟨t, -, ht, hs⟩ := h.exists_slot hab
    exact TransGen.head' ht hs.chain.edges
  · induction w using Nat.strongRecOn with
    | ind w ih =>
      intro ha
      obtain ⟨t, -, hs, hcase⟩ := h.exists_top hg hw
      have hat := hs.above hg (h.leafBranch_or hv) ha
      rcases hcase with ⟨-, rfl⟩ | ⟨u, hz⟩
      · exact absurd hat (not_above_zero hg)
      · obtain ⟨hwu, htu⟩ := of_mem_zip hz
        have hu := lt_of_mem_outEdges hwu
        rcases (above_child hg htu).1 hat with e | hau
        · rw [h.source_inj hg hv hu e]
          exact .single hwu
        · exact TransGen.tail (ih u (h.tree.forward u w hwu).1 hu hau) hwu

end Contracts

/-! ## 5. Building a contraction -/

/-- From `c` to `c'`, vertices that stand for the chains `ts` and for what is below them came to
    hang below `p`. -/
structure Hangs (g c c' : AdjList π) (src src' : Nat → Nat) (p : Nat) (ts : List Nat) : Prop where
  tree : IsTree c'
  longer : c.length ≤ c'.length
  same : ∀ v < c.length, src' v = src v
  props : ∀ v < c.length, prop? c' v = prop? c v
  edges : ∀ v < c.length, v ≠ p → outEdges c' v = outEdges c v
  below : ∃ vs, outEdges c' p = outEdges c p ++ vs ∧ vs.length = ts.length ∧
    ∀ q ∈ vs.zip ts, Stands g q.2 (src' q.1)
  copies : ∀ v, c.length ≤ v → v < c'.length → Copies g c' src' v

section Hangs

variable {g c c' c'' : AdjList π} {src src' src'' : Nat → Nat} {p : Nat} {ts ts' : List Nat}

theorem hangs_nil (hc : IsTree c) : Hangs g c c src src p [] where
  tree := hc
  longer := le_rfl
  same _ _ := rfl
  props _ _ := rfl
  edges _ _ _ := rfl
  below := ⟨[], (append_nil _).symm, rfl, forall_mem_nil _⟩
  copies _ hv hv' := absurd hv' (Nat.not_lt.2 hv)

/-- A copy stays one while nothing comes to hang below it. -/
theorem Hangs.copies_of {v : Nat} (h : Hangs g c c' src src' p ts) (hc : IsTree c)
    (hv : v < c.length) (hvp : v ≠ p) (hcopy : Copies g c src v) : Copies g c' src' v where
  prop := by
    rw [h.props v hv, h.same v hv]
    exact hcopy.prop
  ended := by
    rw [h.edges v hv hvp, h.same v hv]
    exact hcopy.ended
  degree := by
    rw [h.edges v hv hvp, h.same v hv]
    exact hcopy.degree
  children q hq := by
    rw [h.edges v hv hvp, h.same v hv] at hq
    rw [h.same q.1 (hc.forward v q.1 (of_mem_zip hq).1).2]
    exact hcopy.children q hq

/-- **One after the other.** -/
theorem Hangs.trans (hp : p < c.length) (h : Hangs g c c' src src' p ts)
    (h' : Hangs g c' c'' src' src'' p ts') : Hangs g c c'' src src'' p (ts ++ ts') where
  tree := h'.tree
  longer := Nat.le_trans h.longer h'.longer
  same v hv := (h'.same v (Nat.lt_of_lt_of_le hv h.longer)).trans (h.same v hv)
  props v hv := (h'.props v (Nat.lt_of_lt_of_le hv h.longer)).trans (h.props v hv)
  edges v hv hvp := (h'.edges v (Nat.lt_of_lt_of_le hv h.longer) hvp).trans (h.edges v hv hvp)
  below := by
    obtain ⟨vs, he, hl, hs⟩ := h.below
    obtain ⟨vs', he', hl', hs'⟩ := h'.below
    refine ⟨vs ++ vs', by rw [he', he, append_assoc], ?_, fun q hq => ?_⟩
    · rw [length_append, length_append, hl, hl']
    · rw [zip_append hl] at hq
      rcases mem_append.1 hq with hq | hq
      · have hmem : q.1 ∈ outEdges c' p := by
          rw [he]
          exact mem_append_right _ (of_mem_zip hq).1
        rw [h'.same q.1 (h.tree.forward p q.1 hmem).2]
        exact hs q hq
      · exact hs' q hq
  copies v hv hv' := by
    rcases Nat.lt_or_ge v c'.length with hlt | hge
    · exact h'.copies_of h.tree hlt (by omega) (h.copies v hv hlt)
    · exact h'.copies v hge hv'

/-- A new vertex is a leaf. -/
theorem outEdges_addChild_new {d : Nat} (hd : d < c.length) (x : π) :
    outEdges (addChild c d x) c.length = [] := by
  rw [outEdges_addChild hd, if_neg (by omega), outEdges, getElem?_eq_none le_rfl]
  rfl

/-- **A vertex for a chain that ends in a leaf.** -/
theorem hangs_leaf (hc : IsTree c) (hp : p < c.length) {t : Nat} {x : π} (hx : prop? g t = some x)
    (hl : LeafBranch g t) :
    Hangs g c (addChild c p x) src (update src c.length t) p [t] where
  tree := isTree_addChild hc hp x
  longer := by rw [length_addChild]; exact Nat.le_succ _
  same v hv := update_of_ne (Nat.ne_of_lt hv) t src
  props v hv := by rw [prop?_addChild, if_neg (Nat.ne_of_lt hv)]
  edges v _ hvp := by rw [outEdges_addChild hp, if_neg hvp]
  below := by
    refine ⟨[c.length], by rw [outEdges_addChild hp, if_pos rfl], rfl, fun q hq => ?_⟩
    rw [mem_singleton.1 hq, update_self]
    exact .inl ⟨hl, rfl⟩
  copies v hv hv' := by
    rw [length_addChild] at hv'
    obtain rfl : v = c.length := by omega
    have hout := outEdges_addChild_new hp x
    refine ⟨?_, fun _ => hout, fun hn => ?_, fun q hq => ?_⟩
    · rw [prop?_addChild, if_pos rfl, update_self, hx]
    · rw [update_self] at hn
      exact absurd hl hn
    · rw [hout, zip_nil_left] at hq
      cases hq

/-- **A vertex for a chain that ends in a branching vertex**, once the chains below it are done. -/
theorem hangs_branching (hp : p < c.length) {t y : Nat} {x : π}
    (hx : prop? g y = some x) (hs : Chain g t y) (hb : Branching g y)
    (h : Hangs g (addChild c p x) c' (update src c.length y) src' c.length
      (outEdges g y)) : Hangs g c c' src src' p [t] := by
  have hlen := length_addChild c p x
  have hnew : src' c.length = y := by
    rw [h.same c.length (by omega), update_self]
  refine ⟨h.tree, by have := h.longer; omega, fun v hv => ?_, fun v hv => ?_, fun v hv hvp => ?_,
    ⟨[c.length], ?_, rfl, fun q hq => ?_⟩, fun v hv hv' => ?_⟩
  · rw [h.same v (by omega), update_of_ne (Nat.ne_of_lt hv)]
  · rw [h.props v (by omega), prop?_addChild, if_neg (Nat.ne_of_lt hv)]
  · rw [h.edges v (by omega) (Nat.ne_of_lt hv), outEdges_addChild hp, if_neg hvp]
  · rw [h.edges p (by omega) (Nat.ne_of_lt hp), outEdges_addChild hp, if_pos rfl]
  · rw [mem_singleton.1 hq, hnew]
    exact .inr ⟨hs, hb⟩
  · rcases Nat.eq_or_lt_of_le hv with rfl | hlt
    · obtain ⟨vs, he, hl, hst⟩ := h.below
      rw [outEdges_addChild_new hp, nil_append] at he
      refine ⟨?_, fun hn => ?_, fun _ => ?_, fun q hq => ?_⟩
      · rw [h.props _ (by omega), prop?_addChild, if_pos rfl, hnew, hx]
      · rw [hnew] at hn
        exact absurd hn hb.not_leafBranch
      · rw [he, hl, hnew]
      · rw [he, hnew] at hq
        exact hst q hq
    · exact h.copies v (by omega) hv'

end Hangs

end Crete.Lib.AdjList
