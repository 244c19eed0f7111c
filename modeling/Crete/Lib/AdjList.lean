/-
  File:      Crete/Lib/AdjList.lean
  Subject:   Directed graphs kept as adjacency lists, and the tries among them.

  A vertex is a number, with a property and the list of its targets. `key` reads a label off a
  property.

  * `IsTrie` -- edges go up, a vertex has one parent and siblings have different labels; then
    a vertex is reached from 0 by exactly one sequence (`IsTrie.exists_walk`, `IsTrie.walk_inj`).
  * `addChild` -- a new vertex below an old one; **`walk_addChild`** says what it changes.
-/
import Mathlib.Data.List.Chain
import Mathlib.Data.List.Nodup

namespace Crete.Lib

open Option List

/-- A vertex: its property, and the targets of its out-edges. -/
structure Node (π : Type) where
  prop : π
  out : List Nat
  deriving DecidableEq, Repr

/-- A directed graph. -/
abbrev AdjList (π : Type) := List (Node π)

namespace AdjList

variable {π α : Type}

/-! ## 1. Operations -/

def outEdges (g : AdjList π) (v : Nat) : List Nat := (g[v]?.map Node.out).getD []

def prop? (g : AdjList π) (v : Nat) : Option π := g[v]?.map Node.prop

def addVertex (g : AdjList π) (p : π) : AdjList π := g ++ [⟨p, []⟩]

def addEdge (g : AdjList π) (u v : Nat) : AdjList π :=
  g.modify u fun n => { n with out := n.out ++ [v] }

/-- Change the property of a vertex. -/
def setProp (g : AdjList π) (v : Nat) (f : π → π) : AdjList π :=
  g.modify v fun n => { n with prop := f n.prop }

/-- A new vertex below `d`. -/
def addChild (g : AdjList π) (d : Nat) (p : π) : AdjList π := addEdge (addVertex g p) d g.length

theorem getElem?_modify_eq (g : AdjList π) (v w : Nat) (f : Node π → Node π) :
    (g.modify v f)[w]? = if v = w then g[w]?.map f else g[w]? := by
  rw [getElem?_modify]
  by_cases h : v = w
  · simp only [h, if_true]
    rfl
  · simp only [h, if_false]
    cases g[w]? <;> rfl

@[simp] theorem length_setProp (g : AdjList π) (v : Nat) (f : π → π) :
    (setProp g v f).length = g.length :=
  length_modify ..

@[simp] theorem outEdges_setProp (g : AdjList π) (v : Nat) (f : π → π) (w : Nat) :
    outEdges (setProp g v f) w = outEdges g w := by
  unfold outEdges setProp
  rw [getElem?_modify_eq]
  split
  · rw [Option.map_map]
    rfl
  · rfl

theorem prop?_setProp (g : AdjList π) (v : Nat) (f : π → π) (w : Nat) :
    prop? (setProp g v f) w = if v = w then (prop? g w).map f else prop? g w := by
  unfold prop? setProp
  rw [getElem?_modify_eq]
  split
  · rw [Option.map_map, Option.map_map]
    rfl
  · rfl

@[simp] theorem length_addChild (g : AdjList π) (d : Nat) (p : π) :
    (addChild g d p).length = g.length + 1 := by
  rw [addChild, addEdge, length_modify, addVertex, length_append]
  rfl

/-- The vertices after `addVertex`. -/
theorem getElem?_addVertex (g : AdjList π) (p : π) (w : Nat) :
    (addVertex g p)[w]? = if w = g.length then some ⟨p, []⟩ else g[w]? := by
  unfold addVertex
  rcases Nat.lt_trichotomy w g.length with h | h | h
  · rw [if_neg (Nat.ne_of_lt h), getElem?_append_left h]
  · subst h
    rw [if_pos rfl, getElem?_append_right le_rfl, Nat.sub_self]
    rfl
  · rw [if_neg (Nat.ne_of_gt h), getElem?_eq_none (l := g) (Nat.le_of_lt h), getElem?_eq_none]
    rw [length_append, length_singleton]
    omega

theorem outEdges_addChild {g : AdjList π} {d : Nat} (hd : d < g.length) (p : π) (w : Nat) :
    outEdges (addChild g d p) w = if w = d then outEdges g d ++ [g.length] else outEdges g w := by
  unfold outEdges addChild addEdge
  rw [getElem?_modify_eq, getElem?_addVertex]
  by_cases hw : w = d
  · subst hw
    rw [if_pos rfl, if_pos rfl, if_neg (Nat.ne_of_lt hd), getElem?_eq_getElem hd]
    rfl
  · rw [if_neg (fun e => hw e.symm), if_neg hw]
    split
    · rw [getElem?_eq_none (by omega)]
      rfl
    · rfl

theorem prop?_addChild (g : AdjList π) (d : Nat) (p : π) (w : Nat) :
    prop? (addChild g d p) w = if w = g.length then some p else prop? g w := by
  unfold prop? addChild addEdge
  rw [getElem?_modify_eq, getElem?_addVertex]
  by_cases hd : d = w
  · rw [if_pos hd, Option.map_map]
    split <;> rfl
  · rw [if_neg hd]
    split <;> rfl

theorem lt_of_mem_outEdges {g : AdjList π} {v c : Nat} (h : c ∈ outEdges g v) : v < g.length := by
  refine Nat.lt_of_not_le fun hv => ?_
  rw [outEdges, getElem?_eq_none hv] at h
  cases h

/-! ## 2. Tries -/

section Trie

variable (key : π → α)

/-- The label of a vertex. -/
def keyAt (g : AdjList π) (v : Nat) : Option α := (prop? g v).map key

/-- **A tree rooted at vertex 0**; a vertex has a greater number than its parent. -/
structure IsTree (g : AdjList π) : Prop where
  forward : ∀ v c, c ∈ outEdges g v → v < c ∧ c < g.length
  parent : ∀ u v c, c ∈ outEdges g u → c ∈ outEdges g v → u = v
  outNodup : ∀ v, (outEdges g v).Nodup
  reached : ∀ c, 0 < c → c < g.length → ∃ u, c ∈ outEdges g u

/-- **A trie rooted at vertex 0.** -/
structure IsTrie (g : AdjList π) : Prop extends IsTree g where
  siblings : ∀ v c c', c ∈ outEdges g v → c' ∈ outEdges g v →
    keyAt key g c = keyAt key g c' → c = c'

variable {key}

theorem keyAt_isSome (key : π → α) {g : AdjList π} {v : Nat} (h : v < g.length) :
    ∃ a, keyAt key g v = some a := by
  refine ⟨key (g.get ⟨v, h⟩).prop, ?_⟩
  rw [keyAt, prop?, getElem?_eq_getElem h]
  rfl

/-- Being a trie depends on the edges and the labels only. -/
theorem IsTrie.congr {g g' : AdjList π} (h : IsTrie key g) (hl : g'.length = g.length)
    (ho : ∀ v, outEdges g' v = outEdges g v) (hk : ∀ v, keyAt key g' v = keyAt key g v) :
    IsTrie key g' where
  forward v c := by rw [ho, hl]; exact h.forward v c
  parent u v c := by rw [ho, ho]; exact h.parent u v c
  siblings v c c' := by rw [ho, hk, hk]; exact h.siblings v c c'
  outNodup v := by rw [ho]; exact h.outNodup v
  reached c hc := by
    rw [hl]
    intro hlt
    obtain ⟨u, hu⟩ := h.reached c hc hlt
    exact ⟨u, by rw [ho]; exact hu⟩

theorem isTree_single (p : π) : IsTree [⟨p, []⟩] := by
  have hout : ∀ v, outEdges [(⟨p, []⟩ : Node π)] v = [] := by
    intro v
    cases v <;> rfl
  refine ⟨fun v c hc => ?_, fun u v c hc => ?_, fun v => ?_, fun c h0 hc => ?_⟩
  · rw [hout] at hc
    cases hc
  · rw [hout] at hc
    cases hc
  · rw [hout]
    exact nodup_nil
  · rw [length_singleton] at hc
    omega

theorem isTrie_single (p : π) : IsTrie key [⟨p, []⟩] where
  toIsTree := isTree_single p
  siblings v c c' hc hc' _ := by
    have h := (isTree_single p).forward v c hc
    have h' := (isTree_single p).forward v c' hc'
    rw [length_singleton] at h h'
    omega

theorem mem_outEdges_addChild {g : AdjList π} {d : Nat} (hd : d < g.length) (p : π) {v c : Nat} :
    c ∈ outEdges (addChild g d p) v ↔ c ∈ outEdges g v ∨ v = d ∧ c = g.length := by
  rw [outEdges_addChild hd]
  by_cases hv : v = d
  · subst hv
    rw [if_pos rfl, mem_append, mem_singleton]
    exact or_congr_right ⟨fun e => ⟨rfl, e⟩, fun e => e.2⟩
  · rw [if_neg hv]
    exact ⟨.inl, fun e => e.elim id fun e => absurd e.1 hv⟩

theorem keyAt_addChild (key : π → α) (g : AdjList π) (d : Nat) (p : π) (w : Nat) :
    keyAt key (addChild g d p) w = if w = g.length then some (key p) else keyAt key g w := by
  rw [keyAt, prop?_addChild]
  split <;> rfl

/-- A new vertex below an old one keeps the tree. -/
theorem isTree_addChild {g : AdjList π} (h : IsTree g) {d : Nat} (hd : d < g.length) (p : π) :
    IsTree (addChild g d p) := by
  have hmem := fun {v c : Nat} => mem_outEdges_addChild hd p (v := v) (c := c)
  have hold : ∀ {v c : Nat}, c ∈ outEdges g v → c ≠ g.length := by
    intro v c hc e
    have := (h.forward v c hc).2
    omega
  refine ⟨fun v c hc => ?_, fun u v c hu hv => ?_, fun v => ?_, fun c h0 hc => ?_⟩
  · rw [length_addChild]
    rcases hmem.1 hc with hc | ⟨rfl, rfl⟩
    · have := h.forward v c hc
      omega
    · exact ⟨hd, Nat.lt_succ_self _⟩
  · rcases hmem.1 hu with hu | ⟨rfl, rfl⟩
    · rcases hmem.1 hv with hv | ⟨_, rfl⟩
      · exact h.parent u v c hu hv
      · exact absurd rfl (hold hu)
    · rcases hmem.1 hv with hv | ⟨rfl, _⟩
      · exact absurd rfl (hold hv)
      · rfl
  · rw [outEdges_addChild hd]
    split
    · refine nodup_append.2 ⟨h.outNodup d, nodup_singleton _, fun a ha b hb => ?_⟩
      rw [mem_singleton.1 hb]
      exact hold ha
    · exact h.outNodup v
  · rw [length_addChild] at hc
    rcases Nat.lt_or_ge c g.length with hlt | hge
    · obtain ⟨u, hu⟩ := h.reached c h0 hlt
      exact ⟨u, hmem.2 (.inl hu)⟩
    · exact ⟨d, hmem.2 (.inr ⟨rfl, by omega⟩)⟩

/-- **A child with a label that its siblings do not have** keeps the trie. -/
theorem isTrie_addChild {g : AdjList π} (h : IsTrie key g) {d : Nat} (hd : d < g.length) (p : π)
    (hfresh : ∀ c ∈ outEdges g d, keyAt key g c ≠ some (key p)) : IsTrie key (addChild g d p) := by
  refine { isTree_addChild h.toIsTree hd p with siblings := fun v c c' hc hc' e => ?_ }
  have hold : ∀ c ∈ outEdges g v, keyAt key (addChild g d p) c = keyAt key g c := fun c hc =>
    (keyAt_addChild key g d p c).trans (if_neg (Nat.ne_of_lt (h.forward v c hc).2))
  have hnew : keyAt key (addChild g d p) g.length = some (key p) :=
    (keyAt_addChild key g d p _).trans (if_pos rfl)
  rcases (mem_outEdges_addChild hd p).1 hc with ho | ⟨rfl, rfl⟩
  · rcases (mem_outEdges_addChild hd p).1 hc' with ho' | ⟨rfl, rfl⟩
    · rw [hold c ho, hold c' ho'] at e
      exact h.siblings v c c' ho ho' e
    · rw [hold c ho, hnew] at e
      exact absurd e (hfresh c ho)
  · rcases (mem_outEdges_addChild hd p).1 hc' with ho' | ⟨_, rfl⟩
    · rw [hnew, hold c' ho'] at e
      exact absurd e.symm (hfresh c' ho')
    · rfl

end Trie

/-! ## 3. Walks -/

section Walk

variable [DecidableEq α] (key : π → α)

variable {g : AdjList π}

/-- The first target with a label. -/
def child (g : AdjList π) (v : Nat) (a : α) : Option Nat :=
  (outEdges g v).find? fun c => keyAt key g c = some a

/-- The vertex reached from `v` by a sequence of labels. -/
def walk (g : AdjList π) : Nat → List α → Option Nat
  | v, [] => some v
  | v, a :: p => (child key g v a).bind fun c => walk g c p

theorem walk_append (g : AdjList π) : ∀ (p q : List α) (v : Nat),
    walk key g v (p ++ q) = (walk key g v p).bind fun w => walk key g w q
  | [], _, _ => rfl
  | a :: p, q, v => by
    rw [cons_append, walk, walk, bind_assoc]
    congr 1
    funext c
    exact walk_append g p q c

theorem walk_snoc (g : AdjList π) (p : List α) (a : α) (v : Nat) :
    walk key g v (p ++ [a]) = (walk key g v p).bind fun w => child key g w a := by
  rw [walk_append]
  congr 1
  funext w
  exact bind_fun_some (child key g w a)

/-- The vertices met on a walk, the last one included. -/
def along (g : AdjList π) : Nat → List α → List Nat
  | v, [] => [v]
  | v, a :: p => match child key g v a with
    | none => [v]
    | some c => v :: along g c p

/-- A walk leads from `u` to `v`. -/
def Below (g : AdjList π) (u v : Nat) : Prop := ∃ p, walk key g u p = some v

theorem mem_of_child {v c : Nat} {a : α} (h : child key g v a = some c) :
    c ∈ outEdges g v ∧ keyAt key g c = some a :=
  ⟨mem_of_find?_eq_some h, by simpa using find?_some h⟩

theorem head?_along (g : AdjList π) (v : Nat) (p : List α) : (along key g v p).head? = some v := by
  cases p with
  | nil => rfl
  | cons a p =>
    rw [along]
    split <;> rfl

/-- A completed walk meets its end last. -/
theorem getLast?_along : ∀ (p : List α) {v w : Nat}, walk key g v p = some w →
    (along key g v p).getLast? = some w
  | [], _, _, h => h
  | a :: p, v, w, h => by
    obtain ⟨c, hc, h'⟩ := bind_eq_some_iff.1 h
    rw [along, hc, getLast?_cons, getLast?_along p h']
    rfl

/-- On a walk, each vertex is a child of the one before. -/
theorem along_isChain (g : AdjList π) : ∀ (p : List α) (v : Nat),
    (along key g v p).IsChain fun u w => w ∈ outEdges g u
  | [], v => isChain_singleton v
  | a :: p, v => by
    rw [along]
    cases hc : child key g v a with
    | none => exact isChain_singleton v
    | some c =>
      refine isChain_cons.2 ⟨fun u hu => ?_, along_isChain g p c⟩
      rw [head?_along] at hu
      cases hu
      exact (mem_of_child key hc).1

theorem below_of_mem_along : ∀ (p : List α) (v u : Nat), u ∈ along key g v p → Below key g v u
  | [], v, u, h => by
    rw [along, mem_singleton] at h
    exact ⟨[], by rw [h]; rfl⟩
  | a :: p, v, u, h => by
    rw [along] at h
    cases hc : child key g v a with
    | none =>
      rw [hc, mem_singleton] at h
      exact ⟨[], by rw [h]; rfl⟩
    | some c =>
      rw [hc] at h
      rcases mem_cons.1 h with rfl | h
      · exact ⟨[], rfl⟩
      · obtain ⟨q, hq⟩ := below_of_mem_along p c u h
        exact ⟨a :: q, by rw [walk, hc]; exact hq⟩

/-- On a walk, what comes later is below what comes earlier. -/
theorem along_pairwise : ∀ (p : List α) (v : Nat), (along key g v p).Pairwise (Below key g)
  | [], v => pairwise_singleton _ _
  | a :: p, v => by
    rw [along]
    cases hc : child key g v a with
    | none => exact pairwise_singleton _ _
    | some c =>
      refine pairwise_cons.2 ⟨fun u hu => ?_, along_pairwise p c⟩
      obtain ⟨q, hq⟩ := below_of_mem_along key p c u hu
      exact ⟨a :: q, by rw [walk, hc]; exact hq⟩

/-- Every vertex met on a completed walk has its end below it. -/
theorem below_end : ∀ (p : List α) (v w u : Nat), walk key g v p = some w →
    u ∈ along key g v p → Below key g u w
  | [], v, w, u, hw, hu => by
    rw [along, mem_singleton] at hu
    exact ⟨[], by rw [hu]; exact hw⟩
  | a :: p, v, w, u, hw, hu => by
    obtain ⟨c, hc, hw'⟩ := bind_eq_some_iff.1 hw
    rw [along, hc] at hu
    rcases mem_cons.1 hu with rfl | hu
    · exact ⟨a :: p, hw⟩
    · exact below_end p c w u hw' hu

/-- A vertex reached by an initial part of a walk is met on it. -/
theorem mem_along : ∀ (p q : List α) (v u : Nat), walk key g v p = some u →
    u ∈ along key g v (p ++ q)
  | [], q, v, u, h => by
    cases h
    cases q with
    | nil => exact mem_singleton_self v
    | cons a q =>
      rw [nil_append, along]
      split
      · exact mem_singleton_self v
      · exact (.head _)
  | a :: p, q, v, u, h => by
    obtain ⟨c, hc, h'⟩ := bind_eq_some_iff.1 h
    rw [cons_append, along, hc]
    exact .tail _ (mem_along p q c u h')

theorem child_congr {g g' : AdjList π} (ho : ∀ v, outEdges g' v = outEdges g v)
    (hk : ∀ v, keyAt key g' v = keyAt key g v) (v : Nat) (a : α) :
    child key g' v a = child key g v a := by
  rw [child, child, ho]
  congr 1
  funext c
  rw [hk]

/-- Walks depend on the edges and the labels only. -/
theorem walk_congr {g g' : AdjList π} (ho : ∀ v, outEdges g' v = outEdges g v)
    (hk : ∀ v, keyAt key g' v = keyAt key g v) : ∀ (p : List α) (v : Nat),
    walk key g' v p = walk key g v p
  | [], _ => rfl
  | a :: p, v => by
    rw [walk, walk, child_congr key ho hk]
    congr 1
    funext c
    exact walk_congr ho hk p c

variable {key}

namespace IsTrie

variable {g : AdjList π} (h : IsTrie key g)
include h

theorem child_iff {v c : Nat} {a : α} :
    child key g v a = some c ↔ c ∈ outEdges g v ∧ keyAt key g c = some a := by
  refine ⟨mem_of_child key, fun ⟨hc, hk⟩ => ?_⟩
  cases hf : child key g v a with
  | none =>
    have := find?_eq_none.1 hf c hc
    exact absurd (decide_eq_true hk) this
  | some c' =>
    obtain ⟨hc', hk'⟩ := mem_of_child key hf
    rw [h.siblings v c' c hc' hc (hk'.trans hk.symm)]

/-- Every step of a walk goes up. -/
theorem walk_add_le : ∀ (p : List α) {v w : Nat}, walk key g v p = some w → v + p.length ≤ w
  | [], v, w, hw => by
    cases hw
    exact Nat.le_refl v
  | a :: p, v, w, hw => by
    obtain ⟨c, hc, hw'⟩ := bind_eq_some_iff.1 hw
    have := h.forward v c (mem_of_child key hc).1
    have := walk_add_le p hw'
    rw [length_cons]
    omega

theorem walk_le (p : List α) {v w : Nat} (hw : walk key g v p = some w) : v ≤ w := by
  have := h.walk_add_le p hw
  omega

theorem walk_lt : ∀ (p : List α) {v w : Nat}, v < g.length → walk key g v p = some w → w < g.length
  | [], v, w, hv, hw => by
    cases hw
    exact hv
  | a :: p, v, w, _, hw => by
    obtain ⟨c, hc, hw'⟩ := bind_eq_some_iff.1 hw
    exact walk_lt p (h.forward v c (mem_of_child key hc).1).2 hw'

/-- **A vertex is reached from the root by one sequence only.** -/
theorem walk_inj : ∀ (p q : List α) {w : Nat}, walk key g 0 p = some w → walk key g 0 q = some w →
    p = q := by
  intro p
  induction p using reverseRecOn with
  | nil =>
    intro q w hp hq
    cases hp
    rcases eq_nil_or_concat' q with rfl | ⟨q', a, rfl⟩
    · rfl
    · rw [walk_snoc] at hq
      obtain ⟨u, _, hc⟩ := bind_eq_some_iff.1 hq
      have := h.forward u 0 (mem_of_child key hc).1
      omega
  | append_singleton p a ih =>
    intro q w hp hq
    rw [walk_snoc] at hp
    obtain ⟨u, hu, hc⟩ := bind_eq_some_iff.1 hp
    obtain ⟨hm, hk⟩ := mem_of_child key hc
    rcases eq_nil_or_concat' q with rfl | ⟨q', b, rfl⟩
    · cases hq
      have := h.forward u 0 hm
      omega
    · rw [walk_snoc] at hq
      obtain ⟨u', hu', hc'⟩ := bind_eq_some_iff.1 hq
      obtain ⟨hm', hk'⟩ := mem_of_child key hc'
      have hab : a = b := Option.some.inj (hk.symm.trans hk')
      rw [h.parent u u' w hm hm'] at hu
      rw [ih q' hu hu', hab]

/-- **Every vertex is reached from the root.** -/
theorem exists_walk : ∀ (w : Nat), w < g.length → ∃ p, walk key g 0 p = some w := by
  intro w
  induction w using Nat.strongRecOn with
  | ind w ih =>
    intro hw
    rcases Nat.eq_zero_or_pos w with rfl | hpos
    · exact ⟨[], rfl⟩
    · obtain ⟨u, hu⟩ := h.reached w hpos hw
      have hlt := h.forward u w hu
      obtain ⟨p, hp⟩ := ih u hlt.1 (by omega)
      obtain ⟨a, ha⟩ := keyAt_isSome key hw
      refine ⟨p ++ [a], ?_⟩
      rw [walk_snoc, hp]
      exact h.child_iff.2 ⟨hu, ha⟩

/-- The vertices of a walk go up. -/
theorem along_lt : ∀ (p : List α) (v : Nat), (along key g v p).Pairwise (· < ·)
  | [], v => pairwise_singleton _ _
  | a :: p, v => by
    rw [along]
    cases hc : child key g v a with
    | none => exact pairwise_singleton _ _
    | some c =>
      refine pairwise_cons.2 ⟨fun u hu => ?_, along_lt p c⟩
      obtain ⟨q, hq⟩ := below_of_mem_along key p c u hu
      have := h.walk_le q hq
      have := (h.forward v c (mem_of_child key hc).1).1
      omega

theorem exists_walk_child {v c : Nat} {p : List α} (hp : walk key g 0 p = some v)
    (hc : c ∈ outEdges g v) : ∃ a, walk key g 0 (p ++ [a]) = some c := by
  obtain ⟨a, ha⟩ := keyAt_isSome key (h.forward v c hc).2
  refine ⟨a, ?_⟩
  rw [walk_snoc, hp]
  exact h.child_iff.2 ⟨hc, ha⟩

end IsTrie

/-- **What a new child changes**: one more walk. -/
theorem walk_addChild (h : IsTrie key g) {d : Nat} (hd : d < g.length)
    {x : π} (hfresh : child key g d (key x) = none) {p₀ : List α}
    (hp₀ : walk key g 0 p₀ = some d) : ∀ p : List α,
    walk key (addChild g d x) 0 p =
      if p = p₀ ++ [key x] then some g.length else walk key g 0 p := by
  have hnew : ∀ c ∈ outEdges g d, keyAt key g c ≠ some (key x) := fun c hc e =>
    find?_eq_none.1 hfresh c hc (decide_eq_true e)
  have h' := isTrie_addChild h hd x hnew
  have hnone : walk key g 0 (p₀ ++ [key x]) = none := by
    rw [walk_snoc, hp₀]
    exact hfresh
  intro p
  induction p using reverseRecOn with
  | nil => rw [if_neg (by simp)]; rfl
  | append_singleton p a ih =>
    rw [walk_snoc, ih, walk_snoc]
    by_cases hp : p = p₀ ++ [key x]
    · -- the new vertex has no children, and nothing was there before
      subst hp
      rw [if_pos rfl, if_neg (by simp), hnone]
      show child key (addChild g d x) g.length a = none
      rw [child, outEdges_addChild hd, if_neg (by omega), outEdges, getElem?_eq_none le_rfl]
      rfl
    · rw [if_neg hp]
      cases hw : walk key g 0 p with
      | none =>
        rw [if_neg fun e => ?_]
        · rfl
        · obtain ⟨rfl, -⟩ := append_inj' e rfl
          rw [hp₀] at hw
          cases hw
      | some v =>
        show child key (addChild g d x) v a = if _ then some g.length else child key g v a
        have hv := h.walk_lt p (by omega) hw
        by_cases he : p ++ [a] = p₀ ++ [key x]
        · obtain ⟨rfl, e⟩ := append_inj' he rfl
          rw [if_pos he]
          cases hp₀.symm.trans hw
          refine h'.child_iff.2 ⟨(mem_outEdges_addChild hd x).2 (.inr ⟨rfl, rfl⟩), ?_⟩
          rw [keyAt_addChild, if_pos rfl, List.cons.inj e |>.1]
        · rw [if_neg he]
          refine Option.ext fun c => ?_
          rw [h'.child_iff, h.child_iff, mem_outEdges_addChild hd, keyAt_addChild]
          constructor
          · intro ⟨hc, hk⟩
            rcases hc with hc | ⟨rfl, rfl⟩
            · have := (h.forward v c hc).2
              rw [if_neg (by omega)] at hk
              exact ⟨hc, hk⟩
            · -- then `p` is the way to `d`, and `a` the new label
              rw [if_pos rfl] at hk
              rw [h.walk_inj p p₀ hw hp₀, Option.some.inj hk] at he
              exact absurd rfl he
          · intro ⟨hc, hk⟩
            have := (h.forward v c hc).2
            rw [if_neg (by omega)]
            exact ⟨.inl hc, hk⟩

end Walk

end AdjList

end Crete.Lib
