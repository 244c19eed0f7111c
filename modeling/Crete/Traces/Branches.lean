/-
  File:      Crete/Traces/Branches.lean
  Subject:   The graph of the branches only, as it is printed
             (`TraceGraph::compress_to_branches`, lib/trace-analyzer/trace_graph.cpp).

  A chain of vertices with one child each is drawn as one vertex: the branching vertex at its end,
  or its first vertex if it ends in a leaf. The vertices of a chain that ends in a leaf all have the
  leaf's trace id: a trace adds its branch under one id, and `back_insert` renames such a chain as
  a whole.

  * `findNextBranchOrLeaf`, `isLeafBranch`, `compressToBranches` -- as the source has them. The
    fuel is how deep the recursion may go.
  * **`compressToBranches_contracts`** -- on a tree, the result contracts it.
  * **`ChainIds.backInsert`**, **`Shaped.insert`** -- an insert keeps the ids of the chains.
  * **`compressToBranches_branchesOf`** -- what is drawn for the graphs there are.
-/
import Crete.Lib.Contraction
import Crete.Traces.Calls

namespace Crete.Traces

open Crete.Lib Crete.Lib.AdjList List Relation
open VertexProperty (uniqueHash)

/-! ## 1. The functions -/

/-- `find_next_branch_or_leaf`. -/
def findNextBranchOrLeaf (g : Graph) : Nat → Nat → Option Nat
  | 0, _ => none
  | n + 1, parent => match outEdges g parent with
    | [onlyChild] => findNextBranchOrLeaf g n onlyChild
    | _ => some parent

/-- `is_leaf_branch`. -/
def isLeafBranch (g : Graph) : Nat → Nat → Option Bool
  | 0, _ => none
  | n + 1, v => match outEdges g v with
    | [] => some true
    | [onlyChild] => isLeafBranch g n onlyChild
    | _ => some false

/-- The recursive `compress_to_branches`. -/
def compressBelow (g : Graph) : Nat → Nat → Graph → Nat → Option Graph
  | 0, _, _, _ => none
  | n + 1, parentComp, gComp, parentOrig => do
      let leaf ← isLeafBranch g n parentOrig
      if leaf then
        let p ← prop? g parentOrig
        return addChild gComp parentComp p
      else
        let nextV ← findNextBranchOrLeaf g n parentOrig
        let p ← prop? g nextV
        (outEdges g nextV).foldlM (fun gComp' t => compressBelow g n gComp.length gComp' t)
          (addChild gComp parentComp p)

/-- `compress_to_branches`. -/
def compressToBranches (n : Nat) (g : Graph) : Option Graph := do
  let leaf ← isLeafBranch g n 0
  if leaf then
    let p ← prop? g 0
    return addVertex [] p
  else
    let nextV ← findNextBranchOrLeaf g n 0
    let p ← prop? g nextV
    (outEdges g nextV).foldlM (fun compressed t => compressBelow g n 0 compressed t)
      (addVertex [] p)

/-! ## 2. The result contracts the tree -/

section Contract

variable {g : Graph} (hg : IsTree g)
include hg

theorem chain_le {u v : Nat} (h : Chain g u v) : u ≤ v := by
  induction h with
  | refl => exact Nat.le_refl u
  | tail _ he ih => exact Nat.le_trans ih (Nat.le_of_lt (hg.forward _ _ he.edge).1)

theorem chain_lt_length {u v : Nat} (hu : u < g.length) (h : Chain g u v) : v < g.length := by
  rcases ReflTransGen.cases_tail h with rfl | ⟨p, -, hp⟩
  · exact hu
  · exact (hg.forward _ _ hp.edge).2

theorem isLeafBranch_spec (n : Nat) : ∀ {v : Nat}, v < g.length → g.length - v ≤ n →
    ∃ b, isLeafBranch g n v = some b ∧ (b = true ↔ LeafBranch g v) := by
  induction n with
  | zero => exact fun hv hn => absurd hn (by omega)
  | succ n ih =>
    intro v hv hn
    rw [isLeafBranch]
    rcases children_cases g v with he | ⟨c, hc⟩ | hb
    · rw [he]
      exact ⟨true, rfl, fun _ => ⟨v, .refl, he⟩, fun _ => rfl⟩
    · have hlt := hg.forward v c hc.edge
      obtain ⟨b, hb, hiff⟩ := ih hlt.2 (by omega)
      rw [OnlyChild] at hc
      rw [hc]
      exact ⟨b, hb, hiff.trans (OnlyChild.leafBranch_iff hc).symm⟩
    · refine ⟨false, ?_, fun h => absurd h Bool.false_ne_true, fun h => absurd h hb.not_leafBranch⟩
      obtain ⟨a, b, cs, he⟩ := hb.exists_cons
      rw [he]

theorem findNextBranchOrLeaf_spec (n : Nat) : ∀ {v : Nat}, v < g.length → g.length - v ≤ n →
    ∃ x, findNextBranchOrLeaf g n v = some x ∧ Chain g v x ∧
      (outEdges g x = [] ∨ Branching g x) := by
  induction n with
  | zero => exact fun hv hn => absurd hn (by omega)
  | succ n ih =>
    intro v hv hn
    rw [findNextBranchOrLeaf]
    rcases children_cases g v with he | ⟨c, hc⟩ | hb
    · rw [he]
      exact ⟨v, rfl, .refl, .inl he⟩
    · have hlt := hg.forward v c hc.edge
      obtain ⟨x, hx, hcx, hend⟩ := ih hlt.2 (by omega)
      rw [OnlyChild] at hc
      rw [hc]
      exact ⟨x, hx, ReflTransGen.head hc hcx, hend⟩
    · refine ⟨v, ?_, .refl, .inr hb⟩
      obtain ⟨a, b, cs, he⟩ := hb.exists_cons
      rw [he]

/-- The branching vertex that a chain leads to. -/
theorem findNextBranchOrLeaf_branching {n v : Nat} (hv : v < g.length) (hn : g.length - v ≤ n)
    (hl : ¬ LeafBranch g v) :
    ∃ x, findNextBranchOrLeaf g n v = some x ∧ Chain g v x ∧ Branching g x := by
  obtain ⟨x, hx, hc, hend⟩ := findNextBranchOrLeaf_spec hg n hv hn
  exact ⟨x, hx, hc, hend.resolve_left fun he => hl ⟨x, hc, he⟩⟩

omit hg in
theorem exists_prop {v : Nat} (hv : v < g.length) : ∃ p, prop? g v = some p :=
  ⟨(g.get ⟨v, hv⟩).prop, by rw [prop?, getElem?_eq_getElem hv]; rfl⟩

omit hg in
/-- The loop over the children of a branching vertex, given what one round does. -/
theorem foldlM_hangs {n p : Nat} {ts : List Nat}
    (hround : ∀ t ∈ ts, ∀ (c : Graph) (src : Nat → Nat), IsTree c → p < c.length →
      ∃ c' src', compressBelow g n p c t = some c' ∧ Hangs g c c' src src' p [t]) :
    ∀ (c : Graph) (src : Nat → Nat), IsTree c → p < c.length →
      ∃ c' src', ts.foldlM (fun c t => compressBelow g n p c t) c = some c' ∧
        Hangs g c c' src src' p ts := by
  induction ts with
  | nil => exact fun c src hc _ => ⟨c, src, rfl, hangs_nil hc⟩
  | cons t ts ih =>
    intro c src hc hp
    obtain ⟨c₁, src₁, h₁, hh₁⟩ := hround t (.head _) c src hc hp
    obtain ⟨c₂, src₂, h₂, hh₂⟩ := ih (forall_mem_cons.1 hround).2
      c₁ src₁ hh₁.tree (Nat.lt_of_lt_of_le hp hh₁.longer)
    refine ⟨c₂, src₂, ?_, hh₁.trans hp hh₂⟩
    rw [foldlM_cons, h₁]
    exact h₂

/-- **What the recursion hangs below a vertex.** -/
theorem compressBelow_hangs (n : Nat) : ∀ {p v : Nat} (c : Graph) (src : Nat → Nat),
    v < g.length → g.length - v < n → IsTree c → p < c.length →
    ∃ c' src', compressBelow g n p c v = some c' ∧ Hangs g c c' src src' p [v] := by
  induction n with
  | zero => exact fun _ _ _ hn => absurd hn (Nat.not_lt_zero _)
  | succ n ih =>
    intro p v c src hv hn hc hp
    obtain ⟨b, hb, hiff⟩ := isLeafBranch_spec hg n hv (by omega)
    rw [compressBelow, hb]
    cases b with
    | true =>
      obtain ⟨x, hx⟩ := exists_prop hv
      refine ⟨addChild c p x, _, ?_, hangs_leaf hc hp hx (hiff.1 rfl)⟩
      show (prop? g v).bind _ = _
      rw [hx]
      rfl
    | false =>
      have hl : ¬ LeafBranch g v := fun h => absurd (hiff.2 h) Bool.false_ne_true
      obtain ⟨y, hy, hcy, hby⟩ := findNextBranchOrLeaf_branching (n := n) hg hv (by omega) hl
      have hle := chain_le hg hcy
      obtain ⟨x, hx⟩ := exists_prop (chain_lt_length hg hv hcy)
      -- the children of the branching vertex are further down
      have hround : ∀ t ∈ outEdges g y, ∀ (c₁ : Graph) (src₁ : Nat → Nat), IsTree c₁ →
          c.length < c₁.length → ∃ c' src', compressBelow g n c.length c₁ t = some c' ∧
            Hangs g c₁ c' src₁ src' c.length [t] := by
        intro t ht c₁ src₁ hc₁ hp₁
        have := hg.forward y t ht
        exact ih c₁ src₁ this.2 (by omega) hc₁ hp₁
      obtain ⟨c', src', hf, hh⟩ := foldlM_hangs hround (addChild c p x)
        (Function.update src c.length y) (isTree_addChild hc hp x)
        (by rw [length_addChild]; exact Nat.lt_succ_self _)
      refine ⟨c', src', ?_, hangs_branching hp hx hcy hby hh⟩
      show (findNextBranchOrLeaf g n v).bind _ = _
      rw [hy]
      show (prop? g y).bind _ = _
      rw [hx]
      exact hf

/-- **On a tree, `compress_to_branches` returns and its result contracts the tree.** -/
theorem compressToBranches_contracts {n : Nat} (hne : 0 < g.length) (hn : g.length ≤ n) :
    ∃ c src, compressToBranches n g = some c ∧ Contracts g c src := by
  obtain ⟨b, hb, hiff⟩ := isLeafBranch_spec hg n hne (by omega)
  rw [compressToBranches, hb]
  cases b with
  | true =>
    obtain ⟨x, hx⟩ := exists_prop hne
    refine ⟨addVertex [] x, fun _ => 0, ?_, isTree_single x, Nat.zero_lt_one,
      .inl ⟨hiff.1 rfl, rfl⟩, fun v hv => ?_⟩
    · show (prop? g 0).bind _ = _
      rw [hx]
      rfl
    · obtain rfl : v = 0 := Nat.lt_one_iff.1 hv
      exact ⟨hx.symm, fun _ => rfl, fun hl => absurd (hiff.1 rfl) hl, forall_mem_nil _⟩
  | false =>
    have hl : ¬ LeafBranch g 0 := fun h => absurd (hiff.2 h) Bool.false_ne_true
    obtain ⟨y, hy, hcy, hby⟩ := findNextBranchOrLeaf_branching (n := n) hg hne (by omega) hl
    obtain ⟨x, hx⟩ := exists_prop (chain_lt_length hg hne hcy)
    have hround : ∀ t ∈ outEdges g y, ∀ (c₁ : Graph) (src₁ : Nat → Nat), IsTree c₁ →
        0 < c₁.length → ∃ c' src', compressBelow g n 0 c₁ t = some c' ∧
          Hangs g c₁ c' src₁ src' 0 [t] := by
      intro t ht c₁ src₁ hc₁ hp₁
      have := hg.forward y t ht
      exact compressBelow_hangs hg n c₁ src₁ this.2 (by omega) hc₁ hp₁
    obtain ⟨c, src, hf, hh⟩ := foldlM_hangs hround (addVertex [] x) (fun _ => y)
      (isTree_single x) Nat.zero_lt_one
    have hroot : src 0 = y := hh.same 0 Nat.zero_lt_one
    refine ⟨c, src, ?_, hh.tree, hh.longer, by rw [hroot]; exact .inr ⟨hcy, hby⟩, fun v hv => ?_⟩
    · show (findNextBranchOrLeaf g n 0).bind _ = _
      rw [hy]
      show (prop? g y).bind _ = _
      rw [hx]
      exact hf
    · rcases Nat.eq_zero_or_pos v with rfl | hpos
      · obtain ⟨vs, he, hlen, hst⟩ := hh.below
        replace he : outEdges c 0 = vs := he
        refine ⟨?_, fun h => ?_, fun _ => ?_, fun q hq => ?_⟩
        · rw [hh.props 0 Nat.zero_lt_one, hroot, hx]
          rfl
        · rw [hroot] at h
          exact absurd h hby.not_leafBranch
        · rw [he, hlen, hroot]
        · rw [he, hroot] at hq
          exact hst q hq
      · exact hh.copies v hpos hv

end Contract

/-! ## 3. The ids of the chains -/

variable {g : Graph}

/-- **A vertex on a chain that ends in a leaf has the id of its only child.** -/
def ChainIds (g : Graph) : Prop :=
  ∀ v w, OnlyChild g v w → LeafBranch g w → idAt g v = idAt g w

/-- All vertices of the chain have the id of the leaf. -/
theorem ChainIds.eq_leaf (h : ChainIds g) {u l : Nat} (hc : Chain g u l)
    (hl : outEdges g l = []) : idAt g u = idAt g l := by
  induction hc using ReflTransGen.head_induction_on with
  | refl => rfl
  | head he hc ih => exact (h _ _ he ⟨l, hc, hl⟩).trans ih

theorem chainIds_single (p : VertexProperty) : ChainIds [⟨p, []⟩] := by
  intro v w h
  cases v <;> cases h

/-- A leaf branch with a new vertex below was one before. -/
theorem leafBranch_of_addChild {d : Nat} (hd : d < g.length) {x : VertexProperty}
    (hg : IsTree g) {v : Nat} (hv : v < g.length) (h : LeafBranch (addChild g d x) v) :
    LeafBranch g v := by
  obtain ⟨l, hc, hl⟩ := h
  induction hc using ReflTransGen.head_induction_on with
  | refl =>
    rw [outEdges_addChild hd] at hl
    split at hl
    · exact absurd hl (by simp)
    · exact ⟨l, .refl, hl⟩
  | head he hc ih =>
    rename_i u w
    rw [OnlyChild, outEdges_addChild hd] at he
    split at he
    · -- the new vertex is the only child: `d` was a leaf
      rename_i e
      subst e
      rcases append_eq_singleton_iff.1 he with ⟨hu, -⟩ | ⟨-, hu⟩
      · exact ⟨u, .refl, hu⟩
      · exact absurd hu (cons_ne_nil _ _)
    · have hw := hg.forward u w (by rw [he]; exact mem_singleton_self w)
      exact (OnlyChild.leafBranch_iff he).2 (ih hw.2)

/-- A new vertex below an inner vertex, or under the leaf's own id. -/
theorem ChainIds.addChild {d : Nat} {id : Id} {b : Block} (h : ChainIds g)
    (hg : IsTree g) (hd : d < g.length) (hend : outEdges g d = [] → idAt g d = some id) :
    ChainIds (addChild g d ⟨b, id⟩) := by
  intro v w he hl
  rw [idAt_addChild, idAt_addChild]
  rw [OnlyChild, outEdges_addChild hd] at he
  split at he
  · rename_i e
    subst e
    rcases append_eq_singleton_iff.1 he with ⟨hv, hw⟩ | ⟨-, hw⟩
    · rw [if_neg (Nat.ne_of_lt hd), if_pos (List.cons.inj hw).1.symm]
      exact hend hv
    · exact absurd hw (cons_ne_nil _ _)
  · have hvw := hg.forward v w (by rw [he]; exact mem_singleton_self w)
    rw [if_neg (by omega), if_neg (by omega)]
    exact h v w he (leafBranch_of_addChild hd hg hvw.2 hl)

/-- The rest of a trace, as one branch. -/
theorem ChainIds.mergeFrom {id : Id} (bs : List Block) : ∀ {g : Graph} {d : Nat}, ChainIds g →
    IsTree g → d < g.length → (outEdges g d = [] → idAt g d = some id) →
    ChainIds (mergeFrom id g d bs) := by
  induction bs with
  | nil => exact fun h _ _ _ => h
  | cons b bs ih =>
    intro g d h hg hd hend
    refine ih (h.addChild hg hd hend) (isTree_addChild hg hd _) ?_ fun _ => ?_
    · rw [length_addChild]
      exact Nat.lt_succ_self _
    · rw [idAt_addChild, if_pos rfl]

/-- **Above a leaf, `back_insert` renames the leaf's whole chain.** -/
theorem ChainIds.backInsert {id prev : Id} {q : List Block} {d : Nat} (h : ChainIds g)
    (hg : IsTrie uniqueHash g) (hq : reach g q = some d) (hd : outEdges g d = [])
    (hprev : idAt g d = some prev) :
    ChainIds (backInsert id prev g (along uniqueHash g 0 q).reverse) ∧
      idAt (backInsert id prev g (along uniqueHash g 0 q).reverse) d =
        some id := by
  have hnodup : (along uniqueHash g 0 q).reverse.Nodup :=
    nodup_reverse.2 ((hg.along_lt q 0).imp Nat.ne_of_lt)
  have hchain := isChain_reverse.2 (along_isChain uniqueHash g q 0)
  have hbottom : (along uniqueHash g 0 q).reverse.head? = some d := by
    rw [head?_reverse]
    exact getLast?_along uniqueHash q hq
  have htop : (along uniqueHash g 0 q).reverse.getLast? = some 0 := by
    rw [getLast?_reverse]
    exact head?_along uniqueHash g 0 q
  obtain ⟨-, hout, -⟩ :=
    backInsert_frame id prev (along uniqueHash g 0 q).reverse g
  obtain ⟨us, ws, hsplit, hus, hws, hall⟩ := backInsert_split id prev _ g hnodup
  rw [hsplit] at hchain hbottom htop
  -- an only child and its parent are renamed together
  have hdown : ∀ {v w : Nat}, OnlyChild g v w → v ∈ us → w ∈ us := by
    intro v w he hv
    obtain ⟨as, bs, rfl⟩ := append_of_mem hv
    rcases eq_nil_or_concat' as with rfl | ⟨as', a, rfl⟩
    · cases hbottom
      rw [he] at hd
      exact absurd hd (cons_ne_nil _ _)
    · rw [append_assoc, append_assoc] at hchain
      have ha := (isChain_append_cons_cons.1 hchain).2.1
      rw [he, mem_singleton] at ha
      rw [← ha]
      exact mem_append_left _ (mem_append_right _ (mem_singleton_self a))
  have hup : ∀ {v w : Nat}, OnlyChild g v w → idAt g v = some prev → w ∈ us → v ∈ us := by
    intro v w he hid hw
    obtain ⟨as, bs, rfl⟩ := append_of_mem hw
    rw [append_assoc, cons_append] at hchain htop
    cases bs with
    | cons b bs =>
      have hb := (isChain_append_cons_cons.1 hchain).2.1
      rw [hg.parent v b w he.edge hb]
      exact mem_append_right _ (.tail _ (.head _))
    | nil =>
      cases ws with
      | nil =>
        rw [append_nil, getLast?_concat] at htop
        cases htop
        have := (hg.forward v 0 he.edge).1
        omega
      | cons b ws =>
        have hb := (isChain_append_cons_cons.1 hchain).2.1
        rw [hg.parent v b w he.edge hb] at hid
        exact absurd hid (hws b rfl)
  refine ⟨fun v w he hl => ?_, ?_⟩
  · rw [OnlyChild, hout] at he
    have hl' : LeafBranch g w := by
      obtain ⟨l, hc, hl⟩ := hl
      refine ⟨l, ReflTransGen.mono (fun a b hab => ?_) w l hc, by rw [← hout]; exact hl⟩
      rw [OnlyChild, hout] at hab
      exact hab
    have hsame := h v w he hl'
    rw [hall, hall]
    by_cases hw : w ∈ us
    · rw [if_pos hw, if_pos (hup he (hsame.trans (hus w hw)) hw)]
    · rw [if_neg hw, if_neg fun hv => hw (hdown he hv)]
      exact hsame
  · rw [hall, if_pos]
    cases us with
    | nil => exact absurd hprev (hws d hbottom)
    | cons u us =>
      cases hbottom
      exact (.head _)

/-! ## 4. The graphs there are -/

/-- The shape of a graph, whatever ids the traces have. -/
structure Shaped (g : Graph) : Prop where
  trie : IsTrie uniqueHash g
  ids : ChainIds g

theorem shaped_nil : Shaped [] where
  trie :=
    { forward := fun _ _ h => by cases h
      parent := fun _ _ _ h => by cases h
      siblings := fun _ _ _ h => by cases h
      outNodup := fun _ => nodup_nil
      reached := fun _ _ h => absurd h (Nat.not_lt_zero _) }
  ids _ _ h := absurd h (cons_ne_nil _ _).symm

/-- The graph of the first trace. -/
theorem shaped_makeGraph (t : Trace) : Shaped (makeGraph t) := by
  obtain ⟨id, bs⟩ := t
  cases bs with
  | nil => exact shaped_nil
  | cons b bs =>
    rw [makeGraph_eq]
    have hx : Extends id [⟨⟨b, id⟩, []⟩] _ [] bs :=
      mergeFrom_extends bs (isTrie_single _) Nat.zero_lt_one rfl fun _ _ => rfl
    exact ⟨hx.trie, (chainIds_single ⟨b, id⟩).mergeFrom bs (isTree_single _) Nat.zero_lt_one
      fun _ => rfl⟩

/-- The rest of a trace, below where it leaves the trie. -/
theorem Shaped.mergeFrom {id : Id} {q rest : List Block} {d : Nat} (h : Shaped g)
    (hg : 0 < g.length) (hq : reach g q = some d)
    (hfresh : ∀ b ∈ rest.head?, child uniqueHash g d b = none)
    (hend : outEdges g d = [] → idAt g d = some id) : Shaped (mergeFrom id g d rest) :=
  ⟨(mergeFrom_extends rest h.trie hg hq hfresh).trie,
    h.ids.mergeFrom rest h.trie.toIsTree (h.trie.walk_lt q hg hq) hend⟩

/-- What `merge_trace` leaves where the trace extends the trace that ends at `d`. -/
theorem Shaped.supersede {tg tg' : TraceGraph} {id : Id} {q rest : List Block} {d : Nat}
    (h : Shaped tg.graph) (hg : 0 < tg.graph.length) (hq : reach tg.graph q = some d)
    (hfresh : ∀ b ∈ rest.head?, child uniqueHash tg.graph d b = none)
    (hd : outEdges tg.graph d = [])
    (hs : tg.supersede id d (along uniqueHash tg.graph 0 q) = .ok tg') :
    Shaped (Traces.mergeFrom id tg'.graph d rest) := by
  rw [TraceGraph.supersede] at hs
  cases hprev : idAt tg.graph d with
  | none =>
    rw [hprev] at hs
    cases hs
  | some prev =>
    rw [hprev] at hs
    obtain ⟨-, hs⟩ := ensure_bind_eq_ok.1 hs
    obtain ⟨-, hs⟩ := ensure_bind_eq_ok.1 hs
    cases hs
    obtain ⟨hids, hid⟩ := h.ids.backInsert h.trie hq hd hprev
    obtain ⟨hlen, hout, hkey⟩ := backInsert_frame id prev
      (along uniqueHash tg.graph 0 q).reverse tg.graph
    refine Shaped.mergeFrom (q := q) ⟨h.trie.congr hlen hout hkey, hids⟩ (by rw [hlen]; exact hg)
      ?_ (fun b hb => ?_) fun _ => hid
    · rw [reach, walk_congr _ hout hkey]
      exact hq
    · rw [child_congr _ hout hkey]
      exact hfresh b hb

/-- **An insert keeps the shape.** -/
theorem Shaped.insert {tg : TraceGraph} {t : Trace} {x : Bool × TraceGraph} (h : Shaped tg.graph)
    (hi : tg.insert t = .ok x) : Shaped x.2.graph := by
  by_cases hts : tg.traces = []
  · rw [TraceGraph.insert, if_pos hts] at hi
    cases hi
    exact shaped_makeGraph t
  by_cases hnone : t.blocks = [] ∨ tg.graph = []
  · rw [insert_nothing hts hnone] at hi
    cases hi
    exact h
  obtain ⟨hb, hgr⟩ := not_or.1 hnone
  obtain ⟨b, bs, hb⟩ := exists_cons_of_ne_nil hb
  have hg : 0 < tg.graph.length := length_pos_of_ne_nil hgr
  obtain ⟨r, hr⟩ := keyAt_isSome uniqueHash hg
  rw [first_block hts hr hb hi] at hb
  obtain ⟨q, rest, d, -, hq, hfresh, hf⟩ := find_spec tg.graph bs 0 []
  rw [nil_append] at hf
  rw [insert_eq hts hr hb hf] at hi
  split at hi
  · cases hi
    exact h
  · by_cases hd : outEdges tg.graph d = []
    · simp only [if_pos hd] at hi
      obtain ⟨tg', hs, hi⟩ := bind_eq_ok.1 hi
      cases hi
      exact h.supersede hg hq hfresh hd hs
    · simp only [if_neg hd] at hi
      cases hi
      exact h.mergeFrom hg hq hfresh fun he => absurd he hd

theorem Shaped.perform {tg tg' : TraceGraph} (c : GraphCall) (h : Shaped tg.graph)
    (hc : c.perform tg = .ok tg') : Shaped tg'.graph := by
  cases c with
  | insert t =>
    obtain ⟨x, hi, hx⟩ := bind_eq_ok.1 hc
    cases hx
    exact h.insert hi
  | submitExecuted id =>
    obtain ⟨-, hx⟩ := ensure_bind_eq_ok.1 hc
    cases hx
    exact h

/-- **Every graph there is has the shape.** -/
theorem Shaped.callAll (cs : List GraphCall) : ∀ {tg tg' : TraceGraph}, Shaped tg.graph →
    callAll tg cs = .ok tg' → Shaped tg'.graph := by
  induction cs with
  | nil =>
    intro tg tg' h hc
    cases hc
    exact h
  | cons c cs ih =>
    intro tg tg' h hc
    obtain ⟨tg₁, hp, hc⟩ := bind_eq_ok.1 hc
    exact ih (h.perform c hp) hc

/-! ## 5. What is drawn -/

/-- **`c` is the graph of the branches of `g`**; vertex `v` of it is drawn for `src v`. -/
structure BranchesOf (g c : Graph) (src : Nat → Nat) : Prop where
  tree : IsTree c
  degree : ∀ v < c.length, (outEdges c v).length ≠ 1
  copied : ∀ v < c.length, prop? c v = prop? g (src v)
  /-- Exactly one copy of each branching vertex. -/
  branching : ∀ u < g.length, Branching g u →
    ∃ v < c.length, src v = u ∧ ∀ w < c.length, src w = u → w = v
  /-- Exactly one leaf on the chain that ends in a leaf, with the id that the chain has. -/
  leaf : ∀ l < g.length, outEdges g l = [] → ∃ v < c.length, outEdges c v = [] ∧ Chain g (src v) l ∧
      (∀ u, Chain g u l → idAt g u = idAt c v) ∧
      ∀ w < c.length, outEdges c w = [] → Chain g (src w) l → w = v
  /-- Nothing else is drawn. -/
  only : ∀ v < c.length, Branching g (src v) ∨
    outEdges c v = [] ∧ ∃ l < g.length, outEdges g l = [] ∧ Chain g (src v) l
  above : ∀ v w, v < c.length → w < c.length → (Above c v w ↔ Above g (src v) (src w))

/-- A contraction of a graph with this shape is the graph of its branches. -/
theorem Shaped.branchesOf {g c : Graph} {src : Nat → Nat} (hs : Shaped g) (h : Contracts g c src) :
    BranchesOf g c src where
  tree := h.tree
  degree _ hv := h.length_ne_one hv
  copied v hv := (h.copies v hv).prop
  branching _ _ hb := h.covers_branching hs.trie.toIsTree hb
  leaf l hl he := by
    obtain ⟨v, hv, hout, hc, huniq⟩ := h.covers_leaf hs.trie.toIsTree hl he
    refine ⟨v, hv, hout, hc, fun u hu => ?_, huniq⟩
    rw [hs.ids.eq_leaf hu he, ← hs.ids.eq_leaf hc he, idAt, idAt, (h.copies v hv).prop]
  only v hv := by
    rcases h.leafBranch_or hv with hl | hb
    · obtain ⟨l, hc, he⟩ := hl
      have hlt : src v < g.length := by
        obtain ⟨x, hx⟩ := exists_prop hv
        refine Nat.lt_of_not_le fun hge => ?_
        rw [(h.copies v hv).prop, prop?, getElem?_eq_none hge] at hx
        cases hx
      exact .inr ⟨(h.copies v hv).ended ⟨l, hc, he⟩, l,
        chain_lt_length hs.trie.toIsTree hlt hc, he, hc⟩
    · exact .inl hb
  above _ _ hv hw := h.above_iff hs.trie.toIsTree hv hw

/-- **The graph of the branches**: for every graph that calls leave, if it has a vertex,
    `compress_to_branches` returns the graph of its branches. -/
theorem compressToBranches_branchesOf (cs : List GraphCall) {tg : TraceGraph}
    (hc : callAll .empty cs = .ok tg) (hne : tg.graph ≠ []) {n : Nat} (hn : tg.graph.length ≤ n) :
    ∃ c src, compressToBranches n tg.graph = some c ∧ BranchesOf tg.graph c src := by
  have hs : Shaped tg.graph := Shaped.callAll cs shaped_nil hc
  obtain ⟨c, src, hcomp, hcon⟩ := compressToBranches_contracts hs.trie.toIsTree
    (length_pos_of_ne_nil hne) hn
  exact ⟨c, src, hcomp, hs.branchesOf hcon⟩

/-- Three traces: the root's chain leads to a branching vertex, and each branch is a chain. -/
theorem compressToBranches_branchesOf_three : ∃ tg c src,
    callAll .empty [.insert ⟨[1], [7, 8, 9]⟩, .insert ⟨[2], [7, 8, 6, 5]⟩,
      .insert ⟨[3], [7, 8, 9, 4]⟩] = .ok tg ∧ tg.graph.length = 6 ∧
      compressToBranches 6 tg.graph = some c ∧ BranchesOf tg.graph c src := by
  have hcalls : ∃ tg, callAll .empty [.insert ⟨[1], [7, 8, 9]⟩, .insert ⟨[2], [7, 8, 6, 5]⟩,
      .insert ⟨[3], [7, 8, 9, 4]⟩] = .ok tg ∧ tg.graph.length = 6 := ⟨_, rfl, rfl⟩
  obtain ⟨tg, hc, hlen⟩ := hcalls
  have hne : tg.graph ≠ [] := fun e => by
    rw [e] at hlen
    cases hlen
  obtain ⟨c, src, hcomp, hb⟩ := compressToBranches_branchesOf _ hc hne (Nat.le_of_eq hlen)
  exact ⟨tg, c, src, hc, hlen, hcomp, hb⟩

end Crete.Traces
