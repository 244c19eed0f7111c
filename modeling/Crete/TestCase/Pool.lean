/-
  File:      Crete/TestCase/Pool.lean
  Subject:   The test pool of the cluster (lib/cluster/test_pool.cpp): tests wait in a queue,
             and a test whose encoding is known is dropped.

  * `write_injective` -- tests whose size fields are right have different encodings unless they
    have the same elements, whatever their count.
  * **`run_delivers`** -- what has been delivered, followed by what waits, is the sequence of
    distinct tests in order of first insertion.
-/
import Crete.Lib.Firsts
import Crete.TestCase.Codec

namespace Crete

open Crete.Lib List

/-! ## 1. The pool -/

/-- `TestCaseSetCompare`: encodings are compared as strings of bytes. -/
def testCaseLess (rhs lhs : TestCase) : Prop := rhs.write < lhs.write
  deriving Decidable

/-- `class TestPool`. The set `all_` as its members in order of insertion, the deque `next_` from
    its front, and the files under `test-case` by the number each is named by. -/
structure TestPool where
  all : List TestCase
  next : List TestCase
  files : Nat → Option Bytes

namespace TestPool

/-- A new pool, in a directory with these files. -/
def new (files : Nat → Option Bytes) : TestPool := ⟨[], [], files⟩

/-- `all_.find(tc) != all_.end()`: a member that the comparison does not tell from `tc`. -/
def Known (p : TestPool) (tc : TestCase) : Prop :=
  ∃ s ∈ p.all, ¬ testCaseLess s tc ∧ ¬ testCaseLess tc s
  deriving Decidable

/-- `write_test_case`: the file is named by the number of known tests. -/
def writeTestCase (p : TestPool) (tc : TestCase) : TestPool :=
  { p with files := fun n => if n = p.all.length then some tc.write else p.files n }

/-- `insert`. -/
def insert (p : TestPool) (tc : TestCase) : Bool × TestPool :=
  if p.Known tc then (false, p)
  else (true, writeTestCase { p with all := p.all ++ [tc], next := tc :: p.next } tc)

/-- `insert` of a vector. -/
def insertAll (p : TestPool) (tcs : List TestCase) : TestPool :=
  tcs.foldl (fun p tc => (p.insert tc).2) p

/-- `next`: from the back of the deque. -/
def takeNext (p : TestPool) : Option TestCase × TestPool :=
  match p.next.getLast? with
  | none => (none, p)
  | some tc => (some tc, { p with next := p.next.dropLast })

/-- `clear`. The files stay. -/
def clear (p : TestPool) : TestPool := { p with all := [], next := [] }

/-- `count_all`. -/
def countAll (p : TestPool) : Nat := p.all.length

/-- `count_next`. -/
def countNext (p : TestPool) : Nat := p.next.length

/-- The tests that wait, in the order in which `next` returns them. -/
def pending (p : TestPool) : List TestCase := p.next.reverse

end TestPool

/-- A call of the pool. -/
inductive TestCall where
  | insert (tc : TestCase)
  | insertAll (tcs : List TestCase)
  | next
  | clear
  deriving DecidableEq, Repr

/-- What a call returns. -/
inductive TestReply where
  | inserted (new : Bool)
  | test (tc : Option TestCase)
  | done
  deriving DecidableEq, Repr

/-- One call. -/
def TestPool.call (p : TestPool) : TestCall → TestReply × TestPool
  | .insert tc => (.inserted (p.insert tc).1, (p.insert tc).2)
  | .insertAll tcs => (.done, p.insertAll tcs)
  | .next => (.test p.takeNext.1, p.takeNext.2)
  | .clear => (.done, p.clear)

/-- Call after call: the replies and the pool at the end. -/
def TestPool.run (p : TestPool) : List TestCall → List TestReply × TestPool
  | [] => ([], p)
  | c :: cs => ((p.call c).1 :: ((p.call c).2.run cs).1, ((p.call c).2.run cs).2)

/-- The tests a call inserts. -/
def TestCall.inserts : TestCall → List TestCase
  | .insert tc => [tc]
  | .insertAll tcs => tcs
  | .next | .clear => []

/-- The test a reply delivers. -/
def TestReply.delivers : TestReply → List TestCase
  | .test (some tc) => [tc]
  | .test none | .inserted _ | .done => []

/-! ## 2. Encodings tell tests apart -/

/-- The names and the data of the elements: what two tests can differ in. -/
def TestCase.content (tc : TestCase) : List (Bytes × Bytes) :=
  tc.elems.map fun e => (e.name, e.data)

open TestCase

theorem leBytes_word_inj {a b : UInt32} (h : leBytes 4 a.toNat = leBytes 4 b.toNat) : a = b := by
  have ha := ofLeBytes_leBytes_of_lt (k := 4) (n := a.toNat) a.toNat_lt
  have hb := ofLeBytes_leBytes_of_lt (k := 4) (n := b.toNat) b.toNat_lt
  rw [h] at ha
  exact UInt32.toNat.inj (ha.symm.trans hb)

/-- A word and as many bytes as it says, before anything else, can be read off again. -/
theorem sizedBytes_inj {a b : UInt32} {xs ys us vs : Bytes} (ha : a.toNat = xs.length)
    (hb : b.toNat = ys.length)
    (h : leBytes 4 a.toNat ++ (xs ++ us) = leBytes 4 b.toNat ++ (ys ++ vs)) :
    a = b ∧ xs = ys ∧ us = vs := by
  obtain ⟨hw, hrest⟩ := append_inj h (by rw [leBytes_length, leBytes_length])
  obtain rfl := leBytes_word_inj hw
  obtain ⟨hx, hu⟩ := append_inj hrest (by rw [← ha, ← hb])
  exact ⟨rfl, hx, hu⟩

/-- An element at the front of an encoding can be read off again. -/
theorem writeElement_inj {e e' : TestCaseElement} (he : e.Sized) (he' : e'.Sized)
    {us vs : Bytes} (h : writeElement e ++ us = writeElement e' ++ vs) :
    e = e' ∧ us = vs := by
  unfold writeElement at h
  rw [append_assoc, append_assoc, append_assoc, append_assoc, append_assoc, append_assoc] at h
  obtain ⟨hns, hn, hrest⟩ := sizedBytes_inj he.nameSize he'.nameSize h
  obtain ⟨hds, hd, hend⟩ := sizedBytes_inj he.dataSize he'.dataSize hrest
  cases e
  cases e'
  cases hns
  cases hn
  cases hds
  cases hd
  exact ⟨rfl, hend⟩

theorem writeElement_ne_nil (e : TestCaseElement) : writeElement e ≠ [] := by
  intro h
  have hl := writeElement_length e
  rw [h, TestCaseElement.encodedSize, length_nil] at hl
  omega

theorem flatMap_writeElement_inj : ∀ {es es' : List TestCaseElement}, (∀ e ∈ es, e.Sized) →
    (∀ e ∈ es', e.Sized) → es.flatMap writeElement = es'.flatMap writeElement → es = es' := by
  intro es
  induction es with
  | nil =>
    intro es' _ _ h
    cases es' with
    | nil => rfl
    | cons e' es' =>
      rw [flatMap_nil, flatMap_cons] at h
      exact absurd (append_eq_nil_iff.1 h.symm).1 (writeElement_ne_nil e')
  | cons e es ih =>
    intro es' hes hes' h
    cases es' with
    | nil =>
      rw [flatMap_nil, flatMap_cons] at h
      exact absurd (append_eq_nil_iff.1 h).1 (writeElement_ne_nil e)
    | cons e' es' =>
      rw [flatMap_cons, flatMap_cons] at h
      obtain ⟨rfl, hrest⟩ := writeElement_inj (hes e (.head _)) (hes' e' (.head _)) h
      rw [ih (forall_mem_cons.1 hes).2 (forall_mem_cons.1 hes').2 hrest]

/-- **Encodings tell tests apart**, although the element count in front is cut to 32 bits. -/
theorem write_injective {s t : TestCase} (hs : s.Sized) (ht : t.Sized) (h : s.write = t.write) :
    s = t := by
  unfold write writeElements at h
  obtain ⟨-, h⟩ := append_inj h (by rw [leBytes_length, leBytes_length])
  cases s
  cases t
  exact congrArg TestCase.mk (flatMap_writeElement_inj hs ht h)

/-- The element with this name and data. -/
def sizedElement (c : Bytes × Bytes) : TestCaseElement :=
  ⟨UInt32.ofNat c.1.length, c.1, UInt32.ofNat c.2.length, c.2⟩

theorem TestCaseElement.Sized.eq {e : TestCaseElement} (h : e.Sized) :
    sizedElement (e.name, e.data) = e := by
  obtain ⟨hn, hd⟩ := h
  cases e
  simp only [sizedElement, ← hn, ← hd, UInt32.ofNat_toNat]

/-- Names and data determine a test whose size fields are right. -/
theorem TestCase.Sized.eq {tc : TestCase} (h : tc.Sized) :
    TestCase.mk (tc.content.map sizedElement) = tc := by
  obtain ⟨es⟩ := tc
  refine congrArg TestCase.mk ?_
  rw [content, map_map]
  exact (map_congr_left fun e he => (h e he).eq).trans (map_id' es)

/-- The comparison does not tell two tests apart exactly if they have the same elements. -/
theorem not_less_iff {s t : TestCase} (hs : s.Sized) (ht : t.Sized) :
    ¬ testCaseLess s t ∧ ¬ testCaseLess t s ↔ s.content = t.content := by
  unfold testCaseLess
  constructor
  · intro ⟨h, h'⟩
    have hle : s.write ≤ t.write := h'
    rw [write_injective hs ht (List.le_antisymm hle h)]
  · intro h
    obtain rfl : s = t := by rw [← hs.eq, ← ht.eq, h]
    exact ⟨List.lt_irrefl _, List.lt_irrefl _⟩

/-! ## 3. One call -/

variable {ins out : List TestCase} {p : TestPool}

/-- **The pool after the insertions `ins` and the deliveries `out`** since it was last empty. -/
structure Delivers (p : TestPool) (ins out : List TestCase) : Prop where
  sized : ∀ tc ∈ ins, tc.Sized
  all : p.all = firsts content ins
  queue : out ++ p.pending = firsts content ins
  stored : ∀ n tc, p.all[n]? = some tc → p.files (n + 1) = some tc.write

theorem delivers_empty (ha : p.all = []) (hn : p.next = []) : Delivers p [] [] where
  sized _ h := by cases h
  all := ha
  queue := by rw [TestPool.pending, hn]; rfl
  stored n tc h := by rw [ha] at h; cases h

theorem Delivers.known_iff (h : Delivers p ins out) {tc : TestCase} (htc : tc.Sized) :
    p.Known tc ↔ ∃ s ∈ firsts content ins, s.content = tc.content := by
  have hs : ∀ s ∈ p.all, s.Sized := by
    rw [h.all]
    exact fun s hs => h.sized s ((firsts_sublist content ins).subset hs)
  unfold TestPool.Known
  rw [← h.all]
  exact exists_congr fun s => and_congr_right fun hm => not_less_iff (hs s hm) htc

/-- **One insertion.** -/
theorem Delivers.insert (h : Delivers p ins out)
    {tc : TestCase} (htc : tc.Sized) : Delivers (p.insert tc).2 (ins ++ [tc]) out := by
  have hsized : ∀ x ∈ ins ++ [tc], x.Sized := by
    intro x hx
    rcases mem_append.1 hx with hx | hx
    · exact h.sized x hx
    · rw [mem_singleton.1 hx]
      exact htc
  have hknown := h.known_iff htc
  unfold TestPool.insert
  by_cases hk : p.Known tc
  · have hfirsts : firsts content (ins ++ [tc]) = firsts content ins := by
      rw [firsts_snoc, addFirst, if_pos (hknown.1 hk)]
    rw [if_pos hk]
    exact ⟨hsized, h.all.trans hfirsts.symm, h.queue.trans hfirsts.symm, h.stored⟩
  · have hfirsts : firsts content (ins ++ [tc]) = firsts content ins ++ [tc] := by
      rw [firsts_snoc, addFirst, if_neg fun e => hk (hknown.2 e)]
    rw [if_neg hk]
    refine ⟨hsized, ?_, ?_, fun n x hx => ?_⟩
    · show p.all ++ [tc] = _
      rw [hfirsts, h.all]
    · show out ++ (tc :: p.next).reverse = _
      rw [hfirsts, reverse_cons, ← append_assoc]
      exact congrArg (· ++ [tc]) h.queue
    · show (if n + 1 = (p.all ++ [tc]).length then some tc.write else p.files (n + 1)) = _
      change (p.all ++ [tc])[n]? = some x at hx
      rw [length_append, length_singleton]
      by_cases e : n = p.all.length
      · subst e
        rw [getElem?_concat_length] at hx
        cases hx
        rw [if_pos rfl]
      · have hlt := (List.getElem?_eq_some_iff.1 hx).1
        rw [length_append, length_singleton] at hlt
        rw [getElem?_append_left (by omega)] at hx
        rw [if_neg (by omega)]
        exact h.stored n x hx

theorem Delivers.insertAll {out : List TestCase} (tcs : List TestCase) :
    ∀ {p : TestPool} {ins : List TestCase}, Delivers p ins out → (∀ tc ∈ tcs, tc.Sized) →
      Delivers (p.insertAll tcs) (ins ++ tcs) out := by
  induction tcs with
  | nil =>
    intro p ins h _
    rw [append_nil]
    exact h
  | cons tc tcs ih =>
    intro p ins h hs
    have h₁ := ih (h.insert (hs tc (.head _))) fun x hx =>
      hs x (.tail _ hx)
    rw [append_assoc, singleton_append] at h₁
    exact h₁

theorem TestPool.takeNext_fst (p : TestPool) : p.takeNext.1 = p.pending.head? := by
  rw [TestPool.pending, head?_reverse, TestPool.takeNext]
  cases p.next.getLast? <;> rfl

/-- **One delivery**: the oldest test that waits. -/
theorem Delivers.takeNext (h : Delivers p ins out) :
    Delivers p.takeNext.2 ins (out ++ p.takeNext.1.toList) := by
  unfold TestPool.takeNext
  cases hl : p.next.getLast? with
  | none =>
    show Delivers p ins (out ++ [])
    rw [append_nil]
    exact h
  | some tc =>
    refine ⟨h.sized, h.all, ?_, h.stored⟩
    have hnext : p.next = p.next.dropLast ++ [tc] := (dropLast_append_getLast? tc hl).symm
    have hq := h.queue
    rw [TestPool.pending, hnext, reverse_append] at hq
    show (out ++ [tc]) ++ p.next.dropLast.reverse = _
    rw [append_assoc]
    exact hq

/-! ## 4. All calls -/

/-- **One call other than `clear`.** -/
theorem Delivers.call (h : Delivers p ins out)
    {c : TestCall} (hc : c ≠ .clear) (hs : ∀ tc ∈ c.inserts, tc.Sized) :
    Delivers (p.call c).2 (ins ++ c.inserts) (out ++ (p.call c).1.delivers) := by
  cases c with
  | insert tc =>
    show Delivers (p.insert tc).2 (ins ++ [tc]) (out ++ [])
    rw [append_nil]
    exact h.insert (hs tc (.head _))
  | insertAll tcs =>
    show Delivers (p.insertAll tcs) (ins ++ tcs) (out ++ [])
    rw [append_nil]
    exact h.insertAll tcs hs
  | next =>
    have hd : (TestReply.test p.takeNext.1).delivers = p.takeNext.1.toList := by
      cases p.takeNext.1 <;> rfl
    show Delivers p.takeNext.2 (ins ++ []) (out ++ (TestReply.test p.takeNext.1).delivers)
    rw [append_nil, hd]
    exact h.takeNext
  | clear => exact absurd rfl hc

theorem Delivers.run (cs : List TestCall) : ∀ {p : TestPool} {ins out : List TestCase},
    Delivers p ins out → .clear ∉ cs → (∀ c ∈ cs, ∀ tc ∈ c.inserts, tc.Sized) →
    Delivers (p.run cs).2 (ins ++ cs.flatMap TestCall.inserts)
      (out ++ (p.run cs).1.flatMap TestReply.delivers) := by
  induction cs with
  | nil =>
    intro p ins out h _ _
    show Delivers p (ins ++ []) (out ++ [])
    rw [append_nil, append_nil]
    exact h
  | cons c cs ih =>
    intro p ins out h hc hs
    have hne : c ≠ .clear := fun e => hc (e ▸ mem_cons_self)
    have h₁ := ih (h.call hne (hs c (.head _)))
      (fun hm => hc (.tail _ hm)) (forall_mem_cons.1 hs).2
    rw [append_assoc, append_assoc] at h₁
    exact h₁

theorem run_append (p : TestPool) (cs cs' : List TestCall) :
    p.run (cs ++ cs') = ((p.run cs).1 ++ ((p.run cs).2.run cs').1, ((p.run cs).2.run cs').2) := by
  induction cs generalizing p with
  | nil => rfl
  | cons c cs ih =>
    rw [cons_append, TestPool.run, ih]
    rfl

/-- The pool is empty at the start and after a `clear`. -/
theorem delivers_cleared (files : Nat → Option Bytes) {before : List TestCall}
    (hb : before = [] ∨ ∃ cs, before = cs ++ [.clear]) :
    Delivers ((TestPool.new files).run before).2 [] [] := by
  rcases hb with rfl | ⟨cs, rfl⟩
  · exact delivers_empty rfl rfl
  · rw [run_append]
    exact delivers_empty rfl rfl

/-- **Delivery between two clears.** After any calls `before` that end in a `clear` (or none), and
    then calls without one: what `next` has returned, followed by what waits, is the distinct
    tests inserted, in order of first insertion; none is delivered twice, and the next call of
    `next` returns the first that waits. -/
theorem run_delivers (files : Nat → Option Bytes) (before cs : List TestCall)
    (hb : before = [] ∨ ∃ b, before = b ++ [.clear]) (hc : .clear ∉ cs)
    (hs : ∀ c ∈ cs, ∀ tc ∈ c.inserts, tc.Sized) :
    let start := ((TestPool.new files).run before).2
    let delivered := (start.run cs).1.flatMap TestReply.delivers
    let distinct := firsts content (cs.flatMap TestCall.inserts)
    delivered ++ (start.run cs).2.pending = distinct ∧
      (delivered.Pairwise (content · ≠ content ·)) ∧
      (start.run cs).2.countAll = distinct.length ∧
      (start.run cs).2.countNext = (start.run cs).2.pending.length ∧
      ((start.run cs).2.call .next).1 = .test (start.run cs).2.pending.head? := by
  intro start delivered distinct
  have h := (delivers_cleared files hb).run cs hc hs
  rw [nil_append, nil_append] at h
  refine ⟨h.queue, ?_, congrArg List.length h.all, (length_reverse).symm,
    congrArg TestReply.test (start.run cs).2.takeNext_fst⟩
  have hd := firsts_pairwise content (cs.flatMap TestCall.inserts)
  rw [← h.queue] at hd
  exact (pairwise_append.1 hd).1

/-- Two tests, one of them twice, and a delivery between, after a `clear`. -/
theorem run_delivers_twice : let t₁ : TestCase := ⟨[tinyElement 97 1]⟩
    let t₂ : TestCase := ⟨[tinyElement 97 2]⟩
    let start := ((TestPool.new fun _ => none).run [.insert t₂, .clear]).2
    (start.run [.insert t₁, .next, .insertAll [t₂, t₁]]).1.flatMap TestReply.delivers ++
      (start.run [.insert t₁, .next, .insertAll [t₂, t₁]]).2.pending = [t₁, t₂] := by
  intro t₁ t₂ start
  have hsized : ∀ d, (TestCase.mk [tinyElement 97 d]).Sized := by
    intro d e he
    rw [mem_singleton.1 he]
    exact (tinyElement_wellFormed 97 d).toSized
  refine (run_delivers (fun _ => none) [.insert t₂, .clear]
    [.insert t₁, .next, .insertAll [t₂, t₁]] (.inr ⟨[.insert t₂], rfl⟩) (by decide) ?_).1.trans
    (by decide)
  have hall : ∀ tc ∈ [t₁, t₂], tc.Sized := by
    intro tc htc
    rcases mem_cons.1 htc with rfl | htc
    · exact hsized 1
    · rw [mem_singleton.1 htc]
      exact hsized 2
  have hmem : ∀ c ∈ [TestCall.insert t₁, .next, .insertAll [t₂, t₁]], ∀ tc ∈ c.inserts,
      tc ∈ [t₁, t₂] := by decide
  exact fun c hc tc htc => hall tc (hmem c hc tc htc)

end Crete
