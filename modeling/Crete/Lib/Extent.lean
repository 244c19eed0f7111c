/-
  File:      Crete/Lib/Extent.lean
  Subject:   Sparse memory as a list of extents: runs of bytes from an address on.

  * `Cut a b l` -- what lies before, across and behind the range from `a` to `b`; `exists_cut`.
  * `Joins across c m` -- `m` is `c` put together with the extents it overlaps, whose bytes win.
    With it in their place the list stays `Apart` (`Cut.apart_join`), and has the bytes it had,
    then those of `c` (`Cut.first_join`).
  * `Bridged l x`, `Short n l` -- `x` and `x + 1` in one extent; no `n` addresses are all in a chain
    of overlapping extents.
-/
import Mathlib.Data.List.Basic
import Mathlib.Data.List.Pairwise
import Mathlib.Algebra.Order.Ring.Int

namespace Crete.Lib

open Option List

/-- Bytes from an address on. -/
structure Extent (β : Type) where
  addr : Nat
  data : List β

namespace Extent

variable {β : Type}

/-! ## 1. Bytes -/

variable {l : List (Extent β)} {e : Extent β} {x : Nat}

/-- The address after the last byte. -/
def stop (e : Extent β) : Nat := e.addr + e.data.length

/-- The byte at an address. -/
def byteAt (e : Extent β) (x : Nat) : Option β :=
  if e.addr ≤ x then e.data[x - e.addr]? else none

/-- The extent has a byte at the address. -/
def Covers (e : Extent β) (x : Nat) : Prop := e.addr ≤ x ∧ x < e.stop
  deriving Decidable

theorem byteAt_eq_none : e.byteAt x = none ↔ ¬ e.Covers x := by
  unfold byteAt Covers stop
  split
  · rw [getElem?_eq_none_iff]
    omega
  · simp only [true_iff]
    omega

theorem covers_iff : e.Covers x ↔ ∃ b, e.byteAt x = some b := by
  rw [← ne_none_iff_exists', ne_eq, byteAt_eq_none, not_not]

theorem byteAt_add (i : Nat) : e.byteAt (e.addr + i) = e.data[i]? := by
  rw [byteAt, if_pos (Nat.le_add_right _ _), Nat.add_sub_cancel_left]

/-- The byte at an address: that of the first extent that has one. -/
def first (l : List (Extent β)) (x : Nat) : Option β := l.findSome? fun e => e.byteAt x

@[simp] theorem first_nil (x : Nat) : first ([] : List (Extent β)) x = none := rfl

theorem first_cons (e : Extent β) (l : List (Extent β)) (x : Nat) :
    first (e :: l) x = (e.byteAt x).or (first l x) := by
  unfold first
  rw [findSome?_cons]
  cases e.byteAt x <;> rfl

theorem first_append (l l' : List (Extent β)) (x : Nat) :
    first (l ++ l') x = (first l x).or (first l' x) :=
  findSome?_append

theorem first_eq_none : first l x = none ↔ ∀ e ∈ l, ¬ e.Covers x := by
  unfold first
  rw [findSome?_eq_none_iff]
  exact forall_congr' fun e => forall_congr' fun _ => byteAt_eq_none

/-- The bytes are those that `f` has from an address on. -/
def Copies (f : Nat → Option β) (a : Nat) (bs : List β) : Prop :=
  ∀ i < bs.length, bs[i]? = f (a + i)

theorem Copies.nil (f : Nat → Option β) (a : Nat) : Copies f a [] :=
  fun _ h => absurd h (Nat.not_lt_zero _)

theorem Copies.append {f : Nat → Option β} {a : Nat} {bs bs' : List β} (h : Copies f a bs)
    (h' : Copies f (a + bs.length) bs') : Copies f a (bs ++ bs') := by
  intro i hi
  by_cases hlt : i < bs.length
  · rw [getElem?_append_left hlt, h i hlt]
  · rw [length_append] at hi
    rw [getElem?_append_right (Nat.not_lt.1 hlt), h' _ (by omega)]
    congr 1
    omega

theorem Copies.congr {f g : Nat → Option β} {a : Nat} {bs : List β} (h : Copies f a bs)
    (hfg : ∀ x, a ≤ x → x < a + bs.length → f x = g x) : Copies g a bs := by
  intro i hi
  rw [h i hi, hfg _ (Nat.le_add_right a i) (by omega)]

/-- If `f` has no other bytes, it is the bytes as an extent. -/
theorem Copies.byteAt_eq {f : Nat → Option β} {a : Nat} {bs : List β} (h : Copies f a bs)
    (hnone : ∀ x, x < a ∨ a + bs.length ≤ x → f x = none) (x : Nat) :
    (Extent.mk a bs).byteAt x = f x := by
  by_cases hx : (Extent.mk a bs).Covers x
  · obtain ⟨h₁, h₂⟩ : a ≤ x ∧ x < a + bs.length := hx
    rw [byteAt, if_pos h₁, h _ (by dsimp only; omega)]
    congr 1
    dsimp only
    omega
  · rw [byteAt_eq_none.2 hx, hnone x]
    unfold Covers stop at hx
    dsimp only at hx
    omega

/-! ## 2. Lists without overlaps -/

/-- **In order of address, not empty, and without a common address.** -/
structure Apart (l : List (Extent β)) : Prop where
  sorted : l.Pairwise fun e e' => e.stop ≤ e'.addr
  nonempty : ∀ e ∈ l, e.addr < e.stop

theorem Apart.nil : Apart ([] : List (Extent β)) :=
  ⟨.nil, forall_mem_nil _⟩

theorem Apart.sublist {l l' : List (Extent β)} (h : Apart l) (hs : l'.Sublist l) : Apart l' :=
  ⟨h.sorted.sublist hs, fun e he => h.nonempty e (hs.subset he)⟩

/-- Extents that end by `n` are at most `n`. -/
theorem Apart.length_le (h : Apart l) {k n : Nat}
    (hk : ∀ e ∈ l, k ≤ e.addr) (hn : ∀ e ∈ l, e.stop ≤ n) (hkn : k ≤ n) : k + l.length ≤ n := by
  induction l generalizing k with
  | nil => simpa using hkn
  | cons e l ih =>
    obtain ⟨hsort, htail⟩ := pairwise_cons.1 h.sorted
    have hk' := hk e (.head _)
    have hne := h.nonempty e (.head _)
    have hstop := hn e (.head _)
    have := ih (h.sublist (sublist_cons_self e l)) (k := e.stop) hsort
      (forall_mem_cons.1 hn).2 hstop
    rw [length_cons]
    omega

/-- Two extents of the list that have an address in common are the same. -/
theorem Apart.eq_of_covers (h : Apart l) {e e' : Extent β} (he : e ∈ l)
    (he' : e' ∈ l) (hx : e.Covers x) (hx' : e'.Covers x) : e = e' := by
  by_contra hne
  have hsym : l.Pairwise fun e e' => e.stop ≤ e'.addr ∨ e'.stop ≤ e.addr :=
    h.sorted.imp fun hle => .inl hle
  have : Std.Symm fun e e' : Extent β => e.stop ≤ e'.addr ∨ e'.stop ≤ e.addr :=
    ⟨fun _ _ => Or.symm⟩
  have hor := hsym.forall he he' hne
  unfold Covers at hx hx'
  omega

/-- In a list without overlaps the byte at an address is that of any extent there. -/
theorem first_eq_of_sorted (h : l.Pairwise fun e e' => e.stop ≤ e'.addr)
    (he : e ∈ l) (hx : e.Covers x) : first l x = e.byteAt x := by
  obtain ⟨l₁, l₂, rfl⟩ := append_of_mem he
  obtain ⟨-, -, hcross⟩ := pairwise_append.1 h
  have hbefore : first l₁ x = none := by
    rw [first_eq_none]
    intro y hy hc
    have hle := hcross y hy e (.head _)
    have h₁ := hx.1
    have h₂ := hc.2
    omega
  obtain ⟨b, hb⟩ := covers_iff.1 hx
  rw [first_append, hbefore, none_or, first_cons, hb, some_or]

/-! ## 3. Cutting a list at a range -/

/-- **The extents before, across and behind the range from `a` to `b`.** -/
structure Cut (a b : Nat) (l before across after : List (Extent β)) : Prop where
  eq : l = before ++ (across ++ after)
  before : ∀ e ∈ before, e.stop ≤ a
  across : ∀ e ∈ across, a < e.stop ∧ e.addr < b
  after : ∀ e ∈ after, b ≤ e.addr

theorem exists_cut (h : Apart l) (a b : Nat) :
    ∃ before across after, Cut a b l before across after := by
  induction l with
  | nil =>
    exact ⟨[], [], [], rfl, forall_mem_nil _, forall_mem_nil _, forall_mem_nil _⟩
  | cons e l ih =>
    obtain ⟨before, across, after, rfl, hb, ho, ha⟩ := ih (h.sublist (sublist_cons_self e l))
    obtain ⟨hsort, -⟩ := pairwise_cons.1 h.sorted
    have hne := h.nonempty e (.head _)
    by_cases hstop : e.stop ≤ a
    · refine ⟨e :: before, across, after, rfl, fun x hx => ?_, ho, ha⟩
      obtain rfl | hx := mem_cons.1 hx
      · exact hstop
      · exact hb x hx
    -- nothing of the rest is before the range
    obtain rfl : before = [] := by
      refine eq_nil_iff_forall_not_mem.2 fun x hx => ?_
      have hxl : x ∈ before ++ (across ++ after) := mem_append_left _ hx
      have h₁ := hsort x hxl
      have h₂ := h.nonempty x (mem_cons_of_mem e hxl)
      have h₃ := hb x hx
      omega
    by_cases haddr : e.addr < b
    · refine ⟨[], e :: across, after, rfl, hb, fun x hx => ?_, ha⟩
      obtain rfl | hx := mem_cons.1 hx
      · exact ⟨by omega, haddr⟩
      · exact ho x hx
    · obtain rfl : across = [] := by
        refine eq_nil_iff_forall_not_mem.2 fun x hx => ?_
        have h₁ := hsort x (mem_append_left after hx)
        have h₂ := (ho x hx).2
        omega
      refine ⟨[], [], e :: after, rfl, hb, ho, fun x hx => ?_⟩
      obtain rfl | hx := mem_cons.1 hx
      · omega
      · exact ha x hx

/-! ## 4. Joining -/

/-- **`m` is `c` together with the extents it overlaps**, whose bytes go before those of `c`. -/
def Joins (across : List (Extent β)) (c m : Extent β) : Prop :=
  ∀ x, m.byteAt x = first (across ++ [c]) x

/-- `x` and `x + 1` are in one extent. -/
def Bridged (l : List (Extent β)) (x : Nat) : Prop := ∃ e ∈ l, e.Covers x ∧ e.Covers (x + 1)

theorem bridged_append {l l' : List (Extent β)} :
    Bridged (l ++ l') x ↔ Bridged l x ∨ Bridged l' x := by
  simp only [Bridged, mem_append, or_and_right, exists_or]

theorem bridged_cons : Bridged (e :: l) x ↔ (e.Covers x ∧ e.Covers (x + 1)) ∨ Bridged l x := by
  simp only [Bridged, mem_cons, exists_eq_or_imp]

theorem Joins.covers_iff {across : List (Extent β)} {c m : Extent β} (h : Joins across c m) :
    m.Covers x ↔ c.Covers x ∨ ∃ e ∈ across, e.Covers x := by
  have hnone : ¬ m.Covers x ↔ ∀ e ∈ across ++ [c], ¬ e.Covers x := by
    rw [← byteAt_eq_none, h x, first_eq_none]
  rw [← not_iff_not, hnone, not_or]
  simp only [mem_append, mem_singleton, not_exists, not_and]
  exact ⟨fun h => ⟨h c (.inr rfl), fun e he => h e (.inl he)⟩, fun h e he =>
    he.elim (h.2 e) fun heq => heq ▸ h.1⟩

section Join

variable {l before across after : List (Extent β)} {c m : Extent β}

/-- `m` begins where `c` or an extent it overlaps begins. -/
theorem Joins.addr_or (h : Joins across c m) (hm : m.addr < m.stop) :
    c.addr ≤ m.addr ∨ ∃ e ∈ across, e.addr ≤ m.addr :=
  (h.covers_iff.1 ⟨le_rfl, hm⟩).imp And.left fun ⟨e, he, hx⟩ => ⟨e, he, hx.1⟩

/-- `m` ends where `c` or an extent it overlaps ends. -/
theorem Joins.stop_or (h : Joins across c m) (hm : m.addr < m.stop) :
    m.stop ≤ c.stop ∨ ∃ e ∈ across, m.stop ≤ e.stop := by
  have hlast : m.Covers (m.stop - 1) := ⟨by omega, by omega⟩
  refine (h.covers_iff.1 hlast).imp (fun hx => ?_) fun ⟨e, he, hx⟩ => ⟨e, he, ?_⟩
  · have := hx.2
    omega
  · have := hx.2
    omega

theorem Joins.nonempty (h : Joins across c m) (hc : c.addr < c.stop) : m.addr < m.stop := by
  have := h.covers_iff.2 (.inl ⟨Nat.le_refl c.addr, hc⟩)
  exact Nat.lt_of_le_of_lt this.1 this.2

section

variable (hcut : Cut c.addr c.stop l before across after)

include hcut

/-- **The list stays without overlaps.** -/
theorem Cut.apart_join (h : Apart l)
    (hc : c.addr < c.stop) (hj : Joins across c m) : Apart (before ++ m :: after) := by
  obtain ⟨rfl, hb, ho, ha⟩ := hcut
  obtain ⟨hsb, hsoa, hcross⟩ := pairwise_append.1 h.sorted
  obtain ⟨-, hsa, hcross'⟩ := pairwise_append.1 hsoa
  have hm := hj.nonempty hc
  have hleft : ∀ e ∈ before, e.stop ≤ m.addr := by
    intro e he
    obtain hle | ⟨e', he', hle⟩ := hj.addr_or hm
    · exact Nat.le_trans (hb e he) hle
    · exact Nat.le_trans (hcross e he e' (mem_append_left _ he')) hle
  have hright : ∀ e ∈ after, m.stop ≤ e.addr := by
    intro e he
    obtain hle | ⟨e', he', hle⟩ := hj.stop_or hm
    · exact Nat.le_trans hle (ha e he)
    · exact Nat.le_trans hle (hcross' e' he' e he)
  refine ⟨pairwise_append.2 ⟨hsb, pairwise_cons.2 ⟨hright, hsa⟩, ?_⟩, ?_⟩
  · intro e he e' he'
    obtain rfl | he' := mem_cons.1 he'
    · exact hleft e he
    · exact hcross e he e' (mem_append_right _ he')
  · intro e he
    obtain he | he := mem_append.1 he
    · exact h.nonempty e (mem_append_left _ he)
    · obtain rfl | he := mem_cons.1 he
      · exact hm
      · exact h.nonempty e (mem_append_right _ (mem_append_right _ he))

/-- **The list has the bytes it had, then those of `c`.** -/
theorem Cut.first_join (hj : Joins across c m)
    (x : Nat) : first (before ++ m :: after) x = first (l ++ [c]) x := by
  obtain ⟨rfl, -, -, ha⟩ := hcut
  -- no extent behind the range has a byte of `c`
  have hswap : (c.byteAt x).or (first after x) = (first after x).or (c.byteAt x) := by
    by_cases hx : c.Covers x
    · have hnone : first after x = none := by
        refine first_eq_none.2 fun e he hex => ?_
        have h₁ := ha e he
        have h₂ := hx.2
        have h₃ := hex.1
        omega
      rw [hnone, or_none, none_or]
    · rw [byteAt_eq_none.2 hx, or_none, none_or]
  rw [first_append, first_cons, hj x, first_append, first_append, first_append, first_append,
    first_cons, first_nil, or_none, Option.or_assoc, hswap, Option.or_assoc, Option.or_assoc]

/-- **What is bridged stays so**, and `c` bridges its own addresses. -/
theorem Cut.bridged_join (hj : Joins across c m)
    (x : Nat) : Bridged (before ++ m :: after) x ↔ Bridged (l ++ [c]) x := by
  obtain ⟨rfl, -, ho, -⟩ := hcut
  have hm : m.Covers x ∧ m.Covers (x + 1) ↔ Bridged across x ∨ (c.Covers x ∧ c.Covers (x + 1)) := by
    rw [hj.covers_iff, hj.covers_iff]
    refine ⟨fun h => ?_, fun h => ?_⟩
    · -- two extents that meet at `x` and `x + 1` both overlap `c`, so `c` has both
      obtain ⟨h₁ | ⟨e, he, h₁⟩, h₂ | ⟨e', he', h₂⟩⟩ := h
      · exact .inr ⟨h₁, h₂⟩
      · by_cases hx : e'.Covers x
        · exact .inl ⟨e', he', hx, h₂⟩
        · have := ho e' he'
          unfold Covers at h₁ h₂ hx ⊢
          exact .inr ⟨h₁, by omega⟩
      · by_cases hx : e.Covers (x + 1)
        · exact .inl ⟨e, he, h₁, hx⟩
        · have := ho e he
          unfold Covers at h₁ h₂ hx ⊢
          exact .inr ⟨by omega, h₂⟩
      · by_cases hx : e'.Covers x
        · exact .inl ⟨e', he', hx, h₂⟩
        by_cases hx' : e.Covers (x + 1)
        · exact .inl ⟨e, he, h₁, hx'⟩
        · have h₃ := ho e he
          have h₄ := ho e' he'
          unfold Covers at h₁ h₂ hx hx' ⊢
          exact .inr (by omega)
    · obtain ⟨e, he, h₁, h₂⟩ | ⟨h₁, h₂⟩ := h
      · exact ⟨.inr ⟨e, he, h₁⟩, .inr ⟨e, he, h₂⟩⟩
      · exact ⟨.inl h₁, .inl h₂⟩
  have hnil : ¬ Bridged ([] : List (Extent β)) x := fun ⟨e, he, _⟩ => by cases he
  simp only [bridged_append, bridged_cons, hm, hnil]
  tauto

end

end Join

/-! ## 5. Chains of overlapping extents -/

/-- **Among `n` addresses in a row two neighbours are not in one extent.** -/
def Short (n : Nat) (l : List (Extent β)) : Prop :=
  ∀ a, ∃ x, a ≤ x ∧ x + 1 < a + n ∧ ¬ Bridged l x

/-- A list with a long extent is not short. -/
theorem Short.stop_lt {n : Nat} (h : Short n l) (he : e ∈ l) : e.stop < e.addr + n := by
  by_contra hlong
  obtain ⟨x, h₁, h₂, hx⟩ := h e.addr
  exact hx ⟨e, he, ⟨h₁, by omega⟩, ⟨by omega, by omega⟩⟩

theorem Short.mono {γ : Type} {n : Nat} {l' : List (Extent γ)}
    (h : Short n l) (hb : ∀ x, Bridged l' x → Bridged l x) : Short n l' := by
  intro a
  obtain ⟨x, h₁, h₂, hx⟩ := h a
  exact ⟨x, h₁, h₂, fun h => hx (hb x h)⟩

theorem Short.of_append {n : Nat} {l l' : List (Extent β)} (h : Short n (l ++ l')) : Short n l :=
  h.mono fun _ hb => bridged_append.2 (.inl hb)

/-- **A list without overlaps is short if all its extents are.** -/
theorem short_of_disjoint {n : Nat} (hn : 1 < n)
    (hdisj : ∀ e ∈ l, ∀ e' ∈ l, ∀ x, e.Covers x → e'.Covers x → e = e')
    (hlt : ∀ e ∈ l, e.stop < e.addr + n) : Short n l := by
  intro a
  by_contra hall
  have hall : ∀ x, a ≤ x → x + 1 < a + n → Bridged l x := by
    intro x h₁ h₂
    by_contra hx
    exact hall ⟨x, h₁, h₂, hx⟩
  obtain ⟨e, he, ha, -⟩ := hall a (Nat.le_refl a) (by omega)
  -- the extent at `a` has all the addresses
  have hcov : ∀ k, k + 1 ≤ n → e.Covers (a + k) := by
    intro k
    induction k with
    | zero => exact fun _ => ha
    | succ k ih =>
      intro hk
      have hek := ih (by omega)
      obtain ⟨e', he', h₁, h₂⟩ := hall (a + k) (by omega) (by omega)
      rw [hdisj e he e' he' _ hek h₁]
      exact h₂
  have := (hcov (n - 1) (by omega)).2
  have := hlt e he
  have := ha.1
  omega

end Extent

end Crete.Lib
