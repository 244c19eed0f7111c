/-
  File:      Crete/Lib/Path.lean
  Subject:   Paths as byte strings, after boost's `path`, and the places they name.

  * `enter`, `resolve` -- where a path leads from a directory, name by name. A place is the list
    of names on the way from the root; no name is a link.
  * `resolve_join` -- a joined path leads on from where its first part leads.
  * `removeLast` -- a text with the last occurrence of another taken out; `weight` gets smaller
    by it.
-/
import Crete.Lib.Bytes
import Mathlib.Algebra.BigOperators.Group.List.Basic
import Mathlib.Data.List.DropRight

namespace Crete.Lib

open List

/-! ## 1. Paths -/

/-- A path as it is written. -/
abbrev Path := Bytes

/-- The separator. -/
def slash : UInt8 := 47

/-- `p / q`: a separator in between, unless one is there. -/
def join (p q : Path) : Path :=
  if q = [] then p
  else if p = [] ∨ p.getLast? = some slash ∨ q.head? = some slash then p ++ q
  else p ++ slash :: q

/-- What stands behind the last separator. -/
def behindSlash (p : Path) : Path := p.rtakeWhile fun b => b ≠ slash

/-- A path up to its last separator. -/
def upToSlash (p : Path) : Path := p.rdropWhile fun b => b ≠ slash

/-- `filename()`: a path that ends in a separator has the name `.`. -/
def filename (p : Path) : Path := if p.getLast? = some slash then [46] else behindSlash p

/-- `parent_path()`: without the separators at its end, unless it is the root. -/
def parentPath (p : Path) : Path :=
  let dir := (upToSlash p).rdropWhile fun b => b = slash
  if dir = [] ∧ upToSlash p ≠ [] then [slash] else dir

/-! ## 2. Places -/

/-- A place: the names on the way from the root. -/
abbrev Place := List Bytes

/-- One name, from a directory. -/
def enter (dir : Place) (name : Bytes) : Place :=
  if name = [] ∨ name = [46] then dir else if name = [46, 46] then dir.dropLast else dir ++ [name]

/-- The names of a path one after another; `name` has been read of the first. -/
def follow : Place → Bytes → Path → Place
  | dir, name, [] => enter dir name
  | dir, name, b :: p =>
    if b = slash then follow (enter dir name) [] p else follow dir (name ++ [b]) p

/-- Where a path leads from a directory. -/
def resolve (dir : Place) (p : Path) : Place := follow dir [] p

@[simp] theorem resolve_nil (dir : Place) : resolve dir [] = dir := rfl

theorem follow_append_slash (q : Path) : ∀ (p : Path) (dir : Place) (name : Bytes),
    follow dir name (p ++ slash :: q) = resolve (follow dir name p) q
  | [], dir, name => by
    rw [nil_append]
    exact if_pos rfl
  | b :: p, dir, name => by
    rw [cons_append, follow, follow]
    by_cases hb : b = slash
    · rw [if_pos hb, if_pos hb, follow_append_slash q p]
    · rw [if_neg hb, if_neg hb, follow_append_slash q p]

/-- A separator ends a name. -/
theorem resolve_append_slash (dir : Place) (p q : Path) :
    resolve dir (p ++ slash :: q) = resolve (resolve dir p) q :=
  follow_append_slash q p dir []

theorem follow_name : ∀ (p : Path) (dir : Place) (name : Bytes), slash ∉ p →
    follow dir name p = enter dir (name ++ p)
  | [], dir, name, _ => by rw [follow, append_nil]
  | b :: p, dir, name, h => by
    rw [mem_cons, not_or] at h
    rw [follow, if_neg fun e => h.1 e.symm, follow_name p dir _ h.2, append_assoc]
    rfl

/-- A path of one name. -/
theorem resolve_name {p : Path} (h : slash ∉ p) (dir : Place) : resolve dir p = enter dir p :=
  follow_name p dir [] h

theorem resolve_concat_slash (dir : Place) (p : Path) :
    resolve dir (p ++ [slash]) = resolve dir p := by
  rw [resolve_append_slash, resolve_nil]

/-- **A joined path leads on from where its first part leads.** -/
theorem resolve_join (dir : Place) (p q : Path) :
    resolve dir (join p q) = resolve (resolve dir p) q := by
  unfold join
  split
  · next hq => rw [hq, resolve_nil]
  · split
    · next h =>
        rcases h with rfl | h | h
        · rw [nil_append, resolve_nil]
        · obtain ⟨p', rfl⟩ := getLast?_eq_some_iff.1 h
          rw [append_assoc, singleton_append, resolve_append_slash, resolve_concat_slash]
        · obtain ⟨q', rfl⟩ := head?_eq_some_iff.1 h
          rw [resolve_append_slash]
          exact (resolve_append_slash (resolve dir p) [] q').symm
    · exact resolve_append_slash dir p q

/-! ## 3. The last name of a path -/

theorem upToSlash_append_behindSlash (p : Path) : upToSlash p ++ behindSlash p = p :=
  rdropWhile_append_rtakeWhile

theorem slash_not_mem_behindSlash (p : Path) : slash ∉ behindSlash p := by
  intro h
  simpa using mem_rtakeWhile_imp h

theorem upToSlash_cases (p : Path) : upToSlash p = [] ∨ ∃ d, upToSlash p = d ++ [slash] := by
  rcases eq_nil_or_concat (upToSlash p) with h | ⟨d, b, h⟩
  · exact .inl h
  · have hne : upToSlash p ≠ [] := by simp [h]
    have hlast := rdropWhile_last_not (fun b => decide (b ≠ slash)) p hne
    have hb : b = slash := by
      have hget : (upToSlash p).getLast hne = b := by simp [h]
      rw [show (List.rdropWhile _ p).getLast hne = b from hget] at hlast
      simpa using hlast
    exact .inr ⟨d, by rw [h, hb, concat_eq_append]⟩

theorem resolve_upToSlash_append (dir : Place) (p : Path) {name : Path} (h : slash ∉ name) :
    resolve dir (upToSlash p ++ name) = enter (resolve dir (upToSlash p)) name := by
  rcases upToSlash_cases p with e | ⟨d, e⟩
  · rw [e, nil_append, resolve_nil, resolve_name h]
  · rw [e, append_assoc, singleton_append, resolve_append_slash, resolve_concat_slash,
      resolve_name h]

/-- A path leads to its last name, in the directory that it leads to without it. -/
theorem resolve_eq_enter (dir : Place) (p : Path) :
    resolve dir p = enter (resolve dir (upToSlash p)) (behindSlash p) := by
  have h := resolve_upToSlash_append dir p (slash_not_mem_behindSlash p)
  rw [upToSlash_append_behindSlash] at h
  exact h

theorem resolve_rdropWhile_slash (dir : Place) (p : Path) :
    resolve dir (p.rdropWhile fun b => b = slash) = resolve dir p := by
  induction p using reverseRecOn with
  | nil => rfl
  | append_singleton p b ih =>
    by_cases hb : b = slash
    · rw [rdropWhile_concat_pos _ _ _ (by simpa using hb), hb, resolve_concat_slash, ih]
    · rw [rdropWhile_concat_neg _ _ _ (by simpa using hb)]

theorem resolve_parentPath (p : Path) : resolve [] (parentPath p) = resolve [] (upToSlash p) := by
  have hdir := resolve_rdropWhile_slash [] (upToSlash p)
  simp only [parentPath]
  split
  · next h =>
      rw [← hdir, h.1]
      rfl
  · exact hdir

/-- **A path with its last name exchanged.** -/
theorem resolve_parent_join (p : Path) {name : Path} (h : slash ∉ name) :
    resolve [] (join (parentPath p) name) = enter (resolve [] (upToSlash p)) name := by
  rw [resolve_join, resolve_parentPath, resolve_name h]

/-- A text behind a path goes to its last name. -/
theorem behindSlash_append {p s : Path} (h : slash ∉ s) :
    behindSlash (p ++ s) = behindSlash p ++ s ∧ upToSlash (p ++ s) = upToSlash p := by
  induction s using reverseRecOn with
  | nil => simp
  | append_singleton s b ih =>
    rw [mem_append, not_or] at h
    obtain ⟨ih₁, ih₂⟩ := ih h.1
    have hb : decide (b ≠ slash) = true := by
      simpa using fun e => h.2 (mem_singleton.2 (Eq.symm e))
    constructor
    · rw [← append_assoc, behindSlash,
        rtakeWhile_concat_pos (fun b => decide (b ≠ slash)) _ b hb, ← behindSlash, ih₁,
        append_assoc]
    · rw [← append_assoc, upToSlash,
        rdropWhile_concat_pos (fun b => decide (b ≠ slash)) _ b hb, ← upToSlash, ih₂]

theorem join_append {p q : Path} (h : q ≠ []) (s : Path) : join p (q ++ s) = join p q ++ s := by
  have hne : q ++ s ≠ [] := append_ne_nil_of_left_ne_nil h s
  have hhead : (q ++ s).head? = q.head? := head?_append_of_ne_nil q h
  rw [join, join, if_neg hne, if_neg h, hhead]
  by_cases hc : p = [] ∨ p.getLast? = some slash ∨ q.head? = some slash
  · rw [if_pos hc, if_pos hc, append_assoc]
  · rw [if_neg hc, if_neg hc, append_assoc, cons_append]

/-! ## 4. Taking a text out -/

/-- A text with the last occurrence of `pat` taken out. -/
def removeLast (pat : Bytes) : Bytes → Bytes
  | [] => []
  | b :: s =>
    if pat <:+: s then b :: removeLast pat s
    else if pat <+: b :: s then (b :: s).drop pat.length
    else b :: s

section RemoveLast

variable {pat : Bytes}

theorem removeLast_of_not_infix : ∀ {s : Bytes}, ¬ pat <:+: s → removeLast pat s = s
  | [], _ => rfl
  | b :: s, h => by
    rw [removeLast, if_neg fun hi => h (hi.trans (suffix_cons b s).isInfix),
      if_neg fun hp => h hp.isInfix]

theorem length_removeLast : ∀ {s : Bytes}, pat <:+: s →
    (removeLast pat s).length + pat.length = s.length
  | [], h => by
    rw [infix_nil.1 h]
    rfl
  | b :: s, h => by
    rw [removeLast]
    split
    · next hi =>
        have ih := length_removeLast hi
        rw [length_cons, length_cons]
        omega
    · next hi =>
        have hp : pat <+: b :: s := (infix_cons_iff.1 h).resolve_right hi
        have hle := hp.length_le
        rw [if_pos hp, length_drop]
        omega

/-- At the end of a text it is the last occurrence. -/
theorem removeLast_append (hne : pat ≠ []) : ∀ s : Bytes, removeLast pat (s ++ pat) = s
  | [] => by
    obtain ⟨b, rest, rfl⟩ := exists_cons_of_ne_nil hne
    have hshort : ¬ b :: rest <:+: rest := fun h => by
      have := h.length_le
      rw [length_cons] at this
      omega
    rw [nil_append, removeLast, if_neg hshort, if_pos prefix_rfl, drop_length]
  | b :: s => by
    rw [cons_append, removeLast, if_pos (suffix_append s pat).isInfix, removeLast_append hne s]

theorem removeLast_subset : ∀ {s : Bytes} {b : UInt8}, b ∈ removeLast pat s → b ∈ s
  | [], _, h => h
  | c :: s, b, h => by
    rw [removeLast] at h
    split at h
    · rcases mem_cons.1 h with rfl | h
      · exact (.head _)
      · exact .tail _ (removeLast_subset h)
    · split at h
      · exact mem_of_mem_drop h
      · exact h

end RemoveLast

/-! ## 5. The weight of a place -/

/-- The bytes of the names of a place, each with a separator. -/
def weight (i : Place) : Nat := (i.map fun name => name.length + 1).sum

theorem weight_concat (dir : Place) (name : Bytes) :
    weight (dir ++ [name]) = weight dir + (name.length + 1) := by
  simp [weight]

theorem weight_dropLast (dir : Place) : weight dir.dropLast ≤ weight dir := by
  rcases eq_nil_or_concat dir with rfl | ⟨d, name, rfl⟩
  · exact le_rfl
  · rw [concat_eq_append, dropLast_concat, weight_concat]
    omega

theorem weight_enter_le (dir : Place) (name : Bytes) :
    weight (enter dir name) ≤ weight dir + (name.length + 1) := by
  unfold enter
  split
  · omega
  · split
    · have := weight_dropLast dir
      omega
    · exact (weight_concat dir name).le

theorem weight_enter {name : Bytes} (h : 2 < name.length) (dir : Place) :
    weight (enter dir name) = weight dir + (name.length + 1) := by
  have h₁ : ¬ (name = [] ∨ name = [46]) := by
    rintro (rfl | rfl) <;> simp at h
  have h₂ : ¬ name = [46, 46] := by
    rintro rfl
    simp at h
  rw [enter, if_neg h₁, if_neg h₂, weight_concat]

/-- **A name with a text taken out of it leads to a place of less weight.** -/
theorem weight_enter_removeLast {pat name : Bytes} (hpat : 2 < pat.length)
    (h : pat <:+: name) (dir : Place) :
    weight (enter dir (removeLast pat name)) < weight (enter dir name) := by
  have hlen := length_removeLast h
  have hle := weight_enter_le dir (removeLast pat name)
  rw [weight_enter (Nat.lt_of_lt_of_le hpat h.length_le)]
  omega

end Crete.Lib
