/-
  File:      Crete/Lib/Longest.lean
  Subject:   The longest of the sequences seen so far: what is no initial part of another.

  * `absorb` -- one more sequence: ignored if it is an initial part of a kept one, otherwise kept
    in place of its own initial parts.
  * **`mem_absorbAll`** -- what is kept, from the order of arrival alone.
  * `absorbAll_antichain`, `absorbAll_covers` -- no kept sequence is an initial part of another
    one, and everything seen is an initial part of a kept one.
-/
import Mathlib.Data.List.Induction
import Mathlib.Data.List.Nodup

namespace Crete.Lib

open List

section Longest

variable {τ α : Type} [DecidableEq α] (key : τ → List α)

/-- One more sequence. -/
def absorb (kept : List τ) (t : τ) : List τ :=
  if ∃ s ∈ kept, key t <+: key s then kept
  else kept.filter (fun s => ¬ key s <+: key t) ++ [t]

/-- All of them, in order of arrival. -/
def absorbAll (ts : List τ) : List τ := ts.foldl (absorb key) []

theorem absorbAll_snoc (ts : List τ) (t : τ) :
    absorbAll key (ts ++ [t]) = absorb key (absorbAll key ts) t := by
  rw [absorbAll, foldl_append]
  rfl

theorem absorb_covered {kept : List τ} {t : τ} (h : ∃ s ∈ kept, key t <+: key s) :
    absorb key kept t = kept :=
  if_pos h

theorem mem_absorb {kept : List τ} {t s : τ} (h : ¬ ∃ s ∈ kept, key t <+: key s) :
    s ∈ absorb key kept t ↔ s ∈ kept ∧ ¬ key s <+: key t ∨ s = t := by
  rw [absorb, if_neg h, mem_append, mem_filter, mem_singleton, decide_eq_true_iff]

/-- No kept sequence is an initial part of another. -/
theorem absorbAll_antichain (ts : List τ) : ∀ s ∈ absorbAll key ts, ∀ s' ∈ absorbAll key ts,
    key s <+: key s' → key s = key s' := by
  induction ts using reverseRecOn with
  | nil => exact forall_mem_nil _
  | append_singleton ts t ih =>
    rw [absorbAll_snoc]
    by_cases h : ∃ s ∈ absorbAll key ts, key t <+: key s
    · rw [absorb_covered key h]
      exact ih
    · intro s hs s' hs' hp
      rcases (mem_absorb key h).1 hs with ⟨hs, hn⟩ | rfl
      · rcases (mem_absorb key h).1 hs' with ⟨hs', -⟩ | rfl
        · exact ih s hs s' hs' hp
        · exact absurd hp hn
      · rcases (mem_absorb key h).1 hs' with ⟨hs', -⟩ | rfl
        · exact absurd ⟨s', hs', hp⟩ h
        · rfl

/-- Everything seen is an initial part of a kept sequence. -/
theorem absorbAll_covers (ts : List τ) : ∀ t ∈ ts, ∃ s ∈ absorbAll key ts, key t <+: key s := by
  induction ts using reverseRecOn with
  | nil => exact forall_mem_nil _
  | append_singleton ts t ih =>
    rw [absorbAll_snoc]
    intro x hx
    by_cases h : ∃ s ∈ absorbAll key ts, key t <+: key s
    · rw [absorb_covered key h]
      rcases mem_append.1 hx with hx | hx
      · exact ih x hx
      · rw [mem_singleton.1 hx]
        exact h
    · have ht : t ∈ absorb key (absorbAll key ts) t := (mem_absorb key h).2 (.inr rfl)
      rcases mem_append.1 hx with hx | hx
      · obtain ⟨s, hs, hp⟩ := ih x hx
        by_cases hn : key s <+: key t
        · exact ⟨t, ht, hp.trans hn⟩
        · exact ⟨s, (mem_absorb key h).2 (.inl ⟨hs, hn⟩), hp⟩
      · rw [mem_singleton.1 hx]
        exact ⟨t, ht, prefix_rfl⟩

theorem absorbAll_subset (ts : List τ) : ∀ s ∈ absorbAll key ts, s ∈ ts := by
  induction ts using reverseRecOn with
  | nil => exact forall_mem_nil _
  | append_singleton ts t ih =>
    rw [absorbAll_snoc]
    intro s hs
    by_cases h : ∃ s ∈ absorbAll key ts, key t <+: key s
    · rw [absorb_covered key h] at hs
      exact mem_append_left _ (ih s hs)
    · rcases (mem_absorb key h).1 hs with ⟨hs, -⟩ | rfl
      · exact mem_append_left _ (ih s hs)
      · exact mem_append_right _ (.head _)

/-- `s` arrived, is no initial part of an earlier one, and no later one extends it. -/
def Stands (ts : List τ) (s : τ) : Prop :=
  ∃ earlier later, ts = earlier ++ s :: later ∧ (∀ x ∈ earlier, ¬ key s <+: key x) ∧
    ∀ x ∈ later, key s <+: key x → key s = key x

omit [DecidableEq α] in
theorem stands_snoc {ts : List τ} {t s : τ} : Stands key (ts ++ [t]) s ↔
    Stands key ts s ∧ (key s <+: key t → key s = key t) ∨ s = t ∧ ∀ x ∈ ts, ¬ key t <+: key x := by
  constructor
  · intro ⟨earlier, later, e, he, hl⟩
    rcases eq_nil_or_concat' later with rfl | ⟨later, x, rfl⟩
    · obtain ⟨rfl, e'⟩ := append_inj' e rfl
      cases e'
      exact .inr ⟨rfl, he⟩
    · rw [← cons_append, ← append_assoc] at e
      obtain ⟨rfl, e'⟩ := append_inj' e rfl
      cases e'
      exact .inl ⟨⟨earlier, later, rfl, he, fun x hx => hl x (mem_append_left _ hx)⟩,
        hl t (mem_append_right _ (.head _))⟩
  · rintro (⟨⟨earlier, later, rfl, he, hl⟩, ht⟩ | ⟨rfl, he⟩)
    · refine ⟨earlier, later ++ [t], by rw [append_assoc, cons_append], he, ?_⟩
      intro x hx
      rcases mem_append.1 hx with hx | hx
      · exact hl x hx
      · rw [mem_singleton.1 hx]
        exact ht
    · exact ⟨ts, [], rfl, he, forall_mem_nil _⟩

/-- **What is kept.** -/
theorem mem_absorbAll (ts : List τ) : ∀ s, s ∈ absorbAll key ts ↔ Stands key ts s := by
  induction ts using reverseRecOn with
  | nil =>
    intro s
    refine ⟨fun h => absurd h not_mem_nil, fun ⟨earlier, later, e, _⟩ => ?_⟩
    cases earlier <;> cases e
  | append_singleton ts t ih =>
    intro s
    rw [absorbAll_snoc, stands_snoc, ← ih]
    by_cases h : ∃ s ∈ absorbAll key ts, key t <+: key s
    · rw [absorb_covered key h]
      obtain ⟨s₀, hs₀, hp₀⟩ := h
      constructor
      · intro hs
        refine .inl ⟨hs, fun hp => ?_⟩
        have e := absorbAll_antichain key ts s hs s₀ hs₀ (hp.trans hp₀)
        rw [← e] at hp₀
        exact hp.eq_of_length_le hp₀.length_le
      · rintro (⟨hs, -⟩ | ⟨rfl, hn⟩)
        · exact hs
        · exact absurd hp₀ (hn s₀ (absorbAll_subset key ts s₀ hs₀))
    · rw [mem_absorb key h]
      have hnew : ∀ x ∈ ts, ¬ key t <+: key x := by
        intro x hx hp
        obtain ⟨s₀, hs₀, hp₀⟩ := absorbAll_covers key ts x hx
        exact h ⟨s₀, hs₀, hp.trans hp₀⟩
      constructor
      · rintro (⟨hs, hn⟩ | rfl)
        · exact .inl ⟨hs, fun hp => absurd hp hn⟩
        · exact .inr ⟨rfl, hnew⟩
      · rintro (⟨hs, he⟩ | ⟨rfl, -⟩)
        · refine .inl ⟨hs, fun hp => ?_⟩
          exact h ⟨s, hs, [], by rw [he hp, append_nil]⟩
        · exact .inr rfl

end Longest

end Crete.Lib
