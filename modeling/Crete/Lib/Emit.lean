/-
  File:      Crete/Lib/Emit.lean
  Subject:   Computations that emit items and may stop: what was emitted before a stop stays
             emitted.

  * `Emit ι ε α` -- the emitted items and how the computation ended, with its `Monad`.
  * `emitted`, `Realises` -- what a traversal that may stop early emits, and that a computation is
    such a traversal of some items; `Realises.bind` puts two of them in sequence.
  * `Matches`, `emitted_eq_flatMap_iff` -- such a traversal held against one that does not stop.
-/
import Mathlib.Data.List.Basic

namespace Crete.Lib

open List

/-- What a computation emitted, and how it ended. -/
structure Emit (ι ε α : Type) where
  out : List ι
  res : Except ε α

namespace Emit

variable {ι ε α β σ : Type}

instance : Monad (Emit ι ε) where
  pure a := ⟨[], .ok a⟩
  bind x f := match x.res with
    | .ok a => ⟨x.out ++ (f a).out, (f a).res⟩
    | .error e => ⟨x.out, .error e⟩

/-- Emit one item. -/
def emit (i : ι) : Emit ι ε Unit := ⟨[i], .ok ()⟩

/-- Stop with an error. -/
def stop (e : ε) : Emit ι ε α := ⟨[], .error e⟩

/-- Go on if `c` holds, stop with `e` if not. -/
def require (c : Prop) [Decidable c] (e : ε) : Emit ι ε Unit := if c then pure () else stop e

/-- The loop over a list: threads the state, stops at the first error. -/
def forEach (f : σ → α → Emit ι ε σ) : σ → List α → Emit ι ε σ
  | s, [] => pure s
  | s, x :: xs => do
      let s ← f s x
      forEach f s xs

@[simp] theorem ok_bind (o : List ι) (a : α) (f : α → Emit ι ε β) :
    ((⟨o, .ok a⟩ : Emit ι ε α) >>= f) = ⟨o ++ (f a).out, (f a).res⟩ := rfl

@[simp] theorem error_bind (o : List ι) (e : ε) (f : α → Emit ι ε β) :
    ((⟨o, .error e⟩ : Emit ι ε α) >>= f) = ⟨o, .error e⟩ := rfl

theorem id_map_eq (x : Emit ι ε α) : id <$> x = x := by
  obtain ⟨o, _ | a⟩ := x
  · rfl
  · show Emit.mk (o ++ []) (.ok a) = Emit.mk o (.ok a)
    rw [append_nil]

theorem bind_assoc_eq {γ : Type} (x : Emit ι ε α) (f : α → Emit ι ε β) (g : β → Emit ι ε γ) :
    (x >>= f >>= g) = (x >>= fun a => f a >>= g) := by
  obtain ⟨o, _ | a⟩ := x
  · rfl
  · rw [ok_bind, ok_bind]
    obtain ⟨o', _ | b⟩ := f a
    · rfl
    · show Emit.mk (o ++ o' ++ (g b).out) (g b).res = Emit.mk (o ++ (o' ++ (g b).out)) (g b).res
      rw [append_assoc]

instance : LawfulMonad (Emit ι ε) :=
  LawfulMonad.mk' _ id_map_eq (fun _ _ => rfl) bind_assoc_eq

theorem require_pos {c : Prop} [Decidable c] (h : c) (e : ε) (f : Unit → Emit ι ε β) :
    (require c e >>= f) = f () := by
  rw [require, if_pos h, pure_bind]

theorem require_neg {c : Prop} [Decidable c] (h : ¬ c) (e : ε) (f : Unit → Emit ι ε β) :
    (require c e >>= f) = stop e := by
  rw [require, if_neg h]
  rfl

@[simp] theorem stop_bind (e : ε) (f : α → Emit ι ε β) : (stop e >>= f) = stop e := rfl

end Emit

/-! ## A traversal that stops, against one that does not -/

section Against

variable {α β : Type} (host guest : α → List β) (stops : α → Prop) [DecidablePred stops]

/-- What the stopping traversal emits: `guest x` for each item, up to and with the first item
    that stops it. -/
def emitted : List α → List β
  | [] => []
  | x :: xs => guest x ++ if stops x then [] else emitted xs

/-- The two traversals agree item by item up to the first stop, and from there on the full one
    has nothing to emit. -/
def Matches : List α → Prop
  | [] => True
  | x :: xs => if stops x then ∀ y ∈ x :: xs, host y = [] else guest x = host x ∧ Matches xs

variable {host guest stops}

theorem emitted_append : ∀ xs ys : List α, emitted guest stops (xs ++ ys) =
    emitted guest stops xs ++ if ∃ x ∈ xs, stops x then [] else emitted guest stops ys
  | [], ys => by simp [emitted]
  | x :: xs, ys => by
    rw [cons_append, emitted, emitted, emitted_append xs ys]
    by_cases hs : stops x
    · rw [if_pos hs, if_pos hs, if_pos ⟨x, .head _, hs⟩, append_nil, append_nil]
    · simp only [if_neg hs, mem_cons, exists_eq_or_imp]
      simp only [hs, false_or, append_assoc]

/-- `m` runs through the items `xs`: it emits what they emit up to the first that stops, and ends
    with an error exactly if one stops it. -/
structure Realises (guest : α → List β) (stops : α → Prop) [DecidablePred stops] {ε γ : Type}
    (m : Emit β ε γ) (xs : List α) : Prop where
  out : m.out = emitted guest stops xs
  stopped : (∃ x ∈ xs, stops x) ↔ ∃ e, m.res = .error e

section Realises

variable {ε γ δ : Type} {m : Emit β ε γ} {xs ys : List α}

theorem realises_pure (c : γ) : Realises guest stops (pure c : Emit β ε γ) [] where
  out := rfl
  stopped := by simp [pure]

/-- What follows adds its emissions if nothing has stopped before. -/
theorem Realises.bind_out (h : Realises guest stops m xs) {f : γ → Emit β ε δ}
    (hf : ∀ c, m.res = .ok c → (f c).out = emitted guest stops ys) :
    (m >>= f).out = emitted guest stops (xs ++ ys) := by
  obtain ⟨o, e | c⟩ := m
  · rw [emitted_append, if_pos (h.stopped.2 ⟨e, rfl⟩), append_nil, ← h.out]
    rfl
  · have hs : ¬ ∃ x ∈ xs, stops x := fun hx => by
      obtain ⟨e, he⟩ := h.stopped.1 hx
      cases he
    rw [emitted_append, if_neg hs, ← h.out, ← hf c rfl]
    rfl

/-- **Sequencing**: one run after the other goes through the one's items, then the other's. -/
theorem Realises.bind (h : Realises guest stops m xs) {f : γ → Emit β ε δ}
    (hf : ∀ c, m.res = .ok c → Realises guest stops (f c) ys) :
    Realises guest stops (m >>= f) (xs ++ ys) where
  out := h.bind_out fun c hc => (hf c hc).out
  stopped := by
    simp only [mem_append, or_and_right, exists_or]
    obtain ⟨o, e | c⟩ := m
    · exact ⟨fun _ => ⟨e, rfl⟩, fun _ => .inl (h.stopped.2 ⟨e, rfl⟩)⟩
    · have hs : ¬ ∃ x ∈ xs, stops x := fun hx => by
        obtain ⟨e, he⟩ := h.stopped.1 hx
        cases he
      have hc := (hf c rfl).stopped
      exact ⟨fun hx => hc.1 (hx.resolve_left hs), fun he => .inr (hc.2 he)⟩

/-- A step that emits the item's calls and ends as the item says runs through that item. -/
theorem realises_singleton {x : α} (ho : m.out = guest x)
    (hr : stops x ↔ ∃ e, m.res = .error e) : Realises guest stops m [x] where
  out := by
    rw [ho, emitted]
    split
    · rw [append_nil]
    · rw [emitted, append_nil]
  stopped := by simpa using hr

end Realises

/-- **The stopping traversal emits everything exactly when the two match.** Each item emits no
    more in the stopping traversal; just as much where it does not stop; and as much where it
    stops only if there was nothing to emit. -/
theorem emitted_eq_flatMap_iff (hle : ∀ x, (guest x).length ≤ (host x).length)
    (hgo : ∀ x, ¬ stops x → (guest x).length = (host x).length)
    (hstop : ∀ x, stops x → (guest x).length = (host x).length → host x = []) :
    ∀ xs : List α, emitted guest stops xs = xs.flatMap host ↔ Matches host guest stops xs
  | [] => by simp [emitted, Matches]
  | x :: xs => by
    rw [emitted, Matches, flatMap_cons]
    by_cases hs : stops x
    · rw [if_pos hs, if_pos hs, append_nil]
      constructor
      · intro h
        have hl := congrArg List.length h
        rw [length_append] at hl
        have hx := hle x
        have hnil : host x = [] := hstop x hs (by omega)
        have hrest : xs.flatMap host = [] := by
          rw [← length_eq_zero_iff]
          omega
        intro y hy
        rcases mem_cons.1 hy with rfl | hy
        · exact hnil
        · exact flatMap_eq_nil_iff.1 hrest y hy
      · intro h
        have hx := hle x
        have hnil := h x (.head _)
        rw [hnil] at hx
        have hrest : xs.flatMap host = [] :=
          flatMap_eq_nil_iff.2 (forall_mem_cons.1 h).2
        rw [hnil, hrest, length_eq_zero_iff.1 (Nat.le_zero.1 hx)]
        rfl
    · rw [if_neg hs, if_neg hs, ← emitted_eq_flatMap_iff hle hgo hstop xs]
      constructor
      · intro h
        exact append_inj h (hgo x hs)
      · rintro ⟨h1, h2⟩
        rw [h1, h2]

end Against

end Crete.Lib
