/-
  File:      Crete/Lib/Relational.lean
  Subject:   Two runs of state programs that may fail, compared along a common trace.

  A state keeps a trace of what was observed of its run, newest first. Two runs that end with one
  trace made the same observations, in the same order; so at every observation on the way the two
  runs agree, and a relation between their states may use that.

  * `Coupled obs T P m m' Q` -- the triple: from states related by `P`, if both programs return and
    their traces are initial parts of the history `T`, the results and states are related by `Q`.
  * `Keeps`, `Coupled.frame` -- facts about one run, carried through the triple.
-/
import Mathlib.Data.List.Infix
import Crete.Lib.Except

namespace Crete.Lib

open List

/-- A program with a state that may fail. -/
abbrev Prog (σ ε α : Type) := StateT σ (Except ε) α

variable {σ ε ω α β : Type}

theorem prog_bind_eq_ok {m : Prog σ ε α} {f : α → Prog σ ε β} {s : σ} {r : β × σ} :
    (m >>= f) s = .ok r ↔ ∃ a t, m s = .ok (a, t) ∧ f a t = .ok r := by
  constructor
  · intro h
    obtain ⟨⟨a, t⟩, hm, hf⟩ := bind_eq_ok.1 h
    exact ⟨a, t, hm, hf⟩
  · intro ⟨a, t, hm, hf⟩
    exact bind_eq_ok.2 ⟨(a, t), hm, hf⟩

/-! ## 1. The triple -/

/-- The trace of a run only grows. -/
def Grows (obs : σ → List ω) (m : Prog σ ε α) : Prop :=
  ∀ s a t, m s = .ok (a, t) → obs s <:+ obs t

/-- **Two programs along the history `T`.** -/
structure Coupled (obs : σ → List ω) (T : List ω) (P : σ → σ → Prop) (m m' : Prog σ ε α)
    (Q : α → α → σ → σ → Prop) : Prop where
  grows : Grows obs m
  grows' : Grows obs m'
  post : ∀ s s', obs s = obs s' → P s s' → ∀ a t a' t', m s = .ok (a, t) → m' s' = .ok (a', t') →
    obs t <:+ T → obs t' <:+ T → obs t = obs t' ∧ Q a a' t t'

section Rules

variable {obs : σ → List ω} {T : List ω} {P : σ → σ → Prop}

variable {Q : α → α → σ → σ → Prop} {m m' : Prog σ ε α}

theorem Grows.bind {m : Prog σ ε α} {f : α → Prog σ ε β} (hm : Grows obs m)
    (hf : ∀ a, Grows obs (f a)) : Grows obs (m >>= f) := by
  intro s b u h
  obtain ⟨a, t, h₁, h₂⟩ := prog_bind_eq_ok.1 h
  exact (hm s a t h₁).trans (hf a t b u h₂)

/-- **One after the other.** -/
theorem Coupled.bind {f f' : α → Prog σ ε β} {R : β → β → σ → σ → Prop} (h : Coupled obs T P m m' Q)
    (k : ∀ a a', Coupled obs T (Q a a') (f a) (f' a') R) :
    Coupled obs T P (m >>= f) (m' >>= f') R where
  grows := h.grows.bind fun a => (k a a).grows
  grows' := h.grows'.bind fun a => (k a a).grows'
  post := by
    intro s s' ho hp b u b' u' hm hm' hT hT'
    obtain ⟨a, t, h₁, h₂⟩ := prog_bind_eq_ok.1 hm
    obtain ⟨a', t', h₁', h₂'⟩ := prog_bind_eq_ok.1 hm'
    have hmid := ((k a a').grows t b u h₂).trans hT
    have hmid' := ((k a a').grows' t' b' u' h₂').trans hT'
    obtain ⟨ho', hq⟩ := h.post s s' ho hp a t a' t' h₁ h₁' hmid hmid'
    exact (k a a').post t t' ho' hq b u b' u' h₂ h₂' hT hT'

/-- A first program with equal results in both runs. -/
theorem Coupled.bind_eq {f f' : α → Prog σ ε β} {Q : α → σ → σ → Prop}
    {R : β → β → σ → σ → Prop} (h : Coupled obs T P m m' fun a a' s s' => a = a' ∧ Q a s s')
    (k : ∀ a, Coupled obs T (Q a) (f a) (f' a) R) : Coupled obs T P (m >>= f) (m' >>= f') R := by
  refine h.bind fun a a' => ⟨(k a).grows, (k a').grows', ?_⟩
  intro s s' ho ⟨e, hq⟩
  subst e
  exact (k a).post s s' ho hq

theorem Coupled.conseq {P' : σ → σ → Prop} {Q Q' : α → α → σ → σ → Prop}
    (h : Coupled obs T P m m' Q) (pre : ∀ s s', P' s s' → P s s')
    (post : ∀ a a' s s', Q a a' s s' → Q' a a' s s') : Coupled obs T P' m m' Q' where
  grows := h.grows
  grows' := h.grows'
  post := by
    intro s s' ho hp a t a' t' hm hm' hT hT'
    obtain ⟨ho', hq⟩ := h.post s s' ho (pre s s' hp) a t a' t' hm hm' hT hT'
    exact ⟨ho', post a a' t t' hq⟩

/-! ## 2. Where it starts -/

/-- A change of the state that observes nothing. -/
theorem coupled_modifyGet {f f' : σ → α × σ}
    (hf : ∀ s, obs (f s).2 = obs s) (hf' : ∀ s, obs (f' s).2 = obs s)
    (h : ∀ s s', P s s' → Q (f s).1 (f' s').1 (f s).2 (f' s').2) :
    Coupled obs T P (modifyGet f : Prog σ ε α) (modifyGet f') Q := by
  refine ⟨fun s b t e => ?_, fun s b t e => ?_, fun s s' ho hp b t b' t' e e' _ _ => ?_⟩
  · have ht : f s = (b, t) := Except.ok.inj e
    rw [← hf s, ht]
  · have ht : f' s = (b, t) := Except.ok.inj e
    rw [← hf' s, ht]
  · have ht : f s = (b, t) := Except.ok.inj e
    have ht' : f' s' = (b', t') := Except.ok.inj e'
    have ho' := (hf s).trans (ho.trans (hf' s').symm)
    have hq := h s s' hp
    rw [ht, ht'] at ho' hq
    exact ⟨ho', hq⟩

/-- **A change of the state that observes something**: both runs observe the same. -/
theorem coupled_observe {f f' : σ → α × σ} {x x' : σ → ω}
    (hf : ∀ s, obs (f s).2 = x s :: obs s) (hf' : ∀ s, obs (f' s).2 = x' s :: obs s)
    (h : ∀ s s', P s s' → x s = x' s' → x s ∈ T → Q (f s).1 (f' s').1 (f s).2 (f' s').2) :
    Coupled obs T P (modifyGet f : Prog σ ε α) (modifyGet f') Q := by
  refine ⟨fun s b t e => ?_, fun s b t e => ?_, fun s s' ho hp b t b' t' e e' hT hT' => ?_⟩
  · have ht : f s = (b, t) := Except.ok.inj e
    have ho := hf s
    rw [ht] at ho
    exact ⟨[x s], ho.symm⟩
  · have ht : f' s = (b, t) := Except.ok.inj e
    have ho := hf' s
    rw [ht] at ho
    exact ⟨[x' s], ho.symm⟩
  · have ht : f s = (b, t) := Except.ok.inj e
    have ht' : f' s' = (b', t') := Except.ok.inj e'
    have hobs := hf s
    have hobs' := hf' s'
    rw [ht] at hobs
    rw [ht'] at hobs'
    have hlen : (obs t).length = (obs t').length := by
      rw [hobs, hobs', length_cons, length_cons, ho]
    -- two ends of one history with the same length are one
    have heq : obs t = obs t' :=
      (suffix_of_suffix_length_le hT hT' hlen.le).eq_of_length hlen
    have hx : x s = x' s' := by
      rw [hobs, hobs'] at heq
      exact (List.cons.inj heq).1
    have hq := h s s' hp hx (hT.subset (by rw [hobs]; exact (.head _)))
    rw [ht, ht'] at hq
    exact ⟨heq, hq⟩

theorem coupled_pure {a a' : α} (h : ∀ s s', P s s' → Q a a' s s') :
    Coupled obs T P (pure a : Prog σ ε α) (pure a') Q := by
  show Coupled obs T P (modifyGet fun s => (a, s)) (modifyGet fun s => (a', s)) Q
  exact coupled_modifyGet (fun _ => rfl) (fun _ => rfl) h

theorem grows_pure {a : α} : Grows obs (pure a : Prog σ ε α) := by
  intro s b t h
  cases h
  exact suffix_rfl

theorem grows_throw {e : ε} : Grows obs (throw e : Prog σ ε α) := fun _ _ _ h => nomatch h

theorem coupled_throw {e e' : ε} : Coupled obs T P (throw e : Prog σ ε α) (throw e') Q :=
  ⟨grows_throw, grows_throw, fun _ _ _ _ _ _ _ _ h => nomatch h⟩

/-- A computation without state. -/
theorem coupled_lift {x x' : Except ε α}
    (h : ∀ s s' a a', P s s' → x = .ok a → x' = .ok a' → Q a a' s s') :
    Coupled obs T P (liftM x : Prog σ ε α) (liftM x') Q := by
  cases x with
  | error e =>
    cases x' with
    | error e' => exact coupled_throw
    | ok a' => exact ⟨grows_throw, grows_pure, fun _ _ _ _ _ _ _ _ h => nomatch h⟩
  | ok a =>
    cases x' with
    | error e' => exact ⟨grows_pure, grows_throw, fun _ _ _ _ _ _ _ _ _ h => nomatch h⟩
    | ok a' => exact coupled_pure fun s s' hp => h s s' a a' hp rfl rfl

/-- **A loop whose body keeps a relation.** -/
theorem Coupled.forM {I : σ → σ → Prop} {f : α → Prog σ ε PUnit} (xs : List α)
    (h : ∀ x ∈ xs, Coupled obs T I (f x) (f x) fun _ _ => I) :
    Coupled obs T I (xs.forM f) (xs.forM f) fun _ _ => I := by
  induction xs with
  | nil => exact coupled_pure fun _ _ hI => hI
  | cons x xs ih =>
    refine (h x (.head _)).bind fun _ _ => ?_
    exact ih (forall_mem_cons.1 h).2

/-! ## 3. Framing -/

/-- What held before holds after. -/
def Keeps (F : σ → Prop) (m : Prog σ ε α) : Prop := ∀ s a t, m s = .ok (a, t) → F s → F t

theorem Keeps.bind {F : σ → Prop} {m : Prog σ ε α} {f : α → Prog σ ε β} (hm : Keeps F m)
    (hf : ∀ a, Keeps F (f a)) : Keeps F (m >>= f) := by
  intro s b u h hF
  obtain ⟨a, t, h₁, h₂⟩ := prog_bind_eq_ok.1 h
  exact hf a t b u h₂ (hm s a t h₁ hF)

theorem keeps_modifyGet {F : σ → Prop} {f : σ → α × σ} (h : ∀ s, F s → F (f s).2) :
    Keeps F (modifyGet f : Prog σ ε α) := by
  intro s a t e hF
  have ht : f s = (a, t) := Except.ok.inj e
  have hF' := h s hF
  rw [ht] at hF'
  exact hF'

theorem keeps_lift {F : σ → Prop} {x : Except ε α} : Keeps F (liftM x : Prog σ ε α) := by
  intro s a t e hF
  cases x with
  | error e' => cases e
  | ok b =>
    cases e
    exact hF

/-- **What each run keeps on its own can be carried along.** -/
theorem Coupled.frame {F F' : σ → Prop}
    (h : Coupled obs T P m m' Q) (hF : Keeps F m) (hF' : Keeps F' m') :
    Coupled obs T (fun s s' => P s s' ∧ F s ∧ F' s') m m'
      (fun a a' t t' => Q a a' t t' ∧ F t ∧ F' t') where
  grows := h.grows
  grows' := h.grows'
  post := by
    intro s s' ho ⟨hp, hf, hf'⟩ a t a' t' hm hm' hT hT'
    obtain ⟨ho', hq⟩ := h.post s s' ho hp a t a' t' hm hm' hT hT'
    exact ⟨ho', hq, hF s a t hm hf, hF' s' a' t' hm' hf'⟩

end Rules

end Crete.Lib
