/-
  File:      Crete/Lib/Except.lean
  Subject:   Guards and sequencing in `Except`, the shape of code that throws.

  * `bind_eq_ok`, `map_eq_ok`, `ensure_bind_eq_ok` -- a computation returned: so did its parts,
    and its guards held.
  * `mapM_forall₂`, `mapM_mem`, `mapM_defined` -- what a traversal collected came from its items,
    and all of them returned; `mapM_ok`, `mapM_total` -- a traversal of steps that return.
  * `ReturnsOr` -- a computation returns as wanted, or fails for one reason;
    `foldlM_progress` -- a loop whose steps go on or fail for one reason does too.
-/
import Mathlib.Algebra.Order.Ring.Int
import Mathlib.Data.List.Forall2

namespace Crete.Lib

open List

variable {α β ε : Type}

variable {f : α → Except ε β}

/-- Go on if `c` holds, end with `e` if not. -/
def ensure (c : Prop) [Decidable c] (e : ε) : Except ε Unit :=
  if c then .ok () else .error e

@[simp] theorem ok_bind (a : α) (f : α → Except ε β) : (Except.ok a >>= f) = f a := rfl

@[simp] theorem error_bind (e : ε) (f : α → Except ε β) :
    ((Except.error e : Except ε α) >>= f) = .error e := rfl

@[simp] theorem ensure_bind (c : Prop) [Decidable c] (e : ε) (f : Unit → Except ε β) :
    (ensure c e >>= f) = if c then f () else .error e := by
  unfold ensure
  split <;> rfl

theorem bind_eq_ok {x : Except ε α} {r : β} : (x >>= f) = .ok r ↔ ∃ a, x = .ok a ∧ f a = .ok r := by
  cases x with
  | error e | ok a => simp

theorem map_eq_ok {x : Except ε α} {f : α → β} {b : β} :
    x.map f = .ok b ↔ ∃ a, x = .ok a ∧ f a = b := by
  cases x with
  | error e | ok a => simp [Except.map]

theorem ensure_bind_eq_ok {c : Prop} [Decidable c] {e : ε} {f : Unit → Except ε β} {r : β} :
    (ensure c e >>= f) = .ok r ↔ c ∧ f () = .ok r := by
  rw [ensure_bind]
  split <;> simp_all

theorem mapM_forall₂ : ∀ {xs : List α} {ys : List β},
    xs.mapM f = .ok ys → List.Forall₂ (fun x y => f x = .ok y) xs ys
  | [], ys, h => by
    cases h
    exact .nil
  | x :: xs, ys, h => by
    rw [mapM_cons] at h
    obtain ⟨z, hz, h⟩ := bind_eq_ok.1 h
    obtain ⟨zs, hzs, h⟩ := bind_eq_ok.1 h
    cases h
    exact .cons hz (mapM_forall₂ hzs)

theorem mapM_mem {xs : List α} {ys : List β} (h : xs.mapM f = .ok ys) :
    ∀ y ∈ ys, ∃ x ∈ xs, f x = .ok y := by
  have hf := mapM_forall₂ h
  clear h
  induction hf with
  | nil => exact forall_mem_nil _
  | cons hx _ ih =>
    intro y hy
    rcases mem_cons.1 hy with rfl | hy
    · exact ⟨_, .head _, hx⟩
    · obtain ⟨x, hm, e⟩ := ih y hy
      exact ⟨x, mem_cons_of_mem _ hm, e⟩

theorem mapM_defined {xs : List α} {ys : List β} (h : xs.mapM f = .ok ys) :
    ∀ x ∈ xs, ∃ y, f x = .ok y := by
  have hf := mapM_forall₂ h
  clear h
  induction hf with
  | nil => exact forall_mem_nil _
  | cons hy _ ih =>
    intro x hx
    rcases mem_cons.1 hx with rfl | hx
    · exact ⟨_, hy⟩
    · exact ih x hx

theorem mapM_ok {g : α → β} : ∀ {xs : List α},
    (∀ x ∈ xs, f x = .ok (g x)) → xs.mapM f = .ok (xs.map g)
  | [], _ => rfl
  | x :: xs, h => by
    rw [mapM_cons, h x (.head _), ok_bind, mapM_ok (forall_mem_cons.1 h).2]
    rfl

/-- A traversal of what all succeeds on succeeds. -/
theorem mapM_total : ∀ (xs : List α), (∀ x ∈ xs, ∃ y, f x = .ok y) → ∃ ys, xs.mapM f = .ok ys
  | [], _ => ⟨[], rfl⟩
  | x :: xs, h => by
    obtain ⟨y, hy⟩ := h x (.head _)
    obtain ⟨ys, hys⟩ := mapM_total xs (forall_mem_cons.1 h).2
    refine ⟨y :: ys, ?_⟩
    rw [mapM_cons, hy, ok_bind, hys, ok_bind]
    rfl

theorem mapM_isSome_iff {α β : Type} (f : α → Option β) (xs : List α) :
    (xs.mapM f).isSome ↔ ∀ x ∈ xs, (f x).isSome := by
  induction xs with
  | nil => simp
  | cons x xs ih =>
    rw [mapM_cons, forall_mem_cons, ← ih]
    cases f x with
    | none => simp
    | some y => cases xs.mapM f <;> simp

theorem foldlM_invariant {f : β → α → Except ε β} {Inv : β → Prop} {xs : List α}
    (hstep : ∀ x ∈ xs, ∀ s s', Inv s → f s x = .ok s' → Inv s') {s r : β} (hs : Inv s)
    (h : xs.foldlM f s = .ok r) : Inv r := by
  induction xs generalizing s with
  | nil =>
    cases h
    exact hs
  | cons x xs ih =>
    rw [foldlM_cons] at h
    obtain ⟨s₁, h₁, h⟩ := bind_eq_ok.1 h
    exact ih (forall_mem_cons.1 hstep).2 (hstep x (.head _) s s₁ hs h₁) h

/-- **It returns something with `Q`, or fails for the reason `bad`.** -/
def ReturnsOr (bad : Prop) (x : Except ε α) (Q : α → Prop) : Prop :=
  (∃ a, x = .ok a ∧ Q a) ∨ ((∃ e, x = .error e) ∧ bad)

namespace ReturnsOr

variable {bad bad' : Prop} {x : Except ε α} {Q Q' : α → Prop} {R : β → Prop}

theorem imp (h : ReturnsOr bad x Q) (hq : ∀ a, Q a → Q' a) (hbad : bad → bad') :
    ReturnsOr bad' x Q' := by
  rcases h with ⟨a, e, ha⟩ | ⟨he, hb⟩
  · exact .inl ⟨a, e, hq a ha⟩
  · exact .inr ⟨he, hbad hb⟩

theorem bind (h : ReturnsOr bad x Q) (hf : ∀ a, Q a → ReturnsOr bad (f a) R) :
    ReturnsOr bad (x >>= f) R := by
  rcases h with ⟨a, rfl, ha⟩ | ⟨⟨e, rfl⟩, hb⟩
  · exact hf a ha
  · exact .inr ⟨⟨e, rfl⟩, hb⟩

end ReturnsOr

/-- **A loop of steps that go on or fail for the reason `bad`.** A step that goes on keeps `Inv`,
    does `R`, and reaches `Q` for its item, which `R` keeps. -/
theorem foldlM_progress {f : β → α → Except ε β} {Inv : β → Prop} {R : β → β → Prop}
    {Q : α → β → Prop} {bad : Prop} (hrefl : ∀ s, R s s)
    (htrans : ∀ {s s' s''}, R s s' → R s' s'' → R s s'')
    (hkeep : ∀ {x s s'}, Q x s → R s s' → Q x s') {xs : List α} (hstep : ∀ x ∈ xs, ∀ {s}, Inv s →
      ReturnsOr bad (f s x) fun s' => Inv s' ∧ R s s' ∧ Q x s') {s : β} (hs : Inv s) :
    ReturnsOr bad (xs.foldlM f s) fun s' => Inv s' ∧ R s s' ∧ ∀ x ∈ xs, Q x s' := by
  induction xs generalizing s with
  | nil => exact .inl ⟨s, rfl, hs, hrefl s, forall_mem_nil _⟩
  | cons x xs ih =>
    obtain ⟨hx, hxs⟩ := forall_mem_cons.1 hstep
    rw [foldlM_cons]
    refine (hx hs).bind fun s₁ h₁ => (ih hxs h₁.1).imp (fun s₂ h₂ => ?_) id
    exact ⟨h₂.1, htrans h₁.2.1 h₂.2.1, forall_mem_cons.2 ⟨hkeep h₁.2.2 h₂.2.1, h₂.2.2⟩⟩

end Crete.Lib
