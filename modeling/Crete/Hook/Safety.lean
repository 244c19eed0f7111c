/-
  File:      Crete/Hook/Safety.lean
  Subject:   Memory safety of the concolic stream (lib/hook/hook.c, lib/hook/utility.c), and `fread`
             against the loop of `fgetc` calls its comment speaks of.

  Stream.lean says what the readers answer; here they also write. Each store goes into the caller's
  buffer, which has exactly the size promised to the call, and a store or a load that leaves its
  object is a fault. `freadInto` and `fgetsInto` do what `fread` and `fgets` do, byte by byte.

  * `freadInto_eq`, `fgetsInto_eq` -- the writing readers store what `fread` and `fgets` answer and
    leave the rest of the buffer alone.
  * **`safe_iff`** -- a sequence of calls stays inside contents and buffers exactly when every call
    meets `Clear`: no `fgetc` behind the last byte with the flag clear and nothing pushed back, no
    `fread` there with a byte pushed back, no `fgets` into an empty buffer.
  * **`fread_fgetcs_iff`** -- `fread` and the loop of `fgetc` agree exactly under `Alike`.
-/
import Crete.Hook.Stream

namespace Crete.Hook

open Crete.Lib List

/-! ## 1. Writing into the caller's buffer -/

/-- `s[i] = c` for a buffer `s`. -/
def poke (buf : Bytes) (i : Nat) (c : UInt8) : Except Fault Bytes :=
  if i < buf.length then .ok (buf.set i c) else .error .outOfBounds

/-- `crete_symfile_memcpy` of `count` bytes from `src` on into the buffer, from its `i`-th byte on.
    Every byte is loaded before it is stored. -/
def memcpy : Bytes → Nat → Bytes → Nat → Except Fault Bytes
  | [], count, buf, _ => if count = 0 then .ok buf else .error .outOfBounds
  | c :: src, count, buf, i =>
    if count = 0 then .ok buf
    else do
      let buf ← poke buf i c
      memcpy src (count - 1) buf (i + 1)

/-- How `fread` and `fgets` begin to copy: a byte pushed back is stored first, and the count and
    the pointer into the buffer move on by one. -/
def storePushedBack (buf : Bytes) (readSize : Int) (f : CreteFile) :
    Except Fault (Bytes × Nat × Int × CreteFile) :=
  match f.pushedBack with
  | some c => do
      let buf ← poke buf 0 c
      return (buf, 1, readSize - 1, { f with pushedBack := none })
  | none => .ok (buf, 0, readSize, f)

/-- `fread` into the caller's buffer: the buffer afterwards and the returned count. -/
def freadInto (size nitems : Nat) (buf : Bytes) (f : CreteFile) :
    Except Fault ((Bytes × Option Nat) × CreteFile) :=
  if isValidReadStream f then
    let itemsSize := toPtrdiff (size * nitems)
    if itemsSize = 0 then .ok ((buf, some 0), f)
    else
      let remaining := remainingReadBytes f
      let readSize := if itemsSize < remaining then itemsSize else remaining
      do
        let (buf, bptr, readSize, f) ← storePushedBack buf readSize f
        let buf ← memcpy (f.contents.drop f.streamPos) (toSizeT readSize) buf bptr
        let pos := f.streamPos + readSize.toNat
        let f := { f with streamPos := pos, eof := f.eof || decide ((pos : Int) = f.streamEnd) }
        return ((buf, some (readSize.toNat / size)), f)
  else .ok ((buf, none), f)

/-- The copying loop of `fgets`, from the `i`-th byte of the buffer on; the number of bytes
    stored comes back with the buffer. -/
def fgetsLoopInto (f : CreteFile) : Nat → Nat → Bytes → Nat → Except Fault (Bytes × Nat)
  | 0, _, buf, _ => .ok (buf, 0)
  | k + 1, pos, buf, i => do
      let c ← byteAt f pos
      let buf ← poke buf i c
      if c = 10 then return (buf, 1)
      else
        let (buf, stored) ← fgetsLoopInto f k (pos + 1) buf (i + 1)
        return (buf, stored + 1)

/-- `fgets` into the caller's buffer: the buffer afterwards and the returned pointer, as an offset
    into the buffer. -/
def fgetsInto (n : Int) (buf : Bytes) (f : CreteFile) :
    Except Fault ((Bytes × Option Nat) × CreteFile) :=
  if isValidReadStream f then
    if n ≤ 1 then do
      let buf ← poke buf 0 0
      return ((buf, some 0), f)
    else if f.eof then do
      let buf ← poke buf 0 0
      return ((buf, none), f)
    else
      let bytesToGet := n - 1
      let remaining := remainingReadBytes f
      let readSize := if bytesToGet < remaining then bytesToGet else remaining
      do
        let (buf, s, readSize, f) ← storePushedBack buf readSize f
        let (buf, i) ← fgetsLoopInto f readSize.toNat f.streamPos buf s
        let buf ← poke buf (s + i) 0
        let f := { f with streamPos := f.streamPos + i }
        if (f.streamPos : Int) = f.streamEnd then
          return ((buf, none), { f with eof := true })
        else
          return ((buf, some s), f)
  else .ok ((buf, none), f)

/-! ## 2. What the stores leave in the buffer -/

/-- The buffer with `bs` stored from its `i`-th byte on. -/
def stored (buf : Bytes) (i : Nat) (bs : Bytes) : Bytes :=
  buf.take i ++ bs ++ buf.drop (i + bs.length)

@[simp] theorem stored_nil (buf : Bytes) (i : Nat) : stored buf i [] = buf := by
  simp [stored]

theorem length_stored (buf : Bytes) (i : Nat) (bs : Bytes)
    (h : i + bs.length ≤ buf.length) : (stored buf i bs).length = buf.length := by
  simp only [stored, length_append, length_take, length_drop]
  omega

/-- Storing next to what was stored. -/
theorem stored_stored (buf : Bytes) (i : Nat) (bs cs : Bytes) (h : i + bs.length ≤ buf.length) :
    stored (stored buf i bs) (i + bs.length) cs = stored buf i (bs ++ cs) := by
  have hi : (buf.take i ++ bs).length = i + bs.length := by
    rw [length_append, length_take, Nat.min_eq_left (by omega)]
  have htake : (stored buf i bs).take (i + bs.length) = buf.take i ++ bs := by
    rw [stored, ← hi, take_left]
  have hdrop : ∀ k, (stored buf i bs).drop (i + bs.length + k) = buf.drop (i + bs.length + k) := by
    intro k
    rw [← drop_drop, stored, ← hi, drop_left, hi, drop_drop]
  rw [stored, htake, hdrop, stored, length_append, append_assoc (buf.take i), Nat.add_assoc]

theorem poke_eq {buf : Bytes} {i : Nat} (h : i < buf.length) (c : UInt8) :
    poke buf i c = .ok (stored buf i [c]) := by
  rw [poke, if_pos h, set_eq_take_append_cons_drop, if_pos h, stored]
  simp

theorem poke_nil (i : Nat) (c : UInt8) : poke [] i c = .error .outOfBounds := by
  simp [poke]

/-- **The copy stores its source**, if both ends of it are there. -/
theorem memcpy_eq : ∀ (src : Bytes) (count : Nat) (buf : Bytes) (i : Nat),
    count ≤ src.length → i + count ≤ buf.length →
    memcpy src count buf i = .ok (stored buf i (src.take count))
  | [], count, buf, i, hs, _ => by
    have h0 : count = 0 := by simpa using hs
    simp [memcpy, h0]
  | c :: src, count, buf, i, hs, hb => by
    by_cases h0 : count = 0
    · simp [memcpy, h0]
    · obtain ⟨k, rfl⟩ := Nat.exists_eq_succ_of_ne_zero h0
      simp only [length_cons] at hs
      have hl := length_stored buf i [c] (by simp; omega)
      rw [memcpy, if_neg h0, poke_eq (by omega), ok_bind, Nat.succ_sub_one,
        memcpy_eq src _ _ _ (by omega) (by omega), take_succ_cons]
      exact congrArg _ (stored_stored _ _ [c] _ (by simp; omega))

/-- A copy of more bytes than the source has leaves it. -/
theorem memcpy_fault : ∀ (src : Bytes) (count : Nat) (buf : Bytes) (i : Nat),
    src.length < count → memcpy src count buf i = .error .outOfBounds
  | [], count, buf, i, h => by
    rw [memcpy, if_neg (by simpa using Nat.ne_of_gt h)]
  | c :: src, count, buf, i, h => by
    simp only [length_cons] at h
    rw [memcpy, if_neg (by omega), poke]
    split
    · exact memcpy_fault src _ _ _ (by omega)
    · rfl

/-- **The copying loop of `fgets`** stores the line. -/
theorem fgetsLoopInto_eq (f : CreteFile) : ∀ (k : Nat) {pos i : Nat} {buf : Bytes},
    pos + k ≤ f.contents.length → i + k ≤ buf.length →
    fgetsLoopInto f k pos buf i = .ok (stored buf i (lineOf k (f.contents.drop pos)),
      (lineOf k (f.contents.drop pos)).length)
  | 0, pos, i, buf, _, _ => by simp [fgetsLoopInto, lineOf]
  | k + 1, pos, i, buf, hp, hb => by
    cases hd : f.contents.drop pos with
    | nil =>
      have hl := drop_eq_nil_iff.1 hd
      omega
    | cons c cs =>
      have ht : f.contents.drop (pos + 1) = cs := by
        rw [← drop_drop, hd, drop_succ_cons, drop_zero]
      have hl := length_stored buf i [c] (by simp; omega)
      rw [fgetsLoopInto, byteAt_of_drop hd, ok_bind, poke_eq (by omega), ok_bind, lineOf]
      split
      · rfl
      · rw [fgetsLoopInto_eq f k (by omega) (by omega), ht, ok_bind]
        exact congrArg (fun b => Except.ok (b, _)) (stored_stored _ _ [c] _ (by simp; omega))

/-- The byte pushed back lands at the front of the buffer. -/
theorem storePushedBack_eq {buf : Bytes} (h : 0 < buf.length) (readSize : Int) (f : CreteFile) :
    storePushedBack buf readSize f = .ok (stored buf 0 f.pushedBack.toList,
      f.pushedBack.toList.length, readSize - (f.pushedBack.toList.length : Int),
      { f with pushedBack := none }) := by
  rw [storePushedBack]
  cases hq : f.pushedBack with
  | none =>
    have hf : { f with pushedBack := none } = f := by rw [← hq]
    simp [hf]
  | some c =>
    simp only [poke_eq h, ok_bind]
    rfl

theorem length_lineOf_le : ∀ (k : Nat) (bs : Bytes), (lineOf k bs).length ≤ k
  | 0, bs => Nat.le_refl 0
  | k + 1, [] => Nat.zero_le _
  | k + 1, c :: cs => by
    unfold lineOf
    split
    · simp
    · exact Nat.succ_le_succ (length_lineOf_le k cs)

section Into

theorem length_pushedBack_le (q : Option UInt8) : q.toList.length ≤ 1 := by
  cases q <;> simp

variable {data buf : Bytes} {f : CreteFile} (h : Stands data f)

include h

/-- **`fread` stores what it answers** and leaves the rest of the buffer alone; it leaves its
    objects exactly when the answering reader does. -/
theorem Stands.freadInto_eq {size nitems : Nat} (promised : buf.length = size * nitems)
    (fits : size * nitems < 2 ^ 63) :
    freadInto size nitems buf f =
      (fread size nitems f).map fun p => ((stored buf 0 p.1.stored, p.1.ret), p.2) := by
  have hp := h.pos_le
  by_cases hz : size * nitems = 0
  · simp [freadInto, fread, h.valid, hz, toPtrdiff, Except.map]
  rw [h.fread_unfold hz fits, freadInto, if_pos h.valid]
  simp only [toPtrdiff_of_lt fits, h.remaining]
  rw [if_neg (by omega)]
  rw [ite_lt_eq_min, storePushedBack_eq (by omega), ok_bind]
  have hq := length_pushedBack_le f.pushedBack
  generalize hr : min (size * nitems) (data.length - f.streamPos) = r
  generalize f.pushedBack.toList = q at hq ⊢
  by_cases hroom : q.length ≤ r
  · obtain ⟨k, rfl⟩ := Nat.exists_eq_add_of_le hroom
    have hk : ((q.length + k : Nat) : Int) - (q.length : Int) = k := by omega
    have hl := length_stored buf 0 q (by omega)
    have hlen : ((data.drop f.streamPos).take k).length = k := by
      rw [length_take, length_drop]
      omega
    have hm := memcpy_eq (data.drop f.streamPos) k (stored buf 0 q) q.length
      (by rw [length_drop]; omega) (by omega)
    have hs := stored_stored buf 0 q ((data.drop f.streamPos).take k) (by omega)
    rw [Nat.zero_add] at hs
    have hcopy : copyOut f f.streamPos k = .ok ((data.drop f.streamPos).take k) := by
      rw [copyOut, h.contents, if_pos ⟨by omega, by omega⟩, Int.toNat_natCast]
    have hsize : toSizeT (k : Int) = k := by
      rw [toSizeT]
      omega
    simp only [hk, hcopy, hsize, h.contents, hm, hs, hlen, ok_bind, Int.toNat_natCast]
    rfl
  · -- the count is -1, and the source is empty
    have hk : ((r : Nat) : Int) - (q.length : Int) = -1 := by omega
    have hm := memcpy_fault (data.drop f.streamPos) (toSizeT (-1)) (stored buf 0 q) q.length
      (by rw [length_drop, show toSizeT (-1) = 2 ^ 64 - 1 from rfl]; omega)
    simp only [hk, h.contents, hm, error_bind]
    rfl

/-- **`fgets` stores what it answers** and a NUL behind it, if the buffer has room for one byte. -/
theorem Stands.fgetsInto_eq {n : Int} (hn : 1 ≤ n) (promised : buf.length = n.toNat) :
    fgetsInto n buf f =
      (fgets n f).map fun p => ((stored buf 0 (p.1.stored ++ [0]), p.1.ret), p.2) := by
  have hp := h.pos_le
  rw [fgetsInto, fgets, if_pos h.valid, if_pos h.valid]
  by_cases hn1 : n ≤ 1
  · rw [if_pos hn1, if_pos hn1, poke_eq (by omega)]
    rfl
  rw [if_neg hn1, if_neg hn1]
  by_cases he : f.eof = true
  · rw [if_pos he, if_pos he, poke_eq (by omega)]
    rfl
  have hline := h.fgets_line (n := n) (by omega) (by simpa using he) rfl
  rw [fgets, if_pos h.valid, if_neg hn1, if_neg he] at hline
  rw [if_neg he, if_neg he, hline]
  have hread := ite_lt_eq_min (n - 1).toNat (data.length - f.streamPos)
  rw [Int.toNat_of_nonneg (by omega)] at hread
  simp only [h.remaining, hread]
  rw [storePushedBack_eq (by omega), ok_bind]
  have hq := length_pushedBack_le f.pushedBack
  generalize hr : min (n - 1).toNat (data.length - f.streamPos) = r
  generalize f.pushedBack.toList = q at hq ⊢
  have hk : (((r : Nat) : Int) - (q.length : Int)).toNat = r - q.length := by omega
  have hl := length_stored buf 0 q (by omega)
  have hloop : fgetsLoopInto { f with pushedBack := none } (r - q.length) f.streamPos
      (stored buf 0 q) q.length =
      .ok (stored (stored buf 0 q) q.length (lineOf (r - q.length) (data.drop f.streamPos)),
        (lineOf (r - q.length) (data.drop f.streamPos)).length) := by
    rw [fgetsLoopInto_eq _ _ (by simp only [h.contents]; omega) (by omega)]
    simp only [h.contents]
  have hlen := length_lineOf_le (r - q.length) (data.drop f.streamPos)
  generalize lineOf (r - q.length) (data.drop f.streamPos) = bs at hloop hlen ⊢
  have hs := stored_stored buf 0 q bs (by omega)
  have hs' := stored_stored buf 0 (q ++ bs) [0] (by rw [length_append]; omega)
  have hl' := length_stored buf 0 (q ++ bs) (by rw [length_append]; omega)
  rw [Nat.zero_add] at hs hs'
  rw [length_append] at hs'
  rw [hs] at hloop
  have hpoke := poke_eq (show q.length + bs.length < (stored buf 0 (q ++ bs)).length by omega) 0
  rw [hs'] at hpoke
  simp only [hk, hloop, hpoke, ok_bind, h.at_end (f.streamPos + bs.length)]
  split <;> rfl

end Into

/-! ## 3. Calls, and when they stay inside their objects -/

/-- A call with the buffer the caller hands in, which has exactly the size promised to the call.
    A buffer is an object, so its size is a `ptrdiff_t`. -/
inductive Op where
  | fgetc
  | getc
  | fgets (n : Int) (buf : Bytes) (promised : buf.length = n.toNat)
  | fread (size nitems : Nat) (buf : Bytes) (promised : buf.length = size * nitems)
      (fits : size * nitems < 2 ^ 63)
  | ungetc (c : Option UInt8)

/-- One call, down to its loads and stores: the stream afterwards. -/
def perform (o : Op) (f : CreteFile) : Except Fault CreteFile :=
  match o with
  | .fgetc => (Hook.fgetc f).map Prod.snd
  | .getc => (Hook.getc f).map Prod.snd
  | .fgets n buf _ => (fgetsInto n buf f).map Prod.snd
  | .fread size nitems buf _ _ => (freadInto size nitems buf f).map Prod.snd
  | .ungetc c => .ok (Hook.ungetc c f).2

/-- **Every call of the sequence stays inside the stream's contents and the caller's buffer**, and
    leaves the position inside the contents or right behind them. -/
def Safe : CreteFile → List Op → Prop
  | _, [] => True
  | f, o :: os => match perform o f with
    | .ok f' => f'.streamPos ≤ f.contents.length ∧ Safe f' os
    | .error _ => False

/-- **The condition on one call**, in the state it is made in. -/
def Clear (f : CreteFile) : Op → Prop
  | .fgetc | .getc =>
    f.eof = true ∨ f.pushedBack ≠ none ∨ f.streamPos < f.contents.length
  | .fgets n _ _ => 1 ≤ n
  | .fread size nitems _ _ _ =>
    size * nitems = 0 ∨ f.pushedBack = none ∨ f.streamPos < f.contents.length
  | .ungetc _ => True

/-- Every call of the sequence meets the condition in the state it is made in. -/
def AllClear : CreteFile → List Op → Prop
  | _, [] => True
  | f, o :: os => Clear f o ∧ match perform o f with
    | .ok f' => AllClear f' os
    | .error _ => True

section Safe

variable {data : Bytes} {f : CreteFile} (h : Stands data f)

include h

/-- `ungetc` touches the byte pushed back and the flag only. -/
theorem Stands.ungetc (c : Option UInt8) : Stands data (Hook.ungetc c f).2 := by
  unfold Hook.ungetc
  split
  · exact h
  · exact h
  · exact { h with }

/-- A reader that moves on by `bs` keeps the stream standing. -/
theorem Stands.advance {k : Nat} (hk : f.streamPos + k ≤ data.length) (e : Bool)
    (q : Option UInt8) :
    Stands data { f with streamPos := f.streamPos + k, eof := e, pushedBack := q } :=
  { h with pos_le := hk }

/-- **`fgetc` under its condition**. -/
theorem Stands.fgetc_clear
    (hc : f.eof = true ∨ f.pushedBack ≠ none ∨ f.streamPos < f.contents.length) :
    ∃ r f', Hook.fgetc f = .ok (r, f') ∧ Stands data f' := by
  have hp := h.pos_le
  by_cases hend : f.eof = true ∨ f.streamPos + 1 = data.length
  · exact ⟨_, _, h.fgetc_eof hend, { h with }⟩
  have he : f.eof = false := by simpa using fun h0 => hend (.inl h0)
  have hne : f.streamPos + 1 ≠ data.length := fun h0 => hend (.inr h0)
  cases hq : f.pushedBack with
  | some c => exact ⟨_, _, h.fgetc_pushed he hne hq, { h with }⟩
  | none =>
    have hlt : f.streamPos < data.length := by
      rcases hc with h0 | h0 | h0
      · exact absurd (.inl h0) hend
      · exact absurd hq h0
      · rwa [h.contents] at h0
    exact ⟨_, _, h.fgetc_next he hq (by omega), { h with pos_le := hlt }⟩

/-- Outside its condition `fgetc` loads the byte behind the contents. -/
theorem Stands.fgetc_not_clear
    (hc : ¬ (f.eof = true ∨ f.pushedBack ≠ none ∨ f.streamPos < f.contents.length)) :
    Hook.fgetc f = .error .outOfBounds := by
  have hp := h.pos_le
  rw [h.contents] at hc
  refine h.fgetc_fault ?_ ?_ ?_
  · simpa using fun h0 => hc (.inl h0)
  · exact Classical.byContradiction fun h0 => hc (.inr (.inl h0))
  · have : ¬ f.streamPos < data.length := fun h0 => hc (.inr (.inr h0))
    omega

/-- **One call under its condition** stays inside its objects, and the stream stands. -/
theorem Stands.perform_clear (o : Op) (hc : Clear f o) :
    ∃ f', perform o f = .ok f' ∧ Stands data f' := by
  have hp := h.pos_le
  cases o with
  | fgetc =>
    obtain ⟨r, f', hf, hs⟩ := h.fgetc_clear hc
    exact ⟨f', by rw [perform, hf]; rfl, hs⟩
  | getc =>
    obtain ⟨r, f', hf, hs⟩ := h.fgetc_clear hc
    exact ⟨f', by rw [perform, getc, hf]; rfl, hs⟩
  | fgets n buf promised =>
    rw [perform, h.fgetsInto_eq hc promised]
    by_cases hn : n ≤ 1
    · exact ⟨f, by simp only [Hook.fgets, if_pos h.valid, if_pos hn]; rfl, h⟩
    by_cases he : f.eof = true
    · exact ⟨f, by simp only [Hook.fgets, if_pos h.valid, if_neg hn, if_pos he]; rfl, h⟩
    have hl := (lineOf_initial (min (n - 1).toNat (data.length - f.streamPos) -
      f.pushedBack.toList.length) (data.drop f.streamPos)).length_le
    rw [length_drop] at hl
    rw [h.fgets_line (n := n) (by omega) (by simpa using he) rfl]
    split
    · exact ⟨_, rfl, h.advance (by omega) _ _⟩
    · exact ⟨_, rfl, h.advance (by omega) _ _⟩
  | fread size nitems buf promised fits =>
    rw [perform, h.freadInto_eq promised fits]
    by_cases hz : size * nitems = 0
    · exact ⟨f, by simp [Hook.fread, h.valid, hz, toPtrdiff, Except.map], h⟩
    have hroom : f.pushedBack.toList.length ≤ min (size * nitems) (data.length - f.streamPos) := by
      have hq := length_pushedBack_le f.pushedBack
      rcases hc with h0 | h0 | h0
      · exact absurd h0 hz
      · simp [h0]
      · rw [h.contents] at h0
        omega
    rw [h.fread_items hz fits hroom rfl]
    refine ⟨_, rfl, h.advance ?_ _ _⟩
    rw [length_take, length_drop]
    omega
  | ungetc c => exact ⟨_, rfl, h.ungetc c⟩

/-- **One call outside its condition** leaves its objects. -/
theorem Stands.perform_not_clear (o : Op) (hc : ¬ Clear f o) :
    perform o f = .error .outOfBounds := by
  have hp := h.pos_le
  cases o with
  | fgetc => rw [perform, h.fgetc_not_clear hc]; rfl
  | getc => rw [perform, getc, h.fgetc_not_clear hc]; rfl
  | fgets n buf promised =>
    -- the NUL goes into a buffer of no bytes
    have hn : ¬ 1 ≤ n := hc
    have hb : buf = [] := length_eq_zero_iff.1 (by omega)
    rw [perform, fgetsInto, if_pos h.valid, if_pos (by omega), hb, poke_nil]
    rfl
  | fread size nitems buf promised fits =>
    simp only [Clear, not_or, h.contents] at hc
    obtain ⟨c, hq⟩ := Option.ne_none_iff_exists'.1 hc.2.1
    rw [perform, h.freadInto_eq promised fits, h.fread_fault hc.1 fits hq (by omega)]
    rfl
  | ungetc c => exact absurd trivial hc

omit h in
/-- **From any standing stream** a sequence of calls is safe exactly when every call meets its
    condition. -/
theorem Stands.safe_iff_allClear : ∀ (os : List Op) {f : CreteFile}, Stands data f →
    (Safe f os ↔ AllClear f os)
  | [], _, _ => Iff.rfl
  | o :: os, f, h => by
    unfold Safe AllClear
    by_cases hc : Clear f o
    · obtain ⟨f', hf, hs⟩ := h.perform_clear o hc
      have hle : f'.streamPos ≤ f.contents.length := h.contents ▸ hs.pos_le
      simp only [hf, hc, hle, true_and]
      exact Stands.safe_iff_allClear os hs
    · simp [h.perform_not_clear o hc, hc]

omit h in
theorem openHandle_stands (data : Bytes) (i j : Nat) (m : FileMode) :
    Stands data { openHandle data i j with mode := m } :=
  (openHandle_cursor data i j m).toStands

end Safe

/-- **Memory safety of the concolic stream.** For every file and every sequence of `fgetc`,
    `getc`, `fgets`, `fread` and `ungetc` calls on a freshly opened stream, with buffers of the
    promised sizes: no load leaves the contents, no store leaves the buffer and the position stays
    in range, if and only if every call meets `Clear` in the state it is made in. -/
theorem safe_iff (data : Bytes) (i j : Nat) (m : FileMode) (os : List Op) :
    Safe { openHandle data i j with mode := m } os ↔
      AllClear { openHandle data i j with mode := m } os :=
  (openHandle_stands data i j m).safe_iff_allClear os

instance decidableSafe : ∀ (f : CreteFile) (os : List Op), Decidable (Safe f os)
  | _, [] => isTrue trivial
  | f, o :: os => by
    unfold Safe
    exact match perform o f with
      | .ok f' =>
        have := decidableSafe f' os
        inferInstanceAs (Decidable (_ ∧ _))
      | .error _ => isFalse id

/-- The three ways out. Behind the last byte, `fgetc` loads what follows the contents and `fread`
    with a byte pushed back copies `-1` bytes; `fgets` stores its NUL into a buffer of no bytes. -/
theorem safe_slips :
    ¬ Safe { openHandle [97] 0 0 with mode := .read } [.fread 1 1 [0] rfl (by decide), .fgetc] ∧
    ¬ Safe { openHandle [97] 0 0 with mode := .read }
      [.fread 1 1 [0] rfl (by decide), .ungetc (some 98), .fread 1 1 [0] rfl (by decide)] ∧
    ¬ Safe { openHandle [97] 0 0 with mode := .read } [.fgets 0 [] rfl] := by
  decide

/-! ## 4. `fread` and the loop of `fgetc` -/

/-- `fgetc` called `k` times, stopping at the first `EOF`. -/
def fgetcs : Nat → CreteFile → Except Fault (Bytes × CreteFile)
  | 0, f => .ok ([], f)
  | k + 1, f => do
      let (r, f) ← fgetc f
      match r with
      | none => return ([], f)
      | some c =>
        let (cs, f) ← fgetcs k f
        return (c :: cs, f)

/-- **The states of an open stream**: a freshly opened one, and what a call that stayed inside its
    objects left. -/
inductive Reached (data : Bytes) : CreteFile → Prop where
  | opened (i j : Nat) (m : FileMode) : Reached data { openHandle data i j with mode := m }
  | performed {f f' : CreteFile} (o : Op) :
      Reached data f → perform o f = .ok f' → Reached data f'

/-- `fread` did what the loop does: the same bytes, the number of complete items among them, and
    the same stream afterwards. -/
def FreadIsFgetcs (size nitems : Nat) (f : CreteFile) : Prop :=
  ∃ bs f', fgetcs (size * nitems) f = .ok (bs, f') ∧
    fread size nitems f = .ok (⟨bs, some (bs.length / size)⟩, f')

/-- **When the two agree**, `left` bytes before the end. With nothing pushed back: at the end with
    the flag set, or with at least two bytes more left than asked for. With a byte pushed back: the
    flag clear, at least two bytes left, fewer than asked for and not a whole number of items. -/
def Alike (size nitems : Nat) (f : CreteFile) : Prop :=
  let left := f.contents.length - f.streamPos
  match f.pushedBack with
  | none => f.eof = true ∧ left = 0 ∨ f.eof = false ∧ size * nitems + 1 < left
  | some _ => f.eof = false ∧ 2 ≤ left ∧ left < size * nitems ∧ ¬ size ∣ left

theorem Reached.stands {data : Bytes} {f : CreteFile} (h : Reached data f) :
    Stands data f := by
  induction h with
  | opened i j m => exact openHandle_stands data i j m
  | @performed f f' o _ hf ih =>
    by_cases hc : Clear f o
    · obtain ⟨f', hf', hs⟩ := ih.perform_clear o hc
      cases hf.symm.trans hf'
      exact hs
    · cases hf.symm.trans (ih.perform_not_clear o hc)

section Fgetcs

variable {data : Bytes}

variable {f : CreteFile} {k : Nat}

theorem Stands.fgetcs_eof (h : Stands data f)
    (hp : f.eof = true ∨ f.streamPos + 1 = data.length) (hk : 0 < k) :
    fgetcs k f = .ok ([], { f with eof := true }) := by
  obtain ⟨k, rfl⟩ := Nat.exists_eq_add_of_lt hk
  rw [fgetcs, h.fgetc_eof hp]
  rfl

/-- **The loop with nothing pushed back** stops at the last byte: it is never delivered. -/
theorem Stands.fgetcs_plain : ∀ (k : Nat) {f : CreteFile}, Stands data f → f.eof = false →
    f.pushedBack = none → f.streamPos < data.length →
    fgetcs k f = if f.streamPos + k < data.length then
        .ok ((data.drop f.streamPos).take k, { f with streamPos := f.streamPos + k })
      else .ok ((data.drop f.streamPos).take (data.length - 1 - f.streamPos),
        { f with streamPos := data.length - 1, eof := true })
  | 0, f, h, _, _, hp => by simp [fgetcs, hp]
  | k + 1, f, h, he, hq, hp => by
    by_cases hend : f.streamPos + 1 = data.length
    · have hlast : data.length - 1 = f.streamPos := by omega
      rw [h.fgetcs_eof (.inr hend) (Nat.succ_pos k), if_neg (by omega), hlast]
      simp
    · have hd : data.drop f.streamPos = data[f.streamPos] :: data.drop (f.streamPos + 1) :=
        drop_eq_getElem_cons hp
      have hs : Stands data { f with streamPos := f.streamPos + 1 } :=
        h.advance (k := 1) (by omega) f.eof f.pushedBack
      have hlast : data.length - 1 - f.streamPos = data.length - 1 - (f.streamPos + 1) + 1 := by
        omega
      rw [fgetcs, h.fgetc_next he hq (by omega), ok_bind]
      simp only [Stands.fgetcs_plain k hs he hq (by simp only; omega), hd, hlast,
        take_succ_cons, show f.streamPos + 1 + k = f.streamPos + (k + 1) by omega]
      split <;> rfl

/-- The loop hands out a byte pushed back first. -/
theorem Stands.fgetcs_pushed (h : Stands data f) (he : f.eof = false)
    (hp : f.streamPos + 1 ≠ data.length) {c : UInt8} (hq : f.pushedBack = some c) (k : Nat) :
    fgetcs (k + 1) f = (fgetcs k { f with pushedBack := none }).map fun p => (c :: p.1, p.2) := by
  rw [fgetcs, h.fgetc_pushed he hp hq, ok_bind]
  simp only
  cases fgetcs k { f with pushedBack := none } <;> rfl

/-- Behind the last byte the loop leaves the contents. -/
theorem Stands.fgetcs_fault (h : Stands data f) (he : f.eof = false)
    (hq : f.pushedBack = none) (hp : f.streamPos = data.length) (hk : 0 < k) :
    fgetcs k f = .error .outOfBounds := by
  obtain ⟨k, rfl⟩ := Nat.exists_eq_add_of_lt hk
  rw [fgetcs, h.fgetc_fault he hq hp]
  rfl

/-- Both returned: they agree if bytes, count and stream do. -/
theorem freadIsFgetcs_iff {size nitems ret : Nat} {f g g' : CreteFile} {bs bs' : Bytes}
    (hl : fgetcs (size * nitems) f = .ok (bs, g))
    (hr : fread size nitems f = .ok (⟨bs', some ret⟩, g')) :
    FreadIsFgetcs size nitems f ↔ bs' = bs ∧ ret = bs.length / size ∧ g' = g := by
  unfold FreadIsFgetcs
  rw [hl, hr]
  constructor
  · rintro ⟨cs, f', hcs, hf'⟩
    cases hcs
    cases hf'
    exact ⟨rfl, rfl, rfl⟩
  · rintro ⟨rfl, rfl, rfl⟩
    exact ⟨_, _, rfl, rfl⟩

theorem length_take_drop (data : Bytes) (p a : Nat) :
    ((data.drop p).take a).length = min a (data.length - p) := by
  rw [length_take, length_drop]

variable (h : Stands data f) {size nitems : Nat} (hpos : 0 < size * nitems)
  (fits : size * nitems < 2 ^ 63)

include h hpos fits

/-- **With nothing pushed back.** -/
theorem Stands.alike_plain (hq : f.pushedBack = none) :
    FreadIsFgetcs size nitems f ↔ f.eof = true ∧ data.length - f.streamPos = 0 ∨
      f.eof = false ∧ size * nitems + 1 < data.length - f.streamPos := by
  have hp := h.pos_le
  have hread := h.fread_items (Nat.ne_of_gt hpos) fits (by simp [hq]) rfl
  have hlen := length_take_drop data f.streamPos
  simp only [hq, Option.toList_none, nil_append, length_nil, Nat.sub_zero, hlen,
    Nat.min_assoc, Nat.min_self, h.at_end] at hread
  cases he : f.eof with
  | true =>
    -- the loop delivers nothing
    rw [freadIsFgetcs_iff (h.fgetcs_eof (.inl he) hpos) hread]
    constructor
    · rintro ⟨hbs, -, -⟩
      have hl := congrArg List.length hbs
      rw [hlen, length_nil] at hl
      exact .inl ⟨rfl, by omega⟩
    · rintro (⟨-, h0⟩ | ⟨h0, -⟩)
      · simp [h0, he, ← hq]
      · cases h0
  | false =>
    by_cases hend : f.streamPos = data.length
    · have hloop := h.fgetcs_fault he hq hend hpos
      constructor
      · rintro ⟨bs, f', hbs, -⟩
        cases hloop.symm.trans hbs
      · rintro (⟨h0, -⟩ | ⟨-, h0⟩)
        · cases h0
        · omega
    have hloop := h.fgetcs_plain (size * nitems) he hq (by omega)
    by_cases hin : f.streamPos + size * nitems < data.length
    · -- the same bytes; `fread` sets the flag when it stops at the last one
      rw [if_pos hin] at hloop
      rw [freadIsFgetcs_iff hloop hread, Nat.min_eq_left (by omega)]
      constructor
      · rintro ⟨-, -, hg⟩
        have he' := congrArg CreteFile.eof hg
        simp only [he, Bool.false_or, decide_eq_false_iff_not] at he'
        exact .inr ⟨rfl, by omega⟩
      · rintro (⟨h0, -⟩ | ⟨-, h0⟩)
        · cases h0
        · refine ⟨rfl, ?_, ?_⟩
          · rw [hlen, Nat.min_eq_left (by omega)]
          · have hne : ¬ f.streamPos + size * nitems + 1 = data.length := by omega
            simp only [hne, hq, decide_false, Bool.or_false]
    · -- the loop leaves out the last byte
      rw [if_neg hin] at hloop
      rw [freadIsFgetcs_iff hloop hread]
      constructor
      · rintro ⟨hbs, -, -⟩
        have hl := congrArg List.length hbs
        rw [hlen, hlen] at hl
        omega
      · rintro (⟨h0, -⟩ | ⟨-, h0⟩)
        · cases h0
        · omega

/-- **With a byte pushed back.** -/
theorem Stands.alike_pushed {c : UInt8} (hq : f.pushedBack = some c) :
    FreadIsFgetcs size nitems f ↔ f.eof = false ∧ 2 ≤ data.length - f.streamPos ∧
      data.length - f.streamPos < size * nitems ∧ ¬ size ∣ data.length - f.streamPos := by
  have hp := h.pos_le
  have hsize : 0 < size := Nat.pos_of_mul_pos_right hpos
  obtain ⟨k, hk⟩ := Nat.exists_eq_succ_of_ne_zero (Nat.ne_of_gt hpos)
  by_cases hend : f.streamPos = data.length
  · -- `fread` copies `-1` bytes
    have hread := h.fread_fault (Nat.ne_of_gt hpos) fits hq hend
    constructor
    · rintro ⟨bs, f', -, hbs⟩
      cases hread.symm.trans hbs
    · rintro ⟨-, h0, -⟩
      omega
  have hread := h.fread_items (Nat.ne_of_gt hpos) fits (by simp [hq]; omega) rfl
  have hlen := length_take_drop data f.streamPos
  have hmin : min (min (size * nitems) (data.length - f.streamPos) - 1)
      (data.length - f.streamPos) = min (size * nitems) (data.length - f.streamPos) - 1 := by
    omega
  simp only [hq, Option.toList_some, singleton_append, length_singleton, hlen, hmin,
    h.at_end] at hread
  by_cases hstop : f.eof = true ∨ f.streamPos + 1 = data.length
  · -- the loop delivers nothing, `fread` the byte pushed back
    rw [freadIsFgetcs_iff (h.fgetcs_eof hstop hpos) hread]
    constructor
    · rintro ⟨hbs, -, -⟩
      cases hbs
    · rintro ⟨h0, h2, -⟩
      rcases hstop with h1 | h1
      · cases h0.symm.trans h1
      · omega
  have he : f.eof = false := by simpa using fun h0 => hstop (.inl h0)
  have hne : f.streamPos + 1 ≠ data.length := fun h0 => hstop (.inr h0)
  have hs : Stands data { f with pushedBack := none } :=
    h.advance (k := 0) hp f.eof none
  have hloop := h.fgetcs_pushed he hne hq k
  rw [hs.fgetcs_plain k he rfl (by simp only; omega), ← Nat.succ_eq_add_one, ← hk] at hloop
  by_cases hin : f.streamPos + k < data.length
  · -- the same bytes, but the count misses the byte pushed back
    simp only [if_pos hin, Except.map] at hloop
    rw [freadIsFgetcs_iff hloop hread]
    constructor
    · rintro ⟨-, hret, -⟩
      rw [length_cons, hlen, Nat.min_eq_left (by omega : k ≤ data.length - f.streamPos),
        ← Nat.succ_eq_add_one, ← hk, Nat.mul_div_cancel_left _ hsize] at hret
      have hlt : (size * nitems - 1) / size < nitems := by
        rw [Nat.div_lt_iff_lt_mul hsize, Nat.mul_comm nitems]
        omega
      rw [Nat.min_eq_left (by omega)] at hret
      omega
    · rintro ⟨-, -, h0, -⟩
      omega
  · -- everything that is left; the count is right if the last item is incomplete
    simp only [if_neg hin, Except.map] at hloop
    obtain ⟨left, hleft⟩ : ∃ left, data.length = f.streamPos + left + 1 :=
      ⟨data.length - f.streamPos - 1, by omega⟩
    have hall : data.length - f.streamPos = left + 1 := by omega
    have hr : min (size * nitems) (left + 1) = left + 1 := by omega
    have hlast : data.length - 1 = f.streamPos + left := by omega
    simp only [hall, hr, Nat.add_sub_cancel] at hread
    simp only [hlast, Nat.add_sub_cancel_left] at hloop
    have hcount : (c :: (data.drop f.streamPos).take left).length = left + 1 := by
      rw [length_cons, hlen]
      omega
    rw [freadIsFgetcs_iff hloop hread, hcount, Nat.succ_div, hall]
    constructor
    · rintro ⟨-, hret, -⟩
      refine ⟨he, by omega, by omega, fun hd => ?_⟩
      rw [if_pos hd] at hret
      omega
    · rintro ⟨-, -, -, hd⟩
      rw [if_neg hd]
      exact ⟨rfl, rfl, by simp [hleft]⟩

/-- `fread` agrees with the loop exactly under the condition, in every standing stream. -/
theorem Stands.alike : FreadIsFgetcs size nitems f ↔ Alike size nitems f := by
  unfold Alike
  rw [h.contents]
  cases hq : f.pushedBack with
  | none => exact h.alike_plain hpos fits hq
  | some c => exact h.alike_pushed hpos fits hq

end Fgetcs

/-- **`fread` against the loop of `fgetc`.** In every state of an open stream and for every request
    of at least one byte: `fread` stores the bytes, returns the number of complete items and leaves
    the stream that `fgetc`, called until `EOF`, does, if and only if the state and the request meet
    `Alike`. -/
theorem fread_fgetcs_iff {data : Bytes} {f : CreteFile} (h : Reached data f)
    {size nitems : Nat} (hpos : 0 < size * nitems) (fits : size * nitems < 2 ^ 63) :
    FreadIsFgetcs size nitems f ↔ Alike size nitems f :=
  h.stands.alike hpos fits

/-- Two bytes of four, and four bytes of a file of four. -/
theorem fread_fgetcs_two :
    FreadIsFgetcs 1 2 { openHandle [97, 98, 99, 100] 0 0 with mode := .read } ∧
    ¬ FreadIsFgetcs 1 4 { openHandle [97, 98, 99, 100] 0 0 with mode := .read } :=
  ⟨(fread_fgetcs_iff (.opened 0 0 .read) (by decide) (by decide)).2 (.inr ⟨rfl, by decide⟩),
    fun h => by
      have ha := (fread_fgetcs_iff (.opened 0 0 .read) (by decide) (by decide)).1 h
      rcases ha with ⟨h0, -⟩ | ⟨-, h0⟩
      · cases h0
      · exact absurd h0 (by decide)⟩

/-- On a file of one byte `fread` delivers it and `fgetc` reports the end. -/
theorem fread_fgetcs_slip : ¬ FreadIsFgetcs 1 1 { openHandle [97] 0 0 with mode := .read } := by
  rintro ⟨bs, f', hl, hr⟩
  cases hl
  cases hr

end Crete.Hook
