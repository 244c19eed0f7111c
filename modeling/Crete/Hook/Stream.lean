/-
  File:      Crete/Hook/Stream.lean
  Subject:   Reading a concolic stream (lib/hook/hook.c): `fgetc`, `getc`, `fgets`, `fread` and
             `ungetc` on a `CRETE_FILE`.

  The stream keeps a position, the position of the LAST byte (`stream_end`, not one past it) and
  an end-of-file flag, and each reader has its own idea of when the end is reached:

  * `readByte` (under `fgetc` and `getc`) stops AT the last byte and never delivers it;
  * `fgets` reports the end when it stops just before the last byte;
  * `fread` delivers everything and never looks at the flag.

  Main results:

  * `Cursor` -- the invariant of a stream read so far without a slip: what was delivered is what
    stands before the position.
  * **`readsFile_iff`** -- a sequence of calls reads the file exactly when every call meets
    `StepOk` in the state it is made in.
-/
import Crete.Lib.Bytes
import Crete.Lib.Except

namespace Crete.Hook

open Crete.Lib List Option

/-! ## 1. The stream -/

/-- `enum FileMode`. -/
inductive FileMode where
  | none | read | write | append | rw | rwTrunc | appendRw
  deriving DecidableEq, Repr

/-- `CRETE_FILE`. Positions are offsets into `contents`; an index of `UINT_MAX` is `none`, and so
    is an empty `pushed_back` (`CRETE_EOF`). -/
structure CreteFile where
  concolicFileIndex : Option Nat
  concolicFileHandleIndex : Option Nat
  size : Nat
  contents : Bytes
  streamPos : Nat
  streamEnd : Int
  isOpen : Bool
  eof : Bool
  pushedBack : Option UInt8
  mode : FileMode
  deriving DecidableEq, Repr

/-- The handle `crete_symfile_open_concolic_file` sets up for the `fileIndex`-th concolic file,
    which holds `data`, in the `handleIndex`-th slot. -/
def openHandle (data : Bytes) (fileIndex handleIndex : Nat) : CreteFile where
  concolicFileIndex := some fileIndex
  concolicFileHandleIndex := some handleIndex
  size := data.length
  contents := data
  streamPos := 0
  streamEnd := (data.length : Int) - 1
  isOpen := true
  eof := false
  pushedBack := none
  mode := .none

/-- A read outside the object it should stay in. -/
inductive Fault where
  | outOfBounds
  deriving DecidableEq, Repr

/-! ## 2. The readers -/

/-- `crete_symfile_is_valid_read_stream`: only a stream that is BOTH closed and not in a reading
    mode is refused. -/
def isValidReadStream (f : CreteFile) : Bool :=
  !(!f.isOpen && !(f.mode = .read ∨ f.mode = .rw ∨ f.mode = .rwTrunc ∨ f.mode = .appendRw))

/-- `*stream_pos`. -/
def byteAt (f : CreteFile) (pos : Nat) : Except Fault UInt8 :=
  match f.contents[pos]? with
  | some c => .ok c
  | none => .error .outOfBounds

/-- `crete_symfile_read_byte`; `none` is `CRETE_EOF`. -/
def readByte (f : CreteFile) : Except Fault (Option UInt8 × CreteFile) :=
  if f.eof ∨ (f.streamPos : Int) = f.streamEnd then
    .ok (none, { f with eof := true })
  else
    match f.pushedBack with
    | some c => .ok (some c, { f with pushedBack := none })
    | none => do
        let c ← byteAt f f.streamPos
        return (some c, { f with streamPos := f.streamPos + 1 })

/-- `crete_symfile_remaining_read_bytes`. -/
def remainingReadBytes (f : CreteFile) : Int := f.streamEnd - f.streamPos + 1

/-- `fgetc` on a concolic stream. -/
def fgetc (f : CreteFile) : Except Fault (Option UInt8 × CreteFile) :=
  if isValidReadStream f then readByte f else .ok (none, f)

/-- `getc` on a concolic stream. -/
def getc (f : CreteFile) : Except Fault (Option UInt8 × CreteFile) := fgetc f

/-- `crete_symfile_memcpy` out of the stream; a negative count becomes a huge `size_t`. -/
def copyOut (f : CreteFile) (pos : Nat) (count : Int) : Except Fault Bytes :=
  if 0 ≤ count ∧ (pos : Int) + count ≤ f.contents.length then
    .ok ((f.contents.drop pos).take count.toNat)
  else .error .outOfBounds

/-- A `size_t` read as a `ptrdiff_t`. -/
def toPtrdiff (n : Nat) : Int :=
  let m : Nat := n % 2 ^ 64
  if m < 2 ^ 63 then m else (m : Int) - 2 ^ 64

/-- What `fread` did: the bytes stored in the caller's buffer and the returned count (`none` is
    `CRETE_EOF` as a `size_t`). -/
structure FreadReply where
  stored : Bytes
  ret : Option Nat
  deriving DecidableEq, Repr

/-- `fread` on a concolic stream. -/
def fread (size nitems : Nat) (f : CreteFile) : Except Fault (FreadReply × CreteFile) :=
  if isValidReadStream f then
    let itemsSize := toPtrdiff (size * nitems)
    if itemsSize = 0 then .ok (⟨[], some 0⟩, f)
    else
      let remaining := remainingReadBytes f
      let readSize := if itemsSize < remaining then itemsSize else remaining
      let (head, readSize, f) := match f.pushedBack with
        | some c => ([c], readSize - 1, { f with pushedBack := none })
        | none => ([], readSize, f)
      do
        let bs ← copyOut f f.streamPos readSize
        let pos := f.streamPos + bs.length
        let f := { f with streamPos := pos, eof := f.eof || decide ((pos : Int) = f.streamEnd) }
        return (⟨head ++ bs, some (readSize.toNat / size)⟩, f)
  else .ok (⟨[], none⟩, f)

/-- What `fgets` did: the bytes stored in the caller's buffer before the terminating NUL, and the
    returned pointer as an offset into that buffer (`none` is NULL). -/
structure FgetsReply where
  stored : Bytes
  ret : Option Nat
  deriving DecidableEq, Repr

/-- The copying loop of `fgets`: at most `k` bytes, up to and with the first newline. -/
def fgetsLoop (f : CreteFile) : Nat → Nat → Except Fault Bytes
  | 0, _ => .ok []
  | k + 1, pos => do
      let c ← byteAt f pos
      if c = 10 then return [c]
      else
        let cs ← fgetsLoop f k (pos + 1)
        return c :: cs

/-- `fgets` on a concolic stream. With a byte pushed back the returned pointer is one past the
    caller's, as `s` is advanced. -/
def fgets (n : Int) (f : CreteFile) : Except Fault (FgetsReply × CreteFile) :=
  if isValidReadStream f then
    if n ≤ 1 then .ok (⟨[], some 0⟩, f)
    else if f.eof then .ok (⟨[], none⟩, f)
    else
      let bytesToGet := n - 1
      let remaining := remainingReadBytes f
      let readSize := if bytesToGet < remaining then bytesToGet else remaining
      let (head, readSize, f) := match f.pushedBack with
        | some c => ([c], readSize - 1, { f with pushedBack := none })
        | none => ([], readSize, f)
      do
        let bs ← fgetsLoop f readSize.toNat f.streamPos
        let pos := f.streamPos + bs.length
        let f := { f with streamPos := pos }
        if (pos : Int) = f.streamEnd then
          return (⟨head ++ bs, none⟩, { f with eof := true })
        else
          return (⟨head ++ bs, some head.length⟩, f)
  else .ok (⟨[], none⟩, f)

/-- `ungetc` on a concolic stream; `none` is `CRETE_EOF`. -/
def ungetc (c : Option UInt8) (f : CreteFile) : Option UInt8 × CreteFile :=
  match c, f.pushedBack with
  | none, _ => (none, f)
  | some _, some _ => (none, f)
  | some c, none => (some c, { f with pushedBack := some c, eof := false })

/-! ## 3. Calls, and what a file should answer -/

/-- A reading call. `fread`'s buffer of `size * nitems` bytes exists, so its size is a
    `ptrdiff_t`. -/
inductive Call where
  | fgetc
  | getc
  | fgets (n : Int)
  | fread (size nitems : Nat) (fits : size * nitems < 2 ^ 63)
  deriving DecidableEq

/-- What a call handed back. -/
inductive Reply where
  | byte (c : Option UInt8)
  | line (r : FgetsReply)
  | items (r : FreadReply)
  deriving DecidableEq, Repr

/-- One call on the stream. -/
def step (c : Call) (f : CreteFile) : Except Fault (Reply × CreteFile) :=
  match c with
  | .fgetc => do let (r, f) ← fgetc f; return (.byte r, f)
  | .getc => do let (r, f) ← getc f; return (.byte r, f)
  | .fgets n => do let (r, f) ← fgets n f; return (.line r, f)
  | .fread size nitems _ => do let (r, f) ← fread size nitems f; return (.items r, f)

/-- The bytes a reply hands to the caller. -/
def Reply.delivered : Reply → Bytes
  | .byte c => c.toList
  | .line r => r.stored
  | .items r => r.stored

/-- A reply signals end of file: `EOF`, NULL, or a short count for a request of some bytes. -/
def Reply.SignalsEof (c : Call) : Reply → Prop
  | .byte r => r = none
  | .line r => r.ret = none
  | .items r => match c with
    | .fread size nitems _ => size * nitems ≠ 0 ∧ ∀ k ∈ r.ret, k < nitems
    | _ => False

/-- **What a file holding `data` owes the caller** of `c` after `delivered`: the bytes so far
    stay a prefix of the file, end of file is signalled only when they are the whole of it, and
    after the whole of it nothing is delivered. -/
structure Answers (data delivered : Bytes) (c : Call) (r : Reply) : Prop where
  prefixed : delivered ++ r.delivered <+: data
  eof : r.SignalsEof c → delivered ++ r.delivered = data
  stop : delivered = data → r.delivered = []

/-- Every call of the sequence returns, and answers as a file holding `data` should. -/
def ReadsFile (data : Bytes) : Bytes → CreteFile → List Call → Prop
  | _, _, [] => True
  | d, f, c :: cs => match step c f with
    | .ok (r, f') => Answers data d c r ∧ ReadsFile data (d ++ r.delivered) f' cs
    | .error _ => False

/-- The bytes `fgets` takes from `bs`: at most `k`, up to and with the first newline. -/
def lineOf : Nat → Bytes → Bytes
  | 0, _ => []
  | _ + 1, [] => []
  | k + 1, c :: cs => if c = 10 then [c] else c :: lineOf k cs

/-- **The condition on one call**, in the state it is made in. `fgetc` and `getc`: at least two
    bytes are left, or none is left and the end-of-file flag is set. `fgets` of at least one
    byte: it does not stop one byte before the end, and finds the flag set only at the end. -/
def StepOk (f : CreteFile) : Call → Prop
  | .fgetc | .getc =>
    f.streamPos + 1 < f.contents.length ∨ f.eof = true ∧ f.streamPos = f.contents.length
  | .fgets n => n ≤ 1 ∨
      if f.eof then f.streamPos = f.contents.length
      else f.streamPos + (lineOf (n - 1).toNat (f.contents.drop f.streamPos)).length + 1 ≠
        f.contents.length
  | .fread .. => True

/-- Every call of the sequence meets the condition in the state it is made in. -/
def AllOk : CreteFile → List Call → Prop
  | _, [] => True
  | f, c :: cs => StepOk f c ∧ match step c f with
    | .ok (_, f') => AllOk f' cs
    | .error _ => True

instance (c : Call) : ∀ r : Reply, Decidable (r.SignalsEof c)
  | .byte r => inferInstanceAs (Decidable (r = none))
  | .line r => inferInstanceAs (Decidable (r.ret = none))
  | .items r => match c with
    | .fread size nitems _ => match hr : r.ret with
      | none => decidable_of_iff (size * nitems ≠ 0) (by simp [Reply.SignalsEof, hr])
      | some k => decidable_of_iff (size * nitems ≠ 0 ∧ k < nitems)
          (by simp [Reply.SignalsEof, hr])
    | .fgetc => isFalse id
    | .getc => isFalse id
    | .fgets _ => isFalse id

instance (data d : Bytes) (c : Call) (r : Reply) : Decidable (Answers data d c r) :=
  decidable_of_iff (d ++ r.delivered <+: data ∧ (r.SignalsEof c → d ++ r.delivered = data) ∧
      (d = data → r.delivered = []))
    ⟨fun h => ⟨h.1, h.2.1, h.2.2⟩, fun h => ⟨h.prefixed, h.eof, h.stop⟩⟩

instance decidableReadsFile (data : Bytes) :
    ∀ (d : Bytes) (f : CreteFile) (cs : List Call), Decidable (ReadsFile data d f cs)
  | _, _, [] => isTrue trivial
  | d, f, c :: cs => by
    unfold ReadsFile
    exact match step c f with
      | .ok (r, f') =>
        have := decidableReadsFile data (d ++ r.delivered) f' cs
        inferInstanceAs (Decidable (_ ∧ _))
      | .error _ => isFalse id

/-! ## 4. The cursor -/

variable {data : Bytes} {f : CreteFile}

/-- **An open stream over `data`**, whatever is pushed back and whatever the flag says: the position
    is inside the contents or right behind them. -/
structure Stands (data : Bytes) (f : CreteFile) : Prop where
  contents : f.contents = data
  streamEnd : f.streamEnd = (data.length : Int) - 1
  isOpen : f.isOpen = true
  pos_le : f.streamPos ≤ data.length

section Stands

variable (h : Stands data f)

include h

theorem Stands.valid : isValidReadStream f = true := by
  simp [isValidReadStream, h.isOpen]

/-- The position is at the last byte. -/
theorem Stands.at_end (p : Nat) : (p : Int) = f.streamEnd ↔ p + 1 = data.length := by
  rw [h.streamEnd]
  omega

theorem Stands.remaining : remainingReadBytes f = ((data.length - f.streamPos : Nat) : Int) := by
  have hp := h.pos_le
  rw [remainingReadBytes, h.streamEnd]
  omega

end Stands

/-- **The stream over `data` after `delivered`**, read without a slip. The flag is never set
    before the last byte. -/
structure Cursor (data delivered : Bytes) (f : CreteFile) : Prop extends Stands data f where
  pushedBack : f.pushedBack = none
  delivered : delivered = data.take f.streamPos
  eof : f.eof = true → data.length ≤ f.streamPos + 1

section Cursor

variable {data d : Bytes} {f : CreteFile} (h : Cursor data d f)

include h

theorem Cursor.length : d.length = f.streamPos := by
  rw [h.delivered, length_take, Nat.min_eq_left h.pos_le]

/-- Everything has been delivered exactly when the position is at the end. -/
theorem Cursor.whole_iff : d = data ↔ f.streamPos = data.length := by
  constructor
  · intro e
    rw [← h.length, e]
  · intro e
    rw [h.delivered, e, take_length]

/-- **Moving on by the next bytes keeps the cursor.** -/
theorem Cursor.advance {bs : Bytes} (hb : bs <+: data.drop f.streamPos)
    {e : Bool} (he : e = true → data.length ≤ f.streamPos + bs.length + 1) :
    Cursor data (d ++ bs) { f with streamPos := f.streamPos + bs.length, eof := e } := by
  have hpos : f.streamPos + bs.length ≤ data.length := by
    have hl := hb.length_le
    have hp := h.pos_le
    rw [length_drop] at hl
    omega
  have hbs : d ++ bs = data.take (f.streamPos + bs.length) := by
    rw [take_add, ← h.delivered, prefix_iff_eq_take.1 hb]
    simp
  exact { h with pos_le := hpos, delivered := hbs, eof := he }

/-- The next bytes extend what was delivered. -/
theorem Cursor.prefixed {bs : Bytes} (hb : bs <+: data.drop f.streamPos) :
    d ++ bs <+: data := by
  have hc := h.advance (e := false) hb (fun he => by cases he)
  rw [hc.delivered]
  exact take_prefix _ _

end Cursor

/-! ## 5. Each reader at a cursor -/

theorem lineOf_initial : ∀ (k : Nat) (bs : Bytes), lineOf k bs <+: bs
  | 0, bs => nil_prefix
  | _ + 1, [] => nil_prefix
  | k + 1, c :: cs => by
    unfold lineOf
    split
    · exact ⟨cs, rfl⟩
    · exact (prefix_cons_inj c).2 (lineOf_initial k cs)

/-- A limit beyond the end of the bytes is no limit. -/
theorem lineOf_min : ∀ (k : Nat) (bs : Bytes), lineOf (min k bs.length) bs = lineOf k bs
  | 0, bs => by simp
  | k + 1, [] => by simp [lineOf]
  | k + 1, c :: cs => by
    rw [length_cons, Nat.add_min_add_right, lineOf, lineOf, lineOf_min k cs]

theorem byteAt_of_drop {pos : Nat} {c : UInt8} {cs : Bytes}
    (h : f.contents.drop pos = c :: cs) : byteAt f pos = .ok c := by
  have e : f.contents[pos]? = some c := by
    rw [← head?_drop, h]
    rfl
  rw [byteAt, e]

/-- **The copying loop of `fgets`** takes the line, and stays inside the contents. -/
theorem fgetsLoop_eq (f : CreteFile) : ∀ (k pos : Nat), pos + k ≤ f.contents.length →
    fgetsLoop f k pos = .ok (lineOf k (f.contents.drop pos))
  | 0, pos, _ => rfl
  | k + 1, pos, h => by
    cases hd : f.contents.drop pos with
    | nil =>
      have hl := drop_eq_nil_iff.1 hd
      omega
    | cons c cs =>
      have ht : f.contents.drop (pos + 1) = cs := by
        rw [← drop_drop, hd, drop_succ_cons, drop_zero]
      rw [fgetsLoop, byteAt_of_drop hd, ok_bind, fgetsLoop_eq f k (pos + 1) (by omega), ht, lineOf]
      split <;> rfl

section Readers

variable {data d : Bytes} {f : CreteFile}

variable {size nitems : Nat} {bs : Bytes}

/-- The smaller of what is asked for and what is left. -/
theorem ite_lt_eq_min (a b : Nat) : (if (a : Int) < b then (a : Int) else b) = (min a b : Nat) := by
  split <;> omega

/-- The count of `fread`, as a `ptrdiff_t`. -/
theorem toPtrdiff_of_lt {k : Nat} (h : k < 2 ^ 63) : toPtrdiff k = k := by
  have hm : k % 2 ^ 64 = k := Nat.mod_eq_of_lt (by omega)
  simp only [toPtrdiff, hm, if_pos h]

section Stands

variable (h : Stands data f)

include h

/-- `fgetc` when the flag is set or the last byte is next. -/
theorem Stands.fgetc_eof (hp : f.eof = true ∨ f.streamPos + 1 = data.length) :
    fgetc f = .ok (none, { f with eof := true }) := by
  rw [fgetc, if_pos h.valid, readByte, if_pos (hp.imp id (h.at_end _).2)]

section

variable (he : f.eof = false)

include he

theorem Stands.not_at_end (hp : f.streamPos + 1 ≠ data.length) :
    ¬ (f.eof = true ∨ (f.streamPos : Int) = f.streamEnd) := by
  rw [he, h.at_end]
  rintro (h0 | h0)
  · cases h0
  · exact hp h0

/-- `fgetc` hands out a byte pushed back. -/
theorem Stands.fgetc_pushed
    (hp : f.streamPos + 1 ≠ data.length) {c : UInt8} (hq : f.pushedBack = some c) :
    fgetc f = .ok (some c, { f with pushedBack := none }) := by
  rw [fgetc, if_pos h.valid, readByte, if_neg (h.not_at_end he hp)]
  simp only [hq]

/-- `fgetc` with at least two bytes left. -/
theorem Stands.fgetc_next (hq : f.pushedBack = none) (hp : f.streamPos + 1 < data.length) :
    fgetc f = .ok (some data[f.streamPos], { f with streamPos := f.streamPos + 1 }) := by
  have hd : data.drop f.streamPos = data[f.streamPos] :: data.drop (f.streamPos + 1) :=
    drop_eq_getElem_cons (by omega)
  rw [fgetc, if_pos h.valid, readByte, if_neg (h.not_at_end he (by omega))]
  simp only [hq]
  rw [byteAt_of_drop (by rw [h.contents]; exact hd)]
  rfl

/-- `fgetc` past the last byte with the flag clear reads outside the contents. -/
theorem Stands.fgetc_fault (hq : f.pushedBack = none)
    (hp : f.streamPos = data.length) : fgetc f = .error .outOfBounds := by
  have hb : f.contents[f.streamPos]? = none := by
    rw [h.contents, hp]
    simp
  rw [fgetc, if_pos h.valid, readByte, if_neg (h.not_at_end he (by omega))]
  simp only [hq, byteAt, hb]
  rfl

end

/-- **`fgets` with the flag clear**, for at least one byte: the byte pushed back and the line that
    follows. A byte pushed back counts against what is left in the file. -/
theorem Stands.fgets_line {n : Int} (hn : 1 < n) (he : f.eof = false)
    (hbs : lineOf (min (n - 1).toNat (data.length - f.streamPos) - f.pushedBack.toList.length)
      (data.drop f.streamPos) = bs) :
    fgets n f = if f.streamPos + bs.length + 1 = data.length then
        .ok (⟨f.pushedBack.toList ++ bs, none⟩,
          { f with pushedBack := none, streamPos := f.streamPos + bs.length, eof := true })
      else .ok (⟨f.pushedBack.toList ++ bs, some f.pushedBack.toList.length⟩,
          { f with pushedBack := none, streamPos := f.streamPos + bs.length }) := by
  have hp := h.pos_le
  rw [fgets, if_pos h.valid, if_neg (by omega), if_neg (by rw [he]; exact Bool.false_ne_true)]
  have hloop : ∀ g : CreteFile, g.contents = data → ∀ k : Int,
      k.toNat = min (n - 1).toNat (data.length - f.streamPos) - f.pushedBack.toList.length →
      fgetsLoop g k.toNat f.streamPos = .ok bs := by
    intro g hg k hk
    rw [hk, fgetsLoop_eq, hg, hbs]
    rw [hg]
    omega
  have hend := h.at_end (f.streamPos + bs.length)
  cases hq : f.pushedBack with
  | none =>
    simp only [hq, h.remaining, toList_none, nil_append, length_nil] at *
    rw [hloop f h.contents _ (by split <;> omega)]
    simp only [ok_bind, hend]
    split <;> rfl
  | some c =>
    simp only [hq, h.remaining, toList_some, singleton_append, length_singleton] at *
    rw [hloop { f with pushedBack := none } h.contents _ (by split <;> omega)]
    simp only [ok_bind, hend]
    split <;> rfl

variable (hs : size * nitems ≠ 0) (fits : size * nitems < 2 ^ 63)

include hs fits

/-- `fread` of at least one byte, before the copy. -/
theorem Stands.fread_unfold : fread size nitems f = (do
      let readSize : Int := (min (size * nitems) (data.length - f.streamPos) : Nat) -
        (f.pushedBack.toList.length : Int)
      let bs ← copyOut f f.streamPos readSize
      return (⟨f.pushedBack.toList ++ bs, some (readSize.toNat / size)⟩, { f with
          pushedBack := none
          streamPos := f.streamPos + bs.length
          eof := f.eof || decide (((f.streamPos + bs.length : Nat) : Int) = f.streamEnd) })) := by
  rw [fread, if_pos h.valid]
  simp only [toPtrdiff_of_lt fits, h.remaining, ite_lt_eq_min]
  rw [if_neg (by omega)]
  cases hq : f.pushedBack with
  | none => simp [hq]
  | some c => simp [copyOut]

/-- **`fread` of at least one byte** delivers the byte pushed back and what is there, whatever the
    flag says, as long as the copy has room for the byte pushed back. -/
theorem Stands.fread_items
    (hroom : f.pushedBack.toList.length ≤ min (size * nitems) (data.length - f.streamPos))
    (hbs : (data.drop f.streamPos).take (min (size * nitems) (data.length - f.streamPos) -
      f.pushedBack.toList.length) = bs) :
    fread size nitems f = .ok (⟨f.pushedBack.toList ++ bs, some (bs.length / size)⟩, { f with
        pushedBack := none
        streamPos := f.streamPos + bs.length
        eof := f.eof || decide (((f.streamPos + bs.length : Nat) : Int) = f.streamEnd) }) := by
  have hp := h.pos_le
  have hlen : bs.length =
      min (size * nitems) (data.length - f.streamPos) - f.pushedBack.toList.length := by
    rw [← hbs, length_take, length_drop]
    omega
  have hread : (min (size * nitems) (data.length - f.streamPos) : Nat) -
      (f.pushedBack.toList.length : Int) = (bs.length : Int) := by
    omega
  have hcopy : copyOut f f.streamPos (bs.length : Int) = .ok bs := by
    rw [copyOut, h.contents, if_pos ⟨by omega, by omega⟩, Int.toNat_natCast, hlen, hbs]
  rw [h.fread_unfold hs fits]
  simp only [hread, hcopy, ok_bind, Int.toNat_natCast]
  rfl

/-- `fread` behind the last byte with a byte pushed back copies `-1` bytes. -/
theorem Stands.fread_fault {c : UInt8} (hq : f.pushedBack = some c)
    (hp : f.streamPos = data.length) : fread size nitems f = .error .outOfBounds := by
  rw [h.fread_unfold hs fits]
  simp [hq, hp, copyOut]

end Stands

/-! A cursor has nothing pushed back. -/

variable (h : Cursor data d f)

include h

theorem Cursor.fgetc_next (hp : f.streamPos + 1 < data.length) :
    ∃ c, [c] <+: data.drop f.streamPos ∧
      fgetc f = .ok (some c, { f with streamPos := f.streamPos + 1 }) := by
  have he : f.eof = false := by
    rw [← Bool.not_eq_true]
    intro he
    have := h.eof he
    omega
  have hd : data.drop f.streamPos = data[f.streamPos] :: data.drop (f.streamPos + 1) :=
    drop_eq_getElem_cons (by omega)
  exact ⟨data[f.streamPos], ⟨data.drop (f.streamPos + 1), hd.symm⟩,
    h.toStands.fgetc_next he h.pushedBack hp⟩

theorem Cursor.fgets_line {n : Int} (hn : 1 < n) (he : f.eof = false)
    (hbs : lineOf (n - 1).toNat (data.drop f.streamPos) = bs) :
    fgets n f = if f.streamPos + bs.length + 1 = data.length then
        .ok (⟨bs, none⟩, { f with streamPos := f.streamPos + bs.length, eof := true })
      else .ok (⟨bs, some 0⟩, { f with streamPos := f.streamPos + bs.length }) := by
  have hline : lineOf (min (n - 1).toNat (data.length - f.streamPos) -
      f.pushedBack.toList.length) (data.drop f.streamPos) = bs := by
    rw [h.pushedBack, toList_none, length_nil, Nat.sub_zero, ← length_drop, lineOf_min, hbs]
  rw [h.toStands.fgets_line hn he hline]
  simp [h.pushedBack]

theorem Cursor.fread_items (hs : size * nitems ≠ 0) (fits : size * nitems < 2 ^ 63)
    (hbs : (data.drop f.streamPos).take (size * nitems) = bs) :
    fread size nitems f = .ok (⟨bs, some (bs.length / size)⟩, { f with
        streamPos := f.streamPos + bs.length
        eof := f.eof || decide (((f.streamPos + bs.length : Nat) : Int) = f.streamEnd) }) := by
  have htake : (data.drop f.streamPos).take (min (size * nitems) (data.length - f.streamPos) -
      f.pushedBack.toList.length) = bs := by
    rw [h.pushedBack, toList_none, length_nil, Nat.sub_zero, ← length_drop, ← take_eq_take_min, hbs]
  rw [h.toStands.fread_items hs fits (by simp [h.pushedBack]) htake]
  simp [h.pushedBack]

end Readers

/-! ## 6. One call, then a sequence of calls -/

/-- The call returns, answers as the file should, and leaves a cursor. -/
def Good (data d : Bytes) (f : CreteFile) (c : Call) : Prop :=
  ∃ r f', step c f = .ok (r, f') ∧ Answers data d c r ∧ Cursor data (d ++ r.delivered) f'

section Good

variable {data d : Bytes} {f : CreteFile} (h : Cursor data d f)

include h

theorem Cursor.setEof (hp : data.length ≤ f.streamPos + 1) : Cursor data d { f with eof := true } :=
  { h with eof := fun _ => hp }

/-- A call that delivers nothing is right to signal the end at the end only. -/
theorem Cursor.good_empty {c : Call} {r : Reply} {f' : CreteFile} (hs : step c f = .ok (r, f'))
    (hr : r.delivered = []) (he : r.SignalsEof c → f.streamPos = data.length)
    (hc : Cursor data d f') : Good data d f c := by
  refine ⟨r, f', hs, ⟨?_, fun h0 => ?_, fun _ => hr⟩, ?_⟩
  · rw [hr]
    exact h.prefixed nil_prefix
  · rw [hr, append_nil]
    exact h.whole_iff.2 (he h0)
  · rwa [hr, append_nil]

/-- **One call of `fgetc`** answers as the file should exactly under its condition, and keeps the
    cursor then. -/
theorem fgetc_good {c : Call} (hc : c = .fgetc ∨ c = .getc)
    (hok : StepOk f c) : Good data d f c := by
  have hstep : step c f = (do let (r, f) ← fgetc f; return (.byte r, f)) := by
    rcases hc with rfl | rfl <;> rfl
  have hok' : f.streamPos + 1 < data.length ∨ f.eof = true ∧ f.streamPos = data.length := by
    rcases hc with rfl | rfl <;> exact h.contents ▸ hok
  unfold Good
  rcases hok' with hp | ⟨he, hp⟩
  · obtain ⟨b, hb, hf⟩ := h.fgetc_next hp
    refine ⟨.byte (some b), _, by rw [hstep, hf]; rfl, ⟨h.prefixed hb, ?_, ?_⟩, ?_⟩
    · intro hs
      cases hs
    · intro hd
      have := h.whole_iff.1 hd
      omega
    · refine h.advance hb (e := f.eof) (fun he => ?_)
      have := h.eof he
      simp only [length_singleton]
      omega
  · refine h.good_empty (r := .byte none) ?_ rfl (fun _ => hp) (h.setEof (by omega))
    rw [hstep, h.toStands.fgetc_eof (.inl he)]
    rfl

/-- Outside its condition `fgetc` signals the end early, or reads outside the contents. -/
theorem fgetc_bad {c : Call} (hc : c = .fgetc ∨ c = .getc) {r : Reply}
    {f' : CreteFile} (hs : step c f = .ok (r, f')) (ha : Answers data d c r) : StepOk f c := by
  have hstep : step c f = (do let (r, f) ← fgetc f; return (.byte r, f)) := by
    rcases hc with rfl | rfl <;> rfl
  suffices hok : f.streamPos + 1 < data.length ∨ f.eof = true ∧ f.streamPos = data.length by
    rw [← h.contents] at hok
    rcases hc with rfl | rfl <;> exact hok
  rw [hstep] at hs
  have hp := h.pos_le
  by_cases hlt : f.streamPos + 1 < data.length
  · exact .inl hlt
  · by_cases hend : f.eof = true ∨ f.streamPos + 1 = data.length
    · rw [h.toStands.fgetc_eof hend] at hs
      cases hs
      -- the end is signalled, so everything must have been delivered
      have hd : d ++ [] = data := ha.eof rfl
      rw [append_nil, h.whole_iff] at hd
      rcases hend with he | he
      · exact .inr ⟨he, hd⟩
      · omega
    · have he : f.eof = false := by simpa using fun h0 => hend (.inl h0)
      have hpn : f.streamPos = data.length := by
        have : ¬ f.streamPos + 1 = data.length := fun h0 => hend (.inr h0)
        omega
      rw [h.toStands.fgetc_fault he h.pushedBack hpn] at hs
      cases hs

/-- One call of `fgets` under its condition. -/
theorem fgets_good {n : Int} (hok : StepOk f (.fgets n)) : Good data d f (.fgets n) := by
  unfold Good
  by_cases hn : n ≤ 1
  · -- nothing is asked for
    refine h.good_empty (r := .line ⟨[], some 0⟩) ?_ rfl (fun hs => by cases hs) h
    simp only [step, fgets, if_pos h.valid, if_pos hn]
    rfl
  have hok' := hok.resolve_left hn
  rw [h.contents] at hok'
  by_cases he : f.eof = true
  · rw [if_pos he] at hok'
    refine h.good_empty (r := .line ⟨[], none⟩) ?_ rfl (fun _ => hok') h
    simp only [step, fgets, if_pos h.valid, if_neg hn, if_pos he]
    rfl
  · rw [if_neg he] at hok'
    have hb := lineOf_initial (n - 1).toNat (data.drop f.streamPos)
    have hline := h.fgets_line (n := n) (by omega) (by simpa using he) rfl
    rw [if_neg hok'] at hline
    refine ⟨.line ⟨_, some 0⟩, _, by rw [step, hline]; rfl, ⟨h.prefixed hb, ?_, ?_⟩, ?_⟩
    · intro hs
      cases hs
    · intro hd
      rw [h.whole_iff.1 hd, drop_length] at hb
      rw [Reply.delivered, h.whole_iff.1 hd, drop_length]
      exact prefix_nil.1 hb
    · exact h.advance hb (e := f.eof) (fun h0 => absurd h0 he)

/-- Outside its condition `fgets` returns NULL with bytes of the file outstanding. -/
theorem fgets_bad {n : Int} {r : Reply} {f' : CreteFile}
    (hs : step (.fgets n) f = .ok (r, f')) (ha : Answers data d (.fgets n) r) :
    StepOk f (.fgets n) := by
  by_cases hn : n ≤ 1
  · exact .inl hn
  refine .inr ?_
  rw [h.contents]
  by_cases he : f.eof = true
  · rw [if_pos he]
    simp only [step, fgets, if_pos h.valid, if_neg hn, if_pos he] at hs
    cases hs
    have hd : d ++ [] = data := ha.eof rfl
    rwa [append_nil, h.whole_iff] at hd
  · rw [if_neg he]
    intro hend
    have hline := h.fgets_line (n := n) (by omega) (by simpa using he) rfl
    rw [if_pos hend] at hline
    rw [step, hline] at hs
    cases hs
    have hd : d ++ lineOf (n - 1).toNat (data.drop f.streamPos) = data := ha.eof rfl
    have hl := congrArg List.length hd
    rw [length_append, h.length] at hl
    omega

/-- **`fread` always answers as the file should.** -/
theorem fread_good {size nitems : Nat} (fits : size * nitems < 2 ^ 63) :
    Good data d f (.fread size nitems fits) := by
  unfold Good
  by_cases hz : size * nitems = 0
  · refine h.good_empty (r := .items ⟨[], some 0⟩) ?_ rfl (fun hs => absurd hz hs.1) h
    simp only [step, fread, if_pos h.valid, hz]
    rfl
  · have hb := take_prefix (size * nitems) (data.drop f.streamPos)
    have hread := h.fread_items hz fits rfl
    refine ⟨.items ⟨_, some _⟩, _, by rw [step, hread]; rfl, ⟨h.prefixed hb, ?_, ?_⟩, ?_⟩
    · intro hs
      have hlt := hs.2 _ rfl
      have hsize : 0 < size := Nat.pos_of_ne_zero (fun h0 => hz (by rw [h0, Nat.zero_mul]))
      rw [Nat.div_lt_iff_lt_mul hsize, Nat.mul_comm nitems, length_take] at hlt
      -- fewer bytes than asked for, so all that were left
      show d ++ (data.drop f.streamPos).take (size * nitems) = data
      rw [take_of_length_le (by omega), h.delivered, take_append_drop]
    · intro hd
      rw [Reply.delivered, h.whole_iff.1 hd, drop_length, take_nil]
    · refine h.advance hb (fun he => ?_)
      rw [Bool.or_eq_true, decide_eq_true_eq, h.streamEnd] at he
      rcases he with he | he
      · have := h.eof he
        omega
      · omega

/-- **One call at a cursor**: under `StepOk` it answers as the file should and keeps the cursor. -/
theorem step_good : ∀ (c : Call), StepOk f c → Good data d f c
  | .fgetc, hok => fgetc_good h (.inl rfl) hok
  | .getc, hok => fgetc_good h (.inr rfl) hok
  | .fgets _, hok => fgets_good h hok
  | .fread _ _ fits, _ => fread_good h fits

/-- **One call at a cursor**: only under `StepOk` does it answer as the file should. -/
theorem step_bad : ∀ (c : Call) {r : Reply} {f' : CreteFile},
    step c f = .ok (r, f') → Answers data d c r → StepOk f c
  | .fgetc, _, _, hs, ha => fgetc_bad h (.inl rfl) hs ha
  | .getc, _, _, hs, ha => fgetc_bad h (.inr rfl) hs ha
  | .fgets _, _, _, hs, ha => fgets_bad h hs ha
  | .fread .., _, _, _, _ => trivial

end Good

/-- **From any cursor** a sequence of calls reads the rest of the file exactly when every call
    meets its condition. -/
theorem readsFile_iff_of_cursor : ∀ (cs : List Call) {d : Bytes}
    {f : CreteFile}, Cursor data d f → (ReadsFile data d f cs ↔ AllOk f cs)
  | [], _, _, _ => Iff.rfl
  | c :: cs, d, f, h => by
    unfold ReadsFile AllOk
    by_cases hok : StepOk f c
    · obtain ⟨r, f', hs, ha, hc⟩ := step_good h c hok
      simp only [hs, ha, hok, true_and]
      exact readsFile_iff_of_cursor cs hc
    · simp only [hok, false_and, iff_false]
      intro hr
      cases hs : step c f with
      | error e =>
        rw [hs] at hr
        exact hr
      | ok p =>
        rw [hs] at hr
        exact hok (step_bad h c hs hr.1)

/-- A freshly opened stream is a cursor before the first byte. -/
theorem openHandle_cursor (data : Bytes) (i j : Nat) (m : FileMode) :
    Cursor data [] { openHandle data i j with mode := m } where
  contents := rfl
  streamEnd := rfl
  pushedBack := rfl
  isOpen := rfl
  pos_le := Nat.zero_le _
  delivered := rfl
  eof := fun h => by cases h

/-- **Reading a concolic stream.** For every file and every sequence of `fgetc`, `getc`, `fgets`
    and `fread` calls on a freshly opened stream: all calls return and answer as the file should,
    if and only if every call meets `StepOk` in the state it is made in. -/
theorem readsFile_iff (data : Bytes) (i j : Nat) (m : FileMode) (cs : List Call) :
    ReadsFile data [] { openHandle data i j with mode := m } cs ↔
      AllOk { openHandle data i j with mode := m } cs :=
  readsFile_iff_of_cursor cs (openHandle_cursor data i j m)

/-- The three slips. `fgetc` reports the end of a one-byte file without delivering its byte;
    `fgets` returns NULL one byte before the end; after `fread` took the last byte, `fgetc`
    reads outside the contents. -/
theorem readsFile_slips : ¬ ReadsFile [97] [] { openHandle [97] 0 0 with mode := .read } [.fgetc] ∧
    ¬ ReadsFile [97, 98] [] { openHandle [97, 98] 0 0 with mode := .read } [.fgets 2] ∧
    ¬ ReadsFile [97] [] { openHandle [97] 0 0 with mode := .read }
      [.fread 1 1 (by decide), .fgetc] := by
  decide

end Crete.Hook
