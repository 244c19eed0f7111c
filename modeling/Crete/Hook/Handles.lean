/-
  File:      Crete/Hook/Handles.lean
  Subject:   The handle table of the hook (lib/hook/hook.c) and how a stream pointer is told to
             be CRETE's or the C library's: `fopen`, `fclose`, `freopen(stdin)`, and any other
             stdio call on a pointer.

  The table hands out the first free slot and frees slots in any order, but
  `crete_symfile_is_stream_concolic` takes the NUMBER of open handles as the bound on slot
  indices. `stdin` is redirected to a handle of its own, whether or not that handle was set up.

  * `Sound`, `RoutedRight` -- the classification property of a state and of one call.
  * `Packed` -- the invariant under which the count is a right bound: the slots in use are
    exactly those below it.
  * **`runSound_iff`** -- a run classifies every pointer rightly exactly when every call of it
    meets `CallOk`.
-/
import Crete.Hook.Stream
import Mathlib.Data.Fin.Basic

namespace Crete.Hook

open Crete.Lib List Function

/-! ## 1. The handle table -/

/-- `CRETE_MAX_CONCOLIC_FILE_HANDLE_ENTRIES`. -/
abbrev maxHandles : Nat := 16

/-- `CreteConcolicFile`; `crete_make_concolic_file` asserts that the size is not zero. -/
structure ConcolicFile where
  name : String
  data : Bytes
  nonempty : data ≠ []

/-- A stream pointer: NULL, the C library's `stdin`, `&crete_stdin_concolic_handle_v`, a slot of
    the handle table, or a `FILE` the C library made. -/
inductive Ptr where
  | null
  | stdin
  | stdinV
  | entry (i : Fin maxHandles)
  | libc (k : Nat)
  deriving DecidableEq, Repr

/-- The globals of hook.c. -/
structure Handles where
  files : List ConcolicFile
  size : Nat
  entries : Fin maxHandles → CreteFile
  entryIsInUse : Fin maxHandles → Bool
  stdinHandleV : CreteFile
  stdinHandle : Ptr

/-- How a call can end other than by returning. -/
inductive Stop where
  | handleLimit
  | assertion (expr : String)
  | wildPointer
  deriving DecidableEq, Repr

/-- `crete_symfile_is_stream_concolic`. Only the table's own slots lie between its first slot and
    the slot before the `size`-th; with no handle open no pointer does. -/
def isStreamConcolic (h : Handles) (p : Ptr) : Bool :=
  p = h.stdinHandle || match p with
    | .entry i => decide (i.val < h.size)
    | _ => false

/-- `crete_get_associated_stream`. -/
def getAssociatedStream (h : Handles) (p : Ptr) : Ptr :=
  if p = .stdin then h.stdinHandle else p

/-- The object behind a pointer that is taken for a `CRETE_FILE*`. -/
def deref (h : Handles) : Ptr → Except Stop CreteFile
  | .entry i => .ok (h.entries i)
  | .stdinV => .ok h.stdinHandleV
  | _ => .error .wildPointer

/-- Writes through such a pointer. -/
def store (h : Handles) (f : CreteFile) : Ptr → Except Stop Handles
  | .entry i => .ok { h with entries := update h.entries i f }
  | .stdinV => .ok { h with stdinHandleV := f }
  | _ => .error .wildPointer

/-- The first concolic file of that name, with its index. -/
def findFile (name : String) : List ConcolicFile → Option (Nat × ConcolicFile)
  | [] => none
  | f :: fs => if f.name = name then some (0, f) else
      (findFile name fs).map fun (i, f) => (i + 1, f)

/-- The first slot not in use. -/
def firstFree (inUse : Fin maxHandles → Bool) : Option (Fin maxHandles) :=
  (List.finRange maxHandles).find? fun i => !inUse i

/-- `crete_symfile_open_concolic_file`; `none` if there is no concolic file of that name. -/
def openConcolicFile (h : Handles) (name : String) :
    Except Stop (Option (Fin maxHandles) × Handles) :=
  match findFile name h.files with
  | none => .ok (none, h)
  | some (k, file) => do
      ensure (h.size + 1 < maxHandles) .handleLimit
      match firstFree h.entryIsInUse with
      | none => .error .wildPointer
      | some i => .ok (some i, { h with
          entryIsInUse := update h.entryIsInUse i true
          size := h.size + 1
          entries := update h.entries i (openHandle file.data k i) })

/-- `crete_symfile_reset`: everything but a pushed-back byte. -/
def resetFile (f : CreteFile) : CreteFile where
  concolicFileIndex := none
  concolicFileHandleIndex := none
  size := 0
  contents := []
  streamPos := 0
  streamEnd := 0
  isOpen := false
  eof := false
  pushedBack := f.pushedBack
  mode := .none

/-- `crete_symfile_close_concolic_file`. -/
def closeConcolicFile (h : Handles) (p : Ptr) : Except Stop Handles := do
  let f ← deref h p
  if f.isOpen then
    match f.concolicFileHandleIndex with
    | none => .error (.assertion "stream->concolic_file_handle_index != UINT_MAX")
    | some j =>
      let h := { h with entryIsInUse := fun i => if i.val = j then false else h.entryIsInUse i }
      ensure (f.contents ≠ [] ∧ f.size ≠ 0) (.assertion "stream->contents && stream->size")
      let h ← store h (resetFile f) p
      ensure (h.size > 0) (.assertion "crete_concolic_file_handles.size > 0")
      return { h with size := h.size - 1 }
  else return h

/-- `crete_set_up_mode`. -/
def setUpMode (mode : String) : Option FileMode :=
  match mode.toList with
  | 'r' :: '+' :: _ => some .rw
  | 'r' :: _ => some .read
  | 'w' :: '+' :: _ => some .rwTrunc
  | 'w' :: _ => some .write
  | 'a' :: '+' :: _ => some .appendRw
  | 'a' :: _ => some .append
  | _ => none

/-- `fopen`. `libc` is what the C library's `fopen` returns, should it be asked. -/
def fopen (name mode : String) (libc : Option Nat) (h : Handles) : Except Stop (Ptr × Handles) := do
  let (slot, h) ← openConcolicFile h name
  match slot with
  | none => return (match libc with | some k => .libc k | none => .null, h)
  | some i => match setUpMode mode with
    | none =>
      let h ← closeConcolicFile h (.entry i)
      return (.null, h)
    | some m =>
      let h ← store h { h.entries i with mode := m } (.entry i)
      return (.entry i, h)

/-- `fclose`. A call handed on to the C library leaves the hook's state alone. -/
def fclose (p : Ptr) (h : Handles) : Except Stop Handles :=
  let p := getAssociatedStream h p
  if isStreamConcolic h p then
    if p = h.stdinHandle then do
      let f ← deref h p
      store h (resetFile f) p
    else closeConcolicFile h p
  else .ok h

/-- `freopen(name, mode, stdin)`: the redirected pointer is always the stdin handle. Returns the
    OLD handle. -/
def freopenStdin (name mode : String) (libc : Option Nat) (h : Handles) :
    Except Stop (Ptr × Handles) := do
  let stream := h.stdinHandle
  let (tmp, h) ← fopen name mode libc h
  if tmp = .null then return (.null, h)
  else
    let h ← fclose h.stdinHandle h
    return (stream, { h with stdinHandle := tmp })

/-! ## 2. Runs of a program -/

/-- A zero-initialised `CRETE_FILE`. A zero `pushed_back` is a pushed-back NUL byte. -/
def zeroFile : CreteFile where
  concolicFileIndex := some 0
  concolicFileHandleIndex := some 0
  size := 0
  contents := []
  streamPos := 0
  streamEnd := 0
  isOpen := false
  eof := false
  pushedBack := some 0
  mode := .none

/-- The handle that `crete_make_concolic_stdin` sets up. -/
def stdinFile (data : Bytes) : CreteFile where
  concolicFileIndex := none
  concolicFileHandleIndex := none
  size := data.length
  contents := data
  streamPos := 0
  streamEnd := (data.length : Int) - 1
  isOpen := true
  eof := false
  pushedBack := none
  mode := .read

/-- The hook's state and what the program has in hand: the pointers CRETE returned for a concolic
    file and the C library's `FILE`s, each not closed since; the pointers closed and not returned
    again; whether a concolic stdin was created, or stdin reopened on a concolic file. -/
structure World where
  hook : Handles
  crete : List Ptr
  libc : List Nat
  closed : List Ptr
  stdinConcolic : Bool

/-- The state the program starts in, with the concolic files and, if any, the concolic stdin that
    the preload created. -/
def start (files : List ConcolicFile) (stdin : Option Bytes) : World where
  hook :=
    { files := files
      size := 0
      entries := fun _ => zeroFile
      entryIsInUse := fun _ => false
      stdinHandleV := match stdin with
        | none => zeroFile
        | some data => stdinFile data
      stdinHandle := .stdinV }
  crete := []
  libc := []
  closed := []
  stdinConcolic := stdin.isSome

/-- A stdio call of the program; `other` stands for every hooked routine that only uses the
    stream it is given. -/
inductive StdioCall where
  | fopen (name mode : String) (libc : Option Nat)
  | fclose (p : Ptr)
  | freopenStdin (name mode : String) (libc : Option Nat)
  | other (p : Ptr)
  deriving DecidableEq

/-- The stream a call is made on. -/
def StdioCall.stream : StdioCall → Option Ptr
  | .fopen .. => none
  | .fclose p => some p
  | .freopenStdin .. => some .stdin
  | .other p => some p

/-- One call. -/
def stepCall (c : StdioCall) (w : World) : Except Stop World :=
  match c with
  | .fopen name mode libc => do
      let (p, h) ← fopen name mode libc w.hook
      match p with
      | .entry _ => return { w with
          hook := h, crete := p :: w.crete, closed := w.closed.filter (· ≠ p) }
      | .libc k => return { w with
          hook := h, libc := k :: w.libc, closed := w.closed.filter (· ≠ p) }
      | _ => return { w with hook := h }
  | .fclose p => do
      let h ← fclose p w.hook
      return { w with
        hook := h
        crete := w.crete.filter (· ≠ p)
        libc := w.libc.filter (.libc · ≠ p)
        closed := p :: w.closed }
  | .freopenStdin name mode libc => do
      let (p, h) ← freopenStdin name mode libc w.hook
      if p ≠ .null ∧ (findFile name w.hook.files).isSome then
        return { w with hook := h, crete := p :: w.crete, stdinConcolic := true }
      else return { w with hook := h }
  | .other _ => .ok w

/-- The program uses a stream only while it holds it (or it is `stdin`). -/
def Held (w : World) (p : Ptr) : Prop := p = .stdin ∨ p ∈ w.crete ∨ ∃ k ∈ w.libc, p = .libc k
  deriving Decidable

/-- The program keeps to streams it holds, and stays within the handle limit. -/
def LegalRun : World → List StdioCall → Prop
  | _, [] => True
  | w, c :: cs => (∀ p ∈ c.stream, Held w p) ∧ match stepCall c w with
    | .ok w' => LegalRun w' cs
    | .error e => e ≠ .handleLimit

/-! ## 3. The classification -/

/-- What a hooked routine answers to "is this stream concolic?". -/
def recognised (h : Handles) (p : Ptr) : Bool := isStreamConcolic h (getAssociatedStream h p)

/-- A pointer to a `CRETE_FILE`. -/
def isCreteObject : Ptr → Bool
  | .stdinV => true
  | .entry _ => true
  | _ => false

/-- **The classification of a state**: a pointer CRETE returned for a concolic file is recognised
    until it is closed, a `FILE` of the C library never is, and neither is a closed stream. -/
structure Sound (w : World) : Prop where
  held : ∀ p ∈ w.crete, recognised w.hook p = true
  libcNever : ∀ k, recognised w.hook (.libc k) = false
  closedNever : ∀ p ∈ w.closed, recognised w.hook p = false

/-- **The routing of one call** on `p`: taken for concolic, it goes to a `CRETE_FILE`, and on
    `stdin` only if there is a concolic stdin; handed on to the C library, it does not pass a
    `CRETE_FILE`. -/
structure RoutedRight (w : World) (p : Ptr) : Prop where
  stdin : p = .stdin → recognised w.hook p = true → w.stdinConcolic = true
  crete : recognised w.hook p = true → isCreteObject (getAssociatedStream w.hook p) = true
  libc : recognised w.hook p = false → isCreteObject (getAssociatedStream w.hook p) = false

/-- Every state of the run is classified rightly, every call routed rightly, and every call
    returns. -/
def RunSound : World → List StdioCall → Prop
  | w, [] => Sound w
  | w, c :: cs => Sound w ∧ (∀ p ∈ c.stream, RoutedRight w p) ∧ match stepCall c w with
    | .ok w' => RunSound w' cs
    | .error _ => False

/-- **The condition on one call**, in the state it is made in: a concolic stream is closed only
    while it is in the highest slot in use, `stdin` is used only if a concolic stdin was created,
    it is never closed, and `freopen` of it does not succeed. -/
def CallOk (w : World) : StdioCall → Prop
  | .fopen .. => True
  | .fclose .stdin => False
  | .fclose (.entry i) => i.val + 1 = w.hook.size
  | .fclose _ => True
  | .freopenStdin name mode libc => w.stdinConcolic = true ∧
      match findFile name w.hook.files with
      | none => libc = none
      | some _ => setUpMode mode = none
  | .other p => p = .stdin → w.stdinConcolic = true

/-- Every call of the run meets the condition in the state it is made in. -/
def AllCallsOk : World → List StdioCall → Prop
  | _, [] => True
  | w, c :: cs => CallOk w c ∧ match stepCall c w with
    | .ok w' => AllCallsOk w' cs
    | .error _ => True

instance decidableLegalRun : ∀ (w : World) (cs : List StdioCall), Decidable (LegalRun w cs)
  | _, [] => isTrue trivial
  | w, c :: cs => by
    unfold LegalRun
    have : Decidable (match stepCall c w with
        | .ok w' => LegalRun w' cs
        | .error e => e ≠ .handleLimit) := match stepCall c w with
      | .ok w' => decidableLegalRun w' cs
      | .error e => inferInstanceAs (Decidable (e ≠ _))
    exact inferInstanceAs (Decidable (_ ∧ _))

instance (w : World) : ∀ c : StdioCall, Decidable (CallOk w c)
  | .fopen .. => isTrue trivial
  | .fclose .stdin => isFalse id
  | .fclose (.entry i) => inferInstanceAs (Decidable (i.val + 1 = _))
  | .fclose .null => isTrue trivial
  | .fclose .stdinV => isTrue trivial
  | .fclose (.libc _) => isTrue trivial
  | .freopenStdin name mode libc =>
    have : Decidable (match findFile name w.hook.files with
        | none => libc = none
        | some _ => setUpMode mode = none) := match findFile name w.hook.files with
      | none => inferInstanceAs (Decidable (libc = none))
      | some _ => inferInstanceAs (Decidable (setUpMode mode = none))
    inferInstanceAs (Decidable (_ ∧ _))
  | .other p => inferInstanceAs (Decidable (p = .stdin → _))

instance decidableAllCallsOk : ∀ (w : World) (cs : List StdioCall), Decidable (AllCallsOk w cs)
  | _, [] => isTrue trivial
  | w, c :: cs => by
    unfold AllCallsOk
    have : Decidable (match stepCall c w with
        | .ok w' => AllCallsOk w' cs
        | .error _ => True) := match stepCall c w with
      | .ok w' => decidableAllCallsOk w' cs
      | .error _ => isTrue trivial
    exact inferInstanceAs (Decidable (_ ∧ _))

/-! ## 4. The packed table -/

/-- An open handle that knows the slot it is in. -/
structure LiveHandle (f : CreteFile) (i : Nat) : Prop where
  isOpen : f.isOpen = true
  index : f.concolicFileHandleIndex = some i
  full : f.contents ≠ [] ∧ f.size ≠ 0

/-- **The slots in use are those below the count**, each holding a live handle, and the stdin
    handle is the one it started as. -/
structure PackedTable (h : Handles) : Prop where
  bound : h.size < maxHandles
  inUse : ∀ i, h.entryIsInUse i = true ↔ i.val < h.size
  stdin : h.stdinHandle = .stdinV
  live : ∀ i, i.val < h.size → LiveHandle (h.entries i) i

theorem openHandle_live (file : ConcolicFile) (k i : Nat) :
    LiveHandle (openHandle file.data k i) i where
  isOpen := rfl
  index := rfl
  full := ⟨file.nonempty, fun h => file.nonempty (length_eq_zero_iff.1 h)⟩

section Table

variable {h : Handles}

/-- In a packed table the first free slot is the one above those in use. -/
theorem firstFree_packed (hp : PackedTable h) :
    firstFree h.entryIsInUse = some ⟨h.size, hp.bound⟩ := by
  rw [firstFree, find?_eq_some_iff_getElem]
  refine ⟨?_, h.size, by simpa using hp.bound, by simp, ?_⟩
  · have : h.entryIsInUse ⟨h.size, hp.bound⟩ ≠ true := by
      rw [Ne, hp.inUse]
      exact Nat.lt_irrefl _
    simpa using this
  · intro j hj
    have : h.entryIsInUse ⟨j, by have := hp.bound; omega⟩ = true := (hp.inUse _).2 hj
    simpa using this

/-- The table after the handle `f` was set up in the slot above those in use. -/
def afterOpen (h : Handles) (hb : h.size < maxHandles) (f : CreteFile) : Handles :=
  { h with
    entryIsInUse := update h.entryIsInUse ⟨h.size, hb⟩ true
    size := h.size + 1
    entries := update h.entries ⟨h.size, hb⟩ f }

theorem openConcolicFile_packed (hp : PackedTable h) {name : String} {k : Nat}
    {file : ConcolicFile} (hf : findFile name h.files = some (k, file))
    (hlim : h.size + 1 < maxHandles) :
    openConcolicFile h name = .ok (some ⟨h.size, hp.bound⟩,
      afterOpen h hp.bound (openHandle file.data k h.size)) := by
  rw [openConcolicFile]
  simp only [hf, ensure_bind, if_pos hlim, firstFree_packed hp]
  rfl

/-- Opening a handle keeps the table packed. -/
theorem PackedTable.afterOpen (hp : PackedTable h) (hlim : h.size + 1 < maxHandles)
    {f : CreteFile} (hf : LiveHandle f h.size) : PackedTable (afterOpen h hp.bound f) := by
  refine ⟨hlim, fun i => ?_, hp.stdin, fun i hi => ?_⟩
  · show update h.entryIsInUse _ true i = true ↔ i.val < h.size + 1
    by_cases e : i = ⟨h.size, hp.bound⟩
    · subst e
      simp
    · have : i.val ≠ h.size := fun e' => e (Fin.ext e')
      rw [update_of_ne e, hp.inUse]
      omega
  · show LiveHandle (update h.entries _ f i) i
    by_cases e : i = ⟨h.size, hp.bound⟩
    · subst e
      rw [update_self]
      exact hf
    · have hne : i.val ≠ h.size := fun e' => e (Fin.ext e')
      have hlt : i.val < h.size + 1 := hi
      rw [update_of_ne e]
      exact hp.live i (by omega)

/-- The table after the handle in slot `i` was closed. -/
def afterClose (h : Handles) (i : Fin maxHandles) : Handles :=
  { h with
    entryIsInUse := fun j => if j.val = i.val then false else h.entryIsInUse j
    size := h.size - 1
    entries := update h.entries i (resetFile (h.entries i)) }

theorem closeConcolicFile_packed (hp : PackedTable h) {i : Fin maxHandles} (hi : i.val < h.size) :
    closeConcolicFile h (.entry i) = .ok (afterClose h i) := by
  have hl := hp.live i hi
  rw [closeConcolicFile]
  simp only [deref, ok_bind, hl.isOpen, hl.index, ensure_bind, if_pos hl.full,
    store, if_pos (show h.size > 0 by omega)]
  rfl

/-- Closing the highest handle keeps the table packed. -/
theorem PackedTable.afterClose (hp : PackedTable h) {i : Fin maxHandles}
    (hi : i.val + 1 = h.size) : PackedTable (afterClose h i) := by
  have hb := hp.bound
  refine ⟨?_, fun j => ?_, hp.stdin, fun j hj => ?_⟩
  · show h.size - 1 < maxHandles
    omega
  · show (if j.val = i.val then false else h.entryIsInUse j) = true ↔ j.val < h.size - 1
    by_cases e : j.val = i.val
    · rw [if_pos e]
      simp only [Bool.false_eq_true, false_iff]
      omega
    · rw [if_neg e, hp.inUse]
      omega
  · have hlt : j.val < h.size - 1 := hj
    have e : j ≠ i := by
      rintro rfl
      omega
    show LiveHandle (update h.entries i _ j) j
    rw [update_of_ne e]
    exact hp.live j (by omega)

/-- **What `fopen` does on a packed table.** -/
inductive FopenResult (h : Handles) (name mode : String) (libc : Option Nat) :
    Except Stop (Ptr × Handles) → Prop
  | ordinary (hf : findFile name h.files = none) :
      FopenResult h name mode libc (.ok (match libc with | some k => .libc k | none => .null, h))
  | limit (hlim : ¬ h.size + 1 < maxHandles) : FopenResult h name mode libc (.error .handleLimit)
  | badMode {h' : Handles} (hf : (findFile name h.files).isSome) (hm : setUpMode mode = none)
      (hp : PackedTable h') (hs : h'.size = h.size) :
      FopenResult h name mode libc (.ok (.null, h'))
  | opened {h' : Handles} {i : Fin maxHandles} (hf : (findFile name h.files).isSome)
      (hm : (setUpMode mode).isSome) (hp : PackedTable h') (hi : i.val = h.size)
      (hs : h'.size = h.size + 1) : FopenResult h name mode libc (.ok (.entry i, h'))

theorem fopen_packed (hp : PackedTable h) (name mode : String) (libc : Option Nat) :
    FopenResult h name mode libc (fopen name mode libc h) := by
  cases hf : findFile name h.files with
  | none =>
    have : fopen name mode libc h =
        .ok (match libc with | some k => .libc k | none => .null, h) := by
      simp only [fopen, openConcolicFile, hf, ok_bind]
      rfl
    rw [this]
    exact .ordinary hf
  | some kf =>
    obtain ⟨k, file⟩ := kf
    by_cases hlim : h.size + 1 < maxHandles
    · have hl := openHandle_live file k h.size
      have ho := hp.afterOpen hlim hl
      have hopen := openConcolicFile_packed hp hf hlim
      cases hm : setUpMode mode with
      | none =>
        -- opened and closed again
        have hc := closeConcolicFile_packed ho (i := ⟨h.size, hp.bound⟩) (Nat.lt_succ_self _)
        simp only [fopen, hopen, ok_bind, hm, hc]
        exact .badMode (by rw [hf]; rfl) hm (ho.afterClose rfl) rfl
      | some m =>
        simp only [fopen, hopen, ok_bind, hm, store]
        have hl' : LiveHandle { openHandle file.data k h.size with mode := m } h.size :=
          ⟨hl.isOpen, hl.index, hl.full⟩
        refine .opened (by rw [hf]; rfl) (by rw [hm]; rfl) ?_ rfl rfl
        have hset := hp.afterOpen hlim hl'
        simpa [Hook.afterOpen, update_idem] using hset
    · have : fopen name mode libc h = .error .handleLimit := by
        simp only [fopen, openConcolicFile, hf, ensure_bind, if_neg hlim, error_bind]
      rw [this]
      exact .limit hlim

end Table

/-! ## 5. What the packed table says about pointers -/

/-- **The invariant of a run**: the table is packed, the program holds exactly the slots in use,
    and what it closed is none of them. -/
structure Packed (w : World) : Prop where
  table : PackedTable w.hook
  crete : ∀ p, p ∈ w.crete ↔ ∃ i : Fin maxHandles, p = .entry i ∧ i.val < w.hook.size
  closed : ∀ p ∈ w.closed, p ≠ .stdin ∧ p ≠ .stdinV ∧
    ∀ i : Fin maxHandles, p = .entry i → w.hook.size ≤ i.val

theorem start_packed (files : List ConcolicFile) (stdin : Option Bytes) :
    Packed (start files stdin) where
  table :=
    { bound := by show 0 < maxHandles; decide
      inUse := fun i => by simp [start]
      stdin := rfl
      live := fun i hi => absurd hi (Nat.not_lt_zero _) }
  crete := fun p => by simp [start]
  closed := fun p hp => by simp [start] at hp

section Pointers

variable {h : Handles}

theorem recognised_entry (hp : PackedTable h) (i : Fin maxHandles) :
    recognised h (.entry i) = decide (i.val < h.size) := by
  simp [recognised, getAssociatedStream, isStreamConcolic, hp.stdin]

theorem recognised_libc (hp : PackedTable h) (k : Nat) : recognised h (.libc k) = false := by
  simp [recognised, getAssociatedStream, isStreamConcolic, hp.stdin]

theorem recognised_null (hp : PackedTable h) : recognised h .null = false := by
  simp [recognised, getAssociatedStream, isStreamConcolic, hp.stdin]

/-- A call on `stdin` is taken for concolic whatever the stdin handle is. -/
theorem recognised_stdin (h : Handles) : recognised h .stdin = true := by
  simp [recognised, getAssociatedStream, isStreamConcolic]

/-- Whatever the stdin handle points to is taken for concolic. -/
theorem recognised_stdinHandle (h : Handles) : recognised h h.stdinHandle = true := by
  unfold recognised getAssociatedStream
  split <;> simp [isStreamConcolic]

end Pointers

section World

variable {w : World}

theorem Packed.sound (hw : Packed w) : Sound w where
  held := by
    intro p hp
    obtain ⟨i, rfl, hi⟩ := (hw.crete p).1 hp
    rw [recognised_entry hw.table]
    exact decide_eq_true hi
  libcNever := recognised_libc hw.table
  closedNever := by
    intro p hp
    obtain ⟨h1, h2, h3⟩ := hw.closed p hp
    cases p with
    | null => exact recognised_null hw.table
    | stdin => exact absurd rfl h1
    | stdinV => exact absurd rfl h2
    | entry i =>
      have := h3 i rfl
      rw [recognised_entry hw.table]
      exact decide_eq_false (by omega)
    | libc k => exact recognised_libc hw.table k

/-- A call on a stream the program holds is routed rightly, `stdin` provided a concolic stdin was
    created. -/
theorem Packed.routed (hw : Packed w) {p : Ptr} (hp : Held w p)
    (hs : p = .stdin → w.stdinConcolic = true) : RoutedRight w p := by
  refine ⟨fun e _ => hs e, ?_, ?_⟩
  · intro hr
    rcases hp with rfl | hp | ⟨k, -, rfl⟩
    · show isCreteObject w.hook.stdinHandle = true
      rw [hw.table.stdin]
      rfl
    · obtain ⟨i, rfl, -⟩ := (hw.crete p).1 hp
      rfl
    · rw [recognised_libc hw.table] at hr
      cases hr
  · intro hr
    rcases hp with rfl | hp | ⟨k, -, rfl⟩
    · rw [recognised_stdin] at hr
      exact absurd hr.symm Bool.false_ne_true
    · rw [hw.sound.held p hp] at hr
      exact absurd hr.symm Bool.false_ne_true
    · rfl

theorem RunSound.sound : ∀ {cs : List StdioCall}, RunSound w cs → Sound w
  | [], h => h
  | _ :: _, h => h.1

end World

/-! ## 6. One call, then a run -/

section Fclose

variable {h : Handles}

theorem fclose_entry (hp : PackedTable h) {i : Fin maxHandles} (hi : i.val < h.size) :
    fclose (.entry i) h = .ok (afterClose h i) := by
  have hc : isStreamConcolic h (.entry i) = true := by simp [isStreamConcolic, hi]
  have hne : ¬ (Ptr.entry i = h.stdinHandle) := by simp [hp.stdin]
  simp only [fclose, getAssociatedStream, reduceCtorEq, if_false, hc, if_true, if_neg hne]
  exact closeConcolicFile_packed hp hi

theorem fclose_libc (hp : PackedTable h) (k : Nat) : fclose (.libc k) h = .ok h := by
  simp [fclose, getAssociatedStream, isStreamConcolic, hp.stdin]

/-- The object the stdin handle points to is reset, and its slot, if any, is not freed. -/
theorem fclose_stdinHandle (hp : PackedTable h) {p : Ptr} (he : p = .stdin ∨ p = .stdinV) :
    fclose p h = .ok { h with stdinHandleV := resetFile h.stdinHandleV } := by
  have ha : getAssociatedStream h p = .stdinV := by
    rcases he with rfl | rfl <;> simp [getAssociatedStream, hp.stdin]
  have hc : isStreamConcolic h .stdinV = true := by simp [isStreamConcolic, hp.stdin]
  simp only [fclose, ha, hc, if_true]
  rw [if_pos hp.stdin.symm]
  rfl

end Fclose

section Steps

variable {w : World}

/-- `fopen` keeps the invariant. -/
theorem fopen_step (hw : Packed w) (name mode : String) (libc : Option Nat)
    (hlim : stepCall (.fopen name mode libc) w ≠ .error .handleLimit) :
    ∃ w', stepCall (.fopen name mode libc) w = .ok w' ∧ Packed w' := by
  have hres := fopen_packed hw.table name mode libc
  generalize hr : fopen name mode libc w.hook = r at hres
  cases hres with
  | ordinary hf =>
    cases libc with
    | none => exact ⟨_, by simp only [stepCall, hr, ok_bind]; rfl, hw⟩
    | some k =>
      refine ⟨_, by simp only [stepCall, hr, ok_bind]; rfl, ?_⟩
      refine ⟨hw.table, hw.crete, fun p hp => ?_⟩
      exact hw.closed p (mem_of_mem_filter hp)
  | limit _ =>
    refine absurd ?_ hlim
    simp only [stepCall, hr, error_bind]
  | badMode hf hm hp hs =>
    refine ⟨_, by simp only [stepCall, hr, ok_bind]; rfl, hp, ?_, ?_⟩
    · intro p
      rw [hw.crete p, ← hs]
    · intro p hc
      obtain ⟨h1, h2, h3⟩ := hw.closed p hc
      exact ⟨h1, h2, fun i e => hs ▸ h3 i e⟩
  | @opened h' i hf hm hp hi hs =>
    refine ⟨_, by simp only [stepCall, hr, ok_bind]; rfl, hp, ?_, ?_⟩
    · intro p
      show p ∈ Ptr.entry i :: w.crete ↔ ∃ j : Fin maxHandles, p = .entry j ∧ j.val < h'.size
      rw [mem_cons, hw.crete p, hs]
      constructor
      · rintro (rfl | ⟨j, rfl, hj⟩)
        · exact ⟨i, rfl, by omega⟩
        · exact ⟨j, rfl, by omega⟩
      · rintro ⟨j, rfl, hj⟩
        by_cases e : j = i
        · exact .inl (by rw [e])
        · refine .inr ⟨j, rfl, ?_⟩
          have : j.val ≠ i.val := fun e' => e (Fin.ext e')
          omega
    · intro p hc
      obtain ⟨hc, hne⟩ := mem_filter.1 hc
      obtain ⟨h1, h2, h3⟩ := hw.closed p hc
      refine ⟨h1, h2, fun j e => ?_⟩
      show h'.size ≤ j.val
      have hij : j.val ≠ i.val := by
        intro e'
        have : j = i := Fin.ext e'
        subst this
        simp [e] at hne
      have := h3 j e
      omega

/-- Closing the highest slot in use keeps the invariant. -/
theorem fclose_top_step (hw : Packed w) {i : Fin maxHandles} (hi : i.val + 1 = w.hook.size) :
    ∃ w', stepCall (.fclose (.entry i)) w = .ok w' ∧ Packed w' := by
  refine ⟨_, by simp only [stepCall, fclose_entry hw.table (i := i) (by omega), ok_bind]; rfl,
    hw.table.afterClose hi, ?_, ?_⟩
  · intro p
    show p ∈ w.crete.filter (· ≠ .entry i) ↔
      ∃ j : Fin maxHandles, p = .entry j ∧ j.val < w.hook.size - 1
    rw [mem_filter, hw.crete p]
    constructor
    · rintro ⟨⟨j, rfl, hj⟩, hne⟩
      refine ⟨j, rfl, ?_⟩
      have : j.val ≠ i.val := by
        intro e
        have : j = i := Fin.ext e
        simp [this] at hne
      omega
    · rintro ⟨j, rfl, hj⟩
      refine ⟨⟨j, rfl, by omega⟩, ?_⟩
      have : j ≠ i := by
        rintro rfl
        omega
      simpa using this
  · intro p hp
    have hsize : (afterClose w.hook i).size = i.val := by
      show w.hook.size - 1 = i.val
      omega
    rcases mem_cons.1 hp with rfl | hp
    · refine ⟨by simp, by simp, fun j e => ?_⟩
      cases e
      exact hsize.le
    · obtain ⟨h1, h2, h3⟩ := hw.closed p hp
      refine ⟨h1, h2, fun j e => ?_⟩
      have := h3 j e
      show (afterClose w.hook i).size ≤ j.val
      omega

/-- Closing a `FILE` of the C library keeps the invariant. -/
theorem fclose_libc_step (hw : Packed w) (k : Nat) :
    ∃ w', stepCall (.fclose (.libc k)) w = .ok w' ∧ Packed w' := by
  refine ⟨_, by simp only [stepCall, fclose_libc hw.table, ok_bind]; rfl, ?_⟩
  refine ⟨hw.table, ?_, ?_⟩
  · intro p
    show p ∈ w.crete.filter (· ≠ .libc k) ↔ _
    rw [mem_filter, hw.crete p]
    constructor
    · exact fun h => h.1
    · rintro ⟨j, rfl, hj⟩
      exact ⟨⟨j, rfl, hj⟩, by simp⟩
  · intro p hp
    rcases mem_cons.1 hp with rfl | hp
    · exact ⟨by simp, by simp, fun j e => by cases e⟩
    · exact hw.closed p hp

/-- A `freopen` that fails keeps the invariant. -/
theorem freopen_fails_step (hw : Packed w) {name mode : String} {libc : Option Nat}
    (hok : match findFile name w.hook.files with
      | none => libc = none
      | some _ => setUpMode mode = none)
    (hlim : stepCall (.freopenStdin name mode libc) w ≠ .error .handleLimit) :
    ∃ w', stepCall (.freopenStdin name mode libc) w = .ok w' ∧ Packed w' := by
  have hres := fopen_packed hw.table name mode libc
  generalize hr : fopen name mode libc w.hook = r at hres
  cases hres with
  | ordinary hf =>
    rw [hf] at hok
    subst hok
    refine ⟨_, ?_, hw⟩
    simp only [stepCall, freopenStdin, hr, ok_bind, if_true]
    rfl
  | limit _ =>
    refine absurd ?_ hlim
    simp only [stepCall, freopenStdin, hr, error_bind]
  | badMode hf hm hp hs =>
    refine ⟨{ w with hook := _ }, ?_, hp, ?_, ?_⟩
    · simp only [stepCall, freopenStdin, hr, ok_bind, if_true]
      rfl
    · intro p
      rw [hw.crete p, ← hs]
    · intro p hc
      obtain ⟨h1, h2, h3⟩ := hw.closed p hc
      exact ⟨h1, h2, fun i e => hs ▸ h3 i e⟩
  | opened hf hm hp hi hs =>
    obtain ⟨kf, hkf⟩ := Option.isSome_iff_exists.1 hf
    rw [hkf] at hok
    rw [hok] at hm
    cases hm

/-- The state after `freopen` put `tmp` in the place of the stdin handle. -/
def afterFreopen (h : Handles) (tmp : Ptr) : Handles :=
  { h with stdinHandleV := resetFile h.stdinHandleV, stdinHandle := tmp }

theorem freopenStdin_of_fopen {h h' : Handles} {name mode : String} {libc : Option Nat}
    {tmp : Ptr} (hp : PackedTable h) (hp' : PackedTable h')
    (hr : fopen name mode libc h = .ok (tmp, h')) (hne : tmp ≠ .null) :
    freopenStdin name mode libc h = .ok (.stdinV, afterFreopen h' tmp) := by
  simp only [freopenStdin, hr, ok_bind, if_neg hne,
    fclose_stdinHandle hp' (.inr hp'.stdin), hp.stdin]
  rfl

section

variable (hw : Packed w)

include hw

/-- A `freopen` of `stdin` that succeeds breaks the classification: on an ordinary file the new
    `FILE` of the C library is taken for concolic, on a concolic file the returned pointer, the
    old handle, no longer is. -/
theorem freopen_succeeds_step {name mode : String} {libc : Option Nat}
    (hok : ¬ match findFile name w.hook.files with
      | none => libc = none
      | some _ => setUpMode mode = none)
    (hlim : stepCall (.freopenStdin name mode libc) w ≠ .error .handleLimit) :
    ∃ w', stepCall (.freopenStdin name mode libc) w = .ok w' ∧ ¬ Sound w' := by
  have hres := fopen_packed hw.table name mode libc
  generalize hr : fopen name mode libc w.hook = r at hres
  cases hres with
  | ordinary hf =>
    rw [hf] at hok
    obtain ⟨k, rfl⟩ := Option.ne_none_iff_exists'.1 hok
    have hre := freopenStdin_of_fopen hw.table hw.table hr (by simp)
    refine ⟨{ w with hook := afterFreopen w.hook (.libc k) }, ?_, fun hs => ?_⟩
    · simp [stepCall, hre, hf, pure, Except.pure]
    · have h1 : recognised (afterFreopen w.hook (.libc k)) (.libc k) = true :=
        recognised_stdinHandle (afterFreopen w.hook (.libc k))
      exact absurd (h1.symm.trans (hs.libcNever k)) Bool.true_eq_false.mp
  | limit _ =>
    refine absurd ?_ hlim
    simp only [stepCall, freopenStdin, hr, error_bind]
  | badMode hf hm hp hs =>
    obtain ⟨kf, hkf⟩ := Option.isSome_iff_exists.1 hf
    rw [hkf] at hok
    exact absurd hm hok
  | @opened h' i hf hm hp hi hs =>
    have hre := freopenStdin_of_fopen hw.table hp hr (by simp)
    refine ⟨{ w with
      hook := afterFreopen h' (.entry i)
      crete := .stdinV :: w.crete
      stdinConcolic := true }, ?_, fun hs' => ?_⟩
    · simp [stepCall, hre, hf, pure, Except.pure]
    · have h1 := hs'.held .stdinV (by simp)
      simp [recognised, getAssociatedStream, isStreamConcolic, afterFreopen] at h1

/-- Closing a handle below another one breaks the classification: the closed handle is still
    taken for concolic. -/
theorem fclose_below_step {i : Fin maxHandles} (hi : i.val + 1 < w.hook.size) :
    ∃ w', stepCall (.fclose (.entry i)) w = .ok w' ∧ ¬ Sound w' := by
  refine ⟨_, by simp only [stepCall, fclose_entry hw.table (i := i) (by omega), ok_bind]; rfl,
    fun hs => ?_⟩
  have h1 := hs.closedNever (.entry i) (by simp)
  have hlt : i.val < w.hook.size - 1 := by omega
  simp [recognised, getAssociatedStream, isStreamConcolic, afterClose, hlt] at h1

/-- Closing `stdin` breaks the classification: it is still taken for concolic. -/
theorem fclose_stdin_step : ∃ w', stepCall (.fclose .stdin) w = .ok w' ∧ ¬ Sound w' := by
  refine ⟨_, by simp only [stepCall, fclose_stdinHandle hw.table (.inl rfl), ok_bind]; rfl,
    fun hs => ?_⟩
  have h1 := hs.closedNever .stdin (by simp)
  rw [recognised_stdin] at h1
  exact absurd h1.symm Bool.false_ne_true

/-- **One call under its condition** is routed rightly and keeps the invariant. -/
theorem callOk_step {c : StdioCall} (hheld : ∀ p ∈ c.stream, Held w p)
    (hlim : stepCall c w ≠ .error .handleLimit) (hok : CallOk w c) :
    (∀ p ∈ c.stream, RoutedRight w p) ∧ ∃ w', stepCall c w = .ok w' ∧ Packed w' := by
  cases c with
  | fopen name mode libc => exact ⟨fun p hp => (by cases hp), fopen_step hw name mode libc hlim⟩
  | fclose p =>
    have hne : p ≠ .stdin := by
      rintro rfl
      exact hok
    have hp := hheld p rfl
    refine ⟨fun q hq => ?_, ?_⟩
    · cases hq
      exact hw.routed hp (fun e => absurd e hne)
    · rcases hp with rfl | hp | ⟨k, -, rfl⟩
      · exact absurd rfl hne
      · obtain ⟨i, rfl, -⟩ := (hw.crete p).1 hp
        exact fclose_top_step hw hok
      · exact fclose_libc_step hw k
  | freopenStdin name mode libc =>
    refine ⟨fun q hq => ?_, freopen_fails_step hw hok.2 hlim⟩
    cases hq
    exact hw.routed (.inl rfl) (fun _ => hok.1)
  | other p =>
    refine ⟨fun q hq => ?_, w, rfl, hw⟩
    cases hq
    exact hw.routed (hheld p rfl) hok

/-- **One call outside its condition** is routed wrongly, or leaves a state that is not sound. -/
theorem not_callOk_step {c : StdioCall} (hheld : ∀ p ∈ c.stream, Held w p)
    (hlim : stepCall c w ≠ .error .handleLimit) (hok : ¬ CallOk w c) :
    (∃ p ∈ c.stream, ¬ RoutedRight w p) ∨ ∃ w', stepCall c w = .ok w' ∧ ¬ Sound w' := by
  cases c with
  | fopen name mode libc => exact absurd trivial hok
  | fclose p =>
    rcases hheld p rfl with rfl | hp | ⟨k, -, rfl⟩
    · exact .inr (fclose_stdin_step hw)
    · obtain ⟨i, rfl, hi⟩ := (hw.crete p).1 hp
      have hne : ¬ i.val + 1 = w.hook.size := hok
      exact .inr (fclose_below_step hw (by omega))
    · exact absurd trivial hok
  | freopenStdin name mode libc =>
    by_cases hs : w.stdinConcolic = true
    · exact .inr (freopen_succeeds_step hw (fun h => hok ⟨hs, h⟩) hlim)
    · exact .inl ⟨.stdin, rfl, fun hr => hs (hr.stdin rfl (recognised_stdin w.hook))⟩
  | other p =>
    have hp : p = .stdin := Classical.byContradiction fun h => hok (fun e => absurd e h)
    subst hp
    exact .inl ⟨.stdin, rfl, fun hr => hok (fun _ => hr.stdin rfl (recognised_stdin w.hook))⟩

end

end Steps

/-- From a packed state a run is sound exactly when every call meets its condition. -/
theorem runSound_iff_of_packed : ∀ (cs : List StdioCall) {w : World}, Packed w → LegalRun w cs →
    (RunSound w cs ↔ AllCallsOk w cs)
  | [], w, hw, _ => ⟨fun _ => trivial, fun _ => hw.sound⟩
  | c :: cs, w, hw, hl => by
    obtain ⟨hheld, hrest⟩ := hl
    have hlim : stepCall c w ≠ .error .handleLimit := by
      intro he
      rw [he] at hrest
      exact hrest rfl
    unfold RunSound AllCallsOk
    by_cases hok : CallOk w c
    · obtain ⟨hr, w', hs, hw'⟩ := callOk_step hw hheld hlim hok
      rw [hs] at hrest ⊢
      have ih := runSound_iff_of_packed cs hw' hrest
      exact ⟨fun h => ⟨hok, ih.1 h.2.2⟩, fun h => ⟨hw.sound, hr, ih.2 h.2⟩⟩
    · refine ⟨fun h => ?_, fun h => absurd h.1 hok⟩
      rcases not_callOk_step hw hheld hlim hok with ⟨p, hp, hr⟩ | ⟨w', hs, hns⟩
      · exact absurd (h.2.1 p hp) hr
      · obtain ⟨-, -, h⟩ := h
        rw [hs] at h
        exact absurd h.sound hns

/-- **Concolic stream classification.** For every set of concolic files, with or without a
    concolic stdin, and every run of `fopen`, `fclose`, `freopen(stdin)` and other stdio calls
    on streams the program holds, within the handle limit: every state is classified rightly and
    every call routed rightly, if and only if every call meets `CallOk` in the state it is made
    in. -/
theorem runSound_iff (files : List ConcolicFile) (stdin : Option Bytes)
    (cs : List StdioCall) (hl : LegalRun (start files stdin) cs) :
    RunSound (start files stdin) cs ↔ AllCallsOk (start files stdin) cs :=
  runSound_iff_of_packed cs (start_packed files stdin) hl

/-- Two concolic files, closed in the reverse order of opening, next to an ordinary one. -/
theorem runSound_nested : RunSound (start [⟨"a", [1], by decide⟩, ⟨"b", [2], by decide⟩] (some [0]))
      [.fopen "a" "r" none, .fopen "b" "r" none, .fopen "plain" "r" (some 7), .other .stdin,
        .fclose (.entry 1), .fclose (.libc 7), .fclose (.entry 0)] :=
  (runSound_iff _ _ _ (by decide)).2 (by decide)

/-- The three slips. Of two open concolic streams the first is closed; a program without concolic
    stdin reads `stdin`; `stdin` is reopened on an ordinary file. -/
theorem runSound_slips : (LegalRun (start [⟨"a", [1], by decide⟩] none)
        [.fopen "a" "r" none, .fopen "a" "r" none, .fclose (.entry 0)] ∧
      ¬ RunSound (start [⟨"a", [1], by decide⟩] none)
        [.fopen "a" "r" none, .fopen "a" "r" none, .fclose (.entry 0)]) ∧
    (LegalRun (start [] none) [.other .stdin] ∧ ¬ RunSound (start [] none) [.other .stdin]) ∧
    (LegalRun (start [] (some [0])) [.freopenStdin "plain" "r" (some 7)] ∧
      ¬ RunSound (start [] (some [0])) [.freopenStdin "plain" "r" (some 7)]) := by
  refine ⟨⟨by decide, ?_⟩, ⟨by decide, ?_⟩, ⟨by decide, ?_⟩⟩
  all_goals
    rw [runSound_iff_of_packed _ (start_packed _ _) (by decide)]
    decide

end Crete.Hook
