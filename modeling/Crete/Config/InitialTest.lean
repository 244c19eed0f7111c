/-
  File:      Crete/Config/InitialTest.lean
  Subject:   The initial test the host deduces from the guest's configuration
             (`extract_initial_test`, lib/cluster/vm_node_fsm.cpp), and whether it fits the
             concolic objects the guest makes.

  * `Item` -- an argument, a file or stdin, as both traversals come across it.
  * **`agrees_iff`** -- the two sequences agree, and the size fields with them, exactly when the
    configuration meets `ItemsOk`.
-/
import Crete.Config.Guest
import Crete.TestCase.Codec

namespace Crete.Config

open Crete.Lib Crete.Lib.Emit List

/-! ## 1. The host -/

/-- The elements of the concolic arguments; `name` is the name of the last one before. -/
def argElements : Bytes → List Argument → List TestCaseElement
  | _, [] => []
  | name, a :: as =>
    if a.concolic then
      let name := name ++ bytesOf ",x"
      let data := if a.value = [] then replicate a.size.toNat 0 else a.value
      ⟨UInt32.ofNat name.length, name, UInt32.ofNat a.size.toNat, data⟩ :: argElements name as
    else argElements name as

/-- The element of a file under a name. -/
def fileElement (f : File) (name : Bytes) : TestCaseElement :=
  let data := if f.real then f.data else replicate f.size.toNat 0
  ⟨UInt32.ofNat name.length, name, UInt32.ofNat f.size.toNat, data⟩

/-- The two elements of a file. -/
def fileElements (f : File) : List TestCaseElement :=
  [fileElement f f.path, fileElement f (f.path ++ bytesOf "-posix")]

/-- The element of stdin under a name. -/
def stdinElement (s : STDStream) (name : Bytes) : TestCaseElement :=
  let data := replicate s.size.toNat 0
  ⟨UInt32.ofNat name.length, name, UInt32.ofNat data.length, data⟩

/-- The two elements of a concolic stdin. -/
def stdinElements (s : STDStream) : List TestCaseElement :=
  if s.concolic then
    [stdinElement s (bytesOf "crete-stdin"), stdinElement s (bytesOf "crete-stdin-posix")]
  else []

/-- All elements, in order. -/
def extractElements (cfg : HarnessConfiguration) : List TestCaseElement :=
  argElements (bytesOf "arg") cfg.arguments ++ cfg.files.flatMap fileElements ++
    stdinElements cfg.stdin

/-- `extract_initial_test`. -/
def extractInitialTest (cfg : HarnessConfiguration) : Except String TestCase :=
  if (extractElements cfg).length = 0 then
    .error "no test case elements deduced from guest configuration file"
  else .ok ⟨extractElements cfg⟩

/-- **The initial test fits the guest**: the elements are the objects the guest makes, in order
    and with their sizes, and their size fields are right. A test without elements is an error,
    and fits a guest that makes nothing. -/
def Agrees (cfg : HarnessConfiguration) (input : Bytes → Bytes) (argvOld : List Bytes) : Prop :=
  match extractInitialTest cfg with
  | .ok tc => (processConfiguration input cfg argvOld).out =
        tc.elems.map (fun e => ⟨e.name, e.data.length⟩) ∧ ∀ e ∈ tc.elems, e.Sized
  | .error _ => (processConfiguration input cfg argvOld).out = []

/-! ## 2. Items -/

/-- What both traversals come across: an argument with the name it has if it is concolic, the
    `k`-th file, stdin. -/
inductive Item where
  | arg (name : Bytes) (a : Argument)
  | file (k : Nat) (f : File)
  | stdin (s : STDStream)

/-- The arguments with their names. -/
def argItems : Bytes → List Argument → List Item
  | _, [] => []
  | name, a :: as => .arg (nextName a name) a :: argItems (nextName a name) as

/-- The files with their positions. -/
def fileItems : Nat → List File → List Item
  | _, [] => []
  | k, f :: fs => .file k f :: fileItems (k + 1) fs

/-- The items of a configuration, in the order of both traversals. -/
def items (cfg : HarnessConfiguration) : List Item :=
  argItems (bytesOf "arg") cfg.arguments ++ fileItems 0 cfg.files ++ [.stdin cfg.stdin]

/-- The host has elements for the item. -/
def Item.Concolic : Item → Prop
  | .arg _ a => a.concolic = true
  | .file _ _ => True
  | .stdin s => s.concolic = true

instance (x : Item) : Decidable x.Concolic := by
  cases x <;> dsimp only [Item.Concolic] <;> infer_instance

/-- **What the guest cannot make**, with `argc` arguments: an argument of size 0 or beyond
    `argc` (or of the largest size there is); a file without a name, with a name of more than 57
    bytes, of a size that is 0 in 32 bits, or the eighth; a concolic stdin of such a size. -/
def Item.Rejected (argc : Int) : Item → Prop
  | .arg _ a => a.size = 0 ∨ toSizeT argc ≤ a.index.toNat ∨ a.size + 1 = 0
  | .file k f => cstr f.path = [] ∨ 57 < (cstr f.path).length ∨ f.size.toNat % 2 ^ 32 = 0 ∨ 7 ≤ k
  | .stdin s => s.concolic = true ∧ s.size.toNat % 2 ^ 32 = 0

instance (argc : Int) (x : Item) : Decidable (x.Rejected argc) := by
  cases x <;> dsimp only [Item.Rejected] <;> infer_instance

/-- **What makes the host's elements those of the guest**: an argument's value, if given, is as
    long as its size; a file's path has no NUL; sizes and names are below `2 ^ 32`. -/
def Item.Fits : Item → Prop
  | .arg name a => (a.value = [] ∨ a.value.length = a.size.toNat) ∧ a.size.toNat < 2 ^ 32 ∧
      name.length < 2 ^ 32
  | .file _ f => 0 ∉ f.path ∧ (if f.real then f.data.length else f.size.toNat) < 2 ^ 32
  | .stdin s => s.size.toNat < 2 ^ 32

/-- **The condition on the configuration**: from the first item that the guest rejects on there
    is nothing concolic, and every concolic item before it fits. -/
def ItemsOk (argc : Int) : List Item → Prop
  | [] => True
  | x :: xs =>
    if x.Rejected argc then ∀ y ∈ x :: xs, ¬ y.Concolic
    else (x.Concolic → x.Fits) ∧ ItemsOk argc xs

instance (x : Item) : Decidable x.Fits := by
  cases x <;> dsimp only [Item.Fits] <;> infer_instance

instance decidableItemsOk (argc : Int) : ∀ xs : List Item, Decidable (ItemsOk argc xs)
  | [] => isTrue trivial
  | x :: xs =>
    have := decidableItemsOk argc xs
    inferInstanceAs (Decidable (if x.Rejected argc then _ else _))

/-- The host's elements for an item. -/
def Item.elements : Item → List TestCaseElement
  | .arg name a => if a.concolic then
      [⟨UInt32.ofNat name.length, name, UInt32.ofNat a.size.toNat,
        if a.value = [] then replicate a.size.toNat 0 else a.value⟩] else []
  | .file _ f => fileElements f
  | .stdin s => stdinElements s

theorem argElements_eq : ∀ (name : Bytes) (as : List Argument),
    argElements name as = (argItems name as).flatMap Item.elements
  | _, [] => rfl
  | name, a :: as => by
    rw [argElements, argItems, flatMap_cons]
    by_cases hc : a.concolic = true
    · simp only [hc, if_true, Item.elements, nextName, argElements_eq (name ++ bytesOf ",x") as]
      rfl
    · simp only [hc, Item.elements, nextName, argElements_eq name as]
      rfl

theorem fileElements_eq : ∀ (k : Nat) (fs : List File),
    fs.flatMap fileElements = (fileItems k fs).flatMap Item.elements
  | _, [] => rfl
  | k, f :: fs => by
    rw [fileItems, flatMap_cons, flatMap_cons, fileElements_eq (k + 1) fs]
    rfl

/-- **The host adds its elements for every item.** -/
theorem extractElements_eq (cfg : HarnessConfiguration) :
    extractElements cfg = (items cfg).flatMap Item.elements := by
  rw [extractElements, items, flatMap_append, flatMap_append, ← argElements_eq,
    ← fileElements_eq, flatMap_singleton]
  rfl

/-! ## 3. The guest, item by item -/

/-- The calls the guest makes at an item, up to where it stops. -/
def Item.calls (argc : Int) : Item → List ConcolicCall
  | .arg name a =>
    if (Item.arg name a).Rejected argc then []
    else if a.concolic then [⟨name, a.size.toNat⟩] else []
  | .file k f =>
    if (cstr f.path = [] ∨ 256 < (cstr f.path).length ∨ f.size = 0) ∨ 7 ≤ k then []
    else ⟨cstr f.path, f.size.toNat⟩ ::
      if 57 < (cstr f.path).length ∨ f.size.toNat % 2 ^ 32 = 0 then []
      else [⟨cstr f.path ++ bytesOf "-posix", f.size.toNat % 2 ^ 32⟩]
  | .stdin s =>
    if s.concolic ∧ s.size ≠ 0 then
      ⟨bytesOf "crete-stdin", s.size.toNat⟩ :: if s.size.toNat % 2 ^ 32 = 0 then []
        else [⟨bytesOf "crete-stdin-posix", s.size.toNat % 2 ^ 32⟩]
    else []

section Arguments

variable (input : Bytes → Bytes) (argc : Int)

/-- A rejected argument stops the loop without a call. -/
theorem fillOne_rejected {a : Argument} {n : Bytes} (h : (Item.arg n a).Rejected argc)
    (s : ArgvState) : ∃ e, fillOne input argc s a = stop e := by
  by_cases h0 : a.size ≠ 0
  · by_cases hi : a.index.toNat < toSizeT argc
    · have hm : ¬ a.size + 1 ≠ 0 := by
        rcases h with h | h | h
        · exact absurd h h0
        · omega
        · exact fun h' => h' h
      refine ⟨.assertion "mem_size > 0", ?_⟩
      simp only [fillOne, verifyInvariants, initArg, bind_assoc]
      rw [require_pos h0, require_pos hi, require_neg hm]
    · refine ⟨.runtimeError "arg index outside of bounds", ?_⟩
      simp only [fillOne, verifyInvariants, bind_assoc]
      rw [require_pos h0, require_neg hi]
  · refine ⟨.runtimeError "argument size is 0", ?_⟩
    simp only [fillOne, verifyInvariants, bind_assoc]
    rw [require_neg h0]

/-- The C string the guest puts into `argv` for an argument. -/
def argString (input : Bytes → Bytes) (a : Argument) (name : Bytes) : Bytes :=
  if a.concolic then cstr ((input name).take a.size.toNat) else (cstr a.value).take a.size.toNat

theorem nextName_nulFree {a : Argument} {name : Bytes} (hn : 0 ∉ name) :
    0 ∉ nextName a name := by
  unfold nextName
  split
  · rw [mem_append]
    rintro (h | h)
    · exact hn h
    · revert h
      decide
  · exact hn

/-- An accepted argument: its call, if concolic, and its string in `argv`. -/
theorem fillOne_accepted {s : ArgvState} {a : Argument} (hn : 0 ∉ s.name)
    (h : ¬ (Item.arg (nextName a s.name) a).Rejected argc) :
    fillOne input argc s a = ⟨(Item.arg (nextName a s.name) a).calls argc, .ok ⟨nextName a s.name,
        s.argv.set a.index.toNat (some (argString input a (nextName a s.name)))⟩⟩ := by
  have h0 : a.size ≠ 0 := fun e => h (.inl e)
  have hi : a.index.toNat < toSizeT argc := by
    have : ¬ toSizeT argc ≤ a.index.toNat := fun e => h (.inr (.inl e))
    omega
  have hm : a.size + 1 ≠ 0 := fun e => h (.inr (.inr e))
  rw [Item.calls, if_neg h]
  have hnul := nextName_nulFree (a := a) hn
  simp only [fillOne, verifyInvariants, initArg, bind_assoc]
  rw [require_pos h0, require_pos hi, require_pos hm]
  unfold nextName argString at *
  by_cases hc : a.concolic = true
  · simp only [hc, if_true] at hnul ⊢
    rw [cstr_eq_self_iff.2 hnul]
    rfl
  · simp only [hc] at hnul ⊢
    rfl

/-- **The guest's argument loop** runs through the argument items. -/
theorem fillLoop_realises : ∀ (as : List Argument) (s : ArgvState), 0 ∉ s.name →
    Realises (Item.calls argc) (Item.Rejected argc) (forEach (fillOne input argc) s as)
      (argItems s.name as)
  | [], s, _ => realises_pure s
  | a :: as, s, hn => by
    rw [forEach, argItems]
    by_cases hr : (Item.arg (nextName a s.name) a).Rejected argc
    · obtain ⟨e, he⟩ := fillOne_rejected input argc hr s
      rw [he, stop_bind]
      refine ⟨?_, fun _ => ⟨e, rfl⟩, fun _ => ⟨_, .head _, hr⟩⟩
      rw [emitted, Item.calls, if_pos hr, if_pos hr]
      rfl
    · have hacc := fillOne_accepted input argc hn hr
      have hone : Realises (Item.calls argc) (Item.Rejected argc) (fillOne input argc s a)
          [.arg (nextName a s.name) a] :=
        realises_singleton (by rw [hacc]) (by rw [hacc]; simp [hr])
      refine hone.bind fun s' hs' => ?_
      rw [hacc] at hs'
      cases hs'
      exact fillLoop_realises as _ (nextName_nulFree hn)

end Arguments

section FilesAndStdin

variable (argc : Int)

/-- `__create_new_dfile` makes its call, or stops. -/
theorem createNewDfile_eq (size : UInt64) (path : Bytes) :
    if 57 < path.length ∨ size.toNat % 2 ^ 32 = 0 then ∃ e, createNewDfile size path = stop e
    else createNewDfile size path = emit ⟨path ++ bytesOf "-posix", size.toNat % 2 ^ 32⟩ := by
  unfold createNewDfile
  split
  · next h =>
      by_cases h1 : path.length < 64
      · rw [require_pos h1]
        by_cases h2 : path.length + 7 ≤ 64
        · rw [require_pos h2]
          have h3 : size.toNat % 2 ^ 32 = 0 := h.resolve_left (by omega)
          exact ⟨_, require_neg (fun h' => h' h3) _ _⟩
        · exact ⟨_, require_neg h2 _ _⟩
      · exact ⟨_, require_neg h1 _ _⟩
  · next h =>
      have h3 : size.toNat % 2 ^ 32 ≠ 0 := fun e => h (.inr e)
      rw [require_pos (by omega), require_pos (by omega), require_pos h3]

theorem checkFile_eq (name : Bytes) (size : UInt64) :
    if name = [] ∨ 256 < name.length ∨ size = 0 then ∃ e, checkFile name size = stop e
    else checkFile name size = pure () := by
  unfold checkFile
  by_cases h1 : name ≠ []
  · rw [require_pos h1]
    by_cases h2 : name.length ≤ 256
    · rw [require_pos h2, require]
      by_cases h3 : size ≠ 0
      · rw [if_pos h3, if_neg]
        rintro (h | h | h)
        · exact h1 h
        · omega
        · exact h3 h
      · rw [if_neg h3, if_pos (.inr (.inr (Classical.not_not.1 h3)))]
        exact ⟨_, rfl⟩
    · rw [if_pos (.inr (.inl (by omega)))]
      exact ⟨_, require_neg h2 _ _⟩
  · rw [if_pos (.inl (Classical.not_not.1 h1))]
    exact ⟨_, require_neg h1 _ _⟩

/-- `crete_make_concolic_file` makes its first call, or stops before it. -/
theorem makeConcolicFile_eq (k : Nat) (name : Bytes) (size : UInt64) :
    if (name = [] ∨ 256 < name.length ∨ size = 0) ∨ 7 ≤ k then
      ∃ e, makeConcolicFile k name size = stop e
    else makeConcolicFile k name size =
      (emit ⟨name, size.toNat⟩ >>= fun _ => createNewDfile size name) := by
  have hcheck := checkFile_eq name size
  unfold makeConcolicFile makeConcolicFileStd
  by_cases hc : name = [] ∨ 256 < name.length ∨ size = 0
  · rw [if_pos hc] at hcheck
    obtain ⟨e, he⟩ := hcheck
    rw [if_pos (.inl hc), he]
    exact ⟨e, rfl⟩
  · rw [if_neg hc] at hcheck
    rw [hcheck]
    by_cases hk : k + 1 < maxFiles
    · have hk' : ¬ 7 ≤ k := by
        unfold maxFiles at hk
        omega
      rw [if_neg (not_or.2 ⟨hc, hk'⟩), pure_bind, pure_bind, require_pos hk]
    · have hk' : 7 ≤ k := by
        unfold maxFiles at hk
        omega
      rw [if_pos (.inr hk'), pure_bind, pure_bind, require_neg hk]
      exact ⟨_, rfl⟩

/-- **The guest at a file**: its calls, and whether it stops. -/
theorem makeConcolicFile_item (k : Nat) (f : File) :
    (makeConcolicFile k (cstr f.path) f.size).out = (Item.file k f).calls argc ∧
    if (Item.file k f).Rejected argc then
      ∃ e, (makeConcolicFile k (cstr f.path) f.size).res = .error e
    else (makeConcolicFile k (cstr f.path) f.size).res = .ok () := by
  have hrej : (Item.file k f).Rejected argc ↔ cstr f.path = [] ∨ 57 < (cstr f.path).length ∨
      f.size.toNat % 2 ^ 32 = 0 ∨ 7 ≤ k := Iff.rfl
  have hmake := makeConcolicFile_eq k (cstr f.path) f.size
  rw [Item.calls]
  by_cases hc : (cstr f.path = [] ∨ 256 < (cstr f.path).length ∨ f.size = 0) ∨ 7 ≤ k
  · rw [if_pos hc] at hmake
    obtain ⟨e, he⟩ := hmake
    have hr : (Item.file k f).Rejected argc := by
      rw [hrej]
      rcases hc with (h | h | h) | h
      · exact .inl h
      · omega
      · exact .inr (.inr (.inl (by rw [h]; rfl)))
      · omega
    rw [he, if_pos hc, if_pos hr]
    exact ⟨rfl, e, rfl⟩
  · rw [if_neg hc] at hmake
    rw [hmake, if_neg hc]
    have hd := createNewDfile_eq f.size (cstr f.path)
    by_cases hp : 57 < (cstr f.path).length ∨ f.size.toNat % 2 ^ 32 = 0
    · rw [if_pos hp] at hd
      obtain ⟨e, he⟩ := hd
      have hr : (Item.file k f).Rejected argc := by
        rw [hrej]
        rcases hp with h | h
        · exact .inr (.inl h)
        · omega
      rw [he, if_pos hp, if_pos hr]
      exact ⟨rfl, e, rfl⟩
    · rw [if_neg hp] at hd
      have hr : ¬ (Item.file k f).Rejected argc := by
        rw [hrej]
        rintro (h | h | h | h)
        · exact hc (.inl (.inl h))
        · exact hp (.inl h)
        · exact hp (.inr h)
        · exact hc (.inr h)
      rw [hd, if_neg hp, if_neg hr]
      exact ⟨rfl, rfl⟩

/-- **The guest's file loop** runs through the file items. -/
theorem fileLoop_realises : ∀ (fs : List File) (k : Nat),
    Realises (Item.calls argc) (Item.Rejected argc) (forEach makeOne k fs) (fileItems k fs)
  | [], k => realises_pure k
  | f :: fs, k => by
    obtain ⟨ho, hr⟩ := makeConcolicFile_item argc k f
    rw [forEach, makeOne, fileItems, bind_assoc]
    have hone : Realises (Item.calls argc) (Item.Rejected argc)
        (makeConcolicFile k (cstr f.path) f.size) [.file k f] := by
      refine realises_singleton ho ?_
      by_cases hrej : (Item.file k f).Rejected argc
      · rw [if_pos hrej] at hr
        exact ⟨fun _ => hr, fun _ => hrej⟩
      · rw [if_neg hrej] at hr
        rw [hr]
        simp [hrej]
    refine hone.bind fun _ _ => ?_
    rw [pure_bind]
    exact fileLoop_realises fs (k + 1)

/-- The guest at stdin. -/
theorem processStdin_item (s : STDStream) : (processStdin s).out = (Item.stdin s).calls argc := by
  rw [Item.calls, processStdin]
  split
  · next h =>
      rw [makeConcolicStdin, require_pos h.2]
      have hd := createNewDfile_eq s.size (bytesOf "crete-stdin")
      have hlen : ¬ 57 < (bytesOf "crete-stdin").length := by decide
      simp only [hlen, false_or] at hd
      by_cases hz : s.size.toNat % 2 ^ 32 = 0
      · rw [if_pos hz] at hd ⊢
        obtain ⟨e, he⟩ := hd
        rw [he]
        rfl
      · rw [if_neg hz] at hd ⊢
        rw [hd]
        rfl
  · rfl

end FilesAndStdin

/-- The `argc` the guest computes. -/
def guestArgc (cfg : HarnessConfiguration) (argvOld : List Bytes) : Int :=
  determineArgcValue argvOld.length cfg.arguments

/-- **The guest makes the calls of the items up to the first it rejects.** -/
theorem processConfiguration_out (input : Bytes → Bytes) (cfg : HarnessConfiguration)
    (program : Bytes) (rest : List Bytes) :
    (processConfiguration input cfg (program :: rest)).out =
      emitted (Item.calls (guestArgc cfg (program :: rest)))
        (Item.Rejected (guestArgc cfg (program :: rest))) (items cfg) := by
  have hpos : (program :: rest).length > 0 := Nat.succ_pos _
  have harg : (0 : UInt8) ∉ bytesOf "arg" := by decide
  rw [processConfiguration, processArgv, require_pos hpos, items, append_assoc]
  simp only [bind_assoc, pure_bind]
  refine (fillLoop_realises input (guestArgc cfg (program :: rest)) cfg.arguments _ harg).bind_out
    fun s _ => ?_
  refine (fileLoop_realises (guestArgc cfg (program :: rest)) cfg.files 0).bind_out fun _ _ => ?_
  -- stdin is the last item: whether it stops the guest or not, nothing follows
  have hs := processStdin_item (guestArgc cfg (program :: rest)) cfg.stdin
  have hpure : ∀ m : Guest Unit, (m >>= fun _ => pure
      (determineArgcValue (program :: rest).length cfg.arguments, s.argv)).out = m.out := by
    rintro ⟨o, e | u⟩
    · rfl
    · exact append_nil o
  rw [hpure, hs, emitted]
  split
  · rw [append_nil]
  · rw [emitted, append_nil]

/-! ## 4. Host against guest -/

/-- What the guest has to call for an element. -/
def elementCall (e : TestCaseElement) : ConcolicCall := ⟨e.name, e.data.length⟩

/-- What the guest has to call for an item. -/
def Item.wanted (x : Item) : List ConcolicCall := x.elements.map elementCall

open Item

/-- How many bytes of data the host has for an argument. -/
def argLength (a : Argument) : Nat := if a.value = [] then a.size.toNat else a.value.length

/-- How many bytes of data the host has for a file. -/
def fileLength (f : File) : Nat := if f.real then f.data.length else f.size.toNat

theorem wanted_arg {a : Argument} (hc : a.concolic = true) (name : Bytes) :
    (Item.arg name a).wanted = [⟨name, argLength a⟩] := by
  rw [wanted, elements, if_pos hc, argLength]
  split <;> simp [elementCall, *]

theorem wanted_file (k : Nat) (f : File) : (Item.file k f).wanted =
    [⟨f.path, fileLength f⟩, ⟨f.path ++ bytesOf "-posix", fileLength f⟩] := by
  rw [wanted, elements, fileElements, fileLength]
  cases hr : f.real <;> simp [elementCall, fileElement, hr]

theorem wanted_stdin {s : STDStream} (hc : s.concolic = true) : (Item.stdin s).wanted =
    [⟨bytesOf "crete-stdin", s.size.toNat⟩, ⟨bytesOf "crete-stdin-posix", s.size.toNat⟩] := by
  rw [wanted, elements, stdinElements, if_pos hc]
  simp [elementCall, stdinElement]

section Lengths

variable (argc : Int)

theorem wanted_nil_iff (x : Item) : x.wanted = [] ↔ ¬ x.Concolic := by
  cases x with
  | arg name a =>
    unfold wanted elements Item.Concolic
    by_cases hc : a.concolic = true <;> simp [hc]
  | file k f => simp [wanted, elements, fileElements, Item.Concolic]
  | stdin s =>
    unfold wanted elements Item.Concolic stdinElements
    by_cases hc : s.concolic = true <;> simp [hc]

/-- At an item it does not reject the guest makes as many calls as wanted. -/
theorem calls_length_of_accepted (x : Item) (h : ¬ x.Rejected argc) :
    (x.calls argc).length = x.wanted.length := by
  cases x with
  | arg name a =>
    rw [calls, if_neg h]
    unfold wanted elements
    by_cases hc : a.concolic = true <;> simp [hc]
  | file k f =>
    have h0 : f.size ≠ 0 := fun e => h (.inr (.inr (.inl (by rw [e]; rfl))))
    have h1 : ¬ ((cstr f.path = [] ∨ 256 < (cstr f.path).length ∨ f.size = 0) ∨ 7 ≤ k) := by
      rintro ((e | e | e) | e)
      · exact h (.inl e)
      · exact h (.inr (.inl (by omega)))
      · exact h0 e
      · exact h (.inr (.inr (.inr e)))
    have h2 : ¬ (57 < (cstr f.path).length ∨ f.size.toNat % 2 ^ 32 = 0) := by
      rintro (e | e)
      · exact h (.inr (.inl e))
      · exact h (.inr (.inr (.inl e)))
    rw [calls, if_neg h1, if_neg h2]
    rfl
  | stdin s =>
    rw [calls]
    by_cases hc : s.concolic = true
    · have hz : ¬ s.size.toNat % 2 ^ 32 = 0 := fun e => h ⟨hc, e⟩
      have h0 : s.size ≠ 0 := fun e => hz (by rw [e]; rfl)
      rw [if_pos ⟨hc, h0⟩, if_neg hz, wanted_stdin hc]
      rfl
    · rw [if_neg (fun e => hc e.1), (wanted_nil_iff (.stdin s)).2 hc]

/-- At an item it rejects the guest makes fewer calls than wanted, unless none is. -/
theorem calls_length_of_rejected (x : Item) (h : x.Rejected argc) :
    (x.calls argc).length < x.wanted.length ∨ (x.calls argc = [] ∧ x.wanted = []) := by
  cases x with
  | arg name a =>
    rw [calls, if_pos h, wanted_nil_iff]
    unfold wanted elements Item.Concolic
    by_cases hc : a.concolic = true <;> simp [hc]
  | file k f =>
    left
    show _ < 2
    rw [calls]
    split
    · exact Nat.zero_lt_two
    · next h1 =>
        have h2 : 57 < (cstr f.path).length ∨ f.size.toNat % 2 ^ 32 = 0 := by
          rcases h with e | e | e | e
          · exact absurd (.inl (.inl e)) h1
          · exact .inl e
          · exact .inr e
          · omega
        rw [if_pos h2]
        exact Nat.one_lt_two
  | stdin s =>
    left
    have hc : s.concolic = true := h.1
    rw [wanted_stdin hc, calls]
    split
    · rw [if_pos h.2]
      exact Nat.one_lt_two
    · exact Nat.zero_lt_two

end Lengths

theorem toNat_ofNat_eq_iff {n : Nat} : (UInt32.ofNat n).toNat = n ↔ n < 2 ^ 32 := by
  rw [UInt32.toNat_ofNat']
  constructor
  · omega
  · omega

theorem sized_iff (name data : Bytes) (size : Nat) :
    TestCaseElement.Sized ⟨UInt32.ofNat name.length, name, UInt32.ofNat size, data⟩ ↔
      name.length < 2 ^ 32 ∧ size % 2 ^ 32 = data.length := by
  constructor
  · intro h
    exact ⟨toNat_ofNat_eq_iff.1 h.nameSize, by rw [← h.dataSize, UInt32.toNat_ofNat']⟩
  · rintro ⟨h1, h2⟩
    exact ⟨toNat_ofNat_eq_iff.2 h1, by rw [UInt32.toNat_ofNat', h2]⟩

theorem arg_matches_iff {a : Argument} (hc : a.concolic = true) (name : Bytes) :
    ([⟨name, a.size.toNat⟩] = (Item.arg name a).wanted ∧
      ∀ e ∈ (Item.arg name a).elements, e.Sized) ↔ (Item.arg name a).Fits := by
  have hlen : (if a.value = [] then replicate a.size.toNat (0 : UInt8) else a.value).length =
      argLength a := by
    unfold argLength
    split <;> simp
  rw [wanted_arg hc, elements, if_pos hc]
  simp only [List.cons.injEq, ConcolicCall.mk.injEq, true_and, and_true, mem_singleton,
    forall_eq, sized_iff, hlen]
  show _ ↔ (a.value = [] ∨ a.value.length = a.size.toNat) ∧ a.size.toNat < 2 ^ 32 ∧
    name.length < 2 ^ 32
  unfold argLength
  by_cases hv : a.value = []
  · simp only [hv, if_true, true_or, true_and]
    omega
  · simp only [hv, if_false, false_or]
    omega

theorem file_matches_iff {k : Nat} {f : File} (hlen : (cstr f.path).length ≤ 57)
    (hreal : f.real = true → f.size = UInt64.ofNat f.data.length) :
    ([⟨cstr f.path, f.size.toNat⟩, ⟨cstr f.path ++ bytesOf "-posix", f.size.toNat % 2 ^ 32⟩] =
        (Item.file k f).wanted ∧ ∀ e ∈ (Item.file k f).elements, e.Sized) ↔
      (Item.file k f).Fits := by
  have hdata : (if f.real = true then f.data else replicate f.size.toNat (0 : UInt8)).length =
      fileLength f := by
    unfold fileLength
    split <;> simp
  have hsmall : fileLength f < 2 ^ 32 → f.size.toNat = fileLength f := by
    unfold fileLength
    split
    · next hr =>
        intro hlt
        rw [hreal hr, UInt64.toNat_ofNat', Nat.mod_eq_of_lt (by omega)]
    · exact fun _ => rfl
  rw [wanted_file, elements, fileElements]
  simp only [List.cons.injEq, ConcolicCall.mk.injEq, append_cancel_right_eq, and_true,
    mem_cons, not_mem_nil, or_false, forall_eq_or_imp, forall_eq, fileElement,
    sized_iff, hdata, cstr_eq_self_iff]
  show _ ↔ 0 ∉ f.path ∧ fileLength f < 2 ^ 32
  constructor
  · rintro ⟨⟨⟨hp, hs⟩, -, hm⟩, -⟩
    exact ⟨hp, by rw [← hm]; exact Nat.mod_lt _ (by decide)⟩
  · rintro ⟨hp, hlt⟩
    have hs := hsmall hlt
    have hm : f.size.toNat % 2 ^ 32 = fileLength f := by omega
    rw [cstr_eq_self_iff.2 hp] at hlen
    have hposix : (f.path ++ bytesOf "-posix").length < 2 ^ 32 := by
      rw [length_append]
      have : (bytesOf "-posix").length = 6 := by decide
      omega
    exact ⟨⟨⟨hp, hs⟩, hp, hm⟩, ⟨by omega, hm⟩, hposix, hm⟩

theorem stdin_matches_iff {s : STDStream} (hc : s.concolic = true) :
    ([⟨bytesOf "crete-stdin", s.size.toNat⟩,
        ⟨bytesOf "crete-stdin-posix", s.size.toNat % 2 ^ 32⟩] = (Item.stdin s).wanted ∧
      ∀ e ∈ (Item.stdin s).elements, e.Sized) ↔ (Item.stdin s).Fits := by
  rw [wanted_stdin hc, elements, stdinElements, if_pos hc]
  simp only [List.cons.injEq, ConcolicCall.mk.injEq, true_and, and_true, mem_cons,
    not_mem_nil, or_false, forall_eq_or_imp, forall_eq, stdinElement, sized_iff,
    length_replicate]
  show _ ↔ s.size.toNat < 2 ^ 32
  have h1 : (bytesOf "crete-stdin").length < 2 ^ 32 := by decide
  have h2 : (bytesOf "crete-stdin-posix").length < 2 ^ 32 := by decide
  simp only [h1, h2, true_and, and_self]
  constructor
  · omega
  · omega

/-- **One item**: where the guest does not reject it, its calls are the wanted ones and the
    elements' size fields right exactly if the item fits. -/
theorem item_matches_iff (argc : Int) (x : Item) (h : ¬ x.Rejected argc)
    (hreal : ∀ k f, x = .file k f → f.real = true → f.size = UInt64.ofNat f.data.length) :
    (x.calls argc = x.wanted ∧ ∀ e ∈ x.elements, e.Sized) ↔ (x.Concolic → x.Fits) := by
  by_cases hc : x.Concolic
  · simp only [hc, true_imp_iff]
    cases x with
    | arg name a =>
      have hc' : a.concolic = true := hc
      rw [calls, if_neg h, if_pos hc']
      exact arg_matches_iff hc' name
    | file k f =>
      have h57 : ¬ 57 < (cstr f.path).length := fun e => h (.inr (.inl e))
      have hz : ¬ f.size.toNat % 2 ^ 32 = 0 := fun e => h (.inr (.inr (.inl e)))
      have h1 : ¬ ((cstr f.path = [] ∨ 256 < (cstr f.path).length ∨ f.size = 0) ∨ 7 ≤ k) := by
        rintro ((e | e | e) | e)
        · exact h (.inl e)
        · omega
        · exact hz (by rw [e]; rfl)
        · exact h (.inr (.inr (.inr e)))
      rw [calls, if_neg h1, if_neg (not_or.2 ⟨h57, hz⟩)]
      exact file_matches_iff (by omega) (hreal k f rfl)
    | stdin s =>
      have hc' : s.concolic = true := hc
      have hz : ¬ s.size.toNat % 2 ^ 32 = 0 := fun e => h ⟨hc', e⟩
      have h0 : s.size ≠ 0 := fun e => hz (by rw [e]; rfl)
      rw [calls, if_pos ⟨hc', h0⟩, if_neg hz]
      exact stdin_matches_iff hc'
  · have hw := (wanted_nil_iff x).2 hc
    have he : x.elements = [] := map_eq_nil_iff.1 hw
    have hcalls : x.calls argc = [] := by
      rw [← length_eq_zero_iff, calls_length_of_accepted argc x h, hw]
      rfl
    simp [hc, he, hcalls, hw]

/-- **All items**: the two traversals match and the size fields are right exactly under
    `ItemsOk`. -/
theorem matches_iff (argc : Int) : ∀ xs : List Item,
    (∀ k f, Item.file k f ∈ xs → f.real = true → f.size = UInt64.ofNat f.data.length) →
    ((Matches wanted (calls argc) (Item.Rejected argc) xs ∧
      ∀ e ∈ xs.flatMap elements, e.Sized) ↔ ItemsOk argc xs)
  | [], _ => by simp [Matches, ItemsOk]
  | x :: xs, hreal => by
    rw [Matches, ItemsOk]
    by_cases hr : x.Rejected argc
    · rw [if_pos hr, if_pos hr]
      simp only [wanted_nil_iff]
      refine ⟨fun h => h.1, fun h => ⟨h, fun e he => ?_⟩⟩
      obtain ⟨y, hy, hey⟩ := mem_flatMap.1 he
      have hnil : y.elements = [] := map_eq_nil_iff.1 ((wanted_nil_iff y).2 (h y hy))
      rw [hnil] at hey
      cases hey
    · have hx := item_matches_iff argc x hr
        (fun k f e => hreal k f (by rw [e]; exact (.head _)))
      have hxs := matches_iff argc xs (fun k f hm => hreal k f (.tail _ hm))
      rw [if_neg hr, if_neg hr, ← hx, ← hxs]
      simp only [flatMap_cons, mem_append, or_imp, forall_and]
      exact and_and_and_comm

theorem agrees_iff_emitted (cfg : HarnessConfiguration) (input : Bytes → Bytes)
    (argvOld : List Bytes) : Agrees cfg input argvOld ↔
      (processConfiguration input cfg argvOld).out = (extractElements cfg).map elementCall ∧
        ∀ e ∈ extractElements cfg, e.Sized := by
  unfold Agrees extractInitialTest
  by_cases h : (extractElements cfg).length = 0
  · rw [if_pos h, length_eq_zero_iff.1 h]
    simp
  · rw [if_neg h]
    rfl

theorem file_mem_items {cfg : HarnessConfiguration} {k : Nat} {f : File}
    (h : Item.file k f ∈ items cfg) : f ∈ cfg.files := by
  have harg : ∀ (as : List Argument) (name : Bytes), Item.file k f ∉ argItems name as := by
    intro as
    induction as with
    | nil => exact fun _ => not_mem_nil
    | cons a as ih =>
      intro name hm
      rcases mem_cons.1 hm with e | hm
      · cases e
      · exact ih _ hm
  have hfile : ∀ (fs : List File) (j : Nat), Item.file k f ∈ fileItems j fs → f ∈ fs := by
    intro fs
    induction fs with
    | nil => exact fun _ hm => by cases hm
    | cons g gs ih =>
      intro j hm
      rcases mem_cons.1 hm with e | hm
      · cases e
        exact (.head _)
      · exact .tail _ (ih _ hm)
  rw [items, mem_append, mem_append] at h
  rcases h with (h | h) | h
  · exact absurd h (harg _ _)
  · exact hfile _ _ h
  · cases mem_singleton.1 h

/-- **The initial test against the guest.** For every accepted configuration, whatever the guest
    program was started with: the initial test's elements are the concolic objects the guest
    makes, in order and with their sizes, and their size fields are right, if and only if the
    configuration meets `ItemsOk`. -/
theorem agrees_iff (cfg : HarnessConfiguration) (hcfg : Accepted cfg)
    (input : Bytes → Bytes) (program : Bytes) (rest : List Bytes) :
    Agrees cfg input (program :: rest) ↔ ItemsOk (guestArgc cfg (program :: rest)) (items cfg) := by
  have hmap : (items cfg).flatMap wanted = ((items cfg).flatMap elements).map elementCall := by
    rw [map_flatMap]
    rfl
  rw [agrees_iff_emitted, processConfiguration_out, extractElements_eq, ← hmap,
    emitted_eq_flatMap_iff (fun x => ?_) (fun x => calls_length_of_accepted _ x)
      (fun x hr hl => ?_)]
  · exact matches_iff _ _ fun k f hm => hcfg.real f (file_mem_items hm)
  · by_cases hr : x.Rejected (guestArgc cfg (program :: rest))
    · rcases calls_length_of_rejected _ x hr with h | ⟨h, -⟩
      · exact Nat.le_of_lt h
      · rw [h]
        exact Nat.zero_le _
    · exact (calls_length_of_accepted _ x hr).le
  · rcases calls_length_of_rejected _ x hr with h | ⟨-, h⟩
    · omega
    · exact h

/-- A file system without files. -/
def noFiles : FileSystem := fun _ => none

/-- An argument with its value, one with its size, a virtual file and a concolic stdin. -/
def plainConfig : RawConfig where
  crete := some
    { args := some [⟨some 1, none, some (bytesOf "ab"), none⟩, ⟨some 2, some 3, none, none⟩]
      files := some [⟨some (bytesOf "in"), some true, some 4⟩]
      stdin := some ⟨some 5, none⟩ }

/-- What loading makes of it. -/
def plainLoaded : HarnessConfiguration where
  arguments := [⟨1, 2, bytesOf "ab", true⟩, ⟨2, 3, [], true⟩]
  files := [⟨bytesOf "in", false, 4, []⟩]
  stdin := ⟨5, true⟩

/-- The plain configuration is accepted and its initial test fits. -/
theorem agrees_plain :
    Accepted plainLoaded ∧ Agrees plainLoaded (fun _ => []) [bytesOf "prog"] := by
  have h : Accepted plainLoaded := ⟨noFiles, plainConfig, plainLoaded, rfl, rfl⟩
  exact ⟨h, (agrees_iff plainLoaded h _ _ []).2 (by decide)⟩

/-- An argument whose value is shorter than its explicit size: the host's element has two bytes,
    the guest's object four. And a concolic stdin of size 0: the host has two elements, the guest
    makes nothing. -/
theorem agrees_slips : (Accepted ⟨[⟨1, 4, bytesOf "ab", true⟩], [], ⟨0, false⟩⟩ ∧
      ¬ Agrees ⟨[⟨1, 4, bytesOf "ab", true⟩], [], ⟨0, false⟩⟩ (fun _ => []) [bytesOf "prog"]) ∧
    (Accepted ⟨[], [], ⟨0, true⟩⟩ ∧
      ¬ Agrees ⟨[], [], ⟨0, true⟩⟩ (fun _ => []) [bytesOf "prog"]) := by
  refine ⟨⟨⟨noFiles, ⟨some ⟨some [⟨some 1, some 4, some (bytesOf "ab"), none⟩], none, none⟩⟩, _,
    rfl, rfl⟩, ?_⟩, ⟨⟨noFiles, ⟨some ⟨none, none, some ⟨some 0, none⟩⟩⟩, _, rfl, rfl⟩, ?_⟩⟩
  · rw [agrees_iff_emitted]
    exact fun h => absurd h.1 (by decide)
  · rw [agrees_iff_emitted]
    exact fun h => absurd h.1 (by decide)

end Crete.Config
