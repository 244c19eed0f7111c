/-
  File:      Crete/Config/Executor.lean
  Subject:   Replaying a test: how the executor (lib/test-case/executor.cpp) turns a test case
             back into arguments, files and stdin, and how the host preload
             (lib/host-preload/preload.cpp) builds the program's `argv` from the arguments file.

  * `handOut` -- hands the elements out by the type sequence of the configuration; the arguments
    are sorted by index.
  * `handOut_test` -- on a test laid out like the guest's objects, `handOut` gives every concolic
    argument its bytes.
-/
import Crete.Config.Guest
import Crete.TestCase.Codec

namespace Crete.Config

open Crete.Lib Crete.Lib.IStream List

/-! ## 1. The executor -/

/-- `Executor::ElemType`. -/
inductive ElemType where
  | arg
  | file
  | stdin
  deriving DecidableEq, Repr

/-- How replay can end other than by returning; `emptyQueue` is `back()` of an empty deque. -/
inductive ExecStop where
  | runtimeError (what : String)
  | assertion (expr : String)
  | emptyQueue
  deriving DecidableEq, Repr

/-- `load_element_type_sequence`, in the order the types are taken off the queue. -/
def elementTypeSequence (cfg : HarnessConfiguration) : List ElemType :=
  (cfg.arguments.filter (·.concolic)).map (fun _ => .arg) ++ cfg.files.map (fun _ => .file) ++
    if cfg.stdin.concolic then [.stdin] else []

/-- `Executor::select`: the first element, unless it is all zeros. -/
def select (lhs rhs : TestCaseElement) : TestCaseElement :=
  if lhs.data = replicate lhs.data.length 0 then rhs else lhs

/-- What `filter` throws where the element after a file's or stdin's is not its `-posix` one. -/
def noPosixElement (tc : String) : ElemType → ExecStop
  | .stdin => .runtimeError ("adjacent '-posix' concolic element not found " ++ tc)
  | _ => .runtimeError ("adjacent '-posix' concolic element not found: " ++ tc)

/-- `Executor::filter`; `tc` is the path of the test case. -/
def filterElements (tc : String) : List ElemType → List TestCaseElement →
    Except ExecStop (List TestCaseElement)
  | _, [] => .ok []
  | [], _ :: _ => .error .emptyQueue
  | .arg :: q, e :: es => do
      let es ← filterElements tc q es
      return e :: es
  | .file :: _, [_] => .error (.runtimeError
      ("adjacent '-posix' concolic element not found: " ++ tc))
  | .stdin :: _, [_] => .error (.runtimeError
      ("adjacent '-posix' concolic element not found: " ++ tc))
  | t :: q, libc :: posix :: es => do
      ensure (bytesOf "-posix" <:+ posix.name) (noPosixElement tc t)
      ensure (libc.data.length = posix.data.length)
        (.assertion "libc.data.size() == posix.data.size()")
      let es ← filterElements tc q es
      return select libc posix :: es

/-- What the loop of `prepare` carries: the arguments, the concolic ones still without a value
    (by position), the types still to come, the data for stdin, and the file system. -/
structure PrepareState (σ : Type) where
  args : List Argument
  concolicArgs : List Nat
  queue : List ElemType
  stdin : Bytes
  files : σ

/-- The body of the loop of `prepare`. `write` is `Executor::write` on the file system. -/
def prepareOne {σ : Type} (write : TestCaseElement → σ → Except ExecStop σ) (s : PrepareState σ)
    (e : TestCaseElement) : Except ExecStop (PrepareState σ) :=
  match s.queue with
  | [] => .error .emptyQueue
  | .arg :: q => match s.concolicArgs with
    | [] => .error .emptyQueue
    | i :: is => match s.args[i]? with
      | none => .error .emptyQueue
      | some a => do
          ensure (a.size.toNat = e.data.length)
            (.runtimeError "configuration and test arg size don't match")
          return { s with
            args := s.args.set i { a with value := e.data }
            concolicArgs := is
            queue := q }
  | .file :: q => do
      let files ← write e s.files
      return { s with queue := q, files := files }
  | .stdin :: q => return { s with queue := q, stdin := e.data }

/-- The positions of the concolic arguments. -/
def concolicPositions : Nat → List Argument → List Nat
  | _, [] => []
  | i, a :: as => if a.concolic then i :: concolicPositions (i + 1) as
      else concolicPositions (i + 1) as

/-- `sort_by_index`. -/
def sortByIndex (args : List Argument) : List Argument :=
  args.insertionSort (fun a b => a.index ≤ b.index)

/-- `Executor::prepare` after the test is read: the arguments as written to the arguments file,
    the data for stdin, and the file system after it. -/
def handOut {σ : Type} (write : TestCaseElement → σ → Except ExecStop σ) (tcPath : String)
    (cfg : HarnessConfiguration) (tc : TestCase) (files : σ) :
    Except ExecStop (List Argument × Bytes × σ) := do
  let tces ← filterElements tcPath (elementTypeSequence cfg) tc.elems
  let s ← tces.foldlM (prepareOne write)
    ⟨cfg.arguments, concolicPositions 0 cfg.arguments, elementTypeSequence cfg, [], files⟩
  return (sortByIndex s.args, s.stdin, s.files)

/-- An exception or assertion of the decoder, in `prepare`. -/
def ofReadError : ReadError → ExecStop
  | .runtimeError what => .runtimeError what
  | .assertion expr => .assertion expr

/-- `Executor::prepare` on the bytes of the test file, up to the writing of the arguments file. -/
def prepare {σ : Type} (write : TestCaseElement → σ → Except ExecStop σ) (u : Uninit)
    (tcPath : String) (cfg : HarnessConfiguration) (tcFile : Bytes) (files : σ) :
    Except ExecStop (List Argument × Bytes × σ) :=
  match (readTestCase u (ofBytes tcFile)).map Prod.fst with
  | .error e => .error (ofReadError e)
  | .ok tc => handOut write tcPath cfg tc files

/-- `prepare` succeeds on the test it has read. -/
theorem prepare_eq_ok {σ : Type} {write : TestCaseElement → σ → Except ExecStop σ} {u : Uninit}
    {tcPath : String} {cfg : HarnessConfiguration} {tcFile : Bytes} {files : σ}
    {r : List Argument × Bytes × σ} (h : prepare write u tcPath cfg tcFile files = .ok r) :
    ∃ tc, (readTestCase u (ofBytes tcFile)).map Prod.fst = .ok tc ∧
      handOut write tcPath cfg tc files = .ok r := by
  unfold prepare at h
  split at h
  · cases h
  · next tc hread => exact ⟨tc, hread, h⟩

/-! ## 2. The host preload -/

/-- What a program is started with: `argc`, and `argv[0..argc]`. -/
structure Launch where
  argc : Int
  argv : List (Option Bytes)
  deriving DecidableEq, Repr

/-- `crete_process_test_case`, from the program's name and the arguments file. -/
def processTestCase (program : Bytes) (args : List Argument) : Except ExecStop Launch := do
  ensure (∀ a ∈ args, a.size ≠ 0)
    (.assertion "[libcrete_host_preload.so] arg size should never be 0!")
  return ⟨toInt (args.length + 1),
    some program :: args.map (fun a => some (cstr a.value)) ++ [none]⟩

/-- The program gets the same `argc` and the same C strings `argv[0..argc-1]`. -/
structure SameArgv (g h : Launch) : Prop where
  argc : g.argc = h.argc
  argv : ∀ i : Nat, (i : Int) < g.argc → g.argv[i]? = h.argv[i]?

/-! ## 3. A test laid out like the guest's objects -/

/-- The test elements of the concolic arguments, under the guest's names. -/
def argTest (input : Bytes → Bytes) : Bytes → List Argument → List TestCaseElement
  | _, [] => []
  | name, a :: as =>
    if a.concolic then
      ⟨UInt32.ofNat (nextName a name).length, nextName a name, UInt32.ofNat a.size.toNat,
        input (nextName a name)⟩ :: argTest input (nextName a name) as
    else argTest input name as

/-- The arguments with each concolic one given the bytes of its object. -/
def boundArgs (input : Bytes → Bytes) : Bytes → List Argument → List Argument
  | _, [] => []
  | name, a :: as =>
    (if a.concolic then { a with value := input (nextName a name) } else a) ::
      boundArgs input (nextName a name) as

/-- The assignment gives every concolic argument as many bytes as its size. -/
def InputSized (input : Bytes → Bytes) : Bytes → List Argument → Prop
  | _, [] => True
  | name, a :: as =>
    (a.concolic = true → (input (nextName a name)).length = a.size.toNat) ∧
      InputSized input (nextName a name) as

/-- A pair of elements for each file and for stdin: equally long, the second a `-posix` one. -/
def PairsLaidOut : List ElemType → List TestCaseElement → Prop
  | [], es => es = []
  | _ :: q, libc :: posix :: es => bytesOf "-posix" <:+ posix.name ∧
      libc.data.length = posix.data.length ∧ PairsLaidOut q es
  | _ :: _, _ => False

/-- The types of the argument elements. -/
def argTypes (args : List Argument) : List ElemType :=
  (args.filter (·.concolic)).map fun _ => .arg

/-- The types of the file and stdin elements. -/
def pairTypes (cfg : HarnessConfiguration) : List ElemType :=
  cfg.files.map (fun _ => .file) ++ if cfg.stdin.concolic then [.stdin] else []

theorem elementTypeSequence_eq (cfg : HarnessConfiguration) :
    elementTypeSequence cfg = argTypes cfg.arguments ++ pairTypes cfg := by
  rw [elementTypeSequence, append_assoc]
  rfl

theorem arg_not_mem_pairTypes (cfg : HarnessConfiguration) : ElemType.arg ∉ pairTypes cfg := by
  unfold pairTypes
  rw [mem_append]
  rintro (h | h)
  · obtain ⟨f, -, e⟩ := mem_map.1 h
    cases e
  · split at h
    · simp at h
    · cases h

section Prepare

variable {σ : Type} (write : TestCaseElement → σ → Except ExecStop σ) (tc : String)
  (input : Bytes → Bytes)

variable {rest kept : List TestCaseElement}

/-- Of a pair one element is kept. -/
theorem filterElements_pair {t : ElemType} (ht : t ≠ .arg) {q : List ElemType}
    {libc posix : TestCaseElement} (hp : bytesOf "-posix" <:+ posix.name)
    (hlen : libc.data.length = posix.data.length) (h : filterElements tc q rest = .ok kept) :
    filterElements tc (t :: q) (libc :: posix :: rest) = .ok (select libc posix :: kept) := by
  rw [filterElements, ensure_bind, if_pos hp, ensure_bind, if_pos hlen, h]
  · rfl
  · exact ht

/-- Of the pairs one element each is kept. -/
theorem filterElements_pairs : ∀ (q : List ElemType) (es : List TestCaseElement),
    ElemType.arg ∉ q → PairsLaidOut q es →
    ∃ kept, filterElements tc q es = .ok kept ∧ kept.length = q.length
  | [], es, _, h => by
    cases h
    exact ⟨[], rfl, rfl⟩
  | t :: q, [], _, h => by cases h
  | t :: q, [_], _, h => by cases h
  | t :: q, libc :: posix :: es, ha, h => by
    obtain ⟨hp, hl, hrest⟩ := h
    obtain ⟨kept, hk, hlen⟩ := filterElements_pairs q es (fun hm => ha (.tail _ hm)) hrest
    have ht : t ≠ .arg := by
      rintro rfl
      exact ha (.head _)
    exact ⟨_, filterElements_pair tc ht hp hl hk, by rw [length_cons, length_cons, hlen]⟩

/-- The argument elements are kept as they are. -/
theorem filterElements_args {q : List ElemType}
    (h : filterElements tc q rest = .ok kept) : ∀ (cs : List Argument) {es : List TestCaseElement},
    es.length = cs.length →
    filterElements tc (cs.map (fun _ => .arg) ++ q) (es ++ rest) = .ok (es ++ kept)
  | [], [], _ => h
  | [], _ :: _, hl => by cases hl
  | _ :: _, [], hl => by cases hl
  | _ :: cs, e :: es, hl => by
    have ih := filterElements_args h cs (Nat.succ.inj hl)
    rw [map_cons, cons_append, cons_append, filterElements, ih]
    rfl

theorem argTest_length : ∀ (as : List Argument) (name : Bytes),
    (argTest input name as).length = (as.filter (·.concolic)).length
  | [], _ => rfl
  | a :: as, name => by
    rw [argTest]
    by_cases hc : a.concolic = true
    · rw [if_pos hc, filter_cons_of_pos hc, length_cons, length_cons, argTest_length as]
    · rw [if_neg hc, filter_cons_of_neg hc, argTest_length as]

/-- One argument element gives the next concolic argument its bytes. -/
theorem prepareOne_arg {a : Argument} {as done : List Argument} {is : List Nat}
    {q : List ElemType} {st : Bytes} {fs : σ} {e : TestCaseElement}
    (hlen : a.size.toNat = e.data.length) :
    prepareOne write ⟨done ++ a :: as, done.length :: is, .arg :: q, st, fs⟩ e =
      .ok ⟨done ++ { a with value := e.data } :: as, is, q, st, fs⟩ := by
  have hget : (done ++ a :: as)[done.length]? = some a := by
    rw [getElem?_append_right le_rfl, Nat.sub_self]
    rfl
  have hset : (done ++ a :: as).set done.length { a with value := e.data } =
      done ++ { a with value := e.data } :: as := by
    rw [set_append_right _ _ le_rfl, Nat.sub_self]
    rfl
  simp only [prepareOne, hget, ensure_bind, if_pos hlen, hset]
  rfl

/-- **The argument elements give the concolic arguments their bytes**, in order. -/
theorem prepare_args : ∀ (as done : List Argument) (name : Bytes) (q : List ElemType)
    (st : Bytes) (fs : σ), InputSized input name as →
    (argTest input name as).foldlM (prepareOne write)
        ⟨done ++ as, concolicPositions done.length as, argTypes as ++ q, st, fs⟩ =
      .ok ⟨done ++ boundArgs input name as, [], q, st, fs⟩
  | [], _, _, _, _, _, _ => rfl
  | a :: as, done, name, q, st, fs, hsz => by
    obtain ⟨ha, has⟩ := hsz
    -- the argument, bound or not, joins those already done
    have ih := prepare_args as (done ++ [if a.concolic then
      { a with value := input (nextName a name) } else a]) (nextName a name) q st fs has
    rw [length_append, length_singleton, append_assoc, append_assoc] at ih
    unfold argTest concolicPositions argTypes boundArgs
    by_cases hc : a.concolic = true
    · rw [filter_cons_of_pos hc, if_pos hc, if_pos hc, map_cons, cons_append,
        foldlM_cons, prepareOne_arg write (ha hc).symm, ok_bind]
      rw [if_pos hc] at ih ⊢
      exact ih
    · rw [filter_cons_of_neg hc, if_neg hc, if_neg hc]
      rw [if_neg hc] at ih ⊢
      have hn : nextName a name = name := if_neg hc
      rw [hn] at ih ⊢
      exact ih

/-- The file and stdin elements do not touch the arguments. -/
theorem prepare_pairs (hwrite : ∀ e s, ∃ s', write e s = .ok s') :
    ∀ (q : List ElemType) (es : List TestCaseElement) (s : PrepareState σ), ElemType.arg ∉ q →
    s.queue = q → es.length = q.length →
    ∃ st fs, es.foldlM (prepareOne write) s = .ok ⟨s.args, s.concolicArgs, [], st, fs⟩
  | [], es, s, _, hq, hl => by
    have : es = [] := length_eq_zero_iff.1 hl
    subst this
    exact ⟨s.stdin, s.files, by rw [← hq]; rfl⟩
  | t :: q, [], s, _, _, hl => by cases hl
  | t :: q, e :: es, s, ha, hq, hl => by
    have hq' : ElemType.arg ∉ q := fun hm => ha (.tail _ hm)
    have hl' : es.length = q.length := Nat.succ.inj hl
    rw [foldlM_cons]
    cases t with
    | arg => exact absurd (.head _) ha
    | file =>
      obtain ⟨fs, hfs⟩ := hwrite e s.files
      have hone : prepareOne write s e = .ok { s with queue := q, files := fs } := by
        simp only [prepareOne, hq, hfs, ok_bind]
        rfl
      rw [hone, ok_bind]
      exact prepare_pairs hwrite q es { s with queue := q, files := fs } hq' rfl hl'
    | stdin =>
      have hone : prepareOne write s e = .ok { s with queue := q, stdin := e.data } := by
        simp only [prepareOne, hq]
        rfl
      rw [hone, ok_bind]
      exact prepare_pairs hwrite q es { s with queue := q, stdin := e.data } hq' rfl hl'

/-- **`handOut` on a test laid out like the guest's objects** writes the arguments with every
    concolic one given its bytes, sorted by index. -/
theorem handOut_test (hwrite : ∀ e s, ∃ s', write e s = .ok s') (cfg : HarnessConfiguration)
    (hsz : InputSized input (bytesOf "arg") cfg.arguments) {pairs : List TestCaseElement}
    (hp : PairsLaidOut (pairTypes cfg) pairs) (fs : σ) :
    ∃ st fs', handOut write tc cfg ⟨argTest input (bytesOf "arg") cfg.arguments ++ pairs⟩ fs =
      .ok (sortByIndex (boundArgs input (bytesOf "arg") cfg.arguments), st, fs') := by
  obtain ⟨kept, hkept, hlen⟩ := filterElements_pairs tc (pairTypes cfg) pairs
    (arg_not_mem_pairTypes cfg) hp
  have hfilter : filterElements tc (argTypes cfg.arguments ++ pairTypes cfg) _ = _ :=
    filterElements_args tc hkept _ (argTest_length input cfg.arguments (bytesOf "arg"))
  have hargs := prepare_args write input cfg.arguments [] (bytesOf "arg") (pairTypes cfg) [] fs hsz
  obtain ⟨st, fs', hpairs⟩ := prepare_pairs write hwrite (pairTypes cfg) kept
    ⟨[] ++ boundArgs input (bytesOf "arg") cfg.arguments, [], pairTypes cfg, [], fs⟩
    (arg_not_mem_pairTypes cfg) rfl hlen
  refine ⟨st, fs', ?_⟩
  rw [handOut, elementTypeSequence_eq, hfilter, ok_bind, foldlM_append]
  rw [nil_append, length_nil] at hargs
  rw [hargs, ok_bind, hpairs]
  rfl

end Prepare

end Crete.Config
