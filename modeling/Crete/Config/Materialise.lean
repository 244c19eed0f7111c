/-
  File:      Crete/Config/Materialise.lean
  Subject:   Does replay give the program the test it was made for? `Executor::clean` and
             `Executor::prepare` (lib/test-case/executor.cpp) with the files they remove and write.

  A file of the configuration has two elements in a test, one for the C library and one for the
  POSIX calls, and so has stdin. The executor keeps the first unless it is all zeros, and names
  the file after the element it kept, with a `-posix` taken out.

  * `Materialised` -- what should be there: every argument, file and stdin with the bytes of its
    changed element.
  * **`materialises_iff`** -- the test is materialised exactly if the configuration and the test
    meet `Materialisable`.
-/
import Crete.Config.Executor
import Crete.Config.InitialTest
import Crete.Lib.Fresh
import Crete.Lib.Path

namespace Crete.Config

open Crete.Lib Crete.Lib.IStream List Function

/-! ## 1. The executor on a file system -/

/-- What there is at a place. -/
inductive Node where
  | file (data : Bytes)
  | dir
  deriving DecidableEq, Repr

/-- A file system. -/
abbrev Tree := Place → Option Node

/-- Where the executor works: `working_dir_`, the directory it was started in, the path of the
    test for its messages; with the text archive of the arguments and what variables hold before
    they are read into. -/
structure ExecEnv where
  workingDir : Path
  currentDir : Path
  tcPath : String
  archive : List Argument → Bytes
  uninit : Uninit

/-- The place of a configured path. -/
def ExecEnv.place (x : ExecEnv) (path : Path) : Place := resolve [] (join x.workingDir path)

/-- The place of the arguments file, `crete_test_case_args_path`. -/
def ExecEnv.argsPlace (x : ExecEnv) : Place :=
  resolve [] (join x.currentDir (bytesOf "test_case_args.bin"))

/-- `Executor::clean`. -/
def clean (x : ExecEnv) (cfg : HarnessConfiguration) (t : Tree) : Tree :=
  cfg.files.foldl (fun t f => update t (x.place f.path) none) t

/-- The path `Executor::write` gives the file of an element. -/
def elementPath (x : ExecEnv) (name : Bytes) : Path :=
  let fpath := join x.workingDir name
  join (parentPath fpath) (removeLast (bytesOf "-posix") (filename fpath))

/-- The place of it. -/
def elementPlace (x : ExecEnv) (e : TestCaseElement) : Place := resolve [] (elementPath x e.name)

/-- What `write` throws if there is something already. -/
def existingFile (x : ExecEnv) (e : TestCaseElement) : ExecStop :=
  .runtimeError ("existing file matches test element: " ++
    String.ofList ((elementPath x e.name).map fun b => Char.ofNat b.toNat))

/-- `Executor::write`. -/
def write (x : ExecEnv) (e : TestCaseElement) (t : Tree) : Except ExecStop Tree :=
  putNew (elementPlace x) (fun e => Node.file e.data) (existingFile x) t e

/-- `Executor::prepare`, with the arguments file written. -/
def prepareTest (x : ExecEnv) (cfg : HarnessConfiguration) (tcFile : Bytes) (t : Tree) :
    Except ExecStop (List Argument × Bytes × Tree) := do
  let r ← prepare (write x) x.uninit x.tcPath cfg tcFile t
  return (r.1, r.2.1, update r.2.2 x.argsPlace (some (.file (x.archive r.1))))

/-! ## 2. Tests laid out like the initial test -/

/-- The bytes of a test: those of the concolic arguments, and for every file and for stdin those
    of its two elements. -/
structure TestData where
  args : List Bytes
  files : List (Bytes × Bytes)
  stdin : Bytes × Bytes

/-- The two elements' bytes. -/
def pairData (p : Bytes × Bytes) : List Bytes := [p.1, p.2]

/-- The names of a file's two elements. -/
def pairNames (name : Bytes) : List Bytes := [name, name ++ bytesOf "-posix"]

/-- All of it, in the order of the elements. -/
def TestData.all (cfg : HarnessConfiguration) (d : TestData) : List Bytes :=
  d.args ++ d.files.flatMap pairData ++ if cfg.stdin.concolic then pairData d.stdin else []

/-- **A test laid out like the initial test**: the same names with as many bytes each, and with
    the bytes `d`. -/
structure LaidOut (cfg : HarnessConfiguration) (d : TestData) (es : List TestCaseElement) :
    Prop where
  args : d.args.length = (cfg.arguments.filter (·.concolic)).length
  files : d.files.length = cfg.files.length
  names : es.map (·.name) = (extractElements cfg).map (·.name)
  sizes : es.map (·.data.length) = (extractElements cfg).map (·.data.length)
  data : es.map (·.data) = d.all cfg

/-- The initial contents of a file. -/
def contents (f : File) : Bytes := if f.real then f.data else replicate f.size.toNat 0

/-- The initial contents of stdin. -/
def stdinContents (s : STDStream) : Bytes := replicate s.size.toNat 0

/-- At most one of the two elements differs from the initial contents. -/
def OneChanged (initial : Bytes) (p : Bytes × Bytes) : Prop :=
  p.1 = initial ∨ p.2 = initial
  deriving Decidable

/-- In every pair at most one element has changed. -/
structure OneChangedEach (cfg : HarnessConfiguration) (d : TestData) : Prop where
  files : ∀ z ∈ cfg.files.zip d.files, OneChanged (contents z.1) z.2
  stdin : cfg.stdin.concolic = true → OneChanged (stdinContents cfg.stdin) d.stdin

/-- The bytes of the changed element; the initial contents if neither has changed. -/
def changed (initial : Bytes) (p : Bytes × Bytes) : Bytes :=
  if p.1 = initial then p.2 else p.1

/-- The arguments, the concolic ones with their bytes in place of their values. -/
def bindArgs : List Argument → List Bytes → List Argument
  | [], _ => []
  | a :: as, ds =>
    if a.concolic then { a with value := ds.headD [] } :: bindArgs as ds.tail
    else a :: bindArgs as ds

/-- **The test is there**: in the arguments and their file, in the files, and for stdin; nothing
    else in the file system is other than before. -/
structure Materialised (x : ExecEnv) (cfg : HarnessConfiguration) (d : TestData) (t : Tree)
    (r : List Argument × Bytes × Tree) : Prop where
  args : r.1 = sortByIndex (bindArgs cfg.arguments d.args)
  argsFile : r.2.2 x.argsPlace = some (.file (x.archive r.1))
  files : ∀ z ∈ cfg.files.zip d.files,
    r.2.2 (x.place z.1.path) = some (.file (changed (contents z.1) z.2))
  stdin : cfg.stdin.concolic = true → r.2.1 = changed (stdinContents cfg.stdin) d.stdin
  others : ∀ i, i ≠ x.argsPlace → (∀ f ∈ cfg.files, i ≠ x.place f.path) → r.2.2 i = t i

/-- All bytes are zero. -/
def Zeros (bs : Bytes) : Prop := bs = replicate bs.length 0
  deriving Decidable

/-- **The condition on a file's two elements**: the C library's, if it has changed, is not all
    zeros; if the POSIX one has changed, the initial contents are; and the file's name has no
    `-posix` in it, or the C library's element is all zeros. -/
structure PairOk (f : File) (p : Bytes × Bytes) : Prop where
  libc : p.1 ≠ contents f → ¬ Zeros p.1
  posix : p.2 ≠ contents f → Zeros (contents f)
  name : Zeros p.1 ∨ ¬ bytesOf "-posix" <:+: behindSlash f.path

/-- **The condition**: a concolic argument that is given a value is given one of its size, the
    configured paths are different files, and every file's elements meet `PairOk`. -/
structure Materialisable (x : ExecEnv) (cfg : HarnessConfiguration) (d : TestData) : Prop where
  args : ∀ a ∈ cfg.arguments, a.concolic = true → a.value = [] ∨ a.value.length = a.size.toNat
  distinct : (cfg.files.map fun f => x.place f.path).Nodup
  pairs : ∀ z ∈ cfg.files.zip d.files, PairOk z.1 z.2

/-! ## 3. What is kept of a pair -/

variable {libc posix : TestCaseElement}

/-- The bytes that are kept. -/
def keptData (p : Bytes × Bytes) : Bytes := if Zeros p.1 then p.2 else p.1

/-- The name of the element that is kept. -/
def keptName (name : Bytes) (p : Bytes × Bytes) : Bytes :=
  if Zeros p.1 then name ++ bytesOf "-posix" else name

theorem select_of_zeros (h : Zeros libc.data) : select libc posix = posix :=
  if_pos h

theorem select_of_not_zeros (h : ¬ Zeros libc.data) : select libc posix = libc :=
  if_neg h

theorem select_data (libc posix : TestCaseElement) :
    (select libc posix).data = keptData (libc.data, posix.data) := by
  unfold keptData
  by_cases h : Zeros libc.data
  · rw [select_of_zeros h, if_pos h]
  · rw [select_of_not_zeros h, if_neg h]

theorem select_name {name : Bytes} (hl : libc.name = name)
    (hp : posix.name = name ++ bytesOf "-posix") :
    (select libc posix).name = keptName name (libc.data, posix.data) := by
  unfold keptName
  by_cases h : Zeros libc.data
  · rw [select_of_zeros h, if_pos h, hp]
  · rw [select_of_not_zeros h, if_neg h, hl]

/-- **The changed bytes are kept** exactly if a changed C library element is not all zeros and
    with a changed POSIX element the initial contents are. -/
theorem keptData_eq_changed_iff {initial : Bytes} {p : Bytes × Bytes} (h : OneChanged initial p) :
    keptData p = changed initial p ↔
      (p.1 ≠ initial → ¬ Zeros p.1) ∧ (p.2 ≠ initial → Zeros initial) := by
  unfold keptData changed
  by_cases h₁ : p.1 = initial
  · rw [if_pos h₁, h₁]
    by_cases hz : Zeros initial
    · simp [hz]
    · rw [if_neg hz]
      simp only [hz, imp_false, not_not, ne_eq, not_true_eq_false, false_imp_iff, true_and]
      exact eq_comm
  · have h₂ : p.2 = initial := h.resolve_left h₁
    rw [if_neg h₁, h₂]
    by_cases hz : Zeros p.1
    · rw [if_pos hz]
      simp only [hz, not_true_eq_false, imp_false, ne_eq, not_not]
      constructor
      · intro e
        exact absurd e.symm h₁
      · intro e
        exact absurd e.1 h₁
    · simp [hz]

/-- With stdin nothing goes wrong: its initial contents are zeros. -/
theorem keptData_stdin {s : STDStream} {p : Bytes × Bytes}
    (h : OneChanged (stdinContents s) p) (hlen : p.1.length = s.size.toNat) :
    keptData p = changed (stdinContents s) p := by
  refine (keptData_eq_changed_iff h).2 ⟨fun hne hz => hne ?_, fun _ => ?_⟩
  · rw [stdinContents, ← hlen]
    exact hz
  · unfold Zeros stdinContents
    rw [length_replicate]

/-! ## 4. Where the kept element is written -/

section Places

variable (x : ExecEnv)

variable {path : Path}

/-- The place of a file's name with a `-posix` taken out. -/
def ExecEnv.strippedPlace (path : Path) : Place :=
  enter (resolve [] (upToSlash (join x.workingDir path)))
    (removeLast (bytesOf "-posix") (behindSlash (join x.workingDir path)))

theorem resolve_elementPath (name : Path) :
    resolve [] (elementPath x name) = x.strippedPlace name := by
  have hslash : slash ∉ removeLast (bytesOf "-posix") (filename (join x.workingDir name)) := by
    intro h
    have hm := removeLast_subset h
    unfold filename at hm
    split at hm
    · revert hm
      decide
    · exact slash_not_mem_behindSlash _ hm
  rw [elementPath, resolve_parent_join _ hslash, ExecEnv.strippedPlace, filename]
  split
  · next hlast =>
      -- a path that ends in a separator has no last name
      obtain ⟨d, e⟩ := getLast?_eq_some_iff.1 hlast
      have hnil : behindSlash (join x.workingDir name) = [] := by
        rw [e, behindSlash]
        exact rtakeWhile_concat_neg (fun b => decide (b ≠ slash)) d slash (by simp)
      rw [hnil]
      rfl
  · rfl

/-- The POSIX element leads to the configured path. -/
theorem strippedPlace_posix (h : path ≠ []) :
    x.strippedPlace (path ++ bytesOf "-posix") = x.place path := by
  obtain ⟨hb, hu⟩ := behindSlash_append (p := join x.workingDir path)
    (s := bytesOf "-posix") (by decide)
  rw [ExecEnv.strippedPlace, join_append h, hb, hu, removeLast_append (by decide),
    ← resolve_eq_enter, ExecEnv.place]

theorem behindSlash_join (h : path ≠ []) :
    behindSlash (join x.workingDir path) = behindSlash path := by
  have hsep : ∀ p q : Path, behindSlash (p ++ slash :: q) = behindSlash q := by
    intro p q
    have hcut := (behindSlash_append (p := p ++ slash :: upToSlash q)
      (slash_not_mem_behindSlash q)).1
    rw [append_assoc, cons_append, upToSlash_append_behindSlash] at hcut
    have hend : behindSlash (p ++ slash :: upToSlash q) = [] := by
      have hlast : ∃ d, p ++ slash :: upToSlash q = d ++ [slash] := by
        rcases upToSlash_cases q with e | ⟨d, e⟩
        · exact ⟨p, by rw [e]⟩
        · exact ⟨p ++ slash :: d, by rw [e, append_assoc, cons_append]⟩
      obtain ⟨d, e⟩ := hlast
      rw [e, behindSlash]
      exact rtakeWhile_concat_neg (fun b => decide (b ≠ slash)) d slash (by simp)
    rw [hcut, hend, nil_append]
  unfold join
  rw [if_neg h]
  split
  · next hc =>
      rcases hc with e | e | e
      · rw [e, nil_append]
      · obtain ⟨d, e⟩ := getLast?_eq_some_iff.1 e
        rw [e, append_assoc, singleton_append, hsep]
      · obtain ⟨q, e⟩ := head?_eq_some_iff.1 e
        rw [e, hsep]
        exact (hsep [] q).symm
  · exact hsep _ _

/-- The C library's element leads to the configured path if there is no `-posix` in its name. -/
theorem strippedPlace_of_not_infix (h : path ≠ [])
    (hi : ¬ bytesOf "-posix" <:+: behindSlash path) : x.strippedPlace path = x.place path := by
  rw [ExecEnv.strippedPlace, removeLast_of_not_infix (by rwa [behindSlash_join x h]),
    ← resolve_eq_enter, ExecEnv.place]

/-- If there is one, it leads to a place of less weight. -/
theorem weight_strippedPlace (h : path ≠ []) (hi : bytesOf "-posix" <:+: behindSlash path) :
    weight (x.strippedPlace path) < weight (x.place path) := by
  rw [ExecEnv.strippedPlace, ExecEnv.place, resolve_eq_enter [] (join x.workingDir path)]
  exact weight_enter_removeLast (by decide) (by rwa [behindSlash_join x h]) _

/-- The place of the element that is kept of a pair. -/
def keptPlace (path : Path) (p : Bytes × Bytes) : Place :=
  x.strippedPlace (keptName path p)

theorem keptPlace_eq (h : path ≠ []) {p : Bytes × Bytes}
    (hp : Zeros p.1 ∨ ¬ bytesOf "-posix" <:+: behindSlash path) :
    keptPlace x path p = x.place path := by
  unfold keptPlace keptName
  split
  · exact strippedPlace_posix x h
  · next hz => exact strippedPlace_of_not_infix x h (hp.resolve_left hz)

theorem weight_keptPlace (h : path ≠ []) {p : Bytes × Bytes}
    (hp : ¬ (Zeros p.1 ∨ ¬ bytesOf "-posix" <:+: behindSlash path)) :
    weight (keptPlace x path p) < weight (x.place path) := by
  rw [not_or, not_not] at hp
  rw [keptPlace, keptName, if_neg hp.1]
  exact weight_strippedPlace x h hp.2

theorem weight_keptPlace_le (h : path ≠ []) (p : Bytes × Bytes) :
    weight (keptPlace x path p) ≤ weight (x.place path) := by
  by_cases hp : Zeros p.1 ∨ ¬ bytesOf "-posix" <:+: behindSlash path
  · rw [keptPlace_eq x h hp]
  · exact (weight_keptPlace x h hp).le

theorem keptPlace_cases (h : path ≠ []) (p : Bytes × Bytes) :
    keptPlace x path p = x.place path ∨ keptPlace x path p = x.strippedPlace path := by
  unfold keptPlace keptName
  split
  · exact .inl (strippedPlace_posix x h)
  · exact .inr rfl

end Places

/-! ## 5. The elements, filtered -/

section Filter

variable (tc : String)

variable {rest kept : List TestCaseElement}

/-- The pairs of the files: of each one element is kept. -/
theorem filterElements_files {q : List ElemType}
    (h : filterElements tc q rest = .ok kept) : ∀ {fs : List File}
    {ds : List (Bytes × Bytes)} {es : List TestCaseElement}, ds.length = fs.length →
    es.map (·.name) = fs.flatMap (fun f => pairNames f.path) →
    es.map (·.data) = ds.flatMap pairData → (∀ p ∈ ds, p.1.length = p.2.length) →
    ∃ ks, filterElements tc (fs.map (fun _ => .file) ++ q) (es ++ rest) = .ok (ks ++ kept) ∧
      ks.length = fs.length ∧ ks.map (fun e => (e.name, e.data)) =
        (fs.zip ds).map (fun z => (keptName z.1.path z.2, keptData z.2))
  | [], [], es, _, hn, _, _ => by
    rw [map_eq_nil_iff.1 hn]
    exact ⟨[], h, rfl, rfl⟩
  | [], _ :: _, _, hl, _, _, _ => by cases hl
  | _ :: _, [], _, hl, _, _, _ => by cases hl
  | f :: fs, p :: ds, es, hl, hn, hd, hlen => by
    obtain ⟨libc, es, rfl, hn₁, hn⟩ := map_eq_cons_iff.1 hn
    obtain ⟨posix, es, rfl, hn₂, hn⟩ := map_eq_cons_iff.1 hn
    simp only [map_cons, flatMap_cons, pairData, cons_append, nil_append, List.cons.injEq] at hd
    obtain ⟨hd₁, hd₂, hd⟩ := hd
    obtain ⟨ks, hks, hkl, hk⟩ := filterElements_files h (Nat.succ.inj hl) hn hd
      (forall_mem_cons.1 hlen).2
    have hdata : (libc.data, posix.data) = p := by rw [hd₁, hd₂]
    have hsize : libc.data.length = posix.data.length := by
      rw [hd₁, hd₂]
      exact hlen p (.head _)
    refine ⟨select libc posix :: ks, ?_, ?_, ?_⟩
    · exact filterElements_pair tc (by rintro ⟨⟩) ⟨_, hn₂.symm⟩ hsize hks
    · rw [length_cons, length_cons, hkl]
    · rw [map_cons, zip_cons_cons, map_cons, hk, select_name hn₁ hn₂, select_data, hdata]

end Filter

/-! ## 6. The elements, handed out -/

/-- The concolic arguments' elements are as long as their sizes. -/
def ArgsFit : List Argument → List Bytes → Prop
  | [], _ => True
  | a :: as, ds =>
    if a.concolic then a.size.toNat = (ds.headD []).length ∧ ArgsFit as ds.tail
    else ArgsFit as ds

section Loop

variable {σ : Type} (wr : TestCaseElement → σ → Except ExecStop σ)

/-- **The arguments' elements**: they are handed out if they are as long as they should be. -/
theorem prepareOne_args_iff : ∀ (as done : List Argument) (es : List TestCaseElement)
    (q : List ElemType) (st : Bytes) (fs : σ) (s : PrepareState σ),
    es.length = (as.filter (·.concolic)).length →
    (es.foldlM (prepareOne wr)
        ⟨done ++ as, concolicPositions done.length as, argTypes as ++ q, st, fs⟩ = .ok s ↔
      ArgsFit as (es.map (·.data)) ∧ s = ⟨done ++ bindArgs as (es.map (·.data)), [], q, st, fs⟩)
  | [], done, es, q, st, fs, s, hl => by
    rw [length_eq_zero_iff.1 hl]
    simp only [foldlM_nil, ArgsFit, bindArgs, true_and]
    exact ⟨fun h => (Except.ok.inj h).symm, fun h => by rw [h]; rfl⟩
  | a :: as, done, es, q, st, fs, s, hl => by
    by_cases hc : a.concolic = true
    · rw [filter_cons_of_pos hc] at hl
      obtain ⟨e, es, rfl⟩ := exists_cons_of_length_eq_add_one hl
      have ih := prepareOne_args_iff as (done ++ [{ a with value := e.data }]) es q st fs s
        (Nat.succ.inj hl)
      rw [length_append, length_singleton, append_assoc, append_assoc] at ih
      have htypes : argTypes (a :: as) = .arg :: argTypes as := by
        rw [argTypes, filter_cons_of_pos hc]
        rfl
      rw [foldlM_cons, concolicPositions, if_pos hc, htypes, cons_append, ArgsFit,
        if_pos hc, bindArgs, if_pos hc, map_cons, headD_cons, tail_cons]
      by_cases hsize : a.size.toNat = e.data.length
      · rw [prepareOne_arg wr hsize, ok_bind]
        simp only [hsize, true_and]
        exact ih
      · have hstop : prepareOne wr ⟨done ++ a :: as,
            done.length :: concolicPositions (done.length + 1) as, .arg :: (argTypes as ++ q),
            st, fs⟩ e =
            .error (.runtimeError "configuration and test arg size don't match") := by
          have hget : (done ++ a :: as)[done.length]? = some a := by
            rw [getElem?_append_right le_rfl, Nat.sub_self]
            rfl
          simp only [prepareOne, hget, ensure_bind, if_neg hsize]
        rw [hstop, error_bind]
        simp [hsize]
    · rw [filter_cons_of_neg hc] at hl
      have ih := prepareOne_args_iff as (done ++ [a]) es q st fs s hl
      rw [length_append, length_singleton, append_assoc, append_assoc] at ih
      have htypes : argTypes (a :: as) = argTypes as := by
        rw [argTypes, filter_cons_of_neg hc]
        rfl
      rw [concolicPositions, if_neg hc, htypes, ArgsFit, if_neg hc, bindArgs, if_neg hc]
      exact ih

/-- **The files' elements** are written one after another. -/
theorem prepareOne_files {args : List Argument} {cs : List Nat} {q : List ElemType}
    {st : Bytes} : ∀ {fs : List File} {ks : List TestCaseElement} {t : σ},
    ks.length = fs.length →
    ks.foldlM (prepareOne wr) ⟨args, cs, fs.map (fun _ => .file) ++ q, st, t⟩ =
      (ks.foldlM (fun t e => wr e t) t).map fun t' => ⟨args, cs, q, st, t'⟩
  | [], [], _, _ => rfl
  | [], _ :: _, _, hl => by cases hl
  | _ :: _, [], _, hl => by cases hl
  | f :: fs, e :: ks, t, hl => by
    rw [foldlM_cons, foldlM_cons, map_cons, cons_append]
    cases hw : wr e t with
    | error stop =>
      simp only [prepareOne, hw, error_bind]
      rfl
    | ok t' =>
      simp only [prepareOne, hw, ok_bind]
      exact prepareOne_files (Nat.succ.inj hl)

end Loop

/-! ## 7. The parts of a test -/

section Parts

variable {cfg : HarnessConfiguration} {d : TestData} {es : List TestCaseElement}

theorem argElements_length : ∀ (as : List Argument) (name : Bytes),
    (argElements name as).length = (as.filter (·.concolic)).length
  | [], _ => rfl
  | a :: as, name => by
    rw [argElements]
    by_cases hc : a.concolic = true
    · rw [if_pos hc, filter_cons_of_pos hc, length_cons, length_cons, argElements_length as]
    · rw [if_neg hc, filter_cons_of_neg hc, argElements_length as]

/-- The elements of the arguments, of the files and of stdin. -/
structure Parts (cfg : HarnessConfiguration) (d : TestData)
    (as ps ss : List TestCaseElement) : Prop where
  argData : as.map (·.data) = d.args
  argSizes : as.map (·.data.length) =
    (argElements (bytesOf "arg") cfg.arguments).map (·.data.length)
  fileNames : ps.map (·.name) = (cfg.files.flatMap fileElements).map (·.name)
  fileData : ps.map (·.data) = d.files.flatMap pairData
  fileSizes : ps.map (·.data.length) = (cfg.files.flatMap fileElements).map (·.data.length)
  stdinNames : ss.map (·.name) = (stdinElements cfg.stdin).map (·.name)
  stdinData : ss.map (·.data) = if cfg.stdin.concolic then pairData d.stdin else []
  stdinSizes : ss.map (·.data.length) = (stdinElements cfg.stdin).map (·.data.length)

theorem length_flatMap_two {α β : Type} {g : α → List β} (hg : ∀ a, (g a).length = 2) :
    ∀ xs : List α, (xs.flatMap g).length = 2 * xs.length
  | [] => rfl
  | a :: xs => by
    rw [flatMap_cons, length_append, hg, length_flatMap_two hg xs, length_cons]
    omega

/-- A list cut in three is equal to another part by part. -/
theorem append_three_inj {α : Type} {a b c a' b' c' : List α} (ha : a.length = a'.length)
    (hb : b.length = b'.length) (h : a ++ b ++ c = a' ++ b' ++ c') : a = a' ∧ b = b' ∧ c = c' := by
  obtain ⟨h, hc⟩ := append_inj h (by rw [length_append, length_append, ha, hb])
  obtain ⟨ha, hb⟩ := append_inj h ha
  exact ⟨ha, hb, hc⟩

theorem LaidOut.parts (h : LaidOut cfg d es) :
    ∃ as ps ss, es = as ++ ps ++ ss ∧ Parts cfg d as ps ss := by
  obtain ⟨aps, ss, rfl, haps, hss⟩ := map_eq_append_iff.1 h.data
  obtain ⟨as, ps, rfl, has, hps⟩ := map_eq_append_iff.1 haps
  have hal : as.length = (argElements (bytesOf "arg") cfg.arguments).length := by
    rw [argElements_length, ← h.args, ← has, length_map]
  have hpl : ps.length = (cfg.files.flatMap fileElements).length := by
    have := congrArg List.length hps
    rw [length_map, length_flatMap_two fun _ => rfl] at this
    rw [this, length_flatMap_two fun _ => rfl, h.files]
  have hn := h.names
  have hs := h.sizes
  simp only [extractElements, map_append] at hn hs
  obtain ⟨-, hn₂, hn₃⟩ := append_three_inj (by rw [length_map, length_map, hal])
    (by rw [length_map, length_map, hpl]) hn
  obtain ⟨hs₁, hs₂, hs₃⟩ := append_three_inj (by rw [length_map, length_map, hal])
    (by rw [length_map, length_map, hpl]) hs
  exact ⟨as, ps, ss, rfl, has, hs₁, hn₂, hps, hs₂, hn₃, hss, hs₃⟩

/-- The arguments' elements are as long as they should be exactly if no value is given whose
    length is not the size. -/
theorem argsFit_iff : ∀ {as : List Argument} (name : Bytes) {ds : List Bytes},
    ds.map List.length = (argElements name as).map (·.data.length) →
    (ArgsFit as ds ↔ ∀ a ∈ as, a.concolic = true → a.value = [] ∨ a.value.length = a.size.toNat)
  | [], _, _, _ => by simp [ArgsFit]
  | a :: as, name, ds, h => by
    rw [argElements] at h
    rw [ArgsFit, forall_mem_cons]
    by_cases hc : a.concolic = true
    · rw [if_pos hc, map_cons] at h
      obtain ⟨b, ds, rfl, hb, hds⟩ := map_eq_cons_iff.1 h
      rw [if_pos hc, headD_cons, tail_cons, argsFit_iff _ hds, hb]
      refine and_congr ?_ Iff.rfl
      simp only [hc, true_imp_iff]
      by_cases hv : a.value = []
      · simp [hv]
      · simp only [hv, if_false, false_or]
        exact eq_comm
    · rw [if_neg hc] at h
      rw [if_neg hc, argsFit_iff _ h]
      simp [hc]

theorem Parts.pair_sizes {as ps ss : List TestCaseElement} (h : Parts cfg d as ps ss)
    (hl : d.files.length = cfg.files.length) : ∀ p ∈ d.files, p.1.length = p.2.length := by
  have hsizes : (d.files.flatMap pairData).map List.length =
      (cfg.files.flatMap fileElements).map (·.data.length) := by
    rw [← h.fileData, map_map, ← h.fileSizes]
    rfl
  revert hl hsizes
  generalize d.files = ds
  generalize cfg.files = fs
  intro hl hsizes
  induction ds generalizing fs with
  | nil => exact forall_mem_nil _
  | cons p ds ih =>
    obtain ⟨f, fs, rfl⟩ := exists_cons_of_length_eq_add_one hl.symm
    simp only [flatMap_cons, pairData, fileElements, fileElement, map_cons,
      cons_append, nil_append, List.cons.injEq] at hsizes
    intro p' hp'
    rcases mem_cons.1 hp' with rfl | hp'
    · omega
    · exact ih fs (Nat.succ.inj hl) hsizes.2.2 p' hp'

theorem fileElements_names (fs : List File) :
    (fs.flatMap fileElements).map (·.name) = fs.flatMap fun f => pairNames f.path := by
  rw [map_flatMap]
  rfl

/-- What is kept for stdin. -/
theorem Parts.stdin {as ps ss : List TestCaseElement} (h : Parts cfg d as ps ss) (tc : String) :
    ∃ ks, filterElements tc (if cfg.stdin.concolic then [ElemType.stdin] else []) ss = .ok ks ∧
      ks.map (·.data) = (if cfg.stdin.concolic then [keptData d.stdin] else []) ∧
      (cfg.stdin.concolic = true → d.stdin.1.length = cfg.stdin.size.toNat) := by
  have hn := h.stdinNames
  have hd := h.stdinData
  have hs := h.stdinSizes
  rw [stdinElements] at hn hs
  by_cases hc : cfg.stdin.concolic = true
  · rw [if_pos hc] at hn hd hs
    obtain ⟨libc, ss, rfl, hd₁, hd⟩ := map_eq_cons_iff.1 hd
    obtain ⟨posix, ss, rfl, hd₂, hd⟩ := map_eq_cons_iff.1 hd
    obtain rfl := map_eq_nil_iff.1 hd
    simp only [map_cons, map_nil, List.cons.injEq, and_true, stdinElement,
      length_replicate] at hn hs
    have hname : posix.name = bytesOf "crete-stdin" ++ bytesOf "-posix" := hn.2
    refine ⟨[select libc posix], ?_, ?_, fun _ => by rw [← hd₁, hs.1]⟩
    · rw [if_pos hc]
      exact filterElements_pair tc (by rintro ⟨⟩) ⟨_, hname.symm⟩ (by rw [hs.1, hs.2]) rfl
    · rw [if_pos hc, map_singleton, select_data, hd₁, hd₂]
  · rw [if_neg hc] at hd
    rw [map_eq_nil_iff.1 hd]
    exact ⟨[], by rw [if_neg hc]; rfl, by rw [if_neg hc]; rfl, fun h => absurd h hc⟩

end Parts

/-! ## 8. The whole -/

section Whole

variable (x : ExecEnv) {cfg : HarnessConfiguration} {d : TestData} {es : List TestCaseElement}

/-- **What `handOut` does with a test laid out like the initial one**: if the arguments' elements
    have the right sizes, it hands out the arguments and writes the elements kept of the files. -/
theorem handOut_eq_ok_iff (h : LaidOut cfg d es) :
    ∃ ks : List TestCaseElement, ks.map (fun e => (e.name, e.data)) =
        (cfg.files.zip d.files).map (fun z => (keptName z.1.path z.2, keptData z.2)) ∧
      ∀ t r, handOut (write x) x.tcPath cfg ⟨es⟩ t = .ok r ↔ ArgsFit cfg.arguments d.args ∧
          ∃ t', putAll (elementPlace x) (fun e => Node.file e.data) (existingFile x) t ks = .ok t' ∧
            r = (sortByIndex (bindArgs cfg.arguments d.args),
              if cfg.stdin.concolic then keptData d.stdin else [], t') := by
  obtain ⟨as, ps, ss, rfl, hp⟩ := h.parts
  obtain ⟨ss', hss, hssd, -⟩ := hp.stdin x.tcPath
  obtain ⟨ks, hks, hkl, hk⟩ := filterElements_files x.tcPath hss h.files
    (hp.fileNames.trans (fileElements_names cfg.files)) hp.fileData (hp.pair_sizes h.files)
  have hal : as.length = (cfg.arguments.filter (·.concolic)).length := by
    rw [← h.args, ← hp.argData, length_map]
  have hfilter : filterElements x.tcPath (argTypes cfg.arguments ++ _) _ = _ :=
    filterElements_args x.tcPath hks _ hal
  rw [← append_assoc as] at hfilter
  refine ⟨ks, hk, fun t r => ?_⟩
  have hseq : elementTypeSequence cfg = argTypes cfg.arguments ++
      (cfg.files.map (fun _ => .file) ++ if cfg.stdin.concolic then [.stdin] else []) :=
    elementTypeSequence_eq cfg
  have hargs := fun s => prepareOne_args_iff (write x) cfg.arguments [] as
    (cfg.files.map (fun _ => .file) ++ if cfg.stdin.concolic then [.stdin] else []) [] t s hal
  simp only [nil_append, length_nil, hp.argData] at hargs
  -- the last element, if there is one, is stdin's
  have hstdin : ∀ t' : Tree, ss'.foldlM (prepareOne (write x)) ⟨bindArgs cfg.arguments d.args, [],
      if cfg.stdin.concolic then [.stdin] else [], [], t'⟩ = .ok ⟨bindArgs cfg.arguments d.args,
        [], [], if cfg.stdin.concolic then keptData d.stdin else [], t'⟩ := by
    intro t'
    by_cases hc : cfg.stdin.concolic = true
    · rw [if_pos hc] at hssd
      obtain ⟨e, rest, rfl, he, hrest⟩ := map_eq_cons_iff.1 hssd
      rw [map_eq_nil_iff.1 hrest, if_pos hc, if_pos hc, ← he]
      rfl
    · rw [if_neg hc] at hssd
      rw [map_eq_nil_iff.1 hssd, if_neg hc, if_neg hc]
      rfl
  rw [handOut, hseq, hfilter, ok_bind, foldlM_append, bind_eq_ok]
  simp only [foldlM_append]
  constructor
  · rintro ⟨s, hs, hr⟩
    obtain ⟨s₁, hs₁, hs⟩ := bind_eq_ok.1 hs
    obtain ⟨hfit, rfl⟩ := (hargs s₁).1 hs₁
    rw [prepareOne_files (write x) hkl] at hs
    obtain ⟨s₂, hs₂, hs⟩ := bind_eq_ok.1 hs
    obtain ⟨t', hput, rfl⟩ := map_eq_ok.1 hs₂
    rw [hstdin] at hs
    cases hs
    cases hr
    exact ⟨hfit, t', hput, rfl⟩
  · rintro ⟨hfit, t', hput, rfl⟩
    have hput' : ks.foldlM (fun t e => write x e t) t = .ok t' := hput
    refine ⟨⟨bindArgs cfg.arguments d.args, [], [],
      if cfg.stdin.concolic then keptData d.stdin else [], t'⟩, ?_, rfl⟩
    rw [(hargs _).2 ⟨hfit, rfl⟩, ok_bind, prepareOne_files (write x) hkl, hput']
    exact hstdin t'

theorem clean_configured {f : File} : ∀ {fs : List File} {t : Tree}, f ∈ fs →
    fs.foldl (fun t f => update t (x.place f.path) none) t (x.place f.path) = none := by
  intro fs
  induction fs using reverseRecOn with
  | nil => exact fun h => by cases h
  | append_singleton fs g ih =>
    intro t h
    rw [foldl_append, foldl_cons, foldl_nil]
    by_cases hg : x.place f.path = x.place g.path
    · rw [hg, update_self]
    · rw [update_of_ne hg]
      rcases mem_append.1 h with h | h
      · exact ih h
      · rw [mem_singleton.1 h] at hg
        exact absurd rfl hg

theorem clean_other {i : Place} : ∀ {fs : List File} {t : Tree}, (∀ f ∈ fs, i ≠ x.place f.path) →
    fs.foldl (fun t f => update t (x.place f.path) none) t i = t i
  | [], _, _ => rfl
  | f :: fs, t, h => by
    rw [foldl_cons, clean_other (forall_mem_cons.1 h).2, update_of_ne (h f (.head _))]

/-- The files are apart from the arguments file: neither a configured path nor one with a
    `-posix` taken out of its name is the path of it. -/
def ArgsApart (cfg : HarnessConfiguration) : Prop :=
  ∀ f ∈ cfg.files, x.argsPlace ≠ x.place f.path ∧ x.argsPlace ≠ x.strippedPlace f.path
  deriving Decidable

theorem prepareTest_eq_ok_iff {tcFile : Bytes} {t : Tree} {r : List Argument × Bytes × Tree}
    (hread : (readTestCase x.uninit (ofBytes tcFile)).map Prod.fst = .ok ⟨es⟩) :
    prepareTest x cfg tcFile t = .ok r ↔ ∃ r', handOut (write x) x.tcPath cfg ⟨es⟩ t = .ok r' ∧
      r = (r'.1, r'.2.1, update r'.2.2 x.argsPlace (some (.file (x.archive r'.1)))) := by
  rw [prepareTest, prepare, hread]
  show (handOut (write x) x.tcPath cfg ⟨es⟩ t >>= _) = _ ↔ _
  rw [bind_eq_ok]
  refine exists_congr fun r' => and_congr Iff.rfl ?_
  exact ⟨fun h => (Except.ok.inj h).symm, fun h => by rw [h]; rfl⟩

/-- The kept elements, file by file. -/
def Kept (cfg : HarnessConfiguration) (d : TestData) (ks : List TestCaseElement) : Prop :=
  ks.map (fun e => (e.name, e.data)) =
    (cfg.files.zip d.files).map (fun z => (keptName z.1.path z.2, keptData z.2))

variable {x} {ks : List TestCaseElement}

theorem Kept.places (h : Kept cfg d ks) :
    ks.map (elementPlace x) = (cfg.files.zip d.files).map fun z => keptPlace x z.1.path z.2 := by
  have := congrArg (List.map fun q : Bytes × Bytes => x.strippedPlace q.1) h
  rw [map_map, map_map] at this
  rw [← show _ = (cfg.files.zip d.files).map fun z => keptPlace x z.1.path z.2 from this]
  exact map_congr_left fun e _ => resolve_elementPath x e.name

/-- After the puts the bytes kept of each pair are at the place of its kept element. -/
theorem Kept.holds (h : Kept cfg d ks) {m m' : Tree}
    (hput : PutAll (elementPlace x) (fun e => Node.file e.data) ks m m')
    {z : File × (Bytes × Bytes)} (hz : z ∈ cfg.files.zip d.files) :
    m (keptPlace x z.1.path z.2) = none ∧
      m' (keptPlace x z.1.path z.2) = some (.file (keptData z.2)) := by
  have hm : (keptName z.1.path z.2, keptData z.2) ∈ ks.map fun e => (e.name, e.data) := by
    rw [h]
    exact mem_map_of_mem hz
  obtain ⟨k, hk, e⟩ := mem_map.1 hm
  have hname : elementPlace x k = keptPlace x z.1.path z.2 := by
    rw [elementPlace, resolve_elementPath, keptPlace, show k.name = _ from congrArg Prod.fst e]
  have hdata : k.data = keptData z.2 := congrArg Prod.snd e
  rw [← hname, ← hdata]
  exact ⟨hput.free k hk, hput.holds k hk⟩

theorem keptPlace_ne_argsPlace (hnamed : ∀ f ∈ cfg.files, f.path ≠ []) (hapart : ArgsApart x cfg)
    {f : File} (hf : f ∈ cfg.files) (p : Bytes × Bytes) :
    keptPlace x f.path p ≠ x.argsPlace := by
  rcases keptPlace_cases x (hnamed f hf) p with e | e
  · rw [e]
    exact (hapart f hf).1.symm
  · rw [e]
    exact (hapart f hf).2.symm

theorem map_place_zip (hl : d.files.length = cfg.files.length) :
    (cfg.files.zip d.files).map (fun z => x.place z.1.path) =
      cfg.files.map fun f => x.place f.path := by
  have hfst : (cfg.files.zip d.files).map Prod.fst = cfg.files := map_fst_zip (by omega)
  have := congrArg (List.map fun f : File => x.place f.path) hfst
  rw [map_map] at this
  exact this

/-- **Kept elements that are at distinct places, all of them configured, are at their own.** No
    place weighs more than the configured one it stands for, and together they weigh the same. -/
theorem places_of_kept (hl : d.files.length = cfg.files.length)
    (hnamed : ∀ f ∈ cfg.files, f.path ≠ [])
    (hn : ((cfg.files.zip d.files).map fun z => keptPlace x z.1.path z.2).Nodup)
    (hsub : ∀ z ∈ cfg.files.zip d.files, ∃ f ∈ cfg.files,
      keptPlace x z.1.path z.2 = x.place f.path) :
    (cfg.files.map fun f => x.place f.path).Nodup ∧
      ∀ z ∈ cfg.files.zip d.files, Zeros z.2.1 ∨ ¬ bytesOf "-posix" <:+: behindSlash z.1.path := by
  have hsub' : ((cfg.files.zip d.files).map fun z => keptPlace x z.1.path z.2) ⊆
      (cfg.files.zip d.files).map fun z => x.place z.1.path := by
    intro i hi
    obtain ⟨z, hz, rfl⟩ := mem_map.1 hi
    obtain ⟨f, hf, e⟩ := hsub z hz
    rw [map_place_zip hl]
    exact mem_map.2 ⟨f, hf, e.symm⟩
  have hperm := perm_of_subset hn hsub' (by rw [length_map, length_map])
  have hweight := forall₂_eq_of_perm (w := weight) hperm (by
    rw [forall₂_map_left_iff, forall₂_map_right_iff, forall₂_same]
    exact fun z hz => weight_keptPlace_le x (hnamed z.1 (of_mem_zip hz).1) z.2)
  rw [forall₂_map_left_iff, forall₂_map_right_iff, forall₂_same] at hweight
  refine ⟨by rw [← map_place_zip hl]; exact hperm.nodup_iff.1 hn, fun z hz => ?_⟩
  by_contra hp
  have hlt := weight_keptPlace x (hnamed z.1 (of_mem_zip hz).1) hp
  rw [hweight z hz] at hlt
  exact Nat.lt_irrefl _ hlt

/-- **A test is materialised exactly if the configuration and the test are `Materialisable`.**
    The test is any that the decoder reads from its file and that is laid out like the initial
    test, in each pair with at most one element changed; the configured paths are not empty and
    apart from the arguments file. -/
theorem materialises_iff (x : ExecEnv) (cfg : HarnessConfiguration) (d : TestData)
    (es : List TestCaseElement) (tcFile : Bytes) (t : Tree)
    (hread : (readTestCase x.uninit (ofBytes tcFile)).map Prod.fst = .ok ⟨es⟩)
    (hlaid : LaidOut cfg d es) (hone : OneChangedEach cfg d)
    (hnamed : ∀ f ∈ cfg.files, f.path ≠ []) (hapart : ArgsApart x cfg) :
    (∃ r, prepareTest x cfg tcFile (clean x cfg t) = .ok r ∧ Materialised x cfg d t r) ↔
      Materialisable x cfg d := by
  obtain ⟨ks, hk, hprep⟩ := handOut_eq_ok_iff x hlaid
  have hk : Kept cfg d ks := hk
  obtain ⟨as, ps, ss, -, hparts⟩ := hlaid.parts
  have hfit : ArgsFit cfg.arguments d.args ↔ _ := argsFit_iff (bytesOf "arg") (by
    rw [← hparts.argSizes, ← hparts.argData, map_map]
    rfl)
  have hfile : ∀ z ∈ cfg.files.zip d.files, z.1 ∈ cfg.files := fun z hz => (of_mem_zip hz).1
  constructor
  · rintro ⟨r, hr, hm⟩
    obtain ⟨r', hr', rfl⟩ := (prepareTest_eq_ok_iff x hread).1 hr
    obtain ⟨hargs, t', hput, rfl⟩ := (hprep _ _).1 hr'
    have hput := PutAll.of_ok hput
    -- what was written and is not at a configured place was not there before
    have hsub : ∀ z ∈ cfg.files.zip d.files,
        ∃ f ∈ cfg.files, keptPlace x z.1.path z.2 = x.place f.path := by
      intro z hz
      by_contra hno
      have hne : ∀ f ∈ cfg.files, keptPlace x z.1.path z.2 ≠ x.place f.path :=
        fun f hf e => hno ⟨f, hf, e⟩
      obtain ⟨hfree, hholds⟩ := hk.holds hput hz
      have hargs' := keptPlace_ne_argsPlace hnamed hapart (hfile z hz) z.2
      have hother : update t' x.argsPlace _ (keptPlace x z.1.path z.2) = t _ :=
        hm.others _ hargs' hne
      rw [update_of_ne hargs', hholds] at hother
      rw [clean, clean_other x hne, ← hother] at hfree
      cases hfree
    have hnodup := hput.nodup
    rw [hk.places] at hnodup
    obtain ⟨hdistinct, hplain⟩ := places_of_kept hlaid.files hnamed hnodup hsub
    refine ⟨hfit.1 hargs, hdistinct, fun z hz => ?_⟩
    have hplace := keptPlace_eq x (hnamed z.1 (hfile z hz)) (hplain z hz)
    have hholds := (hk.holds hput hz).2
    have hwant : update t' x.argsPlace _ (x.place z.1.path) = some _ := hm.files z hz
    rw [update_of_ne (hapart z.1 (hfile z hz)).1.symm, ← hplace, hholds] at hwant
    obtain ⟨hlibc, hposix⟩ := (keptData_eq_changed_iff (hone.files z hz)).1
      (Node.file.inj (Option.some.inj hwant))
    exact ⟨hlibc, hposix, hplain z hz⟩
  · rintro ⟨hargs, hdistinct, hpairs⟩
    have hplace : ∀ z ∈ cfg.files.zip d.files, keptPlace x z.1.path z.2 = x.place z.1.path :=
      fun z hz => keptPlace_eq x (hnamed z.1 (hfile z hz)) (hpairs z hz).name
    have hkeys : ks.map (elementPlace x) = cfg.files.map fun f => x.place f.path := by
      rw [hk.places, map_congr_left hplace, map_place_zip hlaid.files]
    obtain ⟨t', hput⟩ := exists_putAll (fun e => Node.file e.data) (existingFile x)
      (m := clean x cfg t) (hkeys ▸ hdistinct) (by
        intro e he
        have hm : elementPlace x e ∈ cfg.files.map fun f => x.place f.path :=
          hkeys ▸ mem_map_of_mem he
        obtain ⟨f, hf, e⟩ := mem_map.1 hm
        rw [← e]
        exact clean_configured x hf)
    have hspec := PutAll.of_ok hput
    refine ⟨_, (prepareTest_eq_ok_iff x hread).2 ⟨_, (hprep _ _).2 ⟨hfit.2 hargs, t', hput, rfl⟩,
      rfl⟩, rfl, update_self _ _ _, fun z hz => ?_, fun hc => ?_, fun i hi hf => ?_⟩
    · have hz' := hpairs z hz
      show update t' x.argsPlace _ (x.place z.1.path) = _
      rw [update_of_ne (hapart z.1 (hfile z hz)).1.symm, ← hplace z hz, (hk.holds hspec hz).2,
        (keptData_eq_changed_iff (hone.files z hz)).2 ⟨hz'.libc, hz'.posix⟩]
    · obtain ⟨-, -, -, hlen⟩ := hparts.stdin x.tcPath
      show (if cfg.stdin.concolic = true then keptData d.stdin else []) = _
      rw [if_pos hc, keptData_stdin (hone.stdin hc) (hlen hc)]
    · show update t' x.argsPlace _ i = t i
      have hi' : i ∉ ks.map (elementPlace x) := by
        rw [hkeys]
        intro hm
        obtain ⟨f, hf', e⟩ := mem_map.1 hm
        exact hf f hf' e.symm
      rw [update_of_ne hi, hspec.others i hi', clean, clean_other x hf]

end Whole

/-! ## 9. Two tests -/

/-- An executor that is started in its working directory, `/w`. -/
def workDir : ExecEnv := ⟨bytesOf "/w", bytesOf "/w", "test", fun _ => [], ⟨0, 0, 0⟩⟩

/-- An argument, a virtual file in a directory, and stdin. -/
def smallConfig : HarnessConfiguration :=
  ⟨[⟨1, 2, [], true⟩], [⟨bytesOf "d/f", false, 2, []⟩], ⟨1, true⟩⟩

/-- The C library's element of the file has changed, and the POSIX one of stdin. -/
def smallData : TestData := ⟨[[97, 98]], [([1, 0], [0, 0])], ([0], [5])⟩

def smallTest : List TestCaseElement :=
  [⟨5, bytesOf "arg,x", 2, [97, 98]⟩, ⟨3, bytesOf "d/f", 2, [1, 0]⟩,
    ⟨9, bytesOf "d/f-posix", 2, [0, 0]⟩, ⟨11, bytesOf "crete-stdin", 1, [0]⟩,
    ⟨17, bytesOf "crete-stdin-posix", 1, [5]⟩]

theorem materialises_iff_small : ∃ r, prepareTest workDir smallConfig (TestCase.mk smallTest).write
      (clean workDir smallConfig fun _ => none) = .ok r ∧
    Materialised workDir smallConfig smallData (fun _ => none) r :=
  (materialises_iff workDir smallConfig smallData smallTest (TestCase.mk smallTest).write
    (fun _ => none) (by decide +kernel) ⟨rfl, rfl, by decide, by decide, by decide⟩
    ⟨by decide, fun _ => .inl (by decide)⟩ (by decide) (by decide)).2
    ⟨by decide, by decide, by
      intro z hz
      rw [show smallConfig.files.zip smallData.files =
        [(⟨bytesOf "d/f", false, 2, []⟩, ([1, 0], [0, 0]))] from rfl, mem_singleton] at hz
      rw [hz]
      exact ⟨by decide, by decide, by decide⟩⟩

/-- A real file. -/
def realConfig : HarnessConfiguration := ⟨[], [⟨bytesOf "f", true, 2, [65, 66]⟩], ⟨0, false⟩⟩

/-- Its POSIX element has changed. -/
def realData : TestData := ⟨[], [([65, 66], [65, 67])], ([], [])⟩

def realTest : List TestCaseElement :=
  [⟨1, bytesOf "f", 2, [65, 66]⟩, ⟨7, bytesOf "f-posix", 2, [65, 67]⟩]

/-- The changed element is dropped, for the initial contents are not zeros; and the arguments
    file is a file of the working directory that was not there. -/
theorem prepareTest_real : Accepted realConfig ∧ LaidOut realConfig realData realTest ∧
    OneChangedEach realConfig realData ∧
    (prepareTest workDir realConfig (TestCase.mk realTest).write
      (clean workDir realConfig fun _ => none)).map (fun r => (r.2.2 [bytesOf "w", bytesOf "f"],
          r.2.2 [bytesOf "w", bytesOf "test_case_args.bin"])) =
      .ok (some (.file [65, 66]), some (.file [])) ∧
    workDir.place (bytesOf "f") = [bytesOf "w", bytesOf "f"] ∧
    changed [65, 66] ([65, 66], [65, 67]) = [65, 67] := by
  refine ⟨⟨fun _ => some [65, 66], ⟨some ⟨none, some [⟨some (bytesOf "f"), none, none⟩], none⟩⟩,
    ⟨[], [⟨bytesOf "f", true, 0, []⟩], ⟨0, false⟩⟩, rfl, rfl⟩,
    ⟨rfl, rfl, by decide, by decide, by decide⟩, ⟨by decide, by decide⟩, by decide +kernel,
    by decide, by decide⟩

end Crete.Config
