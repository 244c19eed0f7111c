/-
  File:      Crete/Config/Guest.lean
  Subject:   What the guest does with the configuration before the program's `main` runs:
             argv_processor.cpp, preload.cpp and symfile.c.

  * `processArgv` -- builds the program's `argv`, making the concolic arguments concolic.
  * `processFiles`, `processStdin` -- a concolic file or stdin is made twice, for the C library's
    stream functions and, under the name with `-posix`, for the POSIX calls.
-/
import Crete.Config.Harness
import Crete.Lib.Emit

namespace Crete.Config

open Crete.Lib Crete.Lib.Emit

/-- How the preload can end other than by returning. -/
inductive GuestStop where
  | runtimeError (what : String)
  | assertion (expr : String)
  | stackOverflow
  deriving DecidableEq, Repr

/-- A call of `crete_make_concolic(addr, size, name)`. -/
structure ConcolicCall where
  name : Bytes
  size : Nat
  deriving DecidableEq, Repr

/-- A preload computation. -/
abbrev Guest := Emit ConcolicCall GuestStop

/-! ## 1. Arguments -/

/-- A `size_t` as an `int`. -/
def toInt (n : Nat) : Int :=
  let m : Nat := n % 2 ^ 32
  if m < 2 ^ 31 then m else (m : Int) - 2 ^ 32

/-- `has_index_zero`. -/
def hasIndexZero (args : List Argument) : Bool := args.any fun a => a.index = 0

/-- `adjust_for_index_zero`. -/
def adjustForIndexZero (argc : Int) (args : List Argument) : Int :=
  if args.length > 0 ∧ ¬ hasIndexZero args then argc + 1 else argc

/-- `determine_argc_value`. -/
def determineArgcValue (argc : Int) (args : List Argument) : Int :=
  let newArgc := if argc > toInt args.length then argc else toInt args.length
  adjustForIndexZero newArgc args

/-- `verify_invariants`. -/
def verifyInvariants (a : Argument) (argc : Int) : Guest Unit := do
  require (a.size ≠ 0) (.runtimeError "argument size is 0")
  require (a.index.toNat < toSizeT argc) (.runtimeError "arg index outside of bounds")

/-- What the `argv` loop carries: the name of the last concolic argument, and `argv`. -/
structure ArgvState where
  name : Bytes
  argv : List (Option Bytes)

/-- `init_arg`: the name after it, and the C string in the argument's buffer. `input` says what
    `crete_make_concolic` puts into an object, by its name. -/
def initArg (input : Bytes → Bytes) (a : Argument) (name : Bytes) :
    Guest (Bytes × Bytes) := do
  require (a.size + 1 ≠ 0) (.assertion "mem_size > 0")
  if a.concolic then
    let name := name ++ bytesOf ",x"
    emit ⟨cstr name, a.size.toNat⟩
    return (name, cstr ((input name).take a.size.toNat))
  else
    return (name, (cstr a.value).take a.size.toNat)

/-- The body of the loop of `fill_argv`. -/
def fillOne (input : Bytes → Bytes) (argc : Int) (s : ArgvState) (a : Argument) :
    Guest ArgvState := do
  verifyInvariants a argc
  let (name, str) ← initArg input a s.name
  return ⟨name, s.argv.set a.index.toNat (some str)⟩

/-- `fill_argv`. -/
def fillArgv (input : Bytes → Bytes) (argc : Int) (argv : List (Option Bytes))
    (args : List Argument) : Guest ArgvState :=
  forEach (fillOne input argc) ⟨bytesOf "arg", argv⟩ args

/-- `process_argv` from the original `argv`: the new `argc`, and `argv[0..argc]`. -/
def processArgv (input : Bytes → Bytes) (args : List Argument)
    (argvOld : List Bytes) : Guest (Int × List (Option Bytes)) := do
  require (argvOld.length > 0) (.assertion "[CRETE] - argc should always be greater than 0")
  let argc := determineArgcValue argvOld.length args
  let argv := argvOld.map some ++ List.replicate (argc.toNat + 1 - argvOld.length) none
  let s ← fillArgv input argc argv args
  return (argc, s.argv)

/-- The name a traversal of the arguments has after an argument. -/
def nextName (a : Argument) (name : Bytes) : Bytes :=
  if a.concolic then name ++ bytesOf ",x" else name

/-! ## 2. Files and stdin -/

/-- `__create_new_dfile`: the size is cut to an `unsigned`; the name and `-posix` go into a
    buffer of 64 bytes. -/
def createNewDfile (size : UInt64) (path : Bytes) : Guest Unit := do
  let size := size.toNat % 2 ^ 32
  require (path.length < 64) (.assertion "path_len < sizeof(sname)")
  require (path.length + 7 ≤ 64) .stackOverflow
  require (size ≠ 0) (.assertion "size")
  emit ⟨path ++ bytesOf "-posix", size⟩

/-- `CRETE_MAX_CONCOLIC_FILE_ENTRIES`. -/
def maxFiles : Nat := 8

/-- The assertions of `crete_make_concolic_file`, which its helper for the C library repeats. -/
def checkFile (name : Bytes) (size : UInt64) : Guest Unit := do
  require (name ≠ []) (.assertion "[CRETE] file name must be valid")
  require (name.length ≤ 256) (.assertion "[CRETE] file name size too large")
  require (size ≠ 0) (.assertion "[CRETE] file size must be greater than zero")

/-- `crete_make_concolic_file_std`, with `count` concolic files made before. -/
def makeConcolicFileStd (count : Nat) (name : Bytes) (size : UInt64) : Guest Unit := do
  checkFile name size
  require (count + 1 < maxFiles)
    (.assertion "(crete_concolic_files.size + 1) < CRETE_MAX_CONCOLIC_FILE_ENTRIES")
  emit ⟨name, size.toNat⟩

/-- `crete_make_concolic_file`. -/
def makeConcolicFile (count : Nat) (name : Bytes) (size : UInt64) : Guest Unit := do
  checkFile name size
  makeConcolicFileStd count name size
  createNewDfile size name

/-- The body of the loop of `crete_process_files`. -/
def makeOne (count : Nat) (f : File) : Guest Nat := do
  makeConcolicFile count (cstr f.path) f.size
  return count + 1

/-- `crete_process_files`. -/
def processFiles (files : List File) : Guest Nat := forEach makeOne 0 files

/-- `crete_make_concolic_stdin`, made once and after the files. -/
def makeConcolicStdin (size : UInt64) : Guest Unit := do
  require (size ≠ 0) (.assertion "[CRETE] file size must be greater than zero")
  emit ⟨bytesOf "crete-stdin", size.toNat⟩
  createNewDfile size (bytesOf "crete-stdin")

/-- `crete_process_stdin`. -/
def processStdin (s : STDStream) : Guest Unit :=
  if s.concolic ∧ s.size ≠ 0 then makeConcolicStdin s.size else return ()

/-- `crete_process_configuration`. -/
def processConfiguration (input : Bytes → Bytes) (cfg : HarnessConfiguration)
    (argvOld : List Bytes) : Guest (Int × List (Option Bytes)) := do
  let r ← processArgv input cfg.arguments argvOld
  let _ ← processFiles cfg.files
  processStdin cfg.stdin
  return r

end Crete.Config
