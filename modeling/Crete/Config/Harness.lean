/-
  File:      Crete/Config/Harness.lean
  Subject:   The harness configuration (lib/include/crete/harness_config.h): which arguments,
             files and stdin a program under test gets, and which of them are concolic.

  * `RawConfig` -- the XML tree, each attribute as the property tree hands it out: `none` where
    it is missing or does not convert.
  * `loadArguments_nodup` -- accepted argument indices are distinct.
  * `loadFileData_real` -- an accepted real file carries its data and the size of it.
-/
import Crete.Lib.Bytes
import Crete.Lib.Except

namespace Crete.Config

open Crete.Lib List

/-! ## 1. The configuration -/

/-- `struct Argument`. -/
structure Argument where
  index : UInt64
  size : UInt64
  value : Bytes
  concolic : Bool
  deriving DecidableEq, Repr

/-- `struct File`. -/
structure File where
  path : Bytes
  real : Bool
  size : UInt64
  data : Bytes
  deriving DecidableEq, Repr

/-- `struct STDStream`. -/
structure STDStream where
  size : UInt64
  concolic : Bool
  deriving DecidableEq, Repr

/-- `class HarnessConfiguration`. -/
structure HarnessConfiguration where
  arguments : List Argument
  files : List File
  stdin : STDStream
  deriving DecidableEq, Repr

/-! ## 2. The configuration file -/

/-- An `arg` node. -/
structure RawArgument where
  index : Option UInt64
  size : Option UInt64
  value : Option Bytes
  concolic : Option Bool

/-- A `file` node. -/
structure RawFile where
  path : Option Bytes
  isVirtual : Option Bool
  size : Option UInt64

/-- The `stdin` node; its `concolic` attribute is read as a number. -/
structure RawStdin where
  size : Option UInt64
  concolic : Option UInt64

/-- The `crete` node. -/
structure RawCrete where
  args : Option (List RawArgument)
  files : Option (List RawFile)
  stdin : Option RawStdin

/-- The whole tree, with or without its root node. -/
structure RawConfig where
  crete : Option RawCrete

/-- What loading throws: a `runtime_error`, or the property tree's own error for an attribute
    without a default. -/
inductive ConfigError where
  | runtimeError (what : Bytes)
  | badAttribute (path : String)
  deriving DecidableEq, Repr

/-- The files there are, by path. -/
abbrev FileSystem := Bytes → Option Bytes

/-- `get<T>(path)`: the attribute must be there. -/
def required {α : Type} (path : String) : Option α → Except ConfigError α
  | some a => .ok a
  | none => .error (.badAttribute path)

/-- `get_child_optional`: without the node what was there before stays. -/
def loadOptional {α β : Type} (dflt : β) (load : α → Except ConfigError β) :
    Option α → Except ConfigError β
  | none => .ok dflt
  | some a => load a

/-- `load_argument`. -/
def loadArgument (args : List Argument) (raw : RawArgument) :
    Except ConfigError (List Argument) := do
  let index ← required "<xmlattr>.index" raw.index
  let size := raw.size.getD 0
  let value := raw.value.getD []
  let concolic := raw.concolic.getD true
  ensure (¬ (size = 0 ∧ value = []))
    (.runtimeError (bytesOf "size is 0 and value is empty for arg"))
  let size := if size = 0 then UInt64.ofNat value.length else size
  ensure (∀ a ∈ args, index ≠ a.index) (.runtimeError (bytesOf "duplicate argument index"))
  return args ++ [⟨index, size, value, concolic⟩]

/-- `load_arguments`. -/
def loadArguments : List Argument → List RawArgument → Except ConfigError (List Argument)
  | args, [] => .ok args
  | args, raw :: raws => do
      let args ← loadArgument args raw
      loadArguments args raws

/-- `load_file`. -/
def loadFile (fs : FileSystem) (raw : RawFile) : Except ConfigError File := do
  let path ← required "<xmlattr>.path" raw.path
  let real := !raw.isVirtual.getD false
  let size ← if real then .ok 0 else required "<xmlattr>.size" raw.size
  ensure (¬ (real = true ∧ fs path = none)) (.runtimeError (bytesOf "file not found: " ++ path))
  return ⟨path, real, size, []⟩

/-- `load_files`. -/
def loadFiles (fs : FileSystem) (raws : List RawFile) : Except ConfigError (List File) :=
  raws.mapM (loadFile fs)

/-- `load_stdin`. -/
def loadStdin (raw : RawStdin) : Except ConfigError STDStream := do
  let size ← required "<xmlattr>.size" raw.size
  return ⟨size, raw.concolic.getD 1 ≠ 0⟩

/-- `load_configuration`. -/
def loadConfiguration (fs : FileSystem) (raw : RawConfig) :
    Except ConfigError HarnessConfiguration :=
  match raw.crete with
  | none => .error (.runtimeError
      (bytesOf "[CRETE] configuration error - missing root node 'crete'"))
  | some crete => do
      let arguments ← loadOptional [] (loadArguments []) crete.args
      let files ← loadOptional [] (loadFiles fs) crete.files
      let stdin ← loadOptional ⟨0, false⟩ loadStdin crete.stdin
      return ⟨arguments, files, stdin⟩

/-- The body of the loop of `load_file_data`. -/
def loadOneFileData (fs : FileSystem) (f : File) : Except ConfigError File :=
  if f.real then
    match fs f.path with
    | none => .error (.runtimeError (bytesOf "failed to find file: " ++ f.path))
    | some data => .ok { f with data := data, size := UInt64.ofNat data.length }
  else .ok f

/-- `load_file_data`. -/
def loadFileData (fs : FileSystem) (cfg : HarnessConfiguration) :
    Except ConfigError HarnessConfiguration := do
  let files ← cfg.files.mapM (loadOneFileData fs)
  return { cfg with files := files }

/-- The configurations that `load_configuration` and then `load_file_data` accept. -/
def Accepted (cfg : HarnessConfiguration) : Prop :=
  ∃ fs raw cfg₀, loadConfiguration fs raw = .ok cfg₀ ∧ loadFileData fs cfg₀ = .ok cfg

/-! ## 3. What is accepted -/

theorem loadArgument_ok {args args' : List Argument} {raw : RawArgument}
    (h : loadArgument args raw = .ok args') :
    ∃ a : Argument, args' = args ++ [a] ∧ ∀ b ∈ args, a.index ≠ b.index := by
  unfold loadArgument at h
  obtain ⟨index, -, h⟩ := bind_eq_ok.1 h
  obtain ⟨-, h⟩ := ensure_bind_eq_ok.1 h
  obtain ⟨hne, h⟩ := ensure_bind_eq_ok.1 h
  cases h
  exact ⟨_, rfl, hne⟩

/-- **Accepted argument indices are distinct.** -/
theorem loadArguments_nodup : ∀ (raws : List RawArgument) {args args' : List Argument},
    (args.map Argument.index).Nodup → loadArguments args raws = .ok args' →
    (args'.map Argument.index).Nodup
  | [], args, args', hn, h => by
    cases h
    exact hn
  | raw :: raws, args, args', hn, h => by
    obtain ⟨args₁, h₁, h⟩ := bind_eq_ok.1 h
    obtain ⟨a, rfl, hne⟩ := loadArgument_ok h₁
    refine loadArguments_nodup raws ?_ h
    rw [map_append, nodup_append]
    refine ⟨hn, nodup_singleton _, ?_⟩
    intro i hi j hj
    obtain ⟨b, hb, rfl⟩ := mem_map.1 hi
    rw [map_singleton, mem_singleton] at hj
    rw [hj]
    exact fun e => hne b hb e.symm

/-- **A real file of an accepted configuration carries its data**, and the size of it. -/
theorem loadFileData_real {fs : FileSystem} {cfg₀ cfg : HarnessConfiguration}
    (h : loadFileData fs cfg₀ = .ok cfg) :
    ∀ f ∈ cfg.files, f.real = true → f.size = UInt64.ofNat f.data.length := by
  intro f hf hr
  obtain ⟨files, hfiles, h⟩ := bind_eq_ok.1 h
  cases h
  obtain ⟨f₀, -, e⟩ := mapM_mem hfiles f hf
  unfold loadOneFileData at e
  split at e
  · split at e
    · cases e
    · cases e
      rfl
  · next hnr =>
      cases e
      exact absurd hr hnr

theorem Accepted.real {cfg : HarnessConfiguration} (h : Accepted cfg) :
    ∀ f ∈ cfg.files, f.real = true → f.size = UInt64.ofNat f.data.length := by
  obtain ⟨fs, raw, cfg₀, -, h⟩ := h
  exact loadFileData_real h

end Crete.Config
