/-
  File:      Crete/Config/Argv.lean
  Subject:   The law of the guest's `argv` (guest/lib/preload/argv_processor.cpp), for any original
             `argv`.

  `determine_argc_value` takes the larger of the original `argc` and the number of arguments, and
  adds one for index 0 if that is not configured. The addition is right if the arguments decide,
  and leaves a NULL entry behind if the original `argc` does.

  * `ArgvOk` -- index 0 is configured, or the original `argc` is no larger than the number of
    arguments; sizes are accepted and hold the values.
  * **`processArgv_law_iff`** -- the law holds exactly then.
  * `processArgv_null` -- one argument with index 1 for a program that has two already.
-/
import Crete.Config.Replay

namespace Crete.Config

open Crete.Lib Crete.Lib.Emit List

/-! ## 1. The law -/

/-- The string configured for an argument: the object's bytes if it is concolic, else its value. -/
def configuredString (input : Bytes → Bytes) (p : Bytes × Argument) : Bytes :=
  if p.2.concolic then cstr ((input p.1).take p.2.size.toNat) else cstr p.2.value

/-- The larger of the original `argc` and the largest configured index plus one. -/
def wantedArgc (args : List Argument) (argcOld : Nat) : Nat :=
  (args.map fun a => a.index.toNat + 1).foldr max argcOld

/-- **What `argc` and `argv` should be.** -/
structure ArgvLaw (input : Bytes → Bytes) (args : List Argument)
    (argvOld : List Bytes) (r : Int × List (Option Bytes)) : Prop where
  argc : r.1 = wantedArgc args argvOld.length
  int : r.1 < 2 ^ 31
  last : r.2[r.1.toNat]? = some none
  noNull : ∀ i : Nat, (i : Int) < r.1 → ∃ s, r.2[i]? = some (some s)
  configured : ∀ p ∈ namedArgs (bytesOf "arg") args,
    r.2[p.2.index.toNat]? = some (some (configuredString input p))
  original : ∀ i s, argvOld[i]? = some s → (∀ a ∈ args, a.index.toNat ≠ i) → r.2[i]? = some (some s)

/-- The indices are those from 0, or those from 1 on, each once. -/
def Contiguous (args : List Argument) : Prop :=
  (args.map fun a => a.index.toNat).Perm (List.range args.length) ∨
    (args.map fun a => a.index.toNat).Perm (List.range' 1 args.length)

/-- **When the law holds.** -/
structure ArgvOk (args : List Argument) (argvOld : List Bytes) : Prop where
  started : argvOld ≠ []
  sized : ∀ a ∈ args, a.size ≠ 0 ∧ a.size + 1 ≠ 0
  fits : ∀ a ∈ args, a.concolic = false → (cstr a.value).length ≤ a.size.toNat
  few : ∀ a ∈ args, a.index.toNat + 1 < 2 ^ 31
  grows : args = [] ∨ hasIndexZero args = true ∨ argvOld.length ≤ args.length

/-! ## 2. `argc` -/

theorem foldr_max_eq {l : List Nat} {k m : Nat} (hk : k ≤ m) (hle : ∀ x ∈ l, x ≤ m)
    (hex : k = m ∨ m ∈ l) : l.foldr max k = m := by
  have hupper : l.foldr max k ≤ m := by
    clear hex
    induction l with
    | nil => exact hk
    | cons x l ih =>
      exact max_le (hle x (.head _)) (ih (forall_mem_cons.1 hle).2)
  have hlower : ∀ y, y = k ∨ y ∈ l → y ≤ l.foldr max k := by
    clear hle hex hupper
    induction l with
    | nil =>
      intro y hy
      exact le_of_eq (hy.resolve_right not_mem_nil)
    | cons x l ih =>
      intro y hy
      obtain hy | hy := hy
      · exact le_max_of_le_right (ih y (.inl hy))
      · obtain rfl | hy := mem_cons.1 hy
        · exact le_max_left _ _
        · exact le_max_of_le_right (ih y (.inr hy))
  refine Nat.le_antisymm hupper (hlower m ?_)
  exact hex.imp_left Eq.symm

section Argc

variable {args : List Argument} {argvOld : List Bytes}

theorem hasIndexZero_iff : hasIndexZero args = true ↔ ∃ a ∈ args, a.index.toNat = 0 := by
  simp only [hasIndexZero, any_eq_true, decide_eq_true_eq]
  refine exists_congr fun a => and_congr_right fun _ => ⟨fun h => ?_, fun h => ?_⟩
  · rw [h]
    rfl
  · exact UInt64.toNat.inj h

/-- The index of the first argument, if there are any. -/
def firstIndex (args : List Argument) : Nat :=
  if args = [] ∨ hasIndexZero args = true then 0 else 1

section

variable (hc : Contiguous args)

include hc

/-- The configured indices. -/
theorem Contiguous.mem_iff {i : Nat} : (∃ a ∈ args, a.index.toNat = i) ↔
    firstIndex args ≤ i ∧ i < firstIndex args + args.length := by
  have hmem : (∃ a ∈ args, a.index.toNat = i) ↔ i ∈ args.map fun a => a.index.toNat := by
    rw [mem_map]
  rw [hmem, firstIndex]
  by_cases hnil : args = []
  · subst hnil
    simp
  have hpos : 0 < args.length := length_pos_iff.2 hnil
  obtain hp | hp := hc
  · have hz : hasIndexZero args = true := by
      rw [hasIndexZero_iff, ← mem_map, hp.mem_iff]
      exact mem_range.2 hpos
    rw [if_pos (.inr hz), hp.mem_iff, mem_range]
    omega
  · have hz : ¬ hasIndexZero args = true := by
      rw [hasIndexZero_iff, ← mem_map, hp.mem_iff, mem_range'_1]
      omega
    rw [if_neg (not_or.2 ⟨hnil, hz⟩), hp.mem_iff, mem_range'_1]

theorem Contiguous.nodup : (args.map fun a => a.index.toNat).Nodup :=
  hc.elim (fun h => h.nodup_iff.2 nodup_range) fun h => h.nodup_iff.2 nodup_range'

/-- Some argument has the last index, unless there are none. -/
theorem Contiguous.exists_last (hne : args ≠ []) :
    ∃ a ∈ args, a.index.toNat + 1 = firstIndex args + args.length := by
  have hpos : 0 < args.length := length_pos_iff.2 hne
  obtain ⟨a, ha, h⟩ := (hc.mem_iff (i := firstIndex args + args.length - 1)).2 (by omega)
  exact ⟨a, ha, by omega⟩

theorem Contiguous.index_lt {a : Argument} (ha : a ∈ args) :
    a.index.toNat < firstIndex args + args.length :=
  (hc.mem_iff.1 ⟨a, ha, rfl⟩).2

/-- The largest index bounds the number of arguments. -/
theorem Contiguous.few_iff :
    (∀ a ∈ args, a.index.toNat + 1 < 2 ^ 31) ↔ firstIndex args + args.length < 2 ^ 31 := by
  refine ⟨fun h => ?_, fun h a ha => ?_⟩
  · by_cases hne : args = []
    · subst hne
      decide
    · obtain ⟨a, ha, hlast⟩ := hc.exists_last hne
      have := h a ha
      omega
  · have := hc.index_lt ha
    omega

/-- The wanted `argc`. -/
theorem Contiguous.wantedArgc_eq (argcOld : Nat) :
    wantedArgc args argcOld = max argcOld (firstIndex args + args.length) := by
  refine foldr_max_eq (le_max_left _ _) (fun x hx => ?_) ?_
  · obtain ⟨a, ha, rfl⟩ := mem_map.1 hx
    have := hc.index_lt ha
    omega
  · by_cases hne : args = []
    · subst hne
      exact .inl (Nat.max_zero argcOld).symm
    · obtain ⟨a, ha, hlast⟩ := hc.exists_last hne
      rcases le_total (firstIndex args + args.length) argcOld with hle | hle
      · omega
      · rw [max_eq_right hle, ← hlast]
        exact .inr (mem_map_of_mem ha)

end

/-- What `determine_argc_value` computes. -/
theorem determineArgcValue_eq (hlen : args.length < 2 ^ 31) (argcOld : Nat) :
    determineArgcValue argcOld args = (firstIndex args + max argcOld args.length : Nat) := by
  have hint : toInt args.length = args.length := by
    simp only [toInt]
    omega
  have hadjust : (args.length > 0 ∧ ¬ hasIndexZero args = true) ↔
      ¬ (args = [] ∨ hasIndexZero args = true) := by
    rw [not_or, gt_iff_lt, length_pos_iff]
  unfold determineArgcValue adjustForIndexZero firstIndex
  rw [hint]
  by_cases h : args = [] ∨ hasIndexZero args = true
  · rw [if_pos h, if_neg (fun h' => hadjust.1 h' h)]
    split <;> omega
  · rw [if_neg h, if_pos (hadjust.2 h)]
    split <;> omega

end Argc

/-! ## 3. When the law holds -/

section Law

variable (input : Bytes → Bytes) {args : List Argument} {argvOld : List Bytes}

/-- The guest copies the configured string unless its buffer is too small. -/
theorem argString_configured_iff {p : Bytes × Argument} :
    argString input p.2 p.1 = configuredString input p ↔
      (p.2.concolic = false → (cstr p.2.value).length ≤ p.2.size.toNat) := by
  unfold argString configuredString
  by_cases hc : p.2.concolic = true
  · rw [if_pos hc, if_pos hc, hc]
    exact ⟨fun _ => nofun, fun _ => rfl⟩
  · rw [if_neg hc, if_neg hc, take_eq_self_iff]
    exact ⟨fun h _ => h, fun h => h (by simpa using hc)⟩

theorem mem_namedArgs_snd {name : Bytes} {p : Bytes × Argument}
    (hp : p ∈ namedArgs name args) : p.2 ∈ args := by
  have : p.2 ∈ (namedArgs name args).map Prod.snd := mem_map_of_mem hp
  rwa [namedArgs_map_snd] at this

theorem exists_namedArgs {a : Argument} (ha : a ∈ args) (name : Bytes) :
    ∃ p ∈ namedArgs name args, p.2 = a := by
  rw [← namedArgs_map_snd args name] at ha
  exact mem_map.1 ha

theorem Contiguous.named_nodup (hc : Contiguous args) (name : Bytes) :
    ((namedArgs name args).map fun p => p.2.index.toNat).Nodup := by
  have : ((namedArgs name args).map fun p => p.2.index.toNat) =
      ((namedArgs name args).map Prod.snd).map fun a => a.index.toNat := by
    rw [map_map]
    rfl
  rw [this, namedArgs_map_snd]
  exact hc.nodup

/-- **The `argv` of a configuration whose `argc` is the wanted one.** -/
theorem writeArgs_law (hc : Contiguous args) (hok : ArgvOk args argvOld) {argc : Nat}
    (hargc : argc = max argvOld.length (firstIndex args + args.length)) (hint : argc < 2 ^ 31) :
    ArgvLaw input args argvOld ((argc : Int), writeArgs input (blankArgv argc argvOld)
      (namedArgs (bytesOf "arg") args)) := by
  have hpos : 0 < argvOld.length := length_pos_iff.2 hok.started
  have hblank : (blankArgv argc argvOld).length = argc + 1 := by
    rw [blankArgv, length_append, length_map, length_replicate]
    omega
  have hother : ∀ i, (∀ a ∈ args, a.index.toNat ≠ i) → (writeArgs input (blankArgv argc argvOld)
      (namedArgs (bytesOf "arg") args))[i]? = (blankArgv argc argvOld)[i]? := fun i hi =>
    writeArgs_other input _ _ i fun p hp => hi p.2 (mem_namedArgs_snd hp)
  have hat : ∀ p ∈ namedArgs (bytesOf "arg") args, (writeArgs input (blankArgv argc argvOld)
      (namedArgs (bytesOf "arg") args))[p.2.index.toNat]? =
        some (some (configuredString input p)) := by
    intro p hp
    have hlt := hc.index_lt (mem_namedArgs_snd hp)
    rw [writeArgs_at input _ _ (hc.named_nodup _) p hp (by omega)]
    rw [(argString_configured_iff input).2 (hok.fits p.2 (mem_namedArgs_snd hp))]
  have hold : ∀ i s, argvOld[i]? = some s → (∀ a ∈ args, a.index.toNat ≠ i) →
      (writeArgs input (blankArgv argc argvOld) (namedArgs (bytesOf "arg") args))[i]? =
        some (some s) := by
    intro i s hs hi
    rw [hother i hi, blankArgv, getElem?_append_left, getElem?_map, hs]
    · rfl
    · rw [length_map]
      exact (List.getElem?_eq_some_iff.1 hs).1
  have hint' : (argc : Int) < 2 ^ 31 := by exact_mod_cast hint
  refine ⟨?_, hint', ?_, fun i hi => ?_, hat, hold⟩
  · rw [hc.wantedArgc_eq, hargc]
  · -- the entry at `argc` is one of the new ones
    rw [Int.toNat_natCast, hother argc fun a ha => by have := hc.index_lt ha; omega]
    rw [blankArgv, getElem?_append_right (by rw [length_map]; omega),
      getElem?_replicate, length_map, if_pos (by omega)]
  · have hi : i < argc := Int.ofNat_lt.1 hi
    by_cases hex : ∃ a ∈ args, a.index.toNat = i
    · obtain ⟨a, ha, rfl⟩ := hex
      obtain ⟨p, hp, rfl⟩ := exists_namedArgs ha (bytesOf "arg")
      exact ⟨_, hat p hp⟩
    · -- an index that is not configured is below the original `argc`
      have hlt : i < argvOld.length := by
        rw [hc.mem_iff] at hex
        have hfirst : firstIndex args ≤ 1 := by
          unfold firstIndex
          split <;> omega
        omega
      exact ⟨_, hold i _ (getElem?_eq_getElem hlt) fun a ha e => hex ⟨a, ha, e⟩⟩

/-- `ArgvOk` holds if the law does. -/
theorem ArgvLaw.ok {r : Int × List (Option Bytes)} (hc : Contiguous args)
    (hres : (processArgv input args argvOld).res = .ok r) (h : ArgvLaw input args argvOld r) :
    ArgvOk args argvOld := by
  obtain ⟨hne, hall, rfl⟩ := (processArgv_res input r).1 hres
  have hwanted : determineArgcValue argvOld.length args =
      (max argvOld.length (firstIndex args + args.length) : Nat) := by
    rw [← hc.wantedArgc_eq]
    exact h.argc
  have hint : determineArgcValue argvOld.length args < 2 ^ 31 := h.int
  have hfew : firstIndex args + args.length < 2 ^ 31 := by omega
  have hsize : toSizeT (determineArgcValue argvOld.length args) =
      (determineArgcValue argvOld.length args).toNat := by
    unfold toSizeT
    omega
  refine ⟨hne, fun a ha => ⟨(hall a ha).1, (hall a ha).2.2⟩, fun a ha => ?_, hc.few_iff.2 hfew, ?_⟩
  · obtain ⟨p, hp, rfl⟩ := exists_namedArgs ha (bytesOf "arg")
    have hlt : p.2.index.toNat <
        (blankArgv (determineArgcValue argvOld.length args) argvOld).length := by
      have := (hall p.2 ha).2.1
      rw [blankArgv, length_append, length_map, length_replicate]
      omega
    have hat := h.configured p hp
    rw [writeArgs_at input _ _ (hc.named_nodup _) p hp hlt] at hat
    exact (argString_configured_iff input).1 (Option.some.inj (Option.some.inj hat))
  · -- without index 0 the original `argc` must not decide
    by_cases hz : args = [] ∨ hasIndexZero args = true
    · exact hz.imp_right .inl
    · have hone : firstIndex args = 1 := if_neg hz
      rw [determineArgcValue_eq (by omega)] at hwanted
      omega

/-- `process_argv` returns what the law says if `ArgvOk` holds. -/
theorem ArgvOk.law (hlen : argvOld.length < 2 ^ 31) (hc : Contiguous args)
    (hok : ArgvOk args argvOld) :
    ∃ r, (processArgv input args argvOld).res = .ok r ∧ ArgvLaw input args argvOld r := by
  have hfew := hc.few_iff.1 hok.few
  have hgrows : firstIndex args + max argvOld.length args.length =
      max argvOld.length (firstIndex args + args.length) := by
    by_cases hz : args = [] ∨ hasIndexZero args = true
    · have hzero : firstIndex args = 0 := if_pos hz
      omega
    · have hone : firstIndex args = 1 := if_neg hz
      obtain h | h | h := hok.grows
      · exact absurd (.inl h) hz
      · exact absurd (.inr h) hz
      · omega
  have hargc : determineArgcValue argvOld.length args =
      (firstIndex args + max argvOld.length args.length : Nat) :=
    determineArgcValue_eq (by omega) argvOld.length
  refine ⟨_, (processArgv_res input _).2 ⟨hok.started, fun a ha => ?_, rfl⟩, ?_⟩
  · refine ⟨(hok.sized a ha).1, ?_, (hok.sized a ha).2⟩
    have := hc.index_lt ha
    rw [hargc]
    unfold toSizeT
    omega
  · rw [hargc]
    exact writeArgs_law input hc hok hgrows (by omega)

end Law

/-- **The `argv` law holds exactly when** the program has a name, every size is accepted and
    holds its value, `argc` is an `int`, and index 0 is configured or the original `argc` does
    not decide the new one. -/
theorem processArgv_law_iff (input : Bytes → Bytes) (args : List Argument)
    (argvOld : List Bytes) (hlen : argvOld.length < 2 ^ 31) (hc : Contiguous args) :
    (∃ r, (processArgv input args argvOld).res = .ok r ∧ ArgvLaw input args argvOld r) ↔
      ArgvOk args argvOld := by
  refine ⟨fun h => ?_, fun hok => hok.law input hlen hc⟩
  obtain ⟨r, hres, hlaw⟩ := h
  exact hlaw.ok input hc hres

/-- The `i`-th argument, with a value of one byte. -/
def oneByteArg (i : UInt64) : Argument := ⟨i, 1, [97], false⟩

/-- A program started by its name, with one argument. -/
theorem processArgv_law_one : ∃ r, (processArgv (fun _ => []) [oneByteArg 1] [[112]]).res = .ok r ∧
      ArgvLaw (fun _ => []) [oneByteArg 1] [[112]] r := by
  refine (processArgv_law_iff _ [oneByteArg 1] [[112]] (by decide) (.inr (List.Perm.refl _))).2 ?_
  refine ⟨nofun, ?_, ?_, ?_, .inr (.inr (by decide))⟩
  all_goals
    intro a ha
    obtain rfl := mem_singleton.1 ha
    decide

/-- A program started with one argument of its own gets an `argc` of 3, and no string at 2. -/
theorem processArgv_null : (processArgv (fun _ => []) [oneByteArg 1] [[112], [120]]).res =
      .ok (3, [some [112], some [97], none, none]) ∧
    ¬ ∃ r, (processArgv (fun _ => []) [oneByteArg 1] [[112], [120]]).res = .ok r ∧
      ArgvLaw (fun _ => []) [oneByteArg 1] [[112], [120]] r := by
  have hres : (processArgv (fun _ => []) [oneByteArg 1] [[112], [120]]).res =
      .ok (3, [some [112], some [97], none, none]) := by decide
  refine ⟨hres, fun h => ?_⟩
  obtain ⟨r, hr, hlaw⟩ := h
  cases hres.symm.trans hr
  obtain ⟨s, hs⟩ := hlaw.noNull 2 (by decide)
  cases hs

end Crete.Config
