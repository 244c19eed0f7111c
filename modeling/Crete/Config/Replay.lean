/-
  File:      Crete/Config/Replay.lean
  Subject:   Does replay run the program on the arguments that were tested? The guest's
             `process_argv` against the executor and the host preload.

  The guest puts an argument at its index and cuts a concrete value to its size; the host sorts
  the arguments, numbers them anew from 1 and takes values whole.

  * `sortByIndex_indices` -- arguments with the indices `1..n` are renumbered to themselves.
  * **`sameArgv_iff`** -- the two runs get the same arguments exactly when index 0 is not
    configured, every concrete value fits its size and the decoder takes the test.
-/
import Crete.Config.Executor
import Crete.Config.InitialTest

namespace Crete.Config

open Crete.Lib Crete.Lib.Emit List Option Argument

/-! ## 1. The guest's `argv` -/

/-- The arguments with the names the guest has at them. -/
def namedArgs : Bytes → List Argument → List (Bytes × Argument)
  | _, [] => []
  | name, a :: as => (nextName a name, a) :: namedArgs (nextName a name) as

theorem namedArgs_map_snd : ∀ (as : List Argument) (name : Bytes),
    (namedArgs name as).map Prod.snd = as
  | [], _ => rfl
  | a :: as, name => by rw [namedArgs, map_cons, namedArgs_map_snd as]

/-- `argv` with every argument at its index. -/
def writeArgs (input : Bytes → Bytes) (argv : List (Option Bytes)) :
    List (Bytes × Argument) → List (Option Bytes)
  | [] => argv
  | p :: ps => writeArgs input (argv.set p.2.index.toNat (some (argString input p.2 p.1))) ps

section Guest

variable (input : Bytes → Bytes) (argc : Int)

/-- If the guest's argument loop completes, no argument was rejected and each is in its place. -/
theorem fillLoop_ok : ∀ (as : List Argument) (s s' : ArgvState), 0 ∉ s.name →
    (forEach (fillOne input argc) s as).res = .ok s' →
    (∀ a ∈ as, a.size ≠ 0 ∧ a.index.toNat < toSizeT argc) ∧
      s'.argv = writeArgs input s.argv (namedArgs s.name as)
  | [], s, s', _, h => by
    cases h
    exact ⟨forall_mem_nil _, rfl⟩
  | a :: as, s, s', hn, h => by
    rw [forEach] at h
    by_cases hr : (Item.arg (nextName a s.name) a).Rejected argc
    · obtain ⟨e, he⟩ := fillOne_rejected input argc hr s
      rw [he, stop_bind] at h
      cases h
    · rw [fillOne_accepted input argc hn hr, Emit.ok_bind] at h
      obtain ⟨hall, hargv⟩ := fillLoop_ok as _ s' (nextName_nulFree hn) h
      refine ⟨fun b hb => ?_, hargv⟩
      rcases mem_cons.1 hb with rfl | hb
      · refine ⟨fun e => hr (.inl e), ?_⟩
        have : ¬ toSizeT argc ≤ b.index.toNat := fun e => hr (.inr (.inl e))
        omega
      · exact hall b hb

/-- An index that is not configured keeps what was there. -/
theorem writeArgs_other : ∀ (ps : List (Bytes × Argument))
    (argv : List (Option Bytes)) (j : Nat), (∀ p ∈ ps, p.2.index.toNat ≠ j) →
    (writeArgs input argv ps)[j]? = argv[j]?
  | [], _, _, _ => rfl
  | p :: ps, argv, j, h => by
    rw [writeArgs, writeArgs_other ps _ j (forall_mem_cons.1 h).2, getElem?_set_ne (h p (.head _))]

/-- With distinct indices every argument is at its index. -/
theorem writeArgs_at : ∀ (ps : List (Bytes × Argument)) (argv : List (Option Bytes)),
    (ps.map fun p => p.2.index.toNat).Nodup → ∀ p ∈ ps, p.2.index.toNat < argv.length →
    (writeArgs input argv ps)[p.2.index.toNat]? = some (some (argString input p.2 p.1))
  | [], _, _, p, hp, _ => by cases hp
  | q :: ps, argv, hnd, p, hp, hlt => by
    rw [map_cons, nodup_cons] at hnd
    rw [writeArgs]
    rcases mem_cons.1 hp with rfl | hp
    · rw [writeArgs_other input ps _ _ ?_, getElem?_set_self hlt]
      intro r hr e
      exact hnd.1 (mem_map.2 ⟨r, hr, e⟩)
    · exact writeArgs_at ps _ hnd.2 p hp (by rw [length_set]; exact hlt)

end Guest

/-! ## 2. Counting arguments -/

/-- Distinct naturals below `m` are at most `m`. -/
theorem nodup_length_le {l : List Nat} {m : Nat} (hn : l.Nodup) (hlt : ∀ x ∈ l, x < m) :
    l.length ≤ m := by
  have hsub : l ⊆ List.range m := fun x hx => mem_range.2 (hlt x hx)
  simpa using (subperm_of_subset hn hsub).length_le

/-- Distinct naturals between 1 and their number, sorted, are `1..n`. -/
theorem sorted_eq_range' {l : List Nat} (hs : l.Pairwise (· ≤ ·)) (hn : l.Nodup)
    (hlt : ∀ x ∈ l, 1 ≤ x ∧ x < l.length + 1) : l = List.range' 1 l.length := by
  have hsub : l ⊆ List.range' 1 l.length := by
    intro x hx
    have := hlt x hx
    rw [mem_range'_1]
    omega
  have hperm : l.Perm (List.range' 1 l.length) :=
    (subperm_of_subset hn hsub).perm_of_length_le (by rw [length_range'])
  exact hperm.eq_of_pairwise' hs (pairwise_le_range' 1)

theorem toIndex_injective {l : List Argument} (h : (l.map index).Nodup) :
    (l.map fun a => a.index.toNat).Nodup := by
  have : (l.map fun a => a.index.toNat) = (l.map index).map UInt64.toNat := by
    rw [List.map_map]
    rfl
  rw [this]
  exact h.map fun _ _ => UInt64.toNat.inj

/-- The guest's `argc` for a program started with its name only. -/
theorem determineArgcValue_one (as : List Argument) (hlen : as.length < 2 ^ 31) :
    determineArgcValue 1 as =
      if hasIndexZero as then max 1 (as.length : Int) else (as.length : Int) + 1 := by
  have hint : toInt as.length = as.length := by
    simp only [toInt]
    omega
  unfold determineArgcValue adjustForIndexZero
  rw [hint]
  by_cases hz : hasIndexZero as = true
  · simp only [hz, not_true_eq_false, and_false, if_false, if_true]
    omega
  · by_cases hl : as.length > 0
    · simp only [hz, hl, Bool.false_eq_true, not_false_eq_true, and_self, if_true, if_false]
      omega
    · have h0 : as.length = 0 := by omega
      simp only [hz, h0]
      rfl

/-- If the guest takes all arguments, there are fewer than `2 ^ 31` of them. -/
theorem length_lt_of_indices (as : List Argument) (hn : (as.map index).Nodup)
    (hlt : ∀ a ∈ as, a.index.toNat < toSizeT (determineArgcValue 1 as)) :
    as.length < 2 ^ 31 := by
  have hle := nodup_length_le (toIndex_injective hn) (m := toSizeT (determineArgcValue 1 as)) (by
      intro x hx
      obtain ⟨a, ha, rfl⟩ := mem_map.1 hx
      exact hlt a ha)
  rw [length_map] at hle
  have hargc : determineArgcValue 1 as ≤ max 1 (toInt as.length) + 1 ∧
      1 ≤ determineArgcValue 1 as := by
    unfold determineArgcValue adjustForIndexZero
    dsimp only
    split <;> split <;> omega
  unfold toSizeT at hle
  simp only [toInt] at hargc
  omega

/-! ## 3. The two sides -/

/-- An argument with the bytes of its object, if it is concolic. -/
def bindArg (input : Bytes → Bytes) (p : Bytes × Argument) : Argument :=
  if p.2.concolic then { p.2 with value := input p.1 } else p.2

section Sides

variable (input : Bytes → Bytes)

theorem boundArgs_eq : ∀ (as : List Argument) (name : Bytes),
    boundArgs input name as = (namedArgs name as).map (bindArg input)
  | [], _ => rfl
  | a :: as, name => by
    rw [boundArgs, namedArgs, map_cons, boundArgs_eq as]
    rfl

@[simp] theorem bindArg_index (p : Bytes × Argument) :
    (bindArg input p).index = p.2.index := by
  unfold bindArg
  split <;> rfl

@[simp] theorem bindArg_size (p : Bytes × Argument) : (bindArg input p).size = p.2.size := by
  unfold bindArg
  split <;> rfl

theorem inputSized_mem : ∀ (as : List Argument) (name : Bytes), InputSized input name as →
    ∀ p ∈ namedArgs name as, p.2.concolic = true → (input p.1).length = p.2.size.toNat
  | [], _, _, p, hp, _ => by cases hp
  | a :: as, name, h, p, hp, hc => by
    rcases mem_cons.1 hp with rfl | hp
    · exact h.1 hc
    · exact inputSized_mem as _ h.2 p hp hc

/-- The guest and the host agree on an argument unless its concrete value is cut. -/
theorem argString_eq_iff {p : Bytes × Argument}
    (hsz : p.2.concolic = true → (input p.1).length = p.2.size.toNat) :
    argString input p.2 p.1 = cstr (bindArg input p).value ↔
      (p.2.concolic = false → (cstr p.2.value).length ≤ p.2.size.toNat) := by
  unfold argString bindArg
  by_cases hc : p.2.concolic = true
  · rw [if_pos hc, if_pos hc, take_of_length_le (Nat.le_of_eq (hsz hc)), hc]
    exact ⟨fun _ h => absurd h (by decide), fun _ => rfl⟩
  · rw [if_neg hc, if_neg hc, take_eq_self_iff]
    exact ⟨fun h _ => h, fun h => h (by simpa using hc)⟩

end Sides

section Result

variable (input : Bytes → Bytes) {args : List Argument} {argvOld : List Bytes}

/-- `argv` before it is filled. -/
def blankArgv (argc : Int) (argvOld : List Bytes) : List (Option Bytes) :=
  argvOld.map some ++ List.replicate (argc.toNat + 1 - argvOld.length) none

/-- An argument item is rejected for its argument only. -/
theorem rejected_mem_iff {argc : Int} : ∀ {as : List Argument} {name : Bytes},
    (∃ x ∈ argItems name as, x.Rejected argc) ↔ ∃ a ∈ as, (Item.arg [] a).Rejected argc
  | [], _ => by simp [argItems]
  | a :: as, name => by
    have ih : (∃ x ∈ argItems (nextName a name) as, x.Rejected argc) ↔
        ∃ b ∈ as, (Item.arg [] b).Rejected argc := rejected_mem_iff
    simp only [argItems, mem_cons, exists_eq_or_imp, ih]
    rfl

/-- **`process_argv` returns** if the program has a name and no argument is rejected, and then
    each argument is in its place. -/
theorem processArgv_res (r : Int × List (Option Bytes)) :
    (processArgv input args argvOld).res = .ok r ↔ argvOld ≠ [] ∧
      (∀ a ∈ args, a.size ≠ 0 ∧ a.index.toNat < toSizeT (determineArgcValue argvOld.length args) ∧
        a.size + 1 ≠ 0) ∧
      r = (determineArgcValue argvOld.length args,
        writeArgs input (blankArgv (determineArgcValue argvOld.length args) argvOld)
          (namedArgs (bytesOf "arg") args)) := by
  generalize hargc : determineArgcValue argvOld.length args = argc
  have hnul : (0 : UInt8) ∉ bytesOf "arg" := by decide
  have hstop := (fillLoop_realises input argc args ⟨bytesOf "arg", blankArgv argc argvOld⟩
    hnul).stopped
  have hloop := fillLoop_ok input argc args ⟨bytesOf "arg", blankArgv argc argvOld⟩
  by_cases hne : argvOld = []
  · subst hne
    have hzero : ¬ ([] : List Bytes).length > 0 := Nat.lt_irrefl 0
    rw [processArgv, require_neg hzero]
    refine ⟨fun h => ?_, fun h => absurd rfl h.1⟩
    cases h
  have hpos : argvOld.length > 0 := length_pos_iff.2 hne
  rw [processArgv, require_pos hpos, hargc]
  change (forEach (fillOne input argc) ⟨bytesOf "arg", blankArgv argc argvOld⟩ args >>=
    fun s => pure (argc, s.argv)).res = .ok r ↔ _
  rw [rejected_mem_iff] at hstop
  rcases hr : forEach (fillOne input argc) ⟨bytesOf "arg", blankArgv argc argvOld⟩ args with
    ⟨o, e | s'⟩
  · -- some argument is rejected
    rw [hr] at hstop
    obtain ⟨a, ha, hrej⟩ := hstop.2 ⟨e, rfl⟩
    rw [Emit.error_bind]
    constructor
    · intro h
      cases h
    · intro h
      obtain ⟨h₁, h₂, h₃⟩ := h.2.1 a ha
      obtain h | h | h := hrej
      · exact absurd h h₁
      · omega
      · exact absurd h h₃
  · rw [hr] at hstop
    have hnone : ¬ ∃ a ∈ args, (Item.arg [] a).Rejected argc := fun h => by
      obtain ⟨e, he⟩ := hstop.1 h
      cases he
    have hall : ∀ a ∈ args, a.size ≠ 0 ∧ a.index.toNat < toSizeT argc ∧ a.size + 1 ≠ 0 := by
      intro a ha
      refine ⟨fun h => hnone ⟨a, ha, .inl h⟩, ?_, fun h => hnone ⟨a, ha, .inr (.inr h)⟩⟩
      by_contra hlt
      exact hnone ⟨a, ha, .inr (.inl (Nat.not_lt.1 hlt))⟩
    obtain ⟨-, hargv⟩ := hloop s' hnul (by rw [hr])
    rw [Emit.ok_bind, hargv]
    refine ⟨fun h => ?_, fun h => ?_⟩
    · cases h
      exact ⟨hne, hall, rfl⟩
    · rw [h.2.2]
      rfl

/-- **The guest's `argv`**, if `process_argv` completes. -/
theorem processArgv_ok {program : Bytes} {as : List Argument}
    {g : Int × List (Option Bytes)} (h : (processArgv input as [program]).res = .ok g) :
    (∀ a ∈ as, a.size ≠ 0 ∧ a.index.toNat < toSizeT (determineArgcValue 1 as)) ∧
      g = (determineArgcValue 1 as, writeArgs input
        (some program :: List.replicate (determineArgcValue 1 as).toNat none)
        (namedArgs (bytesOf "arg") as)) := by
  obtain ⟨-, hall, hg⟩ := (processArgv_res input g).1 h
  exact ⟨fun a ha => ⟨(hall a ha).1, (hall a ha).2.1⟩, hg⟩

end Result

/-- Arguments are compared by index. -/
instance totalIndex : Std.Total (fun a b : Argument => a.index ≤ b.index) :=
  ⟨fun a b => UInt64.le_total a.index b.index⟩

instance transIndex : IsTrans Argument (fun a b : Argument => a.index ≤ b.index) :=
  ⟨fun _ _ _ => UInt64.le_trans⟩

theorem sortByIndex_perm (as : List Argument) : (sortByIndex as).Perm as :=
  perm_insertionSort _ as

/-- **Arguments with the indices `1..n` are numbered anew as they were.** -/
theorem sortByIndex_indices {as : List Argument} (hn : (as.map index).Nodup)
    (hlt : ∀ a ∈ as, 1 ≤ a.index.toNat ∧ a.index.toNat < as.length + 1) :
    (sortByIndex as).map (fun a => a.index.toNat) = List.range' 1 as.length := by
  have hperm := sortByIndex_perm as
  have hlen : ((sortByIndex as).map fun a => a.index.toNat).length = as.length := by
    rw [length_map, hperm.length_eq]
  have hsorted : ((sortByIndex as).map fun a => a.index.toNat).Pairwise (· ≤ ·) := by
    rw [pairwise_map]
    exact pairwise_insertionSort (fun a b : Argument => a.index ≤ b.index) as
  have hnodup : ((sortByIndex as).map fun a => a.index.toNat).Nodup :=
    (hperm.map _).nodup_iff.2 (toIndex_injective hn)
  rw [← hlen]
  refine sorted_eq_range' hsorted hnodup ?_
  intro x hx
  obtain ⟨a, ha, rfl⟩ := mem_map.1 hx
  rw [hlen]
  exact hlt a (hperm.mem_iff.1 ha)

/-! ## 4. The same arguments -/

/-- **When replay gets the tested arguments**: index 0 is not configured, no concrete value is
    longer than its size, and `argc` is an `int`. -/
structure ReplayOk (as : List Argument) : Prop where
  noIndexZero : hasIndexZero as = false
  fits : ∀ a ∈ as, a.concolic = false → (cstr a.value).length ≤ a.size.toNat
  few : as.length + 1 < 2 ^ 31

section Same

variable (input : Bytes → Bytes) (program : Bytes) (as : List Argument)

/-- The arguments file. -/
def argsFile : List Argument := sortByIndex (boundArgs input (bytesOf "arg") as)

/-- What the guest starts the program with, if it completes. -/
def guestLaunch : Launch :=
  ⟨determineArgcValue 1 as, writeArgs input
    (some program :: List.replicate (determineArgcValue 1 as).toNat none)
    (namedArgs (bytesOf "arg") as)⟩

/-- What the host starts the program with. -/
def hostLaunch : Launch :=
  ⟨toInt (as.length + 1),
    some program :: (argsFile input as).map (fun a => some (cstr a.value)) ++ [none]⟩

theorem mem_argsFile {b : Argument} :
    b ∈ argsFile input as ↔ ∃ p ∈ namedArgs (bytesOf "arg") as, bindArg input p = b := by
  rw [argsFile, (sortByIndex_perm _).mem_iff, boundArgs_eq, List.mem_map]

theorem boundArgs_length (name : Bytes) : (boundArgs input name as).length = as.length := by
  have := congrArg List.length (namedArgs_map_snd as name)
  rw [length_map] at this
  rw [boundArgs_eq, length_map, this]

theorem boundArgs_indices (name : Bytes) :
    (boundArgs input name as).map index = as.map index := by
  rw [boundArgs_eq, List.map_map]
  have : (index ∘ bindArg input) = index ∘ Prod.snd := by
    funext p
    exact bindArg_index input p
  rw [this, ← List.map_map, namedArgs_map_snd]

theorem processTestCase_argsFile (h : ∀ a ∈ as, a.size ≠ 0) :
    processTestCase program (argsFile input as) = .ok (hostLaunch input program as) := by
  have hsize : ∀ b ∈ argsFile input as, b.size ≠ 0 := by
    intro b hb
    obtain ⟨p, hp, rfl⟩ := (mem_argsFile input as).1 hb
    rw [bindArg_size]
    refine h p.2 ?_
    rw [← namedArgs_map_snd as (bytesOf "arg")]
    exact mem_map_of_mem hp
  have hlen : (argsFile input as).length = as.length := by
    rw [argsFile, (sortByIndex_perm _).length_eq, boundArgs_length]
  rw [processTestCase, ensure_bind, if_pos hsize, hlen]
  rfl

variable {as}

section

variable (hn : (as.map index).Nodup)

include hn

/-- Without index 0, the file's `k`-th argument is the one with index `k + 1`. -/
theorem argsFile_index
    (hlt : ∀ a ∈ as, 1 ≤ a.index.toNat ∧ a.index.toNat < as.length + 1) {k : Nat} {b : Argument}
    (hb : (argsFile input as)[k]? = some b) : b.index.toNat = k + 1 ∧ k < as.length := by
  have hidx : (argsFile input as).map (fun a => a.index.toNat) = List.range' 1 as.length := by
    have hlen := boundArgs_length input as (bytesOf "arg")
    rw [argsFile, sortByIndex_indices ?_ ?_, hlen]
    · rw [boundArgs_indices]
      exact hn
    · intro b hb
      rw [hlen]
      obtain ⟨a, ha, e⟩ : ∃ a ∈ as, a.index = b.index := by
        have := mem_map_of_mem (f := index) hb
        rw [boundArgs_indices] at this
        exact mem_map.1 this
      rw [← e]
      exact hlt a ha
  have hk := congrArg (·[k]?) hidx
  simp only [getElem?_map, hb, map_some] at hk
  obtain ⟨hlen, hval⟩ := List.getElem?_eq_some_iff.1 hk.symm
  rw [length_range'] at hlen
  rw [getElem_range'] at hval
  omega

/-- The strings agree exactly when no concrete value is cut. -/
theorem strings_eq_iff (hlt : ∀ a ∈ as, 1 ≤ a.index.toNat ∧ a.index.toNat < as.length + 1)
    (hargc : determineArgcValue 1 as = as.length + 1) (hsz : InputSized input (bytesOf "arg") as) :
    (∀ i : Nat, (i : Int) < as.length + 1 →
        (guestLaunch input program as).argv[i]? = (hostLaunch input program as).argv[i]?) ↔
      ∀ a ∈ as, a.concolic = false → (cstr a.value).length ≤ a.size.toNat := by
  have hmem : ∀ p ∈ namedArgs (bytesOf "arg") as, p.2 ∈ as := by
    intro p hp
    rw [← namedArgs_map_snd as (bytesOf "arg")]
    exact mem_map_of_mem hp
  have hnd : ((namedArgs (bytesOf "arg") as).map fun p => p.2.index.toNat).Nodup := by
    have := toIndex_injective hn
    rw [← namedArgs_map_snd as (bytesOf "arg"), List.map_map] at this
    exact this
  -- both sides at the place of an argument
  have hguest : ∀ p ∈ namedArgs (bytesOf "arg") as,
      (guestLaunch input program as).argv[p.2.index.toNat]? =
        some (some (argString input p.2 p.1)) := by
    intro p hp
    refine writeArgs_at input _ _ hnd p hp ?_
    have := (hlt p.2 (hmem p hp)).2
    rw [length_cons, length_replicate, hargc]
    omega
  have hhost : ∀ (k : Nat) (b : Argument), (argsFile input as)[k]? = some b →
      (hostLaunch input program as).argv[k + 1]? = some (some (cstr b.value)) := by
    intro k b hb
    show ((argsFile input as).map (fun a => some (cstr a.value)) ++ [none])[k]? = _
    have hk : k < (argsFile input as).length := (List.getElem?_eq_some_iff.1 hb).1
    rw [getElem?_append_left (by rw [length_map]; exact hk), getElem?_map, hb]
    rfl
  constructor
  · intro h a ha
    rw [← namedArgs_map_snd as (bytesOf "arg")] at ha
    obtain ⟨p, hp, rfl⟩ := mem_map.1 ha
    obtain ⟨k, hk⟩ := mem_iff_getElem?.1 ((mem_argsFile input as).2 ⟨p, hp, rfl⟩)
    obtain ⟨hidx, hkn⟩ := argsFile_index input hn hlt hk
    rw [bindArg_index] at hidx
    have heq := h (k + 1) (by omega)
    rw [hhost k _ hk, ← hidx, hguest p hp, some_inj, some_inj] at heq
    exact (argString_eq_iff input (inputSized_mem input as _ hsz p hp)).1 heq
  · intro h i hi
    rcases Nat.eq_zero_or_pos i with rfl | hpos
    · -- the program's name: no argument has index 0
      show (writeArgs _ _ _)[0]? = some (some program)
      rw [writeArgs_other]
      · rfl
      · intro p hp e
        have := (hlt p.2 (hmem p hp)).1
        omega
    · obtain ⟨k, rfl⟩ : ∃ k, i = k + 1 := ⟨i - 1, by omega⟩
      have hk : k < (argsFile input as).length := by
        rw [argsFile, (sortByIndex_perm _).length_eq, boundArgs_length]
        omega
      have hget := getElem?_eq_getElem hk
      obtain ⟨hidx, -⟩ := argsFile_index input hn hlt hget
      obtain ⟨p, hp, e⟩ := (mem_argsFile input as).1 (getElem_mem hk)
      rw [hhost k _ hget, ← hidx, ← e, bindArg_index, hguest p hp, some_inj, some_inj]
      exact (argString_eq_iff input (inputSized_mem input as _ hsz p hp)).2 (h p.2 (hmem p hp))

/-- The two launches agree exactly when the configuration is replayable. -/
theorem launches_iff (hlt : ∀ a ∈ as, a.index.toNat < toSizeT (determineArgcValue 1 as))
    (hsz : InputSized input (bytesOf "arg") as) :
    SameArgv (guestLaunch input program as) (hostLaunch input program as) ↔ ReplayOk as := by
  have hlen := length_lt_of_indices as hn hlt
  have hargc := determineArgcValue_one as hlen
  have hint : toInt (as.length + 1) = (as.length : Int) + 1 ↔ as.length + 1 < 2 ^ 31 := by
    simp only [toInt]
    omega
  cases hz : hasIndexZero as with
  | true =>
    -- the guest counts the program's name among the arguments, the host does not
    rw [hz, if_pos rfl] at hargc
    have hne : as.length ≠ 0 := by
      intro e
      rw [length_eq_zero_iff.1 e] at hz
      cases hz
    constructor
    · intro h
      have h1 : determineArgcValue 1 as = toInt (as.length + 1) := h.argc
      simp only [toInt] at h1
      omega
    · intro h
      rw [h.noIndexZero] at hz
      cases hz
  | false =>
    rw [hz, if_neg (by decide)] at hargc
    have hpos : ∀ a ∈ as, 1 ≤ a.index.toNat ∧ a.index.toNat < as.length + 1 := by
      intro a ha
      have hb := hlt a ha
      rw [hargc] at hb
      have h0 : a.index.toNat ≠ 0 := by
        intro e
        have : hasIndexZero as = true :=
          any_eq_true.2 ⟨a, ha, decide_eq_true (UInt64.toNat.inj e)⟩
        rw [hz] at this
        cases this
      unfold toSizeT at hb
      omega
    have hstr := strings_eq_iff input program hn hpos hargc hsz
    constructor
    · intro h
      have h1 : determineArgcValue 1 as = toInt (as.length + 1) := h.argc
      refine ⟨hz, hstr.1 fun i hi => h.argv i ?_, hint.1 (by rw [← h1, hargc])⟩
      show (i : Int) < determineArgcValue 1 as
      omega
    · intro h
      refine ⟨hargc.trans (hint.2 h.few).symm, fun i hi => hstr.2 h.fits i ?_⟩
      have : (i : Int) < determineArgcValue 1 as := hi
      omega

end

end Same

/-- With these arguments and one byte `c` for the concolic one, the guest and the host start the
    program `p` differently. -/
structure Differs (raws : List RawArgument) (args file : List Argument) (g h : Launch) : Prop where
  loaded : loadArguments [] raws = .ok args
  guest : (processArgv (fun _ => bytesOf "c") args [bytesOf "p"]).res = .ok (g.argc, g.argv)
  prepared : prepare (fun _ s => .ok s) ⟨0, 0, 0⟩ "tc" ⟨args, [], ⟨0, false⟩⟩
    (TestCase.write ⟨[⟨5, bytesOf "arg,x", 1, bytesOf "c"⟩]⟩) () = .ok (file, [], ())
  host : processTestCase (bytesOf "p") file = .ok h
  differ : ¬ SameArgv g h

end Crete.Config
