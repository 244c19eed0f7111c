/-
  File:      Crete/Cluster/KleeLog.lean
  Subject:   Whether KLEE ran to its end (lib/include/crete/util/debug.h).

  An SVM node writes what KLEE prints into a log, line by line, and takes the run for failed unless
  the last line starts with the completion message. `get_last_line` goes back through the file to
  the line end before the last line. It gives up at the first two bytes, and goes two bytes on from
  there as well: a line that starts at the third byte or before loses what it has of the first
  three.

  * **`getLastLine_written`** -- what is returned for a log.
  * **`readsRight_iff`** -- the log is read right exactly if its last line is empty or there are
    three bytes before it.
-/
import Crete.Lib.Bytes

namespace Crete.Cluster.KleeLog

open List Lib

/-! ## 1. The source -/

/-- The loop of `get_last_line`: where a stream that stands at `p` is left. A byte is read, and the
    stream goes back by two, until a line end was read. -/
def seekLoop (bytes : Bytes) : Nat → Nat
  | 0 => 0
  | 1 => 1
  | p + 2 => if bytes[p + 2]? = some 10 then p + 1 else seekLoop bytes (p + 1)

/-- `getline`, of what is left of a stream. -/
def getline (rest : Bytes) : Bytes := rest.takeWhile (· ≠ 10)

/-- `Exception() << err::file_open_failed(file)`. -/
structure FileOpenFailed where
  file : String
  deriving DecidableEq, Repr

/-- `get_last_line`. -/
def getLastLine (files : String → Option Bytes) (file : String) :
    Except FileOpenFailed Bytes :=
  match files file with
  | none => .error ⟨file⟩
  | some bytes =>
    -- `seekg(-2, end)` fails if there are no two bytes, and `tellg` is then -1
    if bytes.length < 2 then .ok []
    else .ok (getline (bytes.drop (seekLoop bytes (bytes.length - 2) + 2)))

/-- What KLEE prints at its end. -/
def completed : Bytes := bytesOf "KLEE: done: generated tests ="

/-- `is_last_line_correct`: the expression goes on with `(.)*`, which any line matches. -/
def isLastLineCorrect (files : String → Option Bytes) (file : String) :
    Except FileOpenFailed Bool :=
  (getLastLine files file).map completed.isPrefixOf

/-! ## 2. What is returned for a log -/

/-- A line, without its end. -/
structure LogLine where
  text : Bytes
  noEnd : 10 ∉ text

/-- The file that has the lines. -/
def written (lines : List LogLine) : Bytes := lines.flatMap fun l => l.text ++ [10]

/-- **The loop finds the line that starts at `start`**, if that is behind the third byte. -/
theorem seekLoop_line {bytes : Bytes} {start : Nat}
    (hend : ∀ i, i + 1 = start → bytes[i]? = some 10) : ∀ p, start ≤ p + 1 → 1 ≤ p →
    (∀ i, start ≤ i → i ≤ p → bytes[i]? ≠ some 10) → seekLoop bytes p + 2 = max start 3
  | 1, hs, _, _ => (Nat.max_eq_right (Nat.le_succ_of_le hs)).symm
  | p + 2, hs, _, hline => by
    rw [seekLoop]
    split
    · rename_i hp
      have hlt : p + 2 < start := Nat.lt_of_not_le fun h => hline _ h le_rfl hp
      omega
    · rename_i hp
      have hne : p + 2 + 1 ≠ start := fun e => hp (hend _ e)
      exact seekLoop_line hend (p + 1) (by omega) (by omega) fun i h1 h2 => hline i h1 (by omega)

theorem written_concat (earlier : List LogLine) (last : LogLine) :
    written (earlier ++ [last]) = written earlier ++ (last.text ++ [10]) := by
  rw [written, flatMap_append, flatMap_singleton, written]

/-- A line end stands before every line but the first. -/
theorem getElem?_written (lines : List LogLine) (rest : Bytes) :
    ∀ i, i + 1 = (written lines).length → (written lines ++ rest)[i]? = some 10 := by
  intro i hi
  obtain rfl | ⟨before, l, rfl⟩ := eq_nil_or_concat' lines
  · cases hi
  · rw [written_concat, ← append_assoc] at hi ⊢
    obtain rfl : i = (written before ++ l.text).length := by simp at hi ⊢; omega
    rw [append_assoc, getElem?_append_right le_rfl, Nat.sub_self]
    rfl

/-- A line end is not part of what is read. -/
theorem getline_drop {text : Bytes} (h : 10 ∉ text) (k : Nat) :
    getline ((text ++ [10]).drop k) = text.drop k := by
  have hne : ∀ b ∈ text.drop k, decide (b ≠ 10) = true := fun b hb =>
    decide_eq_true fun e => h (e ▸ mem_of_mem_drop hb)
  rw [getline, drop_append, takeWhile_append_of_pos hne]
  obtain h | h := Nat.eq_zero_or_pos (k - text.length)
  · simp [h]
  · simp [drop_eq_nil_of_le (show [(10 : UInt8)].length ≤ _ from h)]

/-- **What is returned**: the last line, without what it has of the first three bytes. -/
theorem getLastLine_written (earlier : List LogLine) (last : LogLine)
    {files : String → Option Bytes} {file : String}
    (hfile : files file = some (written (earlier ++ [last]))) :
    getLastLine files file = .ok (last.text.drop (3 - (written earlier).length)) := by
  rw [written_concat] at hfile
  have hlen : (written earlier ++ (last.text ++ [10])).length =
      (written earlier).length + last.text.length + 1 := by simp [Nat.add_assoc]
  simp only [getLastLine, hfile, hlen]
  by_cases hshort : (written earlier).length + last.text.length + 1 < 3
  · -- there is no third byte, and nothing is read
    have hnone : last.text.drop (3 - (written earlier).length) = [] := drop_eq_nil_of_le (by omega)
    rw [hnone]
    split
    · rfl
    · rw [drop_eq_nil_of_le (by omega)]
      rfl
  · have hloop := seekLoop_line (getElem?_written earlier (last.text ++ [10]))
      ((written earlier).length + last.text.length + 1 - 2) (by omega) (by omega) fun i h1 h2 => by
        rw [getElem?_append_right h1, getElem?_append_left (by omega)]
        exact fun e => last.noEnd (mem_of_getElem? e)
    rw [if_neg (by omega), hloop, drop_append, drop_eq_nil_of_le (Nat.le_max_left _ _), nil_append,
      show max _ 3 - _ = 3 - (written earlier).length by omega, getline_drop last.noEnd]

/-- **The log is read right**: the last line is returned, and a run is accepted if the line starts
    with the completion message. -/
def ReadsRight (earlier : List LogLine) (last : LogLine) : Prop :=
  ∀ files file, files file = some (written (earlier ++ [last])) →
    getLastLine files file = .ok last.text ∧
      (isLastLineCorrect files file = .ok true ↔ completed <+: last.text)

theorem readsRight_iff (earlier : List LogLine) (last : LogLine) :
    ReadsRight earlier last ↔ last.text = [] ∨ 3 ≤ (written earlier).length := by
  constructor
  · intro h
    obtain ⟨hread, -⟩ := h (fun _ => some (written (earlier ++ [last]))) "" rfl
    rw [getLastLine_written earlier last rfl] at hread
    have hlen := congrArg length (Except.ok.inj hread)
    rw [length_drop] at hlen
    rw [← length_eq_zero_iff]
    omega
  · intro h files file hfile
    have hread : getLastLine files file = .ok last.text := by
      rw [getLastLine_written earlier last hfile]
      obtain h | h := h
      · rw [h, drop_nil]
      · rw [Nat.sub_eq_zero_of_le h, drop_zero]
    refine ⟨hread, ?_⟩
    rw [isLastLineCorrect, hread, ← isPrefixOf_iff_prefix]
    exact ⟨Except.ok.inj, congrArg _⟩

end Crete.Cluster.KleeLog
