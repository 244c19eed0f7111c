/-
  File:      Crete/Lib/Text.lean
  Subject:   Text in and out as the C++ streams do it: words, decimal numbers and lines.

  * **`extractWord_at`**, **`extractUInt64_at`**, **`lines_flatMap`** -- what was written is read
    back.
-/
import Crete.Lib.Bytes

namespace Crete.Lib

open List

/-! ## 1. Characters -/

/-- `isspace` in the C locale. -/
def isSpace (b : UInt8) : Bool := (9 ≤ b && b ≤ 13) || b == 32

/-- `isdigit`. -/
def isDigit (b : UInt8) : Bool := 48 ≤ b && b ≤ 57

/-- A word: not empty and without white space. -/
structure IsWord (w : Bytes) : Prop where
  nonempty : w ≠ []
  noSpace : ∀ b ∈ w, isSpace b = false

theorem takeWhile_append_stop {p : UInt8 → Bool} {w rest : Bytes} (hw : ∀ b ∈ w, p b = true)
    (hr : ∀ b ∈ rest.head?, p b = false) :
    (w ++ rest).takeWhile p = w ∧ (w ++ rest).dropWhile p = rest := by
  rw [takeWhile_append_of_pos hw, dropWhile_append_of_pos hw]
  cases rest with
  | nil => exact ⟨append_nil w, rfl⟩
  | cons b rest =>
    have hb : ¬ p b = true := by rw [hr b rfl]; exact Bool.false_ne_true
    rw [takeWhile_cons_of_neg hb, dropWhile_cons_of_neg hb, append_nil]
    exact ⟨rfl, rfl⟩

/-! ## 2. Decimal numbers -/

/-- The digit of a number below 10. -/
def digit (n : Nat) : UInt8 := 48 + UInt8.ofNat n

/-- The digits of a number, at most `k` of them. -/
def digits : Nat → Nat → Bytes
  | 0, _ => []
  | k + 1, n => if n < 10 then [digit n] else digits k (n / 10) ++ [digit (n % 10)]

/-- A number as it is written: 20 digits are enough. -/
def decimal (n : UInt64) : Bytes := digits 20 n.toNat

/-- The number that digits spell. -/
def ofDigits (ds : Bytes) : Nat := ds.foldl (fun v d => 10 * v + (d.toNat - 48)) 0

theorem digit_toNat {n : Nat} (h : n < 10) : (digit n).toNat = 48 + n := by
  rw [digit, UInt8.toNat_add, UInt8.toNat_ofNat']
  have : (48 : UInt8).toNat = 48 := rfl
  omega

theorem isDigit_digit {n : Nat} (h : n < 10) : isDigit (digit n) = true := by
  have hd := digit_toNat h
  have h₁ : (48 : UInt8) ≤ digit n := by
    rw [UInt8.le_iff_toNat_le, hd]
    exact Nat.le_add_right _ _
  have h₂ : digit n ≤ 57 := by
    rw [UInt8.le_iff_toNat_le, hd]
    exact (by omega : 48 + n ≤ 57)
  simp [isDigit, h₁, h₂]

theorem isDigit_of_mem_digits : ∀ {k n : Nat} {b : UInt8}, b ∈ digits k n → isDigit b = true
  | 0, _, _, h => by cases h
  | k + 1, n, b, h => by
    rw [digits] at h
    split at h
    · next hn =>
        rw [mem_singleton.1 h]
        exact isDigit_digit hn
    · rcases mem_append.1 h with h | h
      · exact isDigit_of_mem_digits h
      · rw [mem_singleton.1 h]
        exact isDigit_digit (Nat.mod_lt _ (by decide))

theorem digits_ne_nil (k n : Nat) : digits (k + 1) n ≠ [] := by
  rw [digits]
  split <;> simp

theorem ofDigits_concat (ds : Bytes) (d : UInt8) :
    ofDigits (ds ++ [d]) = 10 * ofDigits ds + (d.toNat - 48) := by
  rw [ofDigits, foldl_append]
  rfl

/-- **The digits of a number spell it.** -/
theorem ofDigits_digits : ∀ {k n : Nat}, n < 10 ^ k → ofDigits (digits k n) = n
  | 0, n, h => by
    rw [Nat.pow_zero, Nat.lt_one_iff] at h
    rw [h]
    rfl
  | k + 1, n, h => by
    rw [digits]
    split
    · next hn =>
        show 10 * 0 + ((digit n).toNat - 48) = n
        rw [digit_toNat hn]
        omega
    · have hq : n / 10 < 10 ^ k := by
        rw [Nat.pow_succ] at h
        omega
      rw [ofDigits_concat, ofDigits_digits hq, digit_toNat (Nat.mod_lt _ (by decide))]
      omega

theorem isDigit_of_mem_decimal {n : UInt64} {b : UInt8} (h : b ∈ decimal n) : isDigit b = true :=
  isDigit_of_mem_digits h

theorem decimal_ne_nil (n : UInt64) : decimal n ≠ [] := digits_ne_nil 19 n.toNat

theorem ofDigits_decimal (n : UInt64) : ofDigits (decimal n) = n.toNat :=
  ofDigits_digits (Nat.lt_trans n.toNat_lt (by decide))

theorem isSpace_of_isDigit {b : UInt8} (h : isDigit b = true) : isSpace b = false := by
  unfold isDigit at h
  unfold isSpace
  rw [Bool.and_eq_true, decide_eq_true_eq, decide_eq_true_eq, UInt8.le_iff_toNat_le,
    UInt8.le_iff_toNat_le] at h
  rw [Bool.or_eq_false_iff, Bool.and_eq_false_iff, decide_eq_false_iff_not,
    decide_eq_false_iff_not, UInt8.le_iff_toNat_le, UInt8.le_iff_toNat_le, beq_eq_false_iff_ne]
  have h48 : (48 : UInt8).toNat = 48 := rfl
  have h13 : (13 : UInt8).toNat = 13 := rfl
  have h32 : (32 : UInt8).toNat = 32 := rfl
  refine ⟨.inr (by omega), fun e => ?_⟩
  rw [e] at h
  omega

theorem isWord_decimal (n : UInt64) : IsWord (decimal n) :=
  ⟨decimal_ne_nil n, fun _ hb => isSpace_of_isDigit (isDigit_of_mem_decimal hb)⟩

/-! ## 3. Reading words and numbers -/

/-- A string stream: what is left of it, and `failbit`. -/
structure TextIn where
  rest : Bytes
  fail : Bool
  deriving DecidableEq, Repr

/-- What `>>` has after skipping white space; nothing if the stream has failed or is at its end. -/
def TextIn.skip (s : TextIn) : Option Bytes :=
  if s.fail = true ∨ s.rest.dropWhile isSpace = [] then none else some (s.rest.dropWhile isSpace)

/-- `>>` into a string that holds `old`. -/
def extractWord (old : Bytes) (s : TextIn) : Bytes × TextIn :=
  match s.skip with
  | none => (old, ⟨s.rest.dropWhile isSpace, true⟩)
  | some r => (r.takeWhile (!isSpace ·), ⟨r.dropWhile (!isSpace ·), false⟩)

/-- A sign in front of a number: whether it is a minus, and what follows. -/
def sign : Bytes → Bool × Bytes
  | 45 :: r => (true, r)
  | 43 :: r => (false, r)
  | r => (false, r)

/-- `>>` into a `uint64_t` that holds `old`. -/
def extractUInt64 (old : UInt64) (s : TextIn) : UInt64 × TextIn :=
  match s.skip with
  | none => (old, ⟨s.rest.dropWhile isSpace, true⟩)
  | some r =>
    let ds := (sign r).2.takeWhile isDigit
    let rest := (sign r).2.dropWhile isDigit
    if ds = [] then (0, ⟨rest, true⟩)
    else if ofDigits ds < 2 ^ 64 then
      (if (sign r).1 then 0 - UInt64.ofNat (ofDigits ds) else UInt64.ofNat (ofDigits ds),
        ⟨rest, false⟩)
    else (0 - 1, ⟨rest, true⟩)

/-- What a word has to be followed by. -/
def EndsWord (rest : Bytes) : Prop := ∀ b ∈ rest.head?, isSpace b = true

theorem skip_at {w rest : Bytes} (hw : IsWord w) {pre : Bytes}
    (hpre : ∀ b ∈ pre, isSpace b = true) :
    (TextIn.mk (pre ++ (w ++ rest)) false).skip = some (w ++ rest) := by
  obtain ⟨b, w, rfl⟩ := exists_cons_of_ne_nil hw.nonempty
  have hb : isSpace b = false := hw.noSpace b (.head _)
  have hdrop : (pre ++ (b :: w ++ rest)).dropWhile isSpace = b :: w ++ rest := by
    refine (takeWhile_append_stop hpre fun c hc => ?_).2
    cases hc
    exact hb
  rw [TextIn.skip, hdrop, if_neg (by simp)]

/-- **A word behind white space is read.** -/
theorem extractWord_at (old : Bytes) {pre w rest : Bytes}
    (hpre : ∀ b ∈ pre, isSpace b = true) (hw : IsWord w) (hr : EndsWord rest) :
    extractWord old ⟨pre ++ (w ++ rest), false⟩ = (w, ⟨rest, false⟩) := by
  rw [extractWord, skip_at hw hpre]
  have hword : ∀ b ∈ w, (!isSpace b) = true := fun b hb => by rw [hw.noSpace b hb]; rfl
  have hstop : ∀ b ∈ rest.head?, (!isSpace b) = false := fun b hb => by rw [hr b hb]; rfl
  obtain ⟨htake, hdrop⟩ := takeWhile_append_stop hword hstop
  simp only [htake, hdrop]

theorem sign_of_isDigit {b : UInt8} {r : Bytes} (h : isDigit b = true) :
    sign (b :: r) = (false, b :: r) := by
  unfold sign
  split
  · next e =>
      cases e
      exact absurd h (by decide)
  · next e =>
      cases e
      exact absurd h (by decide)
  · rfl

/-- **A number behind white space is read.** -/
theorem extractUInt64_at (old n : UInt64) {pre rest : Bytes}
    (hpre : ∀ b ∈ pre, isSpace b = true) (hr : EndsWord rest) :
    extractUInt64 old ⟨pre ++ (decimal n ++ rest), false⟩ = (n, ⟨rest, false⟩) := by
  have hstop : ∀ b ∈ rest.head?, isDigit b = false := by
    intro b hb
    cases hd : isDigit b with
    | false => rfl
    | true =>
      have := isSpace_of_isDigit hd
      rw [hr b hb] at this
      cases this
  obtain ⟨htake, hdrop⟩ := takeWhile_append_stop (w := decimal n)
    (fun b hb => isDigit_of_mem_decimal hb) hstop
  have hsign : sign (decimal n ++ rest) = (false, decimal n ++ rest) := by
    obtain ⟨b, w, e⟩ := exists_cons_of_ne_nil (decimal_ne_nil n)
    have hb : b ∈ decimal n := by rw [e]; exact (.head _)
    rw [e, cons_append]
    exact sign_of_isDigit (isDigit_of_mem_decimal hb)
  rw [extractUInt64, skip_at (isWord_decimal n) hpre]
  simp only [hsign, htake, hdrop, if_neg (decimal_ne_nil n), ofDigits_decimal, if_pos n.toNat_lt,
    UInt64.ofNat_toNat]
  rfl

theorem extractWord_noSpace {old : Bytes} (h : ∀ b ∈ old, isSpace b = false) (s : TextIn) :
    ∀ b ∈ (extractWord old s).1, isSpace b = false := by
  unfold extractWord
  split
  · exact h
  · intro b hb
    simpa using mem_takeWhile_imp hb

/-! ## 4. Lines -/

/-- The lines of a text of which `line` has been read. -/
def linesFrom : Bytes → Bytes → List Bytes
  | line, [] => if line = [] then [] else [line]
  | line, b :: bs => if b = 10 then line :: linesFrom [] bs else linesFrom (line ++ [b]) bs

/-- What a `getline` loop reads: the text between line ends, and what is left behind the last. -/
def lines (text : Bytes) : List Bytes := linesFrom [] text

theorem linesFrom_line {bs : Bytes} : ∀ {l line : Bytes}, 10 ∉ l →
    linesFrom line (l ++ 10 :: bs) = (line ++ l) :: linesFrom [] bs
  | [], line, _ => by
    rw [nil_append, linesFrom, if_pos rfl, append_nil]
  | b :: l, line, h => by
    rw [mem_cons, not_or] at h
    rw [cons_append, linesFrom, if_neg fun e => h.1 e.symm, linesFrom_line h.2, append_assoc]
    rfl

/-- **Lines that were written are read.** -/
theorem lines_flatMap : ∀ {ls : List Bytes}, (∀ l ∈ ls, 10 ∉ l) →
    lines (ls.flatMap fun l => l ++ [10]) = ls
  | [], _ => rfl
  | l :: ls, h => by
    have ih : lines _ = ls := lines_flatMap (forall_mem_cons.1 h).2
    rw [flatMap_cons, append_assoc, singleton_append, lines,
      linesFrom_line (h l (.head _)), nil_append, ← lines, ih]

end Crete.Lib
