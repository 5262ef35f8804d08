import Jonj.Lib.CChar

/-!
# Decimal numerals

Digits are bytes. A numeral is written from its last digit on and read from its first one.
-/
namespace Jonj.Decimal

open List

def isDigit (c : UInt8) : Bool := 48 ≤ c && c ≤ 57

def digit (d : Nat) : UInt8 := UInt8.ofNat (48 + d)

def digitValue (c : UInt8) : Nat := c.toNat - 48

/-- The digits of a number in front of what is already written; at most as many digits as
the first argument says. -/
def writeDigits : Nat → Nat → List UInt8 → List UInt8
  | 0, _, written => written
  | room + 1, n, written =>
    if n / 10 = 0 then digit (n % 10) :: written
    else writeDigits room (n / 10) (digit (n % 10) :: written)

/-- The value that reading digit by digit gives. -/
def readDigits (acc : Nat) (digits : List UInt8) : Nat :=
  digits.foldl (fun acc c => acc * 10 + digitValue c) acc

theorem digit_spec {d : Nat} (small : d < 10) :
    isDigit (digit d) = true ∧ digitValue (digit d) = d := by
  interval_cases d <;> decide

theorem digit_ne_zero {d : Nat} (nonzero : d ≠ 0) (small : d < 10) : digit d ≠ 48 := by
  interval_cases d <;> first | exact absurd rfl nonzero | decide

theorem ne_of_isDigit {c d : UInt8} (digit : isDigit c = true) (other : isDigit d = false) :
    c ≠ d := by
  rintro rfl
  exact Bool.false_ne_true (other.symm.trans digit)

theorem writeDigits_append (room n : Nat) (written : List UInt8) :
    writeDigits room n written = writeDigits room n [] ++ written := by
  induction room generalizing n written with
  | zero => rfl
  | succ room ih =>
    rw [writeDigits, writeDigits]
    split
    · rfl
    · rw [ih, ih (n / 10) [digit (n % 10)], append_assoc]
      rfl

theorem writeDigits_length (room n : Nat) : (writeDigits room n []).length ≤ room := by
  induction room generalizing n with
  | zero => rfl
  | succ room ih =>
    rw [writeDigits]
    split
    · simp
    rw [writeDigits_append]
    have shorter := ih (n / 10)
    simp only [length_append, length_singleton]
    omega

theorem writeDigits_ne_nil (room n : Nat) : writeDigits (room + 1) n [] ≠ [] := by
  rw [writeDigits]
  split
  · simp
  · rw [writeDigits_append]
    simp

theorem isDigit_of_mem_writeDigits {room n : Nat} {c : UInt8} (member : c ∈ writeDigits room n []) :
    isDigit c = true := by
  induction room generalizing n with
  | zero => cases member
  | succ room ih =>
    have last : isDigit (digit (n % 10)) = true := (digit_spec (Nat.mod_lt n (by omega))).1
    rw [writeDigits] at member
    split at member
    · rw [mem_singleton.mp member]
      exact last
    rw [writeDigits_append] at member
    rcases mem_append.mp member with earlier | here
    · exact ih earlier
    · rw [mem_singleton.mp here]
      exact last

/-- A number is read back, if there is room for all its digits. -/
theorem readDigits_writeDigits {room n : Nat} (fits : n < 10 ^ room) :
    readDigits 0 (writeDigits room n []) = n := by
  induction room generalizing n with
  | zero =>
    have zero : n = 0 := by simpa using fits
    rw [zero]
    rfl
  | succ room ih =>
    have last := (digit_spec (Nat.mod_lt n (show 10 > 0 by omega))).2
    rw [writeDigits]
    split
    next small =>
      simp only [readDigits, foldl_cons, foldl_nil, last]
      omega
    next =>
    have front : readDigits 0 (writeDigits room (n / 10) []) = n / 10 := by
      apply ih
      omega
    rw [writeDigits_append]
    simp only [readDigits, foldl_append, foldl_cons, foldl_nil, last]
    rw [readDigits] at front
    omega

/-- There are no leading zeros. -/
theorem head_writeDigits {room n : Nat} (fits : n < 10 ^ (room + 1)) (pos : n ≠ 0) :
    (writeDigits (room + 1) n []).head? ≠ some 48 := by
  have single {room n : Nat} (pos : n ≠ 0) (small : n / 10 = 0) :
      (writeDigits (room + 1) n []).head? ≠ some 48 := by
    rw [writeDigits, if_pos small]
    exact fun zero => digit_ne_zero (show n % 10 ≠ 0 by omega) (Nat.mod_lt n (by omega))
      (Option.some.inj zero)
  induction room generalizing n with
  | zero => exact single pos (by omega)
  | succ room ih =>
    by_cases small : n / 10 = 0
    · exact single pos small
    rw [writeDigits, if_neg small, writeDigits_append,
      head?_append_of_ne_nil _ (writeDigits_ne_nil room (n / 10))]
    exact ih (by omega) small

theorem digit_digitValue {c : UInt8} (isDigit_c : isDigit c = true) :
    digit (digitValue c) = c ∧ digitValue c < 10 := by
  revert c
  decide +kernel

theorem readDigits_cons (c : UInt8) (digits : List UInt8) :
    readDigits 0 (c :: digits) = readDigits (digitValue c) digits := by
  simp [readDigits]

theorem readDigits_append_singleton (acc : Nat) (digits : List UInt8) (c : UInt8) :
    readDigits acc (digits ++ [c]) = readDigits acc digits * 10 + digitValue c := by
  simp [readDigits]

/-- The digits that follow add less than one in the place before them. -/
theorem readDigits_bounds (acc : Nat) {digits : List UInt8} (all : ∀ c ∈ digits, isDigit c = true) :
    acc * 10 ^ digits.length ≤ readDigits acc digits ∧
      readDigits acc digits < (acc + 1) * 10 ^ digits.length := by
  induction digits using reverseRecOn with
  | nil => simp [readDigits]
  | append_singleton digits c ih =>
    obtain ⟨low, high⟩ := ih fun d member => all d (mem_append_left [c] member)
    have small := (digit_digitValue (all c (by simp))).2
    rw [readDigits_append_singleton, length_append, length_singleton, pow_succ, ← mul_assoc,
      ← mul_assoc]
    omega

theorem readDigits_eq_add (acc : Nat) (digits : List UInt8) :
    readDigits acc digits = acc * 10 ^ digits.length + readDigits 0 digits := by
  induction digits using reverseRecOn with
  | nil => simp [readDigits]
  | append_singleton digits c ih =>
    rw [readDigits_append_singleton, readDigits_append_singleton, ih, length_append,
      length_singleton]
    ring

/-- Leading zeros do not count. -/
theorem readDigits_dropWhile_zero (digits : List UInt8) :
    readDigits 0 (digits.dropWhile (· = 48)) = readDigits 0 digits := by
  induction digits with
  | nil => rfl
  | cons c digits ih =>
    by_cases zero : c = 48
    · rw [dropWhile_cons_of_pos (by simpa using zero), ih, zero]
      rfl
    · rw [dropWhile_cons_of_neg (by simpa using zero)]

theorem pow_le_readDigits {first : UInt8} {rest : List UInt8}
    (all : ∀ c ∈ first :: rest, isDigit c = true) (nonzero : first ≠ 48) :
    10 ^ rest.length ≤ readDigits 0 (first :: rest) := by
  have isDigit_first := digit_digitValue (all first (by simp))
  have positive : 1 ≤ digitValue first := by
    rw [Nat.one_le_iff_ne_zero]
    intro zero
    exact nonzero (by rw [← isDigit_first.1, zero]; rfl)
  have low := (readDigits_bounds (digitValue first) fun c member =>
    all c (mem_cons_of_mem first member)).1
  calc 10 ^ rest.length = 1 * 10 ^ rest.length := (one_mul _).symm
    _ ≤ digitValue first * 10 ^ rest.length := Nat.mul_le_mul_right _ positive
    _ ≤ readDigits (digitValue first) rest := low
    _ = readDigits 0 (first :: rest) := (readDigits_cons first rest).symm

/-- A text without leading zeros is written again. -/
theorem writeDigits_readDigits {room : Nat} {first : UInt8} {rest : List UInt8}
    (all : ∀ c ∈ first :: rest, isDigit c = true) (nonzero : first ≠ 48)
    (fits : readDigits 0 (first :: rest) < 10 ^ room) :
    writeDigits room (readDigits 0 (first :: rest)) [] = first :: rest := by
  induction rest using reverseRecOn generalizing room with
  | nil =>
    have value := digit_digitValue (all first (by simp))
    have positive := pow_le_readDigits all nonzero
    have single : readDigits 0 [first] = digitValue first := readDigits_cons first []
    rw [single] at fits positive ⊢
    cases room with
    | zero => simp at fits positive; omega
    | succ room =>
      rw [writeDigits, if_pos (Nat.div_eq_of_lt value.2), Nat.mod_eq_of_lt value.2, value.1]
  | append_singleton rest c ih =>
    have front : ∀ d ∈ first :: rest, isDigit d = true := by
      intro d member
      apply all d
      simp only [mem_cons, mem_append] at member ⊢
      tauto
    have last := digit_digitValue (all c (by simp))
    have positive := pow_le_readDigits front nonzero
    rw [← cons_append, readDigits_append_singleton] at fits ⊢
    have quotient : (readDigits 0 (first :: rest) * 10 + digitValue c) / 10 =
        readDigits 0 (first :: rest) := by
      omega
    have remainder : (readDigits 0 (first :: rest) * 10 + digitValue c) % 10 = digitValue c := by
      omega
    have atLeast : 1 ≤ 10 ^ rest.length := Nat.one_le_pow _ _ (by omega)
    cases room with
    | zero => omega
    | succ room =>
      rw [writeDigits, quotient, remainder, if_neg (by omega), writeDigits_append, last.1]
      congr 1
      apply ih front
      omega

/-- The digits end at the first other byte. -/
theorem span_digits {digits rest : List UInt8} (all : ∀ c ∈ digits, isDigit c = true)
    (stop : ∀ c ∈ rest.head?, isDigit c = false) :
    (digits ++ rest).takeWhile isDigit = digits ∧ (digits ++ rest).dropWhile isDigit = rest := by
  rw [takeWhile_append_of_pos all, dropWhile_append_of_pos all]
  cases rest with
  | nil => simp
  | cons c rest =>
    have other : isDigit c = false := stop c rfl
    simp [other]

end Jonj.Decimal
