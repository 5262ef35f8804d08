import Jonj.Lib.Loop

/-!
# `unpack` in `pack.c`

The way of `unpack` through its format and the input. What it adds to the array, and warnings after
which it goes on, do not change the way and are left out.
-/
namespace Jonj.Standard.Unpack

open List Loop

/-! ### The format -/

/-- The conversion to `int`, and what a sum of two of them becomes. -/
def wrap (n : Int) : Int := n.bmod (2 ^ 32)

/-- The bytes of an element, for the types that have a size. -/
def width : Char → Option Nat
  | 'c' | 'C' | 'x' => some 1
  | 's' | 'S' | 'n' | 'v' => some 2
  | 'i' | 'I' | 'l' | 'L' | 'N' | 'V' | 'f' => some 4
  | 'q' | 'Q' | 'J' | 'P' | 'd' => some 8
  | _ => none

/-- `size`, and the `arg` for the loop. -/
def sizeOf (type : Char) (arg : Int) : Option (Int × Int) :=
  match type with
  | 'X' => some (-1, arg)
  | '@' => some (0, arg)
  | 'a' | 'A' | 'Z' => some (arg, 1)
  | 'h' | 'H' => some (if 0 < arg then (wrap (arg + arg % 2)).tdiv 2 else arg, 1)
  | type => (width type).map fun size : Nat => ((size : Int), arg)

/-! ### The elements of a code -/

structure Pos where
  i : Int
  size : Int
  inputpos : Int

/-- What the `switch` does to the variables of the loop. -/
def visit (type : Char) (arg inputlen : Int) (x : Pos) : Pos :=
  match type with
  | 'a' | 'A' | 'Z' =>
    let len := inputlen - x.inputpos
    { x with size := if 0 ≤ x.size ∧ x.size < len then x.size else len }
  | 'X' => if x.inputpos < x.size then { x with inputpos := -x.size, i := wrap (arg - 1) } else x
  | '@' => { x with inputpos := if arg ≤ inputlen then arg else x.inputpos, i := wrap (arg - 1) }
  | _ => x

/-- The body of the loop with `i++` and the test after it. The loop ends with a position, or with
FALSE. -/
def element (type : Char) (arg inputlen : Int) (x : Pos) : Option (Pos ⊕ Option Int) :=
  if x.size ≠ 0 ∧ x.size ≠ -1 ∧ 2 ^ 31 - 1 - x.size + 1 < x.inputpos then some (.inr none)
  else if wrap (x.inputpos + x.size) ≤ inputlen then
    let y := visit type arg inputlen x
    let inputpos := max 0 (wrap (y.inputpos + y.size))
    if wrap (y.i + 1) = arg then some (.inr (some inputpos))
    else some (.inl ⟨wrap (y.i + 1), y.size, inputpos⟩)
  else if arg < 0 then some (.inr (some x.inputpos))
  else some (.inr none)

/-- The loop over the elements of a code, for so many rounds. -/
def elements (rounds : Nat) (inputlen : Int) (code : Char × Int) (inputpos : Int) :
    Option (Option Int) :=
  match sizeOf code.1 code.2 with
  | none => some none
  | some (size, arg) =>
    if size ≠ 0 ∧ size ≠ -1 ∧ size < 0 then some none
    else if arg = 0 then some (some inputpos)
    else loop (element code.1 arg inputlen) rounds ⟨0, size, inputpos⟩

/-- The greater of the repeat count and the number of bytes that are left, with one more. -/
def bound (argb : Int) (left : Nat) : Nat := max argb.toNat (left + 1)

/-- The position behind a code, or `none` for FALSE. -/
def after (inputlen pos : Nat) : Char × Int → Option Nat
  | ('X', argb) => some (pos - argb.toNat)
  | ('@', argb) => some (if argb ≠ 0 ∧ argb ≤ inputlen then argb.toNat else pos)
  | ('a', argb) | ('A', argb) | ('Z', argb) =>
    -- a sum of `2 ^ 31` is negative
    if argb = -1 ∨ pos + argb = 2 ^ 31 then some inputlen
    else if 0 ≤ argb ∧ pos + argb ≤ inputlen then some (pos + argb.toNat)
    else none
  | ('h', argb) | ('H', argb) =>
    let size := (argb + 1) / 2
    if argb = -1 then some (pos - 1)
    else if argb < 0 ∨ argb = 2 ^ 31 - 1 then none
    else if pos + size = 2 ^ 31 then some 0
    else if pos + size ≤ inputlen then some (pos + size.toNat)
    else none
  | (type, argb) =>
    (width type).bind fun size =>
      if argb < 0 then some (pos + (inputlen - pos) / size * size)
      else if pos + argb.toNat * size ≤ inputlen then some (pos + argb.toNat * size)
      else none

/-- The position behind some codes. -/
def position (inputlen : Nat) (front : List (Char × Int)) : Option Nat :=
  front.foldlM (after inputlen) 0

/-! ### The loops compute it -/

/-- Neither `inputpos + size` nor `INT_MAX - size + 1` leads astray for the types that have a
size. -/
def maxInput : Nat := 2 ^ 31 - 9

theorem wrap_eq {n : Int} (low : -2 ^ 31 ≤ n) (high : n < 2 ^ 31) : wrap n = n := by
  rw [wrap, Int.bmod_eq_of_le] <;> simp only [Nat.reducePow, Nat.cast_ofNat] <;> omega

section

variable {type : Char} {inputlen pos : Nat} {arg : Int}

variable (short : inputlen ≤ maxInput)
include short

section fixed

variable (same : ∀ arg inputlen x, visit type arg inputlen x = x) {size : Nat}
  (sized : width type = some size)
include same sized

end fixed

end

theorem once {type : Char} {inputlen : Int} {x : Pos} (start : x.i = 0)
    (counts : (visit type 1 inputlen x).i = x.i) {rounds : Nat} (some : 0 < rounds) :
    loop (element type 1 inputlen) rounds x = .some
      (if x.size ≠ 0 ∧ x.size ≠ -1 ∧ 2 ^ 31 - 1 - x.size + 1 < x.inputpos then none
      else if wrap (x.inputpos + x.size) ≤ inputlen then
        let y := visit type 1 inputlen x
        .some (max 0 (wrap (y.inputpos + y.size)))
      else none) := by
  obtain ⟨rounds, rfl⟩ := Nat.exists_eq_add_of_lt some
  have last : wrap ((visit type 1 inputlen x).i + 1) = 1 := by
    rw [counts, start]
    decide
  rw [loop, element]
  by_cases past : x.size ≠ 0 ∧ x.size ≠ -1 ∧ 2 ^ 31 - 1 - x.size + 1 < x.inputpos
  · rw [if_pos past, if_pos past]
  · rw [if_neg past, if_neg past]
    by_cases room : wrap (x.inputpos + x.size) ≤ inputlen
    · rw [if_pos room, if_pos room]
      simp [last]
    · rw [if_neg room, if_neg room, if_neg (by decide)]

section

variable {type : Char} {argb : Int} {inputlen pos rounds : Nat} (short : inputlen ≤ maxInput)
  (int : -2 ^ 31 ≤ argb ∧ argb < 2 ^ 31) (inside : pos ≤ inputlen)
include short int inside

theorem elements_text (text : type ∈ ['a', 'A', 'Z']) (some : 0 < rounds) :
    elements rounds inputlen (type, argb) pos =
      .some ((after inputlen pos (type, argb)).map fun n : Nat => (n : Int)) := by
  rw [maxInput] at short
  have sizes : sizeOf type argb = .some (argb, 1) := by
    simp only [mem_cons, not_mem_nil, or_false] at text
    rcases text with rfl | rfl | rfl <;> rfl
  have visits (x : Pos) : visit type 1 inputlen x = { x with
      size := if 0 ≤ x.size ∧ x.size < inputlen - x.inputpos then x.size
        else inputlen - x.inputpos } := by
    simp only [mem_cons, not_mem_nil, or_false] at text
    rcases text with rfl | rfl | rfl <;> rfl
  have means : after inputlen pos (type, argb) =
      if argb = -1 ∨ pos + argb = 2 ^ 31 then .some inputlen
      else if 0 ≤ argb ∧ pos + argb ≤ inputlen then .some (pos + argb.toNat)
      else none := by
    simp only [mem_cons, not_mem_nil, or_false] at text
    rcases text with rfl | rfl | rfl <;> rfl
  rw [elements, sizes, means]
  dsimp only
  by_cases negative : argb < -1
  · rw [if_pos (by omega), if_neg (by omega), if_neg (by omega)]
    rfl
  rw [if_neg (by omega), if_neg one_ne_zero, once rfl (by rw [visits]) some, visits]
  dsimp only
  have whole : wrap (pos + (inputlen - pos)) = inputlen := by
    rw [add_sub_cancel]
    exact wrap_eq (by omega) (by omega)
  have natural : max 0 (inputlen : Int) = inputlen := by omega
  by_cases all : argb = -1 ∨ pos + argb = 2 ^ 31
  · have below : wrap (pos + argb) ≤ inputlen := by
      rcases all with rfl | top
      · rw [wrap_eq (by omega) (by omega)]
        omega
      · rw [top]
        exact le_trans (by decide) (Int.natCast_nonneg inputlen)
    rw [if_neg (by omega), if_pos below, if_neg (by omega), if_pos all, whole, natural]
    rfl
  · rw [if_neg all]
    by_cases past : argb ≠ 0 ∧ argb ≠ -1 ∧ 2 ^ 31 - 1 - argb + 1 < pos
    · rw [if_pos past, if_neg (by omega)]
      rfl
    · rw [if_neg past, wrap_eq (by omega) (by omega)]
      by_cases room : pos + argb ≤ inputlen
      · have size : (if 0 ≤ argb ∧ argb < inputlen - pos then argb else inputlen - pos) = argb := by
          split <;> omega
        rw [if_pos room, size, if_pos ⟨by omega, room⟩, wrap_eq (by omega) (by omega),
          show max 0 (pos + argb) = ((pos + argb.toNat : Nat) : Int) by omega]
        rfl
      · rw [if_neg room, if_neg (by omega)]
        rfl

end

end Jonj.Standard.Unpack
