import Mathlib.Tactic

/-!
# Reading and writing a part of a list

A list as the content of a file: a part of it that begins at an offset, and the list after other
elements were written at an offset. Writing behind the end fills the gap.
-/
namespace Jonj.Splice

open List

variable {α : Type}

def slice (data : List α) (pos n : Nat) : List α := (data.drop pos).take n

section

variable (data : List α)

theorem length_slice (pos n : Nat) : (slice data pos n).length = min n (data.length - pos) := by
  rw [slice, length_take, length_drop]

@[simp] theorem slice_zero (pos : Nat) : slice data pos 0 = [] := take_zero

/-- Two slices that follow each other are one. -/
theorem slice_add (pos m n : Nat) :
    slice data pos (m + n) = slice data pos m ++ slice data (pos + m) n := by
  rw [slice, slice, slice, take_add, drop_drop]

theorem take_slice (pos : Nat) {m n : Nat} (le : m ≤ n) :
    (slice data pos n).take m = slice data pos m := by
  rw [slice, slice, take_take, Nat.min_eq_left le]

theorem drop_slice (pos m n : Nat) : (slice data pos n).drop m = slice data (pos + m) (n - m) := by
  rw [slice, slice, drop_take, drop_drop]

end

theorem slice_eq_nil_iff {data : List α} {pos n : Nat} :
    slice data pos n = [] ↔ n = 0 ∨ data.length ≤ pos := by
  rw [← length_eq_zero_iff, length_slice]
  omega

theorem slice_length (data : List α) (pos n : Nat) :
    slice data pos (slice data pos n).length = slice data pos n := by
  have le := length_take_le n (data.drop pos)
  rw [← take_slice data pos (show (slice data pos n).length ≤ n from le), take_length]

def splice (zero : α) (data : List α) (pos : Nat) (bytes : List α) : List α :=
  if bytes = [] then data
  else data.take pos ++ (replicate (pos - data.length) zero ++
    (bytes ++ data.drop (pos + bytes.length)))

variable (zero : α)

@[simp] theorem splice_nil (data : List α) (pos : Nat) : splice zero data pos [] = data :=
  if_pos rfl

theorem nil_splice (bytes : List α) : splice zero [] 0 bytes = bytes := by
  by_cases none : bytes = []
  · rw [none, splice_nil]
  · simp [splice, none]

/-- Bytes that are written behind the end lengthen the data. -/
theorem length_splice (data : List α) (pos : Nat) {bytes : List α} (some : bytes ≠ []) :
    (splice zero data pos bytes).length = max data.length (pos + bytes.length) := by
  rw [splice, if_neg some]
  simp only [length_append, length_take, length_replicate, length_drop]
  omega

theorem length_splice_le (data : List α) (pos : Nat) (bytes : List α) :
    (splice zero data pos bytes).length ≤ max data.length (pos + bytes.length) := by
  by_cases none : bytes = []
  · rw [none]
    exact le_max_left _ _
  · exact (length_splice zero data pos none).le

/-- Written bytes replace the old ones, and a gap before them is filled. -/
theorem getElem?_splice {data : List α} {pos : Nat} {bytes : List α} (some : bytes ≠ []) (i : Nat) :
    (splice zero data pos bytes)[i]? = if i < pos then
      (if i < data.length then data[i]? else .some zero)
      else if i < pos + bytes.length then bytes[i - pos]? else data[i]? := by
  rw [splice, if_neg some]
  by_cases before : i < pos
  · rw [if_pos before]
    by_cases old : i < data.length
    · rw [if_pos old, getElem?_append_left (by rw [length_take]; omega), getElem?_take_of_lt before]
    have gap : i - (data.take pos).length < (replicate (pos - data.length) zero).length := by
      rw [length_take, length_replicate]
      omega
    rw [if_neg old, getElem?_append_right (by rw [length_take]; omega),
      getElem?_append_left gap, getElem?_replicate]
    rw [length_replicate] at gap
    rw [if_pos gap]
  · have start : i - (data.take pos).length - (replicate (pos - data.length) zero).length =
        i - pos := by
      rw [length_take, length_replicate]
      omega
    rw [if_neg before, getElem?_append_right (by rw [length_take]; omega),
      getElem?_append_right (by rw [length_take, length_replicate]; omega), start]
    by_cases new : i < pos + bytes.length
    · rw [if_pos new, getElem?_append_left (by omega)]
    · rw [if_neg new, getElem?_append_right (by omega), getElem?_drop]
      congr 1
      omega

/-- Two writes that follow each other are one. -/
theorem splice_splice (data : List α) (pos : Nat) (first second : List α) :
    splice zero (splice zero data pos first) (pos + first.length) second =
      splice zero data pos (first ++ second) := by
  by_cases noFirst : first = []
  · simp [noFirst]
  by_cases noSecond : second = []
  · simp [noSecond]
  have both : first ++ second ≠ [] := by simp [noFirst]
  apply ext_getElem?
  intro i
  rw [getElem?_splice zero noSecond, getElem?_splice zero noFirst, getElem?_splice zero both,
    length_splice zero data pos noFirst, length_append]
  by_cases before : i < pos
  · have inFirst : i < pos + first.length := by omega
    have inLength : i < max data.length (pos + first.length) := by omega
    simp [before, inFirst]
  by_cases inFirst : i < pos + first.length
  · have inLength : i < max data.length (pos + first.length) := by omega
    have inBoth : i < pos + (first.length + second.length) := by omega
    simp only [before, inFirst, inLength, inBoth, if_true, if_false]
    rw [getElem?_append_left (by omega)]
  simp only [before, inFirst, if_false, Nat.add_assoc]
  split
  · rw [getElem?_append_right (by omega)]
    congr 1
    omega
  · rfl

end Jonj.Splice
