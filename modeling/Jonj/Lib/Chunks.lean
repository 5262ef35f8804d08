import Mathlib.Data.List.Basic
import Mathlib.Tactic.Common

/-!
# Lists in chunks

A growing list kept as a list of chunks of one size, of which only the last may have room.
Through `push` and `access` the chunks behave as one flat list.
-/
namespace Jonj.Chunks

open List

variable {α : Type*} {size : Nat} {chunks : List (List α)}

/-- Adds an element to the last chunk, or in a new one if that is full. -/
def push (size : Nat) (chunks : List (List α)) (a : α) : List (List α) :=
  match chunks.getLast? with
  | none => [[a]]
  | some last => if last.length = size then chunks ++ [[a]] else chunks.dropLast ++ [last ++ [a]]

/-- Looks an index up, skipping full chunks. -/
def access (size : Nat) : List (List α) → Int → Option α
  | [], _ => none
  | chunk :: next, id =>
    if id ≥ size ∧ chunk.length = size then access size next (id - size)
    else if id < 0 ∨ id ≥ chunk.length then none
    else chunk[id.toNat]?

/-- Every chunk but the last is full. -/
structure Packed (size : Nat) (chunks : List (List α)) : Prop where
  full : ∀ chunk ∈ chunks.dropLast, chunk.length = size
  bounded : ∀ chunk ∈ chunks, chunk.length ≤ size

theorem packed_nil : Packed size ([] : List (List α)) := ⟨by simp, by simp⟩

theorem push_nil (a : α) : push size [] a = [[a]] := rfl

theorem push_concat (init : List (List α)) (last : List α) (a : α) : push size (init ++ [last]) a =
      if last.length = size then init ++ [last] ++ [[a]] else init ++ [last ++ [a]] := by
  simp [push]

/-- The chunks hold the elements in the order in which they were added. -/
theorem flatten_push (chunks : List (List α)) (a : α) :
    (push size chunks a).flatten = chunks.flatten ++ [a] := by
  rcases eq_nil_or_concat chunks with rfl | ⟨init, last, rfl⟩
  · rfl
  rw [concat_eq_append, push_concat]
  split
  · simp
  · simp

theorem Packed.push (packed : Packed size chunks) (room : 0 < size) (a : α) :
    Packed size (push size chunks a) := by
  rcases eq_nil_or_concat chunks with rfl | ⟨init, last, rfl⟩
  · refine ⟨by simp [push_nil], ?_⟩
    intro chunk member
    rw [mem_singleton.mp member]
    exact room
  rw [concat_eq_append] at packed ⊢
  have full : ∀ chunk ∈ init, chunk.length = size := by simpa using packed.full
  have bounded := packed.bounded last (by simp)
  rw [push_concat]
  split
  next filled =>
    constructor
    · intro chunk member
      rw [dropLast_concat] at member
      rcases mem_append.mp member with old | same
      · exact full chunk old
      · rw [mem_singleton.mp same, filled]
    intro chunk member
    rcases mem_append.mp member with old | new
    · exact packed.bounded chunk old
    · rw [mem_singleton.mp new]
      exact room
  next room_left =>
    constructor
    · rw [dropLast_concat]
      exact full
    intro chunk member
    rcases mem_append.mp member with old | new
    · exact Nat.le_of_eq (full chunk old)
    · rw [mem_singleton.mp new, length_append, length_singleton]
      omega

theorem Packed.tail {chunk : List α} {next : List (List α)} (packed : Packed size (chunk :: next)) :
    Packed size next := by
  constructor
  · intro other member
    apply packed.full
    cases next with
    | nil => cases member
    | cons => exact mem_cons_of_mem _ member
  · exact fun other member => packed.bounded other (mem_cons_of_mem _ member)

/-- An index is one into all elements. -/
theorem Packed.access_eq (packed : Packed size chunks) (index : Nat) :
    access size chunks index = chunks.flatten[index]? := by
  induction chunks generalizing index with
  | nil => simp [access]
  | cons chunk next ih =>
    rw [access, flatten_cons]
    split
    next past =>
      obtain ⟨large, full⟩ := past
      have large : size ≤ index := by omega
      rw [← Int.ofNat_sub large, ih packed.tail, getElem?_append_right (by omega), full]
    next here =>
    split
    next outside =>
      -- the chunk is too short, so it is the last one
      have short : chunk.length ≤ index := by omega
      have last : next = [] := by
        by_contra more
        have full : chunk.length = size := by
          apply packed.full
          rw [dropLast_cons_of_ne_nil more]
          exact mem_cons_self
        omega
      rw [last, flatten_nil, append_nil, getElem?_eq_none short]
    next inside =>
      have inside : index < chunk.length := by omega
      rw [getElem?_append_left inside, Int.toNat_natCast]

end Jonj.Chunks
