import Jonj.Lib.Splice
import Jonj.Streams.Basic

/-!
# What a stream is opened on

A file is an array of bytes with a cursor. The descriptor of a plain file and the memory stream both
are.
-/
namespace Jonj.Streams

open Splice

def seekTarget (length cursor : Nat) (offset : Int) : Whence → Option Int
  | .set => some offset
  | .cur => some (cursor + offset)
  | .end_ => some (length + offset)
  | .other => none

/-- Operations on an array of bytes with a cursor. A read may be short, a write may take only the
beginning. -/
structure ByteFile (F : Type) extends Ops F where
  data : F → Bytes
  cursor : F → Nat
  read_data : ∀ f eof n, data (read f eof n).2.2 = data f
  read_cursor : ∀ f eof n, cursor (read f eof n).2.2 = cursor f + (read f eof n).1.length
  read_bytes : ∀ f eof n, ∃ k ≤ n, (read f eof n).1 = slice (data f) (cursor f) k
  /-- Nothing is read only at the end. -/
  read_nil : ∀ f eof n, 0 < n → (read f eof n).1 = [] → (data f).length ≤ cursor f
  read_eof : ∀ f eof n, 0 < n → (read f eof n).2.1 = true → eof = true ∨ (data f).length ≤ cursor f
  write_le : ∀ f bytes, (write f bytes).1 ≤ bytes.length
  write_data : ∀ f bytes, data (write f bytes).2 = splice 0 (data f) (cursor f)
    (bytes.take (write f bytes).1)
  write_cursor : ∀ f bytes, cursor (write f bytes).2 = cursor f + (write f bytes).1
  seek_data : ∀ f offset whence, data (seek f offset whence).2 = data f
  seek_eof : ∀ f offset whence, (seek f offset whence).1.eof ≠ some true
  seek_ok : ∀ f offset whence, (seek f offset whence).1.ok = true →
    (seek f offset whence).1.newoffset = some (cursor (seek f offset whence).2 : Int) ∧
      seekTarget (data f).length (cursor f) offset whence =
        some (cursor (seek f offset whence).2 : Int)
  seek_within : ∀ f offset whence (target : Nat),
    seekTarget (data f).length (cursor f) offset whence = some (target : Int) →
    target ≤ (data f).length → (seek f offset whence).1.ok = true

namespace ByteFile

variable {F : Type} (dev : ByteFile F)

theorem length_read_le (f : F) (eof : Bool) (n : Nat) : (dev.read f eof n).1.length ≤ n := by
  obtain ⟨k, le, eq⟩ := dev.read_bytes f eof n
  rw [eq, length_slice]
  omega

theorem slice_read (f : F) (eof : Bool) (n : Nat) :
    slice (dev.data f) (dev.cursor f) (dev.read f eof n).1.length = (dev.read f eof n).1 := by
  obtain ⟨k, le, eq⟩ := dev.read_bytes f eof n
  rw [eq, slice_length]

end ByteFile

/-! ### Plain files -/

/-- The descriptor of a plain file, with what the system decides: how much a read returns, and which
offsets behind the end `lseek` takes. -/
structure File where
  data : Bytes
  cursor : Nat
  reads : Nat → Nat
  calls : Nat
  refuses : Nat → Bool

namespace File

/-- `jonj_stdiop_read`, with a `read` that returns 0 at the end only. -/
def read (f : File) (_eof : Bool) (n : Nat) : Bytes × Bool × File :=
  let bytes := slice f.data f.cursor (min n (max 1 (f.reads f.calls)))
  (bytes, bytes.isEmpty, { f with cursor := f.cursor + bytes.length, calls := f.calls + 1 })

/-- `jonj_stdiop_write`, with a `write` that takes everything. -/
def write (f : File) (bytes : Bytes) : Nat × File :=
  (bytes.length,
    { f with data := splice 0 f.data f.cursor bytes, cursor := f.cursor + bytes.length })

def lseek (f : File) (offset : Int) (whence : Whence) : Option Nat :=
  match seekTarget f.data.length f.cursor offset whence with
  | none => none
  | some target =>
    if target < 0 ∨ (f.data.length < target ∧ f.refuses target.toNat) then none
      else some target.toNat

/-- `jonj_stdiop_seek` -/
def seek (f : File) (offset : Int) (whence : Whence) : SeekResult × File :=
  match f.lseek offset whence with
  | none => (⟨false, none, none⟩, f)
  | some result => (⟨true, some result, none⟩, { f with cursor := result })

theorem read_left (f : File) (eof : Bool) (n : Nat) :
    (f.read eof n).1.length + ((f.read eof n).2.2.data.length - (f.read eof n).2.2.cursor) ≤
      f.data.length - f.cursor := by
  simp only [read, length_slice]
  omega

theorem lseek_eq_some {f : File} {offset : Int} {whence : Whence} {result : Nat}
    (found : f.lseek offset whence = some result) :
    seekTarget f.data.length f.cursor offset whence = some (result : Int) := by
  unfold lseek at found
  split at found
  · cases found
  next target target_eq =>
  split at found
  · cases found
  · next accepted =>
    cases found
    rw [target_eq, Int.toNat_of_nonneg (by omega)]

theorem lseek_within {f : File} {offset : Int} {whence : Whence} {target : Nat}
    (asked : seekTarget f.data.length f.cursor offset whence = some (target : Int))
    (within : target ≤ f.data.length) :
    f.lseek offset whence = some target := by
  have accepted : ¬((target : Int) < 0 ∨
      ((f.data.length : Int) < target ∧ f.refuses (target : Int).toNat)) := by
    omega
  unfold lseek
  rw [asked]
  exact if_neg accepted

/-- `jonj_stream_stdio_ops` -/
def ops : ByteFile File where
  read := read
  write := write
  seek := seek
  left f := f.data.length - f.cursor
  read_left := read_left
  data := data
  cursor := cursor
  read_data _ _ _ := rfl
  read_cursor _ _ _ := rfl
  read_bytes _ _ _ := ⟨_, min_le_left _ _, rfl⟩
  read_nil f eof n some none := by
    rcases slice_eq_nil_iff.mp none with zero | atEnd
    · omega
    · exact atEnd
  read_eof f eof n some stop := by
    rcases slice_eq_nil_iff.mp (List.isEmpty_iff.mp stop) with zero | atEnd
    · omega
    · exact .inr atEnd
  write_le _ _ := le_rfl
  write_data f bytes := by simp [write]
  write_cursor _ _ := rfl
  seek_data f offset whence := by
    unfold seek
    split <;> rfl
  seek_eof f offset whence := by
    unfold seek
    split <;> exact nofun
  seek_ok f offset whence ok := by
    unfold seek at ok ⊢
    split at ok
    · cases ok
    · next result found => exact ⟨rfl, lseek_eq_some found⟩
  seek_within f offset whence target asked within := by
    unfold seek
    rw [lseek_within asked within]

end File

def fopenFromFd (settings : Settings) (ending : LineEnding) (f : File) : Stream File :=
  { streamAlloc settings ending f with position := f.cursor }

/-! ### The memory stream -/

/-- `jonj_stream_memory_data`: the size is that of the data, and the position is never behind it. -/
structure Memory where
  data : Bytes
  fpos : Nat
  /-- `TEMP_STREAM_READONLY` -/
  readonly : Bool
  fpos_le : fpos ≤ data.length

namespace Memory

/-- `jonj_stream_memory_read` -/
def read (ms : Memory) (eof : Bool) (n : Nat) : Bytes × Bool × Memory :=
  if ms.fpos = ms.data.length then ([], true, ms)
  else
    let count := if ms.fpos + n ≥ ms.data.length then ms.data.length - ms.fpos else n
    (slice ms.data ms.fpos count, eof,
      { ms with
        fpos := ms.fpos + (slice ms.data ms.fpos count).length
        fpos_le := by
          have fits := ms.fpos_le
          rw [length_slice]
          omega })

/-- `jonj_stream_memory_write` -/
def write (ms : Memory) (bytes : Bytes) : Nat × Memory :=
  if ms.readonly then (0, ms)
  else
    (bytes.length,
      { ms with
        data := splice 0 ms.data ms.fpos bytes
        fpos := ms.fpos + bytes.length
        fpos_le := by
          by_cases none : bytes = []
          · simpa [none] using ms.fpos_le
          · rw [length_splice 0 _ _ none]
            exact le_max_right _ _ })

/-- The failures leave the position at one of the ends, and report -1. -/
def fail (ms : Memory) (atEnd : Bool) : SeekResult × Memory :=
  (⟨false, some (-1), none⟩,
    { ms with
      fpos := if atEnd then ms.data.length else 0
      fpos_le := by split <;> omega })

def moveTo (ms : Memory) (target : Nat) (within : target ≤ ms.data.length) : SeekResult × Memory :=
  (⟨true, some target, some false⟩, { ms with fpos := target, fpos_le := within })

/-- `jonj_stream_memory_seek`. A negative offset is, as a `size_t`, behind the end. -/
def seek (ms : Memory) (offset : Int) : Whence → SeekResult × Memory
  | .cur =>
    if back : offset < 0 then
      if (ms.fpos : Int) < -offset then ms.fail false
      else ms.moveTo (ms.fpos + offset).toNat (by have fits := ms.fpos_le; omega)
    else if within : (ms.fpos : Int) + offset ≤ ms.data.length then
      ms.moveTo (ms.fpos + offset).toNat (by omega)
    else ms.fail true
  | .set =>
    if within : 0 ≤ offset ∧ offset ≤ ms.data.length then ms.moveTo offset.toNat (by omega)
      else ms.fail true
  | .end_ =>
    if behind : offset > 0 then ms.fail true
    else if (ms.data.length : Int) < -offset then ms.fail false
    else ms.moveTo (ms.data.length + offset).toNat (by omega)
  | .other => (⟨false, some ms.fpos, none⟩, ms)

theorem read_left (ms : Memory) (eof : Bool) (n : Nat) :
    (ms.read eof n).1.length + ((ms.read eof n).2.2.data.length - (ms.read eof n).2.2.fpos) ≤
      ms.data.length - ms.fpos := by
  unfold read
  split
  · simp
  · simp only [length_slice]
    omega

private theorem ne_within {length : Nat} {target : Int} (outside : target < 0 ∨ length < target) :
    ∀ offset ≤ length, some target ≠ some ((offset : Nat) : Int) := by
  intro offset le same
  have := Option.some.inj same
  omega

/-- What a seek does: it moves to an offset within the data, reports -1, or does nothing. -/
theorem seek_cases (ms : Memory) (offset : Int) (whence : Whence) :
    (∃ target within, seekTarget ms.data.length ms.fpos offset whence =
      some ((target : Nat) : Int) ∧
        ms.seek offset whence = ms.moveTo target within) ∨
          (∃ atEnd, ms.seek offset whence = ms.fail atEnd ∧ whence ≠ .other ∧
        ∀ target ≤ ms.data.length, seekTarget ms.data.length ms.fpos offset whence ≠
          some ((target : Nat) : Int)) ∨
      (whence = .other ∧ ms.seek offset whence = (⟨false, some ms.fpos, none⟩, ms)) := by
  cases whence with
  | set =>
    by_cases within : 0 ≤ offset ∧ offset ≤ ms.data.length
    · exact .inl ⟨_, _, congrArg some (Int.toNat_of_nonneg within.1).symm, dif_pos within⟩
    · exact .inr (.inl ⟨true, dif_neg within, nofun, ne_within (by omega)⟩)
  | cur =>
    by_cases back : offset < 0
    · have eq : ms.seek offset .cur = _ := dif_pos back
      by_cases before : (ms.fpos : Int) < -offset
      · exact .inr (.inl ⟨false, eq.trans (if_pos before), nofun, ne_within (by omega)⟩)
      · exact .inl ⟨_, _, congrArg some (Int.toNat_of_nonneg (by omega)).symm,
          eq.trans (if_neg before)⟩
    have eq : ms.seek offset .cur = _ := dif_neg back
    by_cases within : (ms.fpos : Int) + offset ≤ ms.data.length
    · exact .inl ⟨_, _, congrArg some (Int.toNat_of_nonneg (by omega)).symm,
        eq.trans (dif_pos within)⟩
    · exact .inr (.inl ⟨true, eq.trans (dif_neg within), nofun, ne_within (by omega)⟩)
  | end_ =>
    by_cases behind : offset > 0
    · exact .inr (.inl ⟨true, dif_pos behind, nofun, ne_within (by omega)⟩)
    have eq : ms.seek offset .end_ = _ := dif_neg behind
    by_cases before : (ms.data.length : Int) < -offset
    · exact .inr (.inl ⟨false, eq.trans (if_pos before), nofun, ne_within (by omega)⟩)
    · exact .inl ⟨_, _, congrArg some (Int.toNat_of_nonneg (by omega)).symm,
        eq.trans (if_neg before)⟩
  | other => exact .inr (.inr ⟨rfl, rfl⟩)

/-- `jonj_stream_memory_ops` -/
def ops : ByteFile Memory where
  read := read
  write := write
  seek := seek
  left ms := ms.data.length - ms.fpos
  read_left := read_left
  data := data
  cursor := fpos
  read_data ms eof n := by
    unfold read
    split <;> rfl
  read_cursor ms eof n := by
    unfold read
    split <;> rfl
  read_bytes ms eof n := by
    unfold read
    split
    · exact ⟨0, Nat.zero_le _, rfl⟩
    · exact ⟨_, by split <;> omega, rfl⟩
  read_nil ms eof n some none := by
    unfold read at none
    split at none
    · next atEnd => exact atEnd.ge
    next before =>
    rcases slice_eq_nil_iff.mp none with zero | atEnd
    · split at zero <;> omega
    · exact atEnd
  read_eof ms eof n some stop := by
    unfold read at stop
    split at stop
    · next atEnd => exact .inr atEnd.ge
    · exact .inl stop
  write_le ms bytes := by
    unfold write
    split <;> simp
  write_data ms bytes := by
    unfold write
    split <;> simp
  write_cursor ms bytes := by
    unfold write
    split <;> rfl
  seek_data ms offset whence := by
    rcases ms.seek_cases offset whence with ⟨_, _, _, eq⟩ | ⟨_, eq, _⟩ | ⟨_, eq⟩ <;> rw [eq] <;> rfl
  seek_eof ms offset whence := by
    rcases ms.seek_cases offset whence with ⟨_, _, _, eq⟩ | ⟨_, eq, _⟩ | ⟨_, eq⟩ <;>
      rw [eq] <;> exact nofun
  seek_ok ms offset whence ok := by
    rcases ms.seek_cases offset whence with ⟨_, _, target_eq, eq⟩ | ⟨_, eq, _⟩ | ⟨_, eq⟩
    · rw [eq]
      exact ⟨rfl, target_eq⟩
    · rw [eq] at ok
      cases ok
    · rw [eq] at ok
      cases ok
  seek_within ms offset whence target asked within := by
    rcases ms.seek_cases offset whence with ⟨_, _, _, eq⟩ | ⟨_, _, _, outside⟩ | ⟨rfl, _⟩
    · rw [eq]
      rfl
    · exact absurd asked (outside target within)
    · cases asked

end Memory

end Jonj.Streams
