import Jonj.Streams.Refinement

/-!
# A seek that fails

The buffer is invalidated, but the cursor stays behind what was in it. When the next read returns
what is stored where `tell` points, for plain files and for the memory stream.
-/
namespace Jonj.Streams

open Splice List

def memoryOpen (settings : Settings) (ending : LineEnding) (readonly : Bool) (data : Bytes) :
    Stream Memory :=
  streamAlloc settings ending { data, fpos := 0, readonly, fpos_le := Nat.zero_le _ }

section

variable {F : Type} (dev : ByteFile F)

/-- The stream is at an offset, and the next read returns the bytes stored there. -/
def ReadsBack (s : Stream F) : Prop :=
  ∃ pos : Nat, s.tell = pos ∧
    ∀ size, Delivers s.settings.plainWrapper (dev.data s.abstract) pos size
      (s.read dev.toOps size).1

/-- What holds at each seek of the run that fails. -/
def AtFailures (P : Stream F → Int → Whence → Prop) (s : Stream F) : List Op → Prop
  | [] => True
  | op :: rest =>
    (∀ offset whence, op = .seek offset whence → (s.seek dev.toOps offset whence).1 = false →
      P s offset whence) ∧
      AtFailures P (step dev.toOps s op).2 rest

end

section

variable {F : Type} {dev : ByteFile F} {s : Stream F} {pos : Nat}

theorem At.readsBack (at_ : At dev s pos) : ReadsBack dev s :=
  ⟨pos, at_.position, fun size => (at_.read size).1⟩

theorem At.step_keeps (at_ : At dev s pos) (small : s.settings.chunkSize < 2 ^ 31) (op : Op)
    (succeeds : ∀ offset whence, op = .seek offset whence →
      (s.seek dev.toOps offset whence).1 = true) :
    (∃ pos', At dev (Streams.step dev.toOps s op).2 pos') ∧
      (Streams.step dev.toOps s op).2.settings = s.settings := by
  cases op with
  | read size =>
    obtain ⟨-, after, -, settings, -⟩ := at_.read size
    exact ⟨⟨_, after⟩, settings⟩
  | write bytes =>
    obtain ⟨-, after, -, settings, -⟩ := at_.write small bytes
    exact ⟨⟨_, after⟩, settings⟩
  | getLine limit =>
    obtain ⟨after, -, settings⟩ := at_.getLine limit
    exact ⟨after, settings⟩
  | seek offset whence =>
    obtain ⟨target, -, after, -, settings, -⟩ := at_.seek (succeeds offset whence rfl)
    exact ⟨⟨target, after⟩, settings⟩
  | tell => exact ⟨⟨pos, at_⟩, rfl⟩

/-- If a condition decides after which failing seeks the stream reads back, and then puts it at an
offset, it decides that for whole runs. -/
theorem At.readsBack_iff {P : Stream F → Int → Whence → Prop} {settings : Settings}
    (small : settings.chunkSize < 2 ^ 31)
    (decides : ∀ {s : Stream F} {pos : Nat} {offset : Int} {whence : Whence}, At dev s pos →
      s.settings = settings →
      (s.seek dev.toOps offset whence).1 = false →
        (ReadsBack dev (s.seek dev.toOps offset whence).2 ↔ P s offset whence))
    (recovers : ∀ {s : Stream F} {pos : Nat} {offset : Int} {whence : Whence}, At dev s pos →
      (s.seek dev.toOps offset whence).1 = false → P s offset whence →
      (∃ pos', At dev (s.seek dev.toOps offset whence).2 pos') ∧
        (s.seek dev.toOps offset whence).2.settings = s.settings)
    (at_ : At dev s pos) (same : s.settings = settings) (ops : List Op) :
    AtFailures dev (fun s offset whence => ReadsBack dev (s.seek dev.toOps offset whence).2) s ops ↔
      AtFailures dev P s ops := by
  induction ops generalizing s pos with
  | nil => exact Iff.rfl
  | cons op rest ih =>
    by_cases failed : ∃ offset whence, op = .seek offset whence ∧
      (s.seek dev.toOps offset whence).1 = false
    · obtain ⟨offset, whence, rfl, failed⟩ := failed
      have first := decides at_ same failed
      constructor
      · rintro ⟨fine, others⟩
        have condition := first.mp (fine offset whence rfl failed)
        obtain ⟨⟨_, after⟩, settings⟩ := recovers at_ failed condition
        refine ⟨?_, (ih after (settings.trans same)).mp others⟩
        rintro _ _ ⟨⟩ _
        exact condition
      rintro ⟨condition, others⟩
      have condition := condition offset whence rfl failed
      obtain ⟨⟨_, after⟩, settings⟩ := recovers at_ failed condition
      refine ⟨?_, (ih after (settings.trans same)).mpr others⟩
      rintro _ _ ⟨⟩ _
      exact first.mpr condition
    · -- nothing is asked about this step
      have succeeds : ∀ offset whence, op = .seek offset whence →
          (s.seek dev.toOps offset whence).1 = true := by
        intro offset whence eq
        cases result : (s.seek dev.toOps offset whence).1 with
        | true => rfl
        | false => exact absurd ⟨offset, whence, eq, result⟩ failed
      obtain ⟨⟨_, after⟩, settings⟩ := at_.step_keeps (by rwa [same]) op succeeds
      have rest_iff := ih after (settings.trans same)
      constructor
      · rintro ⟨-, others⟩
        exact ⟨fun offset whence eq result => absurd ⟨offset, whence, eq, result⟩ failed,
          rest_iff.mp others⟩
      · rintro ⟨-, others⟩
        exact ⟨fun offset whence eq result => absurd ⟨offset, whence, eq, result⟩ failed,
          rest_iff.mpr others⟩

theorem inBuffer_of_failed {offset : Int} {whence : Whence}
    (failed : (s.seek dev.toOps offset whence).1 = false) :
    s.inBuffer offset whence = none := by
  cases place : s.inBuffer offset whence with
  | none => rfl
  | some n =>
    rw [Stream.seek, place] at failed
    cases failed

end

/-! ### Plain files -/

theorem File.seek_failed {f : File} {offset : Int} {whence : Whence}
    (failed : (f.seek offset whence).1.ok = false) :
    f.seek offset whence = (⟨false, none, none⟩, f) := by
  unfold File.seek at failed ⊢
  split at failed
  · rfl
  · cases failed

/-- The position and the cursor stay, the buffer is gone. -/
theorem seek_file_failed {s : Stream File} {offset : Int} {whence : Whence}
    (failed : (s.seek File.ops.toOps offset whence).1 = false) :
    s.seek File.ops.toOps offset whence = (false, s.dropBuffer) := by
  have outside := inBuffer_of_failed failed
  obtain ⟨offset', whence', sink, -⟩ := Stream.sink_eq (s := s) File.ops.toOps offset whence
  rw [Stream.seek_of_outside _ outside, sink] at failed ⊢
  have refused : File.ops.seek s.abstract offset' whence' = _ := File.seek_failed failed
  have unchanged : s.opsSeek File.ops.toOps offset' whence' = (false, s) := by
    unfold Stream.opsSeek
    rw [refused]
    rfl
  rw [unchanged]
  rfl

section

variable {s : Stream File} {pos : Nat}

theorem At.dropBuffer_file (at_ : At File.ops s pos) (level : s.readpos = s.writepos) :
    At File.ops s.dropBuffer pos := by
  have drained : s.avail = 0 := by
    unfold Stream.avail
    omega
  exact ⟨synced_dropBuffer at_.chunk (by rw [at_.cursor, drained, Nat.add_zero]) at_.eof,
    at_.position⟩

theorem At.not_readsBack (at_ : At File.ops s pos) (greedy : s.settings.plainWrapper = true)
    (ahead : s.readpos ≠ s.writepos) :
    ¬ReadsBack File.ops s.dropBuffer := by
  rintro ⟨pos', tell, delivers⟩
  have position := at_.position
  have order := at_.order
  have some : 0 < s.avail := by
    unfold Stream.avail
    omega
  have bound := at_.avail_le
  have shifted : Synced File.ops s.dropBuffer (pos + s.avail) :=
    synced_dropBuffer at_.chunk at_.cursor fun stop => (at_.eof stop).trans (Nat.le_add_right _ _)
  change s.position = pos' at tell
  obtain rfl : pos' = pos := by omega
  have promised := (delivers s.abstract.data.length).all greedy
  have returned := (shifted.readLoop s.abstract.data.length).1.all greedy
  have lengths := congrArg length (promised.symm.trans returned)
  rw [length_slice, length_slice] at lengths
  change min s.abstract.data.length (s.abstract.data.length - pos') =
    min s.abstract.data.length (s.abstract.data.length - (pos' + s.avail)) at lengths
  change s.avail = 0 ∨ pos' + s.avail ≤ s.abstract.data.length at bound
  omega

end

/-! ### The memory stream -/

section

variable {s : Stream Memory} {pos : Nat} {offset : Int} {whence : Whence}

/-- A seek to an offset that is not there reports -1, and that becomes the position. -/
theorem tell_memory_failed (failed : (s.seek Memory.ops.toOps offset whence).1 = false)
    (known : whence ≠ .other) :
    (s.seek Memory.ops.toOps offset whence).2.tell = -1 := by
  have outside := inBuffer_of_failed failed
  obtain ⟨offset', whence', sink, other, -⟩ :=
    Stream.sink_eq (s := s) Memory.ops.toOps offset whence
  rw [Stream.seek_of_outside _ outside, sink] at failed ⊢
  change Option.getD (s.abstract.seek offset' whence').1.newoffset s.position = -1
  change (s.abstract.seek offset' whence').1.ok = false at failed
  rcases s.abstract.seek_cases offset' whence' with ⟨_, _, _, eq⟩ | ⟨_, eq, _⟩ | ⟨unknown, _⟩
  · rw [eq] at failed
    cases failed
  · rw [eq]
    rfl
  · exact absurd (other.mp unknown) known

/-- With an unknown `whence` the cursor is reported, which is where the stream then is. -/
theorem At.seek_memory_other (at_ : At Memory.ops s pos) :
    At Memory.ops (s.seek Memory.ops.toOps offset .other).2 (pos + s.avail) := by
  have outside : s.inBuffer offset .other = none := by
    unfold Stream.inBuffer
    split <;> rfl
  rw [Stream.seek_of_outside _ outside]
  refine ⟨synced_dropBuffer at_.chunk at_.cursor fun stop =>
    (at_.eof stop).trans (Nat.le_add_right _ _), ?_⟩
  exact congrArg Nat.cast at_.cursor

end

/-- After the failing seeks of a run the next read returns what is stored at `tell`: for a plain
file if and only if the buffer was used up at each of them, for the memory stream if and only if
each was called with an unknown `whence`. -/
theorem readsBack_after_failures_iff (settings : Settings) (chunk : 1 ≤ settings.chunkSize)
    (small : settings.chunkSize ≤ 2 ^ 31 - 1) (ending : LineEnding) :
    (settings.plainWrapper = true → ∀ (f : File) (ops : List Op),
      AtFailures File.ops (fun s offset whence =>
        ReadsBack File.ops (s.seek File.ops.toOps offset whence).2)
          (fopenFromFd settings ending f) ops ↔
        AtFailures File.ops (fun s _ _ => s.readpos = s.writepos)
          (fopenFromFd settings ending f) ops) ∧
    ∀ (readonly : Bool) (data : Bytes) (ops : List Op),
      AtFailures Memory.ops (fun s offset whence =>
        ReadsBack Memory.ops (s.seek Memory.ops.toOps offset whence).2)
          (memoryOpen settings ending readonly data) ops ↔
        AtFailures Memory.ops (fun _ _ whence => whence = .other)
          (memoryOpen settings ending readonly data) ops := by
  have small : settings.chunkSize < 2 ^ 31 := by omega
  constructor
  · intro greedy f ops
    refine At.readsBack_iff small ?_ ?_ (at_fopenFromFd chunk ending f) rfl ops
    · intro s pos offset whence at_ same failed
      rw [seek_file_failed failed]
      constructor
      · intro fine
        by_contra ahead
        exact at_.not_readsBack (by rw [same, greedy]) ahead fine
      · intro level
        exact (at_.dropBuffer_file level).readsBack
    · intro s pos offset whence at_ failed level
      rw [seek_file_failed failed]
      exact ⟨⟨pos, at_.dropBuffer_file level⟩, rfl⟩
  · intro readonly data ops
    have opened : At Memory.ops (memoryOpen settings ending readonly data) 0 :=
      ⟨⟨le_rfl, le_rfl, chunk, (slice_zero _ _).symm, rfl, nofun⟩, rfl⟩
    refine At.readsBack_iff small ?_ ?_ opened rfl ops
    · intro s pos offset whence at_ same failed
      constructor
      · rintro ⟨pos', tell, -⟩
        by_contra known
        rw [tell_memory_failed failed known] at tell
        omega
      · rintro rfl
        exact at_.seek_memory_other.readsBack
    · rintro s pos offset _ at_ - rfl
      refine ⟨⟨_, at_.seek_memory_other⟩, ?_⟩
      cases place : s.inBuffer offset .other with
      | some n => rw [Stream.seek, place]; rfl
      | none => rw [Stream.seek_of_outside _ place]; rfl

/-- Three bytes, read through a buffer of four. -/
def threeBytes : Stream File :=
  fopenFromFd { fopenSettings with chunkSize := 4 } .lf
    { twoLines with data := [97, 98, 99], reads := fun _ => 4 }

/-- A seek to a negative offset, at the begin. -/
theorem readsBack_after_failures_iff_threeBytes :
    AtFailures File.ops (fun s offset whence =>
      ReadsBack File.ops (s.seek File.ops.toOps offset whence).2) threeBytes
      [.seek (-1) .set] :=
  ((readsBack_after_failures_iff { fopenSettings with chunkSize := 4 } (by decide)
    (by norm_num) .lf).1 rfl _ _).mpr
    ⟨fun _ _ _ _ => rfl, trivial⟩

section

variable {F : Type} (dev : Ops F) {s : Stream F}

theorem Stream.take_of_empty (empty : s.avail = 0) (n : Nat) : s.take n = ([], s) := by
  have none : s.buffered = [] := Stream.buffered_eq_nil_iff.mpr empty
  simp [Stream.take, none, empty]

theorem Stream.read_zero : s.read dev 0 = ([], s) := by
  have nothing : s.readLoop dev 0 = ([], s) := by rw [Stream.readLoop, Streams.readLoop, if_pos rfl]
  unfold Stream.read
  simp [nothing]

end

/-- After a failing seek the stream is at offset 1 and reads nothing, though two bytes follow; a
memory stream is at -1. -/
theorem failed_seek_desynchronises :
    ¬AtFailures File.ops (fun s offset whence =>
      ReadsBack File.ops (s.seek File.ops.toOps offset whence).2) threeBytes
        [.read 1, .seek (-1) .set] ∧
      ¬AtFailures Memory.ops (fun s offset whence =>
        ReadsBack Memory.ops (s.seek Memory.ops.toOps offset whence).2)
        (memoryOpen { fopenSettings with noBuffer := true, plainWrapper := false } .lf false
          [97, 98, 99]) [.seek 4 .set] := by
  constructor
  · rintro ⟨-, fine, -⟩
    let s := ((step File.ops.toOps threeBytes (.read 1)).2.seek File.ops.toOps (-1) .set).2
    obtain ⟨pos, tell, delivers⟩ := fine _ _ rfl (by decide +kernel)
    have one : s.tell = 1 := by decide +kernel
    obtain rfl : pos = 1 := by
      rw [one] at tell
      omega
    have nothing : slice s.abstract.data 1 2 = [] := (delivers 2).some (by decide +kernel)
    exact absurd nothing (by decide +kernel)
  · rintro ⟨fine, -⟩
    have failed : ((memoryOpen { fopenSettings with noBuffer := true, plainWrapper := false } .lf
      false [97, 98, 99]).seek
        Memory.ops.toOps 4 .set).1 = false := by decide
    obtain ⟨pos, tell, -⟩ := fine 4 .set rfl failed
    rw [tell_memory_failed failed nofun] at tell
    omega

end Jonj.Streams
