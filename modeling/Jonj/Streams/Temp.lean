import Jonj.Streams.FailedSeek

/-!
# The temp stream

A stream over another one: a memory stream as long as the data is small, then a temporary file. When
the switch goes unnoticed.
-/
namespace Jonj.Streams

open Splice List

/-! ### The model -/

/-- `FG(def_chunk_size)` -/
def defChunkSize : Nat := 8192

def memorySettings : Settings :=
  { chunkSize := defChunkSize, noBuffer := true, plainWrapper := false }

def temporaryFileSettings : Settings :=
  { chunkSize := defChunkSize, noBuffer := false, plainWrapper := true }

def memoryCreate (ending : LineEnding) (readonly : Bool) : Stream Memory :=
  memoryOpen memorySettings ending readonly []

/-- `ts->innerstream` -/
inductive Inner
  | memory (s : Stream Memory)
  | file (s : Stream File)

/-- `jonj_stream_temp_data`, with what the system decides about the temporary file. -/
structure Temp where
  inner : Inner
  smax : Nat
  ending : LineEnding
  reads : Nat → Nat
  refuses : Nat → Bool

namespace Inner

def read : Inner → Nat → Bytes × Bool × Inner
  | .memory s, n => let got := s.read Memory.ops.toOps n; (got.1, got.2.eof, .memory got.2)
  | .file s, n => let got := s.read File.ops.toOps n; (got.1, got.2.eof, .file got.2)

def write : Inner → Bytes → Nat × Inner
  | .memory s, bytes => Prod.map id .memory (s.write Memory.ops.toOps bytes)
  | .file s, bytes => Prod.map id .file (s.write File.ops.toOps bytes)

/-- `jonj_stream_seek` on the inner stream, with its `tell` and `eof`. -/
def seek : Inner → Int → Whence → SeekResult × Inner
  | .memory s, offset, whence =>
    let result := s.seek Memory.ops.toOps offset whence
    (⟨result.1, some result.2.tell, some result.2.eof⟩, .memory result.2)
  | .file s, offset, whence =>
    let result := s.seek File.ops.toOps offset whence
    (⟨result.1, some result.2.tell, some result.2.eof⟩, .file result.2)

def left : Inner → Nat
  | .memory s => s.left Memory.ops.toOps
  | .file s => s.left File.ops.toOps

def data : Inner → Bytes
  | .memory s => s.abstract.data
  | .file s => s.abstract.data

end Inner

namespace Temp

def fopenTemporaryFile (ts : Temp) : Stream File :=
  streamAlloc temporaryFileSettings ts.ending
    { data := [], cursor := 0, reads := ts.reads, calls := 0, refuses := ts.refuses }

/-- The inner stream that so many bytes are written to: from `smax` on it is a file, which begins
with what is in memory. -/
def innerFor (ts : Temp) (count : Nat) : Inner :=
  match ts.inner with
  | .memory s =>
    if s.abstract.data.length + count ≥ ts.smax then
      .file (ts.fopenTemporaryFile.write File.ops.toOps s.abstract.data).2
    else .memory s
  | .file s => .file s

/-- `jonj_stream_temp_write` -/
def write (ts : Temp) (bytes : Bytes) : Nat × Temp :=
  let wrote := (ts.innerFor bytes.length).write bytes
  (wrote.1, { ts with inner := wrote.2 })

/-- `jonj_stream_temp_read` -/
def read (ts : Temp) (_eof : Bool) (n : Nat) : Bytes × Bool × Temp :=
  let got := ts.inner.read n
  (got.1, got.2.1, { ts with inner := got.2.2 })

/-- `jonj_stream_temp_seek` -/
def seek (ts : Temp) (offset : Int) (whence : Whence) : SeekResult × Temp :=
  let result := ts.inner.seek offset whence
  (result.1, { ts with inner := result.2 })

end Temp

/-! What is read through a stream is no longer left. -/

section

variable {F : Type} (dev : Ops F)

theorem left_take (s : Stream F) (n : Nat) :
    (s.take n).1.length + (s.take n).2.left dev = s.left dev := by
  have length : (s.take n).1.length = min n s.avail := by
    rw [Stream.take, length_take, Stream.length_buffered]
  have same : (s.take n).2.abstract = s.abstract := rfl
  rw [Stream.left, Stream.left, s.avail_take, same]
  omega

private theorem left_readMore (s : Stream F) (size : Nat) :
    (s.readMore dev size).1.length + (s.readMore dev size).2.left dev ≤ s.left dev := by
  unfold Stream.readMore
  split
  · have bound := dev.read_left s.abstract s.eof size
    simp only [Stream.left, Stream.avail] at bound ⊢
    omega
  · rw [left_take]
    exact Stream.left_fillReadBuffer_le dev s size

private theorem left_readLoop (s : Stream F) (size : Nat) :
    (s.readLoop dev size).1.length + (s.readLoop dev size).2.left dev ≤ s.left dev := by
  have start : ([] : Bytes).length + s.left dev ≤ s.left dev := by simp
  refine @readLoop_rule _ _ _ _ (fun got x => got.length + x.left dev ≤ s.left dev) ?_ ?_ s
    size [] start
  · intro got x n bound
    have one := left_take dev x n
    rw [length_append]
    omega
  · intro got x n size _ bound
    have one := left_readMore dev (x.take n).2 size
    rw [length_append]
    omega

theorem left_read (s : Stream F) (size : Nat) :
    (s.read dev size).1.length + (s.read dev size).2.left dev ≤ s.left dev :=
  left_readLoop dev s size

end

/-- `jonj_stream_temp_ops` -/
def Temp.ops : Ops Temp where
  read := read
  write := write
  seek := seek
  left ts := ts.inner.left
  read_left ts _ n := by
    unfold read Inner.read
    cases ts.inner with
    | memory s => exact left_read _ s n
    | file s => exact left_read _ s n

def tempCreate (ending : LineEnding) (readonly : Bool) (smax : Nat) (reads : Nat → Nat)
    (refuses : Nat → Bool) : Stream Temp :=
  streamAlloc memorySettings ending
    { inner := .memory (memoryCreate ending readonly), smax, ending, reads, refuses }

/-! ### Unbuffered streams -/

/-- An unbuffered stream over a device that is no plain file. -/
structure Raw {F : Type} (s : Stream F) : Prop where
  settings : s.settings = memorySettings
  level : s.readpos = s.writepos

namespace Raw

variable {F : Type} {s : Stream F} (dev : Ops F)

theorem avail (raw : Raw s) : s.avail = 0 := by
  have level := raw.level
  unfold Stream.avail
  omega

theorem read (raw : Raw s) {n : Nat} (asked : n ≠ 0) :
    s.read dev n = ((dev.read s.abstract s.eof n).1, { s with
          abstract := (dev.read s.abstract s.eof n).2.2
          eof := (dev.read s.abstract s.eof n).2.1
          position := s.position + (dev.read s.abstract s.eof n).1.length }) := by
  have unbuffered : s.settings.noBuffer = true := by rw [raw.settings]; rfl
  have lazy : s.settings.plainWrapper = false := by rw [raw.settings]; rfl
  have more : s.readMore dev n =
      ((dev.read s.abstract s.eof n).1,
        { s with abstract := (dev.read s.abstract s.eof n).2.2,
                 eof := (dev.read s.abstract s.eof n).2.1 }) :=
    if_pos (.inl unbuffered)
  have loop : s.readLoop dev n = s.readMore dev n := by
    rw [Stream.readLoop, Streams.readLoop, Stream.take_of_empty raw.avail]
    simp only [length_nil, Nat.sub_zero, if_neg asked, nil_append]
    rw [if_pos (.inr lazy)]
  unfold Stream.read
  rw [loop, more]

private theorem after_read (raw : Raw s) (n : Nat) : Raw (s.read dev n).2 := by
  by_cases zero : n = 0
  · rw [zero, Stream.read_zero]
    exact raw
  · rw [raw.read dev zero]
    exact ⟨raw.settings, raw.level⟩

theorem write (raw : Raw s) (bytes : Bytes) : s.write dev bytes = s.writeLoop dev bytes := by
  unfold Stream.write
  split
  · next none => rw [none, Stream.writeLoop, if_pos rfl]
  · rw [if_neg (not_not.mpr raw.level)]

theorem seek (raw : Raw s) (offset : Int) (whence : Whence) :
    s.seek dev offset whence = ((s.sink dev offset whence).1,
        { (s.sink dev offset whence).2 with
          eof := if (s.sink dev offset whence).1 then false
            else (s.sink dev offset whence).2.eof }.dropBuffer) := by
  apply Stream.seek_of_outside
  have unbuffered : s.settings.noBuffer = true := by rw [raw.settings]; rfl
  exact if_pos unbuffered

end Raw

/-- What an inner stream holds, and where it is. -/
def Inner.Holds (readonly : Bool) (pos : Nat) (data : Bytes) : Inner → Prop
  | .memory s =>
    At Memory.ops s pos ∧ Raw s ∧ s.abstract.data = data ∧ s.abstract.readonly = readonly
  | .file s =>
    At File.ops s pos ∧ s.settings = temporaryFileSettings ∧ s.abstract.data = data ∧
      readonly = false

section

variable {readonly : Bool} {pos : Nat} {data : Bytes} {inner : Inner}

theorem Inner.Holds.data_eq (holds : inner.Holds readonly pos data) : inner.data = data := by
  cases inner with
  | memory s => exact holds.2.2.1
  | file s => exact holds.2.2.1

theorem Inner.Holds.fpos_eq {s : Stream Memory} (holds : (Inner.memory s).Holds readonly pos data) :
    s.abstract.fpos = pos := by
  have cursor : s.abstract.fpos = _ := holds.1.cursor
  rwa [holds.2.1.avail, Nat.add_zero] at cursor

theorem Memory.read_eq (ms : Memory) (eof : Bool) (n : Nat) :
    (ms.read eof n).1 = slice ms.data ms.fpos n := by
  unfold Memory.read
  split
  · next atEnd => exact (slice_eq_nil_iff.mpr (.inr atEnd.ge)).symm
  dsimp only
  split
  · next long =>
    have whole := slice_length ms.data ms.fpos n
    rw [length_slice, Nat.min_eq_right (by omega)] at whole
    exact whole
  · rfl

theorem Memory.readonly_seek (ms : Memory) (offset : Int) (whence : Whence) :
    (ms.seek offset whence).2.readonly = ms.readonly := by
  rcases ms.seek_cases offset whence with ⟨_, _, _, eq⟩ | ⟨_, eq, _⟩ | ⟨_, eq⟩ <;> rw [eq] <;> rfl

theorem Inner.Holds.read (holds : inner.Holds readonly pos data) (n : Nat) :
    (inner.read n).1 = slice data pos n ∧ (inner.read n).2.2.Holds readonly
      (pos + (slice data pos n).length) data := by
  cases inner with
  | memory s =>
    have cursor := holds.fpos_eq
    obtain ⟨at_, raw, rfl, rfl⟩ := holds
    obtain ⟨delivers, after, same, -⟩ := at_.read n
    by_cases zero : n = 0
    · subst zero
      have nothing : (Inner.memory s).read 0 = ([], s.eof, .memory s) := by
        simp only [Inner.read, Stream.read_zero]
      rw [nothing]
      exact ⟨rfl, at_, raw, rfl, rfl⟩
    have bytes : (s.read Memory.ops.toOps n).1 = slice s.abstract.data pos n := by
      rw [raw.read _ zero, ← cursor]
      exact s.abstract.read_eq s.eof n
    rw [bytes] at after
    refine ⟨bytes, after, raw.after_read _ n, same, ?_⟩
    rw [raw.read _ zero]
    change (s.abstract.read s.eof n).2.2.readonly = _
    unfold Memory.read
    split <;> rfl
  | file s =>
    obtain ⟨at_, settings, rfl, rfl⟩ := holds
    obtain ⟨delivers, after, same, settings', -⟩ := at_.read n
    have greedy : s.settings.plainWrapper = true := by rw [settings]; rfl
    have bytes := delivers.all greedy
    rw [bytes] at after
    exact ⟨bytes, after, settings'.trans settings, same, rfl⟩

theorem At.seek_within {F : Type} {dev : ByteFile F} {s : Stream F} (at_ : At dev s pos)
    {offset : Int} {whence : Whence} {target : Nat}
    (asked : seekTarget (dev.data s.abstract).length pos offset whence = some (target : Int))
    (within : target ≤ (dev.data s.abstract).length) : (s.seek dev.toOps offset whence).1 = true ∧
      At dev (s.seek dev.toOps offset whence).2 target ∧
      dev.data (s.seek dev.toOps offset whence).2.abstract = dev.data s.abstract ∧
      (s.seek dev.toOps offset whence).2.settings = s.settings := by
  have ok : (s.seek dev.toOps offset whence).1 = true := by
    cases place : s.inBuffer offset whence with
    | some n => rw [Stream.seek, place]
    | none =>
      obtain ⟨offset', whence', sink, -, same⟩ := Stream.sink_eq (s := s) dev.toOps offset whence
      rw [Stream.seek_of_outside dev.toOps place, sink]
      exact dev.seek_within s.abstract offset' whence' target
        ((same _ pos _ at_.position).trans asked) within
  obtain ⟨found, asked', after, same, settings, -⟩ := at_.seek ok
  obtain rfl : target = found := by
    have := Option.some.inj (asked.symm.trans asked')
    omega
  exact ⟨ok, after, same, settings⟩

theorem Inner.Holds.seek (holds : inner.Holds readonly pos data) {offset : Int} {whence : Whence}
    {target : Nat} (asked : seekTarget data.length pos offset whence = some (target : Int))
    (within : target ≤ data.length) :
    (inner.seek offset whence).1.ok = true ∧ (inner.seek offset whence).1.newoffset =
      some (target : Int) ∧
      (inner.seek offset whence).2.Holds readonly target data := by
  cases inner with
  | memory s =>
    obtain ⟨at_, raw, rfl, rfl⟩ := holds
    obtain ⟨ok, after, same, settings⟩ := at_.seek_within asked within
    refine ⟨ok, congrArg some after.position, after, ⟨settings.trans raw.settings, ?_⟩, same, ?_⟩
    · rw [raw.seek]
      rfl
    rw [raw.seek]
    obtain ⟨offset', whence', sink, -⟩ := Stream.sink_eq (s := s) Memory.ops.toOps offset whence
    rw [sink]
    exact s.abstract.readonly_seek offset' whence'
  | file s =>
    obtain ⟨at_, settings, rfl, rfl⟩ := holds
    obtain ⟨ok, after, same, settings'⟩ := at_.seek_within asked within
    exact ⟨ok, congrArg some after.position, after, settings'.trans settings, same, rfl⟩

theorem defChunkSize_pos : 0 < defChunkSize := by norm_num [defChunkSize]

theorem defChunkSize_lt : defChunkSize < 2 ^ 31 := by norm_num [defChunkSize]

theorem Inner.Holds.write (holds : inner.Holds false pos data) (bytes : Bytes) :
    (inner.write bytes).1 = bytes.length ∧
      (inner.write bytes).2.Holds false (pos + bytes.length) (splice 0 data pos bytes) := by
  cases inner with
  | memory s =>
    obtain ⟨at_, raw, rfl, writable⟩ := holds
    have small : s.settings.chunkSize < 2 ^ 31 := by rw [raw.settings]; exact defChunkSize_lt
    -- each piece is taken, and the stream stays writable
    obtain ⟨count, stays, same⟩ := @writeLoop_of_complete Memory Memory.ops.toOps
      (fun ms _ _ => ms.readonly = false) s 0 []
      (by
        intro ms _ _ piece writable _ _
        have taken : Memory.ops.write ms piece = _ := if_neg (by rw [writable]; nofun)
        rw [taken]
        exact ⟨rfl, writable⟩)
      at_.chunk small writable bytes
    obtain ⟨-, after, written, settings, -⟩ := at_.write small bytes
    have loop := raw.write Memory.ops.toOps bytes
    rw [loop] at after written settings
    rw [count] at after written
    rw [take_length] at written
    have eq : (Inner.memory s).write bytes = Prod.map id .memory
      (s.writeLoop Memory.ops.toOps bytes) :=
      congrArg (Prod.map id Inner.memory) loop
    rw [eq]
    refine ⟨count, after, ⟨settings.trans raw.settings, ?_⟩, written, stays⟩
    rw [same]
    exact raw.level
  | file s =>
    obtain ⟨at_, settings, rfl, -⟩ := holds
    have small : s.settings.chunkSize < 2 ^ 31 := by rw [settings]; exact defChunkSize_lt
    have count : (s.write File.ops.toOps bytes).1 = bytes.length :=
      write_eq_length (fun _ _ => rfl) at_.chunk small bytes
    obtain ⟨-, after, written, settings', -⟩ := at_.write small bytes
    rw [count] at after written
    rw [take_length] at written
    exact ⟨count, after, settings'.trans settings, written, rfl⟩

theorem Inner.Holds.write_readonly {s : Stream Memory}
    (holds : (Inner.memory s).Holds true pos data) (bytes : Bytes) :
    s.write Memory.ops.toOps bytes = (0, s) := by
  obtain ⟨-, raw, -, readonly⟩ := holds
  have refused : ∀ piece, Memory.ops.write s.abstract piece = (0, s.abstract) :=
    fun piece => if_pos readonly
  rw [raw.write, Stream.writeLoop]
  split
  · rfl
  · rw [refused]
    exact if_neg (by simp)

/-! ### The switch to a file -/

/-- The write of so many bytes switches to a file. -/
def Temp.Spills (ts : Temp) (count : Nat) : Prop :=
  ∃ s, ts.inner = .memory s ∧ ts.smax ≤ s.abstract.data.length + count

theorem Temp.innerFor_of_spills {ts : Temp} (holds : ts.inner.Holds readonly pos data) {count : Nat}
    (spills : ts.Spills count) :
    (ts.innerFor count).Holds false data.length data ∧ ∃ s, ts.innerFor count = .file s := by
  obtain ⟨s, inner, full⟩ := spills
  rw [inner] at holds
  obtain ⟨-, -, rfl, -⟩ := holds
  have created : (Inner.file ts.fopenTemporaryFile).Holds false 0 [] :=
    ⟨⟨⟨le_rfl, le_rfl, defChunkSize_pos, rfl, rfl, nofun⟩, rfl⟩, rfl, rfl, rfl⟩
  obtain ⟨-, copied⟩ := created.write s.abstract.data
  rw [nil_splice, Nat.zero_add] at copied
  have eq : ts.innerFor count = .file (ts.fopenTemporaryFile.write File.ops.toOps
      s.abstract.data).2 := by
    unfold Temp.innerFor
    rw [inner]
    exact if_pos full
  rw [eq]
  exact ⟨copied, _, rfl⟩

theorem Temp.innerFor_of_not_spills {ts : Temp} {count : Nat} (stays : ¬ts.Spills count) :
    ts.innerFor count = ts.inner := by
  unfold Temp.innerFor
  cases inner : ts.inner with
  | memory s => exact if_neg fun full => stays ⟨s, inner, full⟩
  | file s => rfl

theorem temp_writeLoop_file {t : Stream Temp} (raw : Raw t)
    (holds : t.abstract.inner.Holds false pos data) (file : ∃ s, t.abstract.inner = .file s)
    (bytes : Bytes) : (t.writeLoop Temp.ops bytes).1 = bytes.length ∧
      (t.writeLoop Temp.ops bytes).2.abstract.inner.Holds false (pos + bytes.length)
        (splice 0 data pos bytes) ∧
      (t.writeLoop Temp.ops bytes).2 =
        { t with abstract := (t.writeLoop Temp.ops bytes).2.abstract,
                 position := t.position + bytes.length } := by
  have chunk : t.settings.chunkSize = defChunkSize := by rw [raw.settings]; rfl
  have pieces := @writeLoop_of_complete Temp Temp.ops
    (fun ts pos data => ts.inner.Holds false pos data ∧ ∃ s, ts.inner = .file s) t pos data
    (by
      rintro ts pos data piece ⟨holds, s, inner⟩ - -
      have stays : ¬ts.Spills piece.length := by
        rintro ⟨_, memory, -⟩
        rw [inner] at memory
        cases memory
      obtain ⟨count, after⟩ := holds.write piece
      have wrote : Temp.ops.write ts piece = ((ts.inner.write piece).1,
          { ts with inner := (ts.inner.write piece).2 }) := by
        change Temp.write ts piece = _
        unfold Temp.write
        rw [ts.innerFor_of_not_spills stays]
      rw [wrote]
      refine ⟨count, after, ?_⟩
      rw [inner]
      exact ⟨_, rfl⟩)
    (by rw [chunk]; exact defChunkSize_pos) (by rw [chunk]; exact defChunkSize_lt)
      ⟨holds, file⟩ bytes
  exact ⟨pieces.1, pieces.2.1.1, pieces.2.2⟩

/-- No piece of a write makes the switch while bytes are behind the position. The pieces are as big
as a chunk. -/
def SpillsAtEnd (smax length pos count : Nat) : Prop :=
  ∀ i, i * defChunkSize < count →
    smax ≤ max length (pos + i * defChunkSize) + min defChunkSize (count - i * defChunkSize) →
      length ≤ pos + i * defChunkSize

theorem spillsAtEnd_zero (smax length pos : Nat) : SpillsAtEnd smax length pos 0 :=
  fun _ none => absurd none (Nat.not_lt_zero _)

private theorem spillsAtEnd_append {smax length pos : Nat} {piece rest : Bytes} (some : piece ≠ [])
    (first : (piece ++ rest).take defChunkSize = piece) :
    SpillsAtEnd smax length pos (piece ++ rest).length ↔
      (smax ≤ max length pos + piece.length → length ≤ pos) ∧
        SpillsAtEnd smax (max length (pos + piece.length)) (pos + piece.length) rest.length := by
  unfold SpillsAtEnd
  have positive : 0 < piece.length := length_pos_iff.mpr some
  have count := congrArg List.length first
  rw [length_take] at count
  rw [length_append] at count ⊢
  generalize defChunkSize = chunk at count ⊢
  constructor
  · intro all
    constructor
    · intro full
      have first := all 0
      omega
    intro i more full
    have next := all (i + 1)
    rw [Nat.succ_mul] at next
    omega
  · rintro ⟨first, others⟩ i more full
    cases i with
    | zero =>
      omega
    | succ i =>
      omega

/-- The pieces of a write to a temp stream that is in memory: all are taken; they are where they
belong if no switch came too early, and otherwise the data is too long. -/
theorem temp_writeLoop_memory {t : Stream Temp} {s : Stream Memory} (raw : Raw t)
    (inner : t.abstract.inner = .memory s) (holds : t.abstract.inner.Holds false pos data)
    (bytes : Bytes) : (t.writeLoop Temp.ops bytes).1 = bytes.length ∧
      (t.writeLoop Temp.ops bytes).2 =
        { t with abstract := (t.writeLoop Temp.ops bytes).2.abstract,
                 position := t.position + bytes.length } ∧
      (SpillsAtEnd t.abstract.smax data.length pos bytes.length →
        (t.writeLoop Temp.ops bytes).2.abstract.inner.Holds false (pos + bytes.length)
          (splice 0 data pos bytes)) ∧
      (¬SpillsAtEnd t.abstract.smax data.length pos bytes.length →
        max data.length (pos + bytes.length) <
          (t.writeLoop Temp.ops bytes).2.abstract.inner.data.length) := by
  -- as long as there is no switch, the stream is in memory for the next piece too
  induction bytes using pieces_induction defChunkSize_pos generalizing t s pos data with
  | nil =>
    rw [Stream.writeLoop, if_pos rfl]
    refine ⟨rfl, ?_, fun _ => holds, fun early => absurd (spillsAtEnd_zero _ _ _) early⟩
    rw [length_nil, Int.natCast_zero, Int.add_zero]
  | append piece rest some first ih =>
    have chunk : t.settings.chunkSize = defChunkSize := by rw [raw.settings]; rfl
    have small : t.settings.chunkSize < 2 ^ 31 := by rw [chunk]; exact defChunkSize_lt
    have within : pos ≤ data.length := by
      rw [inner] at holds
      obtain rfl := holds.fpos_eq
      obtain ⟨-, -, rfl, -⟩ := holds
      exact s.abstract.fpos_le
    have size : ∀ s', t.abstract.inner = .memory s' → s'.abstract.data = data := by
      intro s' eq
      rw [eq] at holds
      exact holds.2.2.1
    have positions : t.position + (piece.length : Int) + (rest.length : Int) = t.position +
        ((piece.length + rest.length : Nat) : Int) := by
      omega
    rw [spillsAtEnd_append some first, length_append]
    by_cases spills : t.abstract.Spills piece.length
    · -- the piece and all others are appended to the file
      obtain ⟨copied, f, file⟩ := Temp.innerFor_of_spills holds spills
      obtain ⟨count, after⟩ := copied.write piece
      obtain ⟨all, final, same⟩ := @temp_writeLoop_file _ _
        { t with abstract := (Temp.ops.write t.abstract piece).2,
                 position := t.position + piece.length }
        ⟨raw.settings, raw.level⟩ after
          (by change ∃ s, (Inner.write _ _).2 = .file s; rw [file]; exact ⟨_, rfl⟩) rest
      rw [writeLoop_of_taken some (by rwa [chunk]) small count]
      rw [splice_splice, Nat.add_assoc] at final
      rw [positions] at same
      refine ⟨congrArg (piece.length + ·) all, same, ?_, ?_⟩
      · rintro ⟨behind, -⟩
        obtain ⟨s', memory, full⟩ := spills
        rw [size s' memory] at full
        obtain rfl : pos = data.length := le_antisymm within (behind (by omega))
        exact final
      · intro early
        have before : ¬data.length ≤ pos := fun le =>
          early ⟨fun _ => le, fun _ _ _ =>
            (Nat.max_le.mpr ⟨le.trans (Nat.le_add_right _ _), le_rfl⟩).trans (Nat.le_add_right _ _)⟩
        have contents := final.data_eq
        have positive : 0 < piece.length := length_pos_iff.mpr some
        have length := length_splice 0 data data.length (append_ne_nil_of_left_ne_nil some rest)
        rw [length_append] at length
        change _ < (Stream.writeLoop Temp.ops _ rest).2.abstract.inner.data.length
        rw [contents, length]
        omega
    · -- the piece stays in memory
      have stays := t.abstract.innerFor_of_not_spills spills
      obtain ⟨count, after⟩ := holds.write piece
      rw [← stays] at count after
      obtain ⟨all, same, atEnd, early⟩ := @ih _ _
        { t with abstract := (Temp.ops.write t.abstract piece).2,
                 position := t.position + piece.length }
        (s.write Memory.ops.toOps piece).2 ⟨raw.settings, raw.level⟩ (by
          change ((t.abstract.innerFor piece.length).write piece).2 = _
          rw [stays, inner]
          rfl) after
      rw [writeLoop_of_taken some (by rwa [chunk]) small count]
      rw [splice_splice, Nat.add_assoc] at atEnd
      rw [length_splice 0 data pos some] at atEnd early
      rw [positions] at same
      have room : ¬t.abstract.smax ≤ max data.length pos + piece.length := by
        rw [Nat.max_eq_left within]
        intro full
        refine spills ⟨s, inner, ?_⟩
        rwa [size s inner]
      refine ⟨congrArg (piece.length + ·) all, same, fun ok => atEnd ok.2, fun bad => ?_⟩
      have longer := early fun ok => bad ⟨fun full => absurd full room, ok⟩
      refine lt_of_le_of_lt ?_ longer
      omega

end

/-! ### Runs -/

/-- The two streams hold the same at the same offset. -/
structure Mirrors (t : Stream Temp) (m : Stream Memory) (readonly : Bool) (pos : Nat)
    (data : Bytes) : Prop where
  raw : Raw t
  position : t.position = pos
  inner : t.abstract.inner.Holds readonly pos data
  memory : (Inner.memory m).Holds readonly pos data

/-- A write that goes unnoticed: what it switches, if it does, was writable and used up. -/
def Temp.Unnoticed (ts : Temp) (count : Nat) : Prop :=
  ∀ s, ts.inner = .memory s →
    (s.abstract.readonly = true → 0 < count → s.abstract.data.length +
      min defChunkSize count < ts.smax) ∧
      (s.abstract.readonly = false → SpillsAtEnd ts.smax s.abstract.data.length
        s.abstract.fpos count)

/-- After each operation of the run both streams have returned the same, and hold the same. -/
def Agree (t : Stream Temp) (m : Stream Memory) : List Op → Prop
  | [] => t.abstract.inner.data = m.abstract.data
  | op :: rest =>
    t.abstract.inner.data = m.abstract.data ∧ (step Temp.ops t op).1 =
      (step Memory.ops.toOps m op).1 ∧
      Agree (step Temp.ops t op).2 (step Memory.ops.toOps m op).2 rest

/-- Every write of the run goes unnoticed. -/
def WritesUnnoticed (t : Stream Temp) : List Op → Prop
  | [] => True
  | op :: rest =>
    (∀ bytes, op = .write bytes → t.abstract.Unnoticed bytes.length) ∧
      WritesUnnoticed (step Temp.ops t op).2 rest

theorem Agree.data_eq {t : Stream Temp} {m : Stream Memory} {ops : List Op}
    (agree : Agree t m ops) :
    t.abstract.inner.data = m.abstract.data := by
  cases ops with
  | nil => exact agree
  | cons op rest => exact agree.1

section

variable {t : Stream Temp} {m : Stream Memory} {readonly : Bool} {pos : Nat} {data : Bytes}

theorem Mirrors.read (mirrors : Mirrors t m readonly pos data) (n : Nat) :
    (t.read Temp.ops n).1 = (m.read Memory.ops.toOps n).1 ∧
      Mirrors (t.read Temp.ops n).2 (m.read Memory.ops.toOps n).2 readonly
        (pos + (slice data pos n).length) data := by
  obtain ⟨bytes, after⟩ := mirrors.memory.read n
  by_cases zero : n = 0
  · subst zero
    rw [Stream.read_zero]
    exact ⟨bytes.symm, mirrors.raw, mirrors.position, mirrors.inner, after⟩
  obtain ⟨innerBytes, innerAfter⟩ := mirrors.inner.read n
  have got : (Temp.ops.read t.abstract t.eof n).1 = slice data pos n := innerBytes
  rw [mirrors.raw.read Temp.ops zero]
  refine ⟨got.trans bytes.symm, ⟨mirrors.raw.settings, mirrors.raw.level⟩, ?_, innerAfter, after⟩
  rw [got, mirrors.position]
  rfl

theorem Mirrors.seek (mirrors : Mirrors t m readonly pos data) {offset : Int} {whence : Whence}
    (ok : (m.seek Memory.ops.toOps offset whence).1 = true) :
    (t.seek Temp.ops offset whence).1 = true ∧
      ∃ target, Mirrors (t.seek Temp.ops offset whence).2 (m.seek Memory.ops.toOps offset whence).2
        readonly target data := by
  obtain ⟨at_, raw, rfl, rfl⟩ := mirrors.memory
  obtain ⟨target, asked, after, same, -⟩ := at_.seek ok
  have rawAfter : Raw (m.seek Memory.ops.toOps offset whence).2 := by
    rw [raw.seek]
    refine ⟨?_, rfl⟩
    obtain ⟨offset', whence', sink, -⟩ := Stream.sink_eq (s := m) Memory.ops.toOps offset whence
    rw [sink]
    exact raw.settings
  -- the memory stream cannot be behind its data
  have within : target ≤ m.abstract.data.length := by
    have cursor : (m.seek Memory.ops.toOps offset whence).2.abstract.fpos = _ := after.cursor
    rw [rawAfter.avail] at cursor
    have fits := (m.seek Memory.ops.toOps offset whence).2.abstract.fpos_le
    rw [cursor, show (m.seek Memory.ops.toOps offset whence).2.abstract.data = _ from same] at fits
    exact fits
  have memory := mirrors.memory.seek asked within
  obtain ⟨offset', whence', sink, -, target_eq⟩ := Stream.sink_eq (s := t) Temp.ops offset whence
  have inner := mirrors.inner.seek ((target_eq _ pos pos mirrors.position).trans asked) within
  rw [mirrors.raw.seek Temp.ops, sink]
  refine ⟨inner.1, target, ⟨mirrors.raw.settings, rfl⟩, ?_, inner.2.2, memory.2.2⟩
  change Option.getD (t.abstract.inner.seek offset' whence').1.newoffset _ = _
  rw [inner.2.1]
  rfl

/-- A write to a writable stream: the counts agree, and the contents if and only if it goes
unnoticed. -/
theorem Mirrors.write (mirrors : Mirrors t m false pos data) (bytes : Bytes) :
    (t.write Temp.ops bytes).1 = (m.write Memory.ops.toOps bytes).1 ∧
      (t.abstract.Unnoticed bytes.length →
        Mirrors (t.write Temp.ops bytes).2 (m.write Memory.ops.toOps bytes).2 false
          (pos + bytes.length) (splice 0 data pos bytes)) ∧
      (¬t.abstract.Unnoticed bytes.length →
        (t.write Temp.ops bytes).2.abstract.inner.data ≠
          (m.write Memory.ops.toOps bytes).2.abstract.data) := by
  obtain ⟨count, after⟩ := mirrors.memory.write bytes
  have contents : (m.write Memory.ops.toOps bytes).2.abstract.data = splice 0 data pos bytes :=
    after.data_eq
  rw [mirrors.raw.write Temp.ops]
  have position : (t.position + (bytes.length : Int)) = ((pos + bytes.length : Nat) : Int) := by
    rw [mirrors.position]
    rfl
  cases inner : t.abstract.inner with
  | file s =>
    obtain ⟨all, final, same⟩ := temp_writeLoop_file mirrors.raw mirrors.inner ⟨s, inner⟩ bytes
    refine ⟨all.trans count.symm, fun _ => ⟨?_, ?_, final, after⟩, fun noticed =>
      absurd (fun s' memory => ?_) noticed⟩
    · rw [same]
      exact ⟨mirrors.raw.settings, mirrors.raw.level⟩
    · rw [same]
      exact position
    · rw [inner] at memory
      cases memory
  | memory s =>
    obtain ⟨all, same, atEnd, early⟩ := temp_writeLoop_memory mirrors.raw inner mirrors.inner bytes
    have holds := mirrors.inner
    rw [inner] at holds
    have cursor := holds.fpos_eq
    obtain ⟨at_, raw, rfl, writable⟩ := holds
    have unnoticed_iff : t.abstract.Unnoticed bytes.length ↔
        SpillsAtEnd t.abstract.smax s.abstract.data.length pos bytes.length := by
      rw [← cursor]
      constructor
      · intro unnoticed
        exact (unnoticed s inner).2 writable
      · intro ok s' memory
        obtain rfl : s = s' := Inner.memory.inj (inner.symm.trans memory)
        exact ⟨fun readonly => absurd (readonly.symm.trans writable) nofun, fun _ => ok⟩
    refine ⟨all.trans count.symm, ?_, ?_⟩
    · intro unnoticed
      refine ⟨?_, ?_, atEnd (unnoticed_iff.mp unnoticed), after⟩
      · rw [same]
        exact ⟨mirrors.raw.settings, mirrors.raw.level⟩
      · rw [same]
        exact position
    intro noticed same
    have longer := early fun ok => noticed (unnoticed_iff.mpr ok)
    have bound := length_splice_le 0 s.abstract.data pos bytes
    rw [same, contents] at longer
    omega

/-- A write to a read-only stream: nothing, unless the switch makes it writable. -/
theorem Mirrors.write_readonly (mirrors : Mirrors t m true pos data) (bytes : Bytes) :
    (t.abstract.Unnoticed bytes.length →
        (t.write Temp.ops bytes).1 = (m.write Memory.ops.toOps bytes).1 ∧
          Mirrors (t.write Temp.ops bytes).2 (m.write Memory.ops.toOps bytes).2 true pos data) ∧
      (¬t.abstract.Unnoticed bytes.length → (t.write Temp.ops bytes).1 ≠
        (m.write Memory.ops.toOps bytes).1) := by
  cases inner : t.abstract.inner with
  | file s =>
    have holds := mirrors.inner
    rw [inner] at holds
    cases holds.2.2.2
  | memory s =>
    have holds := mirrors.inner
    rw [inner] at holds
    rw [mirrors.memory.write_readonly, mirrors.raw.write Temp.ops]
    have chunk : t.settings.chunkSize = defChunkSize := by rw [mirrors.raw.settings]; rfl
    cases bytes using pieces_induction defChunkSize_pos with
    | nil =>
      rw [Stream.writeLoop, if_pos rfl]
      refine ⟨fun _ => ⟨rfl, mirrors⟩, fun noticed => absurd ?_ noticed⟩
      exact fun _ _ => ⟨fun _ some => absurd some (Nat.lt_irrefl 0), fun _ =>
        spillsAtEnd_zero _ _ _⟩
    | append piece rest some first =>
      have positive : 0 < piece.length := length_pos_iff.mpr some
      have length := congrArg List.length first
      rw [length_take] at length
      have count : 0 < (piece ++ rest).length := by
        omega
      by_cases spills : t.abstract.Spills piece.length
      · obtain ⟨copied, -⟩ := Temp.innerFor_of_spills mirrors.inner spills
        rw [writeLoop_of_taken some (by rwa [chunk]) (by rw [chunk]; exact defChunkSize_lt)
          (copied.write piece).1]
        constructor
        · intro unnoticed
          obtain ⟨s', memory, full⟩ := spills
          obtain rfl : s = s' := Inner.memory.inj (inner.symm.trans memory)
          have below := (unnoticed s memory).1 holds.2.2.2 count
          omega
        · intro _ zero
          change piece.length + _ = 0 at zero
          omega
      · have refused : Temp.ops.write t.abstract piece = (0, t.abstract) := by
          change Temp.write _ _ = _
          have written : t.abstract.inner.write piece = (0, t.abstract.inner) := by
            rw [inner]
            exact congrArg (Prod.map id Inner.memory) (holds.write_readonly _)
          unfold Temp.write
          rw [t.abstract.innerFor_of_not_spills spills, written]
        have stopped : t.writeLoop Temp.ops (piece ++ rest) = (0, t) := by
          rw [Stream.writeLoop, if_neg (append_ne_nil_of_left_ne_nil some rest), chunk,
            first, refused]
          exact if_neg (by simp)
        rw [stopped]
        refine ⟨fun _ => ⟨rfl, mirrors⟩, fun noticed => absurd ?_ noticed⟩
        intro s' memory
        obtain rfl : s = s' := Inner.memory.inj (inner.symm.trans memory)
        refine ⟨fun _ _ => ?_, fun writable => absurd (holds.2.2.2.symm.trans writable) (by decide)⟩
        by_contra full
        exact spills ⟨s, inner, by omega⟩

/-- One operation, other than a line: if it is a write, it is noticed or not; all others are
unnoticed. -/
theorem Mirrors.step (mirrors : Mirrors t m readonly pos data) (op : Op)
    (noLine : ∀ limit, op ≠ .getLine limit)
    (succeeds : (Streams.step Memory.ops.toOps m op).1 ≠ .sought false) :
    ((∀ bytes, op = .write bytes → t.abstract.Unnoticed bytes.length) →
        (Streams.step Temp.ops t op).1 = (Streams.step Memory.ops.toOps m op).1 ∧
          ∃ pos' data', Mirrors (Streams.step Temp.ops t op).2
            (Streams.step Memory.ops.toOps m op).2 readonly pos' data') ∧
      (¬(∀ bytes, op = .write bytes → t.abstract.Unnoticed bytes.length) →
        (Streams.step Temp.ops t op).1 ≠ (Streams.step Memory.ops.toOps m op).1 ∨
          (Streams.step Temp.ops t op).2.abstract.inner.data ≠
            (Streams.step Memory.ops.toOps m op).2.abstract.data) := by
  cases op with
  | read n =>
    obtain ⟨bytes, after⟩ := mirrors.read n
    exact ⟨fun _ => ⟨congrArg Out.bytes bytes, _, _, after⟩, fun noticed => absurd nofun noticed⟩
  | getLine limit => exact absurd rfl (noLine limit)
  | seek offset whence =>
    have ok : (m.seek Memory.ops.toOps offset whence).1 = true := by
      cases result : (m.seek Memory.ops.toOps offset whence).1 with
      | true => rfl
      | false => exact absurd (congrArg Out.sought result) succeeds
    obtain ⟨okTemp, target, after⟩ := mirrors.seek ok
    exact ⟨fun _ => ⟨congrArg Out.sought (okTemp.trans ok.symm), _, _, after⟩, fun noticed =>
      absurd nofun noticed⟩
  | tell =>
    have position : t.tell = m.tell := mirrors.position.trans mirrors.memory.1.position.symm
    exact ⟨fun _ => ⟨congrArg Out.offset position, _, _, mirrors⟩, fun noticed =>
      absurd nofun noticed⟩
  | write bytes =>
    have only : (∀ bytes', Op.write bytes = .write bytes' → t.abstract.Unnoticed bytes'.length) ↔
        t.abstract.Unnoticed bytes.length := by
      constructor
      · intro all
        exact all bytes rfl
      · rintro unnoticed _ ⟨⟩
        exact unnoticed
    rw [only]
    cases readonly with
    | false =>
      obtain ⟨count, unnoticed, noticed⟩ := mirrors.write bytes
      exact ⟨fun ok => ⟨congrArg Out.count count, _, _, unnoticed ok⟩, fun bad =>
        .inr (noticed bad)⟩
    | true =>
      obtain ⟨unnoticed, noticed⟩ := mirrors.write_readonly bytes
      exact ⟨fun ok => ⟨congrArg Out.count (unnoticed ok).1, _, _, (unnoticed ok).2⟩,
        fun bad => .inl fun same => noticed bad (Out.count.inj same)⟩

theorem Mirrors.agree_iff (mirrors : Mirrors t m readonly pos data) (ops : List Op)
    (noLine : ∀ limit, .getLine limit ∉ ops)
    (succeed : .sought false ∉ (run Memory.ops.toOps m ops).1) :
    Agree t m ops ↔ WritesUnnoticed t ops := by
  induction ops generalizing t m pos data with
  | nil => exact iff_of_true (mirrors.inner.data_eq.trans mirrors.memory.data_eq.symm) trivial
  | cons op rest ih =>
    have succeeds : (Streams.step Memory.ops.toOps m op).1 ≠ .sought false :=
      fun failed => succeed (mem_cons.mpr (.inl failed.symm))
    obtain ⟨unnoticed, noticed⟩ := mirrors.step op
      (fun limit eq => noLine limit (eq ▸ mem_cons_self)) succeeds
    by_cases ok : ∀ bytes, op = .write bytes → t.abstract.Unnoticed bytes.length
    · obtain ⟨same, pos', data', after⟩ := unnoticed ok
      have rest_iff := ih after (fun limit mem => noLine limit (mem_cons_of_mem _ mem))
        fun failed => succeed (mem_cons.mpr (.inr failed))
      constructor
      · rintro ⟨-, -, others⟩
        exact ⟨ok, rest_iff.mp others⟩
      · rintro ⟨-, others⟩
        exact ⟨mirrors.inner.data_eq.trans mirrors.memory.data_eq.symm, same, rest_iff.mpr others⟩
    · -- from here on they differ
      constructor
      · rintro ⟨-, same, others⟩
        rcases noticed ok with differ | differ
        · exact absurd same differ
        · exact absurd others.data_eq differ
      · rintro ⟨all, -⟩
        exact absurd all ok

end

theorem mirrors_create (ending : LineEnding) (readonly : Bool) (smax : Nat) (reads : Nat → Nat)
    (refuses : Nat → Bool) : Mirrors (tempCreate ending readonly smax reads refuses)
      (memoryCreate ending readonly) readonly 0 [] := by
  have created : (Inner.memory (memoryCreate ending readonly)).Holds readonly 0 [] :=
    ⟨⟨⟨le_rfl, le_rfl, defChunkSize_pos, rfl, rfl, nofun⟩, rfl⟩, ⟨rfl, rfl⟩, rfl, rfl⟩
  exact ⟨⟨rfl, rfl⟩, rfl, created, created⟩

/-- A temp stream returns and holds what a memory stream does, after every operation of a run, if
and only if each of its writes that switches to a file finds the position at the end of the data,
and the stream writable. -/
theorem temp_agrees_iff (ending : LineEnding) (readonly : Bool) (smax : Nat) (reads : Nat → Nat)
    (refuses : Nat → Bool) (ops : List Op) (noLine : ∀ limit, .getLine limit ∉ ops)
    (succeed : .sought false ∉ (run Memory.ops.toOps (memoryCreate ending readonly) ops).1) :
    Agree (tempCreate ending readonly smax reads refuses) (memoryCreate ending readonly) ops ↔
      WritesUnnoticed (tempCreate ending readonly smax reads refuses) ops :=
  (mirrors_create ending readonly smax reads refuses).agree_iff ops noLine succeed

/-- The second write makes the switch, at the end of the data. -/
theorem temp_agrees_iff_switch :
    Agree (tempCreate .lf false 2 (fun _ => 1) fun _ => false) (memoryCreate .lf false)
      [.write [97], .write [98], .tell] := by
  refine (temp_agrees_iff .lf false 2 (fun _ => 1) (fun _ => false)
    [.write [97], .write [98], .tell] (by simp) (failed_notMem_run _ _ _ (by simp))).mpr
    ⟨?first, ?second, nofun, trivial⟩
  case first =>
    rintro bytes ⟨⟩ s ⟨⟩
    exact ⟨nofun, fun _ i _ _ => Nat.zero_le _⟩
  case second =>
    rintro bytes ⟨⟩ s memory
    have written := (mirrors_create .lf false 2 (fun _ => 1) fun _ => false).write [97]
    have holds := (written.2.1 (by rintro s ⟨⟩; exact ⟨nofun, fun _ i _ _ => Nat.zero_le _⟩)).inner
    have holds : (Inner.memory s).Holds false 1 [97] := memory ▸ holds
    have cursor := holds.fpos_eq
    obtain ⟨-, -, data, writable⟩ := holds
    rw [cursor, data, writable]
    exact ⟨nofun, fun _ i _ _ => Nat.le_add_right 1 _⟩

/-- Two bytes in memory, and a third one over the first: the switch to a file puts it behind
them. -/
theorem switch_forgets_position : (run Temp.ops (tempCreate .lf false 3 (fun _ => 1) fun _ => false)
        [.write [97, 98], .seek 0 .set, .write [99]]).2.abstract.inner.data = [97, 98, 99] ∧
      (run Memory.ops.toOps (memoryCreate .lf false)
        [.write [97, 98], .seek 0 .set, .write [99]]).2.abstract.data = [99, 98] := by
  decide +kernel

end Jonj.Streams
