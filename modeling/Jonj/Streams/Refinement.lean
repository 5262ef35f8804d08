import Jonj.Streams.Synced

/-!
# A buffered stream and the array under it

The same operations on the array directly, and that a stream over a plain file does nothing else.
-/
namespace Jonj.Streams

open Splice List

/-- One operation on an array of bytes with a position. How much a read returns is left open where
the stream leaves it open. -/
inductive Direct (greedy : Bool) (eol : UInt8) : Bytes × Nat → Op → Out → Bytes × Nat → Prop
  | read {data pos size bytes} : Delivers greedy data pos size bytes →
      Direct greedy eol (data, pos) (.read size) (.bytes bytes) (data, pos + bytes.length)
  | write {data pos bytes} :
      Direct greedy eol (data, pos) (.write bytes) (.count bytes.length)
        (splice 0 data pos bytes, pos + bytes.length)
  | line {data pos limit} : lineAt eol data pos limit ≠ [] →
      Direct greedy eol (data, pos) (.getLine limit) (.line (some (lineAt eol data pos limit)))
        (data, pos + (lineAt eol data pos limit).length)
  | noLine {data pos limit} : lineAt eol data pos limit = [] →
      Direct greedy eol (data, pos) (.getLine limit) (.line none) (data, pos)
  | seek {data pos offset whence} {target : Nat} : seekTarget data.length pos offset whence =
    some (target : Int) →
      Direct greedy eol (data, pos) (.seek offset whence) (.sought true) (data, target)
  | tell {data} {pos : Nat} : Direct greedy eol (data, pos) .tell (.offset pos) (data, pos)

inductive DirectRun (greedy : Bool) (eol : UInt8) :
    Bytes × Nat → List Op → List Out → Bytes × Nat → Prop
  | nil {a} : DirectRun greedy eol a [] [] a
  | cons {a b c op out ops outs} : Direct greedy eol a op out b →
    DirectRun greedy eol b ops outs c →
      DirectRun greedy eol a (op :: ops) (out :: outs) c

section

variable {F : Type} {dev : ByteFile F}

section

variable (complete : ∀ f bytes, (dev.write f bytes).1 = bytes.length) {s : Stream F} {pos : Nat}
    (at_ : At dev s pos) (small : s.settings.chunkSize < 2 ^ 31) (known : s.ending ≠ .detect)

include complete at_ small known

/-- One operation keeps the stream where the array says. -/
theorem At.step (op : Op) (succeeds : (step dev.toOps s op).1 ≠ .sought false) :
    ∃ pos', Direct s.settings.plainWrapper s.ending.byte (dev.data s.abstract, pos) op
      (step dev.toOps s op).1
        (dev.data (step dev.toOps s op).2.abstract, pos') ∧
      At dev (step dev.toOps s op).2 pos' ∧ (step dev.toOps s op).2.settings = s.settings ∧
      (step dev.toOps s op).2.ending = s.ending := by
  cases op with
  | read size =>
    obtain ⟨delivers, after, data, same⟩ := at_.read size
    refine ⟨_, ?_, after, same⟩
    simp only [Streams.step, Prod.map, id_eq, data]
    exact .read delivers
  | write bytes =>
    obtain ⟨-, after, data, same⟩ := at_.write small bytes
    have all := write_eq_length (s := s) complete at_.chunk small bytes
    rw [all, take_length] at data
    refine ⟨_, ?_, after, same⟩
    simp only [Streams.step, Prod.map, id_eq, data, all]
    exact .write
  | getLine limit =>
    obtain ⟨line, after, ending⟩ := at_.getLine_eq known limit
    obtain ⟨-, data, settings⟩ := at_.getLine limit
    simp only [Streams.step, Prod.map, id_eq, data, line]
    by_cases nil : lineAt s.ending.byte (dev.data s.abstract) pos limit = []
    · rw [nil] at after
      rw [if_pos nil]
      exact ⟨_, .noLine nil, after, settings, ending⟩
    · rw [if_neg nil]
      exact ⟨_, .line nil, after, settings, ending⟩
  | seek offset whence =>
    have ok : (s.seek dev.toOps offset whence).1 = true := by
      cases result : (s.seek dev.toOps offset whence).1 with
      | true => rfl
      | false => exact absurd (congrArg Out.sought result) succeeds
    obtain ⟨target, target_eq, after, data, same⟩ := at_.seek ok
    refine ⟨target, ?_, after, same⟩
    simp only [Streams.step, Prod.map, id_eq, data, ok]
    exact .seek target_eq
  | tell =>
    refine ⟨pos, ?_, at_, rfl, rfl⟩
    simp only [Streams.step, Stream.tell, at_.position]
    exact .tell

theorem At.run (ops : List Op) (succeed : .sought false ∉ (run dev.toOps s ops).1) :
    ∃ pos', DirectRun s.settings.plainWrapper s.ending.byte (dev.data s.abstract, pos) ops
      (run dev.toOps s ops).1
        (dev.data (run dev.toOps s ops).2.abstract, pos') ∧
          At dev (run dev.toOps s ops).2 pos' := by
  induction ops generalizing s pos with
  | nil => exact ⟨pos, .nil, at_⟩
  | cons op rest ih =>
    obtain ⟨first, others⟩ := not_or.mp fun mem => succeed (mem_cons.mpr mem)
    obtain ⟨mid, direct, after, settings, ending⟩ := at_.step complete small known op fun failed =>
      first failed.symm
    obtain ⟨final, restRun, last⟩ := ih after (by rwa [settings]) (by rwa [ending]) others
    rw [settings, ending] at restRun
    exact ⟨final, .cons direct restRun, last⟩

end

end

theorem at_fopenFromFd {settings : Settings} (chunk : 0 < settings.chunkSize) (ending : LineEnding)
    (f : File) :
    At File.ops (fopenFromFd settings ending f) f.cursor :=
  ⟨⟨le_rfl, le_rfl, chunk, (slice_zero _ _).symm, rfl, nofun⟩, rfl⟩

/-- Whatever is done with a stream over a plain file, it returns and leaves behind what the same
operations on the array do, and the cursor is ahead of the position by what is in the buffer. -/
theorem stream_refines_array (settings : Settings) (chunk : 1 ≤ settings.chunkSize)
    (small : settings.chunkSize ≤ 2 ^ 31 - 1) (ending : LineEnding) (known : ending ≠ .detect)
    (f : File) (ops : List Op)
    (succeed : .sought false ∉ (run File.ops.toOps (fopenFromFd settings ending f) ops).1) :
    ∃ pos : Nat,
      DirectRun settings.plainWrapper ending.byte (f.data, f.cursor) ops
        (run File.ops.toOps (fopenFromFd settings ending f) ops).1
        ((run File.ops.toOps (fopenFromFd settings ending f) ops).2.abstract.data, pos) ∧
      (run File.ops.toOps (fopenFromFd settings ending f) ops).2.tell = pos ∧
      ((run File.ops.toOps (fopenFromFd settings ending f) ops).2.abstract.cursor : Int) =
        (run File.ops.toOps (fopenFromFd settings ending f) ops).2.position +
          ((run File.ops.toOps (fopenFromFd settings ending f) ops).2.writepos -
            (run File.ops.toOps (fopenFromFd settings ending f) ops).2.readpos) := by
  have opened := at_fopenFromFd chunk ending f
  obtain ⟨pos, direct, last⟩ := opened.run (fun _ _ => rfl)
    (show settings.chunkSize < 2 ^ 31 by omega) known ops succeed
  refine ⟨pos, direct, last.position, ?_⟩
  have order := last.order
  have cursor : (run File.ops.toOps (fopenFromFd settings ending f) ops).2.abstract.cursor =
    _ := last.cursor
  rw [cursor, last.position, Stream.avail]
  omega

def twoLines : File :=
  { data := [97, 10, 98, 10], cursor := 0, reads := fun _ => 1, calls := 0,
    refuses := fun _ => false }

/-- The settings of a stream that `fopen` returns. -/
def fopenSettings : Settings := { chunkSize := 8192, noBuffer := false, plainWrapper := true }

theorem stream_refines_array_twoLines : ∃ pos : Nat,
      DirectRun true 10 (twoLines.data, twoLines.cursor)
        [.seek 2 .set, .getLine none, .write [99], .tell]
        (run File.ops.toOps (fopenFromFd fopenSettings .lf twoLines)
          [.seek 2 .set, .getLine none, .write [99], .tell]).1
        ((run File.ops.toOps (fopenFromFd fopenSettings .lf twoLines)
          [.seek 2 .set, .getLine none, .write [99], .tell]).2.abstract.data, pos) := by
  have succeed : .sought false ∉
      (run File.ops.toOps (fopenFromFd fopenSettings .lf twoLines)
        [.seek 2 .set, .getLine none, .write [99], .tell]).1 := by
    intro failed
    rcases mem_cons.mp failed with first | later
    · cases first
    · exact failed_notMem_run _ _ _ (by simp) later
  obtain ⟨pos, direct, -⟩ := stream_refines_array fopenSettings (by norm_num [fopenSettings])
    (by norm_num [fopenSettings])
    .lf nofun twoLines _ succeed
  exact ⟨pos, direct⟩

section

/-- A stream over an empty file, with a chunk size that is no `int`. -/
def bigChunk : Stream File :=
  fopenFromFd { fopenSettings with chunkSize := 2 ^ 31 } .lf { twoLines with data := [] }

variable {bytes : Bytes}

/-- Everything is written, but the count is negative as an `int`. -/
theorem write_bigChunk (length : bytes.length = 2147483648) :
    bigChunk.write File.ops.toOps bytes =
      (0, { bigChunk with abstract := (bigChunk.abstract.write bytes).2 }) := by
  have some : bytes ≠ [] := ne_nil_of_length_pos (by omega)
  have whole : bytes.take bigChunk.settings.chunkSize = bytes :=
    take_of_length_le (by norm_num [length, bigChunk, fopenFromFd, streamAlloc])
  have negative : ¬0 < ((bigChunk.abstract.write bytes).1 : Int).bmod (2 ^ 32) := by
    change ¬0 < (bytes.length : Int).bmod (2 ^ 32)
    rw [length]
    decide
  have level : ¬bigChunk.readpos ≠ bigChunk.writepos := fun ne => ne rfl
  unfold Stream.write
  rw [if_neg some, if_neg level, Stream.writeLoop, if_neg some, whole]
  exact if_neg negative

private theorem directRun_write {greedy : Bool} {eol : UInt8} {out : Out} {a b : Bytes × Nat}
    (direct : DirectRun greedy eol a [.write bytes] [out] b) : out = .count bytes.length := by
  rcases direct with _ | ⟨direct, -⟩
  cases direct
  rfl

end

theorem getLine_of_fill {F : Type} (dev : Ops F) {s : Stream F} (empty : s.avail = 0)
    (go : s.eof = false)
    (some : 0 < (s.fillReadBuffer dev s.settings.chunkSize).avail)
    (done : ((s.fillReadBuffer dev s.settings.chunkSize).lineSize none).2 = true)
    {line : Bytes} (piece : ((s.fillReadBuffer dev s.settings.chunkSize).take
      ((s.fillReadBuffer dev s.settings.chunkSize).lineSize none).1).1 = line)
        (nonempty : line ≠ []) :
    (s.getLine dev none).1 = Option.some line := by
  have first : (s.getLineLoop dev none).1 = line := by
    rw [Stream.getLineLoop, if_neg (by omega), if_neg (by rw [go]; nofun)]
    change (if (s.fillReadBuffer dev s.settings.chunkSize).avail = 0 then _
      else (s.fillReadBuffer dev s.settings.chunkSize).getLineLoop dev none : Bytes ×
        Stream F).1 = line
    rw [if_neg some.ne', Stream.getLineLoop, if_pos some]
    rw [if_pos done]
    exact piece
  unfold Stream.getLine
  rw [if_neg nofun]
  dsimp only
  rw [first, if_neg nonempty]

/-- A line with a DOS line end, of which a read returns so much. -/
def dosLine (n : Nat) : Stream File :=
  fopenFromFd { fopenSettings with chunkSize := 8 } .detect
    { twoLines with data := [97, 13, 10], reads := fun _ => n }

/-- Nothing is reported of a chunk of `2 ^ 31` bytes that was written, and the position stays behind
the cursor. And where the end of lines is to be detected, the line depends on where the first read
stopped. -/
theorem chunk_written_unreported : (∃ bytes : Bytes, bytes.length = 2147483648 ∧
      (run File.ops.toOps bigChunk [.write bytes]).1 = [.count 0] ∧
        (run File.ops.toOps bigChunk [.write bytes]).2.tell = 0 ∧
      (run File.ops.toOps bigChunk [.write bytes]).2.abstract.cursor = 2147483648 ∧
      ¬∃ final, DirectRun true 10 ([], 0) [.write bytes]
        (run File.ops.toOps bigChunk [.write bytes]).1 final) ∧
    (run File.ops.toOps (dosLine 2) [.getLine none]).1 = [.line (some [97, 13])] ∧
    (run File.ops.toOps (dosLine 3) [.getLine none]).1 = [.line (some [97, 13, 10])] := by
  refine ⟨?_, ?_, ?_⟩
  rotate_left
  · have line : ((dosLine 2).getLine File.ops.toOps none).1 = some [97, 13] :=
      getLine_of_fill File.ops.toOps rfl rfl (by decide) (by decide) (by decide) nofun
    simp [run, step, line]
  · have line : ((dosLine 3).getLine File.ops.toOps none).1 = some [97, 13, 10] :=
      getLine_of_fill File.ops.toOps rfl rfl (by decide) (by decide) (by decide) nofun
    simp [run, step, line]
  obtain ⟨bytes, length⟩ : ∃ bytes : Bytes, bytes.length = 2147483648 :=
    ⟨_, length_replicate (a := 0)⟩
  refine ⟨bytes, length, ?_⟩
  simp only [run, step, write_bigChunk length, Prod.map, id_eq]
  refine ⟨trivial, rfl, (Nat.zero_add _).trans length, ?_⟩
  rintro ⟨final, direct⟩
  have counted := Out.count.inj (directRun_write direct)
  omega

end Jonj.Streams
