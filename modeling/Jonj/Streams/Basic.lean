import Jonj.Lib.CChar

/-!
# Streams

The functions of `streams.c` that read, write and seek a stream without filters. What the stream is
opened on is behind its `ops`.
-/
namespace Jonj.Streams

open List

inductive Whence
  | set
  | cur
  | end_
  /-- Any other number. -/
  | other
  deriving DecidableEq

/-- What `ops->seek` returns, and what it assigns to `*newoffset` and `stream->eof`. -/
structure SeekResult where
  ok : Bool
  newoffset : Option Int
  eof : Option Bool

/-- `jonj_stream_ops` -/
structure Ops (F : Type) where
  /-- The bytes read, and the new `stream->eof`. -/
  read : F → Bool → Nat → Bytes × Bool × F
  write : F → Bytes → Nat × F
  seek : F → Int → Whence → SeekResult × F
  /-- The number of bytes that can still be read. -/
  left : F → Nat
  read_left : ∀ f eof n, (read f eof n).1.length + left (read f eof n).2.2 ≤ left f

/-- What no operation on the stream changes. -/
structure Settings where
  chunkSize : Nat
  /-- `JONJ_STREAM_FLAG_NO_BUFFER` -/
  noBuffer : Bool
  /-- `wrapper == &jonj_plain_files_wrapper` -/
  plainWrapper : Bool
  deriving DecidableEq

/-- The flags that say where a line ends. -/
inductive LineEnding
  | lf
  /-- `JONJ_STREAM_FLAG_EOL_MAC` -/
  | cr
  /-- `JONJ_STREAM_FLAG_DETECT_EOL`: not known yet -/
  | detect
  deriving DecidableEq

/-- `jonj_stream` -/
structure Stream (F : Type) where
  abstract : F
  settings : Settings
  ending : LineEnding
  position : Int
  eof : Bool
  readbuf : Nat → UInt8
  readbuflen : Nat
  readpos : Nat
  writepos : Nat

def streamAlloc {F : Type} (settings : Settings) (ending : LineEnding) (f : F) : Stream F where
  abstract := f
  settings := settings
  ending := ending
  position := 0
  eof := false
  readbuf _ := 0
  readbuflen := 0
  readpos := 0
  writepos := 0

section readLoop

variable {X : Type} (take more : X → Nat → Bytes × X) (greedy : X → Bool)

/-- The loop of `_jonj_stream_read`: it takes what is in the buffer and, if that is not enough, gets
more. Unless the stream is greedy it does so once. -/
def readLoop (x : X) (size : Nat) : Bytes × X :=
  if size = 0 then ([], x)
  else
    let first := take x size
    if size - first.1.length = 0 then first
    else
      let next := more first.2 (size - first.1.length)
      if next.1 = [] ∨ greedy x = false then (first.1 ++ next.1, next.2)
      else
        let rest := readLoop next.2 (size - first.1.length - next.1.length)
        (first.1 ++ (next.1 ++ rest.1), rest.2)
termination_by size
decreasing_by
  rename_i stop
  have some : 0 < next.1.length := length_pos_iff.mpr fun none => stop (.inl none)
  exact show size - first.1.length - next.1.length < size by omega

variable {take more greedy}

/-- What holds with the bytes got so far keeps to hold, if taking from the buffer keeps it and so
does getting more when the buffer was not enough. -/
theorem readLoop_rule {Holds : Bytes → X → Prop}
    (takes : ∀ {got x} n, Holds got x → Holds (got ++ (take x n).1) (take x n).2)
    (fetches : ∀ {got x n} size, (take x n).1.length < n → Holds got (take x n).2 →
      Holds (got ++ (more (take x n).2 size).1) (more (take x n).2 size).2)
    (x : X) (size : Nat) {got : Bytes} (holds : Holds got x) :
    Holds (got ++ (readLoop take more greedy x size).1) (readLoop take more greedy x size).2 := by
  induction size using Nat.strong_induction_on generalizing x got with
  | _ size ih =>
    rw [readLoop]
    split
    next => simpa using holds
    next asked =>
    dsimp only
    have behind := takes size holds
    split
    next => exact behind
    next short =>
    have further := fetches (size - (take x size).1.length) (by omega) behind
    split
    next => rwa [← append_assoc]
    next go =>
    have some : 0 < (more (take x size).2 (size - (take x size).1.length)).1.length :=
      length_pos_iff.mpr fun none => go (.inl none)
    simpa only [append_assoc] using ih (size - (take x size).1.length - _) (by omega) _ further

end readLoop

namespace Stream

variable {F : Type}

def avail (s : Stream F) : Nat := s.writepos - s.readpos

def buffered (s : Stream F) : Bytes := (range s.avail).map fun i => s.readbuf (s.readpos + i)

/-! ### Reading -/

/-- The `memmove` of what is behind `readpos`. -/
def compact (s : Stream F) : Stream F :=
  { s with
    readbuf := fun i => if i < s.readbuflen - s.readpos then s.readbuf (s.readpos + i)
      else s.readbuf i
    writepos := s.writepos - s.readpos
    readpos := 0 }

/-- The `perealloc`. -/
def grow (s : Stream F) : Stream F := { s with readbuflen := s.readbuflen + s.settings.chunkSize }

/-- Room for a chunk, first by moving and then by growing. -/
def makeRoom (s : Stream F) : Stream F :=
  let s := if s.readbuflen - s.writepos < s.settings.chunkSize then s.compact else s
  if s.readbuflen - s.writepos < s.settings.chunkSize then s.grow else s

def receive (s : Stream F) (bytes : Bytes) (eof : Bool) (f : F) : Stream F :=
  { s with
    abstract := f
    eof := eof
    readbuf := fun i => if s.writepos ≤ i then (bytes[i - s.writepos]?).getD (s.readbuf i)
      else s.readbuf i
    writepos := s.writepos + bytes.length }

def fillReadBuffer (ops : Ops F) (s : Stream F) (size : Nat) : Stream F :=
  if s.avail < size then
    let s := s.makeRoom
    let got := ops.read s.abstract s.eof (s.readbuflen - s.writepos)
    s.receive got.1 got.2.1 got.2.2
  else s

/-- The `memcpy` from the buffer, with `readpos` moved behind it. -/
def take (s : Stream F) (n : Nat) : Bytes × Stream F :=
  (s.buffered.take n, { s with readpos := s.readpos + min n s.avail })

/-- What `_jonj_stream_read` gets when the buffer is drained: raw, or through the buffer. -/
def readMore (ops : Ops F) (s : Stream F) (size : Nat) : Bytes × Stream F :=
  if s.settings.noBuffer ∨ s.settings.chunkSize = 1 then
    let got := ops.read s.abstract s.eof size
    (got.1, { s with abstract := got.2.2, eof := got.2.1 })
  else (s.fillReadBuffer ops size).take size

/-- The loop of `_jonj_stream_read`, greedy for plain files only. -/
def readLoop (ops : Ops F) (s : Stream F) (size : Nat) : Bytes × Stream F :=
  Streams.readLoop take (readMore ops) (fun s => s.settings.plainWrapper) s size

/-- `_jonj_stream_read` -/
def read (ops : Ops F) (s : Stream F) (size : Nat) : Bytes × Stream F :=
  let got := s.readLoop ops size
  (got.1, { got.2 with position := s.position + got.1.length })

/-! ### Lines -/

def memchr (byte : UInt8) (bytes : Bytes) : Option Nat :=
  if byte ∈ bytes then some (bytes.idxOf byte) else none

/-- `jonj_stream_locate_eol` on the buffer: the end of the line, and the flags behind it. -/
def locateEol (s : Stream F) : Option Nat × LineEnding :=
  match s.ending with
  | .lf => (memchr 10 s.buffered, .lf)
  | .cr => (memchr 13 s.buffered, .cr)
  | .detect =>
    match memchr 13 s.buffered, memchr 10 s.buffered with
    | some cr, some lf => if lf = cr + 1 ∨ lf < cr then (some lf, .lf) else (some cr, .cr)
    | some cr, none => (some cr, .cr)
    | none, some lf => (some lf, .lf)
    | none, none => (none, .detect)

/-- How much of the buffer is copied, and whether that ends the line. The limit is there if the
caller gave a buffer. -/
def lineSize (s : Stream F) (limit : Option Nat) : Nat × Bool :=
  let cpysz := s.locateEol.1.elim s.avail (· + 1)
  match limit with
  | none => (cpysz, s.locateEol.1.isSome)
  | some maxlen => if cpysz ≥ maxlen - 1 then (maxlen - 1, true) else (cpysz, s.locateEol.1.isSome)

/-- The bytes that `_jonj_stream_get_line` asks for. -/
def lineRequest (s : Stream F) : Option Nat → Nat
  | none => s.settings.chunkSize
  | some maxlen => min (maxlen - 1) s.settings.chunkSize

def left (ops : Ops F) (s : Stream F) : Nat := ops.left s.abstract + s.avail

theorem avail_makeRoom (s : Stream F) : s.makeRoom.avail = s.avail := by
  unfold makeRoom
  dsimp only
  split_ifs <;> rfl

theorem abstract_makeRoom (s : Stream F) : s.makeRoom.abstract = s.abstract := by
  unfold makeRoom
  dsimp only
  split_ifs <;> rfl

theorem left_fillReadBuffer_le (ops : Ops F) (s : Stream F) (size : Nat) :
    (s.fillReadBuffer ops size).left ops ≤ s.left ops := by
  unfold fillReadBuffer
  split
  · have bound := ops.read_left s.abstract s.makeRoom.eof
      (s.makeRoom.readbuflen - s.makeRoom.writepos)
    have same := avail_makeRoom s
    simp only [left, avail, receive, abstract_makeRoom] at bound same ⊢
    omega
  · exact le_rfl

/-- A piece that does not end the line is the whole buffer, and shorter than the limit. -/
theorem lineSize_of_more {s : Stream F} {limit : Option Nat} (more : (s.lineSize limit).2 = false) :
    (s.lineSize limit).1 = s.avail ∧ s.locateEol.1 = none ∧ ∀ maxlen ∈ limit,
      s.avail + 1 < maxlen := by
  unfold lineSize at more ⊢
  generalize s.locateEol.1 = place at more ⊢
  cases place with
  | some eol =>
    cases limit with
    | none => cases more
    | some maxlen =>
      dsimp only at more
      split at more <;> cases more
  | none =>
    cases limit with
    | none => exact ⟨rfl, rfl, nofun⟩
    | some maxlen =>
      dsimp only [Option.elim] at more ⊢
      split at more
      · cases more
      next small =>
      rw [if_neg small]
      refine ⟨rfl, rfl, ?_⟩
      rintro _ ⟨⟩
      omega

/-- The line is copied out of the buffer piece by piece. -/
def getLineLoop (ops : Ops F) (s : Stream F) (limit : Option Nat) : Bytes × Stream F :=
  if 0 < s.avail then
    let piece := s.lineSize limit
    let got := s.take piece.1
    let s' := { got.2 with position := s.position + piece.1, ending := s.locateEol.2 }
    if piece.2 then (got.1, s')
    else
      let rest := getLineLoop ops s' (limit.map (· - piece.1))
      (got.1 ++ rest.1, rest.2)
  else if s.eof then ([], s)
  else
    let s' := s.fillReadBuffer ops (s.lineRequest limit)
    if s'.avail = 0 then ([], s') else getLineLoop ops s' limit
termination_by (s.left ops, if s.avail = 0 then 1 else 0)
decreasing_by
  · rename_i some more
    have whole := (lineSize_of_more (Bool.eq_false_of_not_eq_true more)).1
    apply Prod.Lex.left
    simp only [left, take, avail, whole] at some ⊢
    omega
  · rename_i none _ some
    rw [if_neg some, if_pos (by omega)]
    exact Prod.lex_def.mpr ((left_fillReadBuffer_le ops s _).lt_or_eq.imp_right fun same =>
      ⟨same, Nat.zero_lt_one⟩)

/-- `_jonj_stream_get_line` -/
def getLine (ops : Ops F) (s : Stream F) (limit : Option Nat) : Option Bytes × Stream F :=
  if limit = some 0 then (none, s)
  else
    let got := s.getLineLoop ops limit
    (if got.1 = [] then none else some got.1, got.2)

/-! ### Writing -/

/-- The call of `ops->seek`, with `&stream->position`. -/
def opsSeek (ops : Ops F) (s : Stream F) (offset : Int) (whence : Whence) : Bool × Stream F :=
  let result := ops.seek s.abstract offset whence
  (result.1.ok,
    { s with
      abstract := result.2
      position := result.1.newoffset.getD s.position
      eof := result.1.eof.getD s.eof })

def dropBuffer (s : Stream F) : Stream F := { s with readpos := 0, writepos := 0 }

/-- The loop of `_jonj_stream_write_buffer`, with `(int)justwrote`. -/
def writeLoop (ops : Ops F) (s : Stream F) (bytes : Bytes) : Nat × Stream F :=
  if bytes = [] then (0, s)
  else
    let wrote := ops.write s.abstract (bytes.take s.settings.chunkSize)
    if 0 < (wrote.1 : Int).bmod (2 ^ 32) then
      let s' := { s with abstract := wrote.2, position := s.position + wrote.1 }
      let rest := writeLoop ops s' (bytes.drop wrote.1)
      (wrote.1 + rest.1, rest.2)
    else (0, { s with abstract := wrote.2 })
termination_by bytes.length
decreasing_by
  rename_i some positive
  have nonzero : wrote.1 ≠ 0 := by
    intro zero
    simp [zero] at positive
  have length : 0 < bytes.length := length_pos_iff.mpr some
  rw [length_drop]
  exact show bytes.length - wrote.1 < bytes.length by omega

/-- `_jonj_stream_write` -/
def write (ops : Ops F) (s : Stream F) (bytes : Bytes) : Nat × Stream F :=
  if bytes = [] then (0, s)
  else
    let s := if s.readpos ≠ s.writepos then (s.dropBuffer.opsSeek ops s.position .set).2 else s
    s.writeLoop ops bytes

/-! ### Seeking -/

def skip (s : Stream F) (n : Nat) : Stream F :=
  { s with readpos := s.readpos + n, position := s.position + n, eof := false }

/-- The distance of a seek that stays in the buffer. -/
def inBuffer (s : Stream F) (offset : Int) (whence : Whence) : Option Nat :=
  if s.settings.noBuffer then none
  else match whence with
    | .cur => if 0 < offset ∧ offset ≤ s.avail then some offset.toNat else none
    | .set =>
      if s.position < offset ∧ offset ≤ s.position + s.avail then
        some (offset - s.position).toNat else none
    | _ => none

/-- `_jonj_stream_seek` -/
def seek (ops : Ops F) (s : Stream F) (offset : Int) (whence : Whence) : Bool × Stream F :=
  match s.inBuffer offset whence with
  | some n => (true, s.skip n)
  | none =>
    let result :=
      if whence = .cur then s.opsSeek ops (s.position + offset) .set
        else s.opsSeek ops offset whence
    (result.1, { result.2 with eof := if result.1 then false else result.2.eof }.dropBuffer)

/-- `_jonj_stream_tell` -/
def tell (s : Stream F) : Int := s.position

end Stream

/-! ### Runs -/

inductive Op
  | read (size : Nat)
  | write (bytes : Bytes)
  | getLine (limit : Option Nat)
  | seek (offset : Int) (whence : Whence)
  | tell

inductive Out
  | bytes (bytes : Bytes)
  | count (n : Nat)
  | line (line : Option Bytes)
  | sought (ok : Bool)
  | offset (position : Int)
  deriving DecidableEq

def step {F : Type} (ops : Ops F) (s : Stream F) : Op → Out × Stream F
  | .read size => Prod.map .bytes id (s.read ops size)
  | .write bytes => Prod.map .count id (s.write ops bytes)
  | .getLine limit => Prod.map .line id (s.getLine ops limit)
  | .seek offset whence => Prod.map .sought id (s.seek ops offset whence)
  | .tell => (.offset s.tell, s)

def run {F : Type} (ops : Ops F) (s : Stream F) : List Op → List Out × Stream F
  | [] => ([], s)
  | op :: rest =>
    let next := step ops s op
    let outs := run ops next.2 rest
    (next.1 :: outs.1, outs.2)

theorem failed_notMem_run {F : Type} (dev : Ops F) (s : Stream F) (ops : List Op)
    (noSeek : ∀ offset whence, .seek offset whence ∉ ops) :
    .sought false ∉ (run dev s ops).1 := by
  induction ops generalizing s with
  | nil => exact not_mem_nil
  | cons op rest ih =>
    intro failed
    rcases mem_cons.mp failed with first | later
    · cases op with
      | seek offset whence => exact noSeek offset whence mem_cons_self
      | _ => cases first
    · exact ih _ (fun offset whence mem => noSeek offset whence (mem_cons_of_mem _ mem)) later

end Jonj.Streams
