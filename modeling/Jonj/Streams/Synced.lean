import Jonj.Streams.Devices

/-!
# The buffer runs ahead of the position

What `readpos`, `writepos`, the cursor of the file and the position have to do with each other, and
that each function of `streams.c` keeps it.
-/
namespace Jonj.Streams

open Splice List

namespace Stream

variable {F : Type}

/-! ### The bytes in the buffer -/

@[simp] theorem length_buffered (s : Stream F) : s.buffered.length = s.avail := by
  simp [buffered]

theorem buffered_eq_nil_iff {s : Stream F} : s.buffered = [] ↔ s.avail = 0 := by
  rw [← length_eq_zero_iff, length_buffered]

private theorem buffered_compact {s : Stream F} (fits : s.writepos ≤ s.readbuflen) :
    s.compact.buffered = s.buffered := by
  apply map_congr_left
  intro i inside
  have bound : i < s.writepos - s.readpos := mem_range.mp inside
  have moved : i < s.readbuflen - s.readpos := by omega
  simp [compact, if_pos moved]

/-- Moving the buffer down and enlarging it keep what is buffered. -/
theorem buffered_makeRoom {s : Stream F} (fits : s.writepos ≤ s.readbuflen) :
    s.makeRoom.buffered = s.buffered := by
  unfold makeRoom
  dsimp only
  split_ifs
  · exact buffered_compact fits
  · exact buffered_compact fits
  · rfl

theorem pointers_makeRoom {s : Stream F} (order : s.readpos ≤ s.writepos)
    (fits : s.writepos ≤ s.readbuflen) :
    s.makeRoom.readpos ≤ s.makeRoom.writepos ∧ s.makeRoom.writepos + s.settings.chunkSize ≤
      s.makeRoom.readbuflen := by
  unfold makeRoom
  dsimp only
  split_ifs with _ tight
  · change 0 ≤ s.writepos - s.readpos ∧ s.writepos - s.readpos + _ ≤ s.readbuflen +
      s.settings.chunkSize
    omega
  · change ¬s.readbuflen - (s.writepos - s.readpos) < s.settings.chunkSize at tight
    change 0 ≤ s.writepos - s.readpos ∧ s.writepos - s.readpos + _ ≤ s.readbuflen
    omega
  · omega

theorem makeRoom_same (s : Stream F) :
    s.makeRoom.settings = s.settings ∧ s.makeRoom.position = s.position ∧
    s.makeRoom.ending = s.ending ∧ s.makeRoom.eof = s.eof := by
  unfold makeRoom
  dsimp only
  split_ifs <;> exact ⟨rfl, rfl, rfl, rfl⟩

section

variable {s : Stream F} (order : s.readpos ≤ s.writepos) (bytes : Bytes) (eof : Bool) (f : F)

include order

theorem avail_receive : (s.receive bytes eof f).avail = s.avail + bytes.length := by
  simp only [avail, receive]
  omega

theorem buffered_receive : (s.receive bytes eof f).buffered = s.buffered ++ bytes := by
  have room : s.readpos + s.avail = s.writepos := by
    unfold avail
    omega
  apply ext_getElem
  · rw [length_buffered, avail_receive order, length_append, length_buffered]
  · intro i left right
    rw [length_buffered, avail_receive order] at left
    simp only [buffered, getElem_map, getElem_range]
    by_cases old : i < s.avail
    · rw [getElem_append_left (by simpa using old)]
      have before : ¬s.writepos ≤ s.readpos + i := by omega
      simp [receive, if_neg before]
    rw [getElem_append_right (by simpa using old)]
    have behind : s.writepos ≤ s.readpos + i := by omega
    have index : s.readpos + i - s.writepos = i - s.avail := by omega
    have bound : i - s.avail < bytes.length := by omega
    simp [receive, if_pos behind, index, getElem?_eq_getElem bound]

end

theorem avail_take (s : Stream F) (n : Nat) : (s.take n).2.avail = s.avail - min n s.avail := by
  simp only [take, avail]
  omega

theorem buffered_take (s : Stream F) (n : Nat) : (s.take n).2.buffered = s.buffered.drop n := by
  apply ext_getElem
  · simp only [length_buffered, length_drop, take, avail]
    omega
  · intro i left right
    rw [length_buffered] at left
    have bound : i < s.avail - min n s.avail := by
      simp only [take, avail] at left ⊢
      omega
    have short : min n s.avail = n := by omega
    simp [take, buffered, short, Nat.add_assoc]

end Stream

/-! ### The invariant -/

variable {F : Type}

/-- The stream stands at `pos`: the buffer holds the bytes from there on, and the cursor is behind
them. -/
structure Synced (dev : ByteFile F) (s : Stream F) (pos : Nat) : Prop where
  order : s.readpos ≤ s.writepos
  fits : s.writepos ≤ s.readbuflen
  chunk : 0 < s.settings.chunkSize
  buffered : s.buffered = slice (dev.data s.abstract) pos s.avail
  cursor : dev.cursor s.abstract = pos + s.avail
  eof : s.eof = true → (dev.data s.abstract).length ≤ pos

/-- The stream stands where its `position` says. -/
structure At (dev : ByteFile F) (s : Stream F) (pos : Nat) : Prop extends Synced dev s pos where
  position : s.position = pos

/-- Nothing but the buffer, the cursor and `eof` has changed. -/
structure Reads (dev : ByteFile F) (s s' : Stream F) : Prop where
  data : dev.data s'.abstract = dev.data s.abstract
  settings : s'.settings = s.settings
  position : s'.position = s.position
  ending : s'.ending = s.ending

theorem Reads.refl (dev : ByteFile F) (s : Stream F) : Reads dev s s := ⟨rfl, rfl, rfl, rfl⟩

theorem Reads.trans {dev : ByteFile F} {s s' s'' : Stream F} (first : Reads dev s s')
    (second : Reads dev s' s'') :
    Reads dev s s'' :=
  ⟨second.data.trans first.data, second.settings.trans first.settings,
    second.position.trans first.position,
    second.ending.trans first.ending⟩

variable {whence : Whence} {offset : Int} {bytes : Bytes}

section

variable {dev : ByteFile F} {s : Stream F} {pos : Nat}

/-- What is buffered is part of the file. -/
theorem Synced.avail_le (synced : Synced dev s pos) :
    s.avail = 0 ∨ pos + s.avail ≤ (dev.data s.abstract).length := by
  have length := congrArg length synced.buffered
  rw [Stream.length_buffered, length_slice] at length
  omega

/-! ### Reading -/

/-- Bytes that are taken out of the buffer are those of the file. -/
theorem Synced.take (synced : Synced dev s pos) (n : Nat) :
    (s.take n).1 = slice (dev.data s.abstract) pos (min n s.avail) ∧
      (s.take n).1.length = min n s.avail ∧ Synced dev (s.take n).2
        (pos + (s.take n).1.length) := by
  have order := synced.order
  have fits := synced.fits
  have length : (s.take n).1.length = min n s.avail := by simp [Stream.take]
  have rest := s.avail_take n
  refine ⟨?_, length, ?_, fits, synced.chunk, ?_, ?_, ?_⟩
  · rw [Stream.take, synced.buffered, slice, slice, take_take]
  · simp only [Stream.take, Stream.avail]
    omega
  · rw [Stream.buffered_take, synced.buffered, drop_slice, rest, length]
    rcases Nat.le_total n s.avail with le | ge
    · rw [Nat.min_eq_left le]
      rfl
    · rw [Nat.sub_eq_zero_of_le ge, Nat.min_eq_right ge, Nat.sub_self, slice_zero, slice_zero]
  · have same : (s.take n).2.abstract = s.abstract := rfl
    rw [same, synced.cursor]
    omega
  · intro stop
    exact (synced.eof stop).trans (Nat.le_add_right _ _)

theorem Synced.makeRoom (synced : Synced dev s pos) : Synced dev s.makeRoom pos where
  order := (Stream.pointers_makeRoom synced.order synced.fits).1
  fits := (Nat.le_add_right _ _).trans (Stream.pointers_makeRoom synced.order synced.fits).2
  chunk := by
    rw [s.makeRoom_same.1]
    exact synced.chunk
  buffered := by
    rw [Stream.buffered_makeRoom synced.fits, Stream.abstract_makeRoom, Stream.avail_makeRoom,
      synced.buffered]
  cursor := by rw [Stream.abstract_makeRoom, Stream.avail_makeRoom, synced.cursor]
  eof stop := by
    rw [Stream.abstract_makeRoom]
    exact synced.eof (by rwa [s.makeRoom_same.2.2.2] at stop)

theorem Synced.receive (synced : Synced dev s pos) (empty : s.avail = 0) {n : Nat} (asked : 0 < n)
    (room : n ≤ s.readbuflen - s.writepos) :
    Synced dev (s.receive (dev.read s.abstract s.eof n).1 (dev.read s.abstract s.eof n).2.1
      (dev.read s.abstract s.eof n).2.2)
      pos := by
  have cursor : dev.cursor s.abstract = pos := by rw [synced.cursor, empty, Nat.add_zero]
  have short := dev.length_read_le s.abstract s.eof n
  have bytes := dev.slice_read s.abstract s.eof n
  have data := dev.read_data s.abstract s.eof n
  have moved := dev.read_cursor s.abstract s.eof n
  have eof := dev.read_eof s.abstract s.eof n asked
  rw [cursor] at bytes moved eof
  generalize dev.read s.abstract s.eof n = got at *
  have avail : (s.receive got.1 got.2.1 got.2.2).avail = got.1.length := by
    rw [Stream.avail_receive synced.order, empty, Nat.zero_add]
  have same : (s.receive got.1 got.2.1 got.2.2).abstract = got.2.2 := rfl
  have order := synced.order
  constructor
  · exact order.trans (Nat.le_add_right _ _)
  · change s.writepos + got.1.length ≤ s.readbuflen
    omega
  · exact synced.chunk
  · rw [avail, Stream.buffered_receive order, Stream.buffered_eq_nil_iff.mpr empty, nil_append,
      same, data, bytes]
  · rw [avail, same, moved]
  · intro stop
    rw [same, data]
    exact (eof stop).elim synced.eof id

theorem Stream.fillReadBuffer_of_lt (ops : Ops F) {size : Nat} (few : s.avail < size) :
    s.fillReadBuffer ops size =
      s.makeRoom.receive (ops.read s.makeRoom.abstract s.makeRoom.eof
        (s.makeRoom.readbuflen - s.makeRoom.writepos)).1
        (ops.read s.makeRoom.abstract s.makeRoom.eof
          (s.makeRoom.readbuflen - s.makeRoom.writepos)).2.1
        (ops.read s.makeRoom.abstract s.makeRoom.eof
          (s.makeRoom.readbuflen - s.makeRoom.writepos)).2.2 :=
  if_pos few

/-- One read of the file into an empty buffer. -/
theorem Synced.fillReadBuffer (synced : Synced dev s pos) (empty : s.avail = 0) (size : Nat) :
    Synced dev (s.fillReadBuffer dev.toOps size) pos ∧
      Reads dev s (s.fillReadBuffer dev.toOps size) ∧
      ((s.fillReadBuffer dev.toOps size).avail = 0 → size = 0 ∨
        (dev.data s.abstract).length ≤ pos) := by
  by_cases few : s.avail < size
  · have room := (Stream.pointers_makeRoom synced.order synced.fits).2
    have chunk := synced.chunk
    have asked : 0 < s.makeRoom.readbuflen - s.makeRoom.writepos := by omega
    have none : s.makeRoom.avail = 0 := by rw [Stream.avail_makeRoom, empty]
    have roomy := synced.makeRoom
    obtain ⟨settings, position, ending, -⟩ := s.makeRoom_same
    rw [Stream.fillReadBuffer_of_lt dev.toOps few]
    refine ⟨roomy.receive none asked le_rfl, ⟨?_, settings, position, ending⟩, ?_⟩
    · exact (dev.read_data _ _ _).trans (by rw [Stream.abstract_makeRoom])
    intro nothing
    rw [Stream.avail_receive roomy.order, none, Nat.zero_add] at nothing
    have atEnd := dev.read_nil _ _ _ asked (length_eq_zero_iff.mp nothing)
    rw [roomy.cursor, none, Stream.abstract_makeRoom] at atEnd
    exact .inr atEnd
  · have enough : s.fillReadBuffer dev.toOps size = s := if_neg few
    rw [enough]
    exact ⟨synced, .refl _ _, fun _ => .inl (by omega)⟩

theorem Synced.readMore (synced : Synced dev s pos) (empty : s.avail = 0) {size : Nat}
    (asked : 0 < size) :
    ∃ k ≤ size, (s.readMore dev.toOps size).1 = slice (dev.data s.abstract) pos k ∧
      Synced dev (s.readMore dev.toOps size).2 (pos + (s.readMore dev.toOps size).1.length) ∧
      Reads dev s (s.readMore dev.toOps size).2 ∧
        ((s.readMore dev.toOps size).1 = [] → (dev.data s.abstract).length ≤ pos) := by
  have cursor : dev.cursor s.abstract = pos := by rw [synced.cursor, empty, Nat.add_zero]
  unfold Stream.readMore
  split
  · obtain ⟨k, le, bytes⟩ := dev.read_bytes s.abstract s.eof size
    have data := dev.read_data s.abstract s.eof size
    have moved := dev.read_cursor s.abstract s.eof size
    have nil := dev.read_nil s.abstract s.eof size asked
    have eof := dev.read_eof s.abstract s.eof size asked
    rw [cursor] at bytes moved nil eof
    -- the buffer stays empty, and the cursor is where the bytes end
    refine ⟨k, le, bytes, ⟨synced.order, synced.fits, synced.chunk, ?_, ?_, ?_⟩,
      ⟨data, rfl, rfl, rfl⟩, nil⟩
    · have still : s.avail = 0 := empty
      have none := Stream.buffered_eq_nil_iff.mpr still
      change s.buffered = slice _ _ s.avail
      rw [none, still, slice_zero]
    · change dev.cursor _ = _ + s.avail
      rw [empty, Nat.add_zero, moved]
    · intro stop
      rw [data]
      exact ((eof stop).elim synced.eof id).trans (Nat.le_add_right _ _)
  · obtain ⟨filled, reads, nothing⟩ := synced.fillReadBuffer empty size
    obtain ⟨bytes, length, rest⟩ := filled.take size
    refine ⟨_, min_le_left size (s.fillReadBuffer dev.toOps size).avail, ?_, rest,
      ⟨reads.data, reads.settings, reads.position, reads.ending⟩, ?_⟩
    · rw [bytes, reads.data]
    intro nil
    rw [nil, length_nil] at length
    rcases nothing (by omega) with zero | atEnd
    · omega
    · exact atEnd

/-- What one read may return: the beginning of what was asked for, and something of it if there is
something. -/
structure Delivers (greedy : Bool) (data : Bytes) (pos size : Nat) (bytes : Bytes) : Prop where
  part : ∃ k ≤ size, bytes = slice data pos k
  some : bytes = [] → slice data pos size = []
  all : greedy = true → bytes = slice data pos size

/-- The loop delivers the bytes of the file; a plain file is read as far as asked. -/
theorem Synced.readLoop (synced : Synced dev s pos) (size : Nat) :
    Delivers s.settings.plainWrapper (dev.data s.abstract) pos size (s.readLoop dev.toOps size).1 ∧
      Synced dev (s.readLoop dev.toOps size).2 (pos + (s.readLoop dev.toOps size).1.length) ∧
      Reads dev s (s.readLoop dev.toOps size).2 := by
  -- on the bytes still to be read; each round begins with the buffer and goes on behind it
  induction size using Nat.strong_induction_on generalizing s pos with
  | _ size ih =>
    rw [Stream.readLoop, Streams.readLoop]
    split
    · next zero =>
      subst zero
      exact ⟨⟨⟨0, le_rfl, rfl⟩, fun _ => rfl, fun _ => rfl⟩, synced, .refl _ _⟩
    next asked =>
    obtain ⟨first, length, behind⟩ := synced.take size
    have firstReads : Reads dev s (s.take size).2 := ⟨rfl, rfl, rfl, rfl⟩
    dsimp only
    split
    · next full =>
      have enough : min size s.avail = size := by omega
      rw [enough] at first
      refine ⟨⟨⟨size, le_rfl, first⟩, ?_, fun _ => first⟩, behind, firstReads⟩
      intro nil
      rwa [← first]
    next short =>
    have drained : (s.take size).2.avail = 0 := by
      rw [s.avail_take]
      omega
    have all : min size s.avail = s.avail := by omega
    rw [all] at first length
    obtain ⟨k, k_le, more, further, moreReads, atEnd⟩ :=
      behind.readMore drained (Nat.pos_of_ne_zero short)
    have upToMore := firstReads.trans moreReads
    generalize (s.take size).2.readMore dev.toOps (size - (s.take size).1.length) = got at *
    rw [length] at further k_le more atEnd ⊢
    have same : (s.take size).2.abstract = s.abstract := rfl
    rw [same] at more atEnd
    -- both pieces are one part of the data
    have joined : (s.take size).1 ++ got.1 = slice (dev.data s.abstract) pos (s.avail + k) := by
      rw [slice_add, first, more]
    split
    · next stop =>
      have part : s.avail + k ≤ size := by omega
      refine ⟨⟨⟨_, part, joined⟩, ?_, ?_⟩, ?_, upToMore⟩
      · intro nil
        have nilMore := (append_eq_nil_iff.mp nil).2
        have zero : s.avail = 0 := by rw [← length, (append_eq_nil_iff.mp nil).1]; rfl
        exact slice_eq_nil_iff.mpr (.inr (by have := atEnd nilMore; omega))
      · intro greedy
        have nilMore : got.1 = [] := stop.resolve_right (by simp [greedy])
        have split : size = s.avail + (size - s.avail) := by omega
        rw [nilMore, first, split, slice_add, slice_eq_nil_iff.mpr (.inr (atEnd nilMore))]
      · rw [length_append, length, ← Nat.add_assoc]
        exact further
    · next go =>
      have someMore : got.1 ≠ [] := fun nil => go (.inl nil)
      have greedy : s.settings.plainWrapper = true := by
        cases flag : s.settings.plainWrapper with
        | false => exact absurd (.inr flag) go
        | true => rfl
      have progress : 0 < got.1.length := length_pos_iff.mpr someMore
      have full : got.1.length ≤ k := by rw [more, length_slice]; exact min_le_left _ _
      obtain ⟨delivers, last, lastReads⟩ := ih (size - s.avail - got.1.length) (by omega) further
      have rest := delivers.all (by rw [upToMore.settings, greedy])
      rw [upToMore.data] at rest
      have whole : (s.take size).1 ++
        (got.1 ++ (got.2.readLoop dev.toOps (size - s.avail - got.1.length)).1) =
          slice (dev.data s.abstract) pos size := by
        have split : size = s.avail + (got.1.length + (size - s.avail - got.1.length)) := by omega
        have piece : slice (dev.data s.abstract) (pos + s.avail) got.1.length = got.1 := by
          rw [more, slice_length]
        conv_rhs => rw [split, slice_add, slice_add, piece]
        rw [first, rest]
      refine ⟨⟨⟨size, le_rfl, whole⟩, ?_, fun _ => whole⟩, ?_, upToMore.trans lastReads⟩
      · intro nil
        rwa [← whole]
      · rw [length_append, length_append, length, ← Nat.add_assoc, ← Nat.add_assoc]
        exact last

/-- A read moves the position by what it delivers. -/
theorem At.read (at_ : At dev s pos) (size : Nat) :
    Delivers s.settings.plainWrapper (dev.data s.abstract) pos size (s.read dev.toOps size).1 ∧
      At dev (s.read dev.toOps size).2 (pos + (s.read dev.toOps size).1.length) ∧
      dev.data (s.read dev.toOps size).2.abstract = dev.data s.abstract ∧
      (s.read dev.toOps size).2.settings = s.settings ∧
        (s.read dev.toOps size).2.ending = s.ending := by
  obtain ⟨delivers, synced, reads⟩ := at_.toSynced.readLoop size
  refine ⟨delivers, ⟨⟨synced.order, synced.fits, synced.chunk, synced.buffered, synced.cursor,
    synced.eof⟩, ?_⟩,
    reads.data, reads.settings, reads.ending⟩
  change s.position + _ = _
  rw [at_.position]
  rfl

/-! ### Lines -/

theorem memchr_eq_some {byte : UInt8} {i : Nat} (found : Stream.memchr byte bytes = some i) :
    byte ∈ bytes ∧ i = bytes.idxOf byte := by
  unfold Stream.memchr at found
  split at found
  · next mem => exact ⟨mem, (Option.some.inj found).symm⟩
  · cases found

theorem memchr_eq_none {byte : UInt8} (absent : Stream.memchr byte bytes = none) :
    byte ∉ bytes := by
  unfold Stream.memchr at absent
  split at absent
  · cases absent
  · next notMem => exact notMem

/-- The end of the line is in the buffer. -/
theorem locateEol_lt {i : Nat} (found : s.locateEol.1 = some i) : i < s.avail := by
  have inside : ∀ byte, Stream.memchr byte s.buffered = some i → i < s.avail := by
    intro byte found
    obtain ⟨mem, rfl⟩ := memchr_eq_some found
    have := idxOf_lt_length_of_mem mem
    rwa [s.length_buffered] at this
  unfold Stream.locateEol at found
  split at found
  · exact inside _ found
  · exact inside _ found
  split at found
  · next cr lf =>
    split at found
    · exact inside 10 (by rw [lf]; exact found)
    · exact inside 13 (by rw [cr]; exact found)
  · next cr _ => exact inside 13 (by rw [cr]; exact found)
  · next _ lf => exact inside 10 (by rw [lf]; exact found)
  · cases found

/-- The byte that ends a line, once that is known. -/
def LineEnding.byte : LineEnding → UInt8
  | .cr => 13
  | _ => 10

theorem locateEol_of_known (known : s.ending ≠ .detect) :
    s.locateEol = (Stream.memchr s.ending.byte s.buffered, s.ending) := by
  unfold Stream.locateEol
  cases ending : s.ending with
  | lf => rfl
  | cr => rfl
  | detect => exact absurd ending known

def throughEol (eol : UInt8) (bytes : Bytes) : Bytes := bytes.take (bytes.idxOf eol + 1)

private theorem throughEol_of_mem {eol : UInt8} (found : eol ∈ bytes) (rest : Bytes) :
    throughEol eol (bytes ++ rest) = bytes.take (bytes.idxOf eol + 1) := by
  have bound := idxOf_lt_length_of_mem found
  rw [throughEol, idxOf_append_of_mem found, take_append_of_le_length bound]

theorem throughEol_of_notMem {eol : UInt8} (absent : eol ∉ bytes) (rest : Bytes) :
    throughEol eol (bytes ++ rest) = bytes ++ throughEol eol rest := by
  rw [throughEol, idxOf_append_of_notMem absent, Nat.add_assoc, take_length_add_append]
  rfl

/-- The line at an offset: at most one byte less than the caller's buffer holds. -/
def lineAt (eol : UInt8) (data : Bytes) (pos : Nat) : Option Nat → Bytes
  | none => throughEol eol (data.drop pos)
  | some maxlen => (throughEol eol (data.drop pos)).take (maxlen - 1)

theorem lineAt_of_end {eol : UInt8} {data : Bytes} (atEnd : data.length ≤ pos)
    (limit : Option Nat) :
    lineAt eol data pos limit = [] := by
  have none : data.drop pos = [] := drop_eq_nil_of_le atEnd
  cases limit <;> simp [lineAt, throughEol, none]

theorem Synced.drop_eq (synced : Synced dev s pos) :
    (dev.data s.abstract).drop pos = s.buffered ++ (dev.data s.abstract).drop (pos + s.avail) := by
  rw [synced.buffered, slice, ← drop_drop, take_append_drop]

section

variable (synced : Synced dev s pos) (known : s.ending ≠ .detect) (limit : Option Nat)

include synced known

/-- The line ends in the buffer, or its limit does. -/
theorem Synced.lineAt_of_done (done : (s.lineSize limit).2 = true) :
    lineAt s.ending.byte (dev.data s.abstract) pos limit =
      s.buffered.take (s.lineSize limit).1 := by
  have length := s.length_buffered
  unfold Stream.lineSize at done ⊢
  rw [locateEol_of_known known] at done ⊢
  cases place : Stream.memchr s.ending.byte s.buffered with
  | some i =>
    obtain ⟨found, rfl⟩ := memchr_eq_some place
    cases limit with
    | none => rw [lineAt, synced.drop_eq, throughEol_of_mem found]; rfl
    | some maxlen =>
      rw [lineAt, synced.drop_eq, throughEol_of_mem found, take_take]
      dsimp only [Option.elim]
      by_cases long : s.buffered.idxOf s.ending.byte + 1 ≥ maxlen - 1
      · rw [if_pos long, Nat.min_eq_left long]
      · rw [if_neg long, Nat.min_eq_right (by omega)]
  | none =>
    have absent := memchr_eq_none place
    rw [place] at done
    cases limit with
    | none => cases done
    | some maxlen =>
      dsimp only [Option.elim] at done ⊢
      split at done
      · next long =>
        rw [if_pos long, lineAt, synced.drop_eq, throughEol_of_notMem absent,
          take_append_of_le_length (by omega)]
      · cases done

/-- The line goes on behind the buffer. -/
theorem Synced.lineAt_of_more (more : (s.lineSize limit).2 = false) :
    lineAt s.ending.byte (dev.data s.abstract) pos limit =
      s.buffered ++ lineAt s.ending.byte (dev.data s.abstract) (pos + s.avail)
        (limit.map (· - s.avail)) := by
  obtain ⟨-, absent, below⟩ := Stream.lineSize_of_more more
  rw [locateEol_of_known known] at absent
  have absent := memchr_eq_none absent
  have length := s.length_buffered
  cases limit with
  | none => rw [lineAt, synced.drop_eq, throughEol_of_notMem absent]; rfl
  | some maxlen =>
    have short := below maxlen rfl
    rw [lineAt, synced.drop_eq, throughEol_of_notMem absent, take_append,
      take_of_length_le (by omega)]
    simp only [Option.map_some, lineAt]
    congr 2
    omega

end

private theorem lineSize_le (limit : Option Nat) : (s.lineSize limit).1 ≤ s.avail := by
  have size : s.locateEol.1.elim s.avail (· + 1) ≤ s.avail := by
    cases place : s.locateEol.1 with
    | none => exact le_rfl
    | some i => exact locateEol_lt place
  cases limit with
  | none => exact size
  | some maxlen =>
    unfold Stream.lineSize
    dsimp only
    by_cases long : s.locateEol.1.elim s.avail (· + 1) ≥ maxlen - 1
    · rw [if_pos long]
      exact le_trans long size
    · rw [if_neg long]
      exact size

theorem At.takePiece (at_ : At dev s pos) (limit : Option Nat) :
    (s.take (s.lineSize limit).1).1.length = (s.lineSize limit).1 ∧
      (s.take (s.lineSize limit).1).1 = slice (dev.data s.abstract) pos
        (s.lineSize limit).1 ∧ At dev
        { (s.take (s.lineSize limit).1).2 with position := s.position + (s.lineSize limit).1,
                                               ending := s.locateEol.2 }
        (pos + (s.lineSize limit).1) := by
  have le := lineSize_le (s := s) limit
  obtain ⟨bytes, length, rest⟩ := at_.toSynced.take (s.lineSize limit).1
  rw [Nat.min_eq_left le] at length bytes
  rw [length] at rest
  refine ⟨length, bytes, ⟨rest.order, rest.fits, rest.chunk, rest.buffered, rest.cursor,
    rest.eof⟩, ?_⟩
  rw [at_.position]
  rfl

/-- Nothing is asked for only if nothing fits. -/
theorem lineAt_of_request (eol : UInt8) (data : Bytes) {limit : Option Nat}
    (chunk : 0 < s.settings.chunkSize) (none : s.lineRequest limit = 0 ∨ data.length ≤ pos) :
    lineAt eol data pos limit = [] := by
  rcases none with zero | atEnd
  · cases limit with
    | none => exact absurd zero chunk.ne'
    | some maxlen =>
      have small : maxlen - 1 = 0 := by
        simp only [Stream.lineRequest] at zero
        omega
      rw [lineAt, small, take_zero]
  · exact lineAt_of_end atEnd limit

/-- A line is read from where the stream stands, and the stream stands behind it. -/
theorem At.getLineLoop (at_ : At dev s pos) (limit : Option Nat) :
    At dev (s.getLineLoop dev.toOps limit).2 (pos + (s.getLineLoop dev.toOps limit).1.length) ∧
      dev.data (s.getLineLoop dev.toOps limit).2.abstract = dev.data s.abstract ∧
      (s.getLineLoop dev.toOps limit).2.settings = s.settings := by
  -- along the loop: a round takes from the buffer, or fills it
  fun_induction Stream.getLineLoop dev.toOps s limit generalizing pos with
  | case1 =>
    rename_i s limit _ piece got s' done
    obtain ⟨length, -, after⟩ := at_.takePiece limit
    refine ⟨?_, rfl, rfl⟩
    rw [length]
    exact after
  | case2 =>
    rename_i s limit _ piece got s' more rest ih
    obtain ⟨length, -, after⟩ := at_.takePiece limit
    obtain ⟨last, data, settings⟩ := ih after
    refine ⟨?_, data, settings⟩
    rw [length_append, show got.1.length = (s.lineSize limit).1 from length, ← Nat.add_assoc]
    exact last
  | case3 => exact ⟨at_, rfl, rfl⟩
  | case4 =>
    rename_i s limit some _ s' nothing
    obtain ⟨filled, reads, -⟩ := at_.toSynced.fillReadBuffer (by omega) (s.lineRequest limit)
    exact ⟨⟨filled, reads.position.trans at_.position⟩, reads.data, reads.settings⟩
  | case5 =>
    rename_i s limit some _ s' _ ih
    obtain ⟨filled, reads, -⟩ := at_.toSynced.fillReadBuffer (by omega) (s.lineRequest limit)
    obtain ⟨last, data, settings⟩ := ih ⟨filled, reads.position.trans at_.position⟩
    exact ⟨last, data.trans reads.data, settings.trans reads.settings⟩

/-- With a known end of line the loop delivers the line of the file. -/
theorem At.getLineLoop_eq (at_ : At dev s pos) (known : s.ending ≠ .detect) (limit : Option Nat) :
    (s.getLineLoop dev.toOps limit).1 = lineAt s.ending.byte (dev.data s.abstract) pos limit ∧
      (s.getLineLoop dev.toOps limit).2.ending = s.ending := by
  fun_induction Stream.getLineLoop dev.toOps s limit generalizing pos with
  | case1 =>
    rename_i s limit _ piece got s' done
    refine ⟨(at_.toSynced.lineAt_of_done known limit done).symm, ?_⟩
    exact congrArg Prod.snd (locateEol_of_known known)
  | case2 =>
    rename_i s limit _ piece got s' more rest ih
    have more : (s.lineSize limit).2 = false := Bool.eq_false_of_not_eq_true more
    have same : s'.ending = s.ending := congrArg Prod.snd (locateEol_of_known known)
    obtain ⟨-, -, after⟩ := at_.takePiece limit
    obtain ⟨line, ending⟩ := ih after (by rwa [same])
    have whole : got.1 = s.buffered := by
      change s.buffered.take (s.lineSize limit).1 = s.buffered
      rw [(Stream.lineSize_of_more more).1, ← s.length_buffered, take_length]
    refine ⟨?_, ending.trans same⟩
    rw [at_.toSynced.lineAt_of_more known limit more, ← (Stream.lineSize_of_more more).1,
      ← whole, ← same]
    exact congrArg _ line
  | case3 =>
    rename_i s limit _ stop
    exact ⟨(lineAt_of_end (at_.eof stop) limit).symm, rfl⟩
  | case4 =>
    rename_i s limit some _ s' nothing
    obtain ⟨-, reads, none⟩ := at_.toSynced.fillReadBuffer (by omega) (s.lineRequest limit)
    exact ⟨(lineAt_of_request _ _ at_.chunk (none nothing)).symm, reads.ending⟩
  | case5 =>
    rename_i s limit some _ s' _ ih
    obtain ⟨filled, reads, -⟩ := at_.toSynced.fillReadBuffer (by omega) (s.lineRequest limit)
    obtain ⟨line, ending⟩ := ih ⟨filled, reads.position.trans at_.position⟩ (by rwa [reads.ending])
    rw [reads.ending, reads.data] at line
    exact ⟨line, ending.trans reads.ending⟩

theorem At.getLine (at_ : At dev s pos) (limit : Option Nat) :
    (∃ pos', At dev (s.getLine dev.toOps limit).2 pos') ∧
      dev.data (s.getLine dev.toOps limit).2.abstract = dev.data s.abstract ∧
      (s.getLine dev.toOps limit).2.settings = s.settings := by
  unfold Stream.getLine
  split
  · exact ⟨⟨pos, at_⟩, rfl, rfl⟩
  · obtain ⟨last, data, settings⟩ := at_.getLineLoop limit
    exact ⟨⟨_, last⟩, data, settings⟩

/-- `_jonj_stream_get_line` leaves room for the terminator. -/
theorem At.getLine_eq (at_ : At dev s pos) (known : s.ending ≠ .detect) (limit : Option Nat) :
    (s.getLine dev.toOps limit).1 = (if lineAt s.ending.byte (dev.data s.abstract) pos limit =
      [] then none
          else some (lineAt s.ending.byte (dev.data s.abstract) pos limit)) ∧
      At dev (s.getLine dev.toOps limit).2
        (pos + (lineAt s.ending.byte (dev.data s.abstract) pos limit).length) ∧
      (s.getLine dev.toOps limit).2.ending = s.ending := by
  unfold Stream.getLine
  split
  · next zero =>
    subst zero
    exact ⟨rfl, at_, rfl⟩
  obtain ⟨last, -⟩ := at_.getLineLoop limit
  obtain ⟨line, ending⟩ := at_.getLineLoop_eq known limit
  rw [line] at last
  refine ⟨?_, last, ending⟩
  dsimp only
  rw [line]

/-! ### Writing -/

theorem bmod_pos_iff {n : Nat} (small : n < 2 ^ 31) : 0 < (n : Int).bmod (2 ^ 32) ↔ 0 < n := by
  rw [Int.bmod_eq_of_le (by omega) (by omega)]
  exact Int.natCast_pos

theorem At.writePiece (at_ : At dev s pos) (drained : s.avail = 0) (bytes : Bytes) :
    At dev { s with abstract := (dev.write s.abstract bytes).2,
                    position := s.position + (dev.write s.abstract bytes).1 }
      (pos + (dev.write s.abstract bytes).1) ∧
    dev.data (dev.write s.abstract bytes).2 =
      splice 0 (dev.data s.abstract) pos (bytes.take (dev.write s.abstract bytes).1) := by
  have cursor : dev.cursor s.abstract = pos := by rw [at_.cursor, drained, Nat.add_zero]
  have data := dev.write_data s.abstract bytes
  have moved := dev.write_cursor s.abstract bytes
  rw [cursor] at data moved
  refine ⟨⟨⟨at_.order, at_.fits, at_.chunk, ?_, ?_, ?_⟩, ?_⟩, data⟩
  · change s.buffered = slice _ _ s.avail
    rw [drained, slice_zero, Stream.buffered_eq_nil_iff.mpr drained]
  · change dev.cursor _ = _ + s.avail
    rw [drained, Nat.add_zero, moved]
  · -- at the end, the end moves along
    intro stop
    have atEnd := at_.eof stop
    have bound := length_splice_le 0 (dev.data s.abstract) pos
      (bytes.take (dev.write s.abstract bytes).1)
    rw [length_take] at bound
    rw [data]
    omega
  · rw [at_.position]
    rfl

/-- The pieces are written one after the other, as long as the file takes them. -/
theorem At.writeLoop (at_ : At dev s pos) (small : s.settings.chunkSize < 2 ^ 31)
    (drained : s.avail = 0) (bytes : Bytes) :
    (s.writeLoop dev.toOps bytes).1 ≤ bytes.length ∧
      At dev (s.writeLoop dev.toOps bytes).2 (pos + (s.writeLoop dev.toOps bytes).1) ∧
      dev.data (s.writeLoop dev.toOps bytes).2.abstract =
        splice 0 (dev.data s.abstract) pos (bytes.take (s.writeLoop dev.toOps bytes).1) ∧
      (s.writeLoop dev.toOps bytes).2.settings = s.settings ∧
        (s.writeLoop dev.toOps bytes).2.ending = s.ending := by
  fun_induction Stream.writeLoop dev.toOps s bytes generalizing pos with
  | case1 => exact ⟨Nat.zero_le _, at_, by simp, rfl, rfl⟩
  | case2 =>
    rename_i s bytes _ wrote _ s' rest ih
    obtain ⟨after, data⟩ := at_.writePiece drained (bytes.take s.settings.chunkSize)
    have le := dev.write_le s.abstract (bytes.take s.settings.chunkSize)
    obtain ⟨restLe, last, restData, settings⟩ := ih after small drained
    change wrote.1 ≤ _ at le
    rw [length_take] at le
    rw [length_drop] at restLe
    refine ⟨?_, ?_, ?_, settings⟩
    · change rest.1 ≤ _ at restLe
      omega
    · rw [← Nat.add_assoc]
      exact last
    have piece : (bytes.take s.settings.chunkSize).take wrote.1 = bytes.take wrote.1 := by
      rw [take_take, Nat.min_eq_left (by omega)]
    have length : (bytes.take wrote.1).length = wrote.1 := by rw [length_take]; omega
    rw [piece] at data
    rw [take_add, ← splice_splice, length, ← data]
    exact restData
  | case3 =>
    rename_i s bytes _ wrote stop
    obtain ⟨after, data⟩ := at_.writePiece drained (bytes.take s.settings.chunkSize)
    have le := dev.write_le s.abstract (bytes.take s.settings.chunkSize)
    change wrote.1 ≤ _ at le
    rw [length_take] at le
    have none : wrote.1 = 0 := Nat.eq_zero_of_not_pos fun some =>
      stop ((bmod_pos_iff (by omega)).mpr some)
    rw [none, Int.natCast_zero, Int.add_zero] at after
    rw [none] at data
    exact ⟨Nat.zero_le _, after, data, rfl, rfl⟩

theorem pieces_induction {chunk : Nat} (positive : 0 < chunk) {motive : Bytes → Prop}
    (nil : motive [])
    (append : ∀ piece rest, piece ≠ [] → (piece ++ rest).take chunk = piece → motive rest →
      motive (piece ++ rest))
    (bytes : Bytes) : motive bytes := by
  induction count : bytes.length using Nat.strong_induction_on generalizing bytes with
  | _ n ih =>
    by_cases none : bytes = []
    · rw [none]
      exact nil
    have some : 0 < bytes.length := length_pos_iff.mpr none
    have split := take_append_drop chunk bytes
    rw [← split]
    refine append _ _ (ne_nil_of_length_pos ?_) (by rw [split]) (ih _ ?_ _ rfl)
    · rw [length_take]
      omega
    · rw [length_drop]
      omega

theorem writeLoop_of_taken {ops : Ops F} {s : Stream F} {piece rest : Bytes} (some : piece ≠ [])
    (first : (piece ++ rest).take s.settings.chunkSize = piece)
    (small : s.settings.chunkSize < 2 ^ 31)
    (taken : (ops.write s.abstract piece).1 = piece.length) : s.writeLoop ops (piece ++ rest) =
      Prod.map (piece.length + ·) id (Stream.writeLoop ops
        { s with abstract := (ops.write s.abstract piece).2, position := s.position + piece.length }
          rest) := by
  have positive : 0 < piece.length := length_pos_iff.mpr some
  have short : piece.length ≤ s.settings.chunkSize := first ▸ length_take_le _ _
  rw [Stream.writeLoop, if_neg (append_ne_nil_of_left_ne_nil some rest), first]
  dsimp only
  rw [taken, if_pos ((bmod_pos_iff (by omega)).mpr positive), drop_left]
  rfl

/-- A device that takes everything it is given, whatever else it does, is given the pieces one
behind the other. -/
theorem writeLoop_of_complete {ops : Ops F} {Holds : F → Nat → Bytes → Prop} {s : Stream F}
    {pos : Nat} {data : Bytes}
    (complete : ∀ {f pos data piece}, Holds f pos data → piece ≠ [] →
      piece.length ≤ s.settings.chunkSize →
      (ops.write f piece).1 = piece.length ∧ Holds (ops.write f piece).2 (pos + piece.length)
        (splice 0 data pos piece))
    (chunk : 0 < s.settings.chunkSize) (small : s.settings.chunkSize < 2 ^ 31)
    (holds : Holds s.abstract pos data) (bytes : Bytes) :
    (s.writeLoop ops bytes).1 = bytes.length ∧
      Holds (s.writeLoop ops bytes).2.abstract (pos + bytes.length) (splice 0 data pos bytes) ∧
        (s.writeLoop ops bytes).2 =
        { s with abstract := (s.writeLoop ops bytes).2.abstract,
                 position := s.position + bytes.length } := by
  obtain ⟨size, same⟩ : ∃ size, size = s.settings.chunkSize := ⟨_, rfl⟩
  rw [← same] at complete chunk small
  induction bytes using pieces_induction chunk generalizing s pos data with
  | nil =>
    rw [Stream.writeLoop, if_pos rfl]
    refine ⟨rfl, holds, ?_⟩
    rw [length_nil, Int.natCast_zero, Int.add_zero]
  | append piece rest some first ih =>
    have short : piece.length ≤ size := first ▸ length_take_le _ _
    obtain ⟨all, after⟩ := complete holds some short
    rw [writeLoop_of_taken some (by rwa [← same]) (by rwa [← same]) all]
    obtain ⟨others, last, still⟩ := @ih
      { s with abstract := (ops.write s.abstract piece).2, position := s.position + piece.length }
        _ _ after same
    rw [splice_splice, Nat.add_assoc] at last
    rw [length_append]
    refine ⟨congrArg (piece.length + ·) others, last, ?_⟩
    rw [Nat.cast_add, ← Int.add_assoc]
    exact still

/-- A seek of the file that succeeds; the file stands behind what is buffered. -/
theorem Synced.opsSeek (synced : Synced dev s pos)
    (ok : (s.opsSeek dev.toOps offset whence).1 = true) :
    ∃ target : Nat, seekTarget (dev.data s.abstract).length (pos + s.avail) offset whence =
      some (target : Int) ∧
      (s.opsSeek dev.toOps offset whence).2.position = target ∧
      dev.cursor (s.opsSeek dev.toOps offset whence).2.abstract = target := by
  obtain ⟨newoffset, target⟩ := dev.seek_ok s.abstract offset whence ok
  rw [synced.cursor] at target
  refine ⟨_, target, ?_, rfl⟩
  change Option.getD (dev.seek s.abstract offset whence).1.newoffset _ = _
  rw [newoffset]
  rfl

private theorem eof_opsSeek (stop : (s.opsSeek dev.toOps offset whence).2.eof = true) :
    s.eof = true := by
  change Option.getD (dev.seek s.abstract offset whence).1.eof s.eof = true at stop
  have never := dev.seek_eof s.abstract offset whence
  cases result : (dev.seek s.abstract offset whence).1.eof with
  | none => rwa [result] at stop
  | some flag =>
    rw [result] at stop never
    exact absurd (congrArg some stop) never

theorem synced_dropBuffer (chunk : 0 < s.settings.chunkSize) (cursor : dev.cursor s.abstract = pos)
    (eof : s.eof = true → (dev.data s.abstract).length ≤ pos) : Synced dev s.dropBuffer pos :=
  ⟨le_rfl, Nat.zero_le _, chunk, (slice_zero _ _).symm, cursor, eof⟩

/-- The buffer is dropped before a write, and the cursor brought back. -/
theorem At.rewind (at_ : At dev s pos) (ahead : s.readpos ≠ s.writepos) :
    At dev (s.dropBuffer.opsSeek dev.toOps s.position .set).2 pos ∧
      dev.data (s.dropBuffer.opsSeek dev.toOps s.position .set).2.abstract =
        dev.data s.abstract := by
  have order := at_.order
  have some : 0 < s.avail := by
    unfold Stream.avail
    omega
  have inside : pos ≤ (dev.data s.abstract).length := by
    have := at_.avail_le
    omega
  have ok : (dev.seek s.abstract s.position .set).1.ok = true := by
    rw [at_.position]
    exact dev.seek_within s.abstract pos .set pos rfl inside
  obtain ⟨newoffset, target⟩ := dev.seek_ok s.abstract s.position .set ok
  have cursor : dev.cursor (dev.seek s.abstract s.position .set).2 = pos := by
    have := Option.some.inj target
    rw [at_.position] at this ⊢
    omega
  have data := dev.seek_data s.abstract s.position .set
  refine ⟨⟨⟨le_rfl, Nat.zero_le _, at_.chunk, (slice_zero _ _).symm, cursor, ?_⟩, ?_⟩, data⟩
  · intro stop
    change (dev.data (dev.seek s.abstract s.position .set).2).length ≤ pos
    rw [data]
    exact at_.eof (eof_opsSeek stop)
  · change Option.getD (dev.seek s.abstract s.position .set).1.newoffset _ = _
    rw [newoffset, cursor]
    rfl

theorem At.write (at_ : At dev s pos) (small : s.settings.chunkSize < 2 ^ 31) (bytes : Bytes) :
    (s.write dev.toOps bytes).1 ≤ bytes.length ∧
      At dev (s.write dev.toOps bytes).2 (pos + (s.write dev.toOps bytes).1) ∧
      dev.data (s.write dev.toOps bytes).2.abstract =
        splice 0 (dev.data s.abstract) pos (bytes.take (s.write dev.toOps bytes).1) ∧
      (s.write dev.toOps bytes).2.settings = s.settings ∧
        (s.write dev.toOps bytes).2.ending = s.ending := by
  unfold Stream.write
  split
  · exact ⟨Nat.zero_le _, at_, by simp, rfl, rfl⟩
  split
  · next ahead =>
    obtain ⟨back, data⟩ := at_.rewind ahead
    obtain ⟨le, last, written, settings⟩ := back.writeLoop small rfl bytes
    rw [data] at written
    exact ⟨le, last, written, settings⟩
  next level =>
  have drained : s.avail = 0 := by
    unfold Stream.avail
    omega
  exact at_.writeLoop small drained bytes

theorem write_eq_length (complete : ∀ f bytes, (dev.write f bytes).1 = bytes.length)
    (chunk : 0 < s.settings.chunkSize) (small : s.settings.chunkSize < 2 ^ 31) (bytes : Bytes) :
    (s.write dev.toOps bytes).1 = bytes.length := by
  have loop : ∀ s' : Stream F, s'.settings = s.settings →
      (s'.writeLoop dev.toOps bytes).1 = bytes.length := by
    intro s' same
    exact (@writeLoop_of_complete F dev.toOps (fun _ _ _ => True) s' 0 []
      (fun _ _ _ => ⟨complete _ _, trivial⟩)
      (by rwa [same]) (by rwa [same]) trivial bytes).1
  unfold Stream.write
  split
  · next none => rw [none]; rfl
  split
  · exact loop _ rfl
  · exact loop _ rfl

/-! ### Seeking -/

theorem At.skip (at_ : At dev s pos) {n : Nat} (le : n ≤ s.avail) :
    At dev (s.skip n) (pos + n) := by
  have order := at_.order
  have rest : (s.skip n).avail = s.avail - n := by
    simp only [Stream.skip, Stream.avail]
    omega
  have buffered : (s.skip n).buffered = s.buffered.drop n := by
    have taken := s.buffered_take n
    simp only [Stream.take, Nat.min_eq_left le] at taken
    exact taken
  refine ⟨⟨?_, at_.fits, at_.chunk, ?_, ?_, fun stop => absurd stop Bool.false_ne_true⟩, ?_⟩
  · simp only [Stream.skip, Stream.avail] at le ⊢
    omega
  · rw [buffered, at_.buffered, drop_slice, rest]
    rfl
  · exact at_.cursor.trans (by omega)
  · change s.position + _ = _
    rw [at_.position]
    rfl

/-- A target inside the buffer. -/
theorem At.inBuffer (at_ : At dev s pos) {n : Nat} (inside : s.inBuffer offset whence = some n) :
    n ≤ s.avail ∧ seekTarget (dev.data s.abstract).length pos offset whence =
      some ((pos + n : Nat) : Int) := by
  have position := at_.position
  unfold Stream.inBuffer at inside
  split at inside
  · cases inside
  split at inside
  · split at inside
    · next bounds =>
      cases inside
      exact ⟨by omega, congrArg some (by omega)⟩
    · cases inside
  · split at inside
    · next bounds =>
      cases inside
      exact ⟨by omega, congrArg some (by omega)⟩
    · cases inside
  · cases inside

/-- The part of a seek that goes to the device. -/
def Stream.sink (ops : Ops F) (s : Stream F) (offset : Int) (whence : Whence) : Bool × Stream F :=
  if whence = .cur then s.opsSeek ops (s.position + offset) .set else s.opsSeek ops offset whence

theorem Stream.seek_of_outside (ops : Ops F) (outside : s.inBuffer offset whence = none) :
    s.seek ops offset whence =
      ((s.sink ops offset whence).1, { (s.sink ops offset whence).2 with
          eof := if (s.sink ops offset whence).1 then false
            else (s.sink ops offset whence).2.eof }.dropBuffer) := by
  unfold Stream.seek
  rw [outside]
  rfl

theorem Stream.sink_eq (ops : Ops F) (offset : Int) (whence : Whence) :
    ∃ offset' whence', s.sink ops offset whence = s.opsSeek ops offset' whence' ∧
      (whence' = .other ↔ whence = .other) ∧
      ∀ length cursor cursor' : Nat, s.position = cursor →
        seekTarget length cursor' offset' whence' = seekTarget length cursor offset whence := by
  cases whence with
  | cur => exact ⟨_, _, if_pos rfl, by simp, fun _ _ _ position => by rw [position]; rfl⟩
  | set => exact ⟨_, _, if_neg nofun, Iff.rfl, fun _ _ _ _ => rfl⟩
  | end_ => exact ⟨_, _, if_neg nofun, Iff.rfl, fun _ _ _ _ => rfl⟩
  | other => exact ⟨_, _, if_neg nofun, Iff.rfl, fun _ _ _ _ => rfl⟩

/-- A seek that reports success has reached its target. -/
theorem At.seek (at_ : At dev s pos) (ok : (s.seek dev.toOps offset whence).1 = true) :
    ∃ target : Nat, seekTarget (dev.data s.abstract).length pos offset whence =
      some (target : Int) ∧
      At dev (s.seek dev.toOps offset whence).2 target ∧
      dev.data (s.seek dev.toOps offset whence).2.abstract = dev.data s.abstract ∧
      (s.seek dev.toOps offset whence).2.settings = s.settings ∧
        (s.seek dev.toOps offset whence).2.ending = s.ending := by
  cases place : s.inBuffer offset whence with
  | some n =>
    obtain ⟨le, target⟩ := at_.inBuffer place
    have moved : s.seek dev.toOps offset whence = (true, s.skip n) := by rw [Stream.seek, place]
    rw [moved]
    exact ⟨_, target, at_.skip le, rfl, rfl, rfl⟩
  | none =>
    obtain ⟨offset', whence', sink, -, same⟩ := Stream.sink_eq (s := s) dev.toOps offset whence
    rw [Stream.seek_of_outside dev.toOps place, sink] at ok ⊢
    obtain ⟨target, target_eq, position, cursor⟩ := at_.toSynced.opsSeek ok
    rw [same _ pos _ at_.position] at target_eq
    rw [if_pos ok]
    exact ⟨target, target_eq, ⟨synced_dropBuffer at_.chunk cursor nofun, position⟩,
      dev.seek_data _ _ _, rfl, rfl⟩

end

end Jonj.Streams
