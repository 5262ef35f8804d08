import Jonj.Streams.Synced

/-!
# Records

`jonj_stream_get_record`, on a stream that may have read filters, and what a run of calls takes out
of a stream without them.
-/
namespace Jonj.Streams

open List

/-- `PSFS_FLAG_*` -/
inductive Flags
  | normal
  | flushInc
  | flushClose
  deriving DecidableEq, Repr

/-- `jonj_stream_filter_status_t` -/
inductive FilterStatus
  | errFatal
  | feedMe
  | passOn
  deriving DecidableEq, Repr

/-- `jonj_stream_filter_ops`. A brigade is the list of its buckets, and a filter keeps what it does
not consume in its own state. -/
structure Filter (G : Type) where
  filter : G → List Bytes → Flags → FilterStatus × List Bytes × G

/-- A stream with its chain of read filters, each with its state. -/
structure Filtered (F G : Type) where
  stream : Stream F
  readfilters : List (Filter G × G)

variable {F G : Type}

/-- A brigade is passed down the chain until a filter does not pass it on. -/
def windHandle :
    List (Filter G × G) → List Bytes → Flags → FilterStatus × List Bytes × List (Filter G × G)
  | [], brigade, _ => (.passOn, brigade, [])
  | (f, g) :: chain, brigade, flags =>
    let (status, brigade, g) := f.filter g brigade flags
    if status = .passOn then
      let (status, brigade, chain) := windHandle chain brigade flags
      (status, brigade, (f, g) :: chain)
    else (status, [], (f, g) :: chain)

/-- What was read is sent down the chain; without data the filters are to flush. -/
def wind (chain : List (Filter G × G)) (bytes : Bytes) (eof : Bool) :
    FilterStatus × List Bytes × List (Filter G × G) :=
  if bytes ≠ [] then windHandle chain [bytes] .normal
  else windHandle chain [] (if eof then .flushClose else .flushInc)

/-- A bucket is stored behind `writepos`, where room is made for it. -/
def Stream.store (s : Stream F) (bucket : Bytes) : Stream F :=
  let s := if s.readbuflen - s.writepos < bucket.length then
    { s with readbuflen := s.readbuflen + bucket.length } else s
  s.receive bucket s.eof s.abstract

/-- What comes out of the chain goes to the buffer if the last filter has passed it on. -/
def Stream.deliver (s : Stream F) (status : FilterStatus) (brigade : List Bytes) : Stream F :=
  if status = .passOn then brigade.foldl store s else s

structure Stored (s s' : Stream F) : Prop where
  abstract : s'.abstract = s.abstract
  eof : s'.eof = s.eof
  settings : s'.settings = s.settings
  position : s'.position = s.position
  readpos : s'.readpos = s.readpos

theorem stored_deliver (s : Stream F) (status : FilterStatus) (brigade : List Bytes) :
    Stored s (s.deliver status brigade) := by
  unfold Stream.deliver
  split
  · induction brigade generalizing s with
    | nil => exact ⟨rfl, rfl, rfl, rfl, rfl⟩
    | cons bucket brigade ih =>
      have one : Stored s (s.store bucket) := by
        unfold Stream.store
        split <;> exact ⟨rfl, rfl, rfl, rfl, rfl⟩
      have rest := ih (s.store bucket)
      exact ⟨rest.abstract.trans one.abstract, rest.eof.trans one.eof,
        rest.settings.trans one.settings,
        rest.position.trans one.position, rest.readpos.trans one.readpos⟩
  · exact ⟨rfl, rfl, rfl, rfl, rfl⟩

/-- The delimiter of one byte is found by `memchr`, a longer one by `jonj_memnstr`, whose
`needle_len` is an `int`. A length that is not positive then reads in front of the needle; here
nothing is found. -/
def findDelim (delim bytes : Bytes) : Option Nat :=
  match delim with
  | [byte] => Stream.memchr byte bytes
  | needle =>
    let needleLen := (needle.length : Int).bmod (2 ^ 32)
    if needleLen ≤ 0 then none
    else (range (bytes.length + 1)).find? fun i =>
      (needle.take needleLen.toNat).isPrefixOf (bytes.drop i)

/-- What `jonj_stream_get_record` returns, and whether the delimiter behind it was skipped. -/
structure Record where
  bytes : Bytes
  delimited : Bool
  deriving DecidableEq, Repr

namespace Filtered

/-- One round of the loop of `_jonj_stream_fill_read_buffer` with filters, and whether it is the
last. A read that fails with -1 is not there. -/
def fillStep (ops : Ops F) (x : Filtered F G) : Bool × Filtered F G :=
  let got := ops.read x.stream.abstract x.stream.eof x.stream.settings.chunkSize
  let out := wind x.readfilters got.1 got.2.1
  let s := { x.stream with abstract := got.2.2, eof := got.2.1 }
  (got.1 = [] ∨ out.1 = .errFatal, ⟨s.deliver out.1 out.2.1, out.2.2⟩)

def fillLoop (ops : Ops F) (x : Filtered F G) (size : Nat) : Filtered F G :=
  if x.stream.eof = false ∧ x.stream.avail < size then
    let step := x.fillStep ops
    if step.1 then step.2 else fillLoop ops step.2 size
  else x
termination_by ops.left x.stream.abstract
decreasing_by
  rename_i more
  have bound := ops.read_left x.stream.abstract x.stream.eof x.stream.settings.chunkSize
  have some : (ops.read x.stream.abstract x.stream.eof x.stream.settings.chunkSize).1 ≠ [] := by
    intro none
    exact more (by simp [step, fillStep, none])
  have positive := length_pos_iff.mpr some
  rw [fillStep, (stored_deliver _ _ _).abstract]
  dsimp only
  omega

def fillReadBuffer (ops : Ops F) (x : Filtered F G) (size : Nat) : Filtered F G :=
  if x.readfilters = [] then { x with stream := x.stream.fillReadBuffer ops size }
  else fillLoop ops { x with stream := x.stream.dropBuffer } size

/-- An operation on the stream alone. -/
def lift (x : Filtered F G) (got : Bytes × Stream F) : Bytes × Filtered F G :=
  (got.1, { x with stream := got.2 })

def take (x : Filtered F G) (n : Nat) : Bytes × Filtered F G := x.lift (x.stream.take n)

/-- What `_jonj_stream_read` gets when the buffer is drained; with filters always through it. -/
def readMore (ops : Ops F) (x : Filtered F G) (size : Nat) : Bytes × Filtered F G :=
  if x.readfilters = [] then x.lift (x.stream.readMore ops size)
  else (x.fillReadBuffer ops size).take size

def readLoop (ops : Ops F) (x : Filtered F G) (size : Nat) : Bytes × Filtered F G :=
  Streams.readLoop take (readMore ops) (fun x => x.stream.settings.plainWrapper) x size

/-- `_jonj_stream_read` -/
def read (ops : Ops F) (x : Filtered F G) (size : Nat) : Bytes × Filtered F G :=
  let got := x.readLoop ops size
  (got.1,
    { got.2 with stream := { got.2.stream with position := x.stream.position + got.1.length } })

/-- `_jonj_stream_search_delim`, if there is a delimiter; the place is counted from `readpos`. -/
def searchDelim (x : Filtered F G) (maxlen skiplen : Nat) (delim : Bytes) : Option Nat :=
  let seekLen := min x.stream.avail maxlen
  if delim = [] ∨ seekLen ≤ skiplen then none
  else (findDelim delim ((x.stream.buffered.take seekLen).drop skiplen)).map (skiplen + ·)

/-- The loop of `jonj_stream_get_record`; `none` if it has not ended after so many rounds.
`just_read` is computed modulo 2^64, so that it is 0 only if the amount in the buffer is the same as
before, and it is not smaller than 0 if the amount shrinks. -/
def recordLoop (ops : Ops F) (maxlen : Nat) (delim : Bytes) :
    Nat → Filtered F G → Nat → Option (Option Nat × Filtered F G)
  | 0, _, _ => none
  | rounds + 1, x, bufferedLen =>
    if bufferedLen < maxlen then
      let x := x.fillReadBuffer ops (bufferedLen +
        min (maxlen - bufferedLen) x.stream.settings.chunkSize)
      if x.stream.avail = bufferedLen then some (none, x)
      else
        match x.searchDelim maxlen (bufferedLen - (delim.length - 1)) delim with
        | some i => some (some i, x)
        | none => recordLoop ops maxlen delim rounds x x.stream.avail
    else some (none, x)

/-- The end of `jonj_stream_get_record`, with the place of the delimiter. -/
def takeRecord (ops : Ops F) (maxlen : Nat) (delim : Bytes) (found : Option Nat)
    (x : Filtered F G) :
    Option Record × Filtered F G :=
  match found with
  | some i =>
    let (bytes, x) := x.read ops i
    (some ⟨bytes, true⟩, { x with stream :=
      { x.stream with readpos := x.stream.readpos + delim.length,
                      position := x.stream.position + delim.length } })
  | none =>
    if delim = [] ∧ maxlen ≤ x.stream.avail then
      let (bytes, x) := x.read ops maxlen
      (some ⟨bytes, false⟩, x)
    else if x.stream.avail < maxlen ∧ x.stream.eof = false then (none, x)
    else if x.stream.avail = 0 ∧ x.stream.eof = true then (none, x)
    else
      let (bytes, x) := x.read ops (min x.stream.avail maxlen)
      (some ⟨bytes, false⟩, x)

/-- The place of the delimiter, in what is buffered or in what is read. More than `maxlen` rounds
are only possible if a fill with filters empties the buffer over and over. -/
def locate (ops : Ops F) (x : Filtered F G) (maxlen : Nat) (delim : Bytes) :
    Option (Option Nat × Filtered F G) :=
  match x.searchDelim maxlen 0 delim with
  | some i => some (some i, x)
  | none => recordLoop ops maxlen delim (maxlen + 1) x x.stream.avail

def getRecord (ops : Ops F) (x : Filtered F G) (maxlen : Nat) (delim : Bytes) :
    Option (Option Record × Filtered F G) :=
  if maxlen = 0 then some (none, x) else (x.locate ops maxlen delim).map fun r =>
    takeRecord ops maxlen delim r.1 r.2

end Filtered

/-! ### Runs of calls -/

inductive Call
  | record (maxlen : Nat) (delim : Bytes)
  | read (size : Nat)

inductive Result
  | record (delim : Bytes) (record : Option Record)
  | read (bytes : Bytes)
  deriving DecidableEq

/-- The bytes that a call has moved past, the delimiter included. -/
def Result.bytes : Result → Bytes
  | .record _ none => []
  | .record delim (some r) => r.bytes ++ if r.delimited then delim else []
  | .read bytes => bytes

def Call.run (ops : Ops F) (x : Filtered F G) : Call → Option (Result × Filtered F G)
  | .record maxlen delim => (x.getRecord ops maxlen delim).map fun r => (.record delim r.1, r.2)
  | .read size => some (.read (x.read ops size).1, (x.read ops size).2)

def runCalls (ops : Ops F) : Filtered F G → List Call → Option (List Result × Filtered F G)
  | x, [] => some ([], x)
  | x, call :: calls =>
    (call.run ops x).bind fun r => (runCalls ops r.2 calls).map fun rest => (r.1 :: rest.1, rest.2)

/-! ### The read loop -/

variable {x : Filtered F G}

namespace Filtered

/-- `readpos` and `position` behind the next bytes of the buffer. -/
def advance (x : Filtered F G) (n : Nat) : Filtered F G :=
  { x with stream := { x.stream with readpos := x.stream.readpos + n,
                                     position := x.stream.position + n } }

theorem length_take (x : Filtered F G) (n : Nat) : (x.take n).1.length = min n x.stream.avail := by
  simp [take, lift, Stream.take]

theorem order_take (x : Filtered F G) (order : x.stream.readpos ≤ x.stream.writepos) (n : Nat) :
    (x.take n).2.stream.readpos ≤ (x.take n).2.stream.writepos := by
  change x.stream.readpos + min n x.stream.avail ≤ x.stream.writepos
  unfold Stream.avail
  omega

theorem take_append_buffered (x : Filtered F G) (n : Nat) :
    (x.take n).1 ++ (x.take n).2.stream.buffered = x.stream.buffered := by
  change x.stream.buffered.take n ++ (x.stream.take n).2.buffered = _
  rw [x.stream.buffered_take, take_append_drop]

/-- What holds with the bytes taken so far keeps to hold, if taking from the buffer, filling the
drained buffer and a raw read keep it. -/
theorem readLoop_rule {ops : Ops F} {Holds : Bytes → Filtered F G → Prop}
    (take : ∀ {taken x} n, Holds taken x → Holds (taken ++ (x.take n).1) (x.take n).2)
    (fill : ∀ {taken x} size, x.stream.avail = 0 → Holds taken x →
      Holds taken (x.fillReadBuffer ops size))
    (raw : ∀ {taken x} size, x.readfilters = [] → x.stream.avail = 0 → Holds taken x →
      Holds (taken ++ (ops.read x.stream.abstract x.stream.eof size).1)
        { x with stream := { x.stream with
        abstract := (ops.read x.stream.abstract x.stream.eof size).2.2
        eof := (ops.read x.stream.abstract x.stream.eof size).2.1 } })
    (x : Filtered F G) (size : Nat) {taken : Bytes} (holds : Holds taken x) :
    Holds (taken ++ (x.readLoop ops size).1) (x.readLoop ops size).2 := by
  refine Streams.readLoop_rule take ?_ x size holds
  intro got x n size short behind
  have drained : (x.take n).2.stream.avail = 0 := by
    have length := x.length_take n
    have amount := x.stream.avail_take n
    change (x.stream.take n).2.avail = 0
    omega
  have filled := take size (fill size drained behind)
  unfold readMore
  split
  next unfiltered =>
    unfold Stream.readMore
    split
    next => exact raw size unfiltered drained behind
    next =>
      rw [fillReadBuffer, if_pos unfiltered] at filled
      exact filled
  next => exact filled

theorem read_of_le (ops : Ops F) {n : Nat} (le : n ≤ x.stream.avail) :
    x.read ops n = (x.stream.buffered.take n, x.advance n) := by
  have length := x.length_take n
  have loop : x.readLoop ops n = x.take n := by
    rw [readLoop, Streams.readLoop]
    split
    next zero => simp [take, lift, Stream.take, zero]
    next => exact if_pos (by omega)
  rw [read, loop]
  simp [take, lift, Stream.take, advance, le]

end Filtered

/-! ### The search for the delimiter -/

section search

variable {delim bytes : Bytes}

private theorem infix_iff_exists_drop : delim <:+: bytes ↔ ∃ j, delim <+: bytes.drop j := by
  constructor
  · rintro ⟨before, behind, rfl⟩
    refine ⟨before.length, ?_⟩
    simp
  · rintro ⟨j, occurs⟩
    exact occurs.isInfix.trans (drop_suffix j bytes).isInfix

private theorem findDelim_spec (nonempty : delim ≠ []) (short : delim.length < 2 ^ 31) :
    (∀ k, findDelim delim bytes = some k → delim <+: bytes.drop k ∧
      ∀ j < k, ¬delim <+: bytes.drop j) ∧
      (findDelim delim bytes = none → ∀ j, ¬delim <+: bytes.drop j) := by
  unfold findDelim
  split
  next byte =>
    have occurs : ∀ j, [byte] <+: bytes.drop j ↔ bytes[j]? = some byte := by
      intro j
      rw [prefix_iff_getElem?]
      simp
    simp only [occurs]
    refine ⟨fun k found => ?_, fun absent j here => memchr_eq_none absent (mem_of_getElem? here)⟩
    obtain ⟨member, rfl⟩ := memchr_eq_some found
    refine ⟨getElem?_idxOf member, fun j before here => ?_⟩
    have other := not_of_lt_findIdx before
    rw [getElem?_eq_some_iff] at here
    obtain ⟨_, same⟩ := here
    simp [same] at other
  next =>
    have same : (delim.length : Int).bmod (2 ^ 32) = delim.length :=
      Int.bmod_eq_of_le (by omega) (by omega)
    have positive := length_pos_iff.mpr nonempty
    rw [same, if_neg (by omega), Int.toNat_natCast, take_length]
    refine ⟨fun k found => ?_, fun absent j here => ?_⟩
    · obtain ⟨here, _, before⟩ := find?_range_eq_some.mp found
      refine ⟨List.isPrefixOf_iff_prefix.mp here, fun j less occurs => ?_⟩
      have other := before j less
      rw [List.isPrefixOf_iff_prefix.mpr occurs] at other
      cases other
    have inside := here.length_le
    rw [length_drop] at inside
    have other := find?_range_eq_none.mp absent j (by omega)
    rw [List.isPrefixOf_iff_prefix.mpr here] at other
    cases other

end search

/-- Where the delimiter is in the buffer, as `jonj_stream_get_record` sees it. -/
structure Located (maxlen : Nat) (delim : Bytes) (x : Filtered F G) (found : Option Nat) :
    Prop where
  place : ∀ i, found = some i →
    delim ≠ [] ∧ delim <+: x.stream.buffered.drop i ∧ ¬delim <:+: x.stream.buffered.take i
  absent : found = none → delim ≠ [] → ¬delim <:+: x.stream.buffered.take maxlen

variable {delim : Bytes}

/-- A search that skips what has been searched, but for the bytes where a delimiter may have begun,
misses nothing. -/
theorem located_searchDelim (x : Filtered F G) (maxlen : Nat) (short : delim.length < 2 ^ 31)
    {n : Nat} (searched : delim ≠ [] → ¬delim <:+: x.stream.buffered.take n) :
    Located maxlen delim x (x.searchDelim maxlen (n - (delim.length - 1)) delim) := by
  unfold Filtered.searchDelim
  generalize skips : n - (delim.length - 1) = skip
  by_cases none : delim = []
  · exact ⟨by simp [none], fun _ some => absurd none some⟩
  have positive := length_pos_iff.mpr none
  have inside : ∀ m j, delim <+: (x.stream.buffered.take m).drop j ↔
      delim <+: x.stream.buffered.drop j ∧ delim.length ≤ m - j := by
    intro m j
    rw [drop_take, prefix_take_iff]
  -- an occurrence that begins in front of the skipped place would lie in what has been searched
  have later : ∀ j, delim <+: x.stream.buffered.drop j → skip ≤ j := by
    intro j occurs
    by_contra before
    exact searched none (infix_iff_exists_drop.mpr ⟨j, (inside n j).mpr ⟨occurs, by omega⟩⟩)
  have within : ∀ j, delim <+: x.stream.buffered.drop j → delim.length ≤ x.stream.avail - j := by
    intro j occurs
    simpa using occurs.length_le
  obtain ⟨first, nowhere⟩ := @findDelim_spec delim
    ((x.stream.buffered.take (min x.stream.avail maxlen)).drop skip) none short
  simp only [drop_drop, inside] at first nowhere
  simp only [none, false_or]
  split
  next =>
    refine ⟨nofun, fun _ _ occurs => ?_⟩
    obtain ⟨j, here⟩ := infix_iff_exists_drop.mp occurs
    have bound := (inside maxlen j).mp here
    have := later j bound.1
    have := within j bound.1
    omega
  next =>
    refine ⟨fun i found => ?_, fun absent _ occurs => ?_⟩
    · obtain ⟨k, here, rfl⟩ := Option.map_eq_some_iff.mp found
      obtain ⟨⟨occurs, room⟩, before⟩ := first k here
      refine ⟨none, occurs, fun earlier => ?_⟩
      obtain ⟨j, other⟩ := infix_iff_exists_drop.mp earlier
      have bound := (inside _ j).mp other
      have := later j bound.1
      refine before (j - skip) (by omega) ?_
      rw [Nat.add_sub_cancel' this]
      exact ⟨bound.1, by omega⟩
    · obtain ⟨j, here⟩ := infix_iff_exists_drop.mp occurs
      have bound := (inside maxlen j).mp here
      have from_ := later j bound.1
      have := within j bound.1
      refine nowhere (Option.map_eq_none_iff.mp absent) (j - skip) ?_
      rw [Nat.add_sub_cancel' from_]
      exact ⟨bound.1, by omega⟩

theorem located_first (x : Filtered F G) (maxlen : Nat) (short : delim.length < 2 ^ 31) :
    Located maxlen delim x (x.searchDelim maxlen 0 delim) := by
  have nothing : delim ≠ [] → ¬delim <:+: x.stream.buffered.take 0 :=
    fun some found => some (by simpa using found)
  simpa using located_searchDelim x maxlen short nothing

namespace Filtered

/-- A record is the beginning of what is in the buffer, and has no delimiter in it. -/
theorem takeRecord_spec (ops : Ops F) {maxlen : Nat} {found : Option Nat}
    (located : Located maxlen delim x found) :
    ∃ n ≤ x.stream.avail, (Result.record delim (takeRecord ops maxlen delim found x).1).bytes =
      x.stream.buffered.take n ∧
      (takeRecord ops maxlen delim found x).2 = x.advance n ∧
      ∀ r, (takeRecord ops maxlen delim found x).1 = some r → delim ≠ [] → ¬delim <:+: r.bytes := by
  have nothing : x.advance 0 = x := by simp [advance]
  cases found with
  | some i =>
    obtain ⟨some, occurs, clear⟩ := located.place i rfl
    have room : delim.length ≤ x.stream.avail - i := by simpa using occurs.length_le
    have positive := length_pos_iff.mpr some
    rw [takeRecord, read_of_le ops (by omega)]
    refine ⟨i + delim.length, by omega, ?_, ?_, ?_⟩
    · rw [take_add, ← prefix_iff_eq_take.mp occurs]
      rfl
    · simp [advance, Nat.add_assoc, Int.add_assoc]
    · rintro r ⟨⟩ _
      exact clear
  | none =>
    rw [takeRecord]
    split
    next whole =>
      rw [read_of_le ops whole.2]
      refine ⟨maxlen, whole.2, by simp [Result.bytes], rfl, fun _ _ some => absurd whole.1 some⟩
    next =>
    split
    next => exact ⟨0, Nat.zero_le _, rfl, nothing.symm, nofun⟩
    next =>
    split
    next => exact ⟨0, Nat.zero_le _, rfl, nothing.symm, nofun⟩
    next =>
    rw [read_of_le ops (min_le_left _ _)]
    refine ⟨_, min_le_left _ _, by simp [Result.bytes], rfl, ?_⟩
    rintro r ⟨⟩ some
    have clear := located.absent rfl some
    have same : x.stream.buffered.take (min x.stream.avail maxlen) =
        x.stream.buffered.take maxlen := by
      rw [← x.stream.length_buffered, Nat.min_comm, ← take_take, take_length]
    rwa [same]

end Filtered

/-! ### Without filters -/

/-- The data that is still to come. A read takes its next piece, of any length up to the one asked
for. -/
structure Feeds (ops : Ops F) (rest : F → Bytes) : Prop where
  short : ∀ f eof n, (ops.read f eof n).1.length ≤ n
  split : ∀ f eof n, rest f = (ops.read f eof n).1 ++ rest (ops.read f eof n).2.2

/-- What was taken, what is in the buffer and what is still to come are the data. -/
structure Intact (rest : F → Bytes) (data : Bytes) (pos : Int) (taken : Bytes) (x : Filtered F G) :
    Prop where
  unfiltered : x.readfilters = []
  order : x.stream.readpos ≤ x.stream.writepos
  fits : x.stream.writepos ≤ x.stream.readbuflen
  position : x.stream.position = pos
  bytes : taken ++ (x.stream.buffered ++ rest x.stream.abstract) = data

namespace Intact

variable {ops : Ops F} {rest : F → Bytes} {data taken : Bytes} {pos : Int} {x : Filtered F G}
    (feeds : Feeds ops rest) (intact : Intact rest data pos taken x)

include intact

theorem take (n : Nat) : Intact rest data pos (taken ++ (x.take n).1) (x.take n).2 where
  __ := intact
  order := x.order_take intact.order n
  bytes := by
    rw [← intact.bytes, append_assoc, ← append_assoc (x.take n).1, x.take_append_buffered]
    rfl

theorem advance {n : Nat} (le : n ≤ x.stream.avail) :
    Intact rest data (pos + n) (taken ++ x.stream.buffered.take n) (x.advance n) := by
  have moved := intact.take n
  have place : x.stream.readpos + min n x.stream.avail = x.stream.readpos + n := by omega
  have order := moved.order
  have bytes := moved.bytes
  simp only [Filtered.take, Filtered.lift, Stream.take, place] at order bytes
  exact ⟨intact.unfiltered, order, intact.fits, congrArg (· + (n : Int)) intact.position, bytes⟩

include feeds

theorem fillReadBuffer (size : Nat) : Intact rest data pos taken (x.fillReadBuffer ops size) ∧
      x.stream.buffered <+: (x.fillReadBuffer ops size).stream.buffered := by
  have plain : x.fillReadBuffer ops size = { x with stream := x.stream.fillReadBuffer ops size } :=
    if_pos intact.unfiltered
  rw [plain]
  by_cases few : x.stream.avail < size
  · have ⟨order, room⟩ := Stream.pointers_makeRoom intact.order intact.fits
    have short := feeds.short x.stream.makeRoom.abstract x.stream.makeRoom.eof
      (x.stream.makeRoom.readbuflen - x.stream.makeRoom.writepos)
    have split := feeds.split x.stream.makeRoom.abstract x.stream.makeRoom.eof
      (x.stream.makeRoom.readbuflen - x.stream.makeRoom.writepos)
    rw [Stream.fillReadBuffer_of_lt ops few]
    generalize ops.read x.stream.makeRoom.abstract _ _ = got at short split ⊢
    have buffered := Stream.buffered_receive order got.1 got.2.1 got.2.2
    rw [Stream.buffered_makeRoom intact.fits] at buffered
    refine ⟨⟨intact.unfiltered, ?_, ?_, x.stream.makeRoom_same.2.1.trans intact.position, ?_⟩, ?_⟩
    · exact order.trans (Nat.le_add_right _ _)
    · change x.stream.makeRoom.writepos + got.1.length ≤ x.stream.makeRoom.readbuflen
      omega
    · rw [buffered, append_assoc, ← intact.bytes, ← x.stream.abstract_makeRoom, split]
      rfl
    · rw [buffered]
      exact prefix_append _ _
  · have enough : x.stream.fillReadBuffer ops size = x.stream := if_neg few
    rw [enough]
    exact ⟨intact, prefix_rfl⟩

theorem raw (drained : x.stream.avail = 0) (size : Nat) :
    Intact rest data pos (taken ++ (ops.read x.stream.abstract x.stream.eof size).1)
      { x with stream := { x.stream with
      abstract := (ops.read x.stream.abstract x.stream.eof size).2.2
      eof := (ops.read x.stream.abstract x.stream.eof size).2.1 } } where
  __ := intact
  bytes := by
    have empty := Stream.buffered_eq_nil_iff.mpr drained
    have bytes := intact.bytes
    rw [feeds.split _ x.stream.eof size, empty] at bytes
    rw [append_assoc, ← bytes]
    change taken ++ (_ ++ (x.stream.buffered ++ _)) = _
    rw [empty, nil_append, nil_append]

theorem read (size : Nat) :
    Intact rest data (pos + (x.read ops size).1.length) (taken ++ (x.read ops size).1)
      (x.read ops size).2 := by
  have loop : Intact rest data pos (taken ++ (x.readLoop ops size).1) (x.readLoop ops size).2 :=
    Filtered.readLoop_rule (fun n intact => intact.take n)
      (fun size _ intact => (intact.fillReadBuffer feeds size).1)
      (fun size _ drained intact => intact.raw feeds drained size) x size intact
  exact ⟨loop.unfiltered, loop.order, loop.fits, by rw [← intact.position]; rfl, loop.bytes⟩

/-- The loop finds the delimiter or knows that it is not there, in as many rounds as there are bytes
to come. -/
theorem recordLoop {maxlen : Nat} (short : delim.length < 2 ^ 31) {rounds : Nat}
    (enough : maxlen - x.stream.avail < rounds)
    (searched : delim ≠ [] → ¬delim <:+: x.stream.buffered.take maxlen) :
    ∃ found x', Filtered.recordLoop ops maxlen delim rounds x x.stream.avail = some (found, x') ∧
      Intact rest data pos taken x' ∧ Located maxlen delim x' found := by
  induction rounds generalizing x with
  | zero => omega
  | succ rounds ih =>
    rw [Filtered.recordLoop]
    split
    next few =>
      have whole : x.stream.buffered.take maxlen = x.stream.buffered := by
        simpa using few.le
      rw [whole] at searched
      obtain ⟨filled, grown⟩ := intact.fillReadBuffer feeds
        (x.stream.avail + min (maxlen - x.stream.avail) x.stream.settings.chunkSize)
      dsimp only
      generalize x.fillReadBuffer ops _ = x' at filled grown ⊢
      have more := grown.length_le
      have old := prefix_iff_eq_take.mp grown
      rw [x.stream.length_buffered] at more old
      rw [x'.stream.length_buffered] at more
      split
      next same =>
        -- nothing has come, so the buffer is what has been searched
        refine ⟨none, x', rfl, filled, nofun, fun _ some found => searched some ?_⟩
        have part : x'.stream.buffered.take maxlen <+: x'.stream.buffered := take_prefix maxlen _
        rw [old, ← same, ← x'.stream.length_buffered, take_length]
        exact found.trans part.isInfix
      next new =>
      rw [old] at searched
      have located := located_searchDelim x' maxlen short searched
      split
      next i found =>
        rw [found] at located
        exact ⟨some i, x', rfl, filled, located⟩
      next absent =>
        rw [absent] at located
        exact ih filled (by omega) (located.absent rfl)
    next full => exact ⟨none, x, rfl, intact, nofun, fun _ => searched⟩

theorem locate (maxlen : Nat) (short : delim.length < 2 ^ 31) :
    ∃ found x', x.locate ops maxlen delim = some (found, x') ∧
      Intact rest data pos taken x' ∧ Located maxlen delim x' found := by
  have first := located_first x maxlen short
  unfold Filtered.locate
  split
  next i found =>
    rw [found] at first
    exact ⟨some i, x, rfl, intact, first⟩
  next absent =>
    rw [absent] at first
    exact intact.recordLoop feeds short (by omega) (first.absent rfl)

theorem getRecord (maxlen : Nat) (short : delim.length < 2 ^ 31) :
    ∃ record x', x.getRecord ops maxlen delim = some (record, x') ∧
      Intact rest data (pos + (Result.record delim record).bytes.length)
        (taken ++ (Result.record delim record).bytes) x' ∧
      ∀ r, record = some r → delim ≠ [] → ¬delim <:+: r.bytes := by
  by_cases zero : maxlen = 0
  · exact ⟨none, x, if_pos zero, by simpa [Result.bytes] using intact, nofun⟩
  obtain ⟨found, x', ends, intact', located⟩ := intact.locate feeds maxlen short
  obtain ⟨n, le, bytes, after, clear⟩ := Filtered.takeRecord_spec ops located
  refine ⟨(Filtered.takeRecord ops maxlen delim found x').1,
    (Filtered.takeRecord ops maxlen delim found x').2, ?_, ?_, clear⟩
  · rw [Filtered.getRecord, if_neg zero, ends]
    rfl
  · have count : (x'.stream.buffered.take n).length = n := by simpa using le
    rw [bytes, after, count]
    exact intact'.advance le

end Intact

/-- The delimiter is not in any record. -/
def Result.Clear : Result → Prop
  | .record delim (some r) => delim ≠ [] → ¬delim <:+: r.bytes
  | _ => True

/-- The delimiters have an `int` as their length. -/
def Call.Short : Call → Prop
  | .record _ delim => delim.length < 2 ^ 31
  | .read _ => True

section runs

variable {ops : Ops F} {rest : F → Bytes} (feeds : Feeds ops rest) {data taken : Bytes}
  (intact : Intact rest data taken.length taken x)

include feeds intact

theorem Intact.run {call : Call} (short : call.Short) :
    ∃ result x', call.run ops x = some (result, x') ∧ result.Clear ∧
      Intact rest data (taken ++ result.bytes).length (taken ++ result.bytes) x' := by
  cases call with
  | record maxlen delim =>
    obtain ⟨record, x', ends, after, clear⟩ := intact.getRecord feeds maxlen short
    refine ⟨.record delim record, x', by rw [Call.run, ends]; rfl, ?_, by simpa using after⟩
    cases record with
    | none => trivial
    | some r => exact clear r rfl
  | read size =>
    refine ⟨_, _, rfl, trivial, ?_⟩
    simpa [Result.bytes] using intact.read feeds size

theorem Intact.runCalls {calls : List Call} (short : ∀ call ∈ calls, call.Short) :
    ∃ results x', runCalls ops x calls = some (results, x') ∧ (∀ result ∈ results, result.Clear) ∧
      Intact rest data (taken ++ results.flatMap Result.bytes).length
        (taken ++ results.flatMap Result.bytes) x' := by
  induction calls generalizing x taken with
  | nil => exact ⟨[], x, rfl, nofun, by simpa using intact⟩
  | cons call calls ih =>
    obtain ⟨result, x', first, clear, behind⟩ := intact.run feeds (short call (by simp))
    obtain ⟨results, x'', others, clears, final⟩ := ih behind fun c member =>
      short c (by simp [member])
    refine ⟨result :: results, x'', ?_, ?_, ?_⟩
    · simp [Streams.runCalls, first, others]
    · simpa using ⟨clear, clears⟩
    · simpa using final

end runs

/-- No byte is lost or repeated, however the data comes in. -/
theorem runCalls_intact (ops : Ops F) (rest : F → Bytes) (feeds : Feeds ops rest)
    (settings : Settings) (ending : LineEnding) (f : F) (calls : List Call)
    (short : ∀ call ∈ calls, call.Short) :
    ∃ results x', runCalls ops (⟨streamAlloc settings ending f, []⟩ : Filtered F G) calls =
      some (results, x') ∧
      results.flatMap Result.bytes <+: rest f ∧ x'.stream.position =
        (results.flatMap Result.bytes).length ∧
      ∀ result ∈ results, result.Clear := by
  have fresh : Intact rest (rest f) ([] : Bytes).length []
    (⟨streamAlloc settings ending f, []⟩ : Filtered F G) :=
    ⟨rfl, le_rfl, le_rfl, rfl, rfl⟩
  obtain ⟨results, x', ends, clears, final⟩ := fresh.runCalls feeds short
  exact ⟨results, x', ends, ⟨_, final.bytes⟩, final.position, clears⟩

/-- Data that comes in the given pieces, as far as there is room for them; `eager` is whether the
last one raises `eof`. -/
def pieces (eager : Bool) : Ops (List Bytes) where
  read f _ n :=
    match f with
    | [] => ([], true, [])
    | piece :: f =>
      if piece.length ≤ n then (piece, eager && f.isEmpty, f)
        else (piece.take n, false, piece.drop n :: f)
  write f _ := (0, f)
  seek f _ _ := (⟨false, none, none⟩, f)
  left f := f.flatten.length
  read_left f _ n := by
    cases f with
    | nil => simp
    | cons piece f =>
      dsimp only
      split <;> simp
      omega

theorem feeds_pieces (eager : Bool) : Feeds (pieces eager) flatten where
  short f _ n := by
    cases f with
    | nil => simp [pieces]
    | cons piece f =>
      dsimp only [pieces]
      split
      next fits => exact fits
      next => simp
  split f _ n := by
    cases f with
    | nil => simp [pieces]
    | cons piece f =>
      dsimp only [pieces]
      split
      next => rfl
      next => rw [flatten_cons, flatten_cons, ← append_assoc, take_append_drop]

def opened (chain : List (Filter G × G)) (f : List Bytes) : Filtered (List Bytes) G :=
  ⟨streamAlloc ⟨8192, false, false⟩ .lf f, chain⟩

theorem runCalls_intact_two : ∃ results x',
    runCalls (pieces false) (opened ([] : List (Filter Unit × Unit)) [[97, 10], [98]])
      [.record 5 [10], .read 3] =
      some (results, x') ∧ results.flatMap Result.bytes <+: [97, 10, 98] ∧
      x'.stream.position = (results.flatMap Result.bytes).length ∧ ∀ result ∈ results,
        result.Clear :=
  runCalls_intact (pieces false) flatten (feeds_pieces false) _ _ _ _ (by simp [Call.Short])

/-- `jonj_memnstr` takes only the first byte of a delimiter of 2^32 + 1 bytes, and all of its length
is skipped. -/
theorem record_overruns : ∃ results x',
    runCalls (pieces false) (opened ([] : List (Filter Unit × Unit)) [[97]])
      [.record 1 (replicate (2 ^ 32 + 1) 97)] =
      some (results, x') ∧ x'.stream.position = 2 ^ 32 + 1 ∧
        ¬results.flatMap Result.bytes <+: [97] := by
  have length : (replicate (2 ^ 32 + 1) (97 : UInt8)).length = 2 ^ 32 + 1 := length_replicate
  obtain ⟨more, begins⟩ : ∃ more, replicate (2 ^ 32 + 1) (97 : UInt8) = 97 :: 97 :: more := ⟨_, rfl⟩
  rw [begins] at length ⊢
  have found : findDelim (97 :: 97 :: more) [97] = some 0 := by
    have one : ((97 :: 97 :: more : Bytes).length : Int).bmod (2 ^ 32) = 1 := by rw [length]; decide
    dsimp only [findDelim]
    rw [one]
    rfl
  generalize filled : (opened ([] : List (Filter Unit × Unit)) [[97]]).fillReadBuffer
    (pieces false) 1 = x
  have buffered : x.stream.buffered = [97] := by rw [← filled]; decide
  have start : x.stream.position = 0 := by rw [← filled]; rfl
  have amount : x.stream.avail = 1 := by rw [← x.stream.length_buffered, buffered]; rfl
  have located : (opened ([] : List (Filter Unit × Unit)) [[97]]).locate (pieces false) 1
    (97 :: 97 :: more) =
      some (some 0, x) := by
    have search : x.searchDelim 1 (0 - ((97 :: 97 :: more : Bytes).length - 1)) (97 :: 97 :: more) =
        some 0 := by
      simp [Filtered.searchDelim, amount, buffered, found]
    -- there is nothing to search before the first fill
    change Filtered.recordLoop (pieces false) 1 _ 2 _ 0 = _
    have size : 0 + min (1 - 0) (opened ([] : List (Filter Unit × Unit))
      [[97]]).stream.settings.chunkSize = 1 := rfl
    rw [Filtered.recordLoop, if_pos Nat.one_pos, size, filled]
    rw [if_neg (by omega), search]
  have taken : Filtered.takeRecord (pieces false) 1 (97 :: 97 :: more) (some 0) x =
      (some ⟨[], true⟩, (x.advance 0).advance (97 :: 97 :: more : Bytes).length) := by
    rw [Filtered.takeRecord, Filtered.read_of_le _ (Nat.zero_le _)]
    rfl
  refine ⟨[.record (97 :: 97 :: more) (some ⟨[], true⟩)],
    (x.advance 0).advance (97 :: 97 :: more : Bytes).length, ?_, ?_, ?_⟩
  · simp only [runCalls, Call.run, Filtered.getRecord, located]
    simp [taken]
  · change x.stream.position + (0 : Nat) + ((97 :: 97 :: more : Bytes).length : Int) = _
    rw [start, length]
    rfl
  · intro part
    have short := part.length_le
    simp [Result.bytes] at short

end Jonj.Streams
