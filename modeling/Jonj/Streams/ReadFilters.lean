import Jonj.Streams.Records

/-!
# Reading through filters

What a chain of filters makes of the data does not depend on the pieces. What a reader gets of it
depends on when the buffer is filled, and on when the end of the data is noticed.
-/
namespace Jonj.Streams

open List Filtered

variable {F G : Type}

/-! ### Filters as functions of the data -/

def Filter.passed (f : Filter G) (g : G) (brigade : List Bytes) (flags : Flags) : Bytes :=
  if (f.filter g brigade flags).1 = .passOn then (f.filter g brigade flags).2.1.flatten else []

/-- The filter is a function of the data: `den g data` is what it passes on in all, from the state
`g` until it has been closed. It may keep back what it likes until then. -/
structure Filter.Transforms (f : Filter G) (den : G → Bytes → Bytes) : Prop where
  alive : ∀ g brigade flags, (f.filter g brigade flags).1 ≠ .errFatal
  passes : ∀ g brigade flags rest, flags ≠ .flushClose →
    den g (brigade.flatten ++ rest) = f.passed g brigade flags ++
      den (f.filter g brigade flags).2.2 rest
  closes : ∀ g brigade, den g brigade.flatten = f.passed g brigade .flushClose

/-- What the last filter passes on ends with this byte. -/
def ReleasesWhole (filters : List (Filter G)) (d : UInt8) : Prop :=
  ∃ f ∈ filters.getLast?, ∀ g brigade flags, ∀ last ∈ (f.passed g brigade flags).getLast?, last = d

def meaning (den : Filter G → G → Bytes → Bytes) : List (Filter G × G) → Bytes → Bytes
  | [], data => data
  | (f, g) :: chain, data => meaning den chain (den f g data)

section chain

variable {den : Filter G → G → Bytes → Bytes} {chain : List (Filter G × G)}

private theorem map_windHandle (brigade : List Bytes) (flags : Flags) :
    (windHandle chain brigade flags).2.2.map Prod.fst = chain.map Prod.fst := by
  induction chain generalizing brigade with
  | nil => rfl
  | cons p chain ih =>
    dsimp only [windHandle]
    split
    next => simp [ih]
    next => rfl

private theorem map_wind (chain : List (Filter G × G)) (got : Bytes) (eof : Bool) :
    (wind chain got eof).2.2.map Prod.fst = chain.map Prod.fst := by
  unfold wind
  split <;> exact map_windHandle _ _

private theorem last_windHandle {d : UInt8} (whole : ReleasesWhole (chain.map Prod.fst) d)
    (brigade : List Bytes) (flags : Flags) :
    ∀ last ∈ (windHandle chain brigade flags).2.1.flatten.getLast?, last = d := by
  obtain ⟨f, ends, passes⟩ := whole
  induction chain generalizing brigade with
  | nil => cases ends
  | cons p chain ih =>
    dsimp only [windHandle]
    split
    next on =>
      cases chain with
      | nil =>
        obtain rfl : p.1 = f := by simpa using ends
        have released := passes p.2 brigade flags
        rw [Filter.passed, if_pos on] at released
        exact released
      | cons q chain => exact ih _ (by simpa using ends)
    next => nofun

variable (transforms : ∀ f ∈ chain.map Prod.fst, f.Transforms (den f))

include transforms

/-- A pass that does not close the filters takes its part off the meaning. -/
theorem windHandle_passes {flags : Flags} (open_ : flags ≠ .flushClose) (brigade : List Bytes)
    (rest : Bytes) :
    meaning den chain (brigade.flatten ++ rest) =
      (windHandle chain brigade flags).2.1.flatten ++
        meaning den (windHandle chain brigade flags).2.2 rest := by
  induction chain generalizing brigade rest with
  | nil => rfl
  | cons p chain ih =>
    obtain ⟨f, g⟩ := p
    have passes := (transforms f (by simp)).passes g brigade flags rest open_
    rw [Filter.passed] at passes
    dsimp only [windHandle, meaning]
    rw [passes]
    split
    next => exact ih (fun f member => transforms f (by simp [member])) _ _
    next => rfl

/-- When the filters are closed, all comes out, or nothing if one of them does not pass on. -/
theorem windHandle_closes (brigade : List Bytes) :
    (windHandle chain brigade .flushClose).2.1.flatten = meaning den chain brigade.flatten ∨
      (windHandle chain brigade .flushClose).2.1 = [] ∧
        ∃ f ∈ (chain.map Prod.fst).dropLast, ∃ g brigade,
          (f.filter g brigade .flushClose).1 ≠ .passOn := by
  induction chain generalizing brigade with
  | nil => exact .inl rfl
  | cons p chain ih =>
    obtain ⟨f, g⟩ := p
    have closes := (transforms f (by simp)).closes g brigade
    rw [Filter.passed] at closes
    dsimp only [windHandle, meaning]
    rw [closes]
    split
    next =>
      obtain all | ⟨none, h, member, stops⟩ := ih (fun f member => transforms f (by simp [member]))
        (f.filter g brigade .flushClose).2.1
      · exact .inl all
      · refine .inr ⟨none, h, ?_, stops⟩
        rw [map_cons, dropLast_cons_of_ne_nil (ne_nil_of_mem (mem_of_mem_dropLast member))]
        exact mem_cons_of_mem f member
    next stops =>
    cases chain with
    | nil => exact .inl rfl
    | cons q chain => exact .inr ⟨rfl, f, by simp, g, brigade, stops⟩

private theorem status_windHandle (brigade : List Bytes) (flags : Flags) :
    (windHandle chain brigade flags).1 ≠ .errFatal ∧
      ((windHandle chain brigade flags).1 ≠ .passOn →
        (windHandle chain brigade flags).2.1 = []) := by
  induction chain generalizing brigade with
  | nil => exact ⟨nofun, fun other => absurd rfl other⟩
  | cons p chain ih =>
    dsimp only [windHandle]
    split
    next => exact ih (fun f member => transforms f (by simp [member])) _
    next => exact ⟨(transforms p.1 (by simp)).alive _ _ _, fun _ => rfl⟩

/-- What one round of the fill gets out of the chain. `rest` is the data that is still to come. -/
theorem wind_spec {complete : Prop} {got rest : Bytes} {eof : Bool}
    (closing : complete → ∀ f ∈ (chain.map Prod.fst).dropLast, ∀ g brigade,
      (f.filter g brigade .flushClose).1 = .passOn)
    (late : complete → eof = true → got = []) (last : eof = true → rest = []) :
    ∃ tail, meaning den chain (got ++ rest) = (wind chain got eof).2.1.flatten ++ tail ∧
      (eof = false → tail = meaning den (wind chain got eof).2.2 rest) ∧
        (complete → eof = true → tail = []) := by
  unfold wind
  split
  next some =>
    refine ⟨_, ?_, fun _ => rfl, fun c stop => absurd (late c stop) some⟩
    simpa using windHandle_passes transforms (by nofun) [got] rest
  next none =>
  rw [Decidable.not_not.mp none]
  cases eof with
  | false => exact ⟨_, windHandle_passes transforms (by nofun) [] rest, fun _ => rfl, nofun⟩
  | true =>
    rw [last rfl]
    obtain all | ⟨nothing, f, member, g, brigade, stops⟩ := windHandle_closes transforms []
    · exact ⟨[], by simpa using all.symm, nofun, fun _ _ => rfl⟩
    · exact ⟨meaning den chain
        [], by simp [nothing], nofun, fun c _ => absurd (closing c f member g brigade) stops⟩

theorem status_wind (got : Bytes) (eof : Bool) :
    (wind chain got eof).1 ≠ .errFatal ∧ ((wind chain got eof).1 ≠ .passOn →
      (wind chain got eof).2.1 = []) := by
  unfold wind
  split <;> exact status_windHandle transforms _ _

end chain

/-! ### What a reader gets -/

private theorem buffered_deliver {s : Stream F} (order : s.readpos ≤ s.writepos)
    {status : FilterStatus} {brigade : List Bytes} (stops : status ≠ .passOn → brigade = []) :
    (s.deliver status brigade).buffered = s.buffered ++ brigade.flatten ∧
      (s.deliver status brigade).readpos ≤ (s.deliver status brigade).writepos := by
  unfold Stream.deliver
  split
  next =>
    clear stops
    induction brigade generalizing s with
    | nil => simpa using order
    | cons bucket brigade ih =>
      have one : (s.store bucket).buffered = s.buffered ++ bucket ∧
          (s.store bucket).readpos ≤ (s.store bucket).writepos := by
        unfold Stream.store
        split
        all_goals exact ⟨Stream.buffered_receive order bucket s.eof s.abstract,
          order.trans (Nat.le_add_right _ _)⟩
      obtain ⟨bytes, order⟩ := ih one.2
      refine ⟨?_, order⟩
      rw [foldl_cons, bytes, one.1, append_assoc, flatten_cons]
  next other => simpa [stops other] using order

/-- A source that raises `eof` only when there is nothing left. -/
structure Ends (ops : Ops F) (rest : F → Bytes) : Prop extends Feeds ops rest where
  ends : ∀ f eof n, 0 < n → (ops.read f eof n).2.1 = true → rest (ops.read f eof n).2.2 = []

/-- What was taken and what is in the buffer is the beginning of what the chain makes of the data.
The rest is what the chain will make of the rest of the data; if `complete`, nothing is missing at
the end. The buffer ends as what the last filter passes on. -/
structure Kept (den : Filter G → G → Bytes → Bytes) (rest : F → Bytes) (filters : List (Filter G))
    (complete : Prop)
    (data taken : Bytes) (x : Filtered F G) : Prop where
  filters : x.readfilters.map Prod.fst = filters
  order : x.stream.readpos ≤ x.stream.writepos
  chunk : 0 < x.stream.settings.chunkSize
  whole : ∀ d, ReleasesWhole (x.readfilters.map Prod.fst) d →
    ∀ last ∈ x.stream.buffered.getLast?, last = d
  bytes : ∃ tail, taken ++ (x.stream.buffered ++ tail) = data ∧
    (x.stream.eof = false → tail = meaning den x.readfilters (rest x.stream.abstract)) ∧
    (complete → x.stream.eof = true → tail = [])

variable {ops : Ops F} {den : Filter G → G → Bytes → Bytes} {rest : F → Bytes}
    {filters : List (Filter G)} {complete : Prop} {data taken : Bytes} {x : Filtered F G}

namespace Kept

variable (kept : Kept den rest filters complete data taken x)

include kept

theorem take (n : Nat) :
    Kept den rest filters complete data (taken ++ (x.take n).1) (x.take n).2 where
  __ := kept
  order := x.order_take kept.order n
  whole d whole last ends := by
    refine kept.whole d whole last ?_
    rw [← x.take_append_buffered n, getLast?_append, ends]
    rfl
  bytes := by
    obtain ⟨tail, bytes, more⟩ := kept.bytes
    refine ⟨tail, ?_, more⟩
    rw [← bytes, append_assoc, ← append_assoc (x.take n).1, x.take_append_buffered]

theorem advance {n : Nat} (le : n ≤ x.stream.avail) :
    Kept den rest filters complete data (taken ++ x.stream.buffered.take n) (x.advance n) := by
  have moved := kept.take n
  have place : x.stream.readpos + min n x.stream.avail = x.stream.readpos + n := by omega
  have order := moved.order
  have whole := moved.whole
  have bytes := moved.bytes
  simp only [Filtered.take, Filtered.lift, Stream.take, place] at order whole bytes
  exact ⟨kept.filters, order, kept.chunk, whole, bytes⟩

theorem fillReadBuffer_eq (some : filters ≠ []) (size : Nat) :
    x.fillReadBuffer ops size = { x with stream := x.stream.dropBuffer }.fillLoop ops size := by
  refine if_neg fun none => some ?_
  rw [← kept.filters, none]
  rfl

theorem dropBuffer (drained : x.stream.avail = 0) :
    Kept den rest filters complete data taken { x with stream := x.stream.dropBuffer } := by
  refine ⟨kept.filters, le_rfl, kept.chunk, fun _ _ _ => nofun, ?_⟩
  have bytes := kept.bytes
  rw [Stream.buffered_eq_nil_iff.mpr drained] at bytes
  exact bytes

section fill

variable (ends : Ends ops rest) (transforms : ∀ f ∈ filters, f.Transforms (den f))
  (late : complete → ∀ f eof n, 0 < n → (ops.read f eof n).2.1 = true → (ops.read f eof n).1 = [])
  (closing : complete → ∀ f ∈ filters.dropLast, ∀ g brigade,
    (f.filter g brigade .flushClose).1 = .passOn)

include ends transforms late closing

theorem fillStep (more : x.stream.eof = false) :
    Kept den rest filters complete data taken (x.fillStep ops).2 := by
  obtain ⟨tail, bytes, all, _⟩ := kept.bytes
  rw [← kept.filters] at transforms closing
  have split := ends.split x.stream.abstract x.stream.eof x.stream.settings.chunkSize
  have last := ends.ends x.stream.abstract x.stream.eof x.stream.settings.chunkSize kept.chunk
  have late := fun c => late c x.stream.abstract x.stream.eof x.stream.settings.chunkSize kept.chunk
  dsimp only [fillStep]
  generalize ops.read x.stream.abstract x.stream.eof x.stream.settings.chunkSize = got at *
  obtain ⟨tail', made, before, after⟩ := wind_spec transforms closing late last
  have stored := stored_deliver { x.stream with abstract := got.2.2, eof := got.2.1 }
    (wind x.readfilters got.1 got.2.1).1
    (wind x.readfilters got.1 got.2.1).2.1
  obtain ⟨buffered, order⟩ := @buffered_deliver F
    { x.stream with abstract := got.2.2, eof := got.2.1 } kept.order _ _
    (status_wind transforms got.1 got.2.1).2
  refine ⟨(map_wind _ _ _).trans kept.filters, order, ?_, ?_, tail', ?_, ?_, ?_⟩
  · rw [stored.settings]
    exact kept.chunk
  · intro d whole last ends
    rw [map_wind] at whole
    rw [buffered, getLast?_append] at ends
    rcases Option.or_eq_some_iff.mp ends with released | ⟨-, before⟩
    · unfold wind at released
      split at released <;> exact last_windHandle whole _ _ last released
    · exact kept.whole d whole last before
  · rw [buffered, append_assoc, ← made, ← split, ← all more]
    exact bytes
  · rw [stored.eof, stored.abstract]
    exact before
  · rw [stored.eof]
    exact after

theorem fillLoop (size : Nat) :
    Kept den rest filters complete data taken (x.fillLoop ops size) := by
  induction x using fillLoop.induct ops size with
  | case1 x more _ stop =>
    rw [Filtered.fillLoop, if_pos more]
    rw [if_pos stop]
    exact kept.fillStep ends transforms late closing more.1
  | case2 x more _ go ih =>
    rw [Filtered.fillLoop, if_pos more]
    rw [if_neg go]
    exact ih (kept.fillStep ends transforms late closing more.1)
  | case3 x enough =>
    rw [Filtered.fillLoop, if_neg enough]
    exact kept

/-- A fill loses nothing if the buffer has been drained. -/
theorem fillReadBuffer (some : filters ≠ []) (size : Nat) (drained : x.stream.avail = 0) :
    Kept den rest filters complete data taken (x.fillReadBuffer ops size) := by
  rw [kept.fillReadBuffer_eq some]
  exact (kept.dropBuffer drained).fillLoop ends transforms late closing size

theorem read (some : filters ≠ []) (size : Nat) :
    Kept den rest filters complete data (taken ++ (x.read ops size).1) (x.read ops size).2 := by
  have loop : Kept den rest filters complete data (taken ++ (x.readLoop ops size).1)
    (x.readLoop ops size).2 :=
    Filtered.readLoop_rule (fun n kept => kept.take n)
      (fun size drained kept => kept.fillReadBuffer ends transforms late closing some size drained)
      (fun _ none _ kept => absurd (kept.filters.symm.trans (congrArg (map Prod.fst) none))
        some) x size kept
  exact ⟨loop.filters, loop.order, loop.chunk, loop.whole, loop.bytes⟩

end fill

end Kept

/-! ### Records -/

/-- The record can be told from what is in the buffer. -/
def Filtered.Settled (x : Filtered F G) (maxlen : Nat) (delim : Bytes) : Prop :=
  maxlen ≤ x.stream.avail ∨ (x.searchDelim maxlen 0 delim).isSome

/-- The call does not fill the buffer while there are unread bytes in it: a record can be told from
what is in the buffer, or from what the first fill of the drained buffer has brought, unless that is
nothing. -/
def Call.Clean (ops : Ops F) (x : Filtered F G) : Call → Prop
  | .read _ => True
  | .record maxlen delim => x.Settled maxlen delim ∨ x.stream.avail = 0 ∧
      ((x.fillReadBuffer ops (min maxlen x.stream.settings.chunkSize)).stream.avail = 0 ∨
        (x.fillReadBuffer ops (min maxlen x.stream.settings.chunkSize)).Settled maxlen delim)

/-- A call that needs at most one byte of the buffer, or a delimiter of one byte with which the
filters end all that they release. -/
def Call.Safe (filters : List (Filter G)) : Call → Prop
  | .read _ => True
  | .record maxlen delim => maxlen ≤ 1 ∨ ∃ d, delim = [d] ∧ ReleasesWhole filters d

theorem Filtered.settled_of_last {x : Filtered F G} {d : UInt8} (some : x.stream.avail ≠ 0)
    (last : ∀ last ∈ x.stream.buffered.getLast?, last = d) (maxlen : Nat) :
    x.Settled maxlen [d] := by
  by_cases few : maxlen ≤ x.stream.avail
  · exact .inl few
  have nonempty : x.stream.buffered ≠ [] := mt Stream.buffered_eq_nil_iff.mp some
  have member : d ∈ x.stream.buffered := by
    have same := last _ (getLast?_eq_some_getLast nonempty)
    exact same ▸ getLast_mem nonempty
  have whole : min x.stream.avail maxlen = x.stream.buffered.length := by
    rw [x.stream.length_buffered]
    omega
  have asked : ¬([d] = [] ∨ x.stream.buffered.length ≤ 0) := by
    simpa using some
  have found : findDelim [d] x.stream.buffered = Option.some (x.stream.buffered.idxOf d) :=
    if_pos member
  refine .inr ?_
  rw [searchDelim, whole, if_neg asked, take_length, drop_zero, found, Option.map_some,
    Option.isSome_some]

theorem Filtered.recordLoop_of_settled (ops : Ops F) {x : Filtered F G} {maxlen : Nat}
    {delim : Bytes} (settled : x.Settled maxlen delim)
    (absent : x.searchDelim maxlen 0 delim = none) (rounds : Nat) :
    recordLoop ops maxlen delim (rounds + 1) x x.stream.avail = some (none, x) := by
  have full : ¬x.stream.avail < maxlen := by simpa [Settled, absent] using settled
  rw [recordLoop, if_neg full]

theorem Filtered.locate_of_clean {ops : Ops F} {x : Filtered F G} {maxlen : Nat} {delim : Bytes}
    (clean : (Call.record maxlen delim).Clean ops x) :
    ∃ x', x.locate ops maxlen delim = some (x'.searchDelim maxlen 0 delim, x') ∧
      (x' = x ∨ x.stream.avail = 0 ∧ x' = x.fillReadBuffer ops
        (min maxlen x.stream.settings.chunkSize)) := by
  unfold locate
  cases first : x.searchDelim maxlen 0 delim with
  | some i => exact ⟨x, by rw [first], .inl rfl⟩
  | none =>
    by_cases settled : x.Settled maxlen delim
    · exact ⟨x, by rw [first, recordLoop_of_settled ops settled first], .inl rfl⟩
    obtain ⟨drained, filled⟩ := clean.resolve_left settled
    refine ⟨_, ?_, .inr ⟨drained, rfl⟩⟩
    have asked : 0 < maxlen := Nat.pos_of_ne_zero fun zero => settled (.inl (by omega))
    rw [recordLoop, drained, if_pos asked, Nat.zero_add, Nat.zero_sub]
    dsimp only
    generalize x.fillReadBuffer ops _ = x' at filled ⊢
    split
    next none => simp [searchDelim, none]
    next some =>
    split
    next found => rw [found]
    next absent =>
    have again := recordLoop_of_settled ops (filled.resolve_left some) absent (maxlen - 1)
    rw [Nat.sub_add_cancel asked] at again
    rw [again, absent]

section records

variable (ends : Ends ops rest) (some : filters ≠ [])
    (transforms : ∀ f ∈ filters, f.Transforms (den f))

include ends some transforms

theorem Kept.clean (kept : Kept den rest filters False data taken x) {call : Call}
    (safe : call.Safe filters) : call.Clean ops x := by
  cases call with
  | read size => trivial
  | record maxlen delim =>
    by_cases drained : x.stream.avail = 0
    · -- what counts is in the buffer after the first fill
      refine .inr ⟨drained, Decidable.or_iff_not_imp_left.mpr fun brought => ?_⟩
      have filled := kept.fillReadBuffer ends transforms nofun nofun some
        (min maxlen x.stream.settings.chunkSize) drained
      rcases safe with one | ⟨d, rfl, whole⟩
      · exact .inl (by omega)
      · exact settled_of_last brought (filled.whole d (filled.filters.symm ▸ whole)) maxlen
    · rcases safe with one | ⟨d, rfl, whole⟩
      · exact .inl (.inl (by omega))
      · exact .inl (settled_of_last drained (kept.whole d (kept.filters.symm ▸ whole)) maxlen)

theorem Kept.run (kept : Kept den rest filters False data taken x) {call : Call}
    (short : call.Short) (safe : call.Safe filters) :
    ∃ result x', call.run ops x = .some (result, x') ∧
      Kept den rest filters False data (taken ++ result.bytes) x' := by
  cases call with
  | read size => exact ⟨_, _, rfl, kept.read ends transforms nofun nofun some size⟩
  | record maxlen delim =>
    by_cases zero : maxlen = 0
    · refine ⟨.record delim none, x, ?_, by simpa [Result.bytes] using kept⟩
      rw [Call.run, getRecord, if_pos zero]
      rfl
    obtain ⟨x', located, same⟩ := locate_of_clean (kept.clean ends some transforms safe)
    have kept' : Kept den rest filters False data taken x' := by
      obtain rfl | ⟨drained, rfl⟩ := same
      · exact kept
      · exact kept.fillReadBuffer ends transforms nofun nofun some _ drained
    obtain ⟨n, le, bytes, after, -⟩ := takeRecord_spec ops (located_first x' maxlen short)
    refine ⟨.record delim (takeRecord ops maxlen delim (x'.searchDelim maxlen 0 delim) x').1,
      (takeRecord ops maxlen delim (x'.searchDelim maxlen 0 delim) x').2, ?_, ?_⟩
    · rw [Call.run, getRecord, if_neg zero, located]
      rfl
    · rw [bytes, after]
      exact kept'.advance le

theorem Kept.runCalls (kept : Kept den rest filters False data taken x) {calls : List Call}
    (short : ∀ call ∈ calls, call.Short) (safe : ∀ call ∈ calls, call.Safe filters) :
    ∃ results x', runCalls ops x calls = .some (results, x') ∧
      Kept den rest filters False data (taken ++ results.flatMap Result.bytes) x' := by
  induction calls generalizing x taken with
  | nil => exact ⟨[], x, rfl, by simpa using kept⟩
  | cons call calls ih =>
    obtain ⟨result, x', first, behind⟩ := kept.run ends some transforms (short call (by simp))
      (safe call (by simp))
    obtain ⟨results, x'', others, final⟩ := ih behind (fun c member => short c (by simp [member]))
      fun c member => safe c (by simp [member])
    refine ⟨result :: results, x'', ?_, ?_⟩
    · simp [Streams.runCalls, first, others]
    · simpa using final

end records

theorem kept_fresh (den : Filter G → G → Bytes → Bytes) (rest : F → Bytes) (complete : Prop)
    {settings : Settings} (chunk : 0 < settings.chunkSize) (ending : LineEnding) (f : F)
    (chain : List (Filter G × G)) :
    Kept den rest (chain.map Prod.fst) complete (meaning den chain (rest f)) []
      ⟨streamAlloc settings ending f, chain⟩ :=
  ⟨rfl, le_rfl, chunk, fun _ _ _ => nofun, _, rfl, fun _ => rfl, nofun⟩

namespace Filtered

variable {size : Nat}

private theorem fillLoop_of_more (few : x.stream.eof = false ∧ x.stream.avail < size)
    (more : (x.fillStep ops).1 = false) :
    x.fillLoop ops size = (x.fillStep ops).2.fillLoop ops size := by
  rw [fillLoop, if_pos few]
  exact if_neg (by simp [more])

private theorem fillLoop_of_stop (few : x.stream.eof = false ∧ x.stream.avail < size)
    (stop : (x.fillStep ops).1 = true) :
    x.fillLoop ops size = (x.fillStep ops).2 := by
  rw [fillLoop, if_pos few]
  exact if_pos stop

end Filtered

/-- A source that raises `eof` on the first read that gets nothing, and not before. -/
structure EndsLate (ops : Ops F) (rest : F → Bytes) : Prop extends Feeds ops rest where
  nonempty : ∀ f eof n, 0 < n → (ops.read f eof n).1 = [] → rest f = []
  late : ∀ f eof n, 0 < n → ((ops.read f eof n).2.1 = true ↔ (ops.read f eof n).1 = [])

theorem EndsLate.toEnds {ops : Ops F} {rest : F → Bytes} (ends : EndsLate ops rest) :
    Ends ops rest where
  toFeeds := ends.toFeeds
  ends f eof n asked stop := by
    have nothing := (ends.late f eof n asked).mp stop
    have split := ends.split f eof n
    rw [ends.nonempty f eof n asked nothing, nothing] at split
    exact split.symm

section reads

variable (ends : EndsLate ops rest) (some : filters ≠ [])
    (transforms : ∀ f ∈ filters, f.Transforms (den f))
    (closing : ∀ f ∈ filters.dropLast, ∀ g brigade, (f.filter g brigade .flushClose).1 = .passOn)

include ends transforms closing

theorem Kept.fillLoop_or (size : Nat) (kept : Kept den rest filters True data taken x) :
    size ≤ (x.fillLoop ops size).stream.avail ∨ (x.fillLoop ops size).stream.eof = true := by
  induction x using fillLoop.induct ops size with
  | case1 x more _ stop =>
    rw [fillLoop_of_stop more stop]
    have alive := (@status_wind G den x.readfilters (by rwa [kept.filters])
      (ops.read x.stream.abstract x.stream.eof x.stream.settings.chunkSize).1
      (ops.read x.stream.abstract x.stream.eof x.stream.settings.chunkSize).2.1).1
    have nothing := (of_decide_eq_true stop).resolve_right alive
    refine .inr ((stored_deliver _ _ _).eof.trans ?_)
    exact (ends.late _ _ _ kept.chunk).mpr nothing
  | case2 x more _ go ih =>
    rw [fillLoop_of_more more (by simpa using go)]
    exact ih (kept.fillStep ends.toEnds transforms
      (fun _ f eof n asked => (ends.late f eof n asked).mp) (fun _ => closing) more.1)
  | case3 x enough =>
    rw [Filtered.fillLoop, if_neg enough]
    by_cases stop : x.stream.eof = true
    · exact .inr stop
    · exact .inl (by simpa [stop] using enough)

include some

theorem Kept.read_nil {size : Nat} (asked : 0 < size)
    (kept : Kept den rest filters True data taken x) (nothing : (x.read ops size).1 = []) :
    taken = data := by
  have late : True → ∀ f eof n, 0 < n → (ops.read f eof n).2.1 = true → (ops.read f eof n).1 = [] :=
    fun _ f eof n asked => (ends.late f eof n asked).mp
  have first := kept.take size
  have length := x.length_take size
  -- neither the buffer nor the fill has given anything
  have none : (x.take size).1 = [] ∧
      ((x.take size).2.readMore ops (size - (x.take size).1.length)).1 = [] := by
    change (x.readLoop ops size).1 = [] at nothing
    rw [Filtered.readLoop, Streams.readLoop, if_neg (by omega)] at nothing
    dsimp only at nothing
    split at nothing
    next full =>
      rw [nothing] at full
      exact absurd full (by simp; omega)
    next =>
    split at nothing
    next => exact append_eq_nil_iff.mp nothing
    next =>
      obtain ⟨first, more⟩ := append_eq_nil_iff.mp nothing
      exact ⟨first, (append_eq_nil_iff.mp more).1⟩
  rw [none.1] at first
  rw [none.1] at length none
  have drained : (x.take size).2.stream.avail = 0 := by
    have amount := x.stream.avail_take size
    change (x.stream.take size).2.avail = 0
    simp only [length_nil] at length
    omega
  have filled := first.fillReadBuffer ends.toEnds transforms late (fun _ => closing) some
    size drained
  have enough := (first.dropBuffer drained).fillLoop_or ends transforms closing size
  rw [← first.fillReadBuffer_eq some] at enough
  have more : (((x.take size).2.fillReadBuffer ops size).take size).1 = [] := by
    have filtered : (x.take size).2.readfilters ≠ [] := by
      intro empty
      exact some (by rw [← first.filters, empty]; rfl)
    have last := none.2
    rwa [readMore, if_neg filtered] at last
  generalize (x.take size).2.fillReadBuffer ops size = x' at filled enough more
  have empty : x'.stream.avail = 0 := by
    have length := x'.length_take size
    rw [more, length_nil] at length
    omega
  obtain ⟨tail, bytes, -, over_⟩ := filled.bytes
  rw [over_ trivial (enough.resolve_left (by omega)), Stream.buffered_eq_nil_iff.mpr empty] at bytes
  simpa using bytes

theorem Kept.reads {sizes : List Nat} (asked : ∀ size ∈ sizes, 0 < size)
    (kept : Kept den rest filters True data taken x)
    (enough : data.length ≤ taken.length + sizes.length) :
    ∃ results x', Streams.runCalls ops x (sizes.map .read) = .some (results, x') ∧
      taken ++ results.flatMap Result.bytes = data := by
  induction sizes generalizing x taken with
  | nil =>
    obtain ⟨tail, bytes, -⟩ := kept.bytes
    have none : (x.stream.buffered ++ tail).length = 0 := by
      have length := congrArg List.length bytes
      rw [length_append] at length
      simp only [length_nil] at enough
      omega
    rw [length_eq_zero_iff.mp none] at bytes
    exact ⟨[], x, rfl, bytes⟩
  | cons size sizes ih =>
    have next := kept.read ends.toEnds transforms
      (fun _ f eof n asked => (ends.late f eof n asked).mp) (fun _ => closing) some size
    have more : data.length ≤ (taken ++ (x.read ops size).1).length + sizes.length := by
      by_cases nothing : (x.read ops size).1 = []
      · rw [kept.read_nil ends some transforms closing (asked size (by simp)) nothing,
          length_append]
        omega
      have positive := length_pos_iff.mpr nothing
      rw [length_cons] at enough
      rw [length_append]
      omega
    obtain ⟨results, x', others, all⟩ :=
      ih (fun size member => asked size (by simp [member])) next more
    refine ⟨.read (x.read ops size).1 :: results, x', ?_, ?_⟩
    · simp [Streams.runCalls, Call.run, others]
    · simpa [Result.bytes] using all

end reads

/-- All that the filters make of the data is read, if the end shows in a read of its own and no
filter but the last one stops the pass that closes them. -/
theorem reads_complete (ops : Ops F) (rest : F → Bytes) (ends : EndsLate ops rest)
    (den : Filter G → G → Bytes → Bytes) (settings : Settings) (chunk : 0 < settings.chunkSize)
    (ending : LineEnding) (f : F) (chain : List (Filter G × G)) (some : chain ≠ [])
    (transforms : ∀ p ∈ chain, p.1.Transforms (den p.1))
    (closing : ∀ p ∈ chain.dropLast, ∀ g brigade, (p.1.filter g brigade .flushClose).1 = .passOn)
    (sizes : List Nat) (asked : ∀ size ∈ sizes, 0 < size)
    (enough : (meaning den chain (rest f)).length ≤ sizes.length) :
    ∃ results x', runCalls ops ⟨streamAlloc settings ending f, chain⟩ (sizes.map .read) =
      .some (results, x') ∧
      results.flatMap Result.bytes = meaning den chain (rest f) :=
  (kept_fresh den rest True chunk ending f chain).reads ends (by simpa using some)
    (by simpa using transforms)
    (by simpa [← map_dropLast] using closing) asked (by simpa using enough)

/-- A filter that keeps everything back until it is closed. -/
def holdBack : Filter Bytes where
  filter held brigade
    | .flushClose => (.passOn, [held ++ brigade.flatten], [])
    | _ => (.feedMe, [], held ++ brigade.flatten)

private theorem transforms_holdBack : holdBack.Transforms fun held data => held ++ data where
  alive _ _ flags := by cases flags <;> nofun
  passes held brigade flags rest open_ := by cases flags <;> simp_all [Filter.passed, holdBack]
  closes held brigade := by simp [Filter.passed, holdBack]

/-- Data in one piece. -/
def whole : Ops Bytes where
  read f _ n := (f.take n, f.isEmpty, f.drop n)
  write f _ := (0, f)
  seek f _ _ := (⟨false, none, none⟩, f)
  left f := f.length
  read_left f _ n := by simp; omega

private theorem endsLate_whole : EndsLate whole id where
  short f _ n := by simp [whole]
  split f _ n := by simp [whole]
  nonempty f _ n asked none := (take_eq_nil_iff.mp none).resolve_left asked.ne'
  late f _ n asked := by simp [whole, asked.ne']

theorem reads_complete_held :
    ∃ results x', runCalls whole ⟨streamAlloc ⟨8192, false, false⟩ .lf [97], [(holdBack, [])]⟩
    [.read 5] = some (results, x') ∧ results.flatMap Result.bytes = [97] :=
  reads_complete whole id endsLate_whole (fun _ held data => held ++ data) _ (by decide) .lf [97]
    [(holdBack, [])] (by decide)
    (by simpa using transforms_holdBack) (by simp) [5] (by decide) (by decide)

/-- The end comes with the last piece, so that the filter is never closed. -/
theorem reads_unclosed :
    ∃ x', runCalls (pieces true) (opened [(holdBack, [])] [[97]]) [.read 5, .read 5] =
    some ([.read [], .read []], x') ∧ x'.stream.eof = true ∧
    meaning (fun _ held data => held ++ data) [(holdBack, [])] [97] = [97] := by
  have answers : (runCalls (pieces true) (opened [(holdBack, [])] [[97]]) [.read 5, .read 5]).map
      (fun r => (r.1, r.2.stream.eof)) = some ([.read [], .read []], true) := by decide +kernel
  obtain ⟨⟨results, x'⟩, ran, same⟩ := Option.map_eq_some_iff.mp answers
  obtain ⟨rfl, stop⟩ := Prod.mk.inj same
  exact ⟨x', ran, stop, rfl⟩

end Jonj.Streams
