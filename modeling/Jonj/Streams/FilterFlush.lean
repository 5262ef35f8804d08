import Jonj.Streams.Records

/-!
# Flushing a filter

`_jonj_stream_filter_flush` takes what a filter still holds through the rest of its chain, and
stores it in the read buffer.
-/
namespace Jonj.Streams

open List

variable {F G Op : Type}

/-- The loop of `_jonj_stream_filter_flush`. What is called for `current` is `filter->fops`, the
operation of the first filter. -/
def flushLoop (fops : Filter G) : List G → List Bytes → Flags → FilterStatus × List Bytes × List G
  | [], brigade, _ => (.passOn, brigade, [])
  | current :: chain, brigade, flags =>
    let (status, brigade, current) := fops.filter current brigade flags
    if status = .passOn then
      let (status, brigade, chain) := flushLoop fops chain brigade .normal
      (status, brigade, current :: chain)
    else (status, [], current :: chain)

/-- What `_jonj_stream_filter_flush` delivers for a filter and those behind it, each with its `fops`
and its `abstract`. -/
def filterFlush (fops : Op → Filter G) (filter : Op × G) (chain : List (Op × G)) (finish : Bool) :
    FilterStatus × List Bytes × List G :=
  flushLoop (fops filter.1) (filter.2 :: chain.map Prod.snd) []
    (if finish then .flushClose else .flushInc)

/-- Each filter behind the first one gets what the one in front of it releases. -/
def flushThrough (fops : Op → Filter G) (filter : Op × G) (chain : List (Op × G)) (finish : Bool) :
    FilterStatus × List Bytes × List G :=
  let (status, brigade, g) := (fops filter.1).filter filter.2 []
    (if finish then .flushClose else .flushInc)
  if status = .passOn then
    let (status, brigade, chain) := windHandle (chain.map fun x => (fops x.1, x.2)) brigade .normal
    (status, brigade, g :: chain.map Prod.snd)
  else (status, [], g :: chain.map Prod.snd)

private theorem flushLoop_eq (fops : Filter G) (chain : List G) (brigade : List Bytes) :
    flushLoop fops chain brigade .normal =
      let (status, brigade, chain) := windHandle (chain.map (fops, ·)) brigade .normal
      (status, brigade, chain.map Prod.snd) := by
  induction chain generalizing brigade with
  | nil => rfl
  | cons g chain ih =>
    simp only [flushLoop, windHandle, map_cons]
    split
    · simp [ih]
    · simp [Function.comp_def]

/-- Whatever the operations are, each filter is called with its own one if and only if all of them
have the one of the first. -/
theorem filterFlush_through_iff (filter : Op × G) (chain : List (Op × G)) :
    (∀ (fops : Op → Filter G) (finish : Bool), filterFlush fops filter chain finish =
      flushThrough fops filter chain finish) ↔
      ∀ other ∈ chain, other.1 = filter.1 := by
  classical
  constructor
  · intro through other member
    by_contra different
    -- only the operation of `other` does not pass on what it gets
    let fops (op : Op) : Filter G := ⟨fun g _ _ => if op = other.1 then (.feedMe, [], g)
      else (.passOn, [[0]], g)⟩
    have first : ∀ g brigade flags, (fops filter.1).filter g brigade flags = (.passOn, [[0]], g) :=
      fun _ _ _ => if_neg (Ne.symm different)
    have passes (gs : List G) : ∀ brigade flags, (flushLoop (fops filter.1) gs brigade flags).1 =
        .passOn := by
      induction gs with
      | nil => exact fun _ _ => rfl
      | cons g gs ih => simp [flushLoop, first, ih]
    have stops : ∀ brigade, (windHandle (chain.map fun x => (fops x.1, x.2)) brigade .normal).1 ≠
        .passOn := by
      clear through
      induction chain with
      | nil => cases member
      | cons x chain ih =>
        intro brigade
        rcases mem_cons.mp member with rfl | member
        · simp [windHandle, fops]
        · simp only [map_cons, windHandle]
          split
          · exact ih member _
          · assumption
    have both := congrArg Prod.fst (through fops false)
    rw [filterFlush, passes] at both
    simp only [flushThrough, first, if_true] at both
    exact stops _ both.symm
  · intro same fops finish
    have own : chain.map (fun x => (fops x.1, x.2)) =
        (chain.map Prod.snd).map (fops filter.1, ·) := by
      rw [map_map]
      exact map_congr_left fun other member => by simp [same other member]
    simp only [filterFlush, flushLoop, flushThrough, own, flushLoop_eq]

/-- Of two filters with different operations the second is called with the operation of the
first. -/
theorem filterFlush_foreign :
    let upper : Filter Unit := ⟨fun g brigade _ => (.passOn, brigade.map (·.map (· - 32)), g)⟩
    let held : Filter Unit := ⟨fun g _ _ => (.passOn, [[97]], g)⟩
    let fops (op : Bool) := if op then upper else held
    (filterFlush fops (false, ()) [(true, ())] true).2.1 = [[97]] ∧
      (flushThrough fops (false, ()) [(true, ())] true).2.1 = [[65]] := by
  exact ⟨rfl, rfl⟩

/-! ### The read buffer -/

/-- What comes out of the chain is stored behind the unread bytes. -/
def Stream.storeFlushed (s : Stream F) (brigade : List Bytes) : Stream F :=
  if (brigade.map length).sum = 0 then s
  else
    let s :=
      if 0 < s.readpos then
        let moved :=
          { s with
            readbuf := fun i => if i < s.avail then s.readbuf (s.readpos + i) else s.readbuf i
            readpos := 0 }
        { moved with writepos := moved.writepos - moved.readpos }
      else s
    -- the buffer is reallocated if there is no room in it, which `readbuflen` is not told
    brigade.foldl (fun s bucket => s.receive bucket s.eof s.abstract) s

/-- `_jonj_stream_filter_flush` for the only read filter of a stream. -/
def Stream.flushFilter (s : Stream F) (filter : Filter G × G) (finish : Bool) : Stream F :=
  let flushed := filterFlush id filter [] finish
  if flushed.1 = .passOn then s.storeFlushed flushed.2.1 else s

def released (filter : Filter G × G) (finish : Bool) : Bytes :=
  (filterFlush id filter [] finish).2.1.flatten

private theorem receiveAll {s : Stream F} (order : s.readpos ≤ s.writepos) (brigade : List Bytes) :
    let s' := brigade.foldl (fun s bucket => s.receive bucket s.eof s.abstract) s
    s'.buffered = s.buffered ++ brigade.flatten ∧
      s'.writepos = s.writepos + brigade.flatten.length ∧ s'.readbuflen = s.readbuflen := by
  induction brigade generalizing s with
  | nil => simp
  | cons bucket brigade ih =>
    obtain ⟨bytes, writepos, size⟩ := @ih (s.receive bucket s.eof s.abstract)
      (order.trans (Nat.le_add_right _ _))
    refine ⟨?_, ?_, size⟩
    · rw [foldl_cons, bytes, Stream.buffered_receive order, append_assoc, flatten_cons]
    · rw [foldl_cons, writepos, flatten_cons, length_append, ← Nat.add_assoc]
      rfl

/-- Nothing is wrong with the buffer behind a flush if and only if nothing is released, or no byte
was consumed and there is room for what is. -/
theorem flushFilter_buffered_iff (s : Stream F) (order : s.readpos ≤ s.writepos)
    (fits : s.writepos ≤ s.readbuflen) (filter : Filter G × G) (finish : Bool) :
    let s' := s.flushFilter filter finish
    s'.buffered = s.buffered ++ released filter finish ∧ s'.writepos ≤ s'.readbuflen ↔
      released filter finish = [] ∨ s.readpos = 0 ∧
        s.writepos + (released filter finish).length ≤ s.readbuflen := by
  have stopped : (filterFlush id filter [] finish).1 ≠ .passOn →
      (filterFlush id filter [] finish).2.1 = [] := by
    rw [filterFlush]
    generalize (if finish then Flags.flushClose else .flushInc) = flags
    simp only [flushLoop, map_nil]
    split <;> simp
  unfold Stream.flushFilter released
  generalize filterFlush id filter [] finish = flushed at stopped
  dsimp only
  split
  next passed =>
    unfold Stream.storeFlushed
    rw [← length_flatten]
    split
    next nothing => simp [length_eq_zero_iff.mp nothing, fits]
    next some =>
    have nonempty : flushed.2.1.flatten ≠ [] := fun none => some (by rw [none]; rfl)
    split
    next consumed =>
      -- as many bytes as were consumed stay behind the unread ones
      refine iff_of_false (fun right => ?_) (by simp [nonempty, consumed.ne'])
      have length := congrArg length ((receiveAll (Nat.zero_le _) flushed.2.1).1.symm.trans right.1)
      simp only [length_append, Stream.length_buffered, Stream.avail] at length
      omega
    next fresh =>
      obtain ⟨bytes, writepos, size⟩ := receiveAll order flushed.2.1
      simp only [bytes, writepos, size, nonempty, false_or, true_and, iff_and_self]
      omega
  next other => simp [stopped other, fits]

/-- Two unread bytes from the beginning of the buffer on, and one that the filter releases. -/
theorem flushFilter_buffered_releases :
    let s : Stream Unit := { streamAlloc ⟨8192, false, false⟩ .lf () with
      readbuf := fun i => if i = 0 then 97 else 98, readbuflen := 8192, writepos := 2 }
    let held : Filter Unit × Unit := (⟨fun g _ _ => (.passOn, [[99]], g)⟩, ())
    (s.flushFilter held true).buffered = [97, 98] ++ [99] ∧
      (s.flushFilter held true).writepos ≤ (s.flushFilter held true).readbuflen :=
  (flushFilter_buffered_iff _ (Nat.zero_le _) (by decide) _ _).mpr (.inr ⟨rfl, by decide⟩)

/-- One byte was consumed and one is unread: the unread one is there twice. -/
theorem flushFilter_repeats :
    let s : Stream Unit := { streamAlloc ⟨8192, false, false⟩ .lf () with
      readbuf := fun i => if i = 0 then 97 else 98, readbuflen := 8192, readpos :=
        1, writepos := 2 }
    let held : Filter Unit × Unit := (⟨fun g _ _ => (.passOn, [[99]], g)⟩, ())
    s.buffered = [98] ∧ released held true = [99] ∧
      (s.flushFilter held true).buffered = [98, 98, 99] := by
  decide

end Jonj.Streams
