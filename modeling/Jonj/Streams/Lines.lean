import Jonj.Streams.Refinement

/-!
# Lines

Which lines `_jonj_stream_get_line` returns, for every way in which the data comes in pieces.
-/
namespace Jonj.Streams

open List LineEnding

/-- What the flags say where all of the bytes are seen at once. -/
def LineEnding.settle (ending : LineEnding) (bytes : Bytes) : LineEnding :=
  if ending ≠ .detect ∨ 13 ∉ bytes ∧ 10 ∉ bytes then ending
    else if bytes.idxOf 13 < bytes.idxOf 10 then .cr else .lf

/-- Where the end of lines is to be detected, no LF comes directly behind the first CR, or one comes
earlier. -/
def Unambiguous (ending : LineEnding) (bytes : Bytes) : Prop :=
  ending = .detect → 10 ∈ bytes → bytes.idxOf 10 ≠ bytes.idxOf 13 + 1

variable {F : Type} {dev : ByteFile F} {s : Stream F} {pos : Nat} {bytes rest : Bytes}

private theorem le_idxOf_append {byte : UInt8} (absent : byte ∉ bytes) :
    bytes.length ≤ (bytes ++ rest).idxOf byte := by
  rw [idxOf_append_of_notMem absent]
  exact Nat.le_add_right _ _

private theorem locateEol_detect (detect : s.ending = .detect) (more : s.buffered ++ bytes = rest)
    (clear : Unambiguous .detect rest) :
    s.locateEol = (none, .detect) ∧ 13 ∉ s.buffered ∧ 10 ∉ s.buffered ∨
      s.locateEol = (some (rest.idxOf (LineEnding.detect.settle rest).byte),
        LineEnding.detect.settle rest) ∧
        rest.idxOf (LineEnding.detect.settle rest).byte < s.avail := by
  subst more
  rw [← s.length_buffered]
  unfold Stream.locateEol
  rw [detect]
  generalize s.buffered = buffered at clear ⊢
  have inside {byte : UInt8} (found : byte ∈ buffered) : (buffered ++ bytes).idxOf byte =
    buffered.idxOf byte ∧
      buffered.idxOf byte < buffered.length :=
        ⟨idxOf_append_of_mem found, idxOf_lt_length_of_mem found⟩
  have cases' : LineEnding.detect.settle (buffered ++ bytes) =
      if 13 ∉ buffered ++ bytes ∧ 10 ∉ buffered ++ bytes then .detect
      else if (buffered ++ bytes).idxOf 13 < (buffered ++ bytes).idxOf 10 then .cr else .lf := by
        simp [LineEnding.settle]
  by_cases cr : 13 ∈ buffered <;> by_cases lf : 10 ∈ buffered
  · have apart := clear rfl (mem_append_left _ lf)
    have ⟨crAt, crLt⟩ := inside cr
    have ⟨lfAt, lfLt⟩ := inside lf
    rw [crAt, lfAt] at apart cases'
    refine .inr ?_
    by_cases first : buffered.idxOf 13 < buffered.idxOf 10
    · have : ¬(buffered.idxOf 10 = buffered.idxOf 13 + 1 ∨
          buffered.idxOf 10 < buffered.idxOf 13) := by
        omega
      simp [Stream.memchr, cr, lf, cases', first, this, byte, crAt, crLt]
    · have : buffered.idxOf 10 < buffered.idxOf 13 := by
        have : buffered.idxOf 10 ≠ buffered.idxOf 13 :=
          fun same => absurd ((idxOf_inj lf).mp same) (by decide)
        omega
      simp [Stream.memchr, cr, lf, cases', first, this, byte, lfAt, lfLt]
  · have ⟨crAt, crLt⟩ := inside cr
    have : buffered.idxOf 13 < (buffered ++ bytes).idxOf 10 := crLt.trans_le (le_idxOf_append lf)
    exact .inr (by simp [Stream.memchr, cr, lf, cases', crAt, this, byte, crLt])
  · have ⟨lfAt, lfLt⟩ := inside lf
    have : ¬(buffered ++ bytes).idxOf 13 < buffered.idxOf 10 :=
      not_lt.mpr (lfLt.le.trans (le_idxOf_append cr))
    exact .inr (by simp [Stream.memchr, cr, lf, cases', lfAt, this, byte, lfLt])
  · exact .inl ⟨by simp [Stream.memchr, cr, lf], cr, lf⟩

private theorem settle_append (cr : 13 ∉ bytes) (lf : 10 ∉ bytes) (rest : Bytes) :
    detect.settle (bytes ++ rest) = detect.settle rest ∧
      (Unambiguous .detect (bytes ++ rest) ↔ Unambiguous .detect rest) := by
  have shift : bytes.length + rest.idxOf 10 ≠ bytes.length + rest.idxOf 13 + 1 ↔
      rest.idxOf 10 ≠ rest.idxOf 13 + 1 := by
    omega
  simp [settle, Unambiguous, idxOf_append_of_notMem cr, idxOf_append_of_notMem lf, cr, lf, shift]

theorem At.getLineLoop_detect (at_ : At dev s pos) (detect : s.ending = .detect)
    (clear : Unambiguous .detect ((dev.data s.abstract).drop pos)) :
    (s.getLineLoop dev.toOps none).1 = throughEol
      (LineEnding.detect.settle ((dev.data s.abstract).drop pos)).byte
        ((dev.data s.abstract).drop pos) ∧
      (s.getLineLoop dev.toOps none).2.ending = LineEnding.detect.settle
        ((dev.data s.abstract).drop pos) := by
  generalize auto : (none : Option Nat) = limit
  fun_induction Stream.getLineLoop dev.toOps s limit generalizing pos with
  | case1 =>
    rename_i s limit _ piece got s' done
    subst auto
    rcases locateEol_detect detect at_.toSynced.drop_eq.symm
      clear with ⟨absent, -⟩ | ⟨found, inside⟩
    · simp [piece, Stream.lineSize, absent] at done
    refine ⟨?_, congrArg Prod.snd found⟩
    have size : piece.1 = _ := congrArg (·.1.elim s.avail (· + 1)) found
    change s.buffered.take piece.1 = _
    rw [size, throughEol, ← s.length_buffered] at *
    exact (take_append_of_le_length inside).symm.trans
      (congrArg (List.take _) at_.toSynced.drop_eq.symm)
  | case2 =>
    rename_i s limit _ piece got s' more rest ih
    subst auto
    have more : (s.lineSize none).2 = false := Bool.eq_false_of_not_eq_true more
    have whole := (Stream.lineSize_of_more more).1
    obtain ⟨absent, cr, lf⟩ | ⟨found, -⟩ := locateEol_detect detect at_.toSynced.drop_eq.symm clear
    · obtain ⟨-, -, after⟩ := at_.takePiece none
      obtain ⟨same, still⟩ := settle_append cr lf ((dev.data s.abstract).drop (pos + s.avail))
      have eol : ∀ ending : LineEnding, ending.byte ∉ s.buffered :=
        fun ending => by cases ending <;> assumption
      rw [at_.toSynced.drop_eq] at clear ⊢
      obtain ⟨line, ending⟩ := ih after (congrArg Prod.snd absent)
        (by rw [whole]; exact still.mp clear) rfl
      rw [same, throughEol_of_notMem (eol _), ← whole]
      refine ⟨congrArg₂ _ ?_ line, ending⟩
      change s.buffered.take (s.lineSize none).1 = s.buffered
      rw [whole, ← s.length_buffered, take_length]
    · simp [Stream.lineSize, found] at more
  | case3 =>
    rename_i s limit _ stop
    simp [drop_eq_nil_of_le (at_.eof stop), throughEol, settle, detect]
  | case4 =>
    rename_i s limit some _ s' nothing
    obtain ⟨-, reads, none⟩ := at_.toSynced.fillReadBuffer (by omega) (s.lineRequest limit)
    subst auto
    have atEnd := (none nothing).resolve_left at_.chunk.ne'
    simp [drop_eq_nil_of_le atEnd, throughEol, settle, s', reads.ending, detect]
  | case5 =>
    rename_i s limit some _ s' _ ih
    obtain ⟨filled, reads, -⟩ := at_.toSynced.fillReadBuffer (by omega) (s.lineRequest limit)
    rw [← reads.data] at clear ⊢
    exact ih ⟨filled, reads.position.trans at_.position⟩ (reads.ending.trans detect) clear auto

/-- The first so many lines, as `_jonj_stream_get_line` returns them. -/
def lineSeq (eol : UInt8) : Bytes → Nat → List Out
  | _, 0 => []
  | bytes, n + 1 =>
    let line := throughEol eol bytes
    .line (if line = [] then none else some line) :: lineSeq eol (bytes.drop line.length) n

private theorem settle_settle (ending : LineEnding) (bytes : Bytes) (k : Nat) :
    (ending.settle bytes).settle (bytes.drop k) = ending.settle bytes ∧
      Unambiguous (ending.settle bytes) (bytes.drop k) := by
  by_cases known : ending.settle bytes = .detect
  · have neither : 13 ∉ bytes ∧ 10 ∉ bytes := by
      by_contra
      simp_all [settle, ite_eq_iff]
    have gone {byte : UInt8} (absent : byte ∉ bytes) : byte ∉ bytes.drop k :=
      fun member => absent (mem_of_mem_drop member)
    exact ⟨if_pos (.inr ⟨gone neither.1, gone neither.2⟩), fun _ member =>
      absurd member (gone neither.2)⟩
  · exact ⟨if_pos (.inl known), fun detect => absurd detect known⟩

private theorem run_lines (at_ : At dev s pos)
    (clear : Unambiguous s.ending ((dev.data s.abstract).drop pos)) (n : Nat) :
    (run dev.toOps s (replicate n (.getLine none))).1 =
      lineSeq (s.ending.settle ((dev.data s.abstract).drop pos)).byte
        ((dev.data s.abstract).drop pos) n := by
  induction n generalizing s pos with
  | zero => rfl
  | succ n ih =>
    obtain ⟨line, ending⟩ : (s.getLineLoop dev.toOps none).1 =
      throughEol (s.ending.settle ((dev.data s.abstract).drop pos)).byte
          ((dev.data s.abstract).drop pos) ∧
        (s.getLineLoop dev.toOps none).2.ending = s.ending.settle
          ((dev.data s.abstract).drop pos) := by
      by_cases detect : s.ending = .detect
      · rw [detect] at clear ⊢
        exact at_.getLineLoop_detect detect clear
      · rw [settle, if_pos (.inl detect)]
        exact at_.getLineLoop_eq detect none
    obtain ⟨last, data, -⟩ := at_.getLineLoop none
    have ⟨same, still⟩ := settle_settle s.ending ((dev.data s.abstract).drop pos)
      (s.getLineLoop dev.toOps none).1.length
    have rest := ih last (by rw [data, ending, ← drop_drop]; exact still)
    rw [data, ending, ← drop_drop, same] at rest
    simp only [replicate_succ, run, step, Stream.getLine, lineSeq, reduceCtorEq, if_false,
      Prod.map, ← line]
    exact congrArg _ rest

/-- A file whose reads return so much. -/
def cutAt (data : Bytes) (k : Nat) : Stream File :=
  fopenFromFd { fopenSettings with chunkSize := data.length } .detect
    { twoLines with data := data, reads := fun _ => k }

/-- The first line ends where the first read does, between CR and LF or behind them. -/
theorem getLine_cutAt {data : Bytes} (lf : 10 ∈ data) (next : data.idxOf 10 = data.idxOf 13 + 1)
    {k : Nat} (cut : k = data.idxOf 13 + 1 ∨ k = data.idxOf 13 + 2) :
    ((cutAt data k).getLine File.ops.toOps none).1 = some (data.take k) := by
  have bound := idxOf_lt_length_of_mem lf
  have cr : 13 ∈ data := idxOf_lt_length_iff.mp (by omega)
  have buffered : ((cutAt data k).fillReadBuffer File.ops.toOps data.length).buffered =
      data.take k := by
    have amount : min data.length (max 1 k) = k := by omega
    have room : (cutAt data k).makeRoom =
        { cutAt data k with readbuf := (cutAt data k).compact.readbuf,
                            readbuflen := data.length } := by
      simp [Stream.makeRoom, Stream.compact, Stream.grow, cutAt, fopenFromFd, streamAlloc,
        show 0 < data.length by omega]
    rw [Stream.fillReadBuffer_of_lt _ (show 0 < data.length by omega),
      Stream.buffered_receive (by rw [room]; exact le_rfl),
      Stream.buffered_makeRoom le_rfl, room]
    exact congrArg (List.take · data) amount
  have inside {byte : UInt8} (found : byte ∈ data) (before : data.idxOf byte < k) :
      Stream.memchr byte (data.take k) = some (data.idxOf byte) := by
    have member := (mem_take_iff_idxOf_lt found).mpr before
    have same : (data.take k ++ data.drop k).idxOf byte = _ := idxOf_append_of_mem member
    rw [Stream.memchr, if_pos member, ← same, take_append_drop]
  have place : ((cutAt data k).fillReadBuffer File.ops.toOps data.length).locateEol.1 =
      some (k - 1) := by
    have detect : ((cutAt data k).fillReadBuffer File.ops.toOps data.length).ending = .detect := by
      rw [Stream.fillReadBuffer_of_lt _ (show 0 < data.length by omega)]
      exact (Stream.makeRoom_same _).2.2.1
    unfold Stream.locateEol
    rw [detect, buffered, inside cr (by omega)]
    rcases cut with between | behind
    · have absent : Stream.memchr 10 (data.take k) = none := if_neg fun member => by
        have := (mem_take_iff_idxOf_lt lf).mp member
        omega
      rw [absent, between]
      rfl
    · rw [inside lf (by omega), next, behind]
      exact congrArg Prod.fst (if_pos (.inl rfl))
  have avail := congrArg length buffered
  rw [Stream.length_buffered, length_take] at avail
  refine getLine_of_fill File.ops.toOps rfl rfl ?_ ?_ ?_
    (ne_nil_of_length_pos (by rw [length_take]; omega))
  · exact show 0 < ((cutAt data k).fillReadBuffer File.ops.toOps data.length).avail by omega
  · exact congrArg Option.isSome place
  · change List.take (Option.elim ((cutAt data k).fillReadBuffer File.ops.toOps
      data.length).locateEol.1 _ _) (Stream.buffered _) = _
    rw [place, Option.elim, Nat.sub_add_cancel (by omega)]
    exact (congrArg _ buffered).trans (by rw [take_take, Nat.min_self])

theorem crlf_cut : ((cutAt [97, 13, 10] 2).getLine File.ops.toOps none).1 = some [97, 13] ∧
    ((cutAt [97, 13, 10] 3).getLine File.ops.toOps none).1 = some [97, 13, 10] :=
  ⟨getLine_cutAt (by decide) rfl (.inl rfl), getLine_cutAt (by decide) rfl (.inr rfl)⟩

/-- The lines depend on nothing but the data, if and only if it cannot be taken to have the wrong
line ends. -/
theorem lines_of_data_iff (ending : LineEnding) (data : Bytes) :
    (∃ lines : Nat → List Out, ∀ (settings : Settings) (f : File) (n : Nat),
      1 ≤ settings.chunkSize → f.data.drop f.cursor = data →
      (run File.ops.toOps (fopenFromFd settings ending f) (replicate n (.getLine none))).1 =
        lines n) ↔ Unambiguous ending data := by
  constructor
  · rintro ⟨lines, only⟩ rfl lf next
    have bound := idxOf_lt_length_of_mem lf
    have first {k : Nat} (cut : k = data.idxOf 13 + 1 ∨ k = data.idxOf 13 + 2) : lines 1 =
        [.line (some (data.take k))] := by
      rw [← getLine_cutAt lf next cut]
      exact (only _ _ 1 (show 1 ≤ data.length by omega) rfl).symm
    have lengths := (first (.inl rfl)).symm.trans (first (.inr rfl))
    simp only [cons.injEq, Out.line.injEq, Option.some.injEq, and_true] at lengths
    have lengths := congrArg length lengths
    simp only [length_take] at lengths
    omega
  · intro clear
    refine ⟨lineSeq (ending.settle data).byte data, fun settings f n chunk same => ?_⟩
    subst same
    exact run_lines (at_fopenFromFd chunk ending f) clear n

end Jonj.Streams
