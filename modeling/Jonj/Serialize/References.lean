import Jonj.Serialize.Numbering

/-!
# References and slots

The number after `R:` or `r:` against the slot of the first occurrence, when the stream is read.
-/
namespace Jonj.Serialize

open List

variable {D : Type} {gcvt : D → Bytes} {mem : Memory D}

/-- A reader at the start of the text. -/
structure Reader.Fresh (r : Reader D) (rval : Addr) (text : Bytes) : Prop where
  input : r.input = text
  varHash : r.varHash = []
  pushedAt : r.pushedAt = []
  allocated : rval < r.nextZval

/-- `var_access` finds the slot, and it was filled for the record that starts at the offset. -/
def Reader.SlotAt (r : Reader D) (text : Bytes) (k o : Nat) : Prop :=
  (varAccess r.varHash k).isSome ∧ r.pushedAt[k]? = some (text.length - o)

theorem Reader.Fresh.ready {r : Reader D} {rval : Addr} {text : Bytes} (fresh : r.Fresh rval text) :
    r.Ready rval where
  ordered := by
    refine ⟨?_, ?_, ?_, ?_⟩ <;> rw [fresh.varHash]
    · exact Chunks.packed_nil
    · rw [fresh.pushedAt]
      rfl
    · exact nodup_nil
    · simp
  allocated := fresh.allocated
  free := by
    rw [fresh.varHash]
    simp

/-- Every slot that the reader fills is one of the record's, under the same number. -/
theorem slot_of_pushedAt {r : Reader D} {starts filled : List Nat} {total k o : Nat}
    (pushedAt : r.pushedAt = filled.map (total - ·)) (part : filled <+: starts)
    (inside : ∀ p ∈ starts, p < total) (before : o < total)
    (slot : r.pushedAt[k]? = some (total - o)) : starts[k]? = some o := by
  rw [pushedAt, getElem?_map, Option.map_eq_some_iff] at slot
  obtain ⟨p, found, same⟩ := slot
  have slot : starts[k]? = some p := by
    obtain ⟨more, rfl⟩ := part
    rw [getElem?_append_left (List.getElem?_eq_some_iff.mp found).1]
    exact found
  have equal : p = o := by omega
  rwa [equal] at slot

private theorem index_unique {slots : List Nat} (sorted : slots.Pairwise (· < ·)) {i j o : Nat}
    (first : slots[i]? = some o) (second : slots[j]? = some o) : i = j := by
  have nodup : slots.Nodup := sorted.imp (fun lt => lt.ne)
  obtain ⟨_, value⟩ := List.getElem?_eq_some_iff.mp first
  obtain ⟨_, value'⟩ := List.getElem?_eq_some_iff.mp second
  exact nodup.getElem_inj_iff.mp (value.trans value'.symm)

private theorem toInt_number {m c k : Nat} (positive : 0 < m) (number : m + c = k + 1) :
    ((BitVec.ofNat 32 m).signExtend 64).toInt = k + 1 ↔ c = 0 ∧ k + 1 < 2 ^ 31 := by
  rw [BitVec.toInt_signExtend_of_le (by decide), BitVec.toInt_eq_toNat_bmod,
    BitVec.toNat_ofNat, Int.bmod_def]
  constructor
  · intro same
    split at same <;> omega
  · split <;> omega

private theorem stream_doc (doubles : ∀ d, isDoubleText (gcvt d) = true) {depth : Nat} {root : Addr}
    {w : Writer} (written : Writer.serializeIntern gcvt mem depth .init root = some w) :
    ∃ d : Doc, w.buf = d.text ∧ w.Tracks (d.starts 0) ∧ d.Lexes ∧
      (mem.Readable → (d.starts 0).length < 2 ^ 31 → d.Good 0) := by
  obtain ⟨d, documented⟩ := serializeIntern_doc doubles written .init
  refine ⟨d, documented.wrote.buf, documented.tracks, documented.lexes, ?_⟩
  intro readable few
  exact documented.good readable (by simpa using few)

/-- The number of a reference is that of the slot of its first occurrence exactly if nothing was
left out before it and the number fits an `int`. In a stream with fewer records than that, the
reader gets through and every first occurrence has a slot. -/
theorem reference_numbers (doubles : ∀ d, isDoubleText (gcvt d) = true) (env : Env D) {depth : Nat}
    {root : Addr} {w : Writer} (written : Writer.serializeIntern gcvt mem depth .init root = some w)
    {r : Reader D} {rval : Addr} (fresh : r.Fresh rval w.buf) :
    (∀ x n, (x, n) ∈ w.references → ∃ o, w.firstAt x = some o ∧
      ∀ height k, (Reader.unserialize env height r rval true).1.SlotAt w.buf k o →
        (n.toInt = k + 1 ↔ (∀ p ∈ w.leftOut, o ≤ p) ∧ k + 1 < 2 ^ 31)) ∧
    (mem.Readable → w.varCount + w.leftOut.length < 2 ^ 31 → ∃ least, ∀ height, least ≤ height →
        ∃ r' z, Reader.unserialize env height r rval true = (r', some z) ∧ r'.input = [] ∧
          ∀ x n, (x, n) ∈ w.references → ∃ o k, w.firstAt x = some o ∧ r'.SlotAt w.buf k o) := by
  obtain ⟨d, text, tracks, lexes, good⟩ := stream_doc doubles written
  have input : r.input = d.text ++ [] := by rw [fresh.input, text, append_nil]
  have total : 0 + r.input.length = w.buf.length := by rw [fresh.input, Nat.zero_add]
  have outcome : ∀ height, Outcome r (d.starts 0) w.buf.length []
    (Reader.unserialize env height r rval true) :=
    fun height => unserialize_outcome lexes input total
  have first : ∀ x n, (x, n) ∈ w.references → ∃ o k m, w.firstAt x = some o ∧
      (d.starts 0)[k]? = some o ∧ 0 < m ∧ m + w.leftOut.countP (· < o) = k + 1 ∧
      n = (BitVec.ofNat 32 m).signExtend 64 :=
    fun x n member => tracks.numbered x n (tracks.referenced x n member)
  constructor
  · intro x n member
    obtain ⟨o, k', m, at_, slot', positive, number, rfl⟩ := first x n member
    have before := tracks.slots_lt o (mem_of_getElem? slot')
    refine ⟨o, at_, ?_⟩
    intro height k slot
    obtain ⟨filled, part, pushedAt⟩ : ∃ filled, filled <+: d.starts 0 ∧
        (Reader.unserialize env height r rval true).1.pushedAt = filled.map (w.buf.length - ·) := by
      have outcome := outcome height
      generalize Reader.unserialize env height r rval true = result at outcome
      cases outcome with
      | done _ pushedAt => exact ⟨_, prefix_rfl, by rw [pushedAt, fresh.pushedAt, nil_append]⟩
      | failed filled part pushedAt =>
        exact ⟨filled, part, by rw [pushedAt, fresh.pushedAt, nil_append]⟩
    -- an offset has one number, because the slots are filled in the order of the text
    have same := index_unique tracks.sorted
      (slot_of_pushedAt pushedAt part tracks.slots_lt before slot.2) slot'
    subst same
    simpa using toInt_number positive number
  · intro readable few
    rw [tracks.count] at few
    refine ⟨d.height + 1, ?_⟩
    intro height deep
    have good : d.Good r.pushedAt.length := by
      rw [fresh.pushedAt]
      exact good readable few
    obtain ⟨r', z, read⟩ : ∃ r' z, Reader.unserialize env height r rval true = (r', some z) :=
      unserialize_good lexes good input fresh.ready deep
    have outcome := outcome height
    have advances := Reader.unserialize_advances env height r rval true fresh.ready.ordered
      fresh.ready.allocated fun _ => fresh.ready.free
    rw [read] at outcome advances
    cases outcome with
    | done after pushedAt =>
      rw [fresh.pushedAt, nil_append] at pushedAt
      refine ⟨r', z, read, after, ?_⟩
      intro x n member
      obtain ⟨o, k, _, at_, slot, _⟩ := first x n member
      have inside := (List.getElem?_eq_some_iff.mp slot).1
      refine ⟨o, k, at_, ?_, ?_⟩
      · rw [advances.ordered.varAccess, Option.isSome_iff_exists]
        have filled : k < r'.varHash.flatten.length := by
          rw [advances.ordered.length, pushedAt, length_map]
          exact inside
        exact ⟨_, getElem?_eq_getElem filled⟩
      · rw [pushedAt, getElem?_map, slot]
        rfl

def Reader.start (text : Bytes) : Reader Unit where
  input := text
  mem := sample
  nextZval := 1
  nextTable := 0
  nextObject := 0
  varHash := []
  pushedAt := []

private theorem fresh_start (text : Bytes) : (Reader.start text).Fresh 0 text :=
  ⟨rfl, rfl, rfl, Nat.zero_lt_one⟩

/-- `array($o, $o)` -/
def sharedObject : Memory Unit where
  zvals z := ⟨false, if z = 0 then .array 0 else .object 0⟩
  tables _ := ⟨[(.long 0, 1), (.long 1, 1)], by decide⟩
  objects _ := ⟨sampleKey, .empty⟩

theorem reference_numbers_shared :
    ∃ w, Writer.serializeIntern (fun _ => [48]) sharedObject 3 .init 0 = some w ∧
      (.object 0, 2) ∈ w.references ∧ ∃ o, w.firstAt (.object 0) = some o ∧
        ∀ height k, (Reader.unserialize sampleEnv height (.start w.buf) 0 true).1.SlotAt w.buf k o →
          ((2 : Long).toInt = k + 1 ↔ (∀ p ∈ w.leftOut, o ≤ p) ∧ k + 1 < 2 ^ 31) := by
  obtain ⟨w, written, member⟩ : ∃ w,
      Writer.serializeIntern (fun _ => [48]) sharedObject 3 .init 0 = some w ∧
        (VarKey.object 0, (2 : Long)) ∈ w.references := ⟨_, rfl, by decide⟩
  refine ⟨w, written, member, ?_⟩
  exact (reference_numbers (fun _ => by decide) sampleEnv written (fresh_start w.buf)).1 _ _ member

/-- `$a = array($o0, $o1, $o2); $o0->k = $a; $o1->k = $a; array($a)`. The third occurrence of
`$a` inside itself is left out. -/
def nestedArray : Memory Unit where
  zvals z :=
    if z = 0 then ⟨false, .array 0⟩
    else if z = 1 then ⟨false, .array 1⟩
    else ⟨false, .object (z - 2)⟩
  tables ht :=
    if ht = 0 then ⟨[(.long 0, 1)], by decide⟩
    else ⟨[(.long 0, 2), (.long 1, 3), (.long 2, 4)], by decide⟩
  objects handle :=
    if handle = 2 then ⟨sampleKey, .empty⟩ else ⟨sampleKey, ⟨[(.string sampleKey, 1)], by simp⟩⟩

/-- `$o2` is written as `r:7;`, but its slot is the eighth. -/
theorem leftOut_shifts_number :
    ∃ w, Writer.serializeIntern (fun _ => [48]) nestedArray 8 .init 0 = some w ∧
      (.object 2, 7) ∈ w.references ∧ ∃ o, w.firstAt (.object 2) = some o ∧
        (Reader.unserialize sampleEnv 9 (.start w.buf) 0 true).1.SlotAt w.buf 7 o := by
  refine ⟨_, rfl, by decide, _, rfl, ?_, ?_⟩
  · decide
  · decide

end Jonj.Serialize
