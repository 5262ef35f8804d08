import Jonj.Serialize.Document

/-!
# Reading records

`Outcome` says which slots reading a record fills: all of them if it succeeds, the first of them
if it fails. `unserialize_good` says when it succeeds.
-/
namespace Jonj.Serialize

open List Reader

variable {D : Type} {env : Env D}

/-- What reading does with text whose slots start at the offsets; `total` is the length of the
whole stream. -/
inductive Outcome (r : Reader D) (starts : List Nat) (total : Nat) (rest : Bytes) :
    Reader D × Option Addr → Prop
  | done {r' : Reader D} {z : Addr} (input : r'.input = rest)
      (pushedAt : r'.pushedAt = r.pushedAt ++ starts.map (total - ·)) :
      Outcome r starts total rest (r', some z)
  | failed {r' : Reader D} (filled : List Nat) (part : filled <+: starts)
      (pushedAt : r'.pushedAt = r.pushedAt ++ filled.map (total - ·)) :
      Outcome r starts total rest (r', none)

/-- The same for the loop over the elements. -/
inductive LoopOutcome (r : Reader D) (o count total : Nat) (elements : List (Key × Doc))
    (tail : Bytes) :
    Reader D × Bool → Prop
  | done {r' : Reader D} (enough : count ≤ elements.length)
      (input : r'.input = Doc.textOfElements (elements.drop count) ++ tail)
      (pushedAt : r'.pushedAt =
        r.pushedAt ++ (Doc.startsOfElements o (elements.take count)).map (total - ·)) :
      LoopOutcome r o count total elements tail (r', true)
  | failed {r' : Reader D} (filled : List Nat) (part : filled <+: Doc.startsOfElements o elements)
      (pushedAt : r'.pushedAt = r.pushedAt ++ filled.map (total - ·)) :
      LoopOutcome r o count total elements tail (r', false)

variable {r : Reader D} {rval : Addr} {total o : Nat}

theorem push_slot (head : r.input.head? ≠ some 82) (inside : o + r.input.length = total) :
    (r.push rval true).pushedAt = r.pushedAt ++ [o].map (total - ·) := by
  have left : total - o = r.input.length := by omega
  rw [push, if_pos ⟨rfl, head⟩, map_singleton, left]

/-- A reference is recognised by its first byte, and gets no slot. -/
theorem push_ref (head : r.input.head? = some 82) : r.push rval true = r := by
  rw [push, if_neg (fun pushed => pushed.2 head)]

@[simp] theorem push_false (r : Reader D) (rval : Addr) : r.push rval false = r := by
  rw [push, if_neg (fun pushed => Bool.noConfusion pushed.1)]

theorem tableKey_some (target : Target) (key : Key) :
    ∃ k, tableKey target (key.value : Value D) = some k := by
  cases target <;> cases key <;> exact ⟨_, rfl⟩

variable {rest : Bytes}

/-- At the closing brace there is no key to read. -/
theorem unserialize_brace (env : Env D) (depth : Nat) (input : r.input = 125 :: rest) :
    ∃ r', unserialize env depth r rval false = (r', none) ∧ r'.pushedAt = r.pushedAt := by
  cases depth with
  | zero => exact ⟨_, rfl, rfl⟩
  | succ depth =>
    have unscanned : scan r.input = none := by
      rw [input]
      rfl
    refine ⟨(r.push rval false).fail.1, ?_, by simp [fail]⟩
    rw [unserialize, if_neg (by simp [input]), unscanned]
    rfl

/-- Reading the record has the outcome that its slots say. -/
def Doc.Fills (env : Env D) (depth : Nat) (d : Doc) : Prop :=
  ∀ (r : Reader D) (rval : Addr) (rest : Bytes) (o total : Nat), r.input = d.text ++ rest →
    o + r.input.length = total →
    Outcome r (d.starts o) total rest (Reader.unserialize env depth r rval true)

section loop

variable {depth : Nat} {elements : List (Key × Doc)} (each : ∀ e ∈ elements, e.2.Fills env depth)
include each

/-- The loop ends behind the elements, or has stopped at one of them. -/
theorem processNestedData_outcome (target : Target) (count : Nat)
    (input : r.input = Doc.textOfElements elements ++ 125 :: rest)
    (inside : o + r.input.length = total) : LoopOutcome r o count total elements (125 :: rest)
      (processNestedData (unserialize env depth) target count r) := by
  induction elements generalizing count r o with
  | nil =>
    cases count with
    | zero => exact .done (Nat.zero_le _) input (by simp [Doc.startsOfElements])
    | succ count =>
      -- more elements are expected than there are
      obtain ⟨r', read, pushedAt⟩ : ∃ r',
          unserialize env depth r.allocZval.1 r.allocZval.2 false = (r', none) ∧
            r'.pushedAt = r.pushedAt := unserialize_brace env depth input
      rw [processNestedData]
      simp only [read]
      exact .failed [] nil_prefix (by rw [pushedAt, map_nil, append_nil])
  | cons e elements ih =>
    cases count with
    | zero => exact .done (Nat.zero_le _) input (by simp [Doc.startsOfElements])
    | succ count =>
      rw [Doc.textOfElements, append_assoc, append_assoc] at input
      cases depth with
      | zero => exact .failed [] nil_prefix (append_nil _).symm
      | succ depth =>
        obtain ⟨k, kept⟩ := tableKey_some (D := D) target e.1
        have inside' : o + (keyRecord e.1).length +
            (e.2.text ++ (Doc.textOfElements elements ++ 125 :: rest)).length = total := by
          rw [input, length_append] at inside
          omega
        rw [forall_mem_cons] at each
        have value := each.1
          (r.afterKey e.1 (e.2.text ++ (Doc.textOfElements elements ++ 125 :: rest))).1
          (r.afterKey e.1 (e.2.text ++ (Doc.textOfElements elements ++ 125 :: rest))).2
          (Doc.textOfElements elements ++ 125 :: rest)
            (o + (keyRecord e.1).length) total rfl inside'
        rw [processNestedData_succ input kept]
        generalize unserialize env (depth + 1) _ _ true = result at value
        cases value with
        | failed filled part pushedAt =>
          exact .failed filled (part.trans (prefix_append _ _)) pushedAt
        | @done r' data after pushedAt =>
          simp only
          have pushedAt : (r'.update target k data).pushedAt =
              r.pushedAt ++ (e.2.starts (o + (keyRecord e.1).length)).map (total - ·) := by
            rw [(keeps_update r' target k data).pushedAt]
            exact pushedAt
          split
          · exact .failed _ (prefix_append _ _) pushedAt
          have next := ih each.2 count
            (r := r'.update target k data) (o := o + (keyRecord e.1).length + e.2.text.length)
            (by rw [update_input, after]) (by
              rw [update_input, after]
              rw [length_append] at inside'
              omega)
          generalize processNestedData _ target count _ = result at next
          cases next with
          | done enough input pushedAt' =>
            refine .done (Nat.succ_le_succ enough) input ?_
            rw [pushedAt', pushedAt, take_succ_cons, Doc.startsOfElements, map_append,
              append_assoc]
          | failed filled part pushedAt' =>
            refine .failed _ ((prefix_append_right_inj _).mpr part) ?_
            rw [pushedAt', pushedAt, map_append, append_assoc]

theorem readNested_outcome (target : Target) (count : Long)
    (input : r.input = Doc.textOfElements elements ++ 125 :: rest)
    (inside : o + r.input.length = total) : Outcome r (Doc.startsOfElements o elements) total rest
      (readNested (unserialize env depth) r rval target count) := by
  rw [readNested]
  split
  · exact .failed [] nil_prefix (append_nil _).symm
  have looped := processNestedData_outcome each target count.toNat input inside
  generalize processNestedData _ target count.toNat r = result at looped
  cases looped with
  | failed filled part pushedAt => exact .failed filled part pushedAt
  | @done r' enough after pushedAt =>
    simp only
    cases left : elements.drop count.toNat with
    | nil =>
      have all : elements.take count.toNat = elements := take_of_length_le (drop_eq_nil_iff.mp left)
      rw [left] at after
      rw [all] at pushedAt
      rw [finishNestedData, after]
      exact .done rfl pushedAt
    | cons e more =>
      -- where the brace should be there is another key
      rw [left, Doc.textOfElements] at after
      have failed : r'.finishNestedData rval = r'.fail := by
        rw [finishNestedData, after]
        cases e.1 with
        | long index => rfl
        | string name => rfl
      rw [failed]
      exact .failed _ (Doc.startsOfElements_take o count.toNat elements) pushedAt

end loop

/-! ### Objects -/

private theorem parseIv2_printInt (count : BitVec 32) (rest : Bytes) :
    ∃ elements : Long, parseIv2 (printInt count ++ 58 :: rest) = (elements, 58 :: rest) ∧
      (0 ≤ count.toInt → elements = BitVec.ofNat 64 count.toNat) := by
  have bound : count.toNat < 2 ^ 64 := by
    omega
  by_cases negative : count.toInt < 0
  · rw [printInt, if_pos negative]
    obtain ⟨_, after⟩ := span_printUnsigned ((-count).signExtend 64).toNat (notDigit_colon rest)
    have body : dropSign (ascii "-" ++ printUnsigned ((-count).signExtend 64).toNat ++ 58 :: rest) =
        printUnsigned ((-count).signExtend 64).toNat ++ 58 :: rest := rfl
    refine ⟨_, Prod.ext rfl ?_, fun nonneg => absurd negative nonneg.not_gt⟩
    rw [parseIv2, body, after]
  · rw [printInt_of_nonneg (not_lt.mp negative), parseIv2_printUnsigned bound (notDigit_colon rest)]
    exact ⟨_, rfl, fun _ => rfl⟩

section object

variable {unserialize : Reader D → Addr → Bool → Reader D × Option Addr} {r : Reader D}
    {rval : Addr} {name : Str} {count : BitVec 32} {rest : Bytes}

/-- A name that is not one of a class stops the reader. -/
theorem readObject_invalid (invalid : ¬ (Head.object name).Valid) :
    readObject env unserialize r rval false name.bytes.length
      (name.bytes ++ (ascii "\":" ++ rest)) = r.fail := by
  have bad : (name.bytes ++ (ascii "\":" ++ rest)).length < name.bytes.length ∨
      name.bytes.length = 0 ∨ (skip "\":" (ascii "\":" ++ rest)).isNone = true ∨
      ¬ name.bytes.all isClassChar = true := by
    by_cases empty : name.bytes = []
    · exact .inr (.inl (by rw [empty]; rfl))
    · exact .inr (.inr (.inr fun chars => invalid ⟨empty, chars⟩))
  rw [readObject, dif_pos name.fits]
  simp only [take_left, drop_left]
  rw [if_pos bad]

theorem readObject_valid (valid : (Head.object name).Valid) :
    ∃ (r' : Reader D) (elements : Long), r.Keeps r' ∧ r'.input = rest ∧
      (0 ≤ count.toInt → elements = BitVec.ofNat 64 count.toNat) ∧
        readObject env unserialize r rval false name.bytes.length
        (name.bytes ++ (ascii "\":" ++ (printInt count ++ (ascii ":\x7b" ++ rest)))) =
        r'.readNested unserialize rval (.object r.nextObject) elements := by
  obtain ⟨elements, parsed, value⟩ := parseIv2_printInt count (123 :: rest)
  have good : ¬ ((name.bytes ++ (ascii "\":" ++
    (printInt count ++ (ascii ":\x7b" ++ rest)))).length <
      name.bytes.length ∨ name.bytes.length = 0 ∨
      (skip "\":" (ascii "\":" ++ (printInt count ++ (ascii ":\x7b" ++ rest)))).isNone = true ∨
      ¬ name.bytes.all isClassChar = true) := by
    rw [skip_append]
    simp [valid.1, valid.2]
  have long : ¬ (ascii "\":" ++ (printInt count ++ (ascii ":\x7b" ++ rest))).length ≤ 2 := by
    simp [ascii]
  have shape : (ascii "\":" ++ (printInt count ++ (ascii ":\x7b" ++ rest))).drop 2 =
    printInt count ++ 58 :: 123 :: rest := rfl
  rw [readObject, dif_pos name.fits]
  simp only [take_left, drop_left]
  rw [if_neg good, if_neg long, shape, parsed]
  refine ⟨_, elements, ?_, ?_, value, rfl⟩
  · split
    · apply Reader.Keeps.trans _ (keeps_storeClassName _ _ _)
      exact ⟨rfl, rfl, le_rfl⟩
    · exact ⟨rfl, rfl, le_rfl⟩
  · split
    · rfl
    · rfl

end object

/-! ### Whole records -/

theorem Outcome.of_scalar {r' : Reader D} {z : Addr} (head : r.input.head? ≠ some 82)
    (inside : o + r.input.length = total) (pushedAt : r'.pushedAt = (r.push rval true).pushedAt)
    (input : r'.input = rest) : Outcome r [o] total rest (r', some z) := by
  apply Outcome.done input
  rw [pushedAt]
  exact push_slot head inside

/-- The slot of a record is filled even if reading it fails. -/
theorem Outcome.of_failure {r' : Reader D} {more : List Nat} (head : r.input.head? ≠ some 82)
    (inside : o + r.input.length = total) (pushedAt : r'.pushedAt = (r.push rval true).pushedAt) :
    Outcome r (o :: more) total rest (r', none) := by
  apply Outcome.failed [o] (by simp)
  rw [pushedAt]
  exact push_slot head inside

theorem Outcome.of_nested {r' : Reader D} (rval : Addr) {starts : List Nat}
    {result : Reader D × Option Addr} (head : r.input.head? ≠ some 82)
    (inside : o + r.input.length = total) (pushedAt : r'.pushedAt = (r.push rval true).pushedAt)
    (elements : Outcome r' starts total rest result) :
    Outcome r (o :: starts) total rest result := by
  rw [push_slot head inside] at pushedAt
  cases elements with
  | done input more =>
    apply Outcome.done input
    rw [more, pushedAt, append_assoc]
    rfl
  | failed filled part more =>
    apply Outcome.failed (o :: filled) (cons_prefix_cons.mpr ⟨rfl, part⟩)
    rw [more, pushedAt, append_assoc]
    rfl

theorem head_input {d : Doc} (input : r.input = d.text ++ rest) (other : ∀ n, d ≠ .ref n) :
    r.input.head? ≠ some 82 := by
  rw [input]
  cases d with
  | ref n => exact absurd rfl (other n)
  | nested head count elements =>
    cases head <;>
    · intro same
      cases same
  | _ =>
    intro same
    cases same

variable {n : Long}

section record

variable {r : Reader D} {rval : Addr} {rest : Bytes} {o total depth : Nat}

/-- A reference is resolved, or there is no such slot. -/
theorem ref_outcome (input : r.input = (Doc.ref n).text ++ rest) :
    Outcome r [] total rest (unserialize env (depth + 1) r rval true) := by
  have head : r.input.head? = some 82 := by
    rw [input]
    rfl
  rw [unserialize_of_scan (by rw [input]; exact scan_ref n rest), push_ref head]
  simp only [act, if_true]
  cases varAccess r.varHash ((n - 1).toInt) with
  | none => exact .failed [] nil_prefix (append_nil _).symm
  | some z => exact .done rfl (append_nil _).symm

private theorem objectRef_outcome (input : r.input = (Doc.objectRef n).text ++ rest)
    (inside : o + r.input.length = total) :
    Outcome r [o] total rest (unserialize env (depth + 1) r rval true) := by
  have head := head_input input (by simp)
  rw [unserialize_of_scan (by rw [input]; exact scan_objectRef n rest)]
  simp only [act, if_true]
  cases varAccess (r.push rval true).varHash ((n - 1).toInt) with
  | none => exact .of_failure head inside rfl
  | some z =>
    simp only
    split
    · exact .of_failure head inside rfl
    · exact .of_scalar head inside rfl rfl

variable {elements : List (Key × Doc)} {count : BitVec 32}
    (each : ∀ e ∈ elements, e.2.Fills env depth)
include each

private theorem array_outcome (input : r.input = (Doc.nested .array count elements).text ++ rest)
    (inside : o + r.input.length = total) :
    Outcome r ((Doc.nested .array count elements).starts o) total rest
      (unserialize env (depth + 1) r rval true) := by
  have head := head_input input (by simp)
  have shape : r.input = ascii "a:" ++ (printInt count ++ ascii ":\x7b") ++
      (Doc.textOfElements elements ++ 125 :: rest) := by
    rw [input, Doc.text, Doc.opening, Head.text]
    simp [ascii]
  by_cases negative : count.toInt < 0
  · have unscanned : scan r.input = none := by
      rw [shape]
      exact scan_negativeArray negative _
    rw [unserialize, if_neg (by rw [shape]; simp [ascii]), unscanned]
    exact .of_failure head inside rfl
  rw [unserialize_array (not_lt.mp negative) shape]
  refine .of_nested rval head inside ?_ (readNested_outcome each _ _ ?_ ?_)
  · rfl
  · rfl
  · rw [shape, length_append] at inside
    rw [← inside, Doc.opening]
    exact Nat.add_assoc _ _ _

private theorem object_outcome {name : Str}
    (input : r.input = (Doc.nested (.object name) count elements).text ++ rest)
    (inside : o + r.input.length = total) :
    Outcome r ((Doc.nested (.object name) count elements).starts o) total rest
      (unserialize env (depth + 1) r rval true) := by
  have head := head_input input (by simp)
  have shape : r.input = className name ++ (printInt count ++ (ascii ":\x7b" ++
      (Doc.textOfElements elements ++ 125 :: rest))) := by
    rw [input, Doc.text, Doc.opening, Head.text]
    simp [ascii]
  rw [unserialize_of_scan (by rw [shape]; exact scan_className name _)]
  simp only [act, not_true_eq_false, if_false]
  by_cases valid : (Head.object name).Valid
  · obtain ⟨r', elements, keeps, after, _, same⟩ := readObject_valid valid
    rw [same]
    refine .of_nested rval head inside keeps.pushedAt (readNested_outcome each _ _ after ?_)
    rw [after]
    rw [shape] at inside
    rw [← inside, Doc.opening, Head.text]
    simp only [length_append]
    omega
  · rw [readObject_invalid valid]
    exact .of_failure head inside rfl

end record

/-- Reading a record fills its slots in order, as far as it gets. -/
theorem unserialize_outcome {d : Doc} (lexes : d.Lexes)
    {depth : Nat} (input : r.input = d.text ++ rest) (inside : o + r.input.length = total) :
    Outcome r (d.starts o) total rest (unserialize env depth r rval true) := by
  cases depth with
  | zero => exact .failed [] nil_prefix (append_nil _).symm
  | succ depth =>
    induction d using Doc.induct generalizing r rval rest o total depth with
    | null =>
      rw [unserialize_null input]
      exact .of_scalar (head_input input (by simp)) inside rfl rfl
    | bool b =>
      rw [unserialize_bool input]
      exact .of_scalar (head_input input (by simp)) inside rfl rfl
    | long v =>
      rw [unserialize_long input]
      exact .of_scalar (head_input input (by simp)) inside rfl rfl
    | string s =>
      rw [unserialize_string input]
      exact .of_scalar (head_input input (by simp)) inside rfl rfl
    | double text =>
      have head := head_input input (by simp)
      rw [unserialize_of_scan
        (by rw [input]; exact scan_double lexes (semicolon_not_mem lexes) rest)]
      exact .of_scalar head inside rfl rfl
    | ref n => exact ref_outcome input
    | objectRef n => exact objectRef_outcome input inside
    | nested head count elements ih =>
      have each : ∀ e ∈ elements, e.2.Fills env depth := by
        intro e member r rval rest o total input inside
        cases depth with
        | zero => exact .failed [] nil_prefix (append_nil _).symm
        | succ depth => exact ih e member (Doc.lexes_of_mem lexes e member) input inside depth
      cases head with
      | array => exact array_outcome each input inside
      | object name => exact object_outcome each input inside

/-! ### When reading succeeds -/

/-- The slots that are counted can be accessed. -/
theorem varAccess_filled (ordered : r.Ordered) (positive : 0 < n.toInt)
    (small : n.toInt ≤ r.pushedAt.length) :
    ∃ z, varAccess r.varHash ((n - 1).toInt) = some z ∧
      r.varHash.flatten[(n.toInt - 1).toNat]? = some z := by
  have upper : n.toInt < 2 ^ 63 := BitVec.toInt_lt
  have one : (1 : Long).toInt = 1 := by decide
  have index : (n - 1).toInt = ((n.toInt - 1).toNat : Int) := by
    rw [BitVec.toInt_sub, Int.bmod_eq_of_le (by omega) (by omega)]
    omega
  have filled : (n.toInt - 1).toNat < r.varHash.flatten.length := by
    rw [ordered.length]
    omega
  refine ⟨_, ?_, getElem?_eq_getElem filled⟩
  rw [index, ordered.varAccess]
  exact getElem?_eq_getElem filled

/-- What the reader needs to be given with a record. -/
structure Reader.Ready (r : Reader D) (rval : Addr) : Prop where
  ordered : r.Ordered
  allocated : rval < r.nextZval
  free : rval ∉ r.varHash.flatten

theorem Reader.Ready.push (ready : r.Ready rval) :
    (r.push rval true).Ordered := (ready.ordered.push ready.allocated fun _ => ready.free).ordered

private theorem ready_afterKey (ordered : r.Ordered) (key : Key) (rest : Bytes) :
    (r.afterKey key rest).1.Ready (r.nextZval + 1) where
  ordered := ordered.of_keeps ⟨rfl, rfl, Nat.le_add_right _ 2⟩
  allocated := Nat.lt_succ_self _
  free member := absurd (ordered.allocated _ member) (Nat.lt_succ_self _).not_gt

/-- Reading the record succeeds where nothing in it is wrong. -/
def Doc.IsRead (env : Env D) (depth : Nat) (d : Doc) : Prop :=
  ∀ (r : Reader D) (rval : Addr) (rest : Bytes), d.Good r.pushedAt.length → r.input = d.text ++
    rest → r.Ready rval →
    ∃ r' z, Reader.unserialize env depth r rval true = (r', some z)

section good

variable {depth : Nat}

private theorem ref_good (ordered : r.Ordered) (good : (Doc.ref n).Good r.pushedAt.length)
    (input : r.input = (Doc.ref n).text ++ rest) :
    ∃ r' z, unserialize env (depth + 1) r rval true = (r', some z) := by
  have head : r.input.head? = some 82 := by
    rw [input]
    rfl
  obtain ⟨z, found, _⟩ := varAccess_filled ordered good.1 good.2
  rw [unserialize_of_scan (by rw [input]; exact scan_ref n rest), push_ref head]
  simp only [act, if_true, found]
  exact ⟨_, _, rfl⟩

private theorem objectRef_good (ready : r.Ready rval)
    (good : (Doc.objectRef n).Good r.pushedAt.length)
    (input : r.input = (Doc.objectRef n).text ++ rest) :
    ∃ r' z, unserialize env (depth + 1) r rval true = (r', some z) := by
  have head := head_input input (by simp)
  have pushed : (r.push rval true).varHash.flatten = r.varHash.flatten ++ [rval] := by
    rw [push, if_pos ⟨rfl, head⟩, varPush_eq, Chunks.flatten_push]
  have more : r.pushedAt.length ≤ (r.push rval true).pushedAt.length := by
    rw [push_slot head (Nat.zero_add _), length_append]
    exact Nat.le_add_right _ _
  obtain ⟨positive, small⟩ := good
  obtain ⟨z, found, at_⟩ := varAccess_filled ready.push positive (by omega)
  have other : z ≠ rval := by
    rintro rfl
    have before : (n.toInt - 1).toNat < r.varHash.flatten.length := by
      rw [ready.ordered.length]
      omega
    rw [pushed, getElem?_append_left before] at at_
    exact ready.free (mem_of_getElem? at_)
  rw [unserialize_of_scan (by rw [input]; exact scan_objectRef n rest)]
  simp only [act, if_true, found, if_neg other]
  exact ⟨_, _, rfl⟩

variable {elements : List (Key × Doc)} (each : ∀ e ∈ elements, e.2.IsRead env (depth + 1))
include each

private theorem processNestedData_good (target : Target)
    (lexes : Doc.LexesElements elements) (good : Doc.GoodElements r.pushedAt.length elements)
    (ordered : r.Ordered) (input : r.input = Doc.textOfElements elements ++ rest) :
    ∃ r', processNestedData (unserialize env (depth + 1)) target elements.length r = (r', true) ∧
      r'.input = rest := by
  induction elements generalizing r with
  | nil => exact ⟨r, rfl, input⟩
  | cons e elements ih =>
    obtain ⟨first, later⟩ := good
    rw [Doc.textOfElements, append_assoc, append_assoc] at input
    obtain ⟨k, kept⟩ := tableKey_some (D := D) target e.1
    have ready := ready_afterKey ordered e.1 (e.2.text ++ (Doc.textOfElements elements ++ rest))
    have slots : (r.afterKey e.1 (e.2.text ++ (Doc.textOfElements elements ++ rest))).1.pushedAt =
      r.pushedAt := rfl
    rw [forall_mem_cons] at each
    obtain ⟨r₁, z, read⟩ := each.1
      (r.afterKey e.1 (e.2.text ++ (Doc.textOfElements elements ++ rest))).1 (r.nextZval + 1)
      (Doc.textOfElements elements ++ rest) first rfl ready
    have outcome : Outcome _ (e.2.starts 0) _ (Doc.textOfElements elements ++ rest)
        (unserialize env (depth + 1)
          (r.afterKey e.1 (e.2.text ++ (Doc.textOfElements elements ++ rest))).1
            (r.nextZval + 1) true) :=
      unserialize_outcome lexes.1 rfl (Nat.zero_add _)
    have advances := unserialize_advances env (depth + 1) _ _ true ready.ordered ready.allocated
      fun _ => ready.free
    rw [read] at outcome advances
    obtain ⟨after, pushedAt⟩ : r₁.input = Doc.textOfElements elements ++ rest ∧
        r₁.pushedAt.length = r.pushedAt.length + (e.2.starts 0).length := by
      cases outcome with
      | done after pushedAt =>
        refine ⟨after, ?_⟩
        rw [pushedAt, length_append, length_map, slots]
    have keeps := keeps_update r₁ target k z
    obtain ⟨r', looped, done⟩ := ih each.2 lexes.2
      (r := r₁.update target k z) (by rw [keeps.pushedAt, pushedAt]; exact later)
      (advances.ordered.of_keeps keeps) (by rw [update_input, after])
    refine ⟨r', ?_, done⟩
    rw [length_cons, processNestedData_next input kept read]
    · exact looped
    · rw [after]
      exact last_read e.2.text_ends _

private theorem readNested_good {count : Long} (target : Target)
    (lexes : Doc.LexesElements elements) (good : Doc.GoodElements r.pushedAt.length elements)
    (ordered : r.Ordered) (number : count.toInt = elements.length)
    (input : r.input = Doc.textOfElements elements ++ 125 :: rest) :
    ∃ r', readNested (unserialize env (depth + 1)) r rval target count = (r', some rval) := by
  obtain ⟨r', looped, after⟩ := processNestedData_good each target lexes good ordered input
  have turns : count.toNat = elements.length := by
    rw [BitVec.toInt_eq_toNat_cond] at number
    split at number <;> omega
  rw [readNested, if_neg (by omega), turns, looped]
  simp only [finishNestedData, after]
  exact ⟨_, rfl⟩

end good

/-- A record in which nothing is wrong is read. -/
theorem unserialize_good {d : Doc} (lexes : d.Lexes) {depth : Nat} (good : d.Good r.pushedAt.length)
    (input : r.input = d.text ++ rest) (ready : r.Ready rval) (deep : d.height < depth) :
    ∃ r' z, unserialize env depth r rval true = (r', some z) := by
  obtain ⟨depth, rfl⟩ := Nat.exists_eq_succ_of_ne_zero (Nat.ne_zero_of_lt deep)
  induction d using Doc.induct generalizing r rval rest depth with
  | nested head count elements ih =>
    rw [Doc.height] at deep
    obtain ⟨depth, rfl⟩ := Nat.exists_eq_succ_of_ne_zero (show depth ≠ 0 by omega)
    obtain ⟨valid, number, good⟩ := good
    have notRef := head_input input (by simp)
    have slots : (r.push rval true).pushedAt.length = r.pushedAt.length + 1 := by
      rw [push_slot notRef (Nat.zero_add _), length_append]
      rfl
    rw [← slots] at good
    have nonneg : 0 ≤ count.toInt := by omega
    have number' : (BitVec.ofNat 64 count.toNat).toInt = elements.length := by
      rw [BitVec.toInt_eq_toNat_cond] at number
      rw [BitVec.toInt_eq_toNat_cond, BitVec.toNat_ofNat]
      split at number <;> omega
    have each : ∀ e ∈ elements, e.2.IsRead env (depth + 1) := by
      intro e member r rval rest good input ready
      have lower := Doc.height_le_of_mem member
      exact ih e member (Doc.lexes_of_mem lexes e member) good input ready depth (by omega)
    cases head with
    | array =>
      have shape : r.input = ascii "a:" ++ (printInt count ++ ascii ":\x7b") ++
          (Doc.textOfElements elements ++ 125 :: rest) := by
        rw [input, Doc.text, Doc.opening, Head.text]
        simp [ascii]
      rw [unserialize_array nonneg shape]
      obtain ⟨r', read⟩ := readNested_good each (.array (r.push rval true).nextTable) lexes
        (r := { (r.push rval true).initArray rval with
          input := Doc.textOfElements elements ++ 125 :: rest })
        good (ready.push.of_keeps ⟨rfl, rfl, le_rfl⟩) number' rfl
      exact ⟨r', rval, read⟩
    | object name =>
      have shape : r.input = className name ++ (printInt count ++ (ascii ":\x7b" ++
          (Doc.textOfElements elements ++ 125 :: rest))) := by
        rw [input, Doc.text, Doc.opening, Head.text]
        simp [ascii]
      rw [unserialize_of_scan (by rw [shape]; exact scan_className name _)]
      simp only [act, not_true_eq_false, if_false]
      obtain ⟨r₁, number, keeps, after, value, same⟩ := readObject_valid valid
      rw [same, value nonneg]
      obtain ⟨r', read⟩ := readNested_good each _ lexes (by rw [keeps.pushedAt]; exact good)
        (ready.push.of_keeps keeps) number' after
      exact ⟨r', rval, read⟩
  | null => exact ⟨_, _, unserialize_null input⟩
  | bool b => exact ⟨_, _, unserialize_bool input⟩
  | long v => exact ⟨_, _, unserialize_long input⟩
  | string s => exact ⟨_, _, unserialize_string input⟩
  | ref n => exact ref_good ready.ordered good input
  | objectRef n => exact objectRef_good ready good input
  | double text =>
    exact ⟨_, _, unserialize_of_scan
      (by rw [input]; exact scan_double lexes (semicolon_not_mem lexes) rest)⟩

end Jonj.Serialize
