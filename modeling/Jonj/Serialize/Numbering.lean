import Jonj.Serialize.ReadDocument

/-!
# The numbers of references

The writer numbers a variable when it meets it first, by the size of `var_hash`; the reader
fills a slot for every record but `R:`. `Writer.Tracks` relates the two counters: they differ by
the number of elements that were left out, which the writer writes as `N;` without counting them.
-/
namespace Jonj.Serialize

open List Function

variable {D : Type} {gcvt : D → Bytes} {mem : Memory D}

/-- The reader finds as many elements as it expects, and every class has a name. -/
structure Memory.Readable (mem : Memory D) : Prop where
  tables : ∀ ht, (mem.tables ht).size < 2 ^ 31
  properties : ∀ handle, (mem.objects handle).properties.size < 2 ^ 31
  names : ∀ handle, (Head.object (mem.objects handle).className).Valid

/-- The writer's numbers, against the offsets where the reader will fill slots. -/
structure Writer.Tracks (w : Writer) (slots : List Nat) : Prop where
  count : w.varCount + w.leftOut.length = slots.length
  slots_lt : ∀ o ∈ slots, o < w.buf.length
  leftOut_lt : ∀ o ∈ w.leftOut, o < w.buf.length
  sorted : slots.Pairwise (· < ·)
  numbered : ∀ x n, w.varHash x = some n → ∃ o k m, w.firstAt x = some o ∧ slots[k]? = some o ∧
    0 < m ∧ m + w.leftOut.countP (· < o) = k + 1 ∧ n = (BitVec.ofNat 32 m).signExtend 64
  referenced : ∀ x n, (x, n) ∈ w.references → w.varHash x = some n

namespace Writer.Tracks

variable {w : Writer} {slots : List Nat}

theorem init : Writer.init.Tracks [] where
  count := rfl
  slots_lt := by simp
  leftOut_lt := by simp [Writer.init]
  sorted := List.Pairwise.nil
  numbered x n seen := by cases seen
  referenced x n member := by cases member

section

variable (tracks : w.Tracks slots)

include tracks

theorem append (text : Bytes) : (w.append text).Tracks slots where
  __ := tracks
  slots_lt o member := by
    rw [Writer.append, length_append]
    exact Nat.lt_add_right _ (tracks.slots_lt o member)
  leftOut_lt o member := by
    rw [Writer.append, length_append]
    exact Nat.lt_add_right _ (tracks.leftOut_lt o member)

theorem enter (ht : Nat) : (w.enter ht).Tracks slots :=
  ⟨tracks.count, tracks.slots_lt, tracks.leftOut_lt, tracks.sorted, tracks.numbered,
    tracks.referenced⟩

theorem leave (ht : Nat) : (w.leave ht).Tracks slots :=
  ⟨tracks.count, tracks.slots_lt, tracks.leftOut_lt, tracks.sorted, tracks.numbered,
    tracks.referenced⟩

theorem sorted_concat : (slots ++ [w.buf.length]).Pairwise (· < ·) := by
  rw [pairwise_append]
  refine ⟨tracks.sorted, pairwise_singleton _ _, ?_⟩
  intro o member o' same
  rw [mem_singleton.mp same]
  exact tracks.slots_lt o member

theorem slots_lt_concat {text : Bytes} (some : text ≠ []) :
    ∀ o ∈ slots ++ [w.buf.length], o < (w.buf ++ text).length := by
  have longer := length_pos_of_ne_nil some
  rw [forall_mem_append, forall_mem_singleton, length_append]
  exact ⟨fun o old => Nat.lt_add_right _ (tracks.slots_lt o old), by omega⟩

theorem numbered_concat (o : Nat) {x : VarKey} {n : Long}
    (seen : w.varHash x = some n) : ∃ p k m, w.firstAt x = some p ∧ (slots ++ [o])[k]? = some p ∧
      0 < m ∧ m + w.leftOut.countP (· < p) = k + 1 ∧ n = (BitVec.ofNat 32 m).signExtend 64 := by
  obtain ⟨p, k, m, first, slot, rest⟩ := tracks.numbered x n seen
  refine ⟨p, k, m, first, ?_, rest⟩
  rw [getElem?_append_left (List.getElem?_eq_some_iff.mp slot).1]
  exact slot

/-- A variable that is met for the first time gets the slot at the end of the text. -/
theorem new {z : Addr} (new : w.varHash (varKey mem z) = none) {text : Bytes} (some : text ≠ []) :
    ((w.addVarHash mem z).1.append text).Tracks (slots ++ [w.buf.length]) := by
  rw [Writer.addVarHash_new mem new]
  refine ⟨?_, tracks.slots_lt_concat some, (tracks.append text).leftOut_lt,
    tracks.sorted_concat, ?_, ?_⟩
  · have count := tracks.count
    simp only [Writer.append, length_append, length_singleton]
    omega
  · intro x n seen
    simp only [Writer.append] at seen ⊢
    by_cases same : x = varKey mem z
    · subst same
      rw [update_self] at seen
      refine ⟨w.buf.length, slots.length, w.varCount + 1, update_self _ _ _, by simp,
        Nat.succ_pos _, ?_, (Option.some.inj seen).symm⟩
      have all : w.leftOut.countP (· < w.buf.length) = w.leftOut.length := by
        rw [countP_eq_length]
        intro o member
        exact decide_eq_true (tracks.leftOut_lt o member)
      have count := tracks.count
      omega
    · rw [update_of_ne same] at seen ⊢
      exact tracks.numbered_concat _ seen
  · intro x n member
    have old := tracks.referenced x n member
    simp only [Writer.append]
    rw [update_of_ne]
    · exact old
    · rintro rfl
      rw [new] at old
      cases old

/-- A variable that is not a reference gets a slot each time it is met. -/
theorem again {text : Bytes} (some : text ≠ []) :
    ({ w with varCount := w.varCount + 1 }.append text).Tracks (slots ++ [w.buf.length]) where
  count := by
    have count := tracks.count
    simp only [Writer.append, length_append, length_singleton]
    omega
  slots_lt := tracks.slots_lt_concat some
  leftOut_lt := (tracks.append text).leftOut_lt
  sorted := tracks.sorted_concat
  numbered x n seen := tracks.numbered_concat _ seen
  referenced := tracks.referenced

/-- An element that is left out has a slot, but the writer does not count it. -/
theorem leaveOut :
    Writer.Tracks { w.append (ascii "N;") with leftOut := w.leftOut ++ [w.buf.length] }
      (slots ++ [w.buf.length]) where
  count := by
    have count := tracks.count
    simp only [Writer.append, length_append, length_singleton]
    omega
  slots_lt := tracks.slots_lt_concat (by decide)
  leftOut_lt := forall_mem_append.mpr ⟨(tracks.append _).leftOut_lt, by simp [Writer.append, ascii]⟩
  sorted := tracks.sorted_concat
  numbered x n seen := by
    obtain ⟨o, k, m, first, slot, positive, number, value⟩ := tracks.numbered x n seen
    refine ⟨o, k, m, first, ?_, positive, ?_, value⟩
    · rwa [getElem?_append_left (List.getElem?_eq_some_iff.mp slot).1]
    -- what is left out now does not come before a variable that was met before
    have before := tracks.slots_lt o (mem_of_getElem? slot)
    rw [countP_append, countP_singleton, if_neg (by simpa using before.le)]
    exact number
  referenced := tracks.referenced

/-- A reference gets no slot. -/
theorem reference {z : Addr} {n : Long} (seen : w.varHash (varKey mem z) = some n) (tag : String) :
    (w.reference mem z tag n).Tracks slots := by
  have appended := tracks.append (ascii tag ++ printLong n ++ ascii ";")
  refine ⟨appended.count, appended.slots_lt, appended.leftOut_lt, appended.sorted,
    appended.numbered, ?_⟩
  intro x n' member
  rcases mem_append.mp member with old | new
  · exact tracks.referenced x n' old
  · cases mem_singleton.mp new
    exact seen

private theorem number_le {x : VarKey} {n : Long} (seen : w.varHash x = some n)
    (few : slots.length < 2 ^ 31) : 0 < n.toInt ∧ n.toInt ≤ slots.length := by
  obtain ⟨o, k, m, _, slot, positive, number, rfl⟩ := tracks.numbered x n seen
  have inside := (List.getElem?_eq_some_iff.mp slot).1
  have small : m < 2 ^ 31 := by omega
  rw [BitVec.toInt_signExtend_of_le (by decide), toInt_ofNat small]
  omega

end

end Writer.Tracks

/-! ### The writer's records -/

/-- The record that the writer has written, and its slots. -/
structure Documented (mem : Memory D) (w w' : Writer) (slots : List Nat) (d : Doc) : Prop where
  wrote : Wrote w w' d.text
  tracks : w'.Tracks (slots ++ d.starts w.buf.length)
  lexes : d.Lexes
  good : mem.Readable → slots.length + (d.starts 0).length < 2 ^ 31 → d.Good slots.length

/-- The same for the elements of a table. -/
structure DocumentedElements (mem : Memory D) (w w' : Writer) (slots : List Nat)
    (elements : List (Key × Doc)) : Prop where
  wrote : Wrote w w' (Doc.textOfElements elements)
  tracks : w'.Tracks (slots ++ Doc.startsOfElements w.buf.length elements)
  lexes : Doc.LexesElements elements
  good : mem.Readable → slots.length + (Doc.startsOfElements 0 elements).length < 2 ^ 31 →
    Doc.GoodElements slots.length elements

variable {slots : List Nat} {w : Writer}

private theorem scalar_doc (d : Doc) {w₁ : Writer} (counted : Wrote w w₁ [])
    (tracks : ∀ text : Bytes, text ≠ [] → (w₁.append text).Tracks (slots ++ [w.buf.length]))
    (one : ∀ o, d.starts o = [o]) (lexes : d.Lexes) (good : d.Good slots.length) :
    Documented mem w (w₁.append d.text) slots d where
  wrote := counted.trans (wrote_append w₁ d.text)
  tracks := by
    rw [one]
    exact tracks d.text d.text_ne_nil
  lexes := lexes
  good _ _ := good

variable {w' : Writer}

section writer

variable {intern : Writer → Addr → Option Writer}
  (each : ∀ {w w' : Writer} {z : Addr} {slots : List Nat}, intern w z = some w' → w.Tracks slots →
    ∃ d, Documented mem w w' slots d)
include each

/-- An element is the record of its key and the one of its value. -/
theorem element_doc {key : Key} {z : Addr} (ran : w.element mem intern (key, z) = some w')
    (tracks : w.Tracks slots) :
    ∃ d, Documented mem (w.append (keyRecord key)) w' slots d := by
  have keyed := tracks.append (keyRecord key)
  rw [Writer.element] at ran
  split at ran
  next ht value =>
    split at ran
    · -- the element is left out
      cases ran
      exact ⟨.null, ⟨rfl, rfl⟩, keyed.leaveOut, trivial, fun _ _ => trivial⟩
    obtain ⟨w₁, inner, rfl⟩ := Option.map_eq_some_iff.mp ran
    obtain ⟨d, documented⟩ := each inner (keyed.enter ht)
    exact ⟨d, enter_leave documented.wrote, documented.tracks.leave ht, documented.lexes,
      documented.good⟩
  · exact each ran keyed

private theorem elements_doc {entries : List (Key × Addr)}
    (ran : entries.foldlM (Writer.element mem intern) w = some w') (tracks : w.Tracks slots) :
    ∃ elements, elements.length = entries.length ∧ DocumentedElements mem w w' slots elements := by
  induction entries generalizing w slots with
  | nil =>
    cases ran
    exact ⟨[], rfl, ⟨(append_nil _).symm, rfl⟩, by simpa [Doc.startsOfElements] using tracks,
      trivial, fun _ _ => trivial⟩
  | cons entry entries ih =>
    rw [foldlM_cons, Option.bind_eq_bind, Option.bind_eq_some_iff] at ran
    obtain ⟨w₁, first, later⟩ := ran
    obtain ⟨d, documented⟩ := element_doc each first tracks
    obtain ⟨elements, length, rest⟩ := ih later documented.tracks
    have keyed : Wrote w (w.append (keyRecord entry.1)) (keyRecord entry.1) := wrote_append w _
    have wrote := keyed.trans documented.wrote
    have offset : (w.append (keyRecord entry.1)).buf.length = w.buf.length +
      (keyRecord entry.1).length := length_append
    have offset' : w₁.buf.length = w.buf.length + (keyRecord entry.1).length + d.text.length := by
      rw [wrote.buf, length_append, length_append, Nat.add_assoc]
    refine ⟨(entry.1, d) :: elements, by rw [length_cons, length_cons, length], ?_, ?_, ?_, ?_⟩
    · rw [Doc.textOfElements, ← append_assoc]
      exact wrote.trans rest.wrote
    · have tracked := rest.tracks
      rw [offset, offset', append_assoc] at tracked
      exact tracked
    · exact ⟨documented.lexes, rest.lexes⟩
    intro readable few
    rw [Doc.startsOfElements, length_append, Doc.length_starts d _ 0] at few
    have same := Doc.length_starts d (w.append (keyRecord entry.1)).buf.length 0
    refine ⟨documented.good readable (by omega), ?_⟩
    have good := rest.good readable (by
      rw [length_append, Doc.length_startsOfElements _ 0
        (0 + (keyRecord entry.1).length + d.text.length)]
      omega)
    rw [length_append, same] at good
    exact good

private theorem nested_doc {head : Head} {w₁ : Writer} {myht : Table}
    (ran : w₁.nested mem intern myht = some w') (opened : Wrote w w₁ head.text)
    (tracks : w₁.Tracks (slots ++ [w.buf.length]))
    (readable : mem.Readable → head.Valid ∧ myht.size < 2 ^ 31) :
    ∃ d, Documented mem w w' slots d := by
  obtain ⟨w₃, looped, rfl⟩ := Option.map_eq_some_iff.mp ran
  have counted := wrote_append w₁ (printInt (numElements myht) ++ ascii ":\x7b")
  have tracks₂ := tracks.append (printInt (numElements myht) ++ ascii ":\x7b")
  -- the loop runs, or nothing is written
  obtain ⟨elements, length, documented⟩ : ∃ elements, (mem.Readable →
      (numElements myht).toInt = elements.length) ∧ DocumentedElements mem
        (w₁.append (printInt (numElements myht) ++ ascii ":\x7b")) w₃ (slots ++ [w.buf.length])
          elements := by
    split at looped
    · obtain ⟨elements, length, documented⟩ := elements_doc each looped tracks₂
      refine ⟨elements, fun fine => ?_, documented⟩
      rw [numElements, toInt_ofNat (readable fine).2, length]
      rfl
    next none =>
    cases looped
    refine ⟨[], fun fine => ?_, ⟨(append_nil _).symm, rfl⟩, ?_, trivial, fun _ _ => trivial⟩
    · rw [numElements, toInt_ofNat (readable fine).2] at none ⊢
      simp only [length_nil]
      omega
    · simpa [Doc.startsOfElements] using tracks₂
  have header := opened.trans counted
  have offset : (w₁.append (printInt (numElements myht) ++ ascii ":\x7b")).buf.length =
      w.buf.length + (Doc.opening head (numElements myht)).length := by
    rw [header.buf, length_append]
    rfl
  refine ⟨.nested head (numElements myht) elements, ?_, ?_, documented.lexes, ?_⟩
  · exact header.trans (documented.wrote.trans (wrote_append w₃ _))
  · have tracked := documented.tracks.append (ascii "\x7d")
    rw [offset, append_assoc] at tracked
    exact tracked
  intro fine few
  rw [Doc.starts, length_cons] at few
  refine ⟨(readable fine).1, length fine, ?_⟩
  have good := documented.good fine (by
    rw [length_append, length_singleton, Doc.length_startsOfElements _ 0
      (0 + (Doc.opening head (numElements myht)).length)]
    omega)
  rw [length_append] at good
  exact good

private theorem serializeValue_doc (doubles : ∀ d, isDoubleText (gcvt d) = true) {w₁ : Writer}
    {value : Value D} (counted : Wrote w w₁ [])
    (tracks : ∀ text : Bytes, text ≠ [] → (w₁.append text).Tracks (slots ++ [w.buf.length]))
    (ran : w₁.serializeValue gcvt mem intern value = some w') :
    ∃ d, Documented mem w w' slots d := by
  cases value with
  | null =>
    cases ran
    exact ⟨_, scalar_doc .null counted tracks (fun _ => rfl) trivial trivial⟩
  | bool b =>
    cases ran
    exact ⟨_, scalar_doc (.bool b) counted tracks (fun _ => rfl) trivial trivial⟩
  | long v =>
    cases ran
    exact ⟨_, scalar_doc (.long v) counted tracks (fun _ => rfl) trivial trivial⟩
  | double d =>
    cases ran
    exact ⟨_, scalar_doc (.double (gcvt d)) counted tracks (fun _ => rfl) (doubles d) trivial⟩
  | string s =>
    cases ran
    exact ⟨_, scalar_doc (.string s) counted tracks (fun _ => rfl) trivial trivial⟩
  | array ht =>
    have opened : Wrote w (w₁.append (ascii "a:")) (Head.text .array) :=
      counted.trans (wrote_append w₁ _)
    exact nested_doc each ran opened (tracks _ (by decide)) fun readable =>
      ⟨trivial, readable.tables ht⟩
  | object handle =>
    have opened : Wrote w (w₁.append (className (mem.objects handle).className))
        (Head.text (.object (mem.objects handle).className)) := counted.trans (wrote_append w₁ _)
    exact nested_doc each ran opened (tracks _ (by simp [className, ascii])) fun readable =>
      ⟨readable.names handle, readable.properties handle⟩

end writer

/-- What `jonj_var_serialize_intern` writes is a record, and the counters stay related. -/
theorem serializeIntern_doc (doubles : ∀ d, isDoubleText (gcvt d) = true) {depth : Nat} {z : Addr}
    (ran : Writer.serializeIntern gcvt mem depth w z = some w') (tracks : w.Tracks slots) :
    ∃ d, Documented mem w w' slots d := by
  induction depth generalizing w w' z slots with
  | zero => cases ran
  | succ depth ih =>
    have added : Wrote w (w.addVarHash mem z).1 [] := wrote_addVarHash w z
    rw [Writer.serializeIntern] at ran
    cases seen : w.varHash (varKey mem z) with
    | none =>
      have new : (w.addVarHash mem z).2 = none := by rw [Writer.addVarHash_new mem seen]
      simp only [new] at ran
      exact serializeValue_doc ih doubles added (fun text some => tracks.new seen some) ran
    | some n =>
      have old : (w.addVarHash mem z).2 = some n := by rw [Writer.addVarHash_seen mem seen]
      simp only [old] at ran
      cases isRef : (mem.zvals z).isRef with
      | true =>
        -- an `R:` record is neither counted nor given a slot
        have same : (w.addVarHash mem z).1 = w := by
          rw [Writer.addVarHash_seen mem seen]
          exact if_pos isRef
        rw [if_pos isRef, same] at ran
        cases ran
        refine ⟨.ref n, ⟨rfl, rfl⟩, ?_, trivial, ?_⟩
        · rw [Doc.starts, append_nil]
          exact tracks.reference seen "R:"
        · intro _ few
          exact tracks.number_le seen (by omega)
      | false =>
        have again : (w.addVarHash mem z).1 = { w with varCount := w.varCount + 1 } := by
          rw [Writer.addVarHash_seen mem seen]
          exact if_neg (by rw [isRef]; simp)
        have tracks' : ∀ text : Bytes, text ≠ [] →
            ((w.addVarHash mem z).1.append text).Tracks (slots ++ [w.buf.length]) := by
          intro text some
          rw [again]
          exact tracks.again some
        rw [if_neg (by rw [isRef]; simp)] at ran
        split at ran
        next handle value =>
          cases ran
          refine ⟨.objectRef n, ?_, ?_, trivial, ?_⟩
          · exact added.trans ⟨rfl, rfl⟩
          · have appended := tracks' (ascii "r:" ++ printLong n ++ ascii ";") (by simp [ascii])
            refine ⟨appended.count, appended.slots_lt, appended.leftOut_lt, appended.sorted,
              appended.numbered, ?_⟩
            intro x n' member
            rcases mem_append.mp member with before | new
            · exact appended.referenced x n' before
            · cases mem_singleton.mp new
              rw [again]
              exact seen
          · intro _ few
            exact tracks.number_le seen (by omega)
        · exact serializeValue_doc ih doubles added tracks' ran

end Jonj.Serialize
