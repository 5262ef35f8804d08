import Jonj.Serialize.Scan
import Jonj.SmartStr

/-!
# Values survive serialization

A value without references, objects and doubles is a tree. The writer writes its text
whatever is shared in memory, and the reader builds the same tree from the text.
-/
namespace Jonj.Serialize

open List Function Reader Writer

/-- A value as the language sees it; the elements of an array are in order. -/
inductive PhpValue where
  | null
  | bool (b : Bool)
  | long (v : Long)
  | string (s : Str)
  | array (elements : List (Key × PhpValue))

namespace PhpValue

theorem induct {P : PhpValue → Prop} (null : P .null) (bool : ∀ b, P (.bool b))
    (long : ∀ v, P (.long v)) (string : ∀ s, P (.string s))
    (array : ∀ elements, (∀ e ∈ elements, P e.2) → P (.array elements)) (v : PhpValue) : P v := by
  refine @PhpValue.rec P (fun es => ∀ e ∈ es, P e.2) (fun e => P e.2)
    null bool long string array ?_ ?_ ?_ v
  · simp
  · exact fun head tail first rest => forall_mem_cons.mpr ⟨first, rest⟩
  · exact fun _ _ value => value

mutual

@[simp] def text : PhpValue → Bytes
  | .null => ascii "N;"
  | .bool b => ascii "b:" ++ printLong (if b then 1 else 0) ++ ascii ";"
  | .long v => longRecord v
  | .string s => stringRecord s
  | .array elements =>
    ascii "a:" ++ (printInt (BitVec.ofNat 32 elements.length) ++ ascii ":\x7b") ++
      (textOfElements elements ++ ascii "\x7d")

@[simp] def textOfElements : List (Key × PhpValue) → Bytes
  | [] => []
  | (key, value) :: rest => keyRecord key ++ (value.text ++ textOfElements rest)

end

mutual

@[simp] def height : PhpValue → Nat
  | .array elements => heightOfElements elements + 1
  | _ => 0

@[simp] def heightOfElements : List (Key × PhpValue) → Nat
  | [] => 0
  | (_, value) :: rest => max value.height (heightOfElements rest)

end

mutual

/-- No array has more elements than an `int` can count. -/
@[simp] def Small : PhpValue → Prop
  | .array elements => elements.length < 2 ^ 31 ∧ SmallElements elements
  | _ => True

@[simp] def SmallElements : List (Key × PhpValue) → Prop
  | [] => True
  | (_, value) :: rest => value.Small ∧ SmallElements rest

end

mutual

/-- An array has each key once, and a string key is not the numeral of an index. -/
@[simp] def Normal : PhpValue → Prop
  | .array elements => (elements.map Prod.fst).Nodup ∧ NormalElements elements
  | _ => True

@[simp] def NormalElements : List (Key × PhpValue) → Prop
  | [] => True
  | (key, value) :: rest =>
    (∀ name, key = .string name → handleNumeric name.bytes = none) ∧ value.Normal ∧
      NormalElements rest

end

end PhpValue

variable {D : Type}

mutual

/-- The value of the zval. The zvals and tables it is made of are in the two sets. -/
@[simp] def Represents (mem : Memory D) (zs : Set Addr) (ts : Set Nat) (z : Addr) : PhpValue → Prop
  | .null => z ∈ zs ∧ mem.zvals z = ⟨false, .null⟩
  | .bool b => z ∈ zs ∧ mem.zvals z = ⟨false, .bool b⟩
  | .long v => z ∈ zs ∧ mem.zvals z = ⟨false, .long v⟩
  | .string s => z ∈ zs ∧ mem.zvals z = ⟨false, .string s⟩
  | .array elements =>
    ∃ ht ∈ ts, z ∈ zs ∧ mem.zvals z = ⟨false, .array ht⟩ ∧
      RepresentsElements mem zs ts (mem.tables ht).entries elements

@[simp] def RepresentsElements (mem : Memory D) (zs : Set Addr) (ts : Set Nat) :
    List (Key × Addr) → List (Key × PhpValue) → Prop
  | [], [] => True
  | (key, z) :: entries, (key', value) :: elements =>
    key = key' ∧ Represents mem zs ts z value ∧ RepresentsElements mem zs ts entries elements
  | _, _ => False

end

/-! ### Representations -/

variable {elements elements' : List (Key × PhpValue)} {entries : List (Key × Addr)} {v : PhpValue}
    {e : Key × PhpValue} {z : Addr}

section represents

variable {mem mem' : Memory D} {zs zs' : Set Addr} {ts ts' : Set Nat}

theorem representsElements_iff : RepresentsElements mem zs ts entries elements ↔
    Forall₂ (fun entry e => entry.1 = e.1 ∧ Represents mem zs ts entry.2 e.2) entries elements := by
  induction entries generalizing elements with
  | nil => cases elements <;> simp
  | cons entry entries ih => cases elements <;> simp [ih, and_assoc]

theorem RepresentsElements.imp
    (each : ∀ e ∈ elements, ∀ z, Represents mem zs ts z e.2 → Represents mem' zs' ts' z e.2)
    (stored : RepresentsElements mem zs ts entries elements) :
    RepresentsElements mem' zs' ts' entries elements := by
  rw [representsElements_iff] at stored ⊢
  induction stored with
  | nil => exact .nil
  | cons first _ ih =>
    obtain ⟨here, later⟩ := forall_mem_cons.mp each
    exact .cons ⟨first.1, here _ first.2⟩ (ih later)

/-- A value depends only on the zvals and tables that it is made of. -/
theorem Represents.frame (stored : Represents mem zs ts z v)
    (more : zs ⊆ zs') (moreTables : ts ⊆ ts') (same : ∀ z ∈ zs, mem'.zvals z = mem.zvals z)
    (sameTables : ∀ ht ∈ ts, mem'.tables ht = mem.tables ht) : Represents mem' zs' ts' z v := by
  induction v using PhpValue.induct generalizing z with
  | null | bool | long | string =>
    exact ⟨more stored.1, (same z stored.1).trans stored.2⟩
  | array elements ih =>
    obtain ⟨ht, inside, member, value, nested⟩ := stored
    refine ⟨ht, moreTables inside, more member, (same z member).trans value, ?_⟩
    rw [sameTables ht inside]
    exact nested.imp ih

theorem RepresentsElements.frame (stored : RepresentsElements mem zs ts entries elements)
    (more : zs ⊆ zs') (moreTables : ts ⊆ ts') (same : ∀ z ∈ zs, mem'.zvals z = mem.zvals z)
    (sameTables : ∀ ht ∈ ts, mem'.tables ht = mem.tables ht) :
    RepresentsElements mem' zs' ts' entries elements :=
  stored.imp fun _ _ _ value => value.frame more moreTables same sameTables

theorem RepresentsElements.unique_of (each : ∀ e ∈ elements, ∀ z v', Represents mem zs ts z e.2 →
      Represents mem zs' ts' z v' →
      e.2 = v') (first : RepresentsElements mem zs ts entries elements)
    (second : RepresentsElements mem zs' ts' entries elements') : elements = elements' := by
  rw [representsElements_iff] at first second
  induction first generalizing elements' with
  | nil => exact (forall₂_nil_left_iff.mp second).symm
  | cons one _ ih =>
    obtain ⟨here, later⟩ := forall_mem_cons.mp each
    obtain ⟨e', rest, two, others, rfl⟩ := forall₂_cons_left_iff.mp second
    rw [ih later others, Prod.ext (one.1.symm.trans two.1) (here _ _ one.2 two.2)]

theorem Represents.unique {v' : PhpValue} (first : Represents mem zs ts z v)
    (second : Represents mem zs' ts' z v') : v = v' := by
  induction v using PhpValue.induct generalizing z v' with
  | null | bool | long | string => cases v' <;> simp_all [Represents]
  | array elements ih =>
    cases v' with
    | array elements' =>
      obtain ⟨ht, _, _, value, nested⟩ := first
      obtain ⟨ht', _, _, value', nested'⟩ := second
      cases value.symm.trans value'
      exact congrArg PhpValue.array (nested.unique_of (fun e member _ _ => ih e member) nested')
    | _ => simp_all [Represents]

theorem RepresentsElements.unique (first : RepresentsElements mem zs ts entries elements)
    (second : RepresentsElements mem zs' ts' entries elements') : elements = elements' :=
  first.unique_of (fun _ _ _ _ => Represents.unique) second

theorem RepresentsElements.append {entries' : List (Key × Addr)}
    (first : RepresentsElements mem zs ts entries elements)
    (second : RepresentsElements mem zs ts entries' elements') :
    RepresentsElements mem zs ts (entries ++ entries') (elements ++ elements') := by
  rw [representsElements_iff] at first second ⊢
  exact rel_append first second

theorem RepresentsElements.keys_eq (stored : RepresentsElements mem zs ts entries elements) :
    entries.map Prod.fst = elements.map Prod.fst := by
  rw [representsElements_iff] at stored
  induction stored with
  | nil => rfl
  | cons first _ ih => rw [map_cons, map_cons, ih, first.1]

theorem RepresentsElements.length_eq (stored : RepresentsElements mem zs ts entries elements) :
    entries.length = elements.length := by
  rw [← length_map Prod.fst, stored.keys_eq, length_map]

theorem height_le_of_mem (member : e ∈ elements) :
    e.2.height ≤ PhpValue.heightOfElements elements := by
  induction elements with
  | nil => cases member
  | cons head tail ih =>
    rcases mem_cons.mp member with rfl | later
    · exact le_max_left _ _
    · exact (ih later).trans (le_max_right _ _)

theorem small_of_mem (small : PhpValue.SmallElements elements) : ∀ e ∈ elements, e.2.Small := by
  induction elements with
  | nil => simp
  | cons head tail ih => exact forall_mem_cons.mpr ⟨small.1, ih small.2⟩

private theorem normal_of_mem (normal : PhpValue.NormalElements elements) :
    ∀ e ∈ elements, e.2.Normal := by
  induction elements with
  | nil => simp
  | cons head tail ih => exact forall_mem_cons.mpr ⟨normal.2.1, ih normal.2.2⟩

end represents

/-! ### The writer -/

variable {intern : Writer → Addr → Option Writer} {w : Writer} {height ht depth : Nat}

section writer

variable {gcvt : D → Bytes} {mem : Memory D} {zs : Set Addr} {ts : Set Nat}

/-- The tables that are being written hold values at least as high as the number. -/
def Writer.Above (mem : Memory D) (w : Writer) (height : Nat) : Prop :=
  ∀ ht elements, w.nApplyCount ht ≠ 0 →
    RepresentsElements mem Set.univ Set.univ (mem.tables ht).entries elements →
    height ≤ PhpValue.heightOfElements elements

theorem serializeIntern_plain {value : Value D} (zval : mem.zvals z = ⟨false, value⟩)
    (plain : ∀ handle, value ≠ .object handle) :
    serializeIntern gcvt mem (depth + 1) w z =
      (w.addVarHash mem z).1.serializeValue gcvt mem (serializeIntern gcvt mem depth) value := by
  rw [serializeIntern, zval]
  cases (w.addVarHash mem z).2 with
  | none => rfl
  | some varNo =>
    cases value with
    | object handle => exact absurd rfl (plain handle)
    | _ => rfl

/-- What writing a value does to the state. -/
structure Wrote (w w' : Writer) (text : Bytes) : Prop where
  buf : w'.buf = w.buf ++ text
  nApplyCount : w'.nApplyCount = w.nApplyCount

theorem wrote_append (w : Writer) (text : Bytes) : Wrote w (w.append text) text := ⟨rfl, rfl⟩

theorem wrote_addVarHash (w : Writer) (z : Addr) : Wrote w (w.addVarHash mem z).1 [] :=
  ⟨by rw [addVarHash_buf, append_nil], addVarHash_nApplyCount mem w z⟩

theorem Wrote.trans {w' w'' : Writer} {first second : Bytes} (one : Wrote w w' first)
    (two : Wrote w' w'' second) : Wrote w w'' (first ++ second) :=
  ⟨by rw [two.buf, one.buf, append_assoc], two.nApplyCount.trans one.nApplyCount⟩

theorem Writer.Above.of_wrote {w' : Writer} {text : Bytes}
    (above : w.Above mem height) (wrote : Wrote w w' text) : w'.Above mem height := by
  rw [Writer.Above, wrote.nApplyCount]
  exact above

theorem Writer.Above.lower {lower : Nat} (above : w.Above mem height) (le : lower ≤ height) :
    w.Above mem lower :=
  fun ht elements busy stored => le.trans (above ht elements busy stored)

theorem RepresentsElements.everywhere (stored : RepresentsElements mem zs ts entries elements) :
    RepresentsElements mem Set.univ Set.univ entries elements :=
  stored.frame (Set.subset_univ _) (Set.subset_univ _) (fun _ _ => rfl) fun _ _ => rfl

theorem Writer.Above.enter (above : w.Above mem height)
    (lower : PhpValue.heightOfElements elements ≤ height)
    (stored : RepresentsElements mem zs ts (mem.tables ht).entries elements) :
    (w.enter ht).Above mem (PhpValue.heightOfElements elements) := by
  intro ht' elements' busy stored'
  by_cases same : ht' = ht
  · rw [same] at stored'
    rw [stored.everywhere.unique stored']
  · rw [Writer.enter] at busy
    simp only [update_of_ne same] at busy
    exact lower.trans (above ht' elements' busy stored')

/-- An array is not inside itself, so no element is left out. -/
theorem Writer.Above.free (above : w.Above mem height)
    (lower : PhpValue.heightOfElements elements < height)
    (stored : RepresentsElements mem zs ts (mem.tables ht).entries elements) :
    w.nApplyCount ht = 0 := by
  by_contra busy
  have higher := above ht elements busy stored.everywhere
  omega

theorem enter_leave {w' : Writer} {text : Bytes} (wrote : Wrote (w.enter ht) w' text) :
    Wrote w (w'.leave ht) text := by
  refine ⟨wrote.buf, ?_⟩
  funext other
  rw [leave, wrote.nApplyCount, enter]
  by_cases same : other = ht <;> simp [same]

private theorem element_text (key : Key) (stored : Represents mem zs ts z v)
    (above : w.Above mem height)
    (lower : v.height ≤ height)
    (written : ∀ w : Writer, w.Above mem (v.height - 1) → ∃ w', intern w z = some w' ∧
      Wrote w w' v.text) :
    ∃ w', w.element mem intern (key, z) = some w' ∧ Wrote w w' (keyRecord key ++ v.text) := by
  have keyed : Wrote w (w.append (keyRecord key)) (keyRecord key) := wrote_append w _
  have above' := above.of_wrote keyed
  have direct : (∀ ht, (mem.zvals z).value ≠ .array ht) →
      ∃ w', w.element mem intern (key, z) = some w' ∧ Wrote w w' (keyRecord key ++ v.text) := by
    intro plain
    obtain ⟨w', ran, wrote⟩ := written _ (above'.lower (by omega))
    refine ⟨w', ?_, keyed.trans wrote⟩
    rw [element]
    split
    next ht array => exact absurd array (plain ht)
    next => exact ran
  cases v with
  | array elements =>
    obtain ⟨ht, _, _, value, nested⟩ := stored
    rw [PhpValue.height] at lower written
    have free := above'.free (by omega) nested
    obtain ⟨w', ran, wrote⟩ := written _ (above'.enter (by omega) nested)
    refine ⟨w'.leave ht, ?_, keyed.trans (enter_leave wrote)⟩
    simp only [element, value]
    rw [if_neg (by omega), ran]
    rfl
  | _ =>
    apply direct
    rw [stored.2]
    simp

theorem elements_text (lower : ∀ e ∈ elements, e.2.height ≤ height)
    (written : ∀ e ∈ elements, ∀ (w : Writer) (z : Addr), Represents mem zs ts z e.2 →
      w.Above mem (e.2.height - 1) → ∃ w', intern w z = some w' ∧ Wrote w w' e.2.text)
    (stored : RepresentsElements mem zs ts entries elements) (above : w.Above mem height) :
    ∃ w', entries.foldlM (element mem intern) w = some w' ∧
      Wrote w w' (PhpValue.textOfElements elements) := by
  rw [representsElements_iff] at stored
  induction stored generalizing w with
  | nil => exact ⟨w, rfl, by simp, rfl⟩
  | cons one _ ih =>
    obtain ⟨key, value⟩ := one
    rw [forall_mem_cons] at lower written
    obtain ⟨w₁, first, wrote⟩ := element_text _ value above lower.1 fun w => written.1 w _ value
    obtain ⟨w₂, later, wrote'⟩ := ih lower.2 written.2 (above.of_wrote wrote)
    refine ⟨w₂, ?_, ?_⟩
    · rw [foldlM_cons, first]
      exact later
    · rw [PhpValue.textOfElements, ← key, ← append_assoc]
      exact wrote.trans wrote'

private theorem nested_text {myht : Table} (small : elements.length < 2 ^ 31)
    (size : myht.size = elements.length)
    (looped : ∃ w', myht.entries.foldlM (element mem intern)
      (w.append (printInt (numElements myht) ++ ascii ":\x7b")) = some w' ∧
      Wrote (w.append (printInt (numElements myht) ++ ascii ":\x7b")) w'
        (PhpValue.textOfElements elements)) :
    ∃ w', w.nested mem intern myht = some w' ∧
      Wrote w w' (printInt (BitVec.ofNat 32 elements.length) ++ ascii ":\x7b" ++
        (PhpValue.textOfElements elements ++ ascii "\x7d")) := by
  obtain ⟨w', ran, wrote⟩ := looped
  have count : numElements myht = BitVec.ofNat 32 elements.length := by rw [numElements, size]
  refine ⟨w'.append (ascii "\x7d"), ?_, ?_⟩
  · have all : (if (numElements myht).toInt > 0 then
        myht.entries.foldlM (element mem intern)
          (w.append (printInt (numElements myht) ++ ascii ":\x7b"))
        else some (w.append (printInt (numElements myht) ++ ascii ":\x7b"))) = some w' := by
      split
      · exact ran
      next none =>
      -- an empty table: the loop does nothing
      rw [count, toInt_ofNat small] at none
      have empty : myht.entries = [] := by
        apply eq_nil_of_length_eq_zero
        rw [OrderedMap.size] at size
        omega
      rw [empty] at ran
      exact ran
    simp only [nested]
    rw [all]
    rfl
  · rw [← count]
    exact (wrote_append w _).trans (wrote.trans (wrote_append w' _))

/-- The writer writes the text of a value, whatever it has met before. -/
theorem serializeIntern_text (small : v.Small) (stored : Represents mem zs ts z v)
    (above : w.Above mem (v.height - 1)) (deep : v.height < depth) :
    ∃ w', serializeIntern gcvt mem depth w z = some w' ∧ Wrote w w' v.text := by
  induction v using PhpValue.induct generalizing z w depth with
  | null | bool | long | string =>
    obtain ⟨depth, rfl⟩ := Nat.exists_eq_add_of_lt deep
    rw [serializeIntern_plain stored.2 (by simp)]
    exact ⟨_, rfl, (wrote_addVarHash w z).trans (wrote_append _ _)⟩
  | array elements ih =>
    obtain ⟨depth, rfl⟩ := Nat.exists_eq_succ_of_ne_zero (show depth ≠ 0 by omega)
    obtain ⟨ht, _, _, value, nested⟩ := stored
    rw [PhpValue.height] at above deep
    have opened : Wrote w ((w.addVarHash mem z).1.append (ascii "a:")) (ascii "a:") :=
      (wrote_addVarHash w z).trans (wrote_append _ _)
    have counted : Wrote _ _ (printInt (numElements (mem.tables ht)) ++ ascii ":\x7b") :=
      wrote_append ((w.addVarHash mem z).1.append (ascii "a:")) _
    have each : ∀ e ∈ elements, ∀ (w : Writer) (z : Addr), Represents mem zs ts z e.2 →
        w.Above mem (e.2.height - 1) →
        ∃ w', serializeIntern gcvt mem depth w z = some w' ∧ Wrote w w' e.2.text := by
      intro e member w z value above
      have lower := height_le_of_mem member
      exact ih e member (small_of_mem small.2 e member) value above (by omega)
    have above' := (above.of_wrote opened).of_wrote counted
    obtain ⟨w', ran, wrote⟩ := nested_text small.1 nested.length_eq
      (elements_text (fun e member => height_le_of_mem member) each nested above')
    refine ⟨w', ?_, ?_⟩
    · rw [serializeIntern_plain value (by simp)]
      exact ran
    · exact opened.trans wrote

end writer

/-! ### The reader -/

variable {r : Reader D} {rest : Bytes}

section reader

variable {env : Env D}

theorem text_ends (v : PhpValue) : ∃ front, v.text = front ++ [59] ∨ v.text = front ++ [125] := by
  cases v with
  | null => exact ⟨[78], .inl rfl⟩
  | bool b => exact ⟨_, .inl rfl⟩
  | long v => exact ⟨_, .inl rfl⟩
  | string s =>
    rw [PhpValue.text, stringRecord]
    refine ⟨ascii "s:" ++ printInt (BitVec.ofNat 32 s.bytes.length) ++ ascii ":\"" ++
      s.bytes ++ [34],
      .inl ?_⟩
    simp [ascii]
  | array elements =>
    refine ⟨ascii "a:" ++ (printInt (BitVec.ofNat 32 elements.length) ++ ascii ":\x7b") ++
      PhpValue.textOfElements elements, .inr ?_⟩
    simp [ascii]

/-- What reading into a zval leaves as it was. -/
structure Reader.Grown (r r' : Reader D) (rval : Addr) : Prop where
  nextZval : r.nextZval ≤ r'.nextZval
  nextTable : r.nextTable ≤ r'.nextTable
  zvals : ∀ z < r.nextZval, z ≠ rval → r'.mem.zvals z = r.mem.zvals z
  tables : ∀ ht < r.nextTable, r'.mem.tables ht = r.mem.tables ht

/-- The reader has read the value from the front of its input. -/
structure Reader.Read (r r' : Reader D) (rval : Addr) (v : PhpValue) (rest : Bytes) : Prop where
  input : r'.input = rest
  grown : r.Grown r' rval
  value : Represents r'.mem (insert rval (Set.Ico r.nextZval r'.nextZval))
    (Set.Ico r.nextTable r'.nextTable) rval v

section

variable (r : Reader D) (rval : Addr) (hash : Bool)

@[simp] theorem push_mem : (r.push rval hash).mem = r.mem := by
  rw [push]
  split <;> rfl

@[simp] theorem push_nextZval : (r.push rval hash).nextZval = r.nextZval := by
  rw [push]
  split <;> rfl

@[simp] theorem push_nextTable : (r.push rval hash).nextTable = r.nextTable := by
  rw [push]
  split <;> rfl

private theorem grown_setValue (value : Value D) (rest : Bytes) :
    r.Grown { (r.push rval hash).setValue rval value with input := rest } rval where
  nextZval := by simp [setValue]
  nextTable := by simp [setValue]
  zvals z _ other := by simp [setValue, update_of_ne other]
  tables ht _ := by simp [setValue]

end

/-- The reader has read elements into a table. -/
structure Reader.Filled (r r' : Reader D) (ht : Nat) (added : List (Key × Addr))
    (elements : List (Key × PhpValue)) (rest : Bytes) : Prop where
  input : r'.input = rest
  nextZval : r.nextZval ≤ r'.nextZval
  nextTable : r.nextTable ≤ r'.nextTable
  zvals : ∀ z < r.nextZval, r'.mem.zvals z = r.mem.zvals z
  tables : ∀ other < r.nextTable, other ≠ ht → r'.mem.tables other = r.mem.tables other
  entries : (r'.mem.tables ht).entries = (r.mem.tables ht).entries ++ added
  stored : RepresentsElements r'.mem (Set.Ico r.nextZval r'.nextZval)
    (Set.Ico r.nextTable r'.nextTable) added elements

private theorem last_byte (text rest : Bytes) (c : UInt8) :
    (text ++ [c] ++ rest)[(text ++ [c] ++ rest).length - rest.length - 1]? = some c := by
  have index : (text ++ [c] ++ rest).length - rest.length - 1 = text.length := by
    simp only [length_append, length_singleton]
    omega
  rw [index]
  simp

/-- The last byte that was read ends a record, so the loop goes on. -/
theorem last_read {text : Bytes} (ends : ∃ front, text = front ++ [59] ∨ text = front ++ [125])
    (rest : Bytes) :
    (text ++ rest)[(text ++ rest).length - rest.length - 1]? = some 59 ∨
      (text ++ rest)[(text ++ rest).length - rest.length - 1]? = some 125 := by
  obtain ⟨front, rfl | rfl⟩ := ends
  · exact .inl (last_byte front rest 59)
  · exact .inr (last_byte front rest 125)

private theorem tableKey_array {key : Key}
    (normal : ∀ name, key = .string name → handleNumeric name.bytes = none) :
    tableKey (.array ht) (key.value : Value D) = some key := by
  cases key with
  | long index => rfl
  | string name => simp [tableKey, Key.value, symtableKey, normal name rfl]

private theorem afterKey_zvals {key : Key} (old : z < r.nextZval) :
    (r.afterKey key rest).1.mem.zvals z = r.mem.zvals z := by
  have first : z ≠ r.nextZval := old.ne
  have second : z ≠ r.nextZval + 1 := (Nat.lt_succ_of_lt old).ne
  simp [afterKey, allocZval, setValue, first, second]

theorem Reader.Filled.of_read {r₁ r₂ : Reader D} {key : Key} {data : Addr}
    (read : r₁.Read r₂ data v rest) (inside : ht < r.nextTable)
    (absent : key ∉ (r.mem.tables ht).keys) (low : r.nextZval ≤ data) (high : data < r₁.nextZval)
    (sameTable : r₁.nextTable = r.nextTable) (sameTables : r₁.mem.tables = r.mem.tables)
    (sameZvals : ∀ z < r.nextZval, r₁.mem.zvals z = r.mem.zvals z) :
    r.Filled (r₂.update (.array ht) key data) ht [(key, data)] [(key, v)] rest := by
  have moreZvals := read.grown.nextZval
  have moreTables : r.nextTable ≤ r₂.nextTable := sameTable ▸ read.grown.nextTable
  have oldTables : ∀ other < r.nextTable, r₂.mem.tables other = r.mem.tables other := by
    intro other old
    rw [read.grown.tables other (sameTable ▸ old), sameTables]
  refine ⟨read.input, (low.trans high.le).trans moreZvals, moreTables, ?_, ?_, ?_, rfl, ?_, trivial⟩
  · intro z old
    have before : z < data := old.trans_le low
    have same := read.grown.zvals z (before.trans high) before.ne
    exact same.trans (sameZvals z old)
  · intro other old differs
    simp [update, differs, oldTables other old]
  · rw [update]
    simp only [update_self]
    rw [OrderedMap.put_absent (by rwa [oldTables ht inside]), oldTables ht inside]
  · -- the footprint of the value is new, so the table it is stored in is not part of it
    apply read.value.frame
    · rintro z (rfl | ⟨new, found⟩)
      · exact ⟨low, high.trans_le moreZvals⟩
      · exact ⟨(low.trans high.le).trans new, found⟩
    · rw [sameTable]
      exact subset_rfl
    · exact fun _ _ => rfl
    · intro other member
      have differs : other ≠ ht := by
        rintro rfl
        exact (sameTable ▸ member.1).not_gt inside
      simp [update, differs]

theorem Reader.Filled.trans {r₁ r₂ : Reader D} {added added' : List (Key × Addr)} {rest' : Bytes}
    (inside : ht < r.nextTable) (first : r.Filled r₁ ht added elements rest)
    (second : r₁.Filled r₂ ht added' elements' rest') :
    r.Filled r₂ ht (added ++ added') (elements ++ elements') rest' where
  input := second.input
  nextZval := first.nextZval.trans second.nextZval
  nextTable := first.nextTable.trans second.nextTable
  zvals z old := (second.zvals z (old.trans_le first.nextZval)).trans (first.zvals z old)
  tables other old differs := (second.tables other (old.trans_le first.nextTable) differs).trans
    (first.tables other old differs)
  entries := by rw [second.entries, first.entries, append_assoc]
  stored := by
    apply RepresentsElements.append
    · apply first.stored.frame
      · exact Set.Ico_subset_Ico_right second.nextZval
      · exact Set.Ico_subset_Ico_right second.nextTable
      · exact fun z member => second.zvals z member.2
      · intro other member
        apply second.tables other member.2
        rintro rfl
        exact member.1.not_gt inside
    · apply second.stored.frame _ _ (fun _ _ => rfl) fun _ _ => rfl
      · exact Set.Ico_subset_Ico_left first.nextZval
      · exact Set.Ico_subset_Ico_left first.nextTable

theorem Reader.filled_nil (input : r.input = rest) : r.Filled r ht [] [] rest :=
  ⟨input, le_rfl, le_rfl, fun _ _ => rfl, fun _ _ _ => rfl, (append_nil _).symm, trivial⟩

/-- The reader reads the value from its text, whatever follows. -/
def Reader.Reads (env : Env D) (depth : Nat) (v : PhpValue) : Prop :=
  ∀ (r : Reader D) (rval : Addr) (rest : Bytes), r.input = v.text ++ rest → rval < r.nextZval →
    ∃ r', Reader.unserialize env depth r rval true = (r', some rval) ∧ r.Read r' rval v rest

private theorem processNestedData_text (each : ∀ e ∈ elements, Reader.Reads env (depth + 1) e.2)
    (normal : PhpValue.NormalElements elements) (inside : ht < r.nextTable)
    (fresh : ((r.mem.tables ht).keys ++ elements.map Prod.fst).Nodup)
    (input : r.input = PhpValue.textOfElements elements ++ rest) :
    ∃ r' added, processNestedData (unserialize env (depth + 1)) (.array ht)
      elements.length r = (r', true) ∧ r.Filled r' ht added elements rest := by
  induction elements generalizing r with
  | nil => exact ⟨r, [], rfl, filled_nil input⟩
  | cons e elements ih =>
    obtain ⟨key, value, later⟩ := normal
    rw [forall_mem_cons] at each
    rw [PhpValue.textOfElements, append_assoc, append_assoc] at input
    obtain ⟨r₄, read, done⟩ := each.1
      (r.afterKey e.1 (e.2.text ++ (PhpValue.textOfElements elements ++ rest))).1 (r.nextZval + 1)
      (PhpValue.textOfElements elements ++ rest) rfl (Nat.lt_succ_self _)
    have absent : e.1 ∉ (r.mem.tables ht).keys := by
      rw [nodup_append] at fresh
      exact fun member => fresh.2.2 _ member _ mem_cons_self rfl
    have one := Reader.Filled.of_read done inside absent (Nat.le_succ _)
      (Nat.lt_succ_self _) rfl rfl
      (fun z old => afterKey_zvals old)
    have fresh' : (((r₄.update (.array ht) e.1 (r.nextZval + 1)).mem.tables ht).keys ++
        elements.map Prod.fst).Nodup := by
      rw [OrderedMap.keys, one.entries]
      simpa [OrderedMap.keys] using fresh
    obtain ⟨r', added, looped, filled⟩ := ih each.2 later (inside.trans_le one.nextTable)
      fresh' one.input
    refine ⟨r', _, ?_, one.trans inside filled⟩
    rw [length_cons, processNestedData_next input (tableKey_array key) read]
    · exact looped
    · rw [done.input]
      exact last_read (text_ends e.2) _

theorem unserialize_text (small : v.Small) (normal : v.Normal) {rval : Addr}
    (input : r.input = v.text ++ rest) (deep : v.height < depth) (allocated : rval < r.nextZval) :
    ∃ r', unserialize env depth r rval true = (r', some rval) ∧ r.Read r' rval v rest := by
  induction v using PhpValue.induct generalizing r rval rest depth with
  | null =>
    obtain ⟨depth, rfl⟩ := Nat.exists_eq_add_of_lt deep
    refine ⟨_, unserialize_null input, rfl, grown_setValue r rval true _ rest, ?_⟩
    simp [Represents, setValue]
  | bool b =>
    obtain ⟨depth, rfl⟩ := Nat.exists_eq_add_of_lt deep
    refine ⟨_, unserialize_bool input, rfl, grown_setValue r rval true _ rest, ?_⟩
    simp [Represents, setValue]
  | long v =>
    obtain ⟨depth, rfl⟩ := Nat.exists_eq_add_of_lt deep
    refine ⟨_, unserialize_long input, rfl, grown_setValue r rval true _ rest, ?_⟩
    simp [Represents, setValue]
  | string s =>
    obtain ⟨depth, rfl⟩ := Nat.exists_eq_add_of_lt deep
    refine ⟨_, unserialize_string input, rfl, grown_setValue r rval true _ rest, ?_⟩
    simp [Represents, setValue]
  | array elements ih =>
    rw [PhpValue.height] at deep
    obtain ⟨depth, rfl⟩ : ∃ d, depth = d + 2 := ⟨depth - 2, by omega⟩
    rw [PhpValue.Small] at small
    have each : ∀ e ∈ elements, Reader.Reads env (depth + 1) e.2 := by
      intro e member r rval rest input allocated
      have lower := height_le_of_mem member
      exact ih e member (small_of_mem small.2 e member)
        (normal_of_mem normal.2 e member) input (by omega) allocated
    rw [PhpValue.text, append_assoc] at input
    have nonneg : 0 ≤ (BitVec.ofNat 32 elements.length).toInt := by
      rw [toInt_ofNat small.1]
      omega
    -- the reader in front of the first element
    let r₁ : Reader D := { (r.push rval true).initArray rval with
      input := PhpValue.textOfElements elements ++ ascii "\x7d" ++ rest }
    have table : r₁.mem.tables r.nextTable = .empty := by simp [r₁, initArray]
    have inside : r.nextTable < r₁.nextTable := by simp [r₁, initArray]
    obtain ⟨r', added, looped, filled⟩ := processNestedData_text each normal.2 inside
      (by rw [table]; exact normal.1) (append_assoc _ _ _)
    have nextZval : r₁.nextZval = r.nextZval := by simp [r₁, initArray, setValue]
    have nextTable : r₁.nextTable = r.nextTable + 1 := by simp [r₁, initArray]
    have zvals : r₁.mem.zvals = update r.mem.zvals rval ⟨false, .array r.nextTable⟩ := by
      simp [r₁, initArray, setValue]
    have tables : r₁.mem.tables = update r.mem.tables r.nextTable .empty := by
      simp [r₁, initArray]
    have grownTable : r.nextTable + 1 ≤ r'.nextTable := nextTable ▸ filled.nextTable
    refine ⟨{ r' with input := rest }, ?_, rfl, ⟨?_, ?_, ?_, ?_⟩, ?_⟩
    · rw [unserialize_array nonneg input, push_nextTable]
      have count : (BitVec.ofNat 64 (BitVec.ofNat 32 elements.length).toNat) =
          BitVec.ofNat 64 elements.length := by
        rw [BitVec.toNat_ofNat, Nat.mod_eq_of_lt (by omega)]
      have positive : ¬ (BitVec.ofNat 64 elements.length).toInt < 0 := by
        rw [BitVec.toInt_eq_toNat_bmod, toNat_length small.1, Int.bmod_def]
        omega
      rw [count, readNested, if_neg positive, toNat_length small.1]
      rw [looped]
      simp only [finishNestedData, filled.input]
      rfl
    · exact nextZval ▸ filled.nextZval
    · exact (Nat.le_succ _).trans grownTable
    · intro z old other
      rw [show r'.mem.zvals z = r₁.mem.zvals z from filled.zvals z (nextZval ▸ old), zvals,
        update_of_ne other]
    · intro other old
      rw [show r'.mem.tables other = r₁.mem.tables other from
        filled.tables other (old.trans inside) old.ne, tables, update_of_ne old.ne]
    · refine ⟨r.nextTable, ⟨le_rfl, grownTable⟩,
        Set.mem_insert _ _, ?_, ?_⟩
      · rw [show r'.mem.zvals rval = r₁.mem.zvals rval
          from filled.zvals rval (nextZval ▸ allocated), zvals, update_self]
      · rw [show (r'.mem.tables r.nextTable).entries = added by rw [filled.entries, table]; rfl]
        refine filled.stored.frame ?_ ?_ (fun _ _ => rfl) fun _ _ => rfl
        · rw [nextZval]
          exact Set.subset_insert _ _
        · rw [nextTable]
          exact Set.Ico_subset_Ico_left (Nat.le_succ _)

end reader

/-! ### The round trip -/

def Memory.Holds (mem : Memory D) (z : Addr) (v : PhpValue) : Prop :=
  Represents mem Set.univ Set.univ z v

/-- A value whose text a `smart_str` can hold is written, and reading what was written succeeds,
uses up the input and gives the same value. -/
theorem unserialize_serialize (gcvt : D → Bytes) (env : Env D) {mem : Memory D} {z : Addr}
    {v : PhpValue} (stored : mem.Holds z v) (normal : v.Normal) (small : v.Small)
    (short : v.text.length < SmartStr.limit) {depth depth' : Nat} (deep : v.height < depth)
    (deep' : v.height < depth') :
    ∃ w, Writer.serializeIntern gcvt mem depth .init z = some w ∧
      w.buf.length < SmartStr.limit ∧
      ∀ (r : Reader D) (rval : Addr), r.input = w.buf → rval < r.nextZval →
        ∃ r', Reader.unserialize env depth' r rval true = (r', some rval) ∧ r'.input = [] ∧
          r'.mem.Holds rval v := by
  have calm : Writer.init.Above mem (v.height - 1) := fun _ _ busy => absurd rfl busy
  obtain ⟨w, ran, wrote⟩ := serializeIntern_text small stored calm deep
  have buf : w.buf = v.text := wrote.buf
  refine ⟨w, ran, by rwa [buf], fun r rval input allocated => ?_⟩
  have text : r.input = v.text ++ [] := by
    rw [input, buf, append_nil]
  obtain ⟨r', read, done⟩ := unserialize_text small normal text deep' allocated
  refine ⟨r', read, done.input, ?_⟩
  exact done.value.frame (Set.subset_univ _) (Set.subset_univ _) (fun _ _ => rfl) fun _ _ => rfl

def sampleKey : Str := ⟨[107], by decide⟩

/-- `array("k" => LONG_MIN, 5 => array(true))`, the inner array in table 1. -/
def sample : Memory Unit where
  zvals z :=
    if z = 0 then ⟨false, .array 0⟩
    else if z = 1 then ⟨false, .long (BitVec.intMin 64)⟩
    else if z = 2 then ⟨false, .array 1⟩
    else ⟨false, .bool true⟩
  tables ht :=
    if ht = 0 then ⟨[(.string sampleKey, 1), (.long 5, 2)], by decide⟩
    else ⟨[(.long 0, 3)], by decide⟩
  objects _ := ⟨⟨[], by decide⟩, .empty⟩

def sampleEnv : Env Unit where
  strtod _ := ()
  lookupClass _ := none
  standardClass := ⟨⟨[], by decide⟩, .empty⟩
  incompleteClass := ⟨⟨[], by decide⟩, .empty⟩
  magicMember := ⟨[], by decide⟩

theorem unserialize_serialize_sample :
    let v : PhpValue := .array [(.string sampleKey, .long (BitVec.intMin 64)),
      (.long 5, .array [(.long 0, .bool true)])]
    ∃ w, Writer.serializeIntern (fun _ => []) sample 3 .init 0 = some w ∧
      w.buf.length < SmartStr.limit ∧
      ∀ (r : Reader Unit) (rval : Addr), r.input = w.buf → rval < r.nextZval →
        ∃ r', Reader.unserialize sampleEnv 3 r rval true = (r', some rval) ∧ r'.input = [] ∧
          r'.mem.Holds rval v := by
  intro v
  refine unserialize_serialize (fun _ => []) sampleEnv ?_ ?_ ?_ (by decide) (by decide) (by decide)
  · simp [v, Memory.Holds, Represents, RepresentsElements, sample]
  · refine ⟨by decide, ?_⟩
    simp [PhpValue.NormalElements, PhpValue.Normal, sampleKey, handleNumeric, Decimal.isDigit]
  · simp [v, PhpValue.Small, PhpValue.SmallElements]

/-! ### Arrays that an `int` cannot count -/

section huge

/-- The indices below a number, each with the zval. -/
def indices (n : Nat) (z : Addr) : List (Key × Addr) :=
  (range n).map fun i => (.long (BitVec.ofNat 64 i), z)

theorem indices_nodup {n : Nat} (fits : n ≤ 2 ^ 64) (z : Addr) :
    ((indices n z).map Prod.fst).Nodup := by
  rw [indices, map_map]
  refine Nodup.map_on ?_ nodup_range
  intro i member j member' same
  rw [mem_range] at member member'
  have values : BitVec.ofNat 64 i = BitVec.ofNat 64 j := Key.long.inj same
  rw [← BitVec.toNat_inj, BitVec.toNat_ofNat, BitVec.toNat_ofNat, Nat.mod_eq_of_lt (by omega),
    Nat.mod_eq_of_lt (by omega)] at values
  exact values

/-- An array with as many elements, all of them null. -/
def nulls (n : Nat) (fits : n ≤ 2 ^ 64) : Memory D where
  zvals z := ⟨false, if z = 0 then .array 0 else .null⟩
  tables _ := ⟨indices n 1, indices_nodup fits 1⟩
  objects _ := ⟨⟨[], by decide⟩, .empty⟩

def nullElements (entries : List (Key × Addr)) : List (Key × PhpValue) :=
  entries.map fun e => (e.1, .null)

theorem represents_nulls {mem : Memory D} (null : ∀ e ∈ entries, mem.zvals e.2 = ⟨false, .null⟩) :
    RepresentsElements mem Set.univ Set.univ entries (nullElements entries) := by
  induction entries with
  | nil => trivial
  | cons e entries ih =>
    refine ⟨rfl, ⟨trivial, null e (by simp)⟩, ?_⟩
    exact ih fun e member => null e (mem_cons_of_mem _ member)

private theorem normal_nulls (long : ∀ e ∈ entries, ∃ i, e.1 = .long i) :
    PhpValue.NormalElements (nullElements entries) := by
  induction entries with
  | nil => trivial
  | cons e entries ih =>
    refine ⟨?_, trivial, ih fun e member => long e (mem_cons_of_mem _ member)⟩
    intro name string
    obtain ⟨i, same⟩ := long e (by simp)
    cases same.symm.trans string

private theorem holds_nulls (n : Nat) (fits : n ≤ 2 ^ 64) :
    (nulls n fits : Memory D).Holds 0 (.array (nullElements (indices n 1))) := by
  refine ⟨0, trivial, trivial, rfl, represents_nulls ?_⟩
  intro e member
  obtain ⟨i, _, rfl⟩ := mem_map.mp member
  rfl

theorem normal_indices {n : Nat} (fits : n ≤ 2 ^ 64) :
    (PhpValue.array (nullElements (indices n 1))).Normal := by
  constructor
  · have keys : (nullElements (indices n 1)).map Prod.fst = (indices n 1).map Prod.fst := by
      simp [nullElements]
    rw [keys]
    exact indices_nodup fits 1
  · refine normal_nulls fun e member => ?_
    obtain ⟨i, _, rfl⟩ := mem_map.mp member
    exact ⟨_, rfl⟩

/-- A table whose size is negative as an `int` is written without its elements. -/
theorem serialize_negative (gcvt : D → Bytes) {mem : Memory D} {z : Addr} {ht : Nat}
    (zval : mem.zvals z = ⟨false, .array ht⟩) (negative : (numElements (mem.tables ht)).toInt < 0)
    (w : Writer) : ∃ w', serializeIntern gcvt mem 1 w z = some w' ∧ w'.buf = w.buf ++
      (ascii "a:" ++ (printInt (numElements (mem.tables ht)) ++ ascii ":\x7b") ++
        ascii "\x7d") := by
  have none : ¬ (numElements (mem.tables ht)).toInt > 0 := by omega
  rw [serializeIntern_plain zval (by simp), serializeValue]
  simp only [nested, if_neg none]
  exact ⟨_, rfl, by simp [append]⟩

theorem unserialize_unscanned {env : Env D} {rval : Addr} {hash : Bool}
    (unscanned : scan r.input = none) : (unserialize env depth r rval hash).2 = none ∧
      (unserialize env depth r rval hash).1.mem = r.mem := by
  cases depth with
  | zero => exact ⟨rfl, rfl⟩
  | succ depth =>
    rw [unserialize]
    split
    · exact ⟨rfl, rfl⟩
    · have pushed : (r.push rval hash).mem = r.mem := by
        rw [push]
        split <;> rfl
      rw [unscanned]
      exact ⟨rfl, pushed⟩

theorem numElements_indices {n : Nat} (fits : n ≤ 2 ^ 64) (z : Addr) :
    numElements ⟨indices n z, indices_nodup fits z⟩ = BitVec.ofNat 32 n := by
  simp [numElements, OrderedMap.size, indices]

/-- With 2³¹ elements the count is written as a negative number, and no element is written. -/
theorem hugeArray_not_restored :
    ∃ (mem : Memory Unit) (z : Addr) (v : PhpValue), mem.Holds z v ∧ v.Normal ∧
      ∃ w, Writer.serializeIntern (fun _ => []) mem 1 .init z = some w ∧
        ∀ (depth : Nat) (r : Reader Unit) (rval : Addr) (hash : Bool), r.input = w.buf →
          (Reader.unserialize sampleEnv depth r rval hash).2 = none := by
  -- the number stays a variable, so that no list of that length is computed
  obtain ⟨n, fits, negative⟩ : ∃ n ≤ 2 ^ 64, (BitVec.ofNat 32 n).toInt < 0 :=
    ⟨2 ^ 31, by omega, by decide⟩
  have negative : (numElements ((nulls n fits : Memory Unit).tables 0)).toInt < 0 := by
    rwa [nulls, numElements_indices fits]
  obtain ⟨w, ran, buf⟩ := @serialize_negative _ (fun _ => []) _ 0 0 rfl negative .init
  refine ⟨nulls n fits, 0, _, holds_nulls n fits, normal_indices fits, w, ran, ?_⟩
  intro depth r rval hash input
  refine (unserialize_unscanned ?_).1
  rw [input, buf]
  exact scan_negativeArray negative _

end huge

end Jonj.Serialize
