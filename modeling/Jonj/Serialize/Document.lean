import Mathlib.Data.List.TakeWhile
import Jonj.Serialize.RoundTrip
import Jonj.Serialize.Slots

/-!
# What was written, as a tree

The text of a stream as a tree of records, without the values they stand for. Reading the text
fills a slot at the start of every record except `R:`, in the order of the text, as far as the
reader gets.
-/
namespace Jonj.Serialize

open Decimal List

inductive Head where
  | array
  | object (name : Str)

def Head.text : Head → Bytes
  | .array => ascii "a:"
  | .object name => className name

/-- The reader takes the name for the name of a class. -/
def Head.Valid : Head → Prop
  | .array => True
  | .object name => name.bytes ≠ [] ∧ name.bytes.all Reader.isClassChar = true

/-- The records that `jonj_var_serialize` writes. -/
inductive Doc where
  | null
  | bool (b : Bool)
  | long (v : Long)
  | double (text : Bytes)
  | string (s : Str)
  | ref (n : Long)
  | objectRef (n : Long)
  | nested (head : Head) (count : BitVec 32) (elements : List (Key × Doc))

namespace Doc

/-- Induction over the records, with the hypothesis for all elements of an array or object. -/
theorem induct {P : Doc → Prop} (null : P .null) (bool : ∀ b, P (.bool b)) (long : ∀ v, P (.long v))
    (double : ∀ text, P (.double text)) (string : ∀ s, P (.string s)) (ref : ∀ n, P (.ref n))
    (objectRef : ∀ n, P (.objectRef n))
    (nested : ∀ head count elements, (∀ e ∈ elements, P e.2) → P (.nested head count elements))
    (d : Doc) : P d := by
  refine @Doc.rec P (fun es => ∀ e ∈ es, P e.2) (fun e => P e.2) null bool long double string ref
    objectRef nested ?_ ?_ ?_ d
  · simp
  · exact fun head tail first rest => forall_mem_cons.mpr ⟨first, rest⟩
  · exact fun _ _ value => value

/-- The text of a nested record up to its first element. -/
def opening (head : Head) (count : BitVec 32) : Bytes :=
  head.text ++ (printInt count ++ ascii ":\x7b")

mutual

def text : Doc → Bytes
  | .null => ascii "N;"
  | .bool b => ascii "b:" ++ printLong (if b then 1 else 0) ++ ascii ";"
  | .long v => longRecord v
  | .double text => ascii "d:" ++ text ++ ascii ";"
  | .string s => stringRecord s
  | .ref n => ascii "R:" ++ printLong n ++ ascii ";"
  | .objectRef n => ascii "r:" ++ printLong n ++ ascii ";"
  | .nested head count elements => opening head count ++ (textOfElements elements ++ ascii "\x7d")

def textOfElements : List (Key × Doc) → Bytes
  | [] => []
  | (key, d) :: rest => keyRecord key ++ (d.text ++ textOfElements rest)

end

mutual

/-- The offsets of the records that get a slot, if the record itself starts at the offset. -/
def starts (o : Nat) : Doc → List Nat
  | .ref _ => []
  | .nested head count elements => o :: startsOfElements (o + (opening head count).length) elements
  | _ => [o]

def startsOfElements (o : Nat) : List (Key × Doc) → List Nat
  | [] => []
  | (key, d) :: rest =>
    starts (o + (keyRecord key).length) d ++
      startsOfElements (o + (keyRecord key).length + d.text.length) rest

end

mutual

def height : Doc → Nat
  | .nested _ _ elements => heightOfElements elements + 1
  | _ => 0

def heightOfElements : List (Key × Doc) → Nat
  | [] => 0
  | (_, d) :: rest => max d.height (heightOfElements rest)

end

mutual

/-- The scanner matches the texts of all doubles. -/
def Lexes : Doc → Prop
  | .double text => isDoubleText text = true
  | .nested _ _ elements => LexesElements elements
  | _ => True

def LexesElements : List (Key × Doc) → Prop
  | [] => True
  | (_, d) :: rest => d.Lexes ∧ LexesElements rest

end

mutual

/-- With as many slots before it, nothing in the record stops the reader. -/
def Good (slots : Nat) : Doc → Prop
  | .ref n => 0 < n.toInt ∧ n.toInt ≤ slots
  | .objectRef n => 0 < n.toInt ∧ n.toInt ≤ slots
  | .nested head count elements =>
    head.Valid ∧ count.toInt = elements.length ∧ GoodElements (slots + 1) elements
  | _ => True

def GoodElements (slots : Nat) : List (Key × Doc) → Prop
  | [] => True
  | (_, d) :: rest => d.Good slots ∧ GoodElements (slots + (d.starts 0).length) rest

end

variable {elements : List (Key × Doc)}

theorem lexes_of_mem (lexes : LexesElements elements) : ∀ e ∈ elements, e.2.Lexes := by
  induction elements with
  | nil => simp
  | cons head tail ih => exact forall_mem_cons.mpr ⟨lexes.1, ih lexes.2⟩

theorem height_le_of_mem {e : Key × Doc} (member : e ∈ elements) :
    e.2.height ≤ heightOfElements elements := by
  induction elements with
  | nil => cases member
  | cons head tail ih =>
    rcases mem_cons.mp member with rfl | later
    · exact le_max_left _ _
    · exact (ih later).trans (le_max_right _ _)

theorem length_startsOfElements_of
    (each : ∀ e ∈ elements, ∀ o o', (e.2.starts o).length = (e.2.starts o').length) (o o' : Nat) :
    (startsOfElements o elements).length = (startsOfElements o' elements).length := by
  induction elements generalizing o o' with
  | nil => rfl
  | cons e elements ih =>
    rw [forall_mem_cons] at each
    rw [startsOfElements, startsOfElements, length_append, length_append,
      each.1 _ (o' + (keyRecord e.1).length),
      ih each.2 _ (o' + (keyRecord e.1).length + e.2.text.length)]

/-- How many slots a record gets does not depend on where it is. -/
theorem length_starts (d : Doc) (o o' : Nat) : (d.starts o).length = (d.starts o').length := by
  induction d using Doc.induct generalizing o o' with
  | nested head count elements ih =>
    rw [starts, starts, length_cons, length_cons,
      length_startsOfElements_of (fun e member => ih e member)]
  | _ => rfl

theorem length_startsOfElements (elements : List (Key × Doc)) (o o' : Nat) :
    (startsOfElements o elements).length = (startsOfElements o' elements).length :=
  length_startsOfElements_of (fun e _ => length_starts e.2) o o'

/-- A reader that stops has filled the first slots. -/
theorem startsOfElements_take (o count : Nat) (elements : List (Key × Doc)) :
    startsOfElements o (elements.take count) <+: startsOfElements o elements := by
  induction elements generalizing o count with
  | nil => simp
  | cons e elements ih =>
    cases count with
    | zero => exact nil_prefix
    | succ count =>
      exact (prefix_append_right_inj _).mpr (ih _ count)

/-- Every record ends with the byte that `process_nested_data` tests for. -/
theorem text_ends (d : Doc) : ∃ front, d.text = front ++ [59] ∨ d.text = front ++ [125] := by
  cases d with
  | null => exact ⟨[78], .inl rfl⟩
  | bool | long | double | ref | objectRef => exact ⟨_, .inl rfl⟩
  | string s =>
    rw [text, stringRecord]
    refine ⟨ascii "s:" ++ printInt (BitVec.ofNat 32 s.bytes.length) ++ ascii ":\"" ++
      s.bytes ++ [34],
      .inl ?_⟩
    simp [ascii]
  | nested head count elements =>
    rw [text]
    refine ⟨opening head count ++ textOfElements elements, .inr ?_⟩
    simp [ascii]

theorem text_ne_nil (d : Doc) : d.text ≠ [] := by
  obtain ⟨front, ends⟩ := text_ends d
  rcases ends with semicolon | brace
  · simp [semicolon]
  · simp [brace]

end Doc

/-! ### Doubles -/

theorem mem_dropSign {text : Bytes} {c : UInt8} (member : c ∈ text) (other : c = 59) :
    c ∈ dropSign text := by
  rw [dropSign]
  split
  next sign =>
    cases text with
    | nil => cases member
    | cons first rest =>
      rcases mem_cons.mp member with rfl | later
      · subst other
        simp at sign
      · exact later
  · exact member

private theorem mem_dropWhile {text : Bytes} {c : UInt8} (member : c ∈ text) (other : c = 59) :
    c ∈ text.dropWhile isDigit := by
  rw [← takeWhile_append_dropWhile (p := isDigit) (l := text)] at member
  rcases mem_append.mp member with digit | rest
  · have digit := mem_takeWhile_imp digit
    subst other
    cases digit
  · exact rest

private theorem semicolon_not_mem_exponent {text : Bytes}
    (exponent : text.head? = some 101 ∨ text.head? = some 69)
    (digits : (dropSign (dropSign text.tail)).all isDigit = true) : 59 ∉ text := by
  intro member
  cases text with
  | nil => cases member
  | cons e rest =>
    rcases mem_cons.mp member with rfl | later
    · simp at exponent
    · have digit := all_eq_true.mp digits 59 (mem_dropSign (mem_dropSign later rfl) rfl)
      cases digit

/-- The text of a double ends at the first semicolon. -/
theorem semicolon_not_mem {text : Bytes} (accepted : isDoubleText text = true) : 59 ∉ text := by
  intro member
  simp only [isDoubleText] at accepted
  split at accepted
  next special => rcases special with rfl | rfl | rfl <;> revert member <;> decide
  have whole := mem_dropWhile (mem_dropSign member rfl) rfl
  have fraction : 59 ∈ (if ((dropSign text).dropWhile isDigit).head? = some 46 then
      ((dropSign text).dropWhile isDigit).tail.dropWhile isDigit
      else (dropSign text).dropWhile isDigit) := by
    split
    next point =>
      apply mem_dropWhile _ rfl
      obtain ⟨rest, dotted⟩ := head?_eq_some_iff.mp point
      rw [dotted] at whole ⊢
      simpa using whole
    · exact whole
  generalize (if ((dropSign text).dropWhile isDigit).head? = some 46 then
      ((dropSign text).dropWhile isDigit).tail.dropWhile isDigit
      else (dropSign text).dropWhile isDigit) = after at accepted fraction
  rw [if_neg (ne_nil_of_mem fraction)] at accepted
  by_cases exponent : after.head? = some 101 ∨ after.head? = some 69
  · rw [if_pos exponent] at accepted
    have digits : (dropSign (dropSign after.tail)).all isDigit = true := by
      simp only [Bool.if_false_left, Bool.and_eq_true, decide_eq_true_eq] at accepted
      exact accepted.2.2
    exact semicolon_not_mem_exponent exponent digits fraction
  · rw [if_neg exponent] at accepted
    simp at accepted

end Jonj.Serialize
