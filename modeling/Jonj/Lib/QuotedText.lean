import Jonj.Lib.CChar

/-!
# Quoted text in a multibyte character set

A lexer that goes through a quoted text character by character. A character set is given by the
shapes of its multibyte characters: one set of bytes for each byte of the character.
-/
namespace Jonj.QuotedText

open List

/-! ### Characters -/

/-- A set of bytes, as ranges. -/
abbrev Ranges := List (UInt8 × UInt8)

def Ranges.has (r : Ranges) (b : UInt8) : Bool :=
  r.any fun e => decide (e.1 ≤ b) && decide (b ≤ e.2)

/-- The text begins with a character of the shape. -/
def fits : List Ranges → Bytes → Bool
  | [], _ => true
  | _ :: _, [] => false
  | r :: rs, b :: text => r.has b && fits rs text

/-- The length of the multibyte character that the text begins with, or zero. -/
def charLen (chars : List (List Ranges)) (text : Bytes) : Nat :=
  match chars.find? fun shape => fits shape text with
  | some shape => shape.length
  | none => 0

@[simp] theorem charLen_nil (text : Bytes) : charLen [] text = 0 := rfl

theorem charLen_cons (shape : List Ranges) (chars : List (List Ranges)) (text : Bytes) :
    charLen (shape :: chars) text = if fits shape text then shape.length
      else charLen chars text := by
  cases isFit : fits shape text with
  | true => simp [charLen, isFit]
  | false => simp [charLen, isFit]

/-- A character that is cut off does not fit. -/
theorem length_le_of_fits {shape : List Ranges} {text : Bytes} (isFit : fits shape text = true) :
    shape.length ≤ text.length := by
  induction shape generalizing text with
  | nil => exact Nat.zero_le _
  | cons r rs ih =>
    cases text with
    | nil => cases isFit
    | cons b text =>
      simp only [fits, Bool.and_eq_true] at isFit
      exact Nat.succ_le_succ (ih isFit.2)

theorem charLen_le_length (chars : List (List Ranges)) (text : Bytes) :
    charLen chars text ≤ text.length := by
  rw [charLen]
  split
  next shape found => exact length_le_of_fits (by simpa using find?_some found)
  · exact Nat.zero_le _

/-! ### The lexer -/

def backslash : UInt8 := 92

def quote : UInt8 := 39

/-- The text of a literal begins with the bytes. -/
def before (bytes : Bytes) : Option (Bytes × Bytes) → Option (Bytes × Bytes) :=
  Option.map fun result => (bytes ++ result.1, result.2)

/-- The content of the literal, and what follows the closing quote. -/
def lex (chars : List (List Ranges)) (unescape : UInt8 → UInt8) : Bytes → Option (Bytes × Bytes)
  | [] => none
  | b :: rest =>
    if 0 < charLen chars (b :: rest) then
      before ((b :: rest).take (charLen chars (b :: rest)))
        (lex chars unescape (rest.drop (charLen chars (b :: rest) - 1)))
    else if b = backslash then
      match rest with
      | [] => none
      | c :: more => before [unescape c] (lex chars unescape more)
    else if b = quote then some ([], rest)
    else before [b] (lex chars unescape rest)
termination_by text => text.length
decreasing_by
  all_goals simp

section
variable {chars : List (List Ranges)} {unescape : UInt8 → UInt8}

@[simp] theorem before_nil (result : Option (Bytes × Bytes)) : before [] result = result := by
  cases result <;> rfl

theorem before_before (first second : Bytes) (result : Option (Bytes × Bytes)) :
    before first (before second result) = before (first ++ second) result := by
  cases result <;> simp [before]

theorem before_eq_some_iff {bytes text rest : Bytes} {result : Option (Bytes × Bytes)} :
    before bytes result = some (bytes ++ text, rest) ↔ result = some (text, rest) := by
  cases result with
  | none => simp [before]
  | some pair => simp [before, Prod.ext_iff]

theorem before_cons_iff {b c : UInt8} {bytes text rest : Bytes} {result : Option (Bytes × Bytes)} :
    before (b :: bytes) result = some (c :: text, rest) ↔ b = c ∧
      before bytes result = some (text, rest) := by
  cases result with
  | none => simp [before]
  | some pair => simp [before, and_assoc]

theorem drop_pred (b : UInt8) {rest : Bytes} {n : Nat} (pos : n ≠ 0) :
    rest.drop (n - 1) = (b :: rest).drop n := by
  obtain ⟨k, rfl⟩ := Nat.exists_eq_succ_of_ne_zero pos
  rfl

/-- Behind a multibyte character, whose bytes stand for themselves. -/
theorem lex_char {text : Bytes} (isChar : 0 < charLen chars text) (nonempty : text ≠ []) :
    lex chars unescape text =
      before (text.take (charLen chars text))
        (lex chars unescape (text.drop (charLen chars text))) := by
  cases text with
  | nil => exact absurd rfl nonempty
  | cons b rest =>
    rw [lex.eq_def]
    dsimp only
    rw [if_pos isChar, drop_pred b isChar.ne']

/-- A backslash and the byte behind it stand for one byte. -/
theorem lex_escape {c : UInt8} {rest : Bytes}
    (notChar : charLen chars (backslash :: c :: rest) = 0) :
    lex chars unescape (backslash :: c :: rest) = before [unescape c]
      (lex chars unescape rest) := by
  rw [lex, notChar]
  simp

theorem lex_quote {rest : Bytes} (notChar : charLen chars (quote :: rest) = 0) :
    lex chars unescape (quote :: rest) = some ([], rest) := by
  have other : quote ≠ backslash := by decide
  rw [lex.eq_def]
  simp [notChar, other]

theorem lex_plain {b : UInt8} {rest : Bytes} (notChar : charLen chars (b :: rest) = 0)
    (notBackslash : b ≠ backslash) (notQuote : b ≠ quote) :
    lex chars unescape (b :: rest) = before [b] (lex chars unescape rest) := by
  rw [lex.eq_def]
  simp [notChar, notBackslash, notQuote]

/-- Byte by byte, bytes that are neither a backslash nor a quote stand for themselves. -/
theorem lex_nil_append {bytes : Bytes} (plain : ∀ b ∈ bytes, b ≠ backslash ∧ b ≠ quote)
    (rest : Bytes) :
    lex [] unescape (bytes ++ rest) = before bytes (lex [] unescape rest) := by
  induction bytes with
  | nil => rw [nil_append, before_nil]
  | cons b bytes ih =>
    obtain ⟨head, tail⟩ := forall_mem_cons.mp plain
    rw [cons_append, lex_plain (charLen_nil _) head.1 head.2, ih tail, before_before,
      singleton_append]

theorem mem_of_fits {shape : List Ranges} {text : Bytes} (isFit : fits shape text = true)
    {b : UInt8} (member : b ∈ text.take shape.length) : ∃ r ∈ shape, r.has b = true := by
  induction shape generalizing text with
  | nil => simp at member
  | cons r rs ih =>
    cases text with
    | nil => cases isFit
    | cons c text =>
      simp only [fits, Bool.and_eq_true] at isFit
      rcases mem_cons.mp member with rfl | member
      · exact ⟨r, by simp, isFit.1⟩
      · obtain ⟨r', inShape, has⟩ := ih isFit.2 member
        exact ⟨r', by simp [inShape], has⟩

/-- No character contains a backslash or a quote. -/
def Harmless (chars : List (List Ranges)) : Prop :=
  ∀ shape ∈ chars, ∀ r ∈ shape, r.has backslash = false ∧ r.has quote = false

instance : Decidable (Harmless chars) := by
  unfold Harmless
  infer_instance

/-- If no character contains a backslash or a quote, it does not matter which ones are known. -/
theorem lex_eq_lex_nil (harmless : Harmless chars) (text : Bytes) :
    lex chars unescape text = lex [] unescape text := by
  fun_induction lex chars unescape text with
  | case1 => rw [lex]
  | case2 b rest isChar ih =>
    have plain : ∀ c ∈ (b :: rest).take (charLen chars (b :: rest)), c ≠ backslash ∧ c ≠ quote := by
      intro c member
      unfold charLen at member
      split at member
      next shape found =>
        obtain ⟨r, inShape, has⟩ := mem_of_fits (by simpa using find?_some found) member
        have none := harmless shape (mem_of_find?_eq_some found) r inShape
        constructor
        · rintro rfl
          exact absurd has (by simp [none.1])
        · rintro rfl
          exact absurd has (by simp [none.2])
      · simp at member
    rw [ih, ← lex_nil_append plain, drop_pred b isChar.ne', take_append_drop]
  | case3 _ => simp [lex]
  | case4 c more _ ih => rw [ih, lex_escape (charLen_nil _)]
  | case5 rest _ _ => rw [lex_quote (charLen_nil _)]
  | case6 b rest _ notBackslash notQuote ih =>
    rw [ih, lex_plain (charLen_nil _) notBackslash notQuote]

end

end Jonj.QuotedText
