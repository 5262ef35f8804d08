import Jonj.Lib.CChar

/-!
# The quoted-printable encoder

A string is its bytes, with a NUL behind them.
-/
namespace Jonj.QuotPrint

open List

/-! ### The model -/

/-- `JONJ_QPRINT_MAXL` -/
def maxl : Nat := 75

/-- The bytes that are not written as they are; `next` is the one behind. -/
def escapes (c next : UInt8) : Bool :=
  c < 32 || c == 127 || c &&& 128 != 0 || c == 61 || (c == 32 && next == 13)

/-- Whether a line ends in front of such a byte, if it would end in column `lp`. -/
def breaks (lp : Nat) (c : UInt8) : Bool :=
  (maxl < lp && c ≤ 0x7f) || (0x7f < c && c ≤ 0xdf && maxl < lp + 3) ||
    (0xdf < c && c ≤ 0xef && maxl < lp + 6) || (0xef < c && c ≤ 0xf4 && maxl < lp + 9)

def triple (c : UInt8) : Bytes := [61, hexDigit (c >>> 4), hexDigit (c &&& 15)]

/-- The loop of `jonj_quot_print_encode`. -/
def encodeLoop : Nat → Bytes → Bytes
  | _, [] => []
  -- the end of a line of the string is kept
  | _, 13 :: 10 :: rest => 13 :: 10 :: encodeLoop 0 rest
  | lp, c :: rest =>
    if escapes c (rest.headD 0) then
      if breaks (lp + 3) c then [61, 13, 10] ++ (triple c ++ encodeLoop 3 rest)
      else triple c ++ encodeLoop (lp + 3) rest
    else if maxl < lp + 1 then [61, 13, 10] ++ c :: encodeLoop 1 rest
    else c :: encodeLoop (lp + 1) rest

def quotPrintEncode (str : Bytes) : Bytes := encodeLoop 0 str

/-! ### The lines -/

theorem plain_of_not_escapes {c next : UInt8} (plain : ¬ escapes c next = true) :
    c ≠ 0 ∧ c ≠ 61 ∧ c ≠ 13 := by
  refine ⟨?_, ?_, ?_⟩ <;> rintro rfl <;> exact plain rfl

private theorem hexDigit_ne_cr (c : UInt8) :
    hexDigit (c >>> 4) ≠ 13 ∧ hexDigit (c &&& 15) ≠ 13 := by
  revert c
  decide +kernel

/-- The pieces between the pairs of CR and LF. -/
def lines : Bytes → List Bytes
  | [] => [[]]
  | 13 :: 10 :: rest => [] :: lines rest
  | c :: rest => (lines rest).modifyHead (c :: ·)

theorem lines_ne_nil (text : Bytes) : lines text ≠ [] := by
  fun_induction lines text with
  | case1 => simp
  | case2 => simp
  | case3 c rest _ ih => simpa [modifyHead_eq_nil_iff] using ih

/-- The lines of what is written from column `lp` on. -/
def Fit (lp : Nat) (text : Bytes) : Prop :=
  ∃ first others, lines text = first :: others ∧ lp + first.length ≤ 76 ∧
    ∀ line ∈ others, line.length ≤ 76

private theorem fit_nil {lp : Nat} : Fit lp [] ↔ lp ≤ 76 := by
  constructor
  · rintro ⟨first, others, shape, bound, -⟩
    omega
  · intro room
    exact ⟨[], [], rfl, room, by simp⟩

theorem Fit.le {lp : Nat} {text : Bytes} (fit : Fit lp text) : lp ≤ 76 := by
  obtain ⟨first, others, -, bound, -⟩ := fit
  omega

theorem fit_cons {lp : Nat} {c : UInt8} {text : Bytes} (notCR : c ≠ 13) :
    Fit lp (c :: text) ↔ Fit (lp + 1) text := by
  have shape : lines (c :: text) = (lines text).modifyHead (c :: ·) :=
    lines.eq_3 _ _ fun _ same => absurd same notCR
  constructor
  · rintro ⟨first, others, whole, bound, rest⟩
    obtain ⟨line, below, same⟩ := exists_cons_of_ne_nil (lines_ne_nil text)
    rw [shape, same, modifyHead_cons] at whole
    obtain ⟨rfl, rfl⟩ := cons.inj whole
    rw [length_cons] at bound
    exact ⟨line, below, same, by omega, rest⟩
  · rintro ⟨first, others, below, bound, rest⟩
    refine ⟨c :: first, others, by rw [shape, below, modifyHead_cons], ?_, rest⟩
    rw [length_cons]
    omega

theorem fit_break {lp : Nat} {text : Bytes} :
    Fit lp (13 :: 10 :: text) ↔ lp ≤ 76 ∧ Fit 0 text := by
  constructor
  · rintro ⟨first, others, shape, bound, rest⟩
    rw [lines] at shape
    obtain ⟨rfl, rfl⟩ := cons.inj shape
    obtain ⟨line, below, same⟩ := exists_cons_of_ne_nil (lines_ne_nil text)
    rw [same] at rest
    exact ⟨by simpa using bound, line, below, same, by simpa using rest line (by simp),
      fun other member => rest other (by simp [member])⟩
  · rintro ⟨room, first, others, shape, bound, rest⟩
    refine ⟨[], first :: others, by rw [lines, shape], room, ?_⟩
    simpa using ⟨by omega, rest⟩

private theorem fit_triple {lp : Nat} {text : Bytes} (c : UInt8) :
    Fit lp (triple c ++ text) ↔ Fit (lp + 3) text := by
  obtain ⟨high, low⟩ := hexDigit_ne_cr c
  exact (fit_cons (by decide)).trans ((fit_cons high).trans (fit_cons low))

/-! ### Columns -/

/-- The column behind a byte that is written from column `lp` on. -/
def advance (lp : Nat) (c next : UInt8) : Nat :=
  if escapes c next then if breaks (lp + 3) c then 3 else lp + 3
  else if maxl < lp + 1 then 1
  else lp + 1

/-- The column behind a text. -/
def column : Nat → Bytes → Nat
  | lp, [] => lp
  | _, 13 :: 10 :: rest => column 0 rest
  | lp, c :: rest => column (advance lp c (rest.headD 0)) rest

/-- The line ends here, without a soft break. -/
def Ended (rest : Bytes) : Prop := rest = [] ∨ [13, 10] <+: rest

/-- Every byte that is not in UTF-8 has its three columns, or ends the line with one more. -/
def Roomy (lp : Nat) (str : Bytes) : Prop :=
  ∀ front c back, str = front ++ c :: back → 0xf4 < c →
    column lp front ≤ 72 ∨ column lp front = 73 ∧ Ended back

private theorem advance_le {lp : Nat} {c : UInt8} (next : UInt8) (inUtf8 : c ≤ 0xf4) :
    advance lp c next ≤ maxl := by
  rw [advance]
  split
  next =>
    split
    next => decide
    next narrow =>
      -- without a break the column is small, as the byte is in one of the four ranges
      simp only [breaks, maxl, Bool.or_eq_true, Bool.and_eq_true, decide_eq_true_eq] at narrow ⊢
      grind
  next => split <;> simp only [maxl] at * <;> omega

private theorem escapes_of_notUtf8 {c : UInt8} (next : UInt8) (notUtf8 : 0xf4 < c) :
    escapes c next = true ∧ ∀ lp, breaks lp c = false := by
  constructor
  · have high : ∀ c : UInt8, 0xf4 < c → (c &&& 128 != 0) = true := by decide +kernel
    simp [escapes, high c notUtf8]
  · intro lp
    simp only [breaks, Bool.or_eq_false_iff, Bool.and_eq_false_iff, decide_eq_false_iff_not]
    grind

private theorem advance_eq {lp : Nat} {c : UInt8} (next : UInt8) (notUtf8 : 0xf4 < c) :
    advance lp c next = lp + 3 := by
  obtain ⟨escaped, unbroken⟩ := escapes_of_notUtf8 next notUtf8
  simp [advance, escaped, unbroken]

/-- What stands behind does not matter to the column in front of a byte that is not in UTF-8. -/
theorem column_cons {lp : Nat} {c d : UInt8} {front back : Bytes} (notUtf8 : 0xf4 < d)
    (noLine : ∀ rest, c = 13 → front ++ d :: back ≠ 10 :: rest) :
    column lp (c :: front) = column (advance lp c ((front ++ d :: back).headD 0)) front := by
  have behind : escapes c ((front ++ d :: back).headD 0) = escapes c (front.headD 0) := by
    cases front with
    | nil =>
      have other : d ≠ 13 := by rintro rfl; exact absurd notUtf8 (by decide)
      simp [escapes, other]
    | cons e front => rfl
  have inLine : ∀ rest, c = 13 → front = 10 :: rest → False := fun rest isCR same =>
    noLine (rest ++ d :: back) isCR (by rw [same, cons_append])
  rw [column.eq_3 _ _ _ inLine, advance, advance, behind]

private theorem roomy_line {lp : Nat} {rest : Bytes} :
    Roomy lp (13 :: 10 :: rest) ↔ Roomy 0 rest := by
  constructor
  · rintro roomy front c back rfl notUtf8
    exact roomy (13 :: 10 :: front) c back rfl notUtf8
  · intro roomy front c back whole notUtf8
    rcases front with _ | ⟨a, _ | ⟨b, front⟩⟩
    · obtain ⟨rfl, -⟩ := cons.inj whole
      exact absurd notUtf8 (by decide)
    · obtain ⟨-, whole⟩ := cons.inj whole
      obtain ⟨rfl, -⟩ := cons.inj whole
      exact absurd notUtf8 (by decide)
    · obtain ⟨rfl, rfl, rfl⟩ : a = 13 ∧ b = 10 ∧ rest = front ++ c :: back := by simp_all
      exact roomy front c back rfl notUtf8

private theorem roomy_cons {lp : Nat} {c : UInt8} {rest : Bytes}
    (noLine : ∀ back, c = 13 → rest ≠ 10 :: back) :
    Roomy lp (c :: rest) ↔ (0xf4 < c → lp ≤ 72 ∨ lp = 73 ∧ Ended rest) ∧
      Roomy (advance lp c (rest.headD 0)) rest := by
  constructor
  · intro roomy
    refine ⟨roomy [] c rest rfl, ?_⟩
    rintro front d back rfl notUtf8
    rw [← column_cons notUtf8 noLine]
    exact roomy (c :: front) d back rfl notUtf8
  · rintro ⟨first, others⟩ front d back whole notUtf8
    cases front with
    | nil =>
      obtain ⟨rfl, rfl⟩ := cons.inj whole
      exact first notUtf8
    | cons e front =>
      obtain ⟨rfl, rfl⟩ := cons.inj whole
      rw [column_cons notUtf8 noLine]
      exact others front d back rfl notUtf8

private theorem ended_cons {c : UInt8} {rest : Bytes}
    (noLine : ∀ back, c = 13 → rest ≠ 10 :: back) :
    ¬ Ended (c :: rest) := by
  rintro (none | ⟨back, same⟩)
  · cases none
  · obtain ⟨isCR, behind⟩ := cons.inj same
    exact noLine back isCR.symm behind.symm

/-- One byte that does not end a line. -/
theorem fit_encodeLoop_cons {lp : Nat} {c : UInt8} {rest : Bytes}
    (noLine : ∀ back, c = 13 → rest ≠ 10 :: back) :
    Fit lp (encodeLoop lp (c :: rest)) ↔ lp ≤ maxl ∧
      Fit (advance lp c (rest.headD 0)) (encodeLoop (advance lp c (rest.headD 0)) rest) := by
  have columns : maxl = 75 := rfl
  have broken {text : Bytes} : Fit lp ([61, 13, 10] ++ text) ↔ lp ≤ maxl ∧ Fit 0 text :=
    (fit_cons (by decide)).trans (fit_break.trans (and_congr_left' (Nat.add_le_add_iff_right)))
  have unbroken {n : Nat} {text : Bytes} (further : lp < n) : Fit n text ↔ lp ≤ maxl ∧ Fit n text :=
    (and_iff_right_of_imp fun fit => by have := fit.le; omega).symm
  rw [encodeLoop.eq_3 _ _ _ noLine, advance]
  split
  next =>
    split
    next => rw [broken, fit_triple]
    next => rw [fit_triple]; exact unbroken (by omega)
  next plain =>
    have notCR := (plain_of_not_escapes plain).2.2
    split
    next => rw [broken, fit_cons notCR]
    next => rw [fit_cons notCR]; exact unbroken (by omega)

private theorem fit_encodeLoop {lp : Nat} {str : Bytes} (room : lp ≤ 76) :
    Fit lp (encodeLoop lp str) ↔ (lp = 76 → Ended str) ∧ Roomy lp str := by
  have columns : maxl = 75 := rfl
  induction str using lines.induct generalizing lp with
  | case1 =>
    have roomy : Roomy lp [] := fun front c back whole _ => by simp at whole
    simp [encodeLoop, fit_nil, room, roomy, Ended]
  | case2 rest ih =>
    have behind : Fit 0 (encodeLoop 0 rest) ↔ (0 = 76 → Ended rest) ∧ Roomy 0 rest :=
      ih (Nat.zero_le _)
    rw [encodeLoop, fit_break, behind, roomy_line]
    simp [room, Ended]
  | case3 c rest noLine ih =>
    rw [fit_encodeLoop_cons noLine, roomy_cons noLine]
    have inside : (lp = 76 → Ended (c :: rest)) ↔ lp ≤ maxl := by
      have notEnded := ended_cons noLine
      grind
    rw [inside]
    refine and_congr_right fun _ => ?_
    have behind (n : Nat) (small : n ≤ 76) :
        Fit n (encodeLoop n rest) ↔ (n = 76 → Ended rest) ∧ Roomy n rest := ih small
    by_cases inUtf8 : c ≤ 0xf4
    · have small := @advance_le lp c (rest.headD 0) inUtf8
      rw [behind _ (by omega)]
      have notHigh : ¬ 0xf4 < c := UInt8.not_lt.mpr inUtf8
      grind
    · have notUtf8 : 0xf4 < c := UInt8.not_le.mp inUtf8
      rw [advance_eq _ notUtf8]
      by_cases within : lp + 3 ≤ 76
      · rw [behind _ within]
        grind
      · constructor
        · intro fit
          exact absurd fit.le within
        · rintro ⟨first, -⟩
          have := first notUtf8
          omega

/-- No line is longer than 76 characters if and only if no byte above `0xf4` has passed column 72
of its line, or 73 if the line ends behind it. -/
theorem length_line_le_iff (str : Bytes) :
    (∀ line ∈ lines (quotPrintEncode str), line.length ≤ 76) ↔
      ∀ front c back, str = front ++ c :: back → 0xf4 < c →
        column 0 front ≤ 72 ∨ column 0 front = 73 ∧ (back = [] ∨ [13, 10] <+: back) := by
  have fit := @fit_encodeLoop 0 str (Nat.zero_le 76)
  rw [and_iff_right (by simp)] at fit
  refine Iff.trans ?_ fit
  obtain ⟨first, others, shape⟩ := exists_cons_of_ne_nil (lines_ne_nil (quotPrintEncode str))
  rw [Fit, ← quotPrintEncode, shape]
  simp

/-- There is no break in a run of bytes that are not in UTF-8. -/
theorem long_line :
    lines (quotPrintEncode (replicate 26 0xff)) = [quotPrintEncode (replicate 26 0xff)] ∧
      (quotPrintEncode (replicate 26 0xff)).length = 78 := by
  decide

end Jonj.QuotPrint
