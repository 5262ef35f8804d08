import Jonj.Lib.QuotedText
import Jonj.Mysqlnd.Charset

/-!
# Escaped strings are literals

The text that `mysqlnd_cset_escape_slashes` writes, read by a lexer of the character set. Where the
lexer can take each round of the loop by itself, the literal is the string. This is so if no
character contains a backslash or a quote, and if stray lead bytes are escaped.
-/
namespace Jonj.Mysqlnd

open List

open QuotedText (Ranges charLen lex before backslash quote Harmless)

/-! ### The character sets -/

def utf8mb3Chars : List (List Ranges) :=
  [[[(0xC2, 0xDF)], [(0x80, 0xBF)]],
   [[(0xE0, 0xE0)], [(0xA0, 0xBF)], [(0x80, 0xBF)]],
   [[(0xE1, 0xEF)], [(0x80, 0xBF)], [(0x80, 0xBF)]]]

def eucJpChars : List (List Ranges) :=
  [[[(0xA1, 0xFE)], [(0xA1, 0xFE)]], [[(0x8E, 0x8E)], [(0xA1, 0xDF)]],
   [[(0x8F, 0x8F)], [(0xA1, 0xFE)], [(0xA1, 0xFE)]]]

/-- The multibyte characters of each character set. -/
def Client.chars : Client → List (List Ranges)
  | utf8 | utf8GeneralCs => utf8mb3Chars
  | utf8mb4 => utf8mb3Chars ++
      [[[(0xF0, 0xF0)], [(0x90, 0xBF)], [(0x80, 0xBF)], [(0x80, 0xBF)]],
       [[(0xF1, 0xF3)], [(0x80, 0xBF)], [(0x80, 0xBF)], [(0x80, 0xBF)]],
       [[(0xF4, 0xF4)], [(0x80, 0x8F)], [(0x80, 0xBF)], [(0x80, 0xBF)]]]
  | gbk => [[[(0x81, 0xFE)], [(0x40, 0x7E), (0x80, 0xFE)]]]
  | sjis | cp932 => [[[(0x81, 0x9F), (0xE0, 0xFC)], [(0x40, 0x7E), (0x80, 0xFC)]]]
  | gb2312 => [[[(0xA1, 0xF7)], [(0xA1, 0xFE)]]]
  | euckr => [[[(0xA1, 0xFE)], [(0xA1, 0xFE)]]]
  | ujis | eucjpms => eucJpChars
  | big5 => [[[(0xA1, 0xF9)], [(0x40, 0x7E), (0xA1, 0xFE)]]]
  | gb18030 => [[[(0x81, 0xFE)], [(0x40, 0x7E), (0x80, 0xFE)]],
      [[(0x81, 0xFE)], [(0x30, 0x39)], [(0x81, 0xFE)], [(0x30, 0x39)]]]

/-- What a byte after a backslash stands for. -/
def unescape (c : UInt8) : UInt8 :=
  if c = 48 then 0 else if c = 110 then 10 else if c = 114 then 13 else if c = 90 then 26 else c

theorem unescape_switch {c : UInt8} (special : switch c ≠ 0) : unescape (switch c) = c := by
  grind [switch, unescape]

theorem ne_of_switch {c : UInt8} (plain : switch c = 0) : c ≠ backslash ∧ c ≠ quote := by
  grind [switch, backslash, quote]

private theorem unescape_of_high {c : UInt8} (high : 128 ≤ c) : unescape c = c := by
  grind [unescape]

/-! ### Rounds that the lexer follows -/

/-- The lexer takes what one round writes, whatever comes next. -/
structure Follows (cset : Charset) (signed : Bool) (chars : List (List Ranges)) : Prop where
  multibyte : cset.charMaxlen > 1
  short : ∀ start left, 0 < left → cset.mbValid start left ≤ 2 * left
  lead : ∀ c, cset.mbCharlen (ofChar signed c) > 1 → 128 ≤ c
  valid : ∀ (start : Bytes) left rest, 0 < left →
    lex chars unescape (start.take (cset.mbValid start left) ++ rest) =
    before (start.take (cset.mbValid start left)) (lex chars unescape rest)
  single : ∀ start left rest, 0 < left → cset.mbValid start left = 0 →
    ¬ cset.mbCharlen (ofChar signed (at_ start 0)) > 1 → switch (at_ start 0) = 0 →
    lex chars unescape (at_ start 0 :: rest) = before [at_ start 0] (lex chars unescape rest)
  escape : ∀ c rest, lex chars unescape (backslash :: c :: rest) = before [unescape c]
    (lex chars unescape rest)
  quote : ∀ rest, lex chars unescape (quote :: rest) = some ([], rest)

theorem round_snd (cset : Charset) (signed : Bool) (start : Bytes) (left : Nat)
    (multibyte : cset.charMaxlen > 1) :
    (round cset signed start left).2 = max 1 (cset.mbValid start left) := by
  unfold round validLen
  dsimp only
  split_ifs
  all_goals omega

variable {start : Bytes} {left : Nat}

section
variable {cset : Charset} {signed : Bool} {chars : List (List Ranges)}

theorem Follows.lex_round (follows : Follows cset signed chars) (more : 0 < left)
    (nonempty : start ≠ []) :
    (∀ rest, lex chars unescape ((round cset signed start left).1 ++ rest) =
      before (start.take (round cset signed start left).2) (lex chars unescape rest)) ∧
    (round cset signed start left).1.length ≤ 2 * min (round cset signed start left).2 left := by
  have isLen : validLen cset start left = cset.mbValid start left := if_pos follows.multibyte
  have first : start.take 1 = [at_ start 0] := by
    cases start with
    | nil => exact absurd rfl nonempty
    | cons c start => rfl
  unfold round
  rw [isLen]
  dsimp only
  split
  next isChar =>
    refine ⟨fun rest => follows.valid start left rest more, ?_⟩
    have short := follows.short start left more
    rw [length_take]
    omega
  next notChar =>
  have stray : cset.mbValid start left = 0 := not_not.mp notChar
  split
  next special =>
    refine ⟨?_, by simp; omega⟩
    intro rest
    have back : unescape (esc cset signed (at_ start 0)) = at_ start 0 := by
      unfold esc at special ⊢
      split_ifs at special ⊢ with isLead
      · exact unescape_of_high (follows.lead _ isLead.2)
      · exact unescape_switch special
    rw [first]
    exact (follows.escape _ rest).trans (by rw [back])
  next plain =>
    refine ⟨?_, by simp; omega⟩
    intro rest
    rw [first]
    unfold esc at plain
    split_ifs at plain with isLead
    · have high := follows.lead _ isLead.2
      rw [not_not.mp plain] at high
      exact absurd high (by decide)
    · exact follows.single start left rest more stray (fun lead => isLead ⟨follows.multibyte, lead⟩)
        (not_not.mp plain)

/-- The loop writes a literal for the content, and fits in twice the length. -/
def Writes (cset : Charset) (signed : Bool) (chars : List (List Ranges)) (room : Nat)
    (start : Bytes) (left : Nat) (content : Bytes) : Prop :=
  ∃ out, escapeLoop cset signed room start left = some out ∧ out.length ≤ 2 * left ∧
    ∀ tail, lex chars unescape (out ++ quote :: tail) = some (content, tail)

section

variable (follows : Follows cset signed chars)

include follows

theorem Writes.nil (room : Nat) (start : Bytes) : Writes cset signed chars room start 0 [] :=
  ⟨[], by rw [escapeLoop, if_pos rfl], Nat.le_refl 0, follows.quote⟩

theorem Writes.step {room : Nat} {start : Bytes} {left k : Nat} {content : Bytes}
    (more : 0 < left) (nonempty : start ≠ []) (enough : 2 * left ≤ room)
    (isK : (round cset signed start left).2 = k)
    (rest : ∀ room, 2 * (left - k) ≤ room → Writes cset signed chars room (start.drop k)
      (left - k) content) :
    Writes cset signed chars room start left (start.take k ++ content) := by
  subst isK
  obtain ⟨text, size⟩ := follows.lex_round more nonempty
  have fits : ¬ (round cset signed start left).1.length > room := by omega
  obtain ⟨out, isOut, length, lexed⟩ :=
    rest (room - (round cset signed start left).1.length) (by omega)
  refine ⟨(round cset signed start left).1 ++ out, ?_, ?_, ?_⟩
  · rw [escapeLoop, if_neg (Nat.pos_iff_ne_zero.mp more)]
    simp [fits, isOut]
  · rw [length_append]
    omega
  · intro tail
    rw [append_assoc, text, lexed]
    rfl

theorem Writes.inside {room : Nat} {s after : Bytes} {k : Nat} {content : Bytes}
    (nonempty : s ≠ []) (enough : 2 * s.length ≤ room)
    (isK : (round cset signed (s ++ after) s.length).2 = k)
    (ends : k ≤ s.length) (rest : ∀ room, 2 * (s.drop k).length ≤ room →
      Writes cset signed chars room (s.drop k ++ after) (s.drop k).length content) :
    Writes cset signed chars room (s ++ after) s.length (s.take k ++ content) := by
  have whole := @Writes.step cset signed chars follows room (s ++ after) s.length k content
    (length_pos_iff.mpr nonempty) (by simp [nonempty]) enough isK
  rw [take_append_of_le_length ends, drop_append_of_le_length ends, ← length_drop] at whole
  exact whole rest

/-- A loop that never goes beyond the end writes a literal for the string. -/
theorem Follows.writes (inside : ∀ start left, 0 < left → cset.mbValid start left ≤ left)
    (s after : Bytes) {room : Nat} (enough : 2 * s.length ≤ room) :
    Writes cset signed chars room (s ++ after) s.length s := by
  induction isLen : s.length using Nat.strong_induction_on generalizing s room with
  | h n ih =>
  subst isLen
  by_cases empty : s = []
  · subst empty
    exact Writes.nil follows room _
  have more : 0 < s.length := length_pos_iff.mpr empty
  have pos := round_pos cset signed (s ++ after) s.length
  have ends : (round cset signed (s ++ after) s.length).2 ≤ s.length := by
    rw [round_snd _ _ _ _ follows.multibyte]
    exact max_le more (inside _ _ more)
  have whole := Writes.inside follows empty enough rfl ends fun room enough =>
    ih _ (by rw [length_drop]; omega) _ enough rfl
  rwa [take_append_drop] at whole

end

end

/-! ### Characters without a backslash or a quote -/

variable {b : UInt8}

private theorem mem_take_at {k : Nat} (member : b ∈ start.take k) : ∃ i < k, b = at_ start i := by
  obtain ⟨i, below, isByte⟩ := mem_take_iff_getElem.mp member
  refine ⟨i, by omega, ?_⟩
  rw [at_, ← isByte, getD_eq_getElem?_getD, getElem?_eq_getElem (by omega), Option.getD_some]

/-- A character that was found lies in the given bytes and has no ASCII byte. -/
def High (start : Bytes) (left len : Nat) : Prop := len ≤ left ∧ ∀ i < len, 128 ≤ at_ start i

variable {signed : Bool}

theorem multibyte_charset (signed : Bool) (cs : Client) : (cs.charset signed).charMaxlen > 1 := by
  cases cs <;> simp [Client.charset]

private theorem lead_client (signed : Bool) (cs : Client) :
    ∀ c, (cs.charset signed).mbCharlen (ofChar signed c) > 1 → 128 ≤ c := by
  cases signed <;> cases cs <;> decide +kernel

/-- Characters of the code that have no byte below `0x80`. -/
theorem Follows.of_harmless {cs : Client} (harmless : Harmless cs.chars)

    (high : ∀ start left, 0 < left → High start (2 * left)
      ((cs.charset signed).mbValid start left)) :
    Follows (cs.charset signed) signed cs.chars := by
  have bytewise : ∀ text, lex cs.chars unescape text = lex [] unescape text :=
    QuotedText.lex_eq_lex_nil harmless
  constructor
  · exact multibyte_charset signed cs
  · exact fun start left more => (high start left more).1
  · exact lead_client signed cs
  · intro start left rest more
    rw [bytewise, bytewise]
    apply QuotedText.lex_nil_append
    intro b member
    obtain ⟨i, below, rfl⟩ := mem_take_at member
    have isHigh := (high start left more).2 i below
    constructor
    · intro isBackslash
      rw [isBackslash] at isHigh
      exact absurd isHigh (by decide)
    · intro isQuote
      rw [isQuote] at isHigh
      exact absurd isHigh (by decide)
  · intro start left rest _ _ _ plain
    rw [bytewise, bytewise]
    exact QuotedText.lex_plain (QuotedText.charLen_nil _)
      (ne_of_switch plain).1 (ne_of_switch plain).2
  · intro c rest
    rw [bytewise, bytewise]
    exact QuotedText.lex_escape (QuotedText.charLen_nil _)
  · intro rest
    rw [bytewise]
    exact QuotedText.lex_quote (QuotedText.charLen_nil _)

private theorem isContinuation_high (continuation : isContinuation b = true) : 128 ≤ b := by
  revert b
  decide +kernel

theorem inRange_high {lo hi : UInt8} (high : 128 ≤ lo.toNat) (isIn : inRange lo hi b = true) :
    128 ≤ b := by
  simp only [inRange, Bool.and_eq_true, decide_eq_true_eq, UInt8.le_iff_toNat_le] at isIn
  exact UInt8.le_iff_toNat_le.mpr (high.trans isIn.1)

theorem High.zero (start : Bytes) (left : Nat) : High start left 0 := ⟨Nat.zero_le _, by simp⟩

theorem High.mono {more len : Nat} (high : High start left len) (enough : left ≤ more) :
    High start more len :=
  ⟨high.1.trans enough, high.2⟩

theorem High.succ {len : Nat} (high : High start left len) (more : len < left)
    (next : 128 ≤ at_ start len) :
    High start left (len + 1) := by
  refine ⟨more, fun i below => ?_⟩
  rcases Nat.lt_succ_iff_lt_or_eq.mp below with lower | rfl
  · exact high.2 i lower
  · exact next

theorem High.two (more : 2 ≤ left) (first : 128 ≤ at_ start 0) (second : 128 ≤ at_ start 1) :
    High start left 2 :=
  ((High.zero start left).succ (by omega) first).succ more second

theorem high_checkMbUtf8Sequence (multibyte : 1 < checkMbUtf8Sequence start left) :
    High start left (checkMbUtf8Sequence start left) := by
  revert multibyte
  unfold checkMbUtf8Sequence
  by_cases ascii : at_ start 0 < 0x80
  · simp only [ascii, if_true]
    split_ifs <;> simp
  have first : 128 ≤ at_ start 0 := UInt8.not_lt.mp ascii
  simp only [ascii, if_false]
  split_ifs with empty invalid two short wrong three short wrong four short wrong
  all_goals intro multibyte
  any_goals omega
  all_goals simp only [Bool.not_eq_true, Bool.not_eq_false', Bool.and_eq_true] at wrong
  · exact High.two (by omega) first (isContinuation_high wrong)
  · exact (High.two (by omega) first (isContinuation_high wrong.1.1)).succ (by omega)
      (isContinuation_high wrong.1.2)
  · obtain ⟨⟨⟨⟨second, third⟩, fourth⟩, -⟩, -⟩ := wrong
    exact ((High.two (by omega) first (isContinuation_high second)).succ (by omega)
      (isContinuation_high third)).succ
      (by omega) (isContinuation_high fourth)

/-- The older function knows the shorter characters only. -/
theorem checkMbUtf8mb3Sequence_eq (start : Bytes) (left : Nat) :
    checkMbUtf8mb3Sequence start left = checkMbUtf8Sequence start left ∨
      checkMbUtf8mb3Sequence start left = 0 := by
  unfold checkMbUtf8mb3Sequence checkMbUtf8Sequence
  by_cases three : at_ start 0 < 0xF0
  · left
    simp only [if_pos three]
  right
  have large : ∀ b : UInt8, ¬ b < 0xF0 → ¬ b < 0x80 ∧ ¬ b < 0xC2 ∧ ¬ b < 0xE0 := by grind
  obtain ⟨notOne, invalid, notTwo⟩ := large _ three
  rw [if_neg notOne, if_neg invalid, if_neg notTwo, if_neg three, ite_self]

theorem high_checkMbUtf8Valid (start : Bytes) (left : Nat) :
    High start left (checkMbUtf8Valid start left) := by
  rw [checkMbUtf8Valid]
  split
  next multibyte => exact high_checkMbUtf8Sequence multibyte
  · exact High.zero start left

theorem high_checkMbUtf8mb3Valid (start : Bytes) (left : Nat) :
    High start left (checkMbUtf8mb3Valid start left) := by
  rw [checkMbUtf8mb3Valid]
  split
  next multibyte =>
    rcases checkMbUtf8mb3Sequence_eq start left with same | none
    · rw [same] at multibyte ⊢
      exact high_checkMbUtf8Sequence multibyte
    · rw [none] at multibyte
      exact absurd multibyte (by decide)
  · exact High.zero start left

variable {head : UInt8 → Bool}

private theorem high_checkTwo {tail : UInt8 → Bool} (headHigh : ∀ c, head c = true → 128 ≤ c)
    (tailHigh : ∀ c, tail c = true → 128 ≤ c) (start : Bytes) (left : Nat) :
    High start left (checkTwo head tail start left) := by
  rw [checkTwo]
  split
  next isChar =>
    simp only [Bool.and_eq_true, decide_eq_true_eq] at isChar
    exact High.two (by omega) (headHigh _ isChar.1.1) (tailHigh _ isChar.2)
  · exact High.zero start left

theorem high_checkMbEuckr (start : Bytes) (left : Nat) :
    High start left (checkMbEuckr start left) := by
  rw [checkMbEuckr]
  split_ifs with short ascii second
  · exact High.zero start left
  · exact High.zero start left
  · exact High.two (by omega) (UInt8.not_lt.mp ascii) (inRange_high (by decide) second)
  · exact High.zero start left

theorem high_checkMbEucjpms (start : Bytes) (left : Nat) :
    High start left (checkMbEucjpms start left) := by
  rw [checkMbEucjpms]
  split_ifs with ascii two kata three
  · exact High.zero start left
  · simp only [Bool.and_eq_true, decide_eq_true_eq] at two
    exact High.two (by omega) (UInt8.not_lt.mp ascii) (inRange_high (by decide) two.2)
  · simp only [Bool.and_eq_true, decide_eq_true_eq] at kata
    exact High.two (by omega) (UInt8.not_lt.mp ascii) (inRange_high (by decide) kata.2)
  · simp only [Bool.and_eq_true, decide_eq_true_eq] at three
    exact High.two (by omega) (UInt8.not_lt.mp ascii) (inRange_high (by decide) three.1.2)
  · exact High.zero start left

/-- One byte behind the end may be taken. -/
theorem high_checkMbUjis (start : Bytes) (more : 0 < left) :
    High start (left + 1) (checkMbUjis start left) := by
  rw [checkMbUjis]
  split_ifs with ascii two kata three
  · exact High.zero start (left + 1)
  · simp only [Bool.and_eq_true] at two
    exact High.two (by omega) (UInt8.not_lt.mp ascii) (inRange_high (by decide) two.2)
  · simp only [Bool.and_eq_true] at kata
    exact High.two (by omega) (UInt8.not_lt.mp ascii) (inRange_high (by decide) kata.2)
  · simp only [Bool.and_eq_true, decide_eq_true_eq] at three
    exact (High.two (by omega) (UInt8.not_lt.mp ascii)
      (inRange_high (by decide) three.1.2)).succ (by omega)
      (inRange_high (by decide) three.2)
  · exact High.zero start (left + 1)

/-! ### Two bytes, the second of them perhaps a backslash -/

/-- The lead bytes of the code are those of the character set, and none is left as it is. -/
theorem Follows.of_two {tail : UInt8 → Bool} {h t : Ranges} (isHead : ∀ c, h.has c = head c)
    (isTail : ∀ c, t.has c = tail c) (high : ∀ c, head c = true → 128 ≤ c)
    (notNul : tail 0 = false) :
    Follows ⟨2, mbcharlenTwo head, checkTwo head tail⟩ signed [[h, t]] := by
  have notLead : ∀ c rest, head c = false → charLen [[h, t]] (c :: rest) = 0 := by
    intro c rest none
    simp [charLen, QuotedText.fits, isHead, none]
  have low : ∀ c, c.toNat < 128 → head c = false := by
    intro c small
    by_contra isLead
    have large := UInt8.le_iff_toNat_le.mp (high c (by simpa using isLead))
    exact absurd small (Nat.not_lt.mpr large)
  constructor
  · exact Nat.one_lt_two
  · intro start left more
    dsimp only
    rw [checkTwo]
    split <;> omega
  · intro c lead
    simp only [mbcharlenTwo, toUInt8_ofChar] at lead
    split at lead
    next isLead => exact high c isLead
    · omega
  · intro start left rest more
    dsimp only
    rw [checkTwo]
    split
    next isChar =>
      simp only [Bool.and_eq_true, decide_eq_true_eq] at isChar
      obtain ⟨⟨first, -⟩, second⟩ := isChar
      rcases start with _ | ⟨c, _ | ⟨d, start⟩⟩
      · rw [at_, getD_nil, low 0 (by decide)] at first
        cases first
      · rw [at_, getD_cons_succ, getD_nil, notNul] at second
        cases second
      have isChar : charLen [[h, t]] (c :: d :: rest) = 2 := by
        simp only [at_, getD_cons_zero, getD_cons_succ] at first second
        simp [charLen, QuotedText.fits, isHead, isTail, first, second]
      have pos : 0 < charLen [[h, t]] (c :: d :: rest) := by omega
      refine (QuotedText.lex_char pos (by simp)).trans ?_
      rw [isChar]
      rfl
    · rw [take_zero, nil_append, QuotedText.before_nil]
  · intro start left rest more _ notLong plain
    apply QuotedText.lex_plain _ (ne_of_switch plain).1 (ne_of_switch plain).2
    apply notLead
    simp only [mbcharlenTwo, toUInt8_ofChar] at notLong
    split at notLong
    · omega
    next isNot => simpa using isNot
  · intro c rest
    exact QuotedText.lex_escape (notLead _ _ (low _ (by decide)))
  · intro rest
    exact QuotedText.lex_quote (notLead _ _ (low _ (by decide)))

/-! ### The end of the string -/

/-- The last byte, if it is alone when the string is divided into characters from the left. -/
def lastAlone (chars : List (List Ranges)) (s : Bytes) : Option UInt8 :=
  if s.length ≤ 1 then s.head?
  else lastAlone chars (s.drop (max 1 (charLen chars s)))
termination_by s.length
decreasing_by
  rw [length_drop]
  omega

/-- The byte behind the string makes a character together with the last byte. -/
def Straddles (chars : List (List Ranges)) (s after : Bytes) : Prop :=
  ∃ b ∈ lastAlone chars s, charLen chars (b :: after.take 1) ≠ 0

theorem has_singleton (lo hi b : UInt8) : Ranges.has [(lo, hi)] b = inRange lo hi b := by
  simp [Ranges.has, inRange]

private theorem inRange_self (lo b : UInt8) : inRange lo lo b = (b == lo) := by
  rw [Bool.eq_iff_iff]
  simp only [inRange, Bool.and_eq_true, decide_eq_true_eq, beq_iff_eq]
  constructor
  · exact fun both => (UInt8.le_antisymm both.1 both.2).symm
  · rintro rfl
    exact ⟨UInt8.le_refl b, UInt8.le_refl b⟩

theorem charLen_eucJp (b c : UInt8) (rest : Bytes) : charLen eucJpChars (b :: c :: rest) =
      if validUjis b && validUjis c then 2 else if b == 0x8E && validUjisKata c then 2
      else if b == 0x8F && (validUjis c && rest.head?.any validUjis) then 3 else 0 := by
  have third : QuotedText.fits [[(0xA1, 0xFE)]] rest = rest.head?.any validUjis := by
    cases rest <;> simp [QuotedText.fits, has_singleton, validUjis]
  simp only [eucJpChars, QuotedText.charLen_cons, QuotedText.charLen_nil, QuotedText.fits.eq_3,
    QuotedText.fits.eq_1,
    has_singleton, inRange_self, Bool.and_true, third, validUjis, validUjisKata,
      length_cons, length_nil]
  rfl

/-- The test for ASCII is implied by the others. -/
theorem checkMbUjis_cons (b c : UInt8) (rest : Bytes) (left : Nat) :
    checkMbUjis (b :: c :: rest) left =
      if validUjis b && validUjis c then 2 else if b == 0x8E && validUjisKata c then 2
      else if b == 0x8F && decide (left > 2) && validUjis c && validUjis (at_ rest 0) then 3
        else 0 := by
  have ascii : b < 0x80 → validUjis b = false ∧ (b == 0x8E) = false ∧ (b == 0x8F) = false := by
    grind [validUjis, inRange]
  change (if b < 0x80 then 0 else _) = _
  split
  next small => simp [ascii small]
  · rfl

private theorem checkMbUjis_eq (b c : UInt8) (rest after : Bytes) :
    checkMbUjis (b :: c :: (rest ++ after)) (rest.length + 2) =
      charLen eucJpChars (b :: c :: rest) := by
  rw [checkMbUjis_cons, charLen_eucJp]
  cases rest <;> simp [at_, Bool.and_assoc]

/-- At the last byte it takes the byte behind the string. -/
theorem checkMbUjis_one (b : UInt8) (after : Bytes) :
    checkMbUjis (b :: after) 1 = charLen eucJpChars (b :: after.take 1) := by
  cases after with
  | nil =>
    have unset : checkMbUjis [b] 1 = checkMbUjis [b, 0] 1 := rfl
    rw [unset, checkMbUjis_cons]
    have none : ∀ c : UInt8, charLen eucJpChars [c] = 0 := by
      simp [charLen, eucJpChars, QuotedText.fits]
    simp [none, validUjis, validUjisKata, inRange]
  | cons c after =>
    rw [checkMbUjis_cons, take_succ_cons, charLen_eucJp]
    simp

/-! ### Each character set -/

theorem has_pair (lo hi lo' hi' b : UInt8) :
    Ranges.has [(lo, hi), (lo', hi')] b = (inRange lo hi b || inRange lo' hi' b) := by
  simp [Ranges.has, inRange]

theorem follows_client (signed : Bool) {cs : Client} (notBig5 : cs ≠ .big5)
    (notGb18030 : cs ≠ .gb18030) :
    Follows (cs.charset signed) signed cs.chars := by
  cases cs with
  | utf8 =>
    exact .of_harmless (by decide) fun start left _ =>
      (high_checkMbUtf8mb3Valid start left).mono (by omega)
  | utf8GeneralCs =>
    exact .of_harmless (by decide) fun start left _ =>
      (high_checkMbUtf8Valid start left).mono (by omega)
  | utf8mb4 =>
    exact .of_harmless (by decide) fun start left _ =>
      (high_checkMbUtf8Valid start left).mono (by omega)
  | gbk =>
    exact .of_two (has_singleton _ _) (has_pair _ _ _ _)
      (fun _ => inRange_high (by decide)) (by decide)
  | sjis =>
    exact .of_two (has_pair _ _ _ _) (has_pair _ _ _ _)
      (by grind [validSjisHead, inRange]) (by decide)
  | cp932 =>
    exact .of_two (has_pair _ _ _ _) (has_pair _ _ _ _)
      (by grind [validCp932head, inRange]) (by decide)
  | gb2312 =>
    exact .of_harmless (by decide) fun start left _ =>
      (high_checkTwo (fun _ => inRange_high (by decide))
        (fun _ => inRange_high (by decide)) start left).mono (by omega)
  | euckr =>
    exact .of_harmless (by decide) fun start left _ =>
      (high_checkMbEuckr start left).mono (by omega)
  | ujis =>
    exact .of_harmless (by decide) fun start left more =>
      (high_checkMbUjis start more).mono (by omega)
  | eucjpms =>
    exact .of_harmless (by decide) fun start left _ =>
      (high_checkMbEucjpms start left).mono (by omega)
  | big5 => exact absurd rfl notBig5
  | gb18030 => exact absurd rfl notGb18030

private theorem checkTwo_le (head tail : UInt8 → Bool) (start : Bytes) (left : Nat) :
    checkTwo head tail start left ≤ left := by
  rw [checkTwo]
  split
  next isChar =>
    simp only [Bool.and_eq_true, decide_eq_true_eq] at isChar
    exact isChar.1.2
  · exact Nat.zero_le left

/-- Only `check_mb_ujis` goes beyond the end of the string. -/
theorem mbValid_le (signed : Bool) {cs : Client} (notUjis : cs ≠ .ujis) (start : Bytes)
    (left : Nat) :
    (cs.charset signed).mbValid start left ≤ left := by
  cases cs with
  | utf8 => exact (high_checkMbUtf8mb3Valid start left).1
  | utf8GeneralCs => exact (high_checkMbUtf8Valid start left).1
  | utf8mb4 => exact (high_checkMbUtf8Valid start left).1
  | gbk => exact checkTwo_le _ _ start left
  | sjis => exact checkTwo_le _ _ start left
  | cp932 => exact checkTwo_le _ _ start left
  | gb2312 => exact checkTwo_le _ _ start left
  | euckr => exact (high_checkMbEuckr start left).1
  | ujis => exact absurd rfl notUjis
  | eucjpms => exact (high_checkMbEucjpms start left).1
  | big5 =>
    change checkMbBig5 signed start left ≤ left
    rw [checkMbBig5]
    split_ifs with two
    · simp only [Bool.and_eq_true, decide_eq_true_eq] at two
      omega
    · exact Nat.zero_le left
  | gb18030 =>
    change ismbcharGb18030 start left ≤ left
    rw [ismbcharGb18030]
    split_ifs with short two four
    all_goals simp only [Bool.and_eq_true, Bool.or_eq_true, decide_eq_true_eq] at *
    all_goals omega

/-! ### The byte behind a string in ujis -/

/-- What the loop takes: the string, and the byte behind it if the last character straddles. -/
def taken (chars : List (List Ranges)) (s after : Bytes) : Bytes :=
  match lastAlone chars s with
  | some b => if charLen chars (b :: after.take 1) = 0 then s else s ++ after.take 1
  | none => s

private theorem taken_drop {chars : List (List Ranges)} {s after : Bytes} {k : Nat}
    (same : lastAlone chars s = lastAlone chars (s.drop k)) :
    taken chars s after = s.take k ++ taken chars (s.drop k) after := by
  rw [taken, taken, ← same]
  split
  · split
    · exact (take_append_drop k s).symm
    · rw [← append_assoc, take_append_drop]
  · exact (take_append_drop k s).symm

private theorem ujis_writes (signed : Bool) (s after : Bytes) {room : Nat}
    (enough : 2 * s.length ≤ room) :
    Writes (Client.ujis.charset signed) signed eucJpChars room (s ++ after) s.length
      (taken eucJpChars s after) := by
  have follows : Follows (Client.ujis.charset signed) signed eucJpChars :=
    @follows_client signed .ujis (by decide) (by decide)
  have multibyte := multibyte_charset signed .ujis
  induction isLen : s.length using Nat.strong_induction_on generalizing s room with
  | h n ih =>
  subst isLen
  rcases s with _ | ⟨b, _ | ⟨c, rest⟩⟩
  · have none : taken eucJpChars [] after = [] := by
      rw [taken, lastAlone]
      rfl
    rw [none]
    exact Writes.nil follows room _
  · -- the check of the last byte reads the byte behind the string
    have alone : lastAlone eucJpChars [b] = some b := by
      rw [lastAlone]
      rfl
    have snd : (round (Client.ujis.charset signed) signed (b :: after) 1).2 =
        max 1 (charLen eucJpChars (b :: after.take 1)) := by
      rw [round_snd _ _ _ _ multibyte, ← checkMbUjis_one]
      rfl
    have content : taken eucJpChars [b] after =
        (b :: after).take (max 1 (charLen eucJpChars (b :: after.take 1))) ++ [] := by
      rw [taken, alone]
      dsimp only
      split
      next none => rw [none]; rfl
      next straddles =>
      cases after with
      | nil => exact absurd (by simp [charLen, eucJpChars, QuotedText.fits]) straddles
      | cons c after =>
        have two : charLen eucJpChars [b, c] = 2 := by
          have pair : charLen eucJpChars [b, c] ≠ 0 := straddles
          have short := QuotedText.charLen_le_length eucJpChars [b, c]
          rw [charLen_eucJp] at pair short ⊢
          split_ifs at pair short ⊢
          · rfl
          · rfl
          · exact absurd short (Nat.lt_irrefl 2)
          · exact absurd rfl pair
        rw [take_succ_cons, take_zero, two]
        rfl
    rw [content]
    apply Writes.step follows Nat.one_pos (by simp) enough snd
    intro room _
    have ended : 1 - max 1 (charLen eucJpChars (b :: after.take 1)) = 0 := by omega
    rw [ended]
    exact Writes.nil follows room _
  · have snd : (round (Client.ujis.charset signed) signed (b :: c :: rest ++ after)
      (b :: c :: rest).length).2 =
        max 1 (charLen eucJpChars (b :: c :: rest)) := by
      rw [round_snd _ _ _ _ multibyte, ← checkMbUjis_eq b c rest after]
      rfl
    have ends : max 1 (charLen eucJpChars (b :: c :: rest)) ≤ (b :: c :: rest).length :=
      max_le (by simp) (QuotedText.charLen_le_length _ _)
    have same : lastAlone eucJpChars (b :: c :: rest) =
        lastAlone eucJpChars ((b :: c :: rest).drop
          (max 1 (charLen eucJpChars (b :: c :: rest)))) := by
      rw [lastAlone, if_neg (by simp)]
    rw [taken_drop same]
    apply Writes.inside follows (by simp) enough snd ends
    intro room enough
    exact ih _ (by rw [length_drop]; omega) _ enough rfl

private theorem taken_eq_iff (s after : Bytes) :
    taken eucJpChars s after = s ↔ ¬ Straddles eucJpChars s after := by
  have alone : ∀ b : UInt8, charLen eucJpChars [b] = 0 := by
    simp [charLen, eucJpChars, QuotedText.fits]
  rw [taken, Straddles]
  split
  next b isLast =>
    simp only [isLast, Option.mem_some_iff, exists_eq_left', not_not]
    split
    next none => exact iff_of_true rfl none
    next straddles =>
    refine iff_of_false ?_ straddles
    intro same
    rw [append_right_eq_self.mp same] at straddles
    exact straddles (alone b)
  next isNone => simp [isNone]

/-- Between quotes, the escaped text is a literal for the string, unless a ujis character straddles
its end. -/
theorem escaped_literal_iff (signed : Bool) {cs : Client} (notBig5 : cs ≠ .big5)
    (notGb18030 : cs ≠ .gb18030) (s after : Bytes) :
    ∃ out, csetEscapeSlashes (cs.charset signed) signed s after = some out ∧
      out.length ≤ 2 * s.length ∧
      ∀ tail, lex cs.chars unescape (out ++ quote :: tail) = some (s, tail) ↔
        ¬ (cs = .ujis ∧ Straddles cs.chars s after) := by
  by_cases isUjis : cs = .ujis
  · subst isUjis
    obtain ⟨out, isOut, length, lexed⟩ := ujis_writes signed s after (Nat.le_refl _)
    refine ⟨out, isOut, length, ?_⟩
    intro tail
    change lex eucJpChars unescape _ = _ ↔ ¬ (_ ∧ Straddles eucJpChars s after)
    rw [lexed, eq_self_iff_true, true_and, ← taken_eq_iff, Option.some.injEq, Prod.mk.injEq]
    exact and_iff_left rfl
  · obtain ⟨out, isOut, length, lexed⟩ := (follows_client signed notBig5 notGb18030).writes
      (fun start left _ => mbValid_le signed isUjis start left) s after (Nat.le_refl _)
    exact ⟨out, isOut, length, fun tail => iff_of_true (lexed tail) fun both => isUjis both.1⟩

-- the byte behind a string of one lead byte would become a part of the literal
example : csetEscapeSlashes (Client.ujis.charset true) true [0xA1] [0xA1] = some [0xA1, 0xA1] := by
  decide +kernel

/-- A NUL is no part of a character. -/
theorem not_straddles_nul (s behind : Bytes) : ¬ Straddles eucJpChars s (0 :: behind) := by
  rintro ⟨b, -, straddles⟩
  rw [take_succ_cons, take_zero, charLen_eucJp] at straddles
  have noTrail : validUjis 0 = false ∧ validUjisKata 0 = false := by decide
  simp [noTrail] at straddles

/-- Between quotes, the escaped text of a string with a NUL behind it is a literal for the
string. -/
theorem escaped_literal (signed : Bool) {cs : Client} (notBig5 : cs ≠ .big5)
    (notGb18030 : cs ≠ .gb18030) (s behind : Bytes) :
    ∃ out, csetEscapeSlashes (cs.charset signed) signed s (0 :: behind) = some out ∧
      out.length ≤ 2 * s.length ∧
      ∀ tail, lex cs.chars unescape (out ++ quote :: tail) = some (s, tail) := by
  obtain ⟨out, isOut, length, lexed⟩ :=
    escaped_literal_iff signed notBig5 notGb18030 s (0 :: behind)
  refine ⟨out, isOut, length, fun tail => (lexed tail).mpr ?_⟩
  rintro ⟨rfl, straddles⟩
  exact not_straddles_nul s behind straddles

/-- A lead byte of gbk before a quote, and one of ujis at the end. -/
theorem escaped_literal_strayLead :
    (∃ out, csetEscapeSlashes (Client.gbk.charset true) true [0x81, 0x27] [0] = some out ∧
      out.length ≤ 4 ∧
      ∀ tail, lex Client.gbk.chars unescape (out ++ quote :: tail) = some ([0x81, 0x27], tail)) ∧
    ∃ out, csetEscapeSlashes (Client.ujis.charset true) true [0x27, 0xA1] [0, 0xA1] = some out ∧
      out.length ≤ 4 ∧
      ∀ tail, lex Client.ujis.chars unescape (out ++ quote :: tail) = some ([0x27, 0xA1], tail) :=
  ⟨escaped_literal true (by decide) (by decide) [0x81, 0x27] [],
    escaped_literal true (by decide) (by decide) [0x27, 0xA1] [0xA1]⟩

end Jonj.Mysqlnd
