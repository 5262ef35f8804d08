import Jonj.Mysqlnd.Literal

/-!
# Stray lead bytes in big5 and gb18030

For these two character sets no lead byte is escaped: a `char` that is negative is no lead byte of
big5, and the length of a gb18030 character cannot be told from one byte. A lead byte before an
inserted backslash makes a character with it.
-/
namespace Jonj.Mysqlnd

open List Client

open QuotedText (Ranges charLen lex before backslash quote)

/-! ### What is written -/

/-- A byte by itself, escaped if the `switch` says so. -/
def escByte (b : UInt8) : Bytes := if switch b ≠ 0 then [backslash, switch b] else [b]

/-- The text that is written if the characters have the given lengths and no lead byte is
escaped. -/
def written (len : Bytes → Nat) : Bytes → Bytes
  | [] => []
  | b :: rest =>
    if len (b :: rest) ≠ 0 then (b :: rest).take (len (b :: rest)) ++
      written len (rest.drop (len (b :: rest) - 1))
    else escByte b ++ written len rest
termination_by s => s.length
decreasing_by
  all_goals simp

variable {b : UInt8} {rest : Bytes}

section
variable {len : Bytes → Nat}

theorem written_char (isChar : len (b :: rest) ≠ 0) : written len (b :: rest) =
      (b :: rest).take (len (b :: rest)) ++ written len ((b :: rest).drop (len (b :: rest))) := by
  rw [written, if_pos isChar, QuotedText.drop_pred b isChar]

theorem written_single (single : len (b :: rest) = 0) :
    written len (b :: rest) = escByte b ++ written len rest := by
  rw [written, if_neg (not_not.mpr single)]

/-- The loop writes this text if it finds the characters in the string and no lead byte is
escaped. -/
theorem escapeLoop_eq_written {cset : Charset} {signed : Bool} (multibyte : cset.charMaxlen > 1)
    (noLead : ∀ c, ¬ cset.mbCharlen (ofChar signed c) > 1)
    (valid : ∀ s after : Bytes, s ≠ [] → cset.mbValid (s ++ after) s.length = len s)
    (inside : ∀ s, len s ≤ s.length) (s after : Bytes) {room : Nat} (enough : 2 * s.length ≤ room) :
    escapeLoop cset signed room (s ++ after) s.length = some (written len s) ∧
      (written len s).length ≤ 2 * s.length := by
  have isLen (b : UInt8) (rest : Bytes) : validLen cset (b :: rest ++ after) (b :: rest).length =
      len (b :: rest) := by
    rw [validLen, if_pos multibyte, valid _ _ (by simp)]
  fun_induction written len s generalizing room with
  | case1 =>
    rw [length_nil, escapeLoop]
    exact ⟨rfl, Nat.le_refl 0⟩
  | case2 b rest isChar ih =>
    have isRound : round cset signed (b :: rest ++ after) (b :: rest).length =
        ((b :: rest).take (len (b :: rest)), len (b :: rest)) := by
      unfold round
      rw [isLen]
      simp only [isChar, ne_eq, not_false_eq_true, if_true]
      rw [take_append_of_le_length (inside _)]
    have takes := length_take_of_le (inside (b :: rest))
    have bound := inside (b :: rest)
    rw [QuotedText.drop_pred b isChar] at ih ⊢
    rw [length_drop] at ih
    obtain ⟨out, size⟩ := @ih (room - ((b :: rest).take (len (b :: rest))).length) (by omega)
    rw [escapeLoop, if_neg (by simp), isRound]
    dsimp only
    constructor
    · rw [if_neg (by omega), drop_append_of_le_length bound, out]
      rfl
    · rw [length_append]
      omega
  | case3 b rest single ih =>
    have isEsc : esc cset signed b = switch b := if_neg fun both => noLead b both.2
    have isRound : round cset signed (b :: rest ++ after) (b :: rest).length = (escByte b, 1) := by
      unfold round
      rw [isLen]
      have first : at_ (b :: rest ++ after) 0 = b := rfl
      simp only [single, if_false, first, isEsc, escByte]
      split <;> rfl
    have short : (escByte b).length ≤ 2 := by
      rw [escByte]
      split <;> simp
    rw [length_cons] at enough ⊢
    obtain ⟨out, size⟩ := @ih (room - (escByte b).length) (by omega)
    rw [escapeLoop, if_neg (by simp), ← length_cons, isRound]
    dsimp only
    constructor
    · rw [if_neg (by omega)]
      change Option.map _ (escapeLoop cset signed _ (rest ++ after) rest.length) = _
      rw [out]
      rfl
    · rw [length_append, length_cons]
      omega

end

/-! ### Reading it back -/

/-- The lexer reads the text as a literal for the string. -/
def Reads (cs : Client) (text s tail : Bytes) : Prop := lex cs.chars unescape text = some (s, tail)

section
variable {cs : Client} {c : UInt8} {text s tail : Bytes}

theorem reads_quote (notLead : charLen cs.chars (quote :: tail) = 0) :
    Reads cs (quote :: tail) [] tail :=
  QuotedText.lex_quote notLead

theorem reads_plain (notChar : charLen cs.chars (b :: text) = 0) (plain : switch b = 0) :
    Reads cs (b :: text) (b :: s) tail ↔ Reads cs text s tail := by
  rw [Reads, QuotedText.lex_plain notChar (ne_of_switch plain).1 (ne_of_switch plain).2,
    QuotedText.before_cons_iff]
  simp [Reads]

theorem reads_escape (notChar : charLen cs.chars (backslash :: b :: text) = 0) :
    Reads cs (backslash :: b :: text) (c :: s) tail ↔ unescape b = c ∧ Reads cs text s tail := by
  rw [Reads, QuotedText.lex_escape notChar, QuotedText.before_cons_iff, QuotedText.before_nil]
  rfl

theorem reads_escByte (notLead : ∀ text, charLen cs.chars (b :: text) = 0)
    (notBackslash : ∀ text, charLen cs.chars (backslash :: text) = 0) :
    Reads cs (escByte b ++ text) (b :: s) tail ↔ Reads cs text s tail := by
  rw [escByte]
  split
  next special =>
    exact (reads_escape (notBackslash _)).trans (and_iff_right (unescape_switch special))
  next plain => exact reads_plain (notLead _) (not_not.mp plain)

theorem reads_pair {d : UInt8} (isChar : charLen cs.chars (b :: c :: text) = 2) :
    Reads cs (b :: c :: text) (b :: d :: s) tail ↔ c = d ∧ Reads cs text s tail := by
  have taken : lex cs.chars unescape (b :: c :: text) = before [b, c]
      (lex cs.chars unescape text) := by
    refine (QuotedText.lex_char (by omega) (by simp)).trans ?_
    rw [isChar]
    rfl
  rw [Reads, taken, QuotedText.before_cons_iff, QuotedText.before_cons_iff, QuotedText.before_nil]
  simp [Reads]

end

theorem escByte_special {c : UInt8} (special : switch c ≠ 0) : escByte c = [backslash, switch c] :=
  if_pos special

theorem escByte_plain {c : UInt8} (plain : switch c = 0) : escByte c = [c] :=
  if_neg (not_not.mpr plain)

theorem switch_of_high (high : 128 ≤ b) : switch b = 0 := by
  grind [switch]

private theorem escByte_of_high (high : 128 ≤ b) : escByte b = [b] :=
  escByte_plain (switch_of_high high)

/-! ### big5 -/

def isBig5Lead (b : UInt8) : Bool := inRange 0xA1 0xF9 b

def isBig5Trail (b : UInt8) : Bool := inRange 0x40 0x7E b || inRange 0xA1 0xFE b

/-- The lexer stays with the string. In the second state it has taken a backslash of the string as a
trail byte, and the backslash inserted before it is still to come. -/
def big5Safe : Bool → Bytes → Bool
  | false, [] => true
  | true, [] => false
  | true, c :: rest =>
    if c = backslash then big5Safe true rest else switch c == 0 && unescape c == c &&
      big5Safe false rest
  | false, [_] => true
  | false, b :: c :: rest =>
    if isBig5Lead b then
      if c = backslash then big5Safe true rest
      else if switch c ≠ 0 then false
      else if isBig5Trail c then big5Safe false rest
      else big5Safe false (c :: rest)
    else big5Safe false (c :: rest)

private theorem charLen_big5 (b c : UInt8) (rest : Bytes) :
    charLen big5.chars (b :: c :: rest) = if isBig5Lead b && isBig5Trail c then 2 else 0 := by
  simp [chars, QuotedText.charLen_cons, QuotedText.fits, has_singleton, has_pair, isBig5Lead,
    isBig5Trail]

private theorem charLen_big5_of_not_lead (notLead : isBig5Lead b = false) (text : Bytes) :
    charLen big5.chars (b :: text) = 0 := by
  simp only [isBig5Lead] at notLead
  simp [chars, QuotedText.charLen_cons, QuotedText.fits, has_singleton, notLead]

/-- No byte is a lead byte, as a negative `char` is a large number. -/
theorem validBig5head_signed (b : UInt8) : validBig5head (ofChar true b) = false := by
  revert b
  decide +kernel

private theorem written_zero (b : UInt8) (rest : Bytes) :
    written (fun _ => 0) (b :: rest) = escByte b ++ written (fun _ => 0) rest :=
  written_single rfl

private theorem isBig5Lead_high (lead : isBig5Lead b = true) : 128 ≤ b :=
  inRange_high (by decide) lead

/-- The text that is still to be read, perhaps after a backslash that is left over. -/
def big5Text (pending : Bool) (s tail : Bytes) : Bytes :=
  (if pending then [backslash] else []) ++ (written (fun _ => 0) s ++ quote :: tail)

private theorem big5_literal_iff (pending : Bool) (s tail : Bytes) :
    Reads .big5 (big5Text pending s tail) s tail ↔ big5Safe pending s = true := by
  have notBackslash := @charLen_big5_of_not_lead backslash (by decide)
  have isText (pending : Bool) (b : UInt8) (s : Bytes) : big5Text pending (b :: s) tail =
      (if pending then [backslash] else []) ++ (escByte b ++ big5Text false s tail) := by
    rw [big5Text, written_zero, append_assoc]
    rfl
  have atEnd : big5Text false [] tail = quote :: tail := by
    rw [big5Text, written]
    rfl
  have ends : Reads .big5 (quote :: tail) [] tail :=
    reads_quote (charLen_big5_of_not_lead (by decide) _)
  have isPair (b c : UInt8) (text : Bytes) (lead : isBig5Lead b = true)
    (trail : isBig5Trail c = true) :
      charLen big5.chars (b :: c :: text) = 2 := by rw [charLen_big5, lead, trail]; rfl
  have stray (b c : UInt8) (text s : Bytes) (lead : isBig5Lead b = true)
    (notTrail : isBig5Trail c = false) :
      Reads .big5 (b :: c :: text) (b :: s) tail ↔ Reads .big5 (c :: text) s tail := by
    refine reads_plain ?_ (switch_of_high (isBig5Lead_high lead))
    rw [charLen_big5, notTrail, Bool.and_false]
    rfl
  have raw (b : UInt8) (lead : isBig5Lead b = true) : escByte b = [b] :=
    escByte_of_high (isBig5Lead_high lead)
  fun_induction big5Safe pending s with
  | case1 =>
    rw [atEnd]
    exact iff_of_true ends rfl
  | case2 =>
    rw [show big5Text true [] tail = backslash :: quote :: tail from congrArg _ atEnd, Reads,
      QuotedText.lex_escape (notBackslash _)]
    refine iff_of_false ?_ (by decide)
    cases lex big5.chars unescape tail <;> simp [before]
  | case3 rest ih =>
    rw [isText, escByte_special (by decide)]
    exact (reads_escape (notBackslash _)).trans ((and_iff_right (by decide)).trans ih)
  | case4 c rest other ih =>
    rw [isText]
    by_cases special : switch c = 0
    · rw [escByte_plain special]
      refine (reads_escape (notBackslash _)).trans ((and_congr_right' ih).trans ?_)
      simp [special]
    · rw [escByte_special special]
      refine iff_of_false (fun reads => ?_) (by simp [special])
      exact other ((reads_escape (notBackslash _)).mp reads).1.symm
  | case5 b =>
    refine iff_of_true ?_ rfl
    rw [isText, atEnd]
    by_cases lead : isBig5Lead b = true
    · rw [raw b lead]
      exact (stray b quote tail [] lead (by decide)).mpr ends
    · exact (reads_escByte (charLen_big5_of_not_lead (by simpa using lead)) notBackslash).mpr ends
  | case6 b rest lead ih =>
    -- the backslash of the string is inserted before, and ends the character
    rw [isText, isText, raw b lead, escByte_special (by decide)]
    exact (reads_pair (isPair b backslash _ lead (by decide))).trans ((and_iff_right rfl).trans ih)
  | case7 b c rest lead other special =>
    rw [isText, isText, raw b lead, escByte_special special]
    refine iff_of_false (fun reads => ?_) (by decide)
    exact other ((reads_pair (isPair b backslash _ lead (by decide))).mp reads).1.symm
  | case8 b c rest lead other plain trail ih =>
    rw [isText, isText, raw b lead, escByte_plain (not_not.mp plain)]
    exact (reads_pair (isPair b c _ lead trail)).trans ((and_iff_right rfl).trans ih)
  | case9 b c rest lead other plain trail ih =>
    refine Iff.trans ?_ ih
    rw [isText, raw b lead, isText, escByte_plain (not_not.mp plain)]
    exact stray b c _ _ lead (by simpa using trail)
  | case10 b c rest notLead ih =>
    refine Iff.trans ?_ ih
    rw [isText]
    exact reads_escByte (charLen_big5_of_not_lead (by simpa using notLead)) notBackslash

/-! ### gb18030 -/

/-- No stray lead byte stands before a byte that gets a backslash. -/
def gb18030Safe : Bytes → Bool
  | [] => true
  | b :: rest =>
    if charLen Client.gb18030.chars (b :: rest) ≠ 0 then
      gb18030Safe (rest.drop (charLen Client.gb18030.chars (b :: rest) - 1))
    else ! (isGb18030Odd b && rest.head?.any fun c => decide (switch c ≠ 0)) && gb18030Safe rest
termination_by s => s.length
decreasing_by
  all_goals simp

/-- The second half of a character of four bytes. -/
def secondHalf (text : Bytes) : Bool := QuotedText.fits [[(0x81, 0xFE)], [(0x30, 0x39)]] text

theorem secondHalf_cons (d e : UInt8) (rest : Bytes) :
    secondHalf (d :: e :: rest) = (isGb18030Odd d && isGb18030Even4 e) := by
  simp [secondHalf, QuotedText.fits, has_singleton, isGb18030Odd, isGb18030Even4]

theorem charLen_gb18030 (b c : UInt8) (rest : Bytes) : charLen gb18030.chars (b :: c :: rest) =
      if isGb18030Odd b && isGb18030Even2 c then 2
        else if isGb18030Odd b && (isGb18030Even4 c && secondHalf rest) then 4
      else 0 := by
  simp only [chars, QuotedText.charLen_cons, QuotedText.charLen_nil, QuotedText.fits.eq_3,
    QuotedText.fits.eq_1, has_singleton, has_pair, Bool.and_true, secondHalf, isGb18030Odd,
      isGb18030Even2,
    isGb18030Even4, length_cons, length_nil]
  rfl

theorem charLen_gb18030_of_not_lead (notLead : isGb18030Odd b = false) (text : Bytes) :
    charLen gb18030.chars (b :: text) = 0 := by
  simp only [isGb18030Odd] at notLead
  simp [chars, QuotedText.charLen_cons, QuotedText.fits, has_singleton, notLead]

private theorem ismbcharGb18030_eq (s after : Bytes) (nonempty : s ≠ []) :
    ismbcharGb18030 (s ++ after) s.length = charLen gb18030.chars s := by
  rcases s with _ | ⟨b, _ | ⟨c, rest⟩⟩
  · exact absurd rfl nonempty
  · simp [ismbcharGb18030, chars, QuotedText.charLen_cons, QuotedText.fits]
  have half : (decide ((b :: c :: rest).length > 3) && isGb18030Even4 c &&
      isGb18030Odd (at_ (b :: c :: rest ++ after) 2) &&
        isGb18030Even4 (at_ (b :: c :: rest ++ after) 3)) =
      (isGb18030Even4 c && secondHalf rest) := by
    rcases rest with _ | ⟨d, _ | ⟨e, rest⟩⟩
    · simp [secondHalf, QuotedText.fits]
    · simp [secondHalf, QuotedText.fits]
    · rw [secondHalf_cons]
      simp [at_, Bool.and_assoc]
  rw [charLen_gb18030]
  change (if decide ((b :: c :: rest).length ≤ 1) || ! isGb18030Odd b then 0
    else if isGb18030Even2 c then 2
    else if decide ((b :: c :: rest).length > 3) && isGb18030Even4 c &&
      isGb18030Odd (at_ (b :: c :: rest ++ after) 2) &&
        isGb18030Even4 (at_ (b :: c :: rest ++ after) 3) then 4
    else 0) = _
  rw [half]
  cases isGb18030Odd b <;> simp

/-- One byte is never enough to see a lead byte. -/
theorem mbcharlenGb18030_signed (b : UInt8) : ¬ mbcharlenGb18030 (ofChar true b) > 1 := by
  revert b
  decide +kernel

/-- The text that is written for gb18030, up to the closing quote and beyond. -/
def gb18030Text (s tail : Bytes) : Bytes :=
  written (charLen Client.gb18030.chars) s ++ quote :: tail

private theorem isGb18030Odd_high (lead : isGb18030Odd b = true) : 128 ≤ b :=
  inRange_high (by decide) lead

theorem lead_of_charLen (isChar : charLen gb18030.chars (b :: rest) ≠ 0) :
    isGb18030Odd b = true ∧ ∃ c more, rest = c :: more := by
  constructor
  · by_contra notLead
    exact isChar (charLen_gb18030_of_not_lead (by simpa using notLead) rest)
  · cases rest with
    | nil => exact absurd (by simp [chars, QuotedText.charLen_cons, QuotedText.fits]) isChar
    | cons c more => exact ⟨c, more, rfl⟩

theorem gb18030Text_cases (b : UInt8) (rest tail : Bytes) :
    (switch b ≠ 0 ∧ ∃ more, gb18030Text (b :: rest) tail = backslash :: more) ∨
    (switch b = 0 ∧ charLen gb18030.chars (b :: rest) = 0 ∧
      gb18030Text (b :: rest) tail = b :: gb18030Text rest tail) ∨
    (isGb18030Odd b = true ∧ ∃ c more text, rest = c :: more ∧
      gb18030Text (b :: rest) tail = b :: c :: text) := by
  by_cases isChar : charLen gb18030.chars (b :: rest) = 0
  · rw [gb18030Text, written_single isChar]
    by_cases plain : switch b = 0
    · rw [escByte_plain plain]
      exact .inr (.inl ⟨plain, isChar, rfl⟩)
    · rw [escByte_special plain]
      exact .inl ⟨plain, _, rfl⟩
  obtain ⟨lead, c, more, rfl⟩ := lead_of_charLen isChar
  refine .inr (.inr ⟨lead, c, more, ?_⟩)
  have two : ∃ k, charLen gb18030.chars (b :: c :: more) = k + 2 := by
    rw [charLen_gb18030] at isChar ⊢
    split_ifs at isChar ⊢
    · exact ⟨0, rfl⟩
    · exact ⟨2, rfl⟩
    · exact absurd rfl isChar
  obtain ⟨k, isLen⟩ := two
  rw [gb18030Text, written_char isChar, isLen]
  exact ⟨_, rfl, rfl⟩

/-- What looks like the second half of a character is one in the string. -/
theorem secondHalf_of_text {s tail : Bytes} (isHalf : secondHalf (gb18030Text s tail) = true) :
    secondHalf s = true := by
  have endsQuote : ∀ text, gb18030Text [] text = quote :: text := by
    intro text
    rw [gb18030Text, written]
    rfl
  rcases s with _ | ⟨d, s⟩
  · rw [endsQuote] at isHalf
    cases isHalf
  rcases gb18030Text_cases d s tail with ⟨-, more, text⟩ | ⟨-, -, text⟩ | ⟨-, e, more,
    after, rfl, text⟩
  · rw [text] at isHalf
    cases isHalf
  · rw [text] at isHalf
    rcases s with _ | ⟨e, s⟩
    · rw [endsQuote, secondHalf_cons, show isGb18030Even4 quote =
        false by decide, Bool.and_false] at isHalf
      cases isHalf
    rcases gb18030Text_cases e s tail with ⟨-, more, text'⟩ | ⟨-, -, text'⟩ | ⟨-, e', more,
      after, rfl, text'⟩
    · rw [text', secondHalf_cons, show isGb18030Even4 backslash =
        false by decide, Bool.and_false] at isHalf
      cases isHalf
    · rw [text', secondHalf_cons] at isHalf
      rwa [secondHalf_cons]
    · rw [text', secondHalf_cons] at isHalf
      rwa [secondHalf_cons]
  · rw [text, secondHalf_cons] at isHalf
    rwa [secondHalf_cons]

/-- A stray lead byte stays one if no backslash follows. -/
theorem charLen_text {tail : Bytes} (single : charLen gb18030.chars (b :: rest) = 0)
    (plain : ∀ c ∈ rest.head?, switch c = 0) :
    charLen gb18030.chars (b :: gb18030Text rest tail) = 0 := by
  cases rest with
  | nil =>
    rw [gb18030Text, written, nil_append, charLen_gb18030,
      show isGb18030Even2 quote = false by decide,
      show isGb18030Even4 quote = false by decide]
    simp
  | cons c rest =>
    rw [charLen_gb18030] at single
    rcases gb18030Text_cases c rest tail with ⟨special, -⟩ | ⟨-, -, text⟩ | ⟨lead, d, more,
      after, rfl, text⟩
    · exact absurd (plain c rfl) special
    · rw [text, charLen_gb18030]
      split_ifs at single with two four
      rw [if_neg two, if_neg]
      intro four'
      simp only [Bool.and_eq_true] at four four'
      exact four ⟨four'.1, four'.2.1, secondHalf_of_text four'.2.2⟩
    · have notDigit : ∀ b : UInt8, isGb18030Odd b = true → isGb18030Even4 b = false := by
        grind [isGb18030Odd, isGb18030Even4, inRange]
      split_ifs at single with two four
      rw [text, charLen_gb18030, if_neg two, notDigit c lead]
      simp

private theorem lex_gb18030_char (isChar : charLen gb18030.chars (b :: rest) ≠ 0) (text : Bytes) :
    lex gb18030.chars unescape ((b :: rest).take (charLen gb18030.chars (b :: rest)) ++ text) =
      before ((b :: rest).take (charLen gb18030.chars (b :: rest)))
        (lex gb18030.chars unescape text) := by
  -- the length of the character does not depend on what follows it
  have same : ∃ u v, (b :: rest).take (charLen gb18030.chars (b :: rest)) = u :: v ∧
      charLen gb18030.chars (u :: v ++ text) = (u :: v).length := by
    obtain ⟨lead, c, more, rfl⟩ := lead_of_charLen isChar
    rw [charLen_gb18030] at isChar ⊢
    split_ifs at isChar ⊢ with two four
    · exact ⟨b, [c], rfl, (charLen_gb18030 b c text).trans (if_pos two)⟩
    · simp only [Bool.and_eq_true] at four
      rcases more with _ | ⟨d, _ | ⟨e, more⟩⟩
      · exact absurd four.2.2 (by decide)
      · exact absurd four.2.2 (by simp [secondHalf, QuotedText.fits])
      · refine ⟨b, [c, d, e], rfl, (charLen_gb18030 b c (d :: e :: text)).trans ?_⟩
        rw [if_neg two, secondHalf_cons, ← secondHalf_cons d e more, if_pos (by simp [four])]
        rfl
    · exact absurd rfl isChar
  obtain ⟨u, v, isTake, isLen⟩ := same
  rw [isTake]
  refine (QuotedText.lex_char (by rw [isLen]; simp) (by simp)).trans ?_
  rw [isLen, take_left, drop_left]

private theorem gb18030_literal_iff (s tail : Bytes) :
    Reads .gb18030 (gb18030Text s tail) s tail ↔ gb18030Safe s = true := by
  fun_induction gb18030Safe s with
  | case1 =>
    rw [gb18030Text, written]
    exact iff_of_true (reads_quote (charLen_gb18030_of_not_lead (by decide) _)) rfl
  | case2 b rest isChar ih =>
    refine Iff.trans ?_ ih
    rw [QuotedText.drop_pred b isChar, gb18030Text, written_char isChar, append_assoc, Reads,
      lex_gb18030_char isChar]
    conv => lhs; rhs; rw [← take_append_drop (charLen gb18030.chars (b :: rest)) (b :: rest)]
    exact QuotedText.before_eq_some_iff
  | case3 b rest notChar ih =>
    have isChar := not_not.mp notChar
    by_cases lead : isGb18030Odd b = true
    · have plainLead := switch_of_high (isGb18030Odd_high lead)
      have raw : gb18030Text (b :: rest) tail = b :: gb18030Text rest tail := by
        rw [gb18030Text, written_single isChar, escByte_plain plainLead]
        rfl
      rw [raw]
      by_cases plain : ∀ c ∈ rest.head?, switch c = 0
      · have safe : (rest.head?.any fun c => decide (switch c ≠ 0)) = false := by
          cases rest with
          | nil => rfl
          | cons c rest => simp [plain c rfl]
        refine (reads_plain (charLen_text isChar plain) plainLead).trans (Iff.trans ih ?_)
        rw [safe]
        simp
      · -- the inserted backslash becomes the trail byte
        push Not at plain
        obtain ⟨c, isHead, special⟩ := plain
        obtain ⟨more, rfl⟩ := head?_eq_some_iff.mp isHead
        have two (text : Bytes) : charLen gb18030.chars (b :: backslash :: text) = 2 := by
          rw [charLen_gb18030, lead]
          rfl
        refine iff_of_false ?_ (by simp [lead, special])
        rcases gb18030Text_cases c more tail with ⟨-, text, isText⟩ | ⟨plain, -⟩ | ⟨isLead, -⟩
        · rw [isText]
          intro reads
          obtain rfl := ((reads_pair (two text)).mp reads).1
          exact absurd ((two more).symm.trans isChar) (by decide)
        · exact absurd plain special
        · exact absurd (switch_of_high (isGb18030Odd_high isLead)) special
    · have notLead : isGb18030Odd b = false := by simpa using lead
      rw [gb18030Text, written_single isChar, append_assoc]
      refine (reads_escByte (charLen_gb18030_of_not_lead notLead)
        (charLen_gb18030_of_not_lead (by decide))).trans
        (Iff.trans ih ?_)
      rw [notLead]
      simp

/-! ### Where `char` is signed -/

/-- The escaped text is a literal for the string exactly under the condition. -/
def LiteralIff (cs : Client) (s after : Bytes) (safe : Bool) : Prop :=
  ∃ out, csetEscapeSlashes (cs.charset true) true s after = some out ∧ out.length ≤ 2 * s.length ∧
    ∀ tail, lex cs.chars unescape (out ++ quote :: tail) = some (s, tail) ↔ safe = true

private theorem escape_big5 (s after : Bytes) :
    csetEscapeSlashes (big5.charset true) true s after = some (written (fun _ => 0) s) ∧
      (written (fun _ => 0) s).length ≤ 2 * s.length := by
  apply escapeLoop_eq_written (multibyte_charset true .big5)
  · intro c
    change ¬ mbcharlenBig5 (ofChar true c) > 1
    rw [mbcharlenBig5, validBig5head_signed]
    decide
  · intro s after _
    change checkMbBig5 true _ _ = 0
    rw [checkMbBig5, validBig5head_signed]
    rfl
  · exact fun s => Nat.zero_le _
  · exact Nat.le_refl _

private theorem escape_gb18030 (s after : Bytes) :
    csetEscapeSlashes (gb18030.charset true) true s after =
      some (written (charLen gb18030.chars) s) ∧
      (written (charLen gb18030.chars) s).length ≤ 2 * s.length := by
  apply escapeLoop_eq_written (multibyte_charset true .gb18030)
  · exact mbcharlenGb18030_signed
  · exact ismbcharGb18030_eq
  · exact QuotedText.charLen_le_length _
  · exact Nat.le_refl _

/-- The strings whose escaped text is a literal for them. -/
theorem literal_iff_safe (s after : Bytes) :
    LiteralIff .big5 s after (big5Safe false s) ∧ LiteralIff .gb18030 s after (gb18030Safe s) := by
  obtain ⟨big5, big5Length⟩ := escape_big5 s after
  obtain ⟨gb18030, gb18030Length⟩ := escape_gb18030 s after
  exact ⟨⟨_, big5, big5Length, fun tail => big5_literal_iff false s tail⟩,
    ⟨_, gb18030, gb18030Length, fun tail => gb18030_literal_iff s tail⟩⟩

/-- A lead byte and a quote: the literal ends at the quote of the string. -/
theorem literal_ends_early :
    (csetEscapeSlashes (Client.big5.charset true) true [0xA1, 0x27] [] = some [0xA1, 0x5C, 0x27] ∧
      lex Client.big5.chars unescape ([0xA1, 0x5C, 0x27] ++ [quote]) =
        some ([0xA1, 0x5C], [quote])) ∧
    (csetEscapeSlashes (Client.gb18030.charset true) true [0x81, 0x27]
      [] = some [0x81, 0x5C, 0x27] ∧
      lex Client.gb18030.chars unescape ([0x81, 0x5C, 0x27] ++ [quote]) =
        some ([0x81, 0x5C], [quote])) := by
  decide +kernel

end Jonj.Mysqlnd
