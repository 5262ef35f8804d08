import Jonj.Lib.CChar

/-!
# Escaping in the client character sets

The functions of `mysqlnd_charset.c` that find multibyte characters, and
`mysqlnd_cset_escape_slashes`. A pointer into a string is the list of the bytes from it on, with
those behind the end of the string; the end is given by the number of bytes that are left.
-/
namespace Jonj.Mysqlnd

def at_ (start : Bytes) (i : Nat) : UInt8 := start.getD i 0

def inRange (lo hi b : UInt8) : Bool := decide (lo ≤ b) && decide (b ≤ hi)

/-! ### utf8 -/

/-- A continuation byte: `(c ^ 0x80) < 0x40`. -/
def isContinuation (b : UInt8) : Bool := decide ((b ^^^ 0x80) < 0x40)

def checkMbUtf8mb3Sequence (start : Bytes) (left : Nat) : Nat :=
  if left = 0 then 0
  else
    let c := at_ start 0
    if c < 0x80 then 1
    else if c < 0xC2 then 0
    else if c < 0xE0 then
      if left < 2 then 0
      else if ! isContinuation (at_ start 1) then 0
      else 2
    else if c < 0xF0 then
      if left < 3 then 0
      else if ! (isContinuation (at_ start 1) && isContinuation (at_ start 2) &&
          (decide (c ≥ 0xE1) || decide (at_ start 1 ≥ 0xA0))) then 0
      else 3
    else 0

def checkMbUtf8Sequence (start : Bytes) (left : Nat) : Nat :=
  if left = 0 then 0
  else
    let c := at_ start 0
    if c < 0x80 then 1
    else if c < 0xC2 then 0
    else if c < 0xE0 then
      if left < 2 then 0
      else if ! isContinuation (at_ start 1) then 0
      else 2
    else if c < 0xF0 then
      if left < 3 then 0
      else if ! (isContinuation (at_ start 1) && isContinuation (at_ start 2) &&
          (decide (c ≥ 0xE1) || decide (at_ start 1 ≥ 0xA0))) then 0
      else 3
    else if c < 0xF5 then
      if left < 4 then 0
      else if ! (isContinuation (at_ start 1) && isContinuation (at_ start 2) &&
        isContinuation (at_ start 3) &&
          (decide (c ≥ 0xF1) || decide (at_ start 1 ≥ 0x90)) &&
          (decide (c ≤ 0xF3) || decide (at_ start 1 ≤ 0x8F))) then 0
      else 4
    else 0

def checkMbUtf8mb3Valid (start : Bytes) (left : Nat) : Nat :=
  let len := checkMbUtf8mb3Sequence start left
  if len > 1 then len else 0

def checkMbUtf8Valid (start : Bytes) (left : Nat) : Nat :=
  let len := checkMbUtf8Sequence start left
  if len > 1 then len else 0

def mbcharlenUtf8mb3 (utf8 : UInt32) : Nat :=
  if utf8 < 0x80 then 1 else if utf8 < 0xC2 then 0 else if utf8 < 0xE0 then 2
    else if utf8 < 0xF0 then 3 else 0

def mbcharlenUtf8 (utf8 : UInt32) : Nat :=
  if utf8 < 0x80 then 1 else if utf8 < 0xC2 then 0 else if utf8 < 0xE0 then 2
    else if utf8 < 0xF0 then 3
  else if utf8 < 0xF8 then 4 else 0

/-! ### big5

The macros convert a `char` to `unsigned int` without going through `unsigned char`. -/

def validBig5head (c : UInt32) : Bool := decide (0xA1 ≤ c) && decide (c ≤ 0xF9)

def validBig5tail (c : UInt32) : Bool :=
  (decide (0x40 ≤ c) && decide (c ≤ 0x7E)) || (decide (0xA1 ≤ c) && decide (c ≤ 0xFE))

def checkMbBig5 (signed : Bool) (start : Bytes) (left : Nat) : Nat :=
  if validBig5head (ofChar signed (at_ start 0)) && decide (left > 1) &&
    validBig5tail (ofChar signed (at_ start 1))
  then 2 else 0

def mbcharlenBig5 (big5 : UInt32) : Nat := if validBig5head big5 then 2 else 1

/-! ### cp932, sjis, gb2312, gbk -/

/-- Two bytes, the first and the second in the given sets. -/
def checkTwo (head tail : UInt8 → Bool) (start : Bytes) (left : Nat) : Nat :=
  if head (at_ start 0) && decide (left > 1) && tail (at_ start 1) then 2 else 0

/-- The argument is converted to `unsigned char`. -/
def mbcharlenTwo (head : UInt8 → Bool) (c : UInt32) : Nat := if head c.toUInt8 then 2 else 1

def validCp932head (c : UInt8) : Bool := inRange 0x81 0x9F c || inRange 0xE0 0xFC c

def validCp932tail (c : UInt8) : Bool := inRange 0x40 0x7E c || inRange 0x80 0xFC c

def checkMbCp932 : Bytes → Nat → Nat := checkTwo validCp932head validCp932tail

def mbcharlenCp932 : UInt32 → Nat := mbcharlenTwo validCp932head

def validSjisHead (c : UInt8) : Bool := inRange 0x81 0x9F c || inRange 0xE0 0xFC c

def validSjisTail (c : UInt8) : Bool := inRange 0x40 0x7E c || inRange 0x80 0xFC c

def checkMbSjis : Bytes → Nat → Nat := checkTwo validSjisHead validSjisTail

def mbcharlenSjis : UInt32 → Nat := mbcharlenTwo validSjisHead

def validGb2312Head (c : UInt8) : Bool := inRange 0xA1 0xF7 c

def validGb2312Tail (c : UInt8) : Bool := inRange 0xA1 0xFE c

def checkMbGb2312 : Bytes → Nat → Nat := checkTwo validGb2312Head validGb2312Tail

def mbcharlenGb2312 : UInt32 → Nat := mbcharlenTwo validGb2312Head

def validGbkHead (c : UInt8) : Bool := inRange 0x81 0xFE c

def validGbkTail (c : UInt8) : Bool := inRange 0x40 0x7E c || inRange 0x80 0xFE c

def checkMbGbk : Bytes → Nat → Nat := checkTwo validGbkHead validGbkTail

def mbcharlenGbk : UInt32 → Nat := mbcharlenTwo validGbkHead

/-! ### euckr -/

def validEuckr (c : UInt8) : Bool := inRange 0xA1 0xFE c

/-- `check_mb_euckr`; any byte from `0x80` on may come first. -/
def checkMbEuckr (start : Bytes) (left : Nat) : Nat :=
  if left ≤ 1 then 0
  else if at_ start 0 < 0x80 then 0
  else if validEuckr (at_ start 1) then 2
  else 0

def mbcharlenEuckr : UInt32 → Nat := mbcharlenTwo validEuckr

/-! ### eucjpms and ujis -/

def validEucjpms (c : UInt8) : Bool := inRange 0xA1 0xFE c

def validEucjpmsKata (c : UInt8) : Bool := inRange 0xA1 0xDF c

/-- `check_mb_eucjpms`; a character of three bytes has length two here. -/
def checkMbEucjpms (start : Bytes) (left : Nat) : Nat :=
  if at_ start 0 < 0x80 then 0
  else if validEucjpms (at_ start 0) && decide (left > 1) && validEucjpms (at_ start 1) then 2
  else if at_ start 0 == 0x8E && decide (left > 1) && validEucjpmsKata (at_ start 1) then 2
  else if at_ start 0 == 0x8F && decide (left > 2) && validEucjpms (at_ start 1) &&
    validEucjpms (at_ start 2) then 2
  else 0

def mbcharlenEucjpms (jpms : UInt32) : Nat :=
  if validEucjpms jpms.toUInt8 || jpms.toUInt8 == 0x8E then 2
    else if jpms.toUInt8 == 0x8F then 3 else 1

def validUjis (c : UInt8) : Bool := inRange 0xA1 0xFE c

def validUjisKata (c : UInt8) : Bool := inRange 0xA1 0xDF c

/-- `check_mb_ujis`; the end is tested for characters of three bytes only. -/
def checkMbUjis (start : Bytes) (left : Nat) : Nat :=
  if at_ start 0 < 0x80 then 0
  else if validUjis (at_ start 0) && validUjis (at_ start 1) then 2
  else if at_ start 0 == 0x8E && validUjisKata (at_ start 1) then 2
  else if at_ start 0 == 0x8F && decide (left > 2) && validUjis (at_ start 1) &&
    validUjis (at_ start 2) then 3
  else 0

def mbcharlenUjis (ujis : UInt32) : Nat :=
  if validUjis ujis.toUInt8 then 2 else if ujis.toUInt8 == 0x8E then 2
    else if ujis.toUInt8 == 0x8F then 3 else 1

/-! ### gb18030 -/

def isGb18030Odd (c : UInt8) : Bool := inRange 0x81 0xFE c

def isGb18030Even2 (c : UInt8) : Bool := inRange 0x40 0x7E c || inRange 0x80 0xFE c

def isGb18030Even4 (c : UInt8) : Bool := inRange 0x30 0x39 c

/-- `mysqlnd_mbcharlen_gb18030`; its argument is meant to be the first two bytes of a character. -/
def mbcharlenGb18030 (c : UInt32) : Nat :=
  if c ≤ 0xFF then (! isGb18030Odd c.toUInt8).toNat
  else if decide (c > 0xFFFF) || ! isGb18030Odd ((c >>> 8).toUInt8) then 0
  else if isGb18030Even2 c.toUInt8 then 2
  else if isGb18030Even4 c.toUInt8 then 4
  else 0

def ismbcharGb18030 (start : Bytes) (left : Nat) : Nat :=
  if decide (left ≤ 1) || ! isGb18030Odd (at_ start 0) then 0
  else if isGb18030Even2 (at_ start 1) then 2
  else if decide (left > 3) && isGb18030Even4 (at_ start 1) && isGb18030Odd (at_ start 2) &&
      isGb18030Even4 (at_ start 3) then 4
  else 0

/-! ### The table -/

structure Charset where
  charMaxlen : Nat
  mbCharlen : UInt32 → Nat
  mbValid : Bytes → Nat → Nat

/-- The multibyte character sets with an ASCII part. The entry `utf8_general_cs` has the functions
of `utf8mb4`. -/
inductive Client
  | utf8 | utf8GeneralCs | utf8mb4 | gbk | sjis | cp932 | gb2312 | euckr | ujis | eucjpms | big5
  | gb18030
  deriving DecidableEq

/-- The entry of `mysqlnd_charsets`. -/
def Client.charset (signed : Bool) : Client → Charset
  | utf8 => ⟨3, mbcharlenUtf8mb3, checkMbUtf8mb3Valid⟩
  | utf8GeneralCs => ⟨3, mbcharlenUtf8, checkMbUtf8Valid⟩
  | utf8mb4 => ⟨4, mbcharlenUtf8, checkMbUtf8Valid⟩
  | gbk => ⟨2, mbcharlenGbk, checkMbGbk⟩
  | sjis => ⟨2, mbcharlenSjis, checkMbSjis⟩
  | cp932 => ⟨2, mbcharlenCp932, checkMbCp932⟩
  | gb2312 => ⟨2, mbcharlenGb2312, checkMbGb2312⟩
  | euckr => ⟨2, mbcharlenEuckr, checkMbEuckr⟩
  | ujis => ⟨3, mbcharlenUjis, checkMbUjis⟩
  | eucjpms => ⟨3, mbcharlenEucjpms, checkMbEucjpms⟩
  | big5 => ⟨2, mbcharlenBig5, checkMbBig5 signed⟩
  | gb18030 => ⟨4, mbcharlenGb18030, ismbcharGb18030⟩

/-! ### Escaping -/

/-- The `switch`: the byte that is written after a backslash, or zero. -/
def switch (c : UInt8) : UInt8 :=
  if c = 0 then 48
  else if c = 10 then 110
  else if c = 13 then 114
  else if c = 92 ∨ c = 39 ∨ c = 34 then c
  else if c = 26 then 90
  else 0

/-- The byte that is written after a backslash, or zero. -/
def esc (cset : Charset) (signed : Bool) (c : UInt8) : UInt8 :=
  if cset.charMaxlen > 1 ∧ cset.mbCharlen (ofChar signed c) > 1 then c else switch c

/-- The length of a multibyte character at the position, or zero. -/
def validLen (cset : Charset) (escapestr : Bytes) (left : Nat) : Nat :=
  if cset.charMaxlen > 1 then cset.mbValid escapestr left else 0

/-- What one round of the loop writes, and how far it goes. -/
def round (cset : Charset) (signed : Bool) (escapestr : Bytes) (left : Nat) : Bytes × Nat :=
  let len := validLen cset escapestr left
  let c := at_ escapestr 0
  if len ≠ 0 then (escapestr.take len, len)
  else if esc cset signed c ≠ 0 then ([92, esc cset signed c], 1)
  else ([c], 1)

theorem round_pos (cset : Charset) (signed : Bool) (escapestr : Bytes) (left : Nat) :
    0 < (round cset signed escapestr left).2 := by
  rw [round]
  split
  next isChar => exact Nat.pos_of_ne_zero isChar
  · split <;> exact Nat.one_pos

/-- The loop, with the room that is left in the output; nothing if it is too small. -/
def escapeLoop (cset : Charset) (signed : Bool) (room : Nat) (escapestr : Bytes) (left : Nat) :
    Option Bytes :=
  if left = 0 then some []
  else
    let r := round cset signed escapestr left
    if r.1.length > room then none
    else (escapeLoop cset signed (room - r.1.length) (escapestr.drop r.2)
      (left - r.2)).map (r.1 ++ ·)
termination_by left
decreasing_by
  have pos := round_pos cset signed escapestr left
  omega

/-- `mysqlnd_cset_escape_slashes`, with the bytes that follow the string in memory. -/
def csetEscapeSlashes (cset : Charset) (signed : Bool) (s after : Bytes) : Option Bytes :=
  escapeLoop cset signed (2 * s.length) (s ++ after) s.length

end Jonj.Mysqlnd
