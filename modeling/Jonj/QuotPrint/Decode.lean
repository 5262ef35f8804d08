import Jonj.QuotPrint.Encode

/-!
# The quoted-printable decoders
-/
namespace Jonj.QuotPrint

open List

/-- `hexval_tbl` -/
def hexval (c : UInt8) : UInt8 :=
  match hexValue c with
  | some digit => digit
  | none => if c = 9 ∨ c = 32 then 32 else if c = 10 ∨ c = 13 then 16 else 64

/-- The second loop of `jonj_quot_print_decode`; `i` is the length of the list. -/
def decodeLoop (replaceUsByWs : Bool) (p : Bytes) : Option Bytes :=
  match p with
  | [] => some []
  | c :: rest =>
    if c = 0 then some []
    else if c = 61 then
      if rest.headD 0 = 0 then some []
      else if hexval (rest.headD 0) < 16 then
        match rest.tail with
        | [] => none
        | l :: _ =>
          if hexval l < 16 then
            let byte := hexval (rest.headD 0) <<< 4 ||| hexval l
            (decodeLoop replaceUsByWs (rest.drop 2)).map (byte :: ·)
          else none
      else if hexval (rest.headD 0) < 64 then
        -- a soft line break, behind blanks
        let behind := rest.dropWhile (hexval · = 32)
        if hexval (behind.headD 0) = 64 then none
        else if behind.take 2 = [13, 10] then decodeLoop replaceUsByWs (behind.drop 2)
        else decodeLoop replaceUsByWs behind.tail
      else none
    else (decodeLoop replaceUsByWs rest).map ((if replaceUsByWs ∧ c = 95 then 32 else c) :: ·)
termination_by p.length
decreasing_by
  all_goals
    have shorter := (dropWhile_sublist (hexval · = 32) (l := rest)).length_le
    simp only [length_cons, length_drop, length_tail]
    omega

/-- `jonj_quot_print_decode`; `i` is an `unsigned int`. -/
def quotPrintDecode (str : Bytes) (replaceUsByWs : Bool) : Option Bytes :=
  decodeLoop replaceUsByWs (str.take (str.length % 2 ^ 32))

def isxdigit (c : UInt8) : Bool := hexval c < 16

/-- The loop of `quoted_printable_decode`; the bytes that are left to read from `i` on. -/
def decodeText (str : Bytes) : Bytes :=
  match str with
  | [] => []
  | c :: rest =>
    if c = 0 then []
    else if c = 61 then
      if rest.head?.any isxdigit ∧ rest.tail.head?.any isxdigit then
        let byte := (hexval (rest.headD 0) <<< 4) + hexval (rest.tail.headD 0)
        byte :: decodeText (rest.drop 2)
      else
        -- the blanks at the end of a line
        let behind := rest.dropWhile fun d => d = 32 ∨ d = 9
        if behind.headD 0 = 0 then []
        else if behind.take 2 = [13, 10] then decodeText (behind.drop 2)
        else if behind.headD 0 = 13 ∨ behind.headD 0 = 10 then decodeText behind.tail
        else c :: decodeText rest
    else c :: decodeText rest
termination_by str.length
decreasing_by
  all_goals
    have shorter := (dropWhile_sublist (fun d => decide (d = 32 ∨ d = 9)) (l := rest)).length_le
    simp only [length_cons, length_drop, length_tail]
    omega

/-- `quoted_printable_decode`. Lengths and indices are of type `int`, so a longer string cannot be
passed; for one of `INT_MAX` bytes the size `arg1_len + 1` overflows, and no buffer is got. -/
def quotedPrintableDecode (str : Bytes) : Option Bytes :=
  if str.length < intMax then some (decodeText str) else none

/-! ### The bytes of a triple -/

theorem triple_spec (c : UInt8) :
    hexval (hexDigit (c >>> 4)) < 16 ∧ hexval (hexDigit (c &&& 15)) < 16 ∧
      (hexval (hexDigit (c >>> 4)) <<< 4 ||| hexval (hexDigit (c &&& 15))) = c ∧
      (hexval (hexDigit (c >>> 4)) <<< 4) + hexval (hexDigit (c &&& 15)) = c ∧
        hexDigit (c >>> 4) ≠ 0 := by
  revert c
  decide +kernel

/-! ### The round trip -/

/-- What a decoder does with the pieces that the encoder writes. -/
structure Inverts (decode : Bytes → Option Bytes) : Prop where
  nil : decode [] = some []
  triple (c : UInt8) (rest : Bytes) : decode (triple c ++ rest) = (decode rest).map (c :: ·)
  soft (rest : Bytes) : decode ([61, 13, 10] ++ rest) = decode rest
  plain {c : UInt8} (rest : Bytes) : c ≠ 0 → c ≠ 61 →
    decode (c :: rest) = (decode rest).map (c :: ·)

theorem Inverts.decode_encodeLoop {decode : Bytes → Option Bytes} (inverts : Inverts decode)
    (lp : Nat) (str : Bytes) : decode (encodeLoop lp str) = some str := by
  fun_induction encodeLoop lp str with
  | case1 => exact inverts.nil
  | case2 lp rest ih =>
    rw [inverts.plain _ (by decide) (by decide), inverts.plain _ (by decide) (by decide), ih]
    rfl
  | case3 lp c rest _ _ _ ih => rw [inverts.soft, inverts.triple, ih]; rfl
  | case4 lp c rest _ _ _ ih => rw [inverts.triple, ih]; rfl
  | case5 lp c rest _ plain _ ih =>
    obtain ⟨notNul, notEquals, -⟩ := plain_of_not_escapes plain
    rw [inverts.soft, inverts.plain _ notNul notEquals, ih]
    rfl
  | case6 lp c rest _ plain _ ih =>
    obtain ⟨notNul, notEquals, -⟩ := plain_of_not_escapes plain
    rw [inverts.plain _ notNul notEquals, ih]
    rfl

private theorem inverts_decodeLoop : Inverts (decodeLoop false) where
  nil := by rw [decodeLoop]
  triple c rest := by
    obtain ⟨high, low, value, -, notNul⟩ := triple_spec c
    rw [triple, decodeLoop.eq_def]
    simp [high, low, value, notNul]
  soft rest := by
    rw [decodeLoop.eq_def]
    simp [hexval, hexValue]
  plain rest notNul notEquals := by
    rw [decodeLoop.eq_def]
    simp [notNul, notEquals]

private theorem inverts_decodeText : Inverts (some ∘ decodeText) where
  nil := by simp [decodeText]
  triple c rest := by
    obtain ⟨high, low, -, value, -⟩ := triple_spec c
    simp [triple, decodeText.eq_def (61 :: _), isxdigit, high, low, value]
  soft rest := by simp [decodeText.eq_def (61 :: _), isxdigit, hexval, hexValue]
  plain rest notNul notEquals := by simp [decodeText.eq_def (_ :: _), notNul, notEquals]

/-! ### The length -/

/-- A line that is broken is paid for by its bytes: a third of a column each, and two thirds more
if one is plain. -/
theorem length_encodeLoop_le (lp : Nat) (str : Bytes) :
    22 * (encodeLoop lp str).length ≤ 69 * str.length + (lp + 2) / 3 * 3 := by
  fun_induction encodeLoop lp str with
  | case1 => simp
  | case2 lp rest ih => simp only [length_cons] at ih ⊢; omega
  | case3 lp c rest _ _ wide ih =>
    have columns : maxl = 75 := rfl
    have wide : 64 ≤ lp := by
      simp only [breaks, Bool.or_eq_true, Bool.and_eq_true, decide_eq_true_eq] at wide
      rcases wide with ((⟨wide, _⟩ | ⟨_, wide⟩) | ⟨_, wide⟩) | ⟨_, wide⟩ <;> omega
    simp only [triple, length_append, length_cons, length_nil] at ih ⊢
    omega
  | case4 lp c rest _ _ _ ih =>
    simp only [triple, length_append, length_cons, length_nil] at ih ⊢
    omega
  | case5 lp c rest _ _ wide ih =>
    simp only [maxl, length_append, length_cons, length_nil] at wide ih ⊢
    omega
  | case6 lp c rest _ _ _ ih =>
    simp only [length_cons] at ih ⊢
    omega

/-- Both decoders give back what was encoded, as long as their integers can hold its length, and the
encoding fits in what is allocated for it. -/
theorem decode_quotPrintEncode (str : Bytes) :
    ((quotPrintEncode str).length < 2 ^ 32 →
        quotPrintDecode (quotPrintEncode str) false = some str) ∧
      ((quotPrintEncode str).length < intMax →
        quotedPrintableDecode (quotPrintEncode str) = some str) ∧
      (quotPrintEncode str).length ≤ 3 * (str.length + 3 * str.length / (maxl - 9) + 1) := by
  refine ⟨fun short => ?_, fun short => ?_, ?_⟩
  · rw [quotPrintDecode, Nat.mod_eq_of_lt short, take_length]
    exact inverts_decodeLoop.decode_encodeLoop 0 str
  · rw [quotedPrintableDecode, if_pos short]
    exact inverts_decodeText.decode_encodeLoop 0 str
  · have bound := length_encodeLoop_le 0 str
    simp only [quotPrintEncode, maxl] at bound ⊢
    omega

/-- 75 letters, a soft break, an escaped blank in front of CR, and a line. -/
theorem decode_quotPrintEncode_softBreak :
    let str := replicate 75 97 ++ [0, 255, 32, 13, 10, 98]
    quotPrintEncode str = replicate 75 97 ++ [61, 13, 10] ++
        [61, 48, 48, 61, 70, 70, 61, 50, 48] ++ [13, 10, 98] ∧
      quotPrintDecode (quotPrintEncode str) false = some str ∧
      quotedPrintableDecode (quotPrintEncode str) = some str :=
  ⟨by decide, (decode_quotPrintEncode _).1 (by decide), (decode_quotPrintEncode _).2.1 (by decide)⟩

private theorem encodeLoop_lines (lp n : Nat) :
    encodeLoop lp (replicate n [13, 10]).flatten = (replicate n [13, 10]).flatten := by
  induction n generalizing lp with
  | zero => rfl
  | succ n ih => exact congrArg ([13, 10] ++ ·) (ih 0)

/-- Of four gigabytes of empty lines nothing comes back: their number as an `unsigned int` is 0. -/
theorem decode_truncates :
    ∃ str, str ≠ [] ∧ quotPrintDecode (quotPrintEncode str) false = some [] := by
  obtain ⟨n, half⟩ : ∃ n, n = 2 ^ 31 := ⟨_, rfl⟩
  have size : (replicate n ([13, 10] : Bytes)).flatten.length = n * 2 := by
    simp
  refine ⟨(replicate n [13, 10]).flatten, ne_nil_of_length_pos (by omega), ?_⟩
  rw [quotPrintEncode, encodeLoop_lines, quotPrintDecode, size, show n * 2 % 2 ^ 32 = 0 by omega,
    take_zero, decodeLoop]

end Jonj.QuotPrint
