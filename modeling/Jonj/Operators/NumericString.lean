import Jonj.Lib.Decimal
import Jonj.Operators.Pow

/-!
# Numeric strings

`is_numeric_string_ex` decides whether a string is an integer, a floating point number or neither. A
string is its bytes and the NUL behind them, and a pointer into it is the list of the bytes from
there on. The conversions to `double` are arbitrary functions that return a value and the end of
what they read.
-/
namespace Jonj.Operators

open Decimal List

variable {D : Type}

def isSpace (c : UInt8) : Bool := c = 32 || c = 9 || c = 10 || c = 13 || c = 11 || c = 12

def isSign (c : UInt8) : Bool := c = 45 || c = 43

/-- `ZEND_IS_XDIGIT` -/
def isXDigit (c : UInt8) : Bool := isDigit c || (65 ≤ c && c ≤ 70) || (97 ≤ c && c ≤ 102)

def isExponent (c : UInt8) : Bool := c = 101 || c = 69

/-- A test of the byte that a pointer points at. -/
def pointsAt (test : UInt8 → Bool) (ptr : List UInt8) : Bool := ptr.head?.any test

inductive Base
  | ten
  | sixteen
  deriving DecidableEq, Repr

/-- `IS_LONG` and `IS_DOUBLE`. -/
inductive NumericType
  | long
  | double
  deriving DecidableEq, Repr

/-- `zend_strtod` and `zend_hex_strtod`. -/
structure Strtod (D : Type) where
  zendStrtod : List UInt8 → D × List UInt8
  zendHexStrtod : List UInt8 → D × List UInt8

/-- The arguments besides the string; `dval` says whether the pointer is given. -/
structure NumericCall where
  dval : Bool
  allowErrors : Int

/-- The local variables that the scan changes. -/
structure NumericScan where
  type : NumericType
  digits : Nat
  ptr : List UInt8

/-- Where the scan leaves off: behind the loop, or at the end of `process_double`. -/
inductive ScanEnd
  | loop (scan : NumericScan)
  | double (scan : NumericScan)

def isBaseDigit (base : Base) (c : UInt8) : Bool := isDigit c || (base = .sixteen && isXDigit c)

/-- The loop from `check_digits` on. `process_double` jumps back into it if there is no `dval` to
convert to and the rest of the string is to be checked. -/
def checkDigits (call : NumericCall) (base : Base) (type : NumericType) (digits : Nat)
    (dpOrE : Int) :
    List UInt8 → ScanEnd
  | [] => .loop ⟨type, digits, []⟩
  | c :: rest =>
    if isBaseDigit base c then
      if 20 ≤ digits + 1 ∧ (call.dval ∨ call.allowErrors = 1) then .loop ⟨type, digits + 1, rest⟩
      else checkDigits call base type (digits + 1) dpOrE rest
    else if base = .ten ∧ c = 46 ∧ dpOrE < 1 then
      if ¬ call.dval ∧ call.allowErrors ≠ 1 ∧ dpOrE ≠ -1 then
        checkDigits call base .double digits 1 rest
      else .double ⟨.double, digits, c :: rest⟩
    else if base = .ten ∧ isExponent c ∧ dpOrE < 2 then
      -- `ptr = e++` moves to the sign whether or not a digit follows it
      let ptr := if pointsAt isSign rest then rest else c :: rest
      if pointsAt isDigit ptr.tail then
        if ¬ call.dval ∧ call.allowErrors ≠ 1 ∧ dpOrE ≠ -1 then
          checkDigits call base .double digits 2 ptr.tail
        else .double ⟨.double, digits, ptr⟩
      else .loop ⟨type, digits, ptr⟩
    else .loop ⟨type, digits, c :: rest⟩
termination_by ptr => ptr.length
decreasing_by
  · simp
  · simp
  · split <;> simp only [length_tail, length_cons] <;> omega

/-- What a call returns and writes. -/
structure NumericResult (D : Type) where
  type : Option NumericType
  lval : Option Int
  dval : Option D
  oflowInfo : Option Int
  notice : Bool

/-- The nearest `long`. -/
def saturate (n : Int) : Int := max (-2 ^ 63) (min n (2 ^ 63 - 1))

def baseDigitValue (c : UInt8) : Nat :=
  if isDigit c then digitValue c else if c ≤ 70 then c.toNat - 55 else c.toNat - 87

/-- The library's `strtol(str, NULL, base)`. -/
def strtol (base : Base) (str : List UInt8) : Int :=
  let str := str.dropWhile isSpace
  let ptr := if pointsAt isSign str then str.tail else str
  let ptr := if base = .sixteen ∧ pointsAt (· = 48) ptr ∧
    pointsAt (fun c => c = 120 || c = 88) ptr.tail ∧
    pointsAt isXDigit (ptr.drop 2) then ptr.drop 2 else ptr
  let radix := if base = .sixteen then 16 else 10
  let value := (ptr.takeWhile (isBaseDigit base)).foldl
    (fun acc c => acc * radix + baseDigitValue c) 0
  saturate (if pointsAt (· = 45) str then -(value : Int) else value)

/-- The library's `strcmp`; a byte that is not there is the NUL. -/
def strcmp : List UInt8 → List UInt8 → Ordering
  | [], [] => .eq
  | [], b :: _ => if b = 0 then .eq else .lt
  | a :: _, [] => if a = 0 then .eq else .gt
  | a :: as, b :: bs =>
    if a = b then (if a = 0 then .eq else strcmp as bs) else compare a.toNat b.toNat

/-- `"9223372036854775808"` -/
def longMinDigits : List UInt8 :=
  [57, 50, 50, 51, 51, 55, 50, 48, 51, 54, 56, 53, 52, 55, 55, 53, 56, 48, 56]

/-- `&ptr[-n]`, for a pointer into `str`. -/
def before (str ptr : List UInt8) (n : Nat) : List UInt8 := str.drop (str.length - ptr.length - n)

/-- `*oflow_info = *str == '-' ? -1 : 1` -/
def oflowOf (str : List UInt8) : Int := if pointsAt (· = 45) str then -1 else 1

/-- The variables when the end of the string is tested. -/
structure Converted (D : Type) where
  type : NumericType
  digits : Nat
  ptr : List UInt8
  localDval : Option D
  oflowInfo : Int

/-- What happens between the scan and the test for the end of the string. -/
def convert (strtod : Strtod D) (call : NumericCall) (base : Base) (str : List UInt8) :
    ScanEnd → Converted D
  | .double scan =>
    if call.dval then
      { scan with localDval := some (strtod.zendStrtod str).1, ptr := (strtod.zendStrtod str).2,
                  oflowInfo := 0 }
    else { scan with localDval := none, oflowInfo := 0 }
  | .loop scan =>
    match base with
    | .ten =>
      if 20 ≤ scan.digits then
        if call.dval then
          { type := .double, digits := scan.digits, localDval := some (strtod.zendStrtod str).1,
            ptr := (strtod.zendStrtod str).2, oflowInfo := oflowOf str }
        else { type := .double, digits := scan.digits, localDval := none, ptr := scan.ptr,
               oflowInfo := oflowOf str }
      else { scan with localDval := none, oflowInfo := 0 }
    | .sixteen =>
      if scan.digits < 16 ∨ (scan.digits = 16 ∧ pointsAt (· ≤ 55) (before str scan.ptr 16)) then
        { scan with localDval := none, oflowInfo := 0 }
      else if call.dval then
        { type := .double, digits := scan.digits, localDval := some (strtod.zendHexStrtod str).1,
          ptr := (strtod.zendHexStrtod str).2, oflowInfo := 1 }
      else { type := .double, digits := scan.digits, localDval := none, ptr := scan.ptr,
             oflowInfo := 1 }

/-- The part of the function after the test for the end of the string. -/
def finish (strtod : Strtod D) (call : NumericCall) (base : Base) (str : List UInt8)
    (state : Converted D) (notice : Bool) : NumericResult D :=
  match state.type with
  | .long =>
    if state.digits = 19 ∧ ¬ (strcmp (before str state.ptr 19) longMinDigits = .lt ∨
        (strcmp (before str state.ptr 19) longMinDigits = .eq ∧ pointsAt (· = 45) str)) then
      { type := some .double, lval := none,
        dval := if call.dval then some (strtod.zendStrtod str).1 else none,
        oflowInfo := some (oflowOf str), notice := notice }
    else
      { type := some .long, lval := some (strtol base str), dval := none,
        oflowInfo := some state.oflowInfo,
        notice := notice }
  | .double =>
    { type := some .double, lval := none, dval := if call.dval then state.localDval else none,
      oflowInfo := some state.oflowInfo, notice := notice }

/-- `is_numeric_string_ex` with `lval` and `oflow_info` given. -/
def isNumericStringEx (strtod : Strtod D) (call : NumericCall) (string : List UInt8) :
    NumericResult D :=
  if string.length = 0 then
    { type := none, lval := none, dval := none, oflowInfo := none, notice := false }
  else
    let str := (string ++ [0]).dropWhile isSpace
    let ptr := if pointsAt isSign str then str.tail else str
    let hex := 2 < str.length - 1 ∧ pointsAt (· = 48) str ∧
      pointsAt (fun c => c = 120 || c = 88) str.tail
    let base : Base := if pointsAt isDigit ptr ∧ hex then .sixteen else .ten
    if pointsAt isDigit ptr ∨ (pointsAt (· = 46) ptr ∧ pointsAt isDigit ptr.tail) then
      -- a leading point goes to `process_double`, as it does in the loop
      let start := if pointsAt isDigit ptr then
        (if hex then ptr.drop 2 else ptr).dropWhile (· = 48) else ptr
      let state := convert strtod call base str
        (checkDigits call base .long 0 0 start)
      -- `str + length` is the NUL
      if state.ptr.length ≠ 1 ∧ call.allowErrors = 0 then
        { type := none, lval := none, dval := none, oflowInfo := some state.oflowInfo,
          notice := false }
      else finish strtod call base str state (decide (state.ptr.length ≠ 1 ∧ call.allowErrors = -1))
    else { type := none, lval := none, dval := none, oflowInfo := some 0, notice := false }

/-! ### Integer literals -/

/-- A string that begins with an integer literal: white space, a sign, the whole digit run. -/
structure Literal where
  space : List UInt8
  sign : Option UInt8
  run : List UInt8
  rest : List UInt8
  isSpace_of_mem : ∀ c ∈ space, isSpace c = true
  isSign_of_mem : ∀ c ∈ sign, isSign c = true
  isDigit_of_mem : ∀ c ∈ run, isDigit c = true
  nonempty : run ≠ []
  maximal : ∀ c ∈ rest.head?, isDigit c = false

namespace Literal

def text (lit : Literal) : List UInt8 := lit.space ++ lit.sign.toList ++ lit.run ++ lit.rest

def magnitude (lit : Literal) : Nat := readDigits 0 lit.run

def negative (lit : Literal) : Bool := lit.sign = some 45

def value (lit : Literal) : Int := if lit.negative then -(lit.magnitude : Int) else lit.magnitude

/-- The rest starts with a point or a whole exponent. -/
def Continued (lit : Literal) : Prop :=
  pointsAt (· = 46) lit.rest ∨ pointsAt isExponent lit.rest ∧
    (pointsAt isDigit lit.rest.tail ∨ pointsAt isSign lit.rest.tail ∧
      pointsAt isDigit lit.rest.tail.tail)

/-- The string is a hexadecimal number for the function. -/
def Hexadecimal (lit : Literal) : Prop :=
  lit.sign = none ∧ lit.run = [48] ∧ pointsAt (fun c => c = 120 || c = 88) lit.rest ∧
    2 ≤ lit.rest.length

/-- The rest starts with an exponent and a sign. -/
def displaced (lit : Literal) : Bool :=
  pointsAt isExponent lit.rest && pointsAt isSign lit.rest.tail

/-- The digits without the leading zeros. -/
def significant (lit : Literal) : List UInt8 := lit.run.dropWhile (· = 48)

end Literal

/-! ### The scan of a literal -/

theorem pointsAt_append_nul {test : UInt8 → Bool} (no : test 0 = false) (ptr : List UInt8) :
    pointsAt test (ptr ++ [0]) = pointsAt test ptr := by
  cases ptr <;> simp [pointsAt, no]

private theorem pointsAt_tail_append_nul {test : UInt8 → Bool} (no : test 0 = false)
    (ptr : List UInt8) :
    pointsAt test (ptr ++ [0]).tail = pointsAt test ptr.tail := by
  cases ptr with
  | nil => rfl
  | cons c ptr => exact pointsAt_append_nul no ptr

theorem isBaseDigit_ten (c : UInt8) : isBaseDigit .ten c = isDigit c := by
  simp [isBaseDigit]

private theorem checkDigits_run (call : NumericCall) {digits : Nat} {run : List UInt8}
    (rest : List UInt8) (all : ∀ c ∈ run, isDigit c = true) (few : digits + run.length < 20) :
    checkDigits call .ten .long digits 0 (run ++ rest) =
      checkDigits call .ten .long (digits + run.length) 0 rest := by
  induction run generalizing digits with
  | nil => rfl
  | cons c run ih =>
    have later := @ih (digits + 1) (fun d member => all d (by simp [member])) (by
      simp only [length_cons] at few
      omega)
    simp only [length_cons] at few ⊢
    rw [cons_append, checkDigits, if_pos (by rw [isBaseDigit_ten]; exact all c (by simp)),
      if_neg (by omega), later]
    congr 1
    omega

private theorem checkDigits_long (call : NumericCall) (dval : call.dval = true) {digits : Nat}
    {run : List UInt8} (rest : List UInt8) (all : ∀ c ∈ run, isDigit c = true) (room : digits < 20)
    (many : 20 ≤ digits + run.length) :
    ∃ ptr, checkDigits call .ten .long digits 0 (run ++ rest) = .loop ⟨.long, 20, ptr⟩ := by
  induction run generalizing digits with
  | nil => simp only [length_nil] at many; omega
  | cons c run ih =>
    simp only [length_cons] at many
    rw [cons_append, checkDigits, if_pos (by rw [isBaseDigit_ten]; exact all c (by simp))]
    by_cases last : digits = 19
    · subst last
      exact ⟨run ++ rest, by rw [if_pos ⟨by omega, .inl dval⟩]⟩
    · rw [if_neg (by omega)]
      exact ih (fun d member => all d (by simp [member])) (by omega) (by omega)

/-- What stops the loop behind the run: nothing is read, except that an exponent without digits
moves the pointer to its sign. -/
theorem checkDigits_rest (call : NumericCall) (digits : Nat) (lit : Literal)
    (plain : ¬ lit.Continued) :
    checkDigits call .ten .long digits 0 (lit.rest ++ [0]) =
      .loop ⟨.long, digits, if lit.displaced then (lit.rest ++ [0]).tail else lit.rest ++ [0]⟩ := by
  have maximal := lit.maximal
  unfold Literal.Continued at plain
  unfold Literal.displaced
  generalize lit.rest = rest at plain maximal
  cases rest with
  | nil =>
    rw [nil_append, checkDigits, if_neg (by decide), if_neg (by simp)]
    rfl
  | cons c rest =>
    have notDigit : ¬ isBaseDigit .ten c = true := by simp [isBaseDigit_ten, maximal c rfl]
    simp only [pointsAt, head?_cons, Option.any_some, tail_cons, not_or] at plain
    have notPoint : ¬ (Base.ten = .ten ∧ c = 46 ∧ (0 : Int) < 1) :=
      fun point => plain.1 (by simp [point.2.1])
    rw [cons_append, checkDigits, if_neg notDigit, if_neg notPoint]
    by_cases exponent : isExponent c = true
    · rw [if_pos ⟨rfl, exponent, by omega⟩]
      have incomplete : pointsAt isDigit rest = false ∧
          (pointsAt isSign rest = true → pointsAt isDigit rest.tail = false) := by
        simp only [pointsAt]
        grind
      have shown : pointsAt isExponent (c :: rest) = true := exponent
      simp only [shown, Bool.true_and, tail_cons]
      rw [pointsAt_append_nul (by decide)]
      by_cases sign : pointsAt isSign rest = true
      · simp only [sign, if_true]
        rw [pointsAt_tail_append_nul (by decide), incomplete.2 sign]
        rfl
      · simp only [sign, Bool.false_eq_true, if_false, tail_cons]
        rw [pointsAt_append_nul (by decide), incomplete.1]
        rfl
    · have no : isExponent c = false := Bool.eq_false_iff.mpr exponent
      have shown : pointsAt isExponent (c :: rest) = false := no
      rw [if_neg (by simp [no]), shown]
      rfl

namespace Literal

variable (lit : Literal)

/-- What the function sees behind the white space. -/
def signed : List UInt8 := lit.sign.toList ++ (lit.run ++ (lit.rest ++ [0]))

theorem exists_digit : ∃ first later, lit.run = first :: later ∧ isDigit first = true := by
  obtain ⟨first, later, shape⟩ := exists_cons_of_ne_nil lit.nonempty
  exact ⟨first, later, shape, lit.isDigit_of_mem first (by simp [shape])⟩

private theorem pointsAt_run_digit : pointsAt isDigit (lit.run ++ (lit.rest ++ [0])) = true := by
  obtain ⟨first, later, shape, isDigit_first⟩ := lit.exists_digit
  simpa [shape, pointsAt] using isDigit_first

theorem not_pointsAt_run {test : UInt8 → Bool} (no : ∀ c, isDigit c = true → test c = false) :
    pointsAt test (lit.run ++ (lit.rest ++ [0])) = false := by
  obtain ⟨first, later, shape, isDigit_first⟩ := lit.exists_digit
  simp [shape, pointsAt, no first isDigit_first]

private theorem isSign_of_isDigit {c : UInt8} (digit : isDigit c = true) : isSign c = false := by
  grind [isDigit, isSign]

private theorem isSpace_of_isDigit {c : UInt8} (digit : isDigit c = true) : isSpace c = false := by
  grind [isDigit, isSpace]

private theorem isSpace_of_isSign {c : UInt8} (sign : isSign c = true) : isSpace c = false := by
  grind [isSign, isSpace]

theorem dropWhile_isSpace_signed : lit.signed.dropWhile isSpace = lit.signed := by
  obtain ⟨first, later, shape, isDigit_first⟩ := lit.exists_digit
  unfold signed
  cases sign : lit.sign with
  | none => simp [shape, isSpace_of_isDigit isDigit_first]
  | some c => simp [isSpace_of_isSign (lit.isSign_of_mem c (by simp [sign]))]

private theorem dropWhile_isSpace_text : (lit.text ++ [0]).dropWhile isSpace = lit.signed := by
  have shape : lit.text ++ [0] = lit.space ++ lit.signed := by simp [text, signed]
  rw [shape, dropWhile_append_of_pos lit.isSpace_of_mem, dropWhile_isSpace_signed]

theorem unsigned_eq :
    (if pointsAt isSign lit.signed then lit.signed.tail else lit.signed) = lit.run ++
      (lit.rest ++ [0]) := by
  unfold signed
  cases sign : lit.sign with
  | none => simp [lit.not_pointsAt_run fun c => isSign_of_isDigit]
  | some c => simp [pointsAt, lit.isSign_of_mem c (by simp [sign])]

theorem pointsAt_minus_signed : pointsAt (· = 45) lit.signed = lit.negative := by
  unfold signed negative
  cases sign : lit.sign with
  | none =>
    have no := @not_pointsAt_run lit (fun c => decide (c = 45)) fun c digit =>
      decide_eq_false (ne_of_isDigit digit rfl)
    simp [no]
  | some c => simp [pointsAt]

/-- Only `0x` and a third byte make the function read hexadecimal digits. -/
theorem hexadecimal_of_prefix (long : 2 < lit.signed.length - 1)
    (zero : pointsAt (· = 48) lit.signed = true)
    (letter : pointsAt (fun c => c = 120 || c = 88) lit.signed.tail = true) : lit.Hexadecimal := by
  unfold signed at long zero letter
  obtain ⟨first, later, shape, isDigit_first⟩ := lit.exists_digit
  cases sign : lit.sign with
  | some c =>
    have isSign_c := lit.isSign_of_mem c (by simp [sign])
    simp only [sign, Option.toList_some, singleton_append, pointsAt, head?_cons, Option.any_some,
      decide_eq_true_eq] at zero
    rw [zero] at isSign_c
    exact absurd isSign_c (by decide)
  | none =>
    simp only [sign, shape, Option.toList_none, nil_append, cons_append,
      tail_cons] at long zero letter
    have first_eq : first = 48 := by simpa [pointsAt] using zero
    cases later with
    | cons d later =>
      have digit := lit.isDigit_of_mem d (by simp [shape])
      simp only [cons_append, pointsAt, head?_cons, Option.any_some, Bool.or_eq_true,
        decide_eq_true_eq] at letter
      rcases letter with rfl | rfl <;> exact absurd digit (by decide)
    | nil =>
      rw [nil_append, pointsAt_append_nul (by decide)] at letter
      simp only [nil_append, length_cons, length_append, length_nil] at long
      exact ⟨sign, by rw [shape, first_eq], letter, by omega⟩

private theorem dropWhile_zero :
    (lit.run ++ (lit.rest ++ [0])).dropWhile (· = 48) = lit.significant ++ (lit.rest ++ [0]) := by
  have stop : (lit.rest ++ [0]).dropWhile (· = 48) = lit.rest ++ [0] := by
    cases shape : lit.rest with
    | nil => rfl
    | cons c rest =>
      have other : 48 ≠ c := ne_of_isDigit rfl (lit.maximal c (by simp [shape]))
      simp [other.symm]
  rw [dropWhile_append]
  split
  next zeros =>
    rw [stop, significant, List.isEmpty_iff.mp zeros]
    rfl
  next => rfl

/-! ### The size of the number -/

theorem readDigits_significant : readDigits 0 lit.significant = lit.magnitude :=
  readDigits_dropWhile_zero lit.run

theorem isDigit_of_mem_significant : ∀ c ∈ lit.significant, isDigit c = true :=
  fun c member => lit.isDigit_of_mem c (dropWhile_subset _ member)

theorem magnitude_lt : lit.magnitude < 10 ^ lit.significant.length := by
  have high := (readDigits_bounds 0 lit.isDigit_of_mem_significant).2
  rwa [readDigits_significant, zero_add, one_mul] at high

theorem le_magnitude (some : lit.significant ≠ []) :
    10 ^ (lit.significant.length - 1) ≤ lit.magnitude := by
  obtain ⟨first, later, shape⟩ := exists_cons_of_ne_nil some
  have nonzero : first ≠ 48 := by
    have head := head?_dropWhile_not (fun c : UInt8 => decide (c = 48)) lit.run
    rw [significant] at shape
    rw [shape] at head
    simpa using head
  have low := pow_le_readDigits (shape ▸ lit.isDigit_of_mem_significant) nonzero
  rw [← shape, readDigits_significant] at low
  rwa [shape, length_cons]

theorem significant_length_iff :
    lit.significant.length = 19 ↔ 10 ^ 18 ≤ lit.magnitude ∧ lit.magnitude < 10 ^ 19 := by
  have high := lit.magnitude_lt
  constructor
  · intro nineteen
    have low := lit.le_magnitude (ne_nil_of_length_pos (by omega))
    rw [nineteen] at low high
    exact ⟨low, high⟩
  rintro ⟨low, below⟩
  by_contra other
  rcases Nat.lt_or_gt_of_ne other with fewer | more
  · have power : 10 ^ lit.significant.length ≤ 10 ^ 18 := Nat.pow_le_pow_right (by omega) (by omega)
    omega
  · have least := lit.le_magnitude (ne_nil_of_length_pos (by omega))
    have power : 10 ^ 19 ≤ 10 ^ (lit.significant.length - 1) :=
      Nat.pow_le_pow_right (by omega) (by omega)
    omega

private theorem fitsLong_of_few (few : lit.significant.length < 19) : FitsLong lit.value := by
  have high := lit.magnitude_lt
  have power : 10 ^ lit.significant.length ≤ 10 ^ 18 := Nat.pow_le_pow_right (by omega) (by omega)
  unfold FitsLong value
  split <;> omega

private theorem not_fitsLong_of_many (many : 20 ≤ lit.significant.length) :
    ¬ FitsLong lit.value := by
  have low := lit.le_magnitude (ne_nil_of_length_pos (by omega))
  have power : 10 ^ 19 ≤ 10 ^ (lit.significant.length - 1) :=
    Nat.pow_le_pow_right (by omega) (by omega)
  unfold FitsLong value
  split <;> omega

private theorem side_of_not_fitsLong (outside : ¬ FitsLong lit.value) :
    (2 ^ 63 - 1 < lit.value ∧ lit.negative = false) ∨
      (lit.value < -2 ^ 63 ∧ lit.negative = true) := by
  unfold FitsLong value at *
  cases sign : lit.negative with
  | false =>
    simp only [sign, Bool.false_eq_true, if_false] at outside ⊢
    exact .inl ⟨by omega, trivial⟩
  | true =>
    simp only [sign, if_true] at outside ⊢
    exact .inr ⟨by omega, trivial⟩

end Literal

/-! ### The comparison with `long_min_digits` -/

private theorem le_toNat_of_isDigit {c : UInt8} (digit : isDigit c = true) : 48 ≤ c.toNat := by
  simp only [isDigit, Bool.and_eq_true, decide_eq_true_eq] at digit
  exact UInt8.le_iff_toNat_le.mp digit.1

/-- Digit strings of the same length are compared as numbers, then what follows them. -/
theorem strcmp_digits {a b : List UInt8} (c d : List UInt8) (same : a.length = b.length)
    (allA : ∀ x ∈ a, isDigit x = true) (allB : ∀ x ∈ b, isDigit x = true) :
    strcmp (a ++ c) (b ++ d) =
      if readDigits 0 a < readDigits 0 b then .lt else if readDigits 0 b < readDigits 0 a then .gt
        else strcmp c d := by
  induction a generalizing b with
  | nil =>
    rw [eq_nil_of_length_eq_zero same.symm]
    rfl
  | cons x a ih =>
    cases b with
    | nil => cases same
    | cons y b =>
      have length : a.length = b.length := Nat.succ.inj same
      have tailA : ∀ z ∈ a, isDigit z = true := fun z member => allA z (by simp [member])
      have tailB : ∀ z ∈ b, isDigit z = true := fun z member => allB z (by simp [member])
      have boundA := (readDigits_bounds 0 tailA).2
      have boundB := (readDigits_bounds 0 tailB).2
      rw [length] at boundA
      rw [readDigits_cons, readDigits_cons, readDigits_eq_add, readDigits_eq_add _ b, length,
        cons_append, cons_append, strcmp]
      by_cases equal : x = y
      · subst equal
        rw [if_pos rfl, if_neg (ne_of_isDigit (allA x (by simp)) rfl), ih length tailA tailB]
        simp
      rw [if_neg equal]
      -- the first digit decides, since what follows is smaller than one unit of it
      have lowX := le_toNat_of_isDigit (allA x (by simp))
      have lowY := le_toNat_of_isDigit (allB y (by simp))
      have valueX : digitValue x = x.toNat - 48 := rfl
      have valueY : digitValue y = y.toNat - 48 := rfl
      rcases Nat.lt_or_gt_of_ne fun same => equal (UInt8.toNat.inj same) with less | greater
      · have unit := Nat.mul_le_mul_right (10 ^ b.length)
          (show digitValue x + 1 ≤ digitValue y by omega)
        rw [Nat.add_mul] at unit
        rw [if_pos (by omega), Nat.compare_eq_lt.mpr less]
      · have unit := Nat.mul_le_mul_right (10 ^ b.length)
          (show digitValue y + 1 ≤ digitValue x by omega)
        rw [Nat.add_mul] at unit
        rw [if_neg (by omega), if_pos (by omega), Nat.compare_eq_gt.mpr greater]

private theorem strcmp_longMinDigits {digits : List UInt8} (rest : List UInt8)
    (nineteen : digits.length = 19) (all : ∀ c ∈ digits, isDigit c = true) :
    strcmp (digits ++ rest) longMinDigits =
      if readDigits 0 digits < 2 ^ 63 then .lt else if 2 ^ 63 < readDigits 0 digits then .gt
        else strcmp rest [] := by
  have compared := strcmp_digits (b := longMinDigits) rest [] nineteen all
    (all_eq_true.mp (by decide))
  exact compared

/-- Eighteen digits and the letter of an exponent against `LONG_MAX + 1`: the letter is greater than
any digit. -/
theorem strcmp_displaced {digits : List UInt8} {letter : UInt8} (rest : List UInt8)
    (eighteen : digits.length = 18) (all : ∀ c ∈ digits, isDigit c = true)
    (exponent : isExponent letter = true) :
    strcmp (digits ++ letter :: rest) longMinDigits = if readDigits 0 digits <
      922337203685477580 then .lt else .gt := by
  have compared := strcmp_digits (b := longMinDigits.take 18) (letter :: rest)
    [56] eighteen all (all_eq_true.mp (by decide))
  have greater : strcmp (letter :: rest) [56] = .gt := by
    simp only [isExponent, Bool.or_eq_true, decide_eq_true_eq] at exponent
    rcases exponent with rfl | rfl <;> rfl
  rw [greater, ite_self] at compared
  exact compared

private theorem before_eq {front back ptr : List UInt8} {n : Nat}
    (length : back.length = ptr.length + n) :
    before (front ++ back) ptr n = back := by
  have count : (front ++ back).length - ptr.length - n = front.length := by
    rw [length_append]
    omega
  rw [before, count, drop_left]

/-! ### The value of the literal -/

private theorem strtol_signed (lit : Literal) : strtol .ten lit.signed = saturate lit.value := by
  have run : ((lit.run ++ (lit.rest ++ [0])).takeWhile (isBaseDigit .ten)) = lit.run := by
    have stop : ∀ c ∈ (lit.rest ++ [0]).head?, isDigit c = false := by
      cases shape : lit.rest with
      | nil => exact fun c last => Option.some.inj last ▸ rfl
      | cons d rest => simpa using lit.maximal d (by simp [shape])
    rw [funext isBaseDigit_ten]
    exact (span_digits lit.isDigit_of_mem stop).1
  have value : lit.run.foldl (fun acc c => acc * 10 + baseDigitValue c) 0 = lit.magnitude :=
    foldl_ext _ _ 0 fun acc c member => by
      rw [baseDigitValue, if_pos (lit.isDigit_of_mem c member)]
  unfold strtol
  simp only [lit.dropWhile_isSpace_signed, lit.unsigned_eq, lit.pointsAt_minus_signed, reduceCtorEq,
    false_and, if_false,
    run, value]
  rfl

/-! ### The range decision -/

/-- The type is `IS_LONG` exactly for the numbers in range, with their value; a number out of range
that is accepted is an `IS_DOUBLE`, and the overflow flag tells on which side it is. -/
structure ReadsInteger (lit : Literal) (r : NumericResult D) : Prop where
  long_iff : r.type = some .long ↔ FitsLong lit.value
  value : r.type = some .long → r.lval = some lit.value ∧ r.oflowInfo = some 0
  double : ¬ FitsLong lit.value → r.type ≠ none → r.type = some .double
  above : 2 ^ 63 - 1 < lit.value → r.type ≠ none → r.oflowInfo = some 1
  below : lit.value < -2 ^ 63 → r.type ≠ none → r.oflowInfo = some (-1)

/-- When the function decides rightly. -/
def Literal.Decided (lit : Literal) (allowErrors : Int) : Prop :=
  lit.rest = [] ∨
    if allowErrors = 0 then ¬ FitsLong lit.value
    else if lit.displaced then
      10 ^ 18 ≤ lit.magnitude ∧ lit.magnitude < 10 ^ 19 →
        (lit.magnitude % 10 ^ 18 < 922337203685477580 ↔ FitsLong lit.value)
    else ¬ (lit.value = -2 ^ 63 ∧ ¬ pointsAt (· = 0) lit.rest)

instance (lit : Literal) (allowErrors : Int) : Decidable (lit.Decided allowErrors) :=
  inferInstanceAs (Decidable (_ ∨ _))

section

variable (strtod : Strtod D) (allowErrors : Int) (lit : Literal)

/-- The digits stand where the comparison looks for them, or one further. -/
def Literal.compared : List UInt8 :=
  if lit.displaced then lit.significant.tail ++ (lit.rest ++ [0]) else lit.significant ++
    (lit.rest ++ [0])

def Literal.scanEnd : List UInt8 :=
  if lit.displaced then (lit.rest ++ [0]).tail else lit.rest ++ [0]

private theorem before_signed (nineteen : lit.significant.length = 19) :
    before lit.signed lit.scanEnd 19 = lit.compared := by
  obtain ⟨zeros, run⟩ : ∃ zeros, lit.run = zeros ++ lit.significant :=
    ⟨_, (takeWhile_append_dropWhile).symm⟩
  unfold Literal.scanEnd Literal.compared Literal.signed
  split
  · obtain ⟨first, later, shape⟩ := exists_cons_of_ne_nil
      (ne_nil_of_length_pos (by omega : 0 < lit.significant.length))
    have split : lit.sign.toList ++ (lit.run ++ (lit.rest ++ [0])) =
        (lit.sign.toList ++ zeros ++ [first]) ++ (lit.significant.tail ++ (lit.rest ++ [0])) := by
      rw [run, shape]
      simp
    rw [split]
    apply before_eq
    simp only [length_append, length_tail, length_singleton]
    omega
  · have split : lit.sign.toList ++ (lit.run ++ (lit.rest ++ [0])) =
        (lit.sign.toList ++ zeros) ++ (lit.significant ++ (lit.rest ++ [0])) := by
      rw [run]
      simp
    rw [split]
    apply before_eq
    simp only [length_append]
    omega

/-- The variables before the test for the end of the string. -/
def Literal.converted : Converted D :=
  if 20 ≤ lit.significant.length then
    { type := .double, digits := 20, localDval := some (strtod.zendStrtod lit.signed).1,
      ptr := (strtod.zendStrtod lit.signed).2, oflowInfo := oflowOf lit.signed }
  else { type := .long, digits := lit.significant.length, localDval := none, ptr := lit.scanEnd,
         oflowInfo := 0 }

private theorem convert_literal (plain : ¬ lit.Continued) :
    convert strtod ⟨true, allowErrors⟩ .ten lit.signed
      (checkDigits ⟨true, allowErrors⟩ .ten .long 0 0 (lit.significant ++ (lit.rest ++ [0]))) =
        lit.converted strtod := by
  unfold Literal.converted
  by_cases many : 20 ≤ lit.significant.length
  · obtain ⟨ptr, stopped⟩ := @checkDigits_long ⟨true, allowErrors⟩ rfl 0 _ (lit.rest ++ [0])
      lit.isDigit_of_mem_significant (by omega) (by omega)
    rw [stopped, if_pos many]
    rfl
  rw [checkDigits_run ⟨true, allowErrors⟩ (lit.rest ++ [0]) lit.isDigit_of_mem_significant
    (by omega), zero_add,
    checkDigits_rest _ _ lit plain]
  simp only [convert, if_neg many]
  rfl

private theorem isNumericStringEx_literal (plain : ¬ lit.Continued) (decimal : ¬ lit.Hexadecimal) :
    isNumericStringEx strtod ⟨true, allowErrors⟩ lit.text = if (lit.converted strtod).ptr.length ≠
      1 ∧ allowErrors = 0 then
        { type := none, lval := none, dval := none,
          oflowInfo := some (lit.converted strtod).oflowInfo, notice := false }
      else finish strtod ⟨true, allowErrors⟩ .ten lit.signed (lit.converted strtod)
        (decide ((lit.converted strtod).ptr.length ≠ 1 ∧ allowErrors = -1)) := by
  have nonempty : ¬ lit.text.length = 0 := by
    have positive := length_pos_iff.mpr lit.nonempty
    simp only [Literal.text, length_append]
    omega
  have noHex : ¬ (2 < lit.signed.length - 1 ∧ pointsAt (· = 48) lit.signed = true ∧
      pointsAt (fun c => c = 120 || c = 88) lit.signed.tail = true) :=
    fun hex => decimal (lit.hexadecimal_of_prefix hex.1 hex.2.1 hex.2.2)
  unfold isNumericStringEx
  simp only [if_neg nonempty, lit.dropWhile_isSpace_text, lit.unsigned_eq, lit.pointsAt_run_digit,
    noHex, and_false,
    if_false, true_or, if_true, lit.dropWhile_zero, convert_literal strtod allowErrors lit plain]

variable {lit}

private theorem readsInteger_long {r : NumericResult D} (type : r.type = some .long)
    (lval : r.lval = some (saturate lit.value)) (oflow : r.oflowInfo = some 0) :
    ReadsInteger lit r ↔ FitsLong lit.value := by
  refine ⟨fun reads => reads.long_iff.mp type, fun fits => ⟨?_, ?_, ?_, ?_, ?_⟩⟩
  · simp [type, fits]
  · intro _
    obtain ⟨low, high⟩ := fits
    refine ⟨?_, oflow⟩
    rw [lval, saturate, min_eq_left high, max_eq_right low]
  · exact fun outside => absurd fits outside
  · intro above
    exact absurd fits.2 (by omega)
  · intro below
    exact absurd fits.1 (by omega)

private theorem readsInteger_double {r : NumericResult D} (type : r.type = some .double)
    (oflow : r.oflowInfo = some (oflowOf lit.signed)) :
    ReadsInteger lit r ↔ ¬ FitsLong lit.value := by
  have notLong : ¬ r.type = some .long := by simp [type]
  refine ⟨fun reads fits => notLong (reads.long_iff.mpr fits), fun outside => ⟨?_, ?_, ?_, ?_, ?_⟩⟩
  · exact ⟨fun long => absurd long notLong, fun fits => absurd fits outside⟩
  · exact fun long => absurd long notLong
  · exact fun _ _ => type
  all_goals
    rw [oflow, oflowOf, lit.pointsAt_minus_signed]
    rcases lit.side_of_not_fitsLong outside with ⟨above, sign⟩ | ⟨below, sign⟩
  · simp [sign]
  · omega
  · omega
  · simp [sign]

private theorem readsInteger_rejected {r : NumericResult D} (type : r.type = none) :
    ReadsInteger lit r ↔ ¬ FitsLong lit.value := by
  refine ⟨fun reads fits => ?_, fun outside => ⟨?_, ?_, ?_, ?_, ?_⟩⟩
  · have long := reads.long_iff.mpr fits
    rw [type] at long
    cases long
  · simp [type, outside]
  · simp [type]
  · exact fun _ accepted => absurd type accepted
  · exact fun _ accepted => absurd type accepted
  · exact fun _ accepted => absurd type accepted

private theorem scanEnd_length_iff : lit.scanEnd.length ≠ 1 ↔ lit.rest ≠ [] := by
  unfold Literal.scanEnd
  split
  next displaced =>
    have more : ∃ c d rest, lit.rest = c :: d :: rest := by
      unfold Literal.displaced at displaced
      match shape : lit.rest with
      | [] => simp [shape, pointsAt] at displaced
      | [c] => simp [shape, pointsAt] at displaced
      | c :: d :: rest => exact ⟨c, d, rest, rfl⟩
    obtain ⟨c, d, rest, shape⟩ := more
    simp [shape]
  next => simp

/-- The test on nineteen digits. -/
def Literal.ChoosesLong (lit : Literal) : Prop :=
  strcmp lit.compared longMinDigits = .lt ∨ strcmp lit.compared longMinDigits = .eq ∧
    lit.negative = true

private theorem choosesLong_displaced (nineteen : lit.significant.length = 19)
    (displaced : lit.displaced = true) :
    lit.ChoosesLong ↔ lit.magnitude % 10 ^ 18 < 922337203685477580 := by
  obtain ⟨first, later, shape⟩ := exists_cons_of_ne_nil
    (ne_nil_of_length_pos (by omega : 0 < lit.significant.length))
  have eighteen : later.length = 18 := by
    rw [shape, length_cons] at nineteen
    omega
  have all : ∀ c ∈ later, isDigit c = true := fun c member =>
    lit.isDigit_of_mem_significant c (by simp [shape, member])
  have remainder : lit.magnitude % 10 ^ 18 = readDigits 0 later := by
    have bound := (readDigits_bounds 0 all).2
    have read := readDigits_eq_add (digitValue first) later
    rw [← readDigits_cons, ← shape, lit.readDigits_significant, eighteen] at read
    rw [eighteen] at bound
    omega
  obtain ⟨letter, rest, exponent, behind⟩ : ∃ letter rest, isExponent letter = true ∧
      lit.rest = letter :: rest := by
    unfold Literal.displaced at displaced
    cases behind : lit.rest with
    | nil => simp [behind, pointsAt] at displaced
    | cons letter rest =>
      rw [behind, Bool.and_eq_true] at displaced
      exact ⟨letter, rest, displaced.1, rfl⟩
  have compared : strcmp lit.compared longMinDigits = if readDigits 0 later <
      922337203685477580 then .lt else .gt := by
    rw [Literal.compared, if_pos displaced, shape, behind]
    exact strcmp_displaced (rest ++ [0]) eighteen all exponent
  rw [Literal.ChoosesLong, compared]
  split <;> simp_all

private theorem choosesLong_plain (nineteen : lit.significant.length = 19)
    (plain : lit.displaced = false) :
    lit.ChoosesLong ↔ lit.magnitude < 2 ^ 63 ∨
      (lit.magnitude = 2 ^ 63 ∧ lit.negative = true ∧
        (lit.rest = [] ∨ pointsAt (· = 0) lit.rest = true)) := by
  have compared : strcmp lit.compared longMinDigits =
      if lit.magnitude < 2 ^ 63 then .lt else if 2 ^ 63 < lit.magnitude then .gt
        else strcmp (lit.rest ++ [0]) [] := by
    rw [Literal.compared, if_neg (by simp [plain]),
      strcmp_longMinDigits _ nineteen lit.isDigit_of_mem_significant,
      lit.readDigits_significant]
  have tie : strcmp (lit.rest ++ [0]) [] = if lit.rest = [] ∨ pointsAt (· = 0) lit.rest = true then
      .eq else .gt := by
    cases lit.rest with
    | nil => rfl
    | cons c rest => simp [strcmp, pointsAt]
  rw [Literal.ChoosesLong, compared, tie]
  rcases Nat.lt_trichotomy lit.magnitude (2 ^ 63) with less | equal | greater
  · rw [if_pos less]
    exact iff_of_true (.inl rfl) (.inl less)
  · by_cases ends : lit.rest = [] ∨ pointsAt (· = 0) lit.rest = true <;> simp [ends, equal]
  rw [if_neg (by omega), if_pos greater]
  constructor
  · simp
  · omega

private theorem fitsLong_iff :
    FitsLong lit.value ↔ lit.magnitude < 2 ^ 63 ∨ lit.magnitude = 2 ^ 63 ∧ lit.negative = true := by
  unfold FitsLong Literal.value
  cases lit.negative with
  | false =>
    simp only [Bool.false_eq_true, if_false, and_false, or_false]
    omega
  | true =>
    simp only [if_true, and_true]
    omega

theorem value_eq_longMin_iff :
    lit.value = -2 ^ 63 ↔ lit.magnitude = 2 ^ 63 ∧ lit.negative = true := by
  unfold Literal.value
  cases lit.negative with
  | false =>
    simp only [Bool.false_eq_true, if_false, and_false, iff_false]
    omega
  | true =>
    simp only [if_true, and_true]
    omega

private theorem choosesLong_iff (nineteen : lit.significant.length = 19)
    (accepted : lit.rest = [] ∨ allowErrors ≠ 0) :
    (lit.ChoosesLong ↔ FitsLong lit.value) ↔ lit.Decided allowErrors := by
  by_cases displaced : lit.displaced = true
  · have more : lit.rest ≠ [] := by
      intro nil
      simp [Literal.displaced, nil, pointsAt] at displaced
    have size := lit.significant_length_iff.mp nineteen
    rw [choosesLong_displaced nineteen displaced, Literal.Decided,
      if_neg (accepted.resolve_left more), if_pos displaced]
    simp only [more, false_or, size, and_self, true_imp_iff]
  have plain : lit.displaced = false := Bool.eq_false_iff.mpr displaced
  rw [choosesLong_plain nineteen plain, Literal.Decided, fitsLong_iff, value_eq_longMin_iff]
  by_cases nil : lit.rest = []
  · simp only [nil, true_or, and_true]
  · grind

/-- Only nineteen digits are compared; any other number is decided unless it is refused. -/
theorem decided_of_length (other : lit.significant.length ≠ 19)
    (settled : lit.rest = [] ∨ allowErrors ≠ 0 ∨ ¬ FitsLong lit.value) :
    lit.Decided allowErrors := by
  have size : ¬ (10 ^ 18 ≤ lit.magnitude ∧ lit.magnitude < 10 ^ 19) :=
    fun size => other (lit.significant_length_iff.mpr size)
  rcases settled with nil | settled
  · exact .inl nil
  right
  split
  next strict => exact settled.resolve_left fun allowed => allowed strict
  split
  · exact fun inside => absurd inside size
  · rintro ⟨longMin, _⟩
    have magnitude := (value_eq_longMin_iff.mp longMin).1
    omega

/-- The function decides every literal that is not continued rightly, except for those that it
refuses and those that it compares with the wrong bytes. -/
theorem isNumericStringEx_reads_iff (lit : Literal) (plain : ¬ lit.Continued)
    (decimal : ¬ lit.Hexadecimal) :
    ReadsInteger lit (isNumericStringEx strtod ⟨true, allowErrors⟩ lit.text) ↔
      lit.Decided allowErrors := by
  rw [isNumericStringEx_literal strtod allowErrors lit plain decimal]
  by_cases many : 20 ≤ lit.significant.length
  · -- a `double`, or refused because of what follows the number
    have outside := lit.not_fitsLong_of_many many
    have decided : lit.Decided allowErrors := decided_of_length allowErrors (by omega)
      (.inr (.inr outside))
    simp only [iff_true_right decided]
    split
    · exact (readsInteger_rejected rfl).mpr outside
    · refine (readsInteger_double ?_ ?_).mpr outside <;>
        simp only [Literal.converted, if_pos many, finish]
  have converted : lit.converted strtod =
      { type := .long, digits := lit.significant.length, localDval := none, ptr := lit.scanEnd,
        oflowInfo := 0 } :=
    if_neg many
  rw [converted]
  by_cases refused : lit.rest ≠ [] ∧ allowErrors = 0
  · have decided : lit.Decided allowErrors ↔ ¬ FitsLong lit.value := by
      simp [Literal.Decided, refused.1, refused.2]
    rw [decided, if_pos ⟨scanEnd_length_iff.mpr refused.1, refused.2⟩]
    exact readsInteger_rejected rfl
  have accepted : lit.rest = [] ∨ allowErrors ≠ 0 := by tauto
  rw [if_neg fun stopped => refused ⟨scanEnd_length_iff.mp stopped.1, stopped.2⟩]
  simp only [finish, strtol_signed, lit.pointsAt_minus_signed]
  by_cases nineteen : lit.significant.length = 19
  · rw [← choosesLong_iff allowErrors nineteen accepted, before_signed lit nineteen]
    by_cases chosen : lit.ChoosesLong
    · rw [if_neg fun other => other.2 chosen]
      simp only [chosen, true_iff]
      exact readsInteger_long rfl rfl rfl
    · rw [if_pos ⟨nineteen, chosen⟩]
      simp only [chosen, false_iff]
      exact readsInteger_double rfl rfl
  · have fits := lit.fitsLong_of_few (by omega)
    have decided : lit.Decided allowErrors := decided_of_length allowErrors nineteen (by tauto)
    rw [if_neg fun other => nineteen other.1]
    exact iff_of_true ((readsInteger_long rfl rfl rfl).mpr fits) decided

end

/-- A conversion that reads nothing. -/
def noStrtod : Strtod Unit := ⟨fun str => ((), str), fun str => ((), str)⟩

/-- `"12a"` -/
def twelveA : Literal where
  space := []
  sign := none
  run := [49, 50]
  rest := [97]
  isSpace_of_mem := nofun
  isSign_of_mem := nofun
  isDigit_of_mem := all_eq_true.mp (by decide)
  nonempty := by decide
  maximal _ next := Option.some.inj next ▸ rfl

theorem isNumericStringEx_reads_iff_twelveA : ¬ twelveA.Continued ∧ ¬ twelveA.Hexadecimal ∧
      (ReadsInteger twelveA (isNumericStringEx noStrtod ⟨true, 1⟩ twelveA.text) ↔
        twelveA.Decided 1) := by
  have plain : ¬ twelveA.Continued := by unfold Literal.Continued; decide
  have decimal : ¬ twelveA.Hexadecimal := by unfold Literal.Hexadecimal; decide
  exact ⟨plain, decimal, isNumericStringEx_reads_iff noStrtod 1 twelveA plain decimal⟩

/-- `"-9223372036854775808a"` -/
def longMinA : Literal where
  space := []
  sign := some 45
  run := longMinDigits
  rest := [97]
  isSpace_of_mem := nofun
  isSign_of_mem _ minus := Option.some.inj minus ▸ rfl
  isDigit_of_mem := all_eq_true.mp (by decide)
  nonempty := by decide
  maximal _ next := Option.some.inj next ▸ rfl

/-- The byte behind the digits makes `strcmp` answer that `LONG_MIN` is out of range. -/
theorem longMin_overflows : ¬ longMinA.Continued ∧ longMinA.value = -2 ^ 63 ∧
      (isNumericStringEx noStrtod ⟨true, 1⟩ longMinA.text).type = some .double ∧
      (isNumericStringEx noStrtod ⟨true, 1⟩ longMinA.text).oflowInfo = some (-1) := by
  have plain : ¬ longMinA.Continued := by unfold Literal.Continued; decide
  exact ⟨plain, by decide, by decide +kernel, by decide +kernel⟩

/-- `"9300000000000000000e+"`: out of range, and found in range because the first digit is not
compared. -/
def displacedA : Literal where
  space := []
  sign := none
  run := [57, 51, 48, 48, 48, 48, 48, 48, 48, 48, 48, 48, 48, 48, 48, 48, 48, 48, 48]
  rest := [101, 43]
  isSpace_of_mem := nofun
  isSign_of_mem := nofun
  isDigit_of_mem := all_eq_true.mp (by decide)
  nonempty := by decide
  maximal _ next := Option.some.inj next ▸ rfl

example : ¬ displacedA.Decided 1 ∧ ¬ FitsLong displacedA.value := by decide

end Jonj.Operators
