import Jonj.Hash.Reindex
import Jonj.Lib.Decimal
import Jonj.Operators.Pow

/-!
# Symbol tables

The `zend_symtable_*` functions look at a string key first: if it is the decimal form of a `long`,
they work on that integer key. A key is a byte list that ends in its NUL, and a pointer into it is
the list of the bytes from there on.
-/
namespace Jonj.Hash

open Decimal Operators List

variable {α : Type}

/-- `while (++tmp != end && *tmp >= '0' && *tmp <= '9')`, with `idx` and `tmp` after the loop; `end`
is the last byte. -/
def numericLoop (idx : UInt64) : List UInt8 → UInt64 × List UInt8
  | [] => (idx, [])
  | [last] => (idx, [last])
  | c :: next :: rest =>
    if isDigit c then numericLoop (idx * 10 + UInt64.ofNat (digitValue c)) (next :: rest)
    else (idx, c :: next :: rest)

/-- `ZEND_HANDLE_NUMERIC_EX`: the index for which `func` runs. -/
def zendHandleNumericEx (key : List UInt8) : Option UInt64 :=
  match if key.head? = some 45 then key.tail else key with
  | [] => none
  | first :: rest =>
    if isDigit first then
      -- not terminated, leading zeros, or more than MAX_LENGTH_OF_LONG - 1 bytes up to the end
      if key.getLast? ≠ some 0 ∨ (first = 48 ∧ 2 < key.length) ∨ 19 < rest.length then none
      else
        let got := numericLoop (UInt64.ofNat (digitValue first)) rest
        if got.2.length = 1 then
          if key.head? = some 45 then
            if longMax < got.1 - 1 then none else some (0 - got.1)
          else if longMax < got.1 then none
          else some got.1
        else none
    else none

def keyBytes (arKey : CStr) (nKeyLength : UInt32) : List UInt8 := arKey.bytes.take nKeyLength.toNat

def zendSymtableUpdate (pemalloc : Pemalloc) (mem : Mem α) (ht : HashTable) (arKey : CStr)
    (nKeyLength : UInt32) (pData : α) : Inserted α :=
  match zendHandleNumericEx (keyBytes arKey nKeyLength) with
  | some idx => zendHashIndexUpdateOrNextInsert pemalloc mem ht idx pData .update
  | none => zendHashAddOrUpdate pemalloc mem ht arKey nKeyLength pData .update

def zendSymtableDel (mem : Mem α) (ht : HashTable) (arKey : CStr) (nKeyLength : UInt32) :
    Mem α × HashTable × Bool :=
  match zendHandleNumericEx (keyBytes arKey nKeyLength) with
  | some idx => zendHashDelKeyOrIndex mem ht .null 0 idx .index
  | none => zendHashDelKeyOrIndex mem ht arKey nKeyLength 0 .key

def zendSymtableFind (mem : Mem α) (ht : HashTable) (arKey : CStr) (nKeyLength : UInt32) :
    Option α :=
  match zendHandleNumericEx (keyBytes arKey nKeyLength) with
  | some idx => zendHashIndexFind mem ht idx
  | none => zendHashFind mem ht arKey nKeyLength

def zendSymtableExists (mem : Mem α) (ht : HashTable) (arKey : CStr) (nKeyLength : UInt32) : Bool :=
  match zendHandleNumericEx (keyBytes arKey nKeyLength) with
  | some idx => zendHashIndexExists mem ht idx
  | none => zendHashExists mem ht arKey nKeyLength

/-! ### The canonical decimal form -/

/-- `"0"`, or an optional `-`, a nonzero digit and digits. -/
inductive Canonical : List UInt8 → Int → Prop
  | zero : Canonical [48] 0
  | positive (first : UInt8) (rest : List UInt8) (all : ∀ c ∈ first :: rest, isDigit c = true)
      (nonzero : first ≠ 48) : Canonical (first :: rest) (readDigits 0 (first :: rest))
  | negative (first : UInt8) (rest : List UInt8) (all : ∀ c ∈ first :: rest, isDigit c = true)
      (nonzero : first ≠ 48) : Canonical (45 :: first :: rest)
        (-(readDigits 0 (first :: rest) : Int))

def decimalText (n : Int) : List UInt8 :=
  (if n < 0 then [45] else []) ++ writeDigits (n.natAbs + 1) n.natAbs []

theorem writeDigits_positive {m : Nat} (positive : m ≠ 0) :
    ∃ first rest, writeDigits (m + 1) m [] = first :: rest ∧
      (∀ c ∈ first :: rest, isDigit c = true) ∧
      first ≠ 48 ∧ readDigits 0 (first :: rest) = m := by
  have fits : m < 10 ^ (m + 1) := lt_trans (Nat.lt_succ_self m) (Nat.lt_pow_self (by omega))
  have head := head_writeDigits fits positive
  have value := readDigits_writeDigits fits
  obtain ⟨first, rest, split⟩ := exists_cons_of_ne_nil (writeDigits_ne_nil m m)
  rw [split] at head value
  refine ⟨first, rest, split, ?_, fun zero => head (by rw [zero]; rfl), value⟩
  intro c member
  rw [← split] at member
  exact isDigit_of_mem_writeDigits member

theorem canonical_decimalText (n : Int) : Canonical (decimalText n) n := by
  by_cases zero : n = 0
  · subst zero
    exact .zero
  obtain ⟨first, rest, written, all, nonzero, value⟩ :=
    writeDigits_positive (Int.natAbs_ne_zero.mpr zero)
  rw [decimalText, written]
  by_cases negative : n < 0
  · have same : n = -(readDigits 0 (first :: rest) : Int) := by omega
    rw [if_pos negative, same]
    exact .negative first rest all nonzero
  · have same : n = readDigits 0 (first :: rest) := by omega
    rw [same]
    exact .positive first rest all nonzero

variable {s : List UInt8}

theorem Canonical.eq_decimalText {n : Int} (canonical : Canonical s n) : s = decimalText n := by
  have written : ∀ {first : UInt8} {rest : List UInt8}, (∀ c ∈ first :: rest, isDigit c = true) →
      first ≠ 48 → writeDigits (readDigits 0 (first :: rest) + 1)
        (readDigits 0 (first :: rest)) [] =
        first :: rest := fun all nonzero =>
    writeDigits_readDigits all nonzero (lt_trans (Nat.lt_succ_self _) (Nat.lt_pow_self (by omega)))
  cases canonical with
  | zero => rfl
  | positive first rest all nonzero =>
    rw [decimalText, Int.natAbs_natCast, written all nonzero]
    rfl
  | negative first rest all nonzero =>
    have low := pow_le_readDigits all nonzero
    have atLeast : 1 ≤ 10 ^ rest.length := Nat.one_le_pow _ _ (by omega)
    rw [decimalText, Int.natAbs_neg, Int.natAbs_natCast, written all nonzero, if_pos (by omega)]
    rfl

/-! ### The scan -/

/-- The loop reaches the end over digits only, with the value they have modulo `2 ^ 64`. -/
theorem numericLoop_digits (acc : Nat) {digits : List UInt8} (last : UInt8)
    (all : ∀ c ∈ digits, isDigit c = true) :
    numericLoop (UInt64.ofNat acc) (digits ++ [last]) =
      (UInt64.ofNat (readDigits acc digits), [last]) := by
  induction digits generalizing acc with
  | nil => rfl
  | cons c digits ih =>
    have step : UInt64.ofNat acc * 10 + UInt64.ofNat (digitValue c) =
        UInt64.ofNat (acc * 10 + digitValue c) := by
      rw [UInt64.ofNat_add, UInt64.ofNat_mul]
      rfl
    have later := ih (acc * 10 + digitValue c) fun d member => all d (by simp [member])
    cases digits with
    | nil =>
      simp only [cons_append, nil_append, numericLoop, all c (by simp), if_true, step]
      rfl
    | cons d digits =>
      simp only [cons_append, numericLoop, all c (by simp), if_true, step] at later ⊢
      exact later

private theorem numericLoop_stops (idx : UInt64) {bytes : List UInt8} (last : UInt8)
    (other : ∃ c ∈ bytes, isDigit c = false) :
    (numericLoop idx (bytes ++ [last])).2.length ≠ 1 := by
  induction bytes generalizing idx with
  | nil => simp at other
  | cons c bytes ih =>
    obtain ⟨next, rest, split⟩ : ∃ next rest, bytes ++ [last] = next :: rest :=
      exists_cons_of_ne_nil (by simp)
    rw [cons_append, split, numericLoop]
    split
    next isDigit_c =>
      rw [← split]
      apply ih
      obtain ⟨d, member, no⟩ := other
      rcases mem_cons.mp member with here | later
      · rw [here, isDigit_c] at no
        cases no
      · exact ⟨d, later, no⟩
    next => simp

variable {rest : List UInt8} {first : UInt8}

/-- A numeral that the length test lets pass does not wrap around. -/
theorem toNat_ofNat_readDigits (all : ∀ c ∈ first :: rest, isDigit c = true)
    (short : rest.length ≤ 18) :
    (UInt64.ofNat (readDigits 0 (first :: rest))).toNat = readDigits 0 (first :: rest) := by
  apply UInt64.toNat_ofNat_of_lt'
  have high := (readDigits_bounds 0 all).2
  have power : 10 ^ (first :: rest).length ≤ 10 ^ 19 :=
    Nat.pow_le_pow_right (by omega) (by simp only [length_cons]; omega)
  have bound : (10 : Nat) ^ 19 < UInt64.size := by decide
  omega

/-- What the macro computes once it stands on the first digit of a terminated key. -/
theorem zendHandleNumericEx_digit (minus : Bool) (rest : List UInt8)
    (isDigit_first : isDigit first = true) :
    zendHandleNumericEx ((if minus then [45] else []) ++ first :: (rest ++ [0])) =
      if (first = 48 ∧ (minus = true ∨ rest ≠ [])) ∨ 18 < rest.length ∨
        ∃ c ∈ rest, isDigit c = false then none
      else if minus then if 2 ^ 63 < readDigits 0 (first :: rest) then none
        else some (0 - UInt64.ofNat (readDigits 0 (first :: rest)))
          else if 2 ^ 63 ≤ readDigits 0 (first :: rest) then none
      else some (UInt64.ofNat (readDigits 0 (first :: rest))) := by
  have notMinus : first ≠ 45 := ne_of_isDigit isDigit_first rfl
  set key := (if minus then [45] else []) ++ first :: (rest ++ [0]) with shape
  have scanned : (if key.head? = some 45 then key.tail else key) = first :: (rest ++ [0]) := by
    cases minus <;> simp [shape, notMinus]
  have signed : key.head? = some 45 ↔ minus = true := by
    cases minus <;> simp [shape, notMinus]
  have terminated : key.getLast? = some 0 := by
    rw [shape, ← cons_append, ← append_assoc, getLast?_append]
    rfl
  have leading : 2 < key.length ↔ minus = true ∨ rest ≠ [] := by
    cases minus <;> simp [shape, ← length_pos_iff]
  have upToEnd : (rest ++ [0]).length = rest.length + 1 := by simp
  rw [zendHandleNumericEx, scanned]
  simp only [isDigit_first, if_true, terminated, ne_eq, not_true, false_or, leading,
    signed, upToEnd]
  by_cases zeros : first = 48 ∧ (minus = true ∨ ¬ rest = [])
  · rw [if_pos (.inl zeros), if_pos (.inl zeros)]
  by_cases long : 18 < rest.length
  · rw [if_pos (.inr (by omega)), if_pos (.inr (.inl long))]
  rw [if_neg (by simp only [zeros, false_or]; omega)]
  by_cases other : ∃ c ∈ rest, isDigit c = false
  · rw [if_neg (numericLoop_stops _ 0 other), if_pos (.inr (.inr other))]
  have all : ∀ c ∈ first :: rest, isDigit c = true :=
    forall_mem_cons.mpr ⟨isDigit_first, fun c later => Bool.of_not_eq_false fun no =>
      other ⟨c, later, no⟩⟩
  have numeral : ¬ ((first = 48 ∧ (minus = true ∨ ¬ rest = [])) ∨ 18 < rest.length ∨
      ∃ c ∈ rest, isDigit c = false) := by
    simp [zeros, long, other]
  rw [if_neg numeral, numericLoop_digits _ 0 fun c member => all c (mem_cons_of_mem first member)]
  have exactly := toNat_ofNat_readDigits all (by omega)
  simp only [← readDigits_cons, length_singleton, if_true]
  cases minus with
  | false =>
    simp only [Bool.false_eq_true, if_false]
    refine if_congr ?_ rfl rfl
    rw [UInt64.lt_iff_toNat_lt, exactly]
    exact Nat.lt_iff_add_one_le
  | true =>
    simp only [if_true]
    -- the number is not zero, so the decrement does not wrap around
    have nonzero : first ≠ 48 := fun zero => zeros ⟨zero, .inl rfl⟩
    have positive : 1 ≤ readDigits 0 (first :: rest) :=
      le_trans (Nat.one_le_pow _ _ (by omega)) (pow_le_readDigits all nonzero)
    refine if_congr ?_ rfl rfl
    rw [UInt64.lt_iff_toNat_lt, UInt64.toNat_sub_of_le _ _ (by
      rw [UInt64.le_iff_toNat_le, exactly]; exact positive)]
    have one : (1 : UInt64).toNat = 1 := rfl
    have limit : longMax.toNat = 2 ^ 63 - 1 := rfl
    omega

private theorem exists_digit_of_accepted {idx : UInt64}
    (accepted : zendHandleNumericEx (s ++ [0]) = some idx) :
    ∃ minus first rest, isDigit first = true ∧ s = (if minus = true then [45] else []) ++
      first :: rest := by
  cases s with
  | nil => simp [zendHandleNumericEx, isDigit] at accepted
  | cons c rest =>
    by_cases minus : c = 45
    · cases rest with
      | nil => simp [zendHandleNumericEx, minus, isDigit] at accepted
      | cons d rest =>
        by_cases isDigit_d : isDigit d = true
        · exact ⟨true, d, rest, isDigit_d, by simp [minus]⟩
        · simp [zendHandleNumericEx, minus, isDigit_d] at accepted
    · by_cases isDigit_c : isDigit c = true
      · exact ⟨false, c, rest, isDigit_c, rfl⟩
      · simp [zendHandleNumericEx, minus, isDigit_c] at accepted

private theorem ofInt_signed (minus : Bool) (m : Nat) :
    UInt64.ofInt (if minus then -(m : Int) else m) = if minus then 0 - UInt64.ofNat m
      else UInt64.ofNat m := by
  apply UInt64.toNat.inj
  cases minus with
  | false =>
    simp only [Bool.false_eq_true, if_false, UInt64.ofInt, UInt64.toNat_ofNat']
    omega
  | true =>
    simp only [if_true, UInt64.ofInt, UInt64.toNat_sub, UInt64.toNat_ofNat', UInt64.toNat_zero]
    omega

private theorem ofInt_injective {m n : Int} (fits_m : FitsLong m) (fits_n : FitsLong n)
    (same : UInt64.ofInt m = UInt64.ofInt n) : m = n := by
  have residues := congrArg UInt64.toNat same
  simp only [UInt64.ofInt, UInt64.toNat_ofNat'] at residues
  simp only [FitsLong] at fits_m fits_n
  omega

private theorem canonical_digits_iff {minus : Bool} {n : Int}
    (isDigit_first : isDigit first = true) :
    Canonical ((if minus then [45] else []) ++ first :: rest) n ↔
      ¬ (first = 48 ∧ (minus = true ∨ rest ≠ [])) ∧ (∀ c ∈ rest, isDigit c = true) ∧
        n = if minus then -(readDigits 0 (first :: rest) : Int)
          else readDigits 0 (first :: rest) := by
  constructor
  · intro canonical
    generalize text : (if minus = true then [45] else []) ++ first :: rest = s at canonical
    cases minus with
    | false =>
      cases canonical with
      | zero =>
        cases text
        exact ⟨by simp, by simp, rfl⟩
      | positive =>
        rename_i all nonzero
        cases text
        exact ⟨fun zeros => nonzero zeros.1, fun c member =>
          all c (mem_cons_of_mem first member), rfl⟩
      | negative => exact absurd (cons.inj text).1 (ne_of_isDigit isDigit_first rfl)
    | true =>
      cases canonical with
      | zero => cases (cons.inj text).1
      | positive =>
        rename_i all nonzero
        rw [← (cons.inj text).1] at all
        exact absurd (all 45 (by simp)) (by decide)
      | negative =>
        rename_i all nonzero
        cases text
        exact ⟨fun zeros => nonzero zeros.1, fun c member =>
          all c (mem_cons_of_mem first member), rfl⟩
  · rintro ⟨zeros, digits, rfl⟩
    have all : ∀ c ∈ first :: rest, isDigit c = true := forall_mem_cons.mpr ⟨isDigit_first, digits⟩
    by_cases zero : first = 48
    · have unsigned : minus = false := Bool.eq_false_iff.mpr fun minus => zeros ⟨zero, .inl minus⟩
      have alone : rest = [] := by
        by_contra more
        exact zeros ⟨zero, .inr more⟩
      subst zero unsigned alone
      exact .zero
    · cases minus with
      | false => exact .positive first rest all zero
      | true => exact .negative first rest all zero

theorem Canonical.exists_digit {n : Int} (canonical : Canonical s n) :
    ∃ minus first rest, isDigit first = true ∧ s = (if minus = true then [45] else []) ++
      first :: rest := by
  cases canonical with
  | zero => exact ⟨false, 48, [], by decide, rfl⟩
  | positive first rest all nonzero => exact ⟨false, first, rest, all first (by simp), rfl⟩
  | negative first rest all nonzero => exact ⟨true, first, rest, all first (by simp), rfl⟩

theorem length_of_readDigits_le (all : ∀ c ∈ first :: rest, isDigit c = true)
    (nonzero : first ≠ 48) (small : readDigits 0 (first :: rest) ≤ 2 ^ 63) : rest.length ≤ 18 := by
  by_contra long
  have low := pow_le_readDigits all nonzero
  have power : 10 ^ 19 ≤ 10 ^ rest.length := Nat.pow_le_pow_right (by omega) (by omega)
  omega

/-- The macro accepts the canonical forms of the values of `long`, and no other key. -/
theorem zendHandleNumericEx_eq_some_iff {idx : UInt64} :
    zendHandleNumericEx (s ++ [0]) = some idx ↔ ∃ n, FitsLong n ∧ Canonical s n ∧
      idx = UInt64.ofInt n := by
  constructor
  · intro accepted
    obtain ⟨minus, first, rest, isDigit_first, rfl⟩ := exists_digit_of_accepted accepted
    rw [append_assoc, cons_append, zendHandleNumericEx_digit minus rest isDigit_first] at accepted
    split at accepted
    · cases accepted
    next numeral =>
    simp only [not_or, not_exists, not_and, Bool.not_eq_false] at numeral
    refine ⟨if minus then -(readDigits 0 (first :: rest) : Int)
      else readDigits 0 (first :: rest), ?_,
      (canonical_digits_iff isDigit_first).mpr ⟨?_, numeral.2.2, rfl⟩, ?_⟩
    · cases minus with
      | false =>
        simp only [Bool.false_eq_true, if_false] at accepted ⊢
        split at accepted
        · cases accepted
        · constructor <;> omega
      | true =>
        simp only [if_true] at accepted ⊢
        split at accepted
        · cases accepted
        · constructor <;> omega
    · rintro ⟨zero, minus | more⟩
      · exact (numeral.1 zero).1 minus
      · exact (numeral.1 zero).2 more
    · rw [ofInt_signed]
      cases minus <;> simp_all
  · rintro ⟨n, fits, canonical, rfl⟩
    obtain ⟨minus, first, rest, isDigit_first, rfl⟩ := canonical.exists_digit
    obtain ⟨zeros, digits, rfl⟩ := (canonical_digits_iff isDigit_first).mp canonical
    have all : ∀ c ∈ first :: rest, isDigit c = true := forall_mem_cons.mpr ⟨isDigit_first, digits⟩
    have small : readDigits 0 (first :: rest) ≤ 2 ^ 63 := by
      obtain ⟨low, high⟩ := fits
      cases minus <;> simp only [Bool.false_eq_true, if_false, if_true] at low high <;> omega
    have short : ¬ 18 < rest.length := by
      by_cases zero : first = 48
      · have alone : rest = [] := by
          by_contra more
          exact zeros ⟨zero, .inr more⟩
        simp [alone]
      · have bound := length_of_readDigits_le all zero small
        omega
    have onlyDigits : ¬ ∃ c ∈ rest, isDigit c = false := by
      rintro ⟨c, member, other⟩
      rw [digits c member] at other
      cases other
    rw [append_assoc, cons_append, zendHandleNumericEx_digit minus rest isDigit_first,
      if_neg (by simp only [zeros, short, onlyDigits, or_self, not_false_eq_true]), ofInt_signed]
    obtain ⟨low, high⟩ := fits
    cases minus with
    | false =>
      simp only [Bool.false_eq_true, if_false] at high ⊢
      rw [if_neg (by omega)]
    | true =>
      simp only [if_true] at low ⊢
      rw [if_neg (by omega)]

/-! ### The element that a symbol table call works on -/

/-- The key of the table that a string stands for. -/
def symtableKey (bytes : List UInt8) : HKey :=
  match zendHandleNumericEx bytes with
  | some idx => .int idx
  | none => .str bytes

private theorem terminated_of_accepted {bytes : List UInt8} {idx : UInt64}
    (accepted : zendHandleNumericEx bytes = some idx) : ∃ s, bytes = s ++ [0] := by
  have last : bytes.getLast? = some 0 := by
    by_contra other
    rw [zendHandleNumericEx] at accepted
    split at accepted
    · cases accepted
    split at accepted
    · rw [if_pos (.inl other)] at accepted
      cases accepted
    · cases accepted
  obtain ⟨s, rfl⟩ := getLast?_eq_some_iff.mp last
  exact ⟨s, rfl⟩

theorem symtableKey_injective : Function.Injective symtableKey := by
  intro a b same
  unfold symtableKey at same
  cases hitA : zendHandleNumericEx a with
  | none =>
    cases hitB : zendHandleNumericEx b with
    | none => simpa [hitA, hitB] using same
    | some j => simp [hitA, hitB] at same
  | some i =>
    cases hitB : zendHandleNumericEx b with
    | none => simp [hitA, hitB] at same
    | some j =>
      simp only [hitA, hitB, HKey.int.injEq] at same
      obtain ⟨s, rfl⟩ := terminated_of_accepted hitA
      obtain ⟨t, rfl⟩ := terminated_of_accepted hitB
      obtain ⟨m, fits_m, canonical_m, rfl⟩ := zendHandleNumericEx_eq_some_iff.mp hitA
      obtain ⟨n, fits_n, canonical_n, rfl⟩ := zendHandleNumericEx_eq_some_iff.mp hitB
      rw [canonical_m.eq_decimalText, canonical_n.eq_decimalText,
        ofInt_injective fits_m fits_n same]

theorem keyBytes_key (key : Key) : keyBytes key.toCStr key.nKeyLength = key.bytes := by
  rw [keyBytes, key.passed.length, take_length]

/-- On a table that implements `sp`, the calls work on the element under `symtableKey`. -/
structure SymtableCalls (pemalloc : Pemalloc) (mem : Mem α) (ht : HashTable) (xs : List Addr)
    (sp : Spec α)
    (key : Key) : Prop where
  find : zendSymtableFind mem ht key.toCStr key.nKeyLength = sp.map.lookup (symtableKey key.bytes)
  exist : zendSymtableExists mem ht key.toCStr key.nKeyLength =
    sp.map.contains (symtableKey key.bytes)
  update : ∀ v, ∃ xs', Outcome mem xs (symtableKey key.bytes) v
    (sp.insert (symtableKey key.bytes) v .update)
    (zendSymtableUpdate pemalloc mem ht key.toCStr key.nKeyLength v) xs'
  del : ∃ xs', Moved mem xs (zendSymtableDel mem ht key.toCStr key.nKeyLength).1
      (zendSymtableDel mem ht key.toCStr key.nKeyLength).2.1 xs'
        (sp.delete (symtableKey key.bytes)).1 ∧
    (zendSymtableDel mem ht key.toCStr key.nKeyLength).2.2 = (sp.delete (symtableKey key.bytes)).2

private theorem symtableCalls {pemalloc : Pemalloc} (fresh : pemalloc.Fresh) {mem : Mem α}
    {ht : HashTable} {xs : List Addr} {sp : Spec α} (ok : MemOk mem) (rel : TableRel mem ht xs sp)
    (key : Key) (agrees : key.toCStr.Agrees mem) :
    SymtableCalls pemalloc mem ht xs sp key where
  find := by
    rw [zendSymtableFind, keyBytes_key, symtableKey]
    cases zendHandleNumericEx key.bytes with
    | some idx => exact (rel.refines ok).indexFind idx
    | none => exact (rel.refines ok).find key agrees
  exist := by
    rw [zendSymtableExists, keyBytes_key, symtableKey]
    cases zendHandleNumericEx key.bytes with
    | some idx => exact (rel.refines ok).indexExists idx
    | none => exact (rel.refines ok).exist key agrees
  update v := by
    rw [zendSymtableUpdate, keyBytes_key, symtableKey]
    cases zendHandleNumericEx key.bytes with
    | some idx => exact zendHashIndexUpdateOrNextInsert_rel fresh ok rel idx v .update (by simp)
    | none =>
      simp only [zendHashAddOrUpdate_eq]
      exact zendHashQuickAddOrUpdate_rel fresh ok rel key.passed agrees v (by simp)
  del := by
    rw [zendSymtableDel, keyBytes_key, symtableKey]
    cases zendHandleNumericEx key.bytes with
    | some idx => exact delete_rel ok rel (search_del_index rel.wf rel.distinct .null idx)
    | none => exact delete_rel ok rel (search_del_key rel.wf ok rel.distinct key.passed)

/-- On the decimal text of a `long` the calls are the index calls, whatever the table. -/
structure SameAsIndex (pemalloc : Pemalloc) (mem : Mem α) (ht : HashTable) (key : Key)
    (idx : UInt64) : Prop where
  find : zendSymtableFind mem ht key.toCStr key.nKeyLength = zendHashIndexFind mem ht idx
  exist : zendSymtableExists mem ht key.toCStr key.nKeyLength = zendHashIndexExists mem ht idx
  update : ∀ v, zendSymtableUpdate pemalloc mem ht key.toCStr key.nKeyLength v =
    zendHashIndexUpdateOrNextInsert pemalloc mem ht idx v .update
  del : zendSymtableDel mem ht key.toCStr key.nKeyLength =
    zendHashDelKeyOrIndex mem ht .null 0 idx .index

private theorem sameAsIndex_decimalText (pemalloc : Pemalloc) (mem : Mem α) (ht : HashTable)
    (key : Key) {n : Int} (fits : FitsLong n) (text : key.bytes = decimalText n ++ [0]) :
    SameAsIndex pemalloc mem ht key (UInt64.ofInt n) := by
  have numeric : zendHandleNumericEx (keyBytes key.toCStr key.nKeyLength) =
      some (UInt64.ofInt n) := by
    rw [keyBytes_key, text]
    exact zendHandleNumericEx_eq_some_iff.mpr ⟨n, fits, canonical_decimalText n, rfl⟩
  refine ⟨?_, ?_, fun v => ?_, ?_⟩
  · rw [zendSymtableFind, numeric]
  · rw [zendSymtableExists, numeric]
  · rw [zendSymtableUpdate, numeric]
  · rw [zendSymtableDel, numeric]

/-! ### Keys that share a bucket -/

/-- The bucket that a string call works on. -/
def symtableBucket (mem : Mem α) (ht : HashTable) (key : Key) : Option Addr :=
  match zendHandleNumericEx key.bytes with
  | some idx => search mem ht idx (indexMatches idx)
  | none => search mem ht key.hash (keyMatches key.toCStr key.nKeyLength key.hash)

private theorem zendSymtableFind_eq (mem : Mem α) (ht : HashTable) (key : Key) :
    zendSymtableFind mem ht key.toCStr key.nKeyLength =
      (symtableBucket mem ht key).map fun p => (mem.cells p).pData := by
  rw [zendSymtableFind, keyBytes_key, symtableBucket]
  cases zendHandleNumericEx key.bytes <;> rfl

/-- Two keys that the callers may pass lead to one bucket. -/
structure Collide (mem : Mem α) (ht : HashTable) (a b : Key) : Prop where
  left : a.toCStr.Agrees mem
  right : b.toCStr.Agrees mem
  shared : ∃ p, symtableBucket mem ht a = some p ∧ symtableBucket mem ht b = some p

/-- An integer bucket that keeps the pointer of a string key, in the slot of that key. -/
structure Stale (mem : Mem α) (ht : HashTable) (p : Addr) : Prop where
  integer : (mem.cells p).nKeyLength = 0
  kept : (mem.cells p).arKey.ptr ≠ .null
  text : zendHandleNumericEx (mem.cells p).arKey.bytes = none
  slot : ht.nIndex (mem.cells p).h = ht.nIndex (zendInlineHashFunc (mem.cells p).arKey.bytes
    (UInt32.ofNat (mem.cells p).arKey.bytes.length))

/-- On its chain a stale bucket stands behind a bucket that has the string key. -/
def StaleBehind (mem : Mem α) (ht : HashTable) (xs : List Addr) : Prop :=
  ∀ before p after, Chain mem ht xs (ht.nIndex (mem.cells p).h) (before ++ p :: after) →
    Stale mem ht p → ∃ q ∈ before, (mem.cells q).key = .str (mem.cells p).arKey.bytes

private theorem length_decimalText_le {n : Int} (fits : FitsLong n) :
    (decimalText n).length ≤ 20 := by
  by_cases zero : n = 0
  · subst zero
    decide
  obtain ⟨first, rest, written, all, nonzero, value⟩ :=
    writeDigits_positive (Int.natAbs_ne_zero.mpr zero)
  obtain ⟨low, high⟩ := fits
  have short := length_of_readDigits_le all nonzero (by omega)
  rw [decimalText, written]
  split <;> simp <;> omega

private theorem exists_ofInt_eq (h : UInt64) : ∃ n, FitsLong n ∧ UInt64.ofInt n = h := by
  have bound := h.toNat_lt
  refine ⟨if h.toNat < 2 ^ 63 then h.toNat else (h.toNat : Int) - 2 ^ 64, ?_, ?_⟩
  · constructor <;> split <;> omega
  · apply UInt64.toNat.inj
    simp only [UInt64.ofInt, UInt64.toNat_ofNat']
    split <;> omega

/-- The decimal text of an index, at an address where no bucket has its key. -/
theorem exists_decimal_key {mem : Mem α} (memOk : MemOk mem) (h : UInt64) :
    ∃ key : Key, zendHandleNumericEx key.bytes = some h ∧ key.toCStr.Agrees mem := by
  obtain ⟨n, fits, rfl⟩ := exists_ofInt_eq h
  have short := length_decimalText_le fits
  refine ⟨⟨⟨.other 0, decimalText n ++ [0]⟩, by simp, by simp; omega, by simp⟩, ?_, ?_⟩
  · exact zendHandleNumericEx_eq_some_iff.mpr ⟨n, fits, canonical_decimalText n, rfl⟩
  · intro p live same
    rcases (memOk.bucket p live).stored with null | ⟨⟨_, interned⟩ | own, -⟩
    · rw [null] at same
      cases same
    · rw [interned] at same
      cases same
    · rw [own] at same
      cases same

section collisions

variable {mem : Mem α} {ht : HashTable} {xs : List Addr} (wellFormed : WellFormed mem ht xs)
  (distinct : (xs.map fun p => (mem.cells p).key).Nodup)

include wellFormed

/-- A bucket that a string lookup accepts has the bytes of the key, also if it is stale. -/
theorem bytes_of_keyMatches {key : Key} (agrees : key.toCStr.Agrees mem) {p : Addr}
    (member : p ∈ xs)
    (accepted : keyMatches key.toCStr key.nKeyLength key.hash (mem.cells p) = true) :
    (mem.cells p).arKey.bytes = key.bytes := by
  have live := wellFormed.live p member
  simp only [keyMatches, Bool.or_eq_true, Bool.and_eq_true, decide_eq_true_eq, memcmpEq] at accepted
  rcases accepted with pointer | ⟨⟨-, length⟩, bytes⟩
  · exact agrees p live pointer
  · exact ((wellFormed.memOk.bucket p live).of_key (key.passed.key_eq length bytes)).2.1

/-- A string lookup finds the first bucket of the chain that it accepts. -/
theorem found_string {key : Key} {p : Addr}
    (found : search mem ht key.hash (keyMatches key.toCStr key.nKeyLength key.hash) = some p) :
    ∃ before after, Chain mem ht xs (ht.nIndex key.hash) (before ++ p :: after) ∧
      keyMatches key.toCStr key.nKeyLength key.hash (mem.cells p) = true ∧
      ∀ q ∈ before, keyMatches key.toCStr key.nKeyLength key.hash (mem.cells q) = false := by
  obtain ⟨c, chain⟩ := wellFormed.chains _ (nIndex_le ht key.hash)
  rw [search_chain wellFormed.toWf chain, find?_eq_some_iff_append] at found
  obtain ⟨accepted, before, after, rfl, rejected⟩ := found
  exact ⟨before, after, chain, accepted, by simpa using rejected⟩

/-- Two strings that are no numbers lead to different buckets. -/
theorem strings_eq_of_shared {a b : Key} {p : Addr} (agreesA : a.toCStr.Agrees mem)
    (agreesB : b.toCStr.Agrees mem)
    (left : search mem ht a.hash (keyMatches a.toCStr a.nKeyLength a.hash) = some p)
    (right : search mem ht b.hash (keyMatches b.toCStr b.nKeyLength b.hash) = some p) :
    a.bytes = b.bytes := by
  obtain ⟨_, _, chain, acceptedA, -⟩ := found_string wellFormed left
  obtain ⟨_, _, -, acceptedB, -⟩ := found_string wellFormed right
  have member : p ∈ xs := ((chain.mem_iff p).mp (by simp)).1
  rw [← bytes_of_keyMatches wellFormed agreesA member acceptedA,
    bytes_of_keyMatches wellFormed agreesB member acceptedB]

/-- A string that leads to an integer bucket has found it by its stale pointer, ahead of any bucket
with that string as its key. -/
theorem stale_of_found {key : Key} {p : Addr} (agrees : key.toCStr.Agrees mem)
    (text : zendHandleNumericEx key.bytes = none) (integer : (mem.cells p).nKeyLength = 0)
    (found : search mem ht key.hash (keyMatches key.toCStr key.nKeyLength key.hash) = some p) :
    ¬ StaleBehind mem ht xs := by
  intro behind
  obtain ⟨before, after, chain, accepted, rejected⟩ := found_string wellFormed found
  obtain ⟨member, slot⟩ := (chain.mem_iff p).mp (by simp)
  have bytes := bytes_of_keyMatches wellFormed agrees member accepted
  have stale : Stale mem ht p := by
    refine ⟨integer, ?_, bytes.symm ▸ text, bytes.symm ▸ slot⟩
    rw [keyMatches_integer integer, decide_eq_true_eq] at accepted
    exact accepted.symm ▸ key.notNull
  obtain ⟨q, ahead, keyed⟩ := behind before p after (slot.symm ▸ chain) stale
  have inTable : q ∈ xs := ((chain.mem_iff q).mp (by simp [ahead])).1
  rw [bytes] at keyed
  obtain ⟨hash, length, same⟩ :=
    keyMatches_complete wellFormed.memOk wellFormed.live key.passed inTable keyed
  have missed := rejected q ahead
  simp [keyMatches, hash, length, memcmpEq, same, Key.hash] at missed

/-- The key that a bucket has kept. -/
theorem exists_key_of_kept {p : Addr} (member : p ∈ xs) (kept : (mem.cells p).arKey.ptr ≠ .null) :
    ∃ key : Key, key.toCStr = (mem.cells p).arKey ∧ key.toCStr.Agrees mem := by
  have live := wellFormed.live p member
  rcases (wellFormed.memOk.bucket p live).stored with null | ⟨-, nonempty, fits⟩
  · exact absurd (congrArg CStr.ptr null) kept
  · exact ⟨⟨(mem.cells p).arKey, nonempty, fits, kept⟩, rfl, fun q used same =>
      wellFormed.memOk.agree q used p live same⟩

/-- Under its own pointer, the first stale bucket of a chain is found. -/
theorem found_of_stale {key : Key} {before after : List Addr} {p : Addr}
    (chain : Chain mem ht xs (ht.nIndex (mem.cells p).h) (before ++ p :: after))
    (stale : Stale mem ht p) (kept : key.toCStr = (mem.cells p).arKey)
    (agrees : key.toCStr.Agrees mem)
    (first : ∀ q ∈ before, (mem.cells q).key ≠ .str (mem.cells p).arKey.bytes) :
    ∃ q ∈ xs, (mem.cells q).nKeyLength = 0 ∧
      search mem ht key.hash (keyMatches key.toCStr key.nKeyLength key.hash) = some q := by
  have slot : ht.nIndex (mem.cells p).h = ht.nIndex key.hash := by
    rw [stale.slot, Key.hash, Key.nKeyLength, kept]
  have accepted : keyMatches key.toCStr key.nKeyLength key.hash (mem.cells p) = true := by
    simp [keyMatches, kept]
  rw [search_chain wellFormed.toWf (slot ▸ chain), find?_append]
  cases hit : before.find? fun q => keyMatches key.toCStr key.nKeyLength key.hash (mem.cells q) with
  | none =>
    refine ⟨p, ((chain.mem_iff p).mp (by simp)).1, stale.integer, ?_⟩
    simp only [find?_cons, accepted]
    rfl
  | some q =>
    -- a bucket before it that is accepted is stale, too
    have ahead : q ∈ before := mem_of_find?_eq_some hit
    have member : q ∈ xs := ((chain.mem_iff q).mp (by simp [ahead])).1
    have bytes := bytes_of_keyMatches wellFormed agrees member (by simpa using find?_some hit)
    refine ⟨q, member, ?_, rfl⟩
    by_contra string
    have keyed := (wellFormed.memOk.bucket q (wellFormed.live q member)).key_eq string
    rw [bytes, kept] at keyed
    exact first q ahead keyed

include distinct

private theorem search_index_iff {h : UInt64} {p : Addr} :
    search mem ht h (indexMatches h) = some p ↔ p ∈ xs ∧ (mem.cells p).key = .int h := by
  rw [search_index wellFormed.toWf distinct]
  constructor
  · exact fun found => find_some_iff found
  · rintro ⟨member, keyed⟩
    cases hit : xs.find? fun q => decide ((mem.cells q).key = .int h) with
    | none =>
      have missed := find?_eq_none.mp hit p member
      simp [keyed] at missed
    | some q =>
      obtain ⟨member', keyed'⟩ := find_some_iff hit
      rw [inj_on_of_nodup_map distinct member member' (keyed.trans keyed'.symm)]

private theorem no_collisions_iff :
    (∀ a b, Collide mem ht a b → a.bytes = b.bytes) ↔ StaleBehind mem ht xs := by
  constructor
  · intro apart before p after chain stale
    by_contra first
    push Not at first
    have member : p ∈ xs := ((chain.mem_iff p).mp (by simp)).1
    obtain ⟨a, kept, agrees⟩ := exists_key_of_kept wellFormed member stale.kept
    obtain ⟨q, inTable, integer, found⟩ := found_of_stale wellFormed chain stale kept agrees first
    obtain ⟨b, numeric, fresh⟩ := exists_decimal_key (wellFormed.memOk) (mem.cells q).h
    have text : zendHandleNumericEx a.bytes = none := by
      rw [kept]
      exact stale.text
    have shared : symtableBucket mem ht b = some q := by
      rw [symtableBucket, numeric]
      exact (search_index_iff wellFormed distinct).mpr ⟨inTable, key_int_iff.mpr ⟨integer, rfl⟩⟩
    have same := apart a b ⟨agrees, fresh, q, by rw [symtableBucket, text]; exact found, shared⟩
    rw [same, numeric] at text
    cases text
  · rintro behind a b ⟨agreesA, agreesB, p, left, right⟩
    unfold symtableBucket at left right
    cases hitA : zendHandleNumericEx a.bytes with
    | none =>
      cases hitB : zendHandleNumericEx b.bytes with
      | none =>
        simp only [hitA, hitB] at left right
        exact strings_eq_of_shared wellFormed agreesA agreesB left right
      | some j =>
        simp only [hitA, hitB] at left right
        have keyed := (search_index_iff wellFormed distinct).mp right
        exact absurd behind
          (stale_of_found wellFormed agreesA hitA (key_int_iff.mp keyed.2).1 left)
    | some i =>
      cases hitB : zendHandleNumericEx b.bytes with
      | none =>
        simp only [hitA, hitB] at left right
        have keyed := (search_index_iff wellFormed distinct).mp left
        exact absurd behind
          (stale_of_found wellFormed agreesB hitB (key_int_iff.mp keyed.2).1 right)
      | some j =>
        simp only [hitA, hitB] at left right
        have keyedA := ((search_index_iff wellFormed distinct).mp left).2
        have keyedB := ((search_index_iff wellFormed distinct).mp right).2
        apply symtableKey_injective
        rw [symtableKey, symtableKey, hitA, hitB]
        exact keyedA.symm.trans keyedB

end collisions

/-- A terminated key is an integer index exactly if it is the canonical text of a `long`, which then
is the index; the calls on that text are the index calls; distinct keys stand for distinct elements
of an ordered map that a table implements; and on any table they lead to distinct buckets exactly if
every stale bucket stands behind the bucket of its string. -/
theorem symtable_keys {pemalloc : Pemalloc} (fresh : pemalloc.Fresh) :
    (∀ s idx, zendHandleNumericEx (s ++ [0]) = some idx ↔
      ∃ n, FitsLong n ∧ Canonical s n ∧ idx = UInt64.ofInt n) ∧
    (∀ s n, Canonical s n ↔ s = decimalText n) ∧
    (∀ n, FitsLong n → ∀ key : Key, key.bytes = decimalText n ++ [0] → ∀ (mem : Mem α) ht,
      SameAsIndex pemalloc mem ht key (UInt64.ofInt n)) ∧
    (∀ a b : Key, symtableKey a.bytes = symtableKey b.bytes → a.bytes = b.bytes) ∧
    (∀ (mem : Mem α) ht xs sp, MemOk mem → TableRel mem ht xs sp → ∀ key : Key,
      key.toCStr.Agrees mem → SymtableCalls pemalloc mem ht xs sp key) ∧
    (∀ (mem : Mem α) ht (key : Key), zendSymtableFind mem ht key.toCStr key.nKeyLength =
      (symtableBucket mem ht key).map fun p => (mem.cells p).pData) ∧
    ∀ (mem : Mem α) ht xs, WellFormed mem ht xs → (xs.map fun p => (mem.cells p).key).Nodup →
      ((∀ a b, Collide mem ht a b → a.bytes = b.bytes) ↔ StaleBehind mem ht xs) := by
  refine ⟨fun s idx => zendHandleNumericEx_eq_some_iff,
    fun s n => ⟨Canonical.eq_decimalText, ?_⟩, ?_, ?_, ?_, zendSymtableFind_eq, ?_⟩
  · rintro rfl
    exact canonical_decimalText n
  · exact fun n fits key text mem ht => sameAsIndex_decimalText pemalloc mem ht key fits text
  · exact fun a b same => symtableKey_injective same
  · exact fun mem ht xs sp ok rel key agrees => symtableCalls fresh ok rel key agrees
  · exact fun mem ht xs wellFormed distinct => no_collisions_iff wellFormed distinct

/-- The renumbered `array("a" => ..., "b" => ...)`: the literals are stale, but in other slots. -/
theorem sortedPair_staleBehind : StaleBehind (zendHashReindex pair.mem pair.ht false).1
    (zendHashReindex pair.mem pair.ht false).2 [1, 2] := by
  intro before p after chain stale
  have member : p ∈ [1, 2] := ((chain.mem_iff p).mp (by simp)).1
  have slot := stale.slot
  simp only [mem_cons, not_mem_nil, or_false] at member
  rcases member with rfl | rfl
  · exact absurd slot (by decide)
  · exact absurd slot (by decide)

theorem symtable_keys_sortedPair :
    zendHandleNumericEx (decimalText (-2 ^ 63) ++ [0]) = some (UInt64.ofInt (-2 ^ 63)) ∧
    ∀ a b, Collide (zendHashReindex pair.mem pair.ht false).1
      (zendHashReindex pair.mem pair.ht false).2 a b → a.bytes = b.bytes := by
  obtain ⟨accepts, -, -, -, -, -, apart⟩ := @symtable_keys Unit _ nextAddress_fresh
  refine ⟨(accepts _ _).mpr ⟨-2 ^ 63, by decide, canonical_decimalText _, rfl⟩, ?_⟩
  exact (apart _ _ _ (zendHashReindex_wellFormed pair_wellFormed) (by decide)).mpr
    sortedPair_staleBehind

/-- The decimal text of the index 0. -/
def literalZero : Key := ⟨⟨.interned 6, [48, 0]⟩, by decide, by decide, by decide⟩

/-- After `sort` of `array("k" => ...)`, the keys `"k"` and `"0"` lead to the same element. -/
theorem sorted_strings_collide :
    (∃ xs, WellFormed (zendHashReindex singleton.mem singleton.ht false).1
      (zendHashReindex singleton.mem singleton.ht false).2 xs) ∧
    Collide (zendHashReindex singleton.mem singleton.ht false).1
      (zendHashReindex singleton.mem singleton.ht false).2 literalK literalZero ∧
    literalK.bytes ≠ literalZero.bytes := by
  obtain ⟨xs, wellFormed⟩ := singleton_wellFormed
  refine ⟨⟨xs, zendHashReindex_wellFormed wellFormed⟩, ⟨?_, ?_, 1, by decide, by decide⟩, by decide⟩
  · unfold CStr.Agrees
    decide
  · unfold CStr.Agrees
    decide

example : zendHandleNumericEx ([45, 48] ++ [0]) = none := by decide

example : zendHandleNumericEx (decimalText (2 ^ 63) ++ [0]) = none := by decide

end Jonj.Hash
