import Mathlib.Tactic

/-!
# Powers of integers

`pow_function` on two integers squares and multiplies as long as the products fit a `long`, and goes
over to a `double` with the first one that does not.
-/
namespace Jonj.Operators

/-- The integers from `LONG_MIN` to `LONG_MAX`. -/
def FitsLong (n : Int) : Prop := -2 ^ 63 ≤ n ∧ n ≤ 2 ^ 63 - 1

instance (n : Int) : Decidable (FitsLong n) := inferInstanceAs (Decidable (_ ∧ _))

abbrev Long := { n : Int // FitsLong n }

/-- The arithmetic of `double` that the function calls. -/
structure Doubles (D : Type) where
  ofLong : Int → D
  mul : D → D → D
  pow : D → D → D

/-- A zval of type `IS_LONG` or `IS_DOUBLE`. -/
inductive Number (D : Type)
  | long (lval : Long)
  | double (dval : D)

section

variable {D : Type} (doubles : Doubles D)

/-- `ZEND_SIGNED_MULTIPLY_LONG`: the product, or `dval` if it overflows. -/
def zendSignedMultiplyLong (a b : Long) : D ⊕ Long :=
  if fits : FitsLong (a * b) then .inr ⟨a * b, fits⟩
    else .inl (doubles.mul (doubles.ofLong a) (doubles.ofLong b))

/-- The loop of `pow_function`: `l1 * l2 ^ i` is the result that is looked for. -/
def powLoop (l1 l2 : Long) (i : Nat) : Number D :=
  if i = 0 then .long l1
  else if i % 2 = 1 then
    match zendSignedMultiplyLong doubles l1 l2 with
    | .inl dval =>
      .double (doubles.mul dval (doubles.pow (doubles.ofLong l2) (doubles.ofLong (i - 1 : Nat))))
    | .inr l1 => powLoop l1 l2 (i - 1)
  else
    match zendSignedMultiplyLong doubles l2 l2 with
    | .inl dval =>
      .double (doubles.mul (doubles.ofLong l1) (doubles.pow dval (doubles.ofLong (i / 2 : Nat))))
    | .inr l2 => powLoop l1 l2 (i / 2)
termination_by i

/-- `pow_function` for `TYPE_PAIR(IS_LONG, IS_LONG)` -/
def powFunction (op1 op2 : Long) : Number D :=
  if 0 ≤ op2.1 then
    if op2.1 = 0 then .long ⟨1, by decide⟩
    else if op1.1 = 0 then .long ⟨0, by decide⟩
    else powLoop doubles ⟨1, by decide⟩ op1 op2.1.toNat
  else .double (doubles.pow (doubles.ofLong op1) (doubles.ofLong op2))

end

/-! ### What does not fit stays too big -/

private theorem not_fitsLong_mul {n factor : Int} (big : ¬FitsLong n) (positive : 1 ≤ factor) :
    ¬FitsLong (n * factor) := by
  rintro ⟨lower, upper⟩
  rcases le_or_gt 0 n with nonneg | neg
  · have : n ≤ n * factor := le_mul_of_one_le_right nonneg positive
    exact big ⟨by omega, by omega⟩
  · have : n * factor ≤ n := by nlinarith
    exact big ⟨by omega, by omega⟩

/-- `2 ^ 63` is no square, so that `LONG_MIN` is not reached by one that overflows. -/
theorem sq_ne_two_pow (l : Int) : l * l ≠ 2 ^ 63 := by
  intro square
  have natural : l.natAbs * l.natAbs = 2 ^ 63 := by
    have := congrArg Int.natAbs square
    rwa [Int.natAbs_mul] at this
  -- it lies between two neighbouring squares
  rcases Nat.lt_or_ge 3037000499 l.natAbs with above | below
  · have := Nat.mul_le_mul (Nat.succ_le_of_lt above) (Nat.succ_le_of_lt above)
    omega
  · have := Nat.mul_le_mul below below
    omega

/-- The power of an overflowing square does not fit, whatever it is multiplied with. -/
theorem not_fitsLong_of_square {l1 l2 : Int} {k : Nat} (nonzero : l1 ≠ 0)
    (big : ¬FitsLong (l2 * l2)) (some : 1 ≤ k) :
    ¬FitsLong (l1 * (l2 * l2) ^ k) := by
  have nonneg : 0 ≤ l2 * l2 := mul_self_nonneg l2
  have noSquare := sq_ne_two_pow l2
  have above : 2 ^ 63 < l2 * l2 := by
    by_contra below
    exact big ⟨by omega, by omega⟩
  have power : l2 * l2 ≤ (l2 * l2) ^ k := le_self_pow₀ (by omega) (by omega)
  rintro ⟨lower, upper⟩
  rcases lt_or_gt_of_ne nonzero with negative | positive
  · have : l1 * (l2 * l2) ^ k ≤ -1 * (l2 * l2) ^ k :=
      mul_le_mul_of_nonneg_right (by omega) (by omega)
    omega
  · have : 1 * (l2 * l2) ^ k ≤ l1 * (l2 * l2) ^ k :=
      mul_le_mul_of_nonneg_right (by omega) (by omega)
    omega

/-! ### The loop -/

/-- A number is this integer if it is in range, and a `double` otherwise. -/
def Number.Is {D : Type} (number : Number D) (n : Int) : Prop :=
  (∀ fits : FitsLong n, number = .long ⟨n, fits⟩) ∧ (¬FitsLong n → ∃ dval, number = .double dval)

section

variable {D : Type} (doubles : Doubles D)

theorem Number.is_double {n : Int} (big : ¬FitsLong n) (dval : D) : (Number.double dval).Is n :=
  ⟨fun fits => absurd fits big, fun _ => ⟨dval, rfl⟩⟩

private theorem powLoop_is (l1 l2 : Long) (i : Nat) (nonzero₁ : l1.1 ≠ 0) (nonzero₂ : l2.1 ≠ 0) :
    (powLoop doubles l1 l2 i).Is (l1 * l2 ^ i) := by
  -- `l1 * l2 ^ i` is the same in each round
  induction i using Nat.strong_induction_on generalizing l1 l2 with
  | _ i ih =>
    rw [powLoop]
    split
    · next done =>
      subst done
      rw [pow_zero, mul_one]
      exact ⟨fun _ => rfl, fun big => absurd l1.2 big⟩
    next more =>
    split
    · next odd =>
      have split : l1.1 * l2.1 ^ i = l1.1 * l2.1 * l2.1 ^ (i - 1) := by
        rw [mul_assoc, ← pow_succ', Nat.sub_add_cancel (by omega)]
      rw [split]
      unfold zendSignedMultiplyLong
      by_cases fits : FitsLong (l1.1 * l2.1)
      · rw [dif_pos fits]
        exact ih (i - 1) (by omega) ⟨l1.1 * l2.1, fits⟩ l2 (mul_ne_zero nonzero₁ nonzero₂) nonzero₂
      -- an even power is left, which is positive
      rw [dif_neg fits]
      have even : Even (i - 1) := Nat.even_iff.mpr (by omega)
      have positive : 0 < l2.1 ^ (i - 1) := even.pow_pos nonzero₂
      exact Number.is_double (not_fitsLong_mul fits positive) _
    · next even =>
      have split : l1.1 * l2.1 ^ i = l1.1 * (l2.1 * l2.1) ^ (i / 2) := by
        rw [← pow_two, ← pow_mul, Nat.mul_div_cancel' (by omega)]
      rw [split]
      unfold zendSignedMultiplyLong
      by_cases fits : FitsLong (l2.1 * l2.1)
      · rw [dif_pos fits]
        exact ih (i / 2) (by omega) l1 ⟨l2.1 * l2.1, fits⟩ nonzero₁ (mul_ne_zero nonzero₂ nonzero₂)
      · rw [dif_neg fits]
        exact Number.is_double (not_fitsLong_of_square nonzero₁ fits (by omega)) _

end

/-- A power with an exponent that is not negative is an integer exactly if it fits. -/
theorem powFunction_is {D : Type} (doubles : Doubles D) (b e : Long) (nonneg : 0 ≤ e.1) :
    (powFunction doubles b e).Is (b ^ e.1.toNat) := by
  unfold powFunction
  rw [if_pos nonneg]
  split
  · next zero =>
    rw [zero, Int.toNat_zero, pow_zero]
    exact ⟨fun _ => rfl, fun big => absurd (by decide) big⟩
  next more =>
  split
  · next zero =>
    rw [zero, zero_pow (by omega)]
    exact ⟨fun _ => rfl, fun big => absurd (by decide) big⟩
  next nonzero =>
  have loop := powLoop_is doubles ⟨1, by decide⟩ b e.1.toNat one_ne_zero nonzero
  rwa [one_mul] at loop

theorem powFunction_is_longMin :
    powFunction (D := Unit) ⟨fun _ => (), fun _ _ => (), fun _ _ => ()⟩ ⟨-2, by decide⟩
      ⟨63, by decide⟩ =
      .long ⟨-2 ^ 63, by decide⟩ :=
  (powFunction_is _ ⟨-2, by decide⟩ ⟨63, by decide⟩ (by decide)).1 (by decide)

end Jonj.Operators
