import Mathlib.Tactic

/-!
# Bytes and the C type `char`
-/
namespace Jonj

abbrev Bytes := List UInt8

/-- `INT_MAX` -/
def intMax : Nat := 2 ^ 31 - 1

/-- `isspace`, in the C locale. -/
def isspace (c : UInt8) : Bool := c == 32 || 9 ≤ c && c ≤ 13

/-- A digit of a hexadecimal number with capital letters. -/
def hexDigit (n : UInt8) : UInt8 := if n < 10 then 48 + n else 55 + n

/-- The value of a hexadecimal digit. -/
def hexValue (c : UInt8) : Option UInt8 :=
  if 48 ≤ c ∧ c ≤ 57 then some (c - 48)
  else if 65 ≤ c ∧ c ≤ 70 then some (c - 55)
  else if 97 ≤ c ∧ c ≤ 102 then some (c - 87)
  else none

/-- What holds of every byte is found out by trying all of them. -/
instance decidableForallByte (p : UInt8 → Prop) [DecidablePred p] : Decidable (∀ b, p b) :=
  decidable_of_iff (∀ n, p (UInt8.ofFin n)) ⟨fun all b => all b.toFin, fun all _ => all _⟩

/-- The conversion of a `char` to `unsigned int`, where `char` may be signed. -/
def ofChar (signed : Bool) (b : UInt8) : UInt32 :=
  if signed ∧ 128 ≤ b then b.toUInt32 + 0xffffff00 else b.toUInt32

theorem toNat_ofChar (signed : Bool) (b : UInt8) :
    (signed = true ∧ 128 ≤ b.toNat ∧ (ofChar signed b).toNat = b.toNat + (2 ^ 32 - 256)) ∨
      (¬ (signed = true ∧ 128 ≤ b.toNat) ∧ (ofChar signed b).toNat = b.toNat) := by
  revert b
  cases signed <;> decide +kernel

@[simp] theorem toUInt8_ofChar (signed : Bool) (b : UInt8) : (ofChar signed b).toUInt8 = b := by
  revert b
  cases signed <;> decide +kernel

end Jonj
