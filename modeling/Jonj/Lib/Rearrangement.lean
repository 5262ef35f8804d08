import Mathlib.Tactic

/-!
# Rearrangements of a part of an array

An array is a function of an integer index. `Rearranged lo hi a b` says that `b` is `a` with the
elements from `lo` to `hi` in another order.
-/
namespace Jonj.Rearrangement

open List

variable {α : Type}

def exchange (a : Int → α) (i j : Int) : Int → α := a ∘ Equiv.swap i j

@[simp] theorem exchange_left (a : Int → α) (i j : Int) : exchange a i j i = a j := by
  simp [exchange]

@[simp] theorem exchange_right (a : Int → α) (i j : Int) : exchange a i j j = a i := by
  simp [exchange]

theorem exchange_of_ne (a : Int → α) {i j k : Int} (notLeft : k ≠ i) (notRight : k ≠ j) :
    exchange a i j k = a k := by
  rw [exchange, Function.comp_apply, Equiv.swap_apply_of_ne_of_ne notLeft notRight]

def Rearranged (lo hi : Int) (a b : Int → α) : Prop :=
  ∃ order : Equiv.Perm Int, b = a ∘ order ∧ ∀ k, k < lo ∨ hi < k → order k = k

variable {lo hi : Int} {a b c : Int → α}

theorem Rearranged.refl (lo hi : Int) (a : Int → α) : Rearranged lo hi a a :=
  ⟨1, rfl, fun _ _ => rfl⟩

theorem Rearranged.trans (first : Rearranged lo hi a b) (second : Rearranged lo hi b c) :
    Rearranged lo hi a c := by
  obtain ⟨order, rfl, fixed⟩ := first
  obtain ⟨order', rfl, fixed'⟩ := second
  refine ⟨order * order', rfl, fun k outside => ?_⟩
  rw [Equiv.Perm.mul_apply, fixed' k outside, fixed k outside]

theorem Rearranged.mono {lo' hi' : Int} (rearranged : Rearranged lo hi a b) (low : lo' ≤ lo)
    (high : hi ≤ hi') :
    Rearranged lo' hi' a b := by
  obtain ⟨order, eq, fixed⟩ := rearranged
  exact ⟨order, eq, fun k outside => fixed k (by omega)⟩

/-- An exchange inside the bounds rearranges. -/
theorem rearranged_exchange {i j : Int} (a : Int → α) (inside_i : lo ≤ i ∧ i ≤ hi)
    (inside_j : lo ≤ j ∧ j ≤ hi) :
    Rearranged lo hi a (exchange a i j) := by
  refine ⟨Equiv.swap i j, rfl, fun k outside => ?_⟩
  apply Equiv.swap_apply_of_ne_of_ne <;> omega

theorem Rearranged.outside (rearranged : Rearranged lo hi a b) {k : Int}
    (outside : k < lo ∨ hi < k) : b k = a k := by
  obtain ⟨order, rfl, fixed⟩ := rearranged
  rw [Function.comp_apply, fixed k outside]

/-- What is inside came from inside. -/
theorem Rearranged.inside (rearranged : Rearranged lo hi a b) {k : Int} (low : lo ≤ k)
    (high : k ≤ hi) :
    ∃ j, lo ≤ j ∧ j ≤ hi ∧ b k = a j := by
  obtain ⟨order, rfl, fixed⟩ := rearranged
  have within : ¬ (order k < lo ∨ hi < order k) := by
    intro outside
    have same : order k = k := order.injective (fixed (order k) outside)
    omega
  exact ⟨order k, by omega, by omega, rfl⟩

def listUpTo (n : Nat) (a : Int → α) : List α := (range n).map fun k : Nat => a k

/-- The lists of the elements are permutations of each other. -/
theorem Rearranged.perm {n : Nat} (rearranged : Rearranged 0 ((n : Int) - 1) a b) :
    (listUpTo n b).Perm (listUpTo n a) := by
  obtain ⟨order, rfl, fixed⟩ := rearranged
  have within : ∀ k : Nat, k < n → 0 ≤ order k ∧ order k < n := by
    intro k less
    have inside : ¬ (order k < 0 ∨ (n : Int) - 1 < order k) := by
      intro outside
      have same : order k = k := order.injective (fixed (order k) outside)
      omega
    omega
  have nodup : ((range n).map fun k : Nat => (order k).toNat).Nodup := by
    apply Nodup.map_on _ nodup_range
    intro x inX y inY same
    have boundX := within x (mem_range.mp inX)
    have boundY := within y (mem_range.mp inY)
    have equal : order x = order y := by omega
    exact Int.ofNat_inj.mp (order.injective equal)
  have targets : ((range n).map fun k : Nat => (order k).toNat).Perm (range n) := by
    apply perm_of_nodup_nodup_toFinset_eq nodup nodup_range
    -- an injection of a finite set into itself is onto
    apply Finset.eq_of_subset_of_card_le
    · intro y member
      simp only [mem_toFinset, mem_map, mem_range] at member ⊢
      obtain ⟨x, less, rfl⟩ := member
      have bound := within x less
      omega
    · rw [toFinset_card_of_nodup nodup_range, toFinset_card_of_nodup nodup, length_map]
  have mapped := targets.map fun k : Nat => a k
  rw [map_map] at mapped
  refine Perm.trans (Perm.of_eq ?_) mapped
  apply map_congr_left
  intro k member
  have bound := within k (mem_range.mp member)
  simp only [Function.comp_apply]
  rw [Int.toNat_of_nonneg bound.1]

end Jonj.Rearrangement
