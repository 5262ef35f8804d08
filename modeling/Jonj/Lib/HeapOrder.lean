import Mathlib.Algebra.Order.Group.Multiset
import Mathlib.Data.Multiset.Range
import Mathlib.Order.Defs.Unbundled

/-!
# Binary heaps in an array

The array is a function on positions, of which the first ones are used. A sift moves a hole
through the heap. It copies elements and leaves a stale copy in the hole, so that the array stays
ordered on the way; the element that is sifted is written at the end.
-/
namespace Jonj.HeapOrder

open Function Multiset

variable {α : Type}

def parent (i : Nat) : Nat := (i - 1) / 2

/-! ### Contents -/

def contents (n : Nat) (f : Nat → α) : Multiset α := (Multiset.range n).map f

theorem contents_succ (n : Nat) (f : Nat → α) : contents (n + 1) f = contents n f + {f n} := by
  rw [contents, range_succ, map_cons, add_comm]
  rfl

variable {f : Nat → α} {n : Nat} {x : α}

theorem mem_contents : x ∈ contents n f ↔ ∃ i < n, f i = x := by
  simp [contents]

theorem contents_congr {g : Nat → α} (same : ∀ i < n, f i = g i) : contents n f = contents n g :=
  map_congr rfl fun i member => same i (mem_range.mp member)

variable {i : Nat}

theorem contents_update_of_le (f : Nat → α) (x : α) (outside : n ≤ i) :
    contents n (Function.update f i x) = contents n f := by
  apply contents_congr
  intro k below
  have different : k ≠ i := by omega
  exact update_of_ne different x f

theorem contents_update (f : Nat → α) (x : α) (inside : i < n) :
    contents n (Function.update f i x) + {f i} = contents n f + {x} := by
  have split : ∀ g : Nat → α, contents n g = g i ::ₘ ((range n).erase i).map g := by
    intro g
    rw [contents, ← map_cons, cons_erase (mem_range.mpr inside)]
  have others : ((range n).erase i).map (Function.update f i x) =
      ((range n).erase i).map f := by
    apply map_congr rfl
    intro k member
    have different := ((nodup_range n).mem_erase_iff.mp member).1
    exact update_of_ne different x f
  rw [split f, split (Function.update f i x), others, update_self,
    ← singleton_add, ← singleton_add]
  ac_rfl

/-- Moving an element into the hole and the hole to its place does not change the contents. -/
theorem contents_move {j : Nat} (f : Nat → α) (x : α) (hole : i < n) (from_ : j < n)
    (different : j ≠ i) :
    contents n (Function.update (Function.update f i (f j)) j x) =
      contents n (Function.update f i x) := by
  have moved := contents_update (Function.update f i (f j)) x from_
  have copied := contents_update f (f j) hole
  have placed := contents_update f x hole
  rw [update_of_ne different] at moved
  apply add_right_cancel (b := {f j} + {f i})
  calc contents n (Function.update (Function.update f i (f j)) j x) + ({f j} + {f i})
      = contents n (Function.update f i (f j)) + {f i} + {x} := by
        rw [← add_assoc, moved]
        ac_rfl
    _ = contents n f + {x} + {f j} := by
        rw [copied]
        ac_rfl
    _ = contents n (Function.update f i x) + ({f j} + {f i}) := by
        rw [← placed]
        ac_rfl

/-! ### Order -/

variable {le : α → α → Prop}

def Ordered (le : α → α → Prop) (n : Nat) (f : Nat → α) : Prop :=
  ∀ i, 0 < i → i < n → le (f i) (f (parent i))

theorem Ordered.mono {m : Nat} (ordered : Ordered le n f) (fewer : m ≤ n) :
    Ordered le m f := fun i positive below => ordered i positive (by omega)

theorem parent_lt (positive : 0 < i) : parent i < i := by
  unfold parent
  omega

section Root

variable [IsTrans α le] [Std.Refl le]

theorem Ordered.le_root (ordered : Ordered le n f) (below : i < n) : le (f i) (f 0) := by
  induction i using Nat.strongRecOn with
  | ind i ih =>
    by_cases root : i = 0
    · subst root
      exact Std.Refl.refl (f 0)
    · have positive : 0 < i := by omega
      have smaller := parent_lt positive
      exact IsTrans.trans _ _ _ (ordered i positive below) (ih (parent i) smaller (by omega))

end Root

/-- Writing to a position keeps the order, if the element fits between the parent and the
children. -/
theorem Ordered.update
    (others : ∀ k, 0 < k → k < n → k ≠ i → parent k ≠ i → le (f k) (f (parent k)))
    (above : 0 < i → i < n → le x (f (parent i)))
    (children : ∀ k, 0 < k → k < n → parent k = i → le (f k) x) :
    Ordered le n (Function.update f i x) := by
  intro k positive below
  by_cases self : k = i
  · subst self
    have different : parent k ≠ k := by
      have := parent_lt positive
      omega
    rw [update_self, update_of_ne different]
    exact above positive below
  rw [update_of_ne self]
  by_cases child : parent k = i
  · rw [child, update_self]
    exact children k positive below child
  · rw [update_of_ne child]
    exact others k positive below self child

/-! ### Moving a hole -/

section Moves

variable [IsTrans α le]

/-- Sifting up, the hole is new, or it keeps a copy of an element that is below `x`. -/
def Rising (le : α → α → Prop) (n : Nat) (f : Nat → α) (i : Nat) (x : α) : Prop :=
  (i = n ∧ Ordered le n f) ∨ (i < n ∧ Ordered le (n + 1) f ∧ le (f i) x)

theorem Rising.children (rising : Rising le n f i x) {k : Nat}
    (positive : 0 < k) (below : k < n + 1) (child : parent k = i) : le (f k) x := by
  rcases rising with ⟨new, -⟩ | ⟨-, ordered, small⟩
  · have := parent_lt positive
    omega
  · have toHole := ordered k positive below
    rw [child] at toHole
    exact IsTrans.trans _ _ _ toHole small

omit [IsTrans α le] in
theorem Rising.others (rising : Rising le n f i x) {k : Nat}
    (positive : 0 < k) (below : k < n + 1) (notHole : k ≠ i) : le (f k) (f (parent k)) := by
  rcases rising with ⟨new, ordered⟩ | ⟨-, ordered, -⟩
  · exact ordered k positive (by omega)
  · exact ordered k positive below

theorem Rising.move [Std.Refl le] (rising : Rising le n f i x) (positive : 0 < i)
    (small : le (f (parent i)) x) :
    Rising le n (Function.update f i (f (parent i))) (parent i) x := by
  have up := parent_lt positive
  have bound : i ≤ n := by
    rcases rising with ⟨new, -⟩ | ⟨old, -⟩ <;> omega
  have notHole : parent i ≠ i := by omega
  refine .inr ⟨by omega, Ordered.update ?_ ?_ ?_, ?_⟩
  · intro k positive below different _
    exact rising.others positive below different
  · intro _ _
    exact Std.Refl.refl _
  · -- a child of the hole is below what was in the hole, which is below its parent
    intro k kPositive below child
    rcases rising with ⟨new, -⟩ | ⟨-, ordered, -⟩
    · have := parent_lt kPositive
      omega
    · have toHole := ordered k kPositive below
      rw [child] at toHole
      exact IsTrans.trans _ _ _ toHole (ordered i positive (by omega))
  · rwa [update_of_ne notHole]

/-- The hole has arrived, if its parent is not below `x`. -/
theorem Rising.place (rising : Rising le n f i x)
    (arrived : 0 < i → le x (f (parent i))) : Ordered le (n + 1) (Function.update f i x) := by
  apply Ordered.update
  · intro k positive below different _
    exact rising.others positive below different
  · intro positive _
    exact arrived positive
  · intro k positive below child
    exact rising.children positive below child

/-- Sifting down, the hole keeps a copy of an element that is above `x`. -/
structure Sinking (le : α → α → Prop) (n : Nat) (f : Nat → α) (i : Nat) (x : α) : Prop where
  ordered : Ordered le n f
  small : i < n → le x (f i)

theorem Sinking.move {j : Nat} (sinking : Sinking le n f i x) (child : parent j = i)
    (positive : 0 < j) (below : j < n) (bigger : ∀ k, 0 < k → k < n → parent k = i → le (f k) (f j))
    (small : le x (f j)) :
    Sinking le n (Function.update f i (f j)) j x where
  ordered := by
    have toHole := sinking.ordered j positive below
    rw [child] at toHole
    apply Ordered.update
    · intro k positive below _ _
      exact sinking.ordered k positive below
    · intro notRoot inside
      exact IsTrans.trans _ _ _ toHole (sinking.ordered i notRoot inside)
    · exact bigger
  small := by
    intro _
    have different : j ≠ i := by
      have := parent_lt positive
      omega
    rwa [update_of_ne different]

theorem Sinking.place (sinking : Sinking le n f i x)
    (arrived : ∀ k, 0 < k → k < n → parent k = i → le (f k) x) :
    Ordered le n (Function.update f i x) := by
  apply Ordered.update
  · intro k positive below _ _
    exact sinking.ordered k positive below
  · intro positive inside
    exact IsTrans.trans _ _ _ (sinking.small inside) (sinking.ordered i positive inside)
  · exact arrived

end Moves

end Jonj.HeapOrder
