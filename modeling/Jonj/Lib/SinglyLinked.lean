import Mathlib.Logic.Function.Basic
import Mathlib.Data.List.Nodup

/-!
# Singly linked lists

A list of addresses that the `next` pointers run through, from a head pointer to `none`.
-/
namespace Jonj.SinglyLinked

open List Function

variable {A : Type}

def Linked (next : A → Option A) : Option A → List A → Prop
  | p, [] => p = none
  | p, a :: l => p = some a ∧ Linked next (next a) l

/-- A list depends on the links of its own nodes only. -/
theorem Linked.congr {next next' : A → Option A} {p : Option A} {l : List A}
    (linked : Linked next p l) (same : ∀ a ∈ l, next' a = next a) : Linked next' p l := by
  induction l generalizing p with
  | nil => exact linked
  | cons a l ih =>
    refine ⟨linked.1, ?_⟩
    rw [same a mem_cons_self]
    exact ih linked.2 fun b member => same b (mem_cons_of_mem a member)

/-- The node before the removed one takes over its link. -/
theorem Linked.unlink [DecidableEq A] {next : A → Option A} {p : Option A} {l r : List A} {a b : A}
    (linked : Linked next p (l ++ b :: a :: r)) (nodup : (l ++ b :: a :: r).Nodup) :
    Linked (update next b (next a)) p (l ++ b :: r) := by
  induction l generalizing p with
  | nil =>
    obtain ⟨head, -, rest⟩ := linked
    refine ⟨head, ?_⟩
    rw [update_self]
    apply rest.congr
    intro c member
    have different : c ≠ b := by
      rintro rfl
      exact (nodup_cons.mp nodup).1 (mem_cons_of_mem a member)
    exact update_of_ne different _ _
  | cons c l ih =>
    obtain ⟨head, rest⟩ := linked
    have different : c ≠ b := by
      rintro rfl
      exact (nodup_cons.mp nodup).1 (by simp)
    refine ⟨head, ?_⟩
    rw [update_of_ne different]
    exact ih rest (nodup_cons.mp nodup).2

end Jonj.SinglyLinked
