import Mathlib.Tactic

/-!
# Loops with a bound on the rounds

A round of a loop ends in a new state or leaves the loop with a result. `loop` runs at most as many
rounds as it is given, and is `none` if they do not suffice. A round may itself run out of rounds,
since it may hold further loops.
-/
namespace Jonj.Loop

variable {X X' Y Y' : Type}

def loop (round : X → Option (X ⊕ Y)) : Nat → X → Option Y
  | 0, _ => none
  | rounds + 1, x =>
    match round x with
    | none => none
    | some (.inl x) => loop round rounds x
    | some (.inr y) => some y

/-- Total correctness: an invariant, a measure that falls in every round, and what holds on
leaving. -/
theorem loop_total {round : X → Option (X ⊕ Y)} (invariant : X → Prop) (result : Y → Prop)
    (measure : X → Nat)
    (step : ∀ x, invariant x → (∃ x', round x = some (.inl x') ∧ invariant x' ∧
      measure x' < measure x) ∨
        ∃ y, round x = some (.inr y) ∧ result y) {rounds : Nat} {x : X} (start : invariant x)
          (enough : measure x < rounds) :
    ∃ y, loop round rounds x = some y ∧ result y := by
  induction rounds generalizing x with
  | zero => omega
  | succ rounds ih =>
    rcases step x start with ⟨x', next, kept, less⟩ | ⟨y, left, holds⟩
    · simp only [loop, next]
      exact ih kept (by omega)
    · simp only [loop, left]
      exact ⟨y, rfl, holds⟩

theorem loop_mono {round round' : X → Option (X ⊕ Y)}
    (extends_ : ∀ x r, round x = some r → round' x = some r) {rounds rounds' : Nat}
    (more : rounds ≤ rounds') {x : X} {y : Y} (ends : loop round rounds x = some y) :
    loop round' rounds' x = some y := by
  induction rounds generalizing rounds' x with
  | zero => cases ends
  | succ rounds ih =>
    obtain ⟨rounds', rfl⟩ := Nat.exists_eq_add_of_le' (show 1 ≤ rounds' by omega)
    rw [loop] at ends ⊢
    cases next : round x with
    | none => simp [next] at ends
    | some r =>
      rw [extends_ x r next]
      rw [next] at ends
      cases r with
      | inl x' => exact ih (by omega) ends
      | inr y' => exact ends

theorem loop_rel {round : X → Option (X ⊕ Y)} {round' : X' → Option (X' ⊕ Y')} {R : X → X' → Prop}
    {Q : Y → Y' → Prop} (step : ∀ x x', R x x' → Option.Rel (Sum.LiftRel R Q) (round x) (round' x'))
    (rounds : Nat) {x : X} {x' : X'} (start : R x x') :
    Option.Rel Q (loop round rounds x) (loop round' rounds x') := by
  induction rounds generalizing x x' with
  | zero => exact .none
  | succ rounds ih =>
    have related := step x x' start
    rw [loop, loop]
    generalize round x = next, round' x' = next' at related
    cases related with
    | none => exact .none
    | some both =>
      cases both with
      | inl kept => exact ih kept
      | inr related => exact .some related

end Jonj.Loop
