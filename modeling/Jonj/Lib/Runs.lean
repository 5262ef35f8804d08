import Mathlib.Tactic

/-!
# Runs of labelled machines

A machine takes a label and answers with a new state and an output, or is stuck.
A run feeds it a list of labels. `Guarded` says that a condition on state and
label holds at every step of the run.
-/
namespace Jonj.Runs

variable {S T L O : Type}

def run (step : S → L → Option (S × O)) : S → List L → Option (S × List O)
  | s, [] => some (s, [])
  | s, l :: ls => do
    let (s', o) ← step s l
    let (s'', os) ← run step s' ls
    some (s'', o :: os)

def Guarded (step : S → L → Option (S × O)) (guard : S → L → Prop) : S → List L → Prop
  | _, [] => True
  | s, l :: ls => guard s l ∧ ∀ s' o, step s l = some (s', o) → Guarded step guard s' ls

variable {guard : S → L → Prop}

theorem guarded_of_forall {step : S → L → Option (S × O)} (ls : List L)
    (always : ∀ l ∈ ls, ∀ s, guard s l) (s : S) : Guarded step guard s ls := by
  induction ls generalizing s with
  | nil => trivial
  | cons l ls ih =>
    refine ⟨always l (by simp) s, fun s' _ _ => ih (fun l' member => ?_) s'⟩
    exact always l' (List.mem_cons_of_mem l member)

/-- Two machines answer alike and end in related states, or are both stuck. -/
def Alike (R : S → T → Prop) : S × O → T × O → Prop := fun a b => a.2 = b.2 ∧ R a.1 b.1

theorem rel_imp {A B : Type} {P Q : A → B → Prop} {a : Option A} {b : Option B}
    (related : Option.Rel P a b) (weaker : ∀ x y, P x y → Q x y) : Option.Rel Q a b := by
  cases related with
  | none => exact .none
  | some both => exact .some (weaker _ _ both)

theorem rel_some_left {A B : Type} {P : A → B → Prop} {a : Option A} {x : A} {b : Option B}
    (related : Option.Rel P a b) (left : a = some x) : ∃ y, b = some y ∧ P x y := by
  cases related with
  | none => cases left
  | some both => cases left; exact ⟨_, rfl, both⟩

theorem rel_some_right {A B : Type} {P : A → B → Prop} {a : Option A} {y : B} {b : Option B}
    (related : Option.Rel P a b) (right : b = some y) : ∃ x, a = some x ∧ P x y := by
  cases related with
  | none => cases right
  | some both => cases right; exact ⟨_, rfl, both⟩

theorem rel_bind {A B C D : Type} {P : A → B → Prop} {Q : C → D → Prop} {a : Option A}
    {b : Option B} {f : A → Option C} {g : B → Option D} (related : Option.Rel P a b)
    (next : ∀ x y, a = some x → P x y → Option.Rel Q (f x) (g y)) :
    Option.Rel Q (a.bind f) (b.bind g) := by
  cases related with
  | none => exact .none
  | some both => exact next _ _ rfl both

/-- A simulation step by step is a simulation over whole runs. -/
theorem run_alike {step : S → L → Option (S × O)} {step' : T → L → Option (T × O)}
    {R : S → T → Prop}
    (one : ∀ s t l, R s t → guard s l → Option.Rel (Alike R) (step s l) (step' t l)) (ls : List L)
    (s : S) (t : T) (related : R s t) (guarded : Guarded step guard s ls) :
    Option.Rel (Alike R) (run step s ls) (run step' t ls) := by
  induction ls generalizing s t with
  | nil => exact .some ⟨rfl, related⟩
  | cons l ls ih =>
    obtain ⟨first, rest⟩ := guarded
    refine rel_bind (one s t l related first) ?_
    rintro ⟨s', o⟩ ⟨t', o'⟩ taken ⟨output, related'⟩
    refine rel_bind (ih s' t' related' (rest s' o taken)) ?_
    rintro ⟨s'', os⟩ ⟨t'', os'⟩ _ ⟨outputs, related''⟩
    cases output
    cases outputs
    exact .some ⟨rfl, related''⟩

/-! ### Machines without output -/

/-- The state after the labels of a run, if the machine does not get stuck. -/
def execute (step : S → L → Option S) (s : S) (ls : List L) : Option S := ls.foldlM step s

variable {step : S → L → Option S}

theorem execute_cons {s t : S} {l : L} {ls : List L}
    (stepped : step s l = some t) : execute step s (l :: ls) = execute step t ls := by
  simp [execute, stepped]

/-- A condition on state and label holds at every step of the run. -/
def Meets (step : S → L → Option S) (guard : S → L → Prop) : S → List L → Prop
  | _, [] => True
  | s, l :: ls => guard s l ∧ ∀ s', step s l = some s' → Meets step guard s' ls

/-- What every step keeps holds in every state that a run reaches. -/
theorem execute_invariant {I : S → Prop}
    (one : ∀ s l s', I s → guard s l → step s l = some s' → I s') (ls : List L) (s s' : S)
    (start : I s) (meets : Meets step guard s ls) (ran : execute step s ls = some s') : I s' := by
  induction ls generalizing s with
  | nil =>
    cases ran
    exact start
  | cons l ls ih =>
    obtain ⟨first, rest⟩ := meets
    obtain ⟨m, stepped, later⟩ := Option.bind_eq_some_iff.mp ran
    exact ih m (one s l m start first stepped) (rest m stepped) later

/-- A loop over a list, by an invariant that speaks of the elements still to come.
The loop body may fail, so the rule also says that it does not. -/
theorem foldlM_pending {A : Type} {f : S → A → Option S} {I : S → List A → Prop}
    (each : ∀ s a rest, I s (a :: rest) → ∃ s', f s a = some s' ∧ I s' rest) (l rest : List A)
    (s : S) (start : I s (l ++ rest)) : ∃ s', l.foldlM f s = some s' ∧ I s' rest := by
  induction l generalizing s with
  | nil => exact ⟨s, rfl, start⟩
  | cons a l ih =>
    obtain ⟨s', taken, inv⟩ := each s a (l ++ rest) start
    obtain ⟨s'', looped, final⟩ := ih s' inv
    exact ⟨s'', by rw [List.foldlM_cons, taken]; exact looped, final⟩

end Jonj.Runs
