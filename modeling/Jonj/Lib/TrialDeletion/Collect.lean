import Jonj.Lib.TrialDeletion.Scan

/-!
# The collect phase

White nodes are taken one by one and their references given back. Two kinds of
nodes are told apart: a `value` is put on the list of what is to be freed, with one
count more, and only references to values are given back.

A node may be `held`: it is passed over as a child and taken later, as a root.
-/
namespace Jonj.TrialDeletion

open List

variable {N R : Type} [DecidableEq N] [CommRing R]

/-- Pending work: follow a reference, or put a node on the list. -/
inductive Pending (N : Type) where
  | edge (v : N)
  | push (v : N)
  deriving DecidableEq

structure CollectInv (G : Graph N) (value : N → Bool) (rcS : N → R) (whites : Finset N)
    (rc : N → R) (taken : Finset N) (held : N → Prop) (freed : List N) (tasks : List (Pending N))
    (due : Option N) : Prop where
  active : ∀ v ∈ whites, G.inert v = false
  subset : taken ⊆ whites
  count : ∀ v, value v → G.inert v = false →
    rc v + (tasks.count (.edge v) : R) =
      rcS v + (G.edgesFrom taken v : R) + (freed.count v : R)
  kept : ∀ v, value v = false ∨ G.inert v → rc v = rcS v
  listed : ∀ v, freed.count v + tasks.count (.push v) = if v ∈ taken ∧ value v then 1 else 0
  closed : ∀ u ∈ taken, ∀ v ∈ G.succ u, v ∈ whites →
    v ∈ taken ∨ held v ∨ Pending.edge v ∈ tasks ∨ due = some v

section collect

variable {G : Graph N} {value : N → Bool} {rcS rc : N → R} {whites taken : Finset N}
  {held : N → Prop} {freed : List N} {tasks : List (Pending N)} {due : Option N} {v : N}

theorem CollectInv.freed_taken (inv : CollectInv G value rcS whites rc taken held freed tasks due)
    (member : v ∈ freed) :
    v ∈ taken := by
  by_contra outside
  have listed := inv.listed v
  have positive := count_pos_iff.mpr member
  rw [if_neg fun both => outside both.1] at listed
  omega

theorem CollectInv.push_fresh
    (inv : CollectInv G value rcS whites rc taken held freed (.push v :: tasks) due) :
    (v ∈ taken ∧ value v) ∧ v ∉ freed := by
  have listed := inv.listed v
  rw [count_cons_self] at listed
  split at listed
  next inside =>
    refine ⟨inside, fun member => ?_⟩
    have positive := count_pos_iff.mpr member
    omega
  · omega

/-- References that were pending or due still are. -/
theorem CollectInv.closed_imp {tasks' : List (Pending N)} {due' : Option N}
    (inv : CollectInv G value rcS whites rc taken held freed tasks due)
    (still : ∀ w, .edge w ∈ tasks ∨ due = some w → .edge w ∈ tasks' ∨ due' = some w) (u : N)
    (inside : u ∈ taken) (w : N) (edge : w ∈ G.succ u) (white : w ∈ whites) :
    w ∈ taken ∨ held w ∨ .edge w ∈ tasks' ∨ due' = some w :=
  (inv.closed u inside w edge white).imp_right (Or.imp_right (still w))

theorem CollectInv.perm {tasks' : List (Pending N)}
    (inv : CollectInv G value rcS whites rc taken held freed tasks due) (same : tasks.Perm tasks') :
    CollectInv G value rcS whites rc taken held freed tasks' due where
  __ := inv
  count w isValue active := same.count_eq (.edge w) ▸ inv.count w isValue active
  listed w := same.count_eq (.push w) ▸ inv.listed w
  closed := inv.closed_imp fun _ => Or.imp_left same.mem_iff.mp

theorem CollectInv.pop {rc' : N → R}
    (inv : CollectInv G value rcS whites rc taken held freed (.edge v :: tasks) none)
    (counted : value v → G.inert v = false → rc' v = rc v + 1)
    (uncounted : value v = false ∨ G.inert v → rc' v = rc v) (others : ∀ w, w ≠ v → rc' w = rc w) :
    CollectInv G value rcS whites rc' taken held freed tasks (some v) where
  __ := inv
  count w isValue active := by
    have count := inv.count w isValue active
    by_cases same : w = v
    · subst same
      rw [count_cons_self] at count
      rw [counted isValue active]
      push_cast at count
      linear_combination count
    · rw [count_cons_of_ne (by simpa using Ne.symm same)] at count
      rw [others w same]
      exact count
  kept w uncounted' := by
    rw [← inv.kept w uncounted']
    by_cases same : w = v
    · subst same
      exact uncounted uncounted'
    · exact others w same
  listed w := by
    have listed := inv.listed w
    rwa [count_cons_of_ne (by simp)] at listed
  closed := by
    refine inv.closed_imp fun w => ?_
    rintro (pending | none)
    · rcases mem_cons.mp pending with same | later
      · cases same
        exact .inr rfl
      · exact .inl later
    · cases none

section

variable (inv : CollectInv G value rcS whites rc taken held freed (.edge v :: tasks) none)

include inv

theorem CollectInv.giveBack (isValue : value v) :
    CollectInv G value rcS whites (G.restore rc v) taken held freed tasks (some v) := by
  refine inv.pop ?_ ?_ ?_
  · intro _ active
    rw [Graph.restore, active, if_neg (by decide), Function.update_self]
  · rintro (notValue | inert)
    · rw [isValue] at notValue
      cases notValue
    · rw [Graph.restore, if_pos inert]
  intro w other
  unfold Graph.restore
  split
  · rfl
  · exact Function.update_of_ne other ..

theorem CollectInv.pass (notValue : value v = false) :
    CollectInv G value rcS whites rc taken held freed tasks (some v) := by
  refine inv.pop ?_ (fun _ => rfl) (fun _ _ => rfl)
  intro isValue
  rw [notValue] at isValue
  cases isValue

end

theorem CollectInv.push
    (inv : CollectInv G value rcS whites rc taken held freed (.push v :: tasks) due) :
    CollectInv G value rcS whites (Function.update rc v (rc v + 1)) taken held (v :: freed)
      tasks due := by
  have inside := inv.push_fresh.1
  have active := inv.active v (inv.subset inside.1)
  refine ⟨inv.active, inv.subset, ?_, ?_, ?_, ?_⟩
  · intro w isValue active'
    have count := inv.count w isValue active'
    rw [count_cons_of_ne (by simp)] at count
    by_cases same : w = v
    · subst same
      rw [Function.update_self, count_cons_self]
      push_cast
      linear_combination count
    · rw [Function.update_of_ne same, count_cons_of_ne (Ne.symm same)]
      exact count
  · intro w uncounted
    have apart : w ≠ v := by
      rintro rfl
      rcases uncounted with notValue | inert
      · simp [inside.2] at notValue
      · simp [active] at inert
    rw [Function.update_of_ne apart]
    exact inv.kept w uncounted
  · intro w
    have listed := inv.listed w
    by_cases same : w = v
    · subst same
      rw [count_cons_self] at listed ⊢
      omega
    · rw [count_cons_of_ne (by simpa using Ne.symm same)] at listed
      rw [count_cons_of_ne (Ne.symm same)]
      exact listed
  · exact inv.closed_imp fun _ => Or.imp_left (by simp)

/-- The work that taking a node makes. -/
def Graph.work (G : Graph N) (value : N → Bool) (v : N) : List (Pending N) :=
  (if value v then [.push v] else []) ++ (G.succ v).map .edge

theorem count_edge_tasks (w : N) : (G.work value v).count (.edge w) = (G.succ v).count w := by
  have mapped : ((G.succ v).map Pending.edge).count (.edge w) = (G.succ v).count w :=
    count_map_of_injective _ _ (fun _ _ same => Pending.edge.inj same) _
  unfold Graph.work
  split <;> simp [mapped]

theorem count_push_tasks (w : N) :
    (G.work value v).count (.push w) = if w = v ∧ value v then 1 else 0 := by
  have none : ((G.succ v).map Pending.edge).count (.push w) = 0 := by
    rw [count_eq_zero]
    simp
  unfold Graph.work
  by_cases isValue : value v
  · by_cases same : w = v
    · subst same
      simp [isValue, none]
    · simp [isValue, same, none, count_cons_of_ne, Ne.symm same]
  · simp [isValue, none]

section

variable (inv : CollectInv G value rcS whites rc taken held freed tasks (some v))

include inv

theorem CollectInv.take (white : v ∈ whites) (fresh : v ∉ taken) :
    CollectInv G value rcS whites rc (insert v taken) held freed
      (G.work value v ++ tasks) none where
  __ := inv
  subset := Finset.insert_subset white inv.subset
  count w isValue active := by
    have count := inv.count w isValue active
    rw [count_append, count_edge_tasks, G.edgesFrom_insert fresh]
    push_cast
    linear_combination count
  listed w := by
    have listed := inv.listed w
    rw [count_append, count_push_tasks]
    by_cases same : w = v
    · subst same
      simp only [fresh, false_and, if_false] at listed
      simp only [Finset.mem_insert_self, true_and]
      omega
    · simp only [same, false_and, if_false, Finset.mem_insert, false_or]
      omega
  closed u inside w edge white' := by
    by_cases target : w = v
    · exact .inl (Finset.mem_insert.mpr (.inl target))
    rcases Finset.mem_insert.mp inside with source | old
    · refine .inr (.inr (.inl (mem_append_left _ ?_)))
      rw [← count_pos_iff, count_edge_tasks, count_pos_iff]
      exact source ▸ edge
    rcases inv.closed u old w edge white' with done | skipped | pending | same
    · exact .inl (Finset.mem_insert_of_mem done)
    · exact .inr (.inl skipped)
    · exact .inr (.inr (.inl (mem_append_right _ pending)))
    · exact absurd (Option.some.inj same).symm target

/-- A node that is not white, or taken, or held, is passed over. -/
theorem CollectInv.skip (settled : v ∈ whites → v ∈ taken ∨ held v) :
    CollectInv G value rcS whites rc taken held freed tasks none where
  __ := inv
  closed u inside w edge white := by
    rcases inv.closed u inside w edge white with done | skipped | pending | same
    · exact .inl done
    · exact .inr (.inl skipped)
    · exact .inr (.inr (.inl pending))
    · cases same
      exact (settled white).imp_right .inl

end

/-- What is held matters only for nodes that have not been taken. -/
theorem CollectInv.rehold {held' : N → Prop}
    (inv : CollectInv G value rcS whites rc taken held freed tasks due)
    (others : ∀ w, w ∉ taken → held w → held' w) :
    CollectInv G value rcS whites rc taken held' freed tasks due where
  __ := inv
  closed u inside w edge white := by
    by_cases done : w ∈ taken
    · exact .inl done
    · exact (inv.closed u inside w edge white).imp_right fun rest =>
        rest.imp_left (others w done)

theorem CollectInv.release {held' : N → Prop}
    (inv : CollectInv G value rcS whites rc taken held freed tasks none)
    (others : ∀ w, w ≠ v → held w → held' w) :
    CollectInv G value rcS whites rc taken held' freed tasks (some v) where
  __ := inv
  closed u inside w edge white := by
    rcases inv.closed u inside w edge white with done | skipped | pending | none
    · exact .inl done
    · by_cases same : w = v
      · exact .inr (.inr (.inr (by rw [same])))
      · exact .inr (.inl (others w same skipped))
    · exact .inr (.inr (.inl pending))
    · cases none

section

variable (inv : CollectInv G value rcS whites rc taken held freed [] none)

include inv

theorem CollectInv.mem_freed (inside : v ∈ taken) (isValue : value v) : v ∈ freed := by
  have listed := inv.listed v
  rw [if_pos ⟨inside, isValue⟩, count_nil] at listed
  exact count_pos_iff.mp (by omega)

theorem CollectInv.nodup : freed.Nodup := by
  rw [nodup_iff_count_le_one]
  intro v
  have listed := inv.listed v
  split at listed <;> omega

end

/-- In the end every white node that a root leads to has been taken. -/
theorem CollectInv.all_taken {isRoot : N → Prop}
    (inv : CollectInv G value rcS whites rc taken held freed [] none)
    (released : ∀ v ∈ whites, v ∉ taken → ¬ held v) (roots : ∀ r, isRoot r → r ∈ whites → r ∈ taken)
    (reach : ∀ v ∈ whites, ∃ r, isRoot r ∧ G.Reach r v)
    (back : ∀ r x v, isRoot r → G.Reach r x → G.Reach x v → v ∈ whites → x ∈ whites) :
    taken = whites := by
  refine Finset.Subset.antisymm inv.subset fun v white => ?_
  obtain ⟨r, root, path⟩ := reach v white
  suffices along : ∀ x, G.Reach r x → G.Reach x v → x ∈ taken from
    along v path Relation.ReflTransGen.refl
  intro x before
  induction before with
  | refl =>
    intro after
    exact roots r root (back r r v root Relation.ReflTransGen.refl after white)
  | @tail x y before edge ih =>
    intro after
    have whiteY : y ∈ whites := back r y v root (Graph.Reach.step before edge) after white
    rcases inv.closed x (ih (Relation.ReflTransGen.head edge after)) y edge whiteY with
      done | skipped | pending | none
    · exact done
    · by_contra left
      exact released y whiteY left skipped
    · cases pending
    · cases none

end collect

end Jonj.TrialDeletion
