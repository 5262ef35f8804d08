import Jonj.Lib.TrialDeletion.Graph

/-!
# The mark phase

Every node reachable from a root turns grey, and every reference of a grey node is
taken away from its target.
-/
namespace Jonj.TrialDeletion

open List Function

variable {N : Type} [Fintype N]

def colored (color : N → Color) (c : Color) : Finset N := Finset.univ.filter fun v => color v = c

@[simp] theorem mem_colored {color : N → Color} {c : Color} {v : N} :
    v ∈ colored color c ↔ color v = c := by
  simp [colored]

variable [DecidableEq N]

theorem colored_update (color : N → Color) (v : N) (c : Color) :
    colored (update color v c) c = insert v (colored color c) := by
  ext w
  by_cases same : w = v <;> simp [same]

/-- Painted by the mark phase; an inert node goes black instead of grey. -/
def Graph.Marked (G : Graph N) (color : N → Color) (v : N) : Prop :=
  color v = .grey ∨ G.inert v ∧ color v = .black

variable {R : Type} [CommRing R]

/-- `pending` are the references of grey nodes that have not been followed yet and
`due` is a node that is about to be painted. -/
structure MarkInv (G : Graph N) (rc₀ : N → R) (color₀ : N → Color) (isRoot : N → Prop)
    (rc : N → R) (color : N → Color) (pending : List N) (due : Option N) : Prop where
  count : ∀ v, G.inert v = false →
    rc v + (G.edgesFrom (colored color .grey) v : R) = rc₀ v + (pending.count v : R)
  closed : ∀ u, color u = .grey → ∀ v ∈ G.succ u, G.Marked color v ∨ v ∈ pending ∨ due = some v
  reach : ∀ v, color v = .grey ∨ v ∈ pending ∨ due = some v → ∃ r, isRoot r ∧ G.Reach r v
  kept : ∀ v, color v ≠ .grey → color v = color₀ v ∨ G.inert v ∧ color v = .black
  inert : ∀ v, G.inert v → color v ≠ .grey ∧ rc v = rc₀ v

section mark

variable {G : Graph N} {rc₀ rc : N → R} {color₀ color : N → Color} {isRoot : N → Prop}
  {pending : List N} {v : N}

/-- A reference is dropped when it is followed. -/
theorem MarkInv.follow (inv : MarkInv G rc₀ color₀ isRoot rc color (v :: pending) none) :
    MarkInv G rc₀ color₀ isRoot (G.drop rc v) color pending (some v) where
  count w active := by
    have count := inv.count w active
    unfold Graph.drop
    by_cases same : w = v
    · subst same
      rw [count_cons_self] at count
      rw [active, if_neg (by decide), update_self]
      push_cast at count
      linear_combination count
    rw [List.count_cons_of_ne (Ne.symm same)] at count
    split
    · exact count
    · rw [update_of_ne same]
      exact count
  closed u grey w edge := by
    rcases inv.closed u grey w edge with marked | member | none
    · exact .inl marked
    · rcases mem_cons.mp member with same | later
      · exact .inr (.inr (by rw [same]))
      · exact .inr (.inl later)
    · cases none
  reach w cases := by
    apply inv.reach
    rcases cases with grey | later | same
    · exact .inl grey
    · exact .inr (.inl (mem_cons_of_mem v later))
    · cases same
      exact .inr (.inl mem_cons_self)
  kept := inv.kept
  inert w inert := by
    refine ⟨(inv.inert w inert).1, ?_⟩
    unfold Graph.drop
    split
    · exact (inv.inert w inert).2
    next active =>
    have apart : w ≠ v := fun same => active (same ▸ inert)
    rw [update_of_ne apart]
    exact (inv.inert w inert).2

theorem MarkInv.mono_root {isRoot' : N → Prop} {due : Option N}
    (inv : MarkInv G rc₀ color₀ isRoot rc color pending due) (more : ∀ r, isRoot r → isRoot' r) :
    MarkInv G rc₀ color₀ isRoot' rc color pending due where
  __ := inv
  reach w cases := by
    obtain ⟨r, root, path⟩ := inv.reach w cases
    exact ⟨r, more r root, path⟩

theorem MarkInv.root (inv : MarkInv G rc₀ color₀ isRoot rc color pending none) (root : isRoot v) :
    MarkInv G rc₀ color₀ isRoot rc color pending (some v) where
  __ := inv
  closed u grey w edge := by
    rcases inv.closed u grey w edge with marked | member | none
    · exact .inl marked
    · exact .inr (.inl member)
    · cases none
  reach w cases := by
    rcases cases with grey | later | same
    · exact inv.reach w (.inl grey)
    · exact inv.reach w (.inr (.inl later))
    · cases same
      exact ⟨v, root, Relation.ReflTransGen.refl⟩

section

variable (inv : MarkInv G rc₀ color₀ isRoot rc color pending (some v))

include inv

/-- A node that is marked already is left. -/
theorem MarkInv.skip (marked : G.Marked color v) :
    MarkInv G rc₀ color₀ isRoot rc color pending none where
  __ := inv
  closed u grey w edge := by
    rcases inv.closed u grey w edge with marked | member | same
    · exact .inl marked
    · exact .inr (.inl member)
    · cases same
      exact .inl marked
  reach w cases := by
    apply inv.reach
    rcases cases with grey | later | none
    · exact .inl grey
    · exact .inr (.inl later)
    · cases none

/-- A node that is entered puts its references on the list. -/
theorem MarkInv.enter (active : G.inert v = false) (fresh : color v ≠ .grey) :
    MarkInv G rc₀ color₀ isRoot rc (update color v .grey) (G.succ v ++ pending) none where
  count w active' := by
    rw [colored_update, G.edgesFrom_insert (by simpa using fresh), count_append]
    have count := inv.count w active'
    push_cast
    linear_combination count
  closed u grey w edge := by
    by_cases target : w = v
    · exact .inl (.inl (by rw [target, update_self]))
    by_cases source : u = v
    · exact .inr (.inl (mem_append_left _ (source ▸ edge)))
    rw [update_of_ne source] at grey
    rcases inv.closed u grey w edge with marked | member | same
    · refine .inl ?_
      rw [Graph.Marked, update_of_ne target]
      exact marked
    · exact .inr (.inl (mem_append_right _ member))
    · exact absurd (Option.some.inj same).symm target
  reach w cases := by
    have here : ∃ r, isRoot r ∧ G.Reach r v := inv.reach v (.inr (.inr rfl))
    by_cases same : w = v
    · rw [same]
      exact here
    rcases cases with grey | member | none
    · rw [update_of_ne same] at grey
      exact inv.reach w (.inl grey)
    · rcases mem_append.mp member with child | later
      · obtain ⟨r, root, path⟩ := here
        exact ⟨r, root, path.step child⟩
      · exact inv.reach w (.inr (.inl later))
    · cases none
  kept w notGrey := by
    have apart : w ≠ v := by
      rintro rfl
      exact notGrey (update_self ..)
    rw [update_of_ne apart] at notGrey ⊢
    exact inv.kept w notGrey
  inert w inert := by
    have apart : w ≠ v := by
      rintro rfl
      rw [active] at inert
      cases inert
    rw [update_of_ne apart]
    exact inv.inert w inert

theorem MarkInv.enterInert (inert : G.inert v) :
    MarkInv G rc₀ color₀ isRoot rc (update color v .black) pending none := by
  have notGrey := (inv.inert v inert).1
  have greys : colored (update color v .black) .grey = colored color .grey := by
    ext w
    by_cases same : w = v
    · simp [same, notGrey]
    · simp [update_of_ne same]
  refine ⟨?_, ?_, ?_, ?_, ?_⟩
  · rw [greys]
    exact inv.count
  · intro u grey w edge
    by_cases target : w = v
    · exact .inl (.inr ⟨target ▸ inert, by rw [target, update_self]⟩)
    have source : u ≠ v := by
      rintro rfl
      simp at grey
    rw [update_of_ne source] at grey
    rcases inv.closed u grey w edge with marked | member | same
    · refine .inl ?_
      rw [Graph.Marked, update_of_ne target]
      exact marked
    · exact .inr (.inl member)
    · exact absurd (Option.some.inj same).symm target
  · intro w cases
    by_cases same : w = v
    · exact inv.reach w (.inr (.inr (by rw [same])))
    rcases cases with grey | later | none
    · rw [update_of_ne same] at grey
      exact inv.reach w (.inl grey)
    · exact inv.reach w (.inr (.inl later))
    · cases none
  · intro w notGrey'
    by_cases same : w = v
    · exact .inr ⟨same ▸ inert, by rw [same, update_self]⟩
    · rw [update_of_ne same] at notGrey' ⊢
      exact inv.kept w notGrey'
  · intro w inert'
    refine ⟨?_, (inv.inert w inert').2⟩
    by_cases same : w = v
    · simp [same]
    · rw [update_of_ne same]
      exact (inv.inert w inert').1

end

/-- In the end exactly what the roots lead to is grey. -/
theorem MarkInv.grey_iff {isRoot' : N → Prop} (inv : MarkInv G rc₀ color₀ isRoot rc color [] none)
    (more : ∀ r, isRoot r → isRoot' r) (marked : ∀ r, isRoot' r → G.Marked color r) :
    color v = .grey ↔ G.inert v = false ∧ ∃ r, isRoot' r ∧ G.Reach r v := by
  constructor
  · intro grey
    obtain ⟨r, root, path⟩ := inv.reach v (.inl grey)
    refine ⟨?_, r, more r root, path⟩
    by_contra inert
    exact (inv.inert v (by simpa using inert)).1 grey
  rintro ⟨active, r, root, path⟩
  have painted : G.Marked color v := by
    clear active
    induction path with
    | refl => exact marked r root
    | @tail x y path edge ih =>
      rcases ih with grey | ⟨inert, _⟩
      · simpa using inv.closed x grey y edge
      · simp [G.inert_succ x inert] at edge
  rcases painted with grey | ⟨inert, _⟩
  · exact grey
  · simp [active] at inert

end mark

end Jonj.TrialDeletion
