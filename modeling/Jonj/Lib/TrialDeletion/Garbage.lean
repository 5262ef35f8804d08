import Jonj.Lib.TrialDeletion.Collect

/-!
# What trial deletion finds

The area is what the roots lead to. A node of the area is garbage when, with all
references from inside the area taken away, nothing that leads to it is counted.
If the counts are right, that is a matter of the graph alone.
-/
namespace Jonj.TrialDeletion

variable {N R : Type} [Fintype N]

open Classical in
noncomputable def Graph.area (G : Graph N) (isRoot : N → Prop) : Finset N :=
  Finset.univ.filter fun v => G.inert v = false ∧ ∃ r, isRoot r ∧ G.Reach r v

theorem mem_area {G : Graph N} {isRoot : N → Prop} {v : N} :
    v ∈ G.area isRoot ↔ G.inert v = false ∧ ∃ r, isRoot r ∧ G.Reach r v := by
  simp [Graph.area]

variable [DecidableEq N] [CommRing R]

/-- The count without the references from inside the area. -/
noncomputable def Graph.leftover (G : Graph N) (rc : N → R) (isRoot : N → Prop) (v : N) : R :=
  rc v - (G.edgesFrom (G.area isRoot) v : R)

open Classical in
noncomputable def Graph.garbage (G : Graph N) (rc : N → R) (isRoot : N → Prop) : Finset N :=
  (G.area isRoot).filter fun v => ∀ w ∈ G.area isRoot, G.leftover rc isRoot w ≠ 0 → ¬ G.Reach w v

section phases

variable {G : Graph N} {rc₀ rc rcM : N → R} {color₀ color : N → Color} {isRoot : N → Prop} {v : N}

theorem mem_garbage : v ∈ G.garbage rc isRoot ↔ v ∈ G.area isRoot ∧
    ∀ w ∈ G.area isRoot, G.leftover rc isRoot w ≠ 0 → ¬ G.Reach w v := by
  simp [Graph.garbage]

/-- A node whose own count is not used up is no garbage. -/
theorem not_garbage_of_leftover (inside : v ∈ G.area isRoot)
    (counted : G.leftover rc isRoot v ≠ 0) : v ∉ G.garbage rc isRoot := fun member =>
  (mem_garbage.mp member).2 v inside counted Relation.ReflTransGen.refl

theorem garbage_of_reach {w : N} (member : v ∈ G.garbage rc isRoot) (inside : w ∈ G.area isRoot)
    (path : G.Reach w v) : w ∈ G.garbage rc isRoot :=
  mem_garbage.mpr ⟨inside, fun x source counted before =>
    (mem_garbage.mp member).2 x source counted (Relation.ReflTransGen.trans before path)⟩

section

variable {isRoot' : N → Prop} (inv : MarkInv G rc₀ color₀ isRoot' rc color [] none)

include inv

theorem MarkInv.area_eq (more : ∀ r, isRoot' r → isRoot r)
    (marked : ∀ r, isRoot r → G.Marked color r) : colored color .grey = G.area isRoot := by
  ext v
  rw [mem_colored, mem_area, inv.grey_iff more marked]

/-- The mark phase leaves the counts without the references from inside the area. -/
theorem MarkInv.rc_eq (area : colored color .grey = G.area isRoot) (active : G.inert v = false) :
    rc v = G.leftover rc₀ isRoot v := by
  have count := inv.count v active
  rw [area, List.count_nil, Nat.cast_zero, add_zero] at count
  rw [Graph.leftover, ← count]
  ring

end

section

variable (scanned : Scanned G rcM (G.area isRoot) rc color)
  (left : ∀ w, G.inert w = false → rcM w = G.leftover rc₀ isRoot w)

include scanned left

/-- The scan phase leaves exactly the garbage white. -/
theorem Scanned.white_iff (inside : v ∈ G.area isRoot) :
    color v = .white ↔ v ∈ G.garbage rc₀ isRoot := by
  have cause : (∃ w ∈ G.area isRoot, rcM w ≠ 0 ∧ G.Reach w v) ↔
      ∃ w ∈ G.area isRoot, G.leftover rc₀ isRoot w ≠ 0 ∧ G.Reach w v := by
    constructor
    · rintro ⟨w, source, counted, path⟩
      exact ⟨w, source, left w (mem_area.mp source).1 ▸ counted, path⟩
    · rintro ⟨w, source, counted, path⟩
      exact ⟨w, source, (left w (mem_area.mp source).1).symm ▸ counted, path⟩
  have black := (scanned.black_iff v inside).trans cause
  have notBlack : color v = .white ↔ color v ≠ .black := by
    rcases scanned.palette v inside with white | black <;> simp_all
  rw [notBlack, Ne, black, mem_garbage]
  push Not
  exact ⟨fun clean => ⟨inside, clean⟩, fun both => both.2⟩

/-- After the scan phase only the references of the garbage are missing. -/
theorem Scanned.restored (active : G.inert v = false) :
    rc v + (G.edgesFrom (G.garbage rc₀ isRoot) v : R) = rc₀ v := by
  have blacks : (G.area isRoot).filter (fun u => color u = .black) =
      G.area isRoot \ G.garbage rc₀ isRoot := by
    ext u
    rw [Finset.mem_filter, Finset.mem_sdiff]
    refine and_congr_right fun inside => ?_
    rw [← scanned.white_iff left inside]
    rcases scanned.palette u inside with white | black <;> simp_all
  have subset : G.garbage rc₀ isRoot ⊆ G.area isRoot := fun u member => (mem_garbage.mp member).1
  have split : G.edgesFrom (G.area isRoot \ G.garbage rc₀ isRoot) v +
      G.edgesFrom (G.garbage rc₀ isRoot) v = G.edgesFrom (G.area isRoot) v :=
    Finset.sum_sdiff subset
  have whole := congrArg (fun n : Nat => (n : R)) split
  have count := scanned.count v active
  rw [blacks, left v active, Graph.leftover] at count
  push_cast at whole
  linear_combination count + whole

end

end phases

/-! ### Counts that are right -/

section counted

variable {G : Graph N} {rc : N → R} {ext : N → Nat} {isRoot : N → Prop} {u v w : N}

/-- Each count is the number of references from inside the graph and from outside, and
no smaller number is zero as a count. -/
structure Counted (G : Graph N) (rc : N → R) (ext : N → Nat) : Prop where
  count : ∀ v, G.inert v = false → rc v = ((G.edgesFrom Finset.univ v + ext v : Nat) : R)
  nonzero : ∀ v, G.inert v = false → ∀ n : Nat, n ≤ G.edgesFrom Finset.univ v + ext v →
    (n : R) = 0 → n = 0

/-- What is left of a count comes from outside the area or from outside the graph. -/
theorem Counted.leftover_eq_zero_iff (counted : Counted G rc ext) (active : G.inert v = false) :
    G.leftover rc isRoot v = 0 ↔ ext v = 0 ∧ ∀ u, u ∉ G.area isRoot → v ∉ G.succ u := by
  have split : G.edgesFrom (Finset.univ \ G.area isRoot) v + G.edgesFrom (G.area isRoot) v =
      G.edgesFrom Finset.univ v := Finset.sum_sdiff (Finset.subset_univ _)
  have left : G.leftover rc isRoot v =
      ((G.edgesFrom (Finset.univ \ G.area isRoot) v + ext v : Nat) : R) := by
    rw [Graph.leftover, counted.count v active, ← split]
    push_cast
    ring
  have outside : G.edgesFrom (Finset.univ \ G.area isRoot) v = 0 ↔
      ∀ u, u ∉ G.area isRoot → v ∉ G.succ u := by
    simp [Graph.edgesFrom_eq_zero_iff]
  rw [left, ← outside]
  constructor
  · intro zero
    have sum := counted.nonzero v active _ (by omega) zero
    omega
  · rintro ⟨none, noEdge⟩
    rw [none, noEdge]
    simp

section

variable (counted : Counted G rc ext) (member : v ∈ G.garbage rc isRoot)

include counted member

theorem Counted.garbage_ext : ext v = 0 := by
  have inside := (mem_garbage.mp member).1
  have zero : G.leftover rc isRoot v = 0 := by
    by_contra left
    exact not_garbage_of_leftover inside left member
  exact ((counted.leftover_eq_zero_iff (mem_area.mp inside).1).mp zero).1

theorem Counted.garbage_back (path : G.Reach w v) : w ∈ G.garbage rc isRoot := by
  induction path using Relation.ReflTransGen.head_induction_on with
  | refl => exact member
  | @head w x edge _ ih =>
    obtain ⟨inside, clean⟩ := mem_garbage.mp ih
    have zero : G.leftover rc isRoot x = 0 := by
      by_contra left
      exact clean x inside left Relation.ReflTransGen.refl
    have noOutside := ((counted.leftover_eq_zero_iff (mem_area.mp inside).1).mp zero).2
    have source : w ∈ G.area isRoot := by
      by_contra outside
      exact noOutside w outside edge
    exact garbage_of_reach ih source (Relation.ReflTransGen.single edge)

theorem Counted.safe (held : 0 < ext w) : ¬ G.Reach w v := by
  intro path
  have none := counted.garbage_ext (counted.garbage_back member path)
  omega

end

/-- A node of the area is garbage unless something that is referenced from outside, or
that the roots do not lead to, leads to it. -/
theorem Counted.complete (counted : Counted G rc ext) (inside : v ∈ G.area isRoot)
    (unheld : ∀ w, G.Reach w v → ext w = 0 ∧ w ∈ G.area isRoot) : v ∈ G.garbage rc isRoot := by
  refine mem_garbage.mpr ⟨inside, fun w source left path => left ?_⟩
  rw [counted.leftover_eq_zero_iff (mem_area.mp source).1]
  refine ⟨(unheld w path).1, fun u outside edge => outside ?_⟩
  exact (unheld u (Relation.ReflTransGen.head edge path)).2

end counted

end Jonj.TrialDeletion
