import Mathlib.Tactic

/-!
# Circular doubly linked lists

The memory is seen through its two link fields. `Ring next prev l` says that they thread the nodes
of `l` in a circle. Each update lemma asks for the new fields at the nodes of the list.
-/
namespace Jonj.Circular

open List

variable {P : Type} {next prev next' prev' : P → P}

/-- The links lead from `x` over the nodes of the list to `y`. -/
def Path (next prev : P → P) : P → List P → P → Prop
  | x, [], y => next x = y ∧ prev y = x
  | x, z :: zs, y => (next x = z ∧ prev z = x) ∧ Path next prev z zs y

def Ring (next prev : P → P) : List P → Prop
  | [] => False
  | x :: xs => Path next prev x xs x

variable {us : List P} {x : P}

/-- A path is cut at each of its nodes. -/
theorem path_append {y m : P} {vs : List P} :
    Path next prev x (us ++ m :: vs) y ↔ Path next prev x us m ∧ Path next prev m vs y := by
  induction us generalizing x with
  | nil => rfl
  | cons z zs ih =>
    simp only [cons_append, Path, ih]
    tauto

theorem path_congr {y : P} (path : Path next prev x us y)
    (sameNext : ∀ p ∈ x :: us, next' p = next p) (samePrev : ∀ p ∈ us ++ [y], prev' p = prev p) :
    Path next' prev' x us y := by
  induction us generalizing x with
  | nil => exact ⟨(sameNext x (by simp)).trans path.1, (samePrev y (by simp)).trans path.2⟩
  | cons z zs ih =>
    refine ⟨⟨(sameNext x (by simp)).trans path.1.1, (samePrev z (by simp)).trans path.1.2⟩, ?_⟩
    exact ih path.2 (fun p member => sameNext p (mem_cons_of_mem x member))
      (fun p member => samePrev p (by tauto))

theorem prev_mem_of_path {y : P} (path : Path next prev x us y) : prev y ∈ x :: us := by
  induction us generalizing x with
  | nil => simp [path.2]
  | cons z zs ih => exact mem_cons_of_mem x (ih path.2)

/-- A ring depends on the links of its own nodes only. -/
theorem ring_congr {l : List P} (ring : Ring next prev l) (sameNext : ∀ p ∈ l, next' p = next p)
    (samePrev : ∀ p ∈ l, prev' p = prev p) : Ring next' prev' l := by
  cases l with
  | nil => exact ring
  | cons x xs =>
    refine path_congr ring sameNext fun p member => samePrev p ?_
    simp at member ⊢
    tauto

/-- A ring may be read from any of its nodes. -/
theorem ring_rotate {us vs : List P} (ring : Ring next prev (us ++ vs)) :
    Ring next prev (vs ++ us) := by
  cases us with
  | nil => simpa using ring
  | cons x us =>
    cases vs with
    | nil => simpa using ring
    | cons m vs =>
      obtain ⟨first, second⟩ := path_append.mp ring
      exact path_append.mpr ⟨second, first⟩

theorem prev_of_ring_concat {y : P} (ring : Ring next prev (x :: (us ++ [y]))) : prev x = y :=
  (path_append.mp ring).2.2

theorem links_back {xs : List P} (ring : Ring next prev (x :: xs)) :
    next (prev x) = x ∧ prev (next x) = x := by
  constructor
  · rcases eq_nil_or_concat xs with rfl | ⟨us, y, rfl⟩
    · rw [ring.2, ring.1]
    · rw [concat_eq_append] at ring
      obtain ⟨_, last⟩ := path_append.mp ring
      rw [last.2, last.1]
  · cases xs with
    | nil => rw [ring.1, ring.2]
    | cons z zs => rw [ring.1.1, ring.1.2]

/-- Both neighbours of a node point back at it. -/
theorem links_back_of_mem {m : P} {l : List P} (ring : Ring next prev l) (member : m ∈ l) :
    next (prev m) = m ∧ prev (next m) = m := by
  obtain ⟨us, vs, rfl⟩ := append_of_mem member
  exact links_back (ring_rotate ring)

/-- A node that is its own neighbour is alone. -/
theorem prev_eq_self_iff {xs : List P} (ring : Ring next prev (x :: xs)) (nodup : (x :: xs).Nodup) :
    prev x = x ↔ xs = [] := by
  constructor
  · intro self
    rcases eq_nil_or_concat xs with nil | ⟨us, y, rfl⟩
    · exact nil
    rw [concat_eq_append] at ring nodup
    have last := prev_of_ring_concat ring
    rw [self] at last
    subst last
    simp at nodup
  · rintro rfl
    exact ring.2

/-- A new node behind the first one. -/
theorem ring_insert {m : P} {xs : List P} (ring : Ring next prev (x :: xs))
    (nodup : (x :: xs).Nodup) (new : m ∉ x :: xs) (nextFirst : next' x = m)
    (nextNew : next' m = next x) (prevNew : prev' m = x) (prevSecond : prev' (next x) = m)
    (sameNext : ∀ p ∈ xs, next' p = next p)
    (samePrev : ∀ p ∈ x :: xs, p ≠ next x → prev' p = prev p) :
    Ring next' prev' (x :: m :: xs) := by
  cases xs with
  | nil =>
    have self : next x = x := ring.1
    rw [self] at nextNew prevSecond
    exact ⟨⟨nextFirst, prevNew⟩, nextNew, prevSecond⟩
  | cons z zs =>
    obtain ⟨⟨second, back⟩, path⟩ := ring
    rw [second] at nextNew prevSecond samePrev
    refine ⟨⟨nextFirst, prevNew⟩, ⟨nextNew, prevSecond⟩,
      path_congr path sameNext fun p member => ?_⟩
    simp only [nodup_cons, mem_cons, not_or] at nodup
    refine samePrev p ?_ ?_
    · simp at member ⊢
      tauto
    rintro rfl
    simp only [mem_append, mem_singleton] at member
    rcases member with inside | first
    · exact nodup.2.1 inside
    · exact nodup.1.1 first.symm

theorem path_retarget {m t : P} (path : Path next prev x us m) (nodup : (x :: us).Nodup)
    (nextLast : next' (prev m) = t) (sameNext : ∀ p ∈ x :: us, p ≠ prev m → next' p = next p)
    (prevTarget : prev' t = prev m) (samePrev : ∀ p ∈ us, prev' p = prev p) :
    Path next' prev' x us t := by
  induction us generalizing x with
  | nil =>
    obtain ⟨_, back⟩ := path
    rw [back] at nextLast prevTarget
    exact ⟨nextLast, prevTarget⟩
  | cons z zs ih =>
    obtain ⟨⟨second, back⟩, path⟩ := path
    have later := prev_mem_of_path path
    have different : x ≠ prev m := fun same => (nodup_cons.mp nodup).1 (same ▸ later)
    refine ⟨⟨(sameNext x (by simp) different).trans second, (samePrev z (by simp)).trans back⟩, ?_⟩
    exact ih path (nodup_cons.mp nodup).2 (fun p member => sameNext p (mem_cons_of_mem x member))
      (fun p member => samePrev p (mem_cons_of_mem z member))

/-- The neighbours of a node are linked to each other. -/
theorem ring_unlink {m : P} {vs : List P} (ring : Ring next prev (x :: (us ++ m :: vs)))
    (nodup : (x :: (us ++ m :: vs)).Nodup) (nextLast : next' (prev m) = next m)
    (prevTarget : prev' (next m) = prev m)
    (sameNext : ∀ p ∈ x :: (us ++ vs), p ≠ prev m → next' p = next p)
    (samePrev : ∀ p ∈ x :: (us ++ vs), p ≠ next m → prev' p = prev p) :
    Ring next' prev' (x :: (us ++ vs)) := by
  obtain ⟨front, back⟩ := path_append.mp ring
  simp only [nodup_cons, nodup_append, mem_append, mem_cons, not_or] at nodup
  obtain ⟨⟨xNotUs, xNotM, xNotVs⟩, nodupUs, ⟨mNotVs, nodupVs⟩, apart⟩ := nodup
  have frontNodup : (x :: us).Nodup := nodup_cons.mpr ⟨xNotUs, nodupUs⟩
  cases vs with
  | nil =>
    have target : next m = x := back.1
    rw [target] at nextLast prevTarget samePrev
    rw [append_nil]
    refine path_retarget front frontNodup nextLast ?_ prevTarget ?_
    · exact fun p member => sameNext p (by simpa using member)
    intro p member
    refine samePrev p (by simp [member]) ?_
    rintro rfl
    exact xNotUs member
  | cons w ws =>
    obtain ⟨⟨target, _⟩, rest⟩ := back
    rw [target] at nextLast prevTarget samePrev
    simp only [mem_cons, not_or, nodup_cons] at xNotVs mNotVs nodupVs
    refine path_append.mpr ⟨path_retarget front frontNodup nextLast ?_ prevTarget ?_,
      path_congr rest ?_ ?_⟩
    · intro p member
      exact sameNext p (by simp at member ⊢; tauto)
    · intro p member
      refine samePrev p (by simp [member]) ?_
      rintro rfl
      exact apart p member p (by simp) rfl
    · intro p member
      refine sameNext p (by simp at member ⊢; tauto) ?_
      -- the predecessor of `m` lies in front of it
      rintro rfl
      rcases mem_cons.mp (prev_mem_of_path front) with first | inside
      · rcases mem_cons.mp member with same | later
        · exact xNotVs.1 (first ▸ same)
        · exact xNotVs.2 (first ▸ later)
      · exact apart _ inside _ (by tauto) rfl
    · intro p member
      refine samePrev p (by simp at member ⊢; tauto) ?_
      rintro rfl
      rcases mem_append.mp member with later | first
      · exact nodupVs.1 later
      · exact xNotVs.1 (mem_singleton.mp first).symm

end Jonj.Circular
