import Jonj.Gc.Passes

/-!
# Safety and completeness of a collection

In a state between collections whose counts are right, the passes free only what no
external reference leads to, and they free all of what the roots lead to if nothing
else leads there.
-/
namespace Jonj.Gc

open TrialDeletion

variable {Z O : Type} [DecidableEq Z] [DecidableEq O]

/-- No collection is in progress: the nodes on the list of roots are purple and point at
their slots, and nothing else points anywhere. An object that an earlier collection
found and its destructor rescued may have stayed purple. -/
structure Quiet (g : GcState Z O) (L U : List Nat) : Prop where
  slots : Slots g L U
  room : L.length ≤ g.lastUnused
  own : ∀ i ∈ L, g.buffered (g.buf i).entry = ⟨.slot i, .purple⟩
  others : ∀ n, (∀ i ∈ L, (g.buf i).entry ≠ n) →
    g.address n = .null ∧ (g.color n = .black ∨ n.isRight ∧ g.color n = .purple)

/-- A root buffer with one zval in it. -/
def oneRoot (z : Z) (refcount : Node Z O → BitVec 32) : GcState Z O where
  gcEnabled := true
  gcActive := false
  buf _ := ⟨.roots, .roots, .inl z⟩
  rootsPrev := .slot 0
  rootsNext := .slot 0
  unused := .null
  firstUnused := 1
  lastUnused := 10000
  zvalToFree := .null
  freeList := .null
  nextToFree := .null
  refcount
  buffered n := if n = .inl z then ⟨.slot 0, .purple⟩ else ⟨.null, .black⟩

theorem oneRoot_quiet (z : Z) (refcount : Node Z O → BitVec 32) :
    Quiet (oneRoot z refcount) [0] [] where
  slots := by
    refine ⟨⟨by simp, ?_, rfl, rfl, .inr ⟨0, rfl⟩, .inr ⟨0, rfl⟩, ?_⟩, rfl, by simp⟩
    · exact DoublyLinked.links_cons (DoublyLinked.links_nil (fun _ => none) (fun _ => none))
        List.nodup_nil rfl rfl (by simp) (by simp)
    · exact fun i _ => ⟨.inl rfl, .inl rfl⟩
  room := by simp [oneRoot]
  own i member := by
    rw [List.mem_singleton.mp member]
    simp [oneRoot]
  others n other := by
    have apart : n ≠ .inl z := fun same => other 0 (by simp) same.symm
    simp [oneRoot, GcState.address, GcState.color, apart]

variable [Fintype Z] [Fintype O] {heap : Heap Z O} {g : GcState Z O} {L U : List Nat}
  {ext : Node Z O → Nat} {depth : Nat}

/-- Each count is the number of references from inside the graph plus `ext`. -/
def RightCounts (heap : Heap Z O) (g : GcState Z O) (ext : Node Z O → Nat) : Prop :=
  ∀ n, heap.graph.inert n = false →
    (g.refcount n).toNat = heap.graph.edgesFrom Finset.univ n + ext n

theorem RightCounts.counted (counts : RightCounts heap g ext) :
    Counted heap.graph g.refcount ext where
  count n active := by
    rw [← counts n active]
    simp
  nonzero n active k bound zero := by
    have small : k < 2 ^ 32 := by
      rw [← counts n active] at bound
      exact bound.trans_lt (g.refcount n).isLt
    have value := congrArg BitVec.toNat zero
    simp only [BitVec.natCast_eq_ofNat, BitVec.toNat_ofNat, BitVec.ofNat_eq_ofNat] at value
    omega

theorem Quiet.ready (quiet : Quiet g L U) (heap : Heap Z O) : Ready heap g L U := by
  have either : ∀ n, (∃ i ∈ L, g.address n = .slot i ∧ g.color n = .purple ∧
      (g.buf i).entry = n) ∨
      g.address n = .null ∧ (g.color n = .black ∨ n.isRight ∧ g.color n = .purple) := by
    intro n
    by_cases recorded : ∃ i ∈ L, (g.buf i).entry = n
    · obtain ⟨i, member, rfl⟩ := recorded
      have own := quiet.own i member
      exact .inl ⟨i, member, by rw [GcState.address, own], by rw [GcState.color, own], rfl⟩
    · push Not at recorded
      exact .inr (quiet.others n recorded)
  refine ⟨quiet.slots, quiet.room, quiet.own, ?_, ?_, ?_, ?_⟩
  · intro n i _ slot
    rcases either n with ⟨j, member, own, _, recorded⟩ | ⟨null, _⟩
    · rw [own] at slot
      cases slot
      exact ⟨member, recorded⟩
    · rw [null] at slot
      cases slot
  · intro n
    rcases either n with ⟨_, _, _, purple, _⟩ | ⟨_, black | ⟨_, purple⟩⟩
    · exact .inr purple
    · exact .inl black
    · exact .inr purple
  · intro z noSlot
    rcases either (.inl z) with ⟨j, _, own, _⟩ | ⟨_, black | ⟨object, _⟩⟩
    · exact absurd own (noSlot j)
    · exact black
    · cases object
  · intro n
    rcases either n with ⟨j, _, own, _⟩ | ⟨null, _⟩
    · exact .inr (.inl ⟨j, own⟩)
    · exact .inl null

/-- No live value is collected, and what is not collected is as it was before. -/
theorem gcPasses_frees_only_unreachable (deep : Fintype.card Z < depth) (quiet : Quiet g L U)
    (counts : RightCounts heap g ext) :
    ∃ g' freed, gcPasses heap depth g = some g' ∧ FreeChain g' g'.zvalToFree freed ∧
      (∀ z ∈ freed, ∀ n, 0 < ext n → ¬ heap.graph.Reach n (.inl z)) ∧
      ∀ z ∉ freed, g'.color (.inl z) = .black ∧ g'.refcount (.inl z) = g.refcount (.inl z) := by
  obtain ⟨g', freed, ran, passed⟩ := gcPasses_spec deep (quiet.ready heap)
  refine ⟨g', freed, ran, passed.chain, ?_, ?_⟩
  · intro z member n held
    have garbage : Sum.inl z ∈ heap.garbage g L := (passed.freed_iff z).mp member
    exact counts.counted.safe garbage held
  · intro z unlisted
    exact ⟨passed.black z, passed.refcount z unlisted⟩

/-- An array that contains itself and nothing else. -/
def selfArray : Heap Unit Empty where
  kind _ := .array false [()]
  objectBuckets := true
  valid _ := true
  getGc _ := none

private theorem selfArray_counts : RightCounts selfArray (oneRoot () fun _ => 1) fun _ => 0 := by
  rintro (z | handle)
  · revert z
    decide
  · cases handle

/-- A root that contains itself and an element, which an array that is referenced from outside also
contains. -/
def sharedElement : Heap (Fin 3) Empty where
  kind z := .array false (if z = 0 then [0, 2] else if z = 1 then [2] else [])
  objectBuckets := true
  valid _ := true
  getGc _ := none

def sharedCount (n : Node (Fin 3) Empty) : BitVec 32 := if n = .inl 2 then 2 else 1

private theorem sharedElement_counts : RightCounts sharedElement (oneRoot 0 sharedCount) fun n =>
    if n = .inl 1 then 1 else 0 := by
  rintro (z | handle)
  · revert z
    decide
  · cases handle

theorem gcPasses_frees_only_unreachable_shared :
    ∃ g' freed, gcPasses sharedElement 4 (oneRoot 0 sharedCount) = some g' ∧
      FreeChain g' g'.zvalToFree freed ∧
      (∀ z ∈ freed, ¬ sharedElement.graph.Reach (.inl 1) (.inl z)) ∧
      ∀ z ∉ freed, g'.color (.inl z) = .black ∧ g'.refcount (.inl z) = sharedCount (.inl z) := by
  obtain ⟨g', freed, ran, chain, safe, kept⟩ := gcPasses_frees_only_unreachable
    (by decide : Fintype.card (Fin 3) < 4) (oneRoot_quiet 0 sharedCount) sharedElement_counts
  exact ⟨g', freed, ran, chain, fun z member => safe z member (.inl 1) (by decide), kept⟩

/-- What the roots lead to is collected, unless something that is referenced from outside
or that the roots do not lead to leads to it. -/
theorem gcPasses_collects_isolated (deep : Fintype.card Z < depth) (quiet : Quiet g L U)
    (counts : RightCounts heap g ext) :
    ∃ g' freed, gcPasses heap depth g = some g' ∧ FreeChain g' g'.zvalToFree freed ∧
      ∀ n, heap.graph.inert n = false → (∃ r, heap.Roots g L r ∧ heap.graph.Reach r n) →
        (∀ w, heap.graph.Reach w n →
          ext w = 0 ∧ ∃ r, heap.Roots g L r ∧ heap.graph.Reach r w) →
        match n with
        | .inl z => freed.count z = 1
        | .inr handle => g'.refcount (.inr handle) = 0 := by
  obtain ⟨g', freed, ran, passed⟩ := gcPasses_spec deep (quiet.ready heap)
  refine ⟨g', freed, ran, passed.chain, ?_⟩
  intro n active candidate isolated
  have garbage : n ∈ heap.garbage g L := by
    refine counts.counted.complete (mem_area.mpr ⟨active, candidate⟩) fun w path => ?_
    obtain ⟨unheld, root⟩ := isolated w path
    exact ⟨unheld, mem_area.mpr ⟨path.active active, root⟩⟩
  cases n with
  | inl z => exact List.count_eq_one_of_mem passed.nodup ((passed.freed_iff z).mpr garbage)
  | inr handle => exact passed.object handle garbage

theorem gcPasses_collects_isolated_selfArray :
    ∃ g' freed, gcPasses selfArray 2 (oneRoot () fun _ => 1) = some g' ∧
      FreeChain g' g'.zvalToFree freed ∧ freed.count () = 1 := by
  obtain ⟨g', freed, ran, chain, collected⟩ := gcPasses_collects_isolated
    (by decide : Fintype.card Unit < 2) (oneRoot_quiet () _) selfArray_counts
  refine ⟨g', freed, ran, chain, collected (.inl ()) rfl ?_ ?_⟩
  · exact ⟨.inl (), ⟨0, by simp, rfl, trivial⟩, Relation.ReflTransGen.refl⟩
  · rintro (w | handle) _
    · exact ⟨rfl, .inl (), ⟨0, by simp, rfl, trivial⟩, Relation.ReflTransGen.refl⟩
    · cases handle

/-- An empty array, the root, that is an element of an array which contains itself. -/
def heldByCycle : Heap Bool Empty where
  kind z := .array false (if z then [true, false] else [])
  objectBuckets := true
  valid _ := true
  getGc _ := none

/-- Nothing is referenced from outside, and still the root is not collected: it is counted
for a cycle that no root leads to. -/
theorem heldByCycle_not_collected : Quiet (oneRoot false fun _ => 1 : GcState Bool Empty) [0] [] ∧
      RightCounts heldByCycle (oneRoot false fun _ => 1) (fun _ => 0) ∧
      heldByCycle.Roots (oneRoot false fun _ => 1) [0] (.inl false) ∧
      ((gcPasses heldByCycle 3 (oneRoot false fun _ => 1)).map GcState.zvalToFree) =
        some .freeListEnd := by
  refine ⟨oneRoot_quiet false _, ?_, ⟨0, by simp, rfl, trivial⟩, by decide⟩
  rintro (z | handle)
  · revert z
    decide
  · cases handle

end Jonj.Gc
