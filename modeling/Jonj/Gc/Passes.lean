import Jonj.Gc.Roots
import Jonj.Lib.TrialDeletion.Garbage

/-!
# The three passes of a collection

What `gc_mark_roots`, `gc_scan_roots` and `gc_collect_roots` do together, whatever the
reference counts are: the garbage of the trial deletion is put on `zval_to_free`, and
all other zvals are as they were.
-/
namespace Jonj.Gc

open TrialDeletion List

variable {Z O : Type} {heap : Heap Z O} {g : GcState Z O} {L U : List Nat}

theorem Heap.Tracked.step {n m : Node Z O} (tracked : heap.Tracked n)
    (edge : m ∈ heap.graph.succ n) : heap.Tracked m := by
  cases m with
  | inl z => trivial
  | inr handle =>
    by_contra store
    have none : heap.objectBuckets = false := by simpa [Heap.Tracked] using store
    cases n with
    | inr other => exact store tracked
    | inl pz =>
      simp only [Heap.graph] at edge
      split at edge <;> simp_all

variable {n : Node Z O}

/-- Without an objects store no object is reached. -/
theorem Heap.Tracked.reach {m : Node Z O} (tracked : heap.Tracked n) (path : heap.graph.Reach n m) :
    heap.Tracked m := by
  induction path with
  | refl => exact tracked
  | tail _ edge ih => exact ih.step edge

theorem tracked_of_area [Fintype Z] [Fintype O] (inside : n ∈ heap.graph.area (heap.Roots g L)) :
    heap.Tracked n := by
  obtain ⟨_, r, ⟨_, _, _, tracked⟩, path⟩ := mem_area.mp inside
  exact tracked.reach path

variable [DecidableEq Z] [DecidableEq O] [Fintype Z] [Fintype O]

noncomputable def Heap.garbage (heap : Heap Z O) (g : GcState Z O) (L : List Nat) :
    Finset (Node Z O) :=
  heap.graph.garbage g.refcount (heap.Roots g L)

/-- A state in which a collection may start. The roots are purple and recorded by the
slot they point at; a zval that points elsewhere is on the list of zvals to free of a
collection that has not finished, and is counted for that. -/
structure Ready (heap : Heap Z O) (g : GcState Z O) (L U : List Nat) : Prop where
  slots : Slots g L U
  room : L.length ≤ g.lastUnused
  own : ∀ i ∈ L, g.buffered (g.buf i).entry = ⟨.slot i, .purple⟩
  listed : ∀ n i, heap.Tracked n → g.address n = .slot i → i ∈ L ∧ (g.buf i).entry = n
  palette : ∀ n, g.color n = .black ∨ g.color n = .purple
  idle : ∀ z, (∀ i, g.address (.inl z) ≠ .slot i) → g.color (.inl z) = .black
  linked : ∀ n, g.address n = .null ∨ (∃ i, g.address n = .slot i) ∨ n ∉ heap.garbage g L

/-- What the passes leave behind when they start in `g`. -/
structure Passed (heap : Heap Z O) (g : GcState Z O) (L U : List Nat) (freed : List Z)
    (g' : GcState Z O) : Prop where
  frame : Frame g g'
  slots : ∃ U', (∀ i, i ∈ U' ↔ i ∈ L ∨ i ∈ U) ∧ Slots g' [] U'
  chain : FreeChain g' g'.zvalToFree freed
  nodup : freed.Nodup
  freed_iff : ∀ z, z ∈ freed ↔ Sum.inl z ∈ heap.garbage g L
  black : ∀ z, g'.color (.inl z) = .black
  palette : ∀ n, g'.color n = .black ∨ g'.color n = .purple
  released : ∀ n, n ∉ freed.map .inl → heap.Tracked n → (∃ i, g.address n = .slot i) →
    g'.address n = .null
  address : ∀ n, n ∉ freed.map .inl → (∀ i, g.address n ≠ .slot i) ∨ ¬ heap.Tracked n →
    g'.address n = g.address n
  refcount : ∀ z ∉ freed, g'.refcount (.inl z) = g.refcount (.inl z)
  listed : ∀ z ∈ freed, g'.refcount (.inl z) = g.refcount (.inl z) + 1
  object : ∀ handle, Sum.inr handle ∈ heap.garbage g L → g'.refcount (.inr handle) = 0

/-- No two roots record the same node. -/
theorem Ready.entry_inj (ready : Ready heap g L U) {i j : Nat} (first : i ∈ L) (second : j ∈ L)
    (same : (g.buf i).entry = (g.buf j).entry) : i = j := by
  have here := ready.own i first
  rw [same, ready.own j second] at here
  cases here
  rfl

/-! ### Marking -/

section marked

variable {gM : GcState Z O} {kept dropped : List Nat}

section

variable (marked : MarkedRoots heap g L U kept dropped [] gM)

include marked

/-- The mark pass has painted what the roots reach. -/
theorem MarkedRoots.area_eq : colored gM.color .grey = heap.graph.area (heap.Roots g L) := by
  refine marked.inv.area_eq ?_ ?_
  · rintro r ⟨i, member, recorded⟩
    exact ⟨i, (marked.members i).mpr (.inl member), recorded⟩
  rintro r ⟨i, member, rfl, tracked⟩
  have visited := (marked.members i).mp member
  simp only [not_mem_nil, or_false] at visited
  exact marked.marked i visited tracked

theorem MarkedRoots.kept_subset {i : Nat} (member : i ∈ kept) : i ∈ L :=
  (marked.members i).mpr (.inl member)

/-- The roots that were let go are unused slots now. -/
theorem MarkedRoots.keptSlots : Slots gM kept (dropped ++ U) := by
  have slots := marked.slots
  rwa [append_nil] at slots

theorem MarkedRoots.room (ready : Ready heap g L U) : kept.length ≤ gM.lastUnused := by
  rw [marked.frame.lastUnused]
  refine le_trans ?_ ready.room
  have nodup : kept.Nodup := marked.keptSlots.ring.nodup
  exact (subperm_of_subset nodup fun i => marked.kept_subset).length_le

theorem MarkedRoots.own (ready : Ready heap g L U) {i : Nat} (member : i ∈ kept) :
    gM.address (g.buf i).entry = .slot i := by
  have inside := marked.kept_subset member
  have stays := marked.home (g.buf i).entry fun j gone same => by
    have there : j ∈ L := (marked.members j).mpr (.inr (.inl gone))
    have equal := ready.entry_inj there inside same
    subst equal
    exact (nodup_append'.mp marked.keptSlots.nodup).2.2 member
      (mem_append_left U gone)
  rw [stays, GcState.address, ready.own i inside]

/-- Nothing is white, and outside the area nothing has been painted but inert nodes. -/
theorem MarkedRoots.color_outside (outside : n ∉ heap.graph.area (heap.Roots g L)) :
    gM.color n = g.color n ∨ heap.graph.inert n ∧ gM.color n = .black := by
  refine marked.inv.kept n fun grey => outside ?_
  rw [← marked.area_eq]
  exact mem_colored.mpr grey

end

end marked

/-! ### Scanning -/

section scanned

variable {gM gS : GcState Z O} {kept dropped : List Nat} {depth : Nat}

/-- The scan pass after the mark pass. -/
structure AfterScan (heap : Heap Z O) (g : GcState Z O) (L : List Nat) (gM gS : GcState Z O) :
    Prop where
  painted : Painted gM gS
  scanned : Scanned heap.graph gM.refcount (heap.graph.area (heap.Roots g L)) gS.refcount gS.color
  outside : ∀ n, n ∉ heap.graph.area (heap.Roots g L) → gS.color n = gM.color n
  left : ∀ n, heap.graph.inert n = false →
    gM.refcount n = heap.graph.leftover g.refcount (heap.Roots g L) n
  inert : ∀ n, heap.graph.inert n → gM.refcount n = g.refcount n

/-- The scan pass ends where the mark pass has started it. -/
theorem scan_after_mark (deep : Fintype.card Z < depth) (ready : Ready heap g L U)
    (marked : MarkedRoots heap g L U kept dropped [] gM) :
    ∃ gS, gcScanRoots heap depth gM = some gS ∧ AfterScan heap g L gM gS := by
  obtain ⟨gS, looped, after⟩ := gcScanRoots_spec deep marked.keptSlots (marked.room ready)
    marked.inv.scan
  have area := marked.area_eq
  have inv := after.inv
  rw [area] at inv
  -- the kept roots have been scanned, and they reach the whole area
  have settled : ∀ n ∈ heap.graph.area (heap.Roots g L), gS.color n ≠ .grey := by
    have roots : ∀ r, heap.Roots g kept r → gS.color r ≠ .grey := by
      rintro r ⟨i, member, rfl, tracked⟩
      rw [← marked.frame.entry i] at tracked ⊢
      exact after.settled i member tracked
    refine inv.settled roots ?_ ?_
    · rintro r ⟨i, member, rfl, tracked⟩
      rw [← area, mem_colored]
      exact (marked.marked i (.inl member) tracked).imp_right And.left
    · intro n inside
      rw [← area, mem_colored] at inside
      exact marked.inv.reach n (.inl inside)
  refine ⟨gS, looped, after.painted, inv.scanned settled, fun n out =>
    (inv.outside n out).1, ?_, ?_⟩
  · exact fun n active => marked.inv.rc_eq area active
  · exact fun n inert => (marked.inv.inert n inert).2

/-- The white nodes are the garbage: nothing from outside of the area leads to them. -/
theorem AfterScan.white_iff (after : AfterScan heap g L gM gS) (ready : Ready heap g L U)
    (marked : MarkedRoots heap g L U kept dropped [] gM) (n : Node Z O) :
    gS.color n = .white ↔ n ∈ heap.garbage g L := by
  by_cases inside : n ∈ heap.graph.area (heap.Roots g L)
  · exact after.scanned.white_iff after.left inside
  refine iff_of_false ?_ fun member => inside (mem_garbage.mp member).1
  rw [after.outside n inside]
  rcases marked.color_outside inside with same | ⟨_, black⟩
  · rcases ready.palette n with black | purple <;> simp [*]
  · simp [black]

end scanned

/-! ### Collecting -/

section collected

variable (heap) (g) (L) (U) (kept dropped done : List Nat) (gM gS g' : GcState Z O)
    (base : Node Z O → Tagged Z) (freed : List Z)

/-- The whole situation at the end of the collect pass. -/
structure AfterCollect : Prop where
  ready : Ready heap g L U
  marked : MarkedRoots heap g L U kept dropped [] gM
  after : AfterScan heap g L gM gS
  members : ∀ i, i ∈ done ↔ i ∈ kept
  final : CollectedRoots heap gS.refcount (heap.garbage g L) gS (dropped ++ U) done [] g' base freed

variable {heap g L U kept dropped done gM gS g' base freed} {depth : Nat}

theorem garbage_active (member : n ∈ heap.garbage g L) : heap.graph.inert n = false :=
  (mem_area.mp (mem_garbage.mp member).1).1

/-- The collect pass ends where the scan pass has started it. -/
theorem collect_after_scan (deep : Fintype.card Z < depth) (ready : Ready heap g L U)
    (marked : MarkedRoots heap g L U kept dropped [] gM) (after : AfterScan heap g L gM gS)
    (list : g.zvalToFree = .freeListEnd) :
    ∃ g', gcCollectRoots heap depth gS = some g' ∧ ∃ done base freed,
      AfterCollect heap g L U kept dropped done gM gS g' base freed := by
  have frame := marked.frame.trans after.painted.swept.frame
  obtain ⟨g', looped, done, base, freed, members, final⟩ := gcCollectRoots_spec deep
    (after.painted.swept.slots marked.keptSlots)
    (by
      rw [after.painted.swept.frame.lastUnused]
      exact marked.room ready)
    (by
      intro i member
      rw [after.painted.address, frame.entry i]
      exact marked.own ready member)
    (after.white_iff ready marked) (fun n => garbage_active)
    (by rw [after.painted.toFree, marked.toFree, list])
  exact ⟨g', looped, done, base, freed, ready, marked, after, members, final⟩

namespace AfterCollect

variable (end_ : AfterCollect heap g L U kept dropped done gM gS g' base freed)

include end_

theorem entry (i : Nat) : (gS.buf i).entry = (g.buf i).entry :=
  (end_.marked.frame.trans end_.after.painted.swept.frame).entry i

theorem address_eq (n : Node Z O) : gS.address n = gM.address n := by
  rw [end_.after.painted.address]

/-- A node that pointed at its slot is let go, by the mark pass or by the collect pass. -/
theorem base_null (tracked : heap.Tracked n) {i : Nat} (buffered : g.address n = .slot i) :
    (base n).addr = .null := by
  obtain ⟨inside, rfl⟩ := end_.ready.listed n i tracked buffered
  have visited := (end_.marked.members i).mp inside
  simp only [not_mem_nil, or_false] at visited
  rcases visited with kept' | gone
  · have away := end_.final.away i ((end_.members i).mpr kept')
    rw [end_.entry i] at away
    exact away tracked
  rw [end_.final.home, end_.address_eq]
  · exact end_.marked.away i gone
  · intro j member same
    rw [end_.entry j] at same
    have kept' := (end_.members j).mp member
    have equal := end_.ready.entry_inj (end_.marked.kept_subset kept') inside same
    subst equal
    exact absurd (mem_append_left U gone)
      ((nodup_append'.mp end_.marked.keptSlots.nodup).2.2 kept')

theorem base_home (other : (∀ i, g.address n ≠ .slot i) ∨ ¬ heap.Tracked n) :
    (base n).addr = g.address n := by
  have untracked : ∀ i ∈ L, (g.buf i).entry = n → ¬ heap.Tracked n := by
    rintro i member rfl
    refine other.resolve_left fun noSlot => noSlot i ?_
    rw [GcState.address, end_.ready.own i member]
  rw [end_.final.home, end_.address_eq, end_.marked.home]
  · rintro i gone rfl
    exact untracked i ((end_.marked.members i).mpr (.inr (.inl gone))) rfl
      (end_.marked.tracked i gone)
  · intro i member same
    rw [end_.entry i] at same
    exact untracked i (end_.marked.kept_subset ((end_.members i).mp member)) same

/-- All the garbage is taken. -/
theorem taken_eq : taken (heap.garbage g L) g' = heap.garbage g L := by
  have roots : ∀ r, heap.Roots g kept r → r ∈ heap.garbage g L →
      r ∈ taken (heap.garbage g L) g' := by
    rintro r ⟨i, member, rfl, tracked⟩ white
    rw [mem_taken]
    refine ⟨white, ?_⟩
    rw [← end_.entry i] at tracked ⊢
    exact end_.final.taken i ((end_.members i).mpr member) tracked
  refine end_.final.now.inv.all_taken ?_ roots ?_ ?_
  · intro n white left held
    have tracked := tracked_of_area (mem_garbage.mp white).1
    have stays := end_.final.now.untouched n left
    have addr : g'.address n = (base n).addr := by rw [GcState.address, stays]
    rcases end_.ready.linked n with null | ⟨i, slot⟩ | live
    · exact held (by rw [addr, end_.base_home (.inl (by simp [null])), null])
    · exact held (by rw [addr, end_.base_null tracked slot])
    · exact live white
  · intro n white
    have inside := (mem_garbage.mp white).1
    rw [← end_.marked.area_eq, mem_colored] at inside
    exact end_.marked.inv.reach n (.inl inside)
  · rintro r x n ⟨i, member, recorded⟩ before path white
    have root : heap.Roots g L r := ⟨i, end_.marked.kept_subset member, recorded⟩
    have active := Graph.Reach.active path (garbage_active white)
    exact garbage_of_reach white (mem_area.mpr ⟨active, r, root, before⟩) path

theorem freed_iff (z : Z) : z ∈ freed ↔ Sum.inl z ∈ heap.garbage g L := by
  constructor
  · intro member
    rw [← end_.taken_eq]
    exact end_.final.now.freed_taken member
  · intro white
    exact end_.final.now.mem_freed (end_.taken_eq.symm ▸ white)

/-- What is not garbage keeps its `buffered` field, apart from the root's slot. -/
theorem survivor (live : n ∉ heap.garbage g L) : g'.buffered n = base n :=
  end_.final.now.untouched n (end_.taken_eq.symm ▸ live)

theorem object {handle : O} (white : Sum.inr handle ∈ heap.garbage g L) :
    g'.buffered (.inr handle) = ⟨.null, .purple⟩ :=
  end_.final.now.object handle (end_.taken_eq.symm ▸ white)

theorem survivor_color (live : n ∉ heap.garbage g L) :
    g'.color n = .black ∨ n ∉ heap.graph.area (heap.Roots g L) ∧ g'.color n = gM.color n := by
  have color : g'.color n = gS.color n := by
    rw [GcState.color, end_.survivor live, end_.final.color n]
  rw [color]
  by_cases inside : n ∈ heap.graph.area (heap.Roots g L)
  · rcases end_.after.scanned.palette n inside with white | black
    · exact absurd ((end_.after.white_iff end_.ready end_.marked n).mp white) live
    · exact .inl black
  · exact .inr ⟨inside, end_.after.outside n inside⟩

theorem palette (n : Node Z O) : g'.color n = .black ∨ g'.color n = .purple := by
  by_cases white : n ∈ heap.garbage g L
  · cases n with
    | inl z => exact .inl (end_.final.now.chain.black ((end_.freed_iff z).mpr white))
    | inr handle => exact .inr (by rw [GcState.color, end_.object white])
  rcases end_.survivor_color white with black | ⟨outside, same⟩
  · exact .inl black
  rw [same]
  rcases end_.marked.color_outside outside with before | ⟨_, black⟩
  · rw [before]
    exact end_.ready.palette n
  · exact .inl black

theorem black (z : Z) : g'.color (.inl z) = .black := by
  by_cases white : Sum.inl z ∈ heap.garbage g L
  · exact end_.final.now.chain.black ((end_.freed_iff z).mpr white)
  rcases end_.survivor_color white with black | ⟨outside, same⟩
  · exact black
  rw [same]
  rcases end_.marked.color_outside outside with before | ⟨_, black⟩
  · rw [before]
    by_contra notBlack
    -- then it is a root, which has been marked
    have buffered : ∃ i, g.address (.inl z) = .slot i := by
      by_contra none
      exact notBlack (end_.ready.idle z (not_exists.mp none))
    obtain ⟨i, slot⟩ := buffered
    obtain ⟨inside, recorded⟩ := end_.ready.listed (.inl z) i trivial slot
    have visited := (end_.marked.members i).mp inside
    simp only [not_mem_nil, or_false] at visited
    have marked := end_.marked.marked i visited (recorded ▸ trivial)
    rw [recorded] at marked
    rcases marked with grey | ⟨_, black⟩
    · rw [← end_.marked.area_eq] at outside
      exact outside (mem_colored.mpr grey)
    · exact notBlack (before ▸ black)
  · exact black

/-- The counts of zvals are restored, with one more for those on the list. -/
theorem refcount (z : Z) :
    g'.refcount (.inl z) = g.refcount (.inl z) + if z ∈ freed then 1 else 0 := by
  have inv := end_.final.now.inv
  by_cases inert : heap.graph.inert (.inl z) = true
  · have unlisted : z ∉ freed := by
      rw [end_.freed_iff]
      intro white
      rw [garbage_active white] at inert
      cases inert
    rw [inv.kept _ (.inr inert), end_.after.scanned.inert _ inert, end_.after.inert _ inert,
      if_neg unlisted]
    simp
  · have active : heap.graph.inert (.inl z) = false := by simpa using inert
    have listed := inv.listed (.inl z)
    have count := inv.count (.inl z) rfl active
    have restored := end_.after.scanned.restored end_.after.left active
    rw [end_.taken_eq] at count listed
    simp only [count_nil, Nat.add_zero, Sum.isLeft_inl, and_true] at listed
    rw [listed, count_nil, Nat.cast_zero] at count
    simp only [end_.freed_iff]
    have cast : (((if Sum.inl z ∈ heap.garbage g L then 1 else 0 : Nat)) : BitVec 32) =
        if Sum.inl z ∈ heap.garbage g L then 1 else 0 := by
      split <;> simp
    rw [cast] at count
    unfold Heap.garbage at count ⊢
    linear_combination count + restored

section

variable (unlisted : n ∉ freed.map Sum.inl)

include unlisted

theorem not_garbage (z : Z) (here : n = .inl z) : n ∉ heap.garbage g L := by
  subst here
  rw [← end_.freed_iff]
  exact fun member => unlisted (mem_map_of_mem member)

theorem released (tracked : heap.Tracked n) {i : Nat} (slot : g.address n = .slot i) :
    g'.address n = .null := by
  by_cases white : n ∈ heap.garbage g L
  · cases n with
    | inl z => exact absurd white (end_.not_garbage unlisted z rfl)
    | inr handle => rw [GcState.address, end_.object white]
  · rw [GcState.address, end_.survivor white, end_.base_null tracked slot]

theorem address (other : (∀ i, g.address n ≠ .slot i) ∨ ¬ heap.Tracked n) :
    g'.address n = g.address n := by
  by_cases white : n ∈ heap.garbage g L
  · cases n with
    | inl z => exact absurd white (end_.not_garbage unlisted z rfl)
    | inr handle =>
      have tracked := tracked_of_area (mem_garbage.mp white).1
      have null : g.address (.inr handle) = .null := by
        rcases end_.ready.linked (.inr handle) with null | ⟨i, slot⟩ | live
        · exact null
        · exact absurd slot (other.resolve_right (not_not.mpr tracked) i)
        · exact absurd white live
      rw [null, GcState.address, end_.object white]
  · rw [GcState.address, end_.survivor white, end_.base_home other]

end

private theorem object_refcount {handle : O} (white : Sum.inr handle ∈ heap.garbage g L) :
    g'.refcount (.inr handle) = 0 := by
  rw [end_.final.now.inv.kept _ (.inl rfl)]
  refine end_.after.scanned.white _ (mem_garbage.mp white).1 ?_
  exact (end_.after.white_iff end_.ready end_.marked _).mpr white

theorem slots (i : Nat) : i ∈ done ++ (dropped ++ U) ↔ i ∈ L ∨ i ∈ U := by
  simp only [mem_append, end_.members i, end_.marked.members i, not_mem_nil]
  tauto

end AfterCollect

end collected

/-! ### The collection -/

section passes

variable {depth : Nat}

/-- The three passes one after the other. -/
theorem passes_spec (deep : Fintype.card Z < depth) (ready : Ready heap g L U)
    (list : g.zvalToFree = .freeListEnd) :
    ∃ gM gS g' freed, gcMarkRoots heap depth g = some gM ∧ gcScanRoots heap depth gM = some gS ∧
      gcCollectRoots heap depth gS = some g' ∧ Passed heap g L U freed g' := by
  have purple : ∀ i ∈ L, g.color (g.buf i).entry = .purple := by
    intro i member
    rw [GcState.color, ready.own i member]
  have noGrey : ∀ n, g.color n ≠ .grey := by
    intro n
    rcases ready.palette n with black | purple <;> simp [*]
  obtain ⟨gM, mark, kept, dropped, marked⟩ :=
    gcMarkRoots_spec deep ready.slots ready.room purple noGrey
  obtain ⟨gS, scan, after⟩ := scan_after_mark deep ready marked
  obtain ⟨g', collect, done, base, freed, final⟩ := collect_after_scan deep ready marked after list
  refine ⟨gM, gS, g', freed, mark, scan, collect, ?_⟩
  exact {
    frame := marked.frame.trans (after.painted.swept.frame.trans final.final.frame)
    slots := ⟨_, final.slots, final.final.slots⟩
    chain := final.final.now.chain
    nodup := final.final.now.nodup
    freed_iff := final.freed_iff
    black := final.black
    palette := final.palette
    released := fun n unlisted tracked buffered =>
      final.released unlisted tracked buffered.choose_spec
    address := fun n unlisted other => final.address unlisted other
    refcount := fun z unlisted => by
      rw [final.refcount z, if_neg unlisted]
      exact BitVec.add_zero _
    listed := fun z member => by
      rw [final.refcount z, if_pos member]
    object := fun handle white => final.object_refcount white }

/-- The state in which `gc_collect_cycles` starts the passes. -/
def GcState.activate (g : GcState Z O) : GcState Z O :=
  { g with zvalToFree := .freeListEnd, gcActive := true }

theorem Ready.activate (ready : Ready heap g L U) : Ready heap g.activate L U where
  __ := ready
  slots := ready.slots.congr rfl rfl rfl rfl

/-- What `gc_collect_cycles` does before it calls a destructor. -/
theorem gcPasses_spec (deep : Fintype.card Z < depth) (ready : Ready heap g L U) :
    ∃ g' freed, gcPasses heap depth g = some g' ∧ Passed heap g.activate L U freed g' := by
  obtain ⟨gM, gS, g', freed, mark, scan, collect, passed⟩ := passes_spec deep ready.activate rfl
  refine ⟨g', freed, ?_, passed⟩
  unfold GcState.activate at mark
  simp [gcPasses, mark, scan, collect]

end passes

end Jonj.Gc
