import Jonj.Gc.Link
import Jonj.Lib.Runs

/-!
# The root buffer over whole runs

Each step of the machine keeps the root buffer consistent with the `buffered` fields,
if a call that ran a collection to find a slot does not find its value buffered when
it goes on.
-/
namespace Jonj.Gc

open TrialDeletion Runs List Function GcState

variable {Z O : Type}

/-! ### The collections in progress -/

/-- For a collection in progress, what it has saved and, once it frees, how far it is. -/
def Call.collects : Call Z O → Option (Option (Ptr Z) × Saved Z)
  | .program => none
  | .possibleRoot _ _ => none
  | .destructors _ orig => some (none, orig)
  | .destructed _ _ orig => some (none, orig)
  | .destroy _ orig => some (none, orig)
  | .destroyed orig => some (none, orig)
  | .free p orig => some (some p, orig)

/-- The lists of zvals to free of the collections on the stack, the innermost first. `p` is
the value of `free_list` for the innermost one. -/
def Chained (g : GcState Z O) : Ptr Z → List (Call Z O) → List (List Z) → Prop
  | _, [], lists => lists = []
  | p, call :: below, lists =>
    match call.collects with
    | none => Chained g p below lists
    | some (pos, orig) => ∃ l rest, lists = l :: rest ∧ p ≠ .null ∧
        FreeChain g (pos.getD p) l ∧ Chained g orig.freeList below rest

variable {z : Z}

section chained

variable {g g' : GcState Z O} {p : Ptr Z} {stack : List (Call Z O)} {lists : List (List Z)}

section

variable (chained : Chained g p stack lists)

include chained

theorem Chained.congr (same : ∀ z ∈ lists.flatten, g'.buffered (.inl z) = g.buffered (.inl z)) :
    Chained g' p stack lists := by
  induction stack generalizing p lists with
  | nil => exact chained
  | cons call below ih =>
    unfold Chained at chained ⊢
    split
    next none =>
      rw [none] at chained
      exact ih chained same
    next pos orig collects =>
    rw [collects] at chained
    obtain ⟨l, rest, rfl, head, chain, outer⟩ := chained
    refine ⟨l, rest, rfl, head, chain.congr fun z member => ?_, ih outer fun z member => ?_⟩
    · exact same z (by simp [member])
    · exact same z (by exact mem_append_right l member)

theorem Chained.ne_null (some : lists ≠ []) : p ≠ .null := by
  induction stack generalizing lists with
  | nil => exact absurd chained some
  | cons call below ih =>
    unfold Chained at chained
    split at chained
    · exact ih chained some
    · obtain ⟨_, _, _, head, _⟩ := chained
      exact head

theorem Chained.outside (member : z ∈ lists.flatten) : (g.address (.inl z)).outside = true := by
  induction stack generalizing p lists with
  | nil =>
    rw [show lists = [] from chained] at member
    cases member
  | cons call below ih =>
    unfold Chained at chained
    split at chained
    · exact ih chained member
    · obtain ⟨l, rest, rfl, _, chain, outer⟩ := chained
      rw [flatten_cons, mem_append] at member
      exact member.elim chain.outside (ih outer)

end

theorem FreeChain.ne_null {l : List Z} (chain : FreeChain g p l) : p ≠ .null := by
  cases l with
  | nil =>
    rw [show p = .freeListEnd from chain]
    simp
  | cons z l =>
    rw [chain.1]
    simp

end chained

private theorem waitingZvals_collects {call : Call Z O} {pair : Option (Ptr Z) × Saved Z}
    (collects : call.collects = some pair) (below : List (Call Z O)) :
    waitingZvals (call :: below) = waitingZvals below := by
  cases call <;> first | rfl | cases collects

private theorem takeSlot_same {g g' : GcState Z O} {i : Nat} (taken : g.takeSlot = some (i, g')) :
    g'.gcActive = g.gcActive ∧ g'.freeList = g.freeList ∧ g'.refcount = g.refcount ∧
      g'.buffered = g.buffered := by
  unfold takeSlot at taken
  split at taken
  · cases taken
    exact ⟨rfl, rfl, rfl, rfl⟩
  split at taken
  · cases taken
    exact ⟨rfl, rfl, rfl, rfl⟩
  · cases taken

variable [DecidableEq Z] [DecidableEq O] [Fintype Z] [Fintype O]

/-! ### The invariant -/

structure Inv (m : Machine Z O) (lists : List (List Z)) : Prop where
  consistent : ∃ L U, Consistent m.heap m.g L U
  chained : Chained m.g m.g.freeList m.stack lists
  disjoint : lists.flatten.Nodup
  complete : ∀ z, (m.g.address (.inl z)).outside = true → z ∈ lists.flatten
  waiting : ∀ zv n, .possibleRoot zv n ∈ m.stack →
    n.isRight = true ∨ n = .inl zv ∧ (m.g.address n).outside = false
  sound : m.Sound
  inactive : m.g.gcActive = false

variable {below : List (Call Z O)} {m' : Machine Z O} {n : Node Z O} {orig : Saved Z}

section invariant

variable {m : Machine Z O} {lists : List (List Z)}

/-- Garbage of a collection in progress is recognised by its colour and address. -/
theorem Inv.freeList_ne_null (inv : Inv m lists) (outside : (m.g.address (.inl z)).outside = true) :
    m.g.freeList ≠ .null := by
  refine inv.chained.ne_null fun none => ?_
  have member := inv.complete z outside
  rw [none] at member
  cases member

theorem Inv.black (inv : Inv m lists) (outside : (m.g.address (.inl z)).outside = true) :
    m.g.color (.inl z) = .black := by
  obtain ⟨L, U, consistent⟩ := inv.consistent
  exact consistent.records.idle z (Ptr.outside_iff.mp outside).2

/-- Linking and unlinking a value: nothing on a list of zvals to free is concerned. -/
theorem Inv.rebuffer (inv : Inv m lists) {g' : GcState Z O}
    (consistent : ∃ L U, Consistent m.heap g' L U) (active : g'.gcActive = m.g.gcActive)
    (list : g'.freeList = m.g.freeList) (refcount : g'.refcount = m.g.refcount)
    (others : ∀ k, k ≠ n → g'.buffered k = m.g.buffered k)
    (before : (m.g.address n).outside = false) (after : (g'.address n).outside = false) :
    Inv { m with g := g' } lists := by
  have address : ∀ k, (g'.address k).outside = (m.g.address k).outside := by
    intro k
    by_cases here : k = n
    · rw [here, before, after]
    · rw [address, others k here]
      rfl
  refine ⟨consistent, ?_, inv.disjoint, ?_, ?_, ?_, active.trans inv.inactive⟩
  · have chained := inv.chained
    rw [← list] at chained
    refine chained.congr fun z member => others _ fun here => ?_
    have outside := inv.chained.outside member
    rw [here, before] at outside
    cases outside
  · intro z outside
    rw [address] at outside
    exact inv.complete z outside
  · intro zv k member
    rw [address]
    exact inv.waiting zv k member
  · intro z
    have sound := inv.sound z
    simp only [address, refcount]
    exact sound

/-! ### The calls of the program -/

section

variable (inv : Inv m lists)

include inv

theorem Inv.unlink {i : Nat} (tracked : m.heap.Tracked n) (slot : m.g.address n = .slot i) :
    Inv { m with g := (gcRemoveFromBuffer m.g (.slot i)).setBuffered n ⟨.null, .black⟩ }
      lists := by
  obtain ⟨L, U, consistent⟩ := inv.consistent
  obtain ⟨L', consistent'⟩ := consistent.unlink tracked slot
  have frame := frame_remove m.g (.slot i)
  refine inv.rebuffer ⟨L', _, consistent'⟩ frame.gcActive frame.freeList (remove_refcount m.g _)
    (n := n) ?_ ?_ ?_
  · intro k other
    simp [setBuffered, update_of_ne other]
  · rw [slot]
    rfl
  · simp [address, setBuffered, Ptr.outside]

theorem Inv.control
    (only : m'.g = { m.g with refcount := m'.g.refcount, nextToFree := m'.g.nextToFree })
    (store : m'.heap.objectBuckets = m.heap.objectBuckets)
    (chained : Chained m.g m.g.freeList m'.stack lists)
    (waiting : ∀ zv n, .possibleRoot zv n ∈ m'.stack → Call.possibleRoot zv n ∈ m.stack)
    (sound : m'.Sound) : Inv m' lists := by
  have buffered : m'.g.buffered = m.g.buffered := (congrArg buffered only :)
  have list : m'.g.freeList = m.g.freeList := (congrArg freeList only :)
  have active : m'.g.gcActive = m.g.gcActive := (congrArg gcActive only :)
  have address : m'.g.address = m.g.address := by
    unfold address
    rw [buffered]
  obtain ⟨L, U, consistent⟩ := inv.consistent
  refine ⟨⟨L, U, consistent.congr store (by rw [only])⟩, ?_, inv.disjoint, ?_, ?_, sound,
    active.trans inv.inactive⟩
  · rw [list]
    exact chained.congr fun z _ => by rw [buffered]
  · rw [address]
    exact inv.complete
  · intro zv n member
    rw [address]
    exact inv.waiting zv n (waiting zv n member)

theorem Inv.removeZval (zv : Z) : Inv { m with g := gcRemoveZvalFromBuffer m.g zv } lists := by
  unfold gcRemoveZvalFromBuffer
  split
  next buffered =>
    split
    next garbage =>
      split
      · exact inv.control rfl rfl inv.chained (fun _ _ member => member) inv.sound
      · exact inv
    next root =>
    -- an address outside the buffer would be that of garbage
    rcases (m.g.address (.inl zv)).cases_outside with null | ⟨i, slot⟩ | outside
    · exact absurd null buffered
    · rw [slot]
      exact inv.unlink (n := .inl zv) trivial slot
    · exact absurd ⟨inv.freeList_ne_null outside, inv.black outside, outside⟩ root
  next _ => exact inv

theorem Inv.removeZobj (store : m.heap.objectBuckets = true) (handle : O) :
    Inv { m with g := gcRemoveZobjFromBuffer m.g handle } lists := by
  unfold gcRemoveZobjFromBuffer
  split
  next buffered =>
    obtain ⟨L, U, consistent⟩ := inv.consistent
    rcases (m.g.address (.inr handle)).cases_outside with null | ⟨i, slot⟩ | outside
    · exact absurd null buffered.1
    · rw [slot]
      exact inv.unlink (n := .inr handle) store slot
    · rw [consistent.records.objects handle] at outside
      cases outside
  next _ => exact inv

theorem Inv.link {g' : GcState Z O} {i : Nat} (free : m.g.address n = .null)
    (taken : m.g.takeSlot = some (i, g')) : Inv { m with g := g'.linkRoot i n } lists := by
  obtain ⟨L, U, consistent⟩ := inv.consistent
  obtain ⟨active, list, refcount, buffered⟩ := takeSlot_same taken
  have same := linkRoot_sameOutside g' i n
  refine inv.rebuffer (consistent.link free taken) (same.gcActive.trans active)
    (same.freeList.trans list) (same.refcount.trans refcount) (n := n) ?_ ?_ ?_
  · intro k other
    simp only [linkRoot_eq, update_of_ne other, buffered]
  · rw [free]
    rfl
  · simp only [address, linkRoot_eq, update_self]
    rfl

end

/-! ### A collection -/

/-- A zval that is counted for more than the references in the heap is not garbage. -/
theorem not_garbage_of_lt {heap : Heap Z O} {g : GcState Z O} {L : List Nat}
    (more : heap.graph.edgesFrom Finset.univ (.inl z) < (g.refcount (.inl z)).toNat) :
    Sum.inl z ∉ heap.garbage g L := by
  intro garbage
  refine not_garbage_of_leftover (mem_garbage.mp garbage).1 (fun zero => ?_) garbage
  have bound := heap.graph.edgesFrom_mono
    (Finset.subset_univ (heap.graph.area (heap.Roots g L))) (.inl z)
  have value := congrArg BitVec.toNat (sub_eq_zero.mp zero)
  simp only [BitVec.natCast_eq_ofNat, BitVec.toNat_ofNat] at value
  omega

theorem Machine.Sound.not_garbage (sound : m.Sound) {L : List Nat}
    (held : (m.g.address (.inl z)).outside = true ∨ z ∈ waitingZvals m.stack) :
    Sum.inl z ∉ m.heap.garbage m.g L := by
  refine not_garbage_of_lt ?_
  have counted := sound z
  rcases held with outside | waiting
  · rw [if_pos outside] at counted
    omega
  · have positive := count_pos_iff.mpr waiting
    omega

/-- The passes, from a state of the machine. -/
structure Collected (m : Machine Z O) (L U : List Nat) (freed : List Z) (g' : GcState Z O) :
    Prop where
  consistent : Consistent m.heap m.g L U
  passed : Passed m.heap m.g.activate L U freed g'

theorem Inv.passes (inv : Inv m lists) :
    ∃ g' L U freed, gcPasses m.heap (Fintype.card Z + 1) m.g = some g' ∧
      Collected m L U freed g' := by
  obtain ⟨L, U, consistent⟩ := inv.consistent
  have ready := consistent.ready fun z outside => inv.sound.not_garbage (.inl outside)
  obtain ⟨g', freed, ran, passed⟩ := gcPasses_spec (Nat.lt_succ_self _) ready
  exact ⟨g', L, U, freed, ran, consistent, passed⟩

section collected

variable {L U : List Nat} {freed : List Z} {g' : GcState Z O}

section

variable (now : Collected m L U freed g')

include now

theorem Collected.fresh (sound : m.Sound) (member : z ∈ freed) :
    (m.g.address (.inl z)).outside = false ∧ z ∉ waitingZvals m.stack := by
  have garbage : Sum.inl z ∈ m.heap.garbage m.g L := (now.passed.freed_iff z).mp member
  constructor
  · by_contra outside
    exact sound.not_garbage (.inl (by simpa using outside)) garbage
  · exact fun waiting => sound.not_garbage (.inr waiting) garbage

theorem Collected.address (unlisted : z ∉ freed) :
    (g'.address (.inl z)).outside = (m.g.address (.inl z)).outside := by
  have absent : (Sum.inl z : Node Z O) ∉ freed.map Sum.inl := by simpa using unlisted
  by_cases buffered : ∃ i, m.g.address (.inl z) = .slot i
  · have null : g'.address (.inl z) = .null := now.passed.released _ absent trivial buffered
    obtain ⟨i, slot⟩ := buffered
    rw [null, slot]
    rfl
  · have same : g'.address (.inl z) = m.g.address (.inl z) :=
      now.passed.address _ absent (.inl (not_exists.mp buffered))
    rw [same]

theorem Collected.outside_iff :
    (g'.address (.inl z)).outside = true ↔ z ∈ freed ∨ (m.g.address (.inl z)).outside = true := by
  by_cases member : z ∈ freed
  · simp [member, now.passed.chain.outside member]
  · simp [member, now.address member]

theorem Collected.buffered (sound : m.Sound) (outside : (m.g.address (.inl z)).outside = true) :
    g'.buffered (.inl z) = m.g.buffered (.inl z) := by
  have unlisted : z ∉ freed := by
    intro member
    rw [(now.fresh sound member).1] at outside
    cases outside
  have noSlot := (Ptr.outside_iff.mp outside).2
  have address : g'.address (.inl z) = m.g.address (.inl z) :=
    now.passed.address _ (by simpa using unlisted) (.inl noSlot)
  have color : g'.color (.inl z) = m.g.color (.inl z) := by
    rw [now.passed.black z, now.consistent.records.idle z noSlot]
  have same : g'.buffered (.inl z) = ⟨g'.address (.inl z), g'.color (.inl z)⟩ := rfl
  rw [same, address, color]
  rfl

theorem Collected.counted (sound : m.Sound)
    (small : ∀ z, z ∉ waitingZvals m.stack → (m.g.refcount (.inl z)).toNat + 1 < 2 ^ 32) (z : Z) :
    m.heap.graph.edgesFrom Finset.univ (.inl z) +
      (if (g'.address (.inl z)).outside then 1 else 0) + (waitingZvals m.stack).count z ≤
        (g'.refcount (.inl z)).toNat := by
  have before := sound z
  by_cases member : z ∈ freed
  · obtain ⟨inside, idle⟩ := now.fresh sound member
    have more : g'.refcount (.inl z) = m.g.refcount (.inl z) + 1 := now.passed.listed z member
    have room := small z idle
    have count : (m.g.refcount (.inl z) + 1).toNat = (m.g.refcount (.inl z)).toNat + 1 := by
      exact Nat.mod_eq_of_lt room
    rw [if_pos (now.outside_iff.mpr (.inl member)), more]
    omega
  · have same : g'.refcount (.inl z) = m.g.refcount (.inl z) := now.passed.refcount z member
    rw [same, now.address member]
    exact before

end

end collected

/-- `gc_collect_cycles` up to the first loop over the garbage. -/
theorem Inv.collect (inv : Inv m lists)
    (small : ∀ z, z ∉ waitingZvals m.stack → (m.g.refcount (.inl z)).toNat + 1 < 2 ^ 32) :
    ∃ m', m.gcCollectCycles = some m' ∧ ∃ lists', Inv m' lists' := by
  unfold Machine.gcCollectCycles
  split
  next nonempty =>
    rw [if_neg (by simp [inv.inactive])]
    obtain ⟨g', L, U, freed, ran, now⟩ := inv.passes
    obtain ⟨U', consistent⟩ := now.passed.consistent (now.consistent.congr rfl rfl)
    rw [ran]
    refine ⟨_, rfl, freed :: lists, ?_, ?_, ?_, ?_, ?_, ?_, rfl⟩
    · exact ⟨[], U', consistent.congr rfl rfl⟩
    · refine ⟨freed, lists, rfl, now.passed.chain.ne_null, ?_, ?_⟩
      · exact now.passed.chain.congr fun _ _ => rfl
      · have outer : Chained m.g g'.freeList m.stack lists := by
          rw [now.passed.frame.freeList]
          exact inv.chained
        exact outer.congr fun z member => now.buffered inv.sound (inv.chained.outside member)
    · rw [flatten_cons, nodup_append']
      refine ⟨now.passed.nodup, inv.disjoint, fun z new old => ?_⟩
      have outside := inv.chained.outside old
      rw [(now.fresh inv.sound new).1] at outside
      cases outside
    · intro z outside
      rw [flatten_cons, mem_append]
      exact (now.outside_iff.mp outside).imp_right (inv.complete z)
    · intro zv n member
      have below : Call.possibleRoot zv n ∈ m.stack := by simpa using member
      rcases inv.waiting zv n below with object | ⟨rfl, inside⟩
      · exact .inl object
      refine .inr ⟨rfl, ?_⟩
      have waiting : zv ∈ waitingZvals m.stack := mem_filterMap.mpr ⟨_, below, rfl⟩
      have unlisted : zv ∉ freed := fun member => (now.fresh inv.sound member).2 waiting
      exact (now.address unlisted).trans inside
    · exact now.counted inv.sound small
  next _ => exact ⟨m, rfl, lists, inv⟩

/-! ### Counts and control -/

/-- The condition under which a step is taken: no count is about to overflow, and a call that ran a
collection and got a slot does not find in the buffer what it buffers now; for an object, that is
what its argument refers to now. -/
def Allowed (m : Machine Z O) (_ : Label Z O) : Prop :=
  (∀ z, (m.g.refcount (.inl z)).toNat + 1 < 2 ^ 32) ∧
    ∀ zv n below newRoot, m.stack = .possibleRoot zv n :: below → m.g.unused = .slot newRoot →
      ∃ n', m.targetAfter zv n = some n' ∧ ∀ i, m.g.address n' ≠ .slot i

section

variable (inv : Inv m lists)

include inv

/-- `gc_zval_possible_root` and `gc_zobj_possible_root` hold a reference to their argument
during the collection. -/
theorem Inv.hold {zv : Z} (target : n.isRight = true ∨ n = .inl zv) (free : m.g.address n = .null)
    (small : (m.g.refcount (.inl zv)).toNat + 1 < 2 ^ 32) :
    Inv { m with g := m.g.addRef (.inl zv), stack := .possibleRoot zv n :: m.stack } lists where
  __ := inv
  consistent := by
    obtain ⟨L, U, consistent⟩ := inv.consistent
    exact ⟨L, U, consistent.congr rfl rfl⟩
  chained := inv.chained.congr fun _ _ => rfl
  waiting zv' n' member := by
    rcases mem_cons.mp member with new | old
    · cases new
      refine target.imp_right fun same => ⟨same, ?_⟩
      rw [show (m.g.addRef (.inl zv)).address n = m.g.address n from rfl, free]
      rfl
    · exact inv.waiting zv' n' old
  sound z := by
    have before := inv.sound z
    have pushed : waitingZvals (.possibleRoot zv n :: m.stack) = zv :: waitingZvals m.stack := rfl
    rw [pushed, toNat_addRef small z, count_cons]
    by_cases same : z = zv
    · subst same
      simp only [BEq.rfl, if_true]
      have address : (m.g.addRef (.inl z)).address = m.g.address := rfl
      rw [address]
      omega
    · have other : (zv == z) = false := by simpa using Ne.symm same
      rw [other, if_neg same]
      exact before

theorem Inv.letGo {zv : Z} (top : m.stack = .possibleRoot zv n :: below) :
    Inv { m with g := m.g.delRef (.inl zv), stack := below } lists := by
  have popped : waitingZvals m.stack = zv :: waitingZvals below := by
    rw [top]
    rfl
  have positive : 0 < (m.g.refcount (.inl zv)).toNat := by
    have counted := inv.sound zv
    rw [popped, count_cons_self] at counted
    omega
  have chained := inv.chained
  rw [top] at chained
  refine inv.control rfl rfl chained (fun zv' n' member => by simp [top, member]) ?_
  intro z
  have before := inv.sound z
  rw [popped, count_cons] at before
  rw [toNat_delRef positive z]
  have address : (m.g.delRef (.inl zv)).address = m.g.address := rfl
  by_cases same : z = zv
  · subst same
    simp only [BEq.rfl, if_true] at before
    simp only [if_true, address]
    omega
  have other : (zv == z) = false := by simpa using Ne.symm same
  rw [other] at before
  rw [if_neg same]
  exact before

theorem Inv.buffer {zv : Z} (target : n.isRight = true ∨ n = .inl zv)
    (small : ∀ z, (m.g.refcount (.inl z)).toNat + 1 < 2 ^ 32) :
    ∃ m', m.buffer zv n = some m' ∧ ∃ lists', Inv m' lists' := by
  unfold Machine.buffer
  split
  next unbuffered =>
    cases taken : m.g.takeSlot with
    | some slot => exact ⟨_, rfl, lists, inv.link unbuffered.2 taken⟩
    | none =>
      simp only
      split
      next enabled =>
        refine (inv.hold target unbuffered.2 (small zv)).collect fun z idle => ?_
        have apart : z ≠ zv := by
          rintro rfl
          exact idle (mem_filterMap.mpr ⟨_, mem_cons_self, rfl⟩)
        rw [toNat_addRef (small zv) z, if_neg apart]
        exact small z
      next disabled => exact ⟨m, rfl, lists, inv⟩
  next _ => exact ⟨m, rfl, lists, inv⟩

theorem Inv.inside_targetAfter {zv : Z} {n' : Node Z O} (waits : .possibleRoot zv n ∈ m.stack)
    (target : m.targetAfter zv n = some n') : (m.g.address n').outside = false := by
  obtain ⟨L, U, consistent⟩ := inv.consistent
  cases n with
  | inl z =>
    cases target
    rcases inv.waiting zv (.inl z) waits with object | ⟨_, inside⟩
    · cases object
    · exact inside
  | inr handle =>
    -- an object is never on a list of zvals to free
    rw [Machine.targetAfter] at target
    split at target
    next again _ =>
      cases target
      exact consistent.records.objects again
    · cases target

theorem Inv.bufferAfter {zv : Z} (top : m.stack = .possibleRoot zv n :: below)
    (apart : ∀ newRoot, m.g.unused = .slot newRoot →
      ∃ n', m.targetAfter zv n = some n' ∧ ∀ i, m.g.address n' ≠ .slot i)
    (buffered : Machine.bufferAfter { m with stack := below } zv n = some m') : Inv m' lists := by
  have let_go := inv.letGo top
  unfold Machine.bufferAfter at buffered
  simp only at buffered
  split at buffered
  next newRoot unused =>
    obtain ⟨n', target, notBuffered⟩ := apart newRoot unused
    have inside := inv.inside_targetAfter (by simp [top]) target
    have free : m.g.address n' = .null := by
      rcases (m.g.address n').cases_outside with null | ⟨i, slot⟩ | outside
      · exact null
      · exact absurd slot (notBuffered i)
      · rw [inside] at outside
        cases outside
    have again : Machine.targetAfter { m with stack := below } zv n = some n' := target
    rw [again] at buffered
    cases buffered
    refine let_go.link (n := n') free ?_
    simp only [takeSlot, unused]
  next _ =>
    cases buffered
    exact let_go

theorem Inv.zobjPossibleRoot (zv : Z) (handle : O)
    (small : ∀ z, (m.g.refcount (.inl z)).toNat + 1 < 2 ^ 32) :
    ∃ m', m.gcZobjPossibleRoot zv handle = some m' ∧ ∃ lists', Inv m' lists' := by
  unfold Machine.gcZobjPossibleRoot
  split
  · exact ⟨m, rfl, lists, inv⟩
  · exact inv.buffer (.inl rfl) small

theorem Inv.zvalPossibleRoot (zv : Z) (small : ∀ z, (m.g.refcount (.inl z)).toNat + 1 < 2 ^ 32) :
    ∃ m', m.gcZvalPossibleRoot zv = some m' ∧ ∃ lists', Inv m' lists' := by
  unfold Machine.gcZvalPossibleRoot
  split
  · exact ⟨m, rfl, lists, inv⟩
  split
  · split
    · exact inv.zobjPossibleRoot zv _ small
    · exact ⟨m, rfl, lists, inv⟩
  · exact inv.buffer (.inr rfl) small

end

/-! ### The functions on the stack -/

private theorem edgesFrom_setNull (heap : Heap Z O) (z : Z) (n : Node Z O) :
    (heap.setNull z).graph.edgesFrom Finset.univ n ≤ heap.graph.edgesFrom Finset.univ n := by
  refine Finset.sum_le_sum fun u _ => ?_
  by_cases same : u = .inl z
  · subst same
    simp [Heap.graph, Heap.setNull]
  have kept : (heap.setNull z).graph.succ u = heap.graph.succ u := by
    cases u with
    | inr handle => rfl
    | inl y =>
      have apart : y ≠ z := fun eq => same (by rw [eq])
      simp only [Heap.graph, Heap.setNull, update_of_ne apart]
      rfl
  rw [kept]

section

variable (inv : Inv m lists)

include inv

/-- A step that gives up references of the heap and changes counts of objects only. -/
theorem Inv.sound_of_le (edges : ∀ z : Z, m'.heap.graph.edgesFrom Finset.univ (.inl z) ≤
      m.heap.graph.edgesFrom Finset.univ (.inl z)) (buffered : m'.g.buffered = m.g.buffered)
    (waiting : waitingZvals m'.stack = waitingZvals m.stack)
    (counts : ∀ z, m'.g.refcount (.inl z) = m.g.refcount (.inl z)) : m'.Sound := by
  intro z
  have before := inv.sound z
  have fewer := edges z
  have address : m'.g.address = m.g.address := by
    unfold address
    rw [buffered]
  rw [address, waiting, counts z]
  omega

theorem Inv.loopStep {call call' : Call Z O}
    {pair : Option (Ptr Z) × Saved Z} (top : m.stack = call :: below)
    (was : call.collects = some pair) (now : call'.collects = some pair)
    (stack : m'.stack = call' :: below ∨ m'.stack = .program :: call' :: below)
    (only : m'.g = { m.g with refcount := m'.g.refcount, nextToFree := m'.g.nextToFree })
    (store : m'.heap.objectBuckets = m.heap.objectBuckets)
    (edges : ∀ z : Z, m'.heap.graph.edgesFrom Finset.univ (.inl z) ≤
      m.heap.graph.edgesFrom Finset.univ (.inl z))
    (counts : ∀ z, m'.g.refcount (.inl z) = m.g.refcount (.inl z)) : Inv m' lists := by
  have chained : Chained m.g m.g.freeList (call' :: below) lists := by
    have before := inv.chained
    rw [top] at before
    unfold Chained at before ⊢
    rw [was] at before
    rw [now]
    exact before
  have waiting : waitingZvals m'.stack = waitingZvals m.stack := by
    rw [top, waitingZvals_collects was]
    rcases stack with same | called
    · rw [same, waitingZvals_collects now]
    · rw [called]
      exact waitingZvals_collects now below
  refine inv.control only store ?_ ?_ (inv.sound_of_le edges (congrArg buffered only :)
    waiting counts)
  · rcases stack with same | called
    · rw [same]
      exact chained
    · rw [called]
      exact chained
  intro zv n member
  have notTop : Call.possibleRoot zv n ≠ call' := by
    rintro rfl
    cases now
  rw [top]
  rcases stack with same | called
  · rw [same] at member
    exact mem_cons_of_mem call ((mem_cons.mp member).resolve_left notTop)
  · rw [called] at member
    have later := (mem_cons.mp member).resolve_left (by simp)
    exact mem_cons_of_mem call ((mem_cons.mp later).resolve_left notTop)

theorem Inv.destructorsStep {p : Ptr Z} (top : m.stack = .destructors p orig :: below)
    (stepped : m.goOn below (.destructors p orig) = some m') : Inv m' lists := by
  simp only [Machine.goOn] at stepped
  cases p with
  | freeListEnd =>
    cases stepped
    exact inv.loopStep top rfl rfl (.inl rfl) rfl rfl (fun _ => le_rfl) fun _ => rfl
  | zval z =>
    simp only at stepped
    split at stepped
    next handle garbage =>
      split at stepped
      next calls =>
        cases stepped
        refine inv.loopStep top rfl rfl (.inr rfl) rfl rfl (fun _ => le_rfl) fun y => ?_
        simp [addRef]
      next _ =>
        cases stepped
        exact inv.loopStep top rfl rfl (.inl rfl) rfl rfl (fun _ => le_rfl) fun _ => rfl
    next _ =>
      cases stepped
      exact inv.loopStep top rfl rfl (.inl rfl) rfl rfl (fun _ => le_rfl) fun _ => rfl
  | null => cases stepped
  | roots => cases stepped
  | slot i => cases stepped

theorem Inv.destroyStep {p : Ptr Z} (top : m.stack = .destroy p orig :: below)
    (stepped : m.goOn below (.destroy p orig) = some m') : Inv m' lists := by
  simp only [Machine.goOn] at stepped
  cases p with
  | freeListEnd =>
    cases stepped
    have chained := inv.chained
    rw [top] at chained
    refine inv.control rfl rfl chained (fun zv n member => ?_) (inv.sound_of_le
      (fun _ => le_rfl) rfl (by rw [top]; rfl) fun _ => rfl)
    rw [top]
    exact mem_cons_of_mem _ ((mem_cons.mp member).resolve_left (by simp))
  | zval z =>
    simp only at stepped
    split at stepped
    · split at stepped
      · cases stepped
        refine inv.loopStep top rfl rfl (.inr rfl) rfl rfl
          (fun y => edgesFrom_setNull m.heap z (.inl y)) fun y => ?_
        simp
      · cases stepped
        exact inv.loopStep top rfl rfl (.inl rfl) rfl rfl (fun _ => le_rfl) fun _ => rfl
    · cases stepped
      exact inv.loopStep top rfl rfl (.inr rfl) rfl rfl
        (fun y => edgesFrom_setNull m.heap z (.inl y)) fun _ => rfl
  | null => cases stepped
  | roots => cases stepped
  | slot i => cases stepped

theorem Inv.freeNext (top : m.stack = .free (.zval z) orig :: below) :
    ∃ lists', Inv { m with g := m.g.setBuffered (.inl z) ⟨.null, .black⟩
                           stack := .free (m.g.after (.zval z)) orig :: below } lists' := by
  have chained := inv.chained
  rw [top] at chained
  obtain ⟨l, rest, rfl, head, chain, outer⟩ := chained
  cases l with
  | nil => cases chain
  | cons y l =>
    obtain ⟨same, black, tail⟩ := chain
    cases same
    have distinct := inv.disjoint
    rw [flatten_cons, cons_append, nodup_cons] at distinct
    have outside : (m.g.address (.inl z)).outside = true := inv.chained.outside (by simp)
    have other : ∀ k, k ≠ .inl z →
        (m.g.setBuffered (.inl z) ⟨.null, .black⟩).buffered k = m.g.buffered k := by
      intro k apart
      simp [setBuffered, update_of_ne apart]
    have here : (m.g.setBuffered (.inl z) ⟨.null, .black⟩).buffered (.inl z) = ⟨.null, .black⟩ := by
      simp [setBuffered]
    have kept : ∀ x ∈ l ++ rest.flatten,
        (m.g.setBuffered (.inl z) ⟨.null, .black⟩).buffered (.inl x) = m.g.buffered (.inl x) := by
      intro x member
      refine other _ fun eq => distinct.1 ?_
      rw [← Sum.inl.inj eq]
      exact member
    obtain ⟨L, U, consistent⟩ := inv.consistent
    refine ⟨l :: rest, ⟨L, U, consistent.slots.congr rfl rfl rfl rfl, consistent.whole,
      consistent.bound, consistent.records.clear outside⟩, ?_, distinct.2, ?_, ?_, ?_,
      inv.inactive⟩
    · refine ⟨l, rest, rfl, head, tail.congr fun x member => ?_, outer.congr fun x member => ?_⟩
      · exact kept x (mem_append_left _ member)
      · exact kept x (mem_append_right _ member)
    · intro x stillOutside
      have apart : x ≠ z := by
        rintro rfl
        rw [address, here] at stillOutside
        cases stillOutside
      rw [address, other _ (by simpa using apart)] at stillOutside
      have member := inv.complete x stillOutside
      exact (mem_cons.mp member).resolve_left apart
    · intro zv n member
      refine (inv.waiting zv n (by simpa [top] using member)).imp_right fun both => ⟨both.1, ?_⟩
      by_cases eq : n = .inl z
      · rw [eq, address, here]
        rfl
      · rw [address, other n eq]
        exact both.2
    · intro x
      have before := inv.sound x
      rw [top] at before
      have popped : waitingZvals (.free (m.g.after (.zval z)) orig :: below) =
        waitingZvals (.free (.zval z) orig :: below) := rfl
      rw [popped]
      by_cases eq : x = z
      · subst eq
        rw [address, here]
        simp only [Ptr.outside, Bool.false_eq_true, if_false]
        have same : (m.g.setBuffered (.inl x) ⟨.null, .black⟩).refcount = m.g.refcount := rfl
        rw [same]
        omega
      · rw [address, other _ (by simpa using eq)]
        exact before

theorem Inv.freeEnd (top : m.stack = .free .freeListEnd orig :: below) :
    ∃ lists', Inv { m with g := { m.g with freeList := orig.freeList
                                           nextToFree := orig.nextToFree }
                           stack := below } lists' := by
  have chained := inv.chained
  rw [top] at chained
  obtain ⟨l, rest, rfl, head, chain, outer⟩ := chained
  cases l with
  | cons y l => cases chain.1
  | nil =>
    obtain ⟨L, U, consistent⟩ := inv.consistent
    refine ⟨rest, ⟨L, U, consistent.congr rfl rfl⟩, ?_, ?_, ?_, ?_, ?_, inv.inactive⟩
    · exact outer.congr fun _ _ => rfl
    · exact inv.disjoint
    · exact inv.complete
    · exact fun zv n member => inv.waiting zv n (by simp [top, member])
    have sound := inv.sound
    unfold Machine.Sound at sound
    rw [top] at sound
    exact sound

theorem Inv.goOn {call : Call Z O} (top : m.stack = call :: below)
    (stepped : m.goOn below call = some m')
    (allowed : ∀ zv n newRoot, call = .possibleRoot zv n → m.g.unused = .slot newRoot →
      ∃ n', m.targetAfter zv n = some n' ∧ ∀ i, m.g.address n' ≠ .slot i) :
    ∃ lists', Inv m' lists' := by
  cases call with
  | program => cases stepped
  | possibleRoot zv n =>
    exact ⟨lists, inv.bufferAfter top (fun newRoot => allowed zv n newRoot rfl) stepped⟩
  | destructors p orig => exact ⟨lists, inv.destructorsStep top stepped⟩
  | destructed p handle orig =>
    cases stepped
    refine ⟨lists, inv.loopStep top rfl rfl (.inl rfl) rfl rfl (fun _ => le_rfl) fun z => ?_⟩
    simp [delRef]
  | destroy p orig => exact ⟨lists, inv.destroyStep top stepped⟩
  | destroyed orig =>
    cases stepped
    exact ⟨lists, inv.loopStep top rfl rfl (.inl rfl) rfl rfl (fun _ => le_rfl) fun _ => rfl⟩
  | free p orig =>
    cases p with
    | freeListEnd =>
      cases stepped
      exact inv.freeEnd top
    | zval z =>
      cases stepped
      exact inv.freeNext top
    | null => cases stepped
    | roots => cases stepped
    | slot i => cases stepped

theorem Inv.step {label : Label Z O}
    (allowed : Allowed m label) (stepped : m.step label = some m') : ∃ lists', Inv m' lists' := by
  have some_eq : ∀ {x : Option (Machine Z O)}, x = some m' →
      (∃ y, x = some y ∧ ∃ lists', Inv y lists') → ∃ lists', Inv m' lists' := by
    rintro x rfl ⟨y, same, result⟩
    cases same
    exact result
  unfold Machine.step at stepped
  split at stepped
  · exact some_eq stepped (inv.zvalPossibleRoot _ allowed.1)
  · split at stepped
    · exact some_eq stepped (inv.zobjPossibleRoot _ _ allowed.1)
    · cases stepped
  · cases stepped
    exact ⟨lists, inv.removeZval _⟩
  · split at stepped
    next store =>
      cases stepped
      exact ⟨lists, inv.removeZobj store _⟩
    next _ => cases stepped
  · exact some_eq stepped (inv.collect fun z _ => allowed.1 z)
  · simp only [Option.ite_none_right_eq_some, Option.some.injEq] at stepped
    obtain ⟨legal, rfl⟩ := stepped
    exact ⟨lists, inv.control rfl legal.1 inv.chained (fun _ _ => id) legal.2⟩
  next below top =>
    cases stepped
    have chained := inv.chained
    have sound := inv.sound
    unfold Machine.Sound at sound
    rw [top] at chained sound
    exact ⟨lists, inv.control rfl rfl chained (fun zv n member => by simp [top, member]) sound⟩
  next call below top =>
    exact inv.goOn top stepped fun zv n newRoot same =>
      allowed.2 zv n below newRoot (same ▸ top)
  · cases stepped

end

end invariant

/-! ### Runs -/

def gcRootBufferMaxEntries : Nat := 10000

/-- The state after `gc_init`: the buffer is empty and nothing is buffered. -/
structure Machine.Fresh (m : Machine Z O) : Prop where
  roots : m.g.rootsNext = .roots ∧ m.g.rootsPrev = .roots
  unused : m.g.unused = .null
  firstUnused : m.g.firstUnused = 0
  lastUnused : m.g.lastUnused = gcRootBufferMaxEntries
  freeList : m.g.freeList = .null
  inactive : m.g.gcActive = false
  buffered : ∀ n, m.g.buffered n = ⟨.null, .black⟩
  stack : m.stack = [.program]
  sound : m.Sound

theorem Machine.Fresh.inv {m : Machine Z O} (fresh : m.Fresh) : Inv m [] where
  __ := fresh
  consistent := by
    refine ⟨[], [], ⟨⟨nodup_nil, DoublyLinked.links_nil _ _, ?_, ?_, .inl fresh.roots.1,
      .inl fresh.roots.2, by simp⟩, fresh.unused, nodup_nil⟩, ?_, ?_, by simp, ?_, ?_, ?_, ?_⟩
    · rw [fresh.roots.1]
      rfl
    · rw [fresh.roots.2]
      rfl
    · rw [fresh.firstUnused]
      simp
    · rw [fresh.firstUnused]
      exact Nat.zero_le _
    · intro n i _ slot
      rw [address, fresh.buffered n] at slot
      cases slot
    · exact fun n => .inl (by rw [color, fresh.buffered n])
    · exact fun z _ => by rw [color, fresh.buffered]
    · intro handle
      rw [address, fresh.buffered]
      rfl
  chained := by
    rw [fresh.stack]
    rfl
  disjoint := nodup_nil
  complete z outside := by
    rw [address, fresh.buffered] at outside
    cases outside
  waiting zv n member := by
    rw [fresh.stack] at member
    simp at member

/-- One empty array, to which the program refers. -/
def oneArray : Machine Unit Empty where
  heap := { kind := fun _ => .array false [], objectBuckets := true, valid := fun _ => true,
            getGc := fun _ => none }
  dtor _ := false
  destructorCalled _ := false
  g := {
    gcEnabled := true
    gcActive := false
    buf _ := ⟨.null, .null, .inl ()⟩
    rootsPrev := .roots
    rootsNext := .roots
    unused := .null
    firstUnused := 0
    lastUnused := gcRootBufferMaxEntries
    zvalToFree := .null
    freeList := .null
    nextToFree := .null
    refcount _ := 1
    buffered _ := ⟨.null, .black⟩ }
  stack := [.program]

end Jonj.Gc
