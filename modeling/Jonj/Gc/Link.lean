import Jonj.Gc.Machine
import Jonj.Gc.Passes

/-!
# Buffering and unbuffering a value

`Consistent` is what the root buffer and the `buffered` fields owe each other. It is
kept by linking a value that points nowhere, by taking a value out of the buffer, and
by the passes of a collection.
-/
namespace Jonj.Gc

open TrialDeletion DoublyLinked List Function GcState

variable {Z O : Type}

theorem Ptr.outside_iff {p : Ptr Z} : p.outside = true ↔ p ≠ .null ∧ ∀ i, p ≠ .slot i := by
  cases p <;> simp [Ptr.outside]

theorem Ptr.cases_outside (p : Ptr Z) : p = .null ∨ (∃ i, p = .slot i) ∨ p.outside = true := by
  cases p <;> simp [Ptr.outside]

/-- A root is purple and points at its slot, what points at a slot is recorded there, and
a zval that is not a root is black. -/
structure Records (heap : Heap Z O) (g : GcState Z O) (L : List Nat) : Prop where
  own : ∀ i ∈ L, g.buffered (g.buf i).entry = ⟨.slot i, .purple⟩
  listed : ∀ n i, heap.Tracked n → g.address n = .slot i → i ∈ L ∧ (g.buf i).entry = n
  palette : ∀ n, g.color n = .black ∨ g.color n = .purple
  idle : ∀ z, (∀ i, g.address (.inl z) ≠ .slot i) → g.color (.inl z) = .black
  objects : ∀ handle, (g.address (.inr handle)).outside = false

/-- The roots `L` and the unused slots `U` are the slots before `first_unused`. -/
structure Consistent (heap : Heap Z O) (g : GcState Z O) (L U : List Nat) : Prop where
  slots : Slots g L U
  whole : ∀ i, i ∈ L ++ U ↔ i < g.firstUnused
  bound : g.firstUnused ≤ g.lastUnused
  records : Records heap g L

/-- The records depend on the `buffered` fields and on the entries of the roots only. -/
theorem Records.congr {heap heap' : Heap Z O} {g g' : GcState Z O} {L : List Nat}
    (records : Records heap g L) (store : heap'.objectBuckets = heap.objectBuckets)
    (buffered : g'.buffered = g.buffered) (entry : ∀ i ∈ L, (g'.buf i).entry = (g.buf i).entry) :
    Records heap' g' L where
  own i member := by
    rw [buffered, entry i member]
    exact records.own i member
  listed n i tracked slot := by
    have before : heap.Tracked n := by
      cases n with
      | inl z => trivial
      | inr handle => exact store.symm.trans tracked
    unfold address at slot
    rw [buffered] at slot
    obtain ⟨member, recorded⟩ := records.listed n i before slot
    exact ⟨member, (entry i member).trans recorded⟩
  palette n := by
    rw [color, buffered]
    exact records.palette n
  idle z := by
    rw [color, address, buffered]
    exact records.idle z
  objects handle := by
    rw [address, buffered]
    exact records.objects handle

/-- The counts, and the fields that only a collection uses, do not matter. -/
theorem Consistent.congr {heap heap' : Heap Z O} {g g' : GcState Z O} {L U : List Nat}
    (consistent : Consistent heap g L U)
    (store : heap'.objectBuckets = heap.objectBuckets)
    (same : g' =
      { g with refcount := g'.refcount, gcActive := g'.gcActive, zvalToFree := g'.zvalToFree,
                          freeList := g'.freeList, nextToFree := g'.nextToFree }) :
                            Consistent heap' g' L U := by
  rw [same]
  exact ⟨consistent.slots.congr rfl rfl rfl rfl, consistent.whole, consistent.bound,
    consistent.records.congr store rfl fun _ _ => rfl⟩

/-- There are at most as many roots as slots. -/
theorem Consistent.room {heap : Heap Z O} {g : GcState Z O} {L U : List Nat}
    (consistent : Consistent heap g L U) : L.length ≤ g.lastUnused := by
  have subset : L ⊆ range g.firstUnused := by
    intro i member
    rw [mem_range, ← consistent.whole]
    exact mem_append_left U member
  have short := (subperm_of_subset consistent.slots.ring.nodup subset).length_le
  rw [length_range] at short
  exact short.trans consistent.bound

theorem FreeChain.outside {g : GcState Z O} {l : List Z} {p : Ptr Z} (chain : FreeChain g p l)
    {z : Z} (member : z ∈ l) : (g.address (.inl z)).outside = true := by
  induction l generalizing p with
  | nil => cases member
  | cons y l ih =>
    obtain ⟨_, _, rest⟩ := chain
    rcases mem_cons.mp member with rfl | later
    · cases l with
      | nil => rw [show g.address (.inl z) = .freeListEnd from rest]; rfl
      | cons x l => rw [rest.1]; rfl
    · exact ih rest later

section link

variable [DecidableEq Z] [DecidableEq O] (g : GcState Z O) (i : Nat) (n : Node Z O)

theorem linkRoot_eq : g.linkRoot i n = { g with
      buf := fun j => {
        prev := if g.rootsNext = .slot j then .slot i else if j = i then .roots else (g.buf j).prev
        next := if j = i then g.rootsNext else (g.buf j).next
        entry := if j = i then n else (g.buf j).entry }
      rootsPrev := if g.rootsNext = .roots then .slot i else g.rootsPrev
      rootsNext := .slot i
      buffered := update g.buffered n ⟨.slot i, .purple⟩ } := by
  simp only [linkRoot, setPrev_eq, setNext_eq, setColor, setAddress, setBuffered,
    Ptr.slot.injEq, eq_comm (a := i), reduceCtorEq, if_false, update_self, update_idem]
  congr 1
  funext j
  by_cases same : j = i
  · subst same
    simp
  · simp [same]

/-- What linking does not write. -/
structure SameOutside (g g' : GcState Z O) : Prop where
  gcEnabled : g'.gcEnabled = g.gcEnabled
  gcActive : g'.gcActive = g.gcActive
  firstUnused : g'.firstUnused = g.firstUnused
  lastUnused : g'.lastUnused = g.lastUnused
  zvalToFree : g'.zvalToFree = g.zvalToFree
  freeList : g'.freeList = g.freeList
  nextToFree : g'.nextToFree = g.nextToFree
  refcount : g'.refcount = g.refcount

theorem linkRoot_sameOutside : SameOutside g (g.linkRoot i n) := by
  rw [linkRoot_eq]
  exact ⟨rfl, rfl, rfl, rfl, rfl, rfl, rfl, rfl⟩

end link

/-! ### The list of roots -/

section push

variable [DecidableEq Z] [DecidableEq O] {g : GcState Z O} {L U : List Nat} {i : Nat}

/-- A linked slot comes first in the ring of the roots. -/
theorem Ring.push (ring : Ring g L) (fresh : i ∉ L) (n : Node Z O) :
    Ring (g.linkRoot i n) (i :: L) := by
  have first : ∀ j, g.rootsNext = .slot j ↔ L.head? = some j := by
    intro j
    rw [← ring.first, Ptr.slot?_eq_some]
  have empty : g.rootsNext = .roots ↔ L = [] := by
    rw [← head?_eq_none_iff, ← ring.first]
    exact ⟨fun eq => by rw [eq]; rfl, ring.firstLink.roots_of_slot?⟩
  have notFirst : g.rootsNext ≠ .slot i := fun eq =>
    fresh (mem_of_head? ((first i).mp eq))
  have apart : ∀ j ∈ L, j ≠ i := fun j member eq => fresh (eq ▸ member)
  refine ⟨nodup_cons.mpr ⟨fresh, ring.nodup⟩, ?_, ?_, ?_, ?_, ?_, ?_⟩
  · refine links_cons ring.links ring.nodup ?_ ?_ ?_ ?_
    · simp [linkRoot_eq, ring.first]
    · simp only [linkRoot_eq, if_neg notFirst, if_true]
      rfl
    · intro j member
      simp only [linkRoot_eq, if_neg (apart j member)]
    · intro j member
      simp only [linkRoot_eq, first, if_neg (apart j member), apply_ite Ptr.slot?]
      rfl
  · rfl
  · simp only [linkRoot_eq]
    split
    next none =>
      rw [empty.mp none]
      rfl
    next some =>
    rw [ring.last]
    cases L with
    | nil => exact absurd (empty.mpr rfl) some
    | cons a L => rw [getLast?_cons_cons]
  · exact .inr ⟨i, rfl⟩
  · simp only [linkRoot_eq]
    split
    · exact .inr ⟨i, rfl⟩
    · exact ring.lastLink
  · intro j member
    simp only [linkRoot_eq]
    rcases mem_cons.mp member with rfl | old
    · rw [if_pos rfl, if_neg notFirst, if_pos rfl]
      exact ⟨ring.firstLink, .inl rfl⟩
    rw [if_neg (apart j old), if_neg (apart j old)]
    refine ⟨(ring.link j old).1, ?_⟩
    split
    · exact .inr ⟨i, rfl⟩
    · exact (ring.link j old).2

theorem Slots.push (slots : Slots g L U) (fresh : i ∉ L ++ U) (n : Node Z O) :
    Slots (g.linkRoot i n) (i :: L) U := by
  rw [mem_append, not_or] at fresh
  refine ⟨slots.ring.push fresh.1 n, ?_, ?_⟩
  · rw [linkRoot_eq]
    refine slots.spare.congr fun j member => ?_
    -- the first root is not an unused slot
    have other : g.rootsNext ≠ .slot j := by
      intro first
      have head := slots.ring.first
      rw [first] at head
      exact (nodup_append'.mp slots.nodup).2.2 (mem_of_head? head.symm) member
    have apart : j ≠ i := fun eq => fresh.2 (eq ▸ member)
    simp only [if_neg other, if_neg apart]
  · rw [cons_append, nodup_cons, mem_append, not_or]
    exact ⟨fresh, slots.nodup⟩

variable {heap : Heap Z O}

/-- The linked slot records a node that pointed nowhere. -/
theorem Records.link (records : Records heap g L) (fresh : i ∉ L) {n : Node Z O}
    (free : g.address n = .null) : Records heap (g.linkRoot i n) (i :: L) := by
  have apart : ∀ j ∈ L, j ≠ i := fun j member eq => fresh (eq ▸ member)
  have other : ∀ m, m ≠ n → (g.linkRoot i n).buffered m = g.buffered m := by
    intro m different
    simp only [linkRoot_eq, update_of_ne different]
  have here : (g.linkRoot i n).buffered n = ⟨.slot i, .purple⟩ := by
    simp [linkRoot_eq]
  refine ⟨?_, ?_, ?_, ?_, ?_⟩
  · intro j member
    have entry : ((g.linkRoot i n).buf j).entry = if j = i then n else (g.buf j).entry := by
      rw [linkRoot_eq]
    rw [entry]
    rcases mem_cons.mp member with rfl | old
    · rw [if_pos rfl, here]
    have own := records.own j old
    have different : (g.buf j).entry ≠ n := by
      intro eq
      rw [address, ← eq, own] at free
      cases free
    rw [if_neg (apart j old), other _ different, own]
  · intro m j tracked slot
    by_cases same : m = n
    · subst same
      rw [address, here] at slot
      cases slot
      exact ⟨mem_cons_self, by simp only [linkRoot_eq, if_true]⟩
    rw [address, other m same] at slot
    obtain ⟨member, recorded⟩ := records.listed m j tracked slot
    exact ⟨mem_cons_of_mem i member, by
      simp only [linkRoot_eq, if_neg (apart j member), recorded]⟩
  · intro m
    by_cases same : m = n
    · subst same
      exact .inr (by rw [color, here])
    · rw [color, other m same]
      exact records.palette m
  · intro z noSlot
    by_cases same : Sum.inl z = n
    · subst same
      exact absurd (by rw [address, here]) (noSlot i)
    · rw [address, other _ same] at noSlot
      rw [color, other _ same]
      exact records.idle z noSlot
  · intro handle
    by_cases same : Sum.inr handle = n
    · subst same
      rw [address, here]
      rfl
    · rw [address, other _ same]
      exact records.objects handle

section

variable (consistent : Consistent heap g L U) {n : Node Z O}

include consistent

/-- A root in the first slot of the `unused` list. -/
theorem Consistent.reuse (free : g.address n = .null) (unused : g.unused = .slot i) :
    ∃ U', Consistent heap ({ g with unused := (g.buf i).prev }.linkRoot i n) (i :: L) U' := by
  obtain ⟨U', rfl, rest⟩ : ∃ U', U = i :: U' ∧ SpareList g (g.buf i).prev U' := by
    have spare := consistent.slots.spare
    rw [unused] at spare
    cases U with
    | nil => cases spare
    | cons j U' =>
      obtain ⟨head, rest⟩ := spare
      cases head
      exact ⟨U', rfl, rest⟩
  have nodup := nodup_middle.mp consistent.slots.nodup
  obtain ⟨fresh, nodup⟩ := nodup_cons.mp nodup
  have slots : Slots { g with unused := (g.buf i).prev } L U' :=
    ⟨consistent.slots.ring.congr rfl rfl (fun _ _ => rfl) fun _ _ => rfl,
      rest.congr fun _ _ => rfl, nodup⟩
  have records : Records heap { g with unused := (g.buf i).prev } L :=
    consistent.records.congr rfl rfl fun _ _ => rfl
  have outside := linkRoot_sameOutside { g with unused := (g.buf i).prev } i n
  refine ⟨U', slots.push fresh n, ?_, ?_,
    records.link (fun member => fresh (by simp [member])) free⟩
  · intro j
    rw [outside.firstUnused, ← consistent.whole j]
    simp only [cons_append, mem_cons, mem_append]
    tauto
  · rw [outside.firstUnused, outside.lastUnused]
    exact consistent.bound

/-- A root in the first slot that was never used. -/
theorem Consistent.extend (free : g.address n = .null) (more : g.firstUnused ≠ g.lastUnused) :
    Consistent heap ({ g with firstUnused := g.firstUnused + 1 }.linkRoot g.firstUnused n)
      (g.firstUnused :: L) U := by
  have fresh : g.firstUnused ∉ L ++ U := by
    rw [consistent.whole]
    exact lt_irrefl _
  have slots : Slots { g with firstUnused := g.firstUnused + 1 } L U :=
    consistent.slots.congr rfl rfl rfl rfl
  have records : Records heap { g with firstUnused := g.firstUnused + 1 } L :=
    consistent.records.congr rfl rfl fun _ _ => rfl
  have outside := linkRoot_sameOutside { g with firstUnused := g.firstUnused + 1 } g.firstUnused n
  have bound := consistent.bound
  refine ⟨slots.push fresh n, ?_, ?_, records.link (fun member => fresh (by simp [member])) free⟩
  · intro j
    rw [outside.firstUnused, cons_append, mem_cons, consistent.whole]
    simp only
    omega
  · rw [outside.firstUnused, outside.lastUnused]
    simp only
    omega

/-- `gc_zval_possible_root` and its twin for objects: wherever the slot comes from. -/
theorem Consistent.link {g' : GcState Z O} (free : g.address n = .null)
    (taken : g.takeSlot = some (i, g')) : ∃ L' U', Consistent heap (g'.linkRoot i n) L' U' := by
  unfold takeSlot at taken
  split at taken
  next j unused =>
    cases taken
    exact ⟨_, consistent.reuse free unused⟩
  next none =>
  split at taken
  next more =>
    cases taken
    exact ⟨_, _, consistent.extend free more⟩
  next full => cases taken

end

theorem Records.clear (records : Records heap g L) {z : Z}
    (outside : (g.address (.inl z)).outside = true) :
    Records heap (g.setBuffered (.inl z) ⟨.null, .black⟩) L := by
  have here : (g.setBuffered (.inl z) ⟨.null, .black⟩).buffered (.inl z) = ⟨.null, .black⟩ := by
    simp [setBuffered]
  have other : ∀ n, n ≠ .inl z →
      (g.setBuffered (.inl z) ⟨.null, .black⟩).buffered n = g.buffered n := by
    intro n different
    simp [setBuffered, update_of_ne different]
  refine ⟨?_, ?_, ?_, ?_, ?_⟩
  · intro i member
    have own := records.own i member
    refine (other _ fun same => ?_).trans own
    have same' : (g.buf i).entry = .inl z := same
    rw [address, ← same', own] at outside
    cases outside
  · intro n i tracked slot
    by_cases same : n = .inl z
    · rw [same, address, here] at slot
      cases slot
    · rw [address, other n same] at slot
      exact records.listed n i tracked slot
  · intro n
    by_cases same : n = .inl z
    · exact .inl (by rw [same, color, here])
    · rw [color, other n same]
      exact records.palette n
  · intro y noSlot
    by_cases same : (Sum.inl y : Node Z O) = .inl z
    · rw [same, color, here]
    · rw [address, other _ same] at noSlot
      rw [color, other _ same]
      exact records.idle y noSlot
  · intro handle
    exact records.objects handle

/-! ### Taking a value out of the buffer -/

/-- The removal of a root puts its slot on the `unused` list. -/
theorem Consistent.unlink (consistent : Consistent heap g L U) {n : Node Z O}
    (tracked : heap.Tracked n) (slot : g.address n = .slot i) :
    ∃ L', Consistent heap ((gcRemoveFromBuffer g (.slot i)).setBuffered n ⟨.null, .black⟩) L'
      (i :: U) := by
  obtain ⟨member, recorded⟩ := consistent.records.listed n i tracked slot
  obtain ⟨l, r, rfl⟩ := append_of_mem member
  have nodup := consistent.slots.ring.nodup
  rw [nodup_middle, nodup_cons] at nodup
  set g' := (gcRemoveFromBuffer g (.slot i)).setBuffered n ⟨.null, .black⟩ with removed
  have inside : ∀ j ∈ l ++ r, j ∈ l ++ i :: r := by
    intro j there
    simp only [mem_append, mem_cons] at there ⊢
    tauto
  have entry : ∀ j, (g'.buf j).entry = (g.buf j).entry := remove_buf_entry g (.slot i)
  have here : g'.buffered n = ⟨.null, .black⟩ := by
    simp [removed, setBuffered]
  have other : ∀ m, m ≠ n → g'.buffered m = g.buffered m := by
    intro m different
    simp [removed, setBuffered, update_of_ne different]
  -- all but the slot and its node is as it was
  refine ⟨l ++ r, consistent.slots.remove.congr rfl rfl rfl rfl, ?_, ?_, ?_⟩
  · intro j
    have first : g'.firstUnused = g.firstUnused := (frame_remove g (.slot i)).firstUnused
    rw [first, ← consistent.whole j]
    simp only [mem_append, mem_cons]
    tauto
  · have first : g'.firstUnused = g.firstUnused := (frame_remove g (.slot i)).firstUnused
    have last : g'.lastUnused = g.lastUnused := (frame_remove g (.slot i)).lastUnused
    rw [first, last]
    exact consistent.bound
  · refine ⟨?_, ?_, ?_, ?_, ?_⟩
    · intro j there
      have own := consistent.records.own j (inside j there)
      have different : (g.buf j).entry ≠ n := by
        intro eq
        rw [address, ← eq, own] at slot
        cases slot
        exact nodup.1 there
      rw [entry j, other _ different, own]
    · intro m j tracked' slot'
      by_cases same : m = n
      · subst same
        rw [address, here] at slot'
        cases slot'
      rw [address, other m same] at slot'
      obtain ⟨there, recorded'⟩ := consistent.records.listed m j tracked' slot'
      have apart : j ≠ i := by
        rintro rfl
        exact same (recorded'.symm.trans recorded)
      refine ⟨?_, by rw [entry j, recorded']⟩
      simp only [mem_append, mem_cons, apart, false_or] at there ⊢
      exact there
    · intro m
      by_cases same : m = n
      · subst same
        exact .inl (by rw [color, here])
      · rw [color, other m same]
        exact consistent.records.palette m
    · intro z noSlot
      by_cases same : Sum.inl z = n
      · subst same
        rw [color, here]
      · rw [address, other _ same] at noSlot
        rw [color, other _ same]
        exact consistent.records.idle z noSlot
    · intro handle
      by_cases same : Sum.inr handle = n
      · subst same
        rw [address, here]
        rfl
      · rw [address, other _ same]
        exact consistent.records.objects handle

end push

/-! ### A collection -/

section collection

variable [DecidableEq Z] [DecidableEq O] [Fintype Z] [Fintype O] {heap : Heap Z O}
  {g : GcState Z O} {L U : List Nat}

/-- A collection may start in a consistent state, if no zval on a list of dead ones is garbage. -/
theorem Consistent.ready (consistent : Consistent heap g L U)
    (live : ∀ z, (g.address (.inl z)).outside = true → Sum.inl z ∉ heap.garbage g L) :
    Ready heap g L U where
  __ := consistent.records
  slots := consistent.slots
  room := consistent.room
  linked n := by
    rcases (g.address n).cases_outside with null | slot | outside
    · exact .inl null
    · exact .inr (.inl slot)
    refine .inr (.inr ?_)
    cases n with
    | inl z => exact live z outside
    | inr handle =>
      rw [consistent.records.objects handle] at outside
      cases outside

/-- After the passes there are no roots. -/
theorem Passed.consistent {g' : GcState Z O} {freed : List Z} (passed : Passed heap g L U freed g')
    (consistent : Consistent heap g L U) : ∃ U', Consistent heap g' [] U' := by
  obtain ⟨U', members, slots⟩ := passed.slots
  have noSlot : ∀ n i, heap.Tracked n → g'.address n ≠ .slot i := by
    intro n i tracked slot
    by_cases member : n ∈ freed.map Sum.inl
    · obtain ⟨z, inside, rfl⟩ := mem_map.mp member
      have outside := passed.chain.outside inside
      rw [slot] at outside
      cases outside
    by_cases buffered : ∃ j, g.address n = .slot j
    · rw [passed.released n member tracked buffered] at slot
      cases slot
    · rw [passed.address n member (.inl (not_exists.mp buffered))] at slot
      exact buffered ⟨i, slot⟩
  refine ⟨U', slots, ?_, ?_, ⟨?_, ?_, passed.palette, fun z _ => passed.black z, ?_⟩⟩
  · intro i
    rw [passed.frame.firstUnused, ← consistent.whole i, nil_append, members i,
      mem_append]
  · rw [passed.frame.firstUnused, passed.frame.lastUnused]
    exact consistent.bound
  · exact fun i member => by cases member
  · exact fun n i tracked slot => absurd slot (noSlot n i tracked)
  · intro handle
    have unlisted : Sum.inr handle ∉ freed.map Sum.inl := by simp
    by_cases buffered : (∃ j, g.address (.inr handle) = .slot j) ∧ heap.Tracked (.inr handle)
    · rw [passed.released _ unlisted buffered.2 buffered.1]
      rfl
    · rw [not_and_or, not_exists] at buffered
      rw [passed.address _ unlisted buffered]
      exact consistent.records.objects handle

end collection

end Jonj.Gc
