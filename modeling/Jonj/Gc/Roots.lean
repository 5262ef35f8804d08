import Jonj.Gc.Buffer
import Jonj.Gc.Mark
import Jonj.Gc.Scan
import Jonj.Gc.Collect

/-!
# The passes over the roots

`gc_mark_roots` drops the roots that an earlier root has already led to; the roots
that it keeps are enough to reach everything grey. `gc_scan_roots` visits the kept
roots, `gc_collect_roots` visits them again and empties the list.
-/
namespace Jonj.Gc

open TrialDeletion List Function

variable {Z O : Type}

/-! ### What no pass writes -/

structure Frame (g g' : GcState Z O) : Prop where
  gcEnabled : g'.gcEnabled = g.gcEnabled
  gcActive : g'.gcActive = g.gcActive
  firstUnused : g'.firstUnused = g.firstUnused
  lastUnused : g'.lastUnused = g.lastUnused
  freeList : g'.freeList = g.freeList
  nextToFree : g'.nextToFree = g.nextToFree
  entry : ∀ i, (g'.buf i).entry = (g.buf i).entry

theorem Frame.refl (g : GcState Z O) : Frame g g := ⟨rfl, rfl, rfl, rfl, rfl, rfl, fun _ => rfl⟩

theorem Frame.trans {a b c : GcState Z O} (ab : Frame a b) (bc : Frame b c) : Frame a c where
  gcEnabled := bc.gcEnabled.trans ab.gcEnabled
  gcActive := bc.gcActive.trans ab.gcActive
  firstUnused := bc.firstUnused.trans ab.firstUnused
  lastUnused := bc.lastUnused.trans ab.lastUnused
  freeList := bc.freeList.trans ab.freeList
  nextToFree := bc.nextToFree.trans ab.nextToFree
  entry i := (bc.entry i).trans (ab.entry i)

variable {g' g : GcState Z O}

theorem Swept.frame (swept : Swept g g') : Frame g g' := by
  rw [swept]
  exact ⟨rfl, rfl, rfl, rfl, rfl, rfl, fun _ => rfl⟩

theorem Swept.slots {L U : List Nat} (swept : Swept g g') (slots : Slots g L U) : Slots g' L U :=
  slots.congr (congrArg GcState.buf swept :) (congrArg GcState.rootsNext swept :)
    (congrArg GcState.rootsPrev swept :) (congrArg GcState.unused swept :)

theorem Painted.toFree (painted : Painted g g') : g'.zvalToFree = g.zvalToFree :=
  (congrArg GcState.zvalToFree painted.rest :)

theorem Painted.swept (painted : Painted g g') : Swept g g' := by
  have toFree := painted.toFree
  unfold Swept
  rw [toFree]
  exact painted.rest

theorem frame_setAddress [DecidableEq Z] [DecidableEq O] (g : GcState Z O) (n : Node Z O)
    (p : Ptr Z) : Frame g (g.setAddress n p) := ⟨rfl, rfl, rfl, rfl, rfl, rfl, fun _ => rfl⟩

section remove

variable [DecidableEq Z] (g : GcState Z O) (root : Ptr Z)

theorem frame_remove : Frame g (gcRemoveFromBuffer g root) := by
  have entry := remove_buf_entry g root
  rw [(gcRemoveFromBuffer_same g root).rest] at entry ⊢
  exact ⟨rfl, rfl, rfl, rfl, rfl, rfl, entry⟩

@[simp] theorem remove_refcount : (gcRemoveFromBuffer g root).refcount = g.refcount :=
  (congrArg GcState.refcount (gcRemoveFromBuffer_same g root).rest :)

@[simp] theorem remove_buffered : (gcRemoveFromBuffer g root).buffered = g.buffered :=
  (congrArg GcState.buffered (gcRemoveFromBuffer_same g root).rest :)

@[simp] theorem remove_color : (gcRemoveFromBuffer g root).color = g.color :=
  (congrArg GcState.color (gcRemoveFromBuffer_same g root).rest :)

@[simp] theorem remove_address : (gcRemoveFromBuffer g root).address = g.address :=
  (congrArg GcState.address (gcRemoveFromBuffer_same g root).rest :)

theorem remove_zvalToFree : (gcRemoveFromBuffer g root).zvalToFree = g.zvalToFree :=
  (congrArg GcState.zvalToFree (gcRemoveFromBuffer_same g root).rest :)

end remove

theorem Slots.next {l todo U : List Nat} {i : Nat} (slots : Slots g (l ++ i :: todo) U) :
    (g.buf i).next = linkTo todo :=
  link_eq_linkTo (slots.ring.link i (by simp)).1 slots.ring.next_slot

/-- The loop reads `next` of the root after the removal has put the slot on the `unused` list. -/
theorem Slots.next_remove [DecidableEq Z] {l todo U : List Nat} {i : Nat}
    (slots : Slots g (l ++ i :: todo) U) :
    ((gcRemoveFromBuffer g (.slot i)).buf i).next = linkTo todo := by
  simp only [remove_eq, if_neg slots.ring.loose.2]
  exact slots.next

/-! ### `gc_mark_roots` -/

/-- Objects take part only while there is an objects store. -/
def Heap.Tracked (heap : Heap Z O) : Node Z O → Prop
  | .inl _ => True
  | .inr _ => heap.objectBuckets = true

def Heap.Roots (heap : Heap Z O) (g : GcState Z O) (L : List Nat) (n : Node Z O) : Prop :=
  ∃ i ∈ L, (g.buf i).entry = n ∧ heap.Tracked n

variable {depth : Nat}

section mark

variable [DecidableEq Z] [DecidableEq O] [Fintype Z] [Fintype O] (heap : Heap Z O)
  (g₀ : GcState Z O) (L U kept dropped todo : List Nat) (g : GcState Z O)

/-- The mark pass, started in `g₀`, with the roots of `todo` still to come. -/
structure MarkedRoots : Prop where
  inv : MarkInv heap.graph g₀.refcount g₀.color (heap.Roots g₀ kept) g.refcount g.color [] none
  slots : Slots g (kept ++ todo) (dropped ++ U)
  frame : Frame g₀ g
  toFree : g.zvalToFree = g₀.zvalToFree
  members : ∀ i, i ∈ L ↔ i ∈ kept ∨ i ∈ dropped ∨ i ∈ todo
  marked : ∀ i, i ∈ kept ∨ i ∈ dropped → heap.Tracked (g₀.buf i).entry →
    heap.graph.Marked g.color (g₀.buf i).entry
  tracked : ∀ i ∈ dropped, heap.Tracked (g₀.buf i).entry
  away : ∀ i ∈ dropped, g.address (g₀.buf i).entry = .null
  home : ∀ n, (∀ i ∈ dropped, (g₀.buf i).entry ≠ n) → g.address n = g₀.address n

variable {heap g₀ L U kept dropped todo g} {i : Nat}

section

variable (now : MarkedRoots heap g₀ L U kept dropped (i :: todo) g)

include now

/-- A root that is kept: it is marked by the visit, unless it is an object without a
store. -/
theorem MarkedRoots.keep (painted : Painted g g')
    (more : MoreMarked heap g g') (visited : heap.Tracked (g₀.buf i).entry →
      heap.graph.Marked g'.color (g₀.buf i).entry)
    (inv : MarkInv heap.graph g₀.refcount g₀.color (heap.Roots g₀ (kept ++ [i])) g'.refcount
      g'.color [] none) :
    MarkedRoots heap g₀ L U (kept ++ [i]) dropped todo g' where
  inv := inv
  slots := by
    rw [append_assoc]
    exact painted.swept.slots now.slots
  frame := now.frame.trans painted.swept.frame
  toFree := painted.toFree.trans now.toFree
  members j := by
    rw [now.members j]
    simp only [mem_append, mem_cons, not_mem_nil]
    tauto
  marked j done tracked := by
    simp only [mem_append, mem_singleton] at done
    rcases done with (old | rfl) | old
    · exact more _ (now.marked j (.inl old) tracked)
    · exact visited tracked
    · exact more _ (now.marked j (.inr old) tracked)
  tracked := now.tracked
  away j member := by
    rw [painted.address]
    exact now.away j member
  home n other := by
    rw [painted.address]
    exact now.home n other

/-- A root that is marked already is let go. -/
theorem MarkedRoots.drop (tracked : heap.Tracked (g₀.buf i).entry)
    (done : heap.graph.Marked g.color (g₀.buf i).entry) :
    MarkedRoots heap g₀ L U kept (i :: dropped) todo
      (gcRemoveFromBuffer (g.setAddress (g₀.buf i).entry .null) (.slot i)) where
  inv := by
    rw [remove_refcount, remove_color, setAddress_color]
    exact now.inv
  slots := (now.slots.setAddress _ _).remove
  frame := now.frame.trans ((frame_setAddress g _ _).trans (frame_remove _ (.slot i)))
  toFree := (remove_zvalToFree ..).trans now.toFree
  members j := by
    rw [now.members j]
    simp only [mem_cons]
    tauto
  marked j member tracked' := by
    rw [remove_color, setAddress_color]
    simp only [mem_cons] at member
    rcases member with old | rfl | old
    · exact now.marked j (.inl old) tracked'
    · exact done
    · exact now.marked j (.inr old) tracked'
  tracked j member := by
    rcases mem_cons.mp member with rfl | old
    · exact tracked
    · exact now.tracked j old
  away j member := by
    rw [remove_address, setAddress_address]
    by_cases same : (g₀.buf j).entry = (g₀.buf i).entry
    · rw [same, update_self]
    rw [update_of_ne same]
    rcases mem_cons.mp member with rfl | old
    · exact absurd rfl same
    · exact now.away j old
  home n other := by
    rw [remove_address, setAddress_address, update_of_ne
      (Ne.symm (other i mem_cons_self))]
    exact now.home n fun j member => other j (mem_cons_of_mem i member)

theorem MarkedRoots.root (tracked : heap.Tracked (g₀.buf i).entry) :
    MarkInv heap.graph g₀.refcount g₀.color (heap.Roots g₀ (kept ++ [i])) g.refcount g.color []
      (some (g₀.buf i).entry) := by
  refine (now.inv.mono_root ?_).root ⟨i, by simp, rfl, tracked⟩
  rintro r ⟨j, member, recorded⟩
  exact ⟨j, by simp [member], recorded⟩

/-- A root that has lost its purple was reached from another one. -/
theorem MarkedRoots.not_purple (purple : g₀.color (g₀.buf i).entry = .purple)
    (other : g.color (g₀.buf i).entry ≠ .purple) :
    heap.graph.Marked g.color (g₀.buf i).entry := by
  by_cases grey : g.color (g₀.buf i).entry = .grey
  · exact .inl grey
  · rcases now.inv.kept _ grey with same | black
    · exact absurd (same.trans purple) other
    · exact .inr black

end

/-- One turn of `gc_mark_roots`. -/
theorem markRoot_spec (deep : Fintype.card Z < depth)
    (purple : ∀ i ∈ L, g₀.color (g₀.buf i).entry = .purple)
    (now : MarkedRoots heap g₀ L U kept dropped (i :: todo) g) :
    ∃ g', markRoot heap depth g i = some g' ∧ (g'.buf i).next = linkTo todo ∧
      ∃ kept' dropped', MarkedRoots heap g₀ L U kept' dropped' todo g' := by
  have wasPurple := purple i ((now.members i).mpr (by simp))
  have room : (g.zvals notGrey).card < depth := (Finset.card_le_univ _).trans_lt deep
  have kept_next : ∀ {g'}, Painted g g' → (g'.buf i).next = linkTo todo := fun painted =>
    (painted.swept.slots now.slots).next
  have dropped_next : ((gcRemoveFromBuffer (g.setAddress (g₀.buf i).entry .null)
      (.slot i)).buf i).next = linkTo todo :=
    (now.slots.setAddress _ _).next_remove
  have recorded := now.frame.entry i
  unfold markRoot
  cases entry : (g.buf i).entry with
  | inr handle =>
    rw [entry] at recorded
    simp only
    split
    next store =>
      have tracked : heap.Tracked (g₀.buf i).entry := by
        rw [← recorded]
        exact store
      split
      next isPurple =>
        have due := now.root tracked
        rw [← recorded] at due
        obtain ⟨g', called, painted, more, marked, _, inv⟩ :=
          markObject (zvalMarkGrey_spec depth) store room due
        rw [recorded] at marked
        exact ⟨g', called, kept_next painted, _, _, now.keep painted more (fun _ => marked) inv⟩
      next notPurple =>
        rw [recorded] at notPurple ⊢
        exact ⟨_, rfl, dropped_next, _, _, now.drop tracked (now.not_purple wasPurple notPurple)⟩
    next noStore =>
      have untracked : ¬ heap.Tracked (g₀.buf i).entry := by
        rw [← recorded]
        exact noStore
      refine ⟨g, rfl, kept_next (Painted.refl g), _, _, now.keep (Painted.refl g) (fun _ => id)
        (fun tracked => absurd tracked untracked) (now.inv.mono_root ?_)⟩
      rintro r ⟨j, member, rest⟩
      exact ⟨j, by simp [member], rest⟩
  | inl pz =>
    rw [entry] at recorded
    have tracked : heap.Tracked (g₀.buf i).entry := by
      rw [← recorded]
      trivial
    simp only
    split
    next isPurple =>
      have due := now.root tracked
      rw [← recorded] at due
      obtain ⟨g', called, painted, more, marked, _, inv⟩ := zvalMarkGrey_spec depth g pz [] room due
      rw [recorded] at marked
      exact ⟨g', called, kept_next painted, _, _, now.keep painted more (fun _ => marked) inv⟩
    next notPurple =>
      rw [recorded] at notPurple ⊢
      exact ⟨_, rfl, dropped_next, _, _, now.drop tracked (now.not_purple wasPurple notPurple)⟩

private theorem markedRoots_start (slots : Slots g₀ L U) (noGrey : ∀ n, g₀.color n ≠ .grey) :
    MarkedRoots heap g₀ L U [] [] L g₀ where
  inv := by
    have none : colored g₀.color .grey = ∅ := by
      ext n
      simp [noGrey n]
    refine ⟨?_, ?_, ?_, ?_, ?_⟩
    · rw [none]
      simp [Graph.edgesFrom]
    · exact fun u grey => absurd grey (noGrey u)
    · rintro v (grey | member | due)
      · exact absurd grey (noGrey v)
      · cases member
      · cases due
    · exact fun v _ => .inl rfl
    · exact fun v _ => ⟨noGrey v, rfl⟩
  slots := slots
  frame := Frame.refl g₀
  toFree := rfl
  members i := by simp
  marked i member := by simp at member
  tracked i member := by cases member
  away i member := by cases member
  home n _ := rfl

/-- `gc_mark_roots` ends, and every root is kept and marked or let go. -/
theorem gcMarkRoots_spec (deep : Fintype.card Z < depth) (slots : Slots g₀ L U)
    (room : L.length ≤ g₀.lastUnused) (purple : ∀ i ∈ L, g₀.color (g₀.buf i).entry = .purple)
    (noGrey : ∀ n, g₀.color n ≠ .grey) :
    ∃ g, gcMarkRoots heap depth g₀ = some g ∧ ∃ kept dropped,
      MarkedRoots heap g₀ L U kept dropped [] g := by
  have first : g₀.rootsNext = linkTo L := link_eq_linkTo slots.ring.firstLink slots.ring.first
  unfold gcMarkRoots
  rw [first]
  refine rootsLoop_spec (markRoot heap depth) (I := fun g todo =>
    ∃ kept dropped, MarkedRoots heap g₀ L U kept dropped todo g) ?_ _ L g₀ room
    ⟨[], [], markedRoots_start slots noGrey⟩
  rintro g i todo ⟨kept, dropped, now⟩
  exact markRoot_spec deep purple now

end mark

/-! ### `gc_scan_roots` -/

section scan

variable [DecidableEq Z] [DecidableEq O] (heap : Heap Z O) (rcM : Node Z O → BitVec 32)
    (colorM : Node Z O → Color) (area : Finset (Node Z O)) (g₀ : GcState Z O) (done : List Nat)
    (g : GcState Z O)

/-- The scan pass, started in `g₀`. -/
structure ScannedRoots : Prop where
  inv : ScanInv heap.graph rcM colorM area g.refcount g.color [] [] none none
  painted : Painted g₀ g
  settled : ∀ i ∈ done, heap.Tracked (g₀.buf i).entry → g.color (g₀.buf i).entry ≠ .grey

variable {heap rcM colorM area g₀ done g} {L U todo : List Nat} {i : Nat}

theorem ScannedRoots.visit (now : ScannedRoots heap rcM colorM area g₀ done g)
    (scanned : ScannedTo heap rcM colorM area [] (g₀.buf i).entry g g') :
    ScannedRoots heap rcM colorM area g₀ (done ++ [i]) g' where
  inv := scanned.inv
  painted := now.painted.trans scanned.painted
  settled j member tracked := by
    rcases mem_append.mp member with old | new
    · exact fun grey => now.settled j old tracked (scanned.greys _ grey)
    · rw [mem_singleton.mp new]
      exact scanned.settled

variable [Fintype Z]

/-- One turn of `gc_scan_roots`. -/
theorem scanRoot_spec (deep : Fintype.card Z < depth)
    (now : ScannedRoots heap rcM colorM area g₀ done g) :
    ∃ g', scanRoot heap depth g i = some g' ∧
      ScannedRoots heap rcM colorM area g₀ (done ++ [i]) g' := by
  have recorded := now.painted.swept.frame.entry i
  unfold scanRoot
  cases entry : (g.buf i).entry with
  | inr handle =>
    rw [entry] at recorded
    simp only
    by_cases store : heap.objectBuckets = true
    · obtain ⟨g', called, scanned⟩ := zobjScan_spec deep store (now.inv.scan (.inr handle))
      rw [recorded] at scanned
      exact ⟨g', called, now.visit scanned⟩
    refine ⟨g, by rw [zobjScan, if_neg store], now.inv, now.painted, ?_⟩
    intro j member tracked
    rcases mem_append.mp member with old | new
    · exact now.settled j old tracked
    · rw [mem_singleton.mp new, ← recorded] at tracked
      exact absurd tracked store
  | inl pz =>
    rw [entry] at recorded
    obtain ⟨g', called, scanned⟩ := zvalScan_spec deep depth g pz []
      ((Finset.card_le_univ _).trans_lt deep) (now.inv.scan (.inl pz))
    rw [recorded] at scanned
    exact ⟨g', called, now.visit scanned⟩

/-- `gc_scan_roots` ends with every root scanned. -/
theorem gcScanRoots_spec (deep : Fintype.card Z < depth) (slots : Slots g₀ L U)
    (room : L.length ≤ g₀.lastUnused)
    (inv : ScanInv heap.graph rcM colorM area g₀.refcount g₀.color [] [] none none) :
    ∃ g, gcScanRoots heap depth g₀ = some g ∧ ScannedRoots heap rcM colorM area g₀ L g := by
  have first : g₀.rootsNext = linkTo L := link_eq_linkTo slots.ring.firstLink slots.ring.first
  unfold gcScanRoots
  rw [first]
  obtain ⟨g, looped, done, whole, final⟩ := rootsLoop_spec (scanRoot heap depth)
    (I := fun g todo => ∃ done, done ++ todo = L ∧ ScannedRoots heap rcM colorM area g₀ done g)
    (by
      rintro g i todo ⟨done, whole, now⟩
      obtain ⟨g', called, after⟩ := scanRoot_spec (i := i) deep now
      refine ⟨g', called, ?_, done ++ [i], by simpa using whole, after⟩
      subst whole
      exact (after.painted.swept.slots slots).next)
    g₀.lastUnused L g₀ room
    ⟨[], rfl, inv, Painted.refl g₀, fun _ member => by cases member⟩
  rw [append_nil] at whole
  subst whole
  exact ⟨g, looped, final⟩

end scan

/-! ### `gc_collect_roots` -/

section collect

variable [DecidableEq Z] [DecidableEq O] (heap : Heap Z O) (rcS : Node Z O → BitVec 32)
    (whites : Finset (Node Z O)) (g₀ : GcState Z O) (U done todo : List Nat) (g : GcState Z O)
    (base : Node Z O → Tagged Z) (freed : List Z)

/-- The collect pass, started in `g₀`. The roots of `done` have been let go. -/
structure CollectedRoots : Prop where
  now : Collecting heap rcS whites base g freed [] none
  slots : Slots g todo (done ++ U)
  frame : Frame g₀ g
  color : ∀ n, (base n).color = g₀.color n
  home : ∀ n, (∀ i ∈ done, (g₀.buf i).entry = n → ¬ heap.Tracked n) →
    (base n).addr = g₀.address n
  away : ∀ i ∈ done, heap.Tracked (g₀.buf i).entry → (base (g₀.buf i).entry).addr = .null
  taken : ∀ i ∈ done, heap.Tracked (g₀.buf i).entry → g.color (g₀.buf i).entry ≠ .white

variable {heap rcS whites g₀ U done todo g base freed} {L : List Nat} {i : Nat}

/-- The slot of the root is freed before the root is visited. -/
theorem CollectedRoots.release
    (before : CollectedRoots heap rcS whites g₀ U done (i :: todo) g base freed)
    (own : g₀.address (g₀.buf i).entry = .slot i)
    (apart : ∀ j ∈ done, (g₀.buf j).entry ≠ (g₀.buf i).entry) :
    Collecting heap rcS whites (update base (g₀.buf i).entry
      { base (g₀.buf i).entry with addr := .null })
      (g.setAddress (g₀.buf i).entry .null) freed [] (some (g₀.buf i).entry) := by
  refine before.now.release ?_
  rw [before.home _ fun j member same => absurd same (apart j member), own]
  simp

theorem CollectedRoots.visit {freed' : List Z} {h : GcState Z O}
    (before : CollectedRoots heap rcS whites g₀ U done (i :: todo) g base freed)
    (now : Collecting heap rcS whites
      (update base (g₀.buf i).entry { base (g₀.buf i).entry with addr := .null })
      h freed' [] none)
    (tracked : heap.Tracked (g₀.buf i).entry)
    (swept : Swept (g.setAddress (g₀.buf i).entry .null) h)
    (fewer : Fewer .white (g.setAddress (g₀.buf i).entry .null) h)
    (taken : h.color (g₀.buf i).entry ≠ .white) :
    CollectedRoots heap rcS whites g₀ U (i :: done) todo (gcRemoveFromBuffer h (.slot i))
      (update base (g₀.buf i).entry { base (g₀.buf i).entry with addr := .null })
      freed' where
  now := now.congr (remove_refcount ..) (remove_buffered ..) (remove_zvalToFree ..)
  slots := Slots.remove (l := []) (swept.slots (before.slots.setAddress _ _))
  frame := before.frame.trans ((frame_setAddress g _ _).trans
    (swept.frame.trans (frame_remove h (.slot i))))
  color n := by
    rw [← before.color n]
    by_cases same : n = (g₀.buf i).entry
    · rw [same, update_self]
    · rw [update_of_ne same]
  home n other := by
    by_cases same : n = (g₀.buf i).entry
    · rw [same] at other
      exact absurd tracked (other i mem_cons_self rfl)
    · rw [update_of_ne same]
      exact before.home n fun j member => other j (mem_cons_of_mem i member)
  away j member tracked' := by
    by_cases same : (g₀.buf j).entry = (g₀.buf i).entry
    · rw [same, update_self]
    rw [update_of_ne same]
    rcases mem_cons.mp member with rfl | old
    · exact absurd rfl same
    · exact before.away j old tracked'
  taken j member tracked' := by
    rw [remove_color]
    rcases mem_cons.mp member with rfl | old
    · exact taken
    intro white
    have earlier := fewer _ white
    rw [setAddress_color] at earlier
    exact before.taken j old tracked' earlier

theorem CollectedRoots.pass
    (before : CollectedRoots heap rcS whites g₀ U done (i :: todo) g base freed)
    (untracked : ¬ heap.Tracked (g₀.buf i).entry) :
    CollectedRoots heap rcS whites g₀ U (i :: done) todo (gcRemoveFromBuffer g (.slot i))
      base freed where
  now := before.now.congr (remove_refcount ..) (remove_buffered ..) (remove_zvalToFree ..)
  slots := Slots.remove (l := []) before.slots
  frame := before.frame.trans (frame_remove g (.slot i))
  color := before.color
  home n other := before.home n fun j member => other j (mem_cons_of_mem i member)
  away j member tracked := by
    rcases mem_cons.mp member with rfl | old
    · exact absurd tracked untracked
    · exact before.away j old tracked
  taken j member tracked := by
    rw [remove_color]
    rcases mem_cons.mp member with rfl | old
    · exact absurd tracked untracked
    · exact before.taken j old tracked

variable [Fintype Z]

/-- One turn of `gc_collect_roots`. -/
theorem collectRoot_spec (deep : Fintype.card Z < depth)
    (before : CollectedRoots heap rcS whites g₀ U done (i :: todo) g base freed)
    (own : g₀.address (g₀.buf i).entry = .slot i)
    (apart : ∀ j ∈ done, (g₀.buf j).entry ≠ (g₀.buf i).entry) :
    ∃ g', collectRoot heap depth g i = some g' ∧ (g'.buf i).next = linkTo todo ∧
      ∃ base' freed', CollectedRoots heap rcS whites g₀ U (i :: done) todo g' base' freed' := by
  have recorded := before.frame.entry i
  have released := before.release own apart
  have null : (g.setAddress (g₀.buf i).entry .null).address (g₀.buf i).entry = .null := by
    rw [setAddress_address, update_self]
  have room : ((g.setAddress (g₀.buf i).entry .null).zvals (isColor .white)).card < depth :=
    (Finset.card_le_univ _).trans_lt deep
  -- what is left to do once the visit of the node is known to be right
  have conclude : ∀ {h}, heap.Tracked (g₀.buf i).entry →
      CollectedTo heap rcS whites
        (update base (g₀.buf i).entry { base (g₀.buf i).entry with addr := .null }) []
        (g.setAddress (g₀.buf i).entry .null) h →
      Takes (g₀.buf i).entry (g.setAddress (g₀.buf i).entry .null) h →
      ((gcRemoveFromBuffer h (.slot i)).buf i).next = linkTo todo ∧ ∃ base' freed',
        CollectedRoots heap rcS whites g₀ U (i :: done) todo (gcRemoveFromBuffer h (.slot i))
          base' freed' := by
    intro h tracked visited takes
    obtain ⟨list, now⟩ := visited.now
    refine ⟨?_, _, list, before.visit now tracked visited.swept visited.fewer (takes null)⟩
    exact Slots.next_remove (l := []) (visited.swept.slots (before.slots.setAddress _ _))
  unfold collectRoot
  cases entry : (g.buf i).entry with
  | inr handle =>
    rw [entry] at recorded
    rw [← recorded] at released room conclude
    by_cases store : heap.objectBuckets = true
    · obtain ⟨h, called, visited, takes⟩ :=
        zobjCollectWhite_spec (zvalCollectWhite_spec depth) store room released
      refine ⟨_, ?_, conclude store visited takes⟩
      simp [if_pos store, called]
    refine ⟨gcRemoveFromBuffer g (.slot i), ?_, Slots.next_remove (l := []) before.slots, base,
      freed, before.pass ?_⟩
    · simp [if_neg store]
    · rw [← recorded]
      exact store
  | inl pz =>
    rw [entry] at recorded
    rw [← recorded] at released room conclude
    obtain ⟨h, called, visited, takes⟩ := zvalCollectWhite_spec depth _ pz freed [] room released
    refine ⟨_, ?_, conclude trivial visited takes⟩
    simp [called]

/-- `gc_collect_roots` ends without roots; the white nodes have been taken. -/
theorem gcCollectRoots_spec (deep : Fintype.card Z < depth) (slots : Slots g₀ L U)
    (room : L.length ≤ g₀.lastUnused) (own : ∀ i ∈ L, g₀.address (g₀.buf i).entry = .slot i)
    (white : ∀ n, g₀.color n = .white ↔ n ∈ whites)
    (active : ∀ n ∈ whites, heap.graph.inert n = false) (list : g₀.zvalToFree = .freeListEnd) :
    ∃ g, gcCollectRoots heap depth g₀ = some g ∧ ∃ done base freed, (∀ i, i ∈ done ↔ i ∈ L) ∧
      CollectedRoots heap g₀.refcount whites g₀ U done [] g base freed := by
  have first : g₀.rootsNext = linkTo L := link_eq_linkTo slots.ring.firstLink slots.ring.first
  have none : taken whites g₀ = ∅ := by
    ext n
    simp [mem_taken, ← white]
  unfold gcCollectRoots
  rw [first]
  obtain ⟨g, looped, done, base, freed, whole, final⟩ := rootsLoop_spec (collectRoot heap depth)
    (I := fun g todo => ∃ done base freed, (∀ i, i ∈ L ↔ i ∈ done ∨ i ∈ todo) ∧
      CollectedRoots heap g₀.refcount whites g₀ U done todo g base freed)
    (by
      rintro g i todo ⟨done, base, freed, whole, before⟩
      have here : i ∈ L := (whole i).mpr (by simp)
      have apart : ∀ j ∈ done, (g₀.buf j).entry ≠ (g₀.buf i).entry := by
        intro j member same
        have atJ := own j ((whole j).mpr (.inl member))
        rw [same, own i here] at atJ
        cases atJ
        have nodup := before.slots.nodup
        simp [member] at nodup
      obtain ⟨g', called, next, base', freed', after⟩ :=
        collectRoot_spec deep before (own i here) apart
      refine ⟨g', called, next, i :: done, base', freed', fun j => ?_, after⟩
      rw [whole j]
      simp only [mem_cons]
      tauto)
    g₀.lastUnused L g₀ room
    ⟨[], g₀.buffered, [], by simp,
      ⟨⟨active, by rw [none]; simp, fun v _ _ => by rw [none]; simp [Graph.edgesFrom],
        fun _ _ => rfl, fun v => by rw [none]; simp, fun u member => by simp [none] at member⟩,
        list, fun _ _ => rfl, white, fun n member => by simp [none] at member,
        fun handle member => by simp [none] at member⟩,
      slots, Frame.refl g₀, fun _ => rfl, fun _ _ => rfl, by simp, by simp⟩
  exact ⟨g, looped, done, base, freed, fun i => by simp [whole i], final⟩

end collect

end Jonj.Gc
