import Jonj.Gc.Basic
import Jonj.Lib.DoublyLinked

/-!
# The list of roots

The roots form a circular list through `GC_G(roots)`; seen from the slots it is a
doubly linked list whose two ends point at `GC_G(roots)`.
-/
namespace Jonj.Gc

open DoublyLinked List Function

variable {Z O : Type}

/-- The slot a link points at; `none` at the end of the list. -/
def Ptr.slot? : Ptr Z → Option Nat
  | .slot i => some i
  | _ => none

def Ptr.Link (p : Ptr Z) : Prop := p = .roots ∨ ∃ i, p = .slot i

theorem Ptr.Link.roots_of_slot? {p : Ptr Z} (link : p.Link) (none : p.slot? = none) :
    p = .roots := by
  rcases link with rfl | ⟨i, rfl⟩
  · rfl
  · cases none

theorem Ptr.slot?_eq_some {p : Ptr Z} {i : Nat} : p.slot? = some i ↔ p = .slot i := by
  cases p <;> simp [Ptr.slot?]

/-! ### The link fields -/

section fields

variable [DecidableEq Z] (g : GcState Z O) (p q : Ptr Z)

theorem setPrev_eq : g.setPrev p q = { g with
      buf := fun j => { g.buf j with prev := if p = .slot j then q else (g.buf j).prev }
      rootsPrev := if p = .roots then q else g.rootsPrev } := by
  cases p with
  | slot i =>
    simp only [GcState.setPrev, Ptr.slot.injEq, reduceCtorEq, if_false]
    congr 1
    funext j
    by_cases same : i = j
    · subst same
      simp
    · simp [same, update_of_ne (Ne.symm same)]
  | _ => simp [GcState.setPrev]

theorem setNext_eq : g.setNext p q = { g with
      buf := fun j => { g.buf j with next := if p = .slot j then q else (g.buf j).next }
      rootsNext := if p = .roots then q else g.rootsNext } := by
  cases p with
  | slot i =>
    simp only [GcState.setNext, Ptr.slot.injEq, reduceCtorEq, if_false]
    congr 1
    funext j
    by_cases same : i = j
    · subst same
      simp
    · simp [same, update_of_ne (Ne.symm same)]
  | _ => simp [GcState.setNext]

end fields

/-- The fields that have to do with the root buffer. -/
structure SameButBuffer (g g' : GcState Z O) : Prop where
  rest : g' = { g with buf := g'.buf, rootsPrev := g'.rootsPrev, rootsNext := g'.rootsNext,
                       unused := g'.unused }

/-! ### Taking a slot off the list -/

section remove

variable [DecidableEq Z] (g : GcState Z O)

def Loose (g : GcState Z O) (i : Nat) : Prop := (g.buf i).next ≠ .slot i ∧ (g.buf i).prev ≠ .slot i

theorem gcRemoveFromBuffer_same (root : Ptr Z) : SameButBuffer g (gcRemoveFromBuffer g root) := by
  constructor
  simp only [gcRemoveFromBuffer, setPrev_eq, setNext_eq]

theorem remove_buf_entry (root : Ptr Z) (j : Nat) :
    ((gcRemoveFromBuffer g root).buf j).entry = (g.buf j).entry := by
  simp only [gcRemoveFromBuffer, setPrev_eq, setNext_eq]

/-- The neighbours of the slot are linked, and the slot is put on the `unused` list. -/
theorem remove_eq {g : GcState Z O} {i : Nat} : gcRemoveFromBuffer g (.slot i) = { g with
      buf := fun j => { g.buf j with
        next := if (g.buf i).prev = .slot j then (g.buf i).next else (g.buf j).next
        prev := if j = i then g.unused else if (g.buf i).next = .slot j then (g.buf i).prev
          else (g.buf j).prev }
      rootsNext := if (g.buf i).prev = .roots then (g.buf i).next else g.rootsNext
      rootsPrev := if (g.buf i).next = .roots then (g.buf i).prev else g.rootsPrev
      unused := .slot i } := by
  simp [gcRemoveFromBuffer, GcState.next, GcState.prev, setPrev_eq, setNext_eq, eq_comm (a := i)]

end remove

/-- The slots of `L` are the circular list, in order. -/
structure Ring (g : GcState Z O) (L : List Nat) : Prop where
  nodup : L.Nodup
  links : Links (fun i => (g.buf i).next.slot?) (fun i => (g.buf i).prev.slot?) L
  first : g.rootsNext.slot? = L.head?
  last : g.rootsPrev.slot? = L.getLast?
  firstLink : g.rootsNext.Link
  lastLink : g.rootsPrev.Link
  link : ∀ i ∈ L, (g.buf i).next.Link ∧ (g.buf i).prev.Link

theorem Ring.congr {g g' : GcState Z O} {L : List Nat} (ring : Ring g L)
    (next : g'.rootsNext = g.rootsNext) (prev : g'.rootsPrev = g.rootsPrev)
    (nexts : ∀ i ∈ L, (g'.buf i).next = (g.buf i).next)
    (prevs : ∀ i ∈ L, (g'.buf i).prev = (g.buf i).prev) : Ring g' L where
  nodup := ring.nodup
  links := links_congr ring.links (fun i member => by rw [nexts i member])
    (fun i member => by rw [prevs i member])
  first := next ▸ ring.first
  last := prev ▸ ring.last
  firstLink := next ▸ ring.firstLink
  lastLink := prev ▸ ring.lastLink
  link i member := by
    rw [nexts i member, prevs i member]
    exact ring.link i member

section ring

variable {g : GcState Z O} {l r : List Nat} {i : Nat}

theorem Ring.next_slot (ring : Ring g (l ++ i :: r)) : (g.buf i).next.slot? = r.head? :=
  links_next ring.links

theorem Ring.prev_slot (ring : Ring g (l ++ i :: r)) : (g.buf i).prev.slot? = l.getLast? :=
  links_prev ring.links

theorem Ring.loose (ring : Ring g (l ++ i :: r)) : Loose g i := by
  have nodup := ring.nodup
  rw [nodup_middle, nodup_cons, mem_append, not_or] at nodup
  constructor
  · intro next
    have head := ring.next_slot
    rw [next] at head
    exact nodup.1.2 (mem_of_head? head.symm)
  intro prev
  have last := ring.prev_slot
  rw [prev] at last
  exact nodup.1.1 (mem_of_getLast? last.symm)

/-- The ring without the slot. -/
theorem Ring.remove [DecidableEq Z] (ring : Ring g (l ++ i :: r)) :
    Ring (gcRemoveFromBuffer g (.slot i)) (l ++ r) := by
  have nodup := ring.nodup
  rw [nodup_middle, nodup_cons, mem_append, not_or] at nodup
  have own := ring.link i (by simp)
  have nextSlot := ring.next_slot
  have prevSlot := ring.prev_slot
  have nextRoots : (g.buf i).next = .roots ↔ r.head? = none := by
    rw [← nextSlot]
    exact ⟨fun eq => by rw [eq]; rfl, own.1.roots_of_slot?⟩
  have prevRoots : (g.buf i).prev = .roots ↔ l.getLast? = none := by
    rw [← prevSlot]
    exact ⟨fun eq => by rw [eq]; rfl, own.2.roots_of_slot?⟩
  have nextAt : ∀ j, (g.buf i).next = .slot j ↔ r.head? = some j := by
    intro j
    rw [← nextSlot, Ptr.slot?_eq_some]
  have prevAt : ∀ j, (g.buf i).prev = .slot j ↔ l.getLast? = some j := by
    intro j
    rw [← prevSlot, Ptr.slot?_eq_some]
  have apart : ∀ j ∈ l ++ r, j ≠ i := by
    rintro j member rfl
    exact (mem_append.mp member).elim nodup.1.1 nodup.1.2
  have inside : ∀ j ∈ l ++ r, j ∈ l ++ i :: r := by
    intro j member
    simp only [mem_append, mem_cons] at member ⊢
    tauto
  -- a neighbour may be `GC_G(roots)`, whose links are fields of their own
  refine ⟨nodup.2, ?_, ?_, ?_, ?_, ?_, ?_⟩
  · apply links_remove ring.links ring.nodup
    · intro j member
      simp only [remove_eq, prevAt, apply_ite Ptr.slot?, nextSlot]
    · intro j member
      simp only [remove_eq, if_neg (apart j member), nextAt, apply_ite Ptr.slot?, prevSlot]
  · rw [remove_eq]
    by_cases empty : l.getLast? = none
    · simp only [if_pos (prevRoots.mpr empty), nextSlot]
      rw [getLast?_eq_none_iff.mp empty, nil_append]
    simp only [if_neg fun eq => empty (prevRoots.mp eq), ring.first]
    cases l with
    | nil => simp at empty
    | cons a l => rfl
  · rw [remove_eq]
    by_cases empty : r.head? = none
    · simp only [if_pos (nextRoots.mpr empty), prevSlot]
      rw [head?_eq_none_iff.mp empty, append_nil]
    simp only [if_neg fun eq => empty (nextRoots.mp eq), ring.last]
    cases r with
    | nil => simp at empty
    | cons a r => simp [getLast?_append]
  · simp only [remove_eq]
    split
    · exact own.1
    · exact ring.firstLink
  · simp only [remove_eq]
    split
    · exact own.2
    · exact ring.lastLink
  · intro j member
    have before := ring.link j (inside j member)
    simp only [remove_eq, if_neg (apart j member)]
    constructor
    · split
      · exact own.1
      · exact before.1
    · split
      · exact own.2
      · exact before.2

end ring

/-! ### The unused slots -/

/-- The list that starts at `p`, linked through the `prev` fields. -/
def SpareList (g : GcState Z O) : Ptr Z → List Nat → Prop
  | p, [] => p = .null
  | p, i :: rest => p = .slot i ∧ SpareList g (g.buf i).prev rest

theorem SpareList.congr {g g' : GcState Z O} {U : List Nat} {p : Ptr Z} (spare : SpareList g p U)
    (same : ∀ i ∈ U, (g'.buf i).prev = (g.buf i).prev) : SpareList g' p U := by
  induction U generalizing p with
  | nil => exact spare
  | cons i U ih =>
    obtain ⟨head, rest⟩ := spare
    refine ⟨head, ?_⟩
    rw [same i mem_cons_self]
    exact ih rest fun j member => same j (mem_cons_of_mem i member)

/-- The two lists of the root buffer: the roots `L` and the unused slots `U`. -/
structure Slots (g : GcState Z O) (L U : List Nat) : Prop where
  ring : Ring g L
  spare : SpareList g g.unused U
  nodup : (L ++ U).Nodup

section slots

variable {g : GcState Z O} {l r L U : List Nat} {i : Nat}

theorem Slots.congr {g' : GcState Z O} (slots : Slots g L U) (buf : g'.buf = g.buf)
    (next : g'.rootsNext = g.rootsNext) (prev : g'.rootsPrev = g.rootsPrev)
    (unused : g'.unused = g.unused) : Slots g' L U where
  ring := slots.ring.congr next prev (fun _ _ => by rw [buf]) (fun _ _ => by rw [buf])
  spare := by
    rw [unused]
    exact slots.spare.congr fun _ _ => by rw [buf]
  nodup := slots.nodup

theorem Slots.setAddress [DecidableEq Z] [DecidableEq O] (slots : Slots g L U) (n : Node Z O)
    (p : Ptr Z) : Slots (g.setAddress n p) L U := slots.congr rfl rfl rfl rfl

/-- A slot that is taken off the roots is put in front of the unused ones. -/
theorem Slots.remove [DecidableEq Z] (slots : Slots g (l ++ i :: r) U) :
    Slots (gcRemoveFromBuffer g (.slot i)) (l ++ r) (i :: U) := by
  have nodup : (i :: (l ++ r ++ U)).Nodup := by
    have before := slots.nodup
    rwa [append_assoc, cons_append, nodup_middle, ← append_assoc] at before
  have apart : ∀ j ∈ U, j ∉ l ++ i :: r := fun j member inside =>
    (nodup_append'.mp slots.nodup).2.2 inside member
  refine ⟨slots.ring.remove, ⟨rfl, ?_⟩, nodup_middle.mpr nodup⟩
  simp only [remove_eq, if_true]
  refine slots.spare.congr fun j member => ?_
  -- the unused slots are neither the slot itself nor its neighbour
  have other : j ≠ i := by
    rintro rfl
    exact apart j member (by simp)
  have far : (g.buf i).next ≠ .slot j := by
    intro next
    have head := slots.ring.next_slot
    rw [next] at head
    exact apart j member (by simp [mem_of_head? head.symm])
  simp only [if_neg other, if_neg far]

end slots

/-! ### Walking the list -/

def linkTo : List Nat → Ptr Z
  | [] => .roots
  | i :: _ => .slot i

theorem link_eq_linkTo {p : Ptr Z} {L : List Nat} (link : p.Link) (head : p.slot? = L.head?) :
    p = linkTo L := by
  cases L with
  | nil => exact link.roots_of_slot? head
  | cons i L => exact Ptr.slot?_eq_some.mp head

/-- A pass over the roots. The body may take its own slot off the list; the slot
keeps its `next` link, which is where the pass goes on. -/
theorem rootsLoop_spec (body : GcState Z O → Nat → Option (GcState Z O))
    {I : GcState Z O → List Nat → Prop}
    (each : ∀ g i todo, I g (i :: todo) → ∃ g', body g i = some g' ∧
      (g'.buf i).next = linkTo todo ∧ I g' todo)
    (fuel : Nat) (todo : List Nat) (g : GcState Z O) (enough : todo.length ≤ fuel)
    (start : I g todo) : ∃ g', rootsLoop body fuel (linkTo todo) g = some g' ∧ I g' [] := by
  induction todo generalizing fuel g with
  | nil => exact ⟨g, by cases fuel <;> rfl, start⟩
  | cons i todo ih =>
    cases fuel with
    | zero => simp at enough
    | succ fuel =>
      obtain ⟨g', ran, next, rest⟩ := each g i todo start
      obtain ⟨g'', looped, final⟩ := ih fuel g' (by simpa using enough) rest
      refine ⟨g'', ?_, final⟩
      simp only [linkTo, rootsLoop, ran, Option.bind_eq_bind, Option.bind_some, next]
      exact looped

end Jonj.Gc
