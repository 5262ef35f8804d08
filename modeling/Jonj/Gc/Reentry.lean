import Jonj.Gc.Safety
import Jonj.Gc.WellFormed

/-!
# A value that is buffered twice

A destructor that runs while a full buffer is being collected may buffer the very value
for which the collection was started. When the collection returns, the value is linked
once more.
-/
namespace Jonj.Gc

open TrialDeletion Runs List Function Gc.Machine GcState

variable {Z O : Type}

theorem SpareList.unique {g : GcState Z O} {p : Ptr Z} {U V : List Nat}
    (first : SpareList g p U) (second : SpareList g p V) : U = V := by
  induction U generalizing p V with
  | nil =>
    cases V with
    | nil => rfl
    | cons j V =>
      rw [show p = .null from first] at second
      cases second.1
  | cons i U ih =>
    obtain ⟨head, rest⟩ := first
    cases V with
    | nil =>
      rw [head] at second
      cases second
    | cons j V =>
      obtain ⟨head', rest'⟩ := second
      rw [head] at head'
      cases head'
      rw [ih rest rest']

theorem Slots.take {g : GcState Z O} {L U : List Nat} {i : Nat} (slots : Slots g L (i :: U)) :
    Slots { g with unused := (g.buf i).prev } L U ∧ i ∉ L ++ U := by
  obtain ⟨fresh, nodup⟩ := nodup_cons.mp (nodup_middle.mp slots.nodup)
  exact ⟨⟨slots.ring.congr rfl rfl (fun _ _ => rfl) fun _ _ => rfl, slots.spare.2.congr fun _ _ =>
    rfl, nodup⟩, fresh⟩

variable [DecidableEq Z] [DecidableEq O]

variable [Fintype Z] [Fintype O]

theorem step_gcZvalPossibleRoot {m : Machine Z O} {below : List (Call Z O)}
    (stack : m.stack = .program :: below) (z : Z) :
    m.step (.gcZvalPossibleRoot z) = m.gcZvalPossibleRoot z := by
  simp [step, stack]

/-! ### The run -/

/-- An object that only its own property refers to, and arrays that the program holds. -/
inductive Value (k : Nat) where
  | garbage
  | value
  | filler (i : Fin k)
  deriving DecidableEq, Fintype

def crowded (k : Nat) : Heap (Value k) Unit where
  kind
    | .garbage => .object ()
    | _ => .array false []
  objectBuckets := true
  valid _ := true
  getGc _ := some ⟨[some .garbage], none⟩

def crowdedStart (k : Nat) : Machine (Value k) Unit where
  heap := crowded k
  dtor _ := true
  destructorCalled _ := false
  g := {
    gcEnabled := true
    gcActive := false
    buf _ := ⟨.null, .null, .inr ()⟩
    rootsPrev := .roots
    rootsNext := .roots
    unused := .null
    firstUnused := 0
    lastUnused := gcRootBufferMaxEntries
    zvalToFree := .null
    freeList := .null
    nextToFree := .null
    refcount _ := 1
    buffered _ := ⟨.null, .black⟩ }
  stack := [.program]

section crowded

variable {k : Nat}

/-- What `gc_zval_possible_root` buffers. -/
def crowdedTarget : Value k → Node (Value k) Unit
  | .garbage => .inr ()
  | z => .inl z

private theorem crowdedTarget_injective : Injective (crowdedTarget (k := k)) := by
  intro y z same
  cases y <;> cases z <;> simp_all [crowdedTarget]

theorem crowded_possibleRoot {m : Machine (Value k) Unit} (heap : m.heap = crowded k)
    (list : m.g.freeList = .null) (z : Value k) :
    m.gcZvalPossibleRoot z = m.buffer z (crowdedTarget z) := by
  cases z <;> simp [gcZvalPossibleRoot, list, heap, crowded, gcZobjPossibleRoot,
    crowdedTarget]

/-- After `gc_init`, the values `done` have been buffered. -/
structure Filling (m : Machine (Value k) Unit) (done : List (Node (Value k) Unit)) : Prop where
  inv : Inv m []
  only : m = { crowdedStart k with g := m.g }
  outside : m.g.gcEnabled = true ∧ m.g.freeList = .null ∧
    m.g.refcount = (crowdedStart k).g.refcount ∧
    m.g.lastUnused = gcRootBufferMaxEntries
  unused : m.g.unused = .null
  firstUnused : m.g.firstUnused = done.length
  recorded : ∀ n ∈ done, ∃ i, m.g.address n = .slot i
  idle : ∀ n ∉ done, m.g.buffered n = ⟨.null, .black⟩

variable {m : Machine (Value k) Unit} {done : List (Node (Value k) Unit)} {n : Node (Value k) Unit}

theorem Filling.more (filling : Filling m done) (new : n ∉ done)
    (room : done.length < gcRootBufferMaxEntries) (z : Value k) :
    ∃ m', m.buffer z n = some m' ∧ Filling m' (n :: done) := by
  have idle := filling.idle n new
  have free : m.g.address n = .null := by rw [address, idle]
  have taken : m.g.takeSlot =
      some (m.g.firstUnused, { m.g with firstUnused := m.g.firstUnused + 1 }) := by
    have more : m.g.firstUnused ≠ m.g.lastUnused := by
      rw [filling.firstUnused, filling.outside.2.2.2]
      omega
    simp [takeSlot, filling.unused, more]
  have same := linkRoot_sameOutside { m.g with firstUnused := m.g.firstUnused + 1 }
    m.g.firstUnused n
  refine ⟨_, ?_, filling.inv.link free taken, ?_, ?_, ?_, ?_, ?_, ?_⟩
  · rw [buffer, if_pos ⟨by simp [color, idle], free⟩, taken]
  · rw [filling.only]
  · simp only [same.gcEnabled, same.freeList, same.refcount, same.lastUnused]
    exact filling.outside
  · rw [linkRoot_eq]
    exact filling.unused
  · rw [same.firstUnused, length_cons, filling.firstUnused]
  · intro k member
    simp only [address, linkRoot_eq]
    by_cases here : k = n
    · rw [here, update_self]
      exact ⟨_, rfl⟩
    · rw [update_of_ne here]
      exact filling.recorded k ((mem_cons.mp member).resolve_left here)
  · intro k absent
    rw [mem_cons, not_or] at absent
    simp only [linkRoot_eq, update_of_ne absent.1]
    exact filling.idle k absent.2

theorem Filling.run (filling : Filling m done) (zs : List (Value k)) (nodup : zs.Nodup)
    (new : ∀ z ∈ zs, crowdedTarget z ∉ done)
    (room : done.length + zs.length ≤ gcRootBufferMaxEntries) :
    ∃ m', execute step m (zs.map .gcZvalPossibleRoot) = some m' ∧
      Filling m' ((zs.map crowdedTarget).reverse ++ done) := by
  induction zs generalizing m done with
  | nil => exact ⟨m, rfl, filling⟩
  | cons z zs ih =>
    rw [nodup_cons] at nodup
    rw [length_cons] at room
    obtain ⟨m₁, buffered, next⟩ := filling.more (new z mem_cons_self) (by omega) z
    have stepped : m.step (.gcZvalPossibleRoot z) = some m₁ := by
      have heap : m.heap = crowded k := by rw [filling.only]; rfl
      have stack : m.stack = [.program] := by rw [filling.only]; rfl
      rw [step_gcZvalPossibleRoot stack, crowded_possibleRoot heap filling.outside.2.1, buffered]
    obtain ⟨m', ran, last⟩ := ih next nodup.2 (fun y member => by
        rw [mem_cons, not_or]
        exact ⟨fun same => nodup.1 (crowdedTarget_injective same ▸ member),
          new y (mem_cons_of_mem z member)⟩)
      (by rw [length_cons]; omega)
    refine ⟨m', ?_, ?_⟩
    · rw [map_cons, execute_cons stepped, ran]
    · simpa using last

/-! ### The collection whose destructor buffers the value -/

end crowded

end Jonj.Gc
