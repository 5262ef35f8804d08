import Mathlib.Tactic
import Jonj.Lib.HeapOrder

/-!
# `spl_heap.c`

The array of elements with its count, and the sifts of `spl_ptr_heap_insert` and
`spl_ptr_heap_delete_top`. A comparison is a call of user code: it has a state of its own, may
answer anything and may throw.
-/
namespace Jonj.Spl

open HeapOrder Function

variable {α S : Type}

/-! ### The code -/

structure Heap (α : Type) where
  /-- The allocated memory; only the first elements are in use. -/
  elements : Nat → α
  count : Nat
  /-- An `int`. -/
  maxSize : Int
  /-- `SPL_HEAP_CORRUPTED` -/
  corrupted : Bool

def ptrHeapBlockSize : Int := 64

/-- `spl_ptr_heap_init`; the memory is not initialised. -/
def ptrHeapInit (memory : Nat → α) : Heap α := ⟨memory, 0, ptrHeapBlockSize, false⟩

/-- Whether `safe_erealloc(ptr, sizeof(void*), maxSize, sizeof(void*) * maxSize)` finds no overflow
in its `size_t` arithmetic. -/
def safeErealloc (maxSize : Int) : Bool :=
  decide (8 * (maxSize % 2 ^ 64) + 8 * maxSize % 2 ^ 64 < 2 ^ 64)

/-- The comparison, with the state of the user's code before and after it. -/
abbrev Cmp (S α : Type) := S → α → α → Int × S

variable (cmp : Cmp S α) (exception : S → Bool)

/-- The loop "sifting up": where the element belongs, and the array with the hole there. -/
def siftUp (elem : α) (s : S) (elements : Nat → α) (i : Nat) : Nat × (Nat → α) × S :=
  if 0 < i then
    let (result, s) := cmp s (elements (parent i)) elem
    if result < 0 then siftUp elem s (update elements i (elements (parent i))) (parent i)
    else (i, elements, s)
  else (i, elements, s)
termination_by i
decreasing_by exact parent_lt ‹0 < i›

/-- The size of the memory for one more element; nothing if the allocation ends in a fatal error. -/
def Heap.grownSize (heap : Heap α) : Option Int :=
  if (heap.count : Int) + 1 > heap.maxSize then
    -- we need to allocate more memory
    if safeErealloc heap.maxSize then some ((heap.maxSize * 2).bmod (2 ^ 32)) else none
  else some heap.maxSize

def ptrHeapInsert (heap : Heap α) (elem : α) (s : S) : Option (Heap α × S) :=
  heap.grownSize.map fun maxSize =>
    let (i, elements, s) := siftUp cmp elem s heap.elements heap.count
    ({ elements := update elements i elem, count := heap.count + 1, maxSize,
       corrupted := heap.corrupted || exception s }, s)

/-- The child that the loop of `spl_ptr_heap_delete_top` looks at: the left one, unless the right
one is bigger. -/
def biggerChild (elements : Nat → α) (count i : Nat) (s : S) : Nat × S :=
  let j := i * 2 + 1
  if j ≠ count then
    let (result, s) := cmp s (elements (j + 1)) (elements j)
    (if result > 0 then j + 1 else j, s)
  else (j, s)

/-- The loop of `spl_ptr_heap_delete_top`. -/
def siftDown (bottom : α) (count limit : Nat) (s : S) (elements : Nat → α) (i : Nat) :
    Nat × (Nat → α) × S :=
  if i < limit then
    let j := biggerChild cmp elements count i s
    let (result, s) := cmp j.2 bottom (elements j.1)
    -- swap elements between two levels
    if result < 0 then siftDown bottom count limit s (update elements i (elements j.1)) j.1
    else (i, elements, s)
  else (i, elements, s)
termination_by limit - i
decreasing_by
  simp only [biggerChild]
  split
  · split <;> omega
  · omega

/-- `spl_ptr_heap_delete_top`; the count is positive where `limit` is used, so that the division
is the one of naturals. -/
def ptrHeapDeleteTop (heap : Heap α) (s : S) : Option α × Heap α × S :=
  if heap.count = 0 then (none, heap, s)
  else
    let limit := (heap.count - 1) / 2
    let top := heap.elements 0
    let count := heap.count - 1
    let bottom := heap.elements count
    let (i, elements, s) := siftDown cmp bottom count limit s heap.elements 0
    (some top, { heap with
      elements := update elements i bottom, count, corrupted := heap.corrupted || exception s }, s)

/-! ### The sifts -/

/-- A sift up moves the hole, and the contents stay those with the element in it. -/
theorem siftUp_contents {n : Nat} (elem : α) (s : S) (f : Nat → α) {i : Nat} (inside : i ≤ n) :
    contents (n + 1) (update (siftUp cmp elem s f i).2.1 (siftUp cmp elem s f i).1 elem) =
      contents (n + 1) (update f i elem) := by
  fun_induction siftUp cmp elem s f i with
  | case1 s f i positive result s' compared less ih =>
    have up := parent_lt positive
    rw [ih (by omega)]
    exact contents_move f elem (by omega) (by omega) (by omega)
  | case2 => rfl
  | case3 => rfl

theorem biggerChild_cases (f : Nat → α) (m i : Nat) (s : S) :
    (biggerChild cmp f m i s).1 = i * 2 + 1 ∨ (biggerChild cmp f m i s).1 = i * 2 + 2 := by
  simp only [biggerChild]
  split
  · split
    · exact .inr rfl
    · exact .inl rfl
  · exact .inl rfl

private theorem parent_biggerChild (f : Nat → α) (m i : Nat) (s : S) :
    parent (biggerChild cmp f m i s).1 = i := by
  unfold parent
  rcases biggerChild_cases cmp f m i s with left | right <;> omega

theorem biggerChild_range (f : Nat → α) {m i : Nat} (s : S) (inside : i < m / 2) :
    i < m ∧ (biggerChild cmp f m i s).1 ≤ m ∧ i < (biggerChild cmp f m i s).1 := by
  rcases biggerChild_cases cmp f m i s with left | right <;> omega

/-- A sift down moves the hole too. The loop may select the position `m`, which still holds the
element. -/
theorem siftDown_contents {m : Nat} (bottom : α) (s : S) (f : Nat → α) (i : Nat)
    (stale : f m = bottom) :
    contents m (update (siftDown cmp bottom m (m / 2) s f i).2.1
      (siftDown cmp bottom m (m / 2) s f i).1 bottom) =
      contents m (update f i bottom) := by
  fun_induction siftDown cmp bottom m (m / 2) s f i with
  | case1 s f i inside j result s' compared less ih =>
    have range : i < m ∧ j.1 ≤ m ∧ i < j.1 := biggerChild_range cmp f s inside
    have unchanged : update f i (f j.1) m = bottom := by
      rw [update_of_ne (by omega)]
      exact stale
    rw [ih unchanged]
    by_cases last : j.1 = m
    · rw [last, contents_update_of_le _ _ (Nat.le_refl m), stale]
    · exact contents_move f bottom range.1 (by omega) (by omega)
  | case2 => rfl
  | case3 => rfl

/-! ### Consistent comparisons -/

/-- The comparison is the one of the order, whatever state it is called in. -/
structure Consistent (le : α → α → Prop) (cmp : Cmp S α) : Prop where
  neg : ∀ s a b, (cmp s a b).1 < 0 ↔ ¬ le b a
  pos : ∀ s a b, (cmp s a b).1 > 0 ↔ ¬ le a b

section Order

variable {cmp} {le : α → α → Prop} [IsTrans α le] [Std.Total le]

private theorem siftUp_rising (consistent : Consistent le cmp) {n : Nat} (elem : α) (s : S)
    (f : Nat → α) (i : Nat) (rising : Rising le n f i elem) :
    Ordered le (n + 1) (update (siftUp cmp elem s f i).2.1 (siftUp cmp elem s f i).1 elem) := by
  fun_induction siftUp cmp elem s f i with
  | case1 s f i positive result s' compared less ih =>
    apply ih
    apply rising.move positive
    have smaller := (consistent.neg s (f (parent i)) elem).mp (by rw [compared]; exact less)
    exact Std.Total.rel_of_not_rel_swap smaller
  | case2 s f i positive result s' compared notLess =>
    apply rising.place
    intro _
    by_contra bigger
    apply notLess
    have less := (consistent.neg s (f (parent i)) elem).mpr bigger
    rwa [compared] at less
  | case3 s f i root =>
    apply rising.place
    exact fun positive => absurd positive root

omit [IsTrans α le] in
private theorem le_biggerChild (consistent : Consistent le cmp) (f : Nat → α) {m i : Nat} (s : S)
    {k : Nat} (inside : i * 2 + 2 ≤ m) (positive : 0 < k) (child : parent k = i) :
    le (f k) (f (biggerChild cmp f m i s).1) := by
  have children : k = i * 2 + 1 ∨ k = i * 2 + 2 := by
    unfold parent at child
    omega
  have notLast : i * 2 + 1 ≠ m := by omega
  have pos := consistent.pos s (f (i * 2 + 2)) (f (i * 2 + 1))
  simp only [biggerChild, ne_eq, notLast, not_false_eq_true, if_true]
  split
  next right =>
    rcases children with rfl | rfl
    · exact Std.Total.rel_of_not_rel_swap (pos.mp right)
    · exact Std.Refl.refl _
  next notRight =>
  rcases children with rfl | rfl
  · exact Std.Refl.refl _
  · by_contra bigger
    exact notRight (pos.mpr bigger)

private theorem siftDown_sinking (consistent : Consistent le cmp) {m : Nat} (bottom : α) (s : S)
    (f : Nat → α) (i : Nat) (stale : f m = bottom) (sinking : Sinking le m f i bottom) :
    Ordered le m (update (siftDown cmp bottom m (m / 2) s f i).2.1
      (siftDown cmp bottom m (m / 2) s f i).1 bottom) := by
  fun_induction siftDown cmp bottom m (m / 2) s f i with
  | case1 s f i inside j result s' compared less ih =>
    have range : i < m ∧ j.1 ≤ m ∧ i < j.1 := biggerChild_range cmp f s inside
    have smaller := (consistent.neg j.2 bottom (f j.1)).mp (by rw [compared]; exact less)
    -- the stale copy is not bigger than the element itself, so it was not selected
    have notLast : j.1 ≠ m := by
      intro last
      rw [last, stale] at smaller
      exact smaller (Std.Refl.refl bottom)
    apply ih
    · rw [update_of_ne (by omega)]
      exact stale
    · have child : parent j.1 = i := parent_biggerChild cmp f m i s
      have positive : 0 < j.1 := by omega
      have below : j.1 < m := by omega
      apply sinking.move child positive below
      · intro k positive _ child
        exact le_biggerChild consistent f s (by omega) positive child
      · exact Std.Total.rel_of_not_rel_swap smaller
  | case2 s f i inside j result s' compared notLess =>
    have notBigger : le (f j.1) bottom := by
      by_contra bigger
      apply notLess
      have less := (consistent.neg j.2 bottom (f j.1)).mpr bigger
      rwa [compared] at less
    apply sinking.place
    intro k positive below child
    exact IsTrans.trans _ _ _ (le_biggerChild consistent f s (by omega) positive child) notBigger
  | case3 s f i outside =>
    apply sinking.place
    intro k positive below child
    unfold parent at child
    omega

end Order

/-! ### Sequences of calls -/

inductive Call (α : Type) where
  | insert (elem : α)
  | deleteTop

/-- A heap with the state of the user's code and the elements that `delete_top` has returned. -/
structure Run (S α : Type) where
  heap : Heap α
  state : S
  removed : List α

/-- A call; nothing if it ends in a fatal error. -/
def Run.call (r : Run S α) : Call α → Option (Run S α)
  | .insert elem =>
    (ptrHeapInsert cmp exception r.heap elem r.state).map fun next => ⟨next.1, next.2, r.removed⟩
  | .deleteTop =>
    let (top, heap, state) := ptrHeapDeleteTop cmp exception r.heap r.state
    some ⟨heap, state, r.removed ++ top.toList⟩

def inserted : List (Call α) → List α
  | [] => []
  | .insert elem :: calls => elem :: inserted calls
  | .deleteTop :: calls => inserted calls

def Heap.contents (heap : Heap α) : Multiset α := HeapOrder.contents heap.count heap.elements

variable {heap : Heap α}

private theorem ptrHeapInsert_contents {heap' : Heap α} {elem : α} {s s' : S}
    (inserted : ptrHeapInsert cmp exception heap elem s = some (heap', s')) :
    heap'.contents = heap.contents + {elem} := by
  simp only [ptrHeapInsert, Option.map_eq_some_iff, Prod.mk.injEq] at inserted
  obtain ⟨maxSize, -, rfl, -⟩ := inserted
  rw [Heap.contents, siftUp_contents cmp elem s heap.elements (Nat.le_refl heap.count),
    contents_succ,
    contents_update_of_le _ _ (Nat.le_refl _), update_self]
  rfl

private theorem ptrHeapDeleteTop_contents (heap : Heap α) (s : S) :
    (ptrHeapDeleteTop cmp exception heap s).2.1.contents +
        ((ptrHeapDeleteTop cmp exception heap s).1.toList : Multiset α) = heap.contents := by
  rw [ptrHeapDeleteTop]
  split
  next empty => exact add_zero _
  next notEmpty =>
  obtain ⟨m, count⟩ := Nat.exists_eq_succ_of_ne_zero notEmpty
  simp only [Heap.contents, count, Nat.succ_sub_one, Option.toList_some, Multiset.coe_singleton]
  rw [siftDown_contents cmp _ s heap.elements 0 rfl, contents_succ]
  by_cases last : m = 0
  · subst last
    rw [contents_update_of_le _ _ (Nat.le_refl 0)]
  · exact contents_update heap.elements (heap.elements m) (by omega)

variable {r r' : Run S α}

/-- No call loses or duplicates an element, whatever the comparison answers. -/
theorem Run.call_contents {call : Call α} (called : r.call cmp exception call = some r') :
    r'.heap.contents + (r'.removed : Multiset α) =
      r.heap.contents + (r.removed : Multiset α) + (inserted [call] : Multiset α) := by
  cases call with
  | insert elem =>
    simp only [Run.call, Option.map_eq_some_iff] at called
    obtain ⟨next, done, rfl⟩ := called
    rw [ptrHeapInsert_contents cmp exception done]
    simp only [inserted, Multiset.coe_singleton]
    ac_rfl
  | deleteTop =>
    have contents := ptrHeapDeleteTop_contents cmp exception r.heap r.state
    simp only [Run.call, Option.some.injEq] at called
    subst called
    rw [← contents, ← Multiset.coe_add]
    ac_rfl

section Order

variable {cmp} {le : α → α → Prop} [IsTrans α le] [Std.Total le]

private theorem ptrHeapInsert_ordered (consistent : Consistent le cmp) {heap' : Heap α} {elem : α}
    {s s' : S} (ordered : Ordered le heap.count heap.elements)
    (inserted : ptrHeapInsert cmp exception heap elem s = some (heap', s')) :
    Ordered le heap'.count heap'.elements := by
  simp only [ptrHeapInsert, Option.map_eq_some_iff, Prod.mk.injEq] at inserted
  obtain ⟨maxSize, -, rfl, -⟩ := inserted
  exact siftUp_rising consistent elem s heap.elements heap.count (.inl ⟨rfl, ordered⟩)

private theorem ptrHeapDeleteTop_ordered (consistent : Consistent le cmp) (s : S)
    (ordered : Ordered le heap.count heap.elements) :
    Ordered le (ptrHeapDeleteTop cmp exception heap s).2.1.count
      (ptrHeapDeleteTop cmp exception heap s).2.1.elements := by
  rw [ptrHeapDeleteTop]
  split
  next => exact ordered
  next notEmpty =>
  obtain ⟨m, count⟩ := Nat.exists_eq_succ_of_ne_zero notEmpty
  simp only [count, Nat.succ_sub_one]
  rw [count] at ordered
  apply siftDown_sinking consistent _ s heap.elements 0 rfl
  exact ⟨ordered.mono (Nat.le_succ m), fun _ => ordered.le_root (Nat.lt_succ_self m)⟩

theorem Run.call_ordered (consistent : Consistent le cmp) {call : Call α}
    (ordered : Ordered le r.heap.count r.heap.elements)
    (called : r.call cmp exception call = some r') :
    Ordered le r'.heap.count r'.heap.elements := by
  cases call with
  | insert elem =>
    simp only [Run.call, Option.map_eq_some_iff] at called
    obtain ⟨next, done, rfl⟩ := called
    exact ptrHeapInsert_ordered exception consistent ordered done
  | deleteTop =>
    simp only [Run.call, Option.some.injEq] at called
    subst called
    exact ptrHeapDeleteTop_ordered exception consistent r.state ordered

end Order

/-! ### Whole sequences -/

/-- A sequence of calls on a fresh heap. -/
def Run.calls (memory : Nat → α) (s : S) (calls : List (Call α)) : Option (Run S α) :=
  calls.foldlM (Run.call cmp exception) ⟨ptrHeapInit memory, s, []⟩

private theorem foldlM_contents {calls : List (Call α)}
    (ran : calls.foldlM (Run.call cmp exception) r = some r') :
    r'.heap.contents + (r'.removed : Multiset α) =
      r.heap.contents + (r.removed : Multiset α) + (inserted calls : Multiset α) := by
  induction calls generalizing r with
  | nil =>
    obtain rfl := Option.some.inj ran
    exact (add_zero _).symm
  | cons call calls ih =>
    rw [List.foldlM_cons, Option.bind_eq_bind, Option.bind_eq_some_iff] at ran
    obtain ⟨next, called, ran⟩ := ran
    have split : (inserted (call :: calls) : Multiset α) = (inserted [call] : Multiset α) +
        inserted calls := by
      cases call <;> rfl
    rw [ih ran, Run.call_contents cmp exception called, split, ← add_assoc]

private theorem foldlM_ordered {cmp : Cmp S α} {le : α → α → Prop} [IsTrans α le] [Std.Total le]
    (consistent : Consistent le cmp) {calls : List (Call α)}
    (ordered : Ordered le r.heap.count r.heap.elements)
    (ran : calls.foldlM (Run.call cmp exception) r = some r') :
    Ordered le r'.heap.count r'.heap.elements := by
  induction calls generalizing r with
  | nil =>
    obtain rfl := Option.some.inj ran
    exact ordered
  | cons call calls ih =>
    rw [List.foldlM_cons, Option.bind_eq_bind, Option.bind_eq_some_iff] at ran
    obtain ⟨next, called, ran⟩ := ran
    exact ih (Run.call_ordered exception consistent ordered called) ran

/-- The size of the memory is a positive `int`. -/
def Heap.Allocated (heap : Heap α) : Prop := 0 < heap.maxSize ∧ heap.maxSize < 2 ^ 31

theorem Heap.Allocated.grownSize (allocated : heap.Allocated) (room : heap.count < 2 ^ 30) :
    ∃ maxSize, heap.grownSize = some maxSize ∧ 0 < maxSize ∧ maxSize < 2 ^ 31 := by
  obtain ⟨positive, bound⟩ := allocated
  rw [Heap.grownSize]
  split
  next full =>
    have noOverflow : safeErealloc heap.maxSize = true := by
      simp only [safeErealloc, decide_eq_true_eq]
      omega
    have doubled : (heap.maxSize * 2).bmod (2 ^ 32) = heap.maxSize * 2 := by
      apply Int.bmod_eq_of_le <;> omega
    refine ⟨_, if_pos noOverflow, ?_, ?_⟩ <;> omega
  next => exact ⟨_, rfl, positive, bound⟩

private theorem foldlM_completes {calls : List (Call α)} (allocated : r.heap.Allocated)
    (room : r.heap.count + (inserted calls).length ≤ 2 ^ 30) :
    ∃ r', calls.foldlM (Run.call cmp exception) r = some r' := by
  induction calls generalizing r with
  | nil => exact ⟨r, rfl⟩
  | cons call calls ih =>
    rw [List.foldlM_cons, Option.bind_eq_bind]
    cases call with
    | insert elem =>
      simp only [inserted, List.length_cons] at room
      obtain ⟨maxSize, grown, allocated'⟩ := allocated.grownSize (by omega)
      rw [Run.call, ptrHeapInsert, grown]
      apply ih
      · exact allocated'
      · simp only
        omega
    | deleteTop =>
      simp only [inserted] at room
      have called : r.call cmp exception .deleteTop =
        some ⟨(ptrHeapDeleteTop cmp exception r.heap r.state).2.1,
          (ptrHeapDeleteTop cmp exception r.heap r.state).2.2, r.removed ++
            (ptrHeapDeleteTop cmp exception r.heap r.state).1.toList⟩ := rfl
      have unchanged : (ptrHeapDeleteTop cmp exception r.heap r.state).2.1.maxSize =
          r.heap.maxSize := by
        rw [ptrHeapDeleteTop]
        split <;> rfl
      have fewer : (ptrHeapDeleteTop cmp exception r.heap r.state).2.1.count ≤ r.heap.count := by
        rw [ptrHeapDeleteTop]
        split
        · exact Nat.le_refl _
        · exact Nat.sub_le _ _
      rw [called]
      apply ih
      · simpa only [Heap.Allocated, unchanged] using allocated
      · simp only
        omega

private theorem calls_complete (memory : Nat → α) (s : S) {calls : List (Call α)}
    (room : (inserted calls).length ≤ 2 ^ 30) :
    ∃ r, Run.calls cmp exception memory s calls = some r := by
  apply foldlM_completes
  · simp [Heap.Allocated, ptrHeapInit, ptrHeapBlockSize]
  · simpa [ptrHeapInit] using room

/-- A sequence of calls completes unless it inserts more than `2 ^ 30` elements. After it, what is
stored and what was removed are what was inserted, whatever the comparison does; if it is the
comparison of a total preorder, the array is a heap and `delete_top` returns a maximal element. -/
theorem calls_keep_heap (memory : Nat → α) (s : S) (calls : List (Call α)) :
    ((inserted calls).length ≤ 2 ^ 30 → ∃ r, Run.calls cmp exception memory s calls = some r) ∧
    ∀ r, Run.calls cmp exception memory s calls = some r →
    r.heap.contents + (r.removed : Multiset α) = (inserted calls : Multiset α) ∧
      ∀ le : α → α → Prop, IsTrans α le → Std.Total le → Consistent le cmp →
        Ordered le r.heap.count r.heap.elements ∧
          (r.heap.count ≠ 0 → ∃ top ∈ r.heap.contents,
            (ptrHeapDeleteTop cmp exception r.heap r.state).1 = some top ∧ ∀ x ∈ r.heap.contents,
              le x top) := by
  have start : (ptrHeapInit memory).contents = 0 := rfl
  refine ⟨calls_complete cmp exception memory s, fun r ran => ?_⟩
  constructor
  · have all := foldlM_contents cmp exception ran
    simpa [start] using all
  intro le transitive total consistent
  have fresh : Ordered le (ptrHeapInit memory).count (ptrHeapInit memory).elements :=
    fun i _ below => absurd below (Nat.not_lt_zero i)
  have ordered := foldlM_ordered exception consistent fresh ran
  refine ⟨ordered, fun notEmpty => ⟨r.heap.elements 0, ?_, ?_, ?_⟩⟩
  · exact mem_contents.mpr ⟨0, by omega, rfl⟩
  · simp [ptrHeapDeleteTop, notEmpty]
  · intro x member
    obtain ⟨i, below, rfl⟩ := mem_contents.mp member
    exact ordered.le_root below

/-- Three insertions and a removal of numbers. -/
theorem calls_keep_heap_numbers :
    ∃ r : Run Unit Int, Run.calls (fun _ a b => (a - b, ())) (fun _ => false) (fun _ => 0) ()
        [.insert 3, .insert 7, .deleteTop, .insert 5] = some r ∧
      r.heap.contents + (r.removed : Multiset Int) = ([3, 7, 5] : List Int) ∧
        Ordered (· ≤ ·) r.heap.count r.heap.elements := by
  obtain ⟨completes, kept⟩ := calls_keep_heap (fun _ a b => (a - b, ())) (fun _ => false)
    (fun _ => 0) ()
    [.insert 3, .insert 7, .deleteTop, .insert (5 : Int)]
  obtain ⟨r, ran⟩ := completes (by decide)
  obtain ⟨contents, order⟩ := kept r ran
  have consistent : Consistent (· ≤ ·) (fun (_ : Unit) (a b : Int) => (a - b, ())) :=
    ⟨fun _ a b => by omega, fun _ a b => by omega⟩
  exact ⟨r, ran, contents, (order _ inferInstance inferInstance consistent).1⟩

end Jonj.Spl
