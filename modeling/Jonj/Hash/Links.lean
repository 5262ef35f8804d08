import Jonj.Hash.Invariant

/-!
# Pointer surgery

What the linking, resizing and unlinking code does to a well-formed table. Each
result also says which cells stay as they were, since several tables share the
memory.
-/
namespace Jonj.Hash

open DoublyLinked List

variable {α : Type}

/-- Tables that differ at most in their slot heads. -/
def SameButSlots (ht ht' : HashTable) : Prop := ht' = { ht with arBuckets := ht'.arBuckets }

/-! ### Linking into the order list -/

section connectEx

variable (mem : Mem α) (ht : HashTable) (q : Addr) (last next : Option Addr)

theorem connectEx_cells (x : Addr) :
    (connectToGlobalDllistEx mem ht q last next).1.cells x = { mem.cells x with
      pListNext := if last = some x then some q else if x = q then next else (mem.cells x).pListNext
      pListLast := if next = some x then some q else if x = q then last
        else (mem.cells x).pListLast } := by
  simp only [connectToGlobalDllistEx, modify?_cells, modify_cells, if_true]
  split_ifs <;> simp_all

theorem connectEx_ht : (connectToGlobalDllistEx mem ht q last next).2 = { ht with
        pListHead := if last = none then some q else ht.pListHead
        pListTail := if next = none then some q else ht.pListTail } := by
  unfold connectToGlobalDllistEx
  by_cases first : last = none <;> by_cases final : next = none <;> simp [first, final]

private theorem connectEx_sameCores :
    SameCores mem (connectToGlobalDllistEx mem ht q last next).1 := by
  refine (((SameCores.modify ?_).trans (SameCores.modify ?_)).trans (SameCores.modify? ?_)).trans
    (SameCores.modify? ?_)
  all_goals exact fun _ => rfl

private theorem connectEx_outside {x : Addr} (other : x ≠ q) (notLast : last ≠ some x)
    (notNext : next ≠ some x) :
    (connectToGlobalDllistEx mem ht q last next).1.cells x = mem.cells x := by
  simp only [connectEx_cells, if_neg notLast, if_neg notNext, if_neg other]

end connectEx

private theorem ordered_connect {mem mem₀ : Mem α} {ht : HashTable} {l mid r : List Addr} {q : Addr}
    (ordered : Ordered mem₀ ht (l ++ (mid ++ r))) (new : q ∉ l ++ r)
    (next : ∀ x ∈ l ++ r, (mem.cells x).pListNext = (mem₀.cells x).pListNext)
    (last : ∀ x ∈ l ++ r, (mem.cells x).pListLast = (mem₀.cells x).pListLast)
    {out : Mem α × HashTable}
    (returned : out = connectToGlobalDllistEx mem ht q l.getLast? r.head?) :
    Ordered out.1 out.2 (l ++ q :: r) := by
  have nodup : (l ++ r).Nodup := ordered.nodup.sublist
    ((Sublist.refl l).append (sublist_append_right mid r))
  have notLast : l.getLast? ≠ some q := fun isLast =>
    new (mem_append_left _ (mem_of_getLast? isLast))
  have notHead : r.head? ≠ some q := fun isHead => new (mem_append_right _ (mem_of_head? isHead))
  have other : ∀ x ∈ l ++ r, x ≠ q := fun x member same => new (same ▸ member)
  subst returned
  refine ⟨?_, ?_, ?_, ?_⟩
  · rw [nodup_middle, nodup_cons]
    exact ⟨new, nodup⟩
  · rw [connectEx_ht]
    have head := ordered.head
    cases l with
    | nil => rfl
    | cons a l => exact head
  · rw [connectEx_ht]
    have tail := ordered.tail
    cases r with
    | nil => simp
    | cons b r =>
      have final := getLast?_eq_some_getLast (cons_ne_nil b r)
      rw [tail, getLast?_append, getLast?_append, getLast?_append, final]
      rfl
  · apply links_between ordered.links nodup
    · simp [connectEx_cells, if_neg notLast]
    · simp [connectEx_cells, if_neg notHead]
    · exact fun x member => by simp only [connectEx_cells, if_neg (other x member), next x member]
    · exact fun x member => by simp only [connectEx_cells, if_neg (other x member), last x member]

section connectGlobal

variable (mem : Mem α) (ht : HashTable) (p : Addr)

private theorem connectGlobal_mem :
    (connectToGlobalDllist mem ht p).1 = (connectToGlobalDllistEx mem ht p ht.pListTail none).1 :=
  rfl

theorem connectGlobal_ht : (connectToGlobalDllist mem ht p).2 = { ht with
        pListHead := if ht.pListTail = none then some p else ht.pListHead
        pListTail := some p
        pInternalPointer :=
          if ht.pInternalPointer = none then some p else ht.pInternalPointer } := by
  simp only [connectToGlobalDllist, connectToGlobalDllistEx, if_true]
  split_ifs <;> simp_all

private theorem connectGlobal_sameCores : SameCores mem (connectToGlobalDllist mem ht p).1 :=
  connectEx_sameCores mem ht p _ none

end connectGlobal

variable {ht : HashTable} {xs : List Addr} {mem : Mem α} {p : Addr}

private theorem ordered_push (ordered : Ordered mem ht xs) (fresh : p ∉ xs) :
    Ordered (connectToGlobalDllist mem ht p).1 (connectToGlobalDllist mem ht p).2 (xs ++ [p]) := by
  have connected := @ordered_connect _ mem mem ht xs [] [] p (by simpa using ordered)
    (by simpa using fresh)
    (fun _ _ => rfl) (fun _ _ => rfl) _ rfl
  rw [head?_nil, ← ordered.tail] at connected
  refine connected.congr ?_ ?_ (fun _ _ => rfl) fun _ _ => rfl
  · rw [connectGlobal_ht, connectEx_ht]
  · rw [connectGlobal_ht, connectEx_ht, if_pos rfl]

/-! ### Rehashing -/

theorem Chains.head_mem {S : List Addr} (chains : Chains mem ht S)
    {h : UInt64} {x : Addr} (head : ht.arBuckets (ht.nIndex h) = some x) : x ∈ S := by
  obtain ⟨c, chain⟩ := chains _ (nIndex_le ht h)
  rw [chain.head] at head
  exact ((chain.mem_iff x).mp (mem_of_head? head)).1

/-- What a loop that rebuilds the chains establishes. -/
structure Rebuilt (mem mem' : Mem α) (ht ht' : HashTable) (xs : List Addr) : Prop where
  ordered : Ordered mem' ht' xs
  chains : Chains mem' ht' xs
  cores : SameCores mem mem'
  table : SameButSlots ht ht'
  outside : ∀ x, x ∉ xs → mem'.cells x = mem.cells x

/-- The rehash loop, stated at the point where the buckets `l` are already back on
their chains and those of `r` are still to come. -/
theorem rehashLoop_spec (fuel : Nat) (l r : List Addr) (mem : Mem α) (ht : HashTable)
    (split : xs = l ++ r) (enough : r.length ≤ fuel) (ordered : Ordered mem ht xs)
    (chains : Chains mem ht l) :
    Rebuilt mem (rehashLoop fuel r.head? mem ht).1 ht (rehashLoop fuel r.head? mem ht).2 xs := by
  induction r generalizing fuel l mem ht with
  | nil =>
    rw [append_nil] at split
    subst split
    cases fuel <;> exact ⟨ordered, chains, SameCores.refl mem, rfl, fun _ _ => rfl⟩
  | cons p r ih =>
    cases fuel with
    | zero => cases enough
    | succ fuel =>
      simp only [length_cons] at enough
      have fresh : p ∉ l := by
        have nodup := ordered.nodup
        rw [split] at nodup
        exact fun member => (nodup_append.mp nodup).2.2 p member p (by simp) rfl
      let head := ht.arBuckets (ht.nIndex (mem.cells p).h)
      have after : ((connectToBucketDllist mem p head).cells p).pListNext = r.head? := by
        rw [connectBucket_cells]
        exact Ordered.next_eq (split ▸ ordered)
      have pushed : Chains (connectToBucketDllist mem p head)
          (ht.setBucket (ht.nIndex (mem.cells p).h) (some p)) (l ++ [p]) :=
        (chains_push chains fresh).congr (by simp [or_comm]) rfl (fun _ _ => rfl)
          (fun _ _ => rfl) (fun _ _ => rfl) (fun _ _ => rfl)
      have kept : Ordered (connectToBucketDllist mem p head)
          (ht.setBucket (ht.nIndex (mem.cells p).h) (some p)) xs :=
        ordered.congr rfl rfl (fun x _ => by rw [connectBucket_cells])
          fun x _ => by rw [connectBucket_cells]
      have rest := ih fuel (l ++ [p]) (connectToBucketDllist mem p head)
        (ht.setBucket (ht.nIndex (mem.cells p).h) (some p)) (by simp [split]) (by omega) kept pushed
      rw [← after] at rest
      refine ⟨rest.ordered, rest.chains, (connectBucket_sameCores mem p head).trans rest.cores,
        rest.table, ?_⟩
      intro x outside
      have apart : x ≠ p := by
        rintro rfl
        exact outside (by simp [split])
      have notHead : head ≠ some x := fun isHead =>
        outside (by simp [split, chains.head_mem isHead])
      exact (rest.outside x outside).trans (connectBucket_outside _ _ _ apart notHead)

theorem toNat_pred {n : UInt32} (positive : 0 < n.toNat) : (n - 1).toNat = n.toNat - 1 := by
  have one : (1 : UInt32) ≤ n := UInt32.le_iff_toNat_le.mpr positive
  rw [UInt32.toNat_sub_of_le _ _ one, UInt32.toNat_one]

theorem clearBuckets_chains {mem : Mem α} {ht : HashTable}
    (mask : ht.nTableMask = ht.nTableSize - 1) (size : 0 < ht.nTableSize.toNat) :
    Chains mem ht.clearBuckets [] := by
  apply chains_nil
  intro i bound
  have smaller : i < ht.nTableSize.toNat := by
    simp only [HashTable.clearBuckets, mask, toNat_pred size] at bound
    omega
  simp [HashTable.clearBuckets, smaller]

private theorem zendHashRehash_spec (ordered : Ordered mem ht xs)
    (mask : ht.nTableMask = ht.nTableSize - 1) (size : 0 < ht.nTableSize.toNat)
    (nonzero : ht.nNumOfElements ≠ 0) (enough : xs.length ≤ mem.live.length) :
    Rebuilt mem (zendHashRehash mem ht).1 ht (zendHashRehash mem ht).2 xs := by
  have cleared : Ordered mem ht.clearBuckets xs :=
    ordered.congr rfl rfl (fun _ _ => rfl) (fun _ _ => rfl)
  have loop := rehashLoop_spec mem.live.length [] xs mem ht.clearBuckets (by simp) enough cleared
    (clearBuckets_chains mask size)
  simp only [zendHashRehash, if_neg nonzero, ordered.head]
  exact ⟨loop.ordered, loop.chains, loop.cores, loop.table, loop.outside⟩

/-- Doubling a power of two gives the next one until the `uint` runs out. -/
theorem shiftLeft_one_pow {n : UInt32} {k : Nat} (small : k < 32) (power : n.toNat = 2 ^ k)
    (nonzero : (0 : UInt32) < n <<< 1) : k + 1 < 32 ∧ (n <<< 1).toNat = 2 ^ (k + 1) := by
  have shifted : (n <<< 1).toNat = 2 ^ (k + 1) % 2 ^ 32 := by
    rw [UInt32.toNat_shiftLeft, power, show ((1 : UInt32).toNat % 32) = 1 from rfl,
      Nat.shiftLeft_eq, ← Nat.pow_add]
  rw [UInt32.lt_iff_toNat_lt, shifted] at nonzero
  have bound : k + 1 < 32 := by
    by_contra large
    have last : k = 31 := by omega
    simp [last] at nonzero
  refine ⟨bound, shifted.trans (Nat.mod_eq_of_lt ?_)⟩
  exact Nat.pow_lt_pow_right (by norm_num) bound

/-- A table whose list is in order; nothing is said about its chains. -/
structure Listed (mem : Mem α) (ht : HashTable) (xs : List Addr) : Prop where
  ordered : Ordered mem ht xs
  live : ∀ p ∈ xs, p ∈ mem.live
  size : ∃ k, 3 ≤ k ∧ k < 32 ∧ ht.nTableSize.toNat = 2 ^ k
  count : ht.nNumOfElements = UInt32.ofNat xs.length
  cursor : ∀ p, ht.pInternalPointer = some p → p ∈ xs

theorem Wf.listed (wf : Wf mem ht xs) : Listed mem ht xs :=
  ⟨wf.ordered, wf.live, wf.size, wf.count, wf.cursor⟩

theorem Listed.size_pos (listed : Listed mem ht xs) : 0 < ht.nTableSize.toNat := by
  obtain ⟨k, _, _, power⟩ := listed.size
  rw [power]
  exact Nat.two_pow_pos k

theorem Listed.length_le (listed : Listed mem ht xs) : xs.length ≤ mem.live.length :=
  (subperm_of_subset listed.ordered.nodup listed.live).length_le

private theorem zendHashIfFullDoResize_listed (listed : Listed mem ht xs)
    {out : Mem α × HashTable} (returned : out = zendHashIfFullDoResize mem ht) :
    Listed out.1 out.2 xs ∧ SameCores mem out.1 ∧ out.2.nNextFreeElement = ht.nNextFreeElement ∧
      (∀ x, x ∉ xs → out.1.cells x = mem.cells x) ∧
      (out = (mem, ht) ∨ Chains out.1 out.2 xs ∧ out.2.nTableMask = out.2.nTableSize - 1) := by
  have unchanged : out = (mem, ht) → Listed out.1 out.2 xs ∧ SameCores mem out.1 ∧
      out.2.nNextFreeElement = ht.nNextFreeElement ∧ (∀ x, x ∉ xs → out.1.cells x = mem.cells x) ∧
      (out = (mem, ht) ∨ Chains out.1 out.2 xs ∧ out.2.nTableMask = out.2.nTableSize - 1) := by
    intro same
    rw [same]
    exact ⟨listed, SameCores.refl mem, rfl, fun _ _ => rfl, .inl rfl⟩
  unfold zendHashIfFullDoResize at returned
  split at returned
  next full =>
    unfold zendHashDoResize at returned
    split at returned
    next nonzero =>
      obtain ⟨k, low, high, power⟩ := listed.size
      obtain ⟨high', power'⟩ := shiftLeft_one_pow high power nonzero
      let grown : HashTable :=
        { ht with nTableSize := ht.nTableSize <<< 1, nTableMask := (ht.nTableSize <<< 1) - 1 }
      have ordered : Ordered mem grown xs := listed.ordered.congr rfl rfl (fun _ _ => rfl)
        (fun _ _ => rfl)
      have counted : grown.nNumOfElements ≠ 0 := by
        intro empty
        rw [empty] at full
        simp at full
      have positive : 0 < grown.nTableSize.toNat := by simp only [grown, power']; positivity
      have rebuilt := zendHashRehash_spec ordered rfl positive counted listed.length_le
      have table := rebuilt.table
      rw [returned]
      refine ⟨⟨rebuilt.ordered, ?_, ?_, ?_, ?_⟩, rebuilt.cores, ?_, rebuilt.outside,
        .inr ⟨rebuilt.chains, ?_⟩⟩
      · rw [rebuilt.cores.live]
        exact listed.live
      · rw [table]
        exact ⟨k + 1, by omega, high', power'⟩
      · rw [table]
        exact listed.count
      · rw [table]
        exact listed.cursor
      · rw [table]
      · rw [table]
    · exact unchanged returned
  · exact unchanged returned

theorem zendHashIfFullDoResize_wf (wf : Wf mem ht xs) :
    Wf (zendHashIfFullDoResize mem ht).1 (zendHashIfFullDoResize mem ht).2 xs ∧
      SameCores mem (zendHashIfFullDoResize mem ht).1 ∧
      (zendHashIfFullDoResize mem ht).2.nNextFreeElement = ht.nNextFreeElement ∧
      ∀ x, x ∉ xs → (zendHashIfFullDoResize mem ht).1.cells x = mem.cells x := by
  obtain ⟨listed, cores, next, outside, same | ⟨chains, mask⟩⟩ :=
    zendHashIfFullDoResize_listed wf.listed rfl
  · rw [same]
    exact ⟨wf, SameCores.refl mem, rfl, fun _ _ => rfl⟩
  · exact ⟨⟨listed.ordered, listed.live, chains, listed.size, .inr mask, listed.count,
      listed.cursor⟩, cores, next, outside⟩

/-! ### Linking a new bucket -/

theorem Wf.withNextFree (wf : Wf mem ht xs) (n : UInt64) :
    Wf mem { ht with nNextFreeElement := n } xs where
  __ := wf
  ordered := wf.ordered.congr rfl rfl (fun _ _ => rfl) (fun _ _ => rfl)
  chains := wf.chains.congr (fun _ => Iff.rfl) rfl (fun _ _ => rfl) (fun _ _ => rfl)
    (fun _ _ => rfl) (fun _ _ => rfl)

theorem Wf.withCursor (wf : Wf mem ht xs) (cursor : Option Addr)
    (inside : ∀ p, cursor = some p → p ∈ xs) :
    Wf mem { ht with pInternalPointer := cursor } xs where
  __ := wf
  ordered := wf.ordered.congr rfl rfl (fun _ _ => rfl) (fun _ _ => rfl)
  chains := wf.chains.congr (fun _ => Iff.rfl) rfl (fun _ _ => rfl) (fun _ _ => rfl)
    (fun _ _ => rfl) (fun _ _ => rfl)
  cursor := inside

/-- A mask of zero means that the slots are not allocated, and then there are no buckets. -/
theorem Wf.empty_of_mask_zero (wf : Wf mem ht xs) (zero : ht.nTableMask = 0) : xs = [] := by
  rcases wf.mask with ⟨_, empty⟩ | mask
  · exact empty
  -- a size of at least eight never has the mask zero
  obtain ⟨k, low, high, power⟩ := wf.size
  have atLeast : 2 ^ 3 ≤ ht.nTableSize.toNat := by
    rw [power]
    exact Nat.pow_le_pow_right (by norm_num) low
  have same := congrArg UInt32.toNat (mask.symm.trans zero)
  rw [toNat_pred (by omega), UInt32.toNat_zero] at same
  omega

theorem checkInit_wf (wf : Wf mem ht xs) :
    Wf mem (checkInit ht) xs ∧ (checkInit ht).nTableMask = ht.nTableSize - 1 := by
  unfold checkInit
  split
  next uninitialized =>
    have empty := wf.empty_of_mask_zero uninitialized
    subst empty
    refine ⟨⟨wf.ordered.congr rfl rfl (fun _ _ => rfl) (fun _ _ => rfl), wf.live,
      chains_nil (fun _ _ => rfl), wf.size, .inr rfl, wf.count, wf.cursor⟩, rfl⟩
  next initialized =>
  refine ⟨wf, ?_⟩
  rcases wf.mask with ⟨zero, _⟩ | mask
  · exact absurd zero initialized
  · exact mask

@[simp] theorem checkInit_nNextFreeElement (ht : HashTable) :
    (checkInit ht).nNextFreeElement = ht.nNextFreeElement := by
  unfold checkInit
  split <;> rfl

/-- The link steps shared by the insertions, on a bucket that is allocated but not
yet in the table. -/
theorem link_wf (wf : Wf mem ht xs) (mask : ht.nTableMask = ht.nTableSize - 1) (fresh : p ∉ xs)
    (allocated : p ∈ mem.live)
    {i : Nat} (slot : i = ht.nIndex (mem.cells p).h) {r : Mem α × HashTable}
    (linked : r = connectToGlobalDllist (connectToBucketDllist mem p (ht.arBuckets i))
      (ht.setBucket i (some p)) p) :
    Wf r.1 { r.2 with nNumOfElements := r.2.nNumOfElements + 1 } (xs ++ [p]) ∧
      SameCores mem r.1 ∧ ∀ x, x ∉ xs → x ≠ p → r.1.cells x = mem.cells x := by
  subst linked slot
  set i := ht.nIndex (mem.cells p).h with slot
  let chained := connectToBucketDllist mem p (ht.arBuckets i)
  have cores : SameCores mem (connectToGlobalDllist chained (ht.setBucket i (some p)) p).1 :=
    (connectBucket_sameCores mem p (ht.arBuckets i)).trans (connectGlobal_sameCores _ _ _)
  have ordered : Ordered chained (ht.setBucket i (some p)) xs :=
    wf.ordered.congr rfl rfl (fun x _ => by rw [connectBucket_cells])
      fun x _ => by rw [connectBucket_cells]
  have pushed : Chains chained (ht.setBucket i (some p)) (p :: xs) := chains_push wf.chains fresh
  refine ⟨⟨?_, ?_, ?_, ?_, ?_, ?_, ?_⟩, cores, ?_⟩
  · exact (ordered_push ordered fresh).congr rfl rfl (fun _ _ => rfl) (fun _ _ => rfl)
  · rw [cores.live]
    intro x member
    rcases mem_append.mp member with old | new
    · exact wf.live x old
    · rw [mem_singleton.mp new]
      exact allocated
  · refine pushed.congr (by simp [or_comm]) ?_ ?_ ?_ ?_ ?_
    · rw [connectGlobal_ht]
    · intro j _
      rw [connectGlobal_ht]
    · exact fun x _ => core_h ((connectGlobal_sameCores _ _ _).core x)
    · exact fun x _ => by rw [connectGlobal_mem, connectEx_cells]
    · exact fun x _ => by rw [connectGlobal_mem, connectEx_cells]
  · rw [connectGlobal_ht]
    exact wf.size
  · rw [connectGlobal_ht]
    exact .inr mask
  · rw [connectGlobal_ht]
    simp [HashTable.setBucket, wf.count]
  · rw [connectGlobal_ht]
    intro x cursor
    by_cases unset : (ht.setBucket i (some p)).pInternalPointer = none
    · simp_all
    · simp only [if_neg unset] at cursor
      exact mem_append_left _ (wf.cursor x cursor)
  · intro x outside apart
    have notHead : ht.arBuckets i ≠ some x := fun head => outside (wf.chains.head_mem head)
    have notTail : ht.pListTail ≠ some x := by
      rw [wf.ordered.tail]
      exact fun last => outside (mem_of_getLast? last)
    exact (connectEx_outside chained (ht.setBucket i (some p)) p ht.pListTail none apart notTail
      (by simp)).trans
      (connectBucket_outside _ _ _ apart notHead)

/-! ### Deleting a bucket -/

/-- The four link writes of `i_zend_hash_bucket_delete`, with the neighbours read
before any of them. -/
def unlinked (mem : Mem α) (p : Addr) : Mem α :=
  (((mem.modify? (mem.cells p).pLast fun b => { b with pNext := (mem.cells p).pNext }).modify?
    (mem.cells p).pNext fun b => { b with pLast := (mem.cells p).pLast }).modify?
    (mem.cells p).pListLast fun b => { b with pListNext := (mem.cells p).pListNext }).modify?
    (mem.cells p).pListNext fun b => { b with pListLast := (mem.cells p).pListLast }

section unlinked

variable (mem : Mem α) (p x : Addr)

theorem unlinked_cells : (unlinked mem p).cells x = { mem.cells x with
      pNext := if (mem.cells p).pLast = some x then (mem.cells p).pNext else (mem.cells x).pNext
      pLast := if (mem.cells p).pNext = some x then (mem.cells p).pLast else (mem.cells x).pLast
      pListNext := if (mem.cells p).pListLast = some x then (mem.cells p).pListNext
        else (mem.cells x).pListNext
      pListLast := if (mem.cells p).pListNext = some x then (mem.cells p).pListLast
        else (mem.cells x).pListLast } := by
  simp only [unlinked, modify?_cells]
  split_ifs <;> rfl

theorem unlinked_sameCores : SameCores mem (unlinked mem p) := by
  refine (((SameCores.modify? ?_).trans (SameCores.modify? ?_)).trans
    (SameCores.modify? ?_)).trans (SameCores.modify? ?_)
  all_goals exact fun _ => rfl

end unlinked

/-- The table fields after a deletion. -/
def unlinkedTable (mem : Mem α) (ht : HashTable) (p : Addr) : HashTable :=
  { ht with
    arBuckets := if (mem.cells p).pLast = none then
      Function.update ht.arBuckets (ht.nIndex (mem.cells p).h) (mem.cells p).pNext
      else ht.arBuckets
    pListHead := if (mem.cells p).pListLast = none then (mem.cells p).pListNext else ht.pListHead
    pListTail := if (mem.cells p).pListNext = none then (mem.cells p).pListLast else ht.pListTail
    pInternalPointer := if ht.pInternalPointer = some p then (mem.cells p).pListNext
      else ht.pInternalPointer
    nNumOfElements := ht.nNumOfElements - 1 }

/-- The source re-reads the neighbours after each write; since no bucket is its own
neighbour they are the same as before. -/
theorem zendHashBucketDelete_eq (last : (mem.cells p).pLast ≠ some p)
    (next : (mem.cells p).pNext ≠ some p) (listLast : (mem.cells p).pListLast ≠ some p) :
    zendHashBucketDelete mem ht p = ((unlinked mem p).pefree p, unlinkedTable mem ht p) := by
  simp only [zendHashBucketDelete, modify?_cells, if_neg last, if_neg next,
    if_neg listLast, ite_self]
  refine Prod.ext rfl ?_
  simp only [unlinkedTable, HashTable.setBucket]
  cases (mem.cells p).pLast <;> cases (mem.cells p).pListLast <;>
    cases (mem.cells p).pListNext <;> split_ifs <;> simp_all

private theorem chains_unlink {l r : List Addr} (chains : Chains mem ht (l ++ p :: r))
    (absent : p ∉ l ++ r) :
    Chains (unlinked mem p) (unlinkedTable mem ht p) (l ++ r) := by
  have hash := fun x => core_h ((unlinked_sameCores mem p).core x)
  obtain ⟨own, ownChain⟩ := chains _ (nIndex_le ht (mem.cells p).h)
  obtain ⟨before, after, rfl⟩ := append_of_mem
    ((ownChain.mem_iff p).mpr ⟨by simp, rfl⟩)
  have next := links_next ownChain.links
  have last := links_prev ownChain.links
  have notOwn : p ∉ before ++ after := by
    have nodup := ownChain.nodup
    rw [nodup_middle] at nodup
    exact (nodup_cons.mp nodup).1
  intro i bound
  by_cases target : i = ht.nIndex (mem.cells p).h
  · refine ⟨before ++ after, ?_, ?_, ?_, ?_⟩
    · have head := ownChain.head
      simp only [unlinkedTable, last, next, target]
      cases before with
      | nil => simp
      | cons b before => simpa using head
    · apply links_remove ownChain.links ownChain.nodup
      · exact fun x _ => by simp only [unlinked_cells, last, next]
      · exact fun x _ => by simp only [unlinked_cells, last, next]
    · have nodup := ownChain.nodup
      rw [nodup_middle] at nodup
      exact (nodup_cons.mp nodup).2
    · intro x
      have members := ownChain.mem_iff x
      rw [hash x, nIndex_congr (by rfl : (unlinkedTable mem ht p).nTableMask = ht.nTableMask),
        target]
      by_cases same : x = p
      · subst same
        exact ⟨fun member => absurd member notOwn, fun member => absurd member.1 absent⟩
      · simp only [mem_append, mem_cons, same, false_or] at members ⊢
        exact members
  · obtain ⟨c, chain⟩ := chains i bound
    -- a neighbour of `p` hashes to the slot of `p`, not to this one
    have apart : ∀ x ∈ c, x ∉ before ++ p :: after := fun x member inOwn =>
      target (chain.slot_unique ownChain member inOwn)
    refine ⟨c, ?_, ?_, chain.nodup, ?_⟩
    · simp only [unlinkedTable]
      split
      · rw [Function.update_of_ne target, chain.head]
      · exact chain.head
    · refine links_congr chain.links ?_ ?_
      · intro x member
        have notLast : before.getLast? ≠ some x := fun isLast =>
          apart x member (mem_append_left _ (mem_of_getLast? isLast))
        simp only [unlinked_cells, last, if_neg notLast]
      · intro x member
        have notHead : after.head? ≠ some x := fun isHead =>
          apart x member (by simp [mem_of_head? isHead])
        simp only [unlinked_cells, next, if_neg notHead]
    · intro x
      rw [chain.mem_iff, hash x]
      constructor
      · rintro ⟨member, slot⟩
        have other : x ≠ p := by
          rintro rfl
          exact target slot.symm
        simp only [mem_append, mem_cons, other, false_or] at member
        exact ⟨mem_append.mpr member, slot⟩
      rintro ⟨member, slot⟩
      rcases mem_append.mp member with left | right
      · exact ⟨mem_append_left _ left, slot⟩
      · exact ⟨by simp [right], slot⟩

private theorem ordered_unlink {l r : List Addr} (ordered : Ordered mem ht (l ++ p :: r)) :
    Ordered (unlinked mem p) (unlinkedTable mem ht p) (l ++ r) := by
  have next := links_next ordered.links
  have last := links_prev ordered.links
  have nodup := ordered.nodup
  rw [nodup_middle] at nodup
  refine ⟨(nodup_cons.mp nodup).2, ?_, ?_, ?_⟩
  · have head := ordered.head
    simp only [unlinkedTable, last, next]
    cases l with
    | nil => simp
    | cons a l => simpa using head
  · have tail := ordered.tail
    simp only [unlinkedTable, last, next]
    cases r with
    | nil => simp
    | cons b r =>
      rw [if_neg (by simp), tail, getLast?_append, getLast?_append,
        getLast?_cons_cons]
  · apply links_remove ordered.links ordered.nodup
    · exact fun x _ => by simp only [unlinked_cells, last, next]
    · exact fun x _ => by simp only [unlinked_cells, last, next]

theorem zendHashBucketDelete_wf {l r : List Addr} (wf : Wf mem ht (l ++ p :: r)) :
    Wf (zendHashBucketDelete mem ht p).1 (zendHashBucketDelete mem ht p).2 (l ++ r) ∧
      (∀ x, ((zendHashBucketDelete mem ht p).1.cells x).core = (mem.cells x).core) ∧
      (zendHashBucketDelete mem ht p).1.live = mem.live.erase p ∧
      (zendHashBucketDelete mem ht p).2.nNextFreeElement = ht.nNextFreeElement ∧
      ∀ x, x ∉ l ++ p :: r → (zendHashBucketDelete mem ht p).1.cells x = mem.cells x := by
  have nodup := wf.ordered.nodup
  rw [nodup_middle] at nodup
  have absent := (nodup_cons.mp nodup).1
  obtain ⟨own, ownChain⟩ := wf.chains _ (nIndex_le ht (mem.cells p).h)
  have member : p ∈ own := (ownChain.mem_iff p).mpr ⟨by simp, rfl⟩
  obtain ⟨before, after, rfl⟩ := append_of_mem member
  have ownNodup := ownChain.nodup
  rw [nodup_middle] at ownNodup
  have absentOwn := (nodup_cons.mp ownNodup).1
  have last := links_prev ownChain.links
  have next := links_next ownChain.links
  have listLast := links_prev wf.ordered.links
  have listNext := links_next wf.ordered.links
  -- the bucket is not its own neighbour, so that the writes do not touch it
  rw [zendHashBucketDelete_eq]
  · have cores := unlinked_sameCores mem p
    refine ⟨⟨?_, ?_, ?_, wf.size, ?_, ?_, ?_⟩, cores.core, ?_, rfl, ?_⟩
    · exact (ordered_unlink wf.ordered).congr rfl rfl (fun _ _ => rfl) (fun _ _ => rfl)
    · intro x inside
      have other : x ≠ p := fun same => absent (same ▸ inside)
      simp only [Mem.pefree, cores.live]
      refine (mem_erase_of_ne other).mpr (wf.live x ?_)
      rcases mem_append.mp inside with left | right
      · exact mem_append_left _ left
      · simp [right]
    · exact (chains_unlink wf.chains absent).congr (fun _ => Iff.rfl) rfl (fun _ _ => rfl)
        (fun _ _ => rfl) (fun _ _ => rfl) (fun _ _ => rfl)
    · rcases wf.mask with ⟨_, empty⟩ | mask
      · simp at empty
      · exact .inr mask
    · have count := wf.count
      simp only [unlinkedTable, count, length_append, length_cons, ← Nat.add_assoc,
        UInt32.ofNat_add]
      simp
    · intro x cursor
      simp only [unlinkedTable] at cursor
      split at cursor
      · rw [listNext] at cursor
        exact mem_append_right _ (mem_of_head? cursor)
      next notCursor =>
      have inside := wf.cursor x cursor
      have other : x ≠ p := fun same => notCursor (same ▸ cursor)
      simpa [other] using inside
    · simp [Mem.pefree, cores.live]
    · intro x outside
      have notIn : ∀ y, y ∈ before ++ p :: after → y ≠ x := by
        rintro y inOwn rfl
        exact outside ((ownChain.mem_iff y).mp inOwn).1
      simp only [Mem.pefree, unlinked, modify?_cells, last, next, listLast, listNext]
      rw [if_neg, if_neg, if_neg, if_neg]
      · exact fun isLast => notIn x (mem_append_left _ (mem_of_getLast? isLast)) rfl
      · exact fun isHead => notIn x (by simp [mem_of_head? isHead]) rfl
      · exact fun isLast => outside (mem_append_left _ (mem_of_getLast? isLast))
      · exact fun isHead => outside (by simp [mem_of_head? isHead])
  · rw [last]
    exact fun isLast => absentOwn (mem_append_left _ (mem_of_getLast? isLast))
  · rw [next]
    exact fun isHead => absentOwn (mem_append_right _ (mem_of_head? isHead))
  · rw [listLast]
    exact fun isLast => absent (mem_append_left _ (mem_of_getLast? isLast))

/-! ### Cleaning -/

private theorem cleanLoop_spec {prev : Addr → Option Addr} (fuel : Nat) (l r : List Addr)
    (mem : Mem α) (split : xs = l ++ r) (enough : r.length ≤ fuel)
    (links : Links (fun p => (mem.cells p).pListNext) prev xs) :
    (cleanLoop fuel r.head? mem).cells = mem.cells ∧
      (cleanLoop fuel r.head? mem).live = r.foldl List.erase mem.live := by
  induction r generalizing fuel l mem with
  | nil => cases fuel <;> exact ⟨rfl, rfl⟩
  | cons q r ih =>
    cases fuel with
    | zero => cases enough
    | succ fuel =>
      simp only [length_cons] at enough
      have after : (mem.cells q).pListNext = r.head? := (links l q r split).1
      have rest := ih fuel (l ++ [q]) (mem.pefree q) (by simp [split]) (by omega) links
      simp only [head?_cons, cleanLoop, after, foldl_cons]
      exact rest

theorem zendHashClean_wf (wf : Wf mem ht xs) :
    Wf (zendHashClean mem ht).1 (zendHashClean mem ht).2 [] ∧
      (zendHashClean mem ht).1.cells = mem.cells ∧
        (zendHashClean mem ht).1.live = xs.foldl List.erase mem.live ∧
      (zendHashClean mem ht).2.nNextFreeElement = 0 := by
  have loop := cleanLoop_spec mem.live.length [] xs mem (by simp)
    wf.length_le wf.ordered.links
  rw [← wf.ordered.head] at loop
  refine ⟨⟨⟨nodup_nil, rfl, rfl, links_nil _ _⟩, by simp, ?_, ?_, ?_, rfl, by simp [zendHashClean]⟩,
    loop.1, loop.2, rfl⟩
  · apply chains_nil
    intro i bound
    simp only [zendHashClean] at bound ⊢
    split
    next allocated =>
      rw [if_pos allocated] at bound
      have mask : ht.nTableMask = ht.nTableSize - 1 := by
        rcases wf.mask with ⟨zero, _⟩ | mask
        · exact absurd zero allocated
        · exact mask
      obtain ⟨k, low, _, power⟩ := wf.size
      have positive : 0 < ht.nTableSize.toNat := by rw [power]; positivity
      obtain ⟨c, chain⟩ := @clearBuckets_chains α mem ht mask positive i bound
      have empty : c = [] := eq_nil_iff_forall_not_mem.mpr fun p member => by
        simpa using ((chain.mem_iff p).mp member).1
      simpa [empty] using chain.head
    next unallocated =>
      rw [if_neg unallocated] at bound
      have noBuckets := wf.empty_of_mask_zero (not_not.mp unallocated)
      obtain ⟨c, chain⟩ := wf.chains i bound
      have empty : c = [] := eq_nil_iff_forall_not_mem.mpr fun p member => by
        simpa [noBuckets] using ((chain.mem_iff p).mp member).1
      simpa [empty] using chain.head
  · simp only [zendHashClean]
    split <;> exact wf.size
  · simp only [zendHashClean]
    split
    · rcases wf.mask with ⟨zero, _⟩ | mask
      · exact .inl ⟨zero, trivial⟩
      · exact .inr mask
    next unallocated => exact .inl ⟨not_not.mp unallocated, trivial⟩

end Jonj.Hash
