import Jonj.Hash.Links

/-!
# The loop that renumbers

`zend_hash_reindex` walks the list once, gives numbers to the buckets that are to have one and
rebuilds every chain on the way. It reads nothing of the old chains, so a list whose buckets are not
all on chains is enough for it.
-/
namespace Jonj.Hash

open DoublyLinked List

variable {α : Type}

/-- The test of the loop: every bucket, or only those with an integer key. -/
def Core.renumbers (onlyIntegerKeys : Bool) (c : Core α) : Bool :=
  !onlyIntegerKeys || decide (c.nKeyLength = 0)

def Core.numbered (c : Core α) (offset : UInt64) : Core α := { c with h := offset, nKeyLength := 0 }

/-- Keys and data of the buckets after the loop, which starts to count at `offset`. -/
def relabelled (onlyIntegerKeys : Bool) : UInt64 → List (Core α) → List (Core α)
  | _, [] => []
  | offset, c :: cs =>
    if c.renumbers onlyIntegerKeys then c.numbered offset :: relabelled onlyIntegerKeys
      (offset + 1) cs
    else c :: relabelled onlyIntegerKeys offset cs

def cores (mem : Mem α) (xs : List Addr) : List (Core α) := xs.map fun p => (mem.cells p).core

/-- The first half of a round: the bucket gets its number. -/
def relabel (onlyIntegerKeys : Bool) (mem : Mem α) (p : Addr) (offset : UInt64) : Mem α :=
  if (mem.cells p).core.renumbers onlyIntegerKeys then
    mem.modify p fun b => { b with h := offset, nKeyLength := 0 }
  else mem

section relabel

variable (onlyIntegerKeys : Bool) (mem : Mem α) (p : Addr) (offset : UInt64)

/-- A bucket that is numbered loses its string key. -/
theorem relabel_core (x : Addr) : ((relabel onlyIntegerKeys mem p offset).cells x).core =
      if x = p ∧ (mem.cells p).core.renumbers onlyIntegerKeys then
        (mem.cells p).core.numbered offset
      else (mem.cells x).core := by
  unfold relabel
  by_cases renumbers : (mem.cells p).core.renumbers onlyIntegerKeys
  · rw [if_pos renumbers, modify_cells]
    by_cases same : x = p
    · rw [if_pos same, if_pos ⟨same, renumbers⟩]
      rfl
    · rw [if_neg same, if_neg fun both => same both.1]
  · rw [if_neg renumbers, if_neg fun both => renumbers both.2]

theorem relabel_outside {x : Addr} (other : x ≠ p) :
    (relabel onlyIntegerKeys mem p offset).cells x = mem.cells x := by
  unfold relabel
  split
  · rw [modify_cells, if_neg other]
  · rfl

theorem relabel_field {β : Type} (field : Bucket α → β)
    (keeps : ∀ b : Bucket α, field { b with h := offset, nKeyLength := 0 } = field b) (x : Addr) :
    field ((relabel onlyIntegerKeys mem p offset).cells x) = field (mem.cells x) := by
  unfold relabel
  split
  · exact modify_field field mem p x _ keeps
  · rfl

private theorem relabel_live : (relabel onlyIntegerKeys mem p offset).live = mem.live := by
  unfold relabel
  split <;> rfl

private theorem relabel_clock : (relabel onlyIntegerKeys mem p offset).clock = mem.clock := by
  unfold relabel
  split <;> rfl

def relabelSlot (ht : HashTable) : Nat :=
  ht.nIndex ((relabel onlyIntegerKeys mem p offset).cells p).h

/-- A round numbers the bucket and links it to its new chain. -/
theorem reindexLoop_round (ht : HashTable) (fuel : Nat) :
    reindexLoop onlyIntegerKeys (fuel + 1) (some p) offset mem ht =
      reindexLoop onlyIntegerKeys fuel (mem.cells p).pListNext
        (if (mem.cells p).core.renumbers onlyIntegerKeys then offset + 1 else offset)
        (connectToBucketDllist (relabel onlyIntegerKeys mem p offset) p
          (ht.arBuckets (relabelSlot onlyIntegerKeys mem p offset ht)))
        (ht.setBucket (relabelSlot onlyIntegerKeys mem p offset ht) (some p)) := by
  have next : ((connectToBucketDllist (relabel onlyIntegerKeys mem p offset) p
      (ht.arBuckets (relabelSlot onlyIntegerKeys mem p offset ht))).cells p).pListNext =
        (mem.cells p).pListNext := by
    rw [connectBucket_cells]
    exact relabel_field onlyIntegerKeys mem p offset Bucket.pListNext (fun _ => rfl) p
  rw [← next]
  rfl

end relabel

/-- What the loop does to the buckets `r` at the end of the list `xs`. -/
structure Relabelling (onlyIntegerKeys : Bool) (offset : UInt64) (mem mem' : Mem α)
    (ht ht' : HashTable)
    (xs r : List Addr) : Prop where
  ordered : Ordered mem' ht' xs
  chains : Chains mem' ht' xs
  live : mem'.live = mem.live
  clock : mem'.clock = mem.clock
  table : SameButSlots ht ht'
  cores : cores mem' r = relabelled onlyIntegerKeys offset (cores mem r)
  kept : ∀ x, x ∉ r → (mem'.cells x).core = (mem.cells x).core
  outside : ∀ x, x ∉ xs → mem'.cells x = mem.cells x

/-- The chains of the buckets that are done get the new one. -/
theorem relabel_chains {onlyIntegerKeys : Bool} {mem : Mem α} {ht : HashTable} {l : List Addr}
    {p : Addr} (chains : Chains mem ht l) (absent : p ∉ l) (offset : UInt64) :
    Chains (connectToBucketDllist (relabel onlyIntegerKeys mem p offset) p
        (ht.arBuckets (relabelSlot onlyIntegerKeys mem p offset ht)))
      (ht.setBucket (relabelSlot onlyIntegerKeys mem p offset ht) (some p)) (l ++ [p]) := by
  have same : ∀ q ∈ l, (relabel onlyIntegerKeys mem p offset).cells q = mem.cells q :=
    fun q member =>
    relabel_outside _ _ _ _ fun equal => absent (equal ▸ member)
  have before : Chains (relabel onlyIntegerKeys mem p offset) ht l :=
    chains.congr (fun _ => Iff.rfl) rfl (fun _ _ => rfl) (fun q member => by rw [same q member])
      (fun q member => by rw [same q member]) (fun q member => by rw [same q member])
  exact (chains_push before absent).congr (by simp [or_comm]) rfl (fun _ _ => rfl) (fun _ _ => rfl)
    (fun _ _ => rfl)
    (fun _ _ => rfl)

/-- The loop, stated at the point where the buckets `l` are done and those of `r` are still to
come. -/
theorem reindexLoop_relabels {onlyIntegerKeys : Bool} {xs : List Addr} (fuel : Nat)
    (l r : List Addr) (offset : UInt64) (mem : Mem α) (ht : HashTable) (split : xs = l ++ r)
    (enough : r.length ≤ fuel) (ordered : Ordered mem ht xs) (chains : Chains mem ht l)
    {out : Mem α × HashTable × UInt64}
    (returned : out = reindexLoop onlyIntegerKeys fuel r.head? offset mem ht) :
    Relabelling onlyIntegerKeys offset mem out.1 ht out.2.1 xs r ∧
      out.2.2 = offset + UInt64.ofNat ((cores mem r).countP (Core.renumbers onlyIntegerKeys)) := by
  induction r generalizing l offset mem ht fuel with
  | nil =>
    have ended : out = (mem, ht, offset) := by
      rw [returned]
      cases fuel <;> rfl
    rw [append_nil] at split
    subst ended split
    exact ⟨⟨ordered, chains, rfl, rfl, rfl, rfl, fun _ _ => rfl, fun _ _ => rfl⟩, by simp [cores]⟩
  | cons p r ih =>
    obtain ⟨fuel, rfl⟩ : ∃ n, fuel = n + 1 := ⟨fuel - 1, by rw [length_cons] at enough; omega⟩
    have nodup := ordered.nodup
    rw [split, nodup_append] at nodup
    have absent : p ∉ l := fun member => nodup.2.2 p member p (by simp) rfl
    have later : p ∉ r := (nodup_cons.mp nodup.2.1).1
    have next : (mem.cells p).pListNext = r.head? := Ordered.next_eq (split ▸ ordered)
    rw [head?_cons, reindexLoop_round, next] at returned
    set first := relabel onlyIntegerKeys mem p offset with isFirst
    set slot := relabelSlot onlyIntegerKeys mem p offset ht
    have listNext : ∀ x, ((connectToBucketDllist first p (ht.arBuckets slot)).cells x).pListNext =
        (mem.cells x).pListNext := fun x => by
      rw [connectBucket_cells]
      exact relabel_field _ _ _ _ Bucket.pListNext (fun _ => rfl) x
    have listLast : ∀ x, ((connectToBucketDllist first p (ht.arBuckets slot)).cells x).pListLast =
        (mem.cells x).pListLast := fun x => by
      rw [connectBucket_cells]
      exact relabel_field _ _ _ _ Bucket.pListLast (fun _ => rfl) x
    have connected := connectBucket_sameCores first p (ht.arBuckets slot)
    have kept : ∀ x, x ≠ p → ((connectToBucketDllist first p (ht.arBuckets slot)).cells x).core =
        (mem.cells x).core := by
      intro x other
      rw [connected.core, relabel_outside _ _ _ _ other]
    -- the rest of the loop, with `p` among the buckets that are done
    obtain ⟨rest, final⟩ := ih fuel (l ++ [p]) _ (connectToBucketDllist first p (ht.arBuckets slot))
      (ht.setBucket slot (some p)) (by simp [split]) (by rw [length_cons] at enough; omega)
      (ordered.congr rfl rfl (fun x _ => listNext x) fun x _ => listLast x)
        (relabel_chains chains absent offset) returned
    have coresRest : cores (connectToBucketDllist first p (ht.arBuckets slot)) r = cores mem r :=
      map_congr_left fun x member => kept x fun same => later (same ▸ member)
    have corePoint : (out.1.cells p).core = (first.cells p).core :=
      (rest.kept p later).trans (connected.core p)
    rw [coresRest] at final
    refine ⟨⟨rest.ordered, rest.chains, ?_, ?_, rest.table, ?_, ?_, ?_⟩, ?_⟩
    · exact rest.live.trans (connected.live.trans (relabel_live ..))
    · exact rest.clock.trans (connected.clock.trans (relabel_clock ..))
    · have coresOut := rest.cores
      rw [coresRest] at coresOut
      have headCore := relabel_core onlyIntegerKeys mem p offset p
      simp only [cores, map_cons] at coresOut ⊢
      rw [corePoint, coresOut, headCore, relabelled]
      by_cases renumbers : (mem.cells p).core.renumbers onlyIntegerKeys = true
      · rw [if_pos ⟨rfl, renumbers⟩, if_pos renumbers, if_pos renumbers]
      · rw [if_neg fun both => renumbers both.2, if_neg renumbers, if_neg renumbers]
    · intro x notMember
      rw [mem_cons, not_or] at notMember
      exact (rest.kept x notMember.2).trans (kept x notMember.1)
    · intro x out
      have apart : x ≠ p := by
        rintro rfl
        exact out (by simp [split])
      have notHead : ht.arBuckets slot ≠ some x := fun isHead =>
        out (by rw [split]; exact mem_append_left _ (chains.head_mem isHead))
      exact (rest.outside x out).trans
        ((connectBucket_outside _ _ _ apart notHead).trans (relabel_outside _ _ _ _ apart))
    · rw [final]
      simp only [cores, map_cons, countP_cons]
      split
      next renumbers =>
        rw [Nat.add_comm, UInt64.ofNat_add, ← UInt64.add_assoc]
        rfl
      next => rfl

/-- The whole loop: order and data stay, and every chain is rebuilt. -/
theorem zendHashReindex_relabels {onlyIntegerKeys : Bool} {mem : Mem α} {ht : HashTable}
    {xs : List Addr} (listed : Listed mem ht xs) (mask : ht.nTableMask = ht.nTableSize - 1)
    (nonzero : ht.nNumOfElements ≠ 0) {out : Mem α × HashTable}
    (returned : out = zendHashReindex mem ht onlyIntegerKeys) :
    Wf out.1 out.2 xs ∧ out.2 = { ht with
        arBuckets := out.2.arBuckets
        nNextFreeElement := UInt64.ofNat ((cores mem xs).countP
          (Core.renumbers onlyIntegerKeys)) } ∧
      out.1.live = mem.live ∧ out.1.clock = mem.clock ∧
      cores out.1 xs = relabelled onlyIntegerKeys 0 (cores mem xs) ∧ ∀ x, x ∉ xs →
        out.1.cells x = mem.cells x := by
  have cleared : Ordered mem ht.clearBuckets xs :=
    listed.ordered.congr rfl rfl (fun _ _ => rfl) fun _ _ => rfl
  rw [zendHashReindex, if_neg nonzero, listed.ordered.head] at returned
  generalize loop : reindexLoop onlyIntegerKeys mem.live.length xs.head? 0 mem ht.clearBuckets =
    result at returned
  obtain ⟨done, final⟩ := reindexLoop_relabels mem.live.length [] xs 0 mem ht.clearBuckets rfl
    listed.length_le cleared
    (clearBuckets_chains mask listed.size_pos) loop.symm
  obtain ⟨mem', ht', offset⟩ := result
  have table : ht' = { ht.clearBuckets with arBuckets := ht'.arBuckets } := done.table
  subst returned
  simp only at done final ⊢
  refine ⟨⟨?_, ?_, ?_, ?_, ?_, ?_, ?_⟩, ?_, done.live, done.clock, done.cores, done.outside⟩
  · exact done.ordered.congr rfl rfl (fun _ _ => rfl) fun _ _ => rfl
  · exact fun p member => done.live ▸ listed.live p member
  · exact done.chains.congr (fun _ => Iff.rfl) rfl (fun _ _ => rfl) (fun _ _ => rfl)
      (fun _ _ => rfl) fun _ _ => rfl
  · rw [table]
    exact listed.size
  · rw [table]
    exact Or.inr mask
  · rw [table]
    exact listed.count
  · rw [table]
    exact listed.cursor
  · rw [final, UInt64.zero_add, table]
    rfl

end Jonj.Hash
