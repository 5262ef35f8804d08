import Jonj.Lib.DoublyLinked
import Jonj.Hash.Basic

/-!
# Well-formed tables

`Chains` says that the slot heads reach exactly the given buckets, each on the
chain of its own slot. `Wf` adds the insertion-order list, the counters and the
cursor. The lemmas here follow the primitive pointer operations of the source;
the public operations are assembled from them in the next module.
-/
namespace Jonj.Hash

open DoublyLinked List

variable {α : Type}

/-! ### Reading the memory after a write -/

theorem modify_cells (mem : Mem α) (p x : Addr) (f : Bucket α → Bucket α) :
    (mem.modify p f).cells x = if x = p then f (mem.cells p) else mem.cells x := by
  simp [Mem.modify, Function.update_apply]

theorem modify?_cells (mem : Mem α) (p : Option Addr) (x : Addr) (f : Bucket α → Bucket α) :
    (mem.modify? p f).cells x = if p = some x then f (mem.cells x) else mem.cells x := by
  cases p with
  | none => simp [Mem.modify?]
  | some p =>
    simp only [Mem.modify?, modify_cells, Option.some.injEq, eq_comm (a := p)]
    split
    next same => rw [same]
    · rfl

theorem modify_field {β : Type} (field : Bucket α → β) (mem : Mem α) (p x : Addr)
    (f : Bucket α → Bucket α) (keeps : ∀ b, field (f b) = field b) :
    field ((mem.modify p f).cells x) = field (mem.cells x) := by
  rw [modify_cells]
  split
  next same => rw [keeps, same]
  · rfl

/-! ### The slot index -/

theorem nIndex_le (ht : HashTable) (h : UInt64) : ht.nIndex h ≤ ht.nTableMask.toNat := by
  exact Nat.and_le_right

variable {ht ht' : HashTable}

theorem nIndex_congr (same : ht'.nTableMask = ht.nTableMask) (h : UInt64) :
    ht'.nIndex h = ht.nIndex h := by
  simp only [HashTable.nIndex, same]

private theorem setBucket_arBuckets (ht : HashTable) (i j : Nat) (p : Option Addr) :
    (ht.setBucket i p).arBuckets j = if j = i then p else ht.arBuckets j := by
  simp [HashTable.setBucket, Function.update_apply]

/-! ### The part of a bucket that link operations keep -/

/-- Key and data of a bucket, without the four links. -/
structure Core (α : Type) where
  h : UInt64
  nKeyLength : UInt32
  pData : α
  arKey : CStr

def Bucket.core (b : Bucket α) : Core α := ⟨b.h, b.nKeyLength, b.pData, b.arKey⟩

theorem core_h {b c : Bucket α} (same : b.core = c.core) : b.h = c.h := congrArg Core.h same

/-- Memories that agree on key and data of every bucket, and on what is allocated. -/
structure SameCores (mem mem' : Mem α) : Prop where
  core : ∀ x, (mem'.cells x).core = (mem.cells x).core
  live : mem'.live = mem.live
  clock : mem'.clock = mem.clock

theorem SameCores.refl (mem : Mem α) : SameCores mem mem := ⟨fun _ => rfl, rfl, rfl⟩

theorem SameCores.trans {a b c : Mem α} (ab : SameCores a b) (bc : SameCores b c) : SameCores a c :=
  ⟨fun x => (bc.core x).trans (ab.core x), bc.live.trans ab.live, bc.clock.trans ab.clock⟩

variable {mem : Mem α}

theorem SameCores.modify {p : Addr} {f : Bucket α → Bucket α}
    (keeps : ∀ b, (f b).core = b.core) : SameCores mem (mem.modify p f) :=
  ⟨fun x => modify_field Bucket.core mem p x f keeps, rfl, rfl⟩

theorem SameCores.modify? {p : Option Addr} {f : Bucket α → Bucket α}
    (keeps : ∀ b, (f b).core = b.core) : SameCores mem (mem.modify? p f) := by
  cases p with
  | none => exact SameCores.refl mem
  | some p => exact SameCores.modify keeps

/-! ### Slot chains -/

/-- `c` is the chain of slot `i`, and it holds exactly the buckets of `S` that hash
to that slot. -/
structure Chain (mem : Mem α) (ht : HashTable) (S : List Addr) (i : Nat) (c : List Addr) :
    Prop where
  head : ht.arBuckets i = c.head?
  links : Links (fun p => (mem.cells p).pNext) (fun p => (mem.cells p).pLast) c
  nodup : c.Nodup
  mem_iff : ∀ p, p ∈ c ↔ p ∈ S ∧ ht.nIndex (mem.cells p).h = i

def Chains (mem : Mem α) (ht : HashTable) (S : List Addr) : Prop :=
  ∀ i ≤ ht.nTableMask.toNat, ∃ c, Chain mem ht S i c

variable {S : List Addr} {mem' : Mem α}

/-- Chains only read the mask, the slot heads, and hash and chain links of their
own buckets. -/
theorem Chain.congr {S' : List Addr} {i : Nat} {c : List Addr} (chain : Chain mem ht S i c)
    (members : ∀ p, p ∈ S' ↔ p ∈ S) (mask : ht'.nTableMask = ht.nTableMask)
    (slot : ht'.arBuckets i = ht.arBuckets i) (hash : ∀ p ∈ S, (mem'.cells p).h = (mem.cells p).h)
    (next : ∀ p ∈ c, (mem'.cells p).pNext = (mem.cells p).pNext)
    (last : ∀ p ∈ c, (mem'.cells p).pLast = (mem.cells p).pLast) : Chain mem' ht' S' i c where
  head := slot.trans chain.head
  links := links_congr chain.links next last
  nodup := chain.nodup
  mem_iff p := by
    rw [chain.mem_iff, members, nIndex_congr mask]
    exact and_congr_right fun member => by rw [hash p member]

theorem Chains.congr {S' : List Addr} (chains : Chains mem ht S) (members : ∀ p, p ∈ S' ↔ p ∈ S)
    (mask : ht'.nTableMask = ht.nTableMask)
    (slots : ∀ i ≤ ht.nTableMask.toNat, ht'.arBuckets i = ht.arBuckets i)
    (hash : ∀ p ∈ S, (mem'.cells p).h = (mem.cells p).h)
    (next : ∀ p ∈ S, (mem'.cells p).pNext = (mem.cells p).pNext)
    (last : ∀ p ∈ S, (mem'.cells p).pLast = (mem.cells p).pLast) : Chains mem' ht' S' := by
  intro i bound
  rw [mask] at bound
  obtain ⟨c, chain⟩ := chains i bound
  have inside : ∀ p ∈ c, p ∈ S := fun p member => ((chain.mem_iff p).mp member).1
  exact ⟨c, chain.congr members mask (slots i bound) hash
    (fun p member => next p (inside p member)) (fun p member => last p (inside p member))⟩

theorem chains_nil (empty : ∀ i ≤ ht.nTableMask.toNat, ht.arBuckets i = none) :
    Chains mem ht [] := by
  intro i bound
  exact ⟨[], empty i bound, links_nil _ _, nodup_nil, by simp⟩

/-- Two buckets of one chain hash to the same slot, so a bucket is on one chain only. -/
theorem Chain.slot_unique {c d : List Addr} {i j : Nat} {p : Addr} (first : Chain mem ht S i c)
    (second : Chain mem ht S j d) (inFirst : p ∈ c) (inSecond : p ∈ d) : i = j :=
  ((first.mem_iff p).mp inFirst).2.symm.trans ((second.mem_iff p).mp inSecond).2

section connectBucket

variable (mem : Mem α) (p : Addr) (listHead : Option Addr)

theorem connectBucket_cells (x : Addr) :
    (connectToBucketDllist mem p listHead).cells x = { mem.cells x with
      pNext := if x = p then listHead else (mem.cells x).pNext
      pLast := if listHead = some x then some p else if x = p then none
        else (mem.cells x).pLast } := by
  simp only [connectToBucketDllist, modify?_cells, modify_cells, if_true]
  split_ifs <;> simp_all

theorem connectBucket_sameCores : SameCores mem (connectToBucketDllist mem p listHead) := by
  refine ((SameCores.modify ?_).trans (SameCores.modify ?_)).trans (SameCores.modify? ?_)
  all_goals exact fun _ => rfl

theorem connectBucket_outside {x : Addr} (apart : x ≠ p) (notHead : listHead ≠ some x) :
    (connectToBucketDllist mem p listHead).cells x = mem.cells x := by
  rw [connectBucket_cells, if_neg apart, if_neg notHead, if_neg apart]

end connectBucket

/-- CONNECT_TO_BUCKET_DLLIST followed by the store into the slot adds one bucket. -/
theorem chains_push {p : Addr} (chains : Chains mem ht S) (fresh : p ∉ S) :
    Chains (connectToBucketDllist mem p (ht.arBuckets (ht.nIndex (mem.cells p).h)))
      (ht.setBucket (ht.nIndex (mem.cells p).h) (some p)) (p :: S) := by
  have hash := fun x => core_h ((connectBucket_sameCores mem p
    (ht.arBuckets (ht.nIndex (mem.cells p).h))).core x)
  obtain ⟨own, ownChain⟩ := chains _ (nIndex_le ht (mem.cells p).h)
  have freshOwn : p ∉ own := fun member => fresh ((ownChain.mem_iff p).mp member).1
  have apart : ∀ x ∈ own, x ≠ p := fun x member same => freshOwn (same ▸ member)
  intro i bound
  by_cases target : i = ht.nIndex (mem.cells p).h
  · -- the chain that receives the bucket
    refine ⟨p :: own, ?_, ?_, nodup_cons.mpr ⟨freshOwn, ownChain.nodup⟩, ?_⟩
    · simp [setBucket_arBuckets, target]
    · apply links_cons ownChain.links ownChain.nodup
      · simp [connectBucket_cells, ownChain.head]
      · have notHead : own.head? ≠ some p := fun head => freshOwn (mem_of_head? head)
        simp [connectBucket_cells, ownChain.head, if_neg notHead]
      · intro x member
        simp only [connectBucket_cells, if_neg (apart x member)]
      · intro x member
        simp only [connectBucket_cells, ownChain.head, if_neg (apart x member)]
    · intro x
      rw [mem_cons, mem_cons, ownChain.mem_iff, hash x, target]
      constructor
      · rintro (rfl | ⟨member, slot⟩)
        · exact ⟨.inl rfl, rfl⟩
        · exact ⟨.inr member, slot⟩
      · rintro ⟨rfl | member, slot⟩
        · exact .inl rfl
        · exact .inr ⟨member, slot⟩
  · -- every other chain keeps its links
    obtain ⟨c, chain⟩ := chains i bound
    have outside : ∀ x ∈ c, x ≠ p := by
      rintro x member rfl
      exact fresh ((chain.mem_iff x).mp member).1
    have notHead : ∀ x ∈ c, ht.arBuckets (ht.nIndex (mem.cells p).h) ≠ some x := by
      intro x member head
      rw [ownChain.head] at head
      exact target (chain.slot_unique ownChain member (mem_of_head? head))
    refine ⟨c, ?_, ?_, chain.nodup, ?_⟩
    · rw [setBucket_arBuckets, if_neg target, chain.head]
    · refine links_congr chain.links ?_ ?_
      · intro x member
        simp only [connectBucket_cells, if_neg (outside x member)]
      · intro x member
        simp only [connectBucket_cells, if_neg (notHead x member), if_neg (outside x member)]
    intro x
    rw [chain.mem_iff, mem_cons, hash x]
    constructor
    · rintro ⟨member, slot⟩
      exact ⟨.inr member, slot⟩
    · rintro ⟨rfl | member, slot⟩
      · exact absurd slot.symm target
      · exact ⟨member, slot⟩

/-! ### The insertion-order list -/

/-- The list pointers of the table thread the buckets of `xs`. -/
structure Ordered (mem : Mem α) (ht : HashTable) (xs : List Addr) : Prop where
  nodup : xs.Nodup
  head : ht.pListHead = xs.head?
  tail : ht.pListTail = xs.getLast?
  links : Links (fun p => (mem.cells p).pListNext) (fun p => (mem.cells p).pListLast) xs

theorem Ordered.congr {xs : List Addr} (ordered : Ordered mem ht xs)
    (head : ht'.pListHead = ht.pListHead) (tail : ht'.pListTail = ht.pListTail)
    (next : ∀ p ∈ xs, (mem'.cells p).pListNext = (mem.cells p).pListNext)
    (last : ∀ p ∈ xs, (mem'.cells p).pListLast = (mem.cells p).pListLast) :
    Ordered mem' ht' xs where
  nodup := ordered.nodup
  head := head.trans ordered.head
  tail := tail.trans ordered.tail
  links := links_congr ordered.links next last

theorem Ordered.next_eq {l r : List Addr} {p : Addr}
    (ordered : Ordered mem ht (l ++ p :: r)) : (mem.cells p).pListNext = r.head? :=
  links_next ordered.links

/-- The table as the source keeps it between two calls; `xs` are its buckets in
list order. Only the integer fields say nothing about the keys. -/
structure Wf (mem : Mem α) (ht : HashTable) (xs : List Addr) : Prop where
  ordered : Ordered mem ht xs
  live : ∀ p ∈ xs, p ∈ mem.live
  chains : Chains mem ht xs
  size : ∃ k, 3 ≤ k ∧ k < 32 ∧ ht.nTableSize.toNat = 2 ^ k
  mask : (ht.nTableMask = 0 ∧ xs = []) ∨ ht.nTableMask = ht.nTableSize - 1
  count : ht.nNumOfElements = UInt32.ofNat xs.length
  cursor : ∀ p, ht.pInternalPointer = some p → p ∈ xs

theorem Wf.length_le {xs : List Addr} (wf : Wf mem ht xs) : xs.length ≤ mem.live.length :=
  (subperm_of_subset wf.ordered.nodup wf.live).length_le

/-- A table does not see writes outside its own buckets, and not those to key or
data of its buckets as long as the hashes stay. -/
theorem Wf.frame {xs : List Addr} (wf : Wf mem ht xs) (live : ∀ p ∈ xs, p ∈ mem'.live)
    (hash : ∀ p ∈ xs, (mem'.cells p).h = (mem.cells p).h)
    (listNext : ∀ p ∈ xs, (mem'.cells p).pListNext = (mem.cells p).pListNext)
    (listLast : ∀ p ∈ xs, (mem'.cells p).pListLast = (mem.cells p).pListLast)
    (next : ∀ p ∈ xs, (mem'.cells p).pNext = (mem.cells p).pNext)
    (last : ∀ p ∈ xs, (mem'.cells p).pLast = (mem.cells p).pLast) : Wf mem' ht xs where
  __ := wf
  ordered := wf.ordered.congr rfl rfl listNext listLast
  live := live
  chains := wf.chains.congr (fun _ => Iff.rfl) rfl (fun _ _ => rfl) hash next last

end Jonj.Hash
