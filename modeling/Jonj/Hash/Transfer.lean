import Jonj.Hash.Operations

/-!
# Copying and merging tables

Both loops walk the source in list order while they write to the target. The two
tables share the bucket memory, so each round has to leave the source alone; this
is what `Frame` provides as long as the tables are different ones.
-/
namespace Jonj.Hash

open List

variable {α : Type}

/-! ### The copy constructor -/

variable {flag : HashFlag} {sp : Spec α}

private theorem insert_refused {k : HKey} {v : α} (refused : (sp.insert k v flag).2 = false)
    (w : α) :
    (sp.insert k v flag).1 = (sp.insert k w flag).1 := by
  unfold Spec.insert Spec.storeNew at *
  split at refused
  · cases refused
  next notUpdate =>
  simp only [if_neg notUpdate]
  split at refused
  next present => simp only [if_pos present]
  · cases refused

private theorem store_put (sp : Spec α) (k : HKey) (v w : α) :
    { sp.store k v with map := (sp.store k v).map.put k w } = sp.store k w := by
  simp only [Spec.store, OrderedMap.put_put]

private theorem insert_put {k : HKey} {v : α} (stored : (sp.insert k v flag).2 = true) (w : α) :
    { (sp.insert k v flag).1 with map := (sp.insert k v flag).1.map.put k w } =
      (sp.insert k w flag).1 := by
  unfold Spec.insert Spec.storeNew at *
  split at stored
  next update => simp only [if_pos update, store_put]
  next notUpdate =>
  simp only [if_neg notUpdate]
  split at stored
  · cases stored
  next absent => simp only [if_neg absent, store_put]

variable {sourceSp : Spec α} {ys : List Addr}

section transfer

variable {mem : Mem α} {xs xs' : List Addr} {sp : Spec α}

/-- The copy constructor runs on the data that was just stored. -/
theorem copyConstruct_moved {k : HKey} {v : α} {r : Inserted α}
    (ctor : Option (α → α)) (outcome : Outcome mem xs k v (sp.insert k v flag) r xs') :
    Moved mem xs (copyConstruct ctor r.mem r.pDest) r.ht xs'
      (sp.insert k (ctor.getD id v) flag).1 := by
  cases ctor with
  | none => exact outcome.toMoved
  | some f =>
    have status := outcome.status
    cases returned : r.pDest with
    | none =>
      rw [returned] at status
      simp only [copyConstruct, Mem.modify?, Option.getD_some]
      rw [← insert_refused status.symm (f v)]
      exact outcome.toMoved
    | some p =>
      rw [returned] at status
      obtain ⟨member, new⟩ := outcome.dest p returned
      have key : (r.mem.cells p).key = k := congrArg Prod.fst new
      have data : (r.mem.cells p).pData = v := congrArg Prod.snd new
      have written : copyConstruct (some f) r.mem (some p) =
          r.mem.modify p fun b => { b with pData := f v } := by
        simp only [copyConstruct, Mem.modify?, Mem.modify, data]
      rw [written, Option.getD_some, ← insert_put status.symm (f v)]
      exact ⟨key ▸ outcome.rel.setData member (f v), setData_memOk outcome.ok p (f v),
        outcome.frame.trans (setData_frame member (f v))⟩

/-! ### One source bucket -/

variable {pemalloc : Pemalloc} {target : HashTable} {p : Addr}

section

variable (fresh : pemalloc.Fresh) (ok : MemOk mem) (rel : TableRel mem target xs sp)

include fresh ok rel

/-- The entry of another table is stored under its string key. -/
theorem insertString_rel (live : p ∈ mem.live) (string : (mem.cells p).nKeyLength ≠ 0)
    (noAppend : flag ≠ .nextInsert) :
    ∃ xs', Outcome mem xs (mem.cells p).key (mem.cells p).pData
      (sp.insert (mem.cells p).key (mem.cells p).pData flag)
      (zendHashQuickAddOrUpdate pemalloc mem target (mem.cells p).arKey (mem.cells p).nKeyLength
        (mem.cells p).h (mem.cells p).pData flag) xs' := by
  have bucket := ok.bucket p live
  rw [bucket.key_eq string, (bucket.string string).2.2]
  -- equal key pointers of allocated buckets mean equal bytes
  exact zendHashQuickAddOrUpdate_rel fresh ok rel (bucket.passed string)
    (fun q used same => ok.agree q used p live same) _ noAppend

/-- The entry of another table is stored under its integer key. -/
theorem insertIndex_rel (integer : (mem.cells p).nKeyLength = 0) :
    ∃ xs', Outcome mem xs (mem.cells p).key (mem.cells p).pData
      (sp.insert (mem.cells p).key (mem.cells p).pData .update)
      (zendHashIndexUpdateOrNextInsert pemalloc mem target (mem.cells p).h (mem.cells p).pData
        .update) xs' := by
  rw [key_int_iff.mpr ⟨integer, rfl⟩]
  exact zendHashIndexUpdateOrNextInsert_rel fresh ok rel _ _ .update rfl

end

/-- The source is as it was, and the loop goes on there. -/
theorem Moved.source {mem' : Mem α} {ht source : HashTable} {l r : List Addr} {sp' : Spec α}
    (moved : Moved mem xs mem' ht xs' sp') (sourceRel : TableRel mem source ys sourceSp)
    (disjoint : ∀ q ∈ ys, q ∉ xs) (split : ys = l ++ p :: r) :
    TableRel mem' source ys sourceSp ∧ (∀ q ∈ ys, q ∉ xs') ∧
      (mem'.cells p).pListNext = r.head? ∧ r.map (entry mem') = r.map (entry mem) := by
  have kept := sourceRel.frame moved.frame disjoint
  refine ⟨kept, moved.frame.disjoint sourceRel.wf.live disjoint, ?_, ?_⟩
  · exact Ordered.next_eq (split ▸ kept.wf.ordered)
  refine map_congr_left fun q member => ?_
  have inside : q ∈ ys := by simp [split, member]
  simp only [entry]
  rw [moved.frame.cells q (sourceRel.wf.live q inside) (disjoint q inside)]

end transfer

/-! ### The loops -/

variable {pemalloc : Pemalloc} {source target : HashTable} {mem : Mem α} {xs : List Addr}

/-- A loop over the source whose rounds refine a step refines the fold of the steps. -/
theorem walk_rel (loop : Nat → Option Addr → Mem α → HashTable → Mem α × HashTable)
    (step : Spec α → HKey × α → Spec α)
    (ends : ∀ fuel mem target, loop fuel none mem target = (mem, target))
    (round : ∀ mem target xs sp p, MemOk mem → TableRel mem target xs sp → p ∈ mem.live →
      ∃ mem' target' xs',
      Moved mem xs mem' target' xs' (step sp (entry mem p)) ∧
        ∀ fuel, loop (fuel + 1) (some p) mem target =
          loop fuel (mem'.cells p).pListNext mem' target')
    {fuel : Nat} {l r : List Addr} (split : ys = l ++ r) (enough : r.length ≤ fuel) (ok : MemOk mem)
    (rel : TableRel mem target xs sp) (sourceRel : TableRel mem source ys sourceSp)
    (disjoint : ∀ q ∈ ys, q ∉ xs) :
    ∃ xs', Moved mem xs (loop fuel r.head? mem target).1 (loop fuel r.head? mem target).2 xs'
      ((r.map (entry mem)).foldl step sp) := by
  induction r generalizing fuel l mem target xs sp with
  | nil =>
    rw [head?_nil, ends]
    exact ⟨xs, rel, ok, Frame.refl mem xs⟩
  | cons p r ih =>
    cases fuel with
    | zero => cases enough
    | succ fuel =>
      obtain ⟨mem', target', xs₁, moved, continues⟩ :=
        round _ _ _ _ p ok rel (sourceRel.wf.live p (by simp [split]))
      obtain ⟨sourceRel', disjoint', next, same⟩ := moved.source sourceRel disjoint split
      obtain ⟨xs', rest⟩ := @ih _ target' mem' xs₁ fuel (l ++ [p]) (by simp [split])
        (Nat.le_of_succ_le_succ enough)
        moved.ok moved.rel sourceRel' disjoint'
      rw [head?_cons, continues, next, map_cons, foldl_cons, ← same]
      exact ⟨xs', rest.rel, rest.ok, moved.frame.trans rest.frame⟩

theorem TableRel.atHead (rel : TableRel mem target xs sp) :
    TableRel mem { target with pInternalPointer := target.pListHead } xs sp := by
  refine rel.cores (rel.wf.withCursor _ fun p first => ?_) (fun _ _ => rfl) rfl
  rw [rel.wf.ordered.head] at first
  exact mem_of_head? first

section

variable (fresh : pemalloc.Fresh)

include fresh

/-- Without `overwrite` the loop guards an integer key by a lookup of its own. -/
theorem mergeRound_outcome (ok : MemOk mem) (rel : TableRel mem target xs sp) (overwrite : Bool)
    {p : Addr} (live : p ∈ mem.live) : ∃ xs', Outcome mem xs (mem.cells p).key (mem.cells p).pData
      (sp.insert (mem.cells p).key (mem.cells p).pData (if overwrite then .update else .add))
      (if (mem.cells p).nKeyLength ≠ 0 then zendHashQuickAddOrUpdate pemalloc mem target
        (mem.cells p).arKey
            (mem.cells p).nKeyLength (mem.cells p).h (mem.cells p).pData
              (if overwrite then .update else .add)
        else if overwrite || !zendHashIndexExists mem target (mem.cells p).h then
          zendHashIndexUpdateOrNextInsert pemalloc mem target (mem.cells p).h
            (mem.cells p).pData .update
        else ⟨mem, target, none⟩) xs' := by
  by_cases string : (mem.cells p).nKeyLength ≠ 0
  · rw [if_pos string]
    exact insertString_rel fresh ok rel live string (by cases overwrite <;> simp)
  have integer := not_not.mp string
  rw [if_neg string]
  cases overwrite with
  | true => exact insertIndex_rel fresh ok rel integer
  | false =>
    have lookup := search_index rel.wf rel.distinct (mem.cells p).h
    have keyed : (mem.cells p).key = .int (mem.cells p).h := key_int_iff.mpr ⟨integer, rfl⟩
    rw [← keyed] at lookup
    simp only [zendHashIndexExists, lookup, Bool.false_or, Bool.false_eq_true, if_false]
    cases hit : xs.find? fun q => decide ((mem.cells q).key = (mem.cells p).key) with
    | some q =>
      obtain ⟨member, same⟩ := find_some_iff hit
      exact ⟨xs, outcome_refused ok rel (same ▸ rel.mem_keys member) (by simp)⟩
    | none =>
      have absent := rel.not_mem_keys hit
      have inserted := insertIndex_rel fresh ok rel integer
      rw [insert_absent absent] at inserted ⊢
      exact inserted

section

variable (ctor : Option (α → α)) (ok : MemOk mem) (rel : TableRel mem target xs sp)
  (sourceRel : TableRel mem source ys sourceSp) (disjoint : ∀ q ∈ ys, q ∉ xs)

include ok rel sourceRel disjoint

/-- `zend_hash_copy` stores every entry of the source. -/
theorem zendHashCopy_rel :
    ∃ xs', Moved mem xs (zendHashCopy pemalloc mem target source ctor).1
      (zendHashCopy pemalloc mem target source ctor).2 xs'
      (sp.copyFrom (ctor.getD id) sourceSp.map.entries) := by
  obtain ⟨xs', copied⟩ := walk_rel (copyLoop pemalloc source ctor
    (decide (target.pInternalPointer = none)))
    (fun sp e => sp.store e.1 (ctor.getD id e.2)) (fun fuel _ _ => by cases fuel <;> rfl) (by
      intro mem target' xs sp p ok rel live
      -- forgetting the cursor of the target does not touch what it stores
      have rel' : TableRel mem (if decide (target.pInternalPointer = none) &&
        decide (source.pInternalPointer = some p) then
          { target' with pInternalPointer := none } else target') xs sp := by
        split
        · exact rel.cores (rel.wf.withCursor none (by simp)) (fun _ _ => rfl) rfl
        · exact rel
      obtain ⟨xs', outcome⟩ := mergeRound_outcome fresh ok rel' true live
      exact ⟨_, _, xs', copyConstruct_moved ctor outcome, fun fuel => rfl⟩)
    (nil_append ys).symm sourceRel.wf.length_le ok rel sourceRel disjoint
  rw [← sourceRel.wf.ordered.head, ← sourceRel.entries] at copied
  refine ⟨xs', ?_, copied.ok, copied.frame⟩
  unfold zendHashCopy
  simp only
  split
  · exact copied.rel.atHead
  · exact copied.rel

/-- `_zend_hash_merge` stores them, or only those with a new key. -/
theorem zendHashMerge_rel (overwrite : Bool) :
    ∃ xs', Moved mem xs (zendHashMerge pemalloc mem target source ctor overwrite).1
      (zendHashMerge pemalloc mem target source ctor overwrite).2 xs'
      (sp.mergeFrom (ctor.getD id) overwrite sourceSp.map.entries) := by
  obtain ⟨xs', merged⟩ := walk_rel (mergeLoop pemalloc ctor overwrite)
    (fun sp e => (sp.insert e.1 (ctor.getD id e.2) (if overwrite then .update else .add)).1)
    (fun fuel _ _ => by cases fuel <;> rfl) (by
      intro mem target xs sp p ok rel live
      obtain ⟨xs', outcome⟩ := mergeRound_outcome fresh ok rel overwrite live
      exact ⟨_, _, xs', copyConstruct_moved ctor outcome, fun fuel => rfl⟩)
    (nil_append ys).symm sourceRel.wf.length_le ok rel sourceRel disjoint
  rw [← sourceRel.wf.ordered.head, ← sourceRel.entries] at merged
  have folded : sp.mergeFrom (ctor.getD id) overwrite sourceSp.map.entries =
    sourceSp.map.entries.foldl
      (fun sp e => (sp.insert e.1 (ctor.getD id e.2) (if overwrite then .update else .add)).1)
        sp := by
    cases overwrite <;> rfl
  rw [folded]
  exact ⟨xs', merged.rel.atHead, merged.ok, merged.frame⟩

end

end

end Jonj.Hash
